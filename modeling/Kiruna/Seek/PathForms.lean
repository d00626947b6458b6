import Kiruna.Seek.WindowsPath
import Mathlib.Data.List.TakeWhile

/-!
# The forms of a path

What `parse_prefix` finds tells how the path is spelled, and what it is when another path is pushed
onto it: a path without a prefix goes behind the prefix of the other one.
-/

namespace Kiruna.Seek

variable {path rest t : OsString} {a b c d : UInt16}

theorem isSep_iff : isSep c = true ↔ c = slash ∨ c = backslash := by
  simp [isSep]

theorem isVerbatimSep_iff : isVerbatimSep c = true ↔ c = backslash := by
  simp [isVerbatimSep]

theorem toBackslash_eq_backslash : toBackslash c = backslash ↔ isSep c = true := by
  rw [isSep_iff, toBackslash]
  split_ifs with h
  · simp [h]
  · simp [h]

theorem toBackslash_of_not_sep (hc : isSep c = false) : toBackslash c = c := by
  refine if_neg fun h => ?_
  rw [h] at hc
  cases hc

/-- A character that is not a separator is found where it is. -/
theorem toBackslash_eq (hd : isSep d = false) : toBackslash c = d ↔ c = d := by
  constructor
  · intro h
    by_cases hc : c = slash
    · rw [toBackslash, if_pos hc] at h
      rw [← h] at hd
      cases hd
    · rwa [toBackslash, if_neg hc] at h
  · rintro rfl
    exact toBackslash_of_not_sep hd

theorem map_toBackslash_of_not_mem (h : slash ∉ path) : path.map toBackslash = path := by
  have hsame : ∀ c ∈ path, toBackslash c = c := by
    intro c hc
    refine if_neg ?_
    rintro rfl
    exact h hc
  rw [List.map_congr_left hsame, List.map_id']

theorem isSep_of_alphabetic (hc : isAsciiAlphabetic c = true) : isSep c = false := by
  by_contra h
  rw [Bool.not_eq_false, isSep_iff] at h
  rcases h with rfl | rfl <;> revert hc <;> decide

section Strip

/-- The first eight units are enough for every start that the parser looks for. -/
theorem strip_iff {index : ℕ} {start : OsString} (hle : index + start.length ≤ 8) :
    stripPrefix path index start = true ↔
      ((path.drop index).take start.length).map toBackslash = start := by
  have hmin : min start.length (8 - index) = start.length := by omega
  rw [stripPrefix, List.isPrefixOf_iff_prefix, List.prefix_iff_eq_take, getPrefix, ← List.map_drop,
    ← List.map_take, List.drop_take, List.take_take, hmin]
  exact eq_comm

theorem strip_start : stripPrefix path 0 [backslash, backslash] = true ↔
    ∃ a b rest, path = a :: b :: rest ∧ isSep a = true ∧ isSep b = true := by
  rw [strip_iff (by simp)]
  match path with
  | [] => simp
  | [a] => simp
  | a :: b :: rest => simp [toBackslash_eq_backslash]

theorem strip_mark (hd : isSep d = false) : stripPrefix (a :: b :: rest) 2 [d, backslash] = true ↔
    ∃ c rest', rest = d :: c :: rest' ∧ isSep c = true := by
  rw [strip_iff (by simp)]
  match rest with
  | [] => simp
  | [x] => simp
  | x :: y :: rest' => simp [toBackslash_eq_backslash, toBackslash_eq hd]

theorem strip_unc : stripPrefix (a :: b :: c :: d :: rest) 4 [85, 78, 67, backslash] = true ↔
    ∃ e rest', rest = 85 :: 78 :: 67 :: e :: rest' ∧ isSep e = true := by
  rw [strip_iff (by simp)]
  match rest with
  | [] | [_] | [_, _] | [_, _, _] => simp
  | x :: y :: z :: e :: rest' =>
      have hx : toBackslash x = 85 ↔ x = 85 := toBackslash_eq rfl
      have hy : toBackslash y = 78 ↔ y = 78 := toBackslash_eq rfl
      have hz : toBackslash z = 67 ↔ z = 67 := toBackslash_eq rfl
      simp [toBackslash_eq_backslash, hx, hy, hz, and_assoc]

end Strip

section Forms

/-- No unit of the component is a separator. -/
def Solid (comp : OsString) : Prop := ∀ c ∈ comp, isSep c = false

/-- A component ends with the path or at a separator. -/
def Ends (rest : OsString) : Prop := rest = [] ∨ StartsSep rest

theorem parseNextComponent_false (path : OsString) :
    ∃ comp rest, path = comp ++ rest ∧ parseNextComponent path false = (comp, rest.drop 1) ∧
      Solid comp ∧ Ends rest := by
  refine ⟨path.takeWhile (!isSep ·), path.dropWhile (!isSep ·),
    List.takeWhile_append_dropWhile.symm, rfl, ?_, ?_⟩
  · intro c hc
    simpa using List.mem_takeWhile_imp hc
  · cases hrest : path.dropWhile (!isSep ·) with
    | nil => exact .inl rfl
    | cons c rest =>
        have hc := List.head?_dropWhile_not (!isSep ·) path
        rw [hrest] at hc
        exact .inr ⟨c, rest, rfl, by simpa using hc⟩

theorem parseNextComponent_true (path : OsString) :
    ∃ comp rest, path = comp ++ rest ∧ parseNextComponent path true = (comp, rest.drop 1) ∧
      backslash ∉ comp ∧ Ends rest := by
  refine ⟨path.takeWhile (!isVerbatimSep ·), path.dropWhile (!isVerbatimSep ·),
    List.takeWhile_append_dropWhile.symm, rfl, ?_, ?_⟩
  · intro hc
    have hsep := List.mem_takeWhile_imp hc
    simp [isVerbatimSep] at hsep
  · cases hrest : path.dropWhile (!isVerbatimSep ·) with
    | nil => exact .inl rfl
    | cons c rest =>
        have hc := List.head?_dropWhile_not (!isVerbatimSep ·) path
        rw [hrest] at hc
        exact .inr ⟨c, rest, rfl, by simp [isSep_iff, isVerbatimSep_iff] at hc ⊢; exact .inr hc⟩

/-- How a path with a prefix is spelled. -/
inductive Form : OsString → Prefix → Prop
  | verbatimUNC {c : UInt16} {rest server share : OsString} (hc : isSep c = true) :
      Form (backslash :: backslash :: question :: backslash :: 85 :: 78 :: 67 :: c :: rest)
        (.verbatimUNC server share)
  | verbatimDisk {c drive : UInt16} {rest : OsString} (hc : isAsciiAlphabetic c = true)
      (hrest : Ends rest) :
      Form (backslash :: backslash :: question :: backslash :: c :: colon :: rest)
        (.verbatimDisk drive)
  | verbatim {name rest : OsString} (hname : backslash ∉ name) (hrest : Ends rest)
      (hdrive : parseDriveExact (name ++ rest) = none) :
      Form (backslash :: backslash :: question :: backslash :: (name ++ rest)) (.verbatim name)
  | deviceNS {a b c : UInt16} {name rest : OsString} (ha : isSep a = true) (hb : isSep b = true)
      (hc : isSep c = true) (hname : Solid name) (hrest : Ends rest) :
      Form (a :: b :: dot :: c :: (name ++ rest)) (.deviceNS name)
  | unc {a b c : UInt16} {server share rest : OsString} (ha : isSep a = true) (hb : isSep b = true)
      (hc : isSep c = true) (hserver : Solid server) (hshare : Solid share) (hs : server ≠ [])
      (ht : share ≠ []) (hrest : Ends rest) :
      Form (a :: b :: (server ++ c :: (share ++ rest))) (.unc server share)
  | disk {c drive : UInt16} {rest : OsString} (hc : isAsciiAlphabetic c = true) :
      Form (c :: colon :: rest) (.disk drive)

theorem parseDrive_eq_some (h : parseDrive path = some d) :
    ∃ c rest, path = c :: colon :: rest ∧ isAsciiAlphabetic c = true := by
  match path with
  | [] | [_] => cases h
  | a :: b :: rest =>
      rw [parseDrive] at h
      split_ifs at h with hc
      exact ⟨a, rest, by rw [hc.2], hc.1⟩

theorem parseDriveExact_eq_some (h : parseDriveExact path = some d) :
    ∃ c rest, path = c :: colon :: rest ∧ isAsciiAlphabetic c = true ∧ Ends rest := by
  rw [parseDriveExact] at h
  split_ifs at h with hsep
  obtain ⟨c, rest, rfl, hc⟩ := parseDrive_eq_some h
  refine ⟨c, rest, rfl, hc, ?_⟩
  cases rest with
  | nil => exact .inl rfl
  | cons d rest => exact .inr ⟨d, rest, rfl, by simpa using hsep⟩

theorem parseDriveExact_ne_none (hc : isAsciiAlphabetic c = true) (hrest : Ends rest) :
    parseDriveExact (c :: colon :: rest) ≠ none := by
  have hsep : (c :: colon :: rest)[2]?.all isSep = true := by
    rcases hrest with rfl | ⟨d, rest, rfl, hd⟩
    · rfl
    · exact hd
  rw [parseDriveExact, if_pos hsep, parseDrive, if_pos ⟨hc, rfl⟩]
  exact Option.some_ne_none _

theorem isSep_of_ends (h : Ends (c :: rest)) : isSep c = true := by
  rcases h with h | ⟨d, t, h, hd⟩
  · cases h
  · rwa [(List.cons.inj h).1]

/-- Whether a name is a drive does not depend on what comes behind it. -/
theorem parseDriveExact_append {name : OsString} (h : parseDriveExact (name ++ rest) = none)
    (hrest : Ends rest) (ht : Ends t) : parseDriveExact (name ++ t) = none := by
  cases hdrive : parseDriveExact (name ++ t) with
  | none => rfl
  | some d =>
      obtain ⟨c, r, he, hc, hr⟩ := parseDriveExact_eq_some hdrive
      match name with
      | [] =>
          rw [List.nil_append] at he
          rw [he] at ht
          have hsep := isSep_of_ends ht
          rw [isSep_of_alphabetic hc] at hsep
          cases hsep
      | [x] =>
          have htail : t = colon :: r := (List.cons.inj he).2
          rw [htail] at ht
          cases isSep_of_ends ht
      | x :: y :: name =>
          have hx : x = c := (List.cons.inj he).1
          have hy : y = colon := (List.cons.inj (List.cons.inj he).2).1
          have htail : name ++ t = r := (List.cons.inj (List.cons.inj he).2).2
          subst hx hy
          refine absurd h (parseDriveExact_ne_none hc ?_)
          cases name with
          | nil => exact hrest
          | cons z name =>
              rw [← htail] at hr
              exact .inr ⟨z, name ++ rest, rfl, isSep_of_ends hr⟩

theorem form_parseVerbatim (rest : OsString) :
    Form (backslash :: backslash :: question :: backslash :: rest)
      (parseVerbatim (backslash :: backslash :: question :: backslash :: rest)) := by
  rw [parseVerbatim]
  by_cases hunc : stripPrefix (backslash :: backslash :: question :: backslash :: rest) 4
      [85, 78, 67, backslash] = true
  · rw [if_pos hunc]
    obtain ⟨c, rest, rfl, hc⟩ := strip_unc.mp hunc
    exact .verbatimUNC hc
  · rw [if_neg hunc]
    simp only [List.drop_succ_cons, List.drop_zero]
    cases hdrive : parseDriveExact rest with
    | some d =>
        obtain ⟨c, rest, rfl, hc, hends⟩ := parseDriveExact_eq_some hdrive
        exact .verbatimDisk hc hends
    | none =>
        obtain ⟨name, tail, rfl, hnext, hname, htail⟩ := parseNextComponent_true rest
        rw [hnext]
        exact .verbatim hname htail hdrive

theorem form_of_parseUnc {p : Prefix} (ha : isSep a = true) (hb : isSep b = true)
    (h : parseUnc (a :: b :: rest) = some p) : Form (a :: b :: rest) p := by
  obtain ⟨server, tail, rfl, hnext, hserver, htail⟩ := parseNextComponent_false rest
  obtain ⟨share, tail', hdrop, hnext', hshare, htail'⟩ := parseNextComponent_false (tail.drop 1)
  simp only [parseUnc, List.drop_succ_cons, List.drop_zero, hnext, hnext'] at h
  split_ifs at h with hne
  cases h
  rcases htail with rfl | ⟨c, rest, rfl, hc⟩
  · rw [List.drop_nil] at hdrop
    exact absurd (List.append_eq_nil_iff.mp hdrop.symm).1 hne.2
  · rw [List.drop_succ_cons, List.drop_zero] at hdrop
    rw [hdrop]
    exact .unc ha hb hc hserver hshare hne.1 hne.2 htail'

theorem form_of_parsePrefix {p : Prefix} (h : parsePrefix path = some p) : Form path p := by
  rw [parsePrefix] at h
  by_cases hstart : stripPrefix path 0 [backslash, backslash] = true
  · rw [if_pos hstart] at h
    obtain ⟨a, b, rest, rfl, ha, hb⟩ := strip_start.mp hstart
    by_cases hmark : stripPrefix (a :: b :: rest) 2 [question, backslash] = true ∧
        slash ∉ (a :: b :: rest).take 4
    · rw [if_pos hmark] at h
      obtain ⟨c, rest, rfl, hc⟩ := (strip_mark rfl).mp hmark.1
      obtain ⟨rfl, rfl, rfl⟩ : a = backslash ∧ b = backslash ∧ c = backslash := by
        have hslash := hmark.2
        rw [isSep_iff] at ha hb hc
        simp only [List.take_succ_cons, List.take_zero, List.mem_cons, not_or] at hslash
        exact ⟨ha.resolve_left (Ne.symm hslash.1), hb.resolve_left (Ne.symm hslash.2.1),
          hc.resolve_left (Ne.symm hslash.2.2.2.1)⟩
      cases h
      exact form_parseVerbatim rest
    · rw [if_neg hmark] at h
      by_cases hdot : stripPrefix (a :: b :: rest) 2 [dot, backslash] = true
      · rw [if_pos hdot] at h
        obtain ⟨c, rest, rfl, hc⟩ := (strip_mark rfl).mp hdot
        obtain ⟨name, tail, rfl, hnext, hname, htail⟩ := parseNextComponent_false rest
        simp only [List.drop_succ_cons, List.drop_zero, hnext] at h
        cases h
        exact .deviceNS ha hb hc hname htail
      · rw [if_neg hdot] at h
        exact form_of_parseUnc ha hb h
  · rw [if_neg hstart] at h
    obtain ⟨d, hd, rfl⟩ := Option.map_eq_some_iff.mp h
    obtain ⟨c, rest, rfl, hc⟩ := parseDrive_eq_some hd
    exact .disk hc

theorem not_isDrive_of_sep {p : Prefix} (ha : isSep a = true) (h : Form (a :: rest) p) :
    p.isDrive = false := by
  cases h with
  | disk hc =>
      rw [isSep_of_alphabetic hc] at ha
      cases ha
  | _ => rfl

theorem isAbsolute_iff : IsAbsolute path ↔
    ∃ p, parsePrefix path = some p ∧ (p.isDrive = true → HasPhysicalRoot path) := by
  constructor
  · rintro ⟨hroot, hsome⟩
    obtain ⟨p, hp⟩ := Option.isSome_iff_exists.mp hsome
    refine ⟨p, hp, fun hdrive => ?_⟩
    rcases hroot with hroot | ⟨p', hp', himplicit⟩
    · exact hroot
    · obtain rfl := Option.some.inj (hp.symm.trans hp')
      simp [Prefix.hasImplicitRoot, hdrive] at himplicit
  · rintro ⟨p, hp, hroot⟩
    refine ⟨?_, by rw [hp]; rfl⟩
    by_cases hdrive : p.isDrive = true
    · exact .inl (hroot hdrive)
    · exact .inr ⟨p, hp, by simp [Prefix.hasImplicitRoot, hdrive]⟩

/-- A path that begins with two separators is absolute if it has a prefix. -/
theorem isAbsolute_of_sep (ha : isSep a = true) (hsome : (parsePrefix (a :: rest)).isSome = true) :
    IsAbsolute (a :: rest) := by
  obtain ⟨p, hp⟩ := Option.isSome_iff_exists.mp hsome
  refine isAbsolute_iff.mpr ⟨p, hp, fun hdrive => ?_⟩
  rw [not_isDrive_of_sep ha (form_of_parsePrefix hp)] at hdrive
  cases hdrive

theorem parsePrefix_drive (hc : isAsciiAlphabetic c = true) :
    parsePrefix (c :: colon :: rest) = some (.disk (toAsciiUppercase c)) := by
  have hstart : ¬ stripPrefix (c :: colon :: rest) 0 [backslash, backslash] = true := by
    rw [strip_start]
    rintro ⟨a, b, rest, h, ha, -⟩
    cases h
    rw [isSep_of_alphabetic hc] at ha
    cases ha
  rw [parsePrefix, if_neg hstart, parseDrive, if_pos ⟨hc, rfl⟩]
  rfl

theorem hasPhysicalRoot_drive (hc : isAsciiAlphabetic c = true) :
    HasPhysicalRoot (c :: colon :: rest) ↔ StartsSep rest := by
  rw [HasPhysicalRoot, prefixLen, parsePrefix_drive hc]
  rfl

theorem isAbsolute_drive (hc : isAsciiAlphabetic c = true) :
    IsAbsolute (c :: colon :: rest) ↔ StartsSep rest := by
  rw [isAbsolute_iff, ← hasPhysicalRoot_drive hc]
  constructor
  · rintro ⟨p, hp, hroot⟩
    rw [parsePrefix_drive hc] at hp
    cases hp
    exact hroot rfl
  · intro hroot
    exact ⟨_, parsePrefix_drive hc, fun _ => hroot⟩

theorem isAbsolute_device (ha : isSep a = true) (hb : isSep b = true) (hc : isSep c = true) :
    IsAbsolute (a :: b :: dot :: c :: rest) := by
  refine isAbsolute_of_sep ha ?_
  have hmark : ¬ stripPrefix (a :: b :: dot :: c :: rest) 2 [question, backslash] = true := by
    rw [strip_mark rfl]
    rintro ⟨c, rest', h, -⟩
    cases h
  rw [parsePrefix, if_pos (strip_start.mpr ⟨a, b, _, rfl, ha, hb⟩), if_neg (fun h => hmark h.1),
    if_pos ((strip_mark rfl).mpr ⟨c, rest, rfl, hc⟩)]
  rfl

theorem takeWhile_solid {comp : OsString} (rest : OsString) (hcomp : Solid comp)
    (hc : isSep c = true) :
    (comp ++ c :: rest).takeWhile (!isSep ·) = comp ∧
      (comp ++ c :: rest).dropWhile (!isSep ·) = c :: rest := by
  induction comp with
  | nil => simp [hc]
  | cons x comp ih =>
      obtain ⟨htake, hdrop⟩ := ih fun y hy => hcomp y (List.mem_cons_of_mem _ hy)
      have hx := hcomp x List.mem_cons_self
      simp [hx, htake, hdrop]

theorem isAbsolute_unc (ha : isSep a = true) (hb : isSep b = true) (hc : isSep c = true)
    {server : OsString} (hserver : Solid server) (hs : server ≠ []) (hd : isSep d = false) :
    IsAbsolute (a :: b :: (server ++ c :: d :: rest)) := by
  refine isAbsolute_of_sep ha ?_
  rw [parsePrefix, if_pos (strip_start.mpr ⟨a, b, _, rfl, ha, hb⟩)]
  split_ifs
  · rfl
  · rfl
  · obtain ⟨htake, hdrop⟩ := takeWhile_solid (d :: rest) hserver hc
    have hshare : (d :: rest).takeWhile (!isSep ·) ≠ [] := by simp [hd]
    simp [parseUnc, parseNextComponent, htake, hdrop, hs, hshare]

end Forms

section Push

variable {cwd : OsString} {p : Prefix}

theorem Prefix.len_pos (p : Prefix) : 0 < p.len := by
  cases p <;> simp only [Prefix.len] <;> omega

theorem prefixLen_eq (hp : parsePrefix path = some p) : prefixLen path = p.len := by
  rw [prefixLen, hp]
  rfl

theorem unc_eq_append (a b c : UInt16) (server share rest : OsString) :
    a :: b :: (server ++ c :: (share ++ rest)) = a :: b :: (server ++ c :: share) ++ rest := by
  simp

theorem len_unc (a b c : UInt16) (server : OsString) {share : OsString} (ht : share ≠ []) :
    (a :: b :: (server ++ c :: share)).length = (Prefix.unc server share).len := by
  rw [Prefix.len, if_pos (List.length_pos_iff.mpr ht)]
  simp only [List.length_cons, List.length_append]
  omega

theorem length_start (a b c d : UInt16) (name : OsString) :
    (a :: b :: c :: d :: name).length = 4 + name.length := by
  simp only [List.length_cons]
  omega

theorem take_name (a b c d : UInt16) (name rest : OsString) :
    (a :: b :: c :: d :: (name ++ rest)).take (4 + name.length) = a :: b :: c :: d :: name :=
  List.take_left' (length_start a b c d name)

theorem drop_name (a b c d : UInt16) (name rest : OsString) :
    (a :: b :: c :: d :: (name ++ rest)).drop (4 + name.length) = rest :=
  List.drop_left' (length_start a b c d name)

/-- Behind a prefix the path ends or goes on with a separator. -/
theorem ends_drop (h : Form path p) (hdrive : p.isDrive = false)
    (hunc : ∀ server share, p ≠ .verbatimUNC server share) : Ends (path.drop p.len) := by
  cases h with
  | verbatimUNC => exact absurd rfl (hunc _ _)
  | verbatimDisk hc hrest => exact hrest
  | verbatim hname hrest hd => rwa [Prefix.len, drop_name]
  | deviceNS ha hb hc hname hrest => rwa [Prefix.len, drop_name]
  | unc ha hb hc hserver hshare hs ht hrest =>
      rwa [unc_eq_append, List.drop_left' (len_unc ..)]
      exact ht
  | disk => cases hdrive

theorem not_isAbsolute_of_none (hpath : parsePrefix path = none) : ¬ IsAbsolute path := by
  intro h
  obtain ⟨p, hp, -⟩ := isAbsolute_iff.mp h
  rw [hpath] at hp
  cases hp

theorem hasRoot_of_none (hpath : parsePrefix path = none) : HasRoot path ↔ StartsSep path := by
  simp [HasRoot, HasPhysicalRoot, prefixLen, hpath]

theorem StartsSep.append (h : StartsSep rest) (t : OsString) : StartsSep (rest ++ t) := by
  obtain ⟨c, rest, rfl, hc⟩ := h
  exact ⟨c, rest ++ t, rfl, hc⟩

theorem StartsSep.ne_nil (h : StartsSep rest) : rest ≠ [] := by
  rintro rfl
  obtain ⟨c, t, h, -⟩ := h
  cases h

theorem startsSep_cons_backslash (t : OsString) : StartsSep (backslash :: t) :=
  ⟨backslash, t, rfl, rfl⟩

/-- A path with a prefix replaces the one that it is pushed onto. -/
theorem push_of_isSome (hsome : (parsePrefix path).isSome = true) : push cwd path = path :=
  if_pos (.inr hsome)

theorem push_of_none (hpath : parsePrefix path = none) (hp : parsePrefix cwd = some p) :
    push cwd path =
      if p.isVerbatim = true ∧ path ≠ [] then
        joinComponents false ((components path).foldl pushComponent (components cwd))
      else if StartsSep path then cwd.take p.len ++ path
      else if pushNeedsSep cwd then cwd ++ [backslash] ++ path
      else cwd ++ path := by
  have hnone : ¬ (IsAbsolute path ∨ (parsePrefix path).isSome = true) := by
    rintro (h | h)
    · exact not_isAbsolute_of_none hpath h
    · rw [hpath] at h
      cases h
  have hverbatim : prefixVerbatim cwd = p.isVerbatim := by
    rw [prefixVerbatim, hp]
    rfl
  rw [push, if_neg hnone, hverbatim, prefixLen_eq hp]
  simp only [hasRoot_of_none hpath]

/-- A path without a prefix goes behind the prefix of the one that it is pushed onto. A separator
comes first, unless there is already one at the end of the prefix. -/
theorem push_behind (hpath : parsePrefix path = none) (hp : parsePrefix cwd = some p)
    (hv : p.isVerbatim = false ∨ path = []) (hdrop : Ends (cwd.drop p.len))
    (hdrive : p.isDrive = true → cwd.drop p.len ≠ []) :
    ∃ t, push cwd path = cwd.take p.len ++ t ∧
      (StartsSep t ∨ t = path ∧ cwd.drop p.len = [] ∧ cwd.getLast?.all isSep = true) := by
  have hverbatim : ¬ (p.isVerbatim = true ∧ path ≠ []) := by
    rintro ⟨h, hne⟩
    rcases hv with hv | hv
    · rw [hv] at h
      cases h
    · exact hne hv
  have hsplit : cwd = cwd.take p.len ++ cwd.drop p.len := (List.take_append_drop ..).symm
  rw [push_of_none hpath hp, if_neg hverbatim]
  by_cases hroot : StartsSep path
  · rw [if_pos hroot]
    exact ⟨path, rfl, .inl hroot⟩
  rw [if_neg hroot]
  rcases hdrop with hnil | hsep
  · rw [hnil, List.append_nil] at hsplit
    have hdisk : p.isDrive = false := by
      by_contra h
      exact hdrive (Bool.not_eq_false _ ▸ h) hnil
    have hneeds : pushNeedsSep cwd = cwd.getLast?.any fun c => !isSep c := by
      simp [pushNeedsSep, hp, hdisk]
    rw [hneeds, ← hsplit]
    by_cases hlast : (cwd.getLast?.any fun c => !isSep c) = true
    · rw [if_pos hlast, List.append_assoc]
      exact ⟨_, rfl, .inl (startsSep_cons_backslash path)⟩
    · rw [if_neg hlast]
      refine ⟨path, rfl, .inr ⟨rfl, hnil, ?_⟩⟩
      cases hc : cwd.getLast? with
      | none => rfl
      | some c => simpa [hc] using hlast
  · split_ifs
    · refine ⟨cwd.drop p.len ++ ([backslash] ++ path), ?_, .inl (hsep.append _)⟩
      rw [← List.append_assoc, ← hsplit, List.append_assoc]
    · refine ⟨cwd.drop p.len ++ path, ?_, .inl (hsep.append _)⟩
      rw [← List.append_assoc, ← hsplit]

/-- The components begin with the prefix, and with the root behind it if there is one. -/
def Begins (root : Prop) (raw : OsString) (p : Prefix) (buf : List Component) : Prop :=
  ∃ tail, buf = .pref raw p :: tail ∧ (root → ∃ tail', tail = .rootDir :: tail')

variable {root : Prop} {raw : OsString} {buf : List Component}

theorem begins_components (hp : parsePrefix cwd = some p) (hv : p.isVerbatim = true) :
    Begins (HasPhysicalRoot cwd) (cwd.take p.len) p (components cwd) := by
  have himplicit : ¬ (p.hasImplicitRoot = true ∧ (!p.isVerbatim) = true) := by simp [hv]
  simp only [components, hp, List.singleton_append, if_neg himplicit]
  refine ⟨_, rfl, fun hroot => ?_⟩
  rw [if_pos hroot]
  exact ⟨_, rfl⟩

theorem Begins.pushComponent (h : Begins root raw p buf) (c : Component) :
    Begins root raw p (pushComponent buf c) := by
  obtain ⟨tail, rfl, htail⟩ := h
  cases c with
  | rootDir => exact ⟨[.rootDir], rfl, fun _ => ⟨[], rfl⟩⟩
  | curDir => exact ⟨tail, rfl, htail⟩
  | parentDir =>
      simp only [Kiruna.Seek.pushComponent]
      split
      · rename_i name hlast
        cases tail with
        | nil => cases hlast
        | cons x tail =>
            refine ⟨(x :: tail).dropLast, rfl, fun hroot => ?_⟩
            obtain ⟨tail', he⟩ := htail hroot
            obtain ⟨rfl, rfl⟩ := List.cons.inj he
            cases tail with
            | nil => cases hlast
            | cons y tail => exact ⟨(y :: tail).dropLast, rfl⟩
      · exact ⟨tail, rfl, htail⟩
  | pref raw' p' =>
      refine ⟨tail ++ [.pref raw' p'], rfl, fun hroot => ?_⟩
      obtain ⟨tail', rfl⟩ := htail hroot
      exact ⟨_, rfl⟩
  | normal name =>
      refine ⟨tail ++ [.normal name], rfl, fun hroot => ?_⟩
      obtain ⟨tail', rfl⟩ := htail hroot
      exact ⟨_, rfl⟩

theorem Begins.foldl (h : Begins root raw p buf) (cs : List Component) :
    Begins root raw p (cs.foldl Kiruna.Seek.pushComponent buf) := by
  induction cs generalizing buf with
  | nil => exact h
  | cons c cs ih => exact ih (h.pushComponent c)

/-- Behind the prefix comes a separator, if anything. -/
theorem Begins.joinComponents (h : Begins root raw p buf) (hv : p.isVerbatim = true) :
    ∃ t, joinComponents false buf = raw ++ t ∧ Ends t ∧ (root → StartsSep t) := by
  obtain ⟨tail, rfl, htail⟩ := h
  have hneeds : (Component.pref raw p).needSep = true := by
    have hdrive : p.isDrive = false := by
      cases p with
      | disk => cases hv
      | _ => rfl
    simp [Component.needSep, hdrive, p.len_pos]
  refine ⟨Kiruna.Seek.joinComponents true tail, ?_, ?_, fun hroot => ?_⟩
  · simp only [Kiruna.Seek.joinComponents, hneeds, Component.asOsStr]
    rfl
  · cases tail with
    | nil => exact .inl rfl
    | cons c tail =>
        refine .inr ?_
        by_cases hc : c = .rootDir
        · subst hc
          exact ⟨backslash, _, rfl, rfl⟩
        · rw [Kiruna.Seek.joinComponents, if_pos ⟨rfl, hc⟩]
          exact ⟨backslash, _, rfl, rfl⟩
  · obtain ⟨tail', rfl⟩ := htail hroot
    exact ⟨backslash, _, rfl, rfl⟩

theorem push_verbatim (hpath : parsePrefix path = none) (hp : parsePrefix cwd = some p)
    (hv : p.isVerbatim = true) (hne : path ≠ []) :
    ∃ t, push cwd path = cwd.take p.len ++ t ∧ Ends t ∧ (HasPhysicalRoot cwd → StartsSep t) := by
  rw [push_of_none hpath hp, if_pos ⟨hv, hne⟩]
  exact ((begins_components hp hv).foldl _).joinComponents hv

end Push

end Kiruna.Seek

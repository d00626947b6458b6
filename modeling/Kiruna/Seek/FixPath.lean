import Kiruna.Seek.ObjectNames

/-!
# Paths for the storage API

`GetFileFromPathAsync` wants an absolute path with backslashes and without a verbatim prefix.
`fix_path` pushes a relative path onto the current directory, replaces the slashes and cuts off
`\\?\`. Which of the forms of a path it gets right depends on its prefix, and on the one of the
current directory if it has none.
-/

namespace Kiruna.Seek

/-- The first step of `fix_path`. -/
def absolutePath (currentDir path : OsString) : OsString :=
  if ¬ IsAbsolute path then push currentDir path else path

/-- The other steps of `fix_path`. -/
def storagePath (path : OsString) : OsString :=
  let collect := path.map fun char => if char = slash then backslash else char
  if verbatimStart.isPrefixOf collect then collect.drop 4 else collect

/-- `fix_path`. -/
def fixPath (currentDir path : OsString) : OsString := storagePath (absolutePath currentDir path)

/-- What `std::env::current_dir` returns: an absolute path of a directory. A drive is a directory
only with its root, and the name of an object is not empty and does not begin with a separator. -/
structure CurrentDir where
  path : OsString
  absolute : IsAbsolute path
  rooted : ∀ drive, parsePrefix path = some (.verbatimDisk drive) → HasPhysicalRoot path
  named : ∀ name, parsePrefix path = some (.verbatim name) → name ≠ [] ∧ ¬ StartsSep name

/-- A path that begins with `C:\` or `\\`. -/
def Qualified (path : OsString) : Prop :=
  (∃ c rest, isAsciiAlphabetic c = true ∧ path = c :: colon :: backslash :: rest) ∨
    ∃ rest, path = backslash :: backslash :: rest

/-- The path is one that the storage API accepts, for the same file. -/
structure Fixes (w : Win32) (currentDir path : OsString) : Prop where
  slashes : slash ∉ fixPath currentDir path
  verbatim : ¬ verbatimStart <+: fixPath currentDir path
  qualified : Qualified (fixPath currentDir path)
  sameFile : prefixVerbatim path = true → w.denotes (fixPath currentDir path) = w.denotes path
  idempotent : fixPath currentDir (fixPath currentDir path) = fixPath currentDir path

/-- A name that is a drive, like `C:`. -/
def IsDriveName (name : OsString) : Prop :=
  ∃ c, isAsciiAlphabetic c = true ∧ name = [c, colon]

/-- The paths that `fix_path` gets right. -/
def Fixable (w : PathRules) (currentDir path : OsString) : Prop :=
  match parsePrefix path with
  | some (.disk _) => HasPhysicalRoot path
  | some (.deviceNS _) => True
  | some (.unc server share) => server = [question] → IsDriveName share ∧ HasPhysicalRoot path
  | some (.verbatimDisk _) => HasPhysicalRoot path ∧ w.NormalForm (path.drop 4)
  | some (.verbatimUNC _ _) | some (.verbatim _) => False
  | none =>
      match parsePrefix currentDir with
      | some (.disk _) | some (.deviceNS _) | some (.verbatimDisk _) => True
      | some (.unc server share) => server = [question] → IsDriveName share
      | some (.verbatimUNC _ _) | some (.verbatim _) | none => False

variable {path rest t server share name : OsString} {a b c d : UInt16}

section Storage

theorem toBackslash_ne_slash (c : UInt16) : toBackslash c ≠ slash := by
  unfold toBackslash
  split_ifs with h
  · decide
  · exact h

theorem map_toBackslash_solid (hname : Solid name) : name.map toBackslash = name := by
  rw [List.map_congr_left fun c hc => toBackslash_of_not_sep (hname c hc), List.map_id']

theorem startsSep_iff_map : StartsSep rest ↔ ∃ t, rest.map toBackslash = backslash :: t := by
  cases rest with
  | nil => simp [StartsSep]
  | cons c rest => simp [StartsSep, toBackslash_eq_backslash]

theorem storagePath_eq (path : OsString) : storagePath path =
    if verbatimStart <+: path.map toBackslash then (path.map toBackslash).drop 4
    else path.map toBackslash := by
  simp only [storagePath, List.isPrefixOf_iff_prefix]
  rfl

theorem slash_not_mem_storagePath (path : OsString) : slash ∉ storagePath path := by
  have hmap : slash ∉ path.map toBackslash := by
    rw [List.mem_map]
    rintro ⟨c, -, hc⟩
    exact toBackslash_ne_slash c hc
  rw [storagePath_eq]
  split_ifs
  · exact fun h => hmap (List.mem_of_mem_drop h)
  · exact hmap

/-- A path that is all right stays as it is. -/
theorem storagePath_self (hslash : slash ∉ path) (hverbatim : ¬ verbatimStart <+: path) :
    storagePath path = path := by
  rw [storagePath_eq, map_toBackslash_of_not_mem hslash, if_neg hverbatim]

theorem storagePath_drive (hc : isSep c = false) :
    storagePath (c :: rest) = c :: rest.map toBackslash := by
  rw [storagePath_eq, List.map_cons, toBackslash_of_not_sep hc, if_neg]
  rintro ⟨t, ht⟩
  rw [← (List.cons.inj ht).1] at hc
  cases hc

theorem storagePath_cut (ha : isSep a = true) (hb : isSep b = true) (hc : isSep c = true) :
    storagePath (a :: b :: question :: c :: rest) = rest.map toBackslash := by
  have hmap : (a :: b :: question :: c :: rest).map toBackslash =
      verbatimStart ++ rest.map toBackslash := by
    rw [List.map_cons, List.map_cons, List.map_cons, List.map_cons,
      toBackslash_eq_backslash.mpr ha, toBackslash_eq_backslash.mpr hb,
      toBackslash_eq_backslash.mpr hc]
    rfl
  rw [storagePath_eq, hmap, if_pos (List.prefix_append ..)]
  rfl

end Storage

section Accepted

/-- What makes a path stay as it is. -/
structure Accepted (path : OsString) : Prop where
  qualified : Qualified path
  verbatim : ¬ verbatimStart <+: path
  absolute : IsAbsolute path

theorem accepted_qualified (hc : isAsciiAlphabetic c = true) :
    Accepted (c :: colon :: backslash :: rest) where
  qualified := .inl ⟨c, rest, hc, rfl⟩
  verbatim := by
    rintro ⟨t, ht⟩
    rw [← (List.cons.inj ht).1] at hc
    revert hc
    decide
  absolute := (isAbsolute_drive hc).mpr (startsSep_cons_backslash rest)

theorem accepted_drive (hc : isAsciiAlphabetic c = true) (hrest : StartsSep rest) :
    Accepted (c :: colon :: rest.map toBackslash) := by
  obtain ⟨t, ht⟩ := startsSep_iff_map.mp hrest
  rw [ht]
  exact accepted_qualified hc

theorem map_toBackslash_unc (rest : OsString) (ha : isSep a = true) (hb : isSep b = true)
    (hc : isSep c = true) (hserver : Solid server) :
    (a :: b :: (server ++ c :: rest)).map toBackslash =
      backslash :: backslash :: (server ++ backslash :: rest.map toBackslash) := by
  rw [List.map_cons, List.map_cons, List.map_append, List.map_cons, map_toBackslash_solid hserver,
    toBackslash_eq_backslash.mpr ha, toBackslash_eq_backslash.mpr hb,
    toBackslash_eq_backslash.mpr hc]

/-- Only the server `?` makes the start of a share look like a verbatim prefix. -/
theorem not_verbatim_unc (rest : OsString) (hserver : Solid server) (hs : server ≠ [])
    (hq : server ≠ [question]) :
    ¬ verbatimStart <+: backslash :: backslash :: (server ++ backslash :: rest) := by
  rintro ⟨t, ht⟩
  have htail : question :: backslash :: t = server ++ backslash :: rest :=
    (List.cons.inj (List.cons.inj ht).2).2
  match server with
  | [] => exact hs rfl
  | [x] =>
      rw [List.singleton_append] at htail
      exact hq (by rw [← (List.cons.inj htail).1])
  | x :: y :: server =>
      have hy : backslash = y := (List.cons.inj (List.cons.inj htail).2).1
      have hsolid := hserver y (by simp)
      rw [← hy] at hsolid
      cases hsolid

theorem accepted_unc (ha : isSep a = true) (hb : isSep b = true) (hc : isSep c = true)
    (hserver : Solid server) (hs : server ≠ []) (hq : server ≠ [question]) (hd : isSep d = false) :
    Accepted (storagePath (a :: b :: (server ++ c :: d :: rest))) := by
  have hmap := map_toBackslash_unc (d :: rest) ha hb hc hserver
  have hverbatim := not_verbatim_unc ((d :: rest).map toBackslash) hserver hs hq
  rw [storagePath_eq, hmap, if_neg hverbatim]
  refine ⟨.inr ⟨_, rfl⟩, hverbatim, ?_⟩
  rw [List.map_cons, toBackslash_of_not_sep hd]
  exact isAbsolute_unc rfl rfl rfl hserver hs hd

theorem accepted_device (ha : isSep a = true) (hb : isSep b = true) (hc : isSep c = true) :
    Accepted (storagePath (a :: b :: dot :: c :: rest)) := by
  have hserver : Solid [dot] := by
    intro x hx
    rw [List.mem_singleton.mp hx]
    rfl
  have hmap := map_toBackslash_unc rest ha hb hc hserver
  have hverbatim := not_verbatim_unc (rest.map toBackslash) hserver (by simp) (by decide)
  rw [List.singleton_append] at hmap
  rw [storagePath_eq, hmap, if_neg hverbatim]
  exact ⟨.inr ⟨_, rfl⟩, hverbatim, isAbsolute_device rfl rfl rfl⟩

variable {w : Win32} {currentDir : OsString}

theorem fixes_of_accepted (h : Accepted (fixPath currentDir path))
    (hsame : prefixVerbatim path = true → w.denotes (fixPath currentDir path) = w.denotes path) :
    Fixes w currentDir path where
  slashes := slash_not_mem_storagePath _
  verbatim := h.verbatim
  qualified := h.qualified
  sameFile := hsame
  idempotent := by
    have hself : absolutePath currentDir (fixPath currentDir path) = fixPath currentDir path :=
      if_neg (not_not.mpr h.absolute)
    rw [fixPath, hself]
    exact storagePath_self (slash_not_mem_storagePath _) h.verbatim

end Accepted

section Qualified

theorem not_qualified_unc (rest : OsString) : ¬ Qualified (85 :: 78 :: rest) := by
  rintro (⟨c, t, -, h⟩ | ⟨t, h⟩)
  · exact absurd (List.cons.inj (List.cons.inj h).2).1 (by decide)
  · exact absurd (List.cons.inj h).1 (by decide)

theorem qualified_drive_iff (hc : isAsciiAlphabetic c = true) :
    Qualified (c :: colon :: rest.map toBackslash) ↔ StartsSep rest := by
  constructor
  · rintro (⟨c', t, -, h⟩ | ⟨t, h⟩)
    · exact startsSep_iff_map.mpr ⟨t, (List.cons.inj (List.cons.inj h).2).2⟩
    · have hsep := isSep_of_alphabetic hc
      rw [(List.cons.inj h).1] at hsep
      cases hsep
  · exact fun h => (accepted_drive hc h).qualified

/-- What is left of a share behind the server `?`. -/
theorem qualified_share_iff (hshare : Solid share) (ht : share ≠ []) (hrest : Ends rest) :
    Qualified (share ++ rest.map toBackslash) ↔ IsDriveName share ∧ StartsSep rest := by
  constructor
  · rintro (⟨c, t, hc, h⟩ | ⟨t, h⟩)
    · match share with
      | [] => exact absurd rfl ht
      | [x] =>
          have hcolon : rest.map toBackslash = colon :: backslash :: t := (List.cons.inj h).2
          rcases hrest with rfl | hsep
          · cases hcolon
          · obtain ⟨t', ht'⟩ := startsSep_iff_map.mp hsep
            rw [ht'] at hcolon
            exact absurd (List.cons.inj hcolon).1 (by decide)
      | [x, y] =>
          have hx : x = c := (List.cons.inj h).1
          have hy : y = colon := (List.cons.inj (List.cons.inj h).2).1
          have hsep : rest.map toBackslash = backslash :: t := (List.cons.inj (List.cons.inj h).2).2
          exact ⟨⟨c, hc, by rw [hx, hy]⟩, startsSep_iff_map.mpr ⟨t, hsep⟩⟩
      | x :: y :: z :: share =>
          have hz := hshare z (by simp)
          rw [(List.cons.inj (List.cons.inj (List.cons.inj h).2).2).1] at hz
          cases hz
    · match share with
      | [] => exact absurd rfl ht
      | x :: share =>
          have hx := hshare x (by simp)
          rw [(List.cons.inj h).1] at hx
          cases hx
  · rintro ⟨⟨c, hc, rfl⟩, hsep⟩
    exact (accepted_drive hc hsep).qualified

theorem startsSep_of_qualified (hq : Qualified (path.map toBackslash))
    (hdrive : parseDriveExact path = none) : StartsSep path := by
  rcases hq with ⟨c, t, hc, h⟩ | ⟨t, h⟩
  · match path with
    | [] | [_] | [_, _] => simp at h
    | x :: y :: z :: path =>
        have hx : x = c := (toBackslash_eq (isSep_of_alphabetic hc)).mp (List.cons.inj h).1
        have hy : y = colon := (toBackslash_eq rfl).mp (List.cons.inj (List.cons.inj h).2).1
        have hz : isSep z = true := toBackslash_eq_backslash.mp
          (List.cons.inj (List.cons.inj (List.cons.inj h).2).2).1
        subst hx hy
        exact absurd hdrive (parseDriveExact_ne_none hc (.inr ⟨z, path, rfl, hz⟩))
  · exact startsSep_iff_map.mpr ⟨_, h⟩

end Qualified

section WithPrefix

variable {w : Win32} {currentDir : OsString} {p : Prefix}

theorem prefixVerbatim_eq (hp : parsePrefix path = some p) :
    prefixVerbatim path = p.isVerbatim := by
  rw [prefixVerbatim, hp]
  rfl

/-- A path with a prefix is not changed by the current directory, whether it is absolute or not. -/
theorem fixPath_of_some (currentDir : OsString) (hp : parsePrefix path = some p) :
    fixPath currentDir path = storagePath path := by
  rw [fixPath, absolutePath, push_of_isSome (by rw [hp]; rfl), ite_self]

theorem fixes_of_not_verbatim (hp : parsePrefix path = some p) (hv : p.isVerbatim = false)
    (h : Accepted (storagePath path)) : Fixes w currentDir path := by
  rw [← fixPath_of_some currentDir hp] at h
  refine fixes_of_accepted h fun hverbatim => ?_
  rw [prefixVerbatim_eq hp, hv] at hverbatim
  cases hverbatim

theorem fixes_disk (hp : parsePrefix path = some (.disk d)) :
    Fixes w currentDir path ↔ HasPhysicalRoot path := by
  have hfix := fixPath_of_some currentDir hp
  cases form_of_parsePrefix hp with
  | @disk c _ rest hc =>
      have hstorage : storagePath (c :: colon :: rest) = c :: colon :: rest.map toBackslash :=
        storagePath_drive (isSep_of_alphabetic hc)
      rw [hasPhysicalRoot_drive hc]
      constructor
      · intro h
        have hq := h.qualified
        rw [hfix, hstorage] at hq
        exact (qualified_drive_iff hc).mp hq
      · intro hsep
        refine fixes_of_not_verbatim hp rfl ?_
        rw [hstorage]
        exact accepted_drive hc hsep

theorem fixes_deviceNS (hp : parsePrefix path = some (.deviceNS name)) :
    Fixes w currentDir path := by
  refine fixes_of_not_verbatim hp rfl ?_
  cases form_of_parsePrefix hp with
  | deviceNS ha hb hc => exact accepted_device ha hb hc

theorem exists_cons_of_solid (hshare : Solid share) (ht : share ≠ []) :
    ∃ d share', share = d :: share' ∧ isSep d = false := by
  match share with
  | [] => exact absurd rfl ht
  | d :: share' => exact ⟨d, share', rfl, hshare d List.mem_cons_self⟩

theorem hasPhysicalRoot_unc (ht : share ≠ [])
    (hp : parsePrefix (a :: b :: (server ++ c :: (share ++ rest))) = some (.unc server share)) :
    HasPhysicalRoot (a :: b :: (server ++ c :: (share ++ rest))) ↔ StartsSep rest := by
  rw [HasPhysicalRoot, prefixLen_eq hp, unc_eq_append, List.drop_left' (len_unc a b c server ht)]

theorem accepted_share (hshare : IsDriveName share) (hrest : StartsSep rest) :
    Accepted (share ++ rest.map toBackslash) := by
  obtain ⟨c, hc, rfl⟩ := hshare
  exact accepted_drive hc hrest

theorem fixes_unc (hp : parsePrefix path = some (.unc server share)) :
    Fixes w currentDir path ↔
      (server = [question] → IsDriveName share ∧ HasPhysicalRoot path) := by
  have hfix := fixPath_of_some currentDir hp
  cases form_of_parsePrefix hp with
  | @unc a b c _ _ rest ha hb hc hserver hshare hs ht hrest =>
      rw [hasPhysicalRoot_unc ht hp]
      by_cases hq : server = [question]
      · subst hq
        have hstorage : storagePath (a :: b :: ([question] ++ c :: (share ++ rest))) =
            share ++ rest.map toBackslash := by
          rw [List.singleton_append, storagePath_cut ha hb hc, List.map_append,
            map_toBackslash_solid hshare]
        constructor
        · intro h _
          have hqualified := h.qualified
          rw [hfix, hstorage] at hqualified
          exact (qualified_share_iff hshare ht hrest).mp hqualified
        · intro h
          refine fixes_of_not_verbatim hp rfl ?_
          rw [hstorage]
          exact accepted_share (h rfl).1 (h rfl).2
      · refine iff_of_true (fixes_of_not_verbatim hp rfl ?_) fun h => absurd h hq
        obtain ⟨d, share', rfl, hd⟩ := exists_cons_of_solid hshare ht
        exact accepted_unc ha hb hc hserver hs hq hd

/-- Behind a verbatim prefix nothing is changed but the slashes. -/
theorem storagePath_verbatim (rest : OsString) :
    storagePath (backslash :: backslash :: question :: backslash :: rest) =
      rest.map toBackslash :=
  storagePath_cut rfl rfl rfl

theorem fixes_verbatimUNC (hp : parsePrefix path = some (.verbatimUNC server share)) :
    ¬ Fixes w currentDir path := by
  intro h
  have hq := h.qualified
  rw [fixPath_of_some currentDir hp] at hq
  cases form_of_parsePrefix hp with
  | verbatimUNC hc =>
      rw [storagePath_verbatim] at hq
      exact not_qualified_unc _ hq

theorem fixes_verbatimDisk (hw : w.Documented) (hp : parsePrefix path = some (.verbatimDisk d)) :
    Fixes w currentDir path ↔ HasPhysicalRoot path ∧ w.NormalForm (path.drop 4) := by
  have hfix := fixPath_of_some currentDir hp
  have hlen := prefixLen_eq hp
  cases form_of_parsePrefix hp with
  | @verbatimDisk c _ rest hc hrest =>
      have hroot : HasPhysicalRoot
          (backslash :: backslash :: question :: backslash :: c :: colon :: rest) ↔
            StartsSep rest := by
        rw [HasPhysicalRoot, hlen]
        rfl
      rw [storagePath_verbatim, List.map_cons, toBackslash_of_not_sep (isSep_of_alphabetic hc),
        List.map_cons, toBackslash_of_not_sep rfl] at hfix
      rw [hroot]
      change _ ↔ StartsSep rest ∧ w.NormalForm (c :: colon :: rest)
      constructor
      · intro h
        have hq := h.qualified
        have hsame := h.sameFile (prefixVerbatim_eq hp)
        rw [Win32.denotes_of_not_verbatim h.verbatim, Win32.denotes_verbatim, hfix] at hsame
        rw [hfix] at hq
        have hsep := (qualified_drive_iff hc).mp hq
        exact ⟨hsep, (hw.objectName_iff hc hsep).mp hsame⟩
      · rintro ⟨hsep, hnormal⟩
        have haccepted := accepted_drive hc hsep
        rw [← hfix] at haccepted
        refine fixes_of_accepted haccepted fun _ => ?_
        rw [Win32.denotes_of_not_verbatim haccepted.verbatim, Win32.denotes_verbatim, hfix]
        exact (hw.objectName_iff hc hsep).mpr hnormal

/-- What is left of a verbatim path has neither a drive nor the name of its object. -/
theorem fixes_verbatim (hw : w.Documented) (hp : parsePrefix path = some (.verbatim name)) :
    ¬ Fixes w currentDir path := by
  intro h
  have hq := h.qualified
  have hsame := h.sameFile (prefixVerbatim_eq hp)
  rw [Win32.denotes_of_not_verbatim h.verbatim] at hsame
  rw [fixPath_of_some currentDir hp] at hq hsame
  cases form_of_parsePrefix hp with
  | @verbatim _ rest hname hrest hdrive =>
      rw [storagePath_verbatim] at hq
      rw [Win32.denotes_verbatim] at hsame
      exact hw.named _ _ hsame (startsSep_of_qualified hq hdrive)

end WithPrefix

section WithoutPrefix

variable {w : Win32} {p : Prefix}

theorem fixPath_of_none (currentDir : OsString) (hpath : parsePrefix path = none) :
    fixPath currentDir path = storagePath (push currentDir path) := by
  rw [fixPath, absolutePath, if_pos (not_isAbsolute_of_none hpath)]

theorem fixes_of_none {currentDir : OsString} (hpath : parsePrefix path = none)
    (h : Accepted (storagePath (push currentDir path))) : Fixes w currentDir path := by
  rw [← fixPath_of_none currentDir hpath] at h
  refine fixes_of_accepted h fun hverbatim => ?_
  rw [prefixVerbatim, hpath] at hverbatim
  cases hverbatim

theorem fixes_behind_disk {cwd : OsString} (hpath : parsePrefix path = none)
    (habs : IsAbsolute cwd) (hp : parsePrefix cwd = some (.disk d)) : Fixes w cwd path := by
  refine fixes_of_none hpath ?_
  cases form_of_parsePrefix hp with
  | @disk c _ rest hc =>
      have hrest := (isAbsolute_drive hc).mp habs
      obtain ⟨t, hpush, ht⟩ := push_behind hpath hp (.inl rfl) (.inr hrest) fun _ => hrest.ne_nil
      have hsep : StartsSep t := by
        rcases ht with ht | ⟨-, hnil, -⟩
        · exact ht
        · exact absurd hnil hrest.ne_nil
      rw [hpush]
      change Accepted (storagePath (c :: colon :: t))
      rw [storagePath_drive (isSep_of_alphabetic hc)]
      exact accepted_drive hc hsep

theorem fixes_behind_deviceNS {cwd : OsString} (hpath : parsePrefix path = none)
    (hp : parsePrefix cwd = some (.deviceNS name)) : Fixes w cwd path := by
  refine fixes_of_none hpath ?_
  have hform := form_of_parsePrefix hp
  obtain ⟨t, hpush, -⟩ := push_behind hpath hp (.inl rfl)
    (ends_drop hform rfl (by simp)) (by simp [Prefix.isDrive])
  rw [hpush]
  cases hform with
  | @deviceNS a b c _ rest ha hb hc =>
      rw [Prefix.len, take_name]
      exact accepted_device ha hb hc

theorem getLast?_share (a b c : UInt16) (server : OsString) (hshare : Solid share)
    (ht : share ≠ []) :
    (a :: b :: (server ++ c :: share)).getLast?.all isSep = false := by
  have hlast : (a :: b :: (server ++ c :: share)).getLast? = share.getLast? := by
    have happend : a :: b :: (server ++ c :: share) = (a :: b :: (server ++ [c])) ++ share := by
      simp
    rw [happend, List.getLast?_append_of_ne_nil _ ht]
  rw [hlast]
  cases hx : share.getLast? with
  | none => exact absurd (List.getLast?_eq_none_iff.mp hx) ht
  | some x => exact hshare x (List.mem_of_getLast? hx)

theorem fixes_behind_unc {cwd : OsString} (hpath : parsePrefix path = none)
    (hp : parsePrefix cwd = some (.unc server share)) :
    Fixes w cwd path ↔ (server = [question] → IsDriveName share) := by
  have hform := form_of_parsePrefix hp
  obtain ⟨t, hpush, ht⟩ := push_behind hpath hp (.inl rfl)
    (ends_drop hform rfl (by simp)) (by simp [Prefix.isDrive])
  have hfix := fixPath_of_none cwd hpath
  cases hform with
  | @unc a b c _ _ rest ha hb hc hserver hshare hs hne hrest =>
      rw [unc_eq_append, List.take_left' (len_unc a b c server hne)] at hpush
      rw [unc_eq_append, List.drop_left' (len_unc a b c server hne)] at ht
      have hsep : StartsSep t := by
        rcases ht with ht | ⟨-, rfl, hlast⟩
        · exact ht
        · rw [List.append_nil, getLast?_share a b c server hshare hne] at hlast
          cases hlast
      rw [← unc_eq_append, ← unc_eq_append] at hpush
      by_cases hq : server = [question]
      · subst hq
        have hstorage : storagePath (push (a :: b :: ([question] ++ c :: (share ++ rest))) path) =
            share ++ t.map toBackslash := by
          rw [hpush, List.singleton_append, storagePath_cut ha hb hc, List.map_append,
            map_toBackslash_solid hshare]
        rw [hstorage] at hfix
        constructor
        · intro h _
          have hqualified := h.qualified
          rw [hfix] at hqualified
          exact ((qualified_share_iff hshare hne (.inr hsep)).mp hqualified).1
        · intro h
          refine fixes_of_none hpath ?_
          rw [hstorage]
          exact accepted_share (h rfl) hsep
      · refine iff_of_true (fixes_of_none hpath ?_) fun h => absurd h hq
        rw [hpush]
        obtain ⟨d, share', rfl, hd⟩ := exists_cons_of_solid hshare hne
        exact accepted_unc ha hb hc hserver hs hq hd

/-- The current directory behind a verbatim prefix: what is pushed onto it comes behind it. -/
theorem push_behind_verbatim {cwd : OsString} (hpath : parsePrefix path = none)
    (hp : parsePrefix cwd = some p) (hv : p.isVerbatim = true)
    (hunc : ∀ server share, p ≠ .verbatimUNC server share) :
    ∃ t, push cwd path = cwd.take p.len ++ t ∧ Ends t ∧
      (HasPhysicalRoot cwd → StartsSep t) := by
  by_cases hne : path = []
  · have hdrive : p.isDrive = false := by
      cases p with
      | disk => cases hv
      | _ => rfl
    obtain ⟨t, hpush, ht⟩ := push_behind hpath hp (.inr hne)
      (ends_drop (form_of_parsePrefix hp) hdrive hunc) (by simp [hdrive])
    refine ⟨t, hpush, ?_, fun hroot => ?_⟩
    · rcases ht with ht | ⟨rfl, -, -⟩
      · exact .inr ht
      · exact .inl hne
    · rcases ht with ht | ⟨-, hnil, -⟩
      · exact ht
      · rw [HasPhysicalRoot, prefixLen_eq hp] at hroot
        exact absurd hnil hroot.ne_nil
  · exact push_verbatim hpath hp hv hne

theorem fixes_behind_verbatimDisk {cwd : OsString} (hpath : parsePrefix path = none)
    (hp : parsePrefix cwd = some (.verbatimDisk d)) (hroot : HasPhysicalRoot cwd) :
    Fixes w cwd path := by
  refine fixes_of_none hpath ?_
  obtain ⟨t, hpush, -, ht⟩ := push_behind_verbatim hpath hp rfl (by simp)
  rw [hpush]
  cases form_of_parsePrefix hp with
  | @verbatimDisk c _ rest hc =>
      change Accepted (storagePath
        (backslash :: backslash :: question :: backslash :: c :: colon :: t))
      rw [storagePath_verbatim, List.map_cons, toBackslash_of_not_sep (isSep_of_alphabetic hc)]
      exact accepted_drive hc (ht hroot)

theorem not_fixes_behind_verbatim {cwd : OsString} (hpath : parsePrefix path = none)
    (hp : parsePrefix cwd = some (.verbatim name)) (hname : name ≠ [] ∧ ¬ StartsSep name) :
    ¬ Fixes w cwd path := by
  intro h
  have hq := h.qualified
  obtain ⟨t, hpush, ht, -⟩ := push_behind_verbatim hpath hp rfl (by simp)
  rw [fixPath_of_none cwd hpath, hpush] at hq
  cases form_of_parsePrefix hp with
  | @verbatim _ rest hsolid hrest hdrive =>
      rw [Prefix.len, take_name] at hq
      change Qualified (storagePath
        (backslash :: backslash :: question :: backslash :: (name ++ t))) at hq
      rw [storagePath_verbatim] at hq
      have hsep := startsSep_of_qualified hq (parseDriveExact_append hdrive hrest ht)
      cases name with
      | nil => exact hname.1 rfl
      | cons x name =>
          obtain ⟨y, u, he, hy⟩ := hsep
          exact hname.2 ⟨x, name, rfl, (List.cons.inj he).1 ▸ hy⟩

theorem take_prefix_push {cwd : OsString} (hpath : parsePrefix path = none)
    (hp : parsePrefix cwd = some p) : cwd.take p.len <+: push cwd path := by
  by_cases hv : p.isVerbatim = true ∧ path ≠ []
  · obtain ⟨t, hpush, -⟩ := push_verbatim hpath hp hv.1 hv.2
    rw [hpush]
    exact List.prefix_append ..
  rw [push_of_none hpath hp, if_neg hv]
  split_ifs
  · exact List.prefix_append ..
  · rw [List.append_assoc]
    exact (List.take_prefix ..).trans (List.prefix_append ..)
  · exact (List.take_prefix ..).trans (List.prefix_append ..)

theorem not_fixes_behind_verbatimUNC {cwd : OsString} (hpath : parsePrefix path = none)
    (hp : parsePrefix cwd = some (.verbatimUNC server share)) : ¬ Fixes w cwd path := by
  intro h
  have hq := h.qualified
  obtain ⟨t, hpush⟩ := take_prefix_push hpath hp
  rw [fixPath_of_none cwd hpath, ← hpush] at hq
  cases form_of_parsePrefix hp with
  | @verbatimUNC c rest =>
      obtain ⟨n, hn⟩ : ∃ n, (Prefix.verbatimUNC server share).len = n + 6 := by
        refine ⟨(Prefix.verbatimUNC server share).len - 6, ?_⟩
        simp only [Prefix.len]
        omega
      rw [hn] at hq
      change Qualified (storagePath (backslash :: backslash :: question :: backslash ::
        85 :: 78 :: ((67 :: c :: rest).take n ++ t))) at hq
      rw [storagePath_verbatim] at hq
      exact not_qualified_unc _ hq

end WithoutPrefix

/-- `fix_path` gets a path right if and only if what it leaves of the prefix, or of the prefix of
the current directory, is still one of a drive or of a share. -/
theorem fixes_iff_fixable {w : Win32} (hw : w.Documented) (currentDir : CurrentDir)
    (path : OsString) :
    Fixes w currentDir.path path ↔ Fixable w.toPathRules currentDir.path path := by
  unfold Fixable
  cases hpath : parsePrefix path with
  | some p =>
      cases p with
      | disk drive => exact fixes_disk hpath
      | deviceNS name => exact iff_of_true (fixes_deviceNS hpath) trivial
      | unc server share => exact fixes_unc hpath
      | verbatimDisk drive => exact fixes_verbatimDisk hw hpath
      | verbatimUNC server share => exact iff_of_false (fixes_verbatimUNC hpath) id
      | verbatim name => exact iff_of_false (fixes_verbatim hw hpath) id
  | none =>
      cases hcwd : parsePrefix currentDir.path with
      | none => exact absurd currentDir.absolute (not_isAbsolute_of_none hcwd)
      | some p =>
          cases p with
          | disk drive =>
              exact iff_of_true (fixes_behind_disk hpath currentDir.absolute hcwd) trivial
          | deviceNS name => exact iff_of_true (fixes_behind_deviceNS hpath hcwd) trivial
          | unc server share => exact fixes_behind_unc hpath hcwd
          | verbatimDisk drive =>
              have hroot := currentDir.rooted drive hcwd
              exact iff_of_true (fixes_behind_verbatimDisk hpath hcwd hroot) trivial
          | verbatimUNC server share =>
              exact iff_of_false (not_fixes_behind_verbatimUNC hpath hcwd) id
          | verbatim name =>
              have hname := currentDir.named name hcwd
              exact iff_of_false (not_fixes_behind_verbatim hpath hcwd hname) id

/-- The root of the drive `C:`. -/
def driveRoot : CurrentDir where
  path := [67, colon, backslash]
  absolute := by decide
  rooted drive h := by cases h
  named name h := by cases h

/-- `\\?\C:\x` is right whatever the version of Windows. -/
theorem fixable_verbatimDrive {w : Win32} (hw : w.Documented) (currentDir : OsString) :
    Fixable w.toPathRules currentDir (verbatimStart ++ [67, colon, backslash, 120]) := by
  have hp : parsePrefix (verbatimStart ++ [67, colon, backslash, 120]) =
      some (.verbatimDisk 67) := by decide
  have hdevice : w.isDevice [120] = false := by
    by_contra h
    have hmem := hw.device [120] (by simpa using h)
    revert hmem
    decide
  rw [Fixable, hp]
  refine ⟨by decide, by decide, lt_of_lt_of_le (by decide) hw.maxPath, by decide, ?_⟩
  intro name hname
  have hlast : (names ((verbatimStart ++ [67, colon, backslash, 120]).drop 4)).getLast? =
      some [120] := by decide
  rw [hlast] at hname
  cases hname
  exact ⟨by decide, by decide, hdevice⟩

/-- `\\?\C:\x` becomes `C:\x`, which denotes the same object. -/
theorem fixes_verbatimDrive :
    Fixes plainPaths driveRoot.path (verbatimStart ++ [67, colon, backslash, 120]) :=
  (fixes_iff_fixable documented_plainPaths driveRoot _).mpr
    (fixable_verbatimDrive documented_plainPaths _)

/-- `C:foo` stays relative, and `\\?\UNC\s\t` becomes the relative path `UNC\s\t`. -/
theorem exists_relative_path :
    ¬ Fixes plainPaths driveRoot.path [67, colon, 102, 111, 111] ∧
      fixPath driveRoot.path [67, colon, 102, 111, 111] = [67, colon, 102, 111, 111] ∧
    ¬ Fixes plainPaths driveRoot.path
        (verbatimStart ++ [85, 78, 67, backslash, 115, backslash, 116]) ∧
      fixPath driveRoot.path (verbatimStart ++ [85, 78, 67, backslash, 115, backslash, 116]) =
        [85, 78, 67, backslash, 115, backslash, 116] := by
  have hdisk : parsePrefix [67, colon, 102, 111, 111] = some (.disk 67) := by decide
  have hunc : parsePrefix (verbatimStart ++ [85, 78, 67, backslash, 115, backslash, 116]) =
      some (.verbatimUNC [115] [116]) := by decide
  refine ⟨fun h => ?_, by decide, fixes_verbatimUNC hunc, by decide⟩
  have hroot := (fixes_disk hdisk).mp h
  revert hroot
  decide

end Kiruna.Seek

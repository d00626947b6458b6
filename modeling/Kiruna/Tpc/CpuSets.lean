import Kiruna.Tpc.PhysicalCpus
import Mathlib.Data.List.Perm.Basic

/-!
# The elements behind the size of the threadpool

`Chain` lists the elements that lie one behind the other from an offset on. The rounds of the loop
are such a list, and what they count is the list's doing alone. The system lays whole elements end
to end; then the list is theirs, and the size is the mean of the cores and of the elements of the
known type.
-/

namespace Kiruna.Tpc

/-- The elements from an offset to another, each where the size of the one before puts it. -/
inductive Chain (checked : Bool) (memory : List UInt8) : UInt32 → List Element → UInt32 → Prop
  | nil {off : UInt32} : Chain checked memory off [] off
  | cons {off last : UInt32} {e : Element} {es : List Element}
      (hin : off.toNat < memory.length) (hread : readElement memory off.toNat = .ok e)
      (hfits : checked = true → off.toNat + e.size.toNat < 2 ^ 32)
      (hrest : Chain checked memory (off + e.size) es last) :
      Chain checked memory off (e :: es) last

/-- The cores of the elements of the known type. -/
def known (es : List Element) : List UInt8 := es.filterMap Element.coreIndex

/-- The mean of the number of cores and of the number of times they are named. -/
def average (checked : Bool) (cores : List UInt8) : Except Fault UInt16 :=
  if checked ∧ 2 ^ 16 ≤ cores.toFinset.card + cores.length then .error .panicked
  else .ok (.ofNat ((cores.toFinset.card + cores.length) % 2 ^ 16 / 2))

namespace Scan

/-- The variables behind the elements of a chain. -/
def after (s : Scan) (es : List Element) (last : UInt32) : Scan where
  byteOffset := last
  uniqueCores := s.uniqueCores ∪ (known es).toFinset
  logicalCores := s.logicalCores + .ofNat (known es).length

/-- The elements can be counted. -/
def Fits (checked : Bool) (s : Scan) (es : List Element) : Prop :=
  checked = true → s.logicalCores.toNat + (known es).length < 2 ^ 16

variable {checked : Bool} {memory : List UInt8} {s t : Scan} {e : Element} {es : List Element}
  {last : UInt32} {n : ℕ}

theorem after_nil (s : Scan) : s.after [] s.byteOffset = s := by
  simp [after, known]

theorem after_cons (s : Scan) (e : Element) (es : List Element) (off last : UInt32) :
    (s.after [e] off).after es last = s.after (e :: es) last := by
  cases hcore : e.coreIndex with
  | none => simp [after, known, hcore]
  | some core =>
      simp only [after, known, List.filterMap_cons, hcore, List.filterMap_nil, List.length_cons,
        List.length_nil, mk.injEq, true_and]
      constructor
      · ext core'
        simp
      · apply UInt16.toNat_inj.mp
        simp only [UInt16.toNat_add, UInt16.toNat_ofNat']
        omega

theorem toNat_after (last : UInt32) (hfits : s.logicalCores.toNat + (known es).length < 2 ^ 16) :
    (s.after es last).logicalCores.toNat = s.logicalCores.toNat + (known es).length := by
  simp only [after, UInt16.toNat_add, UInt16.toNat_ofNat']
  omega

theorem fits_cons (off : UInt32) :
    s.Fits checked (e :: es) ↔ s.Fits checked [e] ∧ (s.after [e] off).Fits checked es := by
  have hlength : (known (e :: es)).length = (known [e]).length + (known es).length := by
    rw [← List.length_append, known, known, known, ← List.filterMap_append]
    rfl
  constructor
  · intro h
    have hfirst : s.Fits checked [e] := fun hc => by
      have hall := h hc
      omega
    refine ⟨hfirst, fun hc => ?_⟩
    rw [toNat_after _ (hfirst hc), Nat.add_assoc, ← hlength]
    exact h hc
  · rintro ⟨hfirst, hrest⟩ hc
    have hall := hrest hc
    rw [toNat_after _ (hfirst hc)] at hall
    omega

theorem tally_eq_ok_iff :
    s.tally checked e = .ok t ↔ s.Fits checked [e] ∧ t = s.after [e] s.byteOffset := by
  have hlt := s.logicalCores.toNat_lt
  cases hcore : e.coreIndex with
  | none =>
      have hnone : known [e] = [] := by simp [known, hcore]
      simp only [tally, hcore, Fits, hnone, after, List.length_nil, List.toFinset_nil]
      constructor
      · intro h
        cases h
        exact ⟨fun _ => hlt, by simp⟩
      · rintro ⟨-, rfl⟩
        simp
  | some core =>
      have hsome : known [e] = [core] := by simp [known, hcore]
      simp only [tally, hcore, count, Fits, hsome, after, List.length_singleton]
      have hmax : s.logicalCores = 65535 ↔ ¬ s.logicalCores.toNat + 1 < 2 ^ 16 := by
        rw [← UInt16.toNat_inj]
        simp
        omega
      split_ifs with hpanic
      · simp only [false_iff]
        rintro ⟨hfits, -⟩
        exact hmax.mp hpanic.2 (hfits hpanic.1)
      · have hfits : checked = true → s.logicalCores.toNat + 1 < 2 ^ 16 := fun hc =>
          not_not.mp fun hn => hpanic ⟨hc, hmax.mpr hn⟩
        have hinsert : insert core s.uniqueCores = s.uniqueCores ∪ [core].toFinset := by
          rw [List.toFinset_cons, List.toFinset_nil, Finset.union_comm]
          rfl
        rw [hinsert, Except.ok.injEq, eq_comm]
        exact (and_iff_right hfits).symm

theorem visit_eq_ok_iff : s.visit checked e = .ok t ↔
    s.Fits checked [e] ∧ (checked = true → s.byteOffset.toNat + e.size.toNat < 2 ^ 32) ∧
      t = s.after [e] (s.byteOffset + e.size) := by
  simp only [visit, Loop.bind_eq_ok, tally_eq_ok_iff]
  constructor
  · rintro ⟨u, ⟨hfits, rfl⟩, hadvance⟩
    simp only [advance] at hadvance
    split_ifs at hadvance with hpanic
    cases hadvance
    exact ⟨hfits, fun hc => not_le.mp fun hn => hpanic ⟨hc, hn⟩, rfl⟩
  · rintro ⟨hfits, hwrap, rfl⟩
    refine ⟨_, ⟨hfits, rfl⟩, ?_⟩
    rw [advance, if_neg fun h => absurd (hwrap h.1) (not_lt.mpr h.2)]
    rfl

theorem visit_eq_panicked (hfits : ¬ s.Fits checked [e]) :
    s.visit checked e = .error .panicked := by
  have htally : s.tally checked e = .error .panicked := by
    cases h : s.tally checked e with
    | ok t => exact absurd (tally_eq_ok_iff.mp h).1 hfits
    | error fault =>
        cases hcore : e.coreIndex with
        | none => simp [tally, hcore] at h
        | some core =>
            simp only [tally, hcore, count] at h
            split_ifs at h
            exact h.symm
  rw [visit, htally]
  rfl

/-- The rounds of the loop are the elements of a chain. -/
theorem rounds_iff : (loop checked memory).Rounds s n t ↔ ∃ es last,
    Chain checked memory s.byteOffset es last ∧ s.Fits checked es ∧ es.length = n ∧
      t = s.after es last := by
  constructor
  · intro h
    induction h with
    | @refl s =>
        exact ⟨[], s.byteOffset, .nil, fun _ => s.logicalCores.toNat_lt, rfl, (after_nil s).symm⟩
    | @next s u t n hcond hbody _ ih =>
        obtain ⟨e, hread, hvisit⟩ := Loop.bind_eq_ok.mp hbody
        obtain ⟨hfirst, hwrap, rfl⟩ := visit_eq_ok_iff.mp hvisit
        obtain ⟨es, last, hchain, hfits, rfl, rfl⟩ := ih
        refine ⟨e :: es, last, .cons (of_decide_eq_true hcond) hread hwrap hchain, ?_, rfl, ?_⟩
        · exact (fits_cons _).mpr ⟨hfirst, hfits⟩
        · exact after_cons s e es _ last
  · rintro ⟨es, last, hchain, hfits, rfl, rfl⟩
    generalize hoff : s.byteOffset = off at hchain
    induction hchain generalizing s with
    | nil =>
        subst hoff
        rw [after_nil]
        exact .refl
    | @cons off last e es hin hread hwrap hrest ih =>
        subst hoff
        obtain ⟨hfirst, hfits⟩ := (fits_cons (s.byteOffset + e.size)).mp hfits
        have hvisit := visit_eq_ok_iff.mpr ⟨hfirst, hwrap, rfl⟩
        rw [← after_cons s e es (s.byteOffset + e.size) last]
        exact .next (decide_eq_true hin) (Loop.bind_eq_ok.mpr ⟨e, hread, hvisit⟩) (ih hfits rfl)

theorem ends_ok_iff : (loop checked memory).Ends s n (.ok t) ↔ ∃ es last,
    Chain checked memory s.byteOffset es last ∧ memory.length ≤ last.toNat ∧ s.Fits checked es ∧
      es.length = n ∧ t = s.after es last := by
  constructor
  · rintro ⟨u, hrounds, hstops⟩
    obtain ⟨es, last, hchain, hfits, hlength, rfl⟩ := rounds_iff.mp hrounds
    cases hstops with
    | exit hcond =>
        exact ⟨es, last, hchain, not_lt.mp (of_decide_eq_false hcond), hfits, hlength, rfl⟩
  · rintro ⟨es, last, hchain, hend, hfits, hlength, rfl⟩
    refine ⟨_, rounds_iff.mpr ⟨es, last, hchain, hfits, hlength, rfl⟩, .exit ?_⟩
    exact decide_eq_false (not_lt.mpr hend)

/-- A chain that cannot be counted is a panic on the way. -/
theorem ends_panicked (hchain : Chain checked memory s.byteOffset es last)
    (hfits : ¬ s.Fits checked es) :
    ∃ n < es.length, (loop checked memory).Ends s n (.error .panicked) := by
  generalize hoff : s.byteOffset = off at hchain
  induction hchain generalizing s with
  | nil => exact absurd (fun _ => s.logicalCores.toNat_lt) hfits
  | @cons off last e es hin hread hwrap hrest ih =>
      subst hoff
      by_cases hfirst : s.Fits checked [e]
      · have hvisit := visit_eq_ok_iff.mpr ⟨hfirst, hwrap, rfl⟩
        obtain ⟨n, hlt, t, hrounds, hstops⟩ := ih
          (fun hrest => hfits ((fits_cons (s.byteOffset + e.size)).mpr ⟨hfirst, hrest⟩)) rfl
        exact ⟨n + 1, Nat.succ_lt_succ hlt, t,
          .next (decide_eq_true hin) (Loop.bind_eq_ok.mpr ⟨e, hread, hvisit⟩) hrounds, hstops⟩
      · refine ⟨0, Nat.succ_pos _, s, .refl, .failure (decide_eq_true hin) ?_⟩
        change (readElement memory s.byteOffset.toNat >>= _) = _
        rw [hread]
        exact visit_eq_panicked hfirst

theorem card_toFinset_le (cores : List UInt8) : cores.toFinset.card ≤ 2 ^ 8 := by
  calc cores.toFinset.card ≤ (Finset.range (2 ^ 8)).card := by
        apply Finset.card_le_card_of_injOn UInt8.toNat
        · intro core _
          simpa using core.toNat_lt
        · exact fun _ _ _ _ h => UInt8.toNat_inj.mp h
    _ = 2 ^ 8 := Finset.card_range _

theorem fits_new : new.Fits checked es ↔ (checked = true → (known es).length < 2 ^ 16) := by
  simp [Fits, new]

/-- The result of the loop's variables behind a chain that has been counted. -/
theorem cores_after (last : UInt32) (hfits : new.Fits checked es) :
    (new.after es last).cores checked = average checked (known es) := by
  have hcard := card_toFinset_le (known es)
  have hunique : (new.after es last).uniqueCores = (known es).toFinset := by
    simp [after, new]
  have hlogical : (new.after es last).logicalCores = .ofNat (known es).length := by
    simp [after, new]
  have hchecked : checked = true → (known es).length % 2 ^ 16 = (known es).length := fun hc => by
    exact Nat.mod_eq_of_lt (fits_new.mp hfits hc)
  rw [cores, average, hunique, hlogical, if_pos (by omega), UInt16.toNat_ofNat']
  split_ifs with h h' h'
  · rfl
  · exact absurd ⟨h.1, by rw [← hchecked h.1]; exact h.2⟩ h'
  · exact absurd ⟨h'.1, by rw [hchecked h'.1]; exact h'.2⟩ h
  · congr 1
    apply UInt16.toNat_inj.mp
    have htwo : (2 : UInt16).toNat = 2 := rfl
    simp only [UInt16.toNat_div, UInt16.toNat_add, UInt16.toNat_ofNat', htwo]
    omega

end Scan

section Outcomes

variable {checked : Bool} {sets : CpuSets} {m : UInt16}

/-- `threadpool_size` asks the system, as the environment has no text for it, and the system
answers. -/
structure Asks (size : Except VarError String) (sets : CpuSets) : Prop where
  noText : ∃ e, size = .error e
  nonempty : sets.returnedLen ≠ 0
  succeeds : sets.succeeds = true

/-- The elements lie one behind the other from the start of the memory to its end. -/
def Lays (checked : Bool) (memory : List UInt8) (es : List Element) : Prop :=
  ∃ last, Chain checked memory 0 es last ∧ memory.length ≤ last.toNat

theorem threadpoolSize_of_asks {size : Except VarError String} (h : Asks size sets) (fuel : ℕ) :
    threadpoolSize checked fuel size sets =
      ((Scan.loop checked sets.memory).run fuel .new).map fun r => r.bind (·.cores checked) := by
  obtain ⟨⟨e, rfl⟩, hnonempty, hsucceeds⟩ := h
  simp [threadpoolSize, hnonempty, hsucceeds]

/-- Otherwise the fuel is of no matter. -/
theorem threadpoolSize_of_not_asks {size : Except VarError String} (h : ¬ Asks size sets)
    (fuel : ℕ) :
    threadpoolSize checked fuel size sets = some (.ok m) ↔
      ∃ text, size = .ok text ∧ Numeral text m := by
  cases size with
  | ok text =>
      simp only [threadpoolSize, Except.ok.injEq, exists_eq_left', ← fromStr_eq_ok_iff]
      cases hparse : fromStr text with
      | ok n => simp
      | error kind => simp
  | error e =>
      simp only [threadpoolSize, reduceCtorEq, false_and, exists_false, iff_false]
      split_ifs with hempty hsucceeds
      · simp
      · exact absurd ⟨⟨e, rfl⟩, hempty, hsucceeds⟩ h
      · simp

theorem threadpoolSize_ne_none {size : Except VarError String} (h : ¬ Asks size sets) (fuel : ℕ) :
    threadpoolSize checked fuel size sets ≠ none := by
  cases size with
  | ok text =>
      rw [threadpoolSize]
      split <;> simp
  | error e =>
      rw [threadpoolSize]
      split_ifs with hempty hsucceeds
      · simp
      · exact absurd ⟨⟨e, rfl⟩, hempty, hsucceeds⟩ h
      · simp

/-- The result of a loop that ends normally, for any fuel that is enough. -/
theorem returns_iff_lays {size : Except VarError String} (h : Asks size sets) :
    (∃ fuel, threadpoolSize checked fuel size sets = some (.ok m)) ↔
      ∃ es, Lays checked sets.memory es ∧ average checked (known es) = .ok m := by
  constructor
  · rintro ⟨fuel, hrun⟩
    rw [threadpoolSize_of_asks h, Option.map_eq_some_iff] at hrun
    obtain ⟨r, hrun, hcores⟩ := hrun
    obtain ⟨n, hends⟩ := Loop.exists_ends_of_run hrun
    cases r with
    | error fault => cases hcores
    | ok t =>
        obtain ⟨es, last, hchain, hend, hfits, -, rfl⟩ := Scan.ends_ok_iff.mp hends
        refine ⟨es, ⟨last, hchain, hend⟩, ?_⟩
        rw [← Scan.cores_after last hfits]
        exact hcores
  · rintro ⟨es, ⟨last, hchain, hend⟩, haverage⟩
    have hfits : Scan.new.Fits checked es := by
      apply Scan.fits_new.mpr
      intro hc
      rw [average] at haverage
      split_ifs at haverage with hpanic
      have hlt : ¬ 2 ^ 16 ≤ _ := fun hle => hpanic ⟨hc, hle⟩
      omega
    have hends := Scan.ends_ok_iff.mpr ⟨es, last, hchain, hend, hfits, rfl, rfl⟩
    refine ⟨es.length + 1, ?_⟩
    rw [threadpoolSize_of_asks h, hends.run_eq (Nat.lt_succ_self _), Option.map_some,
      Except.bind, Scan.cores_after last hfits, haverage]

/-- `threadpool_size` returns the numeral in the environment, or else the average over elements
that fill the memory. -/
theorem threadpoolSize_returns_iff (checked : Bool) (size : Except VarError String) (sets : CpuSets)
    (m : UInt16) :
    (∃ fuel, threadpoolSize checked fuel size sets = some (.ok m)) ↔
      (∃ text, size = .ok text ∧ Numeral text m) ∨
        Asks size sets ∧ ∃ es, Lays checked sets.memory es ∧
          average checked (known es) = .ok m := by
  by_cases h : Asks size sets
  · rw [returns_iff_lays h, and_iff_right h, or_iff_right]
    rintro ⟨text, hsize, -⟩
    obtain ⟨e, he⟩ := h.noText
    cases he.symm.trans hsize
  · simp [threadpoolSize_of_not_asks h, h]

/-- An element that leads back to itself and is not counted, behind ones that can be counted. -/
def Stalls (memory : List UInt8) : Prop :=
  ∃ es last e, Chain true memory 0 es last ∧ (known es).length < 2 ^ 16 ∧
    last.toNat < memory.length ∧ readElement memory last.toNat = .ok e ∧ e.size = 0 ∧
    e.coreIndex = none

/-- The rounds that are left: the offset never goes back, and while it stays the count goes on. -/
def Scan.left (s : Scan) : ℕ :=
  (2 ^ 32 - s.byteOffset.toNat) * 2 ^ 17 + (2 ^ 16 - s.logicalCores.toNat)

theorem Scan.left_lt {s : Scan} {e : Element} (hfits : s.Fits true [e])
    (hwrap : s.byteOffset.toNat + e.size.toNat < 2 ^ 32)
    (hmoves : e.size ≠ 0 ∨ e.coreIndex ≠ none) :
    (s.after [e] (s.byteOffset + e.size)).left < s.left := by
  have hlogical := toNat_after (s.byteOffset + e.size) (hfits rfl)
  have hoffset : (s.after [e] (s.byteOffset + e.size)).byteOffset.toNat =
      s.byteOffset.toNat + e.size.toNat := by
    rw [after, UInt32.toNat_add, Nat.mod_eq_of_lt hwrap]
  have hbound := hfits rfl
  rw [left, left, hlogical, hoffset]
  by_cases hsize : e.size.toNat = 0
  · have hcore : (known [e]).length = 1 := by
      rcases hmoves with hne | hne
      · exact absurd (UInt32.toNat_inj.mp hsize) hne
      · obtain ⟨core, hcore⟩ := Option.ne_none_iff_exists'.mp hne
        simp [known, hcore]
    omega
  · have hle : (known [e]).length ≤ 1 := by
      exact (List.length_filterMap_le _ _).trans (Nat.le_refl 1)
    omega

theorem Scan.ends_of_not_stalls {memory : List UInt8} (h : ¬ Stalls memory) :
    ∃ n r, (Scan.loop true memory).Ends .new n r := by
  apply Loop.exists_ends Scan.left
  intro n t u hrounds hcond hbody
  obtain ⟨es, last, hchain, hcount, -, rfl⟩ := rounds_iff.mp hrounds
  obtain ⟨e, hread, hvisit⟩ := Loop.bind_eq_ok.mp hbody
  obtain ⟨hfits, hwrap, rfl⟩ := visit_eq_ok_iff.mp hvisit
  apply left_lt hfits (hwrap rfl)
  by_contra hstays
  rw [not_or, not_not, not_not] at hstays
  exact h ⟨es, last, e, hchain, fits_new.mp hcount rfl, of_decide_eq_true hcond, hread, hstays.1,
    hstays.2⟩

theorem Scan.not_ends_of_stalls {memory : List UInt8} (h : Stalls memory) (n : ℕ)
    (r : Except Fault Scan) : ¬ (Scan.loop true memory).Ends .new n r := by
  obtain ⟨es, last, e, hchain, hcount, hin, hread, hsize, hcore⟩ := h
  have hfits : Scan.new.Fits true es := fits_new.mpr fun _ => hcount
  have hrounds := rounds_iff.mpr ⟨es, last, hchain, hfits, rfl, rfl⟩
  have hnone : known [e] = [] := by simp [known, hcore]
  have hbody : (loop true memory).body (Scan.new.after es last) = .ok (Scan.new.after es last) := by
    apply Loop.bind_eq_ok.mpr
    refine ⟨e, hread, visit_eq_ok_iff.mpr ⟨fun _ => ?_, fun _ => ?_, ?_⟩⟩
    · rw [hnone]
      exact (Scan.new.after es last).logicalCores.toNat_lt
    · rw [hsize]
      exact last.toNat_lt
    · simp [after, hnone, hsize]
  intro hends
  obtain ⟨k, -, hrest⟩ := hends.of_rounds hrounds
  exact Loop.not_ends_of_fixed (decide_eq_true hin) hbody hrest

/-- Where the arithmetic is checked, the loop runs forever only at an element of size 0 that it does
not count. -/
theorem threadpoolSize_forever_iff (size : Except VarError String) (sets : CpuSets) :
    (∀ fuel, threadpoolSize true fuel size sets = none) ↔ Asks size sets ∧ Stalls sets.memory := by
  by_cases h : Asks size sets
  · simp only [threadpoolSize_of_asks h, Option.map_eq_none_iff, and_iff_right h,
      Loop.run_eq_none_iff]
    constructor
    · intro hnever
      by_contra hstalls
      obtain ⟨n, r, hends⟩ := Scan.ends_of_not_stalls hstalls
      exact hnever n r hends
    · exact Scan.not_ends_of_stalls
  · rw [iff_false_intro (not_and_of_not_left _ h), iff_false]
    exact fun hnone => threadpoolSize_ne_none h 0 (hnone 0)

end Outcomes

section Records

/-- A number in four bytes, the lowest first. -/
def le32 (n : UInt32) : List UInt8 :=
  [.ofNat n.toNat, .ofNat (n.toNat / 256), .ofNat (n.toNat / 256 ^ 2), .ofNat (n.toNat / 256 ^ 3)]

/-- A `SYSTEM_CPU_SET_INFORMATION` of some type: behind `Size` and `Type`, which take eight bytes,
comes the body. The core of a CPU set is its byte 7. -/
structure CpuSetRecord where
  cpuSetType : UInt32
  body : List UInt8
  aligned : alignment ∣ body.length
  long : cpuSetType = 0 → 8 ≤ body.length
  short : 8 + body.length < 2 ^ 32

namespace CpuSetRecord

def size (r : CpuSetRecord) : UInt32 := .ofNat (8 + r.body.length)

def bytes (r : CpuSetRecord) : List UInt8 := le32 r.size ++ (le32 r.cpuSetType ++ r.body)

def coreIndex (r : CpuSetRecord) : Option UInt8 := if r.cpuSetType = 0 then r.body[7]? else none

def element (r : CpuSetRecord) : Element := ⟨r.size, r.coreIndex⟩

theorem toNat_size (r : CpuSetRecord) : r.size.toNat = 8 + r.body.length :=
  UInt32.toNat_ofNat_of_lt' r.short

theorem length_bytes (r : CpuSetRecord) : r.bytes.length = 8 + r.body.length := by
  simp [bytes, le32]
  omega

end CpuSetRecord

theorem readU8_append (front rest : List UInt8) (i : ℕ) :
    readU8 (front ++ rest) (front.length + i) = readU8 rest i := by
  simp [readU8, List.getElem?_append_right]

theorem readU32_append (front rest : List UInt8) (i : ℕ) :
    readU32 (front ++ rest) (front.length + i) = readU32 rest i := by
  simp only [readU32, Nat.add_assoc, readU8_append]

theorem readU32_le32 (n : UInt32) (rest : List UInt8) : readU32 (le32 n ++ rest) 0 = .ok n := by
  have hlt := n.toNat_lt
  change Except.ok _ = _
  rw [Except.ok.injEq]
  apply UInt32.toNat_inj.mp
  simp only [UInt8.toNat_ofNat', UInt32.toNat_ofNat']
  omega

/-- A record is read as it was laid, whatever lies around it. -/
theorem readElement_record (r : CpuSetRecord) {front : List UInt8} (rest : List UInt8)
    (halign : alignment ∣ front.length) :
    readElement (front ++ (r.bytes ++ rest)) front.length = .ok r.element := by
  have hsize : readU32 (front ++ (r.bytes ++ rest)) front.length = .ok r.size := by
    rw [← Nat.add_zero front.length, readU32_append, CpuSetRecord.bytes, List.append_assoc]
    exact readU32_le32 r.size _
  have hfour : ∀ i, readU32 (r.bytes ++ rest) (4 + i) =
      readU32 (le32 r.cpuSetType ++ (r.body ++ rest)) i := by
    intro i
    rw [CpuSetRecord.bytes, List.append_assoc, List.append_assoc]
    exact readU32_append (le32 r.size) _ i
  have htype : readU32 (front ++ (r.bytes ++ rest)) (front.length + 4) = .ok r.cpuSetType := by
    rw [readU32_append, ← Nat.add_zero 4, hfour]
    exact readU32_le32 r.cpuSetType _
  have hcore : readCore (front ++ (r.bytes ++ rest)) front.length r.cpuSetType =
      .ok r.coreIndex := by
    rw [readCore, CpuSetRecord.coreIndex]
    split_ifs with hknown
    · have hlong := r.long hknown
      rw [readU8_append, CpuSetRecord.bytes]
      change some <$> readU8 (r.body ++ rest) 7 = _
      rw [readU8, List.getElem?_append_left (by omega), List.getElem?_eq_getElem (by omega)]
      rfl
    · rfl
  rw [readElement, if_neg (not_not.mpr (Nat.mod_eq_zero_of_dvd halign))]
  exact Loop.bind_eq_ok.mpr ⟨r.cpuSetType, htype, Loop.bind_eq_ok.mpr ⟨r.coreIndex, hcore,
    Loop.bind_eq_ok.mpr ⟨r.size, hsize, rfl⟩⟩⟩

theorem chain_of_records (checked : Bool) {memory : List UInt8} (front : List UInt8) (off : UInt32)
    (rs : List CpuSetRecord) (hmemory : memory = front ++ (rs.map CpuSetRecord.bytes).flatten)
    (hoff : off.toNat = front.length) (halign : alignment ∣ front.length)
    (hlt : memory.length < 2 ^ 32) :
    ∃ last, Chain checked memory off (rs.map CpuSetRecord.element) last ∧
      memory.length ≤ last.toNat := by
  induction rs generalizing front off with
  | nil => exact ⟨off, .nil, by simp [hmemory, hoff]⟩
  | cons r rs ih =>
      have hlength := r.length_bytes
      have hfront : memory = (front ++ r.bytes) ++ (rs.map CpuSetRecord.bytes).flatten := by
        rw [hmemory, List.map_cons, List.flatten_cons, List.append_assoc]
      have htotal := congrArg List.length hfront
      rw [List.length_append, List.length_append] at htotal
      have hnext : (off + r.size).toNat = (front ++ r.bytes).length := by
        rw [UInt32.toNat_add, hoff, r.toNat_size, List.length_append, hlength]
        exact Nat.mod_eq_of_lt (by omega)
      obtain ⟨last, hchain, hend⟩ := ih _ _ hfront hnext (by
        rw [List.length_append, hlength]
        exact Nat.dvd_add halign (Nat.dvd_add (Nat.dvd_refl 8) r.aligned))
      refine ⟨last, .cons (by omega) ?_ (fun _ => ?_) hchain, hend⟩
      · rw [hoff, hmemory, List.map_cons, List.flatten_cons]
        exact readElement_record r _ halign
      · rw [hoff, CpuSetRecord.element, r.toNat_size]
        omega

theorem known_map_element (rs : List CpuSetRecord) :
    known (rs.map CpuSetRecord.element) = rs.filterMap CpuSetRecord.coreIndex := by
  rw [known, List.filterMap_map]
  rfl

theorem average_perm (checked : Bool) {cores cores' : List UInt8} (h : cores'.Perm cores) :
    average checked cores' = average checked cores := by
  rw [average, average, List.toFinset_eq_of_perm cores' cores h, h.length_eq]

theorem average_between (checked : Bool) {cores : List UInt8}
    (hlt : cores.toFinset.card + cores.length < 2 ^ 16) :
    ∃ m, average checked cores = .ok m ∧ cores.toFinset.card ≤ m.toNat ∧
      m.toNat ≤ cores.length := by
  have hle := cores.toFinset_card_le
  refine ⟨_, if_neg fun h => absurd hlt (not_lt.mpr h.2), ?_⟩
  rw [UInt16.toNat_ofNat']
  omega

/-- The system answers with these records. -/
structure Lists (size : Except VarError String) (sets : CpuSets) (rs : List CpuSetRecord) : Prop
    extends Asks size sets where
  memory : sets.memory = (rs.map CpuSetRecord.bytes).flatten

variable {checked : Bool} {size : Except VarError String} {sets : CpuSets}
  {rs rs' : List CpuSetRecord} {fuel : ℕ}

theorem threadpoolSize_of_lists (h : Lists size sets rs) (hlt : rs.length < fuel) :
    threadpoolSize checked fuel size sets =
      some (average checked (rs.filterMap CpuSetRecord.coreIndex)) := by
  have hmemory : sets.memory.length < 2 ^ 32 := by
    rw [sets.length_memory]
    exact sets.returnedLen.toNat_lt
  obtain ⟨last, hchain, hend⟩ := chain_of_records checked [] 0 rs h.memory rfl (Nat.dvd_zero _)
    hmemory
  rw [threadpoolSize_of_asks h.toAsks, ← known_map_element]
  by_cases hfits : Scan.new.Fits checked (rs.map CpuSetRecord.element)
  · have hends := Scan.ends_ok_iff.mpr ⟨_, last, hchain, hend, hfits, rfl, rfl⟩
    rw [hends.run_eq (by rwa [List.length_map]), Option.map_some, Except.bind,
      Scan.cores_after last hfits]
  · obtain ⟨n, hn, hends⟩ := Scan.ends_panicked hchain hfits
    have hpanic : checked = true ∧ 2 ^ 16 ≤ (known (rs.map CpuSetRecord.element)).length := by
      simpa [Scan.fits_new] using hfits
    rw [List.length_map] at hn
    rw [hends.run_eq (hn.trans hlt), Option.map_some, Except.bind, average,
      if_pos ⟨hpanic.1, hpanic.2.trans (Nat.le_add_left _ _)⟩]

/-- The size does not depend on the order of the records, and lies between the number of cores and
the number of CPU sets. -/
theorem threadpoolSize_of_records (h : Lists size sets rs') (hperm : rs'.Perm rs)
    (hlt : rs.length < fuel) :
    threadpoolSize checked fuel size sets =
        some (average checked (rs.filterMap CpuSetRecord.coreIndex)) ∧
      ((rs.filterMap CpuSetRecord.coreIndex).toFinset.card +
          (rs.filterMap CpuSetRecord.coreIndex).length < 2 ^ 16 →
        ∃ m, threadpoolSize checked fuel size sets = some (.ok m) ∧
          (rs.filterMap CpuSetRecord.coreIndex).toFinset.card ≤ m.toNat ∧
          m.toNat ≤ (rs.filterMap CpuSetRecord.coreIndex).length) := by
  have hsize : threadpoolSize checked fuel size sets =
      some (average checked (rs.filterMap CpuSetRecord.coreIndex)) := by
    rw [threadpoolSize_of_lists h (hperm.length_eq ▸ hlt),
      average_perm checked (hperm.filterMap CpuSetRecord.coreIndex)]
  refine ⟨hsize, fun hfits => ?_⟩
  obtain ⟨m, haverage, hbounds⟩ := average_between checked hfits
  exact ⟨m, hsize.trans (congrArg some haverage), hbounds⟩

/-- A CPU set as it is today, of 32 bytes. -/
def cpuSet (core : UInt8) : CpuSetRecord where
  cpuSetType := 0
  body := [0, 1, 0, 0, 0, 0, 0, core] ++ List.replicate 16 0
  aligned := ⟨3, rfl⟩
  long _ := by simp
  short := by simp

/-- An element of some other type. -/
def unknownSet : CpuSetRecord where
  cpuSetType := 1
  body := List.replicate 8 0
  aligned := ⟨1, rfl⟩
  long _ := by simp
  short := by simp

/-- Two threads of one core, with an unknown element between them. -/
def twoThreads : CpuSets where
  returnedLen := 80
  succeeds := true
  memory := ([cpuSet 2, unknownSet, cpuSet 2].map CpuSetRecord.bytes).flatten
  length_memory := rfl

theorem threadpoolSize_twoThreads :
    threadpoolSize true 4 (.error .notPresent) twoThreads = some (.ok 1) :=
  (threadpoolSize_of_records ⟨⟨⟨_, rfl⟩, by decide, rfl⟩, rfl⟩
    (.swap unknownSet (cpuSet 2) [cpuSet 2]) (by decide)).1.trans (by decide)

end Records
end Kiruna.Tpc

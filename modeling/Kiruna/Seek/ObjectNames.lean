import Kiruna.Seek.PathForms

/-!
# How Windows reads a path

Behind a verbatim prefix stands the name of an object. Every other path is normalised first: its
separators become backslashes, empty components and the components `.` and `..` are resolved, and
periods and spaces are trimmed. It may also turn out to be too long, or to be the name of a device.
How Windows does all this is not part of the sources: it is a parameter, and `Documented` lists what
is known of it.
-/

namespace Kiruna.Seek

abbrev space : UInt16 := 32

/-- What depends on the version of Windows and its settings: the length of a path, with its
terminator, and the names that are those of devices wherever they end a path. -/
structure PathRules where
  maxPath : ℕ
  isDevice : OsString → Bool

/-- `objectName` is the name of the object that a path without a verbatim prefix denotes, in the
directory of the drives and of `UNC`. -/
structure Win32 extends PathRules where
  objectName : OsString → Option OsString

/-- `CON`, `PRN`, `AUX`, `NUL`, `COM` and `LPT`: every name of a device begins with one of them. -/
def deviceNames : List OsString :=
  [[67, 79, 78], [80, 82, 78], [65, 85, 88], [78, 85, 76], [67, 79, 77], [76, 80, 84]]

/-- Normalisation takes one period off the end of a component, unless there are more of them. -/
def endsInPeriod (name : OsString) : Bool :=
  name.getLast? == some dot && name.dropLast.getLast? != some dot

/-- A component that normalisation leaves alone, in front of the last one. -/
def IsPlain (name : OsString) : Prop :=
  name ≠ [] ∧ name ≠ [dot, dot] ∧ endsInPeriod name = false

instance : DecidablePred IsPlain := fun _ => instDecidableAnd

/-- The components behind the root of a drive. -/
def names (path : OsString) : List OsString := (path.drop 3).splitOn backslash

namespace PathRules

variable (rules : PathRules)

/-- A component at the end of a path that normalisation leaves alone. Behind a separator it is
empty. -/
def IsPlainLast (name : OsString) : Prop :=
  name.getLast? ≠ some dot ∧ name.getLast? ≠ some space ∧ rules.isDevice name = false

instance : DecidablePred rules.IsPlainLast := fun _ => instDecidableAnd

/-- A path from the root of a drive in which there is nothing to normalise. -/
def NormalForm (path : OsString) : Prop :=
  slash ∉ path ∧ path.length < rules.maxPath ∧ (∀ name ∈ (names path).dropLast, IsPlain name) ∧
    ∀ name ∈ (names path).getLast?, rules.IsPlainLast name

instance : DecidablePred rules.NormalForm := fun _ => instDecidableAnd

end PathRules

namespace Win32

variable (w : Win32)

/-- The documented behaviour of Windows. `literal` is about a path from the root of a drive: it is
the name of its object if and only if there is nothing to normalise in it. -/
structure Documented : Prop where
  maxPath : 260 ≤ w.maxPath
  device : ∀ name, w.isDevice name = true → (name.take 3).map toAsciiUppercase ∈ deviceNames
  named : ∀ path, ∀ name ∈ w.objectName path, ¬ StartsSep name
  slashes : ∀ path, ∀ name ∈ w.objectName path, slash ∉ name
  literal : ∀ drive rest path, isAsciiAlphabetic drive = true →
    path = drive :: colon :: backslash :: rest → (w.objectName path = some path ↔ w.NormalForm path)

/-- The name of the object that a path denotes. A verbatim prefix is cut off, and nothing else. -/
def denotes (path : OsString) : Option OsString :=
  if verbatimStart.isPrefixOf path then some (path.drop 4) else w.objectName path

variable {w} {path rest : OsString}

theorem denotes_verbatim (w : Win32) (rest : OsString) :
    w.denotes (backslash :: backslash :: question :: backslash :: rest) = some rest :=
  if_pos rfl

theorem denotes_of_not_verbatim (h : ¬ verbatimStart <+: path) :
    w.denotes path = w.objectName path := by
  rw [← List.isPrefixOf_iff_prefix] at h
  exact if_neg h

/-- What a path from the root of a drive denotes when its slashes have been replaced. -/
theorem Documented.objectName_iff {drive : UInt16} (hw : w.Documented)
    (hdrive : isAsciiAlphabetic drive = true) (hrest : StartsSep rest) :
    w.objectName (drive :: colon :: rest.map toBackslash) = some (drive :: colon :: rest) ↔
      w.NormalForm (drive :: colon :: rest) := by
  by_cases hslash : slash ∈ rest
  · have hmem : slash ∈ drive :: colon :: rest := by simp [hslash]
    exact iff_of_false (fun hname => hw.slashes _ _ hname hmem) fun hnormal => hnormal.1 hmem
  · obtain ⟨c, t, rfl, hc⟩ := hrest
    have hback : c = backslash := by
      rcases isSep_iff.mp hc with rfl | hback
      · exact absurd List.mem_cons_self hslash
      · exact hback
    rw [map_toBackslash_of_not_mem hslash]
    exact hw.literal drive t _ hdrive (by rw [hback])

end Win32

/-- Windows with its default length of a path, where no name is that of a device. It denotes nothing
by a path that it would have to normalise. -/
def plainPaths : Win32 where
  maxPath := 260
  isDevice _ := false
  objectName path :=
    if StartsSep path ∨ ¬ PathRules.NormalForm ⟨260, fun _ => false⟩ path then none else some path

theorem eq_of_plainPaths {path name : OsString} (h : name ∈ plainPaths.objectName path) :
    name = path ∧ ¬ StartsSep path ∧ plainPaths.NormalForm path := by
  simp only [plainPaths, Option.mem_def] at h
  split_ifs at h with hplain
  rw [not_or, not_not] at hplain
  exact ⟨(Option.some.inj h).symm, hplain⟩

theorem documented_plainPaths : plainPaths.Documented where
  maxPath := le_rfl
  device := nofun
  named := by
    intro path name hname
    obtain ⟨rfl, hsep, -⟩ := eq_of_plainPaths hname
    exact hsep
  slashes := by
    intro path name hname
    obtain ⟨rfl, -, hnormal⟩ := eq_of_plainPaths hname
    exact hnormal.1
  literal := by
    rintro drive rest path hdrive rfl
    have hsep : ¬ StartsSep (drive :: colon :: backslash :: rest) := by
      rintro ⟨c, t, h, hc⟩
      obtain rfl := (List.cons.inj h).1
      rw [isSep_of_alphabetic hdrive] at hc
      cases hc
    constructor
    · exact fun hname => (eq_of_plainPaths hname).2.2
    · intro hnormal
      refine if_neg ?_
      rintro (h | h)
      · exact hsep h
      · exact h hnormal

end Kiruna.Seek

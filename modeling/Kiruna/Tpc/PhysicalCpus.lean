import Kiruna.Transition.Loop
import Mathlib.Algebra.Group.Nat.Defs
import Mathlib.Data.Finset.Card
import Mathlib.Data.List.Basic

/-!
# The size of the threadpool

On Windows the size is taken from the environment, or else from the CPU sets of the system: a block
of memory in which elements of different sizes lie one behind the other, each with its own size at
its head. Elements of a type that is not known are passed over. The loop knows of no element before
it reads there, so a reader has to rely on the sizes alone.

`checked` says whether the build checks its arithmetic for overflow.
-/

namespace Kiruna.Tpc

section FromStr

/-- Why a text is not an integer. -/
inductive IntErrorKind
  | empty
  | invalidDigit
  | posOverflow
  deriving DecidableEq

def fromDigits (result : UInt16) : List Char → Except IntErrorKind UInt16
  | [] => .ok result
  | c :: cs =>
      if c.isDigit then
        let next := 10 * result.toNat + (c.toNat - '0'.toNat)
        if next < 2 ^ 16 then fromDigits (.ofNat next) cs else .error .posOverflow
      else .error .invalidDigit

/-- `u16::from_str`. -/
def fromStr (text : String) : Except IntErrorKind UInt16 :=
  match text.toList with
  | [] => .error .empty
  | ['+'] => .error .invalidDigit
  | '+' :: digits => fromDigits 0 digits
  | digits => fromDigits 0 digits

/-- A numeral: at least one digit, perhaps behind a plus sign. -/
def Numeral (text : String) (n : UInt16) : Prop :=
  ∃ digits, digits ≠ [] ∧ (text.toList = digits ∨ text.toList = '+' :: digits) ∧
    (∀ c ∈ digits, c.isDigit) ∧ Nat.ofDigitChars 10 digits 0 = n.toNat

theorem le_ofDigitChars (cs : List Char) (n : ℕ) : n ≤ Nat.ofDigitChars 10 cs n := by
  rw [Nat.ofDigitChars_eq_ofDigitChars_zero]
  calc n ≤ 10 ^ cs.length * n := Nat.le_mul_of_pos_left n (Nat.pow_pos (by omega))
    _ ≤ _ := Nat.le_add_right _ _

theorem fromDigits_eq_ok_iff {result n : UInt16} {cs : List Char} :
    fromDigits result cs = .ok n ↔
      (∀ c ∈ cs, c.isDigit) ∧ Nat.ofDigitChars 10 cs result.toNat = n.toNat := by
  induction cs generalizing result with
  | nil => simp [fromDigits, UInt16.toNat_inj]
  | cons c cs ih =>
      have hle := le_ofDigitChars cs (10 * result.toNat + (c.toNat - '0'.toNat))
      have hn := n.toNat_lt
      rw [fromDigits, Nat.ofDigitChars_cons, List.forall_mem_cons]
      dsimp only
      split_ifs with hdigit hlt
      · rw [ih, UInt16.toNat_ofNat_of_lt' hlt]
        simp [hdigit]
      · simp only [false_iff]
        rintro ⟨-, heq⟩
        omega
      · simp [hdigit]

theorem fromStr_eq_ok_iff {text : String} {n : UInt16} : fromStr text = .ok n ↔ Numeral text n := by
  rw [fromStr, Numeral]
  generalize text.toList = cs
  have hplus : ¬ ('+' : Char).isDigit := by decide
  split
  · simp
  · constructor
    · intro h
      cases h
    · rintro ⟨_, hne, rfl | heq, hdigits, -⟩
      · exact absurd (hdigits _ List.mem_cons_self) hplus
      · cases heq
        exact absurd rfl hne
  · rename_i digits hne
    rw [fromDigits_eq_ok_iff]
    constructor
    · rintro ⟨hdigits, hvalue⟩
      exact ⟨digits, hne, .inr rfl, hdigits, hvalue⟩
    · rintro ⟨_, -, rfl | heq, hdigits, hvalue⟩
      · exact absurd (hdigits _ List.mem_cons_self) hplus
      · cases heq
        exact ⟨hdigits, hvalue⟩
  · rename_i hnil _ hplain
    rw [fromDigits_eq_ok_iff]
    constructor
    · rintro ⟨hdigits, hvalue⟩
      exact ⟨cs, hnil, .inl rfl, hdigits, hvalue⟩
    · rintro ⟨digits, -, rfl | heq, hdigits, hvalue⟩
      · exact ⟨hdigits, hvalue⟩
      · exact absurd heq (hplain digits)

end FromStr

/-- `std::env::VarError`: the variable is not set, or its value is not Unicode. -/
inductive VarError
  | notPresent
  | notUnicode
  deriving DecidableEq

/-- The ways not to return. An access to the memory is not defined outside of the allocation, and
neither is one through a pointer that is not aligned. -/
inductive Fault
  | panicked
  | undefined
  deriving DecidableEq

/-- What `GetSystemCpuSetInformation` does: the length that the first call returns, whether the
second call succeeds, and the allocation of that length after it. -/
structure CpuSets where
  returnedLen : UInt32
  succeeds : Bool
  memory : List UInt8
  length_memory : memory.length = returnedLen.toNat

/-- `align_of::<SYSTEM_CPU_SET_INFORMATION>()`. -/
def alignment : ℕ := 8

/-- What the loop reads of an element. The core is read only where the type is known. -/
structure Element where
  size : UInt32
  coreIndex : Option UInt8
  deriving DecidableEq

def readU8 (memory : List UInt8) (i : ℕ) : Except Fault UInt8 :=
  match memory[i]? with
  | some byte => .ok byte
  | none => .error .undefined

def readU32 (memory : List UInt8) (i : ℕ) : Except Fault UInt32 := do
  let b₀ ← readU8 memory i
  let b₁ ← readU8 memory (i + 1)
  let b₂ ← readU8 memory (i + 2)
  let b₃ ← readU8 memory (i + 3)
  return .ofNat (b₀.toNat + 256 * (b₁.toNat + 256 * (b₂.toNat + 256 * b₃.toNat)))

/-- `(*element_head).Anonymous.CpuSet.CoreIndex`, of an element whose type is a CPU set. -/
def readCore (memory : List UInt8) (head : ℕ) (cpuSetType : UInt32) : Except Fault (Option UInt8) :=
  -- the type of a CPU set is 0
  if cpuSetType = 0 then some <$> readU8 memory (head + 15) else .ok none

/-- The reads through `element_head`. `Size` and `Type` are at the bytes 0 and 4, and the core is at
the byte 15. -/
def readElement (memory : List UInt8) (head : ℕ) : Except Fault Element :=
  if head % alignment ≠ 0 then .error .undefined
  else do
    let cpuSetType ← readU32 memory (head + 4)
    let coreIndex ← readCore memory head cpuSetType
    let size ← readU32 memory head
    return ⟨size, coreIndex⟩

/-- The variables of the loop. -/
structure Scan where
  byteOffset : UInt32
  uniqueCores : Finset UInt8
  logicalCores : UInt16
  deriving DecidableEq

namespace Scan

def new : Scan := ⟨0, ∅, 0⟩

/-- `unique_cores.insert(core_index); logical_cores += 1`. -/
def count (checked : Bool) (s : Scan) (coreIndex : UInt8) : Except Fault Scan :=
  if checked ∧ s.logicalCores = 65535 then .error .panicked
  else .ok { s with
    uniqueCores := insert coreIndex s.uniqueCores
    logicalCores := s.logicalCores + 1 }

/-- `byte_offset += (*element_head).Size`. -/
def advance (checked : Bool) (s : Scan) (size : UInt32) : Except Fault Scan :=
  if checked ∧ 2 ^ 32 ≤ s.byteOffset.toNat + size.toNat then .error .panicked
  else .ok { s with byteOffset := s.byteOffset + size }

/-- An element of a type that is not known is not counted. -/
def tally (checked : Bool) (s : Scan) (e : Element) : Except Fault Scan :=
  match e.coreIndex with
  | some coreIndex => s.count checked coreIndex
  | none => .ok s

/-- A round of the loop behind its reads. -/
def visit (checked : Bool) (s : Scan) (e : Element) : Except Fault Scan := do
  let s ← s.tally checked e
  s.advance checked e.size

/-- The loop of `threadpool_size`. -/
def loop (checked : Bool) (memory : List UInt8) : Loop Fault Scan where
  cond s := s.byteOffset.toNat < memory.length
  body s := do
    -- the size is in reach of a pointer through which the type was read, so it can be read first
    let e ← readElement memory s.byteOffset.toNat
    s.visit checked e

/-- `(cores + logical_cores) / 2`. A set of bytes has no more elements than `u16` can count. -/
def cores (checked : Bool) (s : Scan) : Except Fault UInt16 :=
  if s.uniqueCores.card < 2 ^ 16 then
    if checked ∧ 2 ^ 16 ≤ s.uniqueCores.card + s.logicalCores.toNat then .error .panicked
    else .ok ((.ofNat s.uniqueCores.card + s.logicalCores) / 2)
  else .error .panicked

end Scan

/-- `threadpool_size` on Windows; `size` is `env::var("KIRUNA_THREADPOOL_SIZE")`. The loop is run
for as many rounds as there is fuel. -/
def threadpoolSize (checked : Bool) (fuel : ℕ) (size : Except VarError String) (sets : CpuSets) :
    Option (Except Fault UInt16) :=
  match size with
  | .ok size =>
      match fromStr size with
      | .ok cpus => some (.ok cpus)
      | .error _ => some (.error .panicked)
  | .error _ =>
      -- an allocation of no bytes is not defined
      if sets.returnedLen = 0 then some (.error .undefined)
      else if sets.succeeds then
        ((Scan.loop checked sets.memory).run fuel .new).map fun r => r.bind (·.cores checked)
      else some (.error .panicked)

end Kiruna.Tpc

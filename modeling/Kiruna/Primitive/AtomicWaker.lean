import Mathlib.Data.List.Basic

/-!
# Atomic wakers

`register` stores a waker in place of the one before; `wake` takes the stored waker, if there is
one, and wakes it. Both are indivisible. Wakers are numbered, and `woken` lists those that were
woken.
-/

namespace Kiruna

structure AtomicWaker where
  registered : Option ℕ
  woken : List ℕ
  deriving DecidableEq

namespace AtomicWaker

def new : AtomicWaker := ⟨none, []⟩

def register (a : AtomicWaker) (w : ℕ) : AtomicWaker := { a with registered := some w }

def wake (a : AtomicWaker) : AtomicWaker := ⟨none, a.woken ++ a.registered.toList⟩

/-- The waker `w` will be woken by the next wake, or was woken. -/
def Reaches (a : AtomicWaker) (w : ℕ) : Prop := a.registered = some w ∨ w ∈ a.woken

variable {a : AtomicWaker} {w : ℕ}

theorem reaches_register (a : AtomicWaker) (w : ℕ) : (a.register w).Reaches w := .inl rfl

theorem Reaches.wake (h : a.Reaches w) : w ∈ a.wake.woken := by
  rcases h with h | h
  · simp [AtomicWaker.wake, h]
  · simp [AtomicWaker.wake, h]

end AtomicWaker
end Kiruna

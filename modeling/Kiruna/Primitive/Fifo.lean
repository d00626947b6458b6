import Mathlib.Data.List.Basic

/-!
# Bounded first-in first-out queues

The bound is carried by the type, so that no queue above its capacity can be built. `push` refuses
when the queue is full and `pop` when it is empty; a caller decides whether a refusal blocks,
fails or panics.
-/

namespace Kiruna

structure Fifo (α : Type*) (bound : ℕ) where
  items : List α
  length_le : items.length ≤ bound
  deriving DecidableEq

namespace Fifo

variable {α : Type*} {bound : ℕ}

@[ext] theorem ext {q r : Fifo α bound} (h : q.items = r.items) : q = r := by
  cases q
  cases r
  simpa using h

def empty : Fifo α bound := ⟨[], Nat.zero_le _⟩

@[simp] theorem items_empty : (empty : Fifo α bound).items = [] := rfl

def push (q : Fifo α bound) (a : α) : Option (Fifo α bound) :=
  if h : q.items.length < bound then
    some ⟨q.items ++ [a], by rw [List.length_append, List.length_singleton]; exact h⟩
  else none

def pop : Fifo α bound → Option (α × Fifo α bound)
  | ⟨[], _⟩ => none
  | ⟨a :: l, h⟩ => some (a, ⟨l, Nat.le_of_succ_le h⟩)

def map {β : Type*} (f : α → β) (q : Fifo α bound) : Fifo β bound :=
  ⟨q.items.map f, by rw [List.length_map]; exact q.length_le⟩

@[simp] theorem items_map {β : Type*} (f : α → β) (q : Fifo α bound) :
    (q.map f).items = q.items.map f := rfl

variable {q r : Fifo α bound} {a : α}

theorem push_eq_some :
    q.push a = some r ↔ q.items.length < bound ∧ r.items = q.items ++ [a] := by
  unfold push
  split_ifs with h
  · constructor
    · rintro ⟨⟩
      exact ⟨h, rfl⟩
    · rintro ⟨_, hr⟩
      exact congrArg some (Fifo.ext hr.symm)
  · simp [h]

theorem push_eq_none : q.push a = none ↔ q.items.length = bound := by
  have hle := q.length_le
  unfold push
  split_ifs with h <;> simp <;> omega

theorem pop_eq_some : q.pop = some (a, r) ↔ q.items = a :: r.items := by
  obtain ⟨l, hl⟩ := q
  obtain ⟨l', hl'⟩ := r
  cases l <;> simp [pop]

theorem pop_eq_none : q.pop = none ↔ q.items = [] := by
  obtain ⟨l, hl⟩ := q
  cases l <;> simp [pop]

end Fifo
end Kiruna

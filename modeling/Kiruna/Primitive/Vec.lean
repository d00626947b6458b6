import Mathlib.Data.List.Basic

/-!
# Vectors with spare capacity

A vector is the memory of one allocation, of which the first `len` elements are its own. Behind them
is spare capacity, which raw pointers write to and `setLen` takes in. A vector moves to a new
allocation when it grows; pointers into the old one are then of no use.
-/

namespace Kiruna

structure Pointer where
  allocation : ℕ
  index : ℕ
  deriving DecidableEq

def Pointer.add (p : Pointer) (n : ℕ) : Pointer := ⟨p.allocation, p.index + n⟩

/-- What is behind the elements of a vector of the length after it has grown for `additional` ones.
This memory has not been initialized. -/
structure Allocator (α : Type*) where
  spare : ℕ → ℕ → List α
  le_length : ∀ len additional, additional ≤ (spare len additional).length

structure Vec (α : Type*) where
  allocation : ℕ
  memory : List α
  len : ℕ
  len_le : len ≤ memory.length
  deriving DecidableEq

namespace Vec

variable {α : Type*} (A : Allocator α) (v : Vec α)

def capacity : ℕ := v.memory.length

def toList : List α := v.memory.take v.len

/-- `Vec::with_capacity`. -/
def withCapacity (n : ℕ) : Vec α := ⟨0, A.spare 0 n, 0, Nat.zero_le _⟩

/-- `Vec::as_mut_ptr`. -/
def asMutPtr : Pointer := ⟨v.allocation, 0⟩

theorem length_toList : v.toList.length = v.len := List.length_take_of_le v.len_le

/-- `Vec::reserve`. -/
def reserve (additional : ℕ) : Vec α :=
  if v.len + additional ≤ v.capacity then v
  else
    { allocation := v.allocation + 1
      memory := v.toList ++ A.spare v.len additional
      len := v.len
      len_le := by
        rw [List.length_append, length_toList]
        exact Nat.le_add_right _ _ }

/-- `Vec::set_len`, which must not exceed the capacity. -/
def setLen (newLen : ℕ) : Option (Vec α) :=
  if h : newLen ≤ v.capacity then some { v with len := newLen, len_le := h } else none

/-- A write through a pointer, which must stay within the allocation. -/
def write (p : Pointer) (values : List α) : Option (Vec α) :=
  if h : p.allocation = v.allocation ∧ p.index + values.length ≤ v.capacity then
    some
      { v with
        memory := v.memory.take p.index ++ values ++ v.memory.drop (p.index + values.length)
        len_le := by
          have hle := v.len_le
          have hfits := h.2
          unfold capacity at hfits
          simp only [List.length_append, List.length_take, List.length_drop]
          omega }
  else none

@[simp] theorem reserve_len (additional : ℕ) : (v.reserve A additional).len = v.len := by
  unfold reserve
  split_ifs <;> rfl

@[simp] theorem reserve_toList (additional : ℕ) :
    (v.reserve A additional).toList = v.toList := by
  unfold reserve
  split_ifs
  · rfl
  · exact List.take_left' v.length_toList

theorem le_capacity_reserve (additional : ℕ) :
    v.len + additional ≤ (v.reserve A additional).capacity := by
  unfold reserve
  split_ifs with h
  · exact h
  · rw [capacity, List.length_append, length_toList]
    exact Nat.add_le_add_left (A.le_length _ _) _

theorem asMutPtr_add (n : ℕ) : v.asMutPtr.add n = ⟨v.allocation, n⟩ := by
  rw [asMutPtr, Pointer.add, Nat.zero_add]

variable {v}

/-- What is written into the spare capacity leaves the elements as they are. -/
theorem write_spare (values : List α) (hfits : v.len + values.length ≤ v.capacity) :
    ∃ u, v.write (v.asMutPtr.add v.len) values = some u ∧ u.len = v.len ∧ u.toList = v.toList ∧
      u.capacity = v.capacity ∧ u.memory.take (v.len + values.length) = v.toList ++ values := by
  have hlength : (v.memory.take v.len).length = v.len := v.length_toList
  rw [asMutPtr_add, write, dif_pos ⟨rfl, hfits⟩]
  refine ⟨_, rfl, rfl, ?_, ?_, ?_⟩
  · change (v.memory.take v.len ++ values ++ v.memory.drop (v.len + values.length)).take v.len = _
    rw [List.append_assoc]
    exact List.take_left' hlength
  · unfold capacity at hfits
    simp only [capacity, List.length_append, List.length_take, List.length_drop]
    omega
  · apply List.take_left'
    rw [List.length_append, hlength]

theorem setLen_eq {n : ℕ} (hle : n ≤ v.capacity) :
    ∃ u, v.setLen n = some u ∧ u.toList = v.memory.take n :=
  ⟨_, dif_pos hle, rfl⟩

/-- The elements that were written behind the old ones and taken in. -/
theorem setLen_write (values : List α) (hfits : v.len + values.length ≤ v.capacity) :
    ∃ u u', v.write (v.asMutPtr.add v.len) values = some u ∧ u.len = v.len ∧
      u.toList = v.toList ∧ u.setLen (u.len + values.length) = some u' ∧
      u'.toList = v.toList ++ values := by
  obtain ⟨u, hwrite, hlen, hlist, hcapacity, hmemory⟩ := write_spare values hfits
  obtain ⟨u', hset, hlist'⟩ := setLen_eq (v := u) (n := u.len + values.length) (by
    rw [hlen, hcapacity]
    exact hfits)
  refine ⟨u, u', hwrite, hlen, hlist, hset, ?_⟩
  rw [hlist', hlen, hmemory]

end Vec
end Kiruna

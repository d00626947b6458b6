import Mathlib.Algebra.BigOperators.Fin
import Mathlib.Data.List.Basic

/-!
# The part of a list that belongs to one owner

`filterMap` reads off the entries of a list that one party owns. An update at an index changes only
the part of the owner of that entry; an owner with at most one entry has the updated one.
-/

namespace Kiruna

variable {α β : Type*} {f : α → Option β} {l l' : List α} {n : ℕ} {a b : α} {x : β}

theorem filterMap_set (b : α) (h : l[n]? = some a) (hf : f b = f a) :
    (l.set n b).filterMap f = l.filterMap f := by
  induction l generalizing n with
  | nil => cases h
  | cons c l ih =>
      cases n with
      | zero =>
          obtain rfl : c = a := Option.some.inj h
          simp only [List.set_cons_zero, List.filterMap_cons, hf]
      | succ n =>
          have ht := ih (n := n) h
          simp only [List.set_cons_succ, List.filterMap_cons, ht]

theorem filterMap_eraseIdx (h : l[n]? = some a) (hf : f a = none) :
    (l.eraseIdx n).filterMap f = l.filterMap f := by
  induction l generalizing n with
  | nil => cases h
  | cons c l ih =>
      cases n with
      | zero =>
          obtain rfl : c = a := Option.some.inj h
          simp only [List.eraseIdx_zero, List.tail_cons, List.filterMap_cons, hf]
      | succ n =>
          have ht := ih (n := n) h
          simp only [List.eraseIdx_cons_succ, List.filterMap_cons, ht]

/-- The list at an entry that its owner has alone. -/
theorem exists_split_of_alone (h : l[n]? = some a) (hf : f a = some x)
    (hone : (l.filterMap f).length ≤ 1) :
    ∃ l₁ l₂, l = l₁ ++ a :: l₂ ∧ l₁.length = n ∧ l₁.filterMap f = [] ∧ l₂.filterMap f = [] := by
  obtain ⟨hn, rfl⟩ := List.getElem?_eq_some_iff.mp h
  have hl : l = l.take n ++ l[n] :: l.drop (n + 1) := by
    rw [← List.drop_eq_getElem_cons hn, List.take_append_drop]
  have hlen : ((l.take n).filterMap f).length + ((l.drop (n + 1)).filterMap f).length = 0 := by
    rw [hl, List.filterMap_append, List.filterMap_cons_some hf, List.length_append,
      List.length_cons] at hone
    omega
  have hpos := Nat.add_eq_zero_iff.mp hlen
  exact ⟨_, _, hl, List.length_take_of_le (Nat.le_of_lt hn), List.length_eq_zero_iff.mp hpos.1,
    List.length_eq_zero_iff.mp hpos.2⟩

theorem filterMap_eq_singleton (h : l[n]? = some a) (hf : f a = some x)
    (hone : (l.filterMap f).length ≤ 1) : l.filterMap f = [x] := by
  obtain ⟨l₁, l₂, rfl, -, h₁, h₂⟩ := exists_split_of_alone h hf hone
  rw [List.filterMap_append, List.filterMap_cons_some hf, h₁, h₂, List.nil_append]

theorem filterMap_set_alone (b : α) (h : l[n]? = some a) (hf : f a = some x)
    (hone : (l.filterMap f).length ≤ 1) : (l.set n b).filterMap f = (f b).toList := by
  obtain ⟨l₁, l₂, rfl, rfl, h₁, h₂⟩ := exists_split_of_alone h hf hone
  rw [List.set_append_right _ _ (Nat.le_refl _), Nat.sub_self, List.set_cons_zero,
    List.filterMap_append, List.filterMap_cons, h₁, h₂]
  cases f b <;> rfl

theorem filterMap_eraseIdx_alone (h : l[n]? = some a) (hf : f a = some x)
    (hone : (l.filterMap f).length ≤ 1) : (l.eraseIdx n).filterMap f = [] := by
  obtain ⟨l₁, l₂, rfl, rfl, h₁, h₂⟩ := exists_split_of_alone h hf hone
  rw [List.eraseIdx_append_of_length_le (Nat.le_refl _), Nat.sub_self, List.eraseIdx_cons_zero,
    List.filterMap_append, h₁, h₂, List.nil_append]

/-- Which order the list has does not matter to an owner of at most one entry. -/
theorem filterMap_eq_of_perm (hp : l.Perm l') (hone : (l.filterMap f).length ≤ 1) :
    l'.filterMap f = l.filterMap f := by
  have hf := hp.filterMap f
  cases hl : l.filterMap f with
  | nil =>
      rw [hl] at hf
      exact hf.symm.eq_nil
  | cons x rest =>
      rw [hl, List.length_cons] at hone
      obtain rfl : rest = [] := List.length_eq_zero_iff.mp (by omega)
      rw [hl] at hf
      exact List.perm_singleton.mp hf.symm

theorem zip_set {l : List α} {m : List β} (h : l[n]? = some a) (x : β) :
    l.zip (m.set n x) = (l.zip m).set n (a, x) := by
  induction l generalizing m n with
  | nil => cases h
  | cons c l ih =>
      cases m with
      | nil => rfl
      | cons d m =>
          cases n with
          | zero =>
              obtain rfl : c = a := Option.some.inj h
              rfl
          | succ n =>
              rw [List.set_cons_succ, List.zip_cons_cons, List.zip_cons_cons, List.set_cons_succ,
                ih (n := n) h]

/-- Every entry of a list is in the part of its owner. -/
theorem sum_length_filterMap {m : ℕ} (owner : α → ℕ) (g : α → β) {l : List α}
    (h : ∀ a ∈ l, owner a < m) :
    ∑ i : Fin m, (l.filterMap fun a => if owner a = i then some (g a) else none).length =
      l.length := by
  induction l with
  | nil => simp
  | cons a l ih =>
      have ha : owner a < m := h a List.mem_cons_self
      have hone (i : Fin m) : ((a :: l).filterMap fun a =>
          if owner a = i then some (g a) else none).length =
            (if i = ⟨owner a, ha⟩ then 1 else 0) +
              (l.filterMap fun a => if owner a = i then some (g a) else none).length := by
        rw [List.filterMap_cons]
        by_cases hi : owner a = i
        · rw [if_pos hi, if_pos (Fin.ext hi.symm), List.length_cons, Nat.add_comm]
        · rw [if_neg hi, if_neg fun he => hi (congrArg Fin.val he).symm, Nat.zero_add]
      simp only [hone, Finset.sum_add_distrib, ih fun b hb => h b (List.mem_cons_of_mem a hb)]
      simp [Nat.add_comm]

end Kiruna

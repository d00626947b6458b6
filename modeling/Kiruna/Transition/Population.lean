import Mathlib.Algebra.Order.BigOperators.Group.List
import Mathlib.Algebra.Order.Ring.Nat
import Mathlib.Data.Fin.Tuple.Basic
import Mathlib.Data.List.Basic

/-!
# Weighing a population of threads

A population is the list of the local states of its threads; a step moves one thread with
`List.set`, a thread is started with `++ [_]`. `weight w` sums a weight over the population. An
invariant that counts threads is an equation between weights, and the lemmas below turn what one
step does to it into linear arithmetic.
-/

namespace Kiruna

variable {α : Type*} (w : α → ℕ)

def weight (l : List α) : ℕ := (l.map w).sum

@[simp] theorem weight_nil : weight w [] = 0 := rfl

@[simp] theorem weight_cons (a : α) (l : List α) : weight w (a :: l) = w a + weight w l := rfl

@[simp] theorem weight_append (l₁ l₂ : List α) :
    weight w (l₁ ++ l₂) = weight w l₁ + weight w l₂ := by
  simp [weight]

variable {w} {l : List α} {i j : ℕ} {a b : α}

theorem weight_set (b : α) (h : l[i]? = some a) :
    weight w (l.set i b) + w a = weight w l + w b := by
  induction l generalizing i with
  | nil => simp at h
  | cons c l ih =>
      cases i with
      | zero =>
          obtain rfl : c = a := by simpa using h
          simp only [List.set_cons_zero, weight_cons]
          omega
      | succ i =>
          have hi := ih (i := i) (by simpa using h)
          simp only [List.set_cons_succ, weight_cons]
          omega

theorem le_weight_of_mem (h : a ∈ l) : w a ≤ weight w l :=
  List.single_le_sum (fun _ _ => Nat.zero_le _) _ (List.mem_map_of_mem h)

theorem le_weight (h : l[i]? = some a) : w a ≤ weight w l :=
  le_weight_of_mem (List.mem_of_getElem? h)

theorem weight_eq_zero : weight w l = 0 ↔ ∀ a ∈ l, w a = 0 := by
  induction l with
  | nil => simp
  | cons c l ih => simp [ih]

theorem exists_of_weight_pos (h : 0 < weight w l) :
    ∃ (i : ℕ) (a : α), l[i]? = some a ∧ 0 < w a := by
  by_contra! hn
  have hz : weight w l = 0 := by
    rw [weight_eq_zero]
    intro a ha
    obtain ⟨i, hi⟩ := List.mem_iff_getElem?.mp ha
    have hle := hn i a hi
    omega
  omega

/-- At most one thread has a weight in a population that weighs at most one. -/
theorem eq_of_weight_le_one (h : weight w l ≤ 1) (hi : l[i]? = some a) (hj : l[j]? = some b)
    (ha : 0 < w a) (hb : 0 < w b) : i = j := by
  induction l generalizing i j with
  | nil => simp at hi
  | cons c l ih =>
      rw [weight_cons] at h
      cases i with
      | zero =>
          obtain rfl : c = a := by simpa using hi
          cases j with
          | zero => rfl
          | succ j =>
              have hle := le_weight (w := w) (l := l) (i := j) (by simpa using hj)
              omega
      | succ i =>
          have hle := le_weight (w := w) (l := l) (i := i) (by simpa using hi)
          cases j with
          | zero =>
              obtain rfl : c = b := by simpa using hj
              omega
          | succ j =>
              exact congrArg Nat.succ (ih (by omega) (by simpa using hi) (by simpa using hj))

theorem weight_eraseIdx (h : l[i]? = some a) : weight w (l.eraseIdx i) + w a = weight w l := by
  induction l generalizing i with
  | nil => simp at h
  | cons c l ih =>
      cases i with
      | zero =>
          obtain rfl : c = a := by simpa using h
          rw [List.eraseIdx_zero, List.tail_cons, weight_cons]
          omega
      | succ i =>
          have hi := ih (i := i) (by simpa using h)
          rw [List.eraseIdx_cons_succ, weight_cons, weight_cons]
          omega

/-- If one thread carries the whole weight, it carries every weight that the others lack. -/
theorem weight_eq_of_alone {w' : α → ℕ} (h : l[i]? = some a) (ha : weight w l = w a)
    (hle : ∀ b, w b = 0 → w' b = 0) : weight w' l = w' a := by
  induction l generalizing i with
  | nil => simp at h
  | cons c l ih =>
      rw [weight_cons] at ha ⊢
      cases i with
      | zero =>
          obtain rfl : c = a := by simpa using h
          have hz : weight w' l = 0 := by
            rw [weight_eq_zero]
            intro b hb
            apply hle
            have hb := le_weight_of_mem (w := w) hb
            omega
          omega
      | succ i =>
          have hi : l[i]? = some a := by simpa using h
          have hw := le_weight (w := w) hi
          have hc := hle c (by omega)
          have hrest := ih hi (by omega)
          omega

theorem weight_add (w w' : α → ℕ) (l : List α) :
    weight (fun a => w a + w' a) l = weight w l + weight w' l := by
  induction l with
  | nil => rfl
  | cons a l ih =>
      simp only [weight_cons, ih]
      omega

theorem weight_drop (h : l[i]? = some a) :
    weight w (l.drop i) = w a + weight w (l.drop (i + 1)) := by
  obtain ⟨hi, rfl⟩ := List.getElem?_eq_some_iff.mp h
  rw [List.drop_eq_getElem_cons hi, weight_cons]

theorem weight_drop_set (b : α) (j : ℕ) (h : l[i]? = some a) :
    weight w ((l.set i b).drop j) + (if j ≤ i then w a else 0) =
      weight w (l.drop j) + (if j ≤ i then w b else 0) := by
  rw [List.drop_set]
  by_cases hj : j ≤ i
  · have hd : (l.drop j)[i - j]? = some a := by
      rw [List.getElem?_drop, Nat.add_sub_cancel' hj]
      exact h
    simp only [if_pos hj, if_neg (Nat.not_lt.mpr hj)]
    exact weight_set b hd
  · simp only [if_neg hj, if_pos (Nat.lt_of_not_le hj)]

/-- The threads after one of them has moved. -/
theorem getElem?_set_cases {c : α} (h : (l.set i b)[j]? = some c) :
    (j = i ∧ c = b) ∨ (j ≠ i ∧ l[j]? = some c) := by
  by_cases hj : i = j
  · subst hj
    rw [List.getElem?_set_self'] at h
    obtain ⟨_, _, rfl⟩ := Option.map_eq_some_iff.mp h
    exact .inl ⟨rfl, rfl⟩
  · rw [List.getElem?_set_ne hj] at h
    exact .inr ⟨Ne.symm hj, h⟩

/-- The threads after one was started. -/
theorem getElem?_append_cases {c : α} (h : (l ++ [b])[j]? = some c) :
    l[j]? = some c ∨ (j = l.length ∧ c = b) := by
  rcases Nat.lt_or_ge j l.length with hlt | hge
  · exact .inl ((List.getElem?_append_left hlt).symm.trans h)
  · have hlen := (List.getElem?_eq_some_iff.mp h).1
    rw [List.length_append, List.length_singleton] at hlen
    obtain rfl : j = l.length := by omega
    rw [List.getElem?_concat_length] at h
    exact .inr ⟨rfl, (Option.some.inj h).symm⟩

/-- A test of the threads after one of them has moved. -/
theorem any_getElem?_set (p : α → Bool) (h : l[i]? = some a) (j : ℕ) :
    (l.set i b)[j]?.any p = if j = i then p b else l[j]?.any p := by
  by_cases hj : j = i
  · subst hj
    rw [List.getElem?_set_self (List.getElem?_eq_some_iff.mp h).1, if_pos rfl, Option.any_some]
  · rw [List.getElem?_set_ne (Ne.symm hj), if_neg hj]

/-- A number read from the threads after one of them has moved. -/
theorem elim_getElem?_set (w : α → ℕ) (h : l[i]? = some a) (j : ℕ) :
    (l.set i b)[j]?.elim 0 w = if j = i then w b else l[j]?.elim 0 w := by
  by_cases hj : j = i
  · subst hj
    rw [List.getElem?_set_self (List.getElem?_eq_some_iff.mp h).1, if_pos rfl, Option.elim_some]
  · rw [List.getElem?_set_ne (Ne.symm hj), if_neg hj]

/-- A number read from the threads after one was started. -/
theorem elim_getElem?_append (w : α → ℕ) (b : α) (j : ℕ) :
    (l ++ [b])[j]?.elim 0 w = l[j]?.elim 0 w + if l.length = j then w b else 0 := by
  rcases Nat.lt_trichotomy j l.length with hlt | rfl | hgt
  · rw [List.getElem?_append_left hlt, if_neg (Nat.ne_of_gt hlt), Nat.add_zero]
  · rw [List.getElem?_concat_length, List.getElem?_eq_none le_rfl, if_pos rfl, Option.elim_some,
      Option.elim_none, Nat.zero_add]
  · have hlen : (l ++ [b]).length ≤ j := by
      rw [List.length_append, List.length_singleton]
      exact hgt
    rw [List.getElem?_eq_none hlen, List.getElem?_eq_none hgt.le, if_neg (Nat.ne_of_lt hgt),
      Option.elim_none]

theorem map_set_of_eq {β : Type*} {f : α → β} (h : l[i]? = some a) (hf : f b = f a) :
    (l.set i b).map f = l.map f := by
  obtain ⟨hi, rfl⟩ := List.getElem?_eq_some_iff.mp h
  rw [List.map_set, hf, ← List.getElem_map f (h := by simpa using hi), List.set_getElem_self]

theorem forall_mem_set {P : α → Prop} (h : ∀ c ∈ l, P c) (hb : P b) : ∀ c ∈ l.set i b, P c := by
  intro c hc
  rcases List.mem_or_eq_of_mem_set hc with hc | rfl
  · exact h c hc
  · exact hb

theorem weight_one (l : List α) : weight (fun _ => 1) l = l.length := by
  induction l with
  | nil => rfl
  | cons a l ih =>
      simp only [weight_cons, List.length_cons, ih]
      omega

theorem weight_le_length (h : ∀ a, w a ≤ 1) : weight w l ≤ l.length := by
  induction l with
  | nil => simp
  | cons a l ih =>
      have ha := h a
      simp only [weight_cons, List.length_cons]
      omega

theorem weight_mono {w' : α → ℕ} (h : ∀ a ∈ l, w a ≤ w' a) : weight w l ≤ weight w' l := by
  induction l with
  | nil => simp
  | cons a l ih =>
      have ha := h a List.mem_cons_self
      have hl := ih fun b hb => h b (List.mem_cons_of_mem a hb)
      simp only [weight_cons]
      omega

/-- A population that weighs `n` in units has `n` distinct threads of positive weight. -/
theorem exists_injective_of_le_weight {n : ℕ} (hw : ∀ a, w a ≤ 1) (h : n ≤ weight w l) :
    ∃ f : Fin n → ℕ, Function.Injective f ∧ ∀ k, ∃ a, l[f k]? = some a ∧ 0 < w a := by
  induction l generalizing n with
  | nil =>
      obtain rfl : n = 0 := Nat.le_zero.mp h
      exact ⟨Fin.elim0, fun k => k.elim0, fun k => k.elim0⟩
  | cons c l ih =>
      rw [weight_cons] at h
      rcases Nat.eq_zero_or_pos (w c) with hc | hc
      · obtain ⟨f, hf, hl⟩ := ih (n := n) (by omega)
        refine ⟨fun k => f k + 1, fun j k hjk => hf (Nat.succ.inj hjk), fun k => ?_⟩
        simpa using hl k
      · cases n with
        | zero => exact ⟨Fin.elim0, fun k => k.elim0, fun k => k.elim0⟩
        | succ n =>
            have hone := hw c
            obtain ⟨f, hf, hl⟩ := ih (n := n) (by omega)
            refine ⟨Fin.cons 0 fun k => f k + 1, ?_, ?_⟩
            · rw [Fin.cons_injective_iff]
              refine ⟨?_, fun j k hjk => hf (Nat.succ.inj hjk)⟩
              rintro ⟨k, hk⟩
              exact absurd hk (Nat.succ_ne_zero _)
            · intro k
              refine Fin.cases ⟨c, rfl, hc⟩ (fun k => ?_) k
              simpa using hl k

theorem weight_congr {w' : α → ℕ} (h : ∀ a ∈ l, w a = w' a) : weight w l = weight w' l := by
  simp only [weight, List.map_congr_left h]

end Kiruna

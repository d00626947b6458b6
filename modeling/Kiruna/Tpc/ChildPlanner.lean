import Kiruna.Transition.Population
import Mathlib.Data.List.Basic
import Mathlib.Data.Nat.Basic

/-!
# The planner of vec jobs

`ChildPlanner` splits the indices below `len` into one range for each job. The resolved number of
jobs is 32-bit; an overflow of its product panics when the build checks for it, and a number of
zero panics in the division.
-/

namespace Kiruna.Tpc

inductive Strategy
  | jobs (n : UInt32)
  | jobsPerCore (n : UInt32)
  deriving DecidableEq

structure ChildPlan where
  baseOffset : ℕ
  len : ℕ
  deriving DecidableEq

structure ChildPlanner where
  i : UInt32
  k : ℕ
  m : ℕ
  targetJobs : UInt32
  i_le : i.toNat ≤ targetJobs.toNat
  deriving DecidableEq

/-- A product of 32-bit numbers, `none` for the overflow panic. -/
def multiply (checked : Bool) (a b : UInt32) : Option UInt32 :=
  if checked ∧ 2 ^ 32 ≤ a.toNat * b.toNat then none else some (a * b)

/-- The number of jobs that the strategy proposes. -/
def Strategy.proposed (checked : Bool) (physicalCpus : UInt16) : Strategy → Option UInt32
  | .jobs n => some n
  | .jobsPerCore n => multiply checked n physicalCpus.toUInt32

namespace ChildPlanner

def new (checked : Bool) (physicalCpus : UInt16) (strategy : Strategy) (len : ℕ) :
    Option ChildPlanner :=
  match strategy.proposed checked physicalCpus with
  | none => none
  | some proposed =>
      let targetJobs := if len ≤ proposed.toNat then UInt32.ofNat len else proposed
      if targetJobs = 0 then none
      else some {
        i := 0
        k := len / targetJobs.toNat
        m := len % targetJobs.toNat
        targetJobs := targetJobs
        i_le := Nat.zero_le _ }

/-- The first index of the `t`th job, and one past the last of the job before. -/
def bound (p : ChildPlanner) (t : ℕ) : ℕ := t * p.k + min t p.m

theorem toNat_add_one {i n : UInt32} (hle : i.toNat ≤ n.toNat) (hne : i ≠ n) :
    (i + 1).toNat = i.toNat + 1 ∧ i.toNat < n.toNat := by
  have hn := n.toNat_lt
  have hne' : i.toNat ≠ n.toNat := fun he => hne (UInt32.toNat_inj.mp he)
  rw [UInt32.toNat_add, UInt32.toNat_one]
  omega

/-- The iterator. -/
def next (p : ChildPlanner) : Option (ChildPlan × ChildPlanner) :=
  if h : p.i = p.targetJobs then none
  else
    let start := p.bound p.i.toNat
    let stop := p.bound (p.i.toNat + 1)
    some (⟨start, stop - start⟩, { p with
      i := p.i + 1
      i_le := by
        have hadd := toNat_add_one p.i_le h
        omega })

/-- The plans that at most `n` calls of `next` give. -/
def collect : ℕ → ChildPlanner → List ChildPlan
  | 0, _ => []
  | n + 1, p =>
      match p.next with
      | none => []
      | some (plan, p') => plan :: collect n p'

/-- The loop over the planner: the last of these calls returns `None`. -/
def plans (p : ChildPlanner) : List ChildPlan := collect (p.targetJobs.toNat + 1) p

variable {p q : ChildPlanner} {checked : Bool} {physicalCpus : UInt16} {strategy : Strategy}
  {len : ℕ}

theorem next_eq_some {plan : ChildPlan} (h : p.next = some (plan, q)) :
    p.i.toNat < p.targetJobs.toNat ∧
      plan = ⟨p.bound p.i.toNat, p.bound (p.i.toNat + 1) - p.bound p.i.toNat⟩ ∧
      q.i.toNat = p.i.toNat + 1 ∧ q.k = p.k ∧ q.m = p.m ∧ q.targetJobs = p.targetJobs := by
  unfold next at h
  split_ifs at h with hne
  cases h
  have hadd := toNat_add_one p.i_le hne
  exact ⟨hadd.2, rfl, hadd.1, rfl, rfl, rfl⟩

theorem next_eq_none (h : p.next = none) : p.i.toNat = p.targetJobs.toNat := by
  unfold next at h
  split_ifs at h with he
  rw [he]

/-- The plan of the job `t`. -/
def planAt (p : ChildPlanner) (t : ℕ) : ChildPlan := ⟨p.bound t, p.bound (t + 1) - p.bound t⟩

theorem planAt_congr (hk : q.k = p.k) (hm : q.m = p.m) : q.planAt = p.planAt := by
  funext t
  simp only [planAt, bound, hk, hm]

theorem collect_eq {n : ℕ} (p : ChildPlanner) (hn : p.targetJobs.toNat < p.i.toNat + n) :
    collect n p =
      (List.range' p.i.toNat (p.targetJobs.toNat - p.i.toNat)).map p.planAt := by
  induction n generalizing p with
  | zero =>
      have hle := p.i_le
      omega
  | succ n ih =>
      unfold collect
      split
      · rename_i hnone
        rw [next_eq_none hnone, Nat.sub_self]
        rfl
      · rename_i plan q hsome
        obtain ⟨hlt, rfl, hi, hk, hm, ht⟩ := next_eq_some hsome
        rw [ih q (by rw [ht, hi]; omega), ht, hi, planAt_congr hk hm]
        obtain ⟨d, hd⟩ := Nat.exists_eq_add_of_lt hlt
        rw [show p.targetJobs.toNat - p.i.toNat = d + 1 by omega,
          show p.targetJobs.toNat - (p.i.toNat + 1) = d by omega, List.range'_succ]
        rfl

theorem plans_eq (hi : p.i = 0) :
    p.plans = (List.range p.targetJobs.toNat).map p.planAt := by
  have hz : p.i.toNat = 0 := by rw [hi, UInt32.toNat_zero]
  rw [plans, collect_eq p (by omega), hz, Nat.sub_zero, ← List.range_eq_range']

theorem bound_mono (p : ChildPlanner) {t u : ℕ} (h : t ≤ u) : p.bound t ≤ p.bound u := by
  have hmul := Nat.mul_le_mul_right p.k h
  simp only [bound]
  omega

/-- A fresh planner covers the indices below `len`, with at least one job. -/
theorem new_eq_some (h : new checked physicalCpus strategy len = some p) :
    p.i = 0 ∧ 0 < p.targetJobs.toNat ∧ p.bound p.targetJobs.toNat = len := by
  unfold new at h
  split at h
  · cases h
  · rename_i proposed hproposed
    dsimp only at h
    split_ifs at h with hlen hzero hzero
    all_goals cases h
    · have hpos : 0 < (UInt32.ofNat len).toNat := by
        by_contra hz
        exact hzero (UInt32.toNat_inj.mp (by simpa using hz))
      refine ⟨rfl, hpos, ?_⟩
      have hmod := Nat.mod_lt len hpos
      simp only [bound, Nat.min_eq_right hmod.le]
      exact Nat.div_add_mod len _
    · have hpos : 0 < proposed.toNat := by
        by_contra hz
        exact hzero (UInt32.toNat_inj.mp (by simpa using hz))
      refine ⟨rfl, hpos, ?_⟩
      have hmod := Nat.mod_lt len hpos
      simp only [bound, Nat.min_eq_right hmod.le]
      exact Nat.div_add_mod len _

end ChildPlanner

/-- The plan contains the index. -/
def ChildPlan.covers (i : ℕ) (plan : ChildPlan) : ℕ :=
  if plan.baseOffset ≤ i ∧ i < plan.baseOffset + plan.len then 1 else 0

namespace ChildPlanner

variable {p : ChildPlanner} {checked : Bool} {physicalCpus : UInt16} {strategy : Strategy}
  {len : ℕ}

theorem weight_covers (p : ChildPlanner) (i n : ℕ) :
    weight (ChildPlan.covers i) ((List.range n).map p.planAt) = if i < p.bound n then 1 else 0 := by
  induction n with
  | zero => simp [bound]
  | succ n ih =>
      have hmono := p.bound_mono (Nat.le_add_right n 1)
      rw [List.range_succ, List.map_append, weight_append, ih, List.map_singleton, weight_cons,
        weight_nil]
      simp only [ChildPlan.covers, planAt, Nat.add_sub_cancel' hmono]
      by_cases hlt : i < p.bound n
      · rw [if_pos hlt, if_neg (by omega), if_pos (by omega)]
      · by_cases hlt' : i < p.bound (n + 1)
        · rw [if_neg hlt, if_pos (by omega), if_pos hlt']
        · rw [if_neg hlt, if_neg (by omega), if_neg hlt']

/-- Every index below `len` is in exactly one plan, and no other index is in any. -/
theorem weight_plans (h : new checked physicalCpus strategy len = some p) (i : ℕ) :
    weight (ChildPlan.covers i) p.plans = if i < len then 1 else 0 := by
  obtain ⟨hi, hpos, hbound⟩ := new_eq_some h
  rw [plans_eq hi, weight_covers, hbound]

theorem length_plans (h : new checked physicalCpus strategy len = some p) :
    p.plans.length = p.targetJobs.toNat := by
  rw [plans_eq (new_eq_some h).1, List.length_map, List.length_range]

end ChildPlanner
end Kiruna.Tpc

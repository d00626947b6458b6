import Kiruna.Tpc.ChildPlanner

/-!
# Even plans

The job `t` starts at `t * k + min t m` and ends where the job `t + 1` starts, so the first `m` jobs
have one element more than the others and the last one ends at `len`. Every value that the iterator
computes is at most `len`, hence in the range of its type.

The number of jobs is resolved before: it is zero, and the planner panics, for an empty vec and for
a request of no jobs, and the product with the number of cores may overflow.
-/

namespace Kiruna.Tpc

/-- The number of jobs that the strategy asks for. -/
def Strategy.requested (physicalCpus : UInt16) : Strategy → ℕ
  | .jobs n => n.toNat
  | .jobsPerCore n => n.toNat * physicalCpus.toNat

/-- A value of an unsigned type, `none` for the overflow. -/
def fits (bits n : ℕ) : Option ℕ := if n < 2 ^ bits then some n else none

namespace ChildPlanner

theorem succ_i_le (p : ChildPlanner) (h : p.i ≠ p.targetJobs) :
    (p.i + 1).toNat ≤ p.targetJobs.toNat := by
  have hadd := toNat_add_one p.i_le h
  omega

/-- `next` with a check on every value it computes. -/
def nextChecked (usizeBits : ℕ) (p : ChildPlanner) : Option (Option (ChildPlan × ChildPlanner)) :=
  if h : p.i = p.targetJobs then some none
  else do
    let startProduct ← fits usizeBits (p.i.toNat * p.k)
    let start ← fits usizeBits (startProduct + min p.i.toNat p.m)
    let iPlusOne ← fits 32 (p.i.toNat + 1)
    let stopProduct ← fits usizeBits (iPlusOne * p.k)
    let stop ← fits usizeBits (stopProduct + min iPlusOne p.m)
    let len ← if start ≤ stop then some (stop - start) else none
    some (some (⟨start, len⟩, { p with
      i := p.i + 1
      i_le := p.succ_i_le h }))

def collectChecked (usizeBits : ℕ) : ℕ → ChildPlanner → Option (List ChildPlan)
  | 0, _ => some []
  | n + 1, p =>
      match p.nextChecked usizeBits with
      | none => none
      | some none => some []
      | some (some (plan, p')) => (collectChecked usizeBits n p').map (plan :: ·)

/-- The loop over the planner, `none` if a value leaves the range of its type. -/
def plansChecked (usizeBits : ℕ) (p : ChildPlanner) : Option (List ChildPlan) :=
  collectChecked usizeBits (p.targetJobs.toNat + 1) p

variable {p : ChildPlanner} {checked : Bool} {physicalCpus : UInt16} {strategy : Strategy}
  {len usizeBits t : ℕ} {target : UInt32}

theorem nextChecked_eq (hbound : p.bound p.targetJobs.toNat < 2 ^ usizeBits) :
    p.nextChecked usizeBits = some p.next := by
  unfold nextChecked next
  by_cases h : p.i = p.targetJobs
  · rw [dif_pos h, dif_pos h]
  · obtain ⟨hadd, hlt⟩ := toNat_add_one p.i_le h
    have htarget := p.targetJobs.toNat_lt
    have hstart : p.bound p.i.toNat ≤ p.bound p.targetJobs.toNat := p.bound_mono hlt.le
    have hstop : p.bound (p.i.toNat + 1) ≤ p.bound p.targetJobs.toNat := p.bound_mono hlt
    have hle : p.bound p.i.toNat ≤ p.bound (p.i.toNat + 1) := p.bound_mono (Nat.le_succ _)
    unfold bound at *
    rw [dif_neg h, dif_neg h]
    simp only [fits, Option.bind_eq_bind]
    rw [if_pos (by omega), Option.bind_some, if_pos (by omega), Option.bind_some,
      if_pos (by omega), Option.bind_some, if_pos (by omega), Option.bind_some,
      if_pos (by omega), Option.bind_some, if_pos hle, Option.bind_some]

theorem collectChecked_eq {n : ℕ} (p : ChildPlanner)
    (hbound : p.bound p.targetJobs.toNat < 2 ^ usizeBits) :
    collectChecked usizeBits n p = some (collect n p) := by
  induction n generalizing p with
  | zero => rfl
  | succ n ih =>
      simp only [collectChecked, nextChecked_eq hbound, collect]
      cases hnext : p.next with
      | none => rfl
      | some r =>
          obtain ⟨plan, q⟩ := r
          obtain ⟨-, -, -, hk, hm, ht⟩ := next_eq_some hnext
          have hq : q.bound q.targetJobs.toNat < 2 ^ usizeBits := by
            simpa only [bound, hk, hm, ht] using hbound
          simp only [ih q hq, Option.map_some]

/-- The resolution of the number of jobs. -/
theorem exists_new (hproposed : strategy.proposed checked physicalCpus = some target)
    (htarget : 0 < target.toNat) (hlen : 0 < len) :
    ∃ p, new checked physicalCpus strategy len = some p ∧
      p.targetJobs.toNat = min target.toNat len ∧ p.k = len / p.targetJobs.toNat ∧
      p.m = len % p.targetJobs.toNat := by
  have hlt := target.toNat_lt
  by_cases hle : len ≤ target.toNat
  · have hnat : (UInt32.ofNat len).toNat = len := UInt32.toNat_ofNat_of_lt' (hle.trans_lt hlt)
    have hne : UInt32.ofNat len ≠ 0 := by
      intro hz
      rw [hz, UInt32.toNat_zero] at hnat
      omega
    refine ⟨_, by simp only [new, hproposed, if_pos hle, if_neg hne]; rfl, ?_, rfl, rfl⟩
    exact hnat.trans (Nat.min_eq_right hle).symm
  · have hne : target ≠ 0 := by
      rintro rfl
      exact absurd htarget (Nat.lt_irrefl 0)
    refine ⟨_, by simp only [new, hproposed, if_neg hle, if_neg hne]; rfl, ?_, rfl, rfl⟩
    exact (Nat.min_eq_left (Nat.le_of_not_le hle)).symm

theorem new_eq_none (hproposed : strategy.proposed checked physicalCpus = some target)
    (hzero : target.toNat = 0 ∨ len = 0) : new checked physicalCpus strategy len = none := by
  have htarget : (if len ≤ target.toNat then UInt32.ofNat len else target) = 0 := by
    rcases hzero with hz | rfl
    · obtain rfl : target = 0 := UInt32.toNat_inj.mp hz
      split_ifs with hle
      · rw [UInt32.toNat_zero, Nat.le_zero] at hle
        rw [hle]
        rfl
      · rfl
    · rw [if_pos (Nat.zero_le _)]
      rfl
  simp only [new, hproposed, htarget, if_true]

/-- The first `m` jobs have one element more. -/
theorem len_planAt (p : ChildPlanner) (t : ℕ) :
    (p.planAt t).len = p.k + if t < p.m then 1 else 0 := by
  have hmul : (t + 1) * p.k = t * p.k + p.k := Nat.succ_mul t p.k
  simp only [planAt, bound]
  split_ifs <;> omega

theorem baseOffset_planAt_succ (p : ChildPlanner) (t : ℕ) :
    (p.planAt (t + 1)).baseOffset = (p.planAt t).baseOffset + (p.planAt t).len :=
  (Nat.add_sub_cancel' (p.bound_mono (Nat.le_succ t))).symm

theorem getElem?_plans (hi : p.i = 0) {plan : ChildPlan} (h : p.plans[t]? = some plan) :
    t < p.targetJobs.toNat ∧ plan = p.planAt t := by
  rw [plans_eq hi, List.getElem?_map, Option.map_eq_some_iff] at h
  obtain ⟨u, hu, rfl⟩ := h
  obtain ⟨hlt, rfl⟩ := List.getElem?_eq_some_iff.mp hu
  rw [List.getElem_range]
  exact ⟨by simpa using hlt, rfl⟩

theorem mem_plans (hi : p.i = 0) {plan : ChildPlan} (h : plan ∈ p.plans) :
    ∃ t < p.targetJobs.toNat, plan = p.planAt t := by
  obtain ⟨t, ht⟩ := List.mem_iff_getElem?.mp h
  exact ⟨t, getElem?_plans hi ht⟩

/-- The plans of a vec of `len` elements for a strategy that has resolved to `target` jobs. -/
structure Even (usizeBits : ℕ) (target : UInt32) (len : ℕ) (p : ChildPlanner) : Prop where
  inRange : p.plansChecked usizeBits = some p.plans
  length : p.plans.length = min target.toNat len
  first : ∀ plan, p.plans[0]? = some plan → plan.baseOffset = 0
  contiguous : ∀ (t : ℕ) (plan plan' : ChildPlan), p.plans[t]? = some plan →
    p.plans[t + 1]? = some plan' → plan'.baseOffset = plan.baseOffset + plan.len
  last : ∀ plan, p.plans[p.plans.length - 1]? = some plan → plan.baseOffset + plan.len = len
  nonempty : ∀ plan ∈ p.plans, 0 < plan.len
  even : ∀ plan ∈ p.plans, ∀ plan' ∈ p.plans, plan.len ≤ plan'.len + 1
  longerFirst : p.plans.Pairwise fun plan plan' => plan'.len ≤ plan.len

theorem exists_proposed (checked : Bool) (hproduct : strategy.requested physicalCpus < 2 ^ 32) :
    ∃ target, strategy.proposed checked physicalCpus = some target ∧
      target.toNat = strategy.requested physicalCpus := by
  cases strategy with
  | jobs n => exact ⟨n, rfl, rfl⟩
  | jobsPerCore n =>
      rw [Strategy.requested] at hproduct ⊢
      refine ⟨n * physicalCpus.toUInt32, ?_, ?_⟩
      · rw [Strategy.proposed, multiply, UInt16.toNat_toUInt32, if_neg]
        rintro ⟨-, hover⟩
        exact absurd hproduct (Nat.not_lt.mpr hover)
      · rw [UInt32.toNat_mul, UInt16.toNat_toUInt32, Nat.mod_eq_of_lt hproduct]

/-- In a build that checks for overflow the resolved number is the requested one. -/
theorem requested_eq (hproposed : strategy.proposed true physicalCpus = some target) :
    strategy.requested physicalCpus = target.toNat := by
  have hproduct : strategy.requested physicalCpus < 2 ^ 32 := by
    cases strategy with
    | jobs n => exact n.toNat_lt
    | jobsPerCore n =>
        by_contra hover
        rw [Strategy.proposed, multiply, UInt16.toNat_toUInt32,
          if_pos ⟨rfl, Nat.le_of_not_lt hover⟩] at hproposed
        cases hproposed
  obtain ⟨target', hsome, hnat⟩ := exists_proposed true hproduct
  obtain rfl : target' = target := Option.some.inj (hsome.symm.trans hproposed)
  exact hnat.symm

theorem exists_even (hproposed : strategy.proposed checked physicalCpus = some target)
    (htarget : 1 ≤ target.toNat) (hlen : 1 ≤ len) (husize : len < 2 ^ usizeBits) :
    ∃ p, new checked physicalCpus strategy len = some p ∧ p.Even usizeBits target len ∧
      (checked = true → strategy.requested physicalCpus = target.toNat) := by
  obtain ⟨p, hnew, hjobs, hk, hm⟩ := exists_new hproposed htarget hlen
  obtain ⟨hi, hpos, hbound⟩ := new_eq_some hnew
  have hlength := length_plans hnew
  have hquot : 0 < p.k := by
    rw [hk]
    exact Nat.div_pos (by omega) hpos
  refine ⟨p, hnew, ⟨collectChecked_eq p (by omega), hlength.trans hjobs, ?_, ?_, ?_, ?_, ?_, ?_⟩,
    by rintro rfl; exact requested_eq hproposed⟩
  · intro plan h
    obtain ⟨-, rfl⟩ := getElem?_plans hi h
    simp [planAt, bound]
  · intro t plan plan' h h'
    obtain ⟨-, rfl⟩ := getElem?_plans hi h
    obtain ⟨-, rfl⟩ := getElem?_plans hi h'
    exact p.baseOffset_planAt_succ t
  · intro plan h
    obtain ⟨-, rfl⟩ := getElem?_plans hi h
    rw [← baseOffset_planAt_succ, hlength, Nat.sub_add_cancel hpos]
    exact hbound
  · intro plan h
    obtain ⟨t, -, rfl⟩ := mem_plans hi h
    rw [len_planAt]
    omega
  · intro plan h plan' h'
    obtain ⟨t, -, rfl⟩ := mem_plans hi h
    obtain ⟨t', -, rfl⟩ := mem_plans hi h'
    rw [len_planAt, len_planAt]
    split_ifs <;> omega
  · rw [plans_eq hi, List.pairwise_map]
    refine List.pairwise_lt_range.imp ?_
    intro t t' hlt
    rw [len_planAt, len_planAt]
    split_ifs <;> omega

/-- The first of five jobs is the longer one. -/
theorem exists_even_texture :
    ∃ p, new true 8 (.jobs 5) (384 * 384) = some p ∧ p.Even 64 5 (384 * 384) ∧
      (Strategy.jobs 5).requested 8 = 5 := by
  have hproposed : (Strategy.jobs 5).proposed true 8 = some 5 := rfl
  have husize : 384 * 384 < 2 ^ 64 := by decide
  obtain ⟨p, hnew, heven, hrequested⟩ := exists_even hproposed (by decide) (by decide) husize
  exact ⟨p, hnew, heven, hrequested rfl⟩

/-- The planning of `set_sync` does not panic, and resolves to a number of jobs that it can use. -/
structure Planned (usizeBits : ℕ) (checked : Bool) (physicalCpus : UInt16) (strategy : Strategy)
    (len : ℕ) : Prop where
  product : strategy.requested physicalCpus < 2 ^ 32
  narrowing : ∀ proposed, strategy.proposed checked physicalCpus = some proposed →
    len ≤ proposed.toNat → (UInt32.ofNat len).toNat = len
  resolved : ∃ p, new checked physicalCpus strategy len = some p ∧
    p.plansChecked usizeBits = some p.plans ∧ (p.targetJobs = 0 → len = 0) ∧
    (len ≠ 0 → p.targetJobs.toNat = min (max 1 (strategy.requested physicalCpus)) len)

theorem planned_iff (husize : len < 2 ^ usizeBits) :
    Planned usizeBits checked physicalCpus strategy len ↔
      1 ≤ len ∧ 1 ≤ strategy.requested physicalCpus ∧ strategy.requested physicalCpus < 2 ^ 32 := by
  constructor
  · intro ⟨hproduct, _, p, hnew, _⟩
    obtain ⟨target, hproposed, htarget⟩ := exists_proposed checked hproduct
    have hsome : ¬ (target.toNat = 0 ∨ len = 0) := by
      intro hzero
      rw [new_eq_none hproposed hzero] at hnew
      cases hnew
    exact ⟨by omega, by omega, hproduct⟩
  · intro ⟨hlen, hrequested, hproduct⟩
    obtain ⟨target, hproposed, htarget⟩ := exists_proposed checked hproduct
    obtain ⟨p, hnew, heven, -⟩ := exists_even hproposed (by omega) hlen husize
    have hjobs : p.targetJobs.toNat = min target.toNat len :=
      (length_plans hnew).symm.trans heven.length
    refine ⟨hproduct, ?_, p, hnew, heven.inRange, fun _ => ?_, fun _ => by omega⟩
    · intro proposed _ hle
      exact UInt32.toNat_ofNat_of_lt' (hle.trans_lt proposed.toNat_lt)
    · rename_i hz
      rw [hz, UInt32.toNat_zero] at hjobs
      omega

theorem planned_tenPerCore : Planned 64 true 8 (.jobsPerCore 10) 1000 :=
  (planned_iff (by decide)).mpr (by decide)

/-- An empty vec divides by zero. -/
theorem exists_not_planned :
    ¬ ∀ usizeBits checked physicalCpus strategy len, len < 2 ^ usizeBits →
      Planned usizeBits checked physicalCpus strategy len := by
  intro hall
  obtain ⟨p, hnew, -⟩ := (hall 64 true 8 (.jobs 1) 0 (by decide)).resolved
  have hproposed : (Strategy.jobs 1).proposed true 8 = some 1 := rfl
  rw [new_eq_none hproposed (.inr rfl)] at hnew
  cases hnew

end ChildPlanner
end Kiruna.Tpc

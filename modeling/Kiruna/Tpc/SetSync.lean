import Kiruna.Tpc.ChildPlanner
import Kiruna.Tpc.SimpleGuardJobs
import Mathlib.Data.List.Induction

/-!
# Building a vec by parallel jobs

`set_sync` plans its jobs and runs them as a simple set. Each job writes the range of its plan
through a pointer into the spare capacity of the vec, one element at a time. For every index the
jobs that have still to call `f` on it, or to write its slot, and the calls and writes that were
made add up to one, and the guard is ready only when nothing is left in flight.

The writes are assignments through the pointer. An assignment drops what its place held, and the
spare capacity holds no values: for elements that need a drop the first write of every job is
undefined.
-/

namespace Kiruna.Tpc

/-- Where `job_creator` of `set_sync` stands in its loop: `val` is the value of `f(slot)` that it
has still to write. In `undefined` the assignment has dropped a slot without a value, or has gone
past the capacity; nothing is known of what follows. The last state is the panic of
`jobs[index]`. -/
inductive WriterPc (O : Type*)
  | loop (writePtr slot remaining : ℕ) (val : Option O)
  | undefined (writePtr slot remaining : ℕ)
  | indexOutOfBounds
  deriving DecidableEq

/-- The spare capacity of the vec, the arguments of the calls of `f` and the slots written. -/
structure Output (O : Type*) where
  buffer : List (Option O)
  called : List ℕ
  written : List ℕ
  deriving DecidableEq

inductive WriterAction
  | call
  | write
  deriving DecidableEq

variable {O : Type*}

/-- `job_creator` for the planned `jobs`; pointers count from the base of the vec, and `needsDrop`
says whether a value of `O` does anything when it is dropped. -/
def writer (needsDrop : Bool) (jobs : List ChildPlan) (len : ℕ) (f : ℕ → O) :
    JobCreator (Output O) (WriterPc O) WriterAction where
  init := ⟨List.replicate len none, [], []⟩
  start j :=
    match jobs[j]? with
    | some plan => .loop plan.baseOffset plan.baseOffset plan.len none
    | none => .indexOutOfBounds
  act
    | out, .loop writePtr slot (r + 1) none, .call =>
        some ({ out with called := out.called ++ [slot] },
          .loop writePtr slot (r + 1) (some (f slot)))
    | out, .loop writePtr slot (r + 1) (some val), .write =>
        match out.buffer[writePtr]? with
        | none => some (out, .undefined writePtr slot r)
        | some old =>
            -- the assignment drops the old value before it moves in the new one
            if needsDrop ∧ old.isNone then some (out, .undefined writePtr slot r)
            else some ({ out with
              buffer := out.buffer.set writePtr (some val)
              written := out.written ++ [writePtr] }, .loop (writePtr + 1) (slot + 1) r none)
    | _, _, _ => none
  result
    | .loop _ _ 0 _ => some .returned
    | .loop _ _ (_ + 1) _ | .undefined _ _ _ => none
    | .indexOutOfBounds => some .panicked

/-- The client that `set_sync` becomes when its planning does not panic. A function that is async
does not go on after a panic: its runs poll the guard no more after a poll that has panicked. -/
abbrev setSync (needsDrop : Bool) (p : ChildPlanner) (len : ℕ) (f : ℕ → O) :
    Client Empty ℕ (JobPc (WriterPc O)) (SimpleGuard (Output O)) (JobAction WriterAction)
      GuardStep :=
  SimpleGuard.client (UInt32.ofNat p.plans.length) (writer needsDrop p.plans len f)

namespace SetSync

open SimpleGuard

variable {needsDrop : Bool} {plans : List ChildPlan} {len : ℕ} {f : ℕ → O}

/-- What a step of `job_creator` can do. -/
inductive Writes (needsDrop : Bool) (f : ℕ → O) (out : Output O) :
    WriterPc O → Output O → WriterPc O → Prop
  | call (writePtr slot r : ℕ) : Writes needsDrop f out (.loop writePtr slot (r + 1) none)
      { out with called := out.called ++ [slot] } (.loop writePtr slot (r + 1) (some (f slot)))
  | write (writePtr slot r : ℕ) (val : O) :
      Writes needsDrop f out (.loop writePtr slot (r + 1) (some val))
        { out with
          buffer := out.buffer.set writePtr (some val)
          written := out.written ++ [writePtr] } (.loop (writePtr + 1) (slot + 1) r none)
  | undefined (writePtr slot r : ℕ) (val : O)
      (hslot : needsDrop = false → out.buffer.length ≤ writePtr) :
      Writes needsDrop f out (.loop writePtr slot (r + 1) (some val)) out
        (.undefined writePtr slot r)

theorem writes_of_act {out out' : Output O} {p p' : WriterPc O} {a : WriterAction}
    (h : (writer needsDrop plans len f).act out p a = some (out', p')) :
    Writes needsDrop f out p out' p' := by
  simp only [writer] at h
  split at h
  · cases h
    exact .call _ _ _
  · split at h
    · rename_i hnone
      cases h
      exact .undefined _ _ _ _ fun _ => List.getElem?_eq_none_iff.mp hnone
    · split_ifs at h with hold <;> cases h
      · refine .undefined _ _ _ _ fun hfalse => ?_
        rw [hfalse] at hold
        cases hold.1
      · exact .write _ _ _ _
  · cases h

theorem eq_of_returned {p : WriterPc O}
    (h : (writer needsDrop plans len f).result p = some .returned) :
    ∃ writePtr slot val, p = .loop writePtr slot 0 val := by
  cases p with
  | loop writePtr slot r val =>
      cases r with
      | zero => exact ⟨_, _, _, rfl⟩
      | succ r => cases h
  | undefined | indexOutOfBounds => cases h

theorem eq_of_panicked {p : WriterPc O}
    (h : (writer needsDrop plans len f).result p = some .panicked) :
    p = .indexOutOfBounds := by
  cases p with
  | loop writePtr slot r val => cases r <;> cases h
  | undefined => cases h
  | indexOutOfBounds => rfl

/-- The weight of the index `i` in the plan of the job `j`. -/
def planned (plans : List ChildPlan) (i j : ℕ) : ℕ := plans[j]?.elim 0 (ChildPlan.covers i)

/-- The job has still to write the slot `i`. -/
def willWrite (plans : List ChildPlan) (i : ℕ) : JobPc (WriterPc O) → ℕ
  | .closure j => planned plans i j
  | .calling _ (.loop writePtr _ r _) => if writePtr ≤ i ∧ i < writePtr + r then 1 else 0
  | .calling _ (.undefined writePtr _ r) => if writePtr ≤ i ∧ i < writePtr + (r + 1) then 1 else 0
  | _ => 0

/-- The job has still to call `f(i)`. -/
def willCall (plans : List ChildPlan) (i : ℕ) : JobPc (WriterPc O) → ℕ
  | .closure j => planned plans i j
  | .calling _ (.loop _ slot r none) => if slot ≤ i ∧ i < slot + r then 1 else 0
  | .calling _ (.loop _ slot r (some _)) => if slot + 1 ≤ i ∧ i < slot + r then 1 else 0
  | .calling _ (.undefined _ slot r) => if slot + 1 ≤ i ∧ i < slot + (r + 1) then 1 else 0
  | _ => 0

theorem weight_planned (l : List ChildPlan) (i : ℕ) :
    weight (planned l i) (List.range l.length) = weight (ChildPlan.covers i) l := by
  induction l using List.reverseRecOn with
  | nil => rfl
  | append_singleton l plan ih =>
      have hl : weight (planned (l ++ [plan]) i) (List.range l.length) =
          weight (planned l i) (List.range l.length) := by
        refine weight_congr fun j hj => ?_
        rw [planned, List.getElem?_append_left (List.mem_range.mp hj), planned]
      rw [List.length_append, List.length_singleton, List.range_succ, weight_append, weight_append,
        hl, ih]
      simp [planned]

variable {jobs : UInt32} {bounded : ℕ}
  {ok : Bin Empty ℕ (JobPc (WriterPc O)) (SimpleGuard (Output O)) bounded →
    BinLabel (JobAction WriterAction) GuardStep → Prop}
  {s : Bin Empty ℕ (JobPc (WriterPc O)) (SimpleGuard (Output O)) bounded}
  {h : List (BinLabel (JobAction WriterAction) GuardStep)}

theorem conserves_written (i : ℕ) :
    Bin.Conserves (client jobs (writer needsDrop plans len f)) ok (planned plans i)
      (willWrite plans i) (fun g => g.creator.written.count i)
      (fun g => weight (planned plans i) g.handedOver) := by
  refine conserves rfl (fun _ => rfl) (fun _ => rfl) ?_ (fun g g' m hp => by rw [hp.creator])
    (fun _ _ => rfl)
  intro h s p g p' _ _ ha
  cases ha with
  | call j =>
      simp only [willWrite, writer, planned]
      cases plans[j]? <;> rfl
  | creator hact =>
      cases writes_of_act hact with
      | call => rfl
      | write writePtr slot r val =>
          simp only [willWrite, List.count_append, List.count_singleton, beq_iff_eq]
          split_ifs <;> omega
      | undefined => rfl
  | returned hp =>
      obtain ⟨writePtr, slot, val, rfl⟩ := eq_of_returned hp
      simp only [willWrite]
      split_ifs <;> omega
  | panicked hp =>
      obtain rfl := eq_of_panicked hp
      rfl
  | last | notLast | wake => rfl

theorem conserves_called (i : ℕ) :
    Bin.Conserves (client jobs (writer needsDrop plans len f)) ok (planned plans i)
      (willCall plans i) (fun g => g.creator.called.count i)
      (fun g => weight (planned plans i) g.handedOver) := by
  refine conserves rfl (fun _ => rfl) (fun _ => rfl) ?_ (fun g g' m hp => by rw [hp.creator])
    (fun _ _ => rfl)
  intro h s p g p' _ _ ha
  cases ha with
  | call j =>
      simp only [willCall, writer, planned]
      cases plans[j]? <;> rfl
  | creator hact =>
      cases writes_of_act hact with
      | call writePtr slot r =>
          simp only [willCall, List.count_append, List.count_singleton, beq_iff_eq]
          split_ifs <;> omega
      | write writePtr slot r val =>
          simp only [willCall]
          split_ifs <;> omega
      | undefined => rfl
  | returned hp =>
      obtain ⟨writePtr, slot, val, rfl⟩ := eq_of_returned hp
      cases val <;> simp only [willCall] <;> split_ifs <;> omega
  | panicked hp =>
      obtain rfl := eq_of_panicked hp
      rfl
  | last | notLast | wake => rfl

section Planned

variable {p : ChildPlanner} {checked : Bool} {physicalCpus : UInt16} {strategy : Strategy}

theorem toNat_length_plans (hp : ChildPlanner.new checked physicalCpus strategy len = some p) :
    (UInt32.ofNat p.plans.length).toNat = p.plans.length := by
  rw [ChildPlanner.length_plans hp, UInt32.ofNat_toNat]

/-- An index is in the plan of exactly one job. -/
theorem weight_planned_range (hp : ChildPlanner.new checked physicalCpus strategy len = some p)
    (i : ℕ) :
    weight (planned p.plans i) (List.range (UInt32.ofNat p.plans.length).toNat) =
      if i < len then 1 else 0 := by
  rw [toNat_length_plans hp, weight_planned, ChildPlanner.weight_plans hp]

theorem written_balance (hp : ChildPlanner.new checked physicalCpus strategy len = some p)
    (hr : (Bin.system (setSync needsDrop p len f) bounded).Run NotPolledAgain h s) (i : ℕ) :
    mass (ThreadMessage.jobWeight (planned p.plans i)) s.channel +
      weight (WorkerPc.localWeight (willWrite p.plans i)) s.workers +
      (s.state.creator.written.count i +
        weight (planned p.plans i) (s.state.unlaunched (UInt32.ofNat p.plans.length))) =
      if i < len then 1 else 0 := by
  have ht := Bin.Conserves.total_of_run (conserves_written i) hr
  rw [← weight_planned_range hp i, ← handedOver_append hr, weight_append, ← ht]
  exact (Nat.add_assoc _ _ _).symm

theorem called_balance (hp : ChildPlanner.new checked physicalCpus strategy len = some p)
    (hr : (Bin.system (setSync needsDrop p len f) bounded).Run NotPolledAgain h s) (i : ℕ) :
    mass (ThreadMessage.jobWeight (planned p.plans i)) s.channel +
      weight (WorkerPc.localWeight (willCall p.plans i)) s.workers +
      (s.state.creator.called.count i +
        weight (planned p.plans i) (s.state.unlaunched (UInt32.ofNat p.plans.length))) =
      if i < len then 1 else 0 := by
  have ht := Bin.Conserves.total_of_run (conserves_called i) hr
  rw [← weight_planned_range hp i, ← handedOver_append hr, weight_append, ← ht]
  exact (Nat.add_assoc _ _ _).symm

/-- A job that runs writes through the pointer of its slot, and the value of `f` there. -/
def AtSlot (f : ℕ → O) : JobPc (WriterPc O) → Prop
  | .calling _ (.loop writePtr slot _ val) => writePtr = slot ∧ ∀ v, val = some v → v = f slot
  | _ => True

theorem atSlot_of_running {jobs : UInt32}
    (hr : (Bin.system (client jobs (writer needsDrop plans len f)) bounded).Run ok h s)
    {p : JobPc (WriterPc O)} (hp : s.Running p) : AtSlot f p := by
  refine Bin.running_invariant (fun u => u.elim) (fun _ => trivial) ?_ hr hp
  intro h s p a g p' _ hat ha
  cases acts_of_act ha with
  | call j =>
      simp only [writer]
      split
      · exact ⟨rfl, nofun⟩
      · trivial
  | creator hact =>
      cases writes_of_act hact with
      | call writePtr slot r => exact ⟨hat.1, fun v hv => (Option.some.inj hv).symm⟩
      | write writePtr slot r val => exact ⟨congrArg (· + 1) hat.1, nofun⟩
      | undefined => trivial
  | _ => trivial

/-- A written slot holds the value of `f`. -/
def Filled (len : ℕ) (f : ℕ → O) (out : Output O) : Prop :=
  out.buffer.length = len ∧ ∀ i ∈ out.written, out.buffer[i]? = some (some (f i))

theorem filled_of_run (hp : ChildPlanner.new checked physicalCpus strategy len = some p)
    (hr : (Bin.system (setSync needsDrop p len f) bounded).Run NotPolledAgain h s) :
    Filled len f s.state.creator := by
  refine Bin.state_invariant (P := fun g => Filled len f g.creator) hr
    ⟨List.length_replicate, by simp [SimpleGuard.new, writer]⟩ ?_ ?_ ?_
  · intro h s q a g q' hs hfilled hrun ha
    have hat := atSlot_of_running hs hrun
    cases acts_of_act ha with
    | @creator j _ _ _ _ hact =>
        cases writes_of_act hact with
        | call | undefined => exact hfilled
        | write writePtr slot r val =>
            obtain ⟨rfl, hval⟩ := hat
            obtain rfl := hval val rfl
            have hle := hrun.le_weight (willWrite p.plans writePtr)
            have hb := written_balance hp hs writePtr
            have hone : willWrite p.plans writePtr
                (.calling j (.loop writePtr writePtr (r + 1) (some (f writePtr)))) = 1 :=
              if_pos ⟨le_rfl, by omega⟩
            have hlt : writePtr < len := by
              by_contra hge
              rw [if_neg hge] at hb
              omega
            refine ⟨List.length_set.trans hfilled.1, fun i hi => ?_⟩
            by_cases he : i = writePtr
            · rw [he, List.getElem?_set_self (by rw [hfilled.1]; exact hlt)]
            · rw [List.getElem?_set_ne (Ne.symm he)]
              rcases List.mem_append.mp hi with hi | hi
              · exact hfilled.2 i hi
              · exact absurd (List.mem_singleton.mp hi) he
    | _ => exact hfilled
  · intro h s o g m hs hfilled ho
    rw [(polls_of_owner ho).creator]
    exact hfilled
  · intro h s o g m hs hfilled _ _ ho
    obtain ⟨job, hpc, hlt, hfail⟩ := (polls_of_owner ho).failed
    change Filled len f (sendFailed g).creator
    rw [hfail]
    exact hfilled

end Planned

theorem planned_le (plans : List ChildPlan) (i j : ℕ) : planned plans i j ≤ 1 := by
  unfold planned
  cases plans[j]? with
  | none => exact Nat.zero_le 1
  | some plan =>
      simp only [Option.elim_some, ChildPlan.covers]
      split_ifs <;> omega

theorem willWrite_le (plans : List ChildPlan) (i : ℕ) (p : JobPc (WriterPc O)) :
    willWrite plans i p ≤ p.before (fun _ => 1) 2 := by
  cases p with
  | closure j => exact planned_le plans i j
  | calling j p =>
      cases p with
      | loop writePtr slot r val | undefined writePtr slot r =>
          change (if _ then 1 else 0) ≤ 1
          split_ifs <;> omega
      | indexOutOfBounds => exact Nat.zero_le _
  | _ => exact Nat.zero_le _

theorem willCall_le (plans : List ChildPlan) (i : ℕ) (p : JobPc (WriterPc O)) :
    willCall plans i p ≤ p.before (fun _ => 1) 2 := by
  cases p with
  | closure j => exact planned_le plans i j
  | calling j p =>
      cases p with
      | loop writePtr slot r val =>
          cases val <;> change (if _ then 1 else 0) ≤ 1 <;> split_ifs <;> omega
      | undefined writePtr slot r =>
          change (if _ then 1 else 0) ≤ 1
          split_ifs <;> omega
      | indexOutOfBounds => exact Nat.zero_le _
  | _ => exact Nat.zero_le _

/-- The contract of `set_sync`; the vec it returns is the buffer. -/
structure Builds (len : ℕ) (f : ℕ → O)
    (s : Bin Empty ℕ (JobPc (WriterPc O)) (SimpleGuard (Output O)) bounded) : Prop where
  defined : ∀ j writePtr slot r, ¬ s.Running (.calling j (.undefined writePtr slot r))
  called : ∀ i, s.state.creator.called.count i ≤ if i < len then 1 else 0
  written : ∀ i, s.state.creator.written.count i ≤ if i < len then 1 else 0
  called_once : s.state.result = some .ready →
    ∀ i, s.state.creator.called.count i = if i < len then 1 else 0
  built : s.state.result = some .ready →
    s.state.creator.buffer = (List.range len).map fun i => some (f i)

variable {p : ChildPlanner} {checked : Bool} {physicalCpus : UInt16} {strategy : Strategy}

/-- A write that is undefined is past the capacity. -/
def PastCapacity (len : ℕ) : JobPc (WriterPc O) → Prop
  | .calling _ (.undefined writePtr _ _) => len ≤ writePtr
  | _ => True

theorem pastCapacity_of_running
    (hp : ChildPlanner.new checked physicalCpus strategy len = some p)
    (hr : (Bin.system (setSync false p len f) bounded).Run NotPolledAgain h s)
    {q : JobPc (WriterPc O)} (hq : s.Running q) : PastCapacity len q := by
  refine Bin.running_invariant (fun u => u.elim) (fun _ => trivial) ?_ hr hq
  intro h s q a g q' hs hpast ha
  cases acts_of_act ha with
  | call j =>
      simp only [writer]
      split <;> trivial
  | creator hact =>
      cases writes_of_act hact with
      | call | write => trivial
      | undefined writePtr slot r val hslot =>
          have hlen := (filled_of_run hp hs).1
          exact hlen.symm.trans_le (hslot rfl)
  | _ => trivial

/-- Where no drop is needed all writes are to the slots of the vec. -/
theorem not_undefined_of_run (hp : ChildPlanner.new checked physicalCpus strategy len = some p)
    (hr : (Bin.system (setSync false p len f) bounded).Run NotPolledAgain h s)
    (j writePtr slot r : ℕ) : ¬ s.Running (.calling j (.undefined writePtr slot r)) := by
  intro hrun
  have hpast : len ≤ writePtr := pastCapacity_of_running hp hr hrun
  have hone : willWrite p.plans writePtr
      (.calling j (.undefined writePtr slot r) : JobPc (WriterPc O)) = 1 :=
    if_pos ⟨le_rfl, by omega⟩
  have hle := hrun.le_weight (willWrite p.plans writePtr)
  have hb := written_balance hp hr writePtr
  rw [if_neg (by omega)] at hb
  omega

theorem builds_of_run (hp : ChildPlanner.new checked physicalCpus strategy len = some p)
    (hr : (Bin.system (setSync false p len f) bounded).Run NotPolledAgain h s) :
    Builds len f s where
  defined := not_undefined_of_run hp hr
  called := by
    intro i
    have hb := called_balance hp hr i
    omega
  written := by
    intro i
    have hb := written_balance hp hr i
    omega
  called_once := by
    intro hres i
    obtain ⟨hin, hun⟩ := quiet_of_zero hr ((guardInv_of_run hr).ready hres)
    have hle := load_le s (planned_le p.plans i) (willCall_le p.plans i)
    have hb := called_balance hp hr i
    rw [hun, weight_nil] at hb
    omega
  built := by
    intro hres
    obtain ⟨hin, hun⟩ := quiet_of_zero hr ((guardInv_of_run hr).ready hres)
    obtain ⟨hlen, hfilled⟩ := filled_of_run hp hr
    refine List.ext_getElem? fun i => ?_
    by_cases hi : i < len
    · have hle := load_le s (planned_le p.plans i) (willWrite_le p.plans i)
      have hb := written_balance hp hr i
      rw [hun, weight_nil, if_pos hi] at hb
      rw [hfilled i (List.count_pos_iff.mp (by omega)), List.getElem?_map,
        List.getElem?_range hi, Option.map_some]
    · rw [List.getElem?_eq_none (by omega), List.getElem?_eq_none (by simp; omega)]

/-- The first job starts at the first slot, and has something to write. -/
theorem exists_firstPlan (hp : ChildPlanner.new checked physicalCpus strategy len = some p)
    (hlen : 1 ≤ len) : ∃ r, p.plans[0]? = some ⟨0, r + 1⟩ := by
  obtain ⟨hi, hpos, hbound⟩ := ChildPlanner.new_eq_some hp
  have hfirst : 0 < p.bound 1 := by
    by_contra hz
    have hk : p.k = 0 ∧ p.m = 0 := by
      simp only [ChildPlanner.bound] at hz
      omega
    simp only [ChildPlanner.bound, hk.1, hk.2] at hbound
    omega
  obtain ⟨r, hr⟩ := Nat.exists_eq_succ_of_ne_zero hfirst.ne'
  refine ⟨r, ?_⟩
  rw [ChildPlanner.plans_eq hi, List.getElem?_map, List.getElem?_range hpos, Option.map_some,
    ChildPlanner.planAt, Nat.zero_add, hr]
  simp [ChildPlanner.bound]

/-- A worker takes the first job and makes its first write. -/
def firstWrite : List (BinLabel (JobAction WriterAction) GuardStep) :=
  [.startWorker, .owner .poll, .owner .next, .work 0 (.recv 1), .work 0 (.act .call),
    .work 0 (.act (.creator .call)), .work 0 (.act (.creator .write))]

/-- A first poll hands over the first job to an empty channel. -/
theorem step_next {K : JobCreator (Output O) (WriterPc O) WriterAction} (hjobs : 0 < jobs.toNat)
    (hroom : 0 < bounded) :
    (Bin.system (client jobs K) bounded).step
        ⟨[.empty, .empty], [], [.recv], (SimpleGuard.new jobs K).enter⟩ (.owner .next) =
      some ⟨[.empty, ⟨[.simple 0], hroom⟩], [], [.recv],
        { (SimpleGuard.new jobs K).enter with pc := .spawning 1, handedOver := [0] }⟩ := by
  simp [Bin.system, Bin.step, pollStep, enter, SimpleGuard.new, hjobs, Bin.spawn, Bin.send,
    Bin.setState, Bin.setChannel, Fifo.push, Fifo.empty, hroom]

theorem exists_undefined (hp : ChildPlanner.new checked physicalCpus strategy len = some p)
    (hlen : 1 ≤ len) (hle : p.plans.length ≤ bounded) (f : ℕ → O) :
    ∃ s : Bin Empty ℕ (JobPc (WriterPc O)) (SimpleGuard (Output O)) bounded,
      (Bin.system (setSync true p len f) bounded).Run NotPolledAgain firstWrite.reverse s ∧
        ∃ r, s.Running (.calling 0 (.undefined 0 0 r)) := by
  obtain ⟨r, hr⟩ := exists_firstPlan hp hlen
  have hpos : 0 < p.plans.length := (List.getElem?_eq_some_iff.mp hr).1
  have hjobs : 0 < (UInt32.ofNat p.plans.length).toNat := by rwa [toNat_length_plans hp]
  obtain ⟨l, rfl⟩ := Nat.exists_eq_succ_of_ne_zero (Nat.ne_of_gt hlen)
  let K := writer true p.plans (l + 1) f
  let g := { (SimpleGuard.new (UInt32.ofNat p.plans.length) K).enter with
    pc := .spawning 1, handedOver := [0] }
  have hstart : K.start 0 = .loop 0 0 (r + 1) none := by simp [K, writer, hr]
  have hcall : (Bin.system (setSync true p (l + 1) f) bounded).step
      ⟨[.empty, .empty], [], [.job (.closure 0)], g⟩ (.work 0 (.act .call)) =
      some ⟨[.empty, .empty], [], [.job (.calling 0 (.loop 0 0 (r + 1) none))],
        { g with called := [0] }⟩ := by
    rw [← hstart]
    rfl
  -- every slot of the vec is without a value, also the first one
  refine ⟨_, ((((((Lts.Path.refl.snoc trivial rfl).snoc (fun _ => nofun) rfl).snoc trivial
    (step_next hjobs (hpos.trans_le hle))).snoc trivial rfl).snoc trivial hcall).snoc trivial
    rfl).snoc trivial rfl, r, .inl ?_⟩
  exact List.mem_singleton_self _

/-- Exactly the vecs of elements that need no drop are built. -/
theorem builds_iff_needsDrop
    (hp : ChildPlanner.new checked physicalCpus strategy len = some p) (hlen : 1 ≤ len)
    (hle : p.plans.length ≤ bounded) :
    (∀ h s, (Bin.system (setSync needsDrop p len f) bounded).Run NotPolledAgain h s →
      Builds len f s) ↔ needsDrop = false := by
  constructor
  · intro hall
    cases needsDrop with
    | false => rfl
    | true =>
        obtain ⟨s, hs, r, hrun⟩ := exists_undefined hp hlen hle f
        exact absurd hrun ((hall _ s hs).defined 0 0 0 r)
  · rintro rfl h s hr
    exact builds_of_run hp hr

/-- Two jobs for three elements. -/
def threeElements : ChildPlanner := ⟨0, 1, 1, 2, by decide⟩

/-- The second job starts while the first one is between its two elements. -/
def twoWriters : List (BinLabel (JobAction WriterAction) GuardStep) :=
  [.startWorker, .startWorker, .owner .poll, .owner .next, .owner .next, .owner .next,
    .owner .register, .owner .load, .work 0 (.recv 1), .work 0 (.act .call),
    .work 0 (.act (.creator .call)), .work 0 (.act (.creator .write)), .work 1 (.recv 1),
    .work 1 (.act .call), .work 1 (.act (.creator .call)), .work 0 (.act (.creator .call)),
    .work 1 (.act (.creator .write)), .work 1 (.act .leave), .work 1 (.act .fetchSub),
    .work 0 (.act (.creator .write)), .work 0 (.act .leave), .work 0 (.act .fetchSub),
    .work 0 (.act .wake), .owner .poll, .owner .register, .owner .load]

theorem builds_twoWriters :
    Builds 3 (fun i => i * i) (⟨[.empty, .empty], [], [.job (.finished 0), .job (.finished 1)],
      ⟨⟨0, ⟨some 2, [1]⟩⟩, true, .idle, 2, some .ready,
        ⟨[some 0, some 1, some 4], [0, 2, 1], [0, 2, 1]⟩, [0, 1], [0, 1], [1, 0], [1, 0],
        [1, 0]⟩⟩ : Bin Empty ℕ (JobPc (WriterPc ℕ)) (SimpleGuard (Output ℕ)) 1000000) := by
  have hp : ChildPlanner.new true 1 (.jobs 2) 3 = some threeElements := by decide
  exact (builds_iff_needsDrop hp (by omega) (by decide)).mpr rfl _ _
    (Lts.path_of_exec twoWriters (by decide))

def oneElement : ChildPlanner := ⟨0, 1, 0, 1, by decide⟩

/-- A vec of one vec. -/
theorem exists_not_builds :
    ¬ ∀ h s, (Bin.system (setSync true oneElement 1 fun i => [i]) 1000000).Run
      NotPolledAgain h s → Builds 1 (fun i => [i]) s := by
  intro hall
  have hp : ChildPlanner.new true 1 (.jobs 1) 1 = some oneElement := by decide
  have hle : oneElement.plans.length ≤ 1000000 := by decide
  obtain ⟨s, hs, r, hrun⟩ := exists_undefined hp le_rfl hle fun i => [i]
  exact (hall _ s hs).defined 0 0 0 r hrun

end SetSync
end Kiruna.Tpc

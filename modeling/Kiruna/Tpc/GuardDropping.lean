import Kiruna.Tpc.InvalidState
import Kiruna.Tpc.OnlyJobs
import Kiruna.Tpc.ScopedSetCompletion
import Kiruna.Tpc.SimpleGuardJobs
import Mathlib.Data.UInt

/-!
# Dropping a guard

A guard that is dropped while tasks are active must panic. `InternalGuard` goes by its state, which
only its polls change: after a poll that did not return `Ready` it panics, also when its last child
has finished since. `SimpleGuard` goes by the counter, which stands at `jobs` before anything has
been spawned: it panics also when none of its jobs has been handed over.

How many tasks are active can be read off the counter and the number of tasks that were handed over,
and so can whether a drop does the right thing.
-/

namespace Kiruna.Tpc

open Lts (Free)

namespace InternalGuard

variable {f : FirstPoll} {tasks bounded : ℕ} {g g' : InternalGuard}
  {s t : Bin ℕ Empty ChildPc InternalGuard bounded} {a : BinLabel ChildAction ScopedStep}
  {h : List (BinLabel ChildAction ScopedStep)}
  {ok : Bin ℕ Empty ChildPc InternalGuard bounded → BinLabel ChildAction ScopedStep → Prop}

/-- A child that has been handed over has not completed. -/
def Active (s : Bin ℕ Empty ChildPc InternalGuard bounded) : Prop :=
  ∃ u ∈ s.futures, ∃ c, s.state.children[u.underlying]? = some c ∧ c.completed = false

/-- The value of the counter, once the first poll has made it. -/
def remaining (g : InternalGuard) : ℕ := g.shared.elim 0 fun set => set.childrenRemaining.toNat

/-- Only the children of the set are handed over. -/
theorem lt_of_spawn {tasks k : ℕ} {g' : InternalGuard} {o : ScopedStep}
    (h : pollStep tasks g o = some (g', some (.inl k))) : k < tasks := by
  cases o with
  | next =>
      simp only [pollStep] at h
      split at h
      · split_ifs at h with hlt <;> cases h
        exact hlt
      · cases h
  | poll =>
      simp only [pollStep] at h
      split at h
      · split at h
        · split_ifs at h <;> cases h
        all_goals cases h
      · cases h
  | register | load =>
      simp only [pollStep] at h
      split at h <;> cases h

/-- What has been handed over are children that the guard has made. -/
structure Made (tasks : ℕ) (s : Bin ℕ Empty ChildPc InternalGuard bounded) : Prop where
  le : s.futures.length ≤ tasks
  shared : s.state.shared = none → s.futures = [] ∧ ∀ k, s.state.pc ≠ .spawning k
  children : s.state.shared = none → s.state.children = []

theorem Made.frame (hs : Made tasks s) (hlen : t.futures.length = s.futures.length)
    (hstate : t.state = s.state) : Made tasks t where
  le := hlen.trans_le hs.le
  shared := by
    intro hz
    rw [hstate] at hz ⊢
    obtain ⟨hnil, hpc⟩ := hs.shared hz
    exact ⟨List.length_eq_zero_iff.mp (hlen.trans (by rw [hnil, List.length_nil])), hpc⟩
  children := by
    rw [hstate]
    exact hs.children

theorem Made.act (hs : Made tasks s) {p p' : ChildPc} (ha : Acts s.state p g p') :
    Made tasks (s.setState g) := by
  cases ha with
  | complete | wake => exact ⟨hs.le, fun hz => (by cases hz), fun hz => (by cases hz)⟩
  | @done k c hc =>
      refine ⟨hs.le, hs.shared, fun hz => ?_⟩
      simp only [Bin.setState, hs.children hz, List.set_nil]
  | panicked => exact hs

/-- A poll of the guard that hands over nothing, or whose child is not sent. -/
theorem Made.poll (hs : Made tasks s) {m : Option (ℕ ⊕ Empty)} (hp : Polls tasks s.state g m)
    (hpc : ∀ k, g.pc = .spawning k → g.shared ≠ none) : Made tasks (s.setState g) := by
  refine ⟨hs.le, fun hz => ⟨?_, fun k hk => hpc k hk hz⟩, ?_⟩
  · cases hp with
    | first => cases hz
    | register => exact (hs.shared (by simpa [Bin.setState] using hz)).1
    | _ => exact (hs.shared hz).1
  · cases hp with
    | first =>
        intro hz
        cases hz
    | register => exact fun hz => hs.children (by simpa [Bin.setState] using hz)
    | _ => exact hs.children

theorem made_of_run (hr : (Bin.system (client tasks) bounded).Run ok h s) : Made tasks s := by
  refine hr.induct (P := fun _ s => Made tasks s)
    ⟨Nat.zero_le _, fun _ => ⟨rfl, by simp [Bin.system, Bin.new, new]⟩, fun _ => rfl⟩ ?_
  intro h s a t hr hs _ hst
  have hspawning : ∀ {k}, s.state.pc = .spawning k → s.state.shared ≠ none :=
    fun hk hz => (hs.shared hz).2 _ hk
  cases Bin.effect_of_step hst with
  | actPoll hw ha | actJob hw ha => exact (hs.act (acts_of_act ha)).frame rfl rfl
  | owner ho =>
      have hp := polls_of_owner ho
      refine hs.poll hp fun k hk => ?_
      cases hp with
      | first =>
          intro hz
          cases hz
      | again hpc => rcases hpc with rfl | rfl <;> cases hk
      | _ => cases hk
  | spawnFuture ho hc =>
      have hlt := lt_of_spawn ho
      have hp := polls_of_owner ho
      cases hp with
      | spawn hpc =>
          have hlen := ((numbered_of_run hr).spawning _ hpc).2
          have hne := hspawning hpc
          refine ⟨?_, fun hz => absurd hz hne, fun hz => absurd hz hne⟩
          change (s.futures ++ [_]).length ≤ tasks
          rw [List.length_append, List.length_singleton, hlen]
          exact hlt
  | spawnFailed ho =>
      have hp := polls_of_owner ho
      cases hp with
      | spawn hpc =>
          have hne := hspawning hpc
          exact ⟨hs.le, fun hz => absurd hz hne, fun hz => absurd hz hne⟩
  | @spawnJob o st j => exact j.elim
  | poll hw hf | retry hw hf | wakeInPoll hw hf | cloneInPoll hw hf | ready hw hf | unlock hw hf
  | dropWaker hw hf | unwind hw hf | clone hf | wake hf | wakeFailed hf | wakeByRef hf
  | drop hf => exact hs.frame List.length_set rfl
  | _ => exact hs.frame rfl rfl

/-- Only a first poll makes the counter, and only its loop hands anything over. -/
theorem unmade_of_pollStep {o : ScopedStep} {m : Option (ℕ ⊕ Empty)}
    (ho : pollStep 0 g o = some (g', m)) (hfirst : o = .poll → g.state ≠ .notSpawned)
    (hz : g.shared = none) : g'.shared = none ∧ m = none := by
  have hm : m = none := by
    cases m with
    | none => rfl
    | some m =>
        cases m with
        | inl k => exact absurd (lt_of_spawn ho) (Nat.not_lt_zero k)
        | inr j => exact j.elim
  refine ⟨?_, hm⟩
  cases o with
  | poll =>
      cases polls_of_owner (show (client 0).owner g .poll = some (g', m) from ho) with
      | first hstate => exact absurd hstate (hfirst rfl)
      | register => simp [hz]
      | _ => exact hz
  | next =>
      simp only [pollStep] at ho
      split at ho
      · split_ifs at ho <;> cases ho <;> exact hz
      · cases ho
  | register =>
      simp only [pollStep] at ho
      split at ho <;> cases ho
      simp [hz]
  | load =>
      have hfinish : ∀ r, (g.finish r).shared = none := fun r => by cases r <;> exact hz
      simp only [pollStep] at ho
      split at ho
      · cases ho
        exact hfinish _
      · cases ho
        exact hfinish _
      · split_ifs at ho <;> cases ho
        · exact hfinish _
        · exact hz
      · cases ho

/-- A guard whose first poll panics before its loop makes nothing. -/
theorem unmade_of_none (hf : f.comingSoon = none)
    (hr : (Bin.system (iteratorClient f) bounded).Run ok h s) :
    s.futures = [] ∧ s.state.shared = none := by
  have hunmade : ∀ {g g' : InternalGuard} {o m}, pollFrom f g o = some (g', m) →
      g.shared = none → g'.shared = none ∧ m = none := by
    intro g g' o m ho hz
    simp only [pollFrom, hf] at ho
    split at ho
    · split_ifs at ho
      cases ho
      exact ⟨hz, rfl⟩
    · exact unmade_of_pollStep ho ‹_› hz
  refine hr.invariant (P := fun s => s.futures = [] ∧ s.state.shared = none)
    (fun s a t hs _ hst => ?_) ⟨rfl, rfl⟩
  have hset : ∀ i u, s.futures.set i u = [] := fun i u => by rw [hs.1, List.set_nil]
  cases Bin.effect_of_step hst with
  | actPoll hw ha | actJob hw ha =>
      have ha : (client f.children).act s.state _ _ = some (_, _) := ha
      cases acts_of_act ha with
      | complete hc hshared | wake hshared =>
          rw [hs.2] at hshared
          cases hshared
      | _ => exact hs
  | owner ho => exact ⟨hs.1, (hunmade ho hs.2).1⟩
  | spawnFuture ho | spawnFailed ho => cases (hunmade ho hs.2).2
  | @spawnJob o st j => exact j.elim
  | poll | retry | wakeInPoll | cloneInPoll | ready | unlock | dropWaker | unwind | clone | wake
  | wakeFailed | wakeByRef | drop => exact ⟨hset _ _, hs.2⟩
  | _ => exact hs

theorem StateInv.drop_eq_returned (hg : StateInv g) :
    g.drop = .returned ↔ g.polls = 0 ∨ g.result = some .ready := by
  rw [← hg.notSpawned, ← hg.done, drop]
  cases g.state <;> simp

theorem weight_unfinished_pos {l : List Child} :
    0 < weight Child.unfinished l ↔ ∃ c ∈ l, c.completed = false := by
  rw [Nat.pos_iff_ne_zero, ne_eq, weight_eq_zero]
  simp [Child.unfinished]

/-- Where no completed child is polled again, the counter tells how many children are active: those
that were not handed over count as well. -/
theorem active_iff (hr : (Bin.system (client tasks) bounded).Run Bin.Quiet h s) :
    Active s ↔ s.state.children.length < s.state.remaining + s.futures.length := by
  have hmade := made_of_run hr
  have hnumbered := numbered_of_run hr
  have hcompletion := completionInv_of_run hr
  cases hshared : s.state.shared with
  | none =>
      obtain ⟨hnil, -⟩ := hmade.shared hshared
      simp [Active, remaining, hshared, hnil]
  | some set =>
      have hlen := hcompletion.length (by simp [hshared])
      have hle := hmade.le
      have hremaining : s.state.remaining = weight Child.unfinished s.state.children := by
        simp only [remaining, hshared, Option.elim_some, hcompletion.remaining set hshared,
          unfinished]
      -- the children that were not handed over are all unfinished
      have hrest : weight Child.unfinished (s.state.children.drop s.futures.length) =
          tasks - s.futures.length := by
        have hone : ∀ c ∈ s.state.children.drop s.futures.length, Child.unfinished c = 1 := by
          intro c hc
          obtain ⟨i, hi⟩ := List.mem_iff_getElem?.mp hc
          rw [List.getElem?_drop] at hi
          have hidle := (childInv_of_run hr).idle (s.futures.length + i)
            (by simp [Bin.completedAt]) (by simp [Bin.lockedAt])
          simp only [isCompleted, hi, Option.any_some] at hidle
          simp [Child.unfinished, hidle]
        rw [weight_congr hone, weight_one, List.length_drop, hlen]
      have hsplit := weight_append Child.unfinished (s.state.children.take s.futures.length)
        (s.state.children.drop s.futures.length)
      rw [List.take_append_drop] at hsplit
      have hactive : Active s ↔
          0 < weight Child.unfinished (s.state.children.take s.futures.length) := by
        rw [weight_unfinished_pos]
        constructor
        · rintro ⟨u, hu, c, hc, hactive⟩
          obtain ⟨i, hi⟩ := List.mem_iff_getElem?.mp hu
          rw [hnumbered.underlying_eq hi] at hc
          have hlt := (List.getElem?_eq_some_iff.mp hi).1
          refine ⟨c, List.mem_iff_getElem?.mpr ⟨i, ?_⟩, hactive⟩
          rw [List.getElem?_take_of_lt hlt]
          exact hc
        · rintro ⟨c, hc, hactive⟩
          obtain ⟨i, hi⟩ := List.mem_iff_getElem?.mp hc
          rw [List.getElem?_take] at hi
          split_ifs at hi with hlt
          refine ⟨_, List.getElem_mem hlt, c, ?_, hactive⟩
          rw [hnumbered.underlying_eq (List.getElem?_eq_getElem hlt)]
          exact hi
      rw [hactive, hlen, hremaining]
      omega

/-- As long as no completed child is polled again, a drop while a task is active panics. -/
theorem not_active_of_quiet (hr : (Bin.system (client tasks) bounded).Run Bin.Quiet h s)
    (hg : StateInv s.state) (hdrop : s.state.drop = .returned) : ¬ Active s := by
  rcases hg.drop_eq_returned.mp hdrop with hz | hready
  · have hfresh := (numbered_of_run hr).fresh (hg.notSpawned.mpr hz)
    rintro ⟨u, hu, -⟩
    rw [List.length_eq_zero_iff.mp hfresh] at hu
    cases hu
  · obtain ⟨-, hz⟩ := (completionInv_of_run hr).ready hready
    rintro ⟨u, -, c, hc, hactive⟩
    have hdone := weight_eq_zero.mp hz c (List.mem_of_getElem? hc)
    rw [Child.unfinished, hactive] at hdone
    cases hdone

/-- The drop does the right thing: the guard was not polled or is ready, or fewer children have
finished than were handed over. -/
def DropsRight (s : Bin ℕ Empty ChildPc InternalGuard bounded) : Prop :=
  s.state.polls = 0 ∨ s.state.result = some .ready ∨
    s.state.children.length < s.state.remaining + s.futures.length

theorem dropPanics_iff (hr : (Bin.system (iteratorClient f) bounded).Run Bin.Quiet h s) :
    (s.state.drop ≠ .returned ↔ Active s) ↔ DropsRight s := by
  have hg := stateInv_of_run hr
  have hdrop := hg.drop_eq_returned
  have hactive : (Active s ↔ s.state.children.length < s.state.remaining + s.futures.length) ∧
      (s.state.drop = .returned → ¬ Active s) := by
    cases hf : f.comingSoon with
    | none =>
        obtain ⟨hnil, hshared⟩ := unmade_of_none hf hr
        simp [Active, remaining, hnil, hshared]
    | some tasks =>
        rw [iteratorClient_of_some hf] at hr
        exact ⟨active_iff hr, not_active_of_quiet hr hg⟩
  rw [DropsRight, ← or_assoc, ← hdrop, ← hactive.1]
  by_cases hreturned : s.state.drop = .returned
  · simp [hreturned, hactive.2 hreturned]
  · simp [hreturned]

end InternalGuard

namespace SimpleGuard

variable {State Local Action : Type*} {jobs : UInt32} {K : JobCreator State Local Action}
  {bounded : ℕ} {s : Bin Empty ℕ (JobPc Local) (SimpleGuard State) bounded}
  {ok : Bin Empty ℕ (JobPc Local) (SimpleGuard State) bounded →
    BinLabel (JobAction Action) GuardStep → Prop}
  {h : List (BinLabel (JobAction Action) GuardStep)}

/-- `Drop for SimpleGuard`. -/
def drop (g : SimpleGuard State) : DropResult :=
  if g.shared.childrenRemaining ≠ 0 then .panicked "explicit panic" else .returned

theorem drop_ne_returned_iff {g : SimpleGuard State} :
    g.drop ≠ .returned ↔ g.shared.childrenRemaining ≠ 0 := by
  rw [drop, ne_eq, ite_eq_right_iff]
  simp

/-- A job that has been handed over has not finished: it is in the channel, or a worker has it and
has not counted it as finished, or it has panicked. -/
def Active (s : Bin Empty ℕ (JobPc Local) (SimpleGuard State) bounded) : Prop :=
  (∃ q ∈ s.channel, ∃ j, .simple j ∈ q.items) ∨
    ∃ pc ∈ s.workers, ∃ p : JobPc Local, (pc = .job p ∨ pc = .panicked (some p)) ∧ p.stage ≤ 2

/-- An active job is in flight. -/
theorem active_iff (hr : (Bin.system (client jobs K) bounded).Run ok h s) :
    Active s ↔ 0 < inFlight s (fun _ => 1) 2 := by
  have honly := Bin.onlyJobs_of_run hr
  rw [inFlight, Nat.add_pos_iff_pos_or_pos]
  refine or_congr ⟨?_, fun hpos => ?_⟩ ⟨?_, fun hpos => ?_⟩
  · rintro ⟨q, hq, j, hj⟩
    exact (le_weight_of_mem (w := ThreadMessage.jobWeight fun _ => 1) hj).trans
      (le_weight_of_mem (w := fun q => weight (ThreadMessage.jobWeight fun _ => 1) q.items) hq)
  · obtain ⟨l, q, hq, hpos⟩ := exists_of_weight_pos hpos
    obtain ⟨i, m, hm, hpos⟩ := exists_of_weight_pos hpos
    cases m with
    | simple j => exact ⟨q, List.mem_of_getElem? hq, j, List.mem_of_getElem? hm⟩
    | _ => cases hpos
  · rintro ⟨pc, hpc, p, hp, hstage⟩
    refine lt_of_lt_of_le ?_ (le_weight_of_mem (w := WorkerPc.localWeight _) hpc)
    rcases hp with rfl | rfl <;> simp [WorkerPc.localWeight, JobPc.before, hstage]
  · obtain ⟨w, pc, hw, hpos⟩ := exists_of_weight_pos hpos
    have hmem := List.mem_of_getElem? hw
    have hstage : ∀ p : JobPc Local, 0 < p.before (fun _ => 1) 2 → p.stage ≤ 2 := by
      intro p hp
      by_contra hlt
      simp [JobPc.before, hlt] at hp
    rcases honly.workers pc hmem with rfl | rfl | rfl | ⟨p, rfl⟩ | ⟨p, rfl, -⟩
    · cases hpos
    · cases hpos
    · cases hpos
    · exact ⟨_, hmem, p, .inl rfl, hstage p hpos⟩
    · exact ⟨_, hmem, p, .inr rfl, hstage p hpos⟩

/-- The counter goes down once for each job that finishes, also below zero. -/
theorem childrenRemaining_of_run (hr : (Bin.system (client jobs K) bounded).Run ok h s) :
    s.state.shared.childrenRemaining = jobs - UInt32.ofNat s.state.decremented.length := by
  refine Bin.state_invariant (P := fun g : SimpleGuard State =>
    g.shared.childrenRemaining = jobs - UInt32.ofNat g.decremented.length) hr ?_ ?_ ?_ ?_
  · exact (sub_zero jobs).symm
  · intro h s p a g p' _ hs _ ha
    have hnext : s.state.shared.childrenRemaining - 1 =
        jobs - UInt32.ofNat (s.state.decremented.length + 1) := by
      rw [hs, UInt32.ofNat_add]
      exact sub_sub _ _ _
    cases acts_of_act ha with
    | last | notLast =>
        simp only [List.length_append, List.length_singleton]
        exact hnext
    | _ => exact hs
  · intro h s o g m _ hs ho
    cases polls_of_owner ho <;> exact hs
  · intro h s o g m _ hs _ _ ho
    obtain ⟨job, -, -, hfail⟩ := (polls_of_owner ho).failed
    change (sendFailed g).shared.childrenRemaining =
      jobs - UInt32.ofNat (sendFailed g).decremented.length
    rw [hfail]
    exact hs

/-- The drop does the right thing: at zero the set has handed over no more jobs than it has, and
elsewhere fewer jobs have finished than it has handed over. -/
def DropsRight (jobs : UInt32) (g : SimpleGuard State) : Prop :=
  if g.shared.childrenRemaining = 0 then g.handedOver.length ≤ jobs.toNat
  else (jobs - g.shared.childrenRemaining).toNat < g.handedOver.length

instance (g : SimpleGuard State) : Decidable (DropsRight jobs g) :=
  inferInstanceAs (Decidable (ite _ _ _))

/-- As long as the jobs handed over do not outnumber the values of the counter. -/
theorem dropPanics_iff (hr : (Bin.system (client jobs K) bounded).Run ok h s)
    (hn : s.state.handedOver.length < 2 ^ 32) :
    (s.state.drop ≠ .returned ↔ Active s) ↔ DropsRight jobs s.state := by
  have hbalance := spawn_balance hr (fun _ => 1) (r := 2) (by omega)
  have hcounter := childrenRemaining_of_run hr
  simp only [weight_one, log] at hbalance
  have hfinished : (UInt32.ofNat s.state.decremented.length).toNat =
      s.state.decremented.length :=
    UInt32.toNat_ofNat_of_lt' (show s.state.decremented.length < 2 ^ 32 by omega)
  rw [drop_ne_returned_iff, active_iff hr, DropsRight]
  split_ifs with hz
  · have hjobs : jobs.toNat = s.state.decremented.length := by
      rw [← hfinished, ← sub_eq_zero.mp (hcounter.symm.trans hz)]
    simp only [hz, ne_eq, not_true_eq_false, false_iff, hjobs]
    omega
  · have hsub : (jobs - s.state.shared.childrenRemaining).toNat =
        s.state.decremented.length := by
      rw [← hfinished, hcounter]
      exact congrArg UInt32.toNat (sub_sub_self _ _)
    simp only [hz, ne_eq, not_false_eq_true, true_iff, hsub]
    omega

end SimpleGuard

section Guards

variable {State Local Action : Type*} {jobs : UInt32} {K : JobCreator State Local Action}
  {f : FirstPoll} {bounded bounded' : ℕ} {s : Bin ℕ Empty ChildPc InternalGuard bounded}
  {s' : Bin Empty ℕ (JobPc Local) (SimpleGuard State) bounded'}
  {h : List (BinLabel ChildAction ScopedStep)} {h' : List (BinLabel (JobAction Action) GuardStep)}

end Guards

/-- A set whose only child has not been received. -/
def spawnOne : List (BinLabel ChildAction ScopedStep) :=
  [.owner .poll, .owner .next, .owner .next, .owner .load]

/-- The only child finishes after the last poll. -/
def finishOne : List (BinLabel ChildAction ScopedStep) :=
  spawnOne ++ [.startWorker, .work 0 (.recv 1), .work 0 (.poll 0), .work 0 (.act .complete),
    .work 0 (.act .wake), .work 0 (.act .assertDone), .work 0 (.ready 0)]

def oneTask : FirstPoll := ⟨.yields 1, true, some (.new 4), 1⟩

def afterSpawnOne : Bin ℕ Empty ChildPc InternalGuard 1000000 :=
  ⟨[.empty, ⟨[.work 0], by decide⟩], [⟨0, false, 1, 0, false⟩], [],
    ⟨.spawned, .idle, 1, some .pending, some ⟨1, ⟨some 1, []⟩⟩, [⟨false, false⟩]⟩⟩

def afterAroundRegister : Bin Empty ℕ (JobPc Unit) (SimpleGuard Unit) 1000000 :=
  ⟨[.empty, .empty], [], [.recv], ⟨⟨0, ⟨none, [1]⟩⟩, true, .idle, 1, some .pending, (),
    [0, 1], [0, 1], [0, 1], [0, 1], [0, 1]⟩⟩

end Kiruna.Tpc

import Kiruna.Transition.Lts

/-!
# The sparse test executor

`sparse_await` polls its future, and then again for each unit that its channel brings before the
deadline. `SimpleWaker` sends such a unit, under a mutex. A panic under the mutex poisons it, and
every later `lock().unwrap()` panics as well.

On its way out `sparse_await` drops the future first and the receiver last. The clock decides
whether a deadline has passed, and the future how a poll and its destructor end.
-/

namespace Kiruna.Test

/-- Where the loop of `sparse_await` stands: inside a poll, before the check of the deadline, or in
`recv_timeout`. -/
inductive AwaitPc
  | poll
  | deadline
  | recv
  deriving DecidableEq

/-- How far `sparse_await` has come on its way out: before the drop of the future, before that of
the receiver, or back at its caller. The flag says that a panic unwinds; a second one aborts. -/
inductive Leaving
  | no
  | future (panicking : Bool)
  | receiver (panicking : Bool)
  | gone (panicking : Bool)
  | aborted
  deriving DecidableEq

/-- `sent` is the number of units in the channel. -/
structure SparseAwait where
  sent : ℕ
  poisoned : Bool
  pc : AwaitPc
  leaving : Leaving
  deriving DecidableEq

inductive WakeOutcome
  | returned
  | panicked
  deriving DecidableEq

/-- One step of `sparse_await` or a call of `wake` or `wake_by_ref`. -/
inductive AwaitLabel
  | ready
  | pending
  | pollPanicked
  | deadlineExceeded
  | remaining
  | recv
  | timedOut
  | dropFuture (panics : Bool)
  | dropReceiver
  | wake
  deriving DecidableEq

namespace SparseAwait

def new : SparseAwait := ⟨0, false, .poll, .no⟩

/-- The receiver is a local variable of `sparse_await`. -/
def receiverAlive (s : SparseAwait) : Bool :=
  match s.leaving with
  | .gone _ => false
  | _ => true

/-- `SimpleWaker::wake`: `lock().unwrap()` and `send(()).unwrap()`. -/
def wake (s : SparseAwait) : SparseAwait × WakeOutcome :=
  if s.poisoned then (s, .panicked)
  else if s.receiverAlive then ({ s with sent := s.sent + 1 }, .returned)
  else ({ s with poisoned := true }, .panicked)

/-- A step of the loop. -/
def stay (s : SparseAwait) (pc pc' : AwaitPc) : Option SparseAwait :=
  if s.leaving = .no ∧ s.pc = pc then some { s with pc := pc' } else none

/-- A step that ends the loop. -/
def leave (s : SparseAwait) (pc : AwaitPc) (panicking : Bool) : Option SparseAwait :=
  if s.leaving = .no ∧ s.pc = pc then some { s with leaving := .future panicking } else none

/-- What the drop of the future leaves to do. -/
def afterDrop (panicking panics : Bool) : Leaving :=
  if panics then if panicking then .aborted else .receiver true else .receiver panicking

def step (s : SparseAwait) : AwaitLabel → Option SparseAwait
  | .ready => s.leave .poll false
  | .pending => s.stay .poll .deadline
  | .pollPanicked => s.leave .poll true
  | .deadlineExceeded => s.leave .deadline true
  | .remaining => s.stay .deadline .recv
  | .recv => if s.sent ≠ 0 then { s with sent := s.sent - 1 }.stay .recv .poll else none
  | .timedOut => if s.sent = 0 then s.leave .recv true else none
  | .dropFuture panics =>
      match s.leaving with
      | .future panicking => some { s with leaving := afterDrop panicking panics }
      | _ => none
  | .dropReceiver =>
      match s.leaving with
      | .receiver panicking => some { s with leaving := .gone panicking }
      | _ => none
  | .wake => if s.leaving = .aborted then none else some s.wake.1

def system : Lts SparseAwait AwaitLabel where
  init := new
  step := step

/-- The run has come to the drop of the receiver, the last step before the return of the output or
the end of a panic. -/
def Ended (h : List AwaitLabel) : Prop := .dropReceiver ∈ h

variable {s t : SparseAwait} {h : List AwaitLabel} {ok : SparseAwait → AwaitLabel → Prop}

theorem stay_eq_some {pc pc' : AwaitPc} (h : s.stay pc pc' = some t) :
    s.leaving = .no ∧ s.pc = pc ∧ t = { s with pc := pc' } := by
  unfold stay at h
  split_ifs at h with hpc
  exact ⟨hpc.1, hpc.2, (Option.some.inj h).symm⟩

theorem leave_eq_some {pc : AwaitPc} {panicking : Bool} (h : s.leave pc panicking = some t) :
    s.leaving = .no ∧ s.pc = pc ∧ t = { s with leaving := .future panicking } := by
  unfold leave at h
  split_ifs at h with hpc
  exact ⟨hpc.1, hpc.2, (Option.some.inj h).symm⟩

theorem leaving_wake (s : SparseAwait) : s.wake.1.leaving = s.leaving := by
  unfold wake
  split_ifs <;> rfl

theorem pc_wake (s : SparseAwait) : s.wake.1.pc = s.pc := by
  unfold wake
  split_ifs <;> rfl

theorem receiverAlive_iff (s : SparseAwait) :
    s.receiverAlive = true ↔ ∀ p, s.leaving ≠ .gone p := by
  unfold receiverAlive
  cases s.leaving <;> simp

theorem receiverAlive_wake (s : SparseAwait) : s.wake.1.receiverAlive = s.receiverAlive := by
  simp only [receiverAlive, leaving_wake]

/-- The receiver stays where it is but for its drop, and the mutex but for a wake. -/
theorem receiverAlive_of_step {a : AwaitLabel} (hst : s.step a = some t) :
    (t.receiverAlive = true ↔ s.receiverAlive = true ∧ a ≠ .dropReceiver) ∧
      (a ≠ .wake → t.poisoned = s.poisoned) := by
  cases a with
  | ready | pollPanicked | deadlineExceeded =>
      obtain ⟨hno, -, rfl⟩ := leave_eq_some hst
      simp [receiverAlive, hno]
  | pending | remaining =>
      obtain ⟨-, -, rfl⟩ := stay_eq_some hst
      simp [receiverAlive]
  | recv =>
      simp only [step] at hst
      split_ifs at hst
      obtain ⟨-, -, rfl⟩ := stay_eq_some hst
      simp [receiverAlive]
  | timedOut =>
      simp only [step] at hst
      split_ifs at hst
      obtain ⟨hno, -, rfl⟩ := leave_eq_some hst
      simp [receiverAlive, hno]
  | dropFuture panics =>
      simp only [step] at hst
      split at hst <;> cases hst
      rename_i panicking hleaving
      cases panicking <;> cases panics <;> simp [receiverAlive, afterDrop, hleaving]
  | dropReceiver =>
      simp only [step] at hst
      split at hst <;> cases hst
      simp [receiverAlive]
  | wake =>
      simp only [step] at hst
      split_ifs at hst
      cases hst
      simp [receiverAlive_wake]

/-- The receiver is gone at the end of the run, and only a wake after that poisons the mutex. -/
structure Inv (h : List AwaitLabel) (s : SparseAwait) : Prop where
  ended : s.receiverAlive = true ↔ ¬ Ended h
  poisoned : s.poisoned = true → s.receiverAlive = false

theorem inv_of_run (hr : system.Run ok h s) : Inv h s := by
  refine hr.induct (P := Inv)
    ⟨by simp [system, new, receiverAlive, Ended], by simp [system, new]⟩ ?_
  intro h s a t _ ih _ hst
  obtain ⟨halive, hpoisoned⟩ := receiverAlive_of_step hst
  constructor
  · rw [halive, ih.ended, Ended, Ended, List.mem_cons, not_or]
    constructor
    · rintro ⟨hnot, hne⟩
      exact ⟨fun he => hne he.symm, hnot⟩
    · rintro ⟨hne, hnot⟩
      exact ⟨hnot, fun he => hne he.symm⟩
  · intro hp
    by_cases hwake : a = .wake
    · subst hwake
      simp only [system, step] at hst
      split_ifs at hst
      cases hst
      rw [receiverAlive_wake]
      simp only [wake] at hp
      split_ifs at hp with hold hreceiver
      · exact ih.poisoned hold
      · exact ih.poisoned hp
      · simpa using hreceiver
    · rw [hpoisoned hwake] at hp
      by_contra hreceiver
      have hold := (halive.mp (by simpa using hreceiver)).1
      rw [ih.poisoned hp] at hold
      cases hold

/-- A wake returns as long as the receiver has not been dropped. -/
theorem wake_returned_iff (hr : system.Run ok h s) : s.wake.2 = .returned ↔ ¬ Ended h := by
  obtain ⟨hended, hpoisoned⟩ := inv_of_run hr
  rw [← hended, wake]
  split_ifs with hp ha
  · simp [hpoisoned hp]
  · simp [ha]
  · simpa using ha

end SparseAwait
end Kiruna.Test

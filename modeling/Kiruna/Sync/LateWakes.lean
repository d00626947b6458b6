import Kiruna.Sync.Executor
import Kiruna.Test.SparseAwait

/-!
# Wakes that come late

A waker may be kept for as long as its owner likes, and its wake sends on a channel whose receiver
goes with the executor. The executor is gone when it was dropped, and `drain`, which owns it, drops
it when no task is active or when a panic unwinds out of it. A task that is ready is destroyed
before that, so a wake from its destructor is sent in time.
-/

namespace Kiruna.Sync

namespace Executor

open Lts (Free)

variable {F : Type*} {checked : Bool} {s t : Executor F} {h : List (ExecutorLabel F)}
  {a : ExecutorLabel F} {ok : Executor F → ExecutorLabel F → Prop}

/-- A step of `drain` has panicked. -/
def DrainPanicked : List (ExecutorLabel F) → Prop
  | [] => False
  | .panicked _ :: h => .drain ∈ h ∨ DrainPanicked h
  | _ :: h => DrainPanicked h

/-- The executor was dropped: by its owner, or by a `drain` that had no active task left or that
had panicked. -/
def Ended (h : List (ExecutorLabel F)) (s : Executor F) : Prop :=
  .dropExecutor ∈ h ∨ .dropReceiver ∈ h ∧ .drain ∈ h ∧ (s.numActive = 0 ∨ DrainPanicked h)

theorem receiverAlive_of_steps (hst : Steps checked s a t) : t.receiverAlive = true ↔
    s.receiverAlive = true ∧ a ≠ .dropExecutor ∧ a ≠ .dropReceiver := by
  cases hst with
  | spawn f hpc =>
      have hpc' : (s.spawn checked f).pc = .idle := by
        unfold spawn
        split <;> exact hpc
      simp [receiverAlive, hpc, hpc']
  | drain hpc | drainNone hpc | doSome hpc | dropExecutor hpc | recv hpc | recvEmpty hpc
  | poll hpc | ready hpc => simp [receiverAlive, hpc]
  | @skip m w hpc | @pending m w hpc | @taken m w hpc =>
      have halive := afterWakeup_receiverAlive m s.numActive
      simp [receiverAlive, hpc, halive]
  | @underflow m w hpc | @outOfRange m w hpc => cases m <;> simp [receiverAlive, hpc, unwound]
  | @panicked m w hpc =>
      rcases hpc with hpc | hpc <;> cases m <;> simp [receiverAlive, hpc, unwound]
  | @dropReceiver panicking hpc => cases panicking <;> simp [receiverAlive]
  | wake hw hr => simp [receiverAlive]
  | wakePanicked hgone => simp

/-- The receiver is gone when the executor was dropped. -/
theorem receiverAlive_of_run (hr : (system F checked).Run ok h s) :
    s.receiverAlive = true ↔ .dropExecutor ∉ h ∧ .dropReceiver ∉ h := by
  refine hr.induct (P := fun h s => s.receiverAlive = true ↔
    .dropExecutor ∉ h ∧ .dropReceiver ∉ h) (by simp [receiverAlive, system, new]) ?_
  intro h s a t _ ih _ hst
  rw [receiverAlive_of_steps (steps_of_step hst), ih]
  simp only [List.mem_cons, not_or]
  constructor
  · rintro ⟨⟨hdrop, hreceiver⟩, hne, hne'⟩
    exact ⟨⟨hne.symm, hdrop⟩, hne'.symm, hreceiver⟩
  · rintro ⟨⟨hne, hdrop⟩, hne', hreceiver⟩
    exact ⟨⟨hdrop, hreceiver⟩, fun he => hne he.symm, fun he => hne' he.symm⟩

/-- Who has the executor, and how far `drain` has come with it. -/
inductive Stage
  | caller
  | draining
  | taking
  | returning
  | unwinding
  | dropped

def stage : ExecutorPc → Stage
  | .idle | .recv .doSome | .wakeup .doSome _ | .poll .doSome _ | .take .doSome _ => .caller
  | .recv .drain | .wakeup .drain _ | .poll .drain _ => .draining
  | .take .drain _ => .taking
  | .leaving false | .drained => .returning
  | .leaving true => .unwinding
  | .dropped => .dropped

/-- What the history says about it. -/
def Tells (h : List (ExecutorLabel F)) (s : Executor F) : Prop :=
  match stage s.pc with
  | .caller => True
  | .draining => .drain ∈ h ∧ s.numActive ≠ 0
  | .taking => .drain ∈ h
  | .returning => .drain ∈ h ∧ s.numActive = 0
  | .unwinding => .drain ∈ h ∧ DrainPanicked h
  | .dropped => .dropReceiver ∈ h → .drain ∈ h ∧ DrainPanicked h

theorem DrainPanicked.cons (hd : DrainPanicked h) : DrainPanicked (a :: h) := by
  cases a with
  | panicked w => exact .inr hd
  | _ => exact hd

/-- A step that leaves the executor where it is. -/
theorem Tells.frame (hs : Tells h s) (ha : a ≠ .dropReceiver) (hstage : stage t.pc = stage s.pc)
    (hactive : t.numActive = s.numActive) : Tells (a :: h) t := by
  unfold Tells at *
  rw [hstage, hactive]
  cases hst : stage s.pc <;> rw [hst] at hs
  · trivial
  · exact ⟨List.mem_cons_of_mem _ hs.1, hs.2⟩
  · exact List.mem_cons_of_mem _ hs
  · exact ⟨List.mem_cons_of_mem _ hs.1, hs.2⟩
  · exact ⟨List.mem_cons_of_mem _ hs.1, hs.2.cons⟩
  · intro hmem
    obtain ⟨hdrain, hpanicked⟩ := hs ((List.mem_cons.mp hmem).resolve_left ha.symm)
    exact ⟨List.mem_cons_of_mem _ hdrain, hpanicked.cons⟩

/-- The end of a wakeup: `drain` looks at the active count. -/
theorem tells_afterWakeup {m : Method} {n : UInt16} (hs : m = .drain → .drain ∈ h)
    (hn : s.numActive = n) : Tells h { s with pc := afterWakeup m n } := by
  subst hn
  cases m with
  | doSome => trivial
  | drain =>
      by_cases hn : s.numActive = 0
      · simpa [Tells, afterWakeup, stage, hn] using hs rfl
      · simpa [Tells, afterWakeup, stage, hn] using hs rfl

/-- A panic inside a wakeup. -/
theorem tells_unwound {m : Method} {w : Handle} (hs : m = .drain → .drain ∈ h) :
    Tells (.panicked w :: h) { s with pc := unwound m } := by
  cases m with
  | doSome => trivial
  | drain => exact ⟨List.mem_cons_of_mem _ (hs rfl), .inl (hs rfl)⟩

/-- A wakeup of `drain`. -/
theorem Tells.drain (hs : Tells h s) {m : Method} {w : Handle}
    (hpc : s.pc = .wakeup m w ∨ s.pc = .poll m w ∨ s.pc = .take m w) :
    m = .drain → .drain ∈ h := by
  rintro rfl
  unfold Tells at hs
  rcases hpc with hpc | hpc | hpc <;> rw [hpc] at hs
  · exact hs.1
  · exact hs.1
  · exact hs

theorem Tells.steps (hs : Tells h s) (hreceiver : s.receiverAlive = true → .dropReceiver ∉ h)
    (hst : Steps checked s a t) : Tells (a :: h) t := by
  cases hst with
  | spawn f hpc =>
      have hpc' : (s.spawn checked f).pc = .idle := by
        unfold spawn
        split <;> exact hpc
      simp [Tells, stage, hpc']
  | doSome hpc | recvEmpty hpc => trivial
  | drain hpc hn => exact ⟨List.mem_cons_self, hn⟩
  | drainNone hpc hn => exact ⟨List.mem_cons_self, hn⟩
  | dropExecutor hpc =>
      have hnot := hreceiver (by simp [receiverAlive, hpc])
      intro hmem
      exact absurd hmem (by simpa using hnot)
  | @recv m w rest hpc hc => exact hs.frame (by simp) (by rw [hpc]; cases m <;> rfl) rfl
  | @poll m w f hpc hf => exact hs.frame (by simp) (by rw [hpc]; cases m <;> rfl) rfl
  | @skip m w hpc hf =>
      exact tells_afterWakeup (fun hm => List.mem_cons_of_mem _ (hs.drain (.inl hpc) hm)) rfl
  | @pending m w hpc =>
      exact tells_afterWakeup (fun hm => List.mem_cons_of_mem _ (hs.drain (.inr (.inl hpc)) hm)) rfl
  | @taken m w hpc =>
      exact tells_afterWakeup (fun hm => List.mem_cons_of_mem _ (hs.drain (.inr (.inr hpc)) hm)) rfl
  | @ready m w n hpc hn =>
      have hdrain := hs.drain (.inr (.inl hpc))
      cases m with
      | doSome => trivial
      | drain => exact List.mem_cons_of_mem _ (hdrain rfl)
  | @underflow m w hpc hn =>
      cases m with
      | doSome => trivial
      | drain =>
          unfold Tells at hs
          rw [hpc] at hs
          exact absurd hn hs.2
  | @panicked m w hpc =>
      exact tells_unwound (hs.drain (.inr hpc))
  | outOfRange hpc hf => exact tells_unwound (hs.drain (.inl hpc))
  | @dropReceiver panicking hpc =>
      unfold Tells at hs
      rw [hpc] at hs
      cases panicking with
      | false => exact ⟨List.mem_cons_of_mem _ hs.1, hs.2⟩
      | true => exact fun _ => ⟨List.mem_cons_of_mem _ hs.1, hs.2.cons⟩
  | wake hw hr => exact hs.frame (by simp) rfl rfl
  | wakePanicked hgone => exact hs.frame (by simp) rfl rfl

theorem tells_of_run (hr : (system F checked).Run ok h s) : Tells h s := by
  refine hr.induct (P := Tells) (by trivial) ?_
  intro h s a t hr ih _ hst
  exact ih.steps (fun halive => ((receiverAlive_of_run hr).mp halive).2) (steps_of_step hst)

/-- The receiver is gone when the executor has ended. -/
theorem receiverAlive_iff (hr : (system F checked).Run ok h s) :
    s.receiverAlive = true ↔ ¬ Ended h s := by
  have hs := tells_of_run hr
  have halive := receiverAlive_of_run hr
  constructor
  · intro hreceiver
    obtain ⟨hdrop, hnot⟩ := halive.mp hreceiver
    rintro (hmem | ⟨hmem, -⟩)
    · exact hdrop hmem
    · exact hnot hmem
  · intro hend
    refine halive.mpr ⟨fun hmem => hend (.inl hmem), fun hmem => hend (.inr ⟨hmem, ?_⟩)⟩
    -- a receiver that was dropped by `drain` is gone at one of two places
    have hgone : s.pc = .drained ∨ s.pc = .dropped := by
      by_contra hpc
      exact (halive.mp (by simpa [receiverAlive, not_or] using hpc)).2 hmem
    unfold Tells at hs
    rcases hgone with hpc | hpc <;> rw [hpc] at hs
    · exact ⟨hs.1, .inl hs.2⟩
    · exact ⟨(hs hmem).1, .inr (hs hmem).2⟩

/-- A call of a wake on a waker that the executor has handed out does not panic. -/
def WakeReturns (checked : Bool) (s : Executor F) (w : Handle) : Prop :=
  (s.step checked (.wake w)).isSome ∧ s.step checked (.wakePanicked w) = none

theorem wakeReturns_iff (hr : (system F checked).Run ok h s) {w : Handle} (hw : w ∈ s.wakers) :
    WakeReturns checked s w ↔ ¬ Ended h s := by
  rw [← receiverAlive_iff hr]
  cases halive : s.receiverAlive <;> simp [WakeReturns, step, hw, halive]

end Executor

open Lts (Free)
open Kiruna.Test (SparseAwait)

/-- For both executors: a wake returns exactly as long as the run has not ended the executor. -/
theorem wake_returns_iff_not_ended {F : Type*} {checked : Bool} {h : List (ExecutorLabel F)}
    {s : Executor F} {w : Handle} {h' : List Test.AwaitLabel} {s' : SparseAwait}
    (hr : (Executor.system F checked).Run Free h s) (hw : w ∈ s.wakers)
    (hr' : SparseAwait.system.Run Free h' s') :
    (s.WakeReturns checked w ↔ ¬ Executor.Ended h s) ∧
      (s'.wake.2 = .returned ↔ ¬ SparseAwait.Ended h') :=
  ⟨Executor.wakeReturns_iff hr hw, SparseAwait.wake_returned_iff hr'⟩

/-- The only task is ready, and `drain` destroys it. -/
def takeInDrain : List (ExecutorLabel Unit) :=
  [.spawn (), .drain, .recv ⟨0⟩, .poll ⟨0⟩, .ready ⟨0⟩]

/-- The first poll was ready, and `sparse_await` has dropped the future. -/
def readyAtOnce : List Test.AwaitLabel := [.ready, .dropFuture false]

theorem wake_returns_takeInDrain :
    (Executor.WakeReturns true (⟨[], [none], 0, .take .drain ⟨0⟩, [⟨0⟩], [((), ⟨0⟩)]⟩ :
        Executor Unit) ⟨0⟩ ↔
      ¬ Executor.Ended takeInDrain.reverse
        (⟨[], [none], 0, .take .drain ⟨0⟩, [⟨0⟩], [((), ⟨0⟩)]⟩ : Executor Unit)) ∧
    ((⟨0, false, .poll, .receiver false⟩ : SparseAwait).wake.2 = .returned ↔
      ¬ SparseAwait.Ended readyAtOnce.reverse) :=
  wake_returns_iff_not_ended (Lts.path_of_exec takeInDrain (by decide)) (by decide)
    (Lts.path_of_exec readyAtOnce (by decide))

/-- The last task is ready, `drain` returns, and a thread that has kept its waker wakes it. The same
happens once `sparse_await` has returned. -/
theorem exists_wake_panics :
    (¬ ∀ (checked : Bool) (h : List (ExecutorLabel Unit)) (s : Executor Unit) (w : Handle),
      (Executor.system Unit checked).Run Free h s → w ∈ s.wakers → s.WakeReturns checked w) ∧
    ¬ ∀ h s, SparseAwait.system.Run Free h s → s.wake.2 = .returned := by
  constructor
  · intro hall
    have hdrained : (Executor.system Unit true).exec Free Executor.new
        [.spawn (), .drain, .recv ⟨0⟩, .poll ⟨0⟩, .ready ⟨0⟩, .taken ⟨0⟩, .dropReceiver] =
          some ⟨[], [none], 0, .drained, [⟨0⟩], [((), ⟨0⟩)]⟩ := by
      decide
    have hreturns := hall true _ _ ⟨0⟩ (Lts.path_of_exec _ hdrained) (by decide)
    exact absurd hreturns.1 (by decide)
  · intro hall
    have hreturned : SparseAwait.system.exec Free .new
        [.ready, .dropFuture false, .dropReceiver] =
          some ⟨0, false, .poll, .gone false⟩ := by
      decide
    exact absurd (hall _ _ (Lts.path_of_exec _ hreturned)) (by decide)

end Kiruna.Sync

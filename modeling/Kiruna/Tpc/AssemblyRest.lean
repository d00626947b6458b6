import Kiruna.Tpc.AssemblyProgress

/-!
# The executor at rest

When no step of the executor's own code is possible, every call has sent what it brings, and no
worker is between two steps of that code: it waits in `recv_all`, has exited, has panicked, or is
inside a poll or a job whose code has not returned. A waiting worker means empty queues. So a future
or a job is left in a queue only while every worker that has not exited is busy or has panicked.
-/

namespace Kiruna.Tpc
namespace Assembly

variable {Fut Job Local State Action : Type*} {bounded : ℕ} {cpus : UInt16}
  {C : Client Fut Job Local State Action Empty} {s : Assembly Fut Job Local State bounded}

/-- The steps of the executor's own code. New calls, the clock, the threads that hold wakers and the
code inside a poll or a job are its environment. -/
def Own : AssemblyLabel Fut Job Action → Prop
  | .threads a =>
      match a with
      | .enter _ | .timer => False
      | .bin (.clone _) | .bin (.wake _) | .bin (.wakeByRef _) | .bin (.drop _) => False
      | .bin (.work _ (.act _)) | .bin (.work _ .wake) | .bin (.work _ .clone) => False
      | _ => True
  | _ => True

def Still (C : Client Fut Job Local State Action Empty)
    (s : Assembly Fut Job Local State bounded) : Prop :=
  ∀ a : AssemblyLabel Fut Job Action, Own a → s.step C a = none

/-- The worker is inside a poll or a job whose code has not returned. -/
def Busy (C : Client Fut Job Local State Action Empty) (pc : WorkerPc Local) : Prop :=
  (∃ f p, pc = .polling f p ∧ C.result p = none) ∨
    ∃ p, pc = .job p ∧ C.result p ≠ some .ready ∧ C.result p ≠ some .panicked

structure Resting (C : Client Fut Job Local State Action Empty)
    (s : Assembly Fut Job Local State bounded) : Prop where
  waiting : Waiting s
  calls : ∀ pc ∈ s.threads.calls, pc = .send [] ∨ pc = .panicked
  timers : ∀ left ∈ s.threads.timers, left = 0
  workers : ∀ pc ∈ s.threads.bin.workers,
    pc = .recv ∨ pc = .gone ∨ (∃ p, pc = .panicked p) ∨ Busy C pc
  queues : .recv ∈ s.threads.bin.workers → ∀ q ∈ s.channel.contents, q.items = []
  tasks : ∀ q ∈ s.channel.contents, ∀ m ∈ q.items, m ≠ .idle →
    ∃ pc ∈ s.threads.bin.workers, (∃ p, pc = .panicked p) ∨ Busy C pc

theorem exists_threadsStep (a : ThreadsLabel Fut Job Action)
    (t : Threads Fut Job Local State bounded) : ∃ u, s.threadsStep C a t = some u := by
  simp only [threadsStep]
  cases s.atomic.sending C a with
  | none => exact ⟨_, rfl⟩
  | some m =>
      obtain ⟨c, pc, hpush, -⟩ := exists_push s m.1 m.2
      simp only [hpush, Option.map_some]
      exact ⟨_, rfl⟩

/-- A party that is in no call of the channel cannot move only if its code cannot. -/
theorem Still.threads_eq_none (hs : Still C s) {a : ThreadsLabel Fut Job Action}
    (ha : Own (.threads a)) (hrecv : a.receives = false)
    (hparty : a.party.all s.available = true) : s.atomic.step C a = none := by
  have hnone := hs (.threads a) ha
  simp only [step, if_pos (And.intro hrecv hparty)] at hnone
  cases hst : s.atomic.step C a with
  | none => rfl
  | some t =>
      obtain ⟨u, hu⟩ := exists_threadsStep (s := s) (C := C) a t
      rw [hst, Option.bind_some, hu] at hnone
      cases hnone

theorem Still.waiting {h : List (AssemblyLabel Fut Job Action)}
    {ok : Assembly Fut Job Local State bounded → AssemblyLabel Fut Job Action → Prop}
    (hs : Still C s) (hr : (system C cpus bounded).Run ok h s) : Waiting s := by
  apply waiting_of_settled hr
  intro a ha
  apply hs a
  cases a with
  | threads a => exact ha.elim
  | _ => trivial

/-- A worker outside the receive of the bin is available. -/
theorem Waiting.available (hwait : Waiting s) (hs : Linked C s) {w : ℕ} {pc : WorkerPc Local}
    (hw : s.threads.bin.workers[w]? = some pc) (hpc : pc ≠ .recv) :
    s.available (.worker w) = true := by
  apply available_of_over hwait.senders
  rintro w' ⟨⟩
  rw [Option.eq_none_iff_forall_ne_some]
  intro j hj
  obtain ⟨pc', hj', hplace, -⟩ := hs.receiving w j hj
  obtain ⟨rfl, -⟩ := hwait.receivers w j pc' hj hj'
  exact hpc (Option.some.inj (hw.symm.trans hplace))

/-- The own step of a worker that is not in the receive loop. -/
theorem Still.work_eq_none (hs : Still C s) (hwait : Waiting s) (hl : Linked C s) {w : ℕ}
    {pc : WorkerPc Local} (hw : s.threads.bin.workers[w]? = some pc) (hpc : pc ≠ .recv)
    {e : WorkerEvent Action} (he : Own (.threads (.bin (.work w e)) : AssemblyLabel Fut Job Action))
    (hrecv : ∀ l, e ≠ .recv l) (hidle : ∀ b, e ≠ .idle b) :
    s.atomic.bin.workStep C w pc e = none := by
  have havailable := hwait.available hl hw hpc
  have hnone := hs.threads_eq_none he (by cases e <;> first | rfl | exact absurd rfl (hrecv _))
    (by simpa only [ThreadsLabel.party, Option.all_some] using havailable)
  have hstep : (s.atomic.bin.step C (.work w e)).map s.atomic.setBin = none := by
    cases e with
    | idle b => exact absurd rfl (hidle b)
    | _ => exact hnone
  rw [Option.map_eq_none_iff] at hstep
  have hworkers : s.atomic.bin.workers[w]? = some pc := hw
  simpa only [Bin.step, hworkers, Option.bind_some] using hstep

theorem counted_of_run {h : List (AssemblyLabel Fut Job Action)}
    {ok : Assembly Fut Job Local State bounded → AssemblyLabel Fut Job Action → Prop}
    (hr : (system C cpus bounded).Run ok h s) : s.atomic.bin.Counted := by
  obtain ⟨h', hthreads, -⟩ := threads_of_run hr
  obtain ⟨h'', hbin⟩ := Threads.bin_of_run hthreads
  exact Bin.counted_of_run hbin

/-- The future that a worker holds is there. -/
theorem exists_future (hs : s.atomic.bin.Counted) {w f : ℕ} {pc : WorkerPc Local}
    (hw : s.threads.bin.workers[w]? = some pc) (hpc : pc.owns f = 1) :
    ∃ u, s.atomic.bin.futures[f]? = some u := by
  have hle : pc.owns f ≤ s.atomic.bin.held f := Bin.owns_le_held hw
  have hcount := hs f
  cases hf : s.atomic.bin.futures[f]? with
  | none =>
      simp only [Bin.strongAt, hf, Option.elim_none] at hcount
      omega
  | some u => exact ⟨u, rfl⟩

/-- Where a worker can be when none of its own steps is possible. -/
theorem Still.worker {h : List (AssemblyLabel Fut Job Action)}
    {ok : Assembly Fut Job Local State bounded → AssemblyLabel Fut Job Action → Prop}
    (hs : Still C s) (hr : (system C cpus bounded).Run ok h s) {w : ℕ} {pc : WorkerPc Local}
    (hw : s.threads.bin.workers[w]? = some pc) :
    pc = .recv ∨ pc = .gone ∨ (∃ p, pc = .panicked p) ∨ Busy C pc := by
  have hwait := hs.waiting hr
  have hl := linked_of_run hr
  have hcounted := counted_of_run hr
  have hnone := fun hpc (e : WorkerEvent Action)
    (he : Own (.threads (.bin (.work w e)) : AssemblyLabel Fut Job Action)) =>
      hs.work_eq_none hwait hl hw hpc he
  cases pc with
  | recv => exact .inl rfl
  | gone => exact .inr (.inl rfl)
  | panicked p => exact .inr (.inr (.inl ⟨p, rfl⟩))
  | tryLock f =>
      obtain ⟨u, hu⟩ := exists_future (f := f) hcounted hw (if_pos rfl)
      by_cases hlocked : u.locked = true
      · have h := hnone (by simp) .contend trivial (by simp) (by simp)
        simp [Bin.workStep, hu, hlocked] at h
      · have h := hnone (by simp) (.poll f) trivial (by simp) (by simp)
        simp [Bin.workStep, hu, hlocked] at h
  | contended f =>
      obtain ⟨u, hu⟩ := exists_future (f := f) hcounted hw (if_pos rfl)
      have h := hnone (by simp) .retry trivial (by simp) (by simp)
      simp only [Bin.workStep, hu] at h
      split at h <;> cases h
  | polling f p =>
      obtain ⟨u, hu⟩ := exists_future (f := f) hcounted hw (if_pos rfl)
      cases hresult : C.result p with
      | none => exact .inr (.inr (.inr (.inl ⟨f, p, rfl, hresult⟩)))
      | some r =>
          cases r with
          | ready =>
              have h := hnone (by simp) (.ready f) trivial (by simp) (by simp)
              simp [Bin.workStep, hu, hresult] at h
          | pending =>
              have h := hnone (by simp) .pending trivial (by simp) (by simp)
              simp [Bin.workStep, hresult] at h
          | panicked =>
              have h := hnone (by simp) .panicked trivial (by simp) (by simp)
              simp [Bin.workStep, hresult] at h
  | unlock f =>
      obtain ⟨u, hu⟩ := exists_future (f := f) hcounted hw (if_pos rfl)
      have h := hnone (by simp) .unlock trivial (by simp) (by simp)
      simp [Bin.workStep, hu] at h
  | dropWaker f =>
      obtain ⟨u, hu⟩ := exists_future (f := f) hcounted hw (if_pos rfl)
      have h := hnone (by simp) .dropWaker trivial (by simp) (by simp)
      simp [Bin.workStep, hu] at h
  | unwind f p =>
      obtain ⟨u, hu⟩ := exists_future (f := f) hcounted hw (if_pos rfl)
      have h := hnone (by simp) .dropWaker trivial (by simp) (by simp)
      simp [Bin.workStep, hu] at h
  | job p =>
      by_cases hready : C.result p = some .ready
      · have h := hnone (by simp) .returned trivial (by simp) (by simp)
        simp [Bin.workStep, hready] at h
      · by_cases hpanicked : C.result p = some .panicked
        · have h := hnone (by simp) .panicked trivial (by simp) (by simp)
          simp [Bin.workStep, hpanicked] at h
        · exact .inr (.inr (.inr (.inr ⟨p, rfl, hready, hpanicked⟩)))
  | idle =>
      have havailable := hwait.available hl hw (by simp)
      have h := hs.threads_eq_none (a := .idle w false) trivial rfl
        (by simpa only [ThreadsLabel.party, Option.all_some] using havailable)
      have hworkers : s.atomic.bin.workers[w]? = some .idle := hw
      simp [Threads.step, Bin.step, hworkers, Bin.workStep] at h

/-- A call that cannot go on has sent everything or has panicked. -/
theorem Still.call {h : List (AssemblyLabel Fut Job Action)}
    {ok : Assembly Fut Job Local State bounded → AssemblyLabel Fut Job Action → Prop}
    (hs : Still C s) (hr : (system C cpus bounded).Run ok h s) {c : ℕ} {pc : CallPc Fut Job}
    (hc : s.threads.calls[c]? = some pc) : pc = .send [] ∨ pc = .overflowed ∨ pc = .panicked := by
  have havailable : s.available (.call c) = true :=
    available_of_over (hs.waiting hr).senders _ (by simp)
  have hnone := hs.threads_eq_none (a := .call c) trivial rfl
    (by simpa only [ThreadsLabel.party, Option.all_some] using havailable)
  have hcalls : s.atomic.calls[c]? = some pc := hc
  simp only [Threads.step, hcalls, Option.bind_some] at hnone
  cases pc with
  | enforce call =>
      simp only [Threads.callStep] at hnone
      split at hnone
      · split_ifs at hnone
      · cases hnone
  | launch call left => cases left <;> cases hnone
  | send left =>
      cases left with
      | nil => exact .inl rfl
      | cons m left =>
          simp only [Threads.callStep] at hnone
          split at hnone <;> cases hnone
  | overflowed => exact .inr (.inl rfl)
  | panicked => exact .inr (.inr rfl)

theorem Still.timer {h : List (AssemblyLabel Fut Job Action)}
    {ok : Assembly Fut Job Local State bounded → AssemblyLabel Fut Job Action → Prop}
    (hs : Still C s) (hr : (system C cpus bounded).Run ok h s) {i left : ℕ}
    (hi : s.threads.timers[i]? = some left) : left = 0 := by
  have havailable : s.available (.timer i) = true :=
    available_of_over (hs.waiting hr).senders _ (by simp)
  have hnone := hs.threads_eq_none (a := .sendIdle i) trivial rfl
    (by simpa only [ThreadsLabel.party, Option.all_some] using havailable)
  have htimers : s.atomic.timers[i]? = some left := hi
  cases left with
  | zero => rfl
  | succ left =>
      simp only [Threads.step, htimers] at hnone
      split at hnone <;> cases hnone

/-- Nothing that was sent is stranded. -/
theorem resting_of_still (hcpus : 1 ≤ cpus) (hr : (system C cpus bounded).Reachable s)
    (hs : Still C s) : Resting C s := by
  obtain ⟨h, hr⟩ := hr
  have hwait := hs.waiting hr
  obtain ⟨h', hthreads, -⟩ := threads_of_run hr
  have hbalanced := Threads.balanced_of_run (UInt16.le_iff_toNat_le.mp hcpus) hthreads
  have hworkers : ∀ pc ∈ s.threads.bin.workers,
      pc = .recv ∨ pc = .gone ∨ (∃ p, pc = .panicked p) ∨ Busy C pc := by
    intro pc hpc
    obtain ⟨w, hw⟩ := List.mem_iff_getElem?.mp hpc
    exact hs.worker hr hw
  have hcalls : ∀ pc ∈ s.threads.calls, pc = .send [] ∨ pc = .panicked := by
    intro pc hpc
    obtain ⟨c, hc⟩ := List.mem_iff_getElem?.mp hpc
    rcases hs.call hr hc with rfl | rfl | rfl
    · exact .inl rfl
    · exact absurd rfl (hbalanced.not_overflowed _ hpc)
    · exact .inr rfl
  have hqueues : .recv ∈ s.threads.bin.workers → ∀ q ∈ s.channel.contents, q.items = [] := by
    intro hrecv
    obtain ⟨w, hw⟩ := List.mem_iff_getElem?.mp hrecv
    exact hwait.contents hr hw
  refine ⟨hwait, hcalls, ?_, hworkers, hqueues, ?_⟩
  · intro left hleft
    obtain ⟨i, hi⟩ := List.mem_iff_getElem?.mp hleft
    exact hs.timer hr hi
  · intro q hq m hm hidle
    have hmass : 0 < mass ThreadMessage.isTask s.atomic.bin.channel := by
      have hq' := le_weight_of_mem (w := fun q : Fifo (ThreadMessage Job) bounded =>
        weight ThreadMessage.isTask q.items) hq
      have hm' := le_weight_of_mem (w := ThreadMessage.isTask) hm
      have hone : m.isTask = 1 := by
        cases m with
        | idle => exact absurd rfl hidle
        | _ => rfl
      change 0 < weight _ s.channel.contents
      omega
    have hpromised : s.atomic.promised = 0 := by
      apply weight_eq_zero.mpr
      intro pc hpc
      rcases hcalls pc hpc with rfl | rfl <;> rfl
    have hlive : 0 < s.atomic.bin.live := by
      by_contra hzero
      have hbalance := hbalanced.balance
      have htasks := (hbalanced.untouched (by omega)).tasks
      omega
    obtain ⟨w, pc, hw, hpc⟩ := exists_of_weight_pos hlive
    have hmem : pc ∈ s.threads.bin.workers := List.mem_of_getElem? hw
    refine ⟨pc, hmem, ?_⟩
    rcases hworkers pc hmem with rfl | rfl | hbusy
    · rw [hqueues hmem q hq] at hm
      cases hm
    · exact absurd hpc (Nat.lt_irrefl 0)
    · exact hbusy

theorem still_afterOneJob : Still Threads.returnsAtOnce afterOneJob := by
  intro a ha
  cases a with
  | threads a =>
      cases a with
      | enter call => exact ha.elim
      | call c => cases c <;> rfl
      | timer => exact ha.elim
      | sendIdle i => rfl
      | idle w elapsed => cases w <;> cases elapsed <;> rfl
      | bin a =>
          cases a with
          | work w e => cases w <;> cases e <;> rfl
          | startWorker => rfl
          | sendIdle => rfl
          | owner o => exact o.elim
          | clone f => exact ha.elim
          | wake f => exact ha.elim
          | wakeByRef f => exact ha.elim
          | drop f => exact ha.elim
  | signal i => cases i <;> rfl
  | recvImmediate w =>
      cases w with
      | zero => rfl
      | succ w => rfl
  | recvAll w =>
      cases w with
      | zero => rfl
      | succ w => rfl
  | recvStep w =>
      cases w with
      | zero => rfl
      | succ w => rfl

theorem resting_afterOneJob : Resting Threads.returnsAtOnce afterOneJob :=
  resting_of_still (by decide)
    (⟨_, run_afterOneJob⟩ : (system Threads.returnsAtOnce 1 1).Reachable afterOneJob)
    still_afterOneJob

end Assembly
end Kiruna.Tpc

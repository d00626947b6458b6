import Kiruna.Tpc.GlobalState

/-!
# The accounting of the threads

The counter is the number of the workers that have not exited and of the threads that are promised.
A call promises as many threads as it adds to the counter, each launch turns a promise into a
worker, and a worker that exits has taken itself off the counter, which it does not do alone. So
the first call of a run that has something to send leaves a worker for it, from then on.
-/

namespace Kiruna.Tpc

/-- A worker is live until its own update of the counter has succeeded. -/
def WorkerPc.live {Local : Type*} : WorkerPc Local → ℕ
  | .gone => 0
  | _ => 1

/-- The weight of the messages that ask for a worker. -/
def ThreadMessage.isTask {Job : Type*} : ThreadMessage Job → ℕ
  | .idle => 0
  | _ => 1

namespace CallPc

variable {Fut Job : Type*}

/-- The threads that the call has promised and not launched. -/
def promised : CallPc Fut Job → ℕ
  | .launch _ left => left
  | _ => 0

/-- The messages of a call that has updated the counter. -/
def unsent : CallPc Fut Job → ℕ
  | .launch call _ => call.messages.length
  | .send left => left.length
  | _ => 0

end CallPc

/-- The steps of the bin that neither launch nor end a worker. -/
def BinLabel.own {Action : Type*} : BinLabel Action Empty → Prop
  | .startWorker | .sendIdle | .owner _ | .work _ (.idle _) => False
  | _ => True

namespace Bin

variable {Fut Job Local State Action : Type*} {bounded : ℕ}
  {C : Client Fut Job Local State Action Empty} {s t : Bin Fut Job Local State bounded}

def live (s : Bin Fut Job Local State bounded) : ℕ := weight WorkerPc.live s.workers

theorem live_move {w : ℕ} {pc pc' : WorkerPc Local} (hw : s.workers[w]? = some pc)
    (hworkers : t.workers = s.workers.set w pc') (heq : pc'.live = pc.live) :
    t.live = s.live := by
  have hset := weight_set (w := WorkerPc.live) pc' hw
  simp only [live, hworkers]
  omega

theorem live_handle (m : ThreadMessage Job) : (handle C m).live = 1 := by
  cases m <;> rfl

theorem Effect.live {a : BinLabel Action Empty} (he : Effect C s a t) (ha : a.own) :
    t.live = s.live := by
  cases he with
  | recv hw hc => exact live_move hw rfl (live_handle _)
  | poll hw | contend hw | retry hw | retryFailed hw | actPoll hw | actJob hw
  | wakeInPollFailed hw | ready hw | pending hw | panickedInPoll hw | panickedInJob hw
  | unlock hw | dropWaker hw | unwind hw | returned hw => exact live_move hw rfl rfl
  | startWorker | idle | sendIdle | sendIdleFailed | owner | spawnFuture | spawnJob
  | spawnFailed => exact ha.elim
  | _ => rfl

/-- Without workers and futures the bin makes no step of its own. -/
theorem Effect.not_own_of_empty {a : BinLabel Action Empty} (he : Effect C s a t)
    (hworkers : s.workers = []) (hfutures : s.futures = []) : ¬ a.own := by
  intro ha
  cases he with
  | startWorker | idle | sendIdle | sendIdleFailed | owner | spawnFuture | spawnJob
  | spawnFailed => exact ha
  | clone hf | wake hf | wakeFailed hf | wakeByRef hf | wakeByRefFailed hf | drop hf =>
      simp [hfutures] at hf
  | recv hw | poll hw | contend hw | retry hw | retryFailed hw | actPoll hw | actJob hw
  | wakeInPoll hw | wakeInPollFailed hw | cloneInPoll hw | ready hw | pending hw
  | panickedInPoll hw | panickedInJob hw | unlock hw | dropWaker hw | unwind hw | returned hw =>
      simp [hworkers] at hw

end Bin

namespace Threads

open Lts (Free)

variable {Fut Job Local State Action : Type*} {bounded : ℕ} {cpus : UInt16}
  {C : Client Fut Job Local State Action Empty} {s t : Threads Fut Job Local State bounded}
  {a : ThreadsLabel Fut Job Action}

def userWaiting (s : Threads Fut Job Local State bounded) : UInt16 :=
  s.global.readThreadCounts.userWaiting

def setUserWaiting (s : Threads Fut Job Local State bounded) (n : UInt16) :
    Threads Fut Job Local State bounded :=
  { s with global := { s.global with threadCounts := (ThreadCounts.mk n).toUInt64 } }

@[simp] theorem userWaiting_setUserWaiting (n : UInt16) : (s.setUserWaiting n).userWaiting = n :=
  congrArg ThreadCounts.userWaiting (ThreadCounts.ofUInt64_toUInt64 ⟨n⟩)

def promised (s : Threads Fut Job Local State bounded) : ℕ := weight CallPc.promised s.calls

variable (C)

/-- What one step can do. -/
inductive Moves (s : Threads Fut Job Local State bounded) :
    Threads Fut Job Local State bounded → Prop
  | enter (call : Call Fut Job) : Moves s { s with calls := s.calls ++ [.enforce call] }
  | promise {c : ℕ} {call : Call Fut Job} {n : UInt16} (hc : s.calls[c]? = some (.enforce call))
      (hn : n = s.global.proposedThreads call.comingSoon) (hlt : s.userWaiting < n) :
      Moves s ((s.setUserWaiting n).setCall c (.launch call (n - s.userWaiting).toNat))
  | enough {c : ℕ} {call : Call Fut Job} (hc : s.calls[c]? = some (.enforce call))
      (hle : s.global.proposedThreads call.comingSoon ≤ s.userWaiting) :
      Moves s (s.setCall c (.launch call 0))
  | launch {c left : ℕ} {call : Call Fut Job}
      (hc : s.calls[c]? = some (.launch call (left + 1))) :
      Moves s ((s.setBin { s.bin with workers := s.bin.workers ++ [.recv] }).setCall c
        (.launch call left))
  | enforced {c : ℕ} {call : Call Fut Job} {pc : CallPc Fut Job}
      (hc : s.calls[c]? = some (.launch call 0)) (hpc : pc = .panicked ∨ pc = .send call.messages) :
      Moves s (s.setCall c pc)
  | send {c : ℕ} {m : Fut ⊕ Job} {left : List (Fut ⊕ Job)} {b : Bin Fut Job Local State bounded}
      (hc : s.calls[c]? = some (.send (m :: left))) (hb : b.workers = s.bin.workers) :
      Moves s ((s.setBin b).setCall c (.send left))
  | sendFailed {c : ℕ} {m : Fut ⊕ Job} {left : List (Fut ⊕ Job)}
      (hc : s.calls[c]? = some (.send (m :: left))) : Moves s (s.setCall c .panicked)
  | timer (timers : List ℕ) : Moves s { s with timers := timers }
  | sendIdle {c : List (Fifo (ThreadMessage Job) bounded)} (timers : List ℕ)
      (hc : Sent s.bin.channel 1 .idle c) :
      Moves s { s.setBin (s.bin.setChannel c) with timers := timers }
  | stay {w : ℕ} (hw : s.bin.workers[w]? = some .idle) :
      Moves s (s.setBin (s.bin.setWorker w .recv))
  | exit {w : ℕ} (hw : s.bin.workers[w]? = some .idle) (hlt : 1 < s.userWaiting) :
      Moves s ((s.setUserWaiting (s.userWaiting - 1)).setBin (s.bin.setWorker w .gone))
  | bin {a : BinLabel Action Empty} {b : Bin Fut Job Local State bounded}
      (he : Bin.Effect C s.bin a b) (ha : a.own) : Moves s (s.setBin b)

variable {C}

theorem workers_spawn {b : Bin Fut Job Local State bounded} (m : Fut ⊕ Job) :
    (b.spawn C m).workers = b.workers := by
  cases m <;> simp only [Bin.spawn] <;> split <;> rfl

theorem moves_of_callStep {c : ℕ} {pc : CallPc Fut Job} (hc : s.calls[c]? = some pc)
    (h : s.callStep C c pc = some t) : Moves C s t := by
  cases pc with
  | enforce call =>
      by_cases hlt : s.userWaiting < s.global.proposedThreads call.comingSoon
      · have hle : (ThreadCounts.ofUInt64 s.global.threadCounts).userWaiting ≤
            s.global.proposedThreads call.comingSoon := UInt16.le_of_lt hlt
        simp only [callStep, GlobalState.enforce_of_lt hlt, if_pos hle] at h
        cases h
        exact .promise hc rfl hlt
      · have hle := UInt16.not_lt.mp hlt
        simp only [callStep, GlobalState.enforce_of_le hle] at h
        cases h
        exact .enough hc hle
  | launch call left =>
      cases left with
      | zero =>
          cases h
          apply Moves.enforced hc
          split <;> simp
      | succ left =>
          cases h
          exact .launch hc
  | send left =>
      cases left with
      | nil => cases h
      | cons m left =>
          simp only [callStep] at h
          split at h <;> cases h
          · exact .sendFailed hc
          · exact .send hc (workers_spawn m)
  | overflowed => cases h
  | panicked => cases h

theorem idle_of_step {b b' : Bin Fut Job Local State bounded} {w : ℕ} {exits : Bool}
    (h : b.step C (.work w (.idle exits)) = some b') :
    b.workers[w]? = some .idle ∧ b' = b.setWorker w (if exits then .gone else .recv) := by
  have he : Bin.Effect C b (.work w (.idle exits)) b' := Bin.effect_of_step h
  cases he with
  | idle hw => exact ⟨hw, rfl⟩

/-- The update of a worker that has been idle for long changes a counter that has the form of a
`ThreadCounts` only by taking the worker off. -/
theorem leaves_of_step {w : ℕ}
    (henc : s.global.readThreadCounts.toUInt64 = s.global.threadCounts)
    (h : s.step C (.idle w true) = some t) :
    s.bin.workers[w]? = some .idle ∧
      (s.userWaiting ≤ 1 ∧ t = s.setBin (s.bin.setWorker w .recv) ∨
        1 < s.userWaiting ∧
          t = (s.setUserWaiting (s.userWaiting - 1)).setBin (s.bin.setWorker w .gone)) := by
  obtain ⟨b, hb, rfl⟩ := Option.map_eq_some_iff.mp h
  obtain ⟨hw, rfl⟩ := idle_of_step hb
  refine ⟨hw, ?_⟩
  by_cases hlt : 1 < s.userWaiting
  · rw [GlobalState.updateThreadCounts_leave_of_lt hlt]
    exact .inr ⟨hlt, rfl⟩
  · have hle := UInt16.not_lt.mp hlt
    rw [GlobalState.updateThreadCounts_leave_of_le hle henc]
    exact .inl ⟨hle, rfl⟩

theorem moves_of_idle {w : ℕ} {elapsed : Bool}
    (henc : s.global.readThreadCounts.toUInt64 = s.global.threadCounts)
    (h : s.step C (.idle w elapsed) = some t) : Moves C s t := by
  cases elapsed with
  | false =>
      obtain ⟨b, hb, rfl⟩ := Option.map_eq_some_iff.mp h
      obtain ⟨hw, rfl⟩ := idle_of_step hb
      exact .stay hw
  | true =>
      obtain ⟨hw, ⟨-, rfl⟩ | ⟨hlt, rfl⟩⟩ := leaves_of_step henc h
      · exact .stay hw
      · exact .exit hw hlt

theorem moves_of_bin {a : BinLabel Action Empty} (h : s.step C (.bin a) = some t) :
    Moves C s t := by
  have hown : a.own ∧ (s.bin.step C a).map s.setBin = some t := by
    cases a with
    | work w e => cases e <;> first | exact ⟨trivial, h⟩ | cases h
    | _ => first | exact ⟨trivial, h⟩ | cases h
  obtain ⟨ha, h⟩ := hown
  obtain ⟨b, hb, rfl⟩ := Option.map_eq_some_iff.mp h
  exact .bin (Bin.effect_of_step hb) ha

theorem moves_of_step (henc : s.global.readThreadCounts.toUInt64 = s.global.threadCounts)
    (h : (system C cpus bounded).step s a = some t) : Moves C s t := by
  change s.step C a = some t at h
  cases a with
  | enter call =>
      cases h
      exact .enter call
  | call c =>
      obtain ⟨pc, hc, hst⟩ := Option.bind_eq_some_iff.mp h
      exact moves_of_callStep hc hst
  | timer =>
      cases h
      exact .timer _
  | sendIdle i =>
      simp only [step] at h
      split at h
      · split at h <;> cases h
        · exact .timer _
        · exact .sendIdle _ (Bin.sent_of_send ‹_›)
      · cases h
  | idle w elapsed => exact moves_of_idle henc h
  | bin a => exact moves_of_bin h

theorem Moves.encoded (hm : Moves C s t)
    (henc : s.global.readThreadCounts.toUInt64 = s.global.threadCounts) :
    t.global.readThreadCounts.toUInt64 = t.global.threadCounts := by
  cases hm with
  | promise | exit => exact congrArg _ (ThreadCounts.ofUInt64_toUInt64 _)
  | _ => exact henc

theorem Moves.physicalCpus (hm : Moves C s t) :
    t.global.physicalCpus = s.global.physicalCpus := by
  cases hm <;> rfl

/-- A call moves and the counter and the workers stay. -/
theorem promised_setCall {c : ℕ} {pc : CallPc Fut Job} (pc' : CallPc Fut Job)
    (hc : s.calls[c]? = some pc) :
    (s.setCall c pc').promised + pc.promised = s.promised + pc'.promised :=
  weight_set pc' hc

/-- What a step adds to the counter it adds to the workers and the promises. -/
theorem Moves.balance (hm : Moves C s t) :
    t.userWaiting.toNat + (s.bin.live + s.promised) =
      s.userWaiting.toNat + (t.bin.live + t.promised) := by
  cases hm with
  | enter call =>
      have hadd := weight_append CallPc.promised s.calls [.enforce call]
      change s.userWaiting.toNat + _ = s.userWaiting.toNat + (s.bin.live + weight _ _)
      simp only [hadd, weight_cons, weight_nil, CallPc.promised, promised]
      omega
  | @promise c call n hc hn hlt =>
      have hset := promised_setCall (.launch call (n - s.userWaiting).toNat) hc
      have hsub := UInt16.toNat_sub_of_le n s.userWaiting (UInt16.le_of_lt hlt)
      have hle := UInt16.lt_iff_toNat_lt.mp hlt
      simp only [CallPc.promised] at hset
      change (s.setUserWaiting n).userWaiting.toNat + _ = s.userWaiting.toNat + (s.bin.live +
        (s.setCall c (.launch call (n - s.userWaiting).toNat)).promised)
      rw [userWaiting_setUserWaiting]
      omega
  | @enough c call hc hle =>
      have hset := promised_setCall (.launch call 0) hc
      simp only [CallPc.promised] at hset
      change s.userWaiting.toNat + _ = s.userWaiting.toNat + (s.bin.live +
        (s.setCall c (.launch call 0)).promised)
      omega
  | @launch c left call hc =>
      have hset := promised_setCall (.launch call left) hc
      have hadd := weight_append WorkerPc.live s.bin.workers [.recv]
      simp only [CallPc.promised] at hset
      simp only [weight_cons, weight_nil, WorkerPc.live] at hadd
      change s.userWaiting.toNat + (weight _ _ + _) = s.userWaiting.toNat +
        (weight WorkerPc.live (s.bin.workers ++ [.recv]) +
          (s.setCall c (.launch call left)).promised)
      omega
  | @enforced c call pc hc hpc =>
      have hset := promised_setCall pc hc
      have hzero : pc.promised = 0 := by rcases hpc with rfl | rfl <;> rfl
      rw [hzero] at hset
      simp only [CallPc.promised] at hset
      change s.userWaiting.toNat + _ =
        s.userWaiting.toNat + (s.bin.live + (s.setCall c pc).promised)
      omega
  | @send c m left b hc hb =>
      have hset := promised_setCall (.send left) hc
      have hlive : b.live = s.bin.live := congrArg (weight _) hb
      simp only [CallPc.promised] at hset
      change s.userWaiting.toNat + _ = s.userWaiting.toNat +
        (b.live + (s.setCall c (.send left)).promised)
      omega
  | @sendFailed c m left hc =>
      have hset := promised_setCall .panicked hc
      simp only [CallPc.promised] at hset
      change s.userWaiting.toNat + _ = s.userWaiting.toNat +
        (s.bin.live + (s.setCall c .panicked).promised)
      omega
  | timer | sendIdle => rfl
  | @stay w hw =>
      have hlive : (s.bin.setWorker w .recv).live = s.bin.live := Bin.live_move hw rfl rfl
      change s.userWaiting.toNat + _ = s.userWaiting.toNat +
        ((s.bin.setWorker w .recv).live + s.promised)
      omega
  | @exit w hw hlt =>
      have hset := weight_set (w := WorkerPc.live) .gone hw
      have hsub := UInt16.toNat_sub_of_le s.userWaiting 1 (UInt16.le_of_lt hlt)
      have hle := UInt16.lt_iff_toNat_lt.mp hlt
      simp only [WorkerPc.live] at hset
      change (s.setUserWaiting (s.userWaiting - 1)).userWaiting.toNat + (weight _ _ + _) =
        s.userWaiting.toNat + (weight WorkerPc.live (s.bin.workers.set w .gone) + s.promised)
      rw [userWaiting_setUserWaiting]
      change 1 < _ at hle
      change _ = _ - 1 at hsub
      omega
  | @bin a b he ha =>
      have hlive := he.live ha
      change s.userWaiting.toNat + _ = s.userWaiting.toNat + (b.live + s.promised)
      omega

theorem Moves.le_physicalCpus (hm : Moves C s t)
    (hle : s.userWaiting.toNat ≤ s.global.physicalCpus.toNat) :
    t.userWaiting.toNat ≤ t.global.physicalCpus.toNat := by
  rw [hm.physicalCpus]
  cases hm with
  | @promise c call n hc hn hlt =>
      change (s.setUserWaiting n).userWaiting.toNat ≤ _
      rw [userWaiting_setUserWaiting, hn, GlobalState.toNat_proposedThreads]
      exact Nat.min_le_right _ _
  | @exit w hw hlt =>
      have hsub := UInt16.toNat_sub_of_le s.userWaiting 1 (UInt16.le_of_lt hlt)
      change (s.setUserWaiting (s.userWaiting - 1)).userWaiting.toNat ≤ _
      rw [userWaiting_setUserWaiting, hsub]
      exact (Nat.sub_le _ _).trans hle
  | _ => exact hle

/-- The last thread stays. -/
theorem Moves.userWaiting_pos (hm : Moves C s t) (hpos : 1 ≤ s.userWaiting.toNat) :
    1 ≤ t.userWaiting.toNat := by
  cases hm with
  | @promise c call n hc hn hlt =>
      have hle := UInt16.lt_iff_toNat_lt.mp hlt
      change 1 ≤ (s.setUserWaiting n).userWaiting.toNat
      rw [userWaiting_setUserWaiting]
      omega
  | @exit w hw hlt =>
      have hsub := UInt16.toNat_sub_of_le s.userWaiting 1 (UInt16.le_of_lt hlt)
      have hle := UInt16.lt_iff_toNat_lt.mp hlt
      change 1 ≤ (s.setUserWaiting (s.userWaiting - 1)).userWaiting.toNat
      rw [userWaiting_setUserWaiting, hsub]
      change 1 < _ at hle
      change 1 ≤ _ - 1
      omega
  | _ => exact hpos

theorem Moves.not_overflowed (hm : Moves C s t) (hs : ∀ pc ∈ s.calls, pc ≠ .overflowed) :
    ∀ pc ∈ t.calls, pc ≠ .overflowed := by
  cases hm with
  | enter call =>
      intro pc hpc
      rcases List.mem_append.mp hpc with hpc | hpc
      · exact hs pc hpc
      · rw [List.mem_singleton.mp hpc]
        exact nofun
  | promise | enough | launch | send | sendFailed => exact forall_mem_set hs nofun
  | enforced hc hpc => exact forall_mem_set hs (by rcases hpc with rfl | rfl <;> exact nofun)
  | _ => exact hs

/-- No thread was ever asked for. -/
structure Untouched (s : Threads Fut Job Local State bounded) : Prop where
  workers : s.bin.workers = []
  futures : s.bin.futures = []
  tasks : mass ThreadMessage.isTask s.bin.channel = 0
  unsent : weight CallPc.unsent s.calls = 0

/-- A call that finds the counter at zero and leaves it there has nothing to send. -/
theorem Moves.untouched (hm : Moves C s t) (hcpus : 1 ≤ s.global.physicalCpus.toNat)
    (hs : Untouched s) (hbalance : s.userWaiting.toNat = s.bin.live + s.promised)
    (hzero : s.userWaiting.toNat = 0) (hzero' : t.userWaiting.toNat = 0) : Untouched t := by
  have hunsent : ∀ {c : ℕ} {pc : CallPc Fut Job}, s.calls[c]? = some pc → pc.unsent = 0 :=
    fun hc => weight_eq_zero.mp hs.unsent _ (List.mem_of_getElem? hc)
  have hset : ∀ {c : ℕ} {pc pc' : CallPc Fut Job}, s.calls[c]? = some pc → pc'.unsent = 0 →
      weight CallPc.unsent (s.calls.set c pc') = 0 := by
    intro c pc pc' hc hpc'
    have hw := weight_set (w := CallPc.unsent) pc' hc
    have hold := hs.unsent
    omega
  cases hm with
  | enter call =>
      refine ⟨hs.workers, hs.futures, hs.tasks, ?_⟩
      rw [weight_append, hs.unsent]
      rfl
  | @promise c call n hc hn hlt =>
      have hle := UInt16.lt_iff_toNat_lt.mp hlt
      change (s.setUserWaiting n).userWaiting.toNat = 0 at hzero'
      rw [userWaiting_setUserWaiting] at hzero'
      omega
  | @enough c call hc hle =>
      have hproposed := UInt16.le_iff_toNat_le.mp hle
      rw [GlobalState.toNat_proposedThreads] at hproposed
      refine ⟨hs.workers, hs.futures, hs.tasks, hset hc ?_⟩
      have hlen := call.length_messages
      simp only [CallPc.unsent]
      omega
  | @launch c left call hc =>
      have hle := le_weight (w := CallPc.promised) hc
      simp only [CallPc.promised] at hle
      simp only [promised] at hbalance
      omega
  | @enforced c call pc hc hpc =>
      refine ⟨hs.workers, hs.futures, hs.tasks, hset hc ?_⟩
      have hnone : call.messages.length = 0 := hunsent hc
      rcases hpc with rfl | rfl
      · rfl
      · exact hnone
  | send hc | sendFailed hc => exact absurd (hunsent hc) (Nat.succ_ne_zero _)
  | timer timers => exact ⟨hs.workers, hs.futures, hs.tasks, hs.unsent⟩
  | sendIdle timers hc =>
      refine ⟨hs.workers, hs.futures, ?_, hs.unsent⟩
      have hmass := hc.mass (w := ThreadMessage.isTask)
      exact hmass.trans hs.tasks
  | stay hw | exit hw => simp [hs.workers] at hw
  | bin he ha => exact absurd ha (he.not_own_of_empty hs.workers hs.futures)

/-- The invariant of the accounting. -/
structure Balanced (cpus : UInt16) (s : Threads Fut Job Local State bounded) : Prop where
  encoded : s.global.readThreadCounts.toUInt64 = s.global.threadCounts
  physicalCpus : s.global.physicalCpus = cpus
  balance : s.userWaiting.toNat = s.bin.live + s.promised
  le_physicalCpus : s.userWaiting.toNat ≤ s.global.physicalCpus.toNat
  not_overflowed : ∀ pc ∈ s.calls, pc ≠ .overflowed
  untouched : s.userWaiting.toNat = 0 → Untouched s

theorem userWaiting_new (bounded : ℕ) : (new C cpus bounded).userWaiting.toNat = 0 :=
  congrArg (fun t => t.userWaiting.toNat) (ThreadCounts.ofUInt64_toUInt64 .new)

theorem balanced_new (bounded : ℕ) : Balanced cpus (new C cpus bounded) where
  encoded := congrArg ThreadCounts.toUInt64 (ThreadCounts.ofUInt64_toUInt64 .new)
  physicalCpus := rfl
  balance := userWaiting_new bounded
  le_physicalCpus := by
    rw [userWaiting_new]
    exact Nat.zero_le _
  not_overflowed := fun _ hpc => absurd hpc List.not_mem_nil
  untouched := fun _ => ⟨rfl, rfl, mass_new 2, rfl⟩

theorem Balanced.moves (hcpus : 1 ≤ cpus.toNat) (hs : Balanced cpus s) (hm : Moves C s t) :
    Balanced cpus t where
  encoded := hm.encoded hs.encoded
  physicalCpus := hm.physicalCpus.trans hs.physicalCpus
  balance := by
    have hadd := hm.balance
    have hold := hs.balance
    omega
  le_physicalCpus := hm.le_physicalCpus hs.le_physicalCpus
  not_overflowed := hm.not_overflowed hs.not_overflowed
  untouched := by
    intro hzero'
    have hzero : s.userWaiting.toNat = 0 := by
      by_contra hne
      have hpos := hm.userWaiting_pos (Nat.pos_of_ne_zero hne)
      omega
    rw [← hs.physicalCpus] at hcpus
    exact hm.untouched hcpus (hs.untouched hzero) hs.balance hzero hzero'

theorem balanced_of_run
    {ok : Threads Fut Job Local State bounded → ThreadsLabel Fut Job Action → Prop}
    {h : List (ThreadsLabel Fut Job Action)} (hcpus : 1 ≤ cpus.toNat)
    (hr : (system C cpus bounded).Run ok h s) : Balanced cpus s :=
  hr.invariant (P := Balanced cpus)
    (fun _ _ _ hs _ hst => hs.moves hcpus (moves_of_step hs.encoded hst)) (balanced_new bounded)

/-- The counter is what the workers and the promises make it, and while there is work there is a
worker for it, or one promised. -/
structure Accounted (C : Client Fut Job Local State Action Empty) (cpus : UInt16)
    (s : Threads Fut Job Local State bounded) : Prop where
  balance : s.userWaiting.toNat = s.bin.live + s.promised
  not_overflowed : ∀ pc ∈ s.calls, pc ≠ .overflowed
  le_physicalCpus : s.userWaiting ≤ cpus
  stays : ∀ (tr : List (ThreadsLabel Fut Job Action)) (t : Threads Fut Job Local State bounded),
    (system C cpus bounded).Path Free s tr t → 1 ≤ s.userWaiting →
      userWaitingMinThreads ≤ t.userWaiting
  served : 0 < mass ThreadMessage.isTask s.bin.channel →
    (∃ pc ∈ s.bin.workers, pc ≠ .gone) ∨ ∃ call left, .launch call (left + 1) ∈ s.calls

theorem accounted_of_reachable (hcpus : 1 ≤ cpus) (hr : (system C cpus bounded).Reachable s) :
    Accounted C cpus s := by
  obtain ⟨h, hr⟩ := hr
  have hcpus' : 1 ≤ cpus.toNat := UInt16.le_iff_toNat_le.mp hcpus
  have hs := balanced_of_run hcpus' hr
  refine ⟨hs.balance, hs.not_overflowed, ?_, ?_, ?_⟩
  · rw [UInt16.le_iff_toNat_le, ← hs.physicalCpus]
    exact hs.le_physicalCpus
  · intro tr t hp hpos
    apply UInt16.le_iff_toNat_le.mpr
    have hstay : Balanced cpus t ∧ 1 ≤ t.userWaiting.toNat := by
      refine hp.invariant (P := fun t => Balanced cpus t ∧ 1 ≤ t.userWaiting.toNat) ?_
        ⟨hs, UInt16.le_iff_toNat_le.mp hpos⟩
      intro t a u ⟨ht, hpos⟩ _ hst
      have hm := moves_of_step ht.encoded hst
      exact ⟨ht.moves hcpus' hm, hm.userWaiting_pos hpos⟩
    exact hstay.2
  · intro htask
    have hpos : 0 < s.bin.live + s.promised := by
      rw [← hs.balance]
      by_contra hzero
      have htasks := (hs.untouched (by omega)).tasks
      omega
    by_cases hlive : 0 < s.bin.live
    · left
      obtain ⟨w, pc, hw, hpc⟩ := exists_of_weight_pos hlive
      refine ⟨pc, List.mem_of_getElem? hw, ?_⟩
      rintro rfl
      exact absurd hpc (Nat.lt_irrefl 0)
    · right
      have hpromised : 0 < s.promised := by omega
      obtain ⟨c, pc, hc, hpc⟩ := exists_of_weight_pos hpromised
      cases pc with
      | launch call left =>
          cases left with
          | zero => exact absurd hpc (Nat.lt_irrefl 0)
          | succ left => exact ⟨call, left, List.mem_of_getElem? hc⟩
      | _ => exact absurd hpc (Nat.lt_irrefl 0)

/-- Jobs that return at once. -/
abbrev returnsAtOnce : Client Empty Unit Unit Unit Empty Empty where
  init := ()
  poll := Empty.elim
  call := fun _ => ()
  act := fun _ _ a => a.elim
  result := fun _ => some .ready
  owner := fun _ o => o.elim
  sendFailed := id

/-- Two threads for three jobs; the timer asks one of them to exit before all jobs are sent. -/
def exitEarly : List (ThreadsLabel Empty Unit Empty) :=
  [.enter (.spawnMixedSimple [(), (), ()]), .call 0, .call 0, .call 0, .call 0, .timer, .call 0,
    .sendIdle 0, .call 0, .bin (.work 0 (.recv 1)), .bin (.work 1 (.recv 1)), .idle 1 true]

theorem accounted_exitEarly :
    Accounted returnsAtOnce 2 (⟨⟨2, 1⟩, ⟨[.empty, ⟨[.simple ()], by decide⟩], [],
      [.job (), .gone], ()⟩, [.send [.inr ()]], [0]⟩ : Threads Empty Unit Unit Unit 3) :=
  accounted_of_reachable (by decide) ⟨_, Lts.path_of_exec exitEarly rfl⟩

end Threads
end Kiruna.Tpc

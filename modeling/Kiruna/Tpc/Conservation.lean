import Kiruna.Tpc.BinStep

/-!
# Reasoning about a client of the bin

Two rules for the code that the bin runs. The state of a client changes in its own steps only. And
a weight that a client brings in with the jobs it hands over, and that every other step only moves,
between the jobs, the local states that run them and the state of the client, has as its total what
was brought in: the bin neither loses nor doubles a job, in its queues or with a worker.
-/

namespace Kiruna.Tpc.Bin

variable {Fut Job Local State Action Owner : Type*} {bounded : ℕ}
  {C : Client Fut Job Local State Action Owner} {s t : Bin Fut Job Local State bounded}
  {h : List (BinLabel Action Owner)}
  {ok : Bin Fut Job Local State bounded → BinLabel Action Owner → Prop}

/-- A worker runs the local state in a job or in a poll. -/
def Running (s : Bin Fut Job Local State bounded) (p : Local) : Prop :=
  .job p ∈ s.workers ∨ ∃ f, .polling f p ∈ s.workers

theorem state_invariant {P : State → Prop} (hr : (system C bounded).Run ok h s) (h₀ : P C.init)
    (hact : ∀ h (s : Bin Fut Job Local State bounded) p a st p', (system C bounded).Run ok h s →
      P s.state → s.Running p → C.act s.state p a = some (st, p') → P st)
    (howner : ∀ h (s : Bin Fut Job Local State bounded) o st m, (system C bounded).Run ok h s →
      P s.state → C.owner s.state o = some (st, m) → P st)
    (hfailed : ∀ h (s : Bin Fut Job Local State bounded) o st m, (system C bounded).Run ok h s →
      P s.state → ok s (.owner o) → (∀ msg, s.send msg 1 = none) →
      C.owner s.state o = some (st, some m) → P (C.sendFailed st)) :
    P s.state := by
  refine hr.induct (P := fun _ s => P s.state) h₀ ?_
  intro h s a t hs hp hok hst
  cases effect_of_step hst with
  | actPoll hw ha =>
      exact hact h s _ _ _ _ hs hp (.inr ⟨_, List.mem_of_getElem? hw⟩) ha
  | actJob hw ha => exact hact h s _ _ _ _ hs hp (.inl (List.mem_of_getElem? hw)) ha
  | owner ho | spawnFuture ho | spawnJob ho => exact howner h s _ _ _ hs hp ho
  | spawnFailed ho hfull => exact hfailed h s _ _ _ hs hp hok hfull ho
  | _ => exact hp

/-- Every local state that a worker runs has the property. -/
def AllRun (L : Local → Prop) (s : Bin Fut Job Local State bounded) : Prop :=
  ∀ pc ∈ s.workers, ∀ p, (pc = .job p ∨ ∃ f, pc = .polling f p) → L p

theorem AllRun.running {L : Local → Prop} (hs : s.AllRun L) {p : Local} (hp : s.Running p) :
    L p := by
  rcases hp with hp | ⟨f, hp⟩
  · exact hs _ hp p (.inl rfl)
  · exact hs _ hp p (.inr ⟨f, rfl⟩)

theorem AllRun.move {L : Local → Prop} (hs : s.AllRun L) {w : ℕ} {pc : WorkerPc Local}
    (hworkers : t.workers = s.workers.set w pc)
    (hpc : ∀ p, (pc = .job p ∨ ∃ f, pc = .polling f p) → L p) : t.AllRun L := by
  unfold AllRun
  rw [hworkers]
  exact forall_mem_set hs hpc

/-- A property of local states that holds at the start of every poll and job and that every action
keeps holds of whatever runs. -/
theorem running_invariant {L : Local → Prop} (hpoll : ∀ u, L (C.poll u))
    (hcall : ∀ j, L (C.call j))
    (hact : ∀ h (s : Bin Fut Job Local State bounded) p a st p', (system C bounded).Run ok h s →
      L p → C.act s.state p a = some (st, p') → L p')
    (hr : (system C bounded).Run ok h s) {p : Local} (hp : s.Running p) : L p := by
  have hall : s.AllRun L := by
    refine hr.induct (P := fun _ s => s.AllRun L) (fun pc hpc => absurd hpc List.not_mem_nil) ?_
    intro h s a t hr hs _ hst
    cases effect_of_step hst with
    | startWorker =>
        intro pc hpc
        rcases List.mem_append.mp hpc with hpc | hpc
        · exact hs pc hpc
        · obtain rfl := List.mem_singleton.mp hpc
          simp
    | @recv w level m c hw hc =>
        refine hs.move rfl ?_
        cases m <;> simp [handle, hcall]
    | poll hw hf hl =>
        refine hs.move rfl ?_
        simp [hpoll]
    | actPoll hw ha =>
        refine hs.move rfl ?_
        have hl := hact h s _ _ _ _ hr (hs.running (.inr ⟨_, List.mem_of_getElem? hw⟩)) ha
        simpa using hl
    | actJob hw ha =>
        refine hs.move rfl ?_
        have hl := hact h s _ _ _ _ hr (hs.running (.inl (List.mem_of_getElem? hw))) ha
        simpa using hl
    | idle hw =>
        refine hs.move rfl ?_
        split_ifs <;> simp
    | contend | retry | retryFailed | wakeInPollFailed | ready | pending | panickedInPoll
    | panickedInJob | unlock | dropWaker | unwind | returned => exact hs.move rfl (by simp)
    | _ => exact hs
  exact hall.running hp

end Kiruna.Tpc.Bin

namespace Kiruna.Tpc

variable {Fut Job Local State Action Owner : Type*}

def ThreadMessage.jobWeight (wJob : Job → ℕ) : ThreadMessage Job → ℕ
  | .simple j => wJob j
  | _ => 0

/-- The weight a worker holds, which it keeps when its code panics. -/
def WorkerPc.localWeight (wLocal : Local → ℕ) : WorkerPc Local → ℕ
  | .job p | .polling _ p | .unwind _ (some p) | .panicked (some p) => wLocal p
  | _ => 0

/-- The weight of what an owner step hands over. -/
def spawnWeight (wJob : Job → ℕ) : Option (Fut ⊕ Job) → ℕ
  | some (.inr j) => wJob j
  | _ => 0

namespace Bin

variable {bounded : ℕ} {s t : Bin Fut Job Local State bounded}

def total (wJob : Job → ℕ) (wLocal : Local → ℕ) (wState : State → ℕ)
    (s : Bin Fut Job Local State bounded) : ℕ :=
  mass (ThreadMessage.jobWeight wJob) s.channel + weight (WorkerPc.localWeight wLocal) s.workers +
    wState s.state

/-- A weight comes in with the jobs that the client hands over, `wSpawned` of it so far, and its
other steps move it and do not change it. -/
structure Conserves (C : Client Fut Job Local State Action Owner)
    (ok : Bin Fut Job Local State bounded → BinLabel Action Owner → Prop)
    (wJob : Job → ℕ) (wLocal : Local → ℕ) (wState wSpawned : State → ℕ) : Prop where
  init : wState C.init = wSpawned C.init
  poll : ∀ u, wLocal (C.poll u) = 0
  call : ∀ j, wLocal (C.call j) = wJob j
  act : ∀ h (s : Bin Fut Job Local State bounded) p a st p', (system C bounded).Run ok h s →
    s.Running p → C.act s.state p a = some (st, p') →
    wLocal p' + wState st = wLocal p + wState s.state ∧ wSpawned st = wSpawned s.state
  result : ∀ p o, C.result p = some o → o ≠ .panicked → wLocal p = 0
  owner : ∀ h (s : Bin Fut Job Local State bounded) o st m, (system C bounded).Run ok h s →
    C.owner s.state o = some (st, m) →
    wState st = wState s.state ∧ wSpawned st = wSpawned s.state + spawnWeight wJob m
  failed : ∀ h (s : Bin Fut Job Local State bounded) o st m, (system C bounded).Run ok h s →
    C.owner s.state o = some (st, some m) →
    wState (C.sendFailed st) = wState s.state ∧ wSpawned (C.sendFailed st) = wSpawned s.state

variable {C : Client Fut Job Local State Action Owner}
  {ok : Bin Fut Job Local State bounded → BinLabel Action Owner → Prop}
  {wJob : Job → ℕ} {wLocal : Local → ℕ} {wState wSpawned : State → ℕ}
  {a : BinLabel Action Owner} {h : List (BinLabel Action Owner)}

/-- A worker moves and the channel does not change. -/
theorem total_move {w : ℕ} {pc pc' : WorkerPc Local} (hw : s.workers[w]? = some pc)
    (hworkers : t.workers = s.workers.set w pc') (hchannel : t.channel = s.channel)
    (hpc : pc'.localWeight wLocal + wState t.state = pc.localWeight wLocal + wState s.state) :
    t.total wJob wLocal wState = s.total wJob wLocal wState := by
  have hmove := load_move (v := ThreadMessage.jobWeight wJob) (w := WorkerPc.localWeight wLocal)
    hw hworkers hchannel
  unfold load at hmove
  unfold total
  omega

/-- A message goes into the channel and no worker moves. -/
theorem total_sent {level : ℕ} {m : ThreadMessage Job}
    {c : List (Fifo (ThreadMessage Job) bounded)} (hc : Sent s.channel level m c)
    (hchannel : t.channel = c) (hworkers : t.workers = s.workers)
    (hstate : wState t.state = wState s.state) :
    t.total wJob wLocal wState = s.total wJob wLocal wState + m.jobWeight wJob := by
  have hsent := load_sent (v := ThreadMessage.jobWeight wJob) (w := WorkerPc.localWeight wLocal)
    hc hchannel hworkers
  unfold load at hsent
  unfold total
  omega

/-- The weight of the run is what was brought in. -/
def Balanced (wJob : Job → ℕ) (wLocal : Local → ℕ) (wState wSpawned : State → ℕ)
    (s : Bin Fut Job Local State bounded) : Prop :=
  s.total wJob wLocal wState = wSpawned s.state

/-- A step of a worker or of a thread that holds a waker. -/
theorem Balanced.frame (hs : Balanced wJob wLocal wState wSpawned s)
    (htotal : t.total wJob wLocal wState = s.total wJob wLocal wState)
    (hspawned : wSpawned t.state = wSpawned s.state) :
    Balanced wJob wLocal wState wSpawned t :=
  htotal.trans (hs.trans hspawned.symm)

theorem Conserves.effect (hC : Conserves C ok wJob wLocal wState wSpawned)
    (hr : (system C bounded).Run ok h s) (hs : Balanced wJob wLocal wState wSpawned s)
    (he : Effect C s a t) : Balanced wJob wLocal wState wSpawned t := by
  cases he with
  | startWorker => exact hs.frame (by simp [total, WorkerPc.localWeight]) rfl
  | @recv w level m c hw hc =>
      have hm : (handle C m).localWeight wLocal = m.jobWeight wJob := by
        cases m with
        | simple j => exact hC.call j
        | work f => rfl
        | idle => rfl
      exact hs.frame (congrArg (· + wState s.state) (load_received hw hc rfl rfl rfl hm)) rfl
  | @poll w f u hw hf hl =>
      refine hs.frame (total_move hw rfl rfl ?_) rfl
      change wLocal (C.poll u.underlying) + wState s.state = 0 + wState s.state
      rw [hC.poll]
  | contend hw | retryFailed hw | unlock hw | dropWaker hw | wakeInPollFailed hw
  | panickedInPoll hw | panickedInJob hw => exact hs.frame (total_move hw rfl rfl rfl) rfl
  | retry hw hf hc =>
      exact hs.frame (congrArg (· + wState s.state) (load_resent hw hc rfl rfl rfl)) rfl
  | actPoll hw ha =>
      obtain ⟨hlocal, hspawned⟩ := hC.act h s _ _ _ _ hr (.inr ⟨_, List.mem_of_getElem? hw⟩) ha
      exact hs.frame (total_move hw rfl rfl hlocal) hspawned
  | actJob hw ha =>
      obtain ⟨hlocal, hspawned⟩ := hC.act h s _ _ _ _ hr (.inl (List.mem_of_getElem? hw)) ha
      exact hs.frame (total_move hw rfl rfl hlocal) hspawned
  | wakeInPoll hw hf hc | wakeByRef hf hn hc | wake hf hn hc =>
      exact hs.frame (total_sent hc rfl rfl rfl) rfl
  | sendIdle hc => exact hs.frame (total_sent hc rfl rfl rfl) rfl
  | cloneInPoll | clone | wakeFailed | drop | wakeByRefFailed | sendIdleFailed => exact hs
  | @ready w f p u hw hf hres =>
      refine hs.frame (total_move hw rfl rfl ?_) rfl
      change 0 + wState s.state = wLocal p + wState s.state
      rw [hC.result p _ hres (by simp)]
  | @pending w f p hw hres =>
      refine hs.frame (total_move hw rfl rfl ?_) rfl
      change 0 + wState s.state = wLocal p + wState s.state
      rw [hC.result p _ hres (by simp)]
  | @unwind w f p u hw hf =>
      refine hs.frame (total_move hw rfl rfl ?_) rfl
      cases p <;> rfl
  | @returned w p hw hres =>
      refine hs.frame (total_move hw rfl rfl ?_) rfl
      change 0 + wState s.state = wLocal p + wState s.state
      rw [hC.result p _ hres (by simp)]
  | @idle w exits hw =>
      refine hs.frame (total_move hw rfl rfl ?_) rfl
      cases exits <;> rfl
  | owner ho =>
      obtain ⟨hstate, hspawned⟩ := hC.owner h s _ _ _ hr ho
      exact hs.frame (congrArg (s.load _ _ + ·) hstate) hspawned
  | spawnFuture ho hc =>
      obtain ⟨hstate, hspawned⟩ := hC.owner h s _ _ _ hr ho
      exact hs.frame (total_sent hc rfl rfl hstate) hspawned
  | @spawnJob o st j c ho hc =>
      obtain ⟨hstate, hspawned⟩ := hC.owner h s _ _ _ hr ho
      have hsent : ((s.setState st).setChannel c).total wJob wLocal wState =
          s.total wJob wLocal wState + wJob j := total_sent hc rfl rfl hstate
      rw [hs] at hsent
      exact hsent.trans hspawned.symm
  | spawnFailed ho hfull =>
      obtain ⟨hstate, hspawned⟩ := hC.failed h s _ _ _ hr ho
      exact hs.frame (congrArg (s.load _ _ + ·) hstate) hspawned

/-- The conservation rule. -/
theorem Conserves.total_of_run (hC : Conserves C ok wJob wLocal wState wSpawned)
    (hr : (system C bounded).Run ok h s) : s.total wJob wLocal wState = wSpawned s.state := by
  refine hr.induct (P := fun _ s => Balanced wJob wLocal wState wSpawned s) ?_ ?_
  · have hload : (Bin.new C bounded).total wJob wLocal wState = wState C.init :=
      (congrArg (· + wState C.init) (load_new C bounded)).trans (Nat.zero_add _)
    exact hload.trans hC.init
  · intro h s a t hs ih _ hst
    exact hC.effect hs ih (effect_of_step hst)

/-- What runs is part of the weight of the workers. -/
theorem Running.le_weight (wLocal : Local → ℕ) {p : Local} (hp : s.Running p) :
    wLocal p ≤ weight (WorkerPc.localWeight wLocal) s.workers := by
  rcases hp with hp | ⟨f, hp⟩
  · exact le_weight_of_mem (w := WorkerPc.localWeight wLocal) hp
  · exact le_weight_of_mem (w := WorkerPc.localWeight wLocal) hp

end Bin
end Kiruna.Tpc

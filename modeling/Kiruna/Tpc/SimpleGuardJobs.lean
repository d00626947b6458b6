import Kiruna.Tpc.Conservation
import Kiruna.Tpc.SimpleGuard

/-!
# The jobs of a simple set

A job passes five stages and leaves a mark in a log at the end of each of the last four. For every
stage the jobs that have not left it, in the channel or with a worker, and those in its log add up
to those that were handed over. As long as no poll follows one that has panicked these are the jobs
of the set, but for those that the loop of the guard has still to hand over. Everything else is
arithmetic with these balances: no job runs twice, the counter does not wrap, and the last one wakes
the last poll.
-/

namespace Kiruna.Tpc

namespace JobPc

variable {Local : Type*}

def job : JobPc Local → ℕ
  | .closure j | .calling j _ | .fetchSub j | .wake j | .finished j | .panicked j => j

/-- A job that has panicked stays inside its call. -/
def stage : JobPc Local → ℕ
  | .closure _ => 0
  | .calling _ _ | .panicked _ => 1
  | .fetchSub _ => 2
  | .wake _ => 3
  | .finished _ => 4

/-- The weight of a job that has not left the stage `r`. -/
def before (sel : ℕ → ℕ) (r : ℕ) (p : JobPc Local) : ℕ := if p.stage ≤ r then sel p.job else 0

end JobPc

namespace SimpleGuard

open Bin (Running Conserves)

variable {State Local Action : Type*}

/-- The log of the jobs that have left the stage `r`. -/
def log (g : SimpleGuard State) : ℕ → List ℕ
  | 0 => g.called
  | 1 => g.returned
  | 2 => g.decremented
  | _ => g.finished

/-- The number of jobs that the guard has handed over since it last began with them. -/
def launched (jobs : UInt32) (g : SimpleGuard State) : ℕ :=
  match g.pc with
  | .spawning job | .panicked job => min job jobs.toNat
  | _ => if g.spawned then jobs.toNat else 0

/-- The jobs that the loop of the guard has still to hand over. -/
def unlaunched (jobs : UInt32) (g : SimpleGuard State) : List ℕ :=
  (List.range jobs.toNat).drop (g.launched jobs)

variable {jobs : UInt32} {K : JobCreator State Local Action} {g g' : SimpleGuard State}
  {m : Option (Empty ⊕ ℕ)} {bounded : ℕ}
  {s : Bin Empty ℕ (JobPc Local) (SimpleGuard State) bounded}
  {ok : Bin Empty ℕ (JobPc Local) (SimpleGuard State) bounded →
    BinLabel (JobAction Action) GuardStep → Prop}
  {h : List (BinLabel (JobAction Action) GuardStep)}

/-- No poll is made after one that has panicked. -/
def NotPolledAgain (s : Bin Empty ℕ (JobPc Local) (SimpleGuard State) bounded) :
    BinLabel (JobAction Action) GuardStep → Prop
  | .owner .poll => ∀ job, s.state.pc ≠ .panicked job
  | _ => True

instance : ∀ pc : GuardPc, Decidable (∀ job, pc ≠ .panicked job)
  | .panicked job => isFalse fun h => h job rfl
  | .idle | .spawning _ | .register | .load => isTrue fun _ h => GuardPc.noConfusion h

instance : ∀ (s : Bin Empty ℕ (JobPc Local) (SimpleGuard State) bounded)
    (a : BinLabel (JobAction Action) GuardStep), Decidable (NotPolledAgain s a)
  | s, .owner .poll => inferInstanceAs (Decidable (∀ job, s.state.pc ≠ .panicked job))
  | _, .owner .next | _, .owner .register | _, .owner .load | _, .startWorker | _, .work _ _
  | _, .clone _ | _, .wake _ | _, .wakeByRef _ | _, .drop _ | _, .sendIdle => isTrue trivial

theorem NotPolledAgain.not_panicked {o : GuardStep}
    (hok : NotPolledAgain s (.owner o : BinLabel (JobAction Action) GuardStep))
    (ho : (client jobs K).owner s.state o = some (g, m)) (job : ℕ) :
    s.state.pc ≠ .panicked job := by
  intro hpc
  cases o with
  | poll => exact hok job hpc
  | next | register | load => simp [pollStep, hpc] at ho

/-- A poll hands over the first of the unlaunched jobs, or none. -/
theorem Polls.unlaunched (hp : Polls jobs g g' m) (hpc : ∀ job, g.pc ≠ .panicked job)
    (sel : ℕ → ℕ) :
    weight sel (g'.unlaunched jobs) + spawnWeight sel m = weight sel (g.unlaunched jobs) := by
  cases hp with
  | poll hpc =>
      cases hs : g.spawned <;> simp [SimpleGuard.unlaunched, launched, enter, hpc, hs, spawnWeight]
  | again hpanicked => exact absurd hpanicked (hpc _)
  | @spawn job hpc hlt =>
      have hdrop := weight_drop (w := sel) (List.getElem?_range hlt)
      simp only [SimpleGuard.unlaunched, launched, hpc, spawnWeight, Nat.min_eq_left hlt.le,
        Nat.min_eq_left (show job + 1 ≤ jobs.toNat from hlt)]
      omega
  | spawned hpc hge =>
      simp [SimpleGuard.unlaunched, launched, hpc, spawnWeight, Nat.min_eq_right hge]
  | register hpc | load hpc => simp [SimpleGuard.unlaunched, launched, hpc, spawnWeight]

theorem unlaunched_panicked {job : ℕ} (hpc : g.pc = .spawning job) :
    SimpleGuard.unlaunched jobs { g with pc := .panicked job } = g.unlaunched jobs := by
  simp only [unlaunched, launched, hpc]

theorem Polls.log (hp : Polls jobs g g' m) (r : ℕ) : g'.log r = g.log r := by
  cases hp <;> rfl

theorem Polls.creator (hp : Polls jobs g g' m) : g'.creator = g.creator := by
  cases hp <;> rfl

theorem Polls.handedOver (hp : Polls jobs g g' m) (sel : ℕ → ℕ) :
    weight sel g'.handedOver = weight sel g.handedOver + spawnWeight sel m := by
  cases hp with
  | spawn hpc hlt => simp [spawnWeight]
  | _ => rfl

theorem Acts.unlaunched {p p' : JobPc Local} (ha : Acts K g p g' p') :
    g'.unlaunched jobs = g.unlaunched jobs := by
  cases ha <;> rfl

theorem Acts.handedOver {p p' : JobPc Local} (ha : Acts K g p g' p') :
    g'.handedOver = g.handedOver := by
  cases ha <;> rfl

/-- A weight that the jobs move comes in with the jobs that the guard hands over. -/
theorem conserves {sel : ℕ → ℕ} {wLocal : JobPc Local → ℕ} {wLog : SimpleGuard State → ℕ}
    (hinit : wLog (new jobs K) = 0) (hclosure : ∀ j, wLocal (.closure j) = sel j)
    (hfinished : ∀ j, wLocal (.finished j) = 0)
    (hact : ∀ h (s : Bin Empty ℕ (JobPc Local) (SimpleGuard State) bounded) p g p',
      (Bin.system (client jobs K) bounded).Run ok h s → s.Running p → Acts K s.state p g p' →
      wLocal p' + wLog g = wLocal p + wLog s.state)
    (hpoll : ∀ g g' m, Polls jobs g g' m → wLog g' = wLog g)
    (hpc : ∀ g pc, wLog { g with pc := pc } = wLog g) :
    Conserves (client jobs K) ok sel wLocal wLog (fun g => weight sel g.handedOver) where
  init := hinit
  poll := fun u => u.elim
  call := hclosure
  act := by
    intro h s p a g p' hr hp ha
    have hacts := acts_of_act ha
    exact ⟨hact h s p g p' hr hp hacts, by rw [hacts.handedOver]⟩
  result := by
    intro p o hres ho
    cases p with
    | finished j => exact hfinished j
    | panicked j =>
        cases hres
        exact absurd rfl ho
    | _ => cases hres
  owner := by
    intro h s o g m hr ho
    have hp := polls_of_owner ho
    exact ⟨hpoll _ _ _ hp, hp.handedOver sel⟩
  failed := by
    intro h s o g m hr ho
    obtain ⟨job, hspawn, hlt, hfail⟩ := (polls_of_owner ho).failed
    change wLog (sendFailed g) = _ ∧ weight sel (sendFailed g).handedOver = _
    rw [hfail]
    exact ⟨hpc _ _, rfl⟩

/-- Of the stage `r`: the jobs that have not left it and those that have were all handed over. -/
theorem conserves_stage (sel : ℕ → ℕ) (r : ℕ) (hr : r ≤ 3) :
    Conserves (client jobs K) ok sel (JobPc.before sel r) (fun g => weight sel (g.log r))
      (fun g => weight sel g.handedOver) := by
  have hcases : r = 0 ∨ r = 1 ∨ r = 2 ∨ r = 3 := by omega
  refine conserves ?_ (fun j => if_pos (Nat.zero_le r)) (fun j => if_neg ?_) ?_
    (fun g g' m hp => by rw [hp.log]) (fun g pc => ?_)
  · obtain rfl | rfl | rfl | rfl := hcases <;> rfl
  · simp only [JobPc.stage]
    omega
  · intro h s p g p' _ _ ha
    obtain rfl | rfl | rfl | rfl := hcases
    all_goals cases ha <;> simp [JobPc.before, JobPc.stage, JobPc.job, log] <;> omega
  · rfl

/-- The weight under `sel` of the messages and workers whose job has not left the stage `r`. -/
def inFlight (s : Bin Empty ℕ (JobPc Local) (SimpleGuard State) bounded) (sel : ℕ → ℕ)
    (r : ℕ) : ℕ :=
  mass (ThreadMessage.jobWeight sel) s.channel +
    weight (WorkerPc.localWeight (JobPc.before sel r)) s.workers

/-- The balance of the stage `r`, in any run. -/
theorem spawn_balance (hr : (Bin.system (client jobs K) bounded).Run ok h s) (sel : ℕ → ℕ)
    {r : ℕ} (hle : r ≤ 3) :
    inFlight s sel r + weight sel (s.state.log r) = weight sel s.state.handedOver := by
  have hc : Conserves (client jobs K) ok sel (JobPc.before sel r) _ _ := conserves_stage sel r hle
  exact hc.total_of_run hr

/-- The jobs handed over are the first ones. -/
def Launches (jobs : UInt32) (g : SimpleGuard State) : Prop :=
  g.handedOver = List.range (g.launched jobs)

theorem Launches.poll (hg : Launches jobs g) (hp : Polls jobs g g' m)
    (hpc : ∀ job, g.pc ≠ .panicked job) : Launches jobs g' := by
  unfold Launches at *
  cases hp with
  | poll hpc => cases hs : g.spawned <;> simpa [launched, enter, hpc, hs] using hg
  | again hpanicked => exact absurd hpanicked (hpc _)
  | @spawn job hpc hlt =>
      simp only [launched, hpc, Nat.min_eq_left hlt.le] at hg
      simp only [launched, hg, Nat.min_eq_left (show job + 1 ≤ jobs.toNat from hlt),
        List.range_succ]
  | spawned hpc hge => simpa [launched, hpc, Nat.min_eq_right hge] using hg
  | register hpc | load hpc => simpa [launched, hpc] using hg

theorem launches_of_run (hr : (Bin.system (client jobs K) bounded).Run NotPolledAgain h s) :
    Launches jobs s.state := by
  refine hr.invariant (P := fun s => Launches jobs s.state) (fun s a t hs hok hst => ?_) ?_
  · cases Bin.effect_of_step hst with
    | actPoll hw ha | actJob hw ha => cases acts_of_act ha <;> exact hs
    | owner ho | spawnJob ho => exact hs.poll (polls_of_owner ho) (hok.not_panicked ho)
    | @spawnFuture o st u => exact u.elim
    | spawnFailed ho =>
        obtain ⟨job, hpc, -, hfail⟩ := (polls_of_owner ho).failed
        change Launches jobs (sendFailed _)
        rw [hfail]
        simpa [Launches, launched, hpc] using hs
    | _ => exact hs
  · simp [Launches, Bin.system, Bin.new, new, launched]

theorem launched_le (g : SimpleGuard State) : g.launched jobs ≤ jobs.toNat := by
  unfold launched
  split
  · exact Nat.min_le_right _ _
  · exact Nat.min_le_right _ _
  · split_ifs <;> omega

/-- The jobs handed over and those to come are the jobs of the set. -/
theorem handedOver_append (hr : (Bin.system (client jobs K) bounded).Run NotPolledAgain h s) :
    s.state.handedOver ++ s.state.unlaunched jobs = List.range jobs.toNat := by
  have htake : s.state.handedOver = (List.range jobs.toNat).take (s.state.launched jobs) := by
    rw [launches_of_run hr, List.take_range, Nat.min_eq_left (launched_le s.state)]
  rw [htake, unlaunched, List.take_append_drop]

/-- The balance of the stage `r`, where the jobs to come count. -/
theorem stage_balance (hr : (Bin.system (client jobs K) bounded).Run NotPolledAgain h s)
    (sel : ℕ → ℕ) {r : ℕ} (hle : r ≤ 3) :
    inFlight s sel r + weight sel (s.state.log r) + weight sel (s.state.unlaunched jobs) =
      weight sel (List.range jobs.toNat) := by
  rw [spawn_balance hr sel hle, ← handedOver_append hr, weight_append]

/-- The workers whose job is at the stage `r + 1` are what two balances differ by. -/
theorem inFlight_succ (s : Bin Empty ℕ (JobPc Local) (SimpleGuard State) bounded) (sel : ℕ → ℕ)
    (r : ℕ) :
    inFlight s sel (r + 1) = inFlight s sel r + weight (WorkerPc.localWeight
      fun p => if p.stage = r + 1 then sel p.job else 0) s.workers := by
  have hpc : ∀ pc : WorkerPc (JobPc Local), pc.localWeight (JobPc.before sel (r + 1)) =
      pc.localWeight (JobPc.before sel r) +
        pc.localWeight (fun p => if p.stage = r + 1 then sel p.job else 0) := by
    intro pc
    have hp : ∀ p : JobPc Local, p.before sel (r + 1) =
        p.before sel r + if p.stage = r + 1 then sel p.job else 0 := by
      intro p
      simp only [JobPc.before]
      split_ifs <;> omega
    unfold WorkerPc.localWeight
    split <;> simp [hp]
  have hsum := weight_add (WorkerPc.localWeight (JobPc.before sel r)) (WorkerPc.localWeight
    fun p => if p.stage = r + 1 then sel p.job else 0) s.workers
  rw [← weight_congr fun pc _ => hpc pc] at hsum
  simp only [inFlight]
  omega

/-- Of all stages: a job that runs has not been counted yet. -/
theorem length_log_lt (hr : (Bin.system (client jobs K) bounded).Run NotPolledAgain h s)
    {p : JobPc Local} (hp : s.Running p) {r : ℕ} (hle : r ≤ 3) (hstage : p.stage ≤ r) :
    (s.state.log r).length < jobs.toNat := by
  have hb := stage_balance hr (fun _ => 1) hle
  have hin := hp.le_weight (JobPc.before (fun _ => 1) r)
  rw [JobPc.before, if_pos hstage] at hin
  simp only [inFlight, weight_one, List.length_range] at hb
  omega

theorem length_finished_le (hr : (Bin.system (client jobs K) bounded).Run NotPolledAgain h s) :
    s.state.finished.length ≤ s.state.decremented.length := by
  have hb := stage_balance hr (fun _ => 1) (r := 3) le_rfl
  have hb' := stage_balance hr (fun _ => 1) (r := 2) (by omega)
  rw [inFlight_succ] at hb
  simp only [weight_one, log] at hb hb'
  omega

/-- What the guard keeps. The last clause is about a poll that returned `Pending`: the last job has
not decremented, or has still to wake, or has woken that poll. -/
structure GuardInv (jobs : UInt32) (g : SimpleGuard State) : Prop where
  unpolled : g.polls = 0 → g.pc = .idle ∧ g.spawned = false
  looping : ∀ job, g.pc = .spawning job ∨ g.pc = .panicked job → g.spawned = false
  remaining : g.shared.childrenRemaining.toNat + g.decremented.length = jobs.toNat
  ready : g.result = some .ready → g.shared.childrenRemaining = 0
  reaches : g.pc = .load ∨ g.result ≠ none → g.shared.waker.Reaches g.polls
  waking : g.result = some .pending → g.shared.childrenRemaining ≠ 0 ∨
    g.finished.length < g.decremented.length ∨ g.polls ∈ g.shared.waker.woken

theorem guardInv_new : GuardInv jobs (new jobs K) where
  unpolled := fun _ => ⟨rfl, rfl⟩
  looping := fun _ _ => rfl
  remaining := by simp [new]
  ready := by simp [new]
  reaches := by simp [new]
  waking := by simp [new]

theorem GuardInv.polled (hg : GuardInv jobs g) (hpc : g.pc ≠ .idle) : g.polls ≠ 0 :=
  fun hz => hpc (hg.unpolled hz).1

theorem GuardInv.enter (hg : GuardInv jobs g) : GuardInv jobs g.enter := by
  refine ⟨fun h => absurd h (Nat.succ_ne_zero _), ?_, hg.remaining, nofun, ?_, nofun⟩
  · intro job h
    cases hs : g.spawned
    · exact hs
    · simp [SimpleGuard.enter, hs] at h
  · cases hs : g.spawned <;> simp [SimpleGuard.enter, hs]

theorem GuardInv.poll (hg : GuardInv jobs g) (hp : Polls jobs g g' m) : GuardInv jobs g' := by
  cases hp with
  | poll hpc | again hpc => exact hg.enter
  | spawn hpc hlt =>
      exact ⟨fun h => absurd h (hg.polled (by simp [hpc])), fun _ _ => hg.looping _ (.inl hpc),
        hg.remaining, hg.ready, fun h => hg.reaches (.inr (h.resolve_left nofun)), hg.waking⟩
  | spawned hpc hge =>
      exact ⟨fun h => absurd h (hg.polled (by simp [hpc])), fun _ h => h.elim nofun nofun,
        hg.remaining, hg.ready, fun h => hg.reaches (.inr (h.resolve_left nofun)), hg.waking⟩
  | register hpc =>
      exact ⟨fun h => absurd h (hg.polled (by simp [hpc])), fun _ h => h.elim nofun nofun,
        hg.remaining, hg.ready, fun _ => AtomicWaker.reaches_register _ _, hg.waking⟩
  | load hpc =>
      refine ⟨fun h => absurd h (hg.polled (by simp [hpc])), fun _ h => h.elim nofun nofun,
        hg.remaining, fun h => ?_, fun _ => hg.reaches (.inl hpc), fun h => ?_⟩
      · by_contra hne
        simp [hne] at h
      · refine .inl fun hz => ?_
        simp at h
        exact h hz

theorem GuardInv.act (hg : GuardInv jobs s.state)
    (hr : (Bin.system (client jobs K) bounded).Run NotPolledAgain h s) {p p' : JobPc Local}
    (hp : s.Running p) (ha : Acts K s.state p g p') : GuardInv jobs g := by
  have hrem := hg.remaining
  -- the counter has not come to zero while a job has still to decrement it
  have hpos : p.stage ≤ 2 → 0 < s.state.shared.childrenRemaining.toNat := by
    intro hstage
    have hlt := length_log_lt hr hp (r := 2) (by omega) hstage
    simp only [log] at hlt
    omega
  cases ha with
  | call | creator | returned | panicked =>
      exact ⟨hg.unpolled, hg.looping, hg.remaining, hg.ready, hg.reaches, hg.waking⟩
  | @last j hone =>
      have hpos := hpos le_rfl
      have hle := length_finished_le hr
      refine ⟨hg.unpolled, hg.looping, ?_, fun h => ?_, hg.reaches, fun h => .inr (.inl ?_)⟩
      · simp only [toNat_sub_one hpos, List.length_append, List.length_singleton]
        omega
      · simp [hg.ready h] at hpos
      · simp only [List.length_append, List.length_singleton]
        omega
  | @notLast j hone =>
      have hpos := hpos le_rfl
      refine ⟨hg.unpolled, hg.looping, ?_, fun h => ?_, hg.reaches, fun h => ?_⟩
      · simp only [toNat_sub_one hpos, List.length_append, List.length_singleton]
        omega
      · simp [hg.ready h] at hpos
      · rcases hg.waking h with hne | hlt | hw
        · refine .inl fun hz => hone ?_
          have hz' := congrArg UInt32.toNat hz
          rw [toNat_sub_one hpos] at hz'
          exact UInt32.toNat_inj.mp (by simp at hz' ⊢; omega)
        · refine .inr (.inl ?_)
          simp only [List.length_append, List.length_singleton]
          omega
        · exact .inr (.inr hw)
  | wake j =>
      refine ⟨hg.unpolled, hg.looping, hg.remaining, hg.ready,
        fun h => .inr (hg.reaches h).wake, fun h => ?_⟩
      exact .inr (.inr (hg.reaches (.inr (by rw [h]; simp))).wake)

theorem guardInv_of_run (hr : (Bin.system (client jobs K) bounded).Run NotPolledAgain h s) :
    GuardInv jobs s.state := by
  refine Bin.state_invariant hr guardInv_new ?_ ?_ ?_
  · intro h s p a g p' hs hg hp ha
    exact hg.act hs hp (acts_of_act ha)
  · intro h s o g m hs hg ho
    exact hg.poll (polls_of_owner ho)
  · intro h s o g m hs hg _ _ ho
    obtain ⟨job, hpc, hlt, hfail⟩ := (polls_of_owner ho).failed
    change GuardInv jobs (sendFailed g)
    rw [hfail]
    exact ⟨fun h => absurd h (hg.polled (by simp [hpc])), fun _ _ => hg.looping job (.inl hpc),
      hg.remaining, hg.ready, fun h => hg.reaches (.inr (h.resolve_left nofun)), hg.waking⟩

theorem GuardInv.unlaunched (hg : GuardInv jobs g) (hs : g.spawned = true) :
    g.unlaunched jobs = [] := by
  have hl : g.launched jobs = jobs.toNat := by
    unfold launched
    split
    · rename_i job hpc
      have hf := hg.looping job (.inl hpc)
      rw [hs] at hf
      cases hf
    · rename_i job hpc
      have hf := hg.looping job (.inr hpc)
      rw [hs] at hf
      cases hf
    · rw [if_pos hs]
  rw [SimpleGuard.unlaunched, hl]
  exact List.drop_eq_nil_of_le (by simp)

/-- The timer sends an idle message only while there is room for the jobs to come. -/
def LeavesRoom (jobs : UInt32) (s : Bin Empty ℕ (JobPc Local) (SimpleGuard State) bounded) :
    BinLabel (JobAction Action) GuardStep → Prop
  | .sendIdle => lengthAt s.channel 1 + (s.state.unlaunched jobs).length < bounded
  | _ => True

instance : ∀ (s : Bin Empty ℕ (JobPc Local) (SimpleGuard State) bounded)
    (a : BinLabel (JobAction Action) GuardStep), Decidable (LeavesRoom jobs s a)
  | s, .sendIdle =>
      inferInstanceAs (Decidable
        (lengthAt s.channel 1 + (s.state.unlaunched jobs).length < bounded))
  | _, .startWorker | _, .work _ _ | _, .clone _ | _, .wake _ | _, .wakeByRef _ | _, .drop _
  | _, .owner _ => isTrue trivial

/-- There is room on level 1 for the jobs to come, and no poll has panicked for want of it. -/
structure Room (jobs : UInt32) (s : Bin Empty ℕ (JobPc Local) (SimpleGuard State) bounded) :
    Prop where
  length : s.channel.length = 2
  le : lengthAt s.channel 1 + (s.state.unlaunched jobs).length ≤ bounded
  not_panicked : ∀ job, s.state.pc ≠ .panicked job

/-- A step that leaves the guard alone and puts no message on level 1. -/
theorem Room.frame {t : Bin Empty ℕ (JobPc Local) (SimpleGuard State) bounded}
    (hroom : Room jobs s) (hlen : t.channel.length = s.channel.length)
    (hlevel : lengthAt t.channel 1 ≤ lengthAt s.channel 1) (hstate : t.state = s.state) :
    Room jobs t where
  length := hlen.trans hroom.length
  le := by
    have hle := hroom.le
    rw [hstate]
    omega
  not_panicked := by
    rw [hstate]
    exact hroom.not_panicked

theorem Polls.not_panicked (hp : Polls jobs g g' m) (job : ℕ) : g'.pc ≠ .panicked job := by
  cases hp with
  | poll | again => cases hs : g.spawned <;> simp [enter, hs]
  | _ => simp

/-- A step of a poll that finds room for its job. -/
theorem Room.poll {c : List (Fifo (ThreadMessage ℕ) bounded)} (hroom : Room jobs s)
    (hp : Polls jobs s.state g m) (hlen : c.length = s.channel.length)
    (hlevel : lengthAt c 1 ≤ lengthAt s.channel 1 + spawnWeight (fun _ => 1) m) :
    Room jobs ((s.setState g).setChannel c) where
  length := hlen.trans hroom.length
  le := by
    have hw := hp.unlaunched hroom.not_panicked fun _ => 1
    have hle := hroom.le
    simp only [weight_one] at hw
    simp only [Bin.setState, Bin.setChannel]
    omega
  not_panicked := hp.not_panicked

theorem Room.effect {t : Bin Empty ℕ (JobPc Local) (SimpleGuard State) bounded}
    {a : BinLabel (JobAction Action) GuardStep} (hroom : Room jobs s) (hok : LeavesRoom jobs s a)
    (he : Bin.Effect (client jobs K) s a t) : Room jobs t := by
  have hlen := he.length_channel
  cases he with
  | recv hw hc =>
      have hat := hc.lengthAt 1
      exact hroom.frame hlen (by simp only [Bin.setWorker, Bin.setChannel]; omega) rfl
  | retry hw hf hc =>
      have hat := hc.lengthAt 1
      rw [if_neg Nat.one_ne_zero] at hat
      exact hroom.frame hlen
        (by simp only [Bin.setWorker, Bin.setChannel, Bin.setFuture]; omega) rfl
  | wakeInPoll hw hf hc | wake hf hn hc | wakeByRef hf hn hc =>
      have hat := hc.lengthAt 1
      rw [if_neg Nat.one_ne_zero] at hat
      exact hroom.frame hlen (by simp only [Bin.setChannel, Bin.setFuture]; omega) rfl
  | actPoll hw ha | actJob hw ha =>
      refine ⟨hroom.length, ?_, ?_⟩
      · simp only [Bin.setWorker, Bin.setState, (acts_of_act ha).unlaunched]
        exact hroom.le
      · cases acts_of_act ha <;> exact hroom.not_panicked
  | sendIdle hc =>
      have hat := hc.lengthAt 1
      have hlt : lengthAt s.channel 1 + (s.state.unlaunched jobs).length < bounded := hok
      rw [if_pos rfl] at hat
      refine ⟨hlen.trans hroom.length, ?_, hroom.not_panicked⟩
      simp only [Bin.setChannel]
      omega
  | owner ho => exact hroom.poll (polls_of_owner ho) rfl (Nat.le_add_right _ _)
  | spawnJob ho hc =>
      have hat := hc.lengthAt 1
      rw [if_pos rfl] at hat
      exact hroom.poll (polls_of_owner ho) hlen (by simp only [spawnWeight]; omega)
  | spawnFailed ho hfull =>
      -- a job to come has its room
      obtain ⟨job, hpc, hlt, -⟩ := (polls_of_owner ho).failed
      have hpos : 0 < (s.state.unlaunched jobs).length := by
        simp only [unlaunched, launched, hpc, List.length_drop, List.length_range]
        omega
      have hle := hroom.le
      have hlength := hroom.length
      rcases Bin.lengthAt_of_send_eq_none (hfull .idle) with hshort | hfull <;> omega
  | @spawnFuture o st u => exact u.elim
  | _ => exact hroom.frame rfl le_rfl rfl

theorem room_of_run (hn : jobs.toNat ≤ bounded)
    (hr : (Bin.system (client jobs K) bounded).Run (LeavesRoom jobs) h s) : Room jobs s := by
  refine hr.invariant (fun _ _ _ hs hok hst => hs.effect hok (Bin.effect_of_step hst))
    ⟨rfl, ?_, ?_⟩
  · simpa [lengthAt, Bin.system, Bin.new, new, unlaunched, launched] using hn
  · simp [Bin.system, Bin.new, new]

/-- Where the jobs have their room no poll panics, and so none is made after one that did. -/
theorem notPolledAgain_of_leavesRoom (hn : jobs.toNat ≤ bounded)
    (hr : (Bin.system (client jobs K) bounded).Run (LeavesRoom jobs) h s) :
    (Bin.system (client jobs K) bounded).Run NotPolledAgain h s := by
  refine hr.strengthen fun h s a t hs _ _ => ?_
  cases a with
  | owner o =>
      cases o with
      | poll => exact (room_of_run hn hs).not_panicked
      | _ => trivial
  | _ => trivial

/-- Weighs the job `j` only. -/
def only (j k : ℕ) : ℕ := if k = j then 1 else 0

theorem weight_only (j : ℕ) (l : List ℕ) : weight (only j) l = l.count j := by
  induction l with
  | nil => rfl
  | cons k l ih =>
      rw [weight_cons, ih, List.count_cons, only, Nat.add_comm]
      simp

theorem weight_only_range (j n : ℕ) :
    weight (only j) (List.range n) = if j < n then 1 else 0 := by
  rw [weight_only, List.nodup_range.count]
  simp

/-- The messages and workers that have still to call `job_creator(j)`. -/
def pendingCalls (s : Bin Empty ℕ (JobPc Local) (SimpleGuard State) bounded) (j : ℕ) : ℕ :=
  inFlight s (only j) 0

/-- The balance of the stage `r` for one job. -/
theorem job_balance (hr : (Bin.system (client jobs K) bounded).Run NotPolledAgain h s) (j : ℕ)
    {r : ℕ} (hle : r ≤ 3) :
    inFlight s (only j) r + (s.state.log r).count j + (s.state.unlaunched jobs).count j =
      if j < jobs.toNat then 1 else 0 := by
  have hb := stage_balance hr (only j) hle
  rwa [weight_only, weight_only, weight_only_range] at hb

/-- At a later stage no less is in flight. -/
theorem inFlight_mono (s : Bin Empty ℕ (JobPc Local) (SimpleGuard State) bounded)
    (sel : ℕ → ℕ) {r r' : ℕ} (hle : r ≤ r') : inFlight s sel r ≤ inFlight s sel r' := by
  induction hle with
  | refl => exact le_rfl
  | step _ ih =>
      rw [inFlight_succ]
      omega

/-- A job that left a later stage left the earlier ones. -/
theorem count_log (hr : (Bin.system (client jobs K) bounded).Run NotPolledAgain h s) {j : ℕ}
    (hj : j < jobs.toNat) {r q : ℕ} (hle : r ≤ q) (hq : q ≤ 3) (hm : j ∈ s.state.log q) :
    (s.state.log r).count j = 1 := by
  have hb := job_balance hr j (hle.trans hq)
  have hb' := job_balance hr j hq
  have hpos := List.count_pos_iff.mpr hm
  have hmono := inFlight_mono s (only j) hle
  rw [if_pos hj] at hb hb'
  omega

/-- A weight of at most one for each job that has not left the stage `r`. -/
theorem load_le (s : Bin Empty ℕ (JobPc Local) (SimpleGuard State) bounded) {wJob : ℕ → ℕ}
    {wLocal : JobPc Local → ℕ} {r : ℕ} (hjob : ∀ j, wJob j ≤ 1)
    (hlocal : ∀ p, wLocal p ≤ p.before (fun _ => 1) r) :
    mass (ThreadMessage.jobWeight wJob) s.channel +
      weight (WorkerPc.localWeight wLocal) s.workers ≤ inFlight s (fun _ => 1) r := by
  refine Nat.add_le_add (weight_mono fun q _ => weight_mono fun m _ => ?_)
    (weight_mono fun pc _ => ?_)
  · cases m with
    | simple k => exact hjob k
    | _ => exact le_rfl
  · unfold WorkerPc.localWeight
    split <;> first | exact hlocal _ | exact le_rfl

theorem inFlight_only_le (s : Bin Empty ℕ (JobPc Local) (SimpleGuard State) bounded) (j r : ℕ) :
    inFlight s (only j) r ≤ inFlight s (fun _ => 1) r := by
  refine load_le s (fun k => ?_) (fun p => ?_)
  · unfold only
    split_ifs <;> omega
  · simp only [JobPc.before, only]
    split_ifs <;> omega

/-- When the counter is at zero every job has been handed over and has decremented it. -/
theorem quiet_of_zero (hr : (Bin.system (client jobs K) bounded).Run NotPolledAgain h s)
    (hz : s.state.shared.childrenRemaining = 0) :
    inFlight s (fun _ => 1) 2 = 0 ∧ s.state.unlaunched jobs = [] := by
  have hrem := (guardInv_of_run hr).remaining
  have hb := stage_balance hr (fun _ => 1) (r := 2) (by omega)
  simp only [weight_one, List.length_range, log] at hb
  rw [hz, UInt32.toNat_zero] at hrem
  exact ⟨by omega, List.length_eq_zero_iff.mp (by omega)⟩

theorem decremented_of_zero (hr : (Bin.system (client jobs K) bounded).Run NotPolledAgain h s)
    (hz : s.state.shared.childrenRemaining = 0) {j : ℕ} (hj : j < jobs.toNat) :
    j ∈ s.state.decremented := by
  obtain ⟨hin, hun⟩ := quiet_of_zero hr hz
  have hb := job_balance hr j (r := 2) (by omega)
  have hle := inFlight_only_le s j 2
  rw [if_pos hj, hun, List.count_nil] at hb
  exact List.count_pos_iff.mp (by simp only [log] at hb; omega)

/-- The contract of `set_simple_scoped`. -/
structure RunsOnce (jobs : UInt32)
    (s : Bin Empty ℕ (JobPc Local) (SimpleGuard State) bounded) : Prop where
  called : ∀ j, s.state.called.count j ≤ if j < jobs.toNat then 1 else 0
  after_poll : s.state.called ≠ [] → 1 ≤ s.state.polls
  not_panicked : ∀ job, s.state.pc ≠ .panicked job
  spawned : s.state.spawned = true →
    ∀ j < jobs.toNat, pendingCalls s j + s.state.called.count j = 1
  finished : ∀ j ∈ s.state.finished, s.state.called.count j = 1
  remaining : s.state.shared.childrenRemaining.toNat + s.state.decremented.length = jobs.toNat
  ready : s.state.result = some .ready → ∀ j < jobs.toNat, s.state.returned.count j = 1
  woken : s.state.result = some .pending → (∀ j < jobs.toNat, j ∈ s.state.finished) →
    s.state.polls ∈ s.state.shared.waker.woken

theorem runsOnce_of_not_panicked
    (hr : (Bin.system (client jobs K) bounded).Run NotPolledAgain h s)
    (hpc : ∀ job, s.state.pc ≠ .panicked job) : RunsOnce jobs s where
  called := by
    intro j
    have hb := job_balance hr j (r := 0) (by omega)
    simp only [log] at hb
    omega
  after_poll := by
    intro hne
    by_contra hz
    obtain ⟨hpc, hs⟩ := (guardInv_of_run hr).unpolled (by omega)
    have hb := stage_balance hr (fun _ => 1) (r := 0) (by omega)
    have hpos := List.length_pos_of_ne_nil hne
    simp only [weight_one, log, unlaunched, launched, hpc, hs, Bool.false_eq_true, if_false,
      List.drop_zero] at hb
    omega
  not_panicked := hpc
  spawned := by
    intro hs j hj
    have hb := job_balance hr j (r := 0) (by omega)
    rw [(guardInv_of_run hr).unlaunched hs, if_pos hj] at hb
    simpa [log, pendingCalls] using hb
  finished := by
    intro j hm
    have hb := job_balance hr j (r := 3) le_rfl
    have hpos := List.count_pos_iff.mpr hm
    simp only [log] at hb
    refine count_log hr ?_ (r := 0) (by omega) le_rfl hm
    by_contra hj
    rw [if_neg hj] at hb
    omega
  remaining := (guardInv_of_run hr).remaining
  ready := by
    intro hres j hj
    have hz := (guardInv_of_run hr).ready hres
    exact count_log hr hj (r := 1) (q := 2) (by omega) (by omega) (decremented_of_zero hr hz hj)
  woken := by
    intro hres hall
    have hlen : jobs.toNat ≤ s.state.finished.length := by
      have hsub : List.range jobs.toNat ⊆ s.state.finished :=
        fun j hj => hall j (List.mem_range.mp hj)
      simpa using (List.subperm_of_subset List.nodup_range hsub).length_le
    have hrem := (guardInv_of_run hr).remaining
    have hle := length_finished_le hr
    rcases (guardInv_of_run hr).waking hres with hne | hlt | hw
    · exact absurd (UInt32.toNat_inj.mp (by simp; omega)) hne
    · omega
    · exact hw

/-- A `job_creator` that returns at once. -/
def returnAtOnce : JobCreator Unit Unit Unit where
  init := ()
  start := fun _ => ()
  act := fun _ _ _ => none
  result := fun _ => some .returned

/-- One of two jobs is done before the waker is registered, the other after the load. -/
def aroundRegister : List (BinLabel (JobAction Unit) GuardStep) :=
  [.startWorker, .owner .poll, .owner .next, .owner .next, .owner .next, .work 0 (.recv 1),
    .work 0 (.act .call), .work 0 (.act .leave), .work 0 (.act .fetchSub), .work 0 .returned,
    .owner .register, .owner .load, .work 0 (.recv 1), .work 0 (.act .call),
    .work 0 (.act .leave), .work 0 (.act .fetchSub), .work 0 (.act .wake), .work 0 .returned]

end SimpleGuard
end Kiruna.Tpc

import Kiruna.Test.AwaitedSetReturn
import Kiruna.Tpc.OnlyJobs
import Kiruna.Tpc.Spawning

/-!
# The sparse executor gets its set done

With calls of `job_creator` that come to an end, the steps of the guard, its jobs and
`sparse_await` come to an end too, in whatever order they are made. Before the deadline, and with
one worker that takes messages, they end when `sparse_await` has returned.
-/

namespace Kiruna.Test.AwaitedSet

open Tpc Lts
open SimpleGuard (begins wakes)

variable {State Local Action : Type*}

/-- Every call of `job_creator` returns, after as many steps as `rank` allows. -/
structure Terminates (K : JobCreator State Local Action) (rank : Local → ℕ) : Prop where
  lowers : ∀ st p a r, K.act st p a = some r → rank r.2 < rank p
  proceeds : ∀ st p, K.result p = none → ∃ a r, K.act st p a = some r
  returns : ∀ p, K.result p ≠ some .panicked

variable {bounded : ℕ} (jobs : UInt32) (K : JobCreator State Local Action) (rank : Local → ℕ)

/-- The steps that a worker makes for a job from here on. -/
def jobToGo : JobPc Local → ℕ
  | .closure j => rank (K.start j) + 5
  | .calling _ p => rank p + 4
  | .fetchSub _ => 3
  | .wake _ => 2
  | .finished _ | .panicked _ => 1

def workerToGo : WorkerPc (JobPc Local) → ℕ
  | .job p => jobToGo K rank p
  | .idle => 1
  | _ => 0

def messageToGo : ThreadMessage ℕ → ℕ
  | .simple j => rank (K.start j) + 6
  | .idle => 2
  | .work _ => 0

def binToGo (b : Bin Empty ℕ (JobPc Local) (SimpleGuard State) bounded) : ℕ :=
  b.load (messageToGo K rank) (workerToGo K rank) +
    weight (fun j => rank (K.start j) + 7) (b.state.unlaunched jobs)

/-- The steps of a poll of the guard and of the loop around it, without those that hand over
jobs. -/
def guardToGo : GuardPc → ℕ
  | .spawning _ => 6
  | .register => 5
  | .load => 4
  | .idle => 3
  | .panicked _ => 1

def loopToGo (pc : AwaitPc) (begun : Bool) (g : GuardPc) : ℕ :=
  match pc with
  | .poll => if begun then guardToGo g else 7
  | .deadline => 2
  | .recv => 1

def driverToGo (s : AwaitedSet State Local bounded) : ℕ :=
  match s.await.leaving with
  | .no => 2 + loopToGo s.await.pc s.begun s.bin.state.pc +
      8 * (2 - (s.bin.state.polls + if s.begun then 0 else 1))
  | .future _ => 2
  | .receiver _ => 1
  | .gone _ | .aborted => 0

def toGo (s : AwaitedSet State Local bounded) : ℕ := binToGo jobs K rank s.bin + s.driverToGo

/-- The steps of the set and of `sparse_await`. New workers, the timer of the bin and the deadline
are their environment. -/
def Own : AwaitedLabel Action → Prop
  | .bin .startWorker | .bin .sendIdle | .deadlineExceeded | .timedOut => False
  | _ => True

variable {jobs K rank} {s t : AwaitedSet State Local bounded}
  {b b' : Bin Empty ℕ (JobPc Local) (SimpleGuard State) bounded}
  {a : BinLabel (JobAction Action) GuardStep}
  {ok : AwaitedSet State Local bounded → AwaitedLabel Action → Prop}
  {h : List (AwaitedLabel Action)}

theorem jobToGo_lt (hK : Terminates K rank) {g g' : SimpleGuard State} {p p' : JobPc Local}
    (ha : SimpleGuard.Acts K g p g' p') : jobToGo K rank p' < jobToGo K rank p := by
  cases ha with
  | creator ha =>
      have hlt := hK.lowers _ _ _ _ ha
      simp only [jobToGo] at hlt ⊢
      omega
  | _ => simp [jobToGo]

/-- A worker moves. -/
theorem binToGo_move {w : ℕ} {pc pc' : WorkerPc (JobPc Local)} (hw : b.workers[w]? = some pc)
    (hworkers : b'.workers = b.workers.set w pc') (hchannel : b'.channel = b.channel)
    (hunlaunched : b'.state.unlaunched jobs = b.state.unlaunched jobs)
    (hlt : workerToGo K rank pc' < workerToGo K rank pc) :
    binToGo jobs K rank b' < binToGo jobs K rank b := by
  have hmove := Bin.load_move (v := messageToGo K rank) (w := workerToGo K rank) hw hworkers
    hchannel
  simp only [binToGo, hunlaunched]
  omega

/-- A step of a worker. -/
theorem binToGo_lt (hK : Terminates K rank) (hb : Bin.OnlyJobs (SimpleGuard.client jobs K) b)
    {w : ℕ} {e : WorkerEvent (JobAction Action)}
    (he : Bin.Effect (SimpleGuard.client jobs K) b (.work w e) b') :
    binToGo jobs K rank b' < binToGo jobs K rank b ∧ b'.state.pc = b.state.pc ∧
      b'.state.polls = b.state.polls := by
  have hfuture : ∀ {pc : WorkerPc (JobPc Local)}, b.workers[w]? = some pc →
      ((∃ f, pc = .contended f) ∨ ∃ f p, pc = .polling f p) → False := by
    rintro pc hw (⟨f, rfl⟩ | ⟨f, p, rfl⟩) <;>
      simpa using hb.workers _ (List.mem_of_getElem? hw)
  cases he with
  | @recv w level m c hw hc =>
      refine ⟨?_, rfl, rfl⟩
      have hmass := hc.mass (w := messageToGo K rank)
      have hset := weight_set (w := workerToGo K rank) (Bin.handle (SimpleGuard.client jobs K) m) hw
      obtain ⟨q, q', hq, hitems, -⟩ := hc
      have hm : ∀ f, m ≠ .work f := by
        apply hb.queued q (List.mem_of_getElem? hq) m
        rw [hitems]
        exact .head _
      simp only [binToGo, Bin.load, Bin.setWorker, Bin.setChannel]
      cases m with
      | simple j =>
          simp only [messageToGo, Bin.handle, workerToGo, jobToGo] at hmass hset ⊢
          omega
      | idle =>
          simp only [messageToGo, Bin.handle, workerToGo] at hmass hset ⊢
          omega
      | work f => exact absurd rfl (hm f)
  | actJob hw ha =>
      have hacts := SimpleGuard.acts_of_act ha
      refine ⟨binToGo_move hw rfl rfl hacts.unlaunched (jobToGo_lt hK hacts), ?_, ?_⟩
      · cases hacts <;> rfl
      · cases hacts <;> rfl
  | @returned w p hw hres =>
      refine ⟨binToGo_move hw rfl rfl rfl ?_, rfl, rfl⟩
      cases p <;> simp [workerToGo, jobToGo]
  | @panickedInJob w p hw hres =>
      refine ⟨binToGo_move hw rfl rfl rfl ?_, rfl, rfl⟩
      cases p <;> simp [workerToGo, jobToGo]
  | @idle w exits hw =>
      refine ⟨binToGo_move hw rfl rfl rfl ?_, rfl, rfl⟩
      cases exits <;> simp [workerToGo]
  | retryFailed hw => exact (hfuture hw (.inl ⟨_, rfl⟩)).elim
  | wakeInPollFailed hw | pending hw | panickedInPoll hw | actPoll hw =>
      exact (hfuture hw (.inr ⟨_, _, rfl⟩)).elim
  | @poll w f u | @contend w f u | @retry w f u | @wakeInPoll w f p u | @cloneInPoll w f p u
  | @ready w f p u | @unlock w f u | @dropWaker w f u | @unwind w f p u =>
      exact u.underlying.elim

/-- A step inside a poll of the guard. -/
theorem guardToGo_lt (rank : Local → ℕ) {o : GuardStep} (hne : o ≠ .poll)
    (hok : SimpleGuard.NotPolledAgain b (.owner o : BinLabel (JobAction Action) GuardStep))
    (he : Bin.Effect (SimpleGuard.client jobs K) b (.owner o) b') :
    binToGo jobs K rank b' + guardToGo b'.state.pc < binToGo jobs K rank b + guardToGo b.state.pc ∧
      b'.state.polls = b.state.polls ∧
      ¬ (b.state.pc = .idle ∨ ∃ job, b.state.pc = .panicked job) := by
  cases he with
  | @owner _ g ho =>
      have hp := SimpleGuard.polls_of_owner ho
      have hweight := hp.unlaunched (hok.not_panicked ho) fun j => rank (K.start j) + 7
      simp only [spawnWeight, Nat.add_zero] at hweight
      simp only [binToGo, Bin.load, Bin.setState, hweight]
      cases hp with
      | poll hpc | again hpc =>
          cases o with
          | poll => exact absurd rfl hne
          | _ => simp [SimpleGuard.pollStep, hpc] at ho
      | spawned hpc | register hpc | load hpc => simp [guardToGo, hpc]
  | @spawnJob _ g j c ho hc =>
      have hp := SimpleGuard.polls_of_owner ho
      have hweight := hp.unlaunched (hok.not_panicked ho) fun j => rank (K.start j) + 7
      have hmass := hc.mass (w := messageToGo K rank)
      simp only [spawnWeight] at hweight
      simp only [binToGo, Bin.load, Bin.setState, Bin.setChannel]
      cases hp with
      | spawn hpc hlt =>
          simp only [messageToGo, guardToGo, hpc] at hmass hweight ⊢
          refine ⟨?_, trivial, by simp⟩
          omega
  | @spawnFailed _ g m ho hfull =>
      obtain ⟨job, hpc, -, hfail⟩ := (SimpleGuard.polls_of_owner ho).failed
      change binToGo jobs K rank (b.setState (SimpleGuard.sendFailed g)) +
        guardToGo (SimpleGuard.sendFailed g).pc < _ ∧
          (SimpleGuard.sendFailed g).polls = _ ∧ ¬ _
      rw [hfail]
      simp only [binToGo, Bin.load, Bin.setState, SimpleGuard.unlaunched_panicked hpc]
      simp [guardToGo, hpc]
  | @spawnFuture _ g u => exact u.elim

/-- The guard enters a poll. -/
theorem guardToGo_begin (rank : Local → ℕ)
    (hok : SimpleGuard.NotPolledAgain b (.owner .poll : BinLabel (JobAction Action) GuardStep))
    (he : Bin.Effect (SimpleGuard.client jobs K) b (.owner .poll) b') :
    binToGo jobs K rank b' = binToGo jobs K rank b ∧ b'.state.polls = b.state.polls + 1 ∧
      guardToGo b'.state.pc ≤ 6 := by
  cases he with
  | @owner _ g ho =>
      have hp := SimpleGuard.polls_of_owner ho
      have hweight := hp.unlaunched (hok.not_panicked ho) fun j => rank (K.start j) + 7
      simp only [spawnWeight, Nat.add_zero] at hweight
      refine ⟨?_, ?_, ?_⟩
      · simp only [binToGo, Bin.load, Bin.setState, hweight]
      · simp only [SimpleGuard.pollStep] at ho
        split at ho <;> cases ho <;> rfl
      · cases hpc : g.pc <;> simp [guardToGo, Bin.setState, hpc]
  | @spawnJob _ g j c ho =>
      have hpoll : SimpleGuard.pollStep jobs b.state .poll = some (g, some (.inr j)) := ho
      cases SimpleGuard.next_of_pollStep hpoll
  | @spawnFailed _ g m ho =>
      have hpoll : SimpleGuard.pollStep jobs b.state .poll = some (g, some m) := ho
      cases SimpleGuard.next_of_pollStep hpoll
  | @spawnFuture _ g u => exact u.elim

theorem driverToGo_moved (hbegins : begins a = false) (hpc : b.state.pc = s.bin.state.pc)
    (hpolls : b.state.polls = s.bin.state.polls) :
    (s.moved a b).driverToGo = s.driverToGo := by
  simp only [driverToGo, moved, hbegins, Bool.or_false, pc_ring, leaving_ring, hpc, hpolls]

/-- Every step of the set or of `sparse_await` brings their end nearer. -/
theorem toGo_lt_of_step (hK : Terminates K rank) (hr : (system jobs K bounded).Run ok h s)
    {a : AwaitedLabel Action} (ha : Own a) (hst : s.step jobs K a = some t) :
    toGo jobs K rank t < toGo jobs K rank s := by
  have hs := inv_of_run hr
  have hbetween := between_of_run hr
  obtain ⟨h', hb⟩ := notPolledAgain_of_run hr
  unfold toGo
  cases effect_of_step hst with
  | @bin a b hne hadmits hstep =>
      have he : Bin.Effect (SimpleGuard.client jobs K) s.bin a b := Bin.effect_of_step hstep
      have hok := hbetween.notPolledAgain hadmits
      cases a with
      | work w e =>
          obtain ⟨hlt, hpc, hpolls⟩ := binToGo_lt hK (Bin.onlyJobs_of_run hb) he
          rw [driverToGo_moved rfl hpc hpolls]
          exact Nat.add_lt_add_right hlt _
      | owner o =>
          by_cases hpoll : o = .poll
          · subst hpoll
            obtain ⟨hno, hpc, hbegun⟩ := admits_begins hadmits rfl
            obtain ⟨hbin, hpolls, hguard⟩ := guardToGo_begin rank hok he
            rw [moved, hbin]
            apply Nat.add_lt_add_left
            simp only [driverToGo, leaving_ring, hno, pc_ring, hpc, hbegun, hpolls, loopToGo,
              begins, Bool.false_or, if_true, Bool.false_eq_true, if_false]
            omega
          · obtain ⟨hlt, hpolls, hinside⟩ := guardToGo_lt rank hpoll hok he
            have hbegun : s.begun = true := by
              by_contra hbegun
              exact hinside (.inl (hbetween (.inl (by simpa using hbegun))))
            have hnot : begins (.owner o : BinLabel (JobAction Action) GuardStep) = false := by
              cases o with
              | poll => exact absurd rfl hpoll
              | _ => rfl
            obtain ⟨hno, hpc⟩ := hs.polling.resolve_right hinside
            simp only [driverToGo, moved, leaving_ring, hno, pc_ring, hpc, hbegun, hnot, hpolls,
              loopToGo, Bool.or_false, if_true]
            omega
      | startWorker | sendIdle => exact ha.elim
      | clone f | wake f | wakeByRef f | drop f =>
          simp [Bin.step, Bin.futures_eq_nil] at hstep
  | ready hno hpc hpolled | pending hno hpc hpolled =>
      obtain ⟨hbegun, hidle, -⟩ := polled_eq_some hpolled
      apply Nat.add_lt_add_left
      simp only [driverToGo, hno, hpc, hbegun, hidle, loopToGo, guardToGo, if_true]
      omega
  | pollPanicked hno hpc hpanicked =>
      apply Nat.add_lt_add_left
      have hbegun : s.begun = true := by
        by_contra hbegun
        have hidle := hbetween (.inl (by simpa using hbegun))
        rw [hpanicked] at hidle
        cases hidle
      simp only [driverToGo, hno, hpc, hbegun, hpanicked, loopToGo, guardToGo, if_true]
      omega
  | deadlineExceeded hno hpc => exact ha.elim
  | remaining hno hpc =>
      apply Nat.add_lt_add_left
      simp only [driverToGo, hno, hpc, loopToGo]
      omega
  | recv hno hpc hsent =>
      obtain ⟨hbegun, hres⟩ := hs.waiting (by simp [hpc])
      have hpolls : s.bin.state.polls < 2 := by
        by_contra hge
        exact (hs.second (by omega)).2 hres
      apply Nat.add_lt_add_left
      simp only [driverToGo, hno, hpc, hbegun, loopToGo, if_true, Bool.false_eq_true, if_false]
      omega
  | timedOut hno hpc hsent => exact ha.elim
  | @dropGuard panicking hguard =>
      apply Nat.add_lt_add_left
      simp only [driverToGo, hguard, SparseAwait.afterDrop]
      split_ifs <;> simp
  | dropReceiver hreceiver =>
      apply Nat.add_lt_add_left
      simp [driverToGo, hreceiver]

/-- The deadline does not pass, and the timer leaves room for the jobs. -/
def InTime (jobs : UInt32) (s : AwaitedSet State Local bounded) : AwaitedLabel Action → Prop
  | .bin a => SimpleGuard.LeavesRoom jobs s.bin a
  | .deadlineExceeded | .timedOut => False
  | _ => True

def Still (jobs : UInt32) (K : JobCreator State Local Action) (s : AwaitedSet State Local bounded) :
    Prop :=
  ∀ a : AwaitedLabel Action, Own a → s.step jobs K a = none

theorem inTime_of_own {a : AwaitedLabel Action} (ha : Own a) : InTime jobs s a := by
  cases a with
  | bin a =>
      cases a with
      | sendIdle => exact ha.elim
      | _ => trivial
  | deadlineExceeded | timedOut => exact ha.elim
  | _ => trivial

theorem not_panicked_of_run (hn : jobs.toNat ≤ bounded)
    (hr : (system jobs K bounded).Run (InTime jobs) h s) (job : ℕ) :
    s.bin.state.pc ≠ .panicked job := by
  have hb : ∃ h', (Bin.system (SimpleGuard.client jobs K) bounded).Run
      (SimpleGuard.LeavesRoom jobs) h' s.bin := bin_of_run (fun _ _ _ _ ha _ => ha) hr
  obtain ⟨h', hb⟩ := hb
  exact (SimpleGuard.room_of_run hn hb).not_panicked job

/-- Before the deadline nothing panics on the thread of `sparse_await`. -/
theorem leaving_of_run (hn : jobs.toNat ≤ bounded)
    (hr : (system jobs K bounded).Run (InTime jobs) h s) :
    s.await.leaving = .no ∨ s.await.leaving = .future false ∨ s.await.leaving = .receiver false ∨
      s.await.leaving = .gone false := by
  refine hr.induct (P := fun _ s => s.await.leaving = .no ∨ s.await.leaving = .future false ∨
    s.await.leaving = .receiver false ∨ s.await.leaving = .gone false) (.inl rfl) ?_
  intro h s a t hr hs ha hst
  have hinv := inv_of_run hr
  cases effect_of_step hst with
  | bin =>
      simp only [moved, leaving_ring]
      exact hs
  | ready => exact .inr (.inl rfl)
  | pollPanicked hno hpc hpanicked => exact absurd hpanicked (not_panicked_of_run hn hr _)
  | deadlineExceeded | timedOut => exact ha.elim
  | @dropGuard panicking hguard =>
      cases panicking with
      | false =>
          have hdrop : s.bin.state.drop = .returned := by
            by_contra hdrop
            exact SimpleGuard.drop_ne_returned_iff.mp hdrop (hinv.zero (.inl hguard))
          simp [SparseAwait.afterDrop, hdrop]
      | true => simp [hguard] at hs
  | @dropReceiver panicking hreceiver =>
      cases panicking with
      | false => exact .inr (.inr (.inr rfl))
      | true => simp [hreceiver] at hs
  | _ => exact hs

theorem Still.bin_eq_none (hstill : Still jobs K s) (hne : s.await.leaving ≠ .aborted)
    (ha : Own (.bin a)) (hadmits : s.admits a = true) :
    s.bin.step (SimpleGuard.client jobs K) a = none := by
  have hnone := hstill (.bin a) ha
  simp only [step] at hnone
  rw [if_pos ⟨hne, hadmits⟩] at hnone
  exact Option.map_eq_none_iff.mp hnone

theorem pollStep_eq_none {o : GuardStep}
    (hnone : b.step (SimpleGuard.client jobs K) (.owner o) = none) :
    SimpleGuard.pollStep jobs b.state o = none := by
  simp only [Bin.step] at hnone
  split at hnone
  · assumption
  all_goals cases hnone

/-- A job whose call returns does not panic. -/
theorem jobsUnpanicked_of_run (hK : Terminates K rank)
    {h : List (BinLabel (JobAction Action) GuardStep)}
    (hr : (Bin.system (SimpleGuard.client jobs K) bounded).Run SimpleGuard.NotPolledAgain h b) :
    ∀ pc ∈ b.workers, ∀ j, pc ≠ .job (.panicked j) ∧ pc ≠ .panicked (some (.panicked j)) := by
  refine hr.invariant (P := fun b => ∀ pc ∈ b.workers, ∀ j,
    pc ≠ .job (.panicked j) ∧ pc ≠ .panicked (some (.panicked j)))
    (fun b a b' hb _ hst => ?_) (by simp [Bin.system, Bin.new])
  cases Bin.effect_of_step hst with
  | startWorker =>
      intro pc hpc
      rcases List.mem_append.mp hpc with hpc | hpc
      · exact hb pc hpc
      · rw [List.mem_singleton.mp hpc]
        simp
  | @recv w level m c hw hc =>
      refine forall_mem_set hb ?_
      cases m <;> simp [Bin.handle]
  | @actJob w p p' act g hw ha =>
      refine forall_mem_set hb ?_
      cases SimpleGuard.acts_of_act ha with
      | panicked hres => exact absurd hres (hK.returns _)
      | _ => simp
  | @panickedInJob w p hw hres =>
      refine forall_mem_set hb fun j => ?_
      have hworker := hb _ (List.mem_of_getElem? hw) j
      refine ⟨by simp, ?_⟩
      rintro hpc
      cases hpc
      exact hworker.1 rfl
  | returned | contend | retryFailed | wakeInPollFailed | pending | unlock | dropWaker | actPoll
  | poll | retry | ready =>
      exact forall_mem_set hb (by simp)
  | idle =>
      refine forall_mem_set hb ?_
      split_ifs <;> simp
  | @panickedInPoll w f p hw =>
      exact forall_mem_set hb (by simp)
  | @unwind w f p u => exact u.underlying.elim
  | _ => exact hb

/-- A job that a worker has can make its next step. -/
theorem exists_jobStep (hK : Terminates K rank) {w : ℕ} {p : JobPc Local}
    (hw : b.workers[w]? = some (.job p)) (hp : ∀ j, p ≠ .panicked j) :
    ∃ e, b.step (SimpleGuard.client jobs K) (.work w e) ≠ none := by
  have hact : ∀ act : JobAction Action, SimpleGuard.act K b.state p act ≠ none →
      b.step (SimpleGuard.client jobs K) (.work w (.act act)) ≠ none := by
    intro act hne hnone
    simp only [Bin.step, hw, Option.bind_some, Bin.workStep, Option.map_eq_none_iff] at hnone
    exact hne hnone
  cases p with
  | closure j => exact ⟨_, hact .call (by simp [SimpleGuard.act])⟩
  | calling j p =>
      cases hres : K.result p with
      | none =>
          obtain ⟨a, r, hr⟩ := hK.proceeds b.state.creator p hres
          exact ⟨_, hact (.creator a) (by simp [SimpleGuard.act, hr])⟩
      | some r =>
          cases r with
          | returned => exact ⟨_, hact .leave (by simp [SimpleGuard.act, hres])⟩
          | panicked => exact absurd hres (hK.returns p)
  | fetchSub j =>
      refine ⟨_, hact .fetchSub ?_⟩
      simp only [SimpleGuard.act]
      split_ifs <;> simp
  | wake j => exact ⟨_, hact .wake (by simp [SimpleGuard.act])⟩
  | finished j =>
      refine ⟨.returned, ?_⟩
      simp [Bin.step, hw, Bin.workStep]
  | panicked j => exact absurd rfl (hp j)

/-- While a job has not finished, some worker can make a step, if one of them takes messages. -/
theorem exists_workerStep (hK : Terminates K rank)
    {h : List (BinLabel (JobAction Action) GuardStep)}
    (hr : (Bin.system (SimpleGuard.client jobs K) bounded).Run SimpleGuard.NotPolledAgain h b)
    (hspawned : b.state.spawned = true) (hlt : b.state.finished.length < jobs.toNat)
    (hrecv : .recv ∈ b.workers) :
    ∃ w e, b.step (SimpleGuard.client jobs K) (.work w e) ≠ none := by
  have hb := Bin.onlyJobs_of_run hr
  have hbalance := SimpleGuard.stage_balance hr (fun _ => 1) (r := 3) le_rfl
  rw [(SimpleGuard.guardInv_of_run hr).unlaunched hspawned] at hbalance
  simp only [weight_one, SimpleGuard.log, List.length_range, List.length_nil]
    at hbalance
  rcases Nat.add_pos_iff_pos_or_pos.mp
    (show 0 < SimpleGuard.inFlight b (fun _ => 1) 3 by omega) with hmass | hweight
  · obtain ⟨l, q, hq, hpos⟩ := exists_of_weight_pos hmass
    obtain ⟨w, hw⟩ := List.mem_iff_getElem?.mp hrecv
    refine ⟨w, .recv l, ?_⟩
    cases hpop : q.pop with
    | none => simp [Fifo.pop_eq_none.mp hpop] at hpos
    | some r => simp [Bin.step, hw, Bin.workStep, Bin.receive, hq, hpop]
  · obtain ⟨w, pc, hw, hpos⟩ := exists_of_weight_pos hweight
    have hunpanicked := jobsUnpanicked_of_run hK hr pc (List.mem_of_getElem? hw)
    refine ⟨w, ?_⟩
    rcases hb.workers pc (List.mem_of_getElem? hw) with rfl | rfl | rfl | ⟨p, rfl⟩ | ⟨p, rfl, hres⟩
    · cases hpos
    · cases hpos
    · cases hpos
    · exact exists_jobStep hK hw fun j hp => (hunpanicked j).1 (by rw [hp])
    · cases p with
      | panicked j => exact absurd rfl (hunpanicked j).2
      | _ => cases hres

/-- Inside `sparse_await` there is always a step to make. -/
theorem Still.leaving_ne_no (hstill : Still jobs K s) (hK : Terminates K rank)
    (hn : jobs.toNat ≤ bounded) (hr : (system jobs K bounded).Run (InTime jobs) h s)
    (hrecv : .recv ∈ s.bin.workers) : s.await.leaving ≠ .no := by
  intro hno
  have hs := inv_of_run hr
  have hbetween := between_of_run hr
  obtain ⟨h', hb⟩ := notPolledAgain_of_run hr
  have hbin : ∀ a, Own (.bin a) → s.admits a = true →
      s.bin.step (SimpleGuard.client jobs K) a = none :=
    fun a ha hadmits => hstill.bin_eq_none (by simp [hno]) ha hadmits
  cases hpc : s.await.pc with
  | poll =>
      by_cases hbegun : s.begun = true
      · have howner : ∀ o, o ≠ .poll → SimpleGuard.pollStep jobs s.bin.state o = none := by
          intro o ho
          apply pollStep_eq_none
          apply hbin (.owner o) trivial
          cases o <;> simp_all [admits, begins, workerOf]
        cases hguard : s.bin.state.pc with
        | idle =>
            obtain ⟨r, hres⟩ := Option.ne_none_iff_exists'.mp (hs.ended hbegun hguard)
            have hpolled : s.polled = some r := by simp [polled, hbegun, hguard, hres]
            cases r with
            | ready =>
                simpa [step, drive, SparseAwait.step, SparseAwait.leave, hpolled, hno, hpc]
                  using hstill .ready trivial
            | pending =>
                simpa [step, drive, SparseAwait.step, SparseAwait.stay, hpolled, hno, hpc]
                  using hstill .pending trivial
        | spawning job =>
            have hnone := howner .next (by simp)
            simp only [SimpleGuard.pollStep, hguard] at hnone
            split_ifs at hnone
        | register => simpa [SimpleGuard.pollStep, hguard] using howner .register (by simp)
        | load => simpa [SimpleGuard.pollStep, hguard] using howner .load (by simp)
        | panicked job => exact not_panicked_of_run hn hr job hguard
      · have hidle := hbetween (.inl (by simpa using hbegun))
        have hnone := pollStep_eq_none (hbin (.owner .poll) trivial
          (by simp [admits, begins, workerOf, hno, hpc, hbegun]))
        simp [SimpleGuard.pollStep, hidle] at hnone
  | deadline =>
      simpa [step, drive, SparseAwait.step, SparseAwait.stay, hno, hpc]
        using hstill .remaining trivial
  | recv =>
      by_cases hsent : s.await.sent = 0
      · have hlt := hs.attended hb hno hpc hsent
        have hspawned := SimpleGuard.spawned_of_run hb
          (.inr (.inr (by simp [(hs.waiting (by simp [hpc])).2])))
        obtain ⟨w, e, hstep⟩ := exists_workerStep hK hb hspawned hlt hrecv
        apply hstep
        apply hbin (.work w e) trivial
        simp [admits, begins, workerOf, hs.crashed (receiverAlive_of_no hno)]
      · simpa [step, drive, SparseAwait.step, SparseAwait.stay, hno, hpc, hsent]
          using hstill .recv trivial

theorem Still.returned (hstill : Still jobs K s) (hK : Terminates K rank)
    (hn : jobs.toNat ≤ bounded) (hr : (system jobs K bounded).Run (InTime jobs) h s)
    (hrecv : .recv ∈ s.bin.workers) : s.await.leaving = .gone false := by
  rcases leaving_of_run hn hr with hno | hguard | hreceiver | hgone
  · exact absurd hno (hstill.leaving_ne_no hK hn hr hrecv)
  · simpa [step, drive, SparseAwait.step, hguard] using hstill .dropGuard trivial
  · simpa [step, drive, SparseAwait.step, hreceiver] using hstill .dropReceiver trivial
  · exact hgone

/-- `sparse_await` returns, with the work of the set done. -/
structure Completes (jobs : UInt32) (K : JobCreator State Local Action) (rank : Local → ℕ)
    (s : AwaitedSet State Local bounded) : Prop where
  ends : ∀ h' t, (system jobs K bounded).Path (fun _ => Own) s h' t →
    h'.length ≤ toGo jobs K rank s
  returned : ∀ h' t, (system jobs K bounded).Path (fun _ => Own) s h' t → Still jobs K t →
    .recv ∈ t.bin.workers → t.await.leaving = .gone false ∧ Unborrowed jobs t.bin

theorem completes_of_run (hK : Terminates K rank) (hn : jobs.toNat ≤ bounded)
    (hr : (system jobs K bounded).Run (InTime jobs) h s) : Completes jobs K rank s where
  ends := by
    intro h' t hp
    have hall := hp.induct (P := fun h' t => (system jobs K bounded).Run (InTime jobs) (h' ++ h) t ∧
      h'.length + toGo jobs K rank t ≤ toGo jobs K rank s) ⟨hr, by simp⟩ ?_
    · exact le_trans (Nat.le_add_right _ _) hall.2
    · rintro h' t a u _ ⟨ht, hle⟩ ha hst
      have hlt := toGo_lt_of_step hK ht ha hst
      refine ⟨ht.snoc (inTime_of_own ha) hst, ?_⟩
      rw [List.length_cons]
      omega
  returned := by
    intro h' t hp hstill hrecv
    have ht := hr.trans (hp.mono fun _ _ => inTime_of_own)
    have hgone := hstill.returned hK hn ht hrecv
    obtain ⟨h'', hb⟩ := notPolledAgain_of_run ht
    exact ⟨hgone, unborrowed_of_zero hb ((inv_of_run ht).zero (.inr ⟨false, .inr hgone⟩))⟩

theorem terminates_returnAtOnce : Terminates SimpleGuard.returnAtOnce fun _ => 0 where
  lowers := by simp [SimpleGuard.returnAtOnce]
  proceeds := by simp [SimpleGuard.returnAtOnce]
  returns := by simp [SimpleGuard.returnAtOnce]

instance : ∀ (s : AwaitedSet State Local bounded) (a : AwaitedLabel Action),
    Decidable (InTime jobs s a)
  | s, .bin a => inferInstanceAs (Decidable (SimpleGuard.LeavesRoom jobs s.bin a))
  | _, .deadlineExceeded | _, .timedOut => isFalse id
  | _, .ready | _, .pending | _, .pollPanicked | _, .remaining | _, .recv | _, .dropGuard
  | _, .dropReceiver => isTrue trivial

/-- The first poll of a set of one job, with a worker that waits. -/
def firstPoll : List (AwaitedLabel Unit) :=
  [.bin .startWorker, .bin (.owner .poll), .bin (.owner .next), .bin (.owner .next),
    .bin (.owner .register), .bin (.owner .load), .pending]

def afterFirstPoll : AwaitedSet Unit Unit 1 where
  await := ⟨0, false, .deadline, .no⟩
  begun := true
  crashed := []
  bin := ⟨[.empty, ⟨[.simple 0], by decide⟩], [], [.recv],
    ⟨⟨1, ⟨some 1, []⟩⟩, true, .idle, 1, some .pending, (), [0], [], [], [], []⟩⟩

theorem completes_afterFirstPoll :
    Completes 1 SimpleGuard.returnAtOnce (fun _ => 0) afterFirstPoll :=
  completes_of_run terminates_returnAtOnce (by decide)
    (Lts.path_of_exec firstPoll (by decide) :
      (system 1 SimpleGuard.returnAtOnce 1).Run (InTime 1) _ afterFirstPoll)

end Kiruna.Test.AwaitedSet

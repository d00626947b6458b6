import Kiruna.Test.AwaitedSet

/-!
# What a simple set promises the sparse executor

As long as the receiver is alive, the units that were sent, those still in the channel and the polls
balance. The last job sends the only one, after the counter has come to zero, so the guard is polled
twice at most and the second poll is ready; and `recv_timeout` cannot run out of time because a wake
was lost, only because a job has not finished.

The guard is dropped before its caller goes on. A drop that finds the counter at zero finds every
job past `job_creator`; any other drop ends the process, or in a poll that has returned the thread.
-/

namespace Kiruna.Test.AwaitedSet

open Tpc Lts
open SimpleGuard (begins wakes changes_of_step guardInv_of_run)

variable {State Local Action : Type*} {jobs : UInt32} {K : JobCreator State Local Action}
  {bounded : ℕ} {s t : AwaitedSet State Local bounded}
  {b : Bin Empty ℕ (JobPc Local) (SimpleGuard State) bounded}
  {ok : AwaitedSet State Local bounded → AwaitedLabel Action → Prop}
  {h : List (AwaitedLabel Action)}
  {a : BinLabel (JobAction Action) GuardStep}

/-- A step of the whole is one of the bin or leaves the bin alone. -/
inductive Effect (jobs : UInt32) (K : JobCreator State Local Action)
    (s : AwaitedSet State Local bounded) :
    AwaitedLabel Action → AwaitedSet State Local bounded → Prop
  | bin {a : BinLabel (JobAction Action) GuardStep}
      {b : Bin Empty ℕ (JobPc Local) (SimpleGuard State) bounded}
      (hne : s.await.leaving ≠ .aborted) (hadmits : s.admits a = true)
      (hb : s.bin.step (SimpleGuard.client jobs K) a = some b) :
      Effect jobs K s (.bin a) (s.moved a b)
  | ready (hno : s.await.leaving = .no) (hpc : s.await.pc = .poll)
      (hpolled : s.polled = some .ready) :
      Effect jobs K s .ready { s with await := { s.await with leaving := .future false } }
  | pending (hno : s.await.leaving = .no) (hpc : s.await.pc = .poll)
      (hpolled : s.polled = some .pending) :
      Effect jobs K s .pending { s with await := { s.await with pc := .deadline } }
  | pollPanicked {job : ℕ} (hno : s.await.leaving = .no) (hpc : s.await.pc = .poll)
      (hpanicked : s.bin.state.pc = .panicked job) :
      Effect jobs K s .pollPanicked { s with await := { s.await with leaving := .future true } }
  | deadlineExceeded (hno : s.await.leaving = .no) (hpc : s.await.pc = .deadline) :
      Effect jobs K s .deadlineExceeded
        { s with await := { s.await with leaving := .future true } }
  | remaining (hno : s.await.leaving = .no) (hpc : s.await.pc = .deadline) :
      Effect jobs K s .remaining { s with await := { s.await with pc := .recv } }
  | recv (hno : s.await.leaving = .no) (hpc : s.await.pc = .recv) (hsent : s.await.sent ≠ 0) :
      Effect jobs K s .recv { s with
        await := { s.await with sent := s.await.sent - 1, pc := .poll }, begun := false }
  | timedOut (hno : s.await.leaving = .no) (hpc : s.await.pc = .recv)
      (hsent : s.await.sent = 0) :
      Effect jobs K s .timedOut { s with await := { s.await with leaving := .future true } }
  | dropGuard {panicking : Bool} (hguard : s.await.leaving = .future panicking) :
      Effect jobs K s .dropGuard { s with await := { s.await with
        leaving := SparseAwait.afterDrop panicking (s.bin.state.drop ≠ .returned) } }
  | dropReceiver {panicking : Bool} (hreceiver : s.await.leaving = .receiver panicking) :
      Effect jobs K s .dropReceiver { s with await := { s.await with leaving := .gone panicking } }

theorem effect_of_step {a : AwaitedLabel Action} (hst : s.step jobs K a = some t) :
    Effect jobs K s a t := by
  cases a with
  | bin a =>
      simp only [step] at hst
      split_ifs at hst with hadmits
      obtain ⟨b, hb, rfl⟩ := Option.map_eq_some_iff.mp hst
      exact .bin hadmits.1 hadmits.2 hb
  | ready =>
      simp only [step] at hst
      split_ifs at hst with hpolled
      obtain ⟨w, hw, rfl⟩ := Option.map_eq_some_iff.mp hst
      obtain ⟨hno, hpc, rfl⟩ := SparseAwait.leave_eq_some hw
      exact .ready hno hpc hpolled
  | pending =>
      simp only [step] at hst
      split_ifs at hst with hpolled
      obtain ⟨w, hw, rfl⟩ := Option.map_eq_some_iff.mp hst
      obtain ⟨hno, hpc, rfl⟩ := SparseAwait.stay_eq_some hw
      exact .pending hno hpc hpolled
  | pollPanicked =>
      simp only [step] at hst
      split_ifs at hst with hunwinds
      obtain ⟨w, hw, rfl⟩ := Option.map_eq_some_iff.mp hst
      obtain ⟨hno, hpc, rfl⟩ := SparseAwait.leave_eq_some hw
      simp only [unwinds] at hunwinds
      split at hunwinds
      · exact .pollPanicked hno hpc ‹_›
      · cases hunwinds
  | deadlineExceeded =>
      obtain ⟨w, hw, rfl⟩ := Option.map_eq_some_iff.mp hst
      obtain ⟨hno, hpc, rfl⟩ := SparseAwait.leave_eq_some hw
      exact .deadlineExceeded hno hpc
  | remaining =>
      obtain ⟨w, hw, rfl⟩ := Option.map_eq_some_iff.mp hst
      obtain ⟨hno, hpc, rfl⟩ := SparseAwait.stay_eq_some hw
      exact .remaining hno hpc
  | recv =>
      obtain ⟨w, hw, rfl⟩ := Option.map_eq_some_iff.mp hst
      simp only [SparseAwait.step] at hw
      split_ifs at hw with hsent
      obtain ⟨hno, hpc, rfl⟩ := SparseAwait.stay_eq_some hw
      exact .recv hno hpc hsent
  | timedOut =>
      obtain ⟨w, hw, rfl⟩ := Option.map_eq_some_iff.mp hst
      simp only [SparseAwait.step] at hw
      split_ifs at hw with hsent
      obtain ⟨hno, hpc, rfl⟩ := SparseAwait.leave_eq_some hw
      exact .timedOut hno hpc hsent
  | dropGuard =>
      obtain ⟨w, hw, rfl⟩ := Option.map_eq_some_iff.mp hst
      simp only [SparseAwait.step] at hw
      split at hw <;> cases hw
      exact .dropGuard ‹_›
  | dropReceiver =>
      obtain ⟨w, hw, rfl⟩ := Option.map_eq_some_iff.mp hst
      simp only [SparseAwait.step] at hw
      split at hw <;> cases hw
      exact .dropReceiver ‹_›

/-- The thread of `sparse_await` and the wakes of its waker run as they do alone. -/
theorem await_of_run (hr : (system jobs K bounded).Run ok h s) :
    ∃ h', SparseAwait.system.Run Free h' s.await := by
  refine hr.exists_map AwaitedSet.await fun h s a t _ _ hst => ?_
  have hdrive : ∀ {a begun} {t : AwaitedSet State Local bounded}, s.drive a begun = some t →
      ∃ h', SparseAwait.system.Path Free s.await h' t.await := by
    intro a begun t hst
    obtain ⟨w, hw, rfl⟩ := Option.map_eq_some_iff.mp hst
    exact ⟨_, .single trivial hw⟩
  cases a with
  | bin a =>
      simp only [system, step] at hst
      split_ifs at hst with hadmits
      obtain ⟨b, -, rfl⟩ := Option.map_eq_some_iff.mp hst
      by_cases hrings : s.rings a = true
      · refine ⟨[.wake], .single trivial ?_⟩
        simp [SparseAwait.system, SparseAwait.step, hadmits.1, moved, ring, hrings]
      · refine ⟨[], ?_⟩
        simp only [moved, ring, hrings]
        exact .refl
  | ready | pending | pollPanicked =>
      simp only [system, step] at hst
      split_ifs at hst
      exact hdrive hst
  | _ => exact hdrive hst

theorem pc_ring (s : AwaitedSet State Local bounded) (a : BinLabel (JobAction Action) GuardStep) :
    (s.ring a).1.pc = s.await.pc := by
  unfold ring
  split_ifs
  · exact s.await.pc_wake
  · rfl

theorem leaving_ring (s : AwaitedSet State Local bounded)
    (a : BinLabel (JobAction Action) GuardStep) :
    (s.ring a).1.leaving = s.await.leaving := by
  unfold ring
  split_ifs
  · exact s.await.leaving_wake
  · rfl

theorem receiverAlive_ring (s : AwaitedSet State Local bounded)
    (a : BinLabel (JobAction Action) GuardStep) :
    (s.ring a).1.receiverAlive = s.await.receiverAlive := by
  simp only [SparseAwait.receiverAlive, leaving_ring]

/-- The guard is entered from the loop of `sparse_await`, which has not polled it yet. -/
theorem admits_begins (hadmits : s.admits a = true) (hbegins : begins a = true) :
    s.await.leaving = .no ∧ s.await.pc = .poll ∧ s.begun = false := by
  simp only [admits, hbegins, Bool.not_true, Bool.false_or, Bool.and_eq_true, decide_eq_true_eq,
    Bool.not_eq_true'] at hadmits
  exact ⟨hadmits.1.2, hadmits.1.1⟩

theorem polled_eq_some {r : Poll} (hpolled : s.polled = some r) :
    s.begun = true ∧ s.bin.state.pc = .idle ∧ s.bin.state.result = some r := by
  unfold polled at hpolled
  split_ifs at hpolled with hpc
  exact ⟨hpc.1, hpc.2, hpolled⟩

/-- Where `sparse_await` is not inside a poll, the guard is not either. -/
def Between (s : AwaitedSet State Local bounded) : Prop :=
  s.begun = false ∨ s.await.pc ≠ .poll → s.bin.state.pc = .idle

theorem between_of_run (hr : (system jobs K bounded).Run ok h s) : Between s := by
  refine hr.invariant (fun s a t hs _ hst => ?_) (fun _ => rfl)
  cases effect_of_step hst with
  | @bin a b hne hadmits hb =>
      intro hbetween
      have hbegins : begins a = false := by
        by_contra hbegins
        obtain ⟨-, hpc, -⟩ := admits_begins hadmits (by simpa using hbegins)
        simp [moved, pc_ring, hpc, hbegins] at hbetween
      refine ((changes_of_step hb).idle (hs ?_) hbegins).1
      simpa [moved, pc_ring, hbegins] using hbetween
  | pending hno hpc hpolled => exact fun _ => (polled_eq_some hpolled).2.1
  | remaining hno hpc => exact fun _ => hs (.inr (by simp [hpc]))
  | recv hno hpc => exact fun _ => hs (.inr (by simp [hpc]))
  | _ => exact hs

/-- The bin under `sparse_await` runs as the bin with a guard that any thread may poll. -/
theorem bin_of_run {ok' : Bin Empty ℕ (JobPc Local) (SimpleGuard State) bounded →
      BinLabel (JobAction Action) GuardStep → Prop}
    (hok : ∀ h s a, (system jobs K bounded).Run ok h s → ok s (.bin a) → s.admits a = true →
      ok' s.bin a) (hr : (system jobs K bounded).Run ok h s) :
    ∃ h', (Bin.system (SimpleGuard.client jobs K) bounded).Run ok' h' s.bin := by
  refine hr.exists_map AwaitedSet.bin fun h s a t hs ha hst => ?_
  cases effect_of_step hst with
  | bin _ hadmits hb => exact ⟨_, .single (hok _ _ _ hs ha hadmits) hb⟩
  | _ => exact ⟨[], .refl⟩

/-- A poll that panics ends the loop. -/
theorem Between.notPolledAgain (hs : Between s) (hadmits : s.admits a = true) :
    SimpleGuard.NotPolledAgain s.bin a := by
  cases a with
  | owner o =>
      cases o with
      | poll =>
          intro job hpc
          have hidle := hs (.inl (admits_begins hadmits rfl).2.2)
          rw [hpc] at hidle
          cases hidle
      | _ => trivial
  | _ => trivial

theorem notPolledAgain_of_run (hr : (system jobs K bounded).Run ok h s) :
    ∃ h', (Bin.system (SimpleGuard.client jobs K) bounded).Run SimpleGuard.NotPolledAgain h'
      s.bin :=
  bin_of_run (fun _ _ _ hs _ hadmits => (between_of_run hs).notPolledAgain hadmits) hr

/-- The invariant. `polling` and `ended` say which poll the state of the guard belongs to, and
`units` is the balance of the units. -/
structure Inv (s : AwaitedSet State Local bounded) : Prop where
  poisoned : s.await.receiverAlive = true → s.await.poisoned = false
  crashed : s.await.receiverAlive = true → s.crashed = []
  polling : s.await.leaving = .no ∧ s.await.pc = .poll ∨ s.bin.state.pc = .idle ∨
    ∃ job, s.bin.state.pc = .panicked job
  ended : s.begun = true → s.bin.state.pc = .idle → s.bin.state.result ≠ none
  units : s.await.receiverAlive = true → s.await.sent + s.bin.state.polls =
    s.bin.state.shared.waker.woken.length + if s.begun then 1 else 0
  polls : s.bin.state.polls ≤ s.bin.state.shared.waker.woken.length + 1
  waiting : s.await.pc ≠ .poll → s.begun = true ∧ s.bin.state.result = some .pending
  second : 2 ≤ s.bin.state.polls →
    s.bin.state.shared.childrenRemaining = 0 ∧ s.bin.state.result ≠ some .pending
  zero : (s.await.leaving = .future false ∨
      ∃ p, s.await.leaving = .receiver p ∨ s.await.leaving = .gone p) →
    s.bin.state.shared.childrenRemaining = 0

theorem inv_new : Inv (new jobs K bounded) where
  poisoned := fun _ => rfl
  crashed := fun _ => rfl
  polling := .inl ⟨rfl, rfl⟩
  ended := by simp [new]
  units := fun _ => rfl
  polls := Nat.zero_le _
  waiting := by simp [new, SparseAwait.new]
  second := by simp [new, Bin.new, SimpleGuard.new]
  zero := by simp [new, SparseAwait.new]

/-- A wake succeeds as long as the receiver is alive. -/
theorem Inv.ring (hs : Inv s) (halive : s.await.receiverAlive = true) :
    s.ring a = ({ s.await with sent := s.await.sent + if s.rings a then 1 else 0 }, .returned) := by
  by_cases hrings : s.rings a = true
  · simp [AwaitedSet.ring, hrings, SparseAwait.wake, hs.poisoned halive, halive]
  · simp [AwaitedSet.ring, hrings]

theorem length_woken (s : AwaitedSet State Local bounded)
    (a : BinLabel (JobAction Action) GuardStep) :
    (if wakes a then s.bin.state.shared.waker.registered.toList else []).length =
      if s.rings a then 1 else 0 := by
  unfold rings
  cases wakes a <;> cases s.bin.state.shared.waker.registered <;> rfl

theorem receiverAlive_of_no (hno : s.await.leaving = .no) : s.await.receiverAlive = true := by
  simp [SparseAwait.receiverAlive, hno]

/-- A wake sends a unit, and only the start of a poll is a poll. -/
theorem Inv.units_bin (hs : Inv s) (hadmits : s.admits a = true)
    (hb : s.bin.step (SimpleGuard.client jobs K) a = some b)
    (halive : s.await.receiverAlive = true) :
    (s.moved a b).await.sent + b.state.polls =
      b.state.shared.waker.woken.length + if (s.moved a b).begun then 1 else 0 := by
  have hpolls := (changes_of_step hb).polls
  have hwoken := congrArg List.length (changes_of_step hb).woken
  rw [List.length_append, length_woken] at hwoken
  have hunits := hs.units halive
  simp only [moved, hs.ring halive]
  by_cases hbegins : begins a = true
  · obtain ⟨-, -, hbegun⟩ := admits_begins hadmits hbegins
    simp only [hbegun, hbegins, Bool.false_or, if_true, Bool.false_eq_true, if_false] at *
    omega
  · simp only [hbegins, Bool.or_false] at *
    simp only [Bool.false_eq_true, if_false] at *
    omega

/-- A second poll follows a wake, and a wake comes when the counter is at zero. -/
theorem Inv.second_bin {h : List (BinLabel (JobAction Action) GuardStep)} (hs : Inv s)
    (hr : (Bin.system (SimpleGuard.client jobs K) bounded).Run SimpleGuard.NotPolledAgain h s.bin)
    (hadmits : s.admits a = true) (hb : s.bin.step (SimpleGuard.client jobs K) a = some b)
    (htwo : 2 ≤ b.state.polls) :
    s.bin.state.shared.childrenRemaining = 0 ∧
      (begins a = false → s.bin.state.result ≠ some .pending) := by
  have hpolls := (changes_of_step hb).polls
  by_cases hbegins : begins a = true
  · refine ⟨?_, fun hfalse => absurd hbegins (by simp [hfalse])⟩
    obtain ⟨hno, -, hbegun⟩ := admits_begins hadmits hbegins
    have hunits := hs.units (receiverAlive_of_no hno)
    apply SimpleGuard.childrenRemaining_of_woken hr
    simp only [hbegun, hbegins, if_true, Bool.false_eq_true, if_false] at *
    omega
  · have hold : 2 ≤ s.bin.state.polls := by simpa [hbegins, hpolls] using htwo
    exact ⟨(hs.second hold).1, fun _ => (hs.second hold).2⟩

theorem Inv.bin {h : List (BinLabel (JobAction Action) GuardStep)} (hs : Inv s)
    (hbetween : Between s)
    (hr : (Bin.system (SimpleGuard.client jobs K) bounded).Run SimpleGuard.NotPolledAgain h s.bin)
    (hadmits : s.admits a = true) (hb : s.bin.step (SimpleGuard.client jobs K) a = some b) :
    Inv (s.moved a b) := by
  have hc := changes_of_step hb
  have hpolls := hc.polls
  have hwoken := congrArg List.length hc.woken
  rw [List.length_append, length_woken] at hwoken
  have hzero := SimpleGuard.childrenRemaining_of_step hr hb (hbetween.notPolledAgain hadmits)
  constructor
  case poisoned =>
    intro halive
    rw [moved, receiverAlive_ring] at halive
    simp only [moved, hs.ring halive]
    exact hs.poisoned halive
  case crashed =>
    intro halive
    rw [moved, receiverAlive_ring] at halive
    simp only [moved, hs.ring halive]
    exact hs.crashed halive
  case polling =>
    by_cases hbegins : begins a = true
    · obtain ⟨hno, hpc, -⟩ := admits_begins hadmits hbegins
      refine .inl ⟨?_, ?_⟩
      · rw [moved, leaving_ring]
        exact hno
      · rw [moved, pc_ring]
        exact hpc
    · rw [Bool.not_eq_true] at hbegins
      rcases hs.polling with hpolling | hidle | ⟨job, hpc⟩
      · refine .inl ⟨?_, ?_⟩
        · rw [moved, leaving_ring]
          exact hpolling.1
        · rw [moved, pc_ring]
          exact hpolling.2
      · exact .inr (.inl (hc.idle hidle hbegins).1)
      · exact .inr (.inr ⟨job, hc.panicked hpc hbegins⟩)
  case ended =>
    intro hbegun
    apply hc.ended
    rcases Bool.or_eq_true_iff.mp hbegun with hbegun | hbegins
    · exact .inr (hs.ended hbegun)
    · exact .inl hbegins
  case units =>
    intro halive
    rw [moved, receiverAlive_ring] at halive
    exact hs.units_bin hadmits hb halive
  case polls =>
    by_cases hbegins : begins a = true
    · obtain ⟨hno, -, hbegun⟩ := admits_begins hadmits hbegins
      have hunits := hs.units (receiverAlive_of_no hno)
      simp only [moved, hbegun, hbegins, if_true, Bool.false_eq_true, if_false] at *
      omega
    · have hle := hs.polls
      simp only [moved, hbegins, Bool.false_eq_true, if_false] at *
      omega
  case waiting =>
    intro hpc
    rw [moved, pc_ring] at hpc
    obtain ⟨hbegun, hres⟩ := hs.waiting hpc
    have hbegins : begins a = false := by
      by_contra hbegins
      have hfalse := (admits_begins hadmits (by simpa using hbegins)).2.2
      rw [hbegun] at hfalse
      cases hfalse
    exact ⟨by simp [moved, hbegun], (hc.idle (hbetween (.inr hpc)) hbegins).2.trans hres⟩
  case second =>
    intro htwo
    obtain ⟨hz, hold⟩ := hs.second_bin hr hadmits hb htwo
    refine ⟨hzero hz, fun hres => ?_⟩
    rcases hc.pending hres with ⟨hbegins, hpending⟩ | hne
    · exact hold hbegins hpending
    · exact hne hz
  case zero =>
    intro hleaving
    rw [moved, leaving_ring] at hleaving
    exact hzero (hs.zero hleaving)

/-- A step of the loop that leaves the bin and the channel alone. -/
theorem Inv.loop {pc : AwaitPc} (hs : Inv s) (hidle : s.bin.state.pc = .idle)
    (hwaiting : s.begun = true ∧ s.bin.state.result = some .pending) :
    Inv { s with await := { s.await with pc := pc } } where
  poisoned := hs.poisoned
  crashed := hs.crashed
  polling := .inr (.inl hidle)
  ended := hs.ended
  units := hs.units
  polls := hs.polls
  waiting := fun _ => hwaiting
  second := hs.second
  zero := hs.zero

/-- A step on the way out, or one that leaves the loop. -/
theorem Inv.leave {l : Leaving} (hs : Inv s) (hgone : ∀ p, s.await.leaving ≠ .gone p)
    (hpolling : s.bin.state.pc = .idle ∨ ∃ job, s.bin.state.pc = .panicked job)
    (hzero : (l = .future false ∨ ∃ p, l = .receiver p ∨ l = .gone p) →
      s.bin.state.shared.childrenRemaining = 0) :
    Inv { s with await := { s.await with leaving := l } } where
  poisoned := fun _ => hs.poisoned (s.await.receiverAlive_iff.mpr hgone)
  crashed := fun _ => hs.crashed (s.await.receiverAlive_iff.mpr hgone)
  polling := .inr hpolling
  ended := hs.ended
  units := fun _ => hs.units (s.await.receiverAlive_iff.mpr hgone)
  polls := hs.polls
  waiting := hs.waiting
  second := hs.second
  zero := hzero

/-- A unit ends the wait, and the next poll is to come. -/
theorem Inv.recv (hs : Inv s) (hno : s.await.leaving = .no) (hpc : s.await.pc = .recv)
    (hsent : s.await.sent ≠ 0) : Inv { s with
      await := { s.await with sent := s.await.sent - 1, pc := .poll }, begun := false } where
  poisoned := hs.poisoned
  crashed := hs.crashed
  polling := .inl ⟨hno, rfl⟩
  ended := nofun
  units := by
    intro halive
    have hunits := hs.units halive
    rw [(hs.waiting (by simp [hpc])).1, if_pos rfl] at hunits
    simp only [Bool.false_eq_true, if_false]
    omega
  polls := hs.polls
  waiting := fun hne => absurd rfl hne
  second := hs.second
  zero := hs.zero

theorem Inv.step {a : AwaitedLabel Action} {h : List (BinLabel (JobAction Action) GuardStep)}
    (hs : Inv s) (hbetween : Between s)
    (hr : (Bin.system (SimpleGuard.client jobs K) bounded).Run SimpleGuard.NotPolledAgain h s.bin)
    (he : Effect jobs K s a t) : Inv t := by
  cases he with
  | bin hne hadmits hb => exact hs.bin hbetween hr hadmits hb
  | ready hno hpc hpolled =>
      obtain ⟨-, hidle, hres⟩ := polled_eq_some hpolled
      exact hs.leave (by simp [hno]) (.inl hidle) fun _ => (guardInv_of_run hr).ready hres
  | pending hno hpc hpolled =>
      obtain ⟨hbegun, hidle, hres⟩ := polled_eq_some hpolled
      exact hs.loop hidle ⟨hbegun, hres⟩
  | pollPanicked hno hpc hpanicked =>
      exact hs.leave (by simp [hno]) (.inr ⟨_, hpanicked⟩) (by simp)
  | deadlineExceeded hno hpc | timedOut hno hpc hsent =>
      exact hs.leave (by simp [hno]) (.inl (hbetween (.inr (by simp [hpc])))) (by simp)
  | remaining hno hpc =>
      have hne : s.await.pc ≠ .poll := by simp [hpc]
      exact hs.loop (hbetween (.inr hne)) (hs.waiting hne)
  | recv hno hpc hsent => exact hs.recv hno hpc hsent
  | @dropGuard panicking hguard =>
      refine hs.leave (by simp [hguard]) (hs.polling.resolve_left (by simp [hguard])) ?_
      -- a drop that panics aborts, or it has the counter at zero
      by_cases hdrop : s.bin.state.drop = .returned
      · intro _
        by_contra hne
        exact SimpleGuard.drop_ne_returned_iff.mpr hne hdrop
      · cases panicking with
        | true => simp [SparseAwait.afterDrop, hdrop]
        | false => exact fun _ => hs.zero (.inl hguard)
  | dropReceiver hreceiver =>
      exact hs.leave (by simp [hreceiver]) (hs.polling.resolve_left (by simp [hreceiver]))
        fun _ => hs.zero (.inr ⟨_, .inl hreceiver⟩)

theorem inv_of_run (hr : (system jobs K bounded).Run ok h s) : Inv s := by
  refine hr.induct (P := fun _ s => Inv s) inv_new fun h s a t hp hs _ hst => ?_
  obtain ⟨h', hb⟩ := notPolledAgain_of_run hp
  exact hs.step (between_of_run hp) hb (effect_of_step hst)

/-- Nothing of the set has still to enter `job_creator` or to come back from it. -/
structure Unborrowed (jobs : UInt32) (b : Bin Empty ℕ (JobPc Local) (SimpleGuard State) bounded) :
    Prop where
  unlaunched : b.state.unlaunched jobs = []
  queued : ∀ q ∈ b.channel, ∀ j, .simple j ∉ q.items
  running : ∀ p, b.Running p → ∃ j, p = .wake j ∨ p = .finished j
  returned : ∀ j < jobs.toNat, b.state.returned.count j = 1

theorem unborrowed_of_zero {h : List (BinLabel (JobAction Action) GuardStep)}
    (hr : (Bin.system (SimpleGuard.client jobs K) bounded).Run SimpleGuard.NotPolledAgain h b)
    (hz : b.state.shared.childrenRemaining = 0) : Unborrowed jobs b := by
  obtain ⟨hin, hun⟩ := SimpleGuard.quiet_of_zero hr hz
  obtain ⟨hqueued, hrunning⟩ := Nat.add_eq_zero_iff.mp hin
  refine ⟨hun, ?_, ?_, ?_⟩
  · intro q hq j hj
    have hmass := weight_eq_zero.mp (weight_eq_zero.mp hqueued q hq) _ hj
    cases hmass
  · intro p hp
    have hle := hp.le_weight (JobPc.before (fun _ => 1) 2)
    rw [hrunning] at hle
    cases p with
    | wake j => exact ⟨j, .inl rfl⟩
    | finished j => exact ⟨j, .inr rfl⟩
    | closure j | calling j p | fetchSub j | panicked j =>
        simp [JobPc.before, JobPc.stage] at hle
  · intro j hj
    exact SimpleGuard.count_log hr hj (r := 1) (q := 2) (by omega) (by omega)
      (SimpleGuard.decremented_of_zero hr hz hj)

/-- What `sparse_await` relies on, and what its caller does. -/
structure Awaits (jobs : UInt32) (s : AwaitedSet State Local bounded) : Prop where
  polls : s.bin.state.polls ≤ 2
  wakes : s.bin.state.shared.waker.woken.length ≤ 1
  second : s.bin.state.polls = 2 → s.bin.state.result ≠ some .pending
  attended : s.await.leaving = .no → s.await.pc = .recv → s.await.sent = 0 →
    ∃ j < jobs.toNat, j ∉ s.bin.state.finished
  crashed : s.crashed ≠ [] → ∃ p, s.await.leaving = .gone p
  gone : ∀ p, s.await.leaving = .gone p → Unborrowed jobs s.bin

theorem Inv.attended {h : List (BinLabel (JobAction Action) GuardStep)} (hs : Inv s)
    (hr : (Bin.system (SimpleGuard.client jobs K) bounded).Run SimpleGuard.NotPolledAgain h s.bin)
    (hno : s.await.leaving = .no) (hpc : s.await.pc = .recv) (hsent : s.await.sent = 0) :
    s.bin.state.finished.length < jobs.toNat := by
  obtain ⟨hbegun, hres⟩ := hs.waiting (by simp [hpc])
  have hunits := hs.units (receiverAlive_of_no hno)
  rw [hsent, hbegun, if_pos rfl] at hunits
  have hle := SimpleGuard.length_finished_le hr
  have hrem := (guardInv_of_run hr).remaining
  rcases (guardInv_of_run hr).waking hres with hne | hlt | hwoken
  · have hpos : s.bin.state.shared.childrenRemaining.toNat ≠ 0 :=
      fun hz => hne (UInt32.toNat_inj.mp hz)
    omega
  · omega
  · -- a wake leads to a second poll, and that one is not pending
    have hpos := List.length_pos_of_mem hwoken
    exact absurd hres (hs.second (by omega)).2

theorem exists_unfinished {l : List ℕ} {n : ℕ} (hlt : l.length < n) : ∃ j < n, j ∉ l := by
  by_contra hall
  have hsub : List.range n ⊆ l := by
    intro j hj
    by_contra hnot
    exact hall ⟨j, List.mem_range.mp hj, hnot⟩
  have hle := (List.subperm_of_subset List.nodup_range hsub).length_le
  rw [List.length_range] at hle
  omega

theorem awaits_of_run (hr : (system jobs K bounded).Run ok h s) : Awaits jobs s := by
  have hs := inv_of_run hr
  obtain ⟨h', hb⟩ := notPolledAgain_of_run hr
  have hwoken := SimpleGuard.length_woken_le hb
  have hpolls := hs.polls
  refine ⟨by omega, hwoken, fun htwo => (hs.second htwo.ge).2, ?_, ?_, ?_⟩
  · intro hno hpc hsent
    exact exists_unfinished (hs.attended hb hno hpc hsent)
  · intro hne
    by_contra hgone
    exact hne (hs.crashed (s.await.receiverAlive_iff.mpr (not_exists.mp hgone)))
  · intro p hgone
    exact unborrowed_of_zero hb (hs.zero (.inr ⟨p, .inr hgone⟩))

/-- A set of one job: the first poll is pending, the job wakes, the second poll is ready. -/
def oneWake : List (AwaitedLabel Unit) :=
  [.bin .startWorker, .bin (.owner .poll), .bin (.owner .next), .bin (.owner .next),
    .bin (.owner .register), .bin (.owner .load), .pending, .remaining, .bin (.work 0 (.recv 1)),
    .bin (.work 0 (.act .call)), .bin (.work 0 (.act .leave)), .bin (.work 0 (.act .fetchSub)),
    .bin (.work 0 (.act .wake)), .recv, .bin (.owner .poll), .bin (.owner .register),
    .bin (.owner .load), .ready, .dropGuard, .dropReceiver, .bin (.work 0 .returned)]

def afterOneWake : AwaitedSet Unit Unit 1 where
  await := ⟨0, false, .poll, .gone false⟩
  begun := true
  crashed := []
  bin := ⟨[.empty, .empty], [], [.recv],
    ⟨⟨0, ⟨some 2, [1]⟩⟩, true, .idle, 2, some .ready, (), [0], [0], [0], [0], [0]⟩⟩

theorem run_afterOneWake :
    (system 1 SimpleGuard.returnAtOnce 1).Run Free oneWake.reverse afterOneWake :=
  Lts.path_of_exec oneWake (by decide)

theorem awaits_afterOneWake : Awaits 1 afterOneWake := awaits_of_run run_afterOneWake

end Kiruna.Test.AwaitedSet

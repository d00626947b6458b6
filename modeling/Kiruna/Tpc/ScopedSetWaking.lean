import Kiruna.Tpc.BinWaking
import Kiruna.Tpc.ScopedSetCompletion

/-!
# The wake of a scoped set

The first poll of the guard registers before it spawns and then loads the counter; a later poll
loads, registers and loads again. Only the child that brings the counter to zero wakes. While the
guard is pending its counter is not at zero, or that child has the wake ahead of it, or the waker of
the last poll was woken.
-/

namespace Kiruna.Tpc

/-- The worker is about to wake the guard. -/
def WorkerPc.waking : WorkerPc ChildPc → ℕ
  | .polling _ (.wake _) => 1
  | _ => 0

namespace InternalGuard

open Bin (WakerUnused quiet_of_wakerUnused)

variable {tasks bounded : ℕ} {g g' : InternalGuard} {m : Option (ℕ ⊕ Empty)}
  {s t : Bin ℕ Empty ChildPc InternalGuard bounded} {a : BinLabel ChildAction ScopedStep}
  {h : List (BinLabel ChildAction ScopedStep)}
  {ok : Bin ℕ Empty ChildPc InternalGuard bounded → BinLabel ChildAction ScopedStep → Prop}

/-- From its registration on a poll reaches its waker, until the next poll begins. -/
structure Listens (g : InternalGuard) : Prop where
  shared : g.state = .spawned ∨ (g.pc ≠ .idle ∧ g.pc ≠ .panicked) → g.shared ≠ none
  reaches : (∃ k, g.pc = .spawning k) ∨ g.pc = .loadSpawned ∨ g.pc = .loadAgain ∨
    g.result = some .pending → ∀ set, g.shared = some set → set.waker.Reaches g.polls
  returned : g.result ≠ none → g.pc = .idle
  pending : g.result = some .pending → g.state = .spawned

theorem Listens.result_eq_none (hg : Listens g) (hpc : g.pc ≠ .idle) : g.result = none := by
  by_contra hne
  exact hpc (hg.returned hne)

theorem Listens.poll (hg : Listens g) (hp : Polls tasks g g' m) : Listens g' := by
  cases hp with
  | first hstate hlt =>
      refine ⟨fun _ => nofun, fun _ set hset => ?_, fun hr => absurd rfl hr, nofun⟩
      cases hset
      exact .inl rfl
  | @again pc hpc hstate hload =>
      refine ⟨fun hs => ?_, fun hs => ?_, fun hr => absurd rfl hr, nofun⟩
      · apply hg.shared
        left
        apply hstate
        rcases hs with hs | ⟨-, hne⟩
        · cases hs
        · exact hpc.resolve_right hne
      · rcases hpc with rfl | rfl <;> simp at hs
  | @spawn k hpc =>
      have hres := hg.result_eq_none (by simp [hpc])
      refine ⟨fun _ => hg.shared (.inr (by simp [hpc])), fun _ => hg.reaches (.inl ⟨k, hpc⟩),
        fun hr => absurd hres hr, fun hr => ?_⟩
      rw [hres] at hr
      cases hr
  | @spawned k hpc =>
      have hres := hg.result_eq_none (by simp [hpc])
      refine ⟨fun _ => hg.shared (.inr (by simp [hpc])), fun _ => hg.reaches (.inl ⟨k, hpc⟩),
        fun hr => absurd hres hr, fun hr => ?_⟩
      rw [hres] at hr
      cases hr
  | loadFailed hpc hdone =>
      have hres := hg.result_eq_none (by simp [hpc])
      refine ⟨fun _ => hg.shared (.inr (by simp [hpc])), fun hs => ?_,
        fun hr => absurd hres hr, fun hr => ?_⟩
      · simp [hres] at hs
      · rw [hres] at hr
        cases hr
  | register hpc =>
      have hres := hg.result_eq_none (by simp [hpc])
      refine ⟨fun _ => ?_, fun _ set hset => ?_, fun hr => absurd hres hr, fun hr => ?_⟩
      · simpa using hg.shared (.inr (by simp [hpc]))
      · obtain ⟨set', -, rfl⟩ := Option.map_eq_some_iff.mp hset
        exact .inl rfl
      · rw [hres] at hr
        cases hr
  | ready hdone hpc => exact ⟨by simp [finish], by simp [finish], fun _ => rfl, nofun⟩
  | pending hpc hdone =>
      refine ⟨fun _ => hg.shared (.inr ?_), fun _ => hg.reaches ?_, fun _ => rfl, fun _ => rfl⟩
      · rcases hpc with hpc | hpc <;> simp [hpc]
      · rcases hpc with hpc | hpc
        · exact .inr (.inl hpc)
        · exact .inr (.inr (.inl hpc))

theorem Listens.act (hg : Listens g) {p p' : ChildPc} (ha : Acts g p g' p') : Listens g' := by
  cases ha with
  | @complete k c set hc hset =>
      refine ⟨fun _ => nofun, fun hs set' hset' => ?_, hg.returned, hg.pending⟩
      cases hset'
      exact hg.reaches hs set hset
  | @wake k set hset =>
      refine ⟨fun _ => nofun, fun hs set' hset' => ?_, hg.returned, hg.pending⟩
      cases hset'
      exact .inr (hg.reaches hs set hset).wake
  | done hc => exact ⟨hg.shared, hg.reaches, hg.returned, hg.pending⟩
  | panicked => exact hg

theorem listens_of_run (hr : (Bin.system (client tasks) bounded).Run ok h s) :
    Listens s.state := by
  refine Bin.state_invariant hr ?_ ?_ ?_ ?_
  · exact ⟨by simp [new], by simp [new], by simp [new], by simp [new]⟩
  · intro h s p a g p' _ hg _ ha
    exact hg.act (acts_of_act ha)
  · intro h s o g m _ hg ho
    exact hg.poll (polls_of_owner ho)
  · intro h s o g m _ hg _ _ ho
    cases polls_of_owner ho with
    | spawn hpc =>
        have hres := hg.result_eq_none (by simp [hpc])
        refine ⟨fun hs => ?_, fun hs => ?_, fun hr => absurd hres hr, fun hr => hg.pending hr⟩
        · apply hg.shared
          rcases hs with hs | ⟨-, hs⟩
          · exact .inl hs
          · exact absurd rfl hs
        · have hs : s.state.result = some .pending := by simpa [sendFailed] using hs
          rw [hres] at hs
          cases hs

/-- A worker that is about to wake stays there until it does. -/
theorem waking_le (he : Bin.Effect (client tasks) s a t) (hact : ∀ w e, a ≠ .work w (.act e))
    (hwake : ∀ w, a ≠ .work w .wake) :
    weight WorkerPc.waking s.workers ≤ weight WorkerPc.waking t.workers := by
  have hkeep : ∀ {w : ℕ} {pc : WorkerPc ChildPc} (pc' : WorkerPc ChildPc),
      s.workers[w]? = some pc → pc.waking = 0 →
      weight WorkerPc.waking s.workers ≤ weight WorkerPc.waking (s.workers.set w pc') := by
    intro w pc pc' hw hz
    have hset := weight_set (w := WorkerPc.waking) pc' hw
    omega
  cases he with
  | startWorker =>
      change _ ≤ weight WorkerPc.waking (s.workers ++ [.recv])
      simp
  | actPoll | actJob => exact absurd rfl (hact _ _)
  | wakeInPoll | wakeInPollFailed => exact absurd rfl (hwake _)
  | recv hw | poll hw | contend hw | retry hw | retryFailed hw | unlock hw | dropWaker hw
  | unwind hw | returned hw | idle hw | panickedInJob hw => exact hkeep _ hw rfl
  | @ready w f p u hw hf hr =>
      cases p with
      | ready k => exact hkeep _ hw rfl
      | _ => cases hr
  | @pending w f p hw hr => cases p <;> cases hr
  | @panickedInPoll w f p hw hr =>
      cases p with
      | panicked k => exact hkeep _ hw rfl
      | _ => cases hr
  | _ => exact le_rfl

/-- While the guard is pending the last wake has still to come, or has woken the last poll. -/
def Wakes (s : Bin ℕ Empty ChildPc InternalGuard bounded) : Prop :=
  s.state.result = some .pending → ∀ set, s.state.shared = some set →
    set.childrenRemaining ≠ 0 ∨ 0 < weight WorkerPc.waking s.workers ∨
      s.state.polls ∈ set.waker.woken

theorem Wakes.act (hs : Wakes s) (hg : Listens s.state) {w f : ℕ} {p p' : ChildPc}
    {st : InternalGuard} (hw : s.workers[w]? = some (.polling f p)) (ha : Acts s.state p st p') :
    Wakes ((s.setState st).setWorker w (.polling f p')) := by
  have hset := weight_set (w := WorkerPc.waking) (.polling f p') hw
  intro hres set hshared
  cases ha with
  | @complete k c set' hc hshared' =>
      cases hshared
      by_cases hone : set'.childrenRemaining = 1
      · refine .inr (.inl ?_)
        simp only [hone, if_true, WorkerPc.waking] at hset
        simp only [hone, if_true, Bin.setWorker, Bin.setState]
        omega
      · rcases hs hres set' hshared' with hne | hpos | hwoken
        · left
          intro hz
          apply hone
          rw [← UInt32.sub_add_cancel set'.childrenRemaining 1]
          exact congrArg (· + 1) hz
        · refine .inr (.inl ?_)
          simp only [hone, if_false, WorkerPc.waking] at hset
          simp only [hone, if_false, Bin.setWorker, Bin.setState]
          omega
        · exact .inr (.inr hwoken)
  | @wake k set' hshared' =>
      cases hshared
      exact .inr (.inr (hg.reaches (.inr (.inr (.inr hres))) set' hshared').wake)
  | done hc | panicked =>
      refine (hs hres set hshared).imp_right (Or.imp_left fun hpos => ?_)
      simp only [WorkerPc.waking] at hset
      simp only [Bin.setWorker, Bin.setState]
      omega

theorem wakes_poll (hg : Listens s.state) (hp : Polls tasks s.state g m) (ht : t.state = g) :
    Wakes t := by
  intro hres set hshared
  rw [ht] at hres hshared
  cases hp with
  | first | again | ready => cases hres
  | pending hpc hdone =>
      left
      intro hz
      have hshared : s.state.shared = some set := hshared
      simp [allDone, hshared, hz] at hdone
  | spawn hpc | spawned hpc | loadFailed hpc | register hpc =>
      have hnone := hg.result_eq_none (by simp [hpc])
      have hres : s.state.result = some .pending := hres
      rw [hnone] at hres
      cases hres

theorem wakes_of_run (hr : (Bin.system (client tasks) bounded).Run WakerUnused h s) :
    Wakes s := by
  refine hr.induct (P := fun _ s => Wakes s) (fun hres => by cases hres) ?_
  intro h s a t hr hs hok hst
  have hg := listens_of_run hr
  have he := Bin.effect_of_step hst
  have hle := waking_le he
  have hframe : t.state = s.state → weight WorkerPc.waking s.workers ≤
      weight WorkerPc.waking t.workers → Wakes t := by
    intro hstate hle hres set hshared
    rw [hstate] at hres hshared
    rw [hstate]
    exact (hs hres set hshared).imp_right (Or.imp_left hle.trans_lt')
  cases he with
  | actPoll hw ha => exact hs.act hg hw (acts_of_act ha)
  | actJob hw ha =>
      exact ((childInv_of_run (quiet_of_wakerUnused hr)).workers _ (List.mem_of_getElem? hw)).elim
  | wakeInPoll | wakeInPollFailed | cloneInPoll => exact hok.elim
  | owner ho | spawnFuture ho => exact wakes_poll hg (polls_of_owner ho) rfl
  | spawnFailed ho =>
      cases polls_of_owner ho with
      | spawn hpc =>
          intro hres
          have hnone := hg.result_eq_none (by simp [hpc])
          have hres : s.state.result = some .pending := hres
          rw [hnone] at hres
          cases hres
  | @spawnJob o st j => exact j.elim
  | _ => exact hframe rfl (hle nofun nofun)

/-- Every child has polled its inner future and decremented, and no wake is still to come. -/
def Finished (s : Bin ℕ Empty ChildPc InternalGuard bounded) : Prop :=
  s.state.unfinished = 0 ∧ ∀ k, ¬ s.Running (.wake k)

/-- In every continuation the next poll returns `Ready`: it has returned that, or it is before its
first load, which finds the counter at zero. -/
def NextReady (tasks : ℕ) (s : Bin ℕ Empty ChildPc InternalGuard bounded) : Prop :=
  ∀ (tr : List (BinLabel ChildAction ScopedStep)) (t : Bin ℕ Empty ChildPc InternalGuard bounded),
    (Bin.system (client tasks) bounded).Path WakerUnused s tr t →
    t.state.polls = s.state.polls + 1 →
    t.state.result = some .ready ∨ (t.state.pc = .load ∧
      ∃ u, t.step (client tasks) (.owner .load) = some u ∧ u.state.result = some .ready)

/-- A pending guard whose children have all finished has had its last waker woken, and its next
poll is ready. -/
structure NoLostWakeup (tasks : ℕ) (s : Bin ℕ Empty ChildPc InternalGuard bounded) : Prop where
  woken : s.state.result = some .pending → Finished s →
    ∃ set, s.state.shared = some set ∧ s.state.polls ∈ set.waker.woken
  next : s.state.result = some .pending → Finished s →
    (s.step (client tasks) (.owner .poll)).isSome ∧ NextReady tasks s

theorem Acts.unfinished_le {p p' : ChildPc} (ha : Acts g p g' p') :
    g'.unfinished ≤ g.unfinished := by
  cases ha with
  | @complete k c set hc hset =>
      have hw := weight_set (w := Child.unfinished) { c with completed := true } hc
      simp only [Child.unfinished, if_true] at hw
      simp only [unfinished]
      omega
  | wake | panicked => exact le_rfl
  | @done k c hc =>
      have hw := weight_set (w := Child.unfinished) { c with done := true } hc
      simp only [Child.unfinished] at hw
      simp only [unfinished]
      omega

/-- Where a guard is whose children have all finished when its poll number `n` was pending. -/
structure Settled (n : ℕ) (g : InternalGuard) : Prop where
  unfinished : g.unfinished = 0
  shared : g.shared ≠ none
  state : g.state ≠ .notSpawned
  phase : (g.polls = n ∧ g.pc = .idle ∧ g.state = .spawned) ∨
    (g.polls = n + 1 ∧ g.pc = .load) ∨
    (g.polls = n + 1 ∧ g.pc = .idle ∧ g.result = some .ready) ∨ n + 1 < g.polls

theorem Settled.act {n : ℕ} (hg : Settled n g) {p p' : ChildPc} (ha : Acts g p g' p') :
    Settled n g' := by
  have hle := ha.unfinished_le
  have hz : g'.unfinished = 0 := by
    have hz := hg.unfinished
    omega
  cases ha with
  | complete | wake => exact ⟨hz, nofun, hg.state, hg.phase⟩
  | done | panicked => exact ⟨hz, hg.shared, hg.state, hg.phase⟩

theorem Settled.poll {n : ℕ} (hg : Settled n g) (hdone : g.allDone = true)
    (hp : Polls tasks g g' m) : Settled n g' := by
  cases hp with
  | first hstate => exact absurd hstate hg.state
  | again hpc hstate hload =>
      refine ⟨hg.unfinished, hg.shared, nofun, ?_⟩
      rcases hg.phase with ⟨hn, -, hs⟩ | ⟨hn, -⟩ | ⟨hn, -⟩ | hlt
      · exact .inr (.inl ⟨congrArg (· + 1) hn, hload hs⟩)
      · exact .inr (.inr (.inr (by dsimp only; omega)))
      · exact .inr (.inr (.inr (by dsimp only; omega)))
      · exact .inr (.inr (.inr (by dsimp only; omega)))
  | spawn hpc | spawned hpc =>
      refine ⟨hg.unfinished, hg.shared, hg.state, ?_⟩
      simpa [hpc] using hg.phase
  | loadFailed hpc hfail | pending hpc hfail =>
      rw [hdone] at hfail
      cases hfail
  | register hpc =>
      refine ⟨hg.unfinished, by simpa using hg.shared, hg.state, ?_⟩
      simpa [hpc] using hg.phase
  | ready _ hpc =>
      refine ⟨hg.unfinished, hg.shared, nofun, ?_⟩
      rcases hg.phase with ⟨-, hidle, -⟩ | ⟨hn, -⟩ | ⟨-, hidle, -⟩ | hlt
      · exact absurd hidle hpc
      · exact .inr (.inr (.inl ⟨hn, rfl, rfl⟩))
      · exact absurd hidle hpc
      · exact .inr (.inr (.inr hlt))

/-- A counter that counts no unfinished child is at zero. -/
theorem CompletionInv.allDone (hg : CompletionInv tasks g) (hz : g.unfinished = 0)
    (hs : g.shared ≠ none) : g.allDone = true := by
  obtain ⟨set, hset⟩ := Option.ne_none_iff_exists'.mp hs
  have hrem := hg.remaining set hset
  have hzero : set.childrenRemaining = 0 := UInt32.toNat_inj.mp (hrem.trans hz)
  simp [InternalGuard.allDone, hset, hzero]

theorem Settled.path {n : ℕ} (hr : (Bin.system (client tasks) bounded).Run WakerUnused h s)
    (hs : Settled n s.state) {tr : List (BinLabel ChildAction ScopedStep)}
    (hp : (Bin.system (client tasks) bounded).Path WakerUnused s tr t) : Settled n t.state := by
  refine hp.induct (P := fun _ t => Settled n t.state) hs ?_
  intro tr t a u hp ht _ hst
  have hc := completionInv_of_run (quiet_of_wakerUnused (hr.trans hp))
  have hdone := hc.allDone ht.unfinished ht.shared
  cases Bin.effect_of_step hst with
  | actPoll hw ha | actJob hw ha => exact ht.act (acts_of_act ha)
  | owner ho | spawnFuture ho => exact ht.poll hdone (polls_of_owner ho)
  | spawnFailed ho =>
      cases polls_of_owner ho with
      | spawn hpc =>
          have hlt : n + 1 < t.state.polls := by simpa [hpc] using ht.phase
          exact ⟨ht.unfinished, ht.shared, ht.state, .inr (.inr (.inr hlt))⟩
  | @spawnJob o st j => exact j.elim
  | _ => exact ht

theorem settled_of_pending (hg : Listens s.state) (hres : s.state.result = some .pending)
    (hfin : Finished s) : Settled s.state.polls s.state := by
  have hstate := hg.pending hres
  refine ⟨hfin.1, hg.shared (.inl hstate), by simp [hstate], .inl ⟨rfl, ?_, hstate⟩⟩
  apply hg.returned
  simp [hres]

theorem nextReady_of_run (hr : (Bin.system (client tasks) bounded).Run WakerUnused h s)
    (hres : s.state.result = some .pending) (hfin : Finished s) : NextReady tasks s := by
  intro tr t hp hpolls
  have ht := Settled.path hr (settled_of_pending (listens_of_run hr) hres hfin) hp
  have hc := completionInv_of_run (quiet_of_wakerUnused (hr.trans hp))
  have hdone := hc.allDone ht.unfinished ht.shared
  rcases ht.phase with ⟨hn, -⟩ | ⟨-, hpc⟩ | ⟨-, -, hready⟩ | hlt
  · omega
  · right
    refine ⟨hpc, t.setState (t.state.finish .ready), ?_, rfl⟩
    simp [Bin.step, pollStep, hpc, hdone]
  · exact .inl hready
  · omega

/-- The guard of a scoped set loses no wakeup. -/
theorem noLostWakeup_of_run (hr : (Bin.system (client tasks) bounded).Run WakerUnused h s) :
    NoLostWakeup tasks s := by
  have hg := listens_of_run hr
  constructor
  · intro hres hfin
    obtain ⟨set, hset⟩ := Option.ne_none_iff_exists'.mp (hg.shared (.inl (hg.pending hres)))
    refine ⟨set, hset, ?_⟩
    have hrem := (completionInv_of_run (quiet_of_wakerUnused hr)).remaining set hset
    rcases wakes_of_run hr hres set hset with hne | hpos | hwoken
    · have hz : set.childrenRemaining = 0 := UInt32.toNat_inj.mp (hrem.trans hfin.1)
      exact absurd hz hne
    · obtain ⟨w, pc, hw, hpc⟩ := exists_of_weight_pos hpos
      unfold WorkerPc.waking at hpc
      split at hpc
      · exact absurd (.inr ⟨_, List.mem_of_getElem? hw⟩) (hfin.2 _)
      · omega
    · exact hwoken
  · intro hres hfin
    refine ⟨?_, nextReady_of_run hr hres hfin⟩
    have hstate := hg.pending hres
    have hpc : s.state.pc = .idle := by
      apply hg.returned
      simp [hres]
    simp [Bin.step, pollStep, hpc, hstate]

/-- The second child decrements after the load of the first poll and wakes. -/
def finishAfterLoad : List (BinLabel ChildAction ScopedStep) :=
  [.owner .poll, .owner .next, .owner .next, .owner .next, .startWorker, .work 0 (.recv 1),
    .work 0 (.poll 0), .work 0 (.act .complete), .work 0 (.act .assertDone), .work 0 (.ready 0),
    .work 0 .unlock, .work 0 .dropWaker, .owner .load, .work 0 (.recv 1), .work 0 (.poll 1),
    .work 0 (.act .complete), .work 0 (.act .wake), .work 0 (.act .assertDone)]

theorem noLostWakeup_finishAfterLoad :
    NoLostWakeup 2 (⟨[.empty, .empty], [⟨0, false, 0, 0, true⟩, ⟨1, true, 1, 0, false⟩],
      [.polling 1 (.ready 1)], ⟨.spawned, .idle, 1, some .pending, some ⟨0, ⟨none, [1]⟩⟩,
        [⟨true, true⟩, ⟨true, true⟩]⟩⟩ : Bin ℕ Empty ChildPc InternalGuard 1000000) :=
  noLostWakeup_of_run (Lts.path_of_exec finishAfterLoad (by decide))

end InternalGuard
end Kiruna.Tpc

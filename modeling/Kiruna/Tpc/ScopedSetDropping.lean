import Kiruna.Tpc.ReferenceCounting
import Kiruna.Tpc.ScopedSet

/-!
# When the futures of a scoped set are dropped

The last reference to a future destroys it. A child takes itself off the counter inside its poll,
while its worker holds it: the guard may return `Ready` before the future is dropped.
-/

namespace Kiruna.Tpc

namespace InternalGuard

open Bin (Counted counted_of_run)
open Lts (Free)

variable {tasks bounded : ℕ} {g g' : InternalGuard} {m : Option (ℕ ⊕ Empty)}
  {s t : Bin ℕ Empty ChildPc InternalGuard bounded} {a : BinLabel ChildAction ScopedStep}
  {h : List (BinLabel ChildAction ScopedStep)}

/-- The last reference to every child has been dropped when the guard finds the counter at zero. -/
def ReadyAfterDrop (s : Bin ℕ Empty ChildPc InternalGuard bounded) :
    BinLabel ChildAction ScopedStep → Prop
  | .owner .load => s.state.allDone = true → ∀ u ∈ s.futures, u.strong = 0
  | _ => True

instance : ∀ (s : Bin ℕ Empty ChildPc InternalGuard bounded)
    (a : BinLabel ChildAction ScopedStep), Decidable (ReadyAfterDrop s a)
  | s, .owner .load =>
      inferInstanceAs (Decidable (s.state.allDone = true → ∀ u ∈ s.futures, u.strong = 0))
  | _, .owner .poll | _, .owner .next | _, .owner .register | _, .startWorker | _, .work _ _
  | _, .clone _ | _, .wake _ | _, .wakeByRef _ | _, .drop _ | _, .sendIdle => isTrue trivial

/-- The step begins a poll of the inner future of a child, or is a step inside one. -/
def PollsInner (s : Bin ℕ Empty ChildPc InternalGuard bounded) (f : ℕ) :
    BinLabel ChildAction ScopedStep → Prop
  | .work w e => e = .poll f ∨ ∃ k, s.workers[w]? = some (.polling f (.inner k))
  | _ => False

/-- The step drops the last reference to a child. -/
def Destroys (s t : Bin ℕ Empty ChildPc InternalGuard bounded) (f : ℕ) : Prop :=
  0 < s.strongAt f ∧ t.strongAt f = 0

/-- After a poll of the guard has returned `Ready`, no step polls or destroys an inner future. -/
def SafeAfterReady (tasks : ℕ) (s : Bin ℕ Empty ChildPc InternalGuard bounded) : Prop :=
  s.state.result = some .ready →
    ∀ (tr : List (BinLabel ChildAction ScopedStep))
      (t u : Bin ℕ Empty ChildPc InternalGuard bounded) (a : BinLabel ChildAction ScopedStep),
      (Bin.system (client tasks) bounded).Path Free s tr t → t.step (client tasks) a = some u →
        ∀ f, ¬ PollsInner t f a ∧ ¬ Destroys t u f

/-- Every child is destroyed, and the guard spawns no more. -/
structure Over (s : Bin ℕ Empty ChildPc InternalGuard bounded) : Prop where
  dropped : ∀ f, s.strongAt f = 0
  state : s.state.state = .done ∨ s.state.state = .invalid
  pc : s.state.pc = .idle ∨ s.state.pc = .panicked

theorem Over.owns_eq_zero (hs : Over s) (hc : Counted s) {w : ℕ} {pc : WorkerPc ChildPc}
    (hw : s.workers[w]? = some pc) (f : ℕ) : pc.owns f = 0 := by
  have hcount := hc f
  have hdropped := hs.dropped f
  have hle := Bin.owns_le_held (f := f) hw
  omega

theorem Over.wakers_eq_zero (hs : Over s) (hc : Counted s) {f : ℕ} {u : OurFuture ℕ}
    (hf : s.futures[f]? = some u) : u.wakers = 0 := by
  have hcount := hc.strong_eq hf
  have hdropped := hs.dropped f
  rw [Bin.strongAt, hf, Option.elim_some] at hdropped
  omega

/-- A step that keeps the futures and does not get the guard to work again. -/
theorem Over.frame (hs : Over s) (hfutures : t.futures = s.futures)
    (hstate : t.state.state = .done ∨ t.state.state = .invalid)
    (hpc : t.state.pc = .idle ∨ t.state.pc = .panicked) : Over t := by
  refine ⟨fun f => ?_, hstate, hpc⟩
  rw [Bin.strongAt, hfutures]
  exact hs.dropped f

/-- A guard that is done panics when it is polled. -/
theorem Polls.over (hp : Polls tasks g g' m) (hstate : g.state = .done ∨ g.state = .invalid)
    (hpc : g.pc = .idle ∨ g.pc = .panicked) :
    m = none ∧ (g'.state = .done ∨ g'.state = .invalid) ∧ (g'.pc = .idle ∨ g'.pc = .panicked) := by
  cases hp with
  | first hnew => simp [hnew] at hstate
  | again hload hspawned =>
      rcases hload with rfl | rfl
      · simp [hspawned rfl] at hstate
      · exact ⟨rfl, .inr rfl, .inr rfl⟩
  | ready => exact ⟨rfl, .inl rfl, .inl rfl⟩
  | pending hload => rcases hload with hload | hload <;> simp [hload] at hpc
  | spawn hload | spawned hload | loadFailed hload | register hload => simp [hload] at hpc

theorem Over.effect (hs : Over s) (hc : Counted s) (he : Bin.Effect (client tasks) s a t) :
    Over t := by
  have howns : ∀ {w f : ℕ} {pc : WorkerPc ChildPc}, s.workers[w]? = some pc → pc.owns f ≠ 1 :=
    fun hw => by simp [hs.owns_eq_zero hc hw]
  cases he with
  | poll hw | contend hw | retry hw | retryFailed hw | actPoll hw | wakeInPoll hw
  | wakeInPollFailed hw | cloneInPoll hw | ready hw | pending hw | panickedInPoll hw | unlock hw
  | dropWaker hw | unwind hw => exact absurd (if_pos rfl) (howns hw)
  | clone hf hn | wake hf hn | wakeFailed hf hn | wakeByRef hf hn | wakeByRefFailed hf hn
  | drop hf hn => exact absurd (hs.wakers_eq_zero hc hf) hn
  | actJob hw ha =>
      have hkeep := acts_of_act ha
      cases hkeep <;> exact hs.frame rfl hs.state hs.pc
  | owner ho =>
      obtain ⟨-, hstate, hpc⟩ := (polls_of_owner ho).over hs.state hs.pc
      exact hs.frame rfl hstate hpc
  | spawnFuture ho | spawnJob ho | spawnFailed ho =>
      obtain ⟨hnone, -, -⟩ := (polls_of_owner ho).over hs.state hs.pc
      cases hnone
  | _ => exact hs.frame rfl hs.state hs.pc

/-- A poll returns `Ready` in a load that finds the counter at zero. -/
theorem load_of_ready {o : ScopedStep} (ho : (client tasks).owner g o = some (g', m))
    (hold : g.result ≠ some .ready) (hnew : g'.result = some .ready) :
    o = .load ∧ g.allDone = true := by
  cases o with
  | load =>
      refine ⟨rfl, ?_⟩
      cases polls_of_owner ho with
      | first | again | pending => cases hnew
      | ready hdone => exact hdone
      | spawn | spawned | loadFailed | register => exact absurd hnew hold
  | poll =>
      change pollStep tasks g .poll = some (g', m) at ho
      simp only [pollStep] at ho
      split at ho
      · split at ho
        · split at ho <;> cases ho <;> cases hnew
        all_goals
          cases ho
          cases hnew
      · cases ho
  | next =>
      change pollStep tasks g .next = some (g', m) at ho
      simp only [pollStep] at ho
      split at ho
      · split at ho <;> cases ho <;> exact absurd hnew hold
      · cases ho
  | register =>
      change pollStep tasks g .register = some (g', m) at ho
      simp only [pollStep] at ho
      split at ho <;> cases ho
      exact absurd hnew hold

/-- The guard that has just returned `Ready` is done. -/
theorem Polls.over_of_ready (hp : Polls tasks g g' m) (hold : g.result ≠ some .ready)
    (hnew : g'.result = some .ready) : m = none ∧ g'.state = .done ∧ g'.pc = .idle := by
  cases hp with
  | first | again | pending => cases hnew
  | ready => exact ⟨rfl, rfl, rfl⟩
  | spawn | spawned | loadFailed | register => exact absurd hnew hold

/-- Under the condition every child is destroyed before the guard returns `Ready`. -/
theorem over_of_run (hr : (Bin.system (client tasks) bounded).Run ReadyAfterDrop h s)
    (hready : s.state.result = some .ready) : Over s := by
  revert hready
  refine hr.induct (P := fun _ s => s.state.result = some .ready → Over s)
    (fun hready => by cases hready) ?_
  intro h s a t hs ih hok hst hready
  have he := Bin.effect_of_step hst
  by_cases hold : s.state.result = some .ready
  · exact (ih hold).effect (counted_of_run hs) he
  · cases he with
    | owner ho =>
        obtain ⟨rfl, hdone⟩ := load_of_ready ho hold hready
        obtain ⟨-, hstate, hpc⟩ := (polls_of_owner ho).over_of_ready hold hready
        refine ⟨fun f => ?_, .inl hstate, .inl hpc⟩
        have hdropped := hok hdone
        change s.strongAt f = 0
        cases hf : s.futures[f]? with
        | none => rw [Bin.strongAt, hf, Option.elim_none]
        | some u =>
            rw [Bin.strongAt, hf, Option.elim_some]
            exact hdropped u (List.mem_of_getElem? hf)
    | actPoll hw ha | actJob hw ha => cases acts_of_act ha <;> exact absurd hready hold
    | spawnFuture ho | spawnJob ho =>
        obtain ⟨hnone, -, -⟩ := (polls_of_owner ho).over_of_ready hold hready
        cases hnone
    | spawnFailed ho =>
        obtain ⟨hnone, -, -⟩ := (polls_of_owner ho).over_of_ready hold hready
        cases hnone
    | _ => exact absurd hready hold

/-- The condition keeps the children out of reach after `Ready`, whatever happens then. -/
theorem safeAfterReady_of_run (hr : (Bin.system (client tasks) bounded).Run ReadyAfterDrop h s) :
    SafeAfterReady tasks s := by
  intro hready tr t u a hp hst f
  have hover : Over t ∧ Counted t := by
    refine hp.invariant (P := fun t => Over t ∧ Counted t) ?_
      ⟨over_of_run hr hready, counted_of_run hr⟩
    intro t a u ⟨ht, hc⟩ _ hst
    have he := Bin.effect_of_step hst
    exact ⟨ht.effect hc he, hc.effect he⟩
  obtain ⟨ht, hc⟩ := hover
  constructor
  · intro hpoll
    cases a with
    | work w e =>
        rcases hpoll with rfl | ⟨k, hw⟩
        · have he : Bin.Effect (client tasks) t (.work w (.poll f)) u := Bin.effect_of_step hst
          cases he with
          | poll hw =>
              have hone := ht.owns_eq_zero hc hw f
              simp [WorkerPc.owns] at hone
        · have hone := ht.owns_eq_zero hc hw f
          simp [WorkerPc.owns] at hone
    | _ => exact hpoll
  · intro hd
    have hzero := ht.dropped f
    exact absurd hd.1 (by omega)

/-- The worker stands before the assertion of `Child::poll` when the guard loads the counter. -/
def loadInPoll : List (BinLabel ChildAction ScopedStep) :=
  [.owner .poll, .owner .next, .owner .next, .startWorker, .work 0 (.recv 1), .work 0 (.poll 0),
    .work 0 (.act .complete), .work 0 (.act .wake), .owner .load]

/-- The rest of the poll, up to the drop of the waker. -/
def leavePoll : List (BinLabel ChildAction ScopedStep) :=
  [.work 0 (.act .assertDone), .work 0 (.ready 0), .work 0 .unlock]

theorem exists_destroyed_after_ready :
    ¬ ∀ s, (Bin.system (client 1) 1000000).Reachable s → SafeAfterReady 1 s := by
  intro hall
  have hready : (Bin.system (client 1) 1000000).exec Free (Bin.new (client 1) 1000000)
      loadInPoll = some ⟨[.empty, .empty], [⟨0, true, 1, 0, false⟩],
        [.polling 0 (.assertDone 0)], ⟨.done, .idle, 1, some .ready, some ⟨0, ⟨none, [1]⟩⟩,
          [⟨true, false⟩]⟩⟩ := by
    decide
  obtain ⟨t, hleave, u, hdrop, hone, hzero⟩ : ∃ t, (Bin.system (client 1) 1000000).exec Free
      ⟨[.empty, .empty], [⟨0, true, 1, 0, false⟩], [.polling 0 (.assertDone 0)],
        ⟨.done, .idle, 1, some .ready, some ⟨0, ⟨none, [1]⟩⟩, [⟨true, false⟩]⟩⟩ leavePoll = some t ∧
      ∃ u, t.step (client 1) (.work 0 .dropWaker) = some u ∧ 0 < t.strongAt 0 ∧
        u.strongAt 0 = 0 := by
    exact ⟨_, rfl, _, rfl, by decide, by decide⟩
  have hsafe := hall _ (Lts.path_of_exec _ hready).reachable rfl
  exact (hsafe _ _ _ _ (Lts.path_of_exec _ hleave) hdrop 0).2 ⟨hone, hzero⟩

/-- The worker drops its waker before the guard is polled again. -/
def loadAfterDrop : List (BinLabel ChildAction ScopedStep) :=
  [.owner .poll, .owner .next, .owner .next, .owner .load, .startWorker, .work 0 (.recv 1),
    .work 0 (.poll 0), .work 0 (.act .complete), .work 0 (.act .wake), .work 0 (.act .assertDone),
    .work 0 (.ready 0), .work 0 .unlock, .work 0 .dropWaker, .owner .poll, .owner .load]

theorem safeAfterReady_loadAfterDrop :
    SafeAfterReady 1 (⟨[.empty, .empty], [⟨0, false, 0, 0, true⟩], [.recv],
      ⟨.done, .idle, 2, some .ready, some ⟨0, ⟨none, [1]⟩⟩, [⟨true, true⟩]⟩⟩ :
      Bin ℕ Empty ChildPc InternalGuard 1000000) :=
  safeAfterReady_of_run (Lts.path_of_exec loadAfterDrop (by decide))

end InternalGuard
end Kiruna.Tpc

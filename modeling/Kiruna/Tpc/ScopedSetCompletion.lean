import Kiruna.Tpc.BinPolling
import Kiruna.Tpc.Conservation
import Kiruna.Tpc.ScopedSet

/-!
# When a scoped set has completed

The counter of the guard goes down once for each call of `Child::poll`, not once for each child, so
it counts the unfinished children as long as no child is polled again after it is done. That is
what the bin owes its futures in a quiet run and breaks in others: a child that wakes itself by
reference is polled twice, and with two children the guard is ready before the second has run.
-/

namespace Kiruna.Tpc

open Lts (Free)

def Child.unfinished (c : Child) : ℕ := if c.completed then 0 else 1

namespace InternalGuard

open Bin (Exclusive Done Quiet exclusive_of_run done_of_run)

/-- The inner future of the child has returned `Ready`. -/
def isCompleted (g : InternalGuard) (k : ℕ) : Bool := g.children[k]?.any Child.completed

/-- The number of children whose inner future has not completed. -/
def unfinished (g : InternalGuard) : ℕ := weight Child.unfinished g.children

variable {tasks bounded : ℕ} {g g' : InternalGuard} {m : Option (ℕ ⊕ Empty)}
  {s t : Bin ℕ Empty ChildPc InternalGuard bounded} {a : BinLabel ChildAction ScopedStep}
  {h : List (BinLabel ChildAction ScopedStep)}
  {ok : Bin ℕ Empty ChildPc InternalGuard bounded → BinLabel ChildAction ScopedStep → Prop}

theorem isCompleted_replicate (n k : ℕ) :
    (List.replicate n (⟨false, false⟩ : Child))[k]?.any Child.completed = false := by
  rw [List.getElem?_replicate]
  split_ifs <;> rfl

theorem unfinished_replicate (n : ℕ) :
    weight Child.unfinished (List.replicate n ⟨false, false⟩) = n := by
  simp [weight, Child.unfinished]

/-- A poll of the guard completes no child. -/
theorem Polls.isCompleted (hp : Polls tasks g g' m) (j : ℕ) (hj : g.isCompleted j = false) :
    g'.isCompleted j = false := by
  cases hp with
  | first => exact isCompleted_replicate tasks j
  | _ => exact hj

/-- The futures of the bin are the children in their order, and the loop of the guard spawns the
next one. -/
structure Numbered (s : Bin ℕ Empty ChildPc InternalGuard bounded) : Prop where
  underlying : s.futures.map OurFuture.underlying = List.range s.futures.length
  spawning : ∀ k, s.state.pc = .spawning k →
    s.state.state ≠ .notSpawned ∧ s.futures.length = k
  fresh : s.state.state = .notSpawned → s.futures.length = 0

theorem Numbered.frame (hs : Numbered s)
    (hf : t.futures.map OurFuture.underlying = s.futures.map OurFuture.underlying)
    (hpc : ∀ k, t.state.pc = .spawning k →
      t.state.state ≠ .notSpawned ∧ s.futures.length = k)
    (hstate : t.state.state = .notSpawned → s.futures.length = 0) : Numbered t := by
  have hlen : t.futures.length = s.futures.length := by
    have hmap := congrArg List.length hf
    rwa [List.length_map, List.length_map] at hmap
  exact ⟨hf.trans (hlen ▸ hs.underlying), fun k hk => ⟨(hpc k hk).1, hlen.trans (hpc k hk).2⟩,
    fun hz => hlen.trans (hstate hz)⟩

theorem Numbered.effect (hs : Numbered s) (he : Bin.Effect (client tasks) s a t) :
    Numbered t := by
  cases he with
  | poll hw hf | retry hw hf | wakeInPoll hw hf | cloneInPoll hw hf | ready hw hf | unlock hw hf
  | dropWaker hw hf | unwind hw hf | clone hf | wake hf | wakeFailed hf | wakeByRef hf
  | drop hf => exact hs.frame (map_set_of_eq hf rfl) hs.spawning hs.fresh
  | actPoll hw ha | actJob hw ha =>
      cases acts_of_act ha <;> exact hs.frame rfl hs.spawning hs.fresh
  | owner ho =>
      cases polls_of_owner ho with
      | first hstate hlt =>
          refine hs.frame rfl (fun k hk => ⟨nofun, ?_⟩) nofun
          cases hk
          exact hs.fresh hstate
      | again hpc =>
          refine hs.frame rfl (fun k hk => ?_) nofun
          rcases hpc with rfl | rfl <;> cases hk
      | spawned | loadFailed | register => exact hs.frame rfl nofun hs.fresh
      | ready | pending => exact hs.frame rfl nofun nofun
  | spawnFuture ho hc =>
      cases polls_of_owner ho with
      | spawn hpc =>
          obtain ⟨hstate, hlen⟩ := hs.spawning _ hpc
          refine ⟨?_, ?_, fun hz => absurd hz hstate⟩
          · change (s.futures ++ [_]).map _ = List.range (s.futures ++ [_]).length
            rw [List.map_append, hs.underlying, List.length_append, List.length_singleton,
              List.range_succ, hlen]
            rfl
          · intro j hj
            cases hj
            exact ⟨hstate, List.length_append.trans (congrArg (· + 1) hlen)⟩
  | spawnFailed ho =>
      cases polls_of_owner ho with
      | spawn hpc => exact hs.frame rfl nofun hs.fresh
  | @spawnJob o st j => exact j.elim
  | _ => exact hs.frame rfl hs.spawning hs.fresh

theorem numbered_of_run (hr : (Bin.system (client tasks) bounded).Run ok h s) : Numbered s := by
  refine hr.invariant (fun _ _ _ hs _ hst => hs.effect (Bin.effect_of_step hst)) ⟨rfl, ?_, ?_⟩
  · simp [Bin.system, Bin.new, new]
  · simp [Bin.system, Bin.new]

theorem Numbered.underlying_eq (hs : Numbered s) {f : ℕ} {u : OurFuture ℕ}
    (hf : s.futures[f]? = some u) : u.underlying = f := by
  have hlt := (List.getElem?_eq_some_iff.mp hf).1
  have hmap := congrArg (fun l : List ℕ => l[f]?) hs.underlying
  simp only [List.getElem?_map, hf, List.getElem?_range hlt, Option.map_some] at hmap
  exact Option.some.inj hmap

/-- What a worker knows of the child it is with. No worker runs a job. -/
def Knows (s : Bin ℕ Empty ChildPc InternalGuard bounded) : WorkerPc ChildPc → Prop
  | .polling f (.inner k) => k = f ∧ s.state.isCompleted f = false
  | .unlock f => s.completedAt f = true
  | .job _ => False
  | _ => True

/-- The children whose future is neither completed nor locked are unfinished. -/
structure ChildInv (s : Bin ℕ Empty ChildPc InternalGuard bounded) : Prop where
  workers : ∀ pc ∈ s.workers, Knows s pc
  idle : ∀ f, s.completedAt f = false → s.lockedAt f = false → s.state.isCompleted f = false

theorem Knows.frame {pc : WorkerPc ChildPc} (hk : Knows s pc)
    (hstate : ∀ f, s.state.isCompleted f = false → t.state.isCompleted f = false)
    (hc : ∀ f, s.completedAt f = true → t.completedAt f = true) : Knows t pc := by
  unfold Knows at *
  split
  · exact ⟨hk.1, hstate _ hk.2⟩
  · exact hc _ hk
  · exact hk
  · trivial

theorem ChildInv.frame (hs : ChildInv s)
    (hstate : ∀ f, s.state.isCompleted f = false → t.state.isCompleted f = false)
    (hc : ∀ f, s.completedAt f = true → t.completedAt f = true)
    (hworkers : ∀ pc ∈ t.workers, pc ∈ s.workers ∨ Knows t pc)
    (hl : ∀ f, t.completedAt f = false → t.lockedAt f = false → s.lockedAt f = false) :
    ChildInv t where
  workers := by
    intro pc hpc
    rcases hworkers pc hpc with hold | hnew
    · exact (hs.workers pc hold).frame hstate hc
    · exact hnew
  idle := by
    intro f hcf hlf
    refine hstate f (hs.idle f ?_ (hl f hcf hlf))
    rw [← Bool.not_eq_true] at hcf ⊢
    exact mt (hc f) hcf

/-- No worker moves. -/
theorem ChildInv.stay (hs : ChildInv s) (hworkers : t.workers = s.workers)
    (hstate : ∀ f, s.state.isCompleted f = false → t.state.isCompleted f = false)
    (hc : ∀ f, t.completedAt f = s.completedAt f) (hl : ∀ f, t.lockedAt f = s.lockedAt f) :
    ChildInv t :=
  hs.frame hstate (fun f hcf => (hc f).trans hcf) (fun _ hpc => .inl (hworkers ▸ hpc))
    fun f _ hlf => (hl f).symm.trans hlf

theorem ChildInv.move (hs : ChildInv s) {w : ℕ} {pc : WorkerPc ChildPc}
    (hworkers : t.workers = s.workers.set w pc) (hpc : Knows t pc)
    (hstate : ∀ f, s.state.isCompleted f = false → t.state.isCompleted f = false)
    (hc : ∀ f, t.completedAt f = s.completedAt f) (hl : ∀ f, t.lockedAt f = s.lockedAt f) :
    ChildInv t := by
  refine hs.frame hstate (fun f hcf => (hc f).trans hcf) (fun pc' hpc' => ?_)
    fun f _ hlf => (hl f).symm.trans hlf
  rw [hworkers] at hpc'
  exact (List.mem_or_eq_of_mem_set hpc').imp_right (by rintro rfl; exact hpc)

/-- A child is completed by the only worker that is with its future. -/
theorem ChildInv.complete (hs : ChildInv s) (hx : Bin.Exclusive s) {w f k : ℕ}
    {pc : WorkerPc ChildPc} {st : InternalGuard}
    (hw : s.workers[w]? = some (.polling f (.inner k)))
    (hst : ∀ j, st.isCompleted j = if j = k then true else s.state.isCompleted j)
    (hpc : ∀ t : Bin ℕ Empty ChildPc InternalGuard bounded, Knows t pc) :
    ChildInv ((s.setState st).setWorker w pc) := by
  obtain ⟨rfl, hk⟩ := hs.workers _ (List.mem_of_getElem? hw)
  have hone := hx.le_one k
  refine ⟨fun pc' hpc' => ?_, fun g hcg hlg => ?_⟩
  · obtain ⟨i, hi⟩ := List.mem_iff_getElem?.mp hpc'
    rcases getElem?_set_cases hi with ⟨-, rfl⟩ | ⟨hne, hi⟩
    · exact hpc _
    · have hold := hs.workers _ (List.mem_of_getElem? hi)
      cases pc' with
      | polling f p =>
          cases p with
          | inner j =>
              refine ⟨hold.1, ?_⟩
              change st.isCompleted f = false
              rw [hst, if_neg]
              · exact hold.2
              · rintro rfl
                exact hne (eq_of_weight_le_one hone hi hw (by simp [WorkerPc.inside])
                  (by simp [WorkerPc.inside]))
          | _ => trivial
      | unlock f => exact hold
      | job p => exact hold
      | _ => trivial
  · have hin := (le_weight (w := WorkerPc.inside k) hw).trans (hx k)
    change st.isCompleted g = false
    rw [hst, if_neg]
    · exact hs.idle g hcg hlg
    · rintro rfl
      change s.lockedAt g = false at hlg
      rw [hlg] at hin
      simp [WorkerPc.inside] at hin

theorem ChildInv.act (hs : ChildInv s) (hx : Bin.Exclusive s) {w f : ℕ} {p p' : ChildPc}
    {st : InternalGuard} (hw : s.workers[w]? = some (.polling f p))
    (ha : Acts s.state p st p') : ChildInv ((s.setState st).setWorker w (.polling f p')) := by
  cases ha with
  | @complete k c set hc hset =>
      refine hs.complete hx hw (fun j => any_getElem?_set _ hc j) fun s => ?_
      split_ifs <;> trivial
  | wake | panicked =>
      exact hs.move rfl trivial (fun _ hf => hf) (fun _ => rfl) fun _ => rfl
  | @done k c hc =>
      refine hs.move rfl trivial (fun j hj => ?_) (fun _ => rfl) fun _ => rfl
      refine (any_getElem?_set Child.completed hc j).trans ?_
      split_ifs with hjk
      · rwa [hjk, isCompleted, hc, Option.any_some] at hj
      · exact hj

theorem ChildInv.effect (hs : ChildInv s) (hn : Numbered s) (hx : Bin.Exclusive s)
    (hd : Bin.Done s) (he : Bin.Effect (client tasks) s a t) : ChildInv t := by
  have hmono := fun f => he.completedAt (g := f)
  have hcompleted := he.completedAt_eq
  have hlocked := he.lockedAt_eq
  cases he with
  | startWorker =>
      refine hs.frame (fun _ hf => hf) hmono (fun pc hpc => ?_) fun _ _ hl => hl
      refine (List.mem_append.mp hpc).imp_right fun hp => ?_
      obtain rfl := List.mem_singleton.mp hp
      trivial
  | @recv w level m c hw hc =>
      refine hs.move rfl ?_ (fun _ hf => hf) (hcompleted nofun) (hlocked nofun nofun)
      cases m with
      | simple j => exact j.elim
      | _ => trivial
  | @poll w f u hw hf hl =>
      have hfree := hd.not_completed hw (if_pos rfl)
      have hlock : s.lockedAt f = false := (Bin.lockedAt_eq hf).trans hl
      refine hs.frame (fun _ hf => hf) hmono (fun pc hpc => ?_) fun g hcg hlg => ?_
      · refine (List.mem_or_eq_of_mem_set hpc).imp_right ?_
        rintro rfl
        exact ⟨hn.underlying_eq hf, hs.idle f hfree hlock⟩
      · have hlg := (Bin.lockedAt_setFuture hf).symm.trans hlg
        split_ifs at hlg
        exact hlg
  | contend | retry | retryFailed | wakeInPollFailed | panickedInPoll | panickedInJob | dropWaker
  | unwind | returned =>
      exact hs.move rfl trivial (fun _ hf => hf) (hcompleted nofun) (hlocked nofun nofun)
  | idle hw =>
      refine hs.move rfl ?_ (fun _ hf => hf) (hcompleted nofun) (hlocked nofun nofun)
      split_ifs <;> trivial
  | actPoll hw ha => exact hs.act hx hw (acts_of_act ha)
  | actJob hw ha => exact (hs.workers _ (List.mem_of_getElem? hw)).elim
  | @ready w f p u hw hf hr =>
      refine hs.frame (fun _ hf => hf) hmono (fun pc hpc => ?_) fun g hcg hlg => ?_
      · refine (List.mem_or_eq_of_mem_set hpc).imp_right ?_
        rintro rfl
        exact (Bin.completedAt_setFuture hf).trans (if_pos rfl)
      · exact (hlocked nofun nofun g).symm.trans hlg
  | @pending w f p hw hr => cases p <;> cases hr
  | @unlock w f u hw hf =>
      have hdone : s.completedAt f = true := hs.workers _ (List.mem_of_getElem? hw)
      refine hs.frame (fun _ hf => hf) hmono (fun pc hpc => ?_) fun g hcg hlg => ?_
      · refine (List.mem_or_eq_of_mem_set hpc).imp_right ?_
        rintro rfl
        trivial
      · have hlg := (Bin.lockedAt_setFuture hf).symm.trans hlg
        split_ifs at hlg with hgf
        · rw [hmono g (hgf ▸ hdone)] at hcg
          cases hcg
        · exact hlg
  | owner ho | spawnFuture ho | spawnFailed ho =>
      exact hs.stay rfl (polls_of_owner ho).isCompleted (hcompleted nofun) (hlocked nofun nofun)
  | @spawnJob o st j => exact j.elim
  | _ => exact hs.stay rfl (fun _ hf => hf) (hcompleted nofun) (hlocked nofun nofun)

theorem childInv_of_run (hr : (Bin.system (client tasks) bounded).Run Bin.Quiet h s) :
    ChildInv s := by
  refine hr.induct (P := fun _ s => ChildInv s) ⟨fun pc hpc => absurd hpc List.not_mem_nil,
    fun _ _ _ => rfl⟩ ?_
  intro h s a t hs ih _ hst
  exact ih.effect (numbered_of_run hs) (Bin.exclusive_of_run hs) (Bin.done_of_run hs)
    (Bin.effect_of_step hst)

/-- A child whose inner future is being polled is unfinished. -/
theorem not_completed_of_running (hr : (Bin.system (client tasks) bounded).Run Bin.Quiet h s)
    {k : ℕ} (hp : s.Running (.inner k)) : s.state.isCompleted k = false := by
  rcases hp with hp | ⟨f, hp⟩
  · exact ((childInv_of_run hr).workers _ hp).elim
  · obtain ⟨rfl, hk⟩ := (childInv_of_run hr).workers _ hp
    exact hk

/-- What the guard keeps as long as no completed child is polled. -/
structure CompletionInv (tasks : ℕ) (g : InternalGuard) : Prop where
  length : g.shared ≠ none → g.children.length = tasks
  remaining : ∀ set, g.shared = some set → set.childrenRemaining.toNat = g.unfinished
  ready : g.result = some .ready → g.shared ≠ none ∧ g.unfinished = 0

theorem CompletionInv.poll (hg : CompletionInv tasks g) (hp : Polls tasks g g' m) :
    CompletionInv tasks g' := by
  cases hp with
  | first hstate hlt =>
      refine ⟨fun _ => List.length_replicate, ?_, nofun⟩
      rintro set ⟨⟩
      rw [unfinished, unfinished_replicate]
      exact UInt32.toNat_ofNat_of_lt' hlt
  | again => exact ⟨hg.length, hg.remaining, nofun⟩
  | spawn | spawned | loadFailed => exact ⟨hg.length, hg.remaining, hg.ready⟩
  | register =>
      refine ⟨fun hs => hg.length (by simpa using hs), fun set hset => ?_, fun hres => ?_⟩
      · obtain ⟨set', hset', rfl⟩ := Option.map_eq_some_iff.mp hset
        exact hg.remaining set' hset'
      · obtain ⟨hs, hz⟩ := hg.ready hres
        exact ⟨by simpa using hs, hz⟩
  | ready hdone =>
      refine ⟨hg.length, hg.remaining, fun _ => ?_⟩
      cases hset : g.shared with
      | none => simp [allDone, hset] at hdone
      | some set =>
          have hrem := hg.remaining set hset
          have hz : set.childrenRemaining = 0 := by simpa [allDone, hset] using hdone
          rw [hz, UInt32.toNat_zero] at hrem
          exact ⟨by simp [finish, hset], hrem.symm⟩
  | pending => exact ⟨hg.length, hg.remaining, nofun⟩

theorem CompletionInv.act (hg : CompletionInv tasks g) {p p' : ChildPc} (ha : Acts g p g' p')
    (hk : ∀ k, p = .inner k → g.isCompleted k = false) : CompletionInv tasks g' := by
  cases ha with
  | @complete k c set hc hset =>
      have hck : c.completed = false := by simpa [isCompleted, hc] using hk k rfl
      have hrem := hg.remaining set hset
      have hw := weight_set (w := Child.unfinished) { c with completed := true } hc
      simp only [Child.unfinished, hck, Bool.false_eq_true, if_false, if_true] at hw
      have hpos : 0 < set.childrenRemaining.toNat := by
        simp only [unfinished] at hrem
        omega
      refine ⟨fun _ => ?_, ?_, fun hres => ?_⟩
      · exact List.length_set.trans (hg.length (by simp [hset]))
      · rintro set' ⟨⟩
        simp only [toNat_sub_one hpos, unfinished] at hrem ⊢
        omega
      · obtain ⟨-, hz⟩ := hg.ready hres
        omega
  | @wake k set hset =>
      refine ⟨fun _ => hg.length (by simp [hset]), ?_, fun hres => ⟨nofun, (hg.ready hres).2⟩⟩
      rintro set' ⟨⟩
      exact hg.remaining set hset
  | @done k c hc =>
      have hw := weight_set (w := Child.unfinished) { c with done := true } hc
      simp only [Child.unfinished] at hw
      have hsame : weight Child.unfinished (g.children.set k { c with done := true }) =
          g.unfinished := by
        simp only [unfinished]
        omega
      exact ⟨fun hs => List.length_set.trans (hg.length hs),
        fun set hset => (hg.remaining set hset).trans hsame.symm,
        fun hres => ⟨(hg.ready hres).1, hsame.trans (hg.ready hres).2⟩⟩
  | panicked => exact hg

theorem completionInv_of_run (hr : (Bin.system (client tasks) bounded).Run Bin.Quiet h s) :
    CompletionInv tasks s.state := by
  refine Bin.state_invariant hr ⟨fun hs => absurd rfl hs, nofun, nofun⟩ ?_ ?_ ?_
  · intro h s p a g p' hs hg hp ha
    refine hg.act (acts_of_act ha) ?_
    rintro k rfl
    exact not_completed_of_running hs hp
  · intro h s o g m hs hg ho
    exact hg.poll (polls_of_owner ho)
  · intro h s o g m hs hg _ _ ho
    have hp := hg.poll (polls_of_owner ho)
    exact ⟨hp.length, hp.remaining, hp.ready⟩

/-- The contract of `set_scoped`. -/
structure CompletionSafe (tasks : ℕ) (g : InternalGuard) : Prop where
  remaining : ∀ set, g.shared = some set → set.childrenRemaining.toNat = g.unfinished
  ready : g.result = some .ready → ∀ k < tasks, g.isCompleted k = true

theorem isCompleted_of_unfinished (hz : g.unfinished = 0) {k : ℕ} (hk : k < g.children.length) :
    g.isCompleted k = true := by
  have hc := weight_eq_zero.mp hz g.children[k] (List.getElem_mem hk)
  rw [isCompleted, List.getElem?_eq_getElem hk, Option.any_some]
  unfold Child.unfinished at hc
  split_ifs at hc with hcompleted
  exact hcompleted

theorem completionSafe_of_quiet (hr : (Bin.system (client tasks) bounded).Run Bin.Quiet h s) :
    CompletionSafe tasks s.state where
  remaining := (completionInv_of_run hr).remaining
  ready := by
    intro hres k hk
    obtain ⟨hs, hz⟩ := (completionInv_of_run hr).ready hres
    refine isCompleted_of_unfinished hz ?_
    rwa [(completionInv_of_run hr).length hs]

/-- The first of two children wakes itself by reference and is polled twice before the second is
received. -/
def wakeAndComplete : List (BinLabel ChildAction ScopedStep) :=
  [.startWorker, .owner .poll, .owner .next, .owner .next, .owner .next, .owner .load,
    .work 0 (.recv 1), .work 0 (.poll 0), .work 0 .wake, .work 0 (.act .complete),
    .work 0 (.act .assertDone), .work 0 (.ready 0), .work 0 .unlock, .work 0 .dropWaker,
    .work 0 (.recv 0), .work 0 (.poll 0), .work 0 (.act .complete), .owner .poll, .owner .load]

theorem exists_ready_before_completion :
    ¬ ∀ s, (Bin.system (client 2) 1000000).Reachable s → CompletionSafe 2 s.state := by
  intro hall
  have hrun : ((Bin.system (client 2) 1000000).exec Free (Bin.new (client 2) 1000000)
      wakeAndComplete).map (fun s => (s.state.result, s.state.isCompleted 1)) =
        some (some .ready, false) := by
    decide
  obtain ⟨s, hs, he⟩ := Option.map_eq_some_iff.mp hrun
  obtain ⟨hready, hcompleted⟩ := Prod.mk.inj he
  have hsafe := hall s (Lts.path_of_exec _ hs).reachable
  rw [hsafe.ready hready 1 (by decide)] at hcompleted
  cases hcompleted

/-- A child clones its waker and drops it, the other one wakes the guard. -/
def cloneAndDrop : List (BinLabel ChildAction ScopedStep) :=
  [.owner .poll, .owner .next, .owner .next, .owner .next, .owner .load, .startWorker,
    .startWorker, .work 0 (.recv 1), .work 0 (.poll 0), .work 0 .clone, .work 0 (.act .complete),
    .work 0 (.act .assertDone), .work 0 (.ready 0), .drop 0, .work 1 (.recv 1), .work 1 (.poll 1),
    .work 1 (.act .complete), .work 1 (.act .wake), .owner .poll, .owner .load,
    .work 1 (.act .assertDone), .work 1 (.ready 1), .work 0 .unlock, .work 1 .unlock]

theorem completionSafe_cloneAndDrop :
    CompletionSafe 2 ⟨.done, .idle, 2, some .ready, some ⟨0, ⟨none, [1]⟩⟩,
      [⟨true, true⟩, ⟨true, true⟩]⟩ :=
  completionSafe_of_quiet (s := (⟨[.empty, .empty],
      [⟨0, false, 1, 0, true⟩, ⟨1, false, 1, 0, true⟩], [.dropWaker 0, .dropWaker 1],
      ⟨.done, .idle, 2, some .ready, some ⟨0, ⟨none, [1]⟩⟩, [⟨true, true⟩, ⟨true, true⟩]⟩⟩ :
      Bin ℕ Empty ChildPc InternalGuard 1000000))
    (Lts.path_of_exec cloneAndDrop (by decide))

end InternalGuard
end Kiruna.Tpc

import Kiruna.Tpc.BinPolling

/-!
# The references to a future

The strong count of an `OurFuture` is the number of the messages, of the workers and of the wakers
that hold it; the last of them destroys the future. A worker that has popped a message turns its
`Arc` into the waker of the poll, and holds the future until it drops this waker.
-/

namespace Kiruna.Tpc

/-- The worker holds the future, in its message or in its waker. -/
def WorkerPc.owns {Local : Type*} (f : ℕ) : WorkerPc Local → ℕ
  | .tryLock f' | .contended f' | .polling f' _ | .unlock f' | .dropWaker f' | .unwind f' _ =>
      if f' = f then 1 else 0
  | _ => 0

namespace Bin

variable {Fut Job Local State Action Owner : Type*} {bounded : ℕ}
  {C : Client Fut Job Local State Action Owner} {s t : Bin Fut Job Local State bounded}
  {a : BinLabel Action Owner} {h : List (BinLabel Action Owner)}
  {ok : Bin Fut Job Local State bounded → BinLabel Action Owner → Prop}

def strongAt (s : Bin Fut Job Local State bounded) (f : ℕ) : ℕ :=
  s.futures[f]?.elim 0 OurFuture.strong

def wakersAt (s : Bin Fut Job Local State bounded) (f : ℕ) : ℕ :=
  s.futures[f]?.elim 0 OurFuture.wakers

/-- The messages and the workers that hold the future. -/
def held (s : Bin Fut Job Local State bounded) (f : ℕ) : ℕ :=
  mass (ThreadMessage.isWork f) s.channel + weight (WorkerPc.owns f) s.workers

/-- The strong count of every future is the number of its references. -/
def Counted (s : Bin Fut Job Local State bounded) : Prop :=
  ∀ f, s.held f + s.wakersAt f = s.strongAt f

theorem owns_handle (C : Client Fut Job Local State Action Owner) (m : ThreadMessage Job) (f : ℕ) :
    (handle C m).owns f = m.isWork f := by
  cases m <;> rfl

theorem held_move {w g : ℕ} {pc pc' : WorkerPc Local} (hw : s.workers[w]? = some pc)
    (hworkers : t.workers = s.workers.set w pc') (hchannel : t.channel = s.channel) :
    t.held g + pc.owns g = s.held g + pc'.owns g :=
  load_move hw hworkers hchannel

theorem held_sent {level g : ℕ} {m : ThreadMessage Job}
    {c : List (Fifo (ThreadMessage Job) bounded)} (hc : Sent s.channel level m c)
    (hchannel : t.channel = c) (hworkers : t.workers = s.workers) :
    t.held g = s.held g + m.isWork g :=
  load_sent hc hchannel hworkers

/-- A step that changes no future. -/
theorem Counted.frame (hs : Counted s) (hfutures : t.futures = s.futures)
    (hheld : ∀ g, t.held g = s.held g) : Counted t := by
  intro g
  have hg := hs g
  simp only [strongAt, wakersAt, hfutures] at hg ⊢
  rw [hheld, hg]

/-- A step that changes the counts of one future with its references. -/
theorem Counted.setFuture (hs : Counted s) {f : ℕ} {u u' : OurFuture Fut}
    (hf : s.futures[f]? = some u) (ht : t.futures = s.futures.set f u')
    (hheld : ∀ g, t.held g + (if f = g then u'.wakers + u.strong else 0) =
      s.held g + if f = g then u.wakers + u'.strong else 0) : Counted t := by
  intro g
  have hg := hs g
  have hheld := hheld g
  rw [strongAt, wakersAt, ht, elim_getElem?_set _ hf, elim_getElem?_set _ hf]
  by_cases hgf : f = g
  · subst hgf
    simp only [strongAt, wakersAt, hf, Option.elim_some] at hg
    simp only [if_true] at hheld ⊢
    omega
  · simp only [if_neg hgf, if_neg (Ne.symm hgf)] at hheld ⊢
    rw [strongAt, wakersAt] at hg
    omega

/-- A worker moves and keeps what it holds. -/
theorem Counted.move (hs : Counted s) {w : ℕ} {pc pc' : WorkerPc Local}
    (hw : s.workers[w]? = some pc) (hworkers : t.workers = s.workers.set w pc')
    (hchannel : t.channel = s.channel) (hfutures : t.futures = s.futures)
    (howns : ∀ g, pc'.owns g = pc.owns g) : Counted t := by
  apply hs.frame hfutures
  intro g
  have hmove := held_move (g := g) hw hworkers hchannel
  have hg := howns g
  omega

/-- A worker moves and changes a future. -/
theorem Counted.moveFuture (hs : Counted s) {w f : ℕ} {pc pc' : WorkerPc Local}
    {u u' : OurFuture Fut} (hw : s.workers[w]? = some pc)
    (hworkers : t.workers = s.workers.set w pc') (hchannel : t.channel = s.channel)
    (hf : s.futures[f]? = some u) (ht : t.futures = s.futures.set f u')
    (howns : ∀ g, pc'.owns g + (if f = g then u'.wakers + u.strong else 0) =
      pc.owns g + if f = g then u.wakers + u'.strong else 0) : Counted t := by
  apply hs.setFuture hf ht
  intro g
  have hmove := held_move (g := g) hw hworkers hchannel
  have hg := howns g
  omega

/-- A message of a future is sent and no worker moves. -/
theorem Counted.sent (hs : Counted s) {f level : ℕ} {u u' : OurFuture Fut}
    {c : List (Fifo (ThreadMessage Job) bounded)} (hc : Sent s.channel level (.work f) c)
    (hchannel : t.channel = c) (hworkers : t.workers = s.workers)
    (hf : s.futures[f]? = some u) (ht : t.futures = s.futures.set f u')
    (hu : 1 + u'.wakers + u.strong = u.wakers + u'.strong) : Counted t := by
  apply hs.setFuture hf ht
  intro g
  have hsent := held_sent (g := g) hc hchannel hworkers
  simp only [ThreadMessage.isWork] at hsent
  split_ifs at hsent ⊢ <;> omega

/-- A worker sends a message of a future and keeps what it holds. -/
theorem Counted.sentMove (hs : Counted s) {w f level : ℕ} {pc pc' : WorkerPc Local}
    {u u' : OurFuture Fut} {c : List (Fifo (ThreadMessage Job) bounded)}
    (hw : s.workers[w]? = some pc) (hc : Sent s.channel level (.work f) c)
    (hchannel : t.channel = c) (hworkers : t.workers = s.workers.set w pc')
    (hf : s.futures[f]? = some u) (ht : t.futures = s.futures.set f u')
    (howns : ∀ g, pc'.owns g = pc.owns g)
    (hu : 1 + u'.wakers + u.strong = u.wakers + u'.strong) : Counted t := by
  apply hs.setFuture hf ht
  intro g
  have hmove : t.held g + pc.owns g =
      s.held g + (ThreadMessage.work f : ThreadMessage Job).isWork g + pc'.owns g :=
    load_sent_move hw hc hchannel hworkers
  have hg := howns g
  simp only [ThreadMessage.isWork] at hmove
  split_ifs at hmove ⊢ <;> omega

/-- A waker is cloned or dropped. -/
theorem Counted.recount (hs : Counted s) {f : ℕ} {u u' : OurFuture Fut}
    (hf : s.futures[f]? = some u) (ht : t.futures = s.futures.set f u')
    (hworkers : t.workers = s.workers) (hchannel : t.channel = s.channel)
    (hu : u'.wakers + u.strong = u.wakers + u'.strong) : Counted t := by
  apply hs.setFuture hf ht
  intro g
  simp only [held, hworkers, hchannel, hu]

theorem Counted.strong_eq (hs : Counted s) {f : ℕ} {u : OurFuture Fut}
    (hf : s.futures[f]? = some u) : s.held f + u.wakers = u.strong := by
  have hcount := hs f
  rwa [strongAt, wakersAt, hf, Option.elim_some, Option.elim_some] at hcount

/-- A worker holds what it owns. -/
theorem owns_le_held {w f : ℕ} {pc : WorkerPc Local} (hw : s.workers[w]? = some pc) :
    pc.owns f ≤ s.held f :=
  (le_weight (w := WorkerPc.owns f) hw).trans (Nat.le_add_left _ _)

/-- A worker drops its waker. -/
theorem Counted.dropReference (hs : Counted s) {w f : ℕ} {pc pc' : WorkerPc Local}
    {u : OurFuture Fut} (hw : s.workers[w]? = some pc)
    (hworkers : t.workers = s.workers.set w pc') (hchannel : t.channel = s.channel)
    (hf : s.futures[f]? = some u)
    (ht : t.futures = s.futures.set f { u with strong := u.strong - 1 })
    (hpc : ∀ g, pc.owns g = if f = g then 1 else 0) (hpc' : ∀ g, pc'.owns g = 0) :
    Counted t := by
  have hcount := hs.strong_eq hf
  have hle := owns_le_held (f := f) hw
  rw [hpc, if_pos rfl] at hle
  refine hs.moveFuture hw hworkers hchannel hf ht fun g => ?_
  rw [hpc, hpc']
  by_cases hfg : f = g
  · simp only [if_pos hfg]
    omega
  · simp only [if_neg hfg]

theorem Counted.effect (hs : Counted s) (he : Effect C s a t) : Counted t := by
  cases he with
  | startWorker =>
      refine hs.frame rfl fun g => ?_
      simp [held, WorkerPc.owns]
  | @recv w level m c hw hc =>
      refine hs.frame rfl fun g => ?_
      exact load_received hw hc rfl rfl rfl (owns_handle C m g)
  | poll hw hf | ready hw hf | unlock hw hf => exact hs.moveFuture hw rfl rfl hf rfl fun _ => rfl
  | contend hw | retryFailed hw | actPoll hw | actJob hw | wakeInPollFailed hw | pending hw
  | panickedInPoll hw | panickedInJob hw | returned hw =>
      exact hs.move hw rfl rfl rfl fun _ => rfl
  | @idle w exits hw => exact hs.move hw rfl rfl rfl fun _ => by cases exits <;> rfl
  | retry hw hf hc =>
      refine hs.sentMove hw hc rfl rfl hf rfl (fun _ => rfl) ?_
      dsimp only
      omega
  | wakeInPoll hw hf hc | wakeByRef hf hn hc =>
      refine hs.sent hc rfl rfl hf rfl ?_
      dsimp only
      omega
  | wake hf hn hc =>
      refine hs.sent hc rfl rfl hf rfl ?_
      dsimp only
      omega
  | cloneInPoll hw hf | clone hf hn =>
      refine hs.recount hf rfl rfl rfl ?_
      dsimp only
      omega
  | wakeFailed hf hn | drop hf hn =>
      have hcount := hs.strong_eq hf
      refine hs.recount hf rfl rfl rfl ?_
      dsimp only
      omega
  | dropWaker hw hf | unwind hw hf =>
      exact hs.dropReference hw rfl rfl hf rfl (fun _ => rfl) fun _ => rfl
  | sendIdle hc =>
      refine hs.frame rfl fun g => ?_
      exact held_sent hc rfl rfl
  | spawnJob ho hc =>
      refine hs.frame rfl fun g => ?_
      exact held_sent hc rfl rfl
  | @spawnFuture o st u c ho hc =>
      intro g
      have hcount := hs g
      have hsent : ({ (s.setState st).setChannel c with
          futures := s.futures ++ [.new u] } : Bin Fut Job Local State bounded).held g =
          s.held g + (ThreadMessage.work s.futures.length : ThreadMessage Job).isWork g :=
        held_sent hc rfl rfl
      rw [hsent]
      simp only [strongAt, wakersAt, elim_getElem?_append, OurFuture.new, ite_self,
        ThreadMessage.isWork] at hcount ⊢
      omega
  | _ => exact hs

theorem counted_of_run (hr : (system C bounded).Run ok h s) : Counted s := by
  refine hr.invariant (fun _ _ _ hs _ hst => hs.effect (effect_of_step hst)) ?_
  intro f
  have hnone : (new C bounded).held f = 0 := load_new C bounded
  exact hnone

/-- The step gives up a reference to the future: it drops a waker, or with the waker the message
that it could not send. -/
def Releases (s : Bin Fut Job Local State bounded) (f : ℕ) : BinLabel Action Owner → Prop
  | .drop g => g = f
  | .wake g => g = f ∧ s.send (.work f) 0 = none
  | .work w .dropWaker => ∃ pc, s.workers[w]? = some pc ∧ pc.owns f = 1
  | _ => False

/-- The step drops the last reference to the future, which destroys it. -/
def Frees (f : ℕ) (s t : Bin Fut Job Local State bounded) : Prop :=
  0 < s.strongAt f ∧ t.strongAt f = 0

instance (f : ℕ) : DecidableRel (@Frees Fut Job Local State bounded f) :=
  fun _ _ => inferInstanceAs (Decidable (_ ∧ _))

theorem strongAt_eq {f : ℕ} {u : OurFuture Fut} (hf : s.futures[f]? = some u) :
    s.strongAt f = u.strong := by
  rw [strongAt, hf, Option.elim_some]

theorem strongAt_set {f : ℕ} {u : OurFuture Fut} (u' : OurFuture Fut)
    (hf : s.futures[f]? = some u) (ht : t.futures = s.futures.set f u') (g : ℕ) :
    t.strongAt g = if g = f then u'.strong else s.strongAt g := by
  rw [strongAt, ht, elim_getElem?_set _ hf]
  rfl

theorem not_sent_of_send_eq_none {m : ThreadMessage Job} {level : ℕ}
    {c : List (Fifo (ThreadMessage Job) bounded)} (h : s.send m level = none) :
    ¬ Sent s.channel level m c := by
  intro hc
  have hlt := hc.lengthAt_lt
  obtain ⟨q, -, hq, -, -⟩ := hc
  have hlevel := (List.getElem?_eq_some_iff.mp hq).1
  rcases lengthAt_of_send_eq_none h with hle | hfull <;> omega

/-- The worker keeps the count above zero. -/
theorem Counted.owns_le_strongAt (hs : Counted s) {w f : ℕ} {pc : WorkerPc Local}
    (hw : s.workers[w]? = some pc) : pc.owns f ≤ s.strongAt f := by
  have hcount := hs f
  have hle := owns_le_held (f := f) hw
  omega

theorem Counted.wakers_le_strong (hs : Counted s) {f : ℕ} {u : OurFuture Fut}
    (hf : s.futures[f]? = some u) : u.wakers ≤ u.strong := by
  have hcount := hs.strong_eq hf
  omega

/-- A reference that is given up was counted. -/
theorem Effect.strongAt_of_releases (hs : Counted s) (he : Effect C s a t) {f : ℕ}
    (hr : s.Releases f a) : t.strongAt f + 1 = s.strongAt f := by
  cases he with
  | @drop g u hf hn =>
      obtain rfl : g = f := hr
      have hle := hs.wakers_le_strong hf
      rw [strongAt_set _ hf rfl, if_pos rfl, strongAt_eq hf]
      dsimp only
      omega
  | @wakeFailed g u hf hn hfull =>
      obtain ⟨rfl, -⟩ : g = f ∧ _ := hr
      have hle := hs.wakers_le_strong hf
      rw [strongAt_set _ hf rfl, if_pos rfl, strongAt_eq hf]
      dsimp only
      omega
  | wake hf hn hc =>
      obtain ⟨rfl, hnone⟩ := hr
      exact absurd hc (not_sent_of_send_eq_none hnone)
  | @dropWaker w g u hw hf | @unwind w g p u hw hf =>
      obtain ⟨pc, hpc, howns⟩ := hr
      obtain rfl := Option.some.inj (hw.symm.trans hpc)
      have hle := hs.owns_le_strongAt (f := f) hw
      have hgf : g = f := by
        by_contra hne
        simp [WorkerPc.owns, hne] at howns
      subst hgf
      rw [howns, strongAt_eq hf] at hle
      rw [strongAt_set _ hf rfl, if_pos rfl, strongAt_eq hf]
      dsimp only
      omega
  | _ => exact hr.elim

theorem strongAt_le_of_set {f g : ℕ} {u u' : OurFuture Fut} (hf : s.futures[f]? = some u)
    (ht : t.futures = s.futures.set f u') (hu : g = f → u.strong ≤ u'.strong) :
    s.strongAt g ≤ t.strongAt g := by
  rw [strongAt_set u' hf ht]
  split_ifs with hgf
  · rw [hgf, strongAt_eq hf]
    exact hu hgf
  · exact le_rfl

theorem strongAt_eq_zero_of_set {f g : ℕ} {u u' : OurFuture Fut} (hf : s.futures[f]? = some u)
    (ht : t.futures = s.futures.set f u') (hzero : s.strongAt g = 0)
    (hu : g = f → u.strong = 0 → u'.strong = 0) : t.strongAt g = 0 := by
  rw [strongAt_set u' hf ht]
  split_ifs with hgf
  · subst hgf
    exact hu rfl ((strongAt_eq hf).symm.trans hzero)
  · exact hzero

/-- No other step lowers the count. -/
theorem Effect.strongAt_le (he : Effect C s a t) {f : ℕ} (hr : ¬ s.Releases f a) :
    s.strongAt f ≤ t.strongAt f := by
  cases he with
  | drop hf hn => exact strongAt_le_of_set hf rfl fun hfg => absurd hfg.symm hr
  | wakeFailed hf hn hfull =>
      refine strongAt_le_of_set hf rfl fun hfg => ?_
      subst hfg
      exact absurd ⟨rfl, hfull⟩ hr
  | dropWaker hw hf | unwind hw hf =>
      refine strongAt_le_of_set hf rfl fun hfg => ?_
      subst hfg
      exact absurd ⟨_, hw, if_pos rfl⟩ hr
  | poll hw hf | retry hw hf | wakeInPoll hw hf | cloneInPoll hw hf | ready hw hf | unlock hw hf
  | clone hf | wake hf | wakeByRef hf =>
      refine strongAt_le_of_set hf rfl fun _ => ?_
      dsimp only
      omega
  | spawnFuture =>
      simp only [strongAt, elim_getElem?_append]
      exact Nat.le_add_right _ _
  | _ => exact le_rfl

/-- A step that takes a reference to a future takes it from one who has a reference. -/
theorem Effect.strongAt_eq_zero (hs : Counted s) (he : Effect C s a t) {f : ℕ}
    (hlt : f < s.futures.length) (hzero : s.strongAt f = 0) : t.strongAt f = 0 := by
  cases he with
  | @retry w g u c hw hf | @wakeInPoll w g p u c hw hf | @cloneInPoll w g p u hw hf =>
      have hle := hs.owns_le_strongAt (f := g) hw
      refine strongAt_eq_zero_of_set hf rfl hzero fun hfg _ => ?_
      subst hfg
      simp [WorkerPc.owns, hzero] at hle
  | clone hf hn | wakeByRef hf hn =>
      have hle := hs.wakers_le_strong hf
      refine strongAt_eq_zero_of_set hf rfl hzero fun _ hu => ?_
      omega
  | poll hw hf | ready hw hf | unlock hw hf | dropWaker hw hf | unwind hw hf | wake hf
  | wakeFailed hf | drop hf =>
      refine strongAt_eq_zero_of_set hf rfl hzero fun _ hu => ?_
      simp only [hu]
  | spawnFuture =>
      simp only [strongAt, elim_getElem?_append, if_neg (Nat.ne_of_gt hlt)]
      exact hzero
  | _ => exact hzero

/-- A future that a step adds has one reference. -/
theorem Effect.length_futures (he : Effect C s a t) :
    t.futures.length = s.futures.length ∨
      t.futures.length = s.futures.length + 1 ∧ t.strongAt s.futures.length = 1 := by
  cases he with
  | spawnFuture =>
      right
      refine ⟨List.length_append, ?_⟩
      simp [strongAt, OurFuture.new]
  | poll | retry | wakeInPoll | cloneInPoll | ready | unlock | dropWaker | unwind | clone | wake
  | wakeFailed | wakeByRef | drop => exact .inl List.length_set
  | _ => exact .inl rfl

/-- A spawned future without references has been freed. -/
def Gone (s : Bin Fut Job Local State bounded) (f : ℕ) : Prop :=
  f < s.futures.length ∧ s.strongAt f = 0

instance (s : Bin Fut Job Local State bounded) (f : ℕ) : Decidable (s.Gone f) :=
  inferInstanceAs (Decidable (_ ∧ _))

theorem Effect.gone (hs : Counted s) (he : Effect C s a t) (f : ℕ) :
    t.Gone f ↔ s.Gone f ∨ Frees f s t := by
  rcases Nat.lt_or_ge f s.futures.length with hlt | hge
  · have hlt' : f < t.futures.length := by
      rcases he.length_futures with hlen | ⟨hlen, -⟩ <;> omega
    have hzero := he.strongAt_eq_zero hs hlt
    simp only [Gone, Frees, hlt, hlt', true_and]
    omega
  · have hstrong : s.strongAt f = 0 := by
      rw [strongAt, List.getElem?_eq_none hge, Option.elim_none]
    simp only [Gone, Frees, hstrong, Nat.not_lt.mpr hge, Nat.lt_irrefl, false_and, or_false,
      iff_false, not_and]
    intro hlt
    rcases he.length_futures with hlen | ⟨hlen, hone⟩
    · omega
    · obtain rfl : f = s.futures.length := by omega
      omega

/-- A future is freed once, by the step that leaves it without references. -/
theorem events_frees_of_run (hr : (system C bounded).Run ok h s) (f : ℕ) :
    (system C bounded).events (Frees f) h = if s.Gone f then 1 else 0 := by
  refine hr.induct (P := fun h s => (system C bounded).events (Frees f) h =
    if s.Gone f then 1 else 0) rfl ?_
  intro h s a t hp ih hok hst
  have hgone := (effect_of_step hst).gone (counted_of_run hp) f
  rw [Lts.events_cons _ hp hst, ih]
  have hnot : ¬ (s.Gone f ∧ Frees f s t) := fun ⟨hg, hf⟩ => by
    have hpos := hf.1
    rw [hg.2] at hpos
    exact Nat.lt_irrefl 0 hpos
  by_cases hg : s.Gone f <;> by_cases hf : Frees f s t <;> simp_all

/-- What the reference count of a future owes the references, after the history `h`. -/
structure CountsReferences (C : Client Fut Job Local State Action Owner)
    (h : List (BinLabel Action Owner)) (s : Bin Fut Job Local State bounded) (f : ℕ)
    (u : OurFuture Fut) : Prop where
  count : u.strong = mass (ThreadMessage.isWork f) s.channel +
    weight (WorkerPc.owns f) s.workers + u.wakers
  borrowed : ∀ (w : ℕ) (pc : WorkerPc Local), s.workers[w]? = some pc → pc.owns f = 1 →
    0 < u.strong
  released : ∀ a t, s.step C a = some t → s.Releases f a → t.strongAt f + 1 = u.strong
  kept : ∀ a t, s.step C a = some t → ¬ s.Releases f a → u.strong ≤ t.strongAt f
  freed : (system C bounded).events (Frees f) h = if u.strong = 0 then 1 else 0

theorem countsReferences_of_run {f : ℕ} {u : OurFuture Fut}
    (hr : (system C bounded).Run ok h s) (hf : s.futures[f]? = some u) :
    CountsReferences C h s f u := by
  have hs := counted_of_run hr
  have hstrong := strongAt_eq hf
  refine ⟨(hs.strong_eq hf).symm, ?_, ?_, ?_, ?_⟩
  · intro w pc hw howns
    have hle := hs.owns_le_strongAt (f := f) hw
    omega
  · intro a t hst hrel
    rw [← hstrong]
    exact (effect_of_step hst).strongAt_of_releases hs hrel
  · intro a t hst hrel
    rw [← hstrong]
    exact (effect_of_step hst).strongAt_le hrel
  · have hlt := (List.getElem?_eq_some_iff.mp hf).1
    rw [events_frees_of_run hr]
    simp only [Gone, hstrong, hlt, true_and]

/-- The future of `oneMessage` is freed when its worker drops the waker. -/
theorem countsReferences_oneMessage :
    CountsReferences readyAtOnce oneMessage.reverse
      (⟨[.empty, .empty], [⟨(), false, 0, 0, true⟩], [.recv, .recv], ()⟩ :
        Bin Unit Empty Unit Unit 1000000) 0 ⟨(), false, 0, 0, true⟩ :=
  countsReferences_of_run (show (system readyAtOnce 1000000).Run Lts.Free _ _
    from Lts.path_of_exec oneMessage (by decide)) rfl

end Bin

end Kiruna.Tpc

import Kiruna.Tpc.Bin

/-!
# What one step of the bin can do

One constructor of `Effect` for each branch of the code, with the guards it has passed. The mass of
the channel under a weight of messages turns a send or a receive into arithmetic.
-/

namespace Kiruna.Tpc

section Channel

variable {α : Type*} {bounded : ℕ}

/-- The levels `l'` after a send of `m` to the levels `l`. -/
def Sent (l : List (Fifo α bounded)) (level : ℕ) (m : α) (l' : List (Fifo α bounded)) : Prop :=
  ∃ q q' : Fifo α bounded, l[level]? = some q ∧ q'.items = q.items ++ [m] ∧ l' = l.set level q'

def Received (l : List (Fifo α bounded)) (level : ℕ) (m : α) (l' : List (Fifo α bounded)) : Prop :=
  ∃ q q' : Fifo α bounded, l[level]? = some q ∧ q.items = m :: q'.items ∧ l' = l.set level q'

/-- The weight of all messages of the channel. -/
def mass (w : α → ℕ) (l : List (Fifo α bounded)) : ℕ := weight (fun q => weight w q.items) l

variable {w : α → ℕ} {l l' : List (Fifo α bounded)} {level : ℕ} {m : α}

theorem mass_new (levels : ℕ) : mass w (List.replicate levels (.empty : Fifo α bounded)) = 0 := by
  rw [mass, weight_eq_zero]
  intro q hq
  obtain rfl := List.eq_of_mem_replicate hq
  rfl

theorem Sent.mass (h : Sent l level m l') : mass w l' = mass w l + w m := by
  obtain ⟨q, q', hq, hitems, rfl⟩ := h
  have hw := weight_set (w := fun q : Fifo α bounded => weight w q.items) q' hq
  simp only [hitems, weight_append, weight_cons, weight_nil] at hw
  simp only [Tpc.mass]
  omega

theorem Received.mass (h : Received l level m l') : mass w l = w m + mass w l' := by
  obtain ⟨q, q', hq, hitems, rfl⟩ := h
  have hw := weight_set (w := fun q : Fifo α bounded => weight w q.items) q' hq
  simp only [hitems, weight_cons] at hw
  simp only [Tpc.mass]
  omega

theorem Sent.length (h : Sent l level m l') : l'.length = l.length := by
  obtain ⟨q, q', hq, hitems, rfl⟩ := h
  exact List.length_set

theorem Received.length (h : Received l level m l') : l'.length = l.length := by
  obtain ⟨q, q', hq, hitems, rfl⟩ := h
  exact List.length_set

/-- The number of messages of a level. -/
def lengthAt (l : List (Fifo α bounded)) (k : ℕ) : ℕ := l[k]?.elim 0 fun q => q.items.length

theorem lengthAt_set {q : Fifo α bounded} (q' : Fifo α bounded) (hq : l[level]? = some q)
    (k : ℕ) : lengthAt (l.set level q') k =
      if k = level then q'.items.length else lengthAt l k :=
  elim_getElem?_set _ hq k

theorem Sent.lengthAt (h : Sent l level m l') (k : ℕ) :
    lengthAt l' k = lengthAt l k + if k = level then 1 else 0 := by
  obtain ⟨q, q', hq, hitems, rfl⟩ := h
  rw [lengthAt_set q' hq]
  split_ifs with hk
  · simp [hk, Tpc.lengthAt, hq, hitems]
  · rfl

/-- A level that takes a message was not full. -/
theorem Sent.lengthAt_lt (h : Sent l level m l') : Tpc.lengthAt l level < bounded := by
  obtain ⟨q, q', hq, hitems, rfl⟩ := h
  have hle := q'.length_le
  rw [hitems, List.length_append, List.length_singleton] at hle
  rw [Tpc.lengthAt, hq, Option.elim_some]
  omega

theorem Received.lengthAt (h : Received l level m l') (k : ℕ) :
    lengthAt l k = lengthAt l' k + if k = level then 1 else 0 := by
  obtain ⟨q, q', hq, hitems, rfl⟩ := h
  rw [lengthAt_set q' hq]
  split_ifs with hk
  · simp [hk, Tpc.lengthAt, hq, hitems]
  · rfl

end Channel

namespace Bin

variable {Fut Job Local State Action Owner : Type*} {bounded : ℕ}
  {C : Client Fut Job Local State Action Owner} {s t : Bin Fut Job Local State bounded}

theorem sent_of_send {m : ThreadMessage Job} {level : ℕ}
    {c : List (Fifo (ThreadMessage Job) bounded)} (h : s.send m level = some c) :
    Sent s.channel level m c := by
  unfold send at h
  split at h
  · cases h
  · rename_i q hq
    obtain ⟨q', hq', rfl⟩ := Option.map_eq_some_iff.mp h
    exact ⟨q, q', hq, (Fifo.push_eq_some.mp hq').2, rfl⟩

theorem received_of_receive {level : ℕ}
    {r : ThreadMessage Job × List (Fifo (ThreadMessage Job) bounded)}
    (h : s.receive level = some r) : Received s.channel level r.1 r.2 := by
  unfold receive at h
  split at h
  · cases h
  · rename_i q hq
    obtain ⟨p, hp, rfl⟩ := Option.map_eq_some_iff.mp h
    exact ⟨q, p.2, hq, Fifo.pop_eq_some.mp hp, rfl⟩

section Load

variable {v : ThreadMessage Job → ℕ} {w : WorkerPc Local → ℕ}

/-- The weight of the messages in the channel and of the workers. -/
def load (v : ThreadMessage Job → ℕ) (w : WorkerPc Local → ℕ)
    (s : Bin Fut Job Local State bounded) : ℕ :=
  mass v s.channel + weight w s.workers

theorem load_new (C : Client Fut Job Local State Action Owner) (bounded : ℕ) :
    (new C bounded).load v w = 0 := by
  have hmass : mass v (List.replicate 2 (.empty : Fifo (ThreadMessage Job) bounded)) = 0 :=
    mass_new 2
  simp only [load, new, hmass, weight_nil]

/-- A worker moves and the channel stays. -/
theorem load_move {n : ℕ} {pc pc' : WorkerPc Local} (hw : s.workers[n]? = some pc)
    (hworkers : t.workers = s.workers.set n pc') (hchannel : t.channel = s.channel) :
    t.load v w + w pc = s.load v w + w pc' := by
  have hset := weight_set (w := w) pc' hw
  simp only [load, hworkers, hchannel]
  omega

/-- A message is sent and no worker moves. -/
theorem load_sent {level : ℕ} {m : ThreadMessage Job}
    {c : List (Fifo (ThreadMessage Job) bounded)} (hc : Sent s.channel level m c)
    (hchannel : t.channel = c) (hworkers : t.workers = s.workers) :
    t.load v w = s.load v w + v m := by
  have hmass := hc.mass (w := v)
  simp only [load, hworkers, hchannel]
  omega

/-- A worker sends a message and moves. -/
theorem load_sent_move {n level : ℕ} {pc pc' : WorkerPc Local} {m : ThreadMessage Job}
    {c : List (Fifo (ThreadMessage Job) bounded)} (hw : s.workers[n]? = some pc)
    (hc : Sent s.channel level m c) (hchannel : t.channel = c)
    (hworkers : t.workers = s.workers.set n pc') :
    t.load v w + w pc = s.load v w + v m + w pc' := by
  have hset := weight_set (w := w) pc' hw
  have hmass := hc.mass (w := v)
  simp only [load, hworkers, hchannel]
  omega

/-- A worker puts its own weight into the message that it sends. -/
theorem load_resent {n level : ℕ} {pc pc' : WorkerPc Local} {m : ThreadMessage Job}
    {c : List (Fifo (ThreadMessage Job) bounded)} (hw : s.workers[n]? = some pc)
    (hc : Sent s.channel level m c) (hchannel : t.channel = c)
    (hworkers : t.workers = s.workers.set n pc') (hm : v m + w pc' = w pc) :
    t.load v w = s.load v w := by
  have hmove : t.load v w + w pc = s.load v w + v m + w pc' :=
    load_sent_move hw hc hchannel hworkers
  omega

/-- A worker receives a message and weighs as much as it from then on. -/
theorem load_received {n level : ℕ} {pc : WorkerPc Local} {m : ThreadMessage Job}
    {c : List (Fifo (ThreadMessage Job) bounded)} (hw : s.workers[n]? = some .recv)
    (hc : Received s.channel level m c) (hchannel : t.channel = c)
    (hworkers : t.workers = s.workers.set n pc) (hrecv : w .recv = 0) (hm : w pc = v m) :
    t.load v w = s.load v w := by
  have hset := weight_set (w := w) pc hw
  have hmass := hc.mass (w := v)
  simp only [load, hworkers, hchannel]
  omega

end Load

variable (C)

inductive Effect (s : Bin Fut Job Local State bounded) :
    BinLabel Action Owner → Bin Fut Job Local State bounded → Prop
  | startWorker : Effect s .startWorker { s with workers := s.workers ++ [.recv] }
  | recv {w level : ℕ} {m : ThreadMessage Job} {c : List (Fifo (ThreadMessage Job) bounded)}
      (hw : s.workers[w]? = some .recv) (hc : Received s.channel level m c) :
      Effect s (.work w (.recv level)) ((s.setChannel c).setWorker w (handle C m))
  | poll {w f : ℕ} {u : OurFuture Fut} (hw : s.workers[w]? = some (.tryLock f))
      (hf : s.futures[f]? = some u) (hl : u.locked = false) :
      Effect s (.work w (.poll f)) ((s.setFuture f { u with locked := true }).setWorker w
        (.polling f (C.poll u.underlying)))
  | contend {w f : ℕ} {u : OurFuture Fut} (hw : s.workers[w]? = some (.tryLock f))
      (hf : s.futures[f]? = some u) (hl : u.locked = true) :
      Effect s (.work w .contend) (s.setWorker w (.contended f))
  | retry {w f : ℕ} {u : OurFuture Fut} {c : List (Fifo (ThreadMessage Job) bounded)}
      (hw : s.workers[w]? = some (.contended f)) (hf : s.futures[f]? = some u)
      (hc : Sent s.channel 0 (.work f) c) :
      Effect s (.work w .retry) (((s.setChannel c).setFuture f
        { u with strong := u.strong + 1 }).setWorker w (.dropWaker f))
  | retryFailed {w f : ℕ} (hw : s.workers[w]? = some (.contended f))
      (hfull : s.send (.work f) 0 = none) :
      Effect s (.work w .retry) (s.setWorker w (.unwind f none))
  | actPoll {w f : ℕ} {p p' : Local} {a : Action} {st : State}
      (hw : s.workers[w]? = some (.polling f p)) (ha : C.act s.state p a = some (st, p')) :
      Effect s (.work w (.act a)) ((s.setState st).setWorker w (.polling f p'))
  | actJob {w : ℕ} {p p' : Local} {a : Action} {st : State}
      (hw : s.workers[w]? = some (.job p)) (ha : C.act s.state p a = some (st, p')) :
      Effect s (.work w (.act a)) ((s.setState st).setWorker w (.job p'))
  | wakeInPoll {w f : ℕ} {p : Local} {u : OurFuture Fut}
      {c : List (Fifo (ThreadMessage Job) bounded)} (hw : s.workers[w]? = some (.polling f p))
      (hf : s.futures[f]? = some u) (hc : Sent s.channel 0 (.work f) c) :
      Effect s (.work w .wake) ((s.setChannel c).setFuture f { u with strong := u.strong + 1 })
  | wakeInPollFailed {w f : ℕ} {p : Local} (hw : s.workers[w]? = some (.polling f p))
      (hfull : s.send (.work f) 0 = none) :
      Effect s (.work w .wake) (s.setWorker w (.unwind f (some p)))
  | cloneInPoll {w f : ℕ} {p : Local} {u : OurFuture Fut}
      (hw : s.workers[w]? = some (.polling f p)) (hf : s.futures[f]? = some u) :
      Effect s (.work w .clone) (s.setFuture f
        { u with strong := u.strong + 1, wakers := u.wakers + 1 })
  | ready {w f : ℕ} {p : Local} {u : OurFuture Fut} (hw : s.workers[w]? = some (.polling f p))
      (hf : s.futures[f]? = some u) (hr : C.result p = some .ready) :
      Effect s (.work w (.ready f)) ((s.setFuture f { u with completed := true }).setWorker w
        (.unlock f))
  | pending {w f : ℕ} {p : Local} (hw : s.workers[w]? = some (.polling f p))
      (hr : C.result p = some .pending) :
      Effect s (.work w .pending) (s.setWorker w (.unlock f))
  | panickedInPoll {w f : ℕ} {p : Local} (hw : s.workers[w]? = some (.polling f p))
      (hr : C.result p = some .panicked) :
      Effect s (.work w .panicked) (s.setWorker w (.unwind f (some p)))
  | panickedInJob {w : ℕ} {p : Local} (hw : s.workers[w]? = some (.job p))
      (hr : C.result p = some .panicked) :
      Effect s (.work w .panicked) (s.setWorker w (.panicked (some p)))
  | unlock {w f : ℕ} {u : OurFuture Fut} (hw : s.workers[w]? = some (.unlock f))
      (hf : s.futures[f]? = some u) :
      Effect s (.work w .unlock) ((s.setFuture f { u with locked := false }).setWorker w
        (.dropWaker f))
  | dropWaker {w f : ℕ} {u : OurFuture Fut} (hw : s.workers[w]? = some (.dropWaker f))
      (hf : s.futures[f]? = some u) :
      Effect s (.work w .dropWaker) ((s.setFuture f { u with strong := u.strong - 1 }).setWorker w
        .recv)
  | unwind {w f : ℕ} {p : Option Local} {u : OurFuture Fut}
      (hw : s.workers[w]? = some (.unwind f p)) (hf : s.futures[f]? = some u) :
      Effect s (.work w .dropWaker) ((s.setFuture f { u with strong := u.strong - 1 }).setWorker w
        (.panicked p))
  | returned {w : ℕ} {p : Local} (hw : s.workers[w]? = some (.job p))
      (hr : C.result p = some .ready) : Effect s (.work w .returned) (s.setWorker w .recv)
  | idle {w : ℕ} {exits : Bool} (hw : s.workers[w]? = some .idle) :
      Effect s (.work w (.idle exits)) (s.setWorker w (if exits then .gone else .recv))
  | clone {f : ℕ} {u : OurFuture Fut} (hf : s.futures[f]? = some u) (hn : u.wakers ≠ 0) :
      Effect s (.clone f) (s.setFuture f
        { u with strong := u.strong + 1, wakers := u.wakers + 1 })
  | wake {f : ℕ} {u : OurFuture Fut} {c : List (Fifo (ThreadMessage Job) bounded)}
      (hf : s.futures[f]? = some u) (hn : u.wakers ≠ 0) (hc : Sent s.channel 0 (.work f) c) :
      Effect s (.wake f) ((s.setChannel c).setFuture f { u with wakers := u.wakers - 1 })
  | wakeFailed {f : ℕ} {u : OurFuture Fut} (hf : s.futures[f]? = some u) (hn : u.wakers ≠ 0)
      (hfull : s.send (.work f) 0 = none) :
      Effect s (.wake f) (s.setFuture f
        { u with strong := u.strong - 1, wakers := u.wakers - 1 })
  | wakeByRef {f : ℕ} {u : OurFuture Fut} {c : List (Fifo (ThreadMessage Job) bounded)}
      (hf : s.futures[f]? = some u) (hn : u.wakers ≠ 0) (hc : Sent s.channel 0 (.work f) c) :
      Effect s (.wakeByRef f) ((s.setChannel c).setFuture f { u with strong := u.strong + 1 })
  | wakeByRefFailed {f : ℕ} {u : OurFuture Fut} (hf : s.futures[f]? = some u)
      (hn : u.wakers ≠ 0) (hfull : s.send (.work f) 0 = none) : Effect s (.wakeByRef f) s
  | drop {f : ℕ} {u : OurFuture Fut} (hf : s.futures[f]? = some u) (hn : u.wakers ≠ 0) :
      Effect s (.drop f) (s.setFuture f
        { u with strong := u.strong - 1, wakers := u.wakers - 1 })
  | sendIdle {c : List (Fifo (ThreadMessage Job) bounded)} (hc : Sent s.channel 1 .idle c) :
      Effect s .sendIdle (s.setChannel c)
  | sendIdleFailed : Effect s .sendIdle s
  | owner {o : Owner} {st : State} (ho : C.owner s.state o = some (st, none)) :
      Effect s (.owner o) (s.setState st)
  | spawnFuture {o : Owner} {st : State} {u : Fut} {c : List (Fifo (ThreadMessage Job) bounded)}
      (ho : C.owner s.state o = some (st, some (.inl u)))
      (hc : Sent s.channel 1 (.work s.futures.length) c) :
      Effect s (.owner o) { (s.setState st).setChannel c with
        futures := s.futures ++ [.new u] }
  | spawnJob {o : Owner} {st : State} {j : Job} {c : List (Fifo (ThreadMessage Job) bounded)}
      (ho : C.owner s.state o = some (st, some (.inr j)))
      (hc : Sent s.channel 1 (.simple j) c) :
      Effect s (.owner o) ((s.setState st).setChannel c)
  | spawnFailed {o : Owner} {st : State} {m : Fut ⊕ Job}
      (ho : C.owner s.state o = some (st, some m)) (hfull : ∀ msg, s.send msg 1 = none) :
      Effect s (.owner o) (s.setState (C.sendFailed st))

variable {C}

theorem effect_of_workStep {w : ℕ} {pc : WorkerPc Local} {e : WorkerEvent Action}
    (hw : s.workers[w]? = some pc) (h : s.workStep C w pc e = some t) :
    Effect C s (.work w e) t := by
  cases e with
  | recv level =>
      simp only [workStep] at h
      split at h
      · obtain ⟨r, hr, rfl⟩ := Option.map_eq_some_iff.mp h
        exact .recv hw (received_of_receive hr)
      · cases h
  | poll f' =>
      simp only [workStep] at h
      split at h
      · split at h
        · cases h
        · rename_i f u hf
          split_ifs at h with hl
          obtain ⟨hl, rfl⟩ := hl
          cases h
          exact .poll hw hf hl
      · cases h
  | contend =>
      simp only [workStep] at h
      split at h
      · split at h
        · cases h
        · rename_i f u hf
          split_ifs at h with hl
          cases h
          exact .contend hw hf hl
      · cases h
  | retry =>
      simp only [workStep] at h
      split at h
      · split at h
        · cases h
        · rename_i f u hf
          split at h <;> cases h
          · exact .retryFailed hw ‹_›
          · rename_i c hc
            exact .retry hw hf (sent_of_send hc)
      · cases h
  | act a =>
      simp only [workStep] at h
      split at h
      · obtain ⟨r, hr, rfl⟩ := Option.map_eq_some_iff.mp h
        exact .actPoll hw hr
      · obtain ⟨r, hr, rfl⟩ := Option.map_eq_some_iff.mp h
        exact .actJob hw hr
      · cases h
  | wake =>
      simp only [workStep] at h
      split at h
      · split at h
        · cases h
        · rename_i f p u hf
          split at h <;> cases h
          · exact .wakeInPollFailed hw ‹_›
          · rename_i c hc
            exact .wakeInPoll hw hf (sent_of_send hc)
      · cases h
  | clone =>
      simp only [workStep] at h
      split at h
      · split at h <;> cases h
        exact .cloneInPoll hw ‹_›
      · cases h
  | ready f' =>
      simp only [workStep] at h
      split at h
      · split at h
        · cases h
        · rename_i f p u hf
          split_ifs at h with hr
          obtain ⟨hr, rfl⟩ := hr
          cases h
          exact .ready hw hf hr
      · cases h
  | pending =>
      simp only [workStep] at h
      split at h
      · split_ifs at h with hr
        cases h
        exact .pending hw hr
      · cases h
  | panicked =>
      simp only [workStep] at h
      split at h
      · split_ifs at h with hr
        cases h
        exact .panickedInPoll hw hr
      · split_ifs at h with hr
        cases h
        exact .panickedInJob hw hr
      · cases h
  | unlock =>
      simp only [workStep] at h
      split at h
      · split at h <;> cases h
        exact .unlock hw ‹_›
      · cases h
  | dropWaker =>
      simp only [workStep] at h
      split at h
      · split at h <;> cases h
        exact .dropWaker hw ‹_›
      · split at h <;> cases h
        exact .unwind hw ‹_›
      · cases h
  | returned =>
      simp only [workStep] at h
      split at h
      · split_ifs at h with hr
        cases h
        exact .returned hw hr
      · cases h
  | idle exits =>
      simp only [workStep] at h
      split at h <;> cases h
      exact .idle hw

theorem send_eq_none {m m' : ThreadMessage Job} {level : ℕ} (h : s.send m level = none) :
    s.send m' level = none := by
  unfold send at *
  split at h
  · simp_all
  · simp only [Option.map_eq_none_iff, Fifo.push_eq_none] at h ⊢
    exact h

/-- A send fails on a full level. -/
theorem lengthAt_of_send_eq_none {m : ThreadMessage Job} {level : ℕ}
    (h : s.send m level = none) :
    s.channel.length ≤ level ∨ lengthAt s.channel level = bounded := by
  unfold send at h
  split at h
  · rename_i hq
    exact .inl (List.getElem?_eq_none_iff.mp hq)
  · rename_i q hq
    rw [Option.map_eq_none_iff, Fifo.push_eq_none] at h
    simp [lengthAt, hq, h]

/-- A send succeeds on a level with room, and fails on a full one. -/
theorem exists_send (m : ThreadMessage Job) {level : ℕ} (hlen : level < s.channel.length)
    (hroom : lengthAt s.channel level < bounded) :
    ∃ c, s.send m level = some c ∧ Sent s.channel level m c := by
  cases hs : s.send m level with
  | none =>
      rcases lengthAt_of_send_eq_none hs with hle | hfull <;> omega
  | some c => exact ⟨c, rfl, sent_of_send hs⟩

theorem send_eq_none_of_full (m : ThreadMessage Job) {level : ℕ}
    (hfull : lengthAt s.channel level = bounded) : s.send m level = none := by
  cases hs : s.send m level with
  | none => rfl
  | some c =>
      have hlt := (sent_of_send hs).lengthAt_lt
      omega

theorem effect_of_spawn {o : Owner} {st : State} {m : Fut ⊕ Job}
    (ho : C.owner s.state o = some (st, some m)) :
    Effect C s (.owner o) ((s.setState st).spawn C m) := by
  cases m with
  | inl u =>
      simp only [spawn]
      split
      · rename_i hs
        exact .spawnFailed ho fun _ => send_eq_none hs
      · rename_i c hc
        exact .spawnFuture ho (sent_of_send hc)
  | inr j =>
      simp only [spawn]
      split
      · rename_i hs
        exact .spawnFailed ho fun _ => send_eq_none hs
      · rename_i c hc
        exact .spawnJob ho (sent_of_send hc)

theorem effect_of_step {a : BinLabel Action Owner} (h : (system C bounded).step s a = some t) :
    Effect C s a t := by
  change s.step C a = some t at h
  cases a with
  | startWorker =>
      cases h
      exact .startWorker
  | work w e =>
      obtain ⟨pc, hw, hst⟩ := Option.bind_eq_some_iff.mp h
      exact effect_of_workStep hw hst
  | clone f =>
      simp only [step] at h
      split at h
      · cases h
      · rename_i u hf
        split_ifs at h with hn
        cases h
        exact .clone hf hn
  | wake f =>
      simp only [step] at h
      split at h
      · cases h
      · rename_i u hf
        split_ifs at h with hn
        split at h <;> cases h
        · exact .wakeFailed hf hn ‹_›
        · rename_i c hc
          exact .wake hf hn (sent_of_send hc)
  | wakeByRef f =>
      simp only [step] at h
      split at h
      · cases h
      · rename_i u hf
        split_ifs at h with hn
        split at h <;> cases h
        · exact .wakeByRefFailed hf hn ‹_›
        · rename_i c hc
          exact .wakeByRef hf hn (sent_of_send hc)
  | drop f =>
      simp only [step] at h
      split at h
      · cases h
      · rename_i u hf
        split_ifs at h with hn
        cases h
        exact .drop hf hn
  | sendIdle =>
      simp only [step] at h
      split at h <;> cases h
      · exact .sendIdleFailed
      · rename_i c hc
        exact .sendIdle (sent_of_send hc)
  | owner o =>
      simp only [step] at h
      split at h
      · cases h
      · cases h
        exact .owner ‹_›
      · cases h
        exact effect_of_spawn ‹_›

theorem Effect.length_channel {a : BinLabel Action Owner} (he : Effect C s a t) :
    t.channel.length = s.channel.length := by
  cases he with
  | recv hw hc => exact hc.length
  | retry hw hf hc | wakeInPoll hw hf hc => exact hc.length
  | wake hf hn hc | wakeByRef hf hn hc => exact hc.length
  | sendIdle hc => exact hc.length
  | spawnFuture ho hc | spawnJob ho hc => exact hc.length
  | _ => rfl

/-- The channel has two levels. -/
theorem length_channel_of_run {h : List (BinLabel Action Owner)}
    {ok : Bin Fut Job Local State bounded → BinLabel Action Owner → Prop}
    (hr : (system C bounded).Run ok h s) : s.channel.length = 2 :=
  hr.invariant (P := fun s => s.channel.length = 2)
    (fun _ _ _ hs _ hst => (effect_of_step hst).length_channel.trans hs) rfl

/-- In a run a send fails on a full level only. -/
theorem full_of_send_eq_none {h : List (BinLabel Action Owner)}
    {ok : Bin Fut Job Local State bounded → BinLabel Action Owner → Prop}
    (hr : (system C bounded).Run ok h s) {m : ThreadMessage Job} {level : ℕ} (hlevel : level < 2)
    (hs : s.send m level = none) : lengthAt s.channel level = bounded := by
  rcases lengthAt_of_send_eq_none hs with hlen | hfull
  · rw [length_channel_of_run hr] at hlen
    omega
  · exact hfull

end Bin
end Kiruna.Tpc

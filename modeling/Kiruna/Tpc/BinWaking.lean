import Kiruna.Tpc.BinPolling

/-!
# Wakes and the messages they leave

A wake sends its future on level 0. The message is taken by a worker, which polls the future, or
finds it locked and sends it again; the wake is kept as long as none of these sends fails.

When no poll uses its waker, each future has the one message of its spawn and is polled once.
-/

namespace Kiruna.Tpc.Bin

variable {Fut Job Local State Action Owner : Type*} {bounded : ℕ}
  {C : Client Fut Job Local State Action Owner} {s t : Bin Fut Job Local State bounded}
  {a : BinLabel Action Owner} {h : List (BinLabel Action Owner)}
  {ok : Bin Fut Job Local State bounded → BinLabel Action Owner → Prop}

/-- No poll wakes or clones its waker. -/
def WakerUnused (_ : Bin Fut Job Local State bounded) : BinLabel Action Owner → Prop
  | .work _ .wake | .work _ .clone => False
  | _ => True

instance : ∀ (s : Bin Fut Job Local State bounded) (a : BinLabel Action Owner),
    Decidable (s.WakerUnused a)
  | _, .work _ .wake | _, .work _ .clone => isFalse id
  | _, .work _ (.recv _) | _, .work _ (.poll _) | _, .work _ .contend | _, .work _ .retry
  | _, .work _ (.act _) | _, .work _ (.ready _) | _, .work _ .pending
  | _, .work _ .panicked | _, .work _ .unlock | _, .work _ .dropWaker | _, .work _ .returned
  | _, .work _ (.idle _) | _, .startWorker | _, .clone _ | _, .wake _ | _, .wakeByRef _
  | _, .drop _ | _, .sendIdle | _, .owner _ => isTrue trivial

/-- There is no clone of a waker, and at most one thing leads to a poll of a future. -/
structure Unwoken (s : Bin Fut Job Local State bounded) : Prop where
  wakers : ∀ u ∈ s.futures, u.wakers = 0
  pollers : ∀ f, s.pollers f ≤ if f < s.futures.length then 1 else 0

theorem Unwoken.frame (hs : Unwoken s) (hp : ∀ f, t.pollers f ≤ s.pollers f)
    (hw : ∀ u ∈ t.futures, u.wakers = 0) (hlen : t.futures.length = s.futures.length) :
    Unwoken t := by
  refine ⟨hw, fun f => ?_⟩
  rw [hlen]
  exact (hp f).trans (hs.pollers f)

/-- A step that changes a future and not its wakers. -/
theorem Unwoken.setFuture (hs : Unwoken s) {f : ℕ} {u u' : OurFuture Fut}
    (hf : s.futures[f]? = some u) (ht : t.futures = s.futures.set f u')
    (hu : u'.wakers = u.wakers) (hp : ∀ f, t.pollers f ≤ s.pollers f) : Unwoken t := by
  apply hs.frame hp
  · rw [ht]
    apply forall_mem_set hs.wakers
    rw [hu]
    exact hs.wakers u (List.mem_of_getElem? hf)
  · rw [ht, List.length_set]

theorem Unwoken.effect (hs : Unwoken s) (hok : s.WakerUnused a) (he : Effect C s a t) :
    Unwoken t := by
  have hpollers := he.pollers_le
  have hnone : ∀ {f : ℕ} {u : OurFuture Fut}, s.futures[f]? = some u → u.wakers = 0 :=
    fun hf => hs.wakers _ (List.mem_of_getElem? hf)
  cases he with
  | wakeInPoll | wakeInPollFailed | cloneInPoll => exact hok.elim
  | clone hf hn | wake hf hn | wakeFailed hf hn | wakeByRef hf hn | wakeByRefFailed hf hn
  | drop hf hn => exact absurd (hnone hf) hn
  | poll hw hf | retry hw hf | ready hw hf | unlock hw hf | dropWaker hw hf | unwind hw hf =>
      exact hs.setFuture hf rfl rfl (hpollers nofun (fun _ => ⟨nofun, nofun⟩) nofun)
  | @spawnFuture o st u c ho hc =>
      constructor
      · intro u' hu'
        rcases List.mem_append.mp hu' with hu' | hu'
        · exact hs.wakers u' hu'
        · obtain rfl := List.mem_singleton.mp hu'
          rfl
      · intro f
        have hold := hs.pollers f
        apply le_trans (b := s.pollers f + if s.futures.length = f then 1 else 0)
        · exact pollers_sent hc rfl rfl le_rfl
        · rw [List.length_append, List.length_singleton]
          split_ifs at * <;> omega
  | spawnJob ho hc =>
      exact hs.frame (fun _ => pollers_sent (n := 0) hc rfl rfl le_rfl) hs.wakers rfl
  | owner | spawnFailed => exact hs.frame (fun _ => le_rfl) hs.wakers rfl
  | _ => exact hs.frame (hpollers nofun (fun _ => ⟨nofun, nofun⟩) nofun) hs.wakers rfl

theorem unwoken_of_run (hr : (system C bounded).Run WakerUnused h s) : Unwoken s := by
  refine hr.invariant (fun _ _ _ hs hok hst => hs.effect hok (effect_of_step hst)) ?_
  refine ⟨fun u hu => absurd hu List.not_mem_nil, fun f => ?_⟩
  have hnone : (new C bounded).pollers f = 0 := load_new C bounded
  exact hnone.trans_le (Nat.zero_le _)

/-- Without wakes the poll that returns `Ready` is the last one. -/
theorem quiet_of_wakerUnused (hr : (system C bounded).Run WakerUnused h s) :
    (system C bounded).Run Quiet h s := by
  refine hr.strengthen fun h s a t hs hok hst => ?_
  have hu := unwoken_of_run hs
  have hnone : ∀ {f : ℕ} {u : OurFuture Fut}, s.futures[f]? = some u → u.wakers = 0 :=
    fun hf => hu.wakers _ (List.mem_of_getElem? hf)
  cases effect_of_step hst with
  | @ready w f p u hw hf hr =>
      have hle := hu.pollers f
      have hge := le_weight (w := WorkerPc.engaged f) hw
      simp only [WorkerPc.engaged, if_true] at hge
      change s.pollers f = 1
      unfold pollers at *
      split_ifs at hle <;> omega
  | wake hf hn | wakeFailed hf hn | wakeByRef hf hn | wakeByRefFailed hf hn =>
      exact absurd (hnone hf) hn
  | _ => trivial

end Kiruna.Tpc.Bin

namespace Kiruna.Tpc

/-- The worker has a message of the future and has not tried the lock, or is about to send it
again. -/
def WorkerPc.holding {Local : Type*} (f : ℕ) : WorkerPc Local → ℕ
  | .tryLock f' | .contended f' => if f' = f then 1 else 0
  | _ => 0

/-- The future that a wake of the worker is about. -/
def WorkerPc.wakes {Local : Type*} : WorkerPc Local → Option ℕ
  | .polling f _ | .contended f => some f
  | _ => none

namespace Bin

open Lts (Free)

variable {Fut Job Local State Action Owner : Type*} {bounded : ℕ}
  {C : Client Fut Job Local State Action Owner} {s t : Bin Fut Job Local State bounded}
  {a : BinLabel Action Owner} {h : List (BinLabel Action Owner)}
  {ok : Bin Fut Job Local State bounded → BinLabel Action Owner → Prop}

/-- The messages of the future in the channel and with workers. -/
def waiting (s : Bin Fut Job Local State bounded) (f : ℕ) : ℕ :=
  mass (ThreadMessage.isWork f) s.channel + weight (WorkerPc.holding f) s.workers

/-- The step is a wake of the future, from inside its poll or through a clone of its waker. -/
def WakesAt (s : Bin Fut Job Local State bounded) (f : ℕ) : BinLabel Action Owner → Prop
  | .wake f' | .wakeByRef f' => f' = f
  | .work w .wake => ∃ p, s.workers[w]? = some (.polling f p)
  | _ => False

/-- Level 0 takes the message of a wake or of a retry, or another message of the future is
waiting. -/
def TakesWake (s : Bin Fut Job Local State bounded) : BinLabel Action Owner → Prop
  | .wake f | .wakeByRef f => lengthAt s.channel 0 < bounded ∨ 0 < s.waiting f
  | .work w .wake => lengthAt s.channel 0 < bounded ∨
      ∀ f ∈ s.workers[w]?.bind WorkerPc.wakes, 0 < s.waiting f
  | .work w .retry => lengthAt s.channel 0 < bounded ∨
      ∀ f ∈ s.workers[w]?.bind WorkerPc.wakes, 2 ≤ s.waiting f
  | _ => True

instance : ∀ (s : Bin Fut Job Local State bounded) (a : BinLabel Action Owner),
    Decidable (s.TakesWake a)
  | s, .wake f | s, .wakeByRef f =>
      inferInstanceAs (Decidable (lengthAt s.channel 0 < bounded ∨ 0 < s.waiting f))
  | s, .work w .wake => inferInstanceAs (Decidable (lengthAt s.channel 0 < bounded ∨
      ∀ f ∈ s.workers[w]?.bind WorkerPc.wakes, 0 < s.waiting f))
  | s, .work w .retry => inferInstanceAs (Decidable (lengthAt s.channel 0 < bounded ∨
      ∀ f ∈ s.workers[w]?.bind WorkerPc.wakes, 2 ≤ s.waiting f))
  | _, .work _ (.recv _) | _, .work _ (.poll _) | _, .work _ .contend
  | _, .work _ (.act _) | _, .work _ .clone | _, .work _ (.ready _) | _, .work _ .pending
  | _, .work _ .panicked | _, .work _ .unlock | _, .work _ .dropWaker | _, .work _ .returned
  | _, .work _ (.idle _) | _, .startWorker | _, .clone _ | _, .drop _ | _, .sendIdle
  | _, .owner _ => isTrue trivial

/-- One lock, one poll at a time; and every wake of an unfinished future is followed by a poll of it
or has left a message that is still waiting. -/
structure LosesNoWake (C : Client Fut Job Local State Action Owner)
    (ok : Bin Fut Job Local State bounded → BinLabel Action Owner → Prop)
    (s : Bin Fut Job Local State bounded) : Prop where
  exclusive : ∀ f, weight (WorkerPc.inside f) s.workers ≤ 1
  kept : ∀ (f : ℕ) (a : BinLabel Action Owner) (t u : Bin Fut Job Local State bounded)
    (tr : List (BinLabel Action Owner)), s.completedAt f = false → s.WakesAt f a → ok s a →
    s.step C a = some t → (system C bounded).Path ok t tr u →
    (∃ w, .work w (.poll f) ∈ tr) ∨ 0 < u.waiting f

/-- A worker moves and the channel stays. -/
theorem waiting_move {w : ℕ} {pc pc' : WorkerPc Local} {f : ℕ} (hw : s.workers[w]? = some pc)
    (hworkers : t.workers = s.workers.set w pc') (hchannel : t.channel = s.channel)
    (hin : pc.holding f ≤ pc'.holding f) : s.waiting f ≤ t.waiting f := by
  have hmove : t.waiting f + pc.holding f = s.waiting f + pc'.holding f :=
    load_move hw hworkers hchannel
  omega

/-- A message is sent and no worker moves. -/
theorem waiting_sent {level : ℕ} {m : ThreadMessage Job}
    {c : List (Fifo (ThreadMessage Job) bounded)} {f : ℕ} (hc : Sent s.channel level m c)
    (hchannel : t.channel = c) (hworkers : t.workers = s.workers) :
    s.waiting f ≤ t.waiting f := by
  have hsent : t.waiting f = s.waiting f + m.isWork f := load_sent hc hchannel hworkers
  omega

/-- A wake leaves a message of its future. -/
theorem waiting_woken {c : List (Fifo (ThreadMessage Job) bounded)} {f : ℕ}
    (hc : Sent s.channel 0 (.work f) c) (hchannel : t.channel = c) : 0 < t.waiting f := by
  have hmass := hc.mass (w := ThreadMessage.isWork f)
  simp only [ThreadMessage.isWork, if_true] at hmass
  simp only [waiting, hchannel]
  omega

/-- Only a poll takes the last message of a future out of the way. -/
theorem Effect.waiting_pos (he : Effect C s a t) {f : ℕ} (hok : s.TakesWake a)
    (hfull : ∀ m, s.send m 0 = none → lengthAt s.channel 0 = bounded)
    (hpoll : ∀ w, a ≠ .work w (.poll f)) (hpos : 0 < s.waiting f) : 0 < t.waiting f := by
  cases he with
  | startWorker => simpa [waiting, WorkerPc.holding] using hpos
  | @recv w level m c hw hc =>
      have hm : (handle C m).holding f = m.isWork f := by cases m <;> rfl
      exact hpos.trans_eq (load_received hw hc rfl rfl rfl hm).symm
  | @poll w f' u hw hf hl =>
      have hne : f' ≠ f := fun he => hpoll w (by rw [he])
      refine hpos.trans_le (waiting_move hw rfl rfl ?_)
      simp [WorkerPc.holding, hne]
  | contend hw => exact hpos.trans_le (waiting_move hw rfl rfl le_rfl)
  | retry hw hf hc => exact hpos.trans_eq (load_resent hw hc rfl rfl rfl).symm
  | @retryFailed w f' hw hnone =>
      have hset := weight_set (w := WorkerPc.holding f) (.unwind f' none) hw
      simp only [WorkerPc.holding] at hset
      by_cases hff : f' = f
      · have htwo : 2 ≤ s.waiting f' := by
          rcases hok with hroom | htwo
          · exact absurd (hfull _ hnone) hroom.ne
          · exact htwo f' (by simp [hw, WorkerPc.wakes])
        rw [hff] at htwo
        rw [if_pos hff] at hset
        simp only [waiting, setWorker] at htwo ⊢
        omega
      · rw [if_neg hff] at hset
        simp only [waiting, setWorker] at hpos ⊢
        omega
  | actPoll hw | actJob hw | wakeInPollFailed hw | ready hw | pending hw | panickedInPoll hw
  | panickedInJob hw | unlock hw | dropWaker hw | unwind hw | returned hw | idle hw =>
      exact hpos.trans_le (waiting_move hw rfl rfl (Nat.zero_le _))
  | wakeInPoll hw hf hc | wake hf hn hc | wakeByRef hf hn hc | sendIdle hc | spawnFuture ho hc
  | spawnJob ho hc => exact hpos.trans_le (waiting_sent hc rfl rfl)
  | _ => exact hpos

theorem Effect.waiting_of_wakes (he : Effect C s a t) {f : ℕ} (hwakes : s.WakesAt f a)
    (hok : s.TakesWake a) (hfull : ∀ m, s.send m 0 = none → lengthAt s.channel 0 = bounded) :
    0 < t.waiting f := by
  cases he with
  | @wakeInPoll w f' p u c hw hf hc =>
      obtain ⟨p', hp'⟩ := hwakes
      obtain ⟨rfl, -⟩ := WorkerPc.polling.inj (Option.some.inj (hw.symm.trans hp'))
      exact waiting_woken hc rfl
  | @wakeInPollFailed w f' p hw hnone =>
      obtain ⟨p', hp'⟩ := hwakes
      rcases hok with hroom | hpos
      · exact absurd (hfull _ hnone) hroom.ne
      · have hpos := hpos f (by simp [hp', WorkerPc.wakes])
        exact hpos.trans_le (waiting_move hw rfl rfl (Nat.zero_le _))
  | wake hf hn hc | wakeByRef hf hn hc =>
      obtain rfl := hwakes
      exact waiting_woken hc rfl
  | wakeFailed hf hn hnone | wakeByRefFailed hf hn hnone =>
      obtain rfl := hwakes
      exact hok.resolve_left fun hroom => hroom.ne (hfull _ hnone)
  | _ => exact hwakes.elim

/-- No wake is lost in a run whose wakes and retries are all taken. -/
theorem losesNoWake_of_run (hr : (system C bounded).Run TakesWake h s) :
    LosesNoWake C TakesWake s := by
  refine ⟨fun f => (exclusive_of_run hr).le_one f, ?_⟩
  intro f a t u tr _ hwakes hok hst hp
  have ht : (system C bounded).Run TakesWake (a :: h) t := .snoc hr hok hst
  have hfull : ∀ {h : List (BinLabel Action Owner)} {s : Bin Fut Job Local State bounded},
      (system C bounded).Run TakesWake h s → ∀ m, s.send m 0 = none →
        lengthAt s.channel 0 = bounded :=
    fun hs m hm => full_of_send_eq_none hs (by omega) hm
  have hwait := (effect_of_step hst).waiting_of_wakes hwakes hok (hfull hr)
  refine hp.induct (P := fun tr u => (∃ w, .work w (.poll f) ∈ tr) ∨ 0 < u.waiting f)
    (.inr hwait) ?_
  intro tr u b v hu ih hok hst
  rcases ih with ⟨w, hw⟩ | hpos
  · exact .inl ⟨w, List.mem_cons_of_mem _ hw⟩
  · by_cases hpoll : ∃ w, b = .work w (.poll f)
    · obtain ⟨w, rfl⟩ := hpoll
      exact .inl ⟨w, List.mem_cons_self⟩
    · right
      apply (effect_of_step hst).waiting_pos hok (hfull (ht.trans hu)) _ hpos
      exact fun w hw => hpoll ⟨w, hw⟩

/-- The state `t` is `s` after `n` wakes of the future `f` by reference. -/
structure Filled (f : ℕ) (s : Bin Fut Job Local State bounded) (n : ℕ)
    (t : Bin Fut Job Local State bounded) : Prop where
  workers : t.workers = s.workers
  length : lengthAt t.channel 0 = lengthAt s.channel 0 + n
  levels : t.channel.length = s.channel.length
  waker : ∃ u, t.futures[f]? = some u ∧ u.wakers ≠ 0
  others : ∀ g, g ≠ f → t.futures[g]? = s.futures[g]? ∧ t.waiting g = s.waiting g

theorem Filled.step {f n : ℕ} (hs : Filled f s n t) (hlen : 0 < s.channel.length)
    (hroom : lengthAt s.channel 0 + n < bounded) :
    ∃ u, t.step C (.wakeByRef f) = some u ∧ Filled f s (n + 1) u := by
  obtain ⟨u, hf, hn⟩ := hs.waker
  rw [← hs.levels] at hlen
  rw [← hs.length] at hroom
  obtain ⟨c, hsend, hc⟩ := exists_send (.work f) hlen hroom
  refine ⟨(t.setChannel c).setFuture f { u with strong := u.strong + 1 }, ?_, hs.workers, ?_, ?_,
    ⟨_, List.getElem?_set_self (List.getElem?_eq_some_iff.mp hf).1, hn⟩, fun g hg => ⟨?_, ?_⟩⟩
  · simp only [Bin.step, hf, if_neg hn, hsend]
  · have hadd := hc.lengthAt 0
    rw [if_pos rfl] at hadd
    have hold := hs.length
    change lengthAt c 0 = _
    omega
  · exact hc.length.trans hs.levels
  · exact (List.getElem?_set_ne (Ne.symm hg)).trans (hs.others g hg).1
  · have hmass := hc.mass (w := ThreadMessage.isWork g)
    have hold := (hs.others g hg).2
    simp only [ThreadMessage.isWork, if_neg (Ne.symm hg)] at hmass
    simp only [waiting, setFuture, setChannel] at hold ⊢
    omega

theorem exists_filled {f : ℕ} {u : OurFuture Fut} (n : ℕ) (hlen : 0 < s.channel.length)
    (hf : s.futures[f]? = some u) (hn : u.wakers ≠ 0)
    (hle : lengthAt s.channel 0 + n ≤ bounded) :
    ∃ t, (system C bounded).Path Free s (List.replicate n (.wakeByRef f)) t ∧ Filled f s n t := by
  apply Lts.exists_path_replicate (P := fun n t => Filled f s n t)
  · exact ⟨rfl, rfl, rfl, ⟨u, hf, hn⟩, fun g _ => ⟨rfl, rfl⟩⟩
  · intro k hk t ht
    have hst : ∃ u, t.step C (.wakeByRef f) = some u ∧ Filled f s (k + 1) u :=
      ht.step hlen (by omega)
    exact ⟨trivial, hst⟩

/-- A client whose futures are pending at every poll. -/
abbrev pendingAtOnce : Client Unit Empty Unit Unit Unit Unit where
  init := ()
  poll := fun _ => ()
  call := fun j => j.elim
  act := fun _ _ _ => none
  result := fun _ => some .pending
  owner := fun _ _ => some ((), some (.inl ()))
  sendFailed := fun _ => ()

/-- Two futures whose wakers were cloned; the first one is being polled again. -/
def pollAgain : List (BinLabel Unit Unit) :=
  [.owner (), .owner (), .startWorker, .startWorker, .work 0 (.recv 1), .work 0 (.poll 0),
    .work 0 .clone, .work 0 .pending, .work 0 .unlock, .work 0 .dropWaker, .work 0 (.recv 1),
    .work 0 (.poll 1), .work 0 .clone, .work 0 .pending, .work 0 .unlock, .work 0 .dropWaker,
    .wakeByRef 0, .work 0 (.recv 0), .work 0 (.poll 0)]

def polledAgain : Bin Unit Empty Unit Unit 1000000 where
  channel := [.empty, .empty]
  futures := [⟨(), true, 2, 1, false⟩, ⟨(), false, 1, 1, false⟩]
  workers := [.polling 0 (), .recv]
  state := ()

/-- The message of a wake of the first future, received by the other worker. -/
def contended : Bin Unit Empty Unit Unit 1000000 where
  channel := [.empty, .empty]
  futures := [⟨(), true, 3, 1, false⟩, ⟨(), false, 1, 1, false⟩]
  workers := [.polling 0 (), .contended 0]
  state := ()

/-- A million wakes of the second future fill level 0, and the retry of the first one panics. -/
theorem exists_lostWake :
    ¬ ∀ s, (system pendingAtOnce 1000000).Reachable s → LosesNoWake pendingAtOnce Free s := by
  intro hall
  have hreach : (system pendingAtOnce 1000000).Reachable polledAgain :=
    ⟨pollAgain.reverse, Lts.path_of_exec _ (by decide)⟩
  obtain ⟨t, hwake, hcontend⟩ : ∃ t, polledAgain.step pendingAtOnce (.wakeByRef 0) = some t ∧
      (system pendingAtOnce 1000000).exec Free t [.work 1 (.recv 0), .work 1 .contend] =
        some contended := ⟨_, rfl, by decide⟩
  obtain ⟨u, hfill, hu⟩ := exists_filled (C := pendingAtOnce) (s := contended) (f := 1) 1000000
    (by decide) rfl (by decide) (by decide)
  have hsend : u.send (.work 0) 0 = none := send_eq_none_of_full _ hu.length
  have hworker : u.workers[1]? = some (.contended 0) := by
    rw [hu.workers]
    rfl
  have hretry : (system pendingAtOnce 1000000).step u (.work 1 .retry) =
      some (u.setWorker 1 (.unwind 0 none)) := by
    change u.step pendingAtOnce (.work 1 .retry) = _
    have hfuture : u.futures[0]? = some ⟨(), true, 3, 1, false⟩ := (hu.others 0 (by decide)).1
    simp only [Bin.step, hworker, Option.bind_some, workStep, hfuture, hsend]
  have hpath : (system pendingAtOnce 1000000).Path Free t _ _ :=
    ((Lts.path_of_exec _ hcontend).trans hfill).snoc trivial hretry
  rcases (hall _ hreach).kept 0 (.wakeByRef 0) _ _ _ rfl rfl trivial hwake hpath with ⟨w, hw⟩ | hpos
  · rcases List.mem_cons.mp hw with hw | hw
    · cases hw
    · rcases List.mem_append.mp hw with hw | hw
      · cases List.eq_of_mem_replicate hw
      · revert hw
        simp
  · have hwaiting : u.waiting 0 = 1 := (hu.others 0 (by decide)).2
    have hset := weight_set (w := WorkerPc.holding 0) (.unwind 0 none) hworker
    simp only [WorkerPc.holding, if_true] at hset
    simp only [waiting, setWorker] at hwaiting hpos
    omega

/-- The message of a contended wake is sent again. -/
def contendedWake : List (BinLabel Unit Unit) :=
  pollAgain ++ [.wakeByRef 0, .work 1 (.recv 0), .work 1 .contend, .work 1 .retry]

theorem losesNoWake_contendedWake :
    LosesNoWake pendingAtOnce TakesWake (⟨[⟨[.work 0], by decide⟩, .empty],
      [⟨(), true, 4, 1, false⟩, ⟨(), false, 1, 1, false⟩], [.polling 0 (), .dropWaker 0], ()⟩ :
      Bin Unit Empty Unit Unit 1000000) :=
  losesNoWake_of_run (Lts.path_of_exec contendedWake (by decide))

end Bin
end Kiruna.Tpc

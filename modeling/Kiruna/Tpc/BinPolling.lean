import Kiruna.Tpc.BinStep

/-!
# Who may poll a future

The lock keeps the polls of one future apart. It does not keep a completed future from being polled
again: that depends on the messages that are left when the poll returns `Ready`, and on the wakes
that come after it. `pollers` counts everything that still leads to a poll.
-/

namespace Kiruna.Tpc

/-- The worker is past the compare-exchange and has not reached the store. -/
def WorkerPc.inside {Local : Type*} (f : ℕ) : WorkerPc Local → ℕ
  | .polling f' _ | .unlock f' => if f' = f then 1 else 0
  | _ => 0

/-- The worker polls the future, or is going to try or to send it again. -/
def WorkerPc.engaged {Local : Type*} (f : ℕ) : WorkerPc Local → ℕ
  | .tryLock f' | .contended f' | .polling f' _ => if f' = f then 1 else 0
  | _ => 0

def ThreadMessage.isWork {Job : Type*} (f : ℕ) : ThreadMessage Job → ℕ
  | .work f' => if f' = f then 1 else 0
  | _ => 0

namespace Bin

open Lts (Free)

variable {Fut Job Local State Action Owner : Type*} {bounded : ℕ}
  {C : Client Fut Job Local State Action Owner} {s t : Bin Fut Job Local State bounded}
  {a : BinLabel Action Owner} {h : List (BinLabel Action Owner)}
  {ok : Bin Fut Job Local State bounded → BinLabel Action Owner → Prop}

def lockedAt (s : Bin Fut Job Local State bounded) (f : ℕ) : Bool :=
  s.futures[f]?.any OurFuture.locked

def completedAt (s : Bin Fut Job Local State bounded) (f : ℕ) : Bool :=
  s.futures[f]?.any OurFuture.completed

/-- The queued messages and the workers that lead to a poll of the future, or are in one. -/
def pollers (s : Bin Fut Job Local State bounded) (f : ℕ) : ℕ :=
  mass (ThreadMessage.isWork f) s.channel + weight (WorkerPc.engaged f) s.workers

/-- The poll that returns `Ready` is the last thing that leads to a poll of its future, and a waker
is woken only while its future is unfinished, or when the level of the wakes is full and the wake
panics. -/
def Quiet (s : Bin Fut Job Local State bounded) : BinLabel Action Owner → Prop
  | .work _ (.ready f) => s.pollers f = 1
  | .wake f | .wakeByRef f => s.completedAt f = false ∨ lengthAt s.channel 0 = bounded
  | _ => True

instance : ∀ (s : Bin Fut Job Local State bounded) (a : BinLabel Action Owner),
    Decidable (s.Quiet a)
  | s, .work _ (.ready f) => inferInstanceAs (Decidable (s.pollers f = 1))
  | s, .wake f | s, .wakeByRef f =>
      inferInstanceAs (Decidable (s.completedAt f = false ∨ lengthAt s.channel 0 = bounded))
  | _, .work _ (.recv _) | _, .work _ (.poll _) | _, .work _ .contend | _, .work _ .retry
  | _, .work _ (.act _) | _, .work _ .wake | _, .work _ .clone | _, .work _ .pending
  | _, .work _ .panicked | _, .work _ .unlock | _, .work _ .dropWaker | _, .work _ .returned
  | _, .work _ (.idle _) | _, .startWorker | _, .clone _ | _, .drop _ | _, .sendIdle
  | _, .owner _ => isTrue trivial

section Accessors

variable {f g : ℕ} {u u' : OurFuture Fut}

theorem completedAt_setFuture (hf : s.futures[f]? = some u) :
    (s.setFuture f u').completedAt g = if g = f then u'.completed else s.completedAt g :=
  any_getElem?_set _ hf g

theorem lockedAt_setFuture (hf : s.futures[f]? = some u) :
    (s.setFuture f u').lockedAt g = if g = f then u'.locked else s.lockedAt g :=
  any_getElem?_set _ hf g

theorem completedAt_eq (hf : s.futures[f]? = some u) : s.completedAt f = u.completed := by
  rw [completedAt, hf, Option.any_some]

theorem lockedAt_eq (hf : s.futures[f]? = some u) : s.lockedAt f = u.locked := by
  rw [lockedAt, hf, Option.any_some]

/-- A change of a future that is neither of its lock nor of its completion. -/
theorem completedAt_setFuture_of_eq (hf : s.futures[f]? = some u)
    (hu : u'.completed = u.completed) : (s.setFuture f u').completedAt g = s.completedAt g := by
  rw [completedAt_setFuture hf]
  split_ifs with hg
  · rw [hg, hu, completedAt_eq hf]
  · rfl

theorem lockedAt_setFuture_of_eq (hf : s.futures[f]? = some u) (hu : u'.locked = u.locked) :
    (s.setFuture f u').lockedAt g = s.lockedAt g := by
  rw [lockedAt_setFuture hf]
  split_ifs with hg
  · rw [hg, hu, lockedAt_eq hf]
  · rfl

theorem any_append_new (p : OurFuture Fut → Bool) (u : Fut) (hp : p (.new u) = false) :
    (s.futures ++ [.new u])[g]?.any p = s.futures[g]?.any p := by
  rcases Nat.lt_or_ge g s.futures.length with hlt | hge
  · rw [List.getElem?_append_left hlt]
  · rw [List.getElem?_append_right hge, List.getElem?_eq_none hge]
    cases g - s.futures.length with
    | zero => exact hp
    | succ n => rfl

end Accessors

/-- Only a poll that returns `Ready` completes a future. -/
theorem Effect.completedAt_eq (he : Effect C s a t) (ha : ∀ w f, a ≠ .work w (.ready f)) (g : ℕ) :
    t.completedAt g = s.completedAt g := by
  cases he with
  | ready => exact absurd rfl (ha _ _)
  | poll hw hf | retry hw hf | wakeInPoll hw hf | cloneInPoll hw hf | unlock hw hf
  | dropWaker hw hf | unwind hw hf | clone hf | wake hf | wakeFailed hf | wakeByRef hf | drop hf =>
      exact completedAt_setFuture_of_eq hf rfl
  | spawnFuture => exact any_append_new _ _ rfl
  | _ => rfl

/-- Only the compare-exchange and the store change a lock. -/
theorem Effect.lockedAt_eq (he : Effect C s a t) (hpoll : ∀ w f, a ≠ .work w (.poll f))
    (hunlock : ∀ w, a ≠ .work w .unlock) (g : ℕ) : t.lockedAt g = s.lockedAt g := by
  cases he with
  | poll => exact absurd rfl (hpoll _ _)
  | unlock => exact absurd rfl (hunlock _)
  | retry hw hf | wakeInPoll hw hf | cloneInPoll hw hf | ready hw hf | dropWaker hw hf
  | unwind hw hf | clone hf | wake hf | wakeFailed hf | wakeByRef hf | drop hf =>
      exact lockedAt_setFuture_of_eq hf rfl
  | spawnFuture => exact any_append_new _ _ rfl
  | _ => rfl

/-- Only the holder of the lock is inside. -/
def Exclusive (s : Bin Fut Job Local State bounded) : Prop :=
  ∀ f, weight (WorkerPc.inside f) s.workers ≤ (s.lockedAt f).toNat

theorem Exclusive.move (hs : Exclusive s) {w : ℕ} {pc pc' : WorkerPc Local}
    (hw : s.workers[w]? = some pc) (hworkers : t.workers = s.workers.set w pc')
    (hl : ∀ g, t.lockedAt g = s.lockedAt g) (hin : ∀ g, pc'.inside g ≤ pc.inside g) :
    Exclusive t := by
  intro g
  have hg := hs g
  have hset := weight_set (w := WorkerPc.inside g) pc' hw
  have hle := hin g
  rw [hworkers, hl]
  omega

theorem Exclusive.frame (hs : Exclusive s) (hworkers : t.workers = s.workers)
    (hl : ∀ g, t.lockedAt g = s.lockedAt g) : Exclusive t := by
  intro g
  rw [hworkers, hl]
  exact hs g

theorem Exclusive.effect (hs : Exclusive s) (he : Effect C s a t) : Exclusive t := by
  have hlocked := he.lockedAt_eq
  cases he with
  | startWorker =>
      intro g
      have hg := hs g
      change weight (WorkerPc.inside g) (s.workers ++ [.recv]) ≤ (s.lockedAt g).toNat
      simpa [WorkerPc.inside] using hg
  | @recv w level m c hw hc =>
      refine hs.move hw rfl (hlocked nofun nofun) fun g => ?_
      cases m <;> simp [handle, WorkerPc.inside]
  | @poll w f u hw hf hl =>
      intro g
      have hg := hs g
      have hset := weight_set (w := WorkerPc.inside g) (.polling f (C.poll u.underlying)) hw
      change weight (WorkerPc.inside g) (s.workers.set w _) ≤
        ((s.setFuture f { u with locked := true }).lockedAt g).toNat
      rw [lockedAt_setFuture hf]
      by_cases hgf : g = f
      · subst hgf
        rw [lockedAt_eq hf, hl, Bool.toNat_false] at hg
        simp only [WorkerPc.inside, if_true] at hset ⊢
        rw [Bool.toNat_true]
        omega
      · simp only [WorkerPc.inside, if_neg hgf, if_neg (Ne.symm hgf)] at hset ⊢
        omega
  | contend hw | retry hw | retryFailed hw | wakeInPollFailed hw | panickedInPoll hw
  | panickedInJob hw | dropWaker hw | unwind hw | returned hw =>
      exact hs.move hw rfl (hlocked nofun nofun) fun _ => Nat.zero_le _
  | idle hw =>
      exact hs.move hw rfl (hlocked nofun nofun) fun g => by split_ifs <;> exact Nat.zero_le _
  | actPoll hw | actJob hw | ready hw | pending hw =>
      exact hs.move hw rfl (hlocked nofun nofun) fun _ => le_rfl
  | @unlock w f u hw hf =>
      intro g
      have hg := hs g
      have hset := weight_set (w := WorkerPc.inside g) (.dropWaker f) hw
      change weight (WorkerPc.inside g) (s.workers.set w _) ≤
        ((s.setFuture f { u with locked := false }).lockedAt g).toNat
      rw [lockedAt_setFuture hf]
      by_cases hgf : g = f
      · subst hgf
        have hle := (s.lockedAt g).toNat_le
        simp only [WorkerPc.inside, if_true] at hset ⊢
        omega
      · simp only [WorkerPc.inside, if_neg hgf, if_neg (Ne.symm hgf)] at hset ⊢
        omega
  | _ => exact hs.frame rfl (hlocked nofun nofun)

theorem exclusive_of_run (hr : (system C bounded).Run ok h s) : Exclusive s :=
  hr.invariant (fun _ _ _ hs _ hst => hs.effect (effect_of_step hst)) fun _ => Nat.zero_le _

/-- At most one worker is inside the poll of a future. -/
theorem Exclusive.le_one (hs : Exclusive s) (f : ℕ) : weight (WorkerPc.inside f) s.workers ≤ 1 :=
  (hs f).trans (Bool.toNat_le _)

/-- A worker moves and the channel stays. -/
theorem pollers_move {w : ℕ} {pc pc' : WorkerPc Local} {g : ℕ} (hw : s.workers[w]? = some pc)
    (hworkers : t.workers = s.workers.set w pc') (hchannel : t.channel = s.channel)
    (hin : pc'.engaged g ≤ pc.engaged g) : t.pollers g ≤ s.pollers g := by
  have hmove : t.pollers g + pc.engaged g = s.pollers g + pc'.engaged g :=
    load_move hw hworkers hchannel
  omega

/-- A message is sent and no worker moves. -/
theorem pollers_sent {level : ℕ} {m : ThreadMessage Job}
    {c : List (Fifo (ThreadMessage Job) bounded)} {n g : ℕ} (hc : Sent s.channel level m c)
    (hchannel : t.channel = c) (hworkers : t.workers = s.workers) (hm : m.isWork g ≤ n) :
    t.pollers g ≤ s.pollers g + n := by
  have hsent : t.pollers g = s.pollers g + m.isWork g := load_sent hc hchannel hworkers
  omega

/-- Only a wake and a spawn lead to one more poll. -/
theorem Effect.pollers_le (he : Effect C s a t) (hwork : ∀ w, a ≠ .work w .wake)
    (hwake : ∀ f, a ≠ .wake f ∧ a ≠ .wakeByRef f) (howner : ∀ o, a ≠ .owner o) (g : ℕ) :
    t.pollers g ≤ s.pollers g := by
  cases he with
  | startWorker => simp [pollers, WorkerPc.engaged]
  | @recv w level m c hw hc =>
      have hm : (handle C m).engaged g = m.isWork g := by cases m <;> rfl
      exact (load_received hw hc rfl rfl rfl hm).le
  | retry hw hf hc => exact (load_resent hw hc rfl rfl rfl).le
  | poll hw | contend hw | actPoll hw | actJob hw => exact pollers_move hw rfl rfl le_rfl
  | retryFailed hw | panickedInPoll hw | panickedInJob hw | ready hw | pending hw
  | unlock hw | dropWaker hw | unwind hw | returned hw =>
      exact pollers_move hw rfl rfl (Nat.zero_le _)
  | idle hw =>
      refine pollers_move hw rfl rfl ?_
      split_ifs <;> exact Nat.zero_le _
  | wakeInPoll | wakeInPollFailed => exact absurd rfl (hwork _)
  | wake | wakeFailed => exact absurd rfl (hwake _).1
  | wakeByRef | wakeByRefFailed => exact absurd rfl (hwake _).2
  | sendIdle hc => exact pollers_sent (n := 0) hc rfl rfl le_rfl
  | owner | spawnFuture | spawnJob | spawnFailed => exact absurd rfl (howner _)
  | cloneInPoll | clone | drop | sendIdleFailed => exact le_rfl

/-- Nothing leads to another poll of a completed future. -/
def Done (s : Bin Fut Job Local State bounded) : Prop :=
  ∀ f, s.completedAt f = true → s.pollers f = 0

theorem Done.frame (hs : Done s) (hp : ∀ g, t.pollers g ≤ s.pollers g)
    (hc : ∀ g, t.completedAt g = s.completedAt g) : Done t := by
  intro g hg
  have hz := hs g ((hc g).symm.trans hg)
  have hle := hp g
  omega

/-- A wake adds to the pollers of an unfinished future. -/
theorem Done.wake (hs : Done s) {f : ℕ} {c : List (Fifo (ThreadMessage Job) bounded)}
    (hsent : Sent s.channel 0 (.work f) c) (hf : s.completedAt f = false)
    (hchannel : t.channel = c) (hworkers : t.workers = s.workers)
    (hc : ∀ g, t.completedAt g = s.completedAt g) : Done t := by
  intro g hg
  rw [hc] at hg
  have hne : g ≠ f := by
    rintro rfl
    rw [hf] at hg
    cases hg
  have hz := hs g hg
  have hm := hsent.mass (w := ThreadMessage.isWork g)
  simp only [ThreadMessage.isWork, if_neg (Ne.symm hne)] at hm
  simp only [pollers, hchannel, hworkers] at hz ⊢
  omega

theorem Done.not_completed (hs : Done s) {w f : ℕ} {pc : WorkerPc Local}
    (hw : s.workers[w]? = some pc) (hpc : pc.engaged f = 1) : s.completedAt f = false := by
  rw [← Bool.not_eq_true]
  intro hc
  have hz := hs f hc
  have hle := le_weight (w := WorkerPc.engaged f) hw
  simp only [pollers] at hz
  omega

theorem Done.effect (hs : Done s) (hok : s.Quiet a) (he : Effect C s a t) : Done t := by
  have hcompleted := he.completedAt_eq
  have hpollers := he.pollers_le
  cases he with
  | wakeInPoll hw hf hc =>
      exact hs.wake hc (hs.not_completed hw (if_pos rfl)) rfl rfl (hcompleted nofun)
  | wakeInPollFailed hw =>
      exact hs.frame (fun _ => pollers_move hw rfl rfl (Nat.zero_le _)) (hcompleted nofun)
  | @ready w f p u hw hf hr =>
      have hset := fun g => weight_set (w := WorkerPc.engaged g) (.unlock f) hw
      intro g hg
      have hone : s.pollers f = 1 := hok
      have hz := hs g
      have hgset := hset g
      change (s.setFuture f { u with completed := true }).completedAt g = true at hg
      rw [completedAt_setFuture hf] at hg
      simp only [pollers, setWorker, setFuture, WorkerPc.engaged] at hone hz hgset ⊢
      by_cases hgf : g = f
      · subst hgf
        rw [if_pos rfl] at hgset
        omega
      · rw [if_neg hgf] at hg
        have hz := hz hg
        omega
  | wake hf hn hc | wakeByRef hf hn hc =>
      have hroom := hc.lengthAt_lt
      exact hs.wake hc (hok.resolve_right hroom.ne) rfl rfl (hcompleted nofun)
  | @spawnFuture o st u c ho hc =>
      intro g hg
      rw [hcompleted nofun] at hg
      have hz := hs g hg
      have hm := hc.mass (w := ThreadMessage.isWork g)
      have hne : s.futures.length ≠ g := by
        rintro rfl
        rw [completedAt, List.getElem?_eq_none le_rfl] at hg
        cases hg
      simp only [ThreadMessage.isWork, if_neg hne] at hm
      simp only [pollers, setChannel, setState] at hz ⊢
      omega
  | spawnJob ho hc =>
      exact hs.frame (fun _ => pollers_sent (n := 0) hc rfl rfl le_rfl) (hcompleted nofun)
  | wakeFailed | wakeByRefFailed | owner | spawnFailed =>
      exact hs.frame (fun _ => le_rfl) (hcompleted nofun)
  | _ => exact hs.frame (hpollers nofun (fun _ => ⟨nofun, nofun⟩) nofun) (hcompleted nofun)

theorem done_of_run (hr : (system C bounded).Run Quiet h s) : Done s := by
  refine hr.invariant (fun _ _ _ hs hok hst => hs.effect hok (effect_of_step hst)) ?_
  intro f hf
  simp [completedAt, system, new] at hf

/-- A future stays completed. -/
theorem Effect.completedAt (he : Effect C s a t) {g : ℕ} (hc : s.completedAt g = true) :
    t.completedAt g = true := by
  by_cases ha : ∀ w f, a ≠ .work w (.ready f)
  · exact (he.completedAt_eq ha g).trans hc
  · push Not at ha
    obtain ⟨w, f, rfl⟩ := ha
    cases he with
    | ready hw hf hr =>
        refine (completedAt_setFuture hf).trans ?_
        split_ifs
        · rfl
        · exact hc

theorem Effect.completedAt_ready {w f : ℕ} (he : Effect C s (.work w (.ready f)) t) :
    t.completedAt f = true := by
  cases he with
  | ready hw hf hr => exact (completedAt_setFuture hf).trans (if_pos rfl)

theorem Effect.not_completed {w f : ℕ} (hs : Done s) (he : Effect C s (.work w (.poll f)) t) :
    s.completedAt f = false := by
  cases he with
  | poll hw hf hl => exact hs.not_completed hw (if_pos rfl)

theorem completedAt_of_ready (hr : (system C bounded).Run ok h s) :
    ∀ w f, .work w (.ready f) ∈ h → s.completedAt f = true := by
  refine hr.induct (P := fun h s => ∀ w f, .work w (.ready f) ∈ h → s.completedAt f = true)
    (fun _ _ hm => absurd hm List.not_mem_nil) ?_
  intro h s a t _ ih _ hst w f hm
  rcases List.mem_cons.mp hm with rfl | hm
  · exact (effect_of_step hst).completedAt_ready
  · exact (effect_of_step hst).completedAt (ih w f hm)

/-- Of a history, newest label first: after a poll of a future has returned `Ready` no poll of the
underlying future begins. -/
def NoPollAfterReady (h : List (BinLabel Action Owner)) : Prop :=
  ∀ l₁ l₂ w f, h = l₁ ++ .work w (.ready f) :: l₂ → ∀ w', .work w' (.poll f) ∉ l₁

theorem noPollAfterReady_of_quiet (hr : (system C bounded).Run Quiet h s) :
    NoPollAfterReady h := by
  refine hr.induct (P := fun h _ => NoPollAfterReady h) (fun l₁ l₂ w f he => ?_) ?_
  · simp at he
  · intro h s a t hs ih hok hst l₁ l₂ w f he w' hm
    cases l₁ with
    | nil => cases hm
    | cons b l₁ =>
        obtain ⟨rfl, rfl⟩ := List.cons.inj he
        rcases List.mem_cons.mp hm with rfl | hm
        · have hdone := completedAt_of_ready hs w f (by simp)
          have hnot := (effect_of_step hst).not_completed (done_of_run hs)
          rw [hdone] at hnot
          cases hnot
        · exact ih l₁ l₂ w f rfl w' hm

/-- A client whose futures return `Ready` at every poll. -/
abbrev readyAtOnce : Client Unit Empty Unit Unit Unit Unit where
  init := ()
  poll := fun _ => ()
  call := fun j => j.elim
  act := fun _ _ _ => none
  result := fun _ => some .ready
  owner := fun _ _ => some ((), some (.inl ()))
  sendFailed := fun _ => ()

/-- The future wakes itself by reference in the poll that returns `Ready`. -/
def wakeAndReady : List (BinLabel Unit Unit) :=
  [.owner (), .startWorker, .work 0 (.recv 1), .work 0 (.poll 0), .work 0 .wake,
    .work 0 (.ready 0), .work 0 .unlock, .work 0 .dropWaker, .work 0 (.recv 0), .work 0 (.poll 0)]

theorem exists_poll_after_ready :
    ¬ ∀ h s, (system readyAtOnce 1000000).Run Free h s → NoPollAfterReady h := by
  intro hall
  have hrun : ∃ s, (system readyAtOnce 1000000).exec Free (new readyAtOnce 1000000)
      wakeAndReady = some s := Option.isSome_iff_exists.mp (by decide)
  obtain ⟨s, hs⟩ := hrun
  have hno := hall _ _ (Lts.path_of_exec _ hs)
  exact hno [.work 0 (.poll 0), .work 0 (.recv 0), .work 0 .dropWaker, .work 0 .unlock]
    [.work 0 .wake, .work 0 (.poll 0), .work 0 (.recv 1), .startWorker, .owner ()] 0 0 rfl 0
    List.mem_cons_self

/-- A future whose waker is cloned and dropped, and which finishes with its only message. -/
def oneMessage : List (BinLabel Unit Unit) :=
  [.owner (), .startWorker, .startWorker, .work 0 (.recv 1), .work 0 (.poll 0), .work 0 .clone,
    .work 0 (.ready 0), .work 0 .unlock, .drop 0, .work 0 .dropWaker]

theorem noPollAfterReady_oneMessage : NoPollAfterReady oneMessage.reverse :=
  noPollAfterReady_of_quiet (show (system readyAtOnce 1000000).Run Quiet _
    ⟨[.empty, .empty], [⟨(), false, 0, 0, true⟩], [.recv, .recv], ()⟩
    from Lts.path_of_exec _ (by decide))

end Bin
end Kiruna.Tpc

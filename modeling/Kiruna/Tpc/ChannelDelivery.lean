import Kiruna.Tpc.ChannelInvariant

/-!
# Delivery of the messages of the channel

The channel refines the queues by level: its semaphore operations are stuttering steps, a push and
a pop are those of the queue. The ledger of the queues then accounts for every message, and the
balance of the permits says when a receiver can wait.
-/

namespace Kiruna.Tpc

variable {α : Type*}

/-- The message of a send call that has pushed it. -/
def SendPc.pushed : SendPc α → Option (Message α × ℕ)
  | .signalLocal m l | .signalGlobal m l | .returned m l => some (m, l)
  | .push _ _ | .panicked => none

def RecvPc.received : RecvPc α → Option (Message α × ℕ)
  | .holding m l => some (m, l)
  | .returned r => r
  | _ => none

def SendPc.PartWay : SendPc α → Prop
  | .signalLocal _ _ | .signalGlobal _ _ => True
  | _ => False

/-- A call that waits at its start is not part-way. -/
def RecvPc.PartWay : RecvPc α → Prop
  | .immediateLocal _ | .restore | .scan _ | .pop _ | .holding _ _ => True
  | _ => False

namespace Channel

variable {bounded levels : ℕ} {s t : Channel α bounded} {h : List (ChannelLabel α)}

def levelQueues (s : Channel α bounded) : LevelQueues α where
  queues := s.shared.map fun one => one.queue.items
  sent := s.senders.map SendPc.pushed
  received := s.receivers.map RecvPc.received

/-- A send call that has not pushed yet carries its own number. -/
def Numbered (s : Channel α bounded) : Prop :=
  ∀ (i : ℕ) (m : Message α) (l : ℕ), s.senders[i]? = some (.push m l) → m.call = i

theorem Numbered.set (hn : Numbered s) {i : ℕ} {pc : SendPc α} (hpc : ∀ m l, pc ≠ .push m l)
    (shared : List (SharedOne α bounded)) (g : ℕ) :
    Numbered ⟨shared, g, s.senders.set i pc, s.receivers⟩ := by
  intro j m l hj
  rcases getElem?_set_cases hj with ⟨-, he⟩ | ⟨-, hj⟩
  · exact absurd he.symm (hpc m l)
  · exact hn j m l hj

theorem Numbered.effect (hn : Numbered s) (he : Effect s t) : Numbered t := by
  cases he with
  | send e l =>
      intro i m l' hi
      rcases getElem?_append_cases hi with hi | ⟨rfl, he⟩
      · exact hn i m l' hi
      · cases he
        rfl
  | sendPanicked | push | signalLocal | signalGlobal => exact hn.set (by simp) _ _
  | _ => exact hn

theorem numbered_of_run (hr : (system α bounded levels).Run OnlyLevelZero h s) : Numbered s :=
  hr.invariant (fun _ _ _ hn hok hst => hn.effect (effect_of_step hok hst))
    (by simp [Numbered, system, new])

/-- A step that neither puts nor takes a message. -/
theorem step_stutter
    (hq : t.shared.map (fun one => one.queue.items) = s.shared.map fun one => one.queue.items)
    (hs : t.senders.map SendPc.pushed = s.senders.map SendPc.pushed)
    (hr : t.receivers.map RecvPc.received = s.receivers.map RecvPc.received) :
    s.levelQueues.Step t.levelQueues := by
  simp only [levelQueues, hq, hs, hr]
  exact .stutter

/-- The channel refines the queues by level. -/
theorem Effect.levelQueues (he : Effect s t) (hn : Numbered s) :
    s.levelQueues.Step t.levelQueues := by
  cases he with
  | send e l =>
      simp only [Channel.levelQueues, List.map_append]
      exact .send
  | sendPanicked hi => exact step_stutter rfl (map_set_of_eq hi rfl) rfl
  | @push i l m one q hi hl hq =>
      obtain rfl := hn i m l hi
      simp only [Channel.levelQueues, List.map_set, hq]
      exact .push (by simp [hi, SendPc.pushed]) (by simp [hl])
  | signalLocal hi hl => exact step_stutter (map_set_of_eq hl rfl) (map_set_of_eq hi rfl) rfl
  | signalGlobal hi => exact step_stutter rfl (map_set_of_eq hi rfl) rfl
  | recv hpc =>
      simp only [Channel.levelQueues, List.map_append]
      rcases hpc with rfl | rfl <;> exact .recv
  | takeGlobal hi hpc hg =>
      rcases hpc with ⟨rfl, rfl⟩ | ⟨l, rfl, rfl⟩ <;>
        exact step_stutter rfl rfl (map_set_of_eq hi rfl)
  | nothing hi | restore hi | recvReturned hi | popEmpty hi =>
      exact step_stutter rfl rfl (map_set_of_eq hi rfl)
  | takeLocal hi hpc hl hg =>
      rcases hpc with rfl | rfl <;>
        exact step_stutter (map_set_of_eq hl rfl) rfl (map_set_of_eq hi rfl)
  | missLocal hi hpc hl hg | fallThrough hi hpc hl =>
      rcases hpc with ⟨rfl, rfl⟩ | ⟨rfl, rfl⟩ <;>
        exact step_stutter rfl rfl (map_set_of_eq hi rfl)
  | pop hi hl hq =>
      simp only [Channel.levelQueues, List.map_set]
      exact .pop (by simp [hi, RecvPc.received]) (by simp [hl, hq])

theorem ledger_of_run (hr : (system α bounded levels).Run OnlyLevelZero h s) :
    s.levelQueues.Ledger := by
  refine hr.induct (P := fun _ s => s.levelQueues.Ledger) ?_ ?_
  · simpa [levelQueues, system, new, LevelQueues.new] using LevelQueues.ledger_new (α := α) levels
  · intro h s a t hs hl hok hst
    exact ((effect_of_step hok hst).levelQueues (numbered_of_run hs)).ledger hl

/-- Where a message can be: in the queue of its level, in the hands of a receiver, or returned by a
receive call. -/
inductive Place
  | queued (k : ℕ)
  | held (j : ℕ)
  | returned (j : ℕ)

def At (s : Channel α bounded) (m : Message α) (l : ℕ) : Place → Prop
  | .queued k => ∃ one, s.shared[l]? = some one ∧ one.queue.items[k]? = some m
  | .held j => s.receivers[j]? = some (.holding m l)
  | .returned j => s.receivers[j]? = some (.returned (some (m, l)))

def SentAt (s : Channel α bounded) (m : Message α) (l : ℕ) : Prop :=
  s.senders[m.call]?.bind SendPc.pushed = some (m, l)

/-- No call is part-way through. -/
def Quiet (s : Channel α bounded) : Prop :=
  (∀ pc ∈ s.senders, ¬ pc.PartWay) ∧ ∀ pc ∈ s.receivers, ¬ pc.PartWay

/-- The channel loses, duplicates and hides no message. -/
structure Delivering (s : Channel α bounded) : Prop where
  located : ∀ m l, s.SentAt m l → ∃! p, s.At m l p
  source : ∀ m l p, s.At m l p → s.SentAt m l
  global : s.Quiet → s.globalSemaphore = weight SharedOne.localSemaphore s.shared
  locals : s.Quiet → ∀ one ∈ s.shared, one.localSemaphore = one.queue.items.length
  blocked : s.Quiet → ∀ i : ℕ, s.receivers[i]? = some .all → s.step (.recvStep i) = none →
    ∀ one ∈ s.shared, one.queue.items = []

/-- The place in the queues by level. -/
def Place.abstract : Place → LevelQueues.Place
  | .queued k => .queued k
  | .held j | .returned j => .received j

variable {m : Message α} {l : ℕ}

theorem sentAt_iff : s.SentAt m l ↔ s.levelQueues.SentAt m l := by
  simp only [SentAt, LevelQueues.SentAt, levelQueues, List.getElem?_map]
  cases s.senders[m.call]? <;> simp

theorem At.abstract {p : Place} (hp : s.At m l p) : s.levelQueues.At m l p.abstract := by
  cases p with
  | queued k =>
      obtain ⟨one, hl, hk⟩ := hp
      exact ⟨one.queue.items, by simp [levelQueues, hl], hk⟩
  | held j =>
      have hj : s.receivers[j]? = some (.holding m l) := hp
      simp [Place.abstract, LevelQueues.At, levelQueues, hj, RecvPc.received]
  | returned j =>
      have hj : s.receivers[j]? = some (.returned (some (m, l))) := hp
      simp [Place.abstract, LevelQueues.At, levelQueues, hj, RecvPc.received]

theorem exists_at {p : LevelQueues.Place} (hp : s.levelQueues.At m l p) :
    ∃ p' : Place, p'.abstract = p ∧ s.At m l p' := by
  cases p with
  | queued k =>
      obtain ⟨items, hl, hk⟩ := hp
      simp only [levelQueues, List.getElem?_map, Option.map_eq_some_iff] at hl
      obtain ⟨one, hl, rfl⟩ := hl
      exact ⟨.queued k, rfl, one, hl, hk⟩
  | received j =>
      simp only [LevelQueues.At, levelQueues, List.getElem?_map, Option.map_eq_some_iff] at hp
      obtain ⟨pc, hj, hpc⟩ := hp
      cases pc with
      | holding m' l' =>
          cases hpc
          exact ⟨.held j, rfl, hj⟩
      | returned r =>
          obtain rfl : r = some (m, l) := hpc
          exact ⟨.returned j, rfl, hj⟩
      | _ => cases hpc

theorem At.unique {p p' : Place} (hp : s.At m l p) (hp' : s.At m l p')
    (he : p.abstract = p'.abstract) : p = p' := by
  cases p with
  | queued k =>
      cases p' <;> cases he
      rfl
  | held j =>
      cases p' with
      | queued k => cases he
      | held j' =>
          cases he
          rfl
      | returned j' =>
          cases he
          cases Option.some.inj ((Eq.symm hp).trans hp')
  | returned j =>
      cases p' with
      | queued k => cases he
      | held j' =>
          cases he
          cases Option.some.inj ((Eq.symm hp).trans hp')
      | returned j' =>
          cases he
          rfl

theorem Inv.global (hi : Inv s) (hq : s.Quiet) :
    s.globalSemaphore = weight SharedOne.localSemaphore s.shared := by
  have hp := hi.permits
  have hr : weight RecvPc.holdsPermit s.receivers = 0 := by
    rw [weight_eq_zero]
    intro pc hpc
    have hn := hq.2 pc hpc
    cases pc <;> first | rfl | exact absurd trivial hn
  have hs : weight SendPc.betweenSignals s.senders = 0 := by
    rw [weight_eq_zero]
    intro pc hpc
    have hn := hq.1 pc hpc
    cases pc <;> first | rfl | exact absurd trivial hn
  rw [localsFrom, List.drop_zero] at hp
  omega

theorem Inv.locals (hi : Inv s) (hq : s.Quiet) {one : SharedOne α bounded} (ho : one ∈ s.shared) :
    one.localSemaphore = one.queue.items.length := by
  obtain ⟨l, hl⟩ := List.mem_iff_getElem?.mp ho
  have hqueue := hi.queue l one hl
  have hr : weight (RecvPc.claims l) s.receivers = 0 := by
    rw [weight_eq_zero]
    intro pc hpc
    have hn := hq.2 pc hpc
    cases pc <;> first | rfl | exact absurd trivial hn
  have hs : weight (SendPc.unsignalled l) s.senders = 0 := by
    rw [weight_eq_zero]
    intro pc hpc
    have hn := hq.1 pc hpc
    cases pc <;> first | rfl | exact absurd trivial hn
  omega

theorem globalSemaphore_of_blocked {i : ℕ} (hi : s.receivers[i]? = some .all)
    (hst : s.step (.recvStep i) = none) : s.globalSemaphore = 0 := by
  simp only [step, hi, Option.bind_some, recvStep] at hst
  split at hst
  · assumption
  · cases hst

theorem delivering_of_run (hr : (system α bounded levels).Run OnlyLevelZero h s) :
    Delivering s where
  located := by
    intro m l hs
    obtain ⟨p, hp, huniq⟩ := (ledger_of_run hr).existsUnique_place (sentAt_iff.mp hs)
    obtain ⟨p', rfl, hp'⟩ := exists_at hp
    exact ⟨p', hp', fun p'' hp'' => hp''.unique hp' (huniq _ hp''.abstract)⟩
  source := fun m l p hp => sentAt_iff.mpr ((ledger_of_run hr).source m l _ hp.abstract)
  global := (inv_of_run hr).global
  locals := fun hq _ ho => (inv_of_run hr).locals hq ho
  blocked := by
    intro hq i hi hst one ho
    have hg := (inv_of_run hr).global hq
    rw [globalSemaphore_of_blocked hi hst, eq_comm, weight_eq_zero] at hg
    have hl := (inv_of_run hr).locals hq ho
    rw [hg one ho] at hl
    exact List.length_eq_zero_iff.mp hl.symm

/-- A message of level 1 that `recv_immediate` passes over and `recv_all` returns. -/
def passOver : List (ChannelLabel ℕ) :=
  [.recvAll, .send 7 1, .sendStep 0, .sendStep 0, .sendStep 0, .recvImmediate 0, .recvStep 1,
    .recvStep 1, .recvStep 1, .recvStep 0, .recvStep 0, .recvStep 0, .recvStep 0, .recvStep 0]

theorem delivering_passOver :
    Delivering (⟨[⟨.empty, 0⟩, ⟨.empty, 0⟩], 0, [.returned ⟨0, 7⟩ 1],
      [.returned (some (⟨0, 7⟩, 1)), .returned none]⟩ : Channel ℕ 4) :=
  delivering_of_run (show (system ℕ 4 2).Run OnlyLevelZero _ _ from
    Lts.path_of_exec passOver (by decide))

end Channel
end Kiruna.Tpc

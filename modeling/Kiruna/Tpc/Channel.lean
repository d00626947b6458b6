import Kiruna.Primitive.Fifo
import Kiruna.Tpc.LevelQueues
import Kiruna.Transition.Lts

/-!
# The hierarchical channel of tpc

Every level of the channel has a bounded queue and a local semaphore, and one global semaphore
counts over all levels. A call of `send`, `recv_immediate` or `recv_all` is a sequence of
indivisible steps, one for each semaphore operation and each push or pop; the calls of any number
of threads interleave freely.
-/

namespace Kiruna.Tpc

structure SharedOne (α : Type*) (bounded : ℕ) where
  queue : Fifo (Message α) bounded
  localSemaphore : ℕ
  deriving DecidableEq

/-- Where a call of `Channel::send` stands: before the push, before `local_semaphore.signal()`,
before `global_semaphore.signal()`, or done. -/
inductive SendPc (α : Type*)
  | push (m : Message α) (level : ℕ)
  | signalLocal (m : Message α) (level : ℕ)
  | signalGlobal (m : Message α) (level : ℕ)
  | returned (m : Message α) (level : ℕ)
  | panicked
  deriving DecidableEq

/-- Where a receive call stands. `immediate` and `immediateLocal` are the two decrements of
`recv_immediate` and `restore` its signal back; `all` is the wait of `recv_all` and `scan` its loop
at a level. In `pop` the call has decremented the local semaphore of the level. -/
inductive RecvPc (α : Type*)
  | immediate (level : ℕ)
  | immediateLocal (level : ℕ)
  | restore
  | all
  | scan (level : ℕ)
  | pop (level : ℕ)
  | holding (m : Message α) (level : ℕ)
  | returned (r : Option (Message α × ℕ))
  | noElementFound
  | unwrapNone
  | indexOutOfBounds
  deriving DecidableEq

structure Channel (α : Type*) (bounded : ℕ) where
  shared : List (SharedOne α bounded)
  globalSemaphore : ℕ
  senders : List (SendPc α)
  receivers : List (RecvPc α)
  deriving DecidableEq

/-- A new call, or the next step of the `i`th one. -/
inductive ChannelLabel (α : Type*)
  | send (element : α) (level : ℕ)
  | sendStep (i : ℕ)
  | recvImmediate (level : ℕ)
  | recvAll
  | recvStep (i : ℕ)
  deriving DecidableEq

namespace Channel

variable {α : Type*} {bounded : ℕ}

def new (α : Type*) (bounded levels : ℕ) : Channel α bounded where
  shared := List.replicate levels ⟨.empty, 0⟩
  globalSemaphore := 0
  senders := []
  receivers := []

/-- The next step of `send`, in the `i`th call. -/
def sendStep (s : Channel α bounded) (i : ℕ) : SendPc α → Option (Channel α bounded)
  | .push m l =>
      match s.shared[l]? with
      | none => some { s with senders := s.senders.set i .panicked }
      | some one =>
          match one.queue.push m with
          | none => some { s with senders := s.senders.set i .panicked }
          | some q => some { s with
              shared := s.shared.set l { one with queue := q }
              senders := s.senders.set i (.signalLocal m l) }
  | .signalLocal m l =>
      match s.shared[l]? with
      | none => none
      | some one => some { s with
          shared := s.shared.set l { one with localSemaphore := one.localSemaphore + 1 }
          senders := s.senders.set i (.signalGlobal m l) }
  | .signalGlobal m l => some { s with
      globalSemaphore := s.globalSemaphore + 1
      senders := s.senders.set i (.returned m l) }
  | .returned _ _ | .panicked => none

/-- `local_semaphore.decrement_immediate()` of `SharedOne::recv_nonblock`: the receiver goes on to
the pop, or to `onEmpty` when the semaphore is at zero. -/
def recvNonblock (s : Channel α bounded) (i l : ℕ) (one : SharedOne α bounded)
    (onEmpty : RecvPc α) : Channel α bounded :=
  match one.localSemaphore with
  | 0 => { s with receivers := s.receivers.set i onEmpty }
  | n + 1 => { s with
      shared := s.shared.set l { one with localSemaphore := n }
      receivers := s.receivers.set i (.pop l) }

/-- The next step of `recv_immediate` or `recv_all`, in the `i`th call. A wait at zero is not a
step. -/
def recvStep (s : Channel α bounded) (i : ℕ) : RecvPc α → Option (Channel α bounded)
  | .immediate l =>
      match s.globalSemaphore with
      | 0 => some { s with receivers := s.receivers.set i (.returned none) }
      | n + 1 => some { s with
          globalSemaphore := n
          receivers := s.receivers.set i (.immediateLocal l) }
  | .immediateLocal l =>
      match s.shared[l]? with
      | none => some { s with receivers := s.receivers.set i .indexOutOfBounds }
      | some one => some (s.recvNonblock i l one .restore)
  | .restore => some { s with
      globalSemaphore := s.globalSemaphore + 1
      receivers := s.receivers.set i (.returned none) }
  | .all =>
      match s.globalSemaphore with
      | 0 => none
      | n + 1 => some { s with
          globalSemaphore := n
          receivers := s.receivers.set i (.scan 0) }
  | .scan l =>
      match s.shared[l]? with
      | none => some { s with receivers := s.receivers.set i .noElementFound }
      | some one => some (s.recvNonblock i l one (.scan (l + 1)))
  | .pop l =>
      match s.shared[l]? with
      | none => none
      | some one =>
          match one.queue.pop with
          | none => some { s with receivers := s.receivers.set i .unwrapNone }
          | some (m, q) => some { s with
              shared := s.shared.set l { one with queue := q }
              receivers := s.receivers.set i (.holding m l) }
  | .holding m l => some { s with receivers := s.receivers.set i (.returned (some (m, l))) }
  | .returned _ | .noElementFound | .unwrapNone | .indexOutOfBounds => none

def step (s : Channel α bounded) : ChannelLabel α → Option (Channel α bounded)
  | .send e l => some { s with senders := s.senders ++ [.push ⟨s.senders.length, e⟩ l] }
  | .sendStep i => s.senders[i]?.bind (s.sendStep i)
  | .recvImmediate l => some { s with receivers := s.receivers ++ [.immediate l] }
  | .recvAll => some { s with receivers := s.receivers ++ [.all] }
  | .recvStep i => s.receivers[i]?.bind (s.recvStep i)

def system (α : Type*) (bounded levels : ℕ) : Lts (Channel α bounded) (ChannelLabel α) where
  init := new α bounded levels
  step := step

/-- What one step can do, as long as `recv_immediate` is called for level 0 only. -/
inductive Effect (s : Channel α bounded) : Channel α bounded → Prop
  | send (e : α) (l : ℕ) :
      Effect s { s with senders := s.senders ++ [.push ⟨s.senders.length, e⟩ l] }
  | sendPanicked {i l : ℕ} {m : Message α} (hi : s.senders[i]? = some (.push m l)) :
      Effect s { s with senders := s.senders.set i .panicked }
  | push {i l : ℕ} {m : Message α} {one : SharedOne α bounded} {q : Fifo (Message α) bounded}
      (hi : s.senders[i]? = some (.push m l)) (hl : s.shared[l]? = some one)
      (hq : q.items = one.queue.items ++ [m]) :
      Effect s { s with
        shared := s.shared.set l { one with queue := q }
        senders := s.senders.set i (.signalLocal m l) }
  | signalLocal {i l : ℕ} {m : Message α} {one : SharedOne α bounded}
      (hi : s.senders[i]? = some (.signalLocal m l)) (hl : s.shared[l]? = some one) :
      Effect s { s with
        shared := s.shared.set l { one with localSemaphore := one.localSemaphore + 1 }
        senders := s.senders.set i (.signalGlobal m l) }
  | signalGlobal {i l : ℕ} {m : Message α} (hi : s.senders[i]? = some (.signalGlobal m l)) :
      Effect s { s with
        globalSemaphore := s.globalSemaphore + 1
        senders := s.senders.set i (.returned m l) }
  | recv {pc : RecvPc α} (hpc : pc = .all ∨ pc = .immediate 0) :
      Effect s { s with receivers := s.receivers ++ [pc] }
  | takeGlobal {i n : ℕ} {pc pc' : RecvPc α} (hi : s.receivers[i]? = some pc)
      (hpc : (pc = .all ∧ pc' = .scan 0) ∨ ∃ l, pc = .immediate l ∧ pc' = .immediateLocal l)
      (hn : s.globalSemaphore = n + 1) :
      Effect s { s with globalSemaphore := n, receivers := s.receivers.set i pc' }
  | nothing {i l : ℕ} (hi : s.receivers[i]? = some (.immediate l)) :
      Effect s { s with receivers := s.receivers.set i (.returned none) }
  | takeLocal {i l n : ℕ} {pc : RecvPc α} {one : SharedOne α bounded}
      (hi : s.receivers[i]? = some pc) (hpc : pc = .immediateLocal l ∨ pc = .scan l)
      (hl : s.shared[l]? = some one) (hn : one.localSemaphore = n + 1) :
      Effect s { s with
        shared := s.shared.set l { one with localSemaphore := n }
        receivers := s.receivers.set i (.pop l) }
  | missLocal {i l : ℕ} {pc pc' : RecvPc α} {one : SharedOne α bounded}
      (hi : s.receivers[i]? = some pc)
      (hpc : (pc = .immediateLocal l ∧ pc' = .restore) ∨ (pc = .scan l ∧ pc' = .scan (l + 1)))
      (hl : s.shared[l]? = some one) (hn : one.localSemaphore = 0) :
      Effect s { s with receivers := s.receivers.set i pc' }
  | fallThrough {i l : ℕ} {pc pc' : RecvPc α} (hi : s.receivers[i]? = some pc)
      (hpc : (pc = .immediateLocal l ∧ pc' = .indexOutOfBounds) ∨
        (pc = .scan l ∧ pc' = .noElementFound))
      (hl : s.shared[l]? = none) :
      Effect s { s with receivers := s.receivers.set i pc' }
  | restore {i : ℕ} (hi : s.receivers[i]? = some .restore) :
      Effect s { s with
        globalSemaphore := s.globalSemaphore + 1
        receivers := s.receivers.set i (.returned none) }
  | pop {i l : ℕ} {m : Message α} {one : SharedOne α bounded} {q : Fifo (Message α) bounded}
      (hi : s.receivers[i]? = some (.pop l)) (hl : s.shared[l]? = some one)
      (hq : one.queue.items = m :: q.items) :
      Effect s { s with
        shared := s.shared.set l { one with queue := q }
        receivers := s.receivers.set i (.holding m l) }
  | popEmpty {i l : ℕ} {one : SharedOne α bounded} (hi : s.receivers[i]? = some (.pop l))
      (hl : s.shared[l]? = some one) (hq : one.queue.items = []) :
      Effect s { s with receivers := s.receivers.set i .unwrapNone }
  | recvReturned {i l : ℕ} {m : Message α} (hi : s.receivers[i]? = some (.holding m l)) :
      Effect s { s with receivers := s.receivers.set i (.returned (some (m, l))) }

variable {s t : Channel α bounded}

theorem effect_of_sendStep {i : ℕ} {pc : SendPc α} (hi : s.senders[i]? = some pc)
    (h : s.sendStep i pc = some t) : Effect s t := by
  cases pc with
  | push m l =>
      simp only [sendStep] at h
      split at h
      · cases h
        exact .sendPanicked hi
      · rename_i one hl
        split at h
        · cases h
          exact .sendPanicked hi
        · rename_i q hq
          cases h
          exact .push hi hl (Fifo.push_eq_some.mp hq).2
  | signalLocal m l =>
      simp only [sendStep] at h
      split at h
      · cases h
      · rename_i one hl
        cases h
        exact .signalLocal hi hl
  | signalGlobal m l =>
      cases h
      exact .signalGlobal hi
  | returned m l => cases h
  | panicked => cases h

theorem effect_of_recvStep {i : ℕ} {pc : RecvPc α} (hi : s.receivers[i]? = some pc)
    (h : s.recvStep i pc = some t) : Effect s t := by
  cases pc with
  | immediate l =>
      simp only [recvStep] at h
      split at h
      · cases h
        exact .nothing hi
      · rename_i n hn
        cases h
        exact .takeGlobal hi (.inr ⟨l, rfl, rfl⟩) hn
  | immediateLocal l =>
      simp only [recvStep, recvNonblock] at h
      split at h
      · rename_i hl
        cases h
        exact .fallThrough hi (.inl ⟨rfl, rfl⟩) hl
      · rename_i one hl
        split at h
        · rename_i hn
          cases h
          exact .missLocal hi (.inl ⟨rfl, rfl⟩) hl hn
        · rename_i n hn
          cases h
          exact .takeLocal hi (.inl rfl) hl hn
  | restore =>
      cases h
      exact .restore hi
  | all =>
      simp only [recvStep] at h
      split at h
      · cases h
      · rename_i n hn
        cases h
        exact .takeGlobal hi (.inl ⟨rfl, rfl⟩) hn
  | scan l =>
      simp only [recvStep, recvNonblock] at h
      split at h
      · rename_i hl
        cases h
        exact .fallThrough hi (.inr ⟨rfl, rfl⟩) hl
      · rename_i one hl
        split at h
        · rename_i hn
          cases h
          exact .missLocal hi (.inr ⟨rfl, rfl⟩) hl hn
        · rename_i n hn
          cases h
          exact .takeLocal hi (.inr rfl) hl hn
  | pop l =>
      simp only [recvStep] at h
      split at h
      · cases h
      · rename_i one hl
        split at h
        · rename_i hq
          cases h
          exact .popEmpty hi hl (Fifo.pop_eq_none.mp hq)
        · rename_i m q hq
          cases h
          exact .pop hi hl (Fifo.pop_eq_some.mp hq)
  | holding m l =>
      cases h
      exact .recvReturned hi
  | returned r => cases h
  | noElementFound => cases h
  | unwrapNone => cases h
  | indexOutOfBounds => cases h

/-- The receivers of the executor call `recv_immediate` for level 0 only. -/
def OnlyLevelZero (_ : Channel α bounded) : ChannelLabel α → Prop
  | .recvImmediate l => l = 0
  | _ => True

instance : ∀ (s : Channel α bounded) (a : ChannelLabel α), Decidable (s.OnlyLevelZero a)
  | _, .recvImmediate l => inferInstanceAs (Decidable (l = 0))
  | _, .send _ _ | _, .sendStep _ | _, .recvAll | _, .recvStep _ => isTrue trivial

theorem effect_of_step {levels : ℕ} {a : ChannelLabel α}
    (hok : s.OnlyLevelZero a) (h : (system α bounded levels).step s a = some t) : Effect s t := by
  change s.step a = some t at h
  cases a with
  | send e l =>
      cases h
      exact .send e l
  | sendStep i =>
      obtain ⟨pc, hi, hst⟩ := Option.bind_eq_some_iff.mp h
      exact effect_of_sendStep hi hst
  | recvImmediate l =>
      cases h
      exact .recv (.inr (congrArg RecvPc.immediate hok))
  | recvAll =>
      cases h
      exact .recv (.inl rfl)
  | recvStep i =>
      obtain ⟨pc, hi, hst⟩ := Option.bind_eq_some_iff.mp h
      exact effect_of_recvStep hi hst

end Channel
end Kiruna.Tpc

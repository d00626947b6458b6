import Kiruna.Primitive.AtomicWaker
import Kiruna.Tpc.Bin

/-!
# The guard of a simple set

`SimpleGuard` as a client of the bin. Its first poll hands over one job for each number below
`jobs`; every poll registers its waker and then loads the counter. A job calls `job_creator`,
decrements the counter and, if it was the last one, wakes.
-/

namespace Kiruna.Tpc

inductive CallResult
  | returned
  | panicked
  deriving DecidableEq

/-- The closure that makes the jobs: a call starts a local state, an action is one step of it on
the state that all calls share. -/
structure JobCreator (State Local Action : Type*) where
  init : State
  start : ℕ → Local
  act : State → Local → Action → Option (State × Local)
  result : Local → Option CallResult

structure SharedSet where
  childrenRemaining : UInt32
  waker : AtomicWaker
  deriving DecidableEq

/-- A decrement that does not wrap. -/
theorem toNat_sub_one {x : UInt32} (hx : 0 < x.toNat) : (x - 1).toNat = x.toNat - 1 := by
  rw [UInt32.toNat_sub_of_le x 1 (UInt32.le_iff_toNat_le.mpr hx)]
  rfl

/-- Where the closure of a job stands: before the call of `job_creator`, inside it, before
`fetch_sub`, before the wake, or at its end. -/
inductive JobPc (Local : Type*)
  | closure (job : ℕ)
  | calling (job : ℕ) (p : Local)
  | fetchSub (job : ℕ)
  | wake (job : ℕ)
  | finished (job : ℕ)
  | panicked (job : ℕ)
  deriving DecidableEq

inductive JobAction (Action : Type*)
  | call
  | creator (a : Action)
  | leave
  | fetchSub
  | wake
  deriving DecidableEq

inductive Poll
  | ready
  | pending
  deriving DecidableEq

/-- Where `SimpleGuard::poll` stands; `idle` is between polls, and so is `panicked`, after a poll
that has panicked in `spawn_simple_without_hint`. -/
inductive GuardPc
  | idle
  | spawning (job : ℕ)
  | register
  | load
  | panicked (job : ℕ)
  deriving DecidableEq

/-- A step of the thread that polls the guard. -/
inductive GuardStep
  | poll
  | next
  | register
  | load
  deriving DecidableEq

/-- The guard and what its jobs share. Polls are counted and have their number as their waker;
`result` is that of the last poll, `none` while a poll is in progress. The five logs list the jobs
that were handed over, whose call began, whose call returned, that decremented and that finished. -/
structure SimpleGuard (State : Type*) where
  shared : SharedSet
  spawned : Bool
  pc : GuardPc
  polls : ℕ
  result : Option Poll
  creator : State
  handedOver : List ℕ
  called : List ℕ
  returned : List ℕ
  decremented : List ℕ
  finished : List ℕ
  deriving DecidableEq

namespace SimpleGuard

variable {State Local Action : Type*} (jobs : UInt32) (K : JobCreator State Local Action)

/-- `set_simple_scoped`. -/
def new : SimpleGuard State where
  shared := ⟨jobs, .new⟩
  spawned := false
  pc := .idle
  polls := 0
  result := none
  creator := K.init
  handedOver := []
  called := []
  returned := []
  decremented := []
  finished := []

/-- A step of the closure of a job. -/
def act (g : SimpleGuard State) :
    JobPc Local → JobAction Action → Option (SimpleGuard State × JobPc Local)
  | .closure j, .call => some ({ g with called := g.called ++ [j] }, .calling j (K.start j))
  | .calling j p, .creator a =>
      (K.act g.creator p a).map fun r => ({ g with creator := r.1 }, .calling j r.2)
  | .calling j p, .leave =>
      match K.result p with
      | some .returned => some ({ g with returned := g.returned ++ [j] }, .fetchSub j)
      | some .panicked => some (g, .panicked j)
      | none => none
  | .fetchSub j, .fetchSub =>
      let g' := { g with
        shared := { g.shared with childrenRemaining := g.shared.childrenRemaining - 1 }
        decremented := g.decremented ++ [j] }
      if g.shared.childrenRemaining = 1 then some (g', .wake j)
      else some ({ g' with finished := g.finished ++ [j] }, .finished j)
  | .wake j, .wake => some ({ g with
      shared := { g.shared with waker := g.shared.waker.wake }
      finished := g.finished ++ [j] }, .finished j)
  | _, _ => none

/-- The start of a poll. -/
def enter (g : SimpleGuard State) : SimpleGuard State := { g with
  polls := g.polls + 1
  result := none
  pc := if g.spawned then .register else .spawning 0 }

/-- A step of `SimpleGuard::poll`, with the job that it hands over. A poll after one that has
panicked hands all jobs over once more. One that panics in `enforce_spare_thread_policy` leaves the
guard as it was, and is no step here. -/
def pollStep (g : SimpleGuard State) :
    GuardStep → Option (SimpleGuard State × Option (Empty ⊕ ℕ))
  | .poll =>
      match g.pc with
      | .idle | .panicked _ => some (g.enter, none)
      | _ => none
  | .next =>
      match g.pc with
      | .spawning job =>
          if job < jobs.toNat then
            some ({ g with pc := .spawning (job + 1), handedOver := g.handedOver ++ [job] },
              some (.inr job))
          else some ({ g with spawned := true, pc := .register }, none)
      | _ => none
  | .register =>
      match g.pc with
      | .register => some ({ g with
          shared := { g.shared with waker := g.shared.waker.register g.polls }
          pc := .load }, none)
      | _ => none
  | .load =>
      match g.pc with
      | .load => some ({ g with
          result := some (if g.shared.childrenRemaining = 0 then .ready else .pending)
          pc := .idle }, none)
      | _ => none

/-- The poll in which `spawn_simple_without_hint` panics; its job was not handed over. -/
def sendFailed (g : SimpleGuard State) : SimpleGuard State :=
  match g.pc with
  | .spawning (job + 1) => { g with pc := .panicked job, handedOver := g.handedOver.dropLast }
  | _ => g

/-- The guard and its jobs as a client of the bin. -/
abbrev client : Client Empty ℕ (JobPc Local) (SimpleGuard State) (JobAction Action) GuardStep where
  init := new jobs K
  poll := Empty.elim
  call := .closure
  act := act K
  result
    | .finished _ => some .ready
    | .panicked _ => some .panicked
    | _ => none
  owner := pollStep jobs
  sendFailed := sendFailed

/-- What a step of a job can do. -/
inductive Acts (g : SimpleGuard State) : JobPc Local → SimpleGuard State → JobPc Local → Prop
  | call (j : ℕ) : Acts g (.closure j) { g with called := g.called ++ [j] }
      (.calling j (K.start j))
  | creator {j : ℕ} {p p' : Local} {a : Action} {st : State}
      (ha : K.act g.creator p a = some (st, p')) :
      Acts g (.calling j p) { g with creator := st } (.calling j p')
  | returned {j : ℕ} {p : Local} (hp : K.result p = some .returned) :
      Acts g (.calling j p) { g with returned := g.returned ++ [j] } (.fetchSub j)
  | panicked {j : ℕ} {p : Local} (hp : K.result p = some .panicked) :
      Acts g (.calling j p) g (.panicked j)
  | last {j : ℕ} (hone : g.shared.childrenRemaining = 1) :
      Acts g (.fetchSub j) { g with
        shared := { g.shared with childrenRemaining := g.shared.childrenRemaining - 1 }
        decremented := g.decremented ++ [j] } (.wake j)
  | notLast {j : ℕ} (hone : g.shared.childrenRemaining ≠ 1) :
      Acts g (.fetchSub j) { g with
        shared := { g.shared with childrenRemaining := g.shared.childrenRemaining - 1 }
        decremented := g.decremented ++ [j]
        finished := g.finished ++ [j] } (.finished j)
  | wake (j : ℕ) : Acts g (.wake j) { g with
      shared := { g.shared with waker := g.shared.waker.wake }
      finished := g.finished ++ [j] } (.finished j)

/-- What a step of a poll can do, with the job that it hands over. -/
inductive Polls (g : SimpleGuard State) : SimpleGuard State → Option (Empty ⊕ ℕ) → Prop
  | poll (hpc : g.pc = .idle) : Polls g g.enter none
  | again {job : ℕ} (hpc : g.pc = .panicked job) : Polls g g.enter none
  | spawn {job : ℕ} (hpc : g.pc = .spawning job) (hlt : job < jobs.toNat) :
      Polls g { g with pc := .spawning (job + 1), handedOver := g.handedOver ++ [job] }
        (some (.inr job))
  | spawned {job : ℕ} (hpc : g.pc = .spawning job) (hge : jobs.toNat ≤ job) :
      Polls g { g with spawned := true, pc := .register } none
  | register (hpc : g.pc = .register) : Polls g { g with
      shared := { g.shared with waker := g.shared.waker.register g.polls }
      pc := .load } none
  | load (hpc : g.pc = .load) : Polls g { g with
      result := some (if g.shared.childrenRemaining = 0 then .ready else .pending)
      pc := .idle } none

variable {jobs K} {g g' : SimpleGuard State}

theorem acts_of_act {p p' : JobPc Local} {a : JobAction Action}
    (h : (client jobs K).act g p a = some (g', p')) : Acts K g p g' p' := by
  change act K g p a = some (g', p') at h
  cases p with
  | closure j =>
      cases a <;> cases h
      exact .call j
  | calling j p =>
      cases a with
      | creator a =>
          obtain ⟨r, hr, he⟩ := Option.map_eq_some_iff.mp h
          cases he
          exact .creator hr
      | leave =>
          simp only [act] at h
          split at h <;> cases h
          · exact .returned ‹_›
          · exact .panicked ‹_›
      | _ => cases h
  | fetchSub j =>
      cases a with
      | fetchSub =>
          simp only [act] at h
          split_ifs at h with hone <;> cases h
          · exact .last hone
          · exact .notLast hone
      | _ => cases h
  | wake j =>
      cases a <;> cases h
      exact .wake j
  | finished j => cases a <;> cases h
  | panicked j => cases a <;> cases h

theorem polls_of_owner {o : GuardStep} {m : Option (Empty ⊕ ℕ)}
    (h : (client jobs K).owner g o = some (g', m)) : Polls jobs g g' m := by
  change pollStep jobs g o = some (g', m) at h
  cases o with
  | poll =>
      simp only [pollStep] at h
      split at h <;> cases h
      · exact .poll ‹_›
      · exact .again ‹_›
  | next =>
      simp only [pollStep] at h
      split at h
      · split_ifs at h with hlt <;> cases h
        · exact .spawn ‹_› hlt
        · exact .spawned ‹_› (Nat.le_of_not_lt hlt)
      · cases h
  | register =>
      simp only [pollStep] at h
      split at h <;> cases h
      exact .register ‹_›
  | load =>
      simp only [pollStep] at h
      split at h <;> cases h
      exact .load ‹_›

/-- A poll that cannot hand over its job. -/
theorem Polls.failed {m : Empty ⊕ ℕ} (hp : Polls jobs g g' (some m)) :
    ∃ job, g.pc = .spawning job ∧ job < jobs.toNat ∧
      sendFailed g' = { g with pc := .panicked job } := by
  cases hp with
  | spawn hpc hlt =>
      refine ⟨_, hpc, hlt, ?_⟩
      simp only [sendFailed, List.dropLast_concat]

end SimpleGuard
end Kiruna.Tpc

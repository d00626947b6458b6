import Kiruna.Tpc.SimpleGuard

/-!
# The guard of a scoped set

`InternalGuard` as a client of the bin. Its first poll collects the tasks, makes the shared counter
and spawns one `Child` for each; a later poll loads the counter, registers its waker and loads once
more. A poll of a child polls its inner future, which is always ready here, decrements the counter,
wakes if it was the last, and asserts that it has not been done before.

The return of the inner poll and the decrement are one step: nothing can be observed between them
but that the inner future has completed.
-/

namespace Kiruna.Tpc

/-- The fields of a `Child` that polls write: `completed` of the inner future, and `done`. -/
structure Child where
  completed : Bool
  done : Bool
  deriving DecidableEq

/-- Where `Child::poll` stands: inside the poll of the inner future, before the wake, before the
assertion, at its end or in the panic of the assertion. -/
inductive ChildPc
  | inner (child : ℕ)
  | wake (child : ℕ)
  | assertDone (child : ℕ)
  | ready (child : ℕ)
  | panicked (child : ℕ)
  deriving DecidableEq

inductive ChildAction
  | complete
  | wake
  | assertDone
  deriving DecidableEq

/-- `State` of the guard. -/
inductive ScopedState
  | notSpawned
  | spawned
  | done
  | invalid
  deriving DecidableEq

/-- Where `InternalGuard::poll` stands: in the loop that spawns, before the load after it, and in a
later poll before the first load, before the registration and before the second load. -/
inductive ScopedPc
  | idle
  | spawning (child : ℕ)
  | loadSpawned
  | load
  | register
  | loadAgain
  | panicked
  deriving DecidableEq

inductive ScopedStep
  | poll
  | next
  | register
  | load
  deriving DecidableEq

/-- Polls are counted and have their number as their waker; `result` is that of the last poll,
`none` while a poll is in progress. -/
structure InternalGuard where
  state : ScopedState
  pc : ScopedPc
  polls : ℕ
  result : Option Poll
  shared : Option SharedSet
  children : List Child
  deriving DecidableEq

namespace InternalGuard

/-- `set_scoped`. -/
def new : InternalGuard where
  state := .notSpawned
  pc := .idle
  polls := 0
  result := none
  shared := none
  children := []

/-- A step of `Child::poll`. -/
def act (g : InternalGuard) : ChildPc → ChildAction → Option (InternalGuard × ChildPc)
  | .inner k, .complete =>
      match g.children[k]?, g.shared with
      | some c, some set =>
          some ({ g with
            shared := some { set with childrenRemaining := set.childrenRemaining - 1 }
            children := g.children.set k { c with completed := true } },
            if set.childrenRemaining = 1 then .wake k else .assertDone k)
      | _, _ => none
  | .wake k, .wake =>
      g.shared.map fun set => ({ g with shared := some { set with waker := set.waker.wake } },
        .assertDone k)
  | .assertDone k, .assertDone =>
      g.children[k]?.map fun c =>
        if c.done then (g, .panicked k)
        else ({ g with children := g.children.set k { c with done := true } }, .ready k)
  | _, _ => none

/-- `poll_thunk`: is the counter at zero? -/
def allDone (g : InternalGuard) : Bool := g.shared.any fun set => set.childrenRemaining = 0

/-- The end of a poll that returns `Ready` or `Pending`. -/
def finish (g : InternalGuard) : Poll → InternalGuard
  | .ready => { g with state := .done, pc := .idle, result := some .ready }
  | .pending => { g with state := .spawned, pc := .idle, result := some .pending }

/-- A step of `InternalGuard::poll` of a set of `tasks` tasks, with the child that it spawns, where
the first poll comes past `enforce_spare_thread_policy`. The conversion of the number of tasks to
`u32` panics on overflow. -/
def pollStep (tasks : ℕ) (g : InternalGuard) :
    ScopedStep → Option (InternalGuard × Option (ℕ ⊕ Empty))
  | .poll =>
      if g.pc = .idle ∨ g.pc = .panicked then
        let g' := { g with state := .invalid, polls := g.polls + 1, result := none }
        match g.state with
        | .notSpawned =>
            if tasks < 2 ^ 32 then
              some ({ g' with
                pc := .spawning 0
                shared := some ⟨UInt32.ofNat tasks, AtomicWaker.new.register (g.polls + 1)⟩
                children := List.replicate tasks ⟨false, false⟩ }, none)
            else some ({ g' with pc := .panicked }, none)
        | .spawned => some ({ g' with pc := .load }, none)
        | .done | .invalid => some ({ g' with pc := .panicked }, none)
      else none
  | .next =>
      match g.pc with
      | .spawning k =>
          if k < tasks then some ({ g with pc := .spawning (k + 1) }, some (.inl k))
          else some ({ g with pc := .loadSpawned }, none)
      | _ => none
  | .register =>
      match g.pc with
      | .register => some ({ g with
          shared := g.shared.map fun set => { set with waker := set.waker.register g.polls }
          pc := .loadAgain }, none)
      | _ => none
  | .load =>
      match g.pc with
      | .loadSpawned | .loadAgain =>
          some (g.finish (if g.allDone then .ready else .pending), none)
      | .load =>
          some (if g.allDone then g.finish .ready else { g with pc := .register }, none)
      | _ => none

/-- The poll in which `spawn_without_hint` panics. -/
def sendFailed (g : InternalGuard) : InternalGuard := { g with pc := .panicked }

/-- The guard and its children as a client of the bin. -/
abbrev client (tasks : ℕ) :
    Client ℕ Empty ChildPc InternalGuard ChildAction ScopedStep where
  init := new
  poll := .inner
  call := Empty.elim
  act := act
  result
    | .ready _ => some .ready
    | .panicked _ => some .panicked
    | _ => none
  owner := pollStep tasks
  sendFailed := sendFailed

/-- What a step of `Child::poll` can do. -/
inductive Acts (g : InternalGuard) : ChildPc → InternalGuard → ChildPc → Prop
  | complete {k : ℕ} {c : Child} {set : SharedSet} (hc : g.children[k]? = some c)
      (hset : g.shared = some set) :
      Acts g (.inner k) { g with
        shared := some { set with childrenRemaining := set.childrenRemaining - 1 }
        children := g.children.set k { c with completed := true } }
        (if set.childrenRemaining = 1 then .wake k else .assertDone k)
  | wake {k : ℕ} {set : SharedSet} (hset : g.shared = some set) :
      Acts g (.wake k) { g with shared := some { set with waker := set.waker.wake } }
        (.assertDone k)
  | done {k : ℕ} {c : Child} (hc : g.children[k]? = some c) :
      Acts g (.assertDone k) { g with children := g.children.set k { c with done := true } }
        (.ready k)
  | panicked {k : ℕ} : Acts g (.assertDone k) g (.panicked k)

/-- What a step of `InternalGuard::poll` can do, with the child that it spawns. -/
inductive Polls (tasks : ℕ) (g : InternalGuard) : InternalGuard → Option (ℕ ⊕ Empty) → Prop
  | first (hstate : g.state = .notSpawned) (hlt : tasks < 2 ^ 32) : Polls tasks g { g with
      state := .invalid
      polls := g.polls + 1
      result := none
      pc := .spawning 0
      shared := some ⟨UInt32.ofNat tasks, AtomicWaker.new.register (g.polls + 1)⟩
      children := List.replicate tasks ⟨false, false⟩ } none
  | again {pc : ScopedPc} (hpc : pc = .load ∨ pc = .panicked)
      (hstate : pc = .load → g.state = .spawned) (hload : g.state = .spawned → pc = .load) :
      Polls tasks g { g with
        state := .invalid
        polls := g.polls + 1
        result := none
        pc := pc } none
  | spawn {k : ℕ} (hpc : g.pc = .spawning k) :
      Polls tasks g { g with pc := .spawning (k + 1) } (some (.inl k))
  | spawned {k : ℕ} (hpc : g.pc = .spawning k) : Polls tasks g { g with pc := .loadSpawned } none
  | loadFailed (hpc : g.pc = .load) (hdone : g.allDone = false) :
      Polls tasks g { g with pc := .register } none
  | register (hpc : g.pc = .register) : Polls tasks g { g with
      shared := g.shared.map fun set => { set with waker := set.waker.register g.polls }
      pc := .loadAgain } none
  | ready (hdone : g.allDone = true) (hpc : g.pc ≠ .idle) :
      Polls tasks g (g.finish .ready) none
  | pending (hpc : g.pc = .loadSpawned ∨ g.pc = .loadAgain) (hdone : g.allDone = false) :
      Polls tasks g (g.finish .pending) none

variable {tasks : ℕ} {g g' : InternalGuard}

theorem acts_of_act {p p' : ChildPc} {a : ChildAction}
    (h : (client tasks).act g p a = some (g', p')) : Acts g p g' p' := by
  change act g p a = some (g', p') at h
  cases p with
  | inner k =>
      cases a with
      | complete =>
          simp only [act] at h
          split at h <;> cases h
          exact .complete ‹_› ‹_›
      | _ => cases h
  | wake k =>
      cases a with
      | wake =>
          obtain ⟨set, hset, he⟩ := Option.map_eq_some_iff.mp h
          cases he
          exact .wake hset
      | _ => cases h
  | assertDone k =>
      cases a with
      | assertDone =>
          obtain ⟨c, hc, he⟩ := Option.map_eq_some_iff.mp h
          split_ifs at he <;> cases he
          · exact .panicked
          · exact .done hc
      | _ => cases h
  | ready k => cases a <;> cases h
  | panicked k => cases a <;> cases h

theorem polls_of_owner {o : ScopedStep} {m : Option (ℕ ⊕ Empty)}
    (h : (client tasks).owner g o = some (g', m)) : Polls tasks g g' m := by
  change pollStep tasks g o = some (g', m) at h
  cases o with
  | poll =>
      simp only [pollStep] at h
      split at h
      · split at h
        · rename_i hstate
          split_ifs at h with hlt <;> cases h
          · exact .first hstate hlt
          · exact .again (.inr rfl) nofun fun hs => by simp [hstate] at hs
        · cases h
          exact .again (.inl rfl) (fun _ => ‹_›) fun _ => rfl
        all_goals
          rename_i hstate
          cases h
          exact .again (.inr rfl) nofun fun hs => by simp [hstate] at hs
      · cases h
  | next =>
      simp only [pollStep] at h
      split at h
      · split_ifs at h <;> cases h
        · exact .spawn ‹_›
        · exact .spawned ‹_›
      · cases h
  | register =>
      simp only [pollStep] at h
      split at h <;> cases h
      exact .register ‹_›
  | load =>
      simp only [pollStep] at h
      split at h
      · rename_i hpc
        split_ifs at h with hdone <;> cases h
        · exact .ready hdone (by simp [hpc])
        · exact .pending (.inl hpc) (by simpa using hdone)
      · rename_i hpc
        split_ifs at h with hdone <;> cases h
        · exact .ready hdone (by simp [hpc])
        · exact .pending (.inr hpc) (by simpa using hdone)
      · rename_i hpc
        split_ifs at h with hdone <;> cases h
        · exact .ready hdone (by simp [hpc])
        · exact .loadFailed hpc (by simpa using hdone)
      · cases h

end InternalGuard
end Kiruna.Tpc

import Kiruna.Primitive.Fifo
import Kiruna.Transition.Population
import Kiruna.Transition.Lts

/-!
# The bin of the tpc executor

Workers take messages from a channel of two levels: jobs, which run once, and futures, which are
polled under their lock. A wake sends the future again, on level 0; spawns and idle messages go to
level 1. The code that runs inside a poll or a job, and the code that spawns, belong to a client of
the bin; any other thread may clone, wake and drop the wakers that a poll has cloned.
-/

namespace Kiruna.Tpc

/-- How a poll or a job ends. -/
inductive Outcome
  | ready
  | pending
  | panicked
  deriving DecidableEq

/-- The code the bin runs. A poll and a job run on a local state, where each action is one step on
the state all of them share; `owner` are the steps of the thread that spawns, each of which may
hand over one future or job. -/
structure Client (Fut Job Local State Action Owner : Type*) where
  init : State
  poll : Fut → Local
  call : Job → Local
  act : State → Local → Action → Option (State × Local)
  result : Local → Option Outcome
  owner : State → Owner → Option (State × Option (Fut ⊕ Job))
  sendFailed : State → State

/-- `work f` carries the `Arc` of the `f`th future. -/
inductive ThreadMessage (Job : Type*)
  | simple (j : Job)
  | work (f : ℕ)
  | idle
  deriving DecidableEq

/-- `strong` is the count of the `Arc` and `wakers` counts the live clones of the waker outside the
workers. `completed` records that a poll has returned `Ready`; the executor keeps no such thing. -/
structure OurFuture (Fut : Type*) where
  underlying : Fut
  locked : Bool
  strong : ℕ
  wakers : ℕ
  completed : Bool
  deriving DecidableEq

def OurFuture.new {Fut : Type*} (u : Fut) : OurFuture Fut := ⟨u, false, 1, 0, false⟩

/-- Where `thread_user_waiting_entrypoint_fn` stands: before the compare-exchange, on its failed
branch before the wake, inside the poll of the underlying future, before `locked.store(false)`,
before the drop of the waker, or inside a job. In `unwind` a panic has still to drop the waker. -/
inductive WorkerPc (Local : Type*)
  | recv
  | tryLock (f : ℕ)
  | contended (f : ℕ)
  | polling (f : ℕ) (p : Local)
  | unlock (f : ℕ)
  | dropWaker (f : ℕ)
  | unwind (f : ℕ) (p : Option Local)
  | job (p : Local)
  | idle
  | gone
  | panicked (p : Option Local)
  deriving DecidableEq

structure Bin (Fut Job Local State : Type*) (bounded : ℕ) where
  channel : List (Fifo (ThreadMessage Job) bounded)
  futures : List (OurFuture Fut)
  workers : List (WorkerPc Local)
  state : State
  deriving DecidableEq

/-- A step of a worker; `wake` and `clone` are those of the waker in the context of the poll, and
`ready`, `pending` and `panicked` say how the poll ends. -/
inductive WorkerEvent (Action : Type*)
  | recv (level : ℕ)
  | poll (f : ℕ)
  | contend
  | retry
  | act (a : Action)
  | wake
  | clone
  | ready (f : ℕ)
  | pending
  | panicked
  | unlock
  | dropWaker
  | returned
  | idle (exits : Bool)
  deriving DecidableEq

/-- A step of a worker, of a thread that holds a waker of the `f`th future, of the timer or of the
owner. -/
inductive BinLabel (Action Owner : Type*)
  | startWorker
  | work (w : ℕ) (e : WorkerEvent Action)
  | clone (f : ℕ)
  | wake (f : ℕ)
  | wakeByRef (f : ℕ)
  | drop (f : ℕ)
  | sendIdle
  | owner (o : Owner)
  deriving DecidableEq

namespace Bin

variable {Fut Job Local State Action Owner : Type*} {bounded : ℕ}

section Update

variable (s : Bin Fut Job Local State bounded)

def setWorker (w : ℕ) (pc : WorkerPc Local) : Bin Fut Job Local State bounded :=
  { s with workers := s.workers.set w pc }

def setFuture (f : ℕ) (u : OurFuture Fut) : Bin Fut Job Local State bounded :=
  { s with futures := s.futures.set f u }

def setChannel (c : List (Fifo (ThreadMessage Job) bounded)) : Bin Fut Job Local State bounded :=
  { s with channel := c }

def setState (st : State) : Bin Fut Job Local State bounded := { s with state := st }

/-- `Channel::send`: the channel after it, or `none` when its assertion fails. -/
def send (m : ThreadMessage Job) (level : ℕ) : Option (List (Fifo (ThreadMessage Job) bounded)) :=
  match s.channel[level]? with
  | none => none
  | some q => (q.push m).map fun q' => s.channel.set level q'

/-- A receive that finds its message on the level. -/
def receive (level : ℕ) :
    Option (ThreadMessage Job × List (Fifo (ThreadMessage Job) bounded)) :=
  match s.channel[level]? with
  | none => none
  | some q => q.pop.map fun p => (p.1, s.channel.set level p.2)

end Update

variable (C : Client Fut Job Local State Action Owner)

def new (bounded : ℕ) : Bin Fut Job Local State bounded where
  channel := List.replicate 2 .empty
  futures := []
  workers := []
  state := C.init

/-- The match on the message that a worker has received. -/
def handle : ThreadMessage Job → WorkerPc Local
  | .simple j => .job (C.call j)
  | .work f => .tryLock f
  | .idle => .idle

/-- A spawn; a send that fails panics in the owner. -/
def spawn (s : Bin Fut Job Local State bounded) : Fut ⊕ Job → Bin Fut Job Local State bounded
  | .inl u =>
      match s.send (.work s.futures.length) 1 with
      | none => s.setState (C.sendFailed s.state)
      | some c => { s.setChannel c with futures := s.futures ++ [.new u] }
  | .inr j =>
      match s.send (.simple j) 1 with
      | none => s.setState (C.sendFailed s.state)
      | some c => s.setChannel c

/-- The next step of the worker at `pc`, which has the number `w`. Whether a worker that has taken
an idle message exits depends on its clock and on the number of threads. -/
def workStep (s : Bin Fut Job Local State bounded) (w : ℕ) (pc : WorkerPc Local) :
    WorkerEvent Action → Option (Bin Fut Job Local State bounded)
  | .recv level =>
      match pc with
      | .recv => (s.receive level).map fun r => (s.setChannel r.2).setWorker w (handle C r.1)
      | _ => none
  | .poll f' =>
      match pc with
      | .tryLock f =>
          match s.futures[f]? with
          | none => none
          | some u =>
              if u.locked = false ∧ f = f' then
                some ((s.setFuture f { u with locked := true }).setWorker w
                  (.polling f (C.poll u.underlying)))
              else none
      | _ => none
  | .contend =>
      match pc with
      | .tryLock f =>
          match s.futures[f]? with
          | none => none
          | some u => if u.locked then some (s.setWorker w (.contended f)) else none
      | _ => none
  | .retry =>
      match pc with
      | .contended f =>
          match s.futures[f]? with
          | none => none
          | some u =>
              match s.send (.work f) 0 with
              | none => some (s.setWorker w (.unwind f none))
              | some c => some (((s.setChannel c).setFuture f
                  { u with strong := u.strong + 1 }).setWorker w (.dropWaker f))
      | _ => none
  | .act a =>
      match pc with
      | .polling f p => (C.act s.state p a).map fun r =>
          (s.setState r.1).setWorker w (.polling f r.2)
      | .job p => (C.act s.state p a).map fun r => (s.setState r.1).setWorker w (.job r.2)
      | _ => none
  | .wake =>
      match pc with
      | .polling f p =>
          match s.futures[f]? with
          | none => none
          | some u =>
              match s.send (.work f) 0 with
              | none => some (s.setWorker w (.unwind f (some p)))
              | some c => some ((s.setChannel c).setFuture f { u with strong := u.strong + 1 })
      | _ => none
  | .clone =>
      match pc with
      | .polling f _ =>
          match s.futures[f]? with
          | none => none
          | some u => some (s.setFuture f
              { u with strong := u.strong + 1, wakers := u.wakers + 1 })
      | _ => none
  | .ready f' =>
      match pc with
      | .polling f p =>
          match s.futures[f]? with
          | none => none
          | some u =>
              if C.result p = some .ready ∧ f = f' then
                some ((s.setFuture f { u with completed := true }).setWorker w (.unlock f))
              else none
      | _ => none
  | .pending =>
      match pc with
      | .polling f p =>
          if C.result p = some .pending then some (s.setWorker w (.unlock f)) else none
      | _ => none
  | .panicked =>
      match pc with
      | .polling f p =>
          if C.result p = some .panicked then some (s.setWorker w (.unwind f (some p))) else none
      | .job p =>
          if C.result p = some .panicked then some (s.setWorker w (.panicked (some p))) else none
      | _ => none
  | .unlock =>
      match pc with
      | .unlock f =>
          match s.futures[f]? with
          | none => none
          | some u => some ((s.setFuture f { u with locked := false }).setWorker w (.dropWaker f))
      | _ => none
  | .dropWaker =>
      match pc with
      | .dropWaker f =>
          match s.futures[f]? with
          | none => none
          | some u => some ((s.setFuture f { u with strong := u.strong - 1 }).setWorker w .recv)
      | .unwind f p =>
          match s.futures[f]? with
          | none => none
          | some u =>
              some ((s.setFuture f { u with strong := u.strong - 1 }).setWorker w (.panicked p))
      | _ => none
  | .returned =>
      match pc with
      | .job p => if C.result p = some .ready then some (s.setWorker w .recv) else none
      | _ => none
  | .idle exits =>
      match pc with
      | .idle => some (s.setWorker w (if exits then .gone else .recv))
      | _ => none

/-- The functions of the waker's table, called on the last of the `wakers` clones or on a
reference to one. A failed send panics, and the message it could not place is dropped. -/
def step (s : Bin Fut Job Local State bounded) :
    BinLabel Action Owner → Option (Bin Fut Job Local State bounded)
  | .startWorker => some { s with workers := s.workers ++ [.recv] }
  | .work w e => s.workers[w]?.bind fun pc => s.workStep C w pc e
  | .clone f =>
      match s.futures[f]? with
      | none => none
      | some u =>
          if u.wakers = 0 then none
          else some (s.setFuture f { u with strong := u.strong + 1, wakers := u.wakers + 1 })
  | .wake f =>
      match s.futures[f]? with
      | none => none
      | some u =>
          if u.wakers = 0 then none
          else match s.send (.work f) 0 with
            | none => some (s.setFuture f
                { u with strong := u.strong - 1, wakers := u.wakers - 1 })
            | some c => some ((s.setChannel c).setFuture f { u with wakers := u.wakers - 1 })
  | .wakeByRef f =>
      match s.futures[f]? with
      | none => none
      | some u =>
          if u.wakers = 0 then none
          else match s.send (.work f) 0 with
            | none => some s
            | some c => some ((s.setChannel c).setFuture f { u with strong := u.strong + 1 })
  | .drop f =>
      match s.futures[f]? with
      | none => none
      | some u =>
          if u.wakers = 0 then none
          else some (s.setFuture f { u with strong := u.strong - 1, wakers := u.wakers - 1 })
  | .sendIdle =>
      match s.send .idle 1 with
      | none => some s
      | some c => some (s.setChannel c)
  | .owner o =>
      match C.owner s.state o with
      | none => none
      | some (st, none) => some (s.setState st)
      | some (st, some m) => some ((s.setState st).spawn C m)

def system (bounded : ℕ) :
    Lts (Bin Fut Job Local State bounded) (BinLabel Action Owner) where
  init := new C bounded
  step := step C

end Bin
end Kiruna.Tpc

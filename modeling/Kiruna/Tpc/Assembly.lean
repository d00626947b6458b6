import Kiruna.Tpc.Channel
import Kiruna.Tpc.Spawning
import Mathlib.Logic.Function.Basic

/-!
# The executor over its channel

The threads of the bin send and receive through the hierarchical channel, call by call. A send is a
push and two signals, and whoever made it goes on when both are done; a worker calls
`recv_immediate` for the preferred level and, when that finds nothing, `recv_all`. The message that
a worker pops is its own from the pop on, but it looks at it when the call has returned.
-/

namespace Kiruna.Tpc

/-- Who waits for a send call: a worker, a call that brings work, or a timer callback. -/
inductive Party
  | worker (w : ℕ)
  | call (c : ℕ)
  | timer (i : ℕ)
  deriving DecidableEq

/-- The party whose step it is. The threads that hold wakers have no numbers, and none of them has
to make its calls in an order. -/
def ThreadsLabel.party {Fut Job Action : Type*} : ThreadsLabel Fut Job Action → Option Party
  | .call c => some (.call c)
  | .sendIdle i => some (.timer i)
  | .idle w _ | .bin (.work w _) => some (.worker w)
  | .enter _ | .timer | .bin _ => none

/-- The call has returned or panicked. -/
def SendPc.over {α : Type*} : SendPc α → Bool
  | .returned _ _ | .panicked => true
  | _ => false

/-- The queues of the channel, where a message has no number. -/
def Channel.contents {α : Type*} {bounded : ℕ} (c : Channel α bounded) : List (Fifo α bounded) :=
  c.shared.map fun one => one.queue.map Message.element

/-- The threads, whose own `bin.channel` nothing reads, and the channel. `sending` is the last send
call that a party has made and `receiving` the receive call that a worker is in. -/
structure Assembly (Fut Job Local State : Type*) (bounded : ℕ) where
  threads : Threads Fut Job Local State bounded
  channel : Channel (ThreadMessage Job) bounded
  sending : Party → Option ℕ
  receiving : ℕ → Option ℕ

/-- A step of the threads outside the receive calls, with the push of its message if it sends one;
a signal of a send call; or a step of the receive loop of a worker. -/
inductive AssemblyLabel (Fut Job Action : Type*)
  | threads (a : ThreadsLabel Fut Job Action)
  | signal (i : ℕ)
  | recvImmediate (w : ℕ)
  | recvAll (w : ℕ)
  | recvStep (w : ℕ)

/-- The step of the threads, outside the receive calls. -/
def AssemblyLabel.event {Fut Job Action : Type*} :
    AssemblyLabel Fut Job Action → Option (ThreadsLabel Fut Job Action)
  | .threads a => some a
  | _ => none

namespace Assembly

variable {Fut Job Local State Action : Type*} {bounded : ℕ}

/-- The threads, with the queues of the channel in their bin. -/
def atomic (s : Assembly Fut Job Local State bounded) : Threads Fut Job Local State bounded :=
  s.threads.setBin (s.threads.bin.setChannel s.channel.contents)

/-- The party is in no call of the channel. -/
def available (s : Assembly Fut Job Local State bounded) (p : Party) : Bool :=
  ((s.sending p).all fun i => s.channel.senders[i]?.all SendPc.over) &&
    match p with
    | .worker w => (s.receiving w).isNone
    | _ => true

variable (C : Client Fut Job Local State Action Empty)

def new (physicalCpus : UInt16) (bounded : ℕ) : Assembly Fut Job Local State bounded where
  threads := .new C physicalCpus bounded
  channel := .new (ThreadMessage Job) bounded 2
  sending := fun _ => none
  receiving := fun _ => none

/-- `Channel::send`, as far as its push. -/
def push (s : Assembly Fut Job Local State bounded) (m : ThreadMessage Job) (level : ℕ) :
    Option (Channel (ThreadMessage Job) bounded) :=
  (s.channel.step (.send m level)).bind fun c => c.step (.sendStep s.channel.senders.length)

def threadsStep (s : Assembly Fut Job Local State bounded) (a : ThreadsLabel Fut Job Action)
    (t : Threads Fut Job Local State bounded) : Option (Assembly Fut Job Local State bounded) :=
  match s.atomic.sending C a with
  | none => some { s with threads := t }
  | some m => (s.push m.1 m.2).map fun c => { s with
      threads := t
      channel := c
      sending := match a.party with
        | none => s.sending
        | some p => Function.update s.sending p (some s.channel.senders.length) }

/-- What the step of its receive call brings the worker: the message it has popped, the end of the
call, or neither. -/
def received (s : Assembly Fut Job Local State bounded) (w j : ℕ)
    (c : Channel (ThreadMessage Job) bounded) : Assembly Fut Job Local State bounded :=
  match c.receivers[j]? with
  | some (.holding m _) => { s with
      threads := s.threads.setBin (s.threads.bin.setWorker w (Bin.handle C m.element))
      channel := c }
  | some (.returned (some _)) => { s with
      channel := c
      receiving := Function.update s.receiving w none }
  | _ => { s with channel := c }

def step (s : Assembly Fut Job Local State bounded) :
    AssemblyLabel Fut Job Action → Option (Assembly Fut Job Local State bounded)
  | .threads a =>
      if a.receives = false ∧ a.party.all s.available then
        (s.atomic.step C a).bind fun t => s.threadsStep C a t
      else none
  | .signal i =>
      match s.channel.senders[i]? with
      | some (.signalLocal _ _) | some (.signalGlobal _ _) =>
          (s.channel.step (.sendStep i)).map fun c => { s with channel := c }
      | _ => none
  | .recvImmediate w =>
      match s.threads.bin.workers[w]? with
      | some .recv =>
          if s.available (.worker w) then
            (s.channel.step (.recvImmediate 0)).map fun c => { s with
              channel := c
              receiving := Function.update s.receiving w (some s.channel.receivers.length) }
          else none
      | _ => none
  | .recvAll w =>
      match (s.receiving w).bind fun j => s.channel.receivers[j]? with
      | some (.returned none) =>
          (s.channel.step .recvAll).map fun c => { s with
            channel := c
            receiving := Function.update s.receiving w (some s.channel.receivers.length) }
      | _ => none
  | .recvStep w =>
      (s.receiving w).bind fun j =>
        (s.channel.step (.recvStep j)).map fun c => s.received C w j c

def system (physicalCpus : UInt16) (bounded : ℕ) :
    Lts (Assembly Fut Job Local State bounded) (AssemblyLabel Fut Job Action) where
  init := new C physicalCpus bounded
  step := step C

end Assembly
end Kiruna.Tpc

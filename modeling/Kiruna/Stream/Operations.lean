import Kiruna.Stream.Overlapped
import Kiruna.Stream.Threadpool

/-!
# The operations of a process

All `Parent`s of a process share one threadpool with one worker thread. The first poll of a parent
sends its closure through the channel and the semaphore of the threadpool. Between two waits the
worker runs one closure; a completion runs inside an alertable wait. The boxes of all operations lie
on one heap, and the calls of all of them are with the system at once.
-/

namespace Kiruna.Stream

/-- A `Parent`, and what it shares with its `Child`: `front` is the operation without the
threadpool. `payload` is the one it was made with, and `sending` is its call of
`Threadpool::send`. -/
structure Operation (Payload Args R Waker : Type*) where
  payload : Payload
  front : Overlapped Payload Args R Waker
  sending : Option ℕ
  deriving DecidableEq

/-- `owners` gives the operation whose shared part the box at an address refers to. In `pool` are
the boxes, the outstanding calls and the callback that the worker thread runs; the closures are with
the threadpool, each with the number of its operation. -/
structure Operations (Payload Args R Waker : Type*) where
  ops : List (Operation Payload Args R Waker)
  threadpool : Threadpool (ℕ × Child Payload)
  owners : List ℕ
  pool : Pool Payload Args R

/-- A step of a thread that has parents, of one inside `Threadpool::send`, or of the worker thread.
`complete` is the completion of the outstanding call with the given number. -/
inductive OperationsLabel (Payload Waker Os : Type*)
  | new (handle : Handle) (payload : Payload)
  | poll (i : ℕ) (waker : Waker)
  | dropParent (i : ℕ)
  | push (k : ℕ)
  | release (k : ℕ) (granted : Bool)
  | beginThread
  | waitObject
  | alerted
  | recv
  | beginOp (os : Os)
  | complete (n : ℕ) (errorCode bytesTransferred : UInt32)
  | resumeOp (os : Os)
  | ready
  | drop
  | closureReturned

namespace Operations

variable {Payload Args Ok Failure Os Waker : Type*}

section Update

variable {R : Type*} (s : Operations Payload Args R Waker)

def setOp (i : ℕ) (u : Operation Payload Args R Waker) : Operations Payload Args R Waker :=
  { s with ops := s.ops.set i u }

/-- A step of the threadpool. The worker thread makes its own between two callbacks. -/
def threadpoolStep (a : ThreadpoolLabel (ℕ × Child Payload)) :
    Option (Operations Payload Args R Waker) :=
  (s.threadpool.step a).map fun t => { s with threadpool := t }

/-- The first poll of a parent has returned from `Threadpool::send`. -/
def sent (u : Operation Payload Args R Waker) : Bool :=
  u.sending.all fun k =>
    match s.threadpool.senders[k]? with
    | some .returned => true
    | _ => false

/-- The parent `u` after a poll or a drop, with the closure that it sends. -/
def called (i : ℕ) (u : Operation Payload Args R Waker) (f : Overlapped Payload Args R Waker) :
    Operations Payload Args R Waker :=
  match f.pool.queue with
  | [] => s.setOp i { u with front := f }
  | c :: _ => { s with
      ops := s.ops.set i { u with
        front := { f with pool := .new }
        sending := some s.threadpool.senders.length }
      threadpool := { s.threadpool with senders := s.threadpool.senders ++ [.push (i, c)] } }

/-- `recv` with the beginning of the closure, which boxes its `Child`. -/
def received (t : Threadpool (ℕ × Child Payload)) : Option (Operations Payload Args R Waker) :=
  match t.worker with
  | .running (i, c) => some { s with
      threadpool := t
      owners := s.owners ++ [i]
      pool := { s.pool with
        boxes := s.pool.boxes ++ [.owned c]
        worker := .beginOp s.pool.boxes.length } }
  | _ => none

/-- The system calls the completion, which finds the box of its operation by `hEvent`. -/
def completion (n : ℕ) (call : OsCall Args) (errorCode bytesTransferred : UInt32) :
    Option (Operations Payload Args R Waker) :=
  match s.owners[call.hEvent]? with
  | none => some { s with pool := s.pool.faulted }
  | some i =>
      s.ops[i]?.map fun u => { s with
        ops := s.ops.set i { u with front := { u.front with
          completed := u.front.completed ++ [(call.args, errorCode, bytesTransferred)] } }
        pool := { s.pool with
          calls := s.pool.calls.eraseIdx n
          worker := .resumeOp call.hEvent errorCode bytesTransferred } }

/-- `Child::ready`. -/
def ready (caller : Caller) (raw : Handle) (r : R) : Option (Operations Payload Args R Waker) :=
  match s.owners[raw]? with
  | none => some { s with pool := s.pool.faulted }
  | some i =>
      s.ops[i]?.bind fun u => u.front.shared.map fun shared => { s with
        ops := s.ops.set i { u with front := { u.front with
          shared := some { shared with result := .poll (.ready r) }
          woken := u.front.woken ++ [shared.waker]
          readied := u.front.readied ++ [r] } }
        pool := { s.pool with worker := .drop caller raw } }

end Update

variable (P : PayloadTrait Payload Args Ok Failure Os)

def new {R : Type*} : Operations Payload Args R Waker where
  ops := []
  threadpool := .new
  owners := []
  pool := .new

def step (s : Operations Payload Args (Except Failure Ok) Waker) :
    OperationsLabel Payload Waker Os → Option (Operations Payload Args (Except Failure Ok) Waker)
  | .new handle payload =>
      some { s with ops := s.ops ++ [⟨payload, .new handle payload, none⟩] }
  | .poll i waker =>
      match s.ops[i]? with
      | none => none
      | some u => if s.sent u then (u.front.poll waker).map (s.called i u) else none
  | .dropParent i =>
      match s.ops[i]? with
      | none => none
      | some u =>
          if s.sent u then
            (u.front.step P (.dropParent : OverlappedLabel Waker Os)).map (s.called i u)
          else none
  | .push k => s.threadpoolStep (.push k)
  | .release k granted => s.threadpoolStep (.release k granted)
  | .beginThread => s.threadpoolStep .beginThread
  | .waitObject =>
      match s.pool.worker with
      | .idle => s.threadpoolStep .waitObject
      | _ => none
  | .alerted =>
      match s.pool.worker with
      | .idle => s.threadpoolStep .alerted
      | _ => none
  | .recv => (s.threadpool.step .recv).bind s.received
  | .beginOp os =>
      match s.pool.worker with
      | .beginOp raw => some { s with pool := s.pool.beginOp P raw os }
      | _ => none
  | .complete n errorCode bytesTransferred =>
      match s.pool.worker, s.threadpool.worker, s.pool.calls[n]? with
      | .idle, .waiting, some call => s.completion n call errorCode bytesTransferred
      | _, _, _ => none
  | .resumeOp os =>
      match s.pool.worker with
      | .resumeOp raw errorCode bytesTransferred =>
          some { s with pool := s.pool.resumeOp P raw errorCode bytesTransferred os }
      | _ => none
  | .ready =>
      match s.pool.worker with
      | .ready caller raw r => s.ready caller raw r
      | _ => none
  | .drop =>
      match s.pool.worker with
      | .drop caller raw => some { s with pool := s.pool.drop caller raw }
      | _ => none
  | .closureReturned =>
      match s.pool.worker with
      | .idle => s.threadpoolStep .closureReturned
      | _ => none

def system : Lts (Operations Payload Args (Except Failure Ok) Waker)
    (OperationsLabel Payload Waker Os) where
  init := new
  step := step P

/-- No parent is polled after it has returned `Ready`. -/
def PollsBeforeReady {R : Type*} (s : Operations Payload Args R Waker) :
    OperationsLabel Payload Waker Os → Prop
  | .poll i _ => ∀ u ∈ s.ops[i]?, u.front.returned = []
  | _ => True

end Operations
end Kiruna.Stream

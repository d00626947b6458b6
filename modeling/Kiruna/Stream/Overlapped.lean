import Kiruna.Transition.Population
import Kiruna.Transition.Lts

/-!
# Overlapped I/O

A `Parent` hands its payload to the threadpool at its first poll. The closure boxes it into a
`Child`, whose raw pointer travels through `OVERLAPPED.hEvent` from one completion to the next until
the payload is ready; the result then goes back through a mutex that `Parent` and `Child` share.

The worker thread runs the closure and every completion, so they do not overlap. A section under
the mutex is one step, and so is a call of the payload with the branch on its result. A use of a
box that is not there, or that has another owner, is recorded as a fault.
-/

namespace Kiruna.Stream

/-- The value of a `HANDLE`. The address of a box is passed as one. -/
abbrev Handle := ℕ

inductive Poll (R : Type*)
  | ready (r : R)
  | pending
  deriving DecidableEq

inductive PolledResult (R : Type*)
  | poll (p : Poll R)
  | gone
  deriving DecidableEq

/-- `PolledResult::maybe_take`: what stays and what is taken. It panics on `Gone`. -/
def PolledResult.maybeTake {R : Type*} : PolledResult R → Option (PolledResult R × Option R)
  | .poll (.ready value) => some (.gone, some value)
  | .poll .pending => some (.poll .pending, none)
  | .gone => none

structure Shared (Waker R : Type*) where
  waker : Waker
  result : PolledResult R
  deriving DecidableEq

/-- `Shared::new`. -/
def Shared.new {Waker R : Type*} (waker : Waker) : Shared Waker R := ⟨waker, .poll .pending⟩

/-- An I/O call that was made with the completion of kiruna, and has not completed. -/
structure OsCall (Args : Type*) where
  hEvent : Handle
  args : Args
  deriving DecidableEq

/-- What a call of the payload does: the payload after it, what it returns and the I/O calls that
it makes. -/
structure OpResult (Payload Args R : Type*) where
  payload : Payload
  poll : Poll R
  calls : List (OsCall Args)

/-- The contract of `begin_op` and `resume_op`: `Pending` leaves one outstanding I/O call, and
`Ready` none. -/
def OpResult.Honours {Payload Args R : Type*} (o : OpResult Payload Args R) (hEvent : Handle) :
    Prop :=
  match o.poll with
  | .ready _ => o.calls = []
  | .pending => ∃ args, o.calls = [⟨hEvent, args⟩]

/-- `PayloadTrait`. `Os` is what the system answers to the calls that are made inside. -/
structure PayloadTrait (Payload Args Ok Failure Os : Type*) where
  beginOp : Payload → Handle → Handle → Os → OpResult Payload Args (Except Failure Ok)
  resumeOp : Payload → UInt32 → UInt32 → Handle → Handle → Os →
    OpResult Payload Args (Except Failure Ok)
  beginOp_honours : ∀ p handle hEvent os, (beginOp p handle hEvent os).Honours hEvent
  resumeOp_honours : ∀ p errorCode bytesTransferred handle hEvent os,
    (resumeOp p errorCode bytesTransferred handle hEvent os).Honours hEvent

/-- What a `Child` holds besides the shared part. -/
structure Child (Payload : Type*) where
  handle : Handle
  payload : Payload
  deriving DecidableEq

/-- The place of a box: owned by a `Box`, known by raw pointers only, or freed. -/
inductive Cell (α : Type*)
  | owned (a : α)
  | raw (a : α)
  | freed
  deriving DecidableEq

/-- Counts the freed boxes. -/
def Cell.isFreed {α : Type*} : Cell α → ℕ
  | .freed => 1
  | _ => 0

/-- The callback that has got a result from the payload. -/
inductive Caller
  | beginOp
  | completion
  deriving DecidableEq

/-- Where the worker thread stands: waiting for a closure or a completion, before a call of the
payload, before the locked section of `ready`, or before the drop of the box. -/
inductive CallbackPc (R : Type*)
  | idle
  | beginOp (raw : Handle)
  | resumeOp (raw : Handle) (errorCode bytesTransferred : UInt32)
  | ready (caller : Caller) (raw : Handle) (r : R)
  | drop (caller : Caller) (raw : Handle)
  deriving DecidableEq

/-- What is with the threadpool and the system: the queued closures, the boxes by their address, the
outstanding calls, and the worker thread. -/
structure Pool (Payload Args R : Type*) where
  queue : List (Child Payload)
  boxes : List (Cell (Child Payload))
  calls : List (OsCall Args)
  worker : CallbackPc R
  fault : Bool
  deriving DecidableEq

/-- `State`, and what else may become of a `Parent`. -/
inductive ParentState (Payload : Type*)
  | notPolled (payload : Payload)
  | polled
  | panicked
  | dropped
  deriving DecidableEq

/-- One `Parent` with all that belongs to it. The logs record the waker of the last poll, the wakes,
the results with which `ready` was called, those that `poll` has returned, and the completions. -/
structure Overlapped (Payload Args R Waker : Type*) where
  handle : Handle
  parent : ParentState Payload
  shared : Option (Shared Waker R)
  pool : Pool Payload Args R
  lastWaker : Option Waker
  woken : List Waker
  readied : List R
  returned : List R
  completed : List (Args × UInt32 × UInt32)
  deriving DecidableEq

/-- A poll or the drop of the parent, or a step of the worker thread; `complete` is the completion
of the call with the given number. -/
inductive OverlappedLabel (Waker Os : Type*)
  | poll (waker : Waker)
  | dropParent
  | runClosure
  | beginOp (os : Os)
  | complete (i : ℕ) (errorCode bytesTransferred : UInt32)
  | resumeOp (os : Os)
  | ready
  | drop
  deriving DecidableEq

namespace Pool

variable {Payload Args Ok Failure Os : Type*}

def new {R : Type*} : Pool Payload Args R := ⟨[], [], [], .idle, false⟩

/-- A step that finds a box in another state than it relies on. -/
def faulted {R : Type*} (s : Pool Payload Args R) : Pool Payload Args R :=
  { s with worker := .idle, fault := true }

variable (P : PayloadTrait Payload Args Ok Failure Os)

/-- `Child::begin_op`. The box becomes a raw pointer first; `Pending` leaks it. -/
def beginOp (s : Pool Payload Args (Except Failure Ok)) (raw : Handle) (os : Os) :
    Pool Payload Args (Except Failure Ok) :=
  match s.boxes[raw]? with
  | some (.owned c) =>
      let o := P.beginOp c.payload c.handle raw os
      { s with
        boxes := s.boxes.set raw (.raw { c with payload := o.payload })
        calls := s.calls ++ o.calls
        worker := match o.poll with
          | .ready r => .ready .beginOp raw r
          | .pending => .idle }
  | _ => s.faulted

/-- `completion`. The box is made from the raw pointer first; `Pending` forgets it. -/
def resumeOp (s : Pool Payload Args (Except Failure Ok)) (raw : Handle)
    (errorCode bytesTransferred : UInt32) (os : Os) : Pool Payload Args (Except Failure Ok) :=
  match s.boxes[raw]? with
  | some (.raw c) =>
      let o := P.resumeOp c.payload errorCode bytesTransferred c.handle raw os
      let c' := { c with payload := o.payload }
      match o.poll with
      | .ready r => { s with
          boxes := s.boxes.set raw (.owned c')
          calls := s.calls ++ o.calls
          worker := .ready .completion raw r }
      | .pending => { s with
          boxes := s.boxes.set raw (.raw c')
          calls := s.calls ++ o.calls
          worker := .idle }
  | _ => s.faulted

/-- The drop of the box. `begin_op` has to make it from the raw pointer again. -/
def drop {R : Type*} (s : Pool Payload Args R) (caller : Caller) (raw : Handle) :
    Pool Payload Args R :=
  match caller, s.boxes[raw]? with
  | .beginOp, some (.raw _) | .completion, some (.owned _) =>
      { s with boxes := s.boxes.set raw .freed, worker := .idle }
  | _, _ => s.faulted

end Pool

namespace Overlapped

variable {Payload Args Ok Failure Os Waker : Type*}

/-- `Parent::new`. -/
def new {R : Type*} (handle : Handle) (payload : Payload) :
    Overlapped Payload Args R Waker where
  handle := handle
  parent := .notPolled payload
  shared := none
  pool := .new
  lastWaker := none
  woken := []
  readied := []
  returned := []
  completed := []

/-- `Parent::poll`. A poll after `Ready` panics. -/
def poll {R : Type*} (s : Overlapped Payload Args R Waker) (waker : Waker) :
    Option (Overlapped Payload Args R Waker) :=
  match s.parent, s.shared with
  | .notPolled payload, _ => some { s with
      parent := .polled
      shared := some (.new waker)
      pool := { s.pool with queue := s.pool.queue ++ [⟨s.handle, payload⟩] }
      lastWaker := some waker }
  | .polled, some shared =>
      match shared.result.maybeTake with
      | some (result, none) => some { s with
          shared := some ⟨waker, result⟩
          lastWaker := some waker }
      | some (result, some value) => some { s with
          shared := some { shared with result := result }
          lastWaker := some waker
          returned := s.returned ++ [value] }
      | none => some { s with parent := .panicked }
  | _, _ => none

variable (P : PayloadTrait Payload Args Ok Failure Os)

def step (s : Overlapped Payload Args (Except Failure Ok) Waker) :
    OverlappedLabel Waker Os → Option (Overlapped Payload Args (Except Failure Ok) Waker)
  | .poll waker => s.poll waker
  | .dropParent =>
      match s.parent with
      | .dropped => none
      | _ => some { s with parent := .dropped }
  | .runClosure =>
      match s.pool.worker, s.pool.queue with
      | .idle, c :: queue => some { s with
          pool := { s.pool with
            queue := queue
            boxes := s.pool.boxes ++ [.owned c]
            worker := .beginOp s.pool.boxes.length } }
      | _, _ => none
  | .beginOp os =>
      match s.pool.worker with
      | .beginOp raw => some { s with pool := s.pool.beginOp P raw os }
      | _ => none
  | .complete i errorCode bytesTransferred =>
      match s.pool.worker, s.pool.calls[i]? with
      | .idle, some call => some { s with
          pool := { s.pool with
            calls := s.pool.calls.eraseIdx i
            worker := .resumeOp call.hEvent errorCode bytesTransferred }
          completed := s.completed ++ [(call.args, errorCode, bytesTransferred)] }
      | _, _ => none
  | .resumeOp os =>
      match s.pool.worker with
      | .resumeOp raw errorCode bytesTransferred =>
          some { s with pool := s.pool.resumeOp P raw errorCode bytesTransferred os }
      | _ => none
  | .ready =>
      match s.pool.worker, s.shared with
      | .ready caller raw r, some shared => some { s with
          shared := some { shared with result := .poll (.ready r) }
          pool := { s.pool with worker := .drop caller raw }
          woken := s.woken ++ [shared.waker]
          readied := s.readied ++ [r] }
      | _, _ => none
  | .drop =>
      match s.pool.worker with
      | .drop caller raw => some { s with pool := s.pool.drop caller raw }
      | _ => none

def system (handle : Handle) (payload : Payload) :
    Lts (Overlapped Payload Args (Except Failure Ok) Waker) (OverlappedLabel Waker Os) where
  init := new handle payload
  step := step P

/-- No poll is made after one that has returned `Ready`. -/
def PollsBeforeReady {R : Type*} (s : Overlapped Payload Args R Waker) :
    OverlappedLabel Waker Os → Prop
  | .poll _ => s.returned = []
  | _ => True

end Overlapped

/-- A `WIN32_ERROR`. -/
structure OSError where
  code : UInt32
  deriving DecidableEq

structure Buffer where
  bytes : List UInt8
  deriving DecidableEq

/-- The arguments of `ReadFileEx`. -/
structure ReadFileEx where
  handle : Handle
  offset : UInt32
  numberOfBytesToRead : UInt32
  deriving DecidableEq

/-- What the system does for a read: the error of `ReadFileEx`, if it fails, and the bytes that it
has put behind the buffer. -/
structure ReadOs where
  lastError : Option UInt32
  memory : ℕ → UInt8

namespace ReadChild

/-- `READ_SIZE`. -/
def readSize : UInt32 := 255

/-- The low half of the offset is the length of the buffer, cut to 32 bits; the high half is 0. -/
def readImpl (buffer : Buffer) (handle hEvent : Handle) (os : ReadOs) :
    OpResult Buffer ReadFileEx (Except (OSError × Buffer) Buffer) :=
  match os.lastError with
  | none =>
      ⟨buffer, .pending, [⟨hEvent, handle, UInt32.ofNat buffer.bytes.length, readSize⟩]⟩
  | some e => ⟨buffer, .ready (.error (⟨e⟩, buffer)), []⟩

theorem readImpl_honours (buffer : Buffer) (handle hEvent : Handle) (os : ReadOs) :
    (readImpl buffer handle hEvent os).Honours hEvent := by
  obtain ⟨lastError, memory⟩ := os
  cases lastError with
  | none => exact ⟨_, rfl⟩
  | some e => rfl

/-- `PayloadTrait for ReadChild`. -/
def payloadTrait : PayloadTrait Buffer ReadFileEx Buffer (OSError × Buffer) ReadOs where
  beginOp := readImpl
  resumeOp buffer errorCode bytesTransferred handle hEvent os :=
    if errorCode ≠ 0 then ⟨buffer, .ready (.error (⟨errorCode⟩, buffer)), []⟩
    else
      let read := (List.range bytesTransferred.toNat).map os.memory
      readImpl ⟨buffer.bytes ++ read⟩ handle hEvent os
  beginOp_honours := readImpl_honours
  resumeOp_honours := by
    intro buffer errorCode bytesTransferred handle hEvent os
    split_ifs
    · rfl
    · exact readImpl_honours _ _ _ _

end ReadChild
end Kiruna.Stream

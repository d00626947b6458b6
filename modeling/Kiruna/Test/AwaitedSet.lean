import Kiruna.Test.SparseAwait
import Kiruna.Tpc.GuardDropping
import Kiruna.Tpc.GuardWaking
import Kiruna.Transition.Simulation

/-!
# A simple set under the sparse executor

`sparse_await` polls a `SimpleGuard` on its thread while the workers run the jobs of the set. The
waker that the guard registers is a `SimpleWaker`, so a wake sends a unit to the channel for which
`recv_timeout` waits. On its way out `sparse_await` drops the guard first and the receiver of that
channel later, and a guard that panics while a panic unwinds aborts the process.
-/

namespace Kiruna.Test

open Tpc

/-- `begun` says that the poll which `sparse_await` makes has entered the guard. A worker whose wake
has panicked is at the end of its job, and is listed in `crashed`. -/
structure AwaitedSet (State Local : Type*) (bounded : ℕ) where
  await : SparseAwait
  begun : Bool
  crashed : List ℕ
  bin : Bin Empty ℕ (JobPc Local) (SimpleGuard State) bounded
  deriving DecidableEq

/-- A step of the bin or the guard, or of `sparse_await` between polls. -/
inductive AwaitedLabel (Action : Type*)
  | bin (a : BinLabel (JobAction Action) GuardStep)
  | ready
  | pending
  | pollPanicked
  | deadlineExceeded
  | remaining
  | recv
  | timedOut
  | dropGuard
  | dropReceiver
  deriving DecidableEq

namespace AwaitedSet

open SimpleGuard (begins wakes)

variable {State Local Action : Type*} {bounded : ℕ} (jobs : UInt32)
  (K : JobCreator State Local Action)

def new (bounded : ℕ) : AwaitedSet State Local bounded where
  await := .new
  begun := false
  crashed := []
  bin := Bin.new (SimpleGuard.client jobs K) bounded

def workerOf : BinLabel (JobAction Action) GuardStep → Option ℕ
  | .work w _ => some w
  | _ => none

section Driver

variable (s : AwaitedSet State Local bounded)

/-- The thread of `sparse_await` enters the guard once in each of its polls. -/
def admits (a : BinLabel (JobAction Action) GuardStep) : Bool :=
  (!begins a || (s.await.pc = .poll && !s.begun && s.await.leaving = .no)) &&
    (workerOf a).all fun w => w ∉ s.crashed

/-- The wake finds a waker, which is the `SimpleWaker`. -/
def rings (a : BinLabel (JobAction Action) GuardStep) : Bool :=
  wakes a && s.bin.state.shared.waker.registered.isSome

def ring (a : BinLabel (JobAction Action) GuardStep) : SparseAwait × WakeOutcome :=
  if s.rings a then s.await.wake else (s.await, .returned)

/-- What a step of the bin to `b` leaves. -/
def moved (a : BinLabel (JobAction Action) GuardStep)
    (b : Bin Empty ℕ (JobPc Local) (SimpleGuard State) bounded) :
    AwaitedSet State Local bounded where
  await := (s.ring a).1
  begun := s.begun || begins a
  crashed := if (s.ring a).2 = .panicked then s.crashed ++ (workerOf a).toList else s.crashed
  bin := b

/-- The result of the poll that `sparse_await` has made. -/
def polled : Option Poll :=
  if s.begun ∧ s.bin.state.pc = .idle then s.bin.state.result else none

/-- The poll has panicked, in `spawn_simple_without_hint`. -/
def unwinds : Bool :=
  match s.bin.state.pc with
  | .panicked _ => true
  | _ => false

/-- A step of `sparse_await`, which leaves the bin alone. -/
def drive (a : AwaitLabel) (begun : Bool) : Option (AwaitedSet State Local bounded) :=
  (s.await.step a).map fun w => { s with await := w, begun := begun }

end Driver

/-- The clock decides whether the deadline has passed. -/
def step (s : AwaitedSet State Local bounded) :
    AwaitedLabel Action → Option (AwaitedSet State Local bounded)
  | .bin a =>
      if s.await.leaving ≠ .aborted ∧ s.admits a then
        (s.bin.step (SimpleGuard.client jobs K) a).map (s.moved a)
      else none
  | .ready => if s.polled = some .ready then s.drive .ready s.begun else none
  | .pending => if s.polled = some .pending then s.drive .pending s.begun else none
  | .pollPanicked => if s.unwinds then s.drive .pollPanicked s.begun else none
  | .deadlineExceeded => s.drive .deadlineExceeded s.begun
  | .remaining => s.drive .remaining s.begun
  | .recv => s.drive .recv false
  | .timedOut => s.drive .timedOut s.begun
  | .dropGuard => s.drive (.dropFuture (s.bin.state.drop ≠ .returned)) s.begun
  | .dropReceiver => s.drive .dropReceiver s.begun

def system (bounded : ℕ) : Lts (AwaitedSet State Local bounded) (AwaitedLabel Action) where
  init := new jobs K bounded
  step := step jobs K

end AwaitedSet
end Kiruna.Test

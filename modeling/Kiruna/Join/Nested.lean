import Kiruna.Join.Join2
import Kiruna.Transition.Reactive

/-!
# Nested joins

The children of a join may be joins again. A nesting is a binary tree of joins over numbered
futures; what the futures at its leaves remember is part of the world that a poll reads and changes.
The same futures can be joined at once: a poll goes through the unfinished ones in their order,
until one of them leaves it.
-/

namespace Kiruna.Join

universe u v

/-- A future: what a poll gives in a world, and the world after it. -/
abbrev Fut (W C : Type*) := W → ChildPoll C × W

def JoinPoll.toChild {R : Type*} : JoinPoll R → ChildPoll R
  | .pending => .pending
  | .ready r => .ready r
  | .panicked message => .panicked message

def ChildPoll.map {A B : Type*} (f : A → B) : ChildPoll A → ChildPoll B
  | .pending => .pending
  | .ready r => .ready (f r)
  | .panicked message => .panicked message

section Both

variable {W A B AR BR R S T : Type*}

/-- The children that are still futures. -/
def Join2.futures : Join2 AR BR → List Which
  | .polling a b => a.polls .a ++ b.polls .b
  | .done => []

/-- A poll of a join in a world. `f` and `g` poll its children, whose states are beside it. -/
def both (poll : ChildPoll A → ChildPoll B → Join2 AR BR → Polled AR BR R)
    (f : S → W → ChildPoll A × S × W) (g : T → W → ChildPoll B × T × W)
    (s : Join2 AR BR × S × T) (w : W) : ChildPoll R × (Join2 AR BR × S × T) × W :=
  let a := if Which.a ∈ s.1.futures then f s.2.1 w else (.pending, s.2.1, w)
  let b := if Which.b ∈ s.1.futures then g s.2.2 a.2.2 else (.pending, s.2.2, a.2.2)
  let r := poll a.1 b.1 s.1
  -- the poll that `a` leaves does not come to `b`
  if Which.b ∈ r.children then (r.result.toChild, (r.join, a.2.1, b.2.1), b.2.2)
  else (r.result.toChild, (r.join, a.2.1, s.2.2), a.2.2)

end Both

/-- The form of a nesting. -/
inductive Shape
  | leaf
  | node (a b : Shape)
  deriving DecidableEq

namespace Shape

variable {W : Type*} {α : Type u} {E : Type v}

def size : Shape → ℕ
  | leaf => 1
  | node a b => a.size + b.size

/-- What a nesting of futures of `α` gives. -/
def Out (α : Type u) : Shape → Type u
  | leaf => α
  | node a b => a.Out α × b.Out α

/-- How a nesting of futures that fail with `E` fails. -/
def Err (E : Type v) : Shape → Type v
  | leaf => E
  | node a b => Error2 (a.Err E) (b.Err E)

/-- The joins of a nesting. -/
def State (α : Type u) : Shape → Type u
  | leaf => PUnit
  | node a b => Join2 (a.Out α) (b.Out α) × a.State α × b.State α

def start (α : Type u) : (t : Shape) → t.State α
  | leaf => PUnit.unit
  | node a b => (.polling .future .future, a.start α, b.start α)

/-- A poll of `join2`s over the futures from number `n` on. -/
def join (futures : ℕ → Fut W α) :
    (t : Shape) → ℕ → t.State α → W → ChildPoll (t.Out α) × t.State α × W
  | leaf, n, s, w => ((futures n w).1, s, (futures n w).2)
  | node a b, n, s, w => both Join.join2 (join futures a n) (join futures b (n + a.size)) s w

/-- A poll of `try_join2`s over the futures from number `n` on. -/
def tryJoin (futures : ℕ → Fut W (Except E α)) :
    (t : Shape) → ℕ → t.State α → W → ChildPoll (Except (t.Err E) (t.Out α)) × t.State α × W
  | leaf, n, s, w => ((futures n w).1, s, (futures n w).2)
  | node a b, n, s, w =>
      both Join.tryJoin2 (tryJoin futures a n) (tryJoin futures b (n + a.size)) s w

/-- The values in the order of the futures. -/
def flat : (t : Shape) → t.Out α → List α
  | leaf, o => [o]
  | node a b, o => a.flat o.1 ++ b.flat o.2

/-- The number of the future that has failed, with its error. -/
def flatErr : (t : Shape) → ℕ → t.Err E → ℕ × E
  | leaf, n, e => (n, e)
  | node a _, n, .a e => a.flatErr n e
  | node a b, n, .b e => b.flatErr (n + a.size) e

end Shape

section Each

variable {W C α R : Type*}

/-- One poll of each unfinished future from number `n` on, until one of them leaves the poll. -/
def each (block : ℕ → ChildPoll C → ReadyOrNot α → Except (JoinPoll R) (ReadyOrNot α))
    (futures : ℕ → Fut W C) :
    ℕ → List (ReadyOrNot α) → W → Option (JoinPoll R) × List (ReadyOrNot α) × W
  | _, [], w => (none, [], w)
  | n, .ready o :: slots, w =>
      let r := each block futures (n + 1) slots w
      (r.1, .ready o :: r.2.1, r.2.2)
  | n, .future :: slots, w =>
      match block n (futures n w).1 .future with
      | .error exit => (some exit, .future :: slots, (futures n w).2)
      | .ok slot =>
          let r := each block futures (n + 1) slots (futures n w).2
          (r.1, slot :: r.2.1, r.2.2)

/-- The values, once all are there. -/
def values : List (ReadyOrNot α) → Option (List α)
  | [] => some []
  | .ready o :: slots => (values slots).map (o :: ·)
  | .future :: _ => none

/-- `k` futures that are joined at once. -/
def joinAll (block : ℕ → ChildPoll C → ReadyOrNot α → Except (JoinPoll R) (ReadyOrNot α))
    (output : List α → R) (futures : ℕ → Fut W C) (k : ℕ) : Reactive W (ChildPoll R) where
  State := Option (List (ReadyOrNot α))
  start := some (List.replicate k .future)
  call
    | none, w => (.panicked polledAfterCompletion, none, w)
    | some slots, w =>
        let r := each block futures 0 slots w
        match r.1, values r.2.1 with
        | some exit, _ => (exit.toChild, some r.2.1, r.2.2)
        | none, some os => (.ready (output os), none, r.2.2)
        | none, none => (.pending, some r.2.1, r.2.2)

end Each

section Objects

variable {W : Type*} {α : Type u} {E : Type v}

/-- A nesting of `join2`s. -/
def nested (futures : ℕ → Fut W α) (t : Shape) : Reactive W (ChildPoll (t.Out α)) where
  State := t.State α
  start := t.start α
  call := t.join futures 0

/-- A nesting of `try_join2`s. -/
def tryNested (futures : ℕ → Fut W (Except E α)) (t : Shape) :
    Reactive W (ChildPoll (Except (t.Err E) (t.Out α))) where
  State := t.State α
  start := t.start α
  call := t.tryJoin futures 0

/-- All of the futures, or the panic of one. -/
def joinEach (futures : ℕ → Fut W α) (k : ℕ) : Reactive W (ChildPoll (List α)) :=
  joinAll (fun _ => ReadyOrNot.poll) id futures k

/-- All of the futures, or the first failure of a poll, with the number of the future. -/
def tryJoinEach (futures : ℕ → Fut W (Except E α)) (k : ℕ) :
    Reactive W (ChildPoll (Except (ℕ × E) (List α))) :=
  joinAll (fun n => ReadyOrNot.tryPoll fun e => .error (n, e)) .ok futures k

end Objects

end Kiruna.Join

import Mathlib.Data.List.Basic

/-!
# Joins of two futures

`join2` polls two children until both are complete; `try_join2` returns as soon as one of them
fails. A child is seen through the results of its polls: its script gives the result of each, in
whatever circumstances it is made. A poll of a join is a function of what the children would answer
now, and says which of them it has polled.
-/

namespace Kiruna.Join

/-- What a poll of a child gives. -/
inductive ChildPoll (α : Type*)
  | pending
  | ready (r : α)
  | panicked (message : String)
  deriving DecidableEq

/-- A child: the result of its `k`th poll. -/
abbrev Script (α : Type*) := ℕ → ChildPoll α

inductive ReadyOrNot (O : Type*)
  | future
  | ready (o : O)
  deriving DecidableEq

/-- `Join2` and `TryJoin2` have the same two cases. -/
inductive Join2 (AR BR : Type*)
  | polling (a : ReadyOrNot AR) (b : ReadyOrNot BR)
  | done
  deriving DecidableEq

inductive Error2 (A B : Type*)
  | a (e : A)
  | b (e : B)
  deriving DecidableEq

inductive Which
  | a
  | b
  deriving DecidableEq

inductive JoinPoll (R : Type*)
  | pending
  | ready (r : R)
  | panicked (message : String)
  deriving DecidableEq

/-- A poll of a join: the join after it, the children it has polled, in their order, and what it
returns. -/
structure Polled (AR BR R : Type*) where
  join : Join2 AR BR
  children : List Which
  result : JoinPoll R
  deriving DecidableEq

def polledAfterCompletion : String := "Polled after completion"

def enteredUnreachable : String := "internal error: entered unreachable code"

namespace ReadyOrNot

variable {O E R : Type*}

/-- The children that are polled for this one. -/
def polls (w : Which) : ReadyOrNot O → List Which
  | .future => [w]
  | .ready _ => []

/-- The block of `Join2::poll` for a child that would answer `p`; an error is an exit from the
poll, here the panic of the child. -/
def poll (p : ChildPoll O) : ReadyOrNot O → Except (JoinPoll R) (ReadyOrNot O)
  | .future =>
      match p with
      | .ready r => .ok (.ready r)
      | .pending => .ok .future
      | .panicked message => .error (.panicked message)
  | .ready o => .ok (.ready o)

/-- The block of `TryJoin2::poll`, which also returns the error of the child. -/
def tryPoll (wrap : E → R) (p : ChildPoll (Except E O)) :
    ReadyOrNot O → Except (JoinPoll R) (ReadyOrNot O)
  | .future =>
      match p with
      | .ready (.ok item) => .ok (.ready item)
      | .ready (.error e) => .error (.ready (wrap e))
      | .pending => .ok .future
      | .panicked message => .error (.panicked message)
  | .ready o => .ok (.ready o)

end ReadyOrNot

section Poll

variable {AR BR AE BE R : Type*}

/-- The body that the two polls share, with a block for each child. -/
def pollWith (pollA : ReadyOrNot AR → Except (JoinPoll R) (ReadyOrNot AR))
    (pollB : ReadyOrNot BR → Except (JoinPoll R) (ReadyOrNot BR)) (output : AR × BR → R) :
    Join2 AR BR → Polled AR BR R
  | .done => ⟨.done, [], .panicked polledAfterCompletion⟩
  | .polling a b =>
      match pollA a with
      | .error exit => ⟨.polling a b, a.polls .a, exit⟩
      | .ok a' =>
          match pollB b with
          | .error exit => ⟨.polling a' b, a.polls .a ++ b.polls .b, exit⟩
          | .ok b' =>
              let this := Join2.polling a' b'
              let children := a.polls .a ++ b.polls .b
              match a', b' with
              | .ready _, .ready _ =>
                  -- `mem::replace` leaves `Done` and gives what was there
                  match this with
                  | .polling (.ready ra) (.ready rb) => ⟨.done, children, .ready (output (ra, rb))⟩
                  | _ => ⟨.done, children, .panicked enteredUnreachable⟩
              | _, _ => ⟨this, children, .pending⟩

/-- `Join2::poll`. -/
def join2 (pa : ChildPoll AR) (pb : ChildPoll BR) : Join2 AR BR → Polled AR BR (AR × BR) :=
  pollWith (ReadyOrNot.poll pa) (ReadyOrNot.poll pb) id

/-- `TryJoin2::poll`. -/
def tryJoin2 (pa : ChildPoll (Except AE AR)) (pb : ChildPoll (Except BE BR)) :
    Join2 AR BR → Polled AR BR (Except (Error2 AE BE) (AR × BR)) :=
  pollWith (ReadyOrNot.tryPoll (fun e => .error (.a e)) pa)
    (ReadyOrNot.tryPoll (fun e => .error (.b e)) pb) .ok

variable {pollA : ReadyOrNot AR → Except (JoinPoll R) (ReadyOrNot AR)}
  {pollB : ReadyOrNot BR → Except (JoinPoll R) (ReadyOrNot BR)} {output : AR × BR → R}
  {a a' : ReadyOrNot AR} {b b' : ReadyOrNot BR} {exit : JoinPoll R}

@[simp] theorem pollWith_done : pollWith pollA pollB output .done =
    ⟨.done, [], .panicked polledAfterCompletion⟩ := rfl

theorem pollWith_exitA (ha : pollA a = .error exit) :
    pollWith pollA pollB output (.polling a b) = ⟨.polling a b, a.polls .a, exit⟩ := by
  simp only [pollWith, ha]

theorem pollWith_exitB (ha : pollA a = .ok a') (hb : pollB b = .error exit) :
    pollWith pollA pollB output (.polling a b) =
      ⟨.polling a' b, a.polls .a ++ b.polls .b, exit⟩ := by
  simp only [pollWith, ha, hb]

theorem pollWith_ready {ra : AR} {rb : BR} (ha : pollA a = .ok (.ready ra))
    (hb : pollB b = .ok (.ready rb)) :
    pollWith pollA pollB output (.polling a b) =
      ⟨.done, a.polls .a ++ b.polls .b, .ready (output (ra, rb))⟩ := by
  simp only [pollWith, ha, hb]

theorem pollWith_pending (ha : pollA a = .ok a') (hb : pollB b = .ok b')
    (hne : a' = .future ∨ b' = .future) :
    pollWith pollA pollB output (.polling a b) =
      ⟨.polling a' b', a.polls .a ++ b.polls .b, .pending⟩ := by
  simp only [pollWith, ha, hb]
  rcases hne with rfl | rfl
  · rfl
  · cases a' <;> rfl

end Poll

/-- A join in the hands of its caller, with the number of polls that each child has had. -/
structure Joined (AR BR : Type*) where
  join : Join2 AR BR
  a : ℕ
  b : ℕ
  deriving DecidableEq

section Joined

variable {A B AR BR R : Type*}
  (poll : ChildPoll A → ChildPoll B → Join2 AR BR → Polled AR BR R) (sa : Script A) (sb : Script B)

/-- `Join2::new` and `TryJoin2::new`. -/
def Joined.new : Joined AR BR := ⟨.polling .future .future, 0, 0⟩

/-- The poll that the join makes next. -/
def Joined.next (s : Joined AR BR) : Polled AR BR R := poll (sa s.a) (sb s.b) s.join

/-- After `k` polls. -/
def after : ℕ → Joined AR BR
  | 0 => .new
  | k + 1 =>
      let s := after k
      let r := s.next poll sa sb
      ⟨r.join, s.a + r.children.count .a, s.b + r.children.count .b⟩

/-- The poll number `k`, from zero. -/
def nth (k : ℕ) : Polled AR BR R := (after poll sa sb k).next poll sa sb

variable {poll sa sb} {k : ℕ}

theorem after_succ : after poll sa sb (k + 1) = ⟨(nth poll sa sb k).join,
    (after poll sa sb k).a + (nth poll sa sb k).children.count .a,
    (after poll sa sb k).b + (nth poll sa sb k).children.count .b⟩ := rfl

end Joined
end Kiruna.Join

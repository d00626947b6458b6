import Kiruna.Join.NestedRefinement

/-!
# Futures that panic instead of failing

`PanicFuture` panics when its future fails. A nesting of `try_join2` that panics so is, but for the
text, a nesting of `join2` over futures that panic by themselves: a panic leaves a poll of `join2`
where an error leaves a poll of `try_join2`, and both leave the joins as they are.
-/

namespace Kiruna.Futures

open Join

universe u v

/-- The text of the panic, with the error in its `Debug` form. -/
def panicText (err : String) : String := "kiruna::future::panic " ++ err

/-- `PanicFuture::poll`, by what the poll of its future gives. -/
def panicPoll {E O : Type*} (debug : E → String) : ChildPoll (Except E O) → ChildPoll O
  | .pending => .pending
  | .ready (.ok o) => .ready o
  | .ready (.error e) => .panicked (panicText (debug e))
  | .panicked message => .panicked message

section Objects

variable {W : Type*} {E O : Type*}

/-- `PanicFuture` of a future whose state is in the world. -/
def panicFut (debug : E → String) (f : Fut W (Except E O)) : Fut W O :=
  fun w => (panicPoll debug (f w).1, (f w).2)

/-- `PanicFuture` of a future with a state of its own. -/
def panicFuture (debug : E → String) (M : Reactive W (ChildPoll (Except E O))) :
    Reactive W (ChildPoll O) where
  State := M.State
  start := M.start
  call s w := (panicPoll debug (M.call s w).1, (M.call s w).2)

end Objects

/-- The derived `Debug` of `Error2`. -/
def debugError2 {A B : Type*} (debugA : A → String) (debugB : B → String) : Error2 A B → String
  | .a e => "A(" ++ debugA e ++ ")"
  | .b e => "B(" ++ debugB e ++ ")"

section Nested

variable {W : Type*} {α : Type u} {E : Type v} {debug : E → String}

def debugErr (debug : E → String) : (t : Shape) → t.Err E → String
  | .leaf => debug
  | .node a b => debugError2 (debugErr debug a) (debugErr debug b)

/-- The same result, or two panics: one with the error of a nesting, and one with the error of the
future that has failed in it. -/
inductive PanicsAlike {O : Type*} (debug : E → String) (t : Shape) (n : ℕ) :
    ChildPoll (Except (t.Err E) O) → ChildPoll O → Prop
  | pending : PanicsAlike debug t n .pending .pending
  | ready (o : O) : PanicsAlike debug t n (.ready (.ok o)) (.ready o)
  | panicked (message : String) : PanicsAlike debug t n (.panicked message) (.panicked message)
  | failed (e : t.Err E) : PanicsAlike debug t n (.ready (.error e))
      (.panicked (panicText (debug (t.flatErr n e).2)))

theorem alike_of_eq {O X : Type*} {t : Shape} {n : ℕ}
    {r : ChildPoll (Except (t.Err E) O) × X} {r' : ChildPoll O × X}
    {p : ChildPoll (Except (t.Err E) O)} {p' : ChildPoll O} {x : X} (h : r = (p, x))
    (h' : r' = (p', x)) (hp : PanicsAlike debug t n p p') :
    PanicsAlike debug t n r.1 r'.1 ∧ r.2 = r'.2 := by
  subst h h'
  exact ⟨hp, rfl⟩

/-- A child in the two polls: it stays the same, or it leaves both. -/
theorem child_alike {a : Shape} {n : ℕ} {S Q R : Type*}
    {f : S → W → ChildPoll (Except (a.Err E) (a.Out α)) × S × W}
    {f' : S → W → ChildPoll (a.Out α) × S × W} (wrap : a.Err E → R)
    (hf : ∀ s w, PanicsAlike debug a n (f s w).1 (f' s w).1 ∧ (f s w).2 = (f' s w).2)
    (x : ReadyOrNot (a.Out α)) (s : S) (w : W) :
    ∃ s' w', (∃ x', child (ReadyOrNot.tryPoll wrap) f x s w = (.ok x', s', w') ∧
        child (ReadyOrNot.poll (R := Q)) f' x s w = (.ok x', s', w')) ∨
      (∃ message, child (ReadyOrNot.tryPoll wrap) f x s w = (.error (.panicked message), s', w') ∧
        child (ReadyOrNot.poll (R := Q)) f' x s w = (.error (.panicked message), s', w')) ∨
      ∃ e, child (ReadyOrNot.tryPoll wrap) f x s w = (.error (.ready (wrap e)), s', w') ∧
        child (ReadyOrNot.poll (R := Q)) f' x s w =
          (.error (.panicked (panicText (debug (a.flatErr n e).2))), s', w') := by
  cases x with
  | ready o => exact ⟨s, w, .inl ⟨.ready o, rfl, rfl⟩⟩
  | future =>
      obtain ⟨hanswer, hrest⟩ := hf s w
      refine ⟨(f' s w).2.1, (f' s w).2.2, ?_⟩
      simp only [child, hrest]
      generalize (f s w).1 = p at hanswer
      generalize (f' s w).1 = p' at hanswer
      cases hanswer with
      | pending => exact .inl ⟨.future, rfl, rfl⟩
      | ready o => exact .inl ⟨.ready o, rfl, rfl⟩
      | panicked message => exact .inr (.inl ⟨message, rfl, rfl⟩)
      | failed e => exact .inr (.inr ⟨e, rfl, rfl⟩)

theorem panicsAlike_both {a b : Shape} {n : ℕ} {S T : Type*}
    {f : S → W → ChildPoll (Except (a.Err E) (a.Out α)) × S × W}
    {f' : S → W → ChildPoll (a.Out α) × S × W}
    {g : T → W → ChildPoll (Except (b.Err E) (b.Out α)) × T × W}
    {g' : T → W → ChildPoll (b.Out α) × T × W}
    (hf : ∀ s w, PanicsAlike debug a n (f s w).1 (f' s w).1 ∧ (f s w).2 = (f' s w).2)
    (hg : ∀ s w, PanicsAlike debug b (n + a.size) (g s w).1 (g' s w).1 ∧ (g s w).2 = (g' s w).2)
    (s : Join2 (a.Out α) (b.Out α) × S × T) (w : W) :
    PanicsAlike debug (.node a b) n (both tryJoin2 f g s w).1 (both join2 f' g' s w).1 ∧
      (both tryJoin2 f g s w).2 = (both join2 f' g' s w).2 := by
  obtain ⟨j, sa, sb⟩ := s
  cases j with
  | done => exact ⟨.panicked _, rfl⟩
  | polling x y =>
      obtain ⟨sa', w', ha⟩ := child_alike (Q := a.Out α × b.Out α)
        (fun e => (.error (.a e) : Except (Error2 _ (b.Err E)) (a.Out α × b.Out α))) hf x sa w
      rcases ha with ⟨x', ha, ha'⟩ | ⟨message, ha, ha'⟩ | ⟨e, ha, ha'⟩
      · obtain ⟨sb', w'', hb⟩ := child_alike (Q := a.Out α × b.Out α)
          (fun e => (.error (.b e) : Except (Error2 (a.Err E) _) (a.Out α × b.Out α))) hg y sb w'
        rcases hb with ⟨y', hb, hb'⟩ | ⟨message, hb, hb'⟩ | ⟨e, hb, hb'⟩
        · cases x' with
          | future =>
              exact alike_of_eq
                (both_pending (tryPoll_passes _) (tryPoll_passes _) ha hb (.inl rfl))
                (both_pending poll_passes poll_passes ha' hb' (.inl rfl)) .pending
          | ready oa =>
              cases y' with
              | future =>
                  exact alike_of_eq
                    (both_pending (tryPoll_passes _) (tryPoll_passes _) ha hb (.inr rfl))
                    (both_pending poll_passes poll_passes ha' hb' (.inr rfl)) .pending
              | ready ob =>
                  exact alike_of_eq (both_ready (tryPoll_passes _) (tryPoll_passes _) ha hb)
                    (both_ready poll_passes poll_passes ha' hb') (.ready (oa, ob))
        · exact alike_of_eq (both_exitB (tryPoll_passes _) ha hb) (both_exitB poll_passes ha' hb')
            (.panicked message)
        · exact alike_of_eq (both_exitB (tryPoll_passes _) ha hb) (both_exitB poll_passes ha' hb')
            (PanicsAlike.failed (t := .node a b) (Error2.b e))
      · exact alike_of_eq (both_exitA ha) (both_exitA ha') (.panicked message)
      · exact alike_of_eq (both_exitA ha) (both_exitA ha')
          (PanicsAlike.failed (t := .node a b) (Error2.a e))

/-- A poll of a nesting of `try_join2` and one of `join2` over futures that panic. -/
theorem panicsAlike_tryJoin (futures : ℕ → Fut W (Except E α)) (t : Shape) (n : ℕ)
    (s : t.State α) (w : W) :
    PanicsAlike debug t n (t.tryJoin futures n s w).1
        (t.join (fun n => panicFut debug (futures n)) n s w).1 ∧
      (t.tryJoin futures n s w).2 = (t.join (fun n => panicFut debug (futures n)) n s w).2 := by
  induction t generalizing n w with
  | leaf =>
      refine ⟨?_, rfl⟩
      simp only [Shape.tryJoin, Shape.join, panicFut]
      cases (futures n w).1 with
      | pending => exact .pending
      | panicked message => exact .panicked message
      | ready r =>
          cases r with
          | ok o => exact .ready o
          | error e => exact PanicsAlike.failed (t := .leaf) e
  | node a b iha ihb =>
      exact panicsAlike_both (fun s w => iha n s w) (fun s w => ihb (n + a.size) s w) s w

/-- The same result, or two panics: a nesting names its error with the path to the future that has
failed, and the future names its own. -/
inductive AlikeButText {O : Type*} (debug : E → String) (t : Shape) :
    ChildPoll O → ChildPoll O → Prop
  | pending : AlikeButText debug t .pending .pending
  | ready (o : O) : AlikeButText debug t (.ready o) (.ready o)
  | panicked (message : String) : AlikeButText debug t (.panicked message) (.panicked message)
  | failed (e : t.Err E) : AlikeButText debug t (.panicked (panicText (debugErr debug t e)))
      (.panicked (panicText (debug (t.flatErr 0 e).2)))

/-- The panic of a nesting of `try_join2`, and the nesting of `join2` over futures that panic. -/
theorem panicFuture_agree (debug : E → String) (futures : ℕ → Fut W (Except E α)) (t : Shape) :
    Reactive.Agree (AlikeButText debug t)
      (panicFuture (debugErr debug t) (tryNested futures t))
      (nested (fun n => panicFut debug (futures n)) t) := by
  refine ⟨Eq, ?_, rfl⟩
  rintro s _ w rfl
  obtain ⟨hanswer, hrest⟩ := panicsAlike_tryJoin futures t 0 s w
  refine ⟨?_, congrArg Prod.fst hrest, congrArg Prod.snd hrest⟩
  simp only [panicFuture, tryNested, nested]
  generalize (t.tryJoin futures 0 s w).1 = p at hanswer
  generalize (t.join (fun n => panicFut debug (futures n)) 0 s w).1 = p' at hanswer
  cases hanswer with
  | pending => exact .pending
  | ready o => exact .ready o
  | panicked message => exact .panicked message
  | failed e => exact .failed e

/-- It makes no difference but in the text of the panic whether `panic` stands outside `try_join2`
or inside `join2`. -/
theorem calls_panicFuture (debug : E → String) (futures : ℕ → Fut W (Except E α)) (t : Shape)
    (ws : List W) :
    List.Forall₂ (fun x y => AlikeButText debug t x.1 y.1 ∧ x.2 = y.2)
      ((panicFuture (debugErr debug t) (tryNested futures t)).calls (t.start α) ws)
      ((nested (fun n => panicFut debug (futures n)) t).calls (t.start α) ws) :=
  (panicFuture_agree debug futures t).calls ws

end Nested
end Kiruna.Futures

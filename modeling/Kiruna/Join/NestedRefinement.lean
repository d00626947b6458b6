import Kiruna.Join.Nested

/-!
# Nested joins and joins at once

However joins are nested, a poll of the outermost one does what a poll of all futures at once does:
the same futures are polled, in the order of their numbers, and the poll is left at the same future.
The slots of a join at once are read off the joins of the nesting.
-/

namespace Kiruna.Join

universe u v

section Both

variable {W A B AR BR R S T : Type*}
  {pollA : ChildPoll A → ReadyOrNot AR → Except (JoinPoll R) (ReadyOrNot AR)}
  {pollB : ChildPoll B → ReadyOrNot BR → Except (JoinPoll R) (ReadyOrNot BR)}
  {output : AR × BR → R} {f : S → W → ChildPoll A × S × W} {g : T → W → ChildPoll B × T × W}
  {a a' : ReadyOrNot AR} {b b' : ReadyOrNot BR} {sa sa' : S} {sb sb' : T} {w w' w'' : W}
  {exit : JoinPoll R}

/-- What the body of a poll does at one child. -/
def child (block : ChildPoll A → ReadyOrNot AR → Except (JoinPoll R) (ReadyOrNot AR))
    (f : S → W → ChildPoll A × S × W) :
    ReadyOrNot AR → S → W → Except (JoinPoll R) (ReadyOrNot AR) × S × W
  | .future, s, w => (block (f s w).1 .future, (f s w).2)
  | .ready o, s, w => (.ok (.ready o), s, w)

/-- A block that leaves a value as it is. -/
def Passes (block : ChildPoll A → ReadyOrNot AR → Except (JoinPoll R) (ReadyOrNot AR)) : Prop :=
  ∀ p o, block p (.ready o) = .ok (.ready o)

theorem poll_passes {O : Type*} :
    Passes (ReadyOrNot.poll : ChildPoll O → _ → Except (JoinPoll R) _) := fun _ _ => rfl

theorem tryPoll_passes {E O : Type*} (wrap : E → R) :
    Passes (ReadyOrNot.tryPoll wrap : ChildPoll (Except E O) → _) := fun _ _ => rfl

theorem both_exitA (ha : child pollA f a sa w = (.error exit, sa', w')) :
    both (fun p q => pollWith (pollA p) (pollB q) output) f g (.polling a b, sa, sb) w =
      (exit.toChild, (.polling a b, sa', sb), w') := by
  cases a with
  | ready o => cases ha
  | future =>
      obtain ⟨hexit, hrest⟩ := Prod.mk.inj ha
      have hpoll : pollA (f sa w).1 .future = .error exit := hexit
      simp [both, Join2.futures, ReadyOrNot.polls, pollWith_exitA hpoll, hrest]

theorem both_exitB (hA : Passes pollA)
    (ha : child pollA f a sa w = (.ok a', sa', w'))
    (hb : child pollB g b sb w' = (.error exit, sb', w'')) :
    both (fun p q => pollWith (pollA p) (pollB q) output) f g (.polling a b, sa, sb) w =
      (exit.toChild, (.polling a' b, sa', sb'), w'') := by
  cases b with
  | ready o => cases hb
  | future =>
      obtain ⟨hexit, hrest⟩ := Prod.mk.inj hb
      have hpollB : pollB (g sb w').1 .future = .error exit := hexit
      cases a with
      | ready o =>
          cases ha
          simp [both, Join2.futures, ReadyOrNot.polls, pollWith_exitB (hA _ o) hpollB, hrest]
      | future =>
          obtain ⟨hok, hmid⟩ := Prod.mk.inj ha
          have hpollA : pollA (f sa w).1 .future = .ok a' := hok
          simp [both, Join2.futures, ReadyOrNot.polls, hmid, pollWith_exitB hpollA hpollB, hrest]

theorem both_of_ok (hA : Passes pollA) (hB : Passes pollB)
    (ha : child pollA f a sa w = (.ok a', sa', w'))
    (hb : child pollB g b sb w' = (.ok b', sb', w'')) {r : Polled AR BR R}
    (hr : ∀ p q, pollA p a = .ok a' → pollB q b = .ok b' →
      pollWith (pollA p) (pollB q) output (.polling a b) = r)
    (hc : r.children = a.polls .a ++ b.polls .b) :
    both (fun p q => pollWith (pollA p) (pollB q) output) f g (.polling a b, sa, sb) w =
      (r.result.toChild, (r.join, sa', sb'), w'') := by
  have hpollA : ∀ o, a = .ready o → ∀ p, pollA p a = .ok a' := by
    rintro o rfl p
    cases ha
    exact hA p o
  have hpollB : ∀ o, b = .ready o → ∀ p, pollB p b = .ok b' := by
    rintro o rfl p
    cases hb
    exact hB p o
  cases a with
  | ready o =>
      obtain ⟨-, hmid⟩ := Prod.mk.inj ha
      cases b with
      | ready o' =>
          obtain ⟨-, hrest⟩ := Prod.mk.inj hb
          have hr' := hr .pending .pending (hpollA o rfl _) (hpollB o' rfl _)
          cases hmid
          cases hrest
          simp [both, Join2.futures, ReadyOrNot.polls, hr', hc]
      | future =>
          obtain ⟨hokB, hrest⟩ := Prod.mk.inj hb
          have hr' := hr .pending _ (hpollA o rfl _) hokB
          cases hmid
          simp [both, Join2.futures, ReadyOrNot.polls, hr', hc, hrest]
  | future =>
      obtain ⟨hokA, hmid⟩ := Prod.mk.inj ha
      cases b with
      | ready o' =>
          obtain ⟨-, hrest⟩ := Prod.mk.inj hb
          have hr' := hr _ .pending hokA (hpollB o' rfl _)
          cases hrest
          simp [both, Join2.futures, ReadyOrNot.polls, hr', hc, hmid]
      | future =>
          obtain ⟨hokB, hrest⟩ := Prod.mk.inj hb
          have hr' := hr _ _ hokA hokB
          simp [both, Join2.futures, ReadyOrNot.polls, hmid, hr', hc, hrest]

theorem both_pending (hA : Passes pollA) (hB : Passes pollB)
    (ha : child pollA f a sa w = (.ok a', sa', w'))
    (hb : child pollB g b sb w' = (.ok b', sb', w'')) (hne : a' = .future ∨ b' = .future) :
    both (fun p q => pollWith (pollA p) (pollB q) output) f g (.polling a b, sa, sb) w =
      (.pending, (.polling a' b', sa', sb'), w'') :=
  both_of_ok hA hB ha hb (fun _ _ hp hq => pollWith_pending hp hq hne) rfl

theorem both_ready {ra : AR} {rb : BR} (hA : Passes pollA) (hB : Passes pollB)
    (ha : child pollA f a sa w = (.ok (.ready ra), sa', w'))
    (hb : child pollB g b sb w' = (.ok (.ready rb), sb', w'')) :
    both (fun p q => pollWith (pollA p) (pollB q) output) f g (.polling a b, sa, sb) w =
      (.ready (output (ra, rb)), (.done, sa', sb'), w'') :=
  both_of_ok hA hB ha hb (fun _ _ hp hq => pollWith_ready hp hq) rfl

end Both

section Each

variable {W C α R : Type*}
  {block : ℕ → ChildPoll C → ReadyOrNot α → Except (JoinPoll R) (ReadyOrNot α)}
  {futures : ℕ → Fut W C}

theorem each_append (n : ℕ) (slots slots' : List (ReadyOrNot α)) (w : W) :
    each block futures n (slots ++ slots') w =
      (let r := each block futures n slots w
      match r.1 with
      | some exit => (some exit, r.2.1 ++ slots', r.2.2)
      | none =>
          let r' := each block futures (n + slots.length) slots' r.2.2
          (r'.1, r.2.1 ++ r'.2.1, r'.2.2)) := by
  induction slots generalizing n w with
  | nil => rfl
  | cons slot slots ih =>
      have hn : n + (slots.length + 1) = n + 1 + slots.length := by omega
      cases slot with
      | ready o =>
          simp only [List.cons_append, each, ih, List.length_cons, hn]
          cases (each block futures (n + 1) slots w).1 <;> rfl
      | future =>
          simp only [List.cons_append, each]
          cases block n (futures n w).1 .future with
          | error exit => rfl
          | ok slot =>
              simp only [ih, List.length_cons, hn]
              cases (each block futures (n + 1) slots (futures n w).2).1 <;> rfl

/-- Futures that are all complete are not polled again. -/
theorem each_ready (n : ℕ) (os : List α) (w : W) :
    each block futures n (os.map .ready) w = (none, os.map .ready, w) := by
  induction os generalizing n with
  | nil => rfl
  | cons o os ih => simp only [List.map_cons, each, ih]

theorem values_map_ready (os : List α) : values (os.map .ready) = some os := by
  induction os with
  | nil => rfl
  | cons o os ih =>
      rw [List.map_cons, values, ih]
      rfl

theorem values_append_none {slots slots' : List (ReadyOrNot α)}
    (h : values slots = none ∨ values slots' = none) : values (slots ++ slots') = none := by
  induction slots with
  | nil => exact h.resolve_left (by simp [values])
  | cons slot slots ih =>
      cases slot with
      | future => rfl
      | ready o =>
          rw [List.cons_append, values, ih, Option.map_none]
          rcases h with h | h
          · exact .inl (Option.map_eq_none_iff.mp h)
          · exact .inr h

end Each

namespace Shape

variable {W : Type*} {α : Type u} {E : Type v}

/-- The futures of a nesting and their values, as the joins have them; the joins of a child that is
complete are over. -/
def slots : (t : Shape) → ReadyOrNot (t.Out α) → t.State α → List (ReadyOrNot α)
  | t, .ready o, _ => (t.flat o).map .ready
  | leaf, .future, _ => [.future]
  | node a b, .future, s =>
      match s.1 with
      | .polling x y => a.slots x s.2.1 ++ b.slots y s.2.2
      | .done => []

/-- No join is over before its parent has the values. -/
def Live : (t : Shape) → ReadyOrNot (t.Out α) → t.State α → Prop
  | _, .ready _, _ => True
  | leaf, .future, _ => True
  | node a b, .future, s =>
      match s.1 with
      | .polling x y => a.Live x s.2.1 ∧ b.Live y s.2.2
      | .done => False

/-- The outermost join is over. -/
def Over : (t : Shape) → t.State α → Prop
  | leaf, _ => True
  | node _ _, s => s.1 = .done

theorem over_done {a b : Shape} (sa : a.State α) (sb : b.State α) :
    (node a b).Over (.done, sa, sb) := rfl

theorem slots_ready (t : Shape) (o : t.Out α) (s : t.State α) :
    t.slots (.ready o) s = (t.flat o).map .ready := by
  cases t <;> rfl

theorem live_ready (t : Shape) (o : t.Out α) (s : t.State α) : t.Live (.ready o) s := by
  cases t <;> exact trivial

theorem live_node {a b : Shape} {x : ReadyOrNot (a.Out α)} {y : ReadyOrNot (b.Out α)}
    {sa : a.State α} {sb : b.State α} (ha : a.Live x sa) (hb : b.Live y sb) :
    (node a b).Live .future (.polling x y, sa, sb) := ⟨ha, hb⟩

theorem length_flat (t : Shape) (o : t.Out α) : (t.flat o).length = t.size := by
  induction t with
  | leaf => rfl
  | node a b iha ihb =>
      have ha := iha o.1
      have hb := ihb o.2
      simp only [flat, size, List.length_append, ha, hb]

theorem length_slots {t : Shape} {x : ReadyOrNot (t.Out α)} {s : t.State α} (h : t.Live x s) :
    (t.slots x s).length = t.size := by
  induction t with
  | leaf =>
      cases x <;> rfl
  | node a b iha ihb =>
      cases x with
      | ready o => simp only [slots, List.length_map, length_flat]
      | future =>
          obtain ⟨j, sa, sb⟩ := s
          cases j with
          | done => exact h.elim
          | polling x y =>
              simp only [slots, size, List.length_append, iha h.1, ihb h.2]

/-- A poll of all unfinished futures from number `n` on, left at the first failure. -/
def tryEach (futures : ℕ → Fut W (Except E α)) : ℕ → List (ReadyOrNot α) → W →
    Option (JoinPoll (Except (ℕ × E) (List α))) × List (ReadyOrNot α) × W :=
  each (fun n => ReadyOrNot.tryPoll fun e => .error (n, e)) futures

/-- What a poll of a nesting gives, and what the same poll of its futures gives. -/
inductive Steps (t : Shape) (n : ℕ) : ChildPoll (Except (t.Err E) (t.Out α)) × t.State α × W →
    Option (JoinPoll (Except (ℕ × E) (List α))) × List (ReadyOrNot α) × W → Prop
  | panicked (message : String) {s : t.State α} (hs : t.Live .future s) (w : W) :
      Steps t n (.panicked message, s, w) (some (.panicked message), t.slots .future s, w)
  | failed (e : t.Err E) {s : t.State α} (hs : t.Live .future s) (w : W) :
      Steps t n (.ready (.error e), s, w)
        (some (.ready (.error (t.flatErr n e))), t.slots .future s, w)
  | pending {s : t.State α} (hs : t.Live .future s) (hv : values (t.slots .future s) = none)
      (w : W) : Steps t n (.pending, s, w) (none, t.slots .future s, w)
  | ready (o : t.Out α) {s : t.State α} (hs : t.Over s) (w : W) :
      Steps t n (.ready (.ok o), s, w) (none, (t.flat o).map .ready, w)

theorem Steps.of_eq {t : Shape} {n : ℕ}
    {r r' : ChildPoll (Except (t.Err E) (t.Out α)) × t.State α × W}
    {e : Option (JoinPoll (Except (ℕ × E) (List α))) × List (ReadyOrNot α) × W} (h : r = r')
    (hs : Steps t n r' e) : Steps t n r e := h ▸ hs

/-- The same for a nesting that is a child, and stands at `x` in its parent. -/
inductive ChildSteps {R : Type*} (t : Shape) (n : ℕ) (wrap : t.Err E → R) :
    ReadyOrNot (t.Out α) → Except (JoinPoll R) (ReadyOrNot (t.Out α)) × t.State α × W →
    Option (JoinPoll (Except (ℕ × E) (List α))) × List (ReadyOrNot α) × W → Prop
  | panicked (message : String) {s : t.State α} (hs : t.Live .future s) (w : W) :
      ChildSteps t n wrap .future (.error (.panicked message), s, w)
        (some (.panicked message), t.slots .future s, w)
  | failed (e : t.Err E) {s : t.State α} (hs : t.Live .future s) (w : W) :
      ChildSteps t n wrap .future (.error (.ready (wrap e)), s, w)
        (some (.ready (.error (t.flatErr n e))), t.slots .future s, w)
  | ok (x : ReadyOrNot (t.Out α)) {y : ReadyOrNot (t.Out α)} {s : t.State α} (hs : t.Live y s)
      (hv : y = .future → values (t.slots y s) = none) (w : W) :
      ChildSteps t n wrap x (.ok y, s, w) (none, t.slots y s, w)

variable {futures : ℕ → Fut W (Except E α)} {t : Shape}

theorem childSteps {R : Type*} {n : ℕ} {x : ReadyOrNot (t.Out α)} {s : t.State α} (w : W)
    (wrap : t.Err E → R) (hs : t.Live x s)
    (h : ∀ s : t.State α, t.Live .future s →
      Steps t n (t.tryJoin futures n s w) (tryEach futures n (t.slots .future s) w)) :
    ChildSteps t n wrap x (child (ReadyOrNot.tryPoll wrap) (t.tryJoin futures n) x s w)
      (tryEach futures n (t.slots x s) w) := by
  cases x with
  | ready o =>
      rw [tryEach, slots_ready, each_ready, ← slots_ready t o s]
      exact .ok _ hs (fun h => by cases h) w
  | future =>
      have hstep := h s hs
      simp only [child]
      generalize t.tryJoin futures n s w = r at hstep
      generalize tryEach futures n (t.slots .future s) w = e at hstep
      cases hstep with
      | panicked message hs' w => exact .panicked message hs' w
      | failed e hs' w => exact .failed e hs' w
      | pending hs' hv w => exact .ok _ hs' (fun _ => hv) w
      | @ready o s' hs' w =>
          rw [← slots_ready t o s']
          exact .ok _ (live_ready t o s') (fun h => by cases h) w

theorem steps (futures : ℕ → Fut W (Except E α)) (t : Shape) (n : ℕ) (s : t.State α) (w : W)
    (hs : t.Live .future s) :
    Steps t n (t.tryJoin futures n s w) (tryEach futures n (t.slots .future s) w) := by
  induction t generalizing n w with
  | leaf =>
      simp only [tryJoin, slots, tryEach, each]
      cases hp : (futures n w).1 with
      | pending => exact Steps.pending (t := leaf) trivial rfl _
      | panicked message => exact Steps.panicked (t := leaf) message trivial _
      | ready r =>
          cases r with
          | error e => exact Steps.failed (t := leaf) e trivial _
          | ok o => exact Steps.ready (t := leaf) o trivial _
  | node a b iha ihb =>
      obtain ⟨j, sa, sb⟩ := s
      cases j with
      | done => exact hs.elim
      | polling x y =>
          have ha := childSteps w (fun e => (.error (.a e) : Except (Error2 _ (b.Err E))
            (a.Out α × b.Out α))) hs.1 fun s hs => iha n s w hs
          have hlen : (a.slots x sa).length = a.size := length_slots hs.1
          have happend :
              tryEach futures n ((node a b).slots .future (.polling x y, sa, sb)) w = _ :=
            each_append n (a.slots x sa) (b.slots y sb) w
          rw [happend, hlen]
          simp only [tryJoin]
          change ChildSteps _ _ _ _ _ (each _ _ _ _ _) at ha
          generalize hca : child _ _ x sa w = ca at ha
          generalize each _ futures n (a.slots x sa) w = ea at ha
          cases ha with
          | panicked message hs' w' =>
              exact Steps.of_eq (t := node a b) (both_exitA hca)
                (Steps.panicked (t := node a b) message (live_node hs' hs.2) w')
          | failed e hs' w' =>
              exact Steps.of_eq (t := node a b) (both_exitA hca)
                (Steps.failed (t := node a b) (Error2.a e) (live_node hs' hs.2) w')
          | @ok _ x' sa' hs' hv w' =>
              have hb := childSteps w' (fun e => (.error (.b e) : Except (Error2 (a.Err E) _)
                (a.Out α × b.Out α))) hs.2 fun s hs => ihb (n + a.size) s w' hs
              change ChildSteps _ _ _ _ _ (each _ _ _ _ _) at hb
              dsimp only
              generalize hcb : child _ _ y sb w' = cb at hb
              generalize each _ futures (n + a.size) (b.slots y sb) w' = eb at hb
              cases hb with
              | panicked message hs'' w'' =>
                  exact Steps.of_eq (t := node a b) (both_exitB (tryPoll_passes _) hca hcb)
                    (Steps.panicked (t := node a b) message (live_node hs' hs'') w'')
              | failed e hs'' w'' =>
                  exact Steps.of_eq (t := node a b) (both_exitB (tryPoll_passes _) hca hcb)
                    (Steps.failed (t := node a b) (Error2.b e) (live_node hs' hs'') w'')
              | @ok _ y' sb' hs'' hv' w'' =>
                  have hnone (hne : x' = .future ∨ y' = .future) :
                      values (a.slots x' sa' ++ b.slots y' sb') = none :=
                    values_append_none (hne.imp hv hv')
                  cases x' with
                  | future =>
                      exact Steps.of_eq (t := node a b) (both_pending (tryPoll_passes _)
                        (tryPoll_passes _) hca hcb (.inl rfl))
                        (Steps.pending (t := node a b) (live_node hs' hs'') (hnone (.inl rfl)) w'')
                  | ready oa =>
                      cases y' with
                      | future =>
                          exact Steps.of_eq (t := node a b) (both_pending (tryPoll_passes _)
                            (tryPoll_passes _) hca hcb (.inr rfl))
                            (Steps.pending (t := node a b) (live_node hs' hs'')
                              (hnone (.inr rfl)) w'')
                      | ready ob =>
                          rw [slots_ready, slots_ready, ← List.map_append]
                          exact Steps.of_eq (t := node a b) (both_ready (tryPoll_passes _)
                            (tryPoll_passes _) hca hcb)
                            (Steps.ready (t := node a b) (oa, ob) (over_done sa' sb') w'')

theorem live_start (t : Shape) : t.Live .future (t.start α) := by
  induction t with
  | leaf => exact trivial
  | node a b iha ihb => exact live_node iha ihb

theorem slots_start (t : Shape) :
    t.slots .future (t.start α) = List.replicate t.size .future := by
  induction t with
  | leaf => rfl
  | node a b iha ihb =>
      rw [size, List.replicate_add, ← iha, ← ihb]
      rfl

/-- A result of a nesting, as a join at once gives it. -/
def flatResult (t : Shape) (r : Except (t.Err E) (t.Out α)) : Except (ℕ × E) (List α) :=
  (r.map t.flat).mapError (t.flatErr 0)

/-- The joins of a nesting, and the slots of a join at once. -/
def Stands (t : Shape) (s : t.State α) (slots : Option (List (ReadyOrNot α))) : Prop :=
  t.Live .future s ∧ slots = some (t.slots .future s) ∨ t.Over s ∧ slots = none

/-- Nested `try_join2`s are a join of all futures at once. -/
theorem tryNested_agree (futures : ℕ → Fut W (Except E α)) (a b : Shape) :
    Reactive.Agree (fun r r' => r' = r.map (node a b).flatResult) (tryNested futures (node a b))
      (tryJoinEach futures (node a b).size) := by
  refine ⟨(node a b).Stands, ?_, .inl ⟨live_start _, congrArg some (slots_start _).symm⟩⟩
  intro s slots w hs
  rcases hs with ⟨hlive, rfl⟩ | ⟨hover, rfl⟩
  · have hsteps := steps futures (node a b) 0 s w hlive
    simp only [tryNested, tryJoinEach, joinAll]
    change Steps _ _ _ (each _ _ _ _ _) at hsteps
    generalize (node a b).tryJoin futures 0 s w = r at hsteps
    generalize each _ futures 0 ((node a b).slots .future s) w = e at hsteps
    cases hsteps with
    | panicked message hs w => exact ⟨rfl, .inl ⟨hs, rfl⟩, rfl⟩
    | failed e hs w => exact ⟨rfl, .inl ⟨hs, rfl⟩, rfl⟩
    | pending hs hv w =>
        simp only [hv]
        exact ⟨rfl, .inl ⟨hs, rfl⟩, trivial⟩
    | ready o hs w =>
        simp only [values_map_ready]
        exact ⟨rfl, .inr ⟨hs, rfl⟩, trivial⟩
  · obtain ⟨j, sa, sb⟩ := s
    obtain rfl : j = .done := hover
    exact ⟨rfl, .inr ⟨rfl, rfl⟩, rfl⟩

end Shape

section Infallible

variable {W A B AR BR AE BE S T : Type*} {α : Type u} {E : Type v}

/-- Futures that cannot fail. -/
def infallible (E : Type v) (futures : ℕ → Fut W α) : ℕ → Fut W (Except E α) :=
  fun n w => ((futures n w).1.map .ok, (futures n w).2)

def JoinPoll.map {R R' : Type*} (f : R → R') : JoinPoll R → JoinPoll R'
  | .pending => .pending
  | .ready r => .ready (f r)
  | .panicked message => .panicked message

theorem JoinPoll.toChild_map {R R' : Type*} (f : R → R') (p : JoinPoll R) :
    (p.map f).toChild = p.toChild.map f := by
  cases p <;> rfl

def Polled.map {R R' : Type*} (f : R → R') (r : Polled AR BR R) : Polled AR BR R' :=
  ⟨r.join, r.children, r.result.map f⟩

/-- `try_join2` does with children that cannot fail what `join2` does. -/
theorem tryJoin2_map_ok (p : ChildPoll AR) (q : ChildPoll BR) (j : Join2 AR BR) :
    (tryJoin2 (p.map .ok) (q.map .ok) j : Polled AR BR (Except (Error2 AE BE) (AR × BR))) =
      (join2 p q j).map .ok := by
  cases j with
  | done => rfl
  | polling a b => cases a <;> cases b <;> cases p <;> cases q <;> rfl

theorem both_map_ok (f : S → W → ChildPoll AR × S × W) (g : T → W → ChildPoll BR × T × W)
    (s : Join2 AR BR × S × T) (w : W) :
    both (R := Except (Error2 AE BE) (AR × BR)) tryJoin2
        (fun s w => ((f s w).1.map .ok, (f s w).2))
        (fun s w => ((g s w).1.map .ok, (g s w).2)) s w =
      ((both join2 f g s w).1.map .ok, (both join2 f g s w).2) := by
  obtain ⟨j, sa, sb⟩ := s
  have hok (p : ChildPoll AR) (q : ChildPoll BR) :
      (tryJoin2 (p.map .ok) (q.map .ok) j : Polled AR BR (Except (Error2 AE BE) (AR × BR))) =
        (join2 p q j).map .ok := tryJoin2_map_ok p q j
  have hpendingA (q : ChildPoll BR) : (tryJoin2 .pending (q.map .ok) j :
      Polled AR BR (Except (Error2 AE BE) (AR × BR))) = (join2 .pending q j).map .ok :=
    hok .pending q
  have hpendingB (p : ChildPoll AR) : (tryJoin2 (p.map .ok) .pending j :
      Polled AR BR (Except (Error2 AE BE) (AR × BR))) = (join2 p .pending j).map .ok :=
    hok p .pending
  have hpending : (tryJoin2 .pending .pending j :
      Polled AR BR (Except (Error2 AE BE) (AR × BR))) = (join2 .pending .pending j).map .ok :=
    hok .pending .pending
  simp only [both]
  by_cases ha : Which.a ∈ j.futures <;> by_cases hb : Which.b ∈ j.futures
  · simp only [ha, hb, if_true, hok, Polled.map, JoinPoll.toChild_map]
    split_ifs <;> rfl
  · simp only [ha, hb, if_true, if_false, hpendingB, Polled.map, JoinPoll.toChild_map]
    split_ifs <;> rfl
  · simp only [ha, hb, if_true, if_false, hpendingA, Polled.map, JoinPoll.toChild_map]
    split_ifs <;> rfl
  · simp only [ha, hb, if_false, hpending, Polled.map, JoinPoll.toChild_map]
    split_ifs <;> rfl

theorem tryJoin_infallible (futures : ℕ → Fut W α) (t : Shape) (n : ℕ) (s : t.State α) (w : W) :
    t.tryJoin (infallible E futures) n s w =
      ((t.join futures n s w).1.map .ok, (t.join futures n s w).2) := by
  induction t generalizing n w with
  | leaf => rfl
  | node a b iha ihb =>
      have ha : a.tryJoin (infallible E futures) n = fun s w =>
          ((a.join futures n s w).1.map .ok, (a.join futures n s w).2) := by
        funext s w
        exact iha n s w
      have hb : b.tryJoin (infallible E futures) (n + a.size) = fun s w =>
          ((b.join futures (n + a.size) s w).1.map .ok, (b.join futures (n + a.size) s w).2) := by
        funext s w
        exact ihb (n + a.size) s w
      simp only [Shape.tryJoin, ha, hb]
      exact both_map_ok _ _ s w

theorem each_infallible (futures : ℕ → Fut W α) (n : ℕ) (slots : List (ReadyOrNot α)) (w : W) :
    Shape.tryEach (infallible E futures) n slots w =
      (let r := each (fun _ => ReadyOrNot.poll (R := List α)) futures n slots w
      (r.1.map (JoinPoll.map .ok), r.2)) := by
  induction slots generalizing n w with
  | nil => rfl
  | cons slot slots ih =>
      cases slot with
      | ready o =>
          simp only [Shape.tryEach, each] at ih ⊢
          rw [ih]
      | future =>
          simp only [Shape.tryEach, each, infallible] at ih ⊢
          cases (futures n w).1 with
          | panicked message => rfl
          | pending | ready o =>
              simp only [ChildPoll.map, ReadyOrNot.tryPoll, ReadyOrNot.poll]
              rw [ih]

theorem nested_infallible (futures : ℕ → Fut W α) (t : Shape) :
    Reactive.Agree (fun r r' => r' = r.map .ok) (nested futures t)
      (tryNested (infallible E futures) t) := by
  refine ⟨Eq, ?_, rfl⟩
  rintro s _ w rfl
  have hjoin := tryJoin_infallible (E := E) futures t 0 s w
  exact ⟨congrArg Prod.fst hjoin, (congrArg (fun r => r.2.1) hjoin).symm,
    (congrArg (fun r => r.2.2) hjoin).symm⟩

theorem joinEach_infallible (futures : ℕ → Fut W α) (k : ℕ) :
    Reactive.Agree (fun r r' => r' = r.map .ok) (joinEach futures k)
      (tryJoinEach (infallible E futures) k) := by
  refine ⟨Eq, ?_, rfl⟩
  rintro slots _ w rfl
  cases slots with
  | none => exact ⟨rfl, rfl, rfl⟩
  | some slots =>
      have heach := each_infallible (E := E) futures 0 slots w
      simp only [Shape.tryEach] at heach
      simp only [joinEach, tryJoinEach, joinAll, heach]
      cases (each (fun _ => ReadyOrNot.poll (R := List α)) futures 0 slots w).1 with
      | some exit => exact ⟨JoinPoll.toChild_map _ exit, rfl, rfl⟩
      | none =>
          cases values (each (fun _ => ReadyOrNot.poll (R := List α)) futures 0 slots w).2.1 <;>
            exact ⟨rfl, rfl, rfl⟩

/-- Nested `join2`s are a join of all futures at once. -/
theorem nested_agree (futures : ℕ → Fut W α) (a b : Shape) :
    Reactive.Agree (fun r r' => r' = r.map (Shape.node a b).flat) (nested futures (.node a b))
      (joinEach futures (Shape.node a b).size) := by
  have hnested := nested_infallible (E := Empty) futures (.node a b)
  have htry := Shape.tryNested_agree (infallible Empty futures) a b
  have heach := joinEach_infallible (E := Empty) futures (Shape.node a b).size
  refine ((hnested.trans htry).trans heach.symm).mono ?_
  rintro r r' ⟨_, ⟨_, rfl, rfl⟩, h⟩
  cases r <;> cases r' <;> cases h <;> rfl

end Infallible

section Calls

variable {W : Type*} {α : Type u} {E : Type v}

/-- However `join2` is nested, every poll does what one poll of all unfinished futures in their
order does, in every world. -/
theorem calls_nested (futures : ℕ → Fut W α) (a b : Shape) (ws : List W) :
    (joinEach futures (Shape.node a b).size).calls (joinEach futures _).start ws =
      ((nested futures (.node a b)).calls (nested futures _).start ws).map fun c =>
        (c.1.map (Shape.node a b).flat, c.2) :=
  (nested_agree futures a b).calls_eq ws

/-- The same for `try_join2`, whose error is the one of the first future that fails in a poll. -/
theorem calls_tryNested (futures : ℕ → Fut W (Except E α)) (a b : Shape) (ws : List W) :
    (tryJoinEach futures (Shape.node a b).size).calls (tryJoinEach futures _).start ws =
      ((tryNested futures (.node a b)).calls (tryNested futures _).start ws).map fun c =>
        (c.1.map (Shape.node a b).flatResult, c.2) :=
  (Shape.tryNested_agree futures a b).calls_eq ws

end Calls
end Kiruna.Join

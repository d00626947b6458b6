import Kiruna.Join.Join2

/-!
# Are joins fused?

A fused join polls no child after it has completed, and panics when it is polled after it was ready
itself. `join2` leaves `Done` behind at its only ready exit. `try_join2` leaves it behind when both
children succeed, but not at the two exits with an error, where the failed child stays in place as a
future: it is fused as long as it is not polled after a child has failed.
-/

namespace Kiruna.Join

def ChildPoll.IsReady {α : Type*} (p : ChildPoll α) : Prop := ∃ r, p = .ready r

def JoinPoll.IsReady {R : Type*} (p : JoinPoll R) : Prop := ∃ r, p = .ready r

theorem JoinPoll.not_isReady_pending {R : Type*} : ¬ (.pending : JoinPoll R).IsReady := by
  rintro ⟨_, ⟨⟩⟩

theorem JoinPoll.not_isReady_panicked {R : Type*} {message : String} :
    ¬ (.panicked message : JoinPoll R).IsReady := by
  rintro ⟨_, ⟨⟩⟩

section Child

variable {A O R : Type*}

/-- What the blocks of both polls do with a child; they differ in the results that fail, which make
the join ready. -/
structure Block (fails : A → Prop)
    (block : ChildPoll A → ReadyOrNot O → Except (JoinPoll R) (ReadyOrNot O)) : Prop where
  pending : block .pending .future = .ok .future
  panicked : ∀ message, block (.panicked message) .future = .error (.panicked message)
  failed : ∀ r, fails r → ∃ x, block (.ready r) .future = .error (.ready x)
  ready : ∀ r, ¬ fails r → ∃ o, block (.ready r) .future = .ok (.ready o)
  kept : ∀ p o, block p (.ready o) = .ok (.ready o)

theorem block_poll :
    Block (fun _ => False) (ReadyOrNot.poll : ChildPoll O → _ → Except (JoinPoll R) _) where
  pending := rfl
  panicked _ := rfl
  failed _ hr := hr.elim
  ready r _ := ⟨r, rfl⟩
  kept _ _ := rfl

theorem block_tryPoll {E : Type*} (wrap : E → R) :
    Block (fun r : Except E O => ∃ e, r = .error e) (ReadyOrNot.tryPoll wrap) where
  pending := rfl
  panicked _ := rfl
  failed := by
    rintro _ ⟨e, rfl⟩
    exact ⟨_, rfl⟩
  ready r hr := by
    cases r with
    | ok o => exact ⟨o, rfl⟩
    | error e => exact absurd ⟨e, rfl⟩ hr
  kept _ _ := rfl

/-- One of the first `n` polls of the child has failed. -/
def FailedIn (fails : A → Prop) (s : Script A) (n : ℕ) : Prop :=
  ∃ k < n, ∃ r, s k = .ready r ∧ fails r

/-- Of `n` polls none came after one that was ready. -/
def NotRepolled (s : Script A) (n : ℕ) : Prop := ∀ k, k + 1 < n → ¬ (s k).IsReady

/-- A child of a join that is still polling: it has not completed, or it has with its last poll. -/
structure ChildInv (fails : A → Prop) (s : Script A) (c : ReadyOrNot O) (n : ℕ) : Prop where
  notFailed : ¬ FailedIn fails s n
  notRepolled : NotRepolled s n
  future : c = .future → ∀ k < n, ¬ (s k).IsReady

variable {fails : A → Prop} {s : Script A} {c : ReadyOrNot O} {n : ℕ}

theorem NotRepolled.next (h : ∀ k < n, ¬ (s k).IsReady) : NotRepolled s (n + 1) :=
  fun k hk => h k (Nat.lt_of_succ_lt_succ hk)

theorem not_failedIn_succ (h : ¬ FailedIn fails s n) (hn : ∀ r, s n = .ready r → ¬ fails r) :
    ¬ FailedIn fails s (n + 1) := by
  rintro ⟨k, hk, r, hr, hfails⟩
  rcases Nat.lt_succ_iff_lt_or_eq.mp hk with hlt | rfl
  · exact h ⟨k, hlt, r, hr, hfails⟩
  · exact hn r hr hfails

/-- A poll that is not ready leaves the child where it is. -/
theorem ChildInv.stay {c' : ReadyOrNot O} (hc : ChildInv fails s c n) (hf : c = .future)
    (hn : ¬ (s n).IsReady) : ChildInv fails s c' (n + 1) where
  notFailed := not_failedIn_succ hc.notFailed fun r hr _ => hn ⟨r, hr⟩
  notRepolled := .next (hc.future hf)
  future := by
    intro _ k hk
    rcases Nat.lt_succ_iff_lt_or_eq.mp hk with hlt | rfl
    · exact hc.future hf k hlt
    · exact hn

/-- What a block does: the child goes on, it fails, or it panics. -/
theorem Block.step {block : ChildPoll A → ReadyOrNot O → Except (JoinPoll R) (ReadyOrNot O)}
    (hB : Block fails block) (hc : ChildInv fails s c n) (w : Which) :
    (∃ c', block (s n) c = .ok c' ∧ ChildInv fails s c' (n + (c.polls w).length)) ∨
      (∃ x, block (s n) c = .error (.ready x) ∧ c = .future ∧ FailedIn fails s (n + 1)) ∨
      ∃ message, block (s n) c = .error (.panicked message) ∧ c = .future ∧
        ChildInv fails s c (n + 1) := by
  cases c with
  | ready o => exact .inl ⟨.ready o, hB.kept _ _, hc⟩
  | future =>
      cases hs : s n with
      | pending =>
          refine .inl ⟨.future, hB.pending, hc.stay rfl ?_⟩
          rintro ⟨r, hr⟩
          rw [hs] at hr
          cases hr
      | panicked message =>
          refine .inr (.inr ⟨message, hB.panicked message, rfl, hc.stay rfl ?_⟩)
          rintro ⟨r, hr⟩
          rw [hs] at hr
          cases hr
      | ready r =>
          by_cases hr : fails r
          · obtain ⟨x, hx⟩ := hB.failed r hr
            exact .inr (.inl ⟨x, hx, rfl, n, Nat.lt_succ_self n, r, hs, hr⟩)
          · obtain ⟨o, ho⟩ := hB.ready r hr
            refine .inl ⟨.ready o, ho, ?_, .next (hc.future rfl), nofun⟩
            refine not_failedIn_succ hc.notFailed fun r' hr' => ?_
            rw [hs] at hr'
            cases hr'
            exact hr

end Child

section Runs

variable {A B AR BR R : Type*}

/-- The first `n` polls of a join are those of a fused one. -/
structure Fused (poll : ChildPoll A → ChildPoll B → Join2 AR BR → Polled AR BR R) (sa : Script A)
    (sb : Script B) (n : ℕ) : Prop where
  a : NotRepolled sa (after poll sa sb n).a
  b : NotRepolled sb (after poll sa sb n).b
  completed : ∀ i j, i < j → j < n → (nth poll sa sb i).result.IsReady →
    (nth poll sa sb j).children = [] ∧
      (nth poll sa sb j).result = .panicked polledAfterCompletion

/-- One of the polls that the children have had has failed. -/
def Failed (failsA : A → Prop) (failsB : B → Prop) (sa : Script A) (sb : Script B)
    (s : Joined AR BR) : Prop :=
  FailedIn failsA sa s.a ∨ FailedIn failsB sb s.b

/-- A poll with the given blocks. -/
def joinWith (blockA : ChildPoll A → ReadyOrNot AR → Except (JoinPoll R) (ReadyOrNot AR))
    (blockB : ChildPoll B → ReadyOrNot BR → Except (JoinPoll R) (ReadyOrNot BR))
    (output : AR × BR → R) (pa : ChildPoll A) (pb : ChildPoll B) : Join2 AR BR → Polled AR BR R :=
  pollWith (blockA pa) (blockB pb) output

variable {failsA : A → Prop} {failsB : B → Prop}
  {blockA : ChildPoll A → ReadyOrNot AR → Except (JoinPoll R) (ReadyOrNot AR)}
  {blockB : ChildPoll B → ReadyOrNot BR → Except (JoinPoll R) (ReadyOrNot BR)}
  {output : AR × BR → R} {sa : Script A} {sb : Script B} {n : ℕ}

/-- Both children are in their places, and no poll was ready. -/
structure PollingInv (failsA : A → Prop) (failsB : B → Prop)
    (poll : ChildPoll A → ChildPoll B → Join2 AR BR → Polled AR BR R) (sa : Script A)
    (sb : Script B) (n : ℕ) : Prop where
  join : ∃ a b, (after poll sa sb n).join = .polling a b ∧
    ChildInv failsA sa a (after poll sa sb n).a ∧ ChildInv failsB sb b (after poll sa sb n).b
  notReady : ∀ i < n, ¬ (nth poll sa sb i).result.IsReady

/-- Both children have succeeded. -/
structure DoneInv (failsA : A → Prop) (failsB : B → Prop)
    (poll : ChildPoll A → ChildPoll B → Join2 AR BR → Polled AR BR R) (sa : Script A)
    (sb : Script B) (n : ℕ) : Prop where
  join : (after poll sa sb n).join = .done
  notFailed : ¬ Failed failsA failsB sa sb (after poll sa sb n)
  fused : Fused poll sa sb n

/-- A child has failed in the last poll, which has left no `Done`. -/
structure FailedInv (failsA : A → Prop) (failsB : B → Prop)
    (poll : ChildPoll A → ChildPoll B → Join2 AR BR → Polled AR BR R) (sa : Script A)
    (sb : Script B) (n : ℕ) : Prop where
  join : ∃ a b, (after poll sa sb (n + 1)).join = .polling a b
  failed : Failed failsA failsB sa sb (after poll sa sb (n + 1))
  ready : (nth poll sa sb n).result.IsReady
  fused : Fused poll sa sb (n + 1)

theorem count_polls_append {a : ReadyOrNot AR} {b : ReadyOrNot BR} :
    (a.polls .a ++ b.polls .b).count .a = (a.polls .a).length ∧
      (a.polls .a ++ b.polls .b).count .b = (b.polls .b).length := by
  cases a <;> cases b <;> exact ⟨rfl, rfl⟩

section Steps

variable {poll : ChildPoll A → ChildPoll B → Join2 AR BR → Polled AR BR R}

theorem PollingInv.fused (h : PollingInv failsA failsB poll sa sb n) : Fused poll sa sb n := by
  obtain ⟨a, b, -, ha, hb⟩ := h.join
  exact ⟨ha.notRepolled, hb.notRepolled,
    fun i j hij hj hready => absurd hready (h.notReady i (Nat.lt_trans hij hj))⟩

theorem PollingInv.not_failed (h : PollingInv failsA failsB poll sa sb n) :
    ¬ Failed failsA failsB sa sb (after poll sa sb n) := by
  obtain ⟨a, b, -, ha, hb⟩ := h.join
  rintro (hf | hf)
  · exact ha.notFailed hf
  · exact hb.notFailed hf

/-- A poll that is not ready. -/
theorem PollingInv.stay (h : PollingInv failsA failsB poll sa sb n) {a : ReadyOrNot AR}
    {b : ReadyOrNot BR} {children : List Which} {r : JoinPoll R}
    (hnth : nth poll sa sb n = ⟨.polling a b, children, r⟩) (hr : ¬ r.IsReady)
    (ha : ChildInv failsA sa a ((after poll sa sb n).a + children.count .a))
    (hb : ChildInv failsB sb b ((after poll sa sb n).b + children.count .b)) :
    PollingInv failsA failsB poll sa sb (n + 1) where
  join := by
    rw [after_succ, hnth]
    exact ⟨a, b, rfl, ha, hb⟩
  notReady := by
    intro i hi
    rcases Nat.lt_succ_iff_lt_or_eq.mp hi with hlt | rfl
    · exact h.notReady i hlt
    · rw [hnth]
      exact hr

/-- A poll that is ready, as the first one. -/
theorem PollingInv.fused_succ (h : PollingInv failsA failsB poll sa sb n) {j : Join2 AR BR}
    {children : List Which} {r : JoinPoll R} (hnth : nth poll sa sb n = ⟨j, children, r⟩)
    (ha : NotRepolled sa ((after poll sa sb n).a + children.count .a))
    (hb : NotRepolled sb ((after poll sa sb n).b + children.count .b)) :
    Fused poll sa sb (n + 1) where
  a := by
    rw [after_succ, hnth]
    exact ha
  b := by
    rw [after_succ, hnth]
    exact hb
  completed := fun i j hij hj hready => absurd hready (h.notReady i (by omega))

theorem PollingInv.failed (h : PollingInv failsA failsB poll sa sb n) {a : ReadyOrNot AR}
    {b : ReadyOrNot BR} {children : List Which} {x : R}
    (hnth : nth poll sa sb n = ⟨.polling a b, children, .ready x⟩)
    (ha : NotRepolled sa ((after poll sa sb n).a + children.count .a))
    (hb : NotRepolled sb ((after poll sa sb n).b + children.count .b))
    (hf : FailedIn failsA sa ((after poll sa sb n).a + children.count .a) ∨
      FailedIn failsB sb ((after poll sa sb n).b + children.count .b)) :
    FailedInv failsA failsB poll sa sb n where
  join := by
    rw [after_succ, hnth]
    exact ⟨a, b, rfl⟩
  failed := by
    rw [after_succ, hnth]
    exact hf
  ready := by
    rw [hnth]
    exact ⟨x, rfl⟩
  fused := h.fused_succ hnth ha hb

end Steps

theorem PollingInv.succ (hA : Block failsA blockA) (hB : Block failsB blockB)
    (h : PollingInv failsA failsB (joinWith blockA blockB output) sa sb n) :
    PollingInv failsA failsB (joinWith blockA blockB output) sa sb (n + 1) ∨
      DoneInv failsA failsB (joinWith blockA blockB output) sa sb (n + 1) ∨
      FailedInv failsA failsB (joinWith blockA blockB output) sa sb n := by
  obtain ⟨a, b, hjoin, ha, hb⟩ := h.join
  have hpoll : nth (joinWith blockA blockB output) sa sb n =
      pollWith (blockA (sa (after (joinWith blockA blockB output) sa sb n).a))
        (blockB (sb (after (joinWith blockA blockB output) sa sb n).b)) output (.polling a b) := by
    rw [nth, Joined.next, hjoin]
    rfl
  obtain ⟨hcountA, hcountB⟩ := count_polls_append (a := a) (b := b)
  rcases hA.step ha .a with ⟨a', hoka, ha'⟩ | ⟨x, hexit, rfl, hf⟩ | ⟨message, hexit, rfl, ha'⟩
  · rw [← hcountA] at ha'
    rcases hB.step hb .b with ⟨b', hokb, hb'⟩ | ⟨x, hexit, rfl, hf⟩ | ⟨message, hexit, rfl, hb'⟩
    · rw [← hcountB] at hb'
      by_cases hpending : a' = .future ∨ b' = .future
      · exact .inl (h.stay (hpoll.trans (pollWith_pending hoka hokb hpending))
          JoinPoll.not_isReady_pending ha' hb')
      · obtain ⟨ra, rfl⟩ : ∃ ra, a' = .ready ra := by cases a' <;> simp_all
        obtain ⟨rb, rfl⟩ : ∃ rb, b' = .ready rb := by cases b' <;> simp_all
        have hnth := hpoll.trans (pollWith_ready hoka hokb)
        refine .inr (.inl ⟨?_, ?_, h.fused_succ hnth ha'.notRepolled hb'.notRepolled⟩)
        · rw [after_succ, hnth]
        · rw [after_succ, hnth]
          exact not_or.mpr ⟨ha'.notFailed, hb'.notFailed⟩
    · refine .inr (.inr (h.failed (hpoll.trans (pollWith_exitB hoka hexit)) ha'.notRepolled ?_ ?_))
      · rw [hcountB]
        exact .next (hb.future rfl)
      · rw [hcountB]
        exact .inr hf
    · refine .inl (h.stay (hpoll.trans (pollWith_exitB hoka hexit))
        JoinPoll.not_isReady_panicked ha' ?_)
      rw [hcountB]
      exact hb'
  · refine .inr (.inr (h.failed (hpoll.trans (pollWith_exitA hexit)) ?_ hb.notRepolled ?_))
    · exact .next (ha.future rfl)
    · exact .inl hf
  · exact .inl (h.stay (hpoll.trans (pollWith_exitA hexit)) JoinPoll.not_isReady_panicked ha' hb)

theorem DoneInv.succ (h : DoneInv failsA failsB (joinWith blockA blockB output) sa sb n) :
    DoneInv failsA failsB (joinWith blockA blockB output) sa sb (n + 1) := by
  have hnth : nth (joinWith blockA blockB output) sa sb n =
      ⟨.done, [], .panicked polledAfterCompletion⟩ := by
    rw [nth, Joined.next, h.join]
    rfl
  have hafter : after (joinWith blockA blockB output) sa sb (n + 1) =
      after (joinWith blockA blockB output) sa sb n := by
    rw [after_succ, hnth, ← h.join]
    rfl
  refine ⟨hafter ▸ h.join, hafter ▸ h.notFailed, hafter ▸ h.fused.a, hafter ▸ h.fused.b, ?_⟩
  intro i j hij hj hready
  rcases Nat.lt_succ_iff_lt_or_eq.mp hj with hlt | rfl
  · exact h.fused.completed i j hij hlt hready
  · rw [hnth]
    exact ⟨rfl, rfl⟩

theorem pollingInv_zero :
    PollingInv failsA failsB (joinWith blockA blockB output) sa sb 0 where
  join := by
    refine ⟨.future, .future, rfl, ⟨?_, ?_, ?_⟩, ⟨?_, ?_, ?_⟩⟩
    · exact fun ⟨_, hk, _⟩ => absurd hk (Nat.not_lt_zero _)
    · exact fun _ hk => absurd hk (Nat.not_lt_zero _)
    · exact fun _ _ hk => absurd hk (Nat.not_lt_zero _)
    · exact fun ⟨_, hk, _⟩ => absurd hk (Nat.not_lt_zero _)
    · exact fun _ hk => absurd hk (Nat.not_lt_zero _)
    · exact fun _ _ hk => absurd hk (Nat.not_lt_zero _)
  notReady := fun _ hi => absurd hi (Nat.not_lt_zero _)

/-- Every run ends in one of three ways, the last one as soon as a child fails. -/
theorem inv_of_not_failed (hA : Block failsA blockA) (hB : Block failsB blockB)
    (hn : ∀ m < n, ¬ Failed failsA failsB sa sb (after (joinWith blockA blockB output) sa sb m)) :
    PollingInv failsA failsB (joinWith blockA blockB output) sa sb n ∨
      DoneInv failsA failsB (joinWith blockA blockB output) sa sb n ∨
      ∃ m, n = m + 1 ∧ FailedInv failsA failsB (joinWith blockA blockB output) sa sb m := by
  induction n with
  | zero => exact .inl pollingInv_zero
  | succ n ih =>
      rcases ih fun m hm => hn m (Nat.lt_succ_of_lt hm) with h | h | ⟨m, rfl, h⟩
      · rcases h.succ hA hB with h | h | h
        · exact .inl h
        · exact .inr (.inl h)
        · exact .inr (.inr ⟨n, rfl, h⟩)
      · exact .inr (.inl h.succ)
      · exact absurd h.failed (hn (m + 1) (Nat.lt_succ_self _))

/-- A poll with both children in their places polls one of them, or is ready. -/
theorem pollWith_ne_panicked (hA : Block failsA blockA) (hB : Block failsB blockB)
    (pa : ChildPoll A) (pb : ChildPoll B) (a : ReadyOrNot AR) (b : ReadyOrNot BR)
    (message : String) : ¬ ((joinWith blockA blockB output pa pb (.polling a b)).children = [] ∧
      (joinWith blockA blockB output pa pb (.polling a b)).result = .panicked message) := by
  rintro ⟨hchildren, hresult⟩
  cases a with
  | future =>
      simp only [joinWith, pollWith] at hchildren
      split at hchildren
      · cases hchildren
      · split at hchildren
        · cases hchildren
        · split at hchildren <;> cases hchildren
  | ready ra =>
      cases b with
      | future =>
          simp only [joinWith, pollWith, hA.kept] at hchildren
          split at hchildren
          · cases hchildren
          · split at hchildren <;> cases hchildren
      | ready rb =>
          rw [joinWith, pollWith_ready (hA.kept pa ra) (hB.kept pb rb)] at hresult
          cases hresult

theorem Fused.prev {poll : ChildPoll A → ChildPoll B → Join2 AR BR → Polled AR BR R}
    (h : Fused poll sa sb (n + 1)) : Fused poll sa sb n where
  a := fun k hk => h.a k (Nat.lt_of_lt_of_le hk (Nat.le_add_right _ _))
  b := fun k hk => h.b k (Nat.lt_of_lt_of_le hk (Nat.le_add_right _ _))
  completed := fun i j hij hj => h.completed i j hij (Nat.lt_succ_of_lt hj)

theorem fused_iff (output : AR × BR → R) (hA : Block failsA blockA) (hB : Block failsB blockB) :
    Fused (joinWith blockA blockB output) sa sb n ↔
      ∀ m < n, ¬ Failed failsA failsB sa sb (after (joinWith blockA blockB output) sa sb m) := by
  constructor
  · intro hfused
    induction n with
    | zero => exact fun m hm => absurd hm (Nat.not_lt_zero m)
    | succ n ih =>
        have hprev := ih hfused.prev
        intro m hm
        rcases Nat.lt_succ_iff_lt_or_eq.mp hm with hlt | rfl
        · exact hprev m hlt
        · rcases inv_of_not_failed hA hB hprev with h | h | ⟨i, rfl, h⟩
          · exact h.not_failed
          · exact h.notFailed
          · -- the poll after the failure finds no `Done`
            obtain ⟨a, b, hjoin⟩ := h.join
            have hpanic := hfused.completed i (i + 1) (Nat.lt_succ_self i) hm h.ready
            rw [nth, Joined.next, hjoin] at hpanic
            exact absurd hpanic (pollWith_ne_panicked hA hB _ _ a b _)
  · intro hn
    rcases inv_of_not_failed hA hB hn with h | h | ⟨m, rfl, h⟩
    · exact h.fused
    · exact h.fused
    · exact h.fused

end Runs

section TryJoin2

variable {AR BR AE BE : Type*}

/-- A child of `try_join2` has returned an error. -/
def ChildFailed (sa : Script (Except AE AR)) (sb : Script (Except BE BR)) (s : Joined AR BR) :
    Prop :=
  (∃ k < s.a, ∃ e, sa k = .ready (.error e)) ∨ ∃ k < s.b, ∃ e, sb k = .ready (.error e)

theorem failed_iff_childFailed {sa : Script (Except AE AR)} {sb : Script (Except BE BR)}
    {s : Joined AR BR} :
    Failed (fun r => ∃ e, r = .error e) (fun r => ∃ e, r = .error e) sa sb s ↔
      ChildFailed sa sb s := by
  unfold Failed FailedIn ChildFailed
  constructor
  · rintro (⟨k, hk, _, hr, e, rfl⟩ | ⟨k, hk, _, hr, e, rfl⟩)
    · exact .inl ⟨k, hk, e, hr⟩
    · exact .inr ⟨k, hk, e, hr⟩
  · rintro (⟨k, hk, e, hr⟩ | ⟨k, hk, e, hr⟩)
    · exact .inl ⟨k, hk, _, hr, e, rfl⟩
    · exact .inr ⟨k, hk, _, hr, e, rfl⟩

/-- `join2` is fused; `try_join2` is as long as it is not polled after a child has failed. -/
theorem joins_fused_iff (sa : Script AR) (sb : Script BR) (ta : Script (Except AE AR))
    (tb : Script (Except BE BR)) (n : ℕ) :
    Fused join2 sa sb n ∧
      (Fused tryJoin2 ta tb n ↔ ∀ m < n, ¬ ChildFailed ta tb (after tryJoin2 ta tb m)) := by
  constructor
  · refine (fused_iff id block_poll block_poll).mpr fun m _ => ?_
    rintro (⟨_, _, _, _, hf⟩ | ⟨_, _, _, _, hf⟩) <;> exact hf
  · refine (fused_iff Except.ok (block_tryPoll _) (block_tryPoll _)).trans ?_
    exact forall_congr' fun m => imp_congr_right fun _ => not_congr failed_iff_childFailed

/-- A child that fails at its first poll is polled again. -/
theorem exists_repolled : ¬ ((∀ (sa sb : Script ℕ) (n : ℕ), Fused join2 sa sb n) ∧
    ∀ (ta tb : Script (Except String ℕ)) (n : ℕ), Fused tryJoin2 ta tb n) := by
  rintro ⟨-, hall⟩
  have hfused := hall (fun _ => .ready (.error "refused")) (fun _ => .pending) 2
  exact hfused.a 0 (by decide) ⟨.error "refused", rfl⟩

end TryJoin2
end Kiruna.Join

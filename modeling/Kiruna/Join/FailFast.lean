import Kiruna.Join.Join2
import Mathlib.Order.Lattice
import Mathlib.Order.Defs.LinearOrder

/-!
# The fail-fast join

A child that completes has a number of pending polls and then a result. As long as neither has
decided the join, the poll number `k` of the join is the poll number `k` of every unfinished child,
so where each child stands is a function of `k`, and the poll that decides is computed from the two
numbers.
-/

namespace Kiruna.Join

section Child

variable {α O E R : Type*}

/-- The child is pending `n` times and then ready. -/
structure Completes (s : Script α) (n : ℕ) (r : α) : Prop where
  pending : ∀ k < n, s k = .pending
  ready : s n = .ready r

/-- A child before the poll number `k`; `o` is what it leaves in the join. -/
def progress (n : ℕ) (o : Option O) (k : ℕ) : ReadyOrNot O :=
  if k ≤ n then .future else o.elim .future .ready

theorem polls_progress (w : Which) {n k : ℕ} {o : Option O} (ho : o = none → k ≤ n) :
    (progress n o k).polls w = if k ≤ n then [w] else [] := by
  unfold progress
  split_ifs with hk
  · rfl
  · cases o with
    | none => exact absurd (ho rfl) hk
    | some o => rfl

theorem progress_of_lt {n k : ℕ} (o : O) (hk : n < k) : progress n (some o) k = .ready o :=
  if_neg (Nat.not_le.mpr hk)

theorem poll_progress {s : Script O} {n : ℕ} {r : O} (hs : Completes s n r) (k : ℕ) :
    (progress n (some r) k).poll (s (min k (n + 1))) =
      (.ok (progress n (some r) (k + 1)) : Except (JoinPoll R) _) := by
  rcases Nat.lt_trichotomy k n with hlt | rfl | hgt
  · rw [Nat.min_eq_left (by omega), hs.pending k hlt, progress, if_pos hlt.le, progress,
      if_pos (by omega)]
    rfl
  · rw [Nat.min_eq_left (by omega), hs.ready, progress, if_pos le_rfl, progress, if_neg (by omega)]
    rfl
  · rw [progress, if_neg (by omega), progress, if_neg (by omega)]
    rfl

/-- Until it fails, a child answers `try_join2` as it would answer `join2`. -/
theorem tryPoll_progress {s : Script (Except E O)} {n : ℕ} {r : Except E O} (wrap : E → R)
    (hs : Completes s n r) {k : ℕ} (hk : r.toOption = none → k < n) :
    (progress n r.toOption k).tryPoll wrap (s (min k (n + 1))) =
      .ok (progress n r.toOption (k + 1)) := by
  rcases Nat.lt_trichotomy k n with hlt | rfl | hgt
  · rw [Nat.min_eq_left (by omega), hs.pending k hlt, progress, if_pos hlt.le, progress,
      if_pos (by omega)]
    rfl
  · rw [Nat.min_eq_left (by omega), hs.ready, progress, if_pos le_rfl, progress, if_neg (by omega)]
    cases r with
    | ok o => rfl
    | error e => exact absurd (hk rfl) (Nat.lt_irrefl _)
  · rw [progress, if_neg (by omega), progress, if_neg (by omega)]
    cases r with
    | ok o => rfl
    | error e => exact absurd (hk rfl) (by omega)

theorem tryPoll_failed {s : Script (Except E O)} {n : ℕ} {e : E} (wrap : E → R)
    (hs : Completes s n (.error e)) (o : Option O) :
    (progress n o n).tryPoll wrap (s (min n (n + 1))) = .error (.ready (wrap e)) := by
  rw [Nat.min_eq_left (by omega), hs.ready, progress, if_pos le_rfl]
  rfl

end Child

variable {AR BR AE BE : Type*}

/-- The poll that decides `try_join2`, and what it returns: the earliest failure, that of `a` in a
tie, or both values when both are there. -/
def verdict (na nb : ℕ) : Except AE AR → Except BE BR → ℕ × Except (Error2 AE BE) (AR × BR)
  | .ok a, .ok b => (max na nb, .ok (a, b))
  | .error e, .ok _ => (na, .error (.a e))
  | .ok _, .error e => (nb, .error (.b e))
  | .error e, .error e' => if na ≤ nb then (na, .error (.a e)) else (nb, .error (.b e'))

/-- The children that the poll number `k` polls: the unfinished ones, without `b` in the poll in
which `a` fails. -/
def due (na nb : ℕ) (ra : Except AE AR) (k : ℕ) : List Which :=
  (if k ≤ na then [.a] else []) ++ if k ≤ nb ∧ ¬ (ra.toOption = none ∧ k = na) then [.b] else []

/-- What `try_join2` does with two children up to the poll in which it is ready. -/
structure FailFast (sa : Script (Except AE AR)) (sb : Script (Except BE BR)) (na nb : ℕ)
    (ra : Except AE AR) (rb : Except BE BR) : Prop where
  children : ∀ k ≤ (verdict na nb ra rb).1, (nth tryJoin2 sa sb k).children = due na nb ra k
  pending : ∀ k < (verdict na nb ra rb).1, (nth tryJoin2 sa sb k).result = .pending
  ready : (nth tryJoin2 sa sb (verdict na nb ra rb).1).result = .ready (verdict na nb ra rb).2
  join2 : ∀ a b, ra = .ok a → rb = .ok b →
    (∀ k < (verdict na nb ra rb).1, (nth join2 sa sb k).result = .pending) ∧
      (nth join2 sa sb (verdict na nb ra rb).1).result = .ready (.ok a, .ok b)

section Runs

variable {sa : Script (Except AE AR)} {sb : Script (Except BE BR)} {na nb : ℕ}
  {ra : Except AE AR} {rb : Except BE BR}

/-- Before the verdict no child has failed. -/
theorem lt_of_lt_verdict {k : ℕ} (hk : k < (verdict na nb ra rb).1) :
    (ra.toOption = none → k < na) ∧ (rb.toOption = none → k < nb) ∧
      (k < na ∨ k < nb) := by
  cases ra with
  | ok a =>
      cases rb with
      | ok b => exact ⟨nofun, nofun, by simpa [verdict] using hk⟩
      | error e => exact ⟨nofun, fun _ => hk, .inr hk⟩
  | error e =>
      cases rb with
      | ok b => exact ⟨fun _ => hk, nofun, .inl hk⟩
      | error e' =>
          simp only [verdict] at hk
          split_ifs at hk with hle
          · exact ⟨fun _ => hk, fun _ => hk.trans_le hle, .inl hk⟩
          · have hk' : k < nb := hk
            exact ⟨fun _ => by omega, fun _ => hk', .inr hk'⟩

/-- Where both children stand before the poll number `k`. -/
def standing {A B : Type*} (na nb : ℕ) (oa : Option A) (ob : Option B) (k : ℕ) : Joined A B :=
  ⟨.polling (progress na oa k) (progress nb ob k), min k (na + 1), min k (nb + 1)⟩

/-- The poll number `k` of a join that is still pending after it. -/
def pendingPoll {A B R : Type*} (na nb : ℕ) (oa : Option A) (ob : Option B) (k : ℕ) :
    Polled A B R :=
  ⟨.polling (progress na oa (k + 1)) (progress nb ob (k + 1)),
    (progress na oa k).polls .a ++ (progress nb ob k).polls .b, .pending⟩

theorem count_polls {A B : Type*} {oa : Option A} {ob : Option B} {k : ℕ}
    (ha : oa = none → k ≤ na) (hb : ob = none → k ≤ nb) :
    min k (na + 1) + ((progress na oa k).polls .a ++ (progress nb ob k).polls .b).count .a =
        min (k + 1) (na + 1) ∧
      min k (nb + 1) + ((progress na oa k).polls .a ++ (progress nb ob k).polls .b).count .b =
        min (k + 1) (nb + 1) := by
  rw [polls_progress .a ha, polls_progress .b hb]
  split_ifs <;> simp <;> omega

/-- As long as the join is pending, the children stand where the number of polls says. -/
theorem after_eq_standing {A B C D R : Type*}
    {poll : ChildPoll A → ChildPoll B → Join2 C D → Polled C D R} {sa : Script A} {sb : Script B}
    {oa : Option C} {ob : Option D} {n : ℕ}
    (hnone : ∀ k < n, (oa = none → k ≤ na) ∧ (ob = none → k ≤ nb))
    (hpoll : ∀ k < n, (standing na nb oa ob k).next poll sa sb = pendingPoll na nb oa ob k)
    {k : ℕ} (hk : k ≤ n) : after poll sa sb k = standing na nb oa ob k := by
  induction k with
  | zero => rfl
  | succ k ih =>
      have hnth : nth poll sa sb k = pendingPoll na nb oa ob k := by
        rw [nth, ih (by omega)]
        exact hpoll k hk
      obtain ⟨ha, hb⟩ := count_polls (hnone k hk).1 (hnone k hk).2
      rw [after_succ, hnth, ih (by omega)]
      simp only [standing, pendingPoll, ha, hb]

theorem progress_eq_future {A B : Type*} {oa : Option A} {ob : Option B} {k : ℕ}
    (hk : k < na ∨ k < nb) :
    progress na oa (k + 1) = .future ∨ progress nb ob (k + 1) = .future := by
  rcases hk with hk | hk
  · exact .inl (if_pos hk)
  · exact .inr (if_pos hk)

theorem tryNext_standing (ha : Completes sa na ra) (hb : Completes sb nb rb) {k : ℕ}
    (hk : k < (verdict na nb ra rb).1) :
    (standing na nb ra.toOption rb.toOption k).next tryJoin2 sa sb =
      pendingPoll na nb ra.toOption rb.toOption k := by
  obtain ⟨hra, hrb, hlt⟩ := lt_of_lt_verdict hk
  exact pollWith_pending (tryPoll_progress _ ha hra) (tryPoll_progress _ hb hrb)
    (progress_eq_future hlt)

theorem after_tryJoin2 (ha : Completes sa na ra) (hb : Completes sb nb rb) {k : ℕ}
    (hk : k ≤ (verdict na nb ra rb).1) :
    after tryJoin2 sa sb k = standing na nb ra.toOption rb.toOption k := by
  refine after_eq_standing (fun k hk => ?_) (fun k hk => tryNext_standing ha hb hk) hk
  obtain ⟨hra, hrb, -⟩ := lt_of_lt_verdict hk
  exact ⟨fun h => (hra h).le, fun h => (hrb h).le⟩

theorem nth_tryJoin2 (ha : Completes sa na ra) (hb : Completes sb nb rb) {k : ℕ}
    (hk : k < (verdict na nb ra rb).1) :
    nth tryJoin2 sa sb k = pendingPoll na nb ra.toOption rb.toOption k := by
  rw [nth, after_tryJoin2 ha hb hk.le]
  exact tryNext_standing ha hb hk

/-- The poll in which `a` fails. -/
theorem nth_failedA (ha : Completes sa na ra) (hb : Completes sb nb rb) {e : AE}
    (hra : ra = .error e) (hv : (verdict na nb ra rb).1 = na) :
    nth tryJoin2 sa sb na = ⟨.polling (progress na ra.toOption na) (progress nb rb.toOption na),
      [.a], .ready (.error (.a e))⟩ := by
  subst hra
  rw [nth, after_tryJoin2 ha hb hv.ge]
  refine (pollWith_exitA (tryPoll_failed _ ha _)).trans ?_
  rw [polls_progress .a fun _ => le_rfl, if_pos le_rfl]

/-- The poll in which `b` fails. -/
theorem nth_failedB (ha : Completes sa na ra) (hb : Completes sb nb rb) {e : BE}
    (hrb : rb = .error e) (hv : (verdict na nb ra rb).1 = nb)
    (hra : ra.toOption = none → nb < na) :
    nth tryJoin2 sa sb nb = ⟨.polling (progress na ra.toOption (nb + 1))
      (progress nb rb.toOption nb), (progress na ra.toOption nb).polls .a ++ [.b],
      .ready (.error (.b e))⟩ := by
  subst hrb
  rw [nth, after_tryJoin2 ha hb hv.ge]
  refine (pollWith_exitB (tryPoll_progress _ ha hra) (tryPoll_failed _ hb _)).trans ?_
  rw [polls_progress .b fun _ => le_rfl, if_pos le_rfl]

theorem nth_ok (ha : Completes sa na ra) (hb : Completes sb nb rb) {a : AR} {b : BR}
    (hra : ra = .ok a) (hrb : rb = .ok b) :
    nth tryJoin2 sa sb (max na nb) = ⟨.done, (progress na ra.toOption (max na nb)).polls .a ++
      (progress nb rb.toOption (max na nb)).polls .b, .ready (.ok (a, b))⟩ := by
  subst hra hrb
  have hpa := tryPoll_progress (fun e => .error (.a e) : AE → Except (Error2 AE BE) (AR × BR)) ha
    (k := max na nb) nofun
  have hpb := tryPoll_progress (fun e => .error (.b e) : BE → Except (Error2 AE BE) (AR × BR)) hb
    (k := max na nb) nofun
  have hafter : after tryJoin2 sa sb (max na nb) = standing na nb _ _ (max na nb) :=
    after_tryJoin2 ha hb le_rfl
  rw [nth, hafter]
  exact pollWith_ready (hpa.trans (congrArg _ (progress_of_lt a (by omega))))
    (hpb.trans (congrArg _ (progress_of_lt b (by omega))))

/-- `join2` with the same children. -/
theorem next_join2 (ha : Completes sa na ra) (hb : Completes sb nb rb) {k : ℕ}
    (hk : k < max na nb) :
    (standing na nb (some ra) (some rb) k).next join2 sa sb =
      pendingPoll na nb (some ra) (some rb) k :=
  pollWith_pending (poll_progress ha k) (poll_progress hb k)
    (progress_eq_future (by omega))

theorem after_join2 (ha : Completes sa na ra) (hb : Completes sb nb rb) {k : ℕ}
    (hk : k ≤ max na nb) :
    after join2 sa sb k = standing na nb (some ra) (some rb) k :=
  after_eq_standing (fun _ _ => ⟨fun h => absurd h (Option.some_ne_none _),
    fun h => absurd h (Option.some_ne_none _)⟩) (fun _ hk => next_join2 ha hb hk) hk

theorem nth_join2_pending (ha : Completes sa na ra) (hb : Completes sb nb rb)
    {k : ℕ} (hk : k < max na nb) :
    (nth join2 sa sb k).result = .pending := by
  rw [nth, after_join2 ha hb hk.le, next_join2 ha hb hk]
  rfl

theorem nth_join2_ready (ha : Completes sa na ra) (hb : Completes sb nb rb) :
    (nth join2 sa sb (max na nb)).result = .ready (ra, rb) := by
  rw [nth, after_join2 ha hb le_rfl]
  refine congrArg Polled.result (pollWith_ready
    ((poll_progress ha _).trans (congrArg _ (progress_of_lt ra (by omega))))
    ((poll_progress hb _).trans (congrArg _ (progress_of_lt rb (by omega)))))

theorem due_failedA (hra : ra.toOption = none) : due na nb ra na = [.a] := by
  simp [due, hra]

theorem due_of_lt {k : ℕ} (hra : ra.toOption = none → k < na) :
    due na nb ra k = (if k ≤ na then [.a] else []) ++ if k ≤ nb then [.b] else [] := by
  have hnot : ¬ (ra.toOption = none ∧ k = na) := by
    rintro ⟨hnone, rfl⟩
    exact absurd (hra hnone) (Nat.lt_irrefl _)
  simp only [due, hnot, not_false_eq_true, and_true]

/-- The children that are polled before the verdict. -/
theorem polls_eq_due {k : ℕ} (hk : k < (verdict na nb ra rb).1) :
    (progress na ra.toOption k).polls .a ++ (progress nb rb.toOption k).polls .b =
      due na nb ra k := by
  obtain ⟨hra, hrb, -⟩ := lt_of_lt_verdict hk
  rw [polls_progress .a fun h => (hra h).le, polls_progress .b fun h => (hrb h).le, due_of_lt hra]

/-- Children that do not fail are polled until they complete. -/
theorem polls_eq_due_of_ok (hra : ra.toOption ≠ none) (hrb : rb.toOption ≠ none) (k : ℕ) :
    (progress na ra.toOption k).polls .a ++ (progress nb rb.toOption k).polls .b =
      due na nb ra k := by
  rw [polls_progress .a fun h => absurd h hra, polls_progress .b fun h => absurd h hrb,
    due_of_lt fun h => absurd h hra]

/-- The poll of the verdict. -/
theorem nth_verdict (ha : Completes sa na ra) (hb : Completes sb nb rb) :
    (nth tryJoin2 sa sb (verdict na nb ra rb).1).children = due na nb ra (verdict na nb ra rb).1 ∧
      (nth tryJoin2 sa sb (verdict na nb ra rb).1).result = .ready (verdict na nb ra rb).2 := by
  have hfailedA : ∀ {e : AE}, ra = .error e → (verdict na nb ra rb).1 = na →
      (nth tryJoin2 sa sb na).children = due na nb ra na ∧
        (nth tryJoin2 sa sb na).result = .ready (.error (.a e)) := by
    intro e hra hv
    rw [nth_failedA ha hb hra hv, due_failedA (by rw [hra]; rfl)]
    exact ⟨rfl, rfl⟩
  have hfailedB : ∀ {e : BE}, rb = .error e → (verdict na nb ra rb).1 = nb →
      (ra.toOption = none → nb < na) →
      (nth tryJoin2 sa sb nb).children = due na nb ra nb ∧
        (nth tryJoin2 sa sb nb).result = .ready (.error (.b e)) := by
    intro e hrb hv hra
    rw [nth_failedB ha hb hrb hv hra, polls_progress .a fun h => (hra h).le, due_of_lt hra,
      if_pos (Nat.le_refl nb)]
    exact ⟨rfl, rfl⟩
  cases ra with
  | ok a =>
      cases rb with
      | ok b =>
          have hnth := nth_ok ha hb rfl rfl
          have hra : (.ok a : Except AE AR).toOption ≠ none := nofun
          have hrb : (.ok b : Except BE BR).toOption ≠ none := nofun
          rw [polls_eq_due_of_ok hra hrb] at hnth
          exact ⟨congrArg Polled.children hnth, congrArg Polled.result hnth⟩
      | error e => exact hfailedB rfl rfl nofun
  | error e =>
      cases rb with
      | ok b => exact hfailedA rfl rfl
      | error e' =>
          by_cases hle : na ≤ nb
          · have hv : verdict na nb (.error e : Except AE AR) (.error e' : Except BE BR) =
                (na, .error (.a e)) := if_pos hle
            rw [hv]
            exact hfailedA rfl (congrArg Prod.fst hv)
          · have hv : verdict na nb (.error e : Except AE AR) (.error e' : Except BE BR) =
                (nb, .error (.b e')) := if_neg hle
            rw [hv]
            exact hfailedB rfl (congrArg Prod.fst hv) fun _ => by omega

theorem failFast_of_completes (ha : Completes sa na ra) (hb : Completes sb nb rb) :
    FailFast sa sb na nb ra rb where
  children := by
    intro k hk
    rcases Nat.lt_or_eq_of_le hk with hlt | rfl
    · rw [nth_tryJoin2 ha hb hlt]
      exact polls_eq_due hlt
    · exact (nth_verdict ha hb).1
  pending := by
    intro k hk
    rw [nth_tryJoin2 ha hb hk]
    rfl
  ready := (nth_verdict ha hb).2
  join2 := by
    rintro a b rfl rfl
    exact ⟨fun k hk => nth_join2_pending ha hb hk, nth_join2_ready ha hb⟩

/-- The second child fails while the first one is pending. -/
theorem failFast_bFirst :
    FailFast (fun k => if k < 3 then .pending else .ready (.ok 5 : Except String ℕ))
      (fun k => if k < 1 then .pending else .ready (.error "refused" : Except String ℕ)) 3 1
      (.ok 5) (.error "refused") :=
  failFast_of_completes ⟨fun _ hk => if_pos hk, rfl⟩ ⟨fun _ hk => if_pos hk, rfl⟩

end Runs
end Kiruna.Join

import Mathlib.Data.Nat.Notation
import Mathlib.Tactic.ByContra
import Mathlib.Tactic.SplitIfs

/-!
# While loops

A loop tests its state and runs its body, which may fail. `Rounds s n t` are `n` rounds that lead
from `s` to `t`, and `Ends s n r` says that after `n` rounds the test or the body ends the loop with
`r`. A loop that runs forever has no such `n`. `run` executes a loop for as many rounds as it has
fuel.
-/

namespace Kiruna

universe u v

structure Loop (ε σ : Type*) where
  cond : σ → Bool
  body : σ → Except ε σ

namespace Loop

theorem bind_eq_ok {ε : Type u} {α β : Type v} {x : Except ε α} {f : α → Except ε β} {b : β} :
    (x >>= f) = .ok b ↔ ∃ a, x = .ok a ∧ f a = .ok b := by
  cases x with
  | error e => simp [bind, Except.bind]
  | ok a => simp [bind, Except.bind]

variable {ε σ : Type*} (L : Loop ε σ)

inductive Rounds : σ → ℕ → σ → Prop
  | refl {s : σ} : Rounds s 0 s
  | next {s t u : σ} {n : ℕ} (hcond : L.cond s = true) (hbody : L.body s = .ok t)
      (hrest : Rounds t n u) : Rounds s (n + 1) u

/-- How the loop ends in a state, if it does. -/
inductive Stops (s : σ) : Except ε σ → Prop
  | exit (hcond : L.cond s = false) : Stops s (.ok s)
  | failure {e : ε} (hcond : L.cond s = true) (hbody : L.body s = .error e) : Stops s (.error e)

def Ends (s : σ) (n : ℕ) (r : Except ε σ) : Prop := ∃ t, L.Rounds s n t ∧ L.Stops t r

def run : ℕ → σ → Option (Except ε σ)
  | 0, _ => none
  | fuel + 1, s =>
      if L.cond s then
        match L.body s with
        | .error e => some (.error e)
        | .ok t => run fuel t
      else some (.ok s)

variable {L} {s t u : σ} {m n fuel : ℕ} {r : Except ε σ}

/-- No round is made in a state in which the loop ends. -/
theorem Stops.rounds_eq (h : L.Stops s r) (hr : L.Rounds s n t) : n = 0 := by
  cases hr with
  | refl => rfl
  | next hcond hbody =>
      cases h with
      | exit hfalse =>
          rw [hfalse] at hcond
          cases hcond
      | failure _ herror =>
          rw [herror] at hbody
          cases hbody

/-- The rounds of a loop are the first ones on its way to the end. -/
theorem Ends.of_rounds (h : L.Ends s n r) (hr : L.Rounds s m t) :
    ∃ k, n = m + k ∧ L.Ends t k r := by
  induction hr generalizing n with
  | refl => exact ⟨n, (Nat.zero_add n).symm, h⟩
  | next hcond hbody hrest ih =>
      obtain ⟨u, hrounds, hstops⟩ := h
      cases hrounds with
      | refl => cases hstops.rounds_eq (.next hcond hbody hrest)
      | next _ hbody' hrest' =>
          rw [hbody] at hbody'
          cases hbody'
          obtain ⟨k, rfl, hends⟩ := ih ⟨u, hrest', hstops⟩
          exact ⟨k, by omega, hends⟩

theorem run_of_stops (h : L.Stops s r) : L.run (fuel + 1) s = some r := by
  cases h with
  | exit hcond => simp [run, hcond]
  | failure hcond hbody => simp [run, hcond, hbody]

theorem Ends.run_eq (h : L.Ends s n r) (hlt : n < fuel) : L.run fuel s = some r := by
  obtain ⟨t, hrounds, hstops⟩ := h
  induction hrounds generalizing fuel with
  | refl =>
      obtain ⟨fuel, rfl⟩ := Nat.exists_eq_succ_of_ne_zero (Nat.ne_of_gt hlt)
      exact run_of_stops hstops
  | next hcond hbody _ ih =>
      obtain ⟨fuel, rfl⟩ := Nat.exists_eq_succ_of_ne_zero (Nat.ne_of_gt (Nat.zero_lt_of_lt hlt))
      simp only [run, hcond, hbody, if_true]
      exact ih (Nat.lt_of_succ_lt_succ hlt) hstops

theorem exists_ends_of_run (h : L.run fuel s = some r) : ∃ n, L.Ends s n r := by
  induction fuel generalizing s with
  | zero => cases h
  | succ fuel ih =>
      rw [run] at h
      split_ifs at h with hcond
      · split at h
        · rename_i e hbody
          cases h
          exact ⟨0, s, .refl, .failure hcond hbody⟩
        · rename_i t hbody
          obtain ⟨n, u, hrounds, hstops⟩ := ih h
          exact ⟨n + 1, u, .next hcond hbody hrounds, hstops⟩
      · cases h
        exact ⟨0, s, .refl, .exit (eq_false_of_ne_true hcond)⟩

theorem run_eq_none_iff : (∀ fuel, L.run fuel s = none) ↔ ∀ n r, ¬ L.Ends s n r := by
  constructor
  · intro h n r hends
    have hrun := hends.run_eq (Nat.lt_succ_self n)
    rw [h] at hrun
    cases hrun
  · intro h fuel
    by_contra hne
    obtain ⟨r, hr⟩ := Option.ne_none_iff_exists'.mp hne
    obtain ⟨n, hends⟩ := exists_ends_of_run hr
    exact h n r hends

/-- A state to which its own round leads back. -/
theorem not_ends_of_fixed (hcond : L.cond s = true) (hbody : L.body s = .ok s) :
    ¬ L.Ends s n r := by
  intro h
  induction n with
  | zero =>
      obtain ⟨k, hk, -⟩ := h.of_rounds (.next hcond hbody .refl)
      omega
  | succ n ih =>
      obtain ⟨k, hk, hends⟩ := h.of_rounds (.next hcond hbody .refl)
      obtain rfl : n = k := by omega
      exact ih hends

/-- A loop ends if the rounds that it makes lower a measure. -/
theorem exists_ends (V : σ → ℕ)
    (hround : ∀ n t u, L.Rounds s n t → L.cond t = true → L.body t = .ok u → V u < V t) :
    ∃ n r, L.Ends s n r := by
  induction hV : V s using Nat.strongRecOn generalizing s with
  | _ v ih =>
      by_cases hcond : L.cond s = true
      · cases hbody : L.body s with
        | error e => exact ⟨0, .error e, s, .refl, .failure hcond hbody⟩
        | ok t =>
            have hlt := hround 0 s t .refl hcond hbody
            obtain ⟨n, r, u, hrounds, hstops⟩ := ih (V t) (hV ▸ hlt)
              (fun n u w hu => hround (n + 1) u w (.next hcond hbody hu)) rfl
            exact ⟨n + 1, r, u, .next hcond hbody hrounds, hstops⟩
      · exact ⟨0, .ok s, s, .refl, .exit (eq_false_of_ne_true hcond)⟩

end Loop
end Kiruna

import Mathlib.Data.List.Basic
import Mathlib.Logic.Basic

/-!
# Labelled transition systems and their runs

A label resolves every choice of a step, so a step is a partial function and a schedule can be
executed. `Path` lists the labels of a run newest first: what happened after an event is then a
prefix of the list. Every path carries a condition `ok` on the steps it may take; `Free` admits
every step.
-/

namespace Kiruna

structure Lts (σ ℓ : Type*) where
  init : σ
  step : σ → ℓ → Option σ

namespace Lts

variable {σ ℓ : Type*}

/-- The condition that every step meets. -/
def Free : σ → ℓ → Prop := fun _ _ => True

variable (M : Lts σ ℓ) (ok : σ → ℓ → Prop)

inductive Path (s : σ) : List ℓ → σ → Prop
  | refl : Path s [] s
  | snoc {h : List ℓ} {t u : σ} {a : ℓ} :
      Path s h t → ok t a → M.step t a = some u → Path s (a :: h) u

abbrev Run (h : List ℓ) (s : σ) : Prop := M.Path ok M.init h s

def Reachable (s : σ) : Prop := ∃ h, M.Run Free h s

variable {M ok} {s t u : σ} {h h' : List ℓ} {a : ℓ}

theorem Path.trans (h₁ : M.Path ok s h t) (h₂ : M.Path ok t h' u) :
    M.Path ok s (h' ++ h) u := by
  induction h₂ with
  | refl => exact h₁
  | snoc _ hok hst ih => exact .snoc ih hok hst

theorem Path.mono {ok' : σ → ℓ → Prop} (hle : ∀ t a, ok t a → ok' t a) (hp : M.Path ok s h t) :
    M.Path ok' s h t := by
  induction hp with
  | refl => exact .refl
  | snoc _ hok hst ih => exact .snoc ih (hle _ _ hok) hst

/-- A condition that every step of an admitted path turns out to meet. -/
theorem Path.strengthen {ok' : σ → ℓ → Prop}
    (hle : ∀ h t a u, M.Path ok s h t → ok t a → M.step t a = some u → ok' t a)
    (hp : M.Path ok s h t) : M.Path ok' s h t := by
  induction hp with
  | refl => exact .refl
  | snoc hp hok hst ih => exact .snoc ih (hle _ _ _ _ hp hok hst) hst

/-- The labels of a path determine where it ends. -/
theorem Path.unique {ok' : σ → ℓ → Prop} (h₁ : M.Path ok s h t) (h₂ : M.Path ok' s h u) :
    t = u := by
  induction h₁ generalizing u with
  | refl =>
      cases h₂
      rfl
  | snoc _ _ hst ih =>
      cases h₂ with
      | snoc h₂ _ hst' =>
          obtain rfl := ih h₂
          exact Option.some.inj (hst.symm.trans hst')

/-- The beginnings of a path, whose histories are the suffixes of its own. -/
theorem Path.of_suffix (hp : M.Path ok s h t) (hsub : h' <:+ h) : ∃ u, M.Path ok s h' u := by
  induction hp with
  | refl =>
      obtain rfl := List.suffix_nil.mp hsub
      exact ⟨s, .refl⟩
  | snoc hp hok hst ih =>
      rcases List.suffix_cons_iff.mp hsub with rfl | hsub
      · exact ⟨_, hp.snoc hok hst⟩
      · exact ih hsub

theorem Path.reachable (hp : M.Run ok h s) : M.Reachable s :=
  ⟨h, hp.mono fun _ _ _ => trivial⟩

/-- The induction rule: a property of histories and states that the start has and every admitted
step keeps holds along the whole path. The step may use that its source is on the path. -/
theorem Path.induct {P : List ℓ → σ → Prop} (h₀ : P [] s)
    (hstep : ∀ h t a u, M.Path ok s h t → P h t → ok t a → M.step t a = some u → P (a :: h) u)
    (hp : M.Path ok s h t) : P h t := by
  induction hp with
  | refl => exact h₀
  | snoc hp hok hst ih => exact hstep _ _ _ _ hp ih hok hst

/-- The invariant rule, for a property of states alone. -/
theorem Path.invariant {P : σ → Prop}
    (hstep : ∀ t a u, P t → ok t a → M.step t a = some u → P u)
    (hp : M.Path ok s h t) (h₀ : P s) : P t :=
  hp.induct (P := fun _ t => P t) h₀ fun _ t a u _ ht hok hst => hstep t a u ht hok hst

/-- Repeats a label `n` times, where `P k` holds after `k` repetitions. -/
theorem exists_path_replicate {P : ℕ → σ → Prop} (h₀ : P 0 s) (n : ℕ)
    (hstep : ∀ k < n, ∀ t, P k t → ok t a ∧ ∃ u, M.step t a = some u ∧ P (k + 1) u) :
    ∃ t, M.Path ok s (List.replicate n a) t ∧ P n t := by
  induction n with
  | zero => exact ⟨s, .refl, h₀⟩
  | succ n ih =>
      obtain ⟨t, hp, ht⟩ := ih fun k hk => hstep k (Nat.lt_succ_of_lt hk)
      obtain ⟨hok, u, hst, hu⟩ := hstep n (Nat.lt_succ_self n) t ht
      exact ⟨u, hp.snoc hok hst, hu⟩

section Exec

variable (M ok) [∀ s a, Decidable (ok s a)]

/-- Executes a schedule, given in the order of its steps, as long as every step meets `ok`. -/
def exec : σ → List ℓ → Option σ
  | s, [] => some s
  | s, a :: as => if ok s a then (M.step s a).bind fun t => exec t as else none

variable {M ok}

theorem path_of_exec (as : List ℓ) (he : M.exec ok s as = some t) :
    M.Path ok s as.reverse t := by
  induction as generalizing s with
  | nil =>
      obtain rfl : s = t := by simpa [exec] using he
      exact .refl
  | cons a as ih =>
      by_cases hok : ok s a
      · simp only [exec, if_pos hok, Option.bind_eq_some_iff] at he
        obtain ⟨r, hr, hrest⟩ := he
        rw [List.reverse_cons]
        exact (Path.snoc .refl hok hr).trans (ih hrest)
      · simp [exec, hok] at he

instance : ∀ (s : σ) (a : ℓ), Decidable (Free s a) := fun _ _ => isTrue trivial

end Exec

section Events

variable (M) (P : σ → σ → Prop) [DecidableRel P]

/-- The state after a history. -/
def after : List ℓ → Option σ
  | [] => some M.init
  | a :: h => (after h).bind fun s => M.step s a

/-- The number of the steps of a history whose source and target are related. -/
def events : List ℓ → ℕ
  | [] => 0
  | a :: h => events h +
      match M.after h, M.after (a :: h) with
      | some s, some t => if P s t then 1 else 0
      | _, _ => 0

variable {M}

theorem Path.after_eq (hp : M.Run ok h s) : M.after h = some s := by
  induction hp with
  | refl => rfl
  | snoc _ _ hst ih => rw [after, ih, Option.bind_some, hst]

theorem events_cons (hp : M.Run ok h s) (hst : M.step s a = some t) :
    M.events P (a :: h) = M.events P h + if P s t then 1 else 0 := by
  have hs := hp.after_eq
  have ht : M.after (a :: h) = some t := by rw [after, hs, Option.bind_some, hst]
  rw [events, hs, ht]

end Events

end Lts
end Kiruna

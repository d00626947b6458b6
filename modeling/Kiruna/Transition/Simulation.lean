import Kiruna.Transition.Lts

/-!
# Simulations and progress

A system simulates another along a map of states when each step of the first is a path of the
second; a step without labels stutters. A measure that a step can always lower leads to a state in
which there is nothing left to do.
-/

namespace Kiruna.Lts

variable {σ τ ℓ ℓ' : Type*} {M : Lts σ ℓ} {N : Lts τ ℓ'} {ok : σ → ℓ → Prop} {ok' : τ → ℓ' → Prop}
  {s t : σ} {h : List ℓ}

theorem Path.single {a : ℓ} (hok : ok s a) (hst : M.step s a = some t) : M.Path ok s [a] t :=
  .snoc .refl hok hst

/-- A run seen through `f`, when each of its steps is a path. `R` relates the labels of the two. -/
theorem Path.map (f : σ → τ) {R : List ℓ → List ℓ' → Prop} (h₀ : R [] [])
    (hsim : ∀ h t a u, M.Run ok h t → ok t a → M.step t a = some u →
      ∃ h₂, N.Path ok' (f t) h₂ (f u) ∧ ∀ h₁, R h h₁ → R (a :: h) (h₂ ++ h₁))
    (hr : M.Run ok h s) : ∃ h', N.Path ok' (f M.init) h' (f s) ∧ R h h' := by
  induction hr with
  | refl => exact ⟨[], .refl, h₀⟩
  | snoc hr hok hst ih =>
      obtain ⟨h₁, hp₁, hr₁⟩ := ih
      obtain ⟨h₂, hp₂, hr₂⟩ := hsim _ _ _ _ hr hok hst
      exact ⟨h₂ ++ h₁, hp₁.trans hp₂, hr₂ h₁ hr₁⟩

/-- The same, when nothing is said about the labels. -/
theorem Path.exists_map (f : σ → τ)
    (hsim : ∀ h t a u, M.Run ok h t → ok t a → M.step t a = some u →
      ∃ h', N.Path ok' (f t) h' (f u))
    (hr : M.Run ok h s) : ∃ h', N.Path ok' (f M.init) h' (f s) := by
  obtain ⟨h', hp, -⟩ := hr.map f (R := fun _ _ => True) trivial fun h t a u ht hok hst => by
    obtain ⟨h₂, hp⟩ := hsim h t a u ht hok hst
    exact ⟨h₂, hp, fun _ _ => trivial⟩
  exact ⟨h', hp⟩

/-- The progress rule: as long as the goal is not reached, some admitted step keeps `P` and lowers
the measure. -/
theorem exists_path_of_measure (M : Lts σ ℓ) (ok : σ → ℓ → Prop) {P Q : σ → Prop} (μ : σ → ℕ)
    (hstep : ∀ s, P s → ¬ Q s → ∃ a t, ok s a ∧ M.step s a = some t ∧ P t ∧ μ t < μ s)
    (hs : P s) : ∃ h t, M.Path ok s h t ∧ P t ∧ Q t := by
  induction hk : μ s using Nat.strongRecOn generalizing s with
  | ind k ih =>
      subst hk
      by_cases hq : Q s
      · exact ⟨[], s, .refl, hs, hq⟩
      · obtain ⟨a, t, hok, hst, ht, hlt⟩ := hstep s hs hq
        obtain ⟨h, u, hp, hu, hqu⟩ := ih (μ t) hlt ht rfl
        exact ⟨h ++ [a], u, (Path.single hok hst).trans hp, hu, hqu⟩

end Kiruna.Lts

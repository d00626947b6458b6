import Mathlib.Data.List.Forall2
import Mathlib.Logic.Relation

/-!
# Reactive objects

A reactive object has a state of its own and answers calls. A call reads and changes the world,
which the object shares with others; between two calls the others may leave the world in any state.
Two objects agree up to a relation of answers when a relation of their states is kept by every call
in every world. Their answers and what they do to the world are then the same along every sequence
of worlds.
-/

namespace Kiruna

structure Reactive (W O : Type*) where
  State : Type*
  start : State
  call : State → W → O × State × W

namespace Reactive

variable {W O O' O'' : Type*}

/-- The answers to calls in the given worlds, each with the world after it. -/
def calls (M : Reactive W O) : M.State → List W → List (O × W)
  | _, [] => []
  | s, w :: ws => ((M.call s w).1, (M.call s w).2.2) :: calls M (M.call s w).2.1 ws

/-- `rel` is kept by every call, and the answers are related by `R`. -/
def Keeps (R : O → O' → Prop) (M : Reactive W O) (N : Reactive W O')
    (rel : M.State → N.State → Prop) : Prop :=
  ∀ s t w, rel s t → R (M.call s w).1 (N.call t w).1 ∧
    rel (M.call s w).2.1 (N.call t w).2.1 ∧ (M.call s w).2.2 = (N.call t w).2.2

def Agree (R : O → O' → Prop) (M : Reactive W O) (N : Reactive W O') : Prop :=
  ∃ rel, M.Keeps R N rel ∧ rel M.start N.start

variable {R : O → O' → Prop} {R' : O' → O'' → Prop} {M : Reactive W O} {N : Reactive W O'}
  {L : Reactive W O''}

theorem Agree.refl {R : O → O → Prop} (hR : ∀ o, R o o) (M : Reactive W O) : Agree R M M := by
  refine ⟨Eq, ?_, rfl⟩
  rintro s _ w rfl
  exact ⟨hR _, rfl, rfl⟩

theorem Agree.symm (h : Agree R M N) : Agree (fun o o' => R o' o) N M := by
  obtain ⟨rel, hkeeps, hstart⟩ := h
  refine ⟨fun t s => rel s t, fun t s w hrel => ?_, hstart⟩
  obtain ⟨hanswer, hnext, hworld⟩ := hkeeps s t w hrel
  exact ⟨hanswer, hnext, hworld.symm⟩

theorem Agree.trans (h : Agree R M N) (h' : Agree R' N L) :
    Agree (Relation.Comp R R') M L := by
  obtain ⟨rel, hkeeps, hstart⟩ := h
  obtain ⟨rel', hkeeps', hstart'⟩ := h'
  refine ⟨Relation.Comp rel rel', ?_, N.start, hstart, hstart'⟩
  rintro s u w ⟨t, hst, htu⟩
  obtain ⟨hanswer, hnext, hworld⟩ := hkeeps s t w hst
  obtain ⟨hanswer', hnext', hworld'⟩ := hkeeps' t u w htu
  exact ⟨⟨_, hanswer, hanswer'⟩, ⟨_, hnext, hnext'⟩, hworld.trans hworld'⟩

theorem Agree.mono {S : O → O' → Prop} (hle : ∀ o o', R o o' → S o o') (h : Agree R M N) :
    Agree S M N := by
  obtain ⟨rel, hkeeps, hstart⟩ := h
  refine ⟨rel, fun s t w hrel => ?_, hstart⟩
  obtain ⟨hanswer, hrest⟩ := hkeeps s t w hrel
  exact ⟨hle _ _ hanswer, hrest⟩

theorem Keeps.calls {rel : M.State → N.State → Prop} (h : M.Keeps R N rel) {s : M.State}
    {t : N.State} (hst : rel s t) (ws : List W) :
    List.Forall₂ (fun x y => R x.1 y.1 ∧ x.2 = y.2) (M.calls s ws) (N.calls t ws) := by
  induction ws generalizing s t with
  | nil => exact .nil
  | cons w ws ih =>
      obtain ⟨hanswer, hnext, hworld⟩ := h s t w hst
      exact .cons ⟨hanswer, hworld⟩ (ih hnext)

/-- Objects that agree answer alike and do the same to the world. -/
theorem Agree.calls (h : Agree R M N) (ws : List W) :
    List.Forall₂ (fun x y => R x.1 y.1 ∧ x.2 = y.2) (M.calls M.start ws) (N.calls N.start ws) := by
  obtain ⟨rel, hkeeps, hstart⟩ := h
  exact hkeeps.calls hstart ws

/-- If each answer of the one determines the answer of the other. -/
theorem Agree.calls_eq {f : O → O'} (h : Agree (fun o o' => o' = f o) M N) (ws : List W) :
    N.calls N.start ws = (M.calls M.start ws).map fun c => (f c.1, c.2) := by
  have hall := h.calls ws
  generalize M.calls M.start ws = l at hall
  generalize N.calls N.start ws = l' at hall
  induction hall with
  | nil => rfl
  | cons hxy _ ih =>
      obtain ⟨hanswer, hworld⟩ := hxy
      rw [List.map_cons, ← ih, hworld, ← hanswer]

end Reactive
end Kiruna

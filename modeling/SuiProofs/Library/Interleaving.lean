import Mathlib.Logic.Function.Basic
import Mathlib.Tactic.TypeStar

namespace SuiProofs.Library

open Function

/-- A system of processes. A step of a process may depend on the state of the others. -/
structure Interleaving (ι σ π : Type*) where
  init : σ → (ι → π) → Prop
  act : σ → (ι → π) → ι → σ → π → Prop

namespace Interleaving

variable {ι σ π : Type*} [DecidableEq ι] {M : Interleaving ι σ π}

/-- What any interleaving of the processes reaches. -/
inductive Reach (M : Interleaving ι σ π) : σ → (ι → π) → Prop
  | init {s : σ} {p : ι → π} : M.init s p → Reach M s p
  | act {s s' : σ} {p : ι → π} {i : ι} {q : π} :
      Reach M s p → M.act s p i s' q → Reach M s' (update p i q)

/-- A global invariant, what every process relies on, and how two processes agree. -/
structure Holds (G : σ → Prop) (L : σ → ι → π → Prop) (C : π → π → Prop) (s : σ) (p : ι → π) : Prop where
  shared : G s
  each : ∀ i, L s i (p i)
  agree : ∀ i j, i ≠ j → C (p i) (p j)

/-- A step keeps the invariants when the process that takes it does and no other is disturbed. -/
theorem Reach.holds {G : σ → Prop} {L : σ → ι → π → Prop} {C : π → π → Prop}
    (hsymm : ∀ p q, C p q → C q p) (hinit : ∀ s p, M.init s p → Holds G L C s p)
    (hact : ∀ s p i s' q, Holds G L C s p → M.act s p i s' q →
      G s' ∧ L s' i q ∧ ∀ j, j ≠ i → L s' j (p j) ∧ C q (p j)) {s : σ} {p : ι → π} (h : M.Reach s p) :
    Holds G L C s p := by
  induction h with
  | init h => exact hinit _ _ h
  | @act s s' p i q _ h ih =>
    obtain ⟨hshared, hown, hothers⟩ := hact s p i s' q ih h
    refine ⟨hshared, fun j => ?_, fun j k hjk => ?_⟩
    · by_cases hj : j = i
      · subst hj
        rwa [update_self]
      · rw [update_of_ne hj]
        exact (hothers j hj).1
    · by_cases hj : j = i
      · subst hj
        rw [update_self, update_of_ne hjk.symm]
        exact (hothers k hjk.symm).2
      · rw [update_of_ne hj]
        by_cases hk : k = i
        · subst hk
          rw [update_self]
          exact hsymm _ _ (hothers j hj).2
        · rw [update_of_ne hk]
          exact ih.agree j k hjk

end Interleaving

end SuiProofs.Library

import Mathlib

namespace SuiProofs.Library

open List

/-- The list holds the values of `f` at consecutive keys, the first of them at `key`. -/
def Buckets (f : ℕ → ℕ) : ℕ → List ℕ → Prop
  | _, [] => True
  | key, a :: l => a = f key ∧ Buckets f (key + 1) l

namespace Buckets

variable {f g : ℕ → ℕ} {key : ℕ} {l l' : List ℕ}

lemma append : Buckets f key (l ++ l') ↔ Buckets f key l ∧ Buckets f (key + l.length) l' := by
  induction l generalizing key with
  | nil => simp [Buckets]
  | cons a l ih =>
    rw [cons_append, Buckets, Buckets, ih, length_cons, and_assoc, Nat.add_right_comm key 1,
      Nat.add_assoc]

lemma congr (h : ∀ i, key ≤ i → i < key + l.length → f i = g i) (hl : Buckets f key l) :
    Buckets g key l := by
  induction l generalizing key with
  | nil => trivial
  | cons a l ih =>
    rw [length_cons] at h
    obtain ⟨rfl, htail⟩ := hl
    exact ⟨h key le_rfl (by omega), ih (fun i hi hlt => h i (by omega) (by omega)) htail⟩

lemma replicate_zero (h : ∀ i, key ≤ i → f i = 0) (count : ℕ) :
    Buckets f key (List.replicate count 0) := by
  induction count generalizing key with
  | zero => trivial
  | succ count ih => exact ⟨(h key le_rfl).symm, ih fun i hi => h i (by omega)⟩

lemma drop (hl : Buckets f key l) {count : ℕ} (h : count ≤ l.length) : Buckets f (key + count)
    (l.drop count) := by
  rw [← take_append_drop count l, append, length_take_of_le h] at hl
  exact hl.2

lemma getElem? (hl : Buckets f key l) {i : ℕ} (h : i < l.length) : l[i]? = some (f (key + i)) := by
  induction l generalizing key i with
  | nil => exact absurd h (Nat.not_lt_zero i)
  | cons a l ih =>
    obtain ⟨rfl, htail⟩ := hl
    cases i with
    | zero => rfl
    | succ i =>
      rw [List.getElem?_cons_succ, ih htail (Nat.lt_of_succ_lt_succ h), Nat.add_assoc, Nat.add_comm 1 i]

lemma sum_eq (hl : Buckets f key l) : l.sum = ∑ i ∈ Finset.Ico key (key + l.length), f i := by
  induction l generalizing key with
  | nil => simp
  | cons a l ih =>
    obtain ⟨rfl, htail⟩ := hl
    have hlt : key < key + (f key :: l).length := by simp
    rw [sum_cons, ih htail, Finset.sum_eq_sum_Ico_succ_bot hlt, length_cons, Nat.add_assoc key 1,
      Nat.add_comm 1]

lemma add_last {a x : ℕ} (hl : Buckets f key (l ++ [a])) (hg : ∀ i, i ≠ key + l.length → g i = f i)
    (hlast : g (key + l.length) = f (key + l.length) + x) :
    Buckets g key (l ++ [a + x]) := by
  rw [append] at hl ⊢
  obtain ⟨hinit, rfl, -⟩ := hl
  exact ⟨hinit.congr fun i _ hlt => (hg i (by omega)).symm, hlast.symm, trivial⟩

end Buckets

end SuiProofs.Library

import Mathlib

namespace SuiProofs.Library

open Relation List

variable {α : Type*} {step : α → α → Prop} {root x : α} {done pending new : List α}

variable (step root done pending) in
/-- The nodes found from the root: those in `done` have been expanded. -/
structure Worklist : Prop where
  nodup : (done ++ pending).Nodup
  root_mem : root ∈ done ++ pending
  reachable : ∀ x ∈ done ++ pending, ReflTransGen step root x
  closed : ∀ x ∈ done, ∀ y, step x y → y ∈ done ++ pending

namespace Worklist

lemma start : Worklist step root [] [root] where
  nodup := nodup_singleton root
  root_mem := mem_singleton_self root
  reachable _ hx := mem_singleton.mp hx ▸ .refl
  closed _ hx := absurd hx not_mem_nil

lemma expand (h : Worklist step root done (x :: pending)) (hnd : new.Nodup)
    (hnew : ∀ y, y ∈ new ↔ step x y ∧ y ∉ done ++ x :: pending) :
    Worklist step root (done ++ [x]) (new ++ pending) := by
  have hmem : ∀ y, y ∈ done ++ [x] ++ (new ++ pending) ↔ y ∈ done ++ x :: pending ∨ y ∈ new := by
    intro y
    simp only [mem_append, mem_cons, not_mem_nil, or_false]
    tauto
  have hx : x ∈ done ++ x :: pending := mem_append_right done mem_cons_self
  have hperm : (done ++ [x] ++ (new ++ pending)).Perm (new ++ (done ++ x :: pending)) := by
    rw [append_assoc, singleton_append]
    calc done ++ x :: (new ++ pending)
      _ |>.Perm (done ++ (new ++ x :: pending)) := perm_middle.symm.append_left done
      _ |>.Perm (new ++ (done ++ x :: pending)) := by
        rw [← append_assoc, ← append_assoc]
        exact perm_append_comm.append_right _
  refine ⟨?_, (hmem root).mpr (.inl h.root_mem), ?_, ?_⟩
  · rw [hperm.nodup_iff, nodup_append']
    exact ⟨hnd, h.nodup, fun y hy hy' => ((hnew y).mp hy).2 hy'⟩
  · intro y hy
    rcases (hmem y).mp hy with hy | hy
    · exact h.reachable y hy
    · exact (h.reachable x hx).tail ((hnew y).mp hy).1
  · intro y hy z hyz
    rw [hmem]
    rcases mem_append.mp hy with hy | hy
    · exact .inl (h.closed y hy z hyz)
    · obtain rfl := mem_singleton.mp hy
      by_cases hz : z ∈ done ++ y :: pending
      · exact .inl hz
      · exact .inr ((hnew z).mpr ⟨hyz, hz⟩)

lemma mem_done_iff (h : Worklist step root done []) : x ∈ done ↔ ReflTransGen step root x := by
  have hall := append_nil done
  constructor
  · intro hx
    exact h.reachable x (hall.symm ▸ hx)
  · intro hx
    induction hx with
    | refl => exact hall ▸ h.root_mem
    | tail _ hxy ih => exact hall ▸ h.closed _ ih _ hxy

/-- A search inside a finite set expands at most as many nodes as the set has. -/
lemma length_done_lt [DecidableEq α] {S : Finset α} (h : Worklist step root done (x :: pending))
    (hS : ∀ y ∈ done ++ x :: pending, y ∈ S) : done.length < S.card := by
  have hle : (done ++ x :: pending).toFinset.card ≤ S.card :=
    Finset.card_le_card (fun y hy => hS y (mem_toFinset.mp hy))
  rw [toFinset_card_of_nodup h.nodup, length_append, length_cons] at hle
  omega

end Worklist

end SuiProofs.Library

import Mathlib

namespace SuiProofs.Library

open List Function

section

variable {σ : Type*}

/-- An entry descends when it is filled, or when its value does. -/
def OptionBelow (r : σ → σ → Prop) : Option σ → Option σ → Prop
  | some a, some b => r a b
  | some _, none => True
  | none, _ => False

lemma wellFounded_optionBelow {r : σ → σ → Prop} (h : WellFounded r) : WellFounded (OptionBelow r) := by
  have hsome : ∀ a, Acc (OptionBelow r) (some a) := by
    intro a
    induction h.apply a with
    | intro a _ ih =>
      refine ⟨_, fun b hb => ?_⟩
      cases b with
      | none => exact hb.elim
      | some b => exact ih b hb
  refine ⟨fun a => ?_⟩
  cases a with
  | some a => exact hsome a
  | none =>
    refine ⟨_, fun b hb => ?_⟩
    cases b with
    | none => exact hb.elim
    | some b => exact hsome b

end

variable {κ σ : Type*} [DecidableEq κ]

def TableBelow (r : σ → σ → Prop) (keys : List κ) (t' t : κ → Option σ) : Prop :=
  ∃ k ∈ keys, ∃ entry, t' = update t k entry ∧ OptionBelow r entry (t k)

lemma map_update_add {keys : List κ} (hnd : keys.Nodup) {k : κ} (hk : k ∈ keys) (t : κ → Option σ)
    (entry : Option σ) :
    (keys.map (update t k entry) : Multiset (Option σ)) + {t k} =
      (keys.map t : Multiset (Option σ)) + {entry} := by
  obtain ⟨a, b, rfl⟩ := append_of_mem hk
  rw [nodup_append, nodup_cons] at hnd
  have ha : a.map (update t k entry) = a.map t :=
    map_congr_left fun x hx => update_of_ne (hnd.2.2 x hx k mem_cons_self) _ _
  have hb : b.map (update t k entry) = b.map t :=
    map_congr_left fun x hx => update_of_ne (fun heq : x = k => hnd.2.1.1 (heq ▸ hx)) _ _
  rw [map_append, map_cons, ha, hb, update_self, map_append,
    map_cons, ← Multiset.coe_add, ← Multiset.coe_add,
    ← Multiset.cons_coe, ← Multiset.cons_coe, ← Multiset.singleton_add, ← Multiset.singleton_add]
  abel

/-- The multiset of the entries descends with the table. -/
theorem wellFounded_tableBelow {r : σ → σ → Prop} (h : WellFounded r) {keys : List κ}
    (hnodup : keys.Nodup) :
    WellFounded (TableBelow r keys) := by
  refine Subrelation.wf ?_ (InvImage.wf (fun t : κ → Option σ => (keys.map t : Multiset (Option σ)))
    (wellFounded_optionBelow h).cutExpand)
  rintro t' t ⟨k, hk, entry, rfl, hbelow⟩
  refine ⟨{entry}, t k, fun a ha => ?_, map_update_add hnodup hk t entry⟩
  obtain rfl := Multiset.mem_singleton.mp ha
  exact hbelow

end SuiProofs.Library

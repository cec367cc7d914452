import SuiProofs.Authority.TransactionEffects

/-! Models `check_circular_ownership` of `object_runtime/mod.rs`. -/

namespace SuiProofs.Execution.CircularOwnership

open List Relation Function
open Authority (ObjectId)

inductive ExecutionErrorKind where
  | circularObjectOwnership (object : ObjectId)
deriving DecidableEq, Repr

abbrev OwnerMap := ObjectId → Option ObjectId
abbrev Transfers := List (ObjectId × Authority.Owner)

/-- The inner loop, which has no bound of its own: `none` when the fuel runs out. -/
def followOwners (objectOwnerMap : OwnerMap) (id : ObjectId) :
    ℕ → ObjectId → Option (Except ExecutionErrorKind Unit)
  | 0, _ => none
  | fuel + 1, cur =>
    if cur = id then some (.error (.circularObjectOwnership cur))
    else
      match objectOwnerMap cur with
      | some parent => followOwners objectOwnerMap id fuel parent
      | none => some (.ok ())

def checkTransfers (fuel : ℕ) : OwnerMap → Transfers → Option (Except ExecutionErrorKind Unit)
  | _, [] => some (.ok ())
  | objectOwnerMap, (id, recipient) :: transfers =>
    let removed := update objectOwnerMap id none
    match recipient with
    | .addressOwner _ | .shared _ | .immutable => checkTransfers fuel removed transfers
    | .objectOwner newOwner =>
      match followOwners removed id fuel newOwner with
      | some (.ok ()) => checkTransfers fuel (update removed id (some newOwner)) transfers
      | stopped => stopped

def checkCircularOwnership (fuel : ℕ) (transfers : Transfers) :
    Option (Except ExecutionErrorKind Unit) :=
  checkTransfers fuel (fun _ => none) transfers

def objectOwner? : Authority.Owner → Option ObjectId
  | .objectOwner owner => some owner
  | .addressOwner _ | .shared _ | .immutable => none

/-- The object that the last transfer of an object makes its owner. -/
def ownerAfter (transfers : Transfers) (id : ObjectId) : Option ObjectId :=
  (transfers.reverse.find? fun transfer => transfer.1 = id).bind fun transfer => objectOwner? transfer.2

def OwnedBy (owners : OwnerMap) (a b : ObjectId) : Prop := owners a = some b

def Circular (owners : OwnerMap) : Prop := ∃ a, TransGen (OwnedBy owners) a a

/-- With enough fuel the check ends, and it fails exactly under the condition. -/
def FailsIff (check : ℕ → Option (Except ExecutionErrorKind Unit)) (condition : Prop) : Prop :=
  ∃ bound result, (∀ fuel ≥ bound, check fuel = some result) ∧ ((∃ e, result = .error e) ↔ condition)

variable {owners : OwnerMap} {id a b v : ObjectId} {done : Transfers}

lemma ownerAfter_concat (recipient : Authority.Owner) :
    ownerAfter (done ++ [(id, recipient)]) = update (ownerAfter done) id (objectOwner? recipient) := by
  funext a
  unfold ownerAfter
  rw [reverse_append, reverse_singleton, singleton_append, find?_cons, update_apply]
  by_cases h : id = a
  · simp [h]
  · simp [h, Ne.symm h]

lemma OwnedBy.of_update {owner : Option ObjectId} (h : OwnedBy (update owners id owner) a b) :
    OwnedBy owners a b ∨ a = id ∧ owner = some b := by
  unfold OwnedBy at h
  rw [update_apply] at h
  split_ifs at h with ha
  · exact .inr ⟨ha, h⟩
  · exact .inl h

lemma transGen_of_insert (h : TransGen (OwnedBy (update owners id (some v))) a b) :
    TransGen (OwnedBy owners) a b ∨ ReflTransGen (OwnedBy owners) a id ∧
      ReflTransGen (OwnedBy owners) v b := by
  induction h with
  | single hlast =>
    rcases hlast.of_update with hr | ⟨rfl, ⟨⟩⟩
    · exact .inl (.single hr)
    · exact .inr ⟨.refl, .refl⟩
  | tail _ hlast ih =>
    rcases hlast.of_update with hr | ⟨rfl, ⟨⟩⟩
    · exact ih.imp (·.tail hr) (.imp_right (·.tail hr))
    · exact .inr ⟨ih.elim TransGen.to_reflTransGen And.left, .refl⟩

lemma circular_insert_iff (hid : owners id = none) (hacyc : ¬ Circular owners) :
    Circular (update owners id (some v)) ↔ ReflTransGen (OwnedBy owners) v id := by
  constructor
  · rintro ⟨a, ha⟩
    obtain ⟨hxu, hvx⟩ := (transGen_of_insert ha).resolve_left fun h => hacyc ⟨a, h⟩
    exact hvx.trans hxu
  · intro hv
    refine ⟨id, .head' (update_self id _ owners) (ReflTransGen.mono (fun x y hxy => ?_) v id hv)⟩
    have hx : x ≠ id := fun h => by simp [OwnedBy, h, hid] at hxy
    exact (update_of_ne hx _ _).trans hxy

/-- Without a cycle the inner loop ends, and it fails exactly when it meets the object. -/
lemma followOwners_failsIff (hacyc : ¬ Circular owners) (id cur : ObjectId) :
    FailsIff (followOwners owners id · cur) (ReflTransGen (OwnedBy owners) cur id) := by
  -- There are finitely many objects, so without a cycle the owners of an object come to an end.
  have hwf : WellFounded fun b a => TransGen (OwnedBy owners) a b :=
    haveI : IsTrans ObjectId fun b a =>
      TransGen (OwnedBy owners) a b := ⟨fun _ _ _ hba hcb => hcb.trans hba⟩
    haveI : Std.Irrefl fun b a => TransGen (OwnedBy owners) a b := ⟨not_exists.mp hacyc⟩
    Finite.wellFounded_of_trans_of_irrefl _
  induction cur using hwf.induction with
  | h cur ih =>
    rw [ReflTransGen.cases_head_iff]
    by_cases hcur : cur = id
    · refine ⟨1, .error (.circularObjectOwnership cur), fun fuel hfuel => ?_, by simp [hcur]⟩
      obtain ⟨fuel, rfl⟩ := Nat.exists_eq_add_of_le' hfuel
      exact if_pos hcur
    · cases hget : owners cur with
      | none =>
        refine ⟨1, .ok (), fun fuel hfuel => ?_, by simp [hcur, OwnedBy, hget]⟩
        obtain ⟨fuel, rfl⟩ := Nat.exists_eq_add_of_le' hfuel
        simp [followOwners, hcur, hget]
      | some parent =>
        obtain ⟨bound, result, hends, hiff⟩ := ih parent (.single hget)
        refine ⟨bound + 1, result, fun fuel hfuel => ?_, by simp [hiff, hcur, OwnedBy, hget]⟩
        obtain ⟨k, rfl⟩ := Nat.exists_eq_add_of_le' hfuel
        simp only [followOwners, if_neg hcur, hget]
        exact hends _ (Nat.le_add_left bound k)

/-- The loop over the transfers, after those in `done` have been accepted. -/
lemma checkTransfers_failsIff (transfers : Transfers)
    (hdone : ∀ before, before <+: done → ¬ Circular (ownerAfter before)) :
    FailsIff (checkTransfers · (ownerAfter done) transfers)
      (∃ before, before <+: done ++ transfers ∧ Circular (ownerAfter before)) := by
  induction transfers generalizing done with
  | nil =>
    refine ⟨0, .ok (), fun fuel _ => rfl, iff_of_false (by simp) ?_⟩
    rintro ⟨before, hbefore, hcircular⟩
    exact hdone before (append_nil done ▸ hbefore) hcircular
  | cons transfer transfers ih =>
    obtain ⟨id, recipient⟩ := transfer
    rw [append_cons]
    have hnext : ¬ Circular (ownerAfter (done ++ [(id, recipient)])) →
      FailsIff (checkTransfers · (ownerAfter (done ++ [(id, recipient)])) transfers)
        (∃ before, before <+: done ++ [(id, recipient)] ++ transfers ∧
          Circular (ownerAfter before)) := by
      intro hnot
      refine ih fun before hbefore => ?_
      rcases prefix_concat_iff.mp hbefore with rfl | hbefore
      · exact hnot
      · exact hdone before hbefore
    rw [ownerAfter_concat] at hnext
    have hremoved : ¬ Circular (update (ownerAfter done) id none) := by
      rintro ⟨a, ha⟩
      exact hdone done prefix_rfl ⟨a,
        TransGen.mono (fun x y hxy => hxy.of_update.resolve_right (by simp)) a a ha⟩
    cases recipient with
    | addressOwner _ | shared _ | immutable => exact hnext hremoved
    | objectOwner newOwner =>
      have hcycle := circular_insert_iff (v := newOwner) (update_self id none (ownerAfter done)) hremoved
      rw [update_idem] at hcycle
      obtain ⟨bound, result, hends, hiff⟩ := followOwners_failsIff hremoved id newOwner
      cases result with
      | error e =>
        have hcircular : Circular (ownerAfter (done ++ [(id, .objectOwner newOwner)])) := by
          rw [ownerAfter_concat]
          exact hcycle.mpr (hiff.mp ⟨e, rfl⟩)
        refine ⟨bound, .error e, fun fuel hfuel => ?_,
          iff_of_true ⟨e, rfl⟩ ⟨_, prefix_append _ _, hcircular⟩⟩
        simp only [checkTransfers, hends fuel hfuel]
      | ok u =>
        obtain ⟨bound', result, hends', hiff'⟩ :=
          hnext fun hcircular => by simpa using hiff.mpr (hcycle.mp hcircular)
        refine ⟨max bound bound', result, fun fuel hfuel => ?_, hiff'⟩
        simp only [checkTransfers, hends fuel (le_of_max_le_left hfuel), update_idem]
        exact hends' fuel (le_of_max_le_right hfuel)

/-- The check ends on every list of transfers, and it fails exactly when after some of them an
object owns itself through a chain of owners. -/
theorem checkCircularOwnership_exact (transfers : Transfers) :
    ∃ bound result, (∀ fuel ≥ bound, checkCircularOwnership fuel transfers = some result) ∧
      ((∃ e, result = .error e) ↔ ∃ before, before <+: transfers ∧ Circular (ownerAfter before)) := by
  refine @checkTransfers_failsIff [] transfers fun before hbefore ⟨a, ha⟩ => ?_
  obtain rfl := prefix_nil.mp hbefore
  obtain ⟨b, hstep, -⟩ := TransGen.head'_iff.mp ha
  cases hstep

end SuiProofs.Execution.CircularOwnership

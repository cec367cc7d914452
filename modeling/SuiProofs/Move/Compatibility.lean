import SuiProofs.Library.Ordered

/-! Models `compatibility.rs` of `move-binary-format` on the normalized modules of
`normalized.rs`. -/

namespace SuiProofs.Move.Normalized

open List Library
open Std (TreeMap)

inductive Ability where
  | copy
  | drop
  | store
  | key
deriving DecidableEq

abbrev AbilitySet := Finset Ability

inductive Visibility where
  | private_
  | public_
  | friend
deriving DecidableEq

structure DatatypeTyParameter where
  constraints : AbilitySet
  isPhantom : Bool
deriving DecidableEq

structure Field (Ty : Type) where
  name : ℕ
  type : Ty
deriving DecidableEq

structure Struct (Ty : Type) where
  abilities : AbilitySet
  typeParameters : List DatatypeTyParameter
  fields : List (Field Ty)
deriving DecidableEq

structure Variant (Ty : Type) where
  name : ℕ
  fields : List (Field Ty)
deriving DecidableEq

structure Enum (Ty : Type) where
  abilities : AbilitySet
  typeParameters : List DatatypeTyParameter
  variants : List (Variant Ty)

structure Function (Ty Code : Type) where
  visibility : Visibility
  isEntry : Bool
  typeParameters : List AbilitySet
  parameters : List Ty
  return_ : List Ty
  code : List Code
deriving DecidableEq

/-- Dependencies and constants are left out. -/
structure Module (Ty Code : Type) where
  fileFormatVersion : ℕ
  address : ℕ
  name : ℕ
  friends : List ℕ
  structs : TreeMap ℕ (Struct Ty)
  enums : TreeMap ℕ (Enum Ty)
  functions : TreeMap ℕ (Function Ty Code)

inductive StatusCode where
  | backwardIncompatibleModuleUpdate

inductive InclusionCheck where
  | subset
  | equal
deriving DecidableEq

abbrev incompatible : Except StatusCode Unit := .error .backwardIncompatibleModuleUpdate

variable {Ty Code : Type}

namespace InclusionCheck

variable [DecidableEq Ty] [DecidableEq Code]

def includesEnum (self : InclusionCheck) (oldEnum newEnum : Enum Ty) : Bool :=
  oldEnum.abilities = newEnum.abilities ∧ oldEnum.typeParameters = newEnum.typeParameters ∧
  ¬ newEnum.variants.length < oldEnum.variants.length ∧
    oldEnum.variants.length = newEnum.variants.length ∧
  ¬ (self = equal ∧ oldEnum.variants.length ≠ newEnum.variants.length) ∧
  ∀ pair ∈ oldEnum.variants.zip newEnum.variants, pair.1 = pair.2

def check (self : InclusionCheck) (oldModule newModule : Module Ty Code) : Except StatusCode Unit :=
  if oldModule.address ≠ newModule.address ∨ oldModule.name ≠ newModule.name ∨
    newModule.fileFormatVersion < oldModule.fileFormatVersion then
    incompatible
  else if self = equal ∧ (oldModule.structs.size ≠ newModule.structs.size ∨
    oldModule.enums.size ≠ newModule.enums.size ∨
      oldModule.functions.size ≠ newModule.functions.size ∨
        oldModule.friends.length ≠ newModule.friends.length) then
    incompatible
  else if ¬ ∀ entry ∈ oldModule.structs.toList, newModule.structs[entry.1]? =
    some entry.2 then incompatible
  else if ¬ ∀ entry ∈ oldModule.enums.toList,
    newModule.enums[entry.1]?.any (self.includesEnum entry.2) then incompatible
  else if ¬ ∀ entry ∈ oldModule.functions.toList,
    newModule.functions[entry.1]?.or newModule.functions[entry.1]? = some entry.2 then
    incompatible
  else .ok ()

lemma includesEnum_iff {self : InclusionCheck} {oldEnum newEnum : Enum Ty} :
    self.includesEnum oldEnum newEnum = true ↔ newEnum = oldEnum := by
  unfold includesEnum
  rw [decide_eq_true_iff]
  constructor
  · rintro ⟨habilities, hparameters, -, hlen, -, hall⟩
    have hvariants : oldEnum.variants = newEnum.variants := by
      rw [← forall₂_eq_eq_eq, forall₂_iff_zip]
      exact ⟨hlen, fun hmem => hall _ hmem⟩
    cases oldEnum
    cases newEnum
    simp_all
  · rintro rfl
    refine ⟨rfl, rfl, lt_irrefl _, rfl, fun h => h.2 rfl, fun pair hpair => ?_⟩
    exact (forall₂_iff_zip.mp (forall₂_refl newEnum.variants)).2 hpair

end InclusionCheck

/-- Every definition of the old map is in the new one, unchanged. -/
def Included {V : Type} (old new : TreeMap ℕ V) : Prop :=
  ∀ entry ∈ old.toList, new[entry.1]? = some entry.2

lemma equiv_iff_included {V : Type} {old new : TreeMap ℕ V} :
    old.Equiv new ↔ old.size = new.size ∧ Included old new := by
  constructor
  · intro h
    refine ⟨h.size_eq, fun entry hentry => ?_⟩
    rw [← h.getElem?_eq, ← TreeMap.mem_toList_iff_getElem?_eq_some]
    exact hentry
  · rintro ⟨hsize, hall⟩
    have hnodup : old.toList.Nodup :=
      .of_map Prod.fst (TreeMap.map_fst_toList_eq_keys ▸ TreeMap.nodup_keys)
    refine .of_toList_perm ((subperm_of_subset hnodup fun entry hentry => ?_).perm_of_length_le ?_)
    · exact TreeMap.mem_toList_iff_getElem?_eq_some.mpr (hall entry hentry)
    · rw [TreeMap.length_toList, TreeMap.length_toList, hsize]

variable {old new : Module Ty Code}

def SameHeader (old new : Module Ty Code) : Prop :=
  old.address = new.address ∧ old.name = new.name ∧ old.fileFormatVersion ≤ new.fileFormatVersion

lemma ite_incompatible_eq_ok {p : Prop} [Decidable p] {x : Except StatusCode Unit} :
    (if p then incompatible else x) = .ok () ↔ ¬ p ∧ x = .ok () := by
  split_ifs with h <;> simp [h]

variable [DecidableEq Ty] [DecidableEq Code]

lemma InclusionCheck.check_eq_ok_iff {self : InclusionCheck} :
    self.check old new = .ok () ↔ SameHeader old new ∧
    (self = equal → old.structs.size = new.structs.size ∧ old.enums.size = new.enums.size ∧
      old.functions.size = new.functions.size ∧
      old.friends.length = new.friends.length) ∧
    Included old.structs new.structs ∧ Included old.enums new.enums ∧
      Included old.functions new.functions := by
  have henum : ∀ e : Option (Enum Ty), ∀ e', e.any (self.includesEnum e') = true ↔ e = some e' := by
    intro e e'
    cases e with
    | none => simp
    | some e => simp [includesEnum_iff]
  simp only [check, ite_incompatible_eq_ok, henum, Option.or_self, not_or, not_and, not_not,
    not_lt, and_true]
  rfl

/-- Both checks are exact unless the modules differ in their friends only, and not in the
number of these. -/
theorem inclusionCheck_exact_iff (old new : Module Ty Code) :
    (InclusionCheck.equal.check old new = .ok () ↔
      SameHeader old new ∧ old.structs.Equiv new.structs ∧ old.enums.Equiv new.enums ∧
      old.functions.Equiv new.functions ∧ old.friends = new.friends) ∧
    (InclusionCheck.subset.check old new = .ok () ↔
      SameHeader old new ∧ Included old.structs new.structs ∧ Included old.enums new.enums ∧
      Included old.functions new.functions) ↔
    (SameHeader old new ∧ old.structs.Equiv new.structs ∧ old.enums.Equiv new.enums ∧
      old.functions.Equiv new.functions ∧
      old.friends.length = new.friends.length → old.friends = new.friends) := by
  simp only [InclusionCheck.check_eq_ok_iff, equiv_iff_included]
  have hcount : old.friends = new.friends → old.friends.length = new.friends.length := congrArg length
  constructor
  · rintro ⟨hequal, -⟩ h
    tauto
  · intro hfriends
    refine ⟨?_, by simp⟩
    tauto

/-- A module with a struct and some friends. -/
def withFriends (friends : List ℕ) : Module Unit Unit :=
  ⟨6, 1, 0, friends, (∅ : TreeMap ℕ (Struct Unit)).insert 0 ⟨{.copy}, [], [⟨0, ()⟩]⟩, ∅, ∅⟩

/-- One friend is exchanged for another, which is not noticed. -/
theorem inclusionCheck_misses_friend :
    InclusionCheck.equal.check (withFriends [1]) (withFriends [2]) = .ok () ∧
      (withFriends [1]).friends ≠ (withFriends [2]).friends :=
  ⟨rfl, by decide⟩

end SuiProofs.Move.Normalized

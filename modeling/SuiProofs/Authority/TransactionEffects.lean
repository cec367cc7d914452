import SuiProofs.Authority.Base

/-! Models the object changes of `TransactionEffectsV2`, and what they write to the object store. -/

namespace SuiProofs.Authority

inductive Owner where
  | addressOwner (address : ObjectId)
  | objectOwner (address : ObjectId)
  | shared (initialSharedVersion : SequenceNumber)
  | immutable
deriving DecidableEq, Repr

namespace Owner

def isShared : Owner → Bool
  | shared _ => true
  | _ => false

def isImmutable : Owner → Bool
  | immutable => true
  | _ => false

def isAddressOwned : Owner → Bool
  | addressOwner _ => true
  | _ => false

end Owner

inductive ObjectIn where
  | notExist
  | exist (version : SequenceNumber) (digest : ObjectDigest) (owner : Owner)
deriving DecidableEq, Repr

def ObjectIn.versionDigest : ObjectIn → Option (SequenceNumber × ObjectDigest)
  | notExist => none
  | exist version digest _ => some (version, digest)

inductive ObjectOut where
  | notExist
  | objectWrite (digest : ObjectDigest) (owner : Owner)
  | packageWrite (version : SequenceNumber) (digest : ObjectDigest)
deriving DecidableEq, Repr

inductive IDOperation where
  | none
  | created
  | deleted
deriving DecidableEq, Repr

structure EffectsObjectChange where
  inputState : ObjectIn
  outputState : ObjectOut
  idOperation : IDOperation
deriving DecidableEq, Repr

def isSystemPackage (id : ObjectId) : Bool := id ∈ [1, 2, 3, 0xb, 0xdee9]

structure TransactionEffectsV2 where
  lamportVersion : SequenceNumber
  changedObjects : List (ObjectId × EffectsObjectChange)
  gasObjectIndex : Option ℕ
  unchangedSharedObjects : List ObjectId
deriving DecidableEq, Repr

namespace TransactionEffectsV2

variable (fx : TransactionEffectsV2)

def oldObjectMetadata : List (ObjectRef × Owner) :=
  fx.changedObjects.filterMap fun e =>
    match e.2.inputState with
    | .exist version digest owner => some (⟨e.1, version, digest⟩, owner)
    | .notExist => none

def created (fx : TransactionEffectsV2) : List (ObjectRef × Owner) :=
  fx.changedObjects.filterMap fun e =>
    match e.2.inputState, e.2.outputState, e.2.idOperation with
    | .notExist, .objectWrite digest owner, .created => some (⟨e.1, fx.lamportVersion, digest⟩, owner)
    | .notExist, .packageWrite version digest, .created => some (⟨e.1, version, digest⟩, .immutable)
    | _, _, _ => none

def mutated : List (ObjectRef × Owner) :=
  fx.changedObjects.filterMap fun e =>
    match e.2.inputState, e.2.outputState with
    | .exist _ _ _, .objectWrite digest owner => some (⟨e.1, fx.lamportVersion, digest⟩, owner)
    | .exist _ _ _, .packageWrite version digest => some (⟨e.1, version, digest⟩, .immutable)
    | _, _ => none

def unwrapped : List (ObjectRef × Owner) :=
  fx.changedObjects.filterMap fun e =>
    match e.2.inputState, e.2.outputState, e.2.idOperation with
    | .notExist, .objectWrite digest owner, .none => some (⟨e.1, fx.lamportVersion, digest⟩, owner)
    | _, _, _ => none

inductive WriteKind where
  | mutate
  | create
  | unwrap
deriving DecidableEq, Repr

def allChangedObjects : List (ObjectRef × Owner × WriteKind) :=
  (fx.mutated.map fun e => (e.1, e.2, .mutate)) ++ (fx.created.map fun e => (e.1, e.2, .create)) ++
    fx.unwrapped.map fun e => (e.1, e.2, .unwrap)

/-- The owner of the gas object; nothing if the index is out of range or it is not written. -/
def gasObjectOwner : Option Owner :=
  match fx.gasObjectIndex with
  | none => some (.addressOwner 0)
  | some index =>
    match fx.changedObjects[index]? with
    | some (_, ⟨_, .objectWrite _ owner, _⟩) => some owner
    | _ => none

def checkChange (lamportVersion : SequenceNumber) (id : ObjectId)
    (change : EffectsObjectChange) : Bool :=
  match change.inputState, change.outputState, change.idOperation with
  | .notExist, .notExist, .created => true
  | .notExist, .notExist, .deleted => true
  | .notExist, .objectWrite _ owner, .none => !owner.isShared
  | .notExist, .objectWrite _ _, .created => true
  | .notExist, .packageWrite _ _, .created => true
  | .exist oldVersion _ oldOwner, .notExist, .none =>
      oldVersion < lamportVersion && !oldOwner.isShared && !oldOwner.isImmutable
  | .exist oldVersion _ oldOwner, .notExist, .deleted =>
      oldVersion < lamportVersion && !oldOwner.isImmutable
  | .exist oldVersion oldDigest oldOwner, .objectWrite newDigest newOwner, .none =>
    oldVersion < lamportVersion && oldDigest ≠ newDigest && !oldOwner.isImmutable &&
      oldOwner.isShared == newOwner.isShared
  | .exist oldVersion oldDigest oldOwner, .packageWrite newVersion newDigest, .none =>
    oldOwner.isImmutable && isSystemPackage id && oldVersion + 1 == newVersion && oldDigest ≠ newDigest
  | _, _, _ => false

def checkInvariant : Bool :=
  fx.changedObjects.all (fun e => checkChange fx.lamportVersion e.1 e.2) &&
    (fx.changedObjects.map Prod.fst ++ fx.unchangedSharedObjects).Nodup &&
    (fx.gasObjectOwner.any Owner.isAddressOwned)

end TransactionEffectsV2

inductive StoreObject where
  | value (digest : ObjectDigest)
  | wrapped
  | deleted
deriving DecidableEq, Repr

/-- The keys of the table `objects`, ordered by object and version. -/
abbrev ObjectKey := ObjectId ×ₗ SequenceNumber

abbrev ObjectTable := Std.TreeMap ObjectKey StoreObject

inductive LiveObject where
  | normal (objRef : ObjectRef)
  | wrapped (objectKey : ObjectKey)
deriving DecidableEq

namespace ObjectTable

def storeObjectToLiveObject (includeWrappedObject : Bool) (e : ObjectKey × StoreObject) :
    Option LiveObject :=
  match e.2 with
  | .value digest => some (.normal ⟨(ofLex e.1).1, (ofLex e.1).2, digest⟩)
  | .wrapped => if includeWrappedObject then some (.wrapped e.1) else none
  | .deleted => none

/-- `LiveSetIter`: an entry counts when the next one belongs to another object, or is missing. -/
def liveSetIter (includeWrappedObject : Bool) : List (ObjectKey × StoreObject) → List LiveObject
  | [] => []
  | [prev] => (storeObjectToLiveObject includeWrappedObject prev).toList
  | prev :: next :: rest =>
    if (ofLex prev.1).1 ≠ (ofLex next.1).1 then
      (storeObjectToLiveObject includeWrappedObject prev).toList ++ liveSetIter includeWrappedObject
        (next :: rest)
    else liveSetIter includeWrappedObject (next :: rest)

def iterLiveObjectSet (table : ObjectTable) (includeWrappedObject : Bool) : List LiveObject :=
  liveSetIter includeWrappedObject table.toList

def entries (table : ObjectTable) (id : ObjectId) : List (ObjectKey × StoreObject) :=
  table.toList.filter fun e => (ofLex e.1).1 = id

/-- The version and digest of an object, when the entry with the highest version is a value. -/
def live (table : ObjectTable) (id : ObjectId) : Option (SequenceNumber × ObjectDigest) :=
  (table.entries id).getLast?.bind fun e =>
    match e.2 with
    | .value digest => some ((ofLex e.1).2, digest)
    | _ => none

/-- Objects that are deleted, maybe right after they were unwrapped, or wrapped. An object that is
created and wrapped at once has never been in the store. -/
def tombstone : ObjectIn → IDOperation → Option StoreObject
  | _, .deleted => some .deleted
  | .exist _ _ _, .none => some .wrapped
  | _, _ => none

variable (lamportVersion : SequenceNumber)

def written (change : EffectsObjectChange) : Option (SequenceNumber × StoreObject) :=
  match change.outputState with
  | .objectWrite digest _ => some (lamportVersion, .value digest)
  | .packageWrite version digest => some (version, .value digest)
  | .notExist => (tombstone change.inputState change.idOperation).map fun object =>
      (lamportVersion, object)

def applyChange (table : ObjectTable) (e : ObjectId × EffectsObjectChange) :
    ObjectTable :=
  match written lamportVersion e.2 with
  | some (version, object) => table.insert (toLex (e.1, version)) object
  | none => table

def applyEffects (table : ObjectTable) (fx : TransactionEffectsV2) : ObjectTable :=
  fx.changedObjects.foldl (applyChange fx.lamportVersion) table

def applyAll (table : ObjectTable) (effects : List TransactionEffectsV2) : ObjectTable :=
  effects.foldl applyEffects table

def Matches (table : ObjectTable) (e : ObjectId × EffectsObjectChange) : Prop :=
  table.live e.1 = e.2.inputState.versionDigest

instance decidableMatches (table : ObjectTable) (e : ObjectId × EffectsObjectChange) :
    Decidable (table.Matches e) :=
  inferInstanceAs (Decidable (table.live e.1 = e.2.inputState.versionDigest))

def Admits (table : ObjectTable) (fx : TransactionEffectsV2) : Prop :=
  fx.checkInvariant = true ∧ ∀ e ∈ fx.changedObjects, table.Matches e

instance decidableAdmits (table : ObjectTable) (fx : TransactionEffectsV2) :
    Decidable (table.Admits fx) :=
  inferInstanceAs (Decidable (fx.checkInvariant = true ∧ ∀ e ∈ fx.changedObjects, table.Matches e))

def WritesAbove (table : ObjectTable) (e : ObjectId × EffectsObjectChange) : Prop :=
  ∀ w ∈ written lamportVersion e.2, ∀ old ∈ table.entries e.1, (ofLex old.1).2 < w.1

instance decidableWritesAbove (lamportVersion : SequenceNumber) (table : ObjectTable)
    (e : ObjectId × EffectsObjectChange) : Decidable (WritesAbove lamportVersion table e) :=
  inferInstanceAs
    (Decidable (∀ w ∈ written lamportVersion e.2, ∀ old ∈ table.entries e.1, (ofLex old.1).2 < w.1))

/-- An object that is not live is written at a version above those it has in the table. -/
def Raises (table : ObjectTable) (fx : TransactionEffectsV2) : Prop :=
  ∀ e ∈ fx.changedObjects, e.2.inputState = .notExist → WritesAbove fx.lamportVersion table e

instance decidableRaises (table : ObjectTable) (fx : TransactionEffectsV2) :
    Decidable (table.Raises fx) :=
  inferInstanceAs
    (Decidable (∀ e ∈ fx.changedObjects, e.2.inputState = .notExist →
      WritesAbove fx.lamportVersion table e))

/-- All effects of a list satisfy the condition when their turn comes. -/
def Along (P : ObjectTable → TransactionEffectsV2 → Prop) :
    ObjectTable → List TransactionEffectsV2 → Prop
  | _, [] => True
  | table, fx :: effects => P table fx ∧ Along P (table.applyEffects fx) effects

instance decidableAlong (P : ObjectTable → TransactionEffectsV2 → Prop)
    [∀ table, DecidablePred (P table)] :
    ∀ table effects, Decidable (Along P table effects)
  | _, [] => .isTrue trivial
  | table, fx :: effects => haveI := decidableAlong P (table.applyEffects fx) effects; instDecidableAnd

end ObjectTable

end SuiProofs.Authority

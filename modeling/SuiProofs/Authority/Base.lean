import SuiProofs.Library.Ordered

/-! Base types of `sui-types`. Digests and object ids are the big-endian numbers of their
32 bytes. -/

namespace SuiProofs.Authority

abbrev ObjectId := Fin (2 ^ 256)
abbrev ObjectDigest := Fin (2 ^ 256)
abbrev TransactionDigest := Fin (2 ^ 256)

instance digestNeZero : NeZero (2 ^ 256) := ⟨by decide⟩

instance digestLawfulBEq : LawfulBEq TransactionDigest := inferInstance

abbrev SequenceNumber := ℕ

structure ObjectRef where
  objectId : ObjectId
  version : SequenceNumber
  digest : ObjectDigest
deriving DecidableEq, Repr

def ObjectRef.key (r : ObjectRef) : ObjectId ×ₗ SequenceNumber ×ₗ ObjectDigest :=
  toLex (r.objectId, toLex (r.version, r.digest))

lemma ObjectRef.key_injective : Function.Injective ObjectRef.key := by
  rintro ⟨i, v, d⟩ ⟨i', v', d'⟩ h
  simpa [ObjectRef.key] using h

instance : LinearOrder ObjectRef := LinearOrder.lift' ObjectRef.key ObjectRef.key_injective

namespace SequenceNumber

def max : SequenceNumber := 0x7fffffffffffffff

/-- Versions assigned to the shared objects of a cancelled transaction. -/
def cancelledRead : SequenceNumber := max + 1

def congested : SequenceNumber := max + 2

def isCancelled (version : SequenceNumber) : Bool := version = cancelledRead ∨ version = congested

end SequenceNumber

inductive InputKey where
  | versionedObject (id : ObjectId) (version : SequenceNumber)
  | package (id : ObjectId)
deriving DecidableEq, Repr

namespace InputKey

def id : InputKey → ObjectId
  | versionedObject id _ => id
  | package id => id

def version : InputKey → Option SequenceNumber
  | versionedObject _ version => some version
  | package _ => none

def isCancelled : InputKey → Bool
  | versionedObject _ version => SequenceNumber.isCancelled version
  | package _ => false

/-- The derived order: versioned objects come before packages. -/
def key : InputKey → ℕ ×ₗ ObjectId ×ₗ SequenceNumber
  | versionedObject id version => toLex (0, toLex (id, version))
  | package id => toLex (1, toLex (id, 0))

lemma key_injective : Function.Injective key := by
  intro k k' h
  cases k <;> cases k' <;> simp_all [key]

instance : LinearOrder InputKey := LinearOrder.lift' key key_injective

end InputKey

inductive InputObjectKind where
  | movePackage (id : ObjectId)
  | immOrOwnedMoveObject (objRef : ObjectRef)
  | sharedMoveObject (id : ObjectId) (initialSharedVersion : SequenceNumber) (isMutable : Bool)
deriving DecidableEq, Repr

structure ExecutableTransaction where
  digest : TransactionDigest
  epoch : ℕ
  inputObjects : List InputObjectKind
  receivingObjects : List ObjectRef
deriving DecidableEq, Repr

end SuiProofs.Authority

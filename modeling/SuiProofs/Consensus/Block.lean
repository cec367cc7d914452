import SuiProofs.Library.Ordered

/-! Data model of `block.rs`. A digest is the big-endian number of its 32 bytes, so that the
lexicographic order on byte arrays is the order of the numbers. -/

namespace SuiProofs.Consensus

abbrev BlockDigest := Fin (2 ^ 256)
abbrev CommitDigest := Fin (2 ^ 256)

instance digestNeZero : NeZero (2 ^ 256) := ⟨by decide⟩

def genesisRound : ℕ := 0

/-- Position of blocks in the DAG: no, one or several blocks of an authority at a round. -/
structure Slot where
  round : ℕ
  authority : ℕ
deriving DecidableEq, Repr

structure BlockRef where
  round : ℕ
  author : ℕ
  digest : BlockDigest
deriving DecidableEq, Repr

/-- The derived order of the source compares round, then author, then digest. -/
def BlockRef.key (r : BlockRef) : ℕ ×ₗ ℕ ×ₗ BlockDigest :=
  toLex (r.round, toLex (r.author, r.digest))

lemma BlockRef.key_injective : Function.Injective BlockRef.key := by
  rintro ⟨r, a, d⟩ ⟨r', a', d'⟩ h
  simpa [BlockRef.key] using h

instance : LinearOrder BlockRef := LinearOrder.lift' BlockRef.key BlockRef.key_injective

lemma BlockRef.round_le_of_le {r s : BlockRef} (h : r ≤ s) : r.round ≤ s.round := by
  have hk : r.key ≤ s.key := h
  rcases Prod.Lex.toLex_le_toLex.mp hk with hlt | ⟨heq, _⟩
  · exact hlt.le
  · exact heq.le

def BlockRef.slot (r : BlockRef) : Slot := ⟨r.round, r.author⟩

structure CommitRef where
  index : ℕ
  digest : CommitDigest
deriving DecidableEq, Repr

def CommitRef.key (r : CommitRef) : ℕ ×ₗ CommitDigest := toLex (r.index, r.digest)

lemma CommitRef.key_injective : Function.Injective CommitRef.key := by
  rintro ⟨i, d⟩ ⟨i', d'⟩ h
  simpa [CommitRef.key] using h

instance : LinearOrder CommitRef := LinearOrder.lift' CommitRef.key CommitRef.key_injective

abbrev CommitVote := CommitRef

structure Transaction where
  data : List UInt8
deriving DecidableEq, Repr

/-- `BlockV1`, without the misbehavior reports, which nothing reads. -/
structure Block where
  epoch : ℕ
  round : ℕ
  author : ℕ
  timestampMs : ℕ
  ancestors : List BlockRef
  transactions : List Transaction
  commitVotes : List CommitVote
deriving DecidableEq, Repr

structure SignedBlock extends Block where
  signature : List UInt8
deriving DecidableEq, Repr

/-- A verified block caches the digest of its signed content. -/
structure VerifiedBlock extends SignedBlock where
  digest : BlockDigest
deriving DecidableEq, Repr

namespace VerifiedBlock

def reference (b : VerifiedBlock) : BlockRef := ⟨b.round, b.author, b.digest⟩

def slot (b : VerifiedBlock) : Slot := ⟨b.round, b.author⟩

@[simp] lemma reference_round (b : VerifiedBlock) : b.reference.round = b.round := rfl

@[simp] lemma reference_author (b : VerifiedBlock) : b.reference.author = b.author := rfl

@[simp] lemma slot_round (b : VerifiedBlock) : b.slot.round = b.round := rfl

end VerifiedBlock

end SuiProofs.Consensus

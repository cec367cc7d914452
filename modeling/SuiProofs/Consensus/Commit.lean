import SuiProofs.Consensus.Committee

/-!
Data model of `commit.rs`. A vector indexed by the authorities is a function of the authority index.
-/

namespace SuiProofs.Consensus

def genesisCommitIndex : ℕ := 0

def defaultWaveLength : ℕ := 3

/-- `CommitV1`: the summary of a committed sub-dag. -/
structure Commit where
  index : ℕ
  previousDigest : CommitDigest
  timestampMs : ℕ
  leader : BlockRef
  blocks : List BlockRef
deriving DecidableEq, Repr

/-- A commit produced locally or certified by a quorum, with its cached digest. -/
structure TrustedCommit extends Commit where
  digest : CommitDigest
deriving DecidableEq, Repr

def TrustedCommit.reference (c : TrustedCommit) : CommitRef := ⟨c.index, c.digest⟩

@[simp] lemma TrustedCommit.reference_index (c : TrustedCommit) : c.reference.index = c.index := rfl

/-- A range of commit indices: `start` inclusive, `stop` exclusive. -/
structure CommitRange where
  start : ℕ
  stop : ℕ
deriving DecidableEq, Repr

structure ReputationScores where
  scoresPerAuthority : List ℕ
  commitRange : CommitRange
deriving DecidableEq, Repr

/-- What can be regenerated from past commits, stored to shorten recovery. -/
structure CommitInfo where
  committedRounds : ℕ → ℕ
  reputationScores : ReputationScores

structure CommittedSubDag where
  leader : BlockRef
  blocks : List VerifiedBlock
  timestampMs : ℕ
  commitRef : CommitRef
  reputationScoresDesc : List (ℕ × ℕ)
deriving DecidableEq, Repr

def CommittedSubDag.new (leader : BlockRef) (blocks : List VerifiedBlock) (timestampMs : ℕ)
    (commitRef : CommitRef) : CommittedSubDag :=
  ⟨leader, blocks, timestampMs, commitRef, []⟩

def sortSubDagBlocks (blocks : List VerifiedBlock) : List VerifiedBlock :=
  blocks.insertionSort (fun a b => a.round < b.round ∨ a.round = b.round ∧ a.author ≤ b.author)

inductive Decision where
  | direct
  | indirect
deriving DecidableEq, Repr

inductive LeaderStatus where
  | commit (block : VerifiedBlock)
  | skip (slot : Slot)
  | undecided (slot : Slot)
deriving DecidableEq, Repr

inductive DecidedLeader where
  | commit (block : VerifiedBlock)
  | skip (slot : Slot)
deriving DecidableEq, Repr

namespace LeaderStatus

def round : LeaderStatus → ℕ
  | commit block => block.round
  | skip slot => slot.round
  | undecided slot => slot.round

def isDecided : LeaderStatus → Bool
  | commit _ => true
  | skip _ => true
  | undecided _ => false

def intoDecidedLeader : LeaderStatus → Option DecidedLeader
  | commit block => some (.commit block)
  | skip slot => some (.skip slot)
  | undecided _ => none

end LeaderStatus

namespace DecidedLeader

def slot : DecidedLeader → Slot
  | commit block => block.slot
  | skip slot => slot

def intoCommittedBlock : DecidedLeader → Option VerifiedBlock
  | commit block => some block
  | skip _ => none

end DecidedLeader

end SuiProofs.Consensus

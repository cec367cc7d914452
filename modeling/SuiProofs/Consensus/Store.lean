import SuiProofs.Library.Exec
import SuiProofs.Consensus.Context

/-! The tables of `consensus/core/src/storage`. -/

namespace SuiProofs.Consensus

open Library Std

structure WriteBatch where
  blocks : List VerifiedBlock
  commits : List TrustedCommit
  commitInfo : List (CommitRef × CommitInfo)

structure Store where
  blocks : TreeMap BlockRef VerifiedBlock
  /-- Secondary index of the blocks, by author first. -/
  digestsByAuthorities : TreeSet (ℕ ×ₗ ℕ ×ₗ BlockDigest)
  commits : TreeMap CommitRef TrustedCommit
  commitInfo : TreeMap CommitRef CommitInfo
  /-- The votes of the blocks, by the commit they are for. -/
  commitVotes : TreeSet (CommitRef ×ₗ BlockRef)

def BlockRef.authorKey (r : BlockRef) : ℕ ×ₗ ℕ ×ₗ BlockDigest :=
  toLex (r.author, toLex (r.round, r.digest))

def BlockRef.ofAuthorKey (k : ℕ ×ₗ ℕ ×ₗ BlockDigest) : BlockRef :=
  ⟨(ofLex (ofLex k).2).1, (ofLex k).1, (ofLex (ofLex k).2).2⟩

@[simp] lemma BlockRef.authorKey_ofAuthorKey (k : ℕ ×ₗ ℕ ×ₗ BlockDigest) :
    (BlockRef.ofAuthorKey k).authorKey = k := rfl

namespace Store

def empty : Store := ⟨∅, ∅, ∅, ∅, ∅⟩

variable (s : Store)

def write (batch : WriteBatch) : Store where
  blocks := batch.blocks.foldl (fun m b => m.insert b.reference b) s.blocks
  digestsByAuthorities :=
    batch.blocks.foldl (fun t b => t.insert b.reference.authorKey) s.digestsByAuthorities
  commits := batch.commits.foldl (fun m c => m.insert c.reference c) s.commits
  commitInfo := batch.commitInfo.foldl (fun m i => m.insert i.1 i.2) s.commitInfo
  commitVotes := batch.blocks.foldl
    (fun t b => b.commitVotes.foldl (fun t vote => t.insert (toLex (vote, b.reference))) t) s.commitVotes

def readBlock (reference : BlockRef) : Except Panic VerifiedBlock :=
  match s.blocks[reference]? with
  | some block => .ok block
  | none => .error (.blockNotFound reference)

def scanBlocksByAuthor (author startRound : ℕ) : Except Panic (List VerifiedBlock) :=
  let refs := (s.digestsByAuthorities.toList.map BlockRef.ofAuthorKey).filter
    (fun r => r.author = author ∧ startRound ≤ r.round)
  refs.mapM s.readBlock

def readLastCommit : Option TrustedCommit :=
  (lastPair? s.commits).map Prod.snd

def scanCommits (range : CommitRange) : List TrustedCommit :=
  (s.commits.toList.filter (fun p => range.start ≤ p.1.index ∧ p.1.index < range.stop)).map Prod.snd

/-- The blocks with a vote on some commit of the index, by the digest voted for. -/
def readCommitVotes (commitIndex : ℕ) : List BlockRef :=
  (s.commitVotes.toList.filter (fun v => (ofLex v).1.index = commitIndex)).map (fun v => (ofLex v).2)

def readLastCommitInfo : Option (CommitRef × CommitInfo) := lastPair? s.commitInfo

def loadCommittedSubdag (commit : TrustedCommit) : Except Panic CommittedSubDag := do
  let blocks ← commit.blocks.mapM s.readBlock
  if blocks.any (fun b => b.reference = commit.leader) then
    return .new commit.leader blocks commit.timestampMs commit.reference
  else
    throw (.leaderNotInSubDag commit.leader)

end Store

end SuiProofs.Consensus

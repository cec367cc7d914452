import SuiProofs.Consensus.Commit

/-! Models `context.rs`, with the parameters and protocol options the core reads. Panics are values,
so that a theorem can say which of them cannot happen. -/

namespace SuiProofs.Consensus

structure Context where
  ownIndex : ℕ
  committee : Committee
  dagStateCachedRounds : ℕ
  mysticetiLeaderScoringAndSchedule : Bool
  consensusBadNodesStakeThreshold : ℕ
  computeBlockDigest : SignedBlock → BlockDigest
  computeCommitDigest : Commit → CommitDigest

/-- The assertions, `expect`s and `panic!`s of the modelled code. -/
inductive Panic where
  | moreThanOneCertifiedBlock (slot : Slot)
  | blockNotFound (reference : BlockRef)
  | roundHasCommittedBlocks (round : ℕ)
  | genesisBlockNotAcceptable (reference : BlockRef)
  | authorityOutOfRange (index : ℕ)
  | timestampAheadOfLocalClock (reference : BlockRef)
  | ownSlotOccupied (reference : BlockRef)
  | commitIndexNotNext (index : ℕ)
  | commitTimestampNotMonotonic (index : ℕ)
  | unscoredSubdagsNotEmpty
  | lastCommitNotSet
  | leaderNotInSubDag (leader : BlockRef)
  | blockCommittedTwice (reference : BlockRef)
  | ancestorMismatch (expected found : BlockRef)
  | missingAncestor (block ancestor : BlockRef)
  | blockNotSuspended (reference : BlockRef)
  | dependencyNotMissing (block dependency : BlockRef)
  | noUnscoredSubdags
  | commitIndexNotContiguous (index : ℕ)
  | noUnscoredBlocks
  | scoresLengthMismatch
  | severalLeaderBlocks (slot : Slot)
  | swapThresholdOutOfRange
  | noGoodNode
  | multiLeaderSwap
  | outOfFuel
deriving DecidableEq, Repr

namespace VerifiedBlock

def newVerified (ctx : Context) (block : SignedBlock) : VerifiedBlock :=
  { block with digest := ctx.computeBlockDigest block }

end VerifiedBlock

def Block.genesisBlock (epoch author : ℕ) : Block :=
  ⟨epoch, genesisRound, author, 0, [], [], []⟩

def SignedBlock.newGenesis (block : Block) : SignedBlock := { block with signature := [] }

def genesisBlock (ctx : Context) (author : ℕ) : VerifiedBlock :=
  .newVerified ctx (.newGenesis (.genesisBlock ctx.committee.epoch author))

def genesisBlocks (ctx : Context) : List VerifiedBlock :=
  (List.range ctx.committee.size).map (genesisBlock ctx)

def genesisRefs (ctx : Context) : List BlockRef := (genesisBlocks ctx).map VerifiedBlock.reference

variable {ctx : Context} {b : VerifiedBlock}

lemma mem_genesisBlocks :
    b ∈ genesisBlocks ctx ↔ b.author < ctx.committee.size ∧ b = genesisBlock ctx b.author := by
  simp only [genesisBlocks, List.mem_map, List.mem_range]
  constructor
  · rintro ⟨a, ha, rfl⟩
    exact ⟨ha, rfl⟩
  · rintro ⟨ha, hb⟩
    exact ⟨b.author, ha, hb.symm⟩

lemma round_of_mem_genesisBlocks (h : b ∈ genesisBlocks ctx) :
    b.round = 0 := by
  rw [(mem_genesisBlocks.mp h).2]
  rfl

/-- Four authorities of equal stake, for runs on concrete blocks. Digests are readable
numbers here; they tell apart blocks of different slots or timestamps. -/
def fourAuthorities : Context where
  ownIndex := 0
  committee := ⟨0, List.replicate 4 ⟨1⟩, by decide, by decide, by decide⟩
  dagStateCachedRounds := 1
  mysticetiLeaderScoringAndSchedule := true
  consensusBadNodesStakeThreshold := 33
  computeBlockDigest b := Fin.ofNat _ (b.round * 10000 + b.author * 1000 + b.timestampMs)
  computeCommitDigest c := Fin.ofNat _ c.index

namespace fourAuthorities

def block (round author timestampMs : ℕ) (ancestors : List BlockRef) : VerifiedBlock :=
  .newVerified fourAuthorities ⟨⟨0, round, author, timestampMs, ancestors, [], []⟩, []⟩

def ref (round author : ℕ) : BlockRef :=
  ⟨round, author, Fin.ofNat _ (round * 10000 + author * 1000 + round)⟩

def links (round author : ℕ) (authors : List ℕ) : List BlockRef :=
  (author :: authors.filter (· ≠ author)).map (ref round)

def fullBlock (round author : ℕ) : VerifiedBlock :=
  block round author round (links (round - 1) author (List.range 4))

def fullRounds (n : ℕ) : List VerifiedBlock :=
  (List.range n).flatMap (fun round => (List.range 4).map (fullBlock (round + 1)))

end fourAuthorities

end SuiProofs.Consensus

import SuiProofs.Consensus.DagState
import SuiProofs.Consensus.Support

/-! Models `leader_schedule.rs` and `leader_scoring.rs`. The generators of the `rand` crate are
functions of their seed. -/

namespace SuiProofs.Consensus

open Library Std

/-- What the leader schedule draws from generators seeded by a round or a commit index. -/
structure LeaderRng where
  /-- `elect_leader_stake_based`: a weighted choice seeded by the round. -/
  electLeaderStakeBased : ℕ → ℕ → ℕ
  /-- The shuffle of the scored authorities, seeded by the commit index. -/
  shuffle : ℕ → List (ℕ × ℕ) → List (ℕ × ℕ)
  /-- The choice of a good node, seeded by the round and the leader offset. -/
  choose : ℕ → ℕ → List (ℕ × ℕ) → Option (ℕ × ℕ)

structure UnscoredSubdag where
  commitRange : CommitRange
  committedLeaders : List BlockRef
  blocks : TreeMap BlockRef VerifiedBlock

namespace UnscoredSubdag

def checkContiguous : List CommittedSubDag → Except Panic Unit
  | [] => .ok ()
  | [_] => .ok ()
  | previous :: subdag :: subdags =>
    if subdag.commitRef.index = previous.commitRef.index + 1 then checkContiguous (subdag :: subdags)
    else .error (.commitIndexNotContiguous subdag.commitRef.index)

def new (subdags : List CommittedSubDag) : Except Panic UnscoredSubdag := do
  checkContiguous subdags
  let blocks : TreeMap BlockRef VerifiedBlock :=
    (subdags.flatMap CommittedSubDag.blocks).foldl (fun m b => m.insert b.reference b) ∅
  match subdags.head?, subdags.getLast? with
  | some first, some last =>
    if blocks.isEmpty then throw .noUnscoredBlocks
    else return ⟨⟨first.commitRef.index, last.commitRef.index + 1⟩,
      subdags.map CommittedSubDag.leader, blocks⟩
  | _, _ => throw .noUnscoredSubdags

variable (s : UnscoredSubdag)

def getBlocksAtSlot (slot : Slot) : List VerifiedBlock :=
  (s.blocks.toList.filter (fun p => p.1.slot = slot)).map Prod.snd

def getBlocksAtRound (round : ℕ) : List VerifiedBlock :=
  (s.blocks.toList.filter (fun p => p.1.round = round)).map Prod.snd

/-- The block a given block supports at the leader slot; a block outside of the sub-dag ends
the search. -/
def findSupportedLeaderBlock (leaderSlot : Slot) (block : VerifiedBlock) :
    Except Panic (Option BlockRef) :=
  searchSupport leaderSlot (fun r => .ok s.blocks[r]?) (block.round + 1) block

def isVote (potentialVote leaderBlock : VerifiedBlock) : Except Panic Bool := do
  let supported ← s.findSupportedLeaderBlock leaderBlock.slot potentialVote
  return supported == some leaderBlock.reference

end UnscoredSubdag

/-- The trait `ScoringStrategy`: the scores each authority gets from one committed leader. -/
structure ScoringStrategy where
  calculateScoresForLeader : UnscoredSubdag → Slot → Except Panic (List ℕ)

/-- What the strategies share: a leader slot without a block scores nothing, one with several
blocks is an assertion failure. -/
def scoreLeaderBlock (ctx : Context) (score : UnscoredSubdag → VerifiedBlock → Except Panic (List ℕ)) :
    ScoringStrategy where
  calculateScoresForLeader subdag leaderSlot :=
    match subdag.getBlocksAtSlot leaderSlot with
    | [] => .ok (List.replicate ctx.committee.size 0)
    | [leaderBlock] => score subdag leaderBlock
    | _ => .error (.severalLeaderBlocks leaderSlot)

def voteScoringStrategy (ctx : Context) : ScoringStrategy :=
  scoreLeaderBlock ctx fun subdag leaderBlock => do
    let votes ← (subdag.getBlocksAtRound (leaderBlock.round + 1)).filterM
      (fun potentialVote => subdag.isVote potentialVote leaderBlock)
    return votes.foldl (fun scores vote => scores.modify vote.author (· + 1))
      (List.replicate ctx.committee.size 0)

/-- `ReputationScoreCalculator::new` and `calculate`. -/
def calculateReputationScores (ctx : Context) (strategy : ScoringStrategy)
    (unscoredSubdags : List CommittedSubDag) : Except Panic ReputationScores := do
  if unscoredSubdags = [] then throw .noUnscoredSubdags
  let subdag ← UnscoredSubdag.new unscoredSubdags
  let scores ← subdag.committedLeaders.foldlM (fun (total : List ℕ) leader => do
    let scores ← strategy.calculateScoresForLeader subdag leader.slot
    if scores.length ≠ total.length then throw .scoresLengthMismatch
    return List.zipWith (· + ·) total scores) (List.replicate ctx.committee.size 0)
  return ⟨scores, subdag.commitRange⟩

/-- Authorities to swap in and out of the schedule. Host names are left out. -/
structure LeaderSwapTable where
  goodNodes : List (ℕ × ℕ)
  badNodes : TreeMap ℕ ℕ
  reputationScoresDesc : List (ℕ × ℕ)
  reputationScores : ReputationScores

namespace LeaderSwapTable

def default : LeaderSwapTable := ⟨[], ∅, [], ⟨[], ⟨0, 0⟩⟩⟩

/-- The first authorities whose accumulated stake stays within the threshold. -/
def retrieveFirstNodes (ctx : Context) (stakeThreshold : ℕ) : ℕ → List (ℕ × ℕ) → List (ℕ × ℕ)
  | _, [] => []
  | stake, (authority, _) :: authorities =>
    let stake := stake + ctx.committee.stake authority
    if stake > stakeThreshold * ctx.committee.totalStake / 100 then []
    else (authority, ctx.committee.stake authority) ::
      retrieveFirstNodes ctx stakeThreshold stake authorities

def new (ctx : Context) (rng : LeaderRng) (commitIndex : ℕ) (reputationScores : ReputationScores) :
    Except Panic LeaderSwapTable :=
  let swapStakeThreshold := ctx.consensusBadNodesStakeThreshold
  if 33 < swapStakeThreshold then .error .swapThresholdOutOfRange
  else if reputationScores.scoresPerAuthority = [] then .ok default
  else if reputationScores.scoresPerAuthority.length ≠ ctx.committee.size then
    .error .scoresLengthMismatch
  else
    let authoritiesByScore := (rng.shuffle commitIndex
      (reputationScores.scoresPerAuthority.zipIdx.map (fun p => (p.2, p.1)))).insertionSort
        (fun a b => b.2 ≤ a.2)
    .ok
      { goodNodes := retrieveFirstNodes ctx swapStakeThreshold 0 authoritiesByScore
        badNodes := (retrieveFirstNodes ctx swapStakeThreshold 0 authoritiesByScore.reverse).foldl
          (fun m p => m.insert p.1 p.2) ∅
        reputationScoresDesc := authoritiesByScore
        reputationScores := reputationScores }

def swap (table : LeaderSwapTable) (rng : LeaderRng) (leader leaderRound leaderOffset : ℕ) :
    Except Panic (Option ℕ) :=
  if table.badNodes.contains leader then
    if leaderOffset ≠ 0 then .error .multiLeaderSwap
    else match rng.choose leaderRound leaderOffset table.goodNodes with
      | some (authority, _) => .ok (some authority)
      | none => .error .noGoodNode
  else .ok none

end LeaderSwapTable

structure LeaderSchedule where
  leaderSwapTable : LeaderSwapTable
  rng : LeaderRng

namespace LeaderSchedule

def electLeader (s : LeaderSchedule) (round leaderOffset : ℕ) : Except Panic ℕ := do
  let leader := s.rng.electLeaderStakeBased round leaderOffset
  let swapped ← s.leaderSwapTable.swap s.rng leader round leaderOffset
  return swapped.getD leader

end LeaderSchedule

end SuiProofs.Consensus

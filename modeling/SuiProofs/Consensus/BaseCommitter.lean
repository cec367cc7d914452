import SuiProofs.Consensus.DagState
import SuiProofs.Consensus.Support

/-! Models `base_committer.rs`: the direct and the indirect decision rule. -/

namespace SuiProofs.Consensus

open Library Std

structure BaseCommitter where
  waveLength : ℕ
  leaderOffset : ℕ
  roundOffset : ℕ
deriving DecidableEq, Repr

namespace BaseCommitter

variable (o : BaseCommitter)

def leaderRound (wave : ℕ) : ℕ := wave * o.waveLength + o.roundOffset

def decisionRound (wave : ℕ) : ℕ :=
  wave * o.waveLength + o.waveLength - 1 + o.roundOffset

def waveNumber (round : ℕ) : ℕ := (round - o.roundOffset) / o.waveLength

def electLeader (elect : ℕ → ℕ → Except Panic ℕ) (round : ℕ) :
    Except Panic (Option Slot) :=
  if o.leaderRound (o.waveNumber round) ≠ round then .ok none
  else do
    let authority ← elect round o.leaderOffset
    return some ⟨round, authority⟩

section

variable (ctx : Context) (d : DagState)

def findSupportedBlock (leaderSlot : Slot) (block : VerifiedBlock) : Except Panic (Option BlockRef) :=
  searchSupport leaderSlot (fun r => (d.requireBlock ctx r).map some) (block.round + 1) block

def isVote (potentialVote leaderBlock : VerifiedBlock) : Except Panic Bool := do
  let supported ← findSupportedBlock ctx d leaderBlock.slot potentialVote
  return supported == some leaderBlock.reference

/-- Looks a vote up in the cache, or decides and caches it. -/
def cachedVote (leaderBlock : VerifiedBlock) (reference : BlockRef) (allVotes : TreeMap BlockRef Bool) :
    Except Panic (Bool × TreeMap BlockRef Bool) :=
  match allVotes[reference]? with
  | some vote => .ok (vote, allVotes)
  | none => do
    let potentialVote ← d.requireBlock ctx reference
    let vote ← isVote ctx d potentialVote leaderBlock
    return (vote, allVotes.insert reference vote)

/-- The loop over the ancestors of a potential certificate. -/
def countVotes (leaderBlock : VerifiedBlock) :
    List BlockRef → StakeAggregator .quorum → TreeMap BlockRef Bool →
      Except Panic (Bool × TreeMap BlockRef Bool)
  | [], _, allVotes => .ok (false, allVotes)
  | reference :: references, votesStakeAggregator, allVotes => do
    let (vote, allVotes) ← cachedVote ctx d leaderBlock reference allVotes
    if vote then
      let (votesStakeAggregator, reached) := votesStakeAggregator.add reference.author ctx.committee
      if reached then return (true, allVotes)
      else countVotes leaderBlock references votesStakeAggregator allVotes
    else countVotes leaderBlock references votesStakeAggregator allVotes

def isCertificate (potentialCertificate leaderBlock : VerifiedBlock) (allVotes : TreeMap BlockRef Bool) :
    Except Panic (Bool × TreeMap BlockRef Bool) :=
  countVotes ctx d leaderBlock potentialCertificate.ancestors .new allVotes

def enoughLeaderBlame (votingRound leader : ℕ) : Except Panic Bool := do
  let votingBlocks ← d.getUncommittedBlocksAtRound votingRound
  let blames := votingBlocks.filter (fun b => b.ancestors.all (fun a => a.author ≠ leader))
  return (StakeAggregator.new : StakeAggregator .quorum).addUntilThreshold ctx.committee
    (blames.map (fun b => b.author))

/-- The loop over the blocks of the decision round. -/
def countCertificates (leaderBlock : VerifiedBlock) :
    List VerifiedBlock → StakeAggregator .quorum → TreeMap BlockRef Bool → Except Panic Bool
  | [], _, _ => .ok false
  | block :: blocks, certificateStakeAggregator, allVotes => do
    let (certificate, allVotes) ← isCertificate ctx d block leaderBlock allVotes
    if certificate then
      let (certificateStakeAggregator, reached) :=
        certificateStakeAggregator.add block.author ctx.committee
      if reached then return true
      else countCertificates leaderBlock blocks certificateStakeAggregator allVotes
    else countCertificates leaderBlock blocks certificateStakeAggregator allVotes

def enoughLeaderSupport (decisionRound : ℕ) (leaderBlock : VerifiedBlock) : Except Panic Bool := do
  let decisionBlocks ← d.getUncommittedBlocksAtRound decisionRound
  let totalStake := (decisionBlocks.map (fun b => ctx.committee.stake b.author)).sum
  if !ctx.committee.reachedQuorum totalStake then return false
  else countCertificates ctx d leaderBlock decisionBlocks .new ∅

def tryDirectDecide (o : BaseCommitter) (leader : Slot) : Except Panic LeaderStatus := do
  let votingRound := leader.round + 1
  if ← enoughLeaderBlame ctx d votingRound leader.authority then return .skip leader
  else
    let wave := o.waveNumber leader.round
    let decisionRound := o.decisionRound wave
    let leaderBlocks := d.getUncommittedBlocksAtSlot leader
    let leadersWithEnoughSupport ← leaderBlocks.filterM (enoughLeaderSupport ctx d decisionRound)
    match leadersWithEnoughSupport with
    | [] => return .undecided leader
    | [block] => return .commit block
    | _ => throw (.moreThanOneCertifiedBlock leader)

def anyCertificate (leaderBlock : VerifiedBlock) :
    List VerifiedBlock → TreeMap BlockRef Bool → Except Panic Bool
  | [], _ => .ok false
  | potentialCertificate :: potentialCertificates, allVotes => do
    let (certificate, allVotes) ← isCertificate ctx d potentialCertificate leaderBlock allVotes
    if certificate then return true else anyCertificate leaderBlock potentialCertificates allVotes

/-- Commits the target leader if it has a certified link to the anchor, else skips it. -/
def decideLeaderFromAnchor (o : BaseCommitter) (anchor : VerifiedBlock) (leaderSlot : Slot) :
    Except Panic LeaderStatus := do
  let leaderBlocks := d.getUncommittedBlocksAtSlot leaderSlot
  let wave := o.waveNumber leaderSlot.round
  let decisionRound := o.decisionRound wave
  let potentialCertificates ← d.ancestorsAtRound ctx anchor decisionRound
  let certifiedLeaderBlocks ← leaderBlocks.filterM
    (fun leaderBlock => anyCertificate ctx d leaderBlock potentialCertificates ∅)
  match certifiedLeaderBlocks with
  | [] => return .skip leaderSlot
  | [block] => return .commit block
  | _ => throw (.moreThanOneCertifiedBlock leaderSlot)

def decideFromAnchors (o : BaseCommitter) (leaderSlot : Slot) :
    List LeaderStatus → Except Panic LeaderStatus
  | [] => .ok (.undecided leaderSlot)
  | .commit anchor :: _ => decideLeaderFromAnchor ctx d o anchor leaderSlot
  | .skip _ :: anchors => decideFromAnchors o leaderSlot anchors
  | .undecided _ :: _ => .ok (.undecided leaderSlot)

/-- The indirect decision rule. The anchor is the first committed leader past the decision
round of the target; an undecided leader before it leaves the target undecided. -/
def tryIndirectDecide (o : BaseCommitter) (leaderSlot : Slot) (leaders : List LeaderStatus) :
    Except Panic LeaderStatus :=
  decideFromAnchors ctx d o leaderSlot
    (leaders.filter (fun x => leaderSlot.round + o.waveLength ≤ x.round))

end

end BaseCommitter

/-- `UniversalCommitter`: the committers for multi-leader or pipelining. -/
structure UniversalCommitter where
  committers : List BaseCommitter

namespace UniversalCommitter

/-- `UniversalCommitterBuilder::build`. -/
def build (waveLength numberOfLeaders : ℕ) (pipeline : Bool) : UniversalCommitter :=
  let pipelineStages := if pipeline then waveLength else 1
  ⟨(List.range pipelineStages).flatMap (fun roundOffset =>
    (List.range numberOfLeaders).map (fun leaderOffset => ⟨waveLength, leaderOffset, roundOffset⟩))⟩

/-- `NUM_LEADERS_PER_ROUND` of the core. -/
def numLeadersPerRound : ℕ := 1

/-- The committer that the core builds: one leader per round, pipelined. -/
def pipelined : UniversalCommitter := build defaultWaveLength numLeadersPerRound true

section

variable (ctx : Context) (d : DagState) (elect : ℕ → ℕ → Except Panic ℕ)

def decideSlot (committer : BaseCommitter) (slot : Slot) (leaders : List LeaderStatus) :
    Except Panic (LeaderStatus × Decision) := do
  let status ← BaseCommitter.tryDirectDecide ctx d committer slot
  if status.isDecided then return (status, .direct)
  else
    let status ← BaseCommitter.tryIndirectDecide ctx d committer slot leaders
    return (status, .indirect)

/-- The nested loops of `try_decide` over rounds and committers, both from the highest down.
The accumulator holds the statuses found so far, lowest round first. -/
def decideLoop (lastDecided : Slot) :
    List (ℕ × BaseCommitter) → List (LeaderStatus × Decision) →
      Except Panic (List (LeaderStatus × Decision))
  | [], leaders => .ok leaders
  | (round, committer) :: rest, leaders => do
    match ← committer.electLeader elect round with
    | none => decideLoop lastDecided rest leaders
    | some slot =>
      if slot = lastDecided then return leaders
      else
        let status ← decideSlot ctx d committer slot (leaders.map Prod.fst)
        decideLoop lastDecided rest (status :: leaders)

/-- The longest run of decided leaders, genesis left out. -/
def decidedPrefix : List (LeaderStatus × Decision) → List DecidedLeader
  | [] => []
  | (leader, _) :: leaders =>
    if leader.round = genesisRound then decidedPrefix leaders
    else match leader.intoDecidedLeader with
      | none => []
      | some decided => decided :: decidedPrefix leaders

variable (u : UniversalCommitter)

/-- The committers in the order in which `try_decide` visits them in a round. -/
def visit (round : ℕ) : List (ℕ × BaseCommitter) :=
  u.committers.reverse.map (fun committer => (round, committer))

/-- Rounds and committers in the order in which `try_decide` visits them. -/
def schedule (lastDecidedRound highestAcceptedRound : ℕ) :
    List (ℕ × BaseCommitter) :=
  (List.range' lastDecidedRound (highestAcceptedRound - 2 + 1 - lastDecidedRound)).reverse.flatMap
    u.visit

def tryDecide (lastDecided : Slot) : Except Panic (List DecidedLeader) := do
  let leaders ← decideLoop ctx d elect lastDecided
    (u.schedule lastDecided.round d.highestAcceptedRound) []
  return decidedPrefix leaders

end

end UniversalCommitter

end SuiProofs.Consensus

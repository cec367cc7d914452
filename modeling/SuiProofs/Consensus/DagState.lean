import SuiProofs.Consensus.Store

/-! Models `dag_state.rs`. Batched lookups are written per reference, since the source fills
its results by position. -/

namespace SuiProofs.Consensus

open Library Function Std

structure DagState where
  recentBlocks : TreeMap BlockRef VerifiedBlock
  recentRefs : ℕ → TreeSet BlockRef
  highestAcceptedRound : ℕ
  lastCommit : Option TrustedCommit
  lastCommittedRounds : ℕ → ℕ
  unscoredCommittedSubdags : List CommittedSubDag
  pendingCommitVotes : List CommitVote
  blocksToWrite : List VerifiedBlock
  commitsToWrite : List TrustedCommit
  commitInfoToWrite : List (CommitRef × CommitInfo)
  store : Store
  cachedRounds : ℕ

namespace DagState

def evictionRound (commitRound cachedRounds : ℕ) : ℕ := commitRound - cachedRounds

variable (ctx : Context) (d : DagState)

def authorityEvictionRound (authority : ℕ) : ℕ :=
  evictionRound (d.lastCommittedRounds authority) d.cachedRounds

variable (reference : BlockRef)

def genesisGet : Option VerifiedBlock :=
  (genesisBlocks ctx).find? (fun b => b.reference = reference)

def updateBlockMetadata (block : VerifiedBlock) : DagState :=
  { d with
    recentBlocks := d.recentBlocks.insert block.reference block
    recentRefs := update d.recentRefs block.author
      ((d.recentRefs block.author).insert block.reference)
    highestAcceptedRound := max d.highestAcceptedRound block.round }

def raiseCommittedRounds (rounds : ℕ → ℕ) (blocks : List BlockRef) : ℕ → ℕ :=
  blocks.foldl (fun rounds r => update rounds r.author (max (rounds r.author) r.round)) rounds

variable (store : Store)

/-- Replays a stored commit on the committed rounds and the unscored sub-dags. -/
def recoverCommit (state : (ℕ → ℕ) × List CommittedSubDag)
    (commit : TrustedCommit) : Except Panic ((ℕ → ℕ) × List CommittedSubDag) := do
  let rounds := raiseCommittedRounds state.1 commit.blocks
  if ctx.mysticetiLeaderScoringAndSchedule then
    let subdag ← store.loadCommittedSubdag commit
    return (rounds, state.2 ++ [subdag])
  else
    return (rounds, state.2)

def recoverBlocks (cachedRounds : ℕ) (rounds : ℕ → ℕ) (d : DagState) (authority : ℕ) :
    Except Panic DagState := do
  let blocks ← store.scanBlocksByAuthor authority (evictionRound (rounds authority) cachedRounds + 1)
  return blocks.foldl updateBlockMetadata d

/-- Committed rounds of the last commit info, and the index of the first commit after it. -/
def recoveryStart : (ℕ → ℕ) × ℕ :=
  match store.readLastCommitInfo with
  | some (commitRef, commitInfo) => (commitInfo.committedRounds, commitRef.index + 1)
  | none => (fun _ => 0, genesisCommitIndex + 1)

/-- Committed rounds and unscored sub-dags, from the last commit info and the commits after it. -/
def recoverCommits : Except Panic ((ℕ → ℕ) × List CommittedSubDag) :=
  let (committedRounds, startIndex) := recoveryStart store
  match store.readLastCommit with
  | some lastCommit =>
    (store.scanCommits ⟨startIndex, lastCommit.index + 1⟩).foldlM (recoverCommit ctx store)
    (committedRounds, [])
  | none => .ok (committedRounds, [])

def recovered (rounds : ℕ → ℕ) (subdags : List CommittedSubDag) :
    DagState where
  recentBlocks := ∅
  recentRefs := fun _ => ∅
  highestAcceptedRound := 0
  lastCommit := store.readLastCommit
  lastCommittedRounds := rounds
  unscoredCommittedSubdags := subdags
  pendingCommitVotes := []
  blocksToWrite := []
  commitsToWrite := []
  commitInfoToWrite := []
  store := store
  cachedRounds := ctx.dagStateCachedRounds

def new : Except Panic DagState := do
  let (rounds, subdags) ← recoverCommits ctx store
  (List.range ctx.committee.size).foldlM (recoverBlocks store ctx.dagStateCachedRounds rounds)
    (recovered ctx store rounds subdags)

def getBlock : Option VerifiedBlock :=
  if reference.round = genesisRound then genesisGet ctx reference
  else match d.recentBlocks[reference]? with
    | some block => some block
    | none => d.store.blocks[reference]?

def requireBlock : Except Panic VerifiedBlock :=
  match d.getBlock ctx reference with
  | some block => .ok block
  | none => .error (.blockNotFound reference)

def getBlocks (refs : List BlockRef) : List (Option VerifiedBlock) :=
  refs.map (d.getBlock ctx)

/-- The highest reference of an authority in the cache decides without reading the store
when the block asked for is of a later round. -/
def containsBlock : Bool :=
  let recentRefs := d.recentRefs reference.author
  if recentRefs.contains reference ∨ (genesisGet ctx reference).isSome then true
  else match last? recentRefs with
    | none => false
    | some last => if last.round < reference.round then false else d.store.blocks.contains reference

def containsBlocks (refs : List BlockRef) : List Bool :=
  refs.map (d.containsBlock ctx)

def getUncommittedBlocksAtSlot (slot : Slot) : List VerifiedBlock :=
  (d.recentBlocks.toList.filter (fun p => p.1.slot = slot)).map Prod.snd

def lastCommitIndex : ℕ :=
  match d.lastCommit with
  | some commit => commit.index
  | none => 0

def lastCommitDigest : CommitDigest :=
  match d.lastCommit with
  | some commit => commit.digest
  | none => 0

def lastCommitTimestampMs : ℕ :=
  match d.lastCommit with
  | some commit => commit.timestampMs
  | none => 0

def lastCommitRound : ℕ :=
  match d.lastCommit with
  | some commit => commit.leader.round
  | none => 0

def getUncommittedBlocksAtRound (round : ℕ) : Except Panic (List VerifiedBlock) :=
  if round ≤ d.lastCommitRound then .error (.roundHasCommittedBlocks round)
  else .ok ((d.recentBlocks.toList.filter (fun p => p.1.round = round)).map Prod.snd)

/-- One pop of the highest linked reference, while it is above `earlierRound`. -/
def ancestorsAtRoundStep (earlierRound : ℕ) (linked : TreeSet BlockRef) :
    Except Panic (TreeSet BlockRef ⊕ TreeSet BlockRef) :=
  match last? linked with
  | none => .ok (.inr linked)
  | some last =>
    if last.round ≤ earlierRound then .ok (.inr linked)
    else do
      let block ← d.requireBlock ctx last
      return .inl (block.ancestors.foldl (fun t r => t.insert r) (linked.erase last))

def ancestorsAtRound (laterBlock : VerifiedBlock) (earlierRound : ℕ) :
    Except Panic (List VerifiedBlock) := do
  let start : TreeSet BlockRef := laterBlock.ancestors.foldl (fun t r => t.insert r) ∅
  -- Every pop removes a block of the DAG that is never linked again.
  let linked ← loopM (.error .outOfFuel) (d.ancestorsAtRoundStep ctx earlierRound)
    (d.recentBlocks.size + d.store.blocks.size + 1) start
  (linked.toList.filter (fun r => earlierRound ≤ r.round)).mapM (d.requireBlock ctx)

def pushBlock (block : VerifiedBlock) : DagState :=
  { d.updateBlockMetadata block with blocksToWrite := d.blocksToWrite ++ [block] }

def acceptBlock (now : ℕ) (d : DagState) (block : VerifiedBlock) : Except Panic DagState :=
  if block.round = 0 then .error (.genesisBlockNotAcceptable block.reference)
  else if ctx.committee.size ≤ block.author then .error (.authorityOutOfRange block.author)
  else if d.containsBlock ctx block.reference then .ok d
  else if block.timestampMs > now then .error (.timestampAheadOfLocalClock block.reference)
  else if block.author = ctx.ownIndex ∧ d.getUncommittedBlocksAtSlot block.slot ≠ [] then
    .error (.ownSlotOccupied block.reference)
  else .ok (d.pushBlock block)

def acceptBlocks (now : ℕ) (d : DagState) (blocks : List VerifiedBlock) :
    Except Panic DagState :=
  blocks.foldlM (acceptBlock ctx now) d

def addCommit (commit : TrustedCommit) : Except Panic DagState := do
  let added : DagState :=
    { d with
      lastCommit := some commit
      lastCommittedRounds := raiseCommittedRounds d.lastCommittedRounds commit.blocks
      pendingCommitVotes := d.pendingCommitVotes ++ [commit.reference]
      commitsToWrite := d.commitsToWrite ++ [commit] }
  match d.lastCommit with
  | some lastCommit =>
    if commit.index ≤ lastCommit.index then return d
    else if commit.index ≠ lastCommit.index + 1 then throw (.commitIndexNotNext commit.index)
    else if commit.timestampMs < lastCommit.timestampMs then
      throw (.commitTimestampNotMonotonic commit.index)
    else return added
  | none => if commit.index ≠ 1 then throw (.commitIndexNotNext commit.index) else return added

def addCommitInfo (reputationScores : ReputationScores) : Except Panic DagState :=
  if d.unscoredCommittedSubdags ≠ [] then .error .unscoredSubdagsNotEmpty
  else match d.lastCommit with
    | some lastCommit =>
      .ok { d with commitInfoToWrite := d.commitInfoToWrite ++
        [(lastCommit.reference, ⟨d.lastCommittedRounds, reputationScores⟩)] }
    | none => .error .lastCommitNotSet

def takeCommitVotes (limit : ℕ) : DagState × List CommitVote :=
  ({ d with pendingCommitVotes := d.pendingCommitVotes.drop limit }, d.pendingCommitVotes.take limit)

def addUnscoredCommittedSubdags (subdags : List CommittedSubDag) : DagState :=
  { d with unscoredCommittedSubdags := d.unscoredCommittedSubdags ++ subdags }

def takeUnscoredCommittedSubdags : DagState × List CommittedSubDag :=
  ({ d with unscoredCommittedSubdags := [] }, d.unscoredCommittedSubdags)

def evictAuthority (authority : ℕ) : DagState :=
  let evicted := (d.recentRefs authority).toList.takeWhile
    (fun r => r.round ≤ d.authorityEvictionRound authority)
  { d with
    recentBlocks := evicted.foldl (fun m r => m.erase r) d.recentBlocks
    recentRefs := update d.recentRefs authority
      (evicted.foldl (fun t r => t.erase r) (d.recentRefs authority)) }

/-- The commit info a flush writes: the buffered one, or that of the last commit when leader
scoring is off. -/
def commitInfoOfFlush : List (CommitRef × CommitInfo) :=
  if ctx.mysticetiLeaderScoringAndSchedule then d.commitInfoToWrite
  else match d.commitsToWrite.getLast? with
    | none => []
    | some commit => [(commit.reference, ⟨d.lastCommittedRounds, ⟨[], ⟨0, 0⟩⟩⟩)]

/-- Takes the buffered data; commit info is taken only when leader scoring is on. -/
def takeBuffers : DagState :=
  { d with
    blocksToWrite := []
    commitsToWrite := []
    commitInfoToWrite := if ctx.mysticetiLeaderScoringAndSchedule then [] else d.commitInfoToWrite }

/-- Moves the buffered data to storage and evicts old cached blocks. The buffers are taken
before the check for blocks and commits. -/
def flush : DagState :=
  if d.blocksToWrite = [] ∧ d.commitsToWrite = [] then d.takeBuffers ctx
  else
    let batch : WriteBatch := ⟨d.blocksToWrite, d.commitsToWrite, d.commitInfoOfFlush ctx⟩
    (List.range ctx.committee.size).foldl evictAuthority
      { d.takeBuffers ctx with store := d.store.write batch }

def recoverLastCommitInfo : Option (CommitRef × CommitInfo) := d.store.readLastCommitInfo

end DagState

end SuiProofs.Consensus

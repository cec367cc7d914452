import SuiProofs.Authority.SignatureAggregation

/-! Models `state_sync` of `sui-network`: the table of peers, and the task `sync_to_checkpoint`. -/

namespace SuiProofs.Network

open Library Authority List Option Function

/-- A summary, with the fields that synchronization reads. The rest stands in `contentDigest`. -/
structure CheckpointSummary (Digest : Type) where
  epoch : ℕ
  sequenceNumber : ℕ
  contentDigest : Digest
  previousDigest : Option Digest
  nextEpochCommittee : Option (List (AuthorityName × ℕ))
deriving DecidableEq, Repr

/-- A strong quorum's signature. The signers are the indices of a bitmap. -/
structure QuorumSignature (Sig : Type) where
  epoch : ℕ
  signature : Sig
  signersMap : Std.TreeSet ℕ

structure Checkpoint (Digest Sig : Type) where
  data : CheckpointSummary Digest
  authSig : QuorumSignature Sig

namespace Checkpoint

variable {Digest Sig : Type}

def sequenceNumber (checkpoint : Checkpoint Digest Sig) : ℕ := checkpoint.data.sequenceNumber

def epoch (checkpoint : Checkpoint Digest Sig) : ℕ := checkpoint.data.epoch

end Checkpoint

/-- What the node is configured with, and the cryptography it rests on. -/
structure Context (Digest Sig : Type) where
  digest : CheckpointSummary Digest → Digest
  digest_injective : Function.Injective digest
  verifyAggregate : List AuthorityName → CheckpointSummary Digest → ℕ → Sig → Bool
  pinnedCheckpoints : List (ℕ × Digest)
  pinned_increasing : pinnedCheckpoints.Pairwise fun a b => a.1 < b.1
  downloadConcurrency : ℕ

variable {Digest Sig PeerId : Type}

/-- `checked_add(1)` of a `u64`. -/
def checkedSucc (n : ℕ) : Option ℕ := if n + 1 < 2 ^ 64 then some (n + 1) else none

lemma eq_of_checkedSucc {n m : ℕ} (h : checkedSucc n = some m) : m = n + 1 := by
  unfold checkedSucc at h
  split_ifs at h
  exact (some.inj h).symm

namespace Context

/-- The binary search among the pinned checkpoints, whose numbers increase. -/
def pinnedDigest (ctx : Context Digest Sig) (sequenceNumber : ℕ) : Option Digest :=
  (ctx.pinnedCheckpoints.find? fun pin => pin.1 = sequenceNumber).map Prod.snd

lemma pinnedDigest_eq_some {ctx : Context Digest Sig} {n : ℕ} {d : Digest} :
    ctx.pinnedDigest n = some d ↔ (n, d) ∈ ctx.pinnedCheckpoints := by
  unfold pinnedDigest
  have hsort := ctx.pinned_increasing
  generalize ctx.pinnedCheckpoints = pinned at hsort
  induction pinned with
  | nil => simp
  | cons pin pins ih =>
    rw [pairwise_cons] at hsort
    by_cases hpin : pin.1 = n
    · have hnot : (n, d) ∉ pins := fun hmem => absurd (hsort.1 _ hmem) (by simp [hpin])
      simp [hpin, hnot, Prod.ext_iff, eq_comm]
    · have hne : (n, d) ≠ pin := fun heq => hpin (by rw [← heq])
      simp [hpin, hne, ih hsort.2]

/-- A checkpoint agrees with the pins if it has the pinned digest at a pinned number. -/
def AgreesWithPins (ctx : Context Digest Sig) (checkpoint : Checkpoint Digest Sig) : Prop :=
  ∀ digest, (checkpoint.sequenceNumber, digest) ∈ ctx.pinnedCheckpoints →
    ctx.digest checkpoint.data = digest

end Context

section Verification

variable (ctx : Context Digest Sig) (committee : Committee)

def verifyAuthoritySignatures (checkpoint : Checkpoint Digest Sig) : Bool :=
  let sig := checkpoint.authSig
  if checkpoint.epoch ≠ sig.epoch then false
  else if sig.epoch ≠ committee.epoch then false
  else match sig.signersMap.toList.mapM committee.signerAt with
    | .error _ => false
    | .ok publicKeys =>
      if committee.stake publicKeys < Committee.threshold true then false
      else ctx.verifyAggregate publicKeys checkpoint.data sig.epoch sig.signature

/-- The checkpoint carries a valid signature of different members with the stake of a quorum. -/
def SignedByQuorum (checkpoint : Checkpoint Digest Sig) : Prop :=
  ∃ signers : List AuthorityName, signers.Nodup ∧
    (∀ a ∈ signers, a ∈ committee.votingRights.map Prod.fst) ∧
    quorumThreshold ≤ committee.stake signers ∧
    ctx.verifyAggregate signers checkpoint.data committee.epoch checkpoint.authSig.signature = true

/-- Whether a checkpoint is verified, with `none` for a panic. -/
def verifyCheckpointWithCommittee (current checkpoint : Checkpoint Digest Sig)
    [DecidableEq Digest] : Option Bool := do
  let next ← checkedSucc current.sequenceNumber
  if checkpoint.sequenceNumber ≠ next then none
  else if some (ctx.digest current.data) ≠ checkpoint.data.previousDigest then return false
  else
    let nextEpoch ← checkedSucc current.epoch
    if checkpoint.epoch ≠ current.epoch ∧ checkpoint.epoch ≠ nextEpoch then return false
    else if checkpoint.epoch = nextEpoch ∧ current.data.nextEpochCommittee.isNone then return false
    else return verifyAuthoritySignatures ctx committee checkpoint

end Verification

structure Store (Digest Sig : Type) where
  certifiedCheckpoints : ℕ → Option (Checkpoint Digest Sig)
  checkpointByDigest : Digest → Option (Checkpoint Digest Sig)
  highestVerified : Option (ℕ × Digest)
  committeeMap : ℕ → Option Committee

namespace Committee

/-- `Committee::new` for the members of the next epoch. It panics if the votes do not add up. -/
def new (epoch : ℕ) (rights : List (AuthorityName × ℕ)) : Option Committee :=
  let votingRights := (Std.TreeMap.ofList rights).toList
  if h : (votingRights.map Prod.snd).sum = totalVotingPower then
    some ⟨epoch, votingRights, Std.TreeMap.ordered_keys_toList.imp compare_lt_iff_lt.mp, h⟩
  else none

end Committee

namespace Store

variable (store : Store Digest Sig)

def getHighestVerifiedCheckpoint : Option (Checkpoint Digest Sig) := do
  let watermark ← store.highestVerified
  store.checkpointByDigest watermark.2

/-- A committee that is there already must be the same. -/
def insertNewCommittee (newCommittee : Committee) : Option (Store Digest Sig) :=
  match store.committeeMap newCommittee.epoch with
  | some oldCommittee =>
    if oldCommittee.epoch = newCommittee.epoch ∧
      oldCommittee.votingRights = newCommittee.votingRights then some store else none
  | none => some { store with
      committeeMap := update store.committeeMap newCommittee.epoch (some newCommittee) }

variable [DecidableEq Digest]

def insertVerifiedCheckpoint (ctx : Context Digest Sig) (checkpoint : Checkpoint Digest Sig) :
    Store Digest Sig :=
  let digest := ctx.digest checkpoint.data
  let inserted : Store Digest Sig :=
    { store with
      certifiedCheckpoints :=
        update store.certifiedCheckpoints checkpoint.sequenceNumber (some checkpoint)
      checkpointByDigest := update store.checkpointByDigest digest (some checkpoint) }
  -- No watermark is below every number.
  if (inserted.getHighestVerifiedCheckpoint.map Checkpoint.sequenceNumber).all
    (· < checkpoint.sequenceNumber) then
    { inserted with highestVerified := some (checkpoint.sequenceNumber, digest) }
  else inserted

/-- The committee that a last checkpoint of an epoch names is inserted first. -/
def insertNextCommittee (checkpoint : Checkpoint Digest Sig) : Option (Store Digest Sig) :=
  match checkpoint.data.nextEpochCommittee with
  | none => some store
  | some rights => do
    let nextEpoch ← checkedSucc checkpoint.epoch
    let committee ← Committee.new nextEpoch rights
    store.insertNewCommittee committee

def insertCheckpoint (ctx : Context Digest Sig) (checkpoint : Checkpoint Digest Sig) :
    Option (Store Digest Sig) := do
  let store ← store.insertNextCommittee checkpoint
  return store.insertVerifiedCheckpoint ctx checkpoint

end Store

def verifyCheckpoint [DecidableEq Digest] (ctx : Context Digest Sig)
    (current : Checkpoint Digest Sig) (store : Store Digest Sig)
    (checkpoint : Checkpoint Digest Sig) : Option Bool := do
  let committee ← store.committeeMap checkpoint.epoch
  verifyCheckpointWithCommittee ctx committee current checkpoint

structure PeerStateSyncInfo (Digest : Type) where
  genesisCheckpointDigest : Digest
  onSameChainAsUs : Bool
  height : ℕ
  lowest : ℕ
deriving DecidableEq, Repr

/-- What is known of the peers, and the checkpoints they gave that are not processed yet. -/
structure PeerHeights (Digest Sig PeerId : Type) where
  peers : PeerId → Option (PeerStateSyncInfo Digest)
  unprocessedCheckpoints : Digest → Option (Checkpoint Digest Sig)
  sequenceNumberToDigest : ℕ → Option Digest

namespace PeerHeights

variable (heights : PeerHeights Digest Sig PeerId)

def empty : PeerHeights Digest Sig PeerId := ⟨fun _ => none, fun _ => none, fun _ => none⟩

def cleanupOldCheckpoints (sequenceNumber : ℕ) : PeerHeights Digest Sig PeerId :=
  { heights with
    unprocessedCheckpoints := fun digest =>
      (heights.unprocessedCheckpoints digest).filter fun c => sequenceNumber < c.sequenceNumber
    sequenceNumberToDigest := fun s =>
      if sequenceNumber < s then heights.sequenceNumberToDigest s else none }

def getCheckpointBySequenceNumber (sequenceNumber : ℕ) : Option (Checkpoint Digest Sig) := do
  let digest ← heights.sequenceNumberToDigest sequenceNumber
  heights.unprocessedCheckpoints digest

section Peers

variable [DecidableEq PeerId]

def markPeerAsNotOnSameChain (peerId : PeerId) : PeerHeights Digest Sig PeerId :=
  match heights.peers peerId with
  | some info =>
      { heights with
        peers := update heights.peers peerId (some { info with onSameChainAsUs := false }) }
  | none => heights

def removePeer (peerId : PeerId) : PeerHeights Digest Sig PeerId :=
  { heights with peers := update heights.peers peerId none }

def insertPeerInfo [DecidableEq Digest] (peerId : PeerId) (info : PeerStateSyncInfo Digest) :
    PeerHeights Digest Sig PeerId :=
  let entry := match heights.peers peerId with
    | some entry =>
      if entry.genesisCheckpointDigest = info.genesisCheckpointDigest then
        { entry with height := max entry.height info.height } else info
    | none => info
  { heights with peers := update heights.peers peerId (some entry) }

end Peers

variable [DecidableEq Digest]

def insertCheckpoint (ctx : Context Digest Sig) (checkpoint : Checkpoint Digest Sig) :
    PeerHeights Digest Sig PeerId :=
  let digest := ctx.digest checkpoint.data
  { heights with
    unprocessedCheckpoints := update heights.unprocessedCheckpoints digest (some checkpoint)
    sequenceNumberToDigest :=
      update heights.sequenceNumberToDigest checkpoint.sequenceNumber (some digest) }

def removeCheckpoint (digest : Digest) : PeerHeights Digest Sig PeerId :=
  match heights.unprocessedCheckpoints digest with
  | some checkpoint =>
    { heights with
      unprocessedCheckpoints := update heights.unprocessedCheckpoints digest none
      sequenceNumberToDigest := update heights.sequenceNumberToDigest checkpoint.sequenceNumber none }
  | none => heights

/-- A peer that is known to be on the same chain gave a checkpoint. -/
def updatePeerInfo [DecidableEq PeerId] (ctx : Context Digest Sig) (peerId : PeerId)
    (checkpoint : Checkpoint Digest Sig)
    (lowWatermark : Option ℕ) : PeerHeights Digest Sig PeerId :=
  match heights.peers peerId with
  | some info =>
    if info.onSameChainAsUs then
      let info := { info with
        height := max checkpoint.sequenceNumber info.height
        lowest := lowWatermark.getD info.lowest }
      { heights with peers := update heights.peers peerId (some info) }.insertCheckpoint ctx checkpoint
    else heights
  | none => heights

end PeerHeights

/-- A download of one summary: the peers are being asked, or it has a result. -/
inductive Download (Digest Sig PeerId : Type) where
  | asking
  | done (maybeCheckpoint : Option (Checkpoint Digest Sig)) (maybePeerId : Option PeerId)

/-- The local state of `sync_to_checkpoint`. The stream of downloads yields the result
for `next`. -/
structure SyncTask (Digest Sig PeerId : Type) where
  current : Checkpoint Digest Sig
  target : ℕ
  next : ℕ
  downloads : ℕ → Option (Download Digest Sig PeerId)

/-- The store, what is known of the peers and the running task. -/
structure State (Digest Sig PeerId : Type) where
  store : Store Digest Sig
  peerHeights : PeerHeights Digest Sig PeerId
  task : Option (SyncTask Digest Sig PeerId)

/-- What peers do and the steps of the task, which happen in any order. -/
inductive Event (Digest Sig PeerId : Type) where
  | genesis (peerId : PeerId) (response : Option (Checkpoint Digest Sig))
  | lostPeer (peerId : PeerId)
  | pushCheckpointSummary (peerId : PeerId) (checkpoint : Checkpoint Digest Sig)
  | latest (peerId : PeerId) (checkpoint : Checkpoint Digest Sig) (lowWatermark : Option ℕ)
  | start (checkpoint : Checkpoint Digest Sig)
  | request (sequenceNumber : ℕ)
  | response (sequenceNumber : ℕ) (peerId : PeerId) (checkpoint : Checkpoint Digest Sig)
  | noPeers (sequenceNumber : ℕ)
  | process
  | finish

namespace SyncTask

variable (task : SyncTask Digest Sig PeerId)

/-- A download that the buffered stream has started or may start. -/
def Buffered (ctx : Context Digest Sig) (n : ℕ) : Prop :=
  task.next ≤ n ∧ n ≤ task.target ∧ n < task.next + ctx.downloadConcurrency

instance (ctx : Context Digest Sig) (n : ℕ) : Decidable (task.Buffered ctx n) :=
  inferInstanceAs (Decidable (_ ∧ _))

def setDownload (n : ℕ) (download : Download Digest Sig PeerId) : SyncTask Digest Sig PeerId :=
  { task with downloads := update task.downloads n (some download) }

end SyncTask

section Steps

variable [DecidableEq Digest] [DecidableEq PeerId] (ctx : Context Digest Sig)

/-- The information on a peer from its answer to the request for its first checkpoint. -/
def genesisInfo [Inhabited Digest] (ourGenesisCheckpointDigest : Digest) :
    Option (Checkpoint Digest Sig) → PeerStateSyncInfo Digest
  | some checkpoint =>
    let digest := ctx.digest checkpoint.data
    ⟨digest, ourGenesisCheckpointDigest = digest, checkpoint.sequenceNumber, 0⟩
  | none => ⟨default, false, 0, 0⟩

def requestCheckpoint (heights : PeerHeights Digest Sig PeerId) (n : ℕ) : Download Digest Sig PeerId :=
  match heights.getCheckpointBySequenceNumber n with
  | some checkpoint => .done (some checkpoint) none
  | none => .asking

/-- A peer's response is taken if it has the right number and does not contradict a pin. -/
def acceptsResponse (n : ℕ) (checkpoint : Checkpoint Digest Sig) : Bool :=
  checkpoint.sequenceNumber = n &&
    match ctx.pinnedDigest checkpoint.sequenceNumber with
    | some digest => digest = ctx.digest checkpoint.data
    | none => true

variable (s : State Digest Sig PeerId) (task : SyncTask Digest Sig PeerId)

/-- The verified checkpoint goes into the store and the loop goes on. -/
def insertVerified (checkpoint : Checkpoint Digest Sig) :
    Option (State Digest Sig PeerId × Option (Checkpoint Digest Sig)) := do
  let store ← s.store.insertCheckpoint ctx checkpoint
  return ({ s with store := store, task := some { task with
    current := checkpoint, next := task.next + 1 } }, some checkpoint)

/-- The task gives up a checkpoint that it could not verify, and the peer that sent it. -/
def rejectCheckpoint (checkpoint : Checkpoint Digest Sig) (maybePeerId : Option PeerId) :
    State Digest Sig PeerId :=
  let heights := s.peerHeights.removeCheckpoint (ctx.digest checkpoint.data)
  let heights := match maybePeerId with
    | some peerId => heights.markPeerAsNotOnSameChain peerId
    | none => heights
  { s with peerHeights := heights, task := none }

def processNext :
    Option (State Digest Sig PeerId × Option (Checkpoint Digest Sig)) :=
  if task.target < task.next then none
  else match task.downloads task.next with
    | some (.done maybeCheckpoint maybePeerId) =>
      if checkedSucc task.current.sequenceNumber ≠ some task.next then none
      else match maybeCheckpoint with
        | none => some ({ s with task := none }, none)
        | some checkpoint =>
          if (ctx.pinnedDigest checkpoint.sequenceNumber).isSome then
            insertVerified ctx s task checkpoint
          else match verifyCheckpoint ctx task.current s.store checkpoint with
            | none => none
            | some false => some (rejectCheckpoint ctx s checkpoint maybePeerId, none)
            | some true => insertVerified ctx s task checkpoint
    | _ => none

/-- A step, with the checkpoint it inserts. It is `none` if it cannot be taken or panics. -/
def step [Inhabited Digest] (s : State Digest Sig PeerId) :
    Event Digest Sig PeerId → Option (State Digest Sig PeerId × Option (Checkpoint Digest Sig))
  | .genesis peerId response => do
    let genesis ← s.store.certifiedCheckpoints 0
    let info := genesisInfo ctx (ctx.digest genesis.data) response
    return ({ s with peerHeights := s.peerHeights.insertPeerInfo peerId info }, none)
  | .lostPeer peerId => some ({ s with peerHeights := s.peerHeights.removePeer peerId }, none)
  | .pushCheckpointSummary peerId checkpoint =>
      some ({ s with peerHeights := s.peerHeights.updatePeerInfo ctx peerId checkpoint none }, none)
  | .latest peerId checkpoint lowWatermark =>
    some ({ s with peerHeights := s.peerHeights.updatePeerInfo ctx peerId checkpoint lowWatermark },
      none)
  | .start checkpoint =>
    -- Only one task runs at a time.
    if s.task.isSome then none
    else do
      let current ← s.store.getHighestVerifiedCheckpoint
      if checkpoint.sequenceNumber ≤ current.sequenceNumber then none
      else
        let next ← checkedSucc current.sequenceNumber
        return ({ s with task := some ⟨current, checkpoint.sequenceNumber, next, fun _ => none⟩ }, none)
  | .request n => do
    let task ← s.task
    if task.Buffered ctx n ∧ (task.downloads n).isNone then
      return ({ s with task := some (task.setDownload n (requestCheckpoint s.peerHeights n)) }, none)
    else none
  | .response n peerId checkpoint => do
    let task ← s.task
    match task.downloads n with
    | some .asking =>
      if acceptsResponse ctx n checkpoint then
        return ({ s with
          peerHeights := s.peerHeights.insertCheckpoint ctx checkpoint
          task := some (task.setDownload n (.done (some checkpoint) (some peerId))) }, none)
      else return (s, none)
    | _ => none
  | .noPeers n => do
    let task ← s.task
    match task.downloads n with
    | some .asking => return ({ s with task := some (task.setDownload n (.done none none)) }, none)
    | _ => none
  | .process => do
    let task ← s.task
    processNext ctx s task
  | .finish => do
    let task ← s.task
    if task.target < task.next then
      return ({ s with
        peerHeights := s.peerHeights.cleanupOldCheckpoints task.target, task := none }, none)
    else none

def run [Inhabited Digest] (s : State Digest Sig PeerId) (events : List (Event Digest Sig PeerId)) :
    Option (State Digest Sig PeerId) :=
  events.foldlM (fun s event => (step ctx s event).map Prod.fst) s

end Steps

section Authenticity

variable (ctx : Context Digest Sig)

def Continues (store : Store Digest Sig) (checkpoint : Checkpoint Digest Sig) : Prop :=
  ∃ n previous committee, checkpoint.sequenceNumber = n + 1 ∧
    store.certifiedCheckpoints n = some previous ∧
    checkpoint.data.previousDigest = some (ctx.digest previous.data) ∧
    (checkpoint.epoch = previous.epoch ∨
      (checkpoint.epoch = previous.epoch + 1 ∧ previous.data.nextEpochCommittee.isSome)) ∧
    store.committeeMap checkpoint.epoch = some committee ∧ committee.epoch = checkpoint.epoch ∧
      SignedByQuorum ctx committee checkpoint

/-- A checkpoint that belongs into a store: it is the pinned one, or it continues the chain. -/
def Authentic (store : Store Digest Sig) (checkpoint : Checkpoint Digest Sig) : Prop :=
  ctx.AgreesWithPins checkpoint ∧
    ((∀ digest, (checkpoint.sequenceNumber, digest) ∉ ctx.pinnedCheckpoints) →
      Continues ctx store checkpoint)

/-- The checkpoints up to the highest verified one are there and, after the first one, authentic. -/
structure AuthenticUpTo (store : Store Digest Sig) (top : Checkpoint Digest Sig) : Prop where
  highest : store.highestVerified = some (top.sequenceNumber, ctx.digest top.data)
  byDigest : store.checkpointByDigest (ctx.digest top.data) = some top
  top_stored : store.certifiedCheckpoints top.sequenceNumber = some top
  authentic : ∀ n ≤ top.sequenceNumber, ∃ checkpoint, store.certifiedCheckpoints n = some checkpoint ∧
    checkpoint.sequenceNumber = n ∧ (0 < n → Authentic ctx store checkpoint)

end Authenticity

variable {ctx : Context Digest Sig} {checkpoint : Checkpoint Digest Sig} {n : ℕ}

section Insertion

variable {store store' : Store Digest Sig} {checkpoint top : Checkpoint Digest Sig}

lemma insertNewCommittee_eq_some {committee : Committee}
    (h : store.insertNewCommittee committee = some store') :
    ∃ committeeMap, store' = { store with committeeMap := committeeMap } ∧
      ∀ epoch c, store.committeeMap epoch = some c → committeeMap epoch = some c := by
  unfold Store.insertNewCommittee at h
  cases hold : store.committeeMap committee.epoch with
  | some old =>
    rw [hold] at h
    dsimp only at h
    split_ifs at h
    exact ⟨store.committeeMap, (some.inj h).symm, fun _ _ hc => hc⟩
  | none =>
    rw [hold] at h
    refine ⟨_, (some.inj h).symm, fun epoch c hc => ?_⟩
    have hne : epoch ≠ committee.epoch := by
      rintro rfl
      rw [hold] at hc
      cases hc
    rw [update_of_ne hne, hc]

lemma insertNextCommittee_eq_some (h : store.insertNextCommittee checkpoint = some store') :
    ∃ committeeMap, store' = { store with committeeMap := committeeMap } ∧
      ∀ epoch c, store.committeeMap epoch = some c → committeeMap epoch = some c := by
  unfold Store.insertNextCommittee at h
  cases hnext : checkpoint.data.nextEpochCommittee with
  | none =>
    rw [hnext] at h
    exact ⟨store.committeeMap, (some.inj h).symm, fun _ _ hc => hc⟩
  | some rights =>
    rw [hnext] at h
    obtain ⟨nextEpoch, -, h⟩ := bind_eq_some_iff.mp h
    obtain ⟨committee, -, h⟩ := bind_eq_some_iff.mp h
    exact insertNewCommittee_eq_some h

/-- What stays authentic in a store that has the same earlier checkpoint and no fewer committees. -/
lemma Continues.mono (h : Continues ctx store checkpoint)
    (hcps : ∀ n, n < checkpoint.sequenceNumber →
      store'.certifiedCheckpoints n = store.certifiedCheckpoints n)
    (hcomts : ∀ epoch c, store.committeeMap epoch = some c → store'.committeeMap epoch = some c) :
    Continues ctx store' checkpoint := by
  obtain ⟨n, previous, committee, hn, hprev, hdig, hep, hcomt, hsame, hsig⟩ := h
  refine ⟨n, previous, committee, hn, ?_, hdig, hep, hcomts _ _ hcomt, hsame, hsig⟩
  rw [hcps n (by omega), hprev]

lemma Authentic.mono (h : Authentic ctx store checkpoint)
    (hcps : ∀ n, n < checkpoint.sequenceNumber →
      store'.certifiedCheckpoints n = store.certifiedCheckpoints n)
    (hcomts : ∀ epoch c, store.committeeMap epoch = some c → store'.committeeMap epoch = some c) :
    Authentic ctx store' checkpoint :=
  ⟨h.1, fun hpins => (h.2 hpins).mono hcps hcomts⟩

variable (htop : AuthenticUpTo ctx store top)
include htop

lemma AuthenticUpTo.getHighest : store.getHighestVerifiedCheckpoint = some top := by
  rw [Store.getHighestVerifiedCheckpoint, htop.highest, bind_eq_bind, bind_some, htop.byDigest]

variable [DecidableEq Digest]

section

variable (hnum : checkpoint.sequenceNumber = top.sequenceNumber + 1)

include hnum

lemma insertVerifiedCheckpoint_eq : store.insertVerifiedCheckpoint ctx checkpoint =
      { store with
        certifiedCheckpoints := update store.certifiedCheckpoints checkpoint.sequenceNumber
          (some checkpoint)
        checkpointByDigest :=
          update store.checkpointByDigest (ctx.digest checkpoint.data) (some checkpoint)
        highestVerified := some (checkpoint.sequenceNumber, ctx.digest checkpoint.data) } := by
  -- The digest of the new checkpoint is another one, so the look-up still finds the old one.
  have hdig : ctx.digest top.data ≠ ctx.digest checkpoint.data := by
    intro heq
    have hdata := ctx.digest_injective heq
    have hsame : top.sequenceNumber = checkpoint.sequenceNumber :=
      congrArg CheckpointSummary.sequenceNumber hdata
    omega
  unfold Store.insertVerifiedCheckpoint
  simp [Store.getHighestVerifiedCheckpoint, htop.highest, update_of_ne hdig, htop.byDigest, hnum]

lemma AuthenticUpTo.insertCheckpoint
    (hauth : Authentic ctx store checkpoint) (h : store.insertCheckpoint ctx checkpoint = some store') :
    AuthenticUpTo ctx store' checkpoint := by
  obtain ⟨store₁, hnext, h⟩ := bind_eq_some_iff.mp h
  obtain ⟨committeeMap, rfl, hcomts⟩ := insertNextCommittee_eq_some hnext
  have htop' : AuthenticUpTo ctx { store with committeeMap := committeeMap } top := by
    refine ⟨htop.highest, htop.byDigest, htop.top_stored, fun n hn => ?_⟩
    obtain ⟨c, hc, hcn, hpos⟩ := htop.authentic n hn
    exact ⟨c, hc, hcn, fun hlt => (hpos hlt).mono (fun _ _ => rfl) hcomts⟩
  cases h
  rw [insertVerifiedCheckpoint_eq htop' hnum]
  have hbel : ∀ n, n < checkpoint.sequenceNumber →
      update store.certifiedCheckpoints checkpoint.sequenceNumber (some checkpoint) n =
        store.certifiedCheckpoints n :=
    fun n hn => update_of_ne hn.ne _ _
  refine ⟨rfl, update_self _ _ _, update_self _ _ _, fun n hn => ?_⟩
  rcases hn.lt_or_eq with hlt | rfl
  · obtain ⟨c, hc, rfl, hpos⟩ := htop.authentic n (by omega)
    refine ⟨c, (hbel _ hlt).trans hc, rfl, fun h0 =>
      (hpos h0).mono (fun m hm => hbel m (hm.trans hlt)) hcomts⟩
  · exact ⟨checkpoint, update_self _ _ _, rfl, fun _ => hauth.mono hbel hcomts⟩

end

end Insertion

section Checks

variable {store : Store Digest Sig} {checkpoint current : Checkpoint Digest Sig} {committee : Committee}

lemma signerAt_eq_ok {i : ℕ} {a : AuthorityName} (h : committee.signerAt i = .ok a) :
    committee.authorityByIndex i = some a := by
  unfold Committee.signerAt at h
  cases hat : committee.authorityByIndex i with
  | none =>
    rw [hat] at h
    cases h
  | some b =>
    rw [hat] at h
    dsimp only at h
    split_ifs at h
    rw [Except.ok.inj h]

lemma nodup_of_signerAt {indices : List ℕ} {names : List AuthorityName}
    (hsort : indices.Pairwise (· < ·)) (h : indices.mapM committee.signerAt = .ok names) :
    names.Nodup ∧ ∀ a ∈ names, a ∈ committee.votingRights.map Prod.fst := by
  have hall := forall₂_of_mapM_eq_ok h
  have hat : ∀ i a, committee.signerAt i = .ok a →
    committee.authorityByIndex i = some a := fun i a => signerAt_eq_ok
  clear h
  induction hall with
  | nil => simp
  | @cons i a indices names hi hall ih =>
    rw [pairwise_cons] at hsort
    obtain ⟨hnd, hmembs⟩ := ih hsort.2
    have hnot : a ∉ names := by
      intro ha
      obtain ⟨j, hj, hja⟩ := exists_of_forall₂_right hall ha
      exact lt_irrefl a (Committee.authorityByIndex_lt (hat i a hi) (hat j a hja) (hsort.1 j hj))
    refine ⟨nodup_cons.mpr ⟨hnot, hnd⟩, ?_⟩
    rintro b (_ | ⟨_, hb⟩)
    · obtain ⟨e, he, rfl⟩ := map_eq_some_iff.mp (hat i a hi)
      exact mem_map_of_mem (mem_of_getElem? he)
    · exact hmembs b hb

lemma signedByQuorum_of_verify (h : verifyAuthoritySignatures ctx committee checkpoint = true) :
    committee.epoch = checkpoint.epoch ∧ SignedByQuorum ctx committee checkpoint := by
  unfold verifyAuthoritySignatures at h
  dsimp only at h
  split at h
  · cases h
  rename_i hep
  split_ifs at h with hcomt
  rw [not_not] at hep hcomt
  split at h
  · cases h
  rename_i publicKeys hkeys
  split_ifs at h with hstk
  obtain ⟨hnd, hmembs⟩ := nodup_of_signerAt (Std.TreeSet.ordered_toList.imp compare_lt_iff_lt.mp) hkeys
  exact ⟨hcomt ▸ hep.symm, publicKeys, hnd, hmembs, not_lt.mp hstk, hcomt ▸ h⟩

variable [DecidableEq Digest]

lemma continues_of_verifyCheckpoint
    (hcurr : store.certifiedCheckpoints current.sequenceNumber = some current)
    (h : verifyCheckpoint ctx current store checkpoint = some true) :
    checkpoint.sequenceNumber = current.sequenceNumber + 1 ∧ Continues ctx store checkpoint := by
  obtain ⟨committee, hcomt, h⟩ := bind_eq_some_iff.mp h
  obtain ⟨next, hnext, h⟩ := bind_eq_some_iff.mp h
  obtain rfl := eq_of_checkedSucc hnext
  split at h
  · cases h
  rename_i hnum
  split at h
  · cases h
  rename_i hdig
  obtain ⟨nextEpoch, hnextEpoch, h⟩ := bind_eq_some_iff.mp h
  obtain rfl := eq_of_checkedSucc hnextEpoch
  split at h
  · cases h
  rename_i hep
  split at h
  · cases h
  rename_i hlast
  rw [not_not] at hnum hdig
  obtain ⟨hsame, hsig⟩ := signedByQuorum_of_verify (some.inj h)
  refine ⟨hnum, current.sequenceNumber, current, committee, hnum, hcurr, hdig.symm, ?_,
    hcomt, hsame, hsig⟩
  by_cases heq : checkpoint.epoch = current.epoch
  · exact .inl heq
  · have hsucc : checkpoint.epoch = current.epoch + 1 := by
      by_contra hne
      exact hep ⟨heq, hne⟩
    refine .inr ⟨hsucc, ?_⟩
    rw [isSome_iff_ne_none]
    simpa [hsucc] using hlast

end Checks

/-- What the table holds: checkpoints under their digests and digests under their numbers, none of
which contradicts a pin. -/
structure Table (ctx : Context Digest Sig) (heights : PeerHeights Digest Sig PeerId) : Prop where
  digests : ∀ digest checkpoint, heights.unprocessedCheckpoints digest = some checkpoint →
    ctx.digest checkpoint.data = digest ∧ ctx.AgreesWithPins checkpoint
  numbers : ∀ n digest, heights.sequenceNumberToDigest n = some digest →
    ∃ summary : CheckpointSummary Digest,
    summary.sequenceNumber = n ∧ ctx.digest summary = digest

def Downloaded (ctx : Context Digest Sig) (n : ℕ) (download : Download Digest Sig PeerId) : Prop :=
  ∀ checkpoint maybePeerId, download = .done (some checkpoint) maybePeerId →
    checkpoint.sequenceNumber = n ∧ ctx.AgreesWithPins checkpoint

/-- The invariant of state sync while no peer contradicts a pin. -/
structure Invariant (ctx : Context Digest Sig) (s : State Digest Sig PeerId) : Prop where
  store : ∃ top, AuthenticUpTo ctx s.store top ∧ ∀ task, s.task = some task → task.current = top
  table : Table ctx s.peerHeights
  downloads : ∀ task n download, s.task = some task → task.downloads n = some download →
    Downloaded ctx n download

/-- The peers do not push, or report as their latest, a checkpoint that contradicts a pin. -/
def Event.AgreesWithPins (ctx : Context Digest Sig) : Event Digest Sig PeerId → Prop
  | .pushCheckpointSummary _ checkpoint => ctx.AgreesWithPins checkpoint
  | .latest _ checkpoint _ => ctx.AgreesWithPins checkpoint
  | _ => True

section Tables

variable {heights : PeerHeights Digest Sig PeerId}

section

variable (h : Table ctx heights)
include h

lemma Table.withPeers (peers : PeerId → Option (PeerStateSyncInfo Digest)) :
    Table ctx { heights with peers := peers } :=
  ⟨h.digests, h.numbers⟩

lemma Table.cleanupOldCheckpoints : Table ctx (heights.cleanupOldCheckpoints n) := by
  refine ⟨fun digest c hc => ?_, fun m digest hm => ?_⟩
  · exact h.digests digest c (filter_eq_some_iff.mp hc).1
  · dsimp only [PeerHeights.cleanupOldCheckpoints] at hm
    split_ifs at hm
    exact h.numbers m digest hm

lemma Table.getCheckpointBySequenceNumber
    (hget : heights.getCheckpointBySequenceNumber n = some checkpoint) :
    checkpoint.sequenceNumber = n ∧ ctx.AgreesWithPins checkpoint := by
  obtain ⟨digest, hn, hdig⟩ := bind_eq_some_iff.mp hget
  obtain ⟨summary, hsummary, hsame⟩ := h.numbers n digest hn
  obtain ⟨heq, hpins⟩ := h.digests digest checkpoint hdig
  have hdata : checkpoint.data = summary := ctx.digest_injective (heq.trans hsame.symm)
  exact ⟨by rw [Checkpoint.sequenceNumber, hdata, hsummary], hpins⟩

lemma Table.downloaded_request : Downloaded ctx n (requestCheckpoint heights n) := by
  intro c maybePeerId hdone
  unfold requestCheckpoint at hdone
  split at hdone
  · rename_i c' hget
    injection hdone with hc
    cases hc
    exact h.getCheckpointBySequenceNumber hget
  · cases hdone

end

section Peers

variable [DecidableEq PeerId]

lemma Table.markPeerAsNotOnSameChain (h : Table ctx heights) (peerId : PeerId) :
    Table ctx (heights.markPeerAsNotOnSameChain peerId) := by
  unfold PeerHeights.markPeerAsNotOnSameChain
  split
  · exact h.withPeers _
  · exact h

end Peers

variable [DecidableEq Digest]

lemma Table.insertCheckpoint (h : Table ctx heights) (hpins : ctx.AgreesWithPins checkpoint) :
    Table ctx (heights.insertCheckpoint ctx checkpoint) := by
  refine ⟨fun digest c hc => ?_, fun m digest hm => ?_⟩
  · by_cases hd : digest = ctx.digest checkpoint.data
    · subst hd
      obtain rfl : checkpoint = c := by simpa [PeerHeights.insertCheckpoint] using hc
      exact ⟨rfl, hpins⟩
    · exact h.digests digest c (by simpa [PeerHeights.insertCheckpoint, hd] using hc)
  · by_cases hm' : m = checkpoint.sequenceNumber
    · subst hm'
      exact ⟨checkpoint.data, rfl, by simpa [PeerHeights.insertCheckpoint] using hm⟩
    · exact h.numbers m digest (by simpa [PeerHeights.insertCheckpoint, hm'] using hm)

lemma Table.removeCheckpoint (h : Table ctx heights) (digest : Digest) :
    Table ctx (heights.removeCheckpoint digest) := by
  unfold PeerHeights.removeCheckpoint
  split
  · refine ⟨fun d c hc => ?_, fun m d hm => ?_⟩
    · dsimp only at hc
      rw [update_apply] at hc
      split_ifs at hc
      exact h.digests d c hc
    · dsimp only at hm
      rw [update_apply] at hm
      split_ifs at hm
      exact h.numbers m d hm
  · exact h

lemma Table.updatePeerInfo [DecidableEq PeerId] (h : Table ctx heights)
    (hpins : ctx.AgreesWithPins checkpoint) (peerId : PeerId) (lowWatermark : Option ℕ) : Table ctx
      (heights.updatePeerInfo ctx peerId checkpoint lowWatermark) := by
  unfold PeerHeights.updatePeerInfo
  split
  · split
    · exact (h.withPeers _).insertCheckpoint hpins
    · exact h
  · exact h

lemma downloaded_of_acceptsResponse (h : acceptsResponse ctx n checkpoint = true) :
    checkpoint.sequenceNumber = n ∧ ctx.AgreesWithPins checkpoint := by
  unfold acceptsResponse at h
  rw [Bool.and_eq_true, decide_eq_true_eq] at h
  refine ⟨h.1, fun digest hmem => ?_⟩
  have hpin := h.2
  rw [Context.pinnedDigest_eq_some.mpr hmem] at hpin
  exact (of_decide_eq_true hpin).symm

end Tables

section Runs

variable {s s' : State Digest Sig PeerId} {task : SyncTask Digest Sig PeerId}

variable (ctx s s') in
/-- A step keeps the invariant and inserts authentic checkpoints only. -/
structure Kept (inserted : Option (Checkpoint Digest Sig)) : Prop where
  invariant : Invariant ctx s'
  authentic : ∀ checkpoint, inserted = some checkpoint →
    Authentic ctx s.store checkpoint ∧
      s'.store.certifiedCheckpoints checkpoint.sequenceNumber = some checkpoint

lemma Kept.of_invariant (h : Invariant ctx s') : Kept ctx s s' none := ⟨h, fun _ h => by cases h⟩

section

variable (h : Invariant ctx s)
include h

lemma Invariant.withTable {heights : PeerHeights Digest Sig PeerId} (ht : Table ctx heights) :
    Invariant ctx { s with peerHeights := heights } :=
  ⟨h.store, ht, h.downloads⟩

lemma Invariant.withoutTask : Invariant ctx { s with task := none } := by
  obtain ⟨top, htop, -⟩ := h.store
  exact ⟨⟨top, htop, fun _ h => by cases h⟩, h.table, fun _ _ _ h => by cases h⟩

lemma Invariant.setDownload (htask : s.task = some task) {download : Download Digest Sig PeerId}
    (hdown : Downloaded ctx n download) :
    Invariant ctx { s with task := some (task.setDownload n download) } := by
  obtain ⟨top, htop, hcurr⟩ := h.store
  refine ⟨⟨top, htop, ?_⟩, h.table, ?_⟩
  · rintro _ ⟨⟩
    exact hcurr task htask
  · rintro _ m d ⟨⟩ hm
    by_cases hmn : m = n
    · subst hmn
      obtain rfl : download = d := by simpa [SyncTask.setDownload] using hm
      exact hdown
    · exact h.downloads task m d htask (by simpa [SyncTask.setDownload, hmn] using hm)

variable [DecidableEq Digest] {inserted : Option (Checkpoint Digest Sig)}

lemma insertVerified_kept
    (htask : s.task = some task) (hnum : checkpoint.sequenceNumber = task.current.sequenceNumber + 1)
    (hauth : Authentic ctx s.store checkpoint)
    (hstep : insertVerified ctx s task checkpoint = some (s', inserted)) :
    Kept ctx s s' inserted := by
  obtain ⟨top, htop, hcurr⟩ := h.store
  obtain rfl := hcurr task htask
  obtain ⟨store, hins, hstep⟩ := bind_eq_some_iff.mp hstep
  cases hstep
  have htop' := htop.insertCheckpoint hnum hauth hins
  refine ⟨⟨⟨checkpoint, htop', ?_⟩, h.table, ?_⟩, ?_⟩
  · rintro _ ⟨⟩
    rfl
  · rintro _ m d ⟨⟩ hm
    exact h.downloads task m d htask hm
  · rintro _ ⟨⟩
    exact ⟨hauth, htop'.top_stored⟩

variable [DecidableEq PeerId]

lemma Invariant.rejectCheckpoint {maybePeerId : Option PeerId} :
    Invariant ctx (rejectCheckpoint ctx s checkpoint maybePeerId) := by
  have hremoved := h.table.removeCheckpoint (ctx.digest checkpoint.data)
  cases maybePeerId with
  | none => exact (h.withTable hremoved).withoutTask
  | some peerId => exact (h.withTable (hremoved.markPeerAsNotOnSameChain peerId)).withoutTask

lemma processNext_kept (htask : s.task = some task)
    (hstep : processNext ctx s task = some (s', inserted)) : Kept ctx s s' inserted := by
  obtain ⟨top, htop, hcurr⟩ := h.store
  obtain rfl := hcurr task htask
  unfold processNext at hstep
  split at hstep
  · cases hstep
  split at hstep
  swap
  · cases hstep
  rename_i maybeCheckpoint maybePeerId hdown
  split_ifs at hstep with hnext
  have hnext := eq_of_checkedSucc (not_not.mp hnext)
  cases maybeCheckpoint with
  | none =>
    cases hstep
    exact .of_invariant h.withoutTask
  | some checkpoint =>
    obtain ⟨hnum, hpins⟩ := h.downloads task task.next _ htask hdown checkpoint maybePeerId rfl
    rw [hnext] at hnum
    dsimp only at hstep
    split at hstep
    · -- A pinned checkpoint is inserted unverified, with the digest that the table promises.
      rename_i hpinned
      obtain ⟨digest, hdig⟩ := isSome_iff_exists.mp hpinned
      have hmem := Context.pinnedDigest_eq_some.mp hdig
      exact insertVerified_kept h htask hnum ⟨hpins, fun hnone => absurd hmem (hnone digest)⟩ hstep
    · split at hstep
      · cases hstep
      · cases hstep
        exact .of_invariant h.rejectCheckpoint
      · rename_i hverify
        have hcont := continues_of_verifyCheckpoint htop.top_stored hverify
        exact insertVerified_kept h htask hnum ⟨hpins, fun _ => hcont.2⟩ hstep

variable [Inhabited Digest]

lemma step_kept {event : Event Digest Sig PeerId}
    (hevent : event.AgreesWithPins ctx) (hstep : step ctx s event = some (s', inserted)) :
    Kept ctx s s' inserted := by
  cases event with
  | genesis peerId response =>
    obtain ⟨genesis, -, hstep⟩ := bind_eq_some_iff.mp hstep
    cases hstep
    exact .of_invariant (h.withTable (h.table.withPeers _))
  | lostPeer peerId =>
    cases hstep
    exact .of_invariant (h.withTable (h.table.withPeers _))
  | pushCheckpointSummary peerId checkpoint =>
    cases hstep
    exact .of_invariant (h.withTable (h.table.updatePeerInfo hevent peerId none))
  | latest peerId checkpoint lowWatermark =>
    cases hstep
    exact .of_invariant (h.withTable (h.table.updatePeerInfo hevent peerId lowWatermark))
  | start checkpoint =>
    dsimp only [step] at hstep
    split_ifs at hstep
    obtain ⟨current, hcurr, hstep⟩ := bind_eq_some_iff.mp hstep
    split_ifs at hstep
    obtain ⟨next, hnext, hstep⟩ := bind_eq_some_iff.mp hstep
    cases hstep
    obtain ⟨top, htop, -⟩ := h.store
    obtain rfl := some.inj (htop.getHighest.symm.trans hcurr)
    refine .of_invariant ⟨⟨top, htop, ?_⟩, h.table, ?_⟩
    · rintro _ ⟨⟩
      rfl
    · rintro _ m d ⟨⟩ hm
      cases hm
  | request m =>
    obtain ⟨task, htask, hstep⟩ := bind_eq_some_iff.mp hstep
    split_ifs at hstep
    cases hstep
    exact .of_invariant (h.setDownload htask h.table.downloaded_request)
  | response m peerId checkpoint =>
    obtain ⟨task, htask, hstep⟩ := bind_eq_some_iff.mp hstep
    split at hstep
    swap
    · cases hstep
    split at hstep
    · rename_i hacc
      cases hstep
      have hdown := downloaded_of_acceptsResponse hacc
      have htb := h.table.insertCheckpoint hdown.2
      refine .of_invariant ((h.withTable htb).setDownload htask ?_)
      rintro c p ⟨⟩
      exact hdown
    · cases hstep
      exact .of_invariant h
  | noPeers m =>
    obtain ⟨task, htask, hstep⟩ := bind_eq_some_iff.mp hstep
    split at hstep
    · cases hstep
      exact .of_invariant (h.setDownload htask fun c p hdone => by cases hdone)
    · cases hstep
  | process =>
    obtain ⟨task, htask, hstep⟩ := bind_eq_some_iff.mp hstep
    exact processNext_kept h htask hstep
  | finish =>
    obtain ⟨task, htask, hstep⟩ := bind_eq_some_iff.mp hstep
    split_ifs at hstep
    cases hstep
    exact .of_invariant (h.withTable h.table.cleanupOldCheckpoints).withoutTask

lemma run_invariant {events : List (Event Digest Sig PeerId)}
    (hevents : ∀ event ∈ events, event.AgreesWithPins ctx)
    (hrun : run ctx s events = some s') : Invariant ctx s' := by
  refine foldlM_some_induction (Invariant ctx) h (fun s s' event hevent h hstep => ?_) hrun
  obtain ⟨⟨s₁, inserted⟩, hstep', rfl⟩ := map_eq_some_iff.mp hstep
  exact (step_kept h (hevents event hevent) hstep').invariant

end

end Runs

def State.start (store : Store Digest Sig) : State Digest Sig PeerId := ⟨store, PeerHeights.empty, none⟩

lemma Invariant.start {store : Store Digest Sig} {top : Checkpoint Digest Sig}
    (h : AuthenticUpTo ctx store top) :
    Invariant ctx (State.start store : State Digest Sig PeerId) :=
  ⟨⟨top, h, fun _ h => (by cases h)⟩, ⟨fun _ _ h => (by cases h), fun _ _ h => (by cases h)⟩,
    fun _ _ _ h => (by cases h)⟩

/-- While no peer pushes, or reports as its latest, a checkpoint that contradicts a pin, every
checkpoint that state sync inserts is authentic. -/
theorem inserted_checkpoint_authentic [DecidableEq Digest] [DecidableEq PeerId] [Inhabited Digest]
    (ctx : Context Digest Sig)
    (store : Store Digest Sig) (top : Checkpoint Digest Sig) (hstore : AuthenticUpTo ctx store top)
    (events : List (Event Digest Sig PeerId)) (event : Event Digest Sig PeerId)
    (hpeers : ∀ e ∈ events ++ [event], e.AgreesWithPins ctx) (s s' : State Digest Sig PeerId)
    (checkpoint : Checkpoint Digest Sig) (hrun : run ctx (State.start store) events = some s)
    (hstep : step ctx s event = some (s', some checkpoint)) :
    s'.store.certifiedCheckpoints checkpoint.sequenceNumber = some checkpoint ∧
      Authentic ctx s.store checkpoint := by
  have hinvariant : Invariant ctx s := by
    refine run_invariant (.start hstore) (fun e he => ?_) hrun
    exact hpeers e (mem_append_left _ he)
  have hkept := step_kept hinvariant (hpeers event (by simp)) hstep
  obtain ⟨hauthentic, hstored⟩ := hkept.authentic checkpoint rfl
  exact ⟨hstored, hauthentic⟩

namespace Example

/-- A collision-free digest of the fields of a summary. -/
def digest (summary : CheckpointSummary ℕ) : ℕ :=
  Encodable.encode (summary.epoch, summary.sequenceNumber, summary.contentDigest,
    summary.previousDigest, summary.nextEpochCommittee)

lemma digest_injective : Function.Injective digest := by
  intro a b h
  have hfds := Encodable.encode_injective h
  cases a
  cases b
  simpa using hfds

def genesis : Checkpoint ℕ Bool := ⟨⟨0, 0, 0, none, none⟩, ⟨0, true, ∅⟩⟩

def pinned : Checkpoint ℕ Bool := ⟨⟨0, 1, 1, some (digest genesis.data), none⟩, ⟨0, true, ∅⟩⟩

/-- Another checkpoint with the number of the pinned one and no valid signature. -/
def forged : Checkpoint ℕ Bool := ⟨⟨0, 1, 2, none, none⟩, ⟨0, false, ∅⟩⟩

def context : Context ℕ Bool where
  digest := digest
  digest_injective := digest_injective
  verifyAggregate _ _ _ sig := sig
  pinnedCheckpoints := [(1, digest pinned.data)]
  pinned_increasing := pairwise_singleton _ _
  downloadConcurrency := 1

def store : Store ℕ Bool where
  certifiedCheckpoints n := if n = 0 then some genesis else none
  checkpointByDigest d := if d = digest genesis.data then some genesis else none
  highestVerified := some (0, digest genesis.data)
  committeeMap epoch := if epoch = 0 then some Committee.sole else none

lemma store_authentic : AuthenticUpTo context store genesis := by
  refine ⟨rfl, rfl, rfl, fun n hn => ?_⟩
  obtain rfl : n = 0 := Nat.le_zero.mp hn
  exact ⟨genesis, rfl, rfl, fun h => absurd h (lt_irrefl 0)⟩

def pushed (checkpoint : Checkpoint ℕ Bool) : List (Event ℕ Bool ℕ) :=
  [.genesis 5 (some genesis), .pushCheckpointSummary 5 checkpoint, .start checkpoint, .request 1]

lemma digest_forged : digest forged.data ≠ digest pinned.data := by
  intro h
  have hdata := digest_injective h
  revert hdata
  decide

lemma pinned_agrees : context.AgreesWithPins pinned := by
  intro d hd
  obtain ⟨-, rfl⟩ := Prod.mk.inj (mem_singleton.mp hd)
  rfl

lemma pushed_agrees : ∀ e ∈ pushed pinned ++ [.process], e.AgreesWithPins context := by
  intro e he
  simp only [pushed, cons_append, nil_append, mem_cons, not_mem_nil, or_false] at he
  rcases he with rfl | rfl | rfl | rfl | rfl
  · trivial
  · exact pinned_agrees
  · trivial
  · trivial
  · trivial

end Example

/-- The pinned checkpoint is inserted when a peer pushes it. -/
theorem pinned_checkpoint_inserted : ∃ s s' : State ℕ Bool ℕ,
    run Example.context (State.start Example.store) (Example.pushed Example.pinned) = some s ∧
    step Example.context s .process = some (s', some Example.pinned) ∧
    s'.store.certifiedCheckpoints 1 = some Example.pinned ∧
      Authentic Example.context s.store Example.pinned :=
  ⟨_, _, rfl, rfl, inserted_checkpoint_authentic Example.context Example.store Example.genesis
    Example.store_authentic
    (Example.pushed Example.pinned) .process Example.pushed_agrees _ _ Example.pinned rfl rfl⟩

/-- A checkpoint that a peer pushes is inserted at a pinned number with another digest. -/
theorem forged_checkpoint_inserted :
    AuthenticUpTo Example.context Example.store Example.genesis ∧ ∃ s s' : State ℕ Bool ℕ,
    run Example.context (State.start Example.store) (Example.pushed Example.forged) = some s ∧
    step Example.context s .process = some (s', some Example.forged) ∧
    (1, Example.context.digest Example.pinned.data) ∈ Example.context.pinnedCheckpoints ∧
    Example.forged.sequenceNumber = 1 ∧
    Example.context.digest Example.forged.data ≠ Example.context.digest Example.pinned.data := by
  exact ⟨Example.store_authentic, _, _, rfl, rfl, mem_singleton.mpr rfl, rfl, Example.digest_forged⟩

end SuiProofs.Network

import SuiProofs.Authority.StakeAggregator
import SuiProofs.Authority.TransactionDeferral

/-! Models `process_consensus_transactions_and_commit_boundary` of `authority_per_epoch_store.rs`.
Writes of one commit are atomic. -/

namespace SuiProofs.Authority

open Library Std

inductive ReconfigCertStatus where
  | acceptAllCerts
  | rejectUserCerts
  | rejectAllCerts
  | rejectAllTx
deriving DecidableEq, Repr

namespace ReconfigCertStatus

def closeUserCerts : ReconfigCertStatus → ReconfigCertStatus
  | acceptAllCerts => rejectUserCerts
  | status => status

def closeAllCerts (_ : ReconfigCertStatus) : ReconfigCertStatus := rejectAllCerts

def closeAllTx (_ : ReconfigCertStatus) : ReconfigCertStatus := rejectAllTx

def shouldAcceptConsensusCerts : ReconfigCertStatus → Bool
  | acceptAllCerts => true
  | rejectUserCerts => true
  | _ => false

def isRejectAllCerts (status : ReconfigCertStatus) : Bool := status = rejectAllCerts

def shouldAcceptTx (status : ReconfigCertStatus) : Bool := status ≠ rejectAllTx

end ReconfigCertStatus

structure JwkId where
  iss : String
  kid : String
deriving DecidableEq, Repr

structure Jwk where
  kty : String
  e : String
  n : String
  alg : String
deriving DecidableEq, Repr

def maxTotalJwkSize : ℕ := 4096

def checkTotalJwkSize (id : JwkId) (jwk : Jwk) : Bool :=
  decide (id.iss.utf8ByteSize + id.kid.utf8ByteSize + jwk.kty.utf8ByteSize + jwk.alg.utf8ByteSize +
    jwk.e.utf8ByteSize +
    jwk.n.utf8ByteSize ≤ maxTotalJwkSize)

/-- Messages of authorities. The deprecated `RandomnessStateUpdate` is dropped before a commit is
processed. -/
inductive ConsensusTransactionKind where
  | userTransaction (certificate : VerifiedExecutableTransaction)
  | checkpointSignature (authority : AuthorityName) (sequenceNumber : ℕ)
  | endOfPublish (authority : AuthorityName)
  | capabilityNotification (authority : AuthorityName) (generation : ℕ)
  | newJWKFetched (authority : AuthorityName) (id : JwkId) (jwk : Jwk)
  | randomnessDkgMessage (authority : AuthorityName)
  | randomnessDkgConfirmation (authority : AuthorityName)
deriving DecidableEq, Repr

inductive ConsensusTransactionKey where
  | certificate (digest : TransactionDigest)
  | checkpointSignature (authority : AuthorityName) (sequenceNumber : ℕ)
  | endOfPublish (authority : AuthorityName)
  | capabilityNotification (authority : AuthorityName) (generation : ℕ)
  | newJWKFetched (authority : AuthorityName) (id : JwkId) (jwk : Jwk)
  | randomnessDkgMessage (authority : AuthorityName)
  | randomnessDkgConfirmation (authority : AuthorityName)
deriving DecidableEq, Repr

def ConsensusTransactionKind.key : ConsensusTransactionKind → ConsensusTransactionKey
  | userTransaction cert => .certificate cert.digest
  | checkpointSignature authority sequenceNumber => .checkpointSignature authority sequenceNumber
  | endOfPublish authority => .endOfPublish authority
  | capabilityNotification authority generation => .capabilityNotification authority generation
  | newJWKFetched authority id jwk => .newJWKFetched authority id jwk
  | randomnessDkgMessage authority => .randomnessDkgMessage authority
  | randomnessDkgConfirmation authority => .randomnessDkgConfirmation authority

inductive SequencedConsensusTransactionKind where
  | external (transaction : ConsensusTransactionKind)
  | system (transaction : VerifiedExecutableTransaction)
deriving DecidableEq, Repr

inductive SequencedConsensusTransactionKey where
  | external (key : ConsensusTransactionKey)
  | system (digest : TransactionDigest)
deriving DecidableEq, Repr

structure SequencedConsensusTransaction where
  certificateAuthor : AuthorityName
  transaction : SequencedConsensusTransactionKind
deriving DecidableEq, Repr

namespace SequencedConsensusTransaction

def key (tx : SequencedConsensusTransaction) : SequencedConsensusTransactionKey :=
  match tx.transaction with
  | .external transaction => .external transaction.key
  | .system transaction => .system transaction.digest

variable (tx : SequencedConsensusTransaction)

def isEndOfPublish : Bool :=
  match tx.transaction with
  | .external (.endOfPublish _) => true
  | _ => false

def isSystem : Bool :=
  match tx.transaction with
  | .system _ => true
  | _ => false

def isUserTxWithRandomness (randomnessStateEnabled : Bool) : Bool :=
  match tx.transaction with
  | .external (.userTransaction certificate) => randomnessStateEnabled && certificate.usesRandomness
  | _ => false

def isExecutableTransaction : Bool :=
  match tx.transaction with
  | .external (.userTransaction _) => true
  | .external _ => false
  | .system _ => true

def executableTransactionDigest : Option TransactionDigest :=
  match tx.transaction with
  | .external (.userTransaction certificate) => some certificate.digest
  | .external _ => none
  | .system transaction => some transaction.digest

def root : Option TransactionKey :=
  tx.executableTransactionDigest.map .digest

end SequencedConsensusTransaction

inductive CancelConsensusCertificateReason where
  | congestionOnObjects (objects : List ObjectId)
deriving DecidableEq, Repr

inductive ConsensusCertificateResult where
  | ignored
  | suiTransaction (transaction : VerifiedExecutableTransaction)
  | deferred (key : DeferralKey)
  | randomnessConsensusMessage
  | consensusMessage
  | ignoredSystem
  | cancelled (certificate : VerifiedExecutableTransaction) (reason : CancelConsensusCertificateReason)
deriving DecidableEq, Repr

inductive PerObjectCongestionControlMode where
  | none
  | totalGasBudget
deriving DecidableEq, Repr

inductive ConsensusTransactionOrdering where
  | none
  | byGasPrice
deriving DecidableEq, Repr

structure ConsensusCommitInfo where
  round : ℕ
  timestamp : ℕ
  consensusCommitDigest : Fin (2 ^ 256)
deriving DecidableEq, Repr

structure EpochConfig where
  committee : Committee
  randomnessStateEnabled : Bool
  perObjectCongestionControlMode : PerObjectCongestionControlMode
  maxAccumulatedTxnCostPerObjectInCheckpoint : ℕ
  maxDeferralRoundsForCongestionControl : ℕ
  consensusTransactionOrdering : ConsensusTransactionOrdering
  createConsensusCommitPrologueTransaction : ConsensusCommitInfo → VerifiedExecutableTransaction

def EpochConfig.epoch (cfg : EpochConfig) : ℕ := cfg.committee.epoch

inductive DkgStatus where
  | pending
  | failed
  | successful
deriving DecidableEq, Repr

/-- What the randomness manager answers during a commit. -/
structure RandomnessManager where
  dkgStatus : DkgStatus
  reserveNextRandomness : Option ℕ
deriving DecidableEq, Repr

structure PendingCheckpoint where
  roots : List TransactionKey
  timestampMs : ℕ
  lastOfEpoch : Bool
  checkpointHeight : ℕ
deriving DecidableEq, Repr

/-- The tables that the processing of commits reads and writes. -/
structure AuthorityPerEpochStore where
  deferredTransactions : TreeMap DeferralKey (List SequencedConsensusTransaction)
  consensusMessageProcessed : Finset SequencedConsensusTransactionKey
  endOfPublish : StakeAggregator Unit
  reconfigState : ReconfigCertStatus
  pendingCheckpoints : TreeMap ℕ PendingCheckpoint

namespace AuthorityPerEpochStore

def new : AuthorityPerEpochStore := ⟨∅, ∅, .new, .acceptAllCerts, ∅⟩

/-- Skips processed messages, and messages in the name of another authority. -/
def verifyConsensusTransaction (store : AuthorityPerEpochStore) (tx : SequencedConsensusTransaction) :
    Option SequencedConsensusTransaction :=
  if tx.key ∈ store.consensusMessageProcessed then none
  else match tx.transaction with
    | .external (.userTransaction _) => some tx
    | .external (.checkpointSignature authority _) =>
        if tx.certificateAuthor ≠ authority then none else some tx
    | .external (.endOfPublish authority) => if tx.certificateAuthor ≠ authority then none else some tx
    | .external (.capabilityNotification authority _) =>
        if tx.certificateAuthor ≠ authority then none else some tx
    | .external (.newJWKFetched authority id jwk) =>
      if tx.certificateAuthor ≠ authority then none
      else if !checkTotalJwkSize id jwk then none else some tx
    | .external (.randomnessDkgMessage authority) =>
        if tx.certificateAuthor ≠ authority then none else some tx
    | .external (.randomnessDkgConfirmation authority) =>
        if tx.certificateAuthor ≠ authority then none else some tx
    | .system _ => some tx

def loadDeferredTransactions (store : AuthorityPerEpochStore) (range : DeferralKey × DeferralKey) :
    List (DeferralKey × List SequencedConsensusTransaction) :=
  store.deferredTransactions.toList.filter fun e => decide (range.1 ≤ e.1 ∧ e.1 < range.2)

def previouslyDeferred (known : TreeMap TransactionDigest DeferralKey)
    (deferred : List (DeferralKey × List SequencedConsensusTransaction)) :
    Except CommitPanic (TreeMap TransactionDigest DeferralKey) :=
  (deferred.flatMap fun e => e.2.map fun tx => (e.1, tx)).foldlM (fun known e =>
    match e.2.key with
    | .external (.certificate digest) => .ok (known.insert digest e.1)
    | _ => .error .deferredNotUserCertificate) known

end AuthorityPerEpochStore

/-- What stays the same for all transactions of a commit. -/
structure CommitContext where
  commitRound : ℕ
  previouslyDeferredTxDigests : TreeMap TransactionDigest DeferralKey
  dkgFailed : Bool
  generatingRandomness : Bool

section Processing

variable (cfg : EpochConfig)

def shouldDefer (ctx : CommitContext) (cert : VerifiedExecutableTransaction)
    (tracker : SharedObjectCongestionTracker) :
    Except CommitPanic (Option (DeferralKey × DeferralReason)) :=
  if !ctx.dkgFailed && !ctx.generatingRandomness && cfg.randomnessStateEnabled &&
    cert.usesRandomness then
    let deferredFromRound := match ctx.previouslyDeferredTxDigests[cert.digest]? with
      | some previousKey => previousKey.deferredFromRound
      | none => ctx.commitRound
    .ok (some (.newForRandomness deferredFromRound, .randomnessNotReady))
  else match cfg.perObjectCongestionControlMode with
    | .none => .ok none
    | .totalGasBudget => do
      let congestion ← tracker.shouldDeferDueToObjectCongestion cert
        cfg.maxAccumulatedTxnCostPerObjectInCheckpoint
        ctx.previouslyDeferredTxDigests ctx.commitRound
      return congestion.map fun c => (c.1, .sharedObjectCongestion c.2)

def updateObjectExecutionCost (cert : VerifiedExecutableTransaction)
    (tracker : SharedObjectCongestionTracker) :
    Except CommitPanic SharedObjectCongestionTracker :=
  match cfg.perObjectCongestionControlMode with
  | .none => .ok tracker
  | .totalGasBudget => tracker.bumpObjectExecutionCost cert.sharedInputObjects cert.gasBudget

variable (store : AuthorityPerEpochStore)

def processConsensusSystemTransaction (systemTransaction : VerifiedExecutableTransaction) :
    Except CommitPanic ConsensusCertificateResult :=
  if !store.reconfigState.shouldAcceptTx then .ok .ignoredSystem
  else if systemTransaction.containsSharedObject then .ok (.suiTransaction systemTransaction)
  else .error (.systemTransactionWithoutSharedObject systemTransaction.digest)

/-- What becomes of a certificate that is accepted, after it was decided whether to defer it. -/
def settleCertificate (ctx : CommitContext) (certificate : VerifiedExecutableTransaction)
    (tracker : SharedObjectCongestionTracker) (deferral : Option (DeferralKey × DeferralReason)) :
    Except CommitPanic (ConsensusCertificateResult × SharedObjectCongestionTracker) :=
  match deferral with
  | some (deferralKey, .randomnessNotReady) => .ok (.deferred deferralKey, tracker)
  | some (deferralKey, .sharedObjectCongestion congestedObjects) =>
    if transactionDeferralWithinLimit deferralKey cfg.maxDeferralRoundsForCongestionControl then
      .ok (.deferred deferralKey, tracker)
    else .ok (.cancelled certificate (.congestionOnObjects congestedObjects), tracker)
  | none =>
    if ctx.dkgFailed && cfg.randomnessStateEnabled && certificate.usesRandomness then
      .ok (.ignored, tracker)
    else if certificate.containsSharedObject then do
      let tracker ← updateObjectExecutionCost cfg certificate tracker
      return (.suiTransaction certificate, tracker)
    else .ok (.suiTransaction certificate, tracker)

def processUserTransaction (ctx : CommitContext) (author : AuthorityName)
    (certificate : VerifiedExecutableTransaction) (tracker : SharedObjectCongestionTracker) :
    Except CommitPanic (ConsensusCertificateResult × SharedObjectCongestionTracker) :=
  let isPreviouslyDeferred := ctx.previouslyDeferredTxDigests.contains certificate.digest
  if certificate.epoch ≠ cfg.epoch then .ok (.ignored, tracker)
  else if store.endOfPublish.data.contains author && !isPreviouslyDeferred then .ok (.ignored, tracker)
  else if !store.reconfigState.shouldAcceptConsensusCerts && !isPreviouslyDeferred then
    .ok (.ignored, tracker)
  else do settleCertificate cfg ctx certificate tracker (← shouldDefer cfg ctx certificate tracker)

def processConsensusTransaction (ctx : CommitContext) (tx : SequencedConsensusTransaction)
    (tracker : SharedObjectCongestionTracker) :
    Except CommitPanic (ConsensusCertificateResult × SharedObjectCongestionTracker) :=
  match tx.transaction with
  | .external (.userTransaction certificate) =>
      processUserTransaction cfg store ctx tx.certificateAuthor certificate tracker
  | .external (.checkpointSignature _ _) => .ok (.consensusMessage, tracker)
  | .external (.endOfPublish _) => .error .endOfPublishNotPartitioned
  | .external (.capabilityNotification _ _) => .ok (.consensusMessage, tracker)
  | .external (.newJWKFetched _ _ _) => .ok (.consensusMessage, tracker)
  | .external (.randomnessDkgMessage _) => .ok (.randomnessConsensusMessage, tracker)
  | .external (.randomnessDkgConfirmation _) => .ok (.randomnessConsensusMessage, tracker)
  | .system transaction => do return (← processConsensusSystemTransaction store transaction, tracker)

/-- What the loop over the transactions of a commit has collected. The results are recorded for
the statements about it. -/
structure CommitLoop where
  verifiedCertificates : List VerifiedExecutableTransaction
  notifications : List SequencedConsensusTransactionKey
  deferredTxns : TreeMap DeferralKey (List SequencedConsensusTransaction)
  cancelledTxns : TreeMap TransactionDigest CancelConsensusCertificateReason
  tracker : SharedObjectCongestionTracker
  randomnessTracker : SharedObjectCongestionTracker
  randomnessStateUpdated : Bool
  processed : Finset SequencedConsensusTransactionKey
  roots : TreeSet TransactionKey
  randomnessRoots : TreeSet TransactionKey
  results : List (SequencedConsensusTransaction × ConsensusCertificateResult)

namespace CommitLoop

def new (roots randomnessRoots : TreeSet TransactionKey) : CommitLoop :=
  ⟨[], [], ∅, ∅, .new, .new, false, ∅, roots, randomnessRoots, []⟩

variable (loop : CommitLoop) (tx : SequencedConsensusTransaction)

def recordProcessed : CommitLoop :=
  { loop with processed := insert tx.key loop.processed }

/-- A transaction that is not scheduled is no root. -/
def filterRoots : CommitLoop :=
  match tx.root with
  | some key =>
      { loop with roots := loop.roots.erase key, randomnessRoots := loop.randomnessRoots.erase key }
  | none => loop

def record (result : ConsensusCertificateResult) :
    Except CommitPanic CommitLoop :=
  let loop := { loop with results := loop.results ++ [(tx, result)] }
  match result with
  | .suiTransaction cert =>
    let loop := { loop with
      notifications := loop.notifications ++ [tx.key]
      verifiedCertificates := loop.verifiedCertificates ++ [cert] }
    .ok (loop.recordProcessed tx)
  | .deferred deferralKey =>
    let loop := { loop with
      deferredTxns :=
        loop.deferredTxns.insert deferralKey ((loop.deferredTxns[deferralKey]?).getD [] ++ [tx])
      notifications := if tx.isExecutableTransaction then loop.notifications ++ [tx.key]
        else loop.notifications }
    .ok ((loop.recordProcessed tx).filterRoots tx)
  | .cancelled cert reason =>
    if loop.cancelledTxns.contains cert.digest then .error (.cancelledTwice cert.digest)
    else
      let loop := { loop with
        notifications := loop.notifications ++ [tx.key]
        cancelledTxns := loop.cancelledTxns.insert cert.digest reason
        verifiedCertificates := loop.verifiedCertificates ++ [cert] }
      .ok (loop.recordProcessed tx)
  | .randomnessConsensusMessage =>
    let loop := { loop with
      randomnessStateUpdated := true, notifications := loop.notifications ++ [tx.key] }
    .ok (loop.recordProcessed tx)
  | .consensusMessage =>
      .ok ({ loop with notifications := loop.notifications ++ [tx.key] }.recordProcessed tx)
  | .ignoredSystem => .ok ((loop.recordProcessed tx).filterRoots tx)
  | .ignored => .ok (loop.filterRoots tx)

/-- One transaction of the loop. Those that use randomness have a congestion tracker of
their own. -/
def step (store : AuthorityPerEpochStore) (ctx : CommitContext) (loop : CommitLoop)
    (tx : SequencedConsensusTransaction) :
    Except CommitPanic CommitLoop := do
  if tx.isUserTxWithRandomness cfg.randomnessStateEnabled then
    let (result, tracker) ← processConsensusTransaction cfg store ctx tx loop.randomnessTracker
    { loop with randomnessTracker := tracker }.record tx result
  else
    let (result, tracker) ← processConsensusTransaction cfg store ctx tx loop.tracker
    { loop with tracker := tracker }.record tx result

def addConsensusCommitPrologueTransaction (store : AuthorityPerEpochStore)
    (info : ConsensusCommitInfo) (loop : CommitLoop) :
    Except CommitPanic CommitLoop := do
  let transaction := cfg.createConsensusCommitPrologueTransaction info
  let loop := { loop with processed := insert (.system transaction.digest) loop.processed }
  match ← processConsensusSystemTransaction store transaction with
  | .suiTransaction processedTx =>
    return { loop with
      roots := loop.roots.insert processedTx.key
      verifiedCertificates := processedTx :: loop.verifiedCertificates }
  | _ => return loop

end CommitLoop

structure EndOfPublishLoop where
  endOfPublish : StakeAggregator Unit
  reconfigState : ReconfigCertStatus
  isLocked : Bool
  processed : Finset SequencedConsensusTransactionKey

def EndOfPublishLoop.step (loop : EndOfPublishLoop) (tx : SequencedConsensusTransaction) :
    Except CommitPanic EndOfPublishLoop :=
  match tx.transaction with
  | .external (.endOfPublish authority) =>
    let loop := { loop with processed := insert tx.key loop.processed }
    if !loop.isLocked && loop.reconfigState.shouldAcceptConsensusCerts then
      let (endOfPublish, result) := loop.endOfPublish.insertGeneric cfg.committee true authority ()
      let loop := { loop with endOfPublish := endOfPublish }
      if result.isQuorumReached then
        .ok { loop with reconfigState := loop.reconfigState.closeAllCerts, isLocked := true }
      else .ok loop
    else .ok loop
  | _ => .error .noEndOfPublish

variable (transactions : List SequencedConsensusTransaction)

/-- The epoch ends in a commit without deferred transactions after a quorum has ended publishing. -/
def processEndOfPublishTransactionsAndReconfig (commitHasDeferredTxns : Bool) :
    Except CommitPanic (EndOfPublishLoop × Bool) := do
  let loop ← transactions.foldlM (EndOfPublishLoop.step cfg)
    ⟨store.endOfPublish, store.reconfigState, false, ∅⟩
  if !loop.reconfigState.isRejectAllCerts || !store.deferredTransactions.isEmpty ||
    commitHasDeferredTxns then
    return (loop, false)
  else return ({ loop with reconfigState := loop.reconfigState.closeAllTx, isLocked := true }, true)

/-- Ordered by gas price, from high to low; other transactions than certificates come first. -/
def reorder : List SequencedConsensusTransaction :=
  let price (tx : SequencedConsensusTransaction) : ℕ := match tx.transaction with
    | .external (.userTransaction cert) => cert.gasPrice
    | _ => 2 ^ 64 - 1
  match cfg.consensusTransactionOrdering with
  | .byGasPrice => transactions.mergeSort fun a b => decide (price b ≤ price a)
  | .none => transactions

/-- A checkpoint at a height that was already written must have the same roots. -/
def writePendingCheckpoint (pendingCheckpoints : TreeMap ℕ PendingCheckpoint)
    (checkpoint : PendingCheckpoint) :
    Except CommitPanic (TreeMap ℕ PendingCheckpoint) :=
  match pendingCheckpoints[checkpoint.checkpointHeight]? with
  | some pending =>
    if pending.roots ≠ checkpoint.roots then
      .error (.contradictingPendingCheckpoint checkpoint.checkpointHeight)
    else .ok pendingCheckpoints
  | none => .ok (pendingCheckpoints.insert checkpoint.checkpointHeight checkpoint)

structure PartitionedTransactions where
  system : List SequencedConsensusTransaction
  sequenced : List SequencedConsensusTransaction
  randomness : List SequencedConsensusTransaction
  endOfPublish : List SequencedConsensusTransaction

def partitionTransactions : PartitionedTransactions where
  endOfPublish := transactions.filter fun tx => tx.isEndOfPublish
  system := transactions.filter fun tx => !tx.isEndOfPublish && tx.isSystem
  randomness := transactions.filter fun tx =>
    !tx.isEndOfPublish && !tx.isSystem && tx.isUserTxWithRandomness cfg.randomnessStateEnabled
  sequenced := transactions.filter fun tx =>
    !tx.isEndOfPublish && !tx.isSystem && !tx.isUserTxWithRandomness cfg.randomnessStateEnabled

variable (manager : RandomnessManager)

def randomnessOf : Bool × Option ℕ :=
  if cfg.randomnessStateEnabled then
    match manager.dkgStatus with
    | .pending => (false, none)
    | .failed => (true, none)
    | .successful =>
        (false, if store.reconfigState.shouldAcceptTx then manager.reserveNextRandomness else none)
  else (false, none)

def rootsOf : TreeSet TransactionKey :=
  (transactions.filterMap SequencedConsensusTransaction.root).foldl (fun t k => t.insert k) ∅

structure LoadedCommit where
  loaded : List (DeferralKey × List SequencedConsensusTransaction)
  ctx : CommitContext
  randomnessRound : Option ℕ
  system : List SequencedConsensusTransaction
  sequenced : List SequencedConsensusTransaction
  randomness : List SequencedConsensusTransaction
  endOfPublish : List SequencedConsensusTransaction

def loadCommit (info : ConsensusCommitInfo) : Except CommitPanic LoadedCommit := do
  let current := partitionTransactions cfg (transactions.filterMap store.verifyConsensusTransaction)
  let deferredTxs := store.loadDeferredTransactions (← DeferralKey.rangeForUpToConsensusRound info.round)
  let previouslyDeferredTxDigests ← AuthorityPerEpochStore.previouslyDeferred ∅ deferredTxs
  let (dkgFailed, randomnessRound) := randomnessOf cfg store manager
  let deferredRandomnessTxs := if dkgFailed || randomnessRound.isSome then
    store.loadDeferredTransactions DeferralKey.fullRangeForRandomness else []
  let previouslyDeferredTxDigests ← AuthorityPerEpochStore.previouslyDeferred
    previouslyDeferredTxDigests deferredRandomnessTxs
  let due := deferredTxs.flatMap fun e => e.2
  return {
    loaded := deferredTxs ++ deferredRandomnessTxs
    ctx := ⟨info.round, previouslyDeferredTxDigests, dkgFailed, randomnessRound.isSome⟩
    randomnessRound := randomnessRound
    system := current.system
    sequenced := (due.filter fun tx => !tx.isUserTxWithRandomness cfg.randomnessStateEnabled) ++
      current.sequenced
    randomness := (deferredRandomnessTxs.flatMap fun e => e.2) ++
      (due.filter fun tx => tx.isUserTxWithRandomness cfg.randomnessStateEnabled) ++ current.randomness
    endOfPublish := current.endOfPublish }

def processConsensusTransactions (commit : LoadedCommit) (info : ConsensusCommitInfo) :
    Except CommitPanic (CommitLoop × EndOfPublishLoop × Bool) :=
  if commit.randomnessRound.isSome && commit.ctx.dkgFailed then .error .randomnessAfterDkgFailure
  else do
    let roots := rootsOf (commit.system ++ commit.sequenced)
    let randomnessRoots := rootsOf commit.randomness
    let transactions := commit.system ++ reorder cfg commit.sequenced ++ reorder cfg commit.randomness
    let loop ← transactions.foldlM (CommitLoop.step cfg store commit.ctx) (.new roots randomnessRoots)
    let loop ← loop.addConsensusCommitPrologueTransaction cfg store info
    let (endOfPublish, finalRound) ← processEndOfPublishTransactionsAndReconfig cfg store
      commit.endOfPublish
      (!loop.deferredTxns.isEmpty)
    return (loop, endOfPublish, finalRound)

def pendingCheckpointsOf (commit : LoadedCommit) (loop : CommitLoop)
    (endOfPublish : EndOfPublishLoop) (finalRound : Bool)
    (info : ConsensusCommitInfo) : List PendingCheckpoint :=
  if endOfPublish.reconfigState.shouldAcceptTx || finalRound then
    let checkpointHeight := if cfg.randomnessStateEnabled then info.round * 2 else info.round
    let checkpoint : PendingCheckpoint :=
      ⟨loop.roots.toList, info.timestamp, finalRound && commit.randomnessRound.isNone, checkpointHeight⟩
    match commit.randomnessRound with
    | some randomnessRound =>
      let randomnessRoots := loop.randomnessRoots.insert (.randomnessRound cfg.epoch randomnessRound)
      [checkpoint, ⟨randomnessRoots.toList, info.timestamp, finalRound, checkpointHeight + 1⟩]
    | none => [checkpoint]
  else []

structure CommitOutput where
  transactionsToSchedule : List VerifiedExecutableTransaction
  notifications : List SequencedConsensusTransactionKey
  results : List (SequencedConsensusTransaction × ConsensusCertificateResult)
  deferralWrites : List (DeferralKey × List SequencedConsensusTransaction)
  pendingCheckpoints : List PendingCheckpoint
  randomnessRound : Option ℕ
  finalRound : Bool

def processConsensusTransactionsAndCommitBoundary (info : ConsensusCommitInfo) :
    Except CommitPanic (AuthorityPerEpochStore × CommitOutput) := do
  let commit ← loadCommit cfg store transactions manager info
  let (loop, endOfPublish, finalRound) ← processConsensusTransactions cfg store commit info
  let checkpoints := pendingCheckpointsOf cfg commit loop endOfPublish finalRound info
  let pendingCheckpoints ← checkpoints.foldlM writePendingCheckpoint store.pendingCheckpoints
  let deferralWrites := loop.deferredTxns.toList
  return (
    { deferredTransactions := deferralWrites.foldl (fun m e => m.insert e.1 e.2)
        (commit.loaded.foldl (fun m e => m.erase e.1) store.deferredTransactions)
      consensusMessageProcessed :=
        store.consensusMessageProcessed ∪ loop.processed ∪ endOfPublish.processed
      endOfPublish := endOfPublish.endOfPublish
      reconfigState := endOfPublish.reconfigState
      pendingCheckpoints := pendingCheckpoints },
    ⟨loop.verifiedCertificates, loop.notifications ++
      commit.endOfPublish.map SequencedConsensusTransaction.key, loop.results,
      deferralWrites, checkpoints, commit.randomnessRound, finalRound⟩)

end Processing

end SuiProofs.Authority

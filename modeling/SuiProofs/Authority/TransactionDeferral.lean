import SuiProofs.Library.Exec
import SuiProofs.Authority.Base

/-! Models `transaction_deferral.rs` and `shared_object_congestion_tracker.rs` of `sui-core`. -/

namespace SuiProofs.Authority

open Library Std

/-- The assertions, `expect`s and `unwrap`s met while a commit is processed. -/
inductive CommitPanic where
  | roundOverflow
  | noSharedInputObjects
  | noCongestedObjects
  | costNotIncreased (id : ObjectId)
  | deferredNotUserCertificate
  | randomnessAfterDkgFailure
  | cancelledTwice (digest : TransactionDigest)
  | endOfPublishNotPartitioned
  | noEndOfPublish
  | systemTransactionWithoutSharedObject (digest : TransactionDigest)
  | contradictingPendingCheckpoint (height : ℕ)
deriving DecidableEq, Repr

/-- Where a deferred transaction waits: for randomness, or for a commit of a later round. Both
record the round of the commit that deferred it first. -/
inductive DeferralKey where
  | randomness (deferredFromRound : ℕ)
  | consensusRound (futureRound deferredFromRound : ℕ)
deriving DecidableEq, Repr

namespace DeferralKey

/-- The derived order. -/
def key : DeferralKey → ℕ ×ₗ ℕ ×ₗ ℕ
  | randomness deferredFromRound => toLex (0, toLex (deferredFromRound, 0))
  | consensusRound futureRound deferredFromRound => toLex (1, toLex (futureRound, deferredFromRound))

lemma key_injective : Function.Injective key := by
  intro k k' h
  cases k <;> cases k' <;> simp_all [key]

instance : LinearOrder DeferralKey := LinearOrder.lift' key key_injective

def newForRandomness (deferredFromRound : ℕ) : DeferralKey := randomness deferredFromRound

def newForConsensusRound (futureRound deferredFromRound : ℕ) : DeferralKey :=
  consensusRound futureRound deferredFromRound

def fullRangeForRandomness : DeferralKey × DeferralKey := (randomness 0, randomness (2 ^ 64 - 1))

def rangeForUpToConsensusRound (consensusRound : ℕ) : Except CommitPanic (DeferralKey × DeferralKey) :=
  if consensusRound + 1 < 2 ^ 64 then .ok (.consensusRound 0 0, .consensusRound (consensusRound + 1) 0)
  else .error .roundOverflow

def deferredFromRound : DeferralKey → ℕ
  | randomness deferredFromRound => deferredFromRound
  | consensusRound _ deferredFromRound => deferredFromRound

end DeferralKey

inductive DeferralReason where
  | randomnessNotReady
  | sharedObjectCongestion (congestedObjects : List ObjectId)
deriving DecidableEq, Repr

def transactionDeferralWithinLimit (deferralKey : DeferralKey)
    (maxDeferralRoundsForCongestionControl : ℕ) : Bool :=
  match deferralKey with
  | .consensusRound futureRound deferredFromRound =>
    decide (futureRound - deferredFromRound ≤ maxDeferralRoundsForCongestionControl)
  | .randomness _ => true

structure SharedInputObject where
  id : ObjectId
  initialSharedVersion : SequenceNumber
  isMutable : Bool
deriving DecidableEq, Repr

inductive TransactionKind where
  | randomnessStateUpdate (epoch randomnessRound : ℕ)
  | other
deriving DecidableEq, Repr

inductive TransactionKey where
  | digest (digest : TransactionDigest)
  | randomnessRound (epoch randomnessRound : ℕ)
deriving DecidableEq, Repr

namespace TransactionKey

/-- The derived order. -/
def order : TransactionKey → ℕ ×ₗ ℕ ×ₗ ℕ
  | digest d => toLex (0, toLex (d.val, 0))
  | randomnessRound epoch round => toLex (1, toLex (epoch, round))

lemma order_injective : Function.Injective order := by
  intro k k' h
  cases k <;> cases k' <;> simp_all [order, Fin.ext_iff]

instance : LinearOrder TransactionKey := LinearOrder.lift' order order_injective

end TransactionKey

structure VerifiedExecutableTransaction extends ExecutableTransaction where
  gasBudget : ℕ
  gasPrice : ℕ
  kind : TransactionKind
deriving DecidableEq, Repr

namespace VerifiedExecutableTransaction

def suiRandomnessStateObjectId : ObjectId := 8

variable (tx : VerifiedExecutableTransaction)

def sharedInputObjects : List SharedInputObject :=
  tx.inputObjects.filterMap fun
    | .sharedMoveObject id initialSharedVersion isMutable => some ⟨id, initialSharedVersion, isMutable⟩
    | _ => none

def containsSharedObject : Bool := !tx.sharedInputObjects.isEmpty

def usesRandomness : Bool :=
  tx.sharedInputObjects.any fun obj => obj.id = suiRandomnessStateObjectId

def key : TransactionKey :=
  match tx.kind with
  | .randomnessStateUpdate epoch randomnessRound => .randomnessRound epoch randomnessRound
  | .other => .digest tx.digest

end VerifiedExecutableTransaction

structure SharedObjectCongestionTracker where
  objectExecutionCost : TreeMap ObjectId ℕ

namespace SharedObjectCongestionTracker

def new : SharedObjectCongestionTracker := ⟨∅⟩

variable (tracker : SharedObjectCongestionTracker)

def cost (obj : SharedInputObject) : ℕ :=
  (tracker.objectExecutionCost[obj.id]?).getD 0

variable (sharedInputObjects : List SharedInputObject)

def computeTxStartAtCost :
    Except CommitPanic ℕ :=
  match (sharedInputObjects.map tracker.cost).max? with
  | some cost => .ok cost
  | none => .error .noSharedInputObjects

/-- The key under which a transaction is deferred, and the objects that are congested. -/
def shouldDeferDueToObjectCongestion (cert : VerifiedExecutableTransaction)
    (maxAccumulatedTxnCostPerObjectInCheckpoint : ℕ)
    (previouslyDeferredTxDigests : TreeMap TransactionDigest DeferralKey)
    (commitRound : ℕ) : Except CommitPanic (Option (DeferralKey × List ObjectId)) := do
  let startCost ← tracker.computeTxStartAtCost cert.sharedInputObjects
  let congestedObjects :=
    (cert.sharedInputObjects.filter fun obj => startCost = tracker.cost obj).map fun obj => obj.id
  let deferralKey := match previouslyDeferredTxDigests[cert.digest]? with
    | some previousKey => .newForConsensusRound (commitRound + 1) previousKey.deferredFromRound
    | none => .newForConsensusRound (commitRound + 1) commitRound
  if startCost + cert.gasBudget ≤ maxAccumulatedTxnCostPerObjectInCheckpoint then return none
  else if congestedObjects.isEmpty then throw .noCongestedObjects
  else return some (deferralKey, congestedObjects)

def bumpObject (endCost : ℕ) (tracker : SharedObjectCongestionTracker) (obj : SharedInputObject) :
    Except CommitPanic SharedObjectCongestionTracker :=
  if obj.isMutable then
    match tracker.objectExecutionCost[obj.id]? with
    | some oldEndCost =>
      if oldEndCost < endCost then .ok ⟨tracker.objectExecutionCost.insert obj.id endCost⟩
      else .error (.costNotIncreased obj.id)
    | none => .ok ⟨tracker.objectExecutionCost.insert obj.id endCost⟩
  else .ok tracker

def bumpObjectExecutionCost (txCost : ℕ) :
    Except CommitPanic SharedObjectCongestionTracker := do
  let startCost ← tracker.computeTxStartAtCost sharedInputObjects
  sharedInputObjects.foldlM (bumpObject (startCost + txCost)) tracker

end SharedObjectCongestionTracker

end SuiProofs.Authority

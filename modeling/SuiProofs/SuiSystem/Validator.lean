import SuiProofs.SuiSystem.StakingPool

/-! Models `validator.move`. The native check of metadata is a parameter. -/

namespace SuiProofs.SuiSystem

open Library

abbrev Bytes := List UInt8

structure ValidatorMetadata where
  suiAddress : SuiAddress
  protocolPubkeyBytes : Bytes
  networkPubkeyBytes : Bytes
  workerPubkeyBytes : Bytes
  proofOfPossession : Bytes
  name : Bytes
  description : Bytes
  imageUrl : Bytes
  projectUrl : Bytes
  netAddress : Bytes
  p2pAddress : Bytes
  primaryAddress : Bytes
  workerAddress : Bytes
  nextEpochProtocolPubkeyBytes : Option Bytes
  nextEpochProofOfPossession : Option Bytes
  nextEpochNetworkPubkeyBytes : Option Bytes
  nextEpochWorkerPubkeyBytes : Option Bytes
  nextEpochNetAddress : Option Bytes
  nextEpochP2pAddress : Option Bytes
  nextEpochPrimaryAddress : Option Bytes
  nextEpochWorkerAddress : Option Bytes
deriving DecidableEq, Repr

structure Validator where
  metadata : ValidatorMetadata
  votingPower : ℕ
  operationCapId : ID
  gasPrice : ℕ
  stakingPool : StakingPool
  commissionRate : ℕ
  nextEpochStake : ℕ
  nextEpochGasPrice : ℕ
  nextEpochCommissionRate : ℕ

def maxCommissionRate : ℕ := 2000

def maxValidatorMetadataLength : ℕ := 256

def maxValidatorGasPrice : ℕ := 100000

/-- Converting bytes above the ASCII range aborts. -/
def toAsciiString (bytes : Bytes) : Except Abort Bytes :=
  if bytes.all fun byte => byte ≤ 0x7F then .ok bytes else .error .invalidAsciiCharacter

def metadataText (bytes : Bytes) : Except Abort Bytes := do
  check (bytes.length ≤ maxValidatorMetadataLength) .metadataExceedingLengthLimit
  toAsciiString bytes

def isEqualSomeAndValue (a : Option Bytes) (b : Bytes) : Bool :=
  match a with
  | none => false
  | some a => a == b

def isEqualSome (a b : Option Bytes) : Bool :=
  match a, b with
  | some a, some b => a == b
  | _, _ => false

structure Registration where
  protocolPubkeyBytes : Bytes
  networkPubkeyBytes : Bytes
  workerPubkeyBytes : Bytes
  proofOfPossession : Bytes
  name : Bytes
  description : Bytes
  imageUrl : Bytes
  projectUrl : Bytes
  netAddress : Bytes
  p2pAddress : Bytes
  primaryAddress : Bytes
  workerAddress : Bytes
  gasPrice : ℕ
  commissionRate : ℕ
deriving DecidableEq, Repr

namespace ValidatorMetadata

def new (suiAddress : SuiAddress) (registration : Registration) : Except Abort ValidatorMetadata := do
  let name ← toAsciiString registration.name
  let description ← toAsciiString registration.description
  let imageUrl ← toAsciiString registration.imageUrl
  let projectUrl ← toAsciiString registration.projectUrl
  let netAddress ← toAsciiString registration.netAddress
  let p2pAddress ← toAsciiString registration.p2pAddress
  let primaryAddress ← toAsciiString registration.primaryAddress
  let workerAddress ← toAsciiString registration.workerAddress
  return {
    suiAddress, protocolPubkeyBytes := registration.protocolPubkeyBytes,
    networkPubkeyBytes := registration.networkPubkeyBytes,
    workerPubkeyBytes := registration.workerPubkeyBytes,
    proofOfPossession := registration.proofOfPossession, name, description, imageUrl, projectUrl,
    netAddress, p2pAddress, primaryAddress, workerAddress, nextEpochProtocolPubkeyBytes := none,
    nextEpochProofOfPossession := none, nextEpochNetworkPubkeyBytes := none,
    nextEpochWorkerPubkeyBytes := none, nextEpochNetAddress := none, nextEpochP2pAddress := none,
    nextEpochPrimaryAddress := none, nextEpochWorkerAddress := none }

def isDuplicate (self other : ValidatorMetadata) : Bool :=
  self.suiAddress == other.suiAddress
    || self.name == other.name
    || self.netAddress == other.netAddress
    || self.p2pAddress == other.p2pAddress
    || self.protocolPubkeyBytes == other.protocolPubkeyBytes
    || self.networkPubkeyBytes == other.networkPubkeyBytes
    || self.networkPubkeyBytes == other.workerPubkeyBytes
    || self.workerPubkeyBytes == other.workerPubkeyBytes
    || self.workerPubkeyBytes == other.networkPubkeyBytes
    -- All next epoch parameters.
    || isEqualSome self.nextEpochNetAddress other.nextEpochNetAddress
    || isEqualSome self.nextEpochP2pAddress other.nextEpochP2pAddress
    || isEqualSome self.nextEpochProtocolPubkeyBytes other.nextEpochProtocolPubkeyBytes
    || isEqualSome self.nextEpochNetworkPubkeyBytes other.nextEpochNetworkPubkeyBytes
    || isEqualSome self.nextEpochNetworkPubkeyBytes other.nextEpochWorkerPubkeyBytes
    || isEqualSome self.nextEpochWorkerPubkeyBytes other.nextEpochWorkerPubkeyBytes
    || isEqualSome self.nextEpochWorkerPubkeyBytes other.nextEpochNetworkPubkeyBytes
    -- My next epoch parameters with other current epoch parameters.
    || isEqualSomeAndValue self.nextEpochNetAddress other.netAddress
    || isEqualSomeAndValue self.nextEpochP2pAddress other.p2pAddress
    || isEqualSomeAndValue self.nextEpochProtocolPubkeyBytes other.protocolPubkeyBytes
    || isEqualSomeAndValue self.nextEpochNetworkPubkeyBytes other.networkPubkeyBytes
    || isEqualSomeAndValue self.nextEpochNetworkPubkeyBytes other.workerPubkeyBytes
    || isEqualSomeAndValue self.nextEpochWorkerPubkeyBytes other.workerPubkeyBytes
    || isEqualSomeAndValue self.nextEpochWorkerPubkeyBytes other.networkPubkeyBytes
    -- Other next epoch parameters with my current epoch parameters.
    || isEqualSomeAndValue other.nextEpochNetAddress self.netAddress
    || isEqualSomeAndValue other.nextEpochP2pAddress self.p2pAddress
    || isEqualSomeAndValue other.nextEpochProtocolPubkeyBytes self.protocolPubkeyBytes
    || isEqualSomeAndValue other.nextEpochNetworkPubkeyBytes self.networkPubkeyBytes
    || isEqualSomeAndValue other.nextEpochNetworkPubkeyBytes self.workerPubkeyBytes
    || isEqualSomeAndValue other.nextEpochWorkerPubkeyBytes self.workerPubkeyBytes
    || isEqualSomeAndValue other.nextEpochWorkerPubkeyBytes self.networkPubkeyBytes

/-- A staged protocol key comes with its proof of possession. -/
def effectuateProtocolPubkey (self : ValidatorMetadata) : Except Abort ValidatorMetadata :=
  match self.nextEpochProtocolPubkeyBytes, self.nextEpochProofOfPossession with
  | none, _ => .ok self
  | some _, none => .error .optionNotSet
  | some protocolPubkey, some proofOfPossession =>
    .ok { self with
      protocolPubkeyBytes := protocolPubkey
      nextEpochProtocolPubkeyBytes := none
      proofOfPossession := proofOfPossession
      nextEpochProofOfPossession := none }

def effectuateStaged (self : ValidatorMetadata) : Except Abort ValidatorMetadata := do
  let self := { self with
    netAddress := self.nextEpochNetAddress.getD self.netAddress, nextEpochNetAddress := none }
  let self := { self with
    p2pAddress := self.nextEpochP2pAddress.getD self.p2pAddress, nextEpochP2pAddress := none }
  let self := { self with
    primaryAddress := self.nextEpochPrimaryAddress.getD self.primaryAddress,
    nextEpochPrimaryAddress := none }
  let self := { self with
    workerAddress := self.nextEpochWorkerAddress.getD self.workerAddress,
    nextEpochWorkerAddress := none }
  let self ← self.effectuateProtocolPubkey
  let self := { self with
    networkPubkeyBytes := self.nextEpochNetworkPubkeyBytes.getD self.networkPubkeyBytes,
      nextEpochNetworkPubkeyBytes := none }
  return { self with
    workerPubkeyBytes := self.nextEpochWorkerPubkeyBytes.getD self.workerPubkeyBytes,
      nextEpochWorkerPubkeyBytes := none }

end ValidatorMetadata

namespace Validator

def suiAddress (self : Validator) : SuiAddress := self.metadata.suiAddress

def totalStakeAmount (self : Validator) : ℕ := self.stakingPool.suiBalance

def stakeAmount (self : Validator) : ℕ := self.stakingPool.suiBalance

def totalStake (self : Validator) : ℕ := self.stakeAmount

def isPreactive (self : Validator) : Bool := self.stakingPool.isPreactive

def stakingPoolId (self : Validator) : ID := self.stakingPool.id

def isDuplicate (self other : Validator) : Bool := self.metadata.isDuplicate other.metadata

def newFromMetadata (metadata : ValidatorMetadata) (gasPrice commissionRate : ℕ)
    (poolId operationCapId : ID) : Validator :=
  { metadata, votingPower := 0, operationCapId, gasPrice, stakingPool := .new poolId,
    commissionRate, nextEpochStake := 0, nextEpochGasPrice := gasPrice,
    nextEpochCommissionRate := commissionRate }

section Metadata

-- The native function `validate_metadata_bcs`.
variable (validateMetadata : ValidatorMetadata → Bool)

def new (suiAddress : SuiAddress) (registration : Registration) (poolId operationCapId : ID) :
    Except Abort Validator := do
  check (registration.netAddress.length ≤ maxValidatorMetadataLength
    && registration.p2pAddress.length ≤ maxValidatorMetadataLength
    && registration.primaryAddress.length ≤ maxValidatorMetadataLength
    && registration.workerAddress.length ≤ maxValidatorMetadataLength
    && registration.name.length ≤ maxValidatorMetadataLength
    && registration.description.length ≤ maxValidatorMetadataLength
    && registration.imageUrl.length ≤ maxValidatorMetadataLength
    && registration.projectUrl.length ≤ maxValidatorMetadataLength) .metadataExceedingLengthLimit
  check (registration.commissionRate ≤ maxCommissionRate) .commissionRateTooHigh
  check (registration.gasPrice < maxValidatorGasPrice) .gasPriceHigherThanThreshold
  let metadata ← ValidatorMetadata.new suiAddress registration
  check (validateMetadata metadata) .invalidMetadata
  return newFromMetadata metadata registration.gasPrice registration.commissionRate poolId operationCapId

variable (self : Validator)

def setValidMetadata (metadata : ValidatorMetadata) : Except Abort Validator := do
  check (validateMetadata metadata) .invalidMetadata
  return { self with metadata }

def updateName (name : Bytes) : Except Abort Validator := do
  let name ← metadataText name
  return { self with metadata := { self.metadata with name } }

def updateDescription (description : Bytes) : Except Abort Validator := do
  let description ← metadataText description
  return { self with metadata := { self.metadata with description } }

def updateImageUrl (imageUrl : Bytes) : Except Abort Validator := do
  let imageUrl ← metadataText imageUrl
  return { self with metadata := { self.metadata with imageUrl } }

def updateProjectUrl (projectUrl : Bytes) : Except Abort Validator := do
  let projectUrl ← metadataText projectUrl
  return { self with metadata := { self.metadata with projectUrl } }

def updateNextEpochNetworkAddress (netAddress : Bytes) : Except Abort Validator := do
  let netAddress ← metadataText netAddress
  self.setValidMetadata validateMetadata { self.metadata with nextEpochNetAddress := some netAddress }

def updateCandidateNetworkAddress (netAddress : Bytes) : Except Abort Validator := do
  check self.isPreactive .notValidatorCandidate
  let netAddress ← metadataText netAddress
  self.setValidMetadata validateMetadata { self.metadata with netAddress }

def updateNextEpochP2pAddress (p2pAddress : Bytes) : Except Abort Validator := do
  let p2pAddress ← metadataText p2pAddress
  self.setValidMetadata validateMetadata { self.metadata with nextEpochP2pAddress := some p2pAddress }

def updateCandidateP2pAddress (p2pAddress : Bytes) : Except Abort Validator := do
  check self.isPreactive .notValidatorCandidate
  let p2pAddress ← metadataText p2pAddress
  self.setValidMetadata validateMetadata { self.metadata with p2pAddress }

def updateNextEpochPrimaryAddress (primaryAddress : Bytes) : Except Abort Validator := do
  let primaryAddress ← metadataText primaryAddress
  self.setValidMetadata validateMetadata { self.metadata with
    nextEpochPrimaryAddress := some primaryAddress }

def updateCandidatePrimaryAddress (primaryAddress : Bytes) : Except Abort Validator := do
  check self.isPreactive .notValidatorCandidate
  let primaryAddress ← metadataText primaryAddress
  self.setValidMetadata validateMetadata { self.metadata with primaryAddress }

def updateNextEpochWorkerAddress (workerAddress : Bytes) : Except Abort Validator := do
  let workerAddress ← metadataText workerAddress
  self.setValidMetadata validateMetadata { self.metadata with
    nextEpochWorkerAddress := some workerAddress }

def updateCandidateWorkerAddress (workerAddress : Bytes) : Except Abort Validator := do
  check self.isPreactive .notValidatorCandidate
  let workerAddress ← metadataText workerAddress
  self.setValidMetadata validateMetadata { self.metadata with workerAddress }

def updateNextEpochProtocolPubkey (protocolPubkey proofOfPossession : Bytes) : Except Abort Validator :=
  self.setValidMetadata validateMetadata { self.metadata with
    nextEpochProtocolPubkeyBytes := some protocolPubkey
    nextEpochProofOfPossession := some proofOfPossession }

def updateCandidateProtocolPubkey (protocolPubkey proofOfPossession : Bytes) :
    Except Abort Validator := do
  check self.isPreactive .notValidatorCandidate
  self.setValidMetadata validateMetadata { self.metadata with
    protocolPubkeyBytes := protocolPubkey, proofOfPossession }

def updateNextEpochNetworkPubkey (networkPubkey : Bytes) : Except Abort Validator :=
  self.setValidMetadata validateMetadata { self.metadata with
    nextEpochNetworkPubkeyBytes := some networkPubkey }

def updateCandidateNetworkPubkey (networkPubkey : Bytes) : Except Abort Validator := do
  check self.isPreactive .notValidatorCandidate
  self.setValidMetadata validateMetadata { self.metadata with networkPubkeyBytes := networkPubkey }

def updateNextEpochWorkerPubkey (workerPubkey : Bytes) : Except Abort Validator :=
  self.setValidMetadata validateMetadata { self.metadata with
    nextEpochWorkerPubkeyBytes := some workerPubkey }

def updateCandidateWorkerPubkey (workerPubkey : Bytes) : Except Abort Validator := do
  check self.isPreactive .notValidatorCandidate
  self.setValidMetadata validateMetadata { self.metadata with workerPubkeyBytes := workerPubkey }

end Metadata

def effectuateStagedMetadata (self : Validator) : Except Abort Validator := do
  let metadata ← self.metadata.effectuateStaged
  return { self with metadata }

def deactivate (self : Validator) (deactivationEpoch : ℕ) : Except Abort Validator := do
  let stakingPool ← self.stakingPool.deactivateStakingPool deactivationEpoch
  return { self with stakingPool }

def activate (self : Validator) (activationEpoch : ℕ) : Except Abort Validator := do
  let stakingPool ← self.stakingPool.activateStakingPool activationEpoch
  return { self with stakingPool }

def adjustStakeAndGasPrice (self : Validator) : Validator :=
  { self with gasPrice := self.nextEpochGasPrice, commissionRate := self.nextEpochCommissionRate }

/-- Stake is processed at once if the pool is preactive. -/
def processStakeIfPreactive (pool : StakingPool) : Except Abort StakingPool :=
  if pool.isPreactive then pool.processPendingStake else .ok pool

def requestAddStake (self : Validator) (stakeAmount epoch : ℕ) :
    Except Abort (Validator × StakedSui) := do
  check (stakeAmount > 0) .invalidStakeAmount
  let (stakingPool, stakedSui) ← self.stakingPool.requestAddStake stakeAmount (epoch + 1)
  let stakingPool ← processStakeIfPreactive stakingPool
  return ({ self with stakingPool, nextEpochStake := self.nextEpochStake + stakeAmount }, stakedSui)

def requestAddStakeAtGenesis (self : Validator) (stakeAmount epoch : ℕ) :
    Except Abort (Validator × StakedSui) := do
  check (epoch = 0) .calledDuringNonGenesis
  check (stakeAmount > 0) .invalidStakeAmount
  let (stakingPool, stakedSui) ← self.stakingPool.requestAddStake stakeAmount 0
  let stakingPool ← stakingPool.processPendingStake
  return ({ self with stakingPool, nextEpochStake := self.nextEpochStake + stakeAmount }, stakedSui)

def requestWithdrawStake (self : Validator) (stakedSui : StakedSui) (epoch : ℕ) :
    Except Abort (Validator × ℕ) := do
  let (stakingPool, withdrawAmount) ← self.stakingPool.requestWithdrawStake stakedSui epoch
  let _ ← checkedSub withdrawAmount stakedSui.principal
  let nextEpochStake ← checkedSub self.nextEpochStake withdrawAmount
  return ({ self with stakingPool, nextEpochStake }, withdrawAmount)

def depositStakeRewards (self : Validator) (reward : ℕ) : Validator :=
  { self with
    nextEpochStake := self.nextEpochStake + reward
    stakingPool := self.stakingPool.depositRewards reward }

def processPendingStakesAndWithdraws (self : Validator) (epoch : ℕ) : Except Abort Validator := do
  let stakingPool ← self.stakingPool.processPendingStakesAndWithdraws epoch
  check (stakingPool.suiBalance = self.nextEpochStake) .invalidStakeAmount
  return { self with stakingPool }

def requestSetGasPrice (self : Validator) (capAddress : SuiAddress) (newPrice : ℕ) :
    Except Abort Validator := do
  check (newPrice < maxValidatorGasPrice) .gasPriceHigherThanThreshold
  check (capAddress = self.suiAddress) .invalidCap
  return { self with nextEpochGasPrice := newPrice }

def setCandidateGasPrice (self : Validator) (capAddress : SuiAddress) (newPrice : ℕ) :
    Except Abort Validator := do
  check self.isPreactive .notValidatorCandidate
  check (newPrice < maxValidatorGasPrice) .gasPriceHigherThanThreshold
  check (capAddress = self.suiAddress) .invalidCap
  return { self with nextEpochGasPrice := newPrice, gasPrice := newPrice }

def requestSetCommissionRate (self : Validator) (newCommissionRate : ℕ) : Except Abort Validator := do
  check (newCommissionRate ≤ maxCommissionRate) .commissionRateTooHigh
  return { self with nextEpochCommissionRate := newCommissionRate }

def setCandidateCommissionRate (self : Validator) (newCommissionRate : ℕ) : Except Abort Validator := do
  check self.isPreactive .notValidatorCandidate
  check (newCommissionRate ≤ maxCommissionRate) .commissionRateTooHigh
  return { self with commissionRate := newCommissionRate }

def newUnverifiedValidatorOperationCap (self : Validator) (sender : SuiAddress) (newId : ID) :
    Except Abort Validator := do
  check (sender = self.suiAddress) .newCapNotCreatedByValidatorItself
  return { self with operationCapId := newId }

variable {v v' : Validator} {stakedSui : StakedSui} {amount epoch : ℕ}

lemma processStakeIfPreactive_eq_ok {pool pool' : StakingPool}
    (h : processStakeIfPreactive pool = .ok pool') :
    pool.isPreactive = true ∧ pool' = pool.staked ∨ pool.isPreactive = false ∧ pool' = pool := by
  unfold processStakeIfPreactive at h
  split_ifs at h with hpre
  · exact .inl ⟨hpre, StakingPool.processPendingStake_eq_ok h⟩
  · exact .inr ⟨Bool.eq_false_of_not_eq_true hpre, (Except.ok.inj h).symm⟩

lemma requestAddStake_eq_ok (h : v.requestAddStake amount epoch = .ok (v', stakedSui)) :
    v.stakingPool.isInactive = false ∧ 0 < amount ∧ stakedSui = ⟨v.stakingPool.id, epoch + 1, amount⟩ ∧
      ∃ pool, processStakeIfPreactive { v.stakingPool with
        pendingStake := v.stakingPool.pendingStake + amount } = .ok pool ∧
        v' = { v with stakingPool := pool, nextEpochStake := v.nextEpochStake + amount } := by
  obtain ⟨_, -, h⟩ := bind_eq_ok.mp h
  obtain ⟨⟨pool, staked⟩, hstk, h⟩ := bind_eq_ok.mp h
  obtain ⟨hina, hpos, rfl, rfl⟩ := StakingPool.requestAddStake_eq_ok hstk
  obtain ⟨pool, hpool, h⟩ := bind_eq_ok.mp h
  cases h
  exact ⟨hina, hpos, rfl, pool, hpool, rfl⟩

lemma requestAddStakeAtGenesis_eq_ok
    (h : v.requestAddStakeAtGenesis amount epoch = .ok (v', stakedSui)) :
    epoch = 0 ∧ v.stakingPool.isInactive = false ∧ 0 < amount ∧
      stakedSui = ⟨v.stakingPool.id, 0, amount⟩ ∧
      ∃ pool, { v.stakingPool with
        pendingStake := v.stakingPool.pendingStake + amount }.processPendingStake = .ok pool ∧
        v' = { v with stakingPool := pool, nextEpochStake := v.nextEpochStake + amount } := by
  obtain ⟨hep, h⟩ := check_bind_eq_ok.mp h
  obtain ⟨_, -, h⟩ := bind_eq_ok.mp h
  obtain ⟨⟨pool, staked⟩, hstk, h⟩ := bind_eq_ok.mp h
  obtain ⟨hina, hpos, rfl, rfl⟩ := StakingPool.requestAddStake_eq_ok hstk
  obtain ⟨pool, hpool, h⟩ := bind_eq_ok.mp h
  cases h
  exact ⟨of_decide_eq_true hep, hina, hpos, rfl, pool, hpool, rfl⟩

lemma requestWithdrawStake_eq_ok (h : v.requestWithdrawStake stakedSui epoch = .ok (v', amount)) :
    ∃ pool, v.stakingPool.requestWithdrawStake stakedSui epoch = .ok (pool, amount) ∧
      amount ≤ v.nextEpochStake ∧
      v' = { v with stakingPool := pool, nextEpochStake := v.nextEpochStake - amount } := by
  obtain ⟨⟨pool, withdrawn⟩, hpool, h⟩ := bind_eq_ok.mp h
  obtain ⟨_, -, h⟩ := bind_eq_ok.mp h
  obtain ⟨stake, hstk, h⟩ := bind_eq_ok.mp h
  obtain ⟨hle, rfl⟩ := checkedSub_eq_ok.mp hstk
  cases h
  exact ⟨pool, hpool, hle, rfl⟩

lemma processPendingStakesAndWithdraws_eq_ok (h : v.processPendingStakesAndWithdraws epoch = .ok v') :
    ∃ pool, v.stakingPool.processPendingStakesAndWithdraws epoch = .ok pool ∧
      pool.suiBalance = v.nextEpochStake ∧
      v' = { v with stakingPool := pool } := by
  obtain ⟨pool, hpool, h⟩ := bind_eq_ok.mp h
  obtain ⟨hstk, h⟩ := check_bind_eq_ok.mp h
  cases h
  exact ⟨pool, hpool, of_decide_eq_true hstk, rfl⟩

end Validator

end SuiProofs.SuiSystem

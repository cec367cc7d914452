import SuiProofs.SuiSystem.EpochChange

/-!
Models the entry points of `sui_system_state_inner.move` that read or change the validator set. The
rewards of an epoch are arguments of its change.
-/

namespace SuiProofs.SuiSystem

open Library Option

structure SystemParameters where
  minValidatorCount : ℕ
  maxValidatorCount : ℕ
  minValidatorJoiningStake : ℕ
  thresholds : ValidatorSet.StakeThresholds

/-- What the validators and their stakes depend on. -/
structure SuiSystemState where
  epoch : ℕ
  validators : ValidatorSet
  parameters : SystemParameters
  validatorReportRecords : ReportRecords

structure UnverifiedValidatorOperationCap where
  id : ID
  authorizerValidatorAddress : SuiAddress

inductive WhichValidator where
  | activeOnly
  | activeOrPending
  | any
deriving DecidableEq, Repr

namespace ValidatorSet

def getActiveOrPendingOrCandidateValidatorRef (self : ValidatorSet) (validatorAddress : SuiAddress)
    (which : WhichValidator) :
    Except Abort Validator :=
  match self.activeValidators.find? fun v => v.suiAddress = validatorAddress with
  | some v => .ok v
  | none =>
    if which = .activeOnly then .error .optionNotSet
    else match self.pendingActiveValidators.find? fun v => v.suiAddress = validatorAddress with
      | some v => .ok v
      | none =>
        if which = .activeOrPending then .error .optionNotSet
        else match self.validatorCandidates[validatorAddress]? with
          | some v => .ok v
          | none => .error .keyNotFound

def verifyCap (self : ValidatorSet) (cap : UnverifiedValidatorOperationCap)
    (which : WhichValidator) : Except Abort SuiAddress := do
  let validator ← if which = .activeOnly then
    getValidatorRef self.activeValidators cap.authorizerValidatorAddress
    else self.getActiveOrPendingOrCandidateValidatorRef cap.authorizerValidatorAddress which
  check (validator.operationCapId = cap.id) .invalidCap
  return cap.authorizerValidatorAddress

end ValidatorSet

/-- The calls that change validators, pools or reports. -/
inductive Call where
  | requestAddValidatorCandidate (registration : Registration) (poolId operationCapId : ID)
  | requestRemoveValidatorCandidate
  | requestAddValidator
  | requestRemoveValidator
  | requestSetGasPrice (cap : UnverifiedValidatorOperationCap) (newGasPrice : ℕ)
  | setCandidateValidatorGasPrice (cap : UnverifiedValidatorOperationCap) (newGasPrice : ℕ)
  | requestSetCommissionRate (newCommissionRate : ℕ)
  | setCandidateValidatorCommissionRate (newCommissionRate : ℕ)
  | requestAddStake (stake : ℕ) (validatorAddress : SuiAddress)
  | requestWithdrawStake (stakedSui : StakedSui)
  | reportValidator (cap : UnverifiedValidatorOperationCap) (reporteeAddr : SuiAddress)
  | undoReportValidator (cap : UnverifiedValidatorOperationCap) (reporteeAddr : SuiAddress)
  | rotateOperationCap (newId : ID)
  | updateValidatorName (name : Bytes)
  | updateValidatorDescription (description : Bytes)
  | updateValidatorImageUrl (imageUrl : Bytes)
  | updateValidatorProjectUrl (projectUrl : Bytes)
  | updateValidatorNextEpochNetworkAddress (networkAddress : Bytes)
  | updateCandidateValidatorNetworkAddress (networkAddress : Bytes)
  | updateValidatorNextEpochP2pAddress (p2pAddress : Bytes)
  | updateCandidateValidatorP2pAddress (p2pAddress : Bytes)
  | updateValidatorNextEpochPrimaryAddress (primaryAddress : Bytes)
  | updateCandidateValidatorPrimaryAddress (primaryAddress : Bytes)
  | updateValidatorNextEpochWorkerAddress (workerAddress : Bytes)
  | updateCandidateValidatorWorkerAddress (workerAddress : Bytes)
  | updateValidatorNextEpochProtocolPubkey (protocolPubkey proofOfPossession : Bytes)
  | updateCandidateValidatorProtocolPubkey (protocolPubkey proofOfPossession : Bytes)
  | updateValidatorNextEpochWorkerPubkey (workerPubkey : Bytes)
  | updateCandidateValidatorWorkerPubkey (workerPubkey : Bytes)
  | updateValidatorNextEpochNetworkPubkey (networkPubkey : Bytes)
  | updateCandidateValidatorNetworkPubkey (networkPubkey : Bytes)
  | advanceEpoch (computationReward storageFundReward rewardSlashingRate : ℕ)
  | advanceEpochSafeMode

/-- The state after a call, and the stakes it has handed out. -/
abbrev CallResult := Except Abort (SuiSystemState × List StakedSui)

namespace SuiSystemState

variable (self : SuiSystemState)

def withValidators (result : Except Abort ValidatorSet) : CallResult := do
  let validators ← result
  return ({ self with validators }, [])

def updateSender (sender : SuiAddress) (includeCandidate : Bool)
    (update : Validator → Except Abort Validator) : CallResult :=
  self.withValidators do
    let (validators, _) ← self.validators.getActiveOrPendingOrCandidateValidatorMut sender
      includeCandidate (plain update)
    return validators

variable (cap : UnverifiedValidatorOperationCap)

def updateWithCap (which : WhichValidator) (includeCandidate : Bool)
    (update : Validator → SuiAddress → Except Abort Validator) : CallResult := do
  let capAddress ← self.validators.verifyCap cap which
  self.updateSender capAddress includeCandidate fun v => update v capAddress

/-- Values staged for the next epoch must not be those of another active or pending validator. -/
def updateNextEpoch (sender : SuiAddress) (update : Validator → Except Abort Validator) : CallResult :=
  self.withValidators do
    let (validators, validator) ← self.validators.getActiveOrPendingOrCandidateValidatorMut sender
      false fun v => do
      let v ← update v
      return (v, v)
    validators.assertNoPendingOrActiveDuplicates validator
    return validators

def requestAddValidator (self : SuiSystemState) (sender : SuiAddress) : CallResult := do
  let count ← self.validators.nextEpochValidatorCount
  check (count < self.parameters.maxValidatorCount) .limitExceeded
  self.withValidators
    (self.validators.requestAddValidator self.parameters.minValidatorJoiningStake sender)

/-- The minimum is only kept if it is met at all. -/
def checkMinValidatorCount : Except Abort Unit :=
  if self.validators.activeValidators.length ≥ self.parameters.minValidatorCount then do
    let count ← self.validators.nextEpochValidatorCount
    check (count > self.parameters.minValidatorCount) .limitExceeded
  else .ok ()

def requestRemoveValidator (self : SuiSystemState) (sender : SuiAddress) : CallResult := do
  self.checkMinValidatorCount
  self.withValidators (self.validators.requestRemoveValidator sender)

def requestAddStake (self : SuiSystemState) (stake : ℕ) (validatorAddress : SuiAddress) :
    CallResult := do
  let (validators, stakedSui) ← self.validators.requestAddStake validatorAddress stake self.epoch
  return ({ self with validators }, [stakedSui])

def requestWithdrawStake (self : SuiSystemState) (stakedSui : StakedSui) : CallResult := do
  check (stakedSui.stakeActivationEpoch ≤ self.epoch) .stakeWithdrawBeforeActivation
  let (validators, _) ← self.validators.requestWithdrawStake stakedSui self.epoch
  return ({ self with validators }, [])

def addReport (records : ReportRecords) (reporterAddress reporteeAddr : SuiAddress) : ReportRecords :=
  if records.any fun record => record.1 = reporteeAddr then
    records.map fun record =>
      if record.1 = reporteeAddr ∧ !record.2.contains reporterAddress then
        (record.1, record.2 ++ [reporterAddress]) else record
  else records ++ [(reporteeAddr, [reporterAddress])]

def reportValidator (reporteeAddr : SuiAddress) : CallResult := do
  check (self.validators.isActiveValidatorBySuiAddress reporteeAddr) .notValidator
  let reporterAddress ← self.validators.verifyCap cap .activeOnly
  check (reporterAddress ≠ reporteeAddr) .cannotReportOneself
  return ({ self with
    validatorReportRecords :=
    addReport self.validatorReportRecords reporterAddress reporteeAddr }, [])

/-- A record without reporters is removed. -/
def removeReport (records : ReportRecords) (reporterAddress reporteeAddr : SuiAddress) :
    Except Abort ReportRecords :=
  match records.lookup reporteeAddr with
  | none => .error .reportRecordNotFound
  | some reporters => do
    check (reporters.contains reporterAddress) .reportRecordNotFound
    let reporters := reporters.erase reporterAddress
    return if reporters.isEmpty then records.filter fun record => record.1 ≠ reporteeAddr
      else records.map fun record => if record.1 = reporteeAddr then (record.1, reporters) else record

def undoReportValidator (reporteeAddr : SuiAddress) : CallResult := do
  let reporterAddress ← self.validators.verifyCap cap .activeOnly
  let validatorReportRecords ← removeReport self.validatorReportRecords reporterAddress reporteeAddr
  return ({ self with validatorReportRecords }, [])

def requestSetCommissionRate (self : SuiSystemState) (newCommissionRate : ℕ) (sender : SuiAddress) :
    CallResult := do
  let (validators, _) ← self.validators.getActiveMut sender
    (plain fun v => v.requestSetCommissionRate newCommissionRate)
  return ({ self with validators }, [])

def advanceEpoch (self : SuiSystemState)
    (computationReward storageFundReward rewardSlashingRate : ℕ) : CallResult := do
  check (rewardSlashingRate ≤ basisPointDenominator) .bpsTooLarge
  let ((validators, validatorReportRecords), stakes) ← self.validators.advanceEpoch
    computationReward storageFundReward
    self.validatorReportRecords rewardSlashingRate self.parameters.thresholds self.epoch
  return ({ self with epoch := self.epoch + 1, validators, validatorReportRecords }, stakes)

section Calls

variable (validateMetadata : ValidatorMetadata → Bool)

def requestAddValidatorCandidate (self : SuiSystemState) (sender : SuiAddress)
    (registration : Registration) (poolId operationCapId : ID) :
    CallResult := do
  let validator ← Validator.new validateMetadata sender registration poolId operationCapId
  self.withValidators (self.validators.requestAddValidatorCandidate validator)

def execute (self : SuiSystemState) (sender : SuiAddress) : Call → CallResult
  | .requestAddValidatorCandidate registration poolId operationCapId =>
    self.requestAddValidatorCandidate validateMetadata sender registration poolId operationCapId
  | .requestRemoveValidatorCandidate =>
      self.withValidators (self.validators.requestRemoveValidatorCandidate sender self.epoch)
  | .requestAddValidator => self.requestAddValidator sender
  | .requestRemoveValidator => self.requestRemoveValidator sender
  | .requestSetGasPrice cap newGasPrice =>
    self.updateWithCap cap .activeOrPending false fun v capAddress =>
      v.requestSetGasPrice capAddress newGasPrice
  | .setCandidateValidatorGasPrice cap newGasPrice =>
    self.updateWithCap cap .any true fun v capAddress => v.setCandidateGasPrice capAddress newGasPrice
  | .requestSetCommissionRate newCommissionRate => self.requestSetCommissionRate newCommissionRate sender
  | .setCandidateValidatorCommissionRate newCommissionRate =>
    self.updateSender sender true fun v => v.setCandidateCommissionRate newCommissionRate
  | .requestAddStake stake validatorAddress => self.requestAddStake stake validatorAddress
  | .requestWithdrawStake stakedSui => self.requestWithdrawStake stakedSui
  | .reportValidator cap reporteeAddr => self.reportValidator cap reporteeAddr
  | .undoReportValidator cap reporteeAddr => self.undoReportValidator cap reporteeAddr
  | .rotateOperationCap newId => self.updateSender sender true fun v =>
      v.newUnverifiedValidatorOperationCap sender newId
  | .updateValidatorName name => self.updateSender sender true fun v => v.updateName name
  | .updateValidatorDescription description => self.updateSender sender true fun v =>
      v.updateDescription description
  | .updateValidatorImageUrl imageUrl => self.updateSender sender true fun v => v.updateImageUrl imageUrl
  | .updateValidatorProjectUrl projectUrl => self.updateSender sender true fun v =>
      v.updateProjectUrl projectUrl
  | .updateValidatorNextEpochNetworkAddress networkAddress =>
    self.updateNextEpoch sender fun v => v.updateNextEpochNetworkAddress validateMetadata networkAddress
  | .updateCandidateValidatorNetworkAddress networkAddress =>
    self.updateSender sender true fun v =>
      v.updateCandidateNetworkAddress validateMetadata networkAddress
  | .updateValidatorNextEpochP2pAddress p2pAddress =>
    self.updateNextEpoch sender fun v => v.updateNextEpochP2pAddress validateMetadata p2pAddress
  | .updateCandidateValidatorP2pAddress p2pAddress =>
    self.updateSender sender true fun v => v.updateCandidateP2pAddress validateMetadata p2pAddress
  -- Primary and worker addresses may be shared.
  | .updateValidatorNextEpochPrimaryAddress primaryAddress =>
    self.updateSender sender false fun v =>
      v.updateNextEpochPrimaryAddress validateMetadata primaryAddress
  | .updateCandidateValidatorPrimaryAddress primaryAddress =>
    self.updateSender sender true fun v =>
      v.updateCandidatePrimaryAddress validateMetadata primaryAddress
  | .updateValidatorNextEpochWorkerAddress workerAddress =>
    self.updateSender sender false fun v => v.updateNextEpochWorkerAddress validateMetadata workerAddress
  | .updateCandidateValidatorWorkerAddress workerAddress =>
    self.updateSender sender true fun v => v.updateCandidateWorkerAddress validateMetadata workerAddress
  | .updateValidatorNextEpochProtocolPubkey protocolPubkey proofOfPossession =>
    self.updateNextEpoch sender fun v =>
      v.updateNextEpochProtocolPubkey validateMetadata protocolPubkey proofOfPossession
  | .updateCandidateValidatorProtocolPubkey protocolPubkey proofOfPossession =>
    self.updateSender sender true fun v =>
      v.updateCandidateProtocolPubkey validateMetadata protocolPubkey proofOfPossession
  | .updateValidatorNextEpochWorkerPubkey workerPubkey =>
    self.updateNextEpoch sender fun v => v.updateNextEpochWorkerPubkey validateMetadata workerPubkey
  | .updateCandidateValidatorWorkerPubkey workerPubkey =>
    self.updateSender sender true fun v => v.updateCandidateWorkerPubkey validateMetadata workerPubkey
  | .updateValidatorNextEpochNetworkPubkey networkPubkey =>
    self.updateNextEpoch sender fun v => v.updateNextEpochNetworkPubkey validateMetadata networkPubkey
  | .updateCandidateValidatorNetworkPubkey networkPubkey =>
    self.updateSender sender true fun v => v.updateCandidateNetworkPubkey validateMetadata networkPubkey
  | .advanceEpoch computationReward storageFundReward rewardSlashingRate =>
    self.advanceEpoch computationReward storageFundReward rewardSlashingRate
  | .advanceEpochSafeMode => .ok ({ self with epoch := self.epoch + 1 }, [])

structure GenesisValidator where
  suiAddress : SuiAddress
  registration : Registration
  poolId : ID
  operationCapId : ID

def addGenesisValidator (validators : List Validator) (genesisValidator : GenesisValidator) :
    Except Abort (List Validator) := do
  let validator ← Validator.new validateMetadata genesisValidator.suiAddress
    genesisValidator.registration genesisValidator.poolId
    genesisValidator.operationCapId
  check (!isDuplicateValidator validators validator) .duplicateValidator
  return validators ++ [validator]

/-- The stakes of the allocations, with the validator and the amount of each. -/
def allocateTokens (validators : List Validator) (allocations : List (SuiAddress × ℕ)) :
    Except Abort (List Validator × List StakedSui) :=
  allocations.reverse.foldlM (fun acc allocation => do
    let (validators, stakedSui) ← getValidatorMut acc.1 allocation.1 fun v =>
      v.requestAddStakeAtGenesis allocation.2 0
    return (validators, acc.2 ++ [stakedSui])) (validators, [])

def create (genesisValidators : List GenesisValidator) (allocations : List (SuiAddress × ℕ))
    (parameters : SystemParameters) : CallResult := do
  let validators ← genesisValidators.foldlM (addGenesisValidator validateMetadata) []
  let (validators, stakes) ← allocateTokens validators allocations
  let validators ← validators.mapM fun v => v.activate 0
  let validators ← ValidatorSet.new validators
  return ({ epoch := 0, validators, parameters, validatorReportRecords := [] }, stakes)

end Calls

end SuiSystemState

def Call.newPoolId : Call → Option ID
  | .requestAddValidatorCandidate _ poolId _ => some poolId
  | _ => none

/-- Object ids are never used twice. -/
def Call.Fresh (state : SuiSystemState) (call : Call) : Prop :=
  ∀ poolId ∈ call.newPoolId, poolId ∉ state.validators.stakingPoolMappings ∧
    poolId ∉ state.validators.inactiveValidators

/-- A withdrawal takes its stake. -/
def Call.Takes (outstanding rest : Multiset StakedSui) : Call → Prop
  | .requestWithdrawStake stakedSui => outstanding = stakedSui ::ₘ rest
  | _ => outstanding = rest

section

variable (validateMetadata : ValidatorMetadata → Bool)
  (allowed : SuiSystemState → SuiAddress → Call → SuiSystemState → Prop)

/-- The states and the outstanding stakes of the runs from genesis whose calls all satisfy
`allowed`. A call that aborts changes nothing. -/
inductive SystemRun : SuiSystemState → Multiset StakedSui → Prop where
  | genesis {genesisValidators : List SuiSystemState.GenesisValidator}
      {allocations : List (SuiAddress × ℕ)}
      {parameters : SystemParameters} {state : SuiSystemState} {stakes : List StakedSui}
      (h : SuiSystemState.create validateMetadata genesisValidators allocations parameters =
        .ok (state, stakes)) :
      SystemRun state stakes
  | call {state state' : SuiSystemState} {sender : SuiAddress} {call : Call}
      {outstanding rest : Multiset StakedSui}
      {stakes : List StakedSui} (hrun : SystemRun state outstanding) (hfresh : call.Fresh state)
      (htakes : call.Takes outstanding rest) (h : state.execute validateMetadata sender call =
        .ok (state', stakes))
      (hallowed : allowed state sender call state') : SystemRun state' (↑stakes + rest)
  | split {state : SuiSystemState} {s kept part : StakedSui} {rest : Multiset StakedSui} {amount : ℕ}
      (hrun : SystemRun state (s ::ₘ rest)) (h : s.split amount = .ok (kept, part)) :
      SystemRun state (kept ::ₘ part ::ₘ rest)
  | join {state : SuiSystemState} {s other joined : StakedSui} {rest : Multiset StakedSui}
      (hrun : SystemRun state (s ::ₘ other ::ₘ rest)) (h : s.joinStakedSui other = .ok joined) :
      SystemRun state (joined ::ₘ rest)

end

instance (state : SuiSystemState) (call : Call) : Decidable (call.Fresh state) :=
  inferInstanceAs (Decidable (∀ poolId ∈ call.newPoolId, _))

def Call.take (outstanding : List StakedSui) : Call → Option (List StakedSui)
  | .requestWithdrawStake stakedSui =>
      if stakedSui ∈ outstanding then some (outstanding.erase stakedSui) else none
  | _ => some outstanding

lemma Call.takes_of_take {call : Call} {outstanding rest : List StakedSui}
    (h : call.take outstanding = some rest) :
    call.Takes (outstanding : Multiset StakedSui) (rest : Multiset StakedSui) := by
  cases call with
  | requestWithdrawStake stakedSui =>
    rw [take] at h
    split_ifs at h with hmem
    cases h
    exact Multiset.coe_eq_coe.mpr (List.perm_cons_erase hmem)
  | _ =>
    cases h
    rfl

def tryCall (allowed : SuiSystemState → SuiAddress → Call → Bool)
    (acc : SuiSystemState × List StakedSui) (entry : SuiAddress × Call) :
    Option (SuiSystemState × List StakedSui) :=
  if entry.2.Fresh acc.1 ∧ allowed acc.1 entry.1 entry.2 = true then
    match acc.1.execute (fun _ => true) entry.1 entry.2, entry.2.take acc.2 with
    | .ok (state, stakes), some rest => some (state, stakes ++ rest)
    | _, _ => none
  else none

def runScript (allowed : SuiSystemState → SuiAddress → Call → Bool) (genesis : CallResult)
    (script : List (SuiAddress × Call)) :
    Option (SuiSystemState × List StakedSui) :=
  genesis.toOption.bind fun start => script.foldlM (tryCall allowed) start

lemma tryCall_eq_some {allowed : SuiSystemState → SuiAddress → Call → Bool}
    {acc result : SuiSystemState × List StakedSui}
    {entry : SuiAddress × Call} (h : tryCall allowed acc entry = some result) :
    entry.2.Fresh acc.1 ∧ allowed acc.1 entry.1 entry.2 = true ∧ ∃ stakes rest,
      acc.1.execute (fun _ => true) entry.1 entry.2 = .ok (result.1, stakes) ∧
        entry.2.Takes (acc.2 : Multiset StakedSui) (rest : List StakedSui) ∧
        result.2 = stakes ++ rest := by
  unfold tryCall at h
  split_ifs at h with hcond
  cases hexec : acc.1.execute (fun _ => true) entry.1 entry.2 with
  | error e => simp [hexec] at h
  | ok after =>
    cases htake : entry.2.take acc.2 with
    | none => simp [hexec, htake] at h
    | some rest =>
      rw [hexec, htake] at h
      cases h
      exact ⟨hcond.1, hcond.2, after.2, rest, rfl, Call.takes_of_take htake, rfl⟩

section Scripts

variable {allowed : SuiSystemState → SuiAddress → Call → Bool}
  {allowed' : SuiSystemState → SuiAddress → Call → SuiSystemState → Prop}
  (hallowed : ∀ state sender call state', allowed state sender call = true →
    allowed' state sender call state')
include hallowed

variable {result : SuiSystemState × List StakedSui} {script : List (SuiAddress × Call)}

lemma systemRun_of_runScript {genesisValidators : List SuiSystemState.GenesisValidator}
    {allocations : List (SuiAddress × ℕ)} {parameters : SystemParameters}
    (h : runScript allowed (SuiSystemState.create (fun _ => true) genesisValidators allocations
      parameters) script = some result) :
    SystemRun (fun _ => true) allowed' result.1 result.2 := by
  obtain ⟨start, hst, h⟩ := bind_eq_some_iff.mp h
  have hcre : SuiSystemState.create (fun _ => true) genesisValidators allocations parameters =
      .ok (start.1, start.2) := by
    cases hcre : SuiSystemState.create (fun _ => true) genesisValidators allocations parameters with
    | error e =>
      rw [hcre] at hst
      cases hst
    | ok result =>
      rw [hcre] at hst
      cases hst
      rfl
  refine foldlM_some_induction (fun acc => SystemRun (fun _ => true) allowed' acc.1 acc.2)
    (.genesis hcre) (fun _ _ _ _ hrun hnext => ?_) h
  obtain ⟨hfr, hallows, stakes, rest, hexec, htakes, hres⟩ := tryCall_eq_some hnext
  rw [hres]
  exact .call hrun hfr htakes hexec (hallowed _ _ _ _ hallows)

end Scripts

def sampleRegistration (n : UInt8) : Registration where
  protocolPubkeyBytes := [n, 0]
  networkPubkeyBytes := [n, 1]
  workerPubkeyBytes := [n, 2]
  proofOfPossession := []
  name := [n]
  description := []
  imageUrl := []
  projectUrl := []
  netAddress := [n]
  p2pAddress := [n]
  primaryAddress := []
  workerAddress := []
  gasPrice := 1
  commissionRate := 0

/-- Joining needs thirty SUI. -/
def sampleParameters : SystemParameters := ⟨4, 150, 30000000000, ⟨20000000000, 15000000000, 7⟩⟩

def sampleGenesis : CallResult :=
  SuiSystemState.create (fun _ => true) [⟨1, sampleRegistration 1, 1, 1⟩]
    [(1, 30000000000)] sampleParameters

def sampleGenesisPair : CallResult :=
  SuiSystemState.create (fun _ => true) [⟨1, sampleRegistration 1, 1, 1⟩,
    ⟨2, sampleRegistration 2, 2, 2⟩]
    [(1, 30000000000), (2, 30000000000)] sampleParameters

end SuiProofs.SuiSystem

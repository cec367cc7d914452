import SuiProofs.SuiSystem.ValidatorSet

/-! Models `advance_epoch` of `validator_set.move`. -/

namespace SuiProofs.SuiSystem

open Library List Std

def basisPointDenominator : ℕ := 10000

/-- The reporters of each reported validator, in the order of the first reports. -/
abbrev ReportRecords := List (SuiAddress × List SuiAddress)

def splitBalance (balance amount : ℕ) : Except Abort ℕ :=
  if amount ≤ balance then .ok (balance - amount) else .error .notEnoughBalance

def getAt {α : Type} (l : List α) (index : ℕ) : Except Abort α :=
  match l[index]? with
  | some a => .ok a
  | none => .error .indexOutOfBounds

lemma splitBalance_eq_ok {balance amount rest : ℕ} : splitBalance balance amount = .ok rest ↔
    amount ≤ balance ∧ rest = balance - amount := by
  unfold splitBalance
  split_ifs with h
  · simp [h, eq_comm]
  · simp [h]

lemma getAt_eq_ok {α : Type} {l : List α} {index : ℕ} {a : α} :
    getAt l index = .ok a ↔ l[index]? = some a := by
  unfold getAt
  cases l[index]? <;> simp

def cleanReportRecordsLeavingValidator (records : ReportRecords)
    (leavingValidatorAddr : SuiAddress) : ReportRecords :=
  (records.filter fun record => record.1 ≠ leavingValidatorAddr).filterMap fun record =>
    if record.2.contains leavingValidatorAddr then
      let reporters := record.2.erase leavingValidatorAddr
      if reporters.isEmpty then none else some (record.1, reporters)
    else some record

structure Rewards where
  staking : List ℕ
  storageFund : List ℕ

/-- What is taken from slashed validators, by index. -/
structure RewardAdjustments where
  totalStaking : ℕ
  staking : TreeMap ℕ ℕ
  totalStorageFund : ℕ
  storageFund : TreeMap ℕ ℕ

variable (validators : List Validator)

def computeUnadjustedRewardDistribution (totalStakingReward totalStorageFundReward : ℕ) :
    Except Abort Rewards := do
  let storageFundRewardPerValidator ← checkedDiv totalStorageFundReward validators.length
  let staking ← validators.mapM fun v => castU64 (v.votingPower * totalStakingReward / totalVotingPower)
  return ⟨staking, validators.map fun _ => storageFundRewardPerValidator⟩

def computeRewardAdjustment (rewardSlashingRate : ℕ) (unadjusted : Rewards)
    (adjustments : RewardAdjustments) (index : ℕ) :
    Except Abort RewardAdjustments := do
  let stakingReward ← getAt unadjusted.staking index
  let stakingAdjustment ← castU64 (stakingReward * rewardSlashingRate / basisPointDenominator)
  let staking ← tableAdd adjustments.staking index stakingAdjustment
  let storageFundReward ← getAt unadjusted.storageFund index
  let storageFundAdjustment ← castU64 (storageFundReward * rewardSlashingRate / basisPointDenominator)
  let storageFund ← tableAdd adjustments.storageFund index storageFundAdjustment
  return ⟨adjustments.totalStaking + stakingAdjustment, staking,
    adjustments.totalStorageFund + storageFundAdjustment, storageFund⟩

def computeRewardAdjustments (slashedValidatorIndices : List ℕ) (rewardSlashingRate : ℕ)
    (unadjusted : Rewards) :
    Except Abort RewardAdjustments :=
  slashedValidatorIndices.reverse.foldlM
    (computeRewardAdjustment rewardSlashingRate unadjusted) ⟨0, ∅, 0, ∅⟩

/-- The reward of one validator: a slashed one loses its adjustment, another one gets its share. -/
def adjustedReward (adjustments : TreeMap ℕ ℕ) (share : Except Abort ℕ) (index unadjusted : ℕ) :
    Except Abort ℕ :=
  match adjustments[index]? with
  | some adjustment => checkedSub unadjusted adjustment
  | none => do
    let adjustment ← share
    return unadjusted + adjustment

def stakingShare (total unslashedVotingPower votingPower : ℕ) : Except Abort ℕ := do
  let adjustment ← checkedDiv (total * votingPower) unslashedVotingPower
  castU64 adjustment

def computeAdjustedReward (unadjusted : Rewards) (adjustments : RewardAdjustments)
    (unslashedVotingPower numUnslashedValidators : ℕ)
    (entry : Validator × ℕ) : Except Abort (ℕ × ℕ) := do
  let unadjustedStaking ← getAt unadjusted.staking entry.2
  let staking ← adjustedReward adjustments.staking
    (stakingShare adjustments.totalStaking unslashedVotingPower entry.1.votingPower) entry.2
      unadjustedStaking
  let unadjustedStorageFund ← getAt unadjusted.storageFund entry.2
  let storageFund ← adjustedReward adjustments.storageFund
    (checkedDiv adjustments.totalStorageFund numUnslashedValidators)
    entry.2 unadjustedStorageFund
  return (staking, storageFund)

def computeAdjustedRewardDistribution (totalSlashedValidatorVotingPower : ℕ) (unadjusted : Rewards)
    (adjustments : RewardAdjustments) : Except Abort Rewards := do
  let unslashedVotingPower ← checkedSub totalVotingPower totalSlashedValidatorVotingPower
  let numUnslashedValidators ← checkedSub validators.length adjustments.staking.size
  let rewards ← validators.zipIdx.mapM
    (computeAdjustedReward unadjusted adjustments unslashedVotingPower numUnslashedValidators)
  return ⟨rewards.map Prod.fst, rewards.map Prod.snd⟩

/-- The loop state of the distribution: the balances left, and the stakes given to validators. -/
structure Distribution where
  stakingRewards : ℕ
  storageFundReward : ℕ
  validators : List Validator
  stakes : List StakedSui

def addValidatorReward (v : Validator) (validatorReward epoch : ℕ) :
    Except Abort (Validator × List StakedSui) :=
  if validatorReward > 0 then do
    let (v, stakedSui) ← v.requestAddStake validatorReward epoch
    return (v, [stakedSui])
  else .ok (v, [])

def distributeRewardTo (rewards : Rewards) (epoch : ℕ) (acc : Distribution)
    (entry : Validator × ℕ) : Except Abort Distribution := do
  let stakingRewardAmount ← getAt rewards.staking entry.2
  let stakingRewards ← splitBalance acc.stakingRewards stakingRewardAmount
  let validatorCommissionAmount ← castU64
    (stakingRewardAmount * entry.1.commissionRate / basisPointDenominator)
  let stakerReward ← splitBalance stakingRewardAmount validatorCommissionAmount
  let storageFundRewardAmount ← getAt rewards.storageFund entry.2
  let storageFundReward ← splitBalance acc.storageFundReward storageFundRewardAmount
  let (v, stakes) ← addValidatorReward entry.1
    (validatorCommissionAmount + storageFundRewardAmount) epoch
  return ⟨stakingRewards, storageFundReward, acc.validators ++ [v.depositStakeRewards stakerReward],
    acc.stakes ++ stakes⟩

def distributeReward (rewards : Rewards) (stakingRewards storageFundReward epoch : ℕ) :
    Except Abort Distribution := do
  check (validators.length > 0) .validatorSetEmpty
  validators.zipIdx.foldlM (distributeRewardTo rewards epoch) ⟨stakingRewards, storageFundReward, [], []⟩

def getValidatorIndices (validatorAddresses : List SuiAddress) : Except Abort (List ℕ) :=
  validatorAddresses.mapM fun address =>
    match findValidator validators address with
    | some index => .ok index
    | none => .error .notAValidator

namespace ValidatorSet

def isActiveValidatorBySuiAddress (self : ValidatorSet) (validatorAddress : SuiAddress) : Bool :=
  (findValidator self.activeValidators validatorAddress).isSome

def isSlashed (self : ValidatorSet) (record : SuiAddress × List SuiAddress) : Except Abort Bool := do
  check (self.isActiveValidatorBySuiAddress record.1) .nonValidatorInReportRecords
  let reporterVotes ← sumVotingPowerByAddresses self.activeValidators record.2
  return reporterVotes ≥ quorumThreshold

def computeSlashedValidators (self : ValidatorSet) (validatorReportRecords : ReportRecords) :
    Except Abort (List SuiAddress) := do
  let slashed ← validatorReportRecords.reverse.filterM self.isSlashed
  return slashed.map Prod.fst

def processPendingValidators (self : ValidatorSet) (newEpoch : ℕ) : Except Abort ValidatorSet := do
  let joining ← self.pendingActiveValidators.reverse.mapM fun v => v.activate newEpoch
  return { self with
    activeValidators := self.activeValidators ++ joining, pendingActiveValidators := [] }

abbrev WithRecords := ValidatorSet × ReportRecords

def processValidatorDeparture (self : ValidatorSet) (validator : Validator)
    (records : ReportRecords) (epoch : ℕ) :
    Except Abort WithRecords := do
  let newEpoch := epoch + 1
  let (stakingPoolMappings, _) ← tableRemove self.stakingPoolMappings validator.stakingPoolId
  let atRiskValidators := self.atRiskValidators.erase validator.suiAddress
  let totalStake ← checkedSub self.totalStake validator.totalStakeAmount
  let records := cleanReportRecordsLeavingValidator records validator.suiAddress
  let validator ← validator.deactivate newEpoch
  let inactiveValidators ← tableAdd self.inactiveValidators validator.stakingPoolId validator
  return ({ self with stakingPoolMappings, atRiskValidators, totalStake, inactiveValidators }, records)

def removeActive (self : ValidatorSet) (records : ReportRecords) (epoch index : ℕ) :
    Except Abort WithRecords := do
  let validator ← getAt self.activeValidators index
  processValidatorDeparture { self with
    activeValidators := self.activeValidators.eraseIdx index } validator records epoch

/-- The indices are processed from the largest on. -/
def processPendingRemovals (self : ValidatorSet) (records : ReportRecords) (epoch : ℕ) :
    Except Abort WithRecords :=
  (self.pendingRemovals.insertionSort (· ≤ ·)).reverse.foldlM
    (fun acc index => acc.1.removeActive acc.2 epoch index)
    ({ self with pendingRemovals := [] }, records)

structure StakeThresholds where
  lowStakeThreshold : ℕ
  veryLowStakeThreshold : ℕ
  lowStakeGracePeriod : ℕ

def updateLowStake (thresholds : StakeThresholds) (epoch : ℕ) (acc : WithRecords) (index : ℕ) :
    Except Abort WithRecords := do
  let (self, records) := acc
  let validator ← getAt self.activeValidators index
  let validatorAddress := validator.suiAddress
  let stake := validator.totalStakeAmount
  if stake ≥ thresholds.lowStakeThreshold then
    return ({ self with atRiskValidators := self.atRiskValidators.erase validatorAddress }, records)
  else if stake ≥ thresholds.veryLowStakeThreshold then
    let newLowStakePeriod := self.atRiskValidators.getD validatorAddress 0 + 1
    let self := { self with
      atRiskValidators := self.atRiskValidators.insert validatorAddress newLowStakePeriod }
    if newLowStakePeriod > thresholds.lowStakeGracePeriod then self.removeActive records epoch index
    else return (self, records)
  else self.removeActive records epoch index

def updateAndProcessLowStakeDepartures (self : ValidatorSet) (thresholds : StakeThresholds)
    (records : ReportRecords) (epoch : ℕ) :
    Except Abort WithRecords :=
  (List.range self.activeValidators.length).reverse.foldlM (updateLowStake thresholds epoch)
  (self, records)

def effectuateStagedMetadata (self : ValidatorSet) : Except Abort ValidatorSet := do
  let activeValidators ← self.activeValidators.mapM Validator.effectuateStagedMetadata
  return { self with activeValidators }

def computeRewards (self : ValidatorSet) (computationReward storageFundReward : ℕ)
    (records : ReportRecords) (rewardSlashingRate : ℕ) :
    Except Abort Rewards := do
  let unadjusted ← computeUnadjustedRewardDistribution self.activeValidators computationReward
    storageFundReward
  let slashedValidators ← self.computeSlashedValidators records
  let totalSlashedValidatorVotingPower ← sumVotingPowerByAddresses self.activeValidators
    slashedValidators
  let indices ← getValidatorIndices self.activeValidators slashedValidators
  let adjustments ← computeRewardAdjustments indices rewardSlashingRate unadjusted
  computeAdjustedRewardDistribution self.activeValidators totalSlashedValidatorVotingPower
    unadjusted adjustments

/-- The set of the next epoch, the report records, and the stakes given to validators as rewards. -/
def advanceEpoch (self : ValidatorSet) (computationReward storageFundReward : ℕ)
    (records : ReportRecords) (rewardSlashingRate : ℕ)
    (thresholds : StakeThresholds) (epoch : ℕ) : Except Abort (WithRecords × List StakedSui) := do
  let newEpoch := epoch + 1
  let rewards ← self.computeRewards computationReward storageFundReward records rewardSlashingRate
  let distribution ← distributeReward self.activeValidators rewards computationReward
    storageFundReward epoch
  let activeValidators := distribution.validators.map Validator.adjustStakeAndGasPrice
  let activeValidators ← activeValidators.mapM fun v => v.processPendingStakesAndWithdraws epoch
  let self ← { self with activeValidators }.processPendingValidators newEpoch
  let (self, records) ← self.processPendingRemovals records epoch
  let (self, records) ← self.updateAndProcessLowStakeDepartures thresholds records epoch
  let self := { self with totalStake := calculateTotalStakes self.activeValidators }
  let activeValidators ← VotingPower.setVotingPower self.activeValidators
  let self ← { self with activeValidators }.effectuateStagedMetadata
  return ((self, records), distribution.stakes)

variable {self self' : ValidatorSet} {records records' : ReportRecords} {epoch index : ℕ}
  {thresholds : StakeThresholds} {after : WithRecords}

lemma removeActive_eq_ok (h : self.removeActive records epoch index = .ok after) :
    ∃ v, self.activeValidators[index]? = some v ∧ v.stakingPool.isInactive = false ∧
      self.inactiveValidators.contains v.stakingPoolId = false ∧ v.totalStakeAmount ≤ self.totalStake ∧
      after = ({ self with
        activeValidators := self.activeValidators.eraseIdx index
        stakingPoolMappings := self.stakingPoolMappings.erase v.stakingPoolId
        atRiskValidators := self.atRiskValidators.erase v.suiAddress
        totalStake := self.totalStake - v.totalStakeAmount
        inactiveValidators := self.inactiveValidators.insert v.stakingPoolId
          { v with stakingPool := { v.stakingPool with deactivationEpoch := some (epoch + 1) } } },
        cleanReportRecordsLeavingValidator records v.suiAddress) := by
  obtain ⟨v, hv, h⟩ := bind_eq_ok.mp h
  obtain ⟨⟨mappings, address⟩, hmapps, h⟩ := bind_eq_ok.mp h
  obtain ⟨totalStake, htot, h⟩ := bind_eq_ok.mp h
  obtain ⟨inactive, hina, h⟩ := bind_eq_ok.mp h
  obtain ⟨table, htb, h⟩ := bind_eq_ok.mp h
  obtain ⟨-, hmapps⟩ := tableRemove_eq_ok.mp hmapps
  obtain ⟨hle, rfl⟩ := checkedSub_eq_ok.mp htot
  obtain ⟨pool, hpool, hdeact⟩ := bind_eq_ok.mp hina
  obtain ⟨hact, rfl⟩ := StakingPool.deactivateStakingPool_eq_ok hpool
  cases hdeact
  obtain ⟨hnew, rfl⟩ := tableAdd_eq_ok.mp htb
  cases h
  subst hmapps
  exact ⟨v, getAt_eq_ok.mp hv, hact, hnew, hle, rfl⟩

def deactivated (v : Validator) (epoch : ℕ) : Validator :=
  { v with stakingPool := { v.stakingPool with deactivationEpoch := some (epoch + 1) } }

/-- The validators in `leaving` have left the active ones. -/
structure Departed (epoch : ℕ) (before after : WithRecords) (leaving : List Validator) : Prop where
  perm : (after.1.activeValidators ++ leaving).Perm before.1.activeValidators
  sublist : after.1.activeValidators.Sublist before.1.activeValidators
  pending : after.1.pendingActiveValidators = before.1.pendingActiveValidators
  candidates : after.1.validatorCandidates = before.1.validatorCandidates
  removals : after.1.pendingRemovals = before.1.pendingRemovals
  mappings : ∀ id : ID, after.1.stakingPoolMappings[id]? =
    if id ∈ leaving.map Validator.stakingPoolId then none else before.1.stakingPoolMappings[id]?
  left : ∀ v ∈ leaving, v.stakingPool.isInactive = false ∧
    after.1.inactiveValidators[v.stakingPoolId]? = some (deactivated v epoch)
  inactive : ∀ id : ID, id ∉ leaving.map Validator.stakingPoolId →
    after.1.inactiveValidators[id]? = before.1.inactiveValidators[id]?
  records : after.2 = leaving.foldl
    (fun records v => cleanReportRecordsLeavingValidator records v.suiAddress) before.2
  totalStake : after.1.totalStake + (leaving.map Validator.totalStakeAmount).sum = before.1.totalStake

namespace Departed

variable {before mid after : WithRecords} {leaving : List Validator}

lemma refl (before : WithRecords) : Departed epoch before before [] :=
  ⟨by simp, List.Sublist.refl _, rfl, rfl, rfl, by simp, by simp, fun _ _ => rfl, rfl, by simp⟩

lemma remove (h : Departed epoch before mid leaving)
    (hrem : mid.1.removeActive mid.2 epoch index = .ok after) :
    ∃ v, mid.1.activeValidators[index]? = some v ∧ Departed epoch before after (leaving ++ [v]) := by
  obtain ⟨v, hv, hact, hnew, hle, rfl⟩ := removeActive_eq_ok hrem
  obtain ⟨hlt, hget⟩ := List.getElem?_eq_some_iff.mp hv
  have hoth : ∀ w ∈ leaving, w.stakingPoolId ≠ v.stakingPoolId := by
    intro w hw heq
    have hin : v.stakingPoolId ∈ mid.1.inactiveValidators :=
      mem_map_iff_exists.mpr ⟨_, heq ▸ (h.left w hw).2⟩
    exact absurd (TreeMap.contains_iff_mem.mpr hin) (Bool.eq_false_iff.mp hnew)
  refine ⟨v, hv, ?_, ?_, h.pending, h.candidates, h.removals, fun id => ?_, fun w hw => ?_,
    fun id hid => ?_, ?_, ?_⟩
  · refine List.Perm.trans ?_ h.perm
    have herase : (mid.1.activeValidators.eraseIdx index ++ [v]).Perm mid.1.activeValidators := by
      rw [← hget]
      exact (perm_append_singleton _ _).trans (getElem_cons_eraseIdx_perm hlt)
    have hswap : (leaving ++ [v]).Perm ([v] ++ leaving) := perm_append_comm
    refine (hswap.append_left _).trans ?_
    rw [← append_assoc]
    exact herase.append_right leaving
  · exact (eraseIdx_sublist _ _).trans h.sublist
  · rw [getElem?_erase_ite, h.mappings id, map_append, map_singleton]
    by_cases heq : v.stakingPoolId = id
    · simp [heq]
    · simp [heq, Ne.symm heq]
  · rcases mem_append.mp hw with hw | hw
    · obtain ⟨hwactive, hwleft⟩ := h.left w hw
      refine ⟨hwactive, ?_⟩
      rw [getElem?_insert_ite, if_neg (hoth w hw).symm, hwleft]
    · obtain rfl := mem_singleton.mp hw
      refine ⟨hact, ?_⟩
      rw [getElem?_insert_ite, if_pos rfl]
      rfl
  · rw [map_append, mem_append, not_or] at hid
    rw [getElem?_insert_ite, if_neg fun heq => hid.2 (by simp [heq]), h.inactive id hid.1]
  · rw [foldl_append, ← h.records]
    rfl
  · have htot := h.totalStake
    rw [map_append, sum_append, map_singleton, sum_singleton]
    dsimp only
    omega

lemma atRisk (h : Departed epoch before mid leaving) (atRiskValidators : TreeMap SuiAddress ℕ) :
    Departed epoch before ({ mid.1 with atRiskValidators }, mid.2) leaving :=
  ⟨h.perm, h.sublist, h.pending, h.candidates, h.removals, h.mappings, h.left, h.inactive,
    h.records, h.totalStake⟩

end Departed

lemma departed_processPendingRemovals (h : self.processPendingRemovals records epoch = .ok after) :
    ∃ leaving, Departed epoch ({ self with pendingRemovals := [] }, records) after leaving := by
  refine foldlM_ok_induction (fun acc : WithRecords => ∃ leaving, Departed epoch _ acc leaving) ?_
    ⟨[], Departed.refl _⟩ h
  rintro acc index acc' - ⟨leaving, hacc⟩ hstep
  obtain ⟨v, -, hnext⟩ := hacc.remove hstep
  exact ⟨_, hnext⟩

variable {before : WithRecords} {leaving : List Validator}

lemma departed_updateLowStake {acc acc' : WithRecords} (hacc : Departed epoch before acc leaving)
    (h : updateLowStake thresholds epoch acc index = .ok acc') :
    ∃ leaving', Departed epoch before acc' leaving' := by
  obtain ⟨v, -, h⟩ := bind_eq_ok.mp h
  dsimp only at h
  split_ifs at h with hlow hvery hgrace
  · cases h
    exact ⟨leaving, hacc.atRisk _⟩
  · obtain ⟨v, -, hnext⟩ := (hacc.atRisk _).remove h
    exact ⟨_, hnext⟩
  · cases h
    exact ⟨leaving, hacc.atRisk _⟩
  · obtain ⟨v, -, hnext⟩ := hacc.remove h
    exact ⟨_, hnext⟩

lemma departed_lowStakeDepartures
    (hbef : Departed epoch before (self, records) leaving)
    (h : self.updateAndProcessLowStakeDepartures thresholds records epoch = .ok after) :
    ∃ leaving', Departed epoch before after leaving' := by
  refine foldlM_ok_induction (fun acc : WithRecords => ∃ leaving, Departed epoch before acc leaving)
    ?_ ⟨leaving, hbef⟩ h
  rintro acc index acc' - ⟨leaving, hacc⟩ hstep
  exact departed_updateLowStake hacc hstep

/-- The reward of one validator: commission and storage fund reward as stake, the rest for the
stakers. -/
def Rewarded (rewards : Rewards) (epoch : ℕ) (entry : Validator × ℕ)
    (result : Validator × List StakedSui) : Prop :=
  ∃ staking storageFund commission v, rewards.staking[entry.2]? = some staking ∧
    rewards.storageFund[entry.2]? = some storageFund ∧
    commission ≤ staking ∧ addValidatorReward entry.1 (commission + storageFund) epoch =
      .ok (v, result.2) ∧
    result.1 = v.depositStakeRewards (staking - commission)

variable {storageFundReward : ℕ}

lemma distributeReward_eq_ok {validators : List Validator} {rewards : Rewards} {stakingRewards : ℕ}
    {distribution : Distribution}
    (h : distributeReward validators rewards stakingRewards storageFundReward epoch =
      .ok distribution) :
    ∃ results, List.Forall₂ (Rewarded rewards epoch) validators.zipIdx results ∧
      distribution.validators = results.map Prod.fst ∧
      distribution.stakes = (results.map Prod.snd).flatten := by
  obtain ⟨_, -, h⟩ := bind_eq_ok.mp h
  have hends : Ends (validators.zipIdx.foldlM (distributeRewardTo rewards epoch)
    ⟨stakingRewards, storageFundReward, [], []⟩)
      (fun _ => True) fun acc =>
        ∃ results, List.Forall₂ (Rewarded rewards epoch) validators.zipIdx results ∧
        acc.validators = results.map Prod.fst ∧ acc.stakes = (results.map Prod.snd).flatten := by
    refine Ends.foldlM (fun done (acc : Distribution) =>
      ∃ results, List.Forall₂ (Rewarded rewards epoch) done results ∧
      acc.validators = results.map Prod.fst ∧ acc.stakes = (results.map Prod.snd).flatten) ?_
        ⟨[], .nil, rfl, rfl⟩
    rintro done entry acc - ⟨results, hress, hvals, hsks⟩
    refine ⟨fun acc' hstep => ?_, fun _ _ => trivial⟩
    obtain ⟨staking, hstaking, hstep⟩ := bind_eq_ok.mp hstep
    obtain ⟨_, -, hstep⟩ := bind_eq_ok.mp hstep
    obtain ⟨commission, -, hstep⟩ := bind_eq_ok.mp hstep
    obtain ⟨stakerReward, hstaker, hstep⟩ := bind_eq_ok.mp hstep
    obtain ⟨storageFund, hstorage, hstep⟩ := bind_eq_ok.mp hstep
    obtain ⟨_, -, hstep⟩ := bind_eq_ok.mp hstep
    obtain ⟨⟨v, stakes⟩, hrew, hstep⟩ := bind_eq_ok.mp hstep
    obtain ⟨hle, rfl⟩ := splitBalance_eq_ok.mp hstaker
    cases hstep
    refine ⟨results ++ [(v.depositStakeRewards (staking - commission), stakes)], ?_, ?_, ?_⟩
    · refine rel_append hress (.cons ?_ .nil)
      exact ⟨staking, storageFund, commission, v, getAt_eq_ok.mp hstaking, getAt_eq_ok.mp hstorage,
        hle, hrew, rfl⟩
    · simp [hvals]
    · simp [hsks]
  exact hends.1 distribution h

/-- The parts of an epoch change: the rewards, the active validators with their rewards, those with
their stakes processed, those that join and those that leave, the set without the latter, and the
active validators with their voting power and with their staged metadata. -/
structure EpochParts where
  rewards : Rewards
  results : List (Validator × List StakedSui)
  processed : List Validator
  joining : List Validator
  leaving : List Validator
  departed : WithRecords
  powered : List Validator
  active : List Validator

/-- The active validators have their rewards and stakes, and the pending ones are ready to join. -/
structure Settled (set : ValidatorSet) (epoch : ℕ) (rewards : Rewards)
    (results : List (Validator × List StakedSui)) (processed joining : List Validator) : Prop where
  rewarded : List.Forall₂ (Rewarded rewards epoch) set.activeValidators.zipIdx results
  processed_eq : (results.map fun result => result.1.adjustStakeAndGasPrice).mapM
    (fun v => v.processPendingStakesAndWithdraws epoch) = .ok processed
  joining_eq : set.pendingActiveValidators.reverse.mapM (fun v => v.activate (epoch + 1)) = .ok joining

/-- The parts of an epoch change that did not abort. -/
structure Advanced (before after : WithRecords) (epoch : ℕ) (stakes : List StakedSui)
    (parts : EpochParts) : Prop where
  settled : Settled before.1 epoch parts.rewards parts.results parts.processed parts.joining
  stakes_eq : stakes = (parts.results.map Prod.snd).flatten
  departs : Departed epoch ({ before.1 with
    activeValidators := parts.processed ++ parts.joining
    pendingActiveValidators := []
    pendingRemovals := [] }, before.2) parts.departed parts.leaving
  powered_eq : VotingPower.setVotingPower parts.departed.1.activeValidators = .ok parts.powered
  active_eq : parts.powered.mapM Validator.effectuateStagedMetadata = .ok parts.active
  after_eq : after = ({ parts.departed.1 with
    activeValidators := parts.active
    totalStake := calculateTotalStakes parts.departed.1.activeValidators }, parts.departed.2)

variable {computationReward rewardSlashingRate : ℕ} {stakes : List StakedSui}

section

variable (h : self.advanceEpoch computationReward storageFundReward records rewardSlashingRate
  thresholds epoch = .ok (after, stakes))

include h

lemma advanceEpoch_eq_ok :
    ∃ parts, self.computeRewards computationReward storageFundReward records rewardSlashingRate =
      .ok parts.rewards ∧
      Advanced (self, records) after epoch stakes parts := by
  obtain ⟨rewards, hrews, h⟩ := bind_eq_ok.mp h
  obtain ⟨distribution, hdistr, h⟩ := bind_eq_ok.mp h
  obtain ⟨processed, hprocd, h⟩ := bind_eq_ok.mp h
  obtain ⟨joined, hjnd, h⟩ := bind_eq_ok.mp h
  obtain ⟨joining, hjoin, hjnd⟩ := bind_eq_ok.mp hjnd
  cases hjnd
  obtain ⟨⟨removed, removedRecords⟩, hremoved, h⟩ := bind_eq_ok.mp h
  obtain ⟨⟨stayed, stayedRecords⟩, hstayed, h⟩ := bind_eq_ok.mp h
  obtain ⟨powered, hpow, h⟩ := bind_eq_ok.mp h
  obtain ⟨effectuated, heff, h⟩ := bind_eq_ok.mp h
  obtain ⟨active, hact, heff⟩ := bind_eq_ok.mp heff
  cases heff
  cases h
  obtain ⟨results, hress, hvals, hsks⟩ := distributeReward_eq_ok hdistr
  obtain ⟨leaving, hleav⟩ := departed_processPendingRemovals hremoved
  obtain ⟨leaving', hleav'⟩ := departed_lowStakeDepartures hleav hstayed
  rw [hvals, map_map] at hprocd
  exact ⟨⟨rewards, results, processed, joining, leaving', (stayed, stayedRecords), powered,
    active⟩, hrews,
    ⟨⟨hress, hprocd, hjoin⟩, hsks, hleav', hpow, hact, rfl⟩⟩

lemma advanceEpoch_validatorCandidates :
    after.1.validatorCandidates = self.validatorCandidates := by
  obtain ⟨parts, -, hadv⟩ := advanceEpoch_eq_ok h
  obtain rfl := hadv.after_eq
  exact hadv.departs.candidates

end

end ValidatorSet

end SuiProofs.SuiSystem

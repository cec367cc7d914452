import SuiProofs.SuiSystem.VotingPower

/-! Models `validator_set.move` between epoch changes. A function that hands out a mutable reference
to a validator takes the update of the validator as an argument. -/

namespace SuiProofs.SuiSystem

open Library Option Std

structure ValidatorSet where
  totalStake : ℕ
  activeValidators : List Validator
  pendingActiveValidators : List Validator
  pendingRemovals : List ℕ
  stakingPoolMappings : TreeMap ID SuiAddress
  inactiveValidators : TreeMap ID Validator
  validatorCandidates : TreeMap SuiAddress Validator
  atRiskValidators : TreeMap SuiAddress ℕ

/-- Adding a key that is in a table aborts. -/
def tableAdd {α : Type} (table : TreeMap ℕ α) (key : ℕ) (value : α) : Except Abort (TreeMap ℕ α) :=
  if table.contains key then .error .keyAlreadyExists else .ok (table.insert key value)

/-- Removing a key that is not in a table aborts. -/
def tableRemove {α : Type} (table : TreeMap ℕ α) (key : ℕ) : Except Abort (TreeMap ℕ α × α) :=
  match table[key]? with
  | some value => .ok (table.erase key, value)
  | none => .error .keyNotFound

variable {α : Type} {table : TreeMap ℕ α} {key : ℕ}

lemma tableAdd_eq_ok {table' : TreeMap ℕ α} {value : α} :
    tableAdd table key value = .ok table' ↔
      table.contains key = false ∧ table' = table.insert key value := by
  unfold tableAdd
  split_ifs with h
  · exact iff_of_false (fun he => by cases he) fun hn => by simp [h] at hn
  · rw [Except.ok.injEq, eq_comm]
    exact (and_iff_right (Bool.eq_false_of_not_eq_true h)).symm

lemma tableRemove_eq_ok {result : TreeMap ℕ α × α} :
    tableRemove table key = .ok result ↔ table[key]? = some result.2 ∧ result.1 = table.erase key := by
  unfold tableRemove
  obtain ⟨rest, value⟩ := result
  cases table[key]? with
  | none => simp
  | some found =>
    simp only [Except.ok.injEq, Prod.mk.injEq, some.injEq]
    exact ⟨fun h => ⟨h.2, h.1.symm⟩, fun h => ⟨h.2.symm, h.1⟩⟩

variable (validators : List Validator)

def findValidator (validatorAddress : SuiAddress) : Option ℕ :=
  validators.findIdx? fun v => v.suiAddress = validatorAddress

def calculateTotalStakes : ℕ := (validators.map Validator.totalStakeAmount).sum

def countDuplicates (validator : Validator) : ℕ :=
  validators.countP fun v => v.isDuplicate validator

def isDuplicateValidator (newValidator : Validator) : Bool := countDuplicates validators newValidator > 0

def getValidatorRef (validatorAddress : SuiAddress) : Except Abort Validator :=
  match validators.find? fun v => v.suiAddress = validatorAddress with
  | some v => .ok v
  | none => .error .notAValidator

abbrev Update (α : Type) := Validator → Except Abort (Validator × α)

def updateAt {α : Type} (validators : List Validator) (index : ℕ) (update : Update α) :
    Except Abort (List Validator × α) :=
  match validators[index]? with
  | none => .error .indexOutOfBounds
  | some v => do
    let (v, a) ← update v
    return (validators.set index v, a)

def getValidatorMut {α : Type} (validators : List Validator) (validatorAddress : SuiAddress)
    (update : Update α) :
    Except Abort (List Validator × α) :=
  match findValidator validators validatorAddress with
  | none => .error .notAValidator
  | some index => updateAt validators index update

def sumVotingPowerByAddresses (addresses : List SuiAddress) : Except Abort ℕ := do
  let reporters ← addresses.mapM (getValidatorRef validators)
  return (reporters.map Validator.votingPower).sum

def plain (update : Validator → Except Abort Validator) : Update Unit := fun v => do
  let v ← update v
  return (v, ())

namespace ValidatorSet

def new (initActiveValidators : List Validator) : Except Abort ValidatorSet := do
  let stakingPoolMappings ← initActiveValidators.foldlM
    (fun table v => tableAdd table v.stakingPoolId v.suiAddress) ∅
  let activeValidators ← VotingPower.setVotingPower initActiveValidators
  return {
    totalStake := calculateTotalStakes initActiveValidators, activeValidators,
    pendingActiveValidators := [], pendingRemovals := [], stakingPoolMappings,
    inactiveValidators := ∅, validatorCandidates := ∅, atRiskValidators := ∅ }

def isDuplicateWithActiveValidator (self : ValidatorSet) (newValidator : Validator) : Bool :=
  isDuplicateValidator self.activeValidators newValidator

def isDuplicateWithPendingValidator (self : ValidatorSet) (newValidator : Validator) : Bool :=
  countDuplicates self.pendingActiveValidators newValidator > 0

def requestAddValidatorCandidate (self : ValidatorSet) (validator : Validator) :
    Except Abort ValidatorSet := do
  check (!self.isDuplicateWithActiveValidator validator &&
    !self.isDuplicateWithPendingValidator validator) .duplicateValidator
  check (!self.validatorCandidates.contains validator.suiAddress) .alreadyValidatorCandidate
  check validator.isPreactive .validatorNotCandidate
  let stakingPoolMappings ← tableAdd self.stakingPoolMappings validator.stakingPoolId
    validator.suiAddress
  let validatorCandidates ← tableAdd self.validatorCandidates validator.suiAddress validator
  return { self with stakingPoolMappings, validatorCandidates }

def requestRemoveValidatorCandidate (self : ValidatorSet) (sender epoch : ℕ) :
    Except Abort ValidatorSet := do
  check (self.validatorCandidates.contains sender) .notValidatorCandidate
  let (validatorCandidates, validator) ← tableRemove self.validatorCandidates sender
  check validator.isPreactive .validatorNotCandidate
  let (stakingPoolMappings, _) ← tableRemove self.stakingPoolMappings validator.stakingPoolId
  let validator ← validator.deactivate epoch
  let inactiveValidators ← tableAdd self.inactiveValidators validator.stakingPoolId validator
  return { self with validatorCandidates, stakingPoolMappings, inactiveValidators }

def requestAddValidator (self : ValidatorSet) (minJoiningStakeAmount : ℕ) (sender : SuiAddress) :
    Except Abort ValidatorSet := do
  check (self.validatorCandidates.contains sender) .notValidatorCandidate
  let (validatorCandidates, validator) ← tableRemove self.validatorCandidates sender
  check (!self.isDuplicateWithActiveValidator validator &&
    !self.isDuplicateWithPendingValidator validator) .duplicateValidator
  check validator.isPreactive .validatorNotCandidate
  check (validator.totalStakeAmount ≥ minJoiningStakeAmount) .minJoiningStakeNotReached
  return { self with
    validatorCandidates, pendingActiveValidators := self.pendingActiveValidators ++ [validator] }

/-- A validator that is active or pending is its own duplicate, once. -/
def assertNoPendingOrActiveDuplicates (self : ValidatorSet) (validator : Validator) :
    Except Abort Unit :=
  check (countDuplicates self.activeValidators validator +
    countDuplicates self.pendingActiveValidators validator = 1)
    .duplicateValidator

def requestRemoveValidator (self : ValidatorSet) (sender : SuiAddress) : Except Abort ValidatorSet :=
  match findValidator self.activeValidators sender with
  | none => .error .notAValidator
  | some validatorIndex => do
    check (!self.pendingRemovals.contains validatorIndex) .validatorAlreadyRemoved
    return { self with pendingRemovals := self.pendingRemovals ++ [validatorIndex] }

def nextEpochValidatorCount (self : ValidatorSet) : Except Abort ℕ := do
  let staying ← checkedSub self.activeValidators.length self.pendingRemovals.length
  return staying + self.pendingActiveValidators.length

def getCandidateMut {α : Type} (self : ValidatorSet) (validatorAddress : SuiAddress)
    (update : Update α) :
    Except Abort (ValidatorSet × α) :=
  match self.validatorCandidates[validatorAddress]? with
  | none => .error .keyNotFound
  | some v => do
    let (v, a) ← update v
    return ({ self with validatorCandidates := self.validatorCandidates.insert validatorAddress v }, a)

def getActiveMut {α : Type} (self : ValidatorSet) (validatorAddress : SuiAddress) (update : Update α) :
    Except Abort (ValidatorSet × α) := do
  let (activeValidators, a) ← getValidatorMut self.activeValidators validatorAddress update
  return ({ self with activeValidators }, a)

def getPendingMut {α : Type} (self : ValidatorSet) (validatorAddress : SuiAddress) (update : Update α) :
    Except Abort (ValidatorSet × α) := do
  let (pendingActiveValidators, a) ← getValidatorMut self.pendingActiveValidators validatorAddress update
  return ({ self with pendingActiveValidators }, a)

def getCandidateOrActiveValidatorMut {α : Type} (self : ValidatorSet)
    (validatorAddress : SuiAddress) (update : Update α) :
    Except Abort (ValidatorSet × α) :=
  if self.validatorCandidates.contains validatorAddress then self.getCandidateMut validatorAddress update
  else self.getActiveMut validatorAddress update

def getActiveOrPendingOrCandidateValidatorMut {α : Type} (self : ValidatorSet)
    (validatorAddress : SuiAddress) (includeCandidate : Bool)
    (update : Update α) : Except Abort (ValidatorSet × α) :=
  if (findValidator self.activeValidators validatorAddress).isSome then
    self.getActiveMut validatorAddress update
  else if (findValidator self.pendingActiveValidators validatorAddress).isSome then
    self.getPendingMut validatorAddress update
  else do
    check includeCandidate .notActiveOrPendingValidator
    self.getCandidateMut validatorAddress update

def requestAddStake (self : ValidatorSet) (validatorAddress : SuiAddress) (stake epoch : ℕ) :
    Except Abort (ValidatorSet × StakedSui) := do
  check (stake ≥ minStakingThreshold) .stakingBelowThreshold
  self.getCandidateOrActiveValidatorMut validatorAddress fun v => v.requestAddStake stake epoch

def requestWithdrawStakeInactive (self : ValidatorSet) (stakedSui : StakedSui) (epoch : ℕ) :
    Except Abort (ValidatorSet × ℕ) :=
  match self.inactiveValidators[stakedSui.poolId]? with
  | none => .error .noPoolFound
  | some v => do
    let (v, amount) ← v.requestWithdrawStake stakedSui epoch
    return ({ self with inactiveValidators := self.inactiveValidators.insert stakedSui.poolId v },
      amount)

def requestWithdrawStake (self : ValidatorSet) (stakedSui : StakedSui) (epoch : ℕ) :
    Except Abort (ValidatorSet × ℕ) :=
  match self.stakingPoolMappings[stakedSui.poolId]? with
  | some validatorAddress => self.getCandidateOrActiveValidatorMut validatorAddress fun v =>
      v.requestWithdrawStake stakedSui epoch
  | none => self.requestWithdrawStakeInactive stakedSui epoch

variable {self self' : ValidatorSet} {α : Type} {a : α} {update : Update α} {address : SuiAddress}

lemma getCandidateMut_eq_ok (h : self.getCandidateMut address update = .ok (self', a)) :
    ∃ v v', self.validatorCandidates[address]? = some v ∧ update v = .ok (v', a) ∧
      self' = { self with validatorCandidates := self.validatorCandidates.insert address v' } := by
  unfold getCandidateMut at h
  split at h
  · cases h
  rename_i v hv
  obtain ⟨⟨v', b⟩, hupd, h⟩ := bind_eq_ok.mp h
  cases h
  exact ⟨v, v', hv, hupd, rfl⟩

variable {v : Validator} {epoch : ℕ} {s : StakedSui}

lemma getCandidateOrActiveValidatorMut_candidate (hv : self.validatorCandidates[address]? = some v)
    (h : self.getCandidateOrActiveValidatorMut address update = .ok (self', a)) :
    ∃ v', update v = .ok (v', a) ∧ self' =
      { self with validatorCandidates := self.validatorCandidates.insert address v' } := by
  have hcont : self.validatorCandidates.contains address = true :=
    TreeMap.contains_iff_mem.mpr (mem_map_iff_exists.mpr ⟨v, hv⟩)
  rw [getCandidateOrActiveValidatorMut, if_pos hcont] at h
  obtain ⟨w, v', hw, hupd, rfl⟩ := getCandidateMut_eq_ok h
  obtain rfl := some.inj (hw.symm.trans hv)
  exact ⟨v', hupd, rfl⟩

lemma duplicates_eq_zero
    (h : (!self.isDuplicateWithActiveValidator v && !self.isDuplicateWithPendingValidator v) =
      true) :
    countDuplicates self.activeValidators v = 0 ∧
      countDuplicates self.pendingActiveValidators v = 0 := by
  simpa [isDuplicateWithActiveValidator, isDuplicateWithPendingValidator, isDuplicateValidator] using h

lemma requestAddValidatorCandidate_eq_ok {validator : Validator}
    (h : self.requestAddValidatorCandidate validator = .ok self') :
    countDuplicates self.activeValidators validator = 0 ∧
      countDuplicates self.pendingActiveValidators validator = 0 ∧
      self.validatorCandidates.contains validator.suiAddress = false ∧
        self.stakingPoolMappings.contains validator.stakingPoolId = false ∧
      validator.isPreactive = true ∧
      self' = { self with
        stakingPoolMappings :=
          self.stakingPoolMappings.insert validator.stakingPoolId validator.suiAddress
        validatorCandidates := self.validatorCandidates.insert validator.suiAddress validator } := by
  obtain ⟨hdup, h⟩ := check_bind_eq_ok.mp h
  obtain ⟨_, -, h⟩ := bind_eq_ok.mp h
  obtain ⟨hpre, h⟩ := check_bind_eq_ok.mp h
  obtain ⟨mappings, hmapps, h⟩ := bind_eq_ok.mp h
  obtain ⟨candidates, hcands, h⟩ := bind_eq_ok.mp h
  obtain ⟨hmapp, rfl⟩ := tableAdd_eq_ok.mp hmapps
  obtain ⟨hcand, rfl⟩ := tableAdd_eq_ok.mp hcands
  cases h
  have hnone := duplicates_eq_zero hdup
  exact ⟨hnone.1, hnone.2, hcand, hmapp, hpre, rfl⟩

lemma requestAddValidator_eq_ok {minJoiningStakeAmount : ℕ}
    (h : self.requestAddValidator minJoiningStakeAmount address = .ok self') :
    ∃ v, self.validatorCandidates[address]? = some v ∧ countDuplicates self.activeValidators v = 0 ∧
      countDuplicates self.pendingActiveValidators v = 0 ∧ v.isPreactive = true ∧
        minJoiningStakeAmount ≤ v.totalStakeAmount ∧
      self' = { self with
        validatorCandidates := self.validatorCandidates.erase address
        pendingActiveValidators := self.pendingActiveValidators ++ [v] } := by
  obtain ⟨_, -, h⟩ := bind_eq_ok.mp h
  obtain ⟨⟨candidates, v⟩, hrem, h⟩ := bind_eq_ok.mp h
  obtain ⟨hdup, h⟩ := check_bind_eq_ok.mp h
  obtain ⟨hpre, h⟩ := check_bind_eq_ok.mp h
  obtain ⟨hstk, h⟩ := check_bind_eq_ok.mp h
  obtain ⟨hv, hcands⟩ := tableRemove_eq_ok.mp hrem
  subst hcands
  cases h
  have hnone := duplicates_eq_zero hdup
  exact ⟨v, hv, hnone.1, hnone.2, hpre, of_decide_eq_true hstk, rfl⟩

lemma requestRemoveValidatorCandidate_eq_ok
    (h : self.requestRemoveValidatorCandidate address epoch = .ok self') :
    ∃ v, self.validatorCandidates[address]? = some v ∧ v.isPreactive = true ∧
      v.stakingPool.isInactive = false ∧
      self.inactiveValidators.contains v.stakingPoolId = false ∧
      self' = { self with
        validatorCandidates := self.validatorCandidates.erase address
        stakingPoolMappings := self.stakingPoolMappings.erase v.stakingPoolId
        inactiveValidators := self.inactiveValidators.insert v.stakingPoolId
          { v with stakingPool := { v.stakingPool with deactivationEpoch := some epoch } } } := by
  obtain ⟨_, -, h⟩ := bind_eq_ok.mp h
  obtain ⟨⟨candidates, v⟩, hrem, h⟩ := bind_eq_ok.mp h
  obtain ⟨hpre, h⟩ := check_bind_eq_ok.mp h
  obtain ⟨⟨mappings, removed⟩, hmapps, h⟩ := bind_eq_ok.mp h
  obtain ⟨v', hdeac, h⟩ := bind_eq_ok.mp h
  obtain ⟨inactive, hina, h⟩ := bind_eq_ok.mp h
  obtain ⟨hv, hcands⟩ := tableRemove_eq_ok.mp hrem
  obtain ⟨-, hmapps⟩ := tableRemove_eq_ok.mp hmapps
  obtain ⟨pool, hpool, hdeac⟩ := bind_eq_ok.mp hdeac
  obtain ⟨hact, rfl⟩ := StakingPool.deactivateStakingPool_eq_ok hpool
  cases hdeac
  obtain ⟨hnew, rfl⟩ := tableAdd_eq_ok.mp hina
  cases h
  subst hcands hmapps
  exact ⟨v, hv, hpre, hact, hnew, rfl⟩

lemma requestRemoveValidator_eq_ok (h : self.requestRemoveValidator address = .ok self') :
    ∃ index, findValidator self.activeValidators address = some index ∧ index ∉ self.pendingRemovals ∧
      self' = { self with pendingRemovals := self.pendingRemovals ++ [index] } := by
  unfold requestRemoveValidator at h
  split at h
  · cases h
  rename_i index hfind
  obtain ⟨hcont, h⟩ := check_bind_eq_ok.mp h
  cases h
  exact ⟨index, hfind, by simpa using hcont, rfl⟩

end ValidatorSet

end SuiProofs.SuiSystem

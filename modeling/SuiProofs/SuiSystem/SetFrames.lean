import SuiProofs.Library.StagedSetting
import SuiProofs.SuiSystem.SystemState
import SuiProofs.SuiSystem.ValidatorIdentity

namespace SuiProofs.SuiSystem

open Library List Validator ValidatorSet

/-- What stakes and rewards leave unchanged in a validator. -/
structure Profile where
  metadata : ValidatorMetadata
  poolId : ID
  isPreactive : Bool
  isInactive : Bool

def Profile.activated (profile : Profile) : Profile := { profile with isPreactive := false }

/-- What the settings of a validator depend on. -/
structure Dossier where
  address : SuiAddress
  poolId : ID
  isInactive : Bool
  activation : Option ℕ
  commission : Slot ℕ
  gasPrice : Slot ℕ

namespace Dossier

def adjusted (d : Dossier) : Dossier :=
  { d with commission := d.commission.commit, gasPrice := d.gasPrice.commit }

def activated (d : Dossier) (epoch : ℕ) : Dossier := { d with activation := some epoch }

end Dossier

namespace Validator

def profile (v : Validator) : Profile :=
  ⟨v.metadata, v.stakingPoolId, v.isPreactive, v.stakingPool.isInactive⟩

def dossier (v : Validator) : Dossier where
  address := v.suiAddress
  poolId := v.stakingPoolId
  isInactive := v.stakingPool.isInactive
  activation := v.stakingPool.activationEpoch
  commission := ⟨v.commissionRate, v.nextEpochCommissionRate⟩
  gasPrice := ⟨v.gasPrice, v.nextEpochGasPrice⟩

variable {validateMetadata : ValidatorMetadata → Bool} {v v' : Validator}

lemma new_eq_ok {address : SuiAddress} {registration : Registration} {poolId operationCapId : ID}
    (h : new validateMetadata address registration poolId operationCapId = .ok v) :
    ∃ metadata, metadata.suiAddress = address ∧
      v = newFromMetadata metadata registration.gasPrice registration.commissionRate poolId
        operationCapId := by
  obtain ⟨_, -, h⟩ := bind_eq_ok.mp h
  obtain ⟨_, -, h⟩ := bind_eq_ok.mp h
  obtain ⟨_, -, h⟩ := bind_eq_ok.mp h
  obtain ⟨metadata, hmeta, h⟩ := bind_eq_ok.mp h
  obtain ⟨_, -, h⟩ := bind_eq_ok.mp h
  cases h
  refine ⟨metadata, ?_, rfl⟩
  obtain ⟨name, -, hmeta⟩ := bind_eq_ok.mp hmeta
  obtain ⟨description, -, hmeta⟩ := bind_eq_ok.mp hmeta
  obtain ⟨imageUrl, -, hmeta⟩ := bind_eq_ok.mp hmeta
  obtain ⟨projectUrl, -, hmeta⟩ := bind_eq_ok.mp hmeta
  obtain ⟨netAddress, -, hmeta⟩ := bind_eq_ok.mp hmeta
  obtain ⟨p2pAddress, -, hmeta⟩ := bind_eq_ok.mp hmeta
  obtain ⟨primaryAddress, -, hmeta⟩ := bind_eq_ok.mp hmeta
  obtain ⟨workerAddress, -, hmeta⟩ := bind_eq_ok.mp hmeta
  cases hmeta
  rfl

variable {metadata : ValidatorMetadata}

section

variable {bytes : Bytes} {set : Bytes → ValidatorMetadata} {β : Type} {kept : ValidatorMetadata → β}

lemma setValidMetadata_eq_ok (h : v.setValidMetadata validateMetadata metadata = .ok v')
    (hkept : kept metadata = kept v.metadata) :
    ∃ metadata, v' = { v with metadata } ∧ kept metadata = kept v.metadata := by
  obtain ⟨_, -, h⟩ := bind_eq_ok.mp h
  cases h
  exact ⟨metadata, rfl, hkept⟩

/-- The updates that write a text into the metadata without a further check. -/
lemma metadataText_eq_ok
    (h : (do let text ← metadataText bytes; return { v with metadata := set text }) = .ok v')
    (hkept : ∀ text, kept (set text) = kept v.metadata) :
    ∃ metadata, v' = { v with metadata } ∧ kept metadata = kept v.metadata := by
  obtain ⟨text, -, h⟩ := bind_eq_ok.mp h
  cases h
  exact ⟨set text, rfl, hkept text⟩

lemma metadataText_valid_eq_ok
    (h : (do let text ← metadataText bytes; v.setValidMetadata validateMetadata (set text)) = .ok v')
    (hkept : ∀ text, kept (set text) = kept v.metadata) :
    ∃ metadata, v' = { v with metadata } ∧ kept metadata = kept v.metadata := by
  obtain ⟨text, -, h⟩ := bind_eq_ok.mp h
  exact setValidMetadata_eq_ok h (hkept text)

end

variable {value : ℕ} {address : SuiAddress}

lemma requestSetGasPrice_eq_ok (h : v.requestSetGasPrice address value = .ok v') :
    v' = { v with nextEpochGasPrice := value } := by
  obtain ⟨_, -, h⟩ := bind_eq_ok.mp h
  obtain ⟨_, -, h⟩ := bind_eq_ok.mp h
  cases h
  rfl

lemma setCandidateGasPrice_eq_ok (h : v.setCandidateGasPrice address value = .ok v') :
    v.isPreactive = true ∧ v' = { v with nextEpochGasPrice := value, gasPrice := value } := by
  obtain ⟨hpre, h⟩ := check_bind_eq_ok.mp h
  obtain ⟨_, -, h⟩ := bind_eq_ok.mp h
  obtain ⟨_, -, h⟩ := bind_eq_ok.mp h
  cases h
  exact ⟨hpre, rfl⟩

lemma requestSetCommissionRate_eq_ok (h : v.requestSetCommissionRate value = .ok v') :
    v' = { v with nextEpochCommissionRate := value } := by
  obtain ⟨_, -, h⟩ := bind_eq_ok.mp h
  cases h
  rfl

lemma setCandidateCommissionRate_eq_ok (h : v.setCandidateCommissionRate value = .ok v') :
    v.isPreactive = true ∧ v' = { v with commissionRate := value } := by
  obtain ⟨hpre, h⟩ := check_bind_eq_ok.mp h
  obtain ⟨_, -, h⟩ := bind_eq_ok.mp h
  cases h
  exact ⟨hpre, rfl⟩

variable {amount epoch : ℕ} {s : StakedSui}

lemma requestAddStake_kept (h : v.requestAddStake amount epoch = .ok (v', s)) :
    v'.profile = v.profile ∧ v'.dossier = v.dossier := by
  obtain ⟨-, -, -, pool, hpool, rfl⟩ := requestAddStake_eq_ok h
  obtain ⟨-, rfl⟩ | ⟨-, rfl⟩ := processStakeIfPreactive_eq_ok hpool <;> exact ⟨rfl, rfl⟩

lemma requestAddStakeAtGenesis_profile (h : v.requestAddStakeAtGenesis amount epoch = .ok (v', s)) :
    v'.profile = v.profile := by
  obtain ⟨-, -, -, -, pool, hpool, rfl⟩ := requestAddStakeAtGenesis_eq_ok h
  obtain rfl := StakingPool.processPendingStake_eq_ok hpool
  rfl

lemma requestWithdrawStake_kept (h : v.requestWithdrawStake s epoch = .ok (v', amount)) :
    v'.profile = v.profile ∧ v'.dossier = v.dossier := by
  obtain ⟨pool, hpool, -, rfl⟩ := requestWithdrawStake_eq_ok h
  obtain ⟨rate, reward, -, -, -, hproc⟩ := StakingPool.requestWithdrawStake_eq_ok hpool
  obtain ⟨-, rfl⟩ | ⟨-, rfl⟩ := StakingPool.processWithdrawIfInactive_eq_ok hproc <;>
    exact ⟨rfl, rfl⟩

lemma processPendingStakesAndWithdraws_kept (h : v.processPendingStakesAndWithdraws epoch = .ok v') :
    v'.profile = v.profile ∧ v'.dossier = v.dossier := by
  obtain ⟨pool, hpool, -, rfl⟩ := processPendingStakesAndWithdraws_eq_ok h
  obtain rfl := StakingPool.processPendingStakesAndWithdraws_eq_ok hpool
  exact ⟨rfl, rfl⟩

lemma activate_kept (h : v.activate epoch = .ok v') :
    v'.profile = v.profile.activated ∧ v'.dossier = v.dossier.activated epoch := by
  obtain ⟨pool, hpool, h⟩ := bind_eq_ok.mp h
  obtain ⟨-, -, rfl⟩ := StakingPool.activateStakingPool_eq_ok hpool
  cases h
  exact ⟨rfl, rfl⟩

end Validator

section Lists

variable {α β : Type} {f : Validator → β} {update : Update α}
  {validators validators' : List Validator} {a : α} {address : SuiAddress}

lemma updateAt_eq_ok {index : ℕ} (h : updateAt validators index update = .ok (validators', a)) :
    ∃ v v', validators[index]? = some v ∧ update v = .ok (v', a) ∧
      validators' = validators.set index v' := by
  unfold updateAt at h
  split at h
  · cases h
  rename_i v hv
  obtain ⟨⟨v', b⟩, hupd, h⟩ := bind_eq_ok.mp h
  cases h
  exact ⟨v, v', hv, hupd, rfl⟩

variable {v : Validator}

lemma distinct_of_countDuplicates (h : countDuplicates validators v = 0) :
    ∀ w ∈ validators, w.metadata.identity.Distinct v.metadata.identity := by
  intro w hw
  have hnot := countP_eq_zero.mp h w hw
  exact ValidatorMetadata.distinct_of_isDuplicate (Bool.eq_false_of_not_eq_true hnot)

lemma getValidatorMut_eq_ok (h : getValidatorMut validators address update = .ok (validators', a)) :
    ∃ before v v' after, validators = before ++ v :: after ∧ v.suiAddress = address ∧
      update v = .ok (v', a) ∧
      validators' = before ++ v' :: after := by
  unfold getValidatorMut at h
  split at h
  · cases h
  rename_i index hfind
  obtain ⟨v, v', hv, hupd, rfl⟩ := updateAt_eq_ok h
  obtain ⟨hlt, hget⟩ := List.getElem?_eq_some_iff.mp hv
  have haddr : v.suiAddress = address := by
    obtain ⟨hlt', hfd, -⟩ := List.findIdx?_eq_some_iff_getElem.mp hfind
    rw [hget] at hfd
    exact of_decide_eq_true hfd
  refine ⟨validators.take index, v, v', validators.drop (index + 1), ?_, haddr, hupd, ?_⟩
  · rw [← hget, getElem_cons_drop, take_append_drop]
  · exact set_eq_take_append_cons_drop.trans (if_pos hlt)

lemma getValidatorMut_map (hf : ∀ v v' a, update v = .ok (v', a) → f v' = f v)
    (h : getValidatorMut validators address update = .ok (validators', a)) :
    validators'.map f = validators.map f := by
  obtain ⟨before, v, v', after, rfl, -, hupd, rfl⟩ := getValidatorMut_eq_ok h
  simp [hf v v' a hupd]

lemma plain_eq_ok {update : Validator → Except Abort Validator} {v' : Validator} {u : Unit}
    (h : plain update v = .ok (v', u)) :
    update v = .ok v' := by
  obtain ⟨w, hw, h⟩ := bind_eq_ok.mp h
  cases h
  exact hw

end Lists

variable {α β γ : Type} {f : α → β} {g : α → γ}

lemma map_eq_of_map_eq (hfg : ∀ a b, f b = f a → g b = g a) {as bs : List α}
    (h : bs.map f = as.map f) : bs.map g = as.map g := by
  rw [← forall₂_eq_eq_eq, forall₂_map_left_iff, forall₂_map_right_iff] at h ⊢
  exact h.imp fun b a => hfg a b

lemma option_map_eq_of_map_eq (hfg : ∀ a b, f b = f a → g b = g a) {a b : Option α}
    (h : b.map f = a.map f) : b.map g = a.map g := by
  cases a with
  | none => cases b <;> simp_all
  | some a =>
    cases b with
    | none => simp at h
    | some b => exact congrArg some (hfg a b (Option.some.inj h))

/-- The sets agree as far as `f` reads the validators. -/
structure Agree {β : Type} (f : Validator → β) (before after : ValidatorSet) : Prop where
  active : after.activeValidators.map f = before.activeValidators.map f
  pending : after.pendingActiveValidators.map f = before.pendingActiveValidators.map f
  candidates : ∀ address : SuiAddress, after.validatorCandidates[address]?.map f =
    before.validatorCandidates[address]?.map f
  inactive : ∀ id : ID, after.inactiveValidators[id]?.map f = before.inactiveValidators[id]?.map f
  mappings : after.stakingPoolMappings = before.stakingPoolMappings
  removals : after.pendingRemovals = before.pendingRemovals

lemma Agree.refl (f : Validator → β) (set : ValidatorSet) : Agree f set set :=
  ⟨rfl, rfl, fun _ => rfl, fun _ => rfl, rfl, rfl⟩

lemma Agree.of_eq {f : Validator → β} {g : Validator → γ} {before after : ValidatorSet}
    (h : Agree f before after) (hfg : ∀ v v', f v' = f v → g v' = g v) : Agree g before after where
  active := map_eq_of_map_eq hfg h.active
  pending := map_eq_of_map_eq hfg h.pending
  candidates := fun address => option_map_eq_of_map_eq hfg (h.candidates address)
  inactive := fun id => option_map_eq_of_map_eq hfg (h.inactive id)
  mappings := h.mappings
  removals := h.removals

variable {epoch : ℕ} {stakes : List StakedSui}

namespace ValidatorSet

variable {α β : Type} {f : Validator → β} {update : Update α} {self self' : ValidatorSet} {a : α}
  {address : SuiAddress}

lemma map_getElem?_insert {table : Std.TreeMap ℕ Validator} {key : ℕ} {v v' : Validator}
    (hv : table[key]? = some v) (hf : f v' = f v)
    (key' : ℕ) : (table.insert key v')[key']?.map f = table[key']?.map f := by
  rw [getElem?_insert_ite]
  split_ifs with heq
  · rw [← heq, hv, Option.map_some, Option.map_some, hf]
  · rfl

lemma getActiveMut_eq_ok (h : self.getActiveMut address update = .ok (self', a)) :
    ∃ validators, getValidatorMut self.activeValidators address update = .ok (validators, a) ∧
      self' = { self with activeValidators := validators } := by
  obtain ⟨⟨validators, b⟩, hvals, h⟩ := bind_eq_ok.mp h
  cases h
  exact ⟨validators, hvals, rfl⟩

lemma getPendingMut_eq_ok (h : self.getPendingMut address update = .ok (self', a)) :
    ∃ validators, getValidatorMut self.pendingActiveValidators address update = .ok (validators, a) ∧
      self' = { self with pendingActiveValidators := validators } := by
  obtain ⟨⟨validators, b⟩, hvals, h⟩ := bind_eq_ok.mp h
  cases h
  exact ⟨validators, hvals, rfl⟩

lemma getActiveOrPendingOrCandidateValidatorMut_cases {includeCandidate : Bool}
    (h : self.getActiveOrPendingOrCandidateValidatorMut address includeCandidate update =
      .ok (self', a)) :
    self.getActiveMut address update = .ok (self', a) ∨
      (findValidator self.pendingActiveValidators address).isSome = true ∧
        self.getPendingMut address update = .ok (self', a) ∨
      includeCandidate = true ∧ self.getCandidateMut address update = .ok (self', a) := by
  unfold getActiveOrPendingOrCandidateValidatorMut at h
  split_ifs at h with hact hpend
  · exact .inl h
  · exact .inr (.inl ⟨hpend, h⟩)
  · obtain ⟨hinclude, h⟩ := check_bind_eq_ok.mp h
    exact .inr (.inr ⟨hinclude, h⟩)

section

variable (hf : ∀ v v' a, update v = .ok (v', a) → f v' = f v)
include hf

lemma agree_getActiveMut (h : self.getActiveMut address update = .ok (self', a)) :
    Agree f self self' := by
  obtain ⟨validators, hvals, rfl⟩ := getActiveMut_eq_ok h
  exact ⟨getValidatorMut_map hf hvals, rfl, fun _ => rfl, fun _ => rfl, rfl, rfl⟩

lemma agree_getPendingMut (h : self.getPendingMut address update = .ok (self', a)) :
    Agree f self self' := by
  obtain ⟨validators, hvals, rfl⟩ := getPendingMut_eq_ok h
  exact ⟨rfl, getValidatorMut_map hf hvals, fun _ => rfl, fun _ => rfl, rfl, rfl⟩

lemma agree_getCandidateMut (h : self.getCandidateMut address update = .ok (self', a)) :
    Agree f self self' := by
  obtain ⟨v, v', hv, hupd, rfl⟩ := getCandidateMut_eq_ok h
  exact ⟨rfl, rfl, map_getElem?_insert hv (hf v v' a hupd), fun _ => rfl, rfl, rfl⟩

lemma agree_getCandidateOrActiveValidatorMut
    (h : self.getCandidateOrActiveValidatorMut address update = .ok (self', a)) :
    Agree f self self' := by
  unfold getCandidateOrActiveValidatorMut at h
  split_ifs at h
  · exact agree_getCandidateMut hf h
  · exact agree_getActiveMut hf h

lemma agree_getActiveOrPendingOrCandidateValidatorMut {includeCandidate : Bool}
    (h : self.getActiveOrPendingOrCandidateValidatorMut address includeCandidate update =
      .ok (self', a)) : Agree f self self' := by
  rcases getActiveOrPendingOrCandidateValidatorMut_cases h with h | ⟨-, h⟩ | ⟨-, h⟩
  · exact agree_getActiveMut hf h
  · exact agree_getPendingMut hf h
  · exact agree_getCandidateMut hf h

end

variable {s : StakedSui}

lemma agree_requestAddStake {stake : ℕ}
    (hf : ∀ v v' s, v.requestAddStake stake epoch = .ok (v', s) → f v' = f v)
    (h : self.requestAddStake address stake epoch = .ok (self', s)) : Agree f self self' := by
  obtain ⟨_, -, h⟩ := bind_eq_ok.mp h
  exact agree_getCandidateOrActiveValidatorMut hf h

lemma agree_requestWithdrawStake {amount : ℕ}
    (hf : ∀ v v' amount, v.requestWithdrawStake s epoch = .ok (v', amount) → f v' = f v)
    (h : self.requestWithdrawStake s epoch = .ok (self', amount)) : Agree f self self' := by
  unfold requestWithdrawStake at h
  cases hmapp : self.stakingPoolMappings[s.poolId]? with
  | some address =>
    rw [hmapp] at h
    exact agree_getCandidateOrActiveValidatorMut hf h
  | none =>
    rw [hmapp] at h
    unfold requestWithdrawStakeInactive at h
    dsimp only at h
    split at h
    · cases h
    rename_i v hv
    obtain ⟨⟨v', b⟩, hupd, h⟩ := bind_eq_ok.mp h
    cases h
    exact ⟨rfl, rfl, fun _ => rfl, map_getElem?_insert hv (hf v v' _ hupd), rfl, rfl⟩

end ValidatorSet

namespace SuiSystemState

variable {β : Type} {f : Validator → β} {self self' : SuiSystemState} {sender : SuiAddress}

lemma withValidators_eq_ok {result : Except Abort ValidatorSet}
    (h : self.withValidators result = .ok (self', stakes)) :
    ∃ validators, result = .ok validators ∧ self' = { self with validators } ∧ stakes = [] := by
  obtain ⟨validators, hvals, h⟩ := bind_eq_ok.mp h
  cases h
  exact ⟨validators, hvals, rfl, rfl⟩

variable {includeCandidate : Bool} {update : Validator → Except Abort Validator}

lemma updateSender_eq_ok
    (h : self.updateSender sender includeCandidate update = .ok (self', stakes)) :
    ∃ validators, self.validators.getActiveOrPendingOrCandidateValidatorMut sender includeCandidate
      (plain update) = .ok (validators, ()) ∧
      self' = { self with validators } ∧ stakes = [] := by
  obtain ⟨validators, hvals, rfl, rfl⟩ := withValidators_eq_ok h
  obtain ⟨⟨validators, _⟩, hupd, h⟩ := bind_eq_ok.mp hvals
  cases h
  exact ⟨validators, hupd, rfl, rfl⟩

lemma agree_updateSender
    (hf : ∀ v v', update v = .ok v' → f v' = f v)
    (h : self.updateSender sender includeCandidate update = .ok (self', stakes)) :
    ∃ validators, self' = { self with validators } ∧ stakes = [] ∧
      Agree f self.validators validators := by
  obtain ⟨validators, hvals, rfl, rfl⟩ := updateSender_eq_ok h
  exact ⟨validators, rfl, rfl,
    agree_getActiveOrPendingOrCandidateValidatorMut (fun v v' _ hv => hf v v' (plain_eq_ok hv)) hvals⟩

lemma agree_updateWithCap {cap : UnverifiedValidatorOperationCap} {which : WhichValidator}
    {update : Validator → SuiAddress → Except Abort Validator}
    (hf : ∀ v v' address, update v address = .ok v' → f v' = f v)
    (h : self.updateWithCap cap which includeCandidate update = .ok (self', stakes)) :
    ∃ validators, self' = { self with validators } ∧ stakes = [] ∧
      Agree f self.validators validators := by
  obtain ⟨address, -, h⟩ := bind_eq_ok.mp h
  exact agree_updateSender (fun v v' => hf v v' address) h

end SuiSystemState

variable {v v' : Validator}

lemma addValidatorReward_kept {reward epoch : ℕ}
    (h : addValidatorReward v reward epoch = .ok (v', stakes)) :
    v'.profile = v.profile ∧ v'.dossier = v.dossier := by
  unfold addValidatorReward at h
  split_ifs at h
  · obtain ⟨⟨w, s⟩, hstk, h⟩ := bind_eq_ok.mp h
    cases h
    exact requestAddStake_kept hstk
  · cases h
    exact ⟨rfl, rfl⟩

lemma map_profile_activate {validators activated : List Validator}
    (h : validators.mapM (fun v => v.activate epoch) = .ok activated) :
    activated.map profile = validators.map fun v => v.profile.activated :=
  map_eq_of_forall₂ (f := fun v : Validator => v.profile.activated) (g := profile)
    (fun _ _ hv => (activate_kept hv).1) (forall₂_of_mapM_eq_ok h)

namespace ValidatorSet

lemma Rewarded.profile {rewards : Rewards} {entry : Validator × ℕ} {result : Validator × List StakedSui}
    (h : Rewarded rewards epoch entry result) : result.1.profile = entry.1.profile := by
  obtain ⟨_, _, _, v, -, -, -, hrew, hres⟩ := h
  have hv : v.profile = entry.1.profile := (addValidatorReward_kept hrew).1
  rw [hres, ← hv]
  rfl

namespace Settled

variable {self : ValidatorSet} {rewards : Rewards} {results : List (Validator × List StakedSui)}
  {processed joining : List Validator}

section

variable (h : Settled self epoch rewards results processed joining)

include h

lemma processed_profile : processed.map profile = self.activeValidators.map profile := by
  rw [map_eq_of_forall₂ (f := profile) (g := profile) (fun v v' hv =>
    (processPendingStakesAndWithdraws_kept hv).1) (forall₂_of_mapM_eq_ok h.processed_eq),
    map_map]
  have hrewd := map_eq_of_forall₂ (f := profile ∘ Prod.fst)
    (g := profile ∘ fun result : Validator × List StakedSui => result.1.adjustStakeAndGasPrice)
    (fun entry result hent => hent.profile) h.rewarded
  rw [hrewd, ← map_map, zipIdx_map_fst]

lemma joining_profile :
    joining.map profile = self.pendingActiveValidators.reverse.map fun v => v.profile.activated :=
  map_profile_activate h.joining_eq

end

end Settled

namespace Advanced

variable {before after : WithRecords} {parts : EpochParts}

/-- The new active validators, up to their voting power and the staged metadata. -/
lemma active_forall₂ (h : Advanced before after epoch stakes parts) :
    List.Forall₂
      (fun v v' => ∃ votingPower metadata, v.metadata.effectuateStaged = .ok metadata ∧
        v' = { v with votingPower, metadata })
      parts.departed.1.activeValidators parts.active := by
  have hpow := VotingPower.setVotingPower_eq_ok h.powered_eq
  have hact := forall₂_of_mapM_eq_ok h.active_eq
  refine (forall₂_comp hpow hact).imp ?_
  rintro v v' ⟨w, ⟨power, rfl⟩, hv'⟩
  obtain ⟨metadata, hmeta, hv'⟩ := bind_eq_ok.mp hv'
  cases hv'
  exact ⟨power, metadata, hmeta, rfl⟩

end Advanced

end ValidatorSet

def Validator.stamp (v : Validator) : SuiAddress × ID × Bool × Bool :=
  (v.suiAddress, v.stakingPoolId, v.isPreactive, v.stakingPool.isInactive)

lemma stamp_eq_of_profile (h : v'.profile = v.profile) : v'.stamp = v.stamp :=
  congrArg (fun profile : Profile =>
    (profile.metadata.suiAddress, profile.poolId, profile.isPreactive, profile.isInactive)) h

lemma stamp_eq_of_pool (haddr : v'.suiAddress = v.suiAddress) (hpool : v'.stakingPool = v.stakingPool) :
    v'.stamp = v.stamp := by
  unfold stamp stakingPoolId isPreactive
  rw [haddr, hpool]

/-- What the accounts and the identity checks read of a validator. -/
def Validator.content (v : Validator) : Identity × StakingPool × ℕ :=
  (v.metadata.identity, v.stakingPool, v.nextEpochStake)

def Call.updatesCandidateIdentity : Call → Bool
  | .updateCandidateValidatorNetworkAddress _ => true
  | .updateCandidateValidatorP2pAddress _ => true
  | .updateCandidateValidatorProtocolPubkey _ _ => true
  | .updateCandidateValidatorWorkerPubkey _ => true
  | .updateCandidateValidatorNetworkPubkey _ => true
  | _ => false

def Call.isMove : Call → Bool
  | .requestAddValidatorCandidate _ _ _ => true
  | .requestRemoveValidatorCandidate => true
  | .requestAddValidator => true
  | .requestRemoveValidator => true
  | .advanceEpoch _ _ _ => true
  | .advanceEpochSafeMode => true
  | _ => false

def Call.isSetting : Call → Bool
  | .requestSetGasPrice _ _ => true
  | .setCandidateValidatorGasPrice _ _ => true
  | .requestSetCommissionRate _ => true
  | .setCandidateValidatorCommissionRate _ => true
  | _ => false

def WritesMetadata (update : Validator → Except Abort Validator) : Prop :=
  ∀ v v', update v = .ok v' → v'.suiAddress = v.suiAddress ∧ v'.stakingPool = v.stakingPool ∧
    v'.nextEpochStake = v.nextEpochStake

lemma writesMetadata_of_address {update : Validator → Except Abort Validator}
    (hupd : ∀ v v', update v = .ok v' →
      ∃ metadata, v' = { v with metadata } ∧
        metadata.suiAddress = v.metadata.suiAddress) : WritesMetadata update := by
  intro v v' hv
  obtain ⟨metadata, rfl, hkept⟩ := hupd v v' hv
  exact ⟨hkept, rfl, rfl⟩

section

variable (validateMetadata : ValidatorMetadata → Bool) (state : SuiSystemState)
  (sender : SuiAddress) (call : Call)

/-- The state after a call that succeeds, and the stakes it hands out. -/
inductive Effect : SuiSystemState → List StakedSui → Prop where
  | register {registration : Registration} {poolId operationCapId : ID} {v : Validator}
      {validators : ValidatorSet}
      (hcall : call = .requestAddValidatorCandidate registration poolId operationCapId)
      (hnew : Validator.new validateMetadata sender registration poolId operationCapId = .ok v)
      (h : state.validators.requestAddValidatorCandidate v = .ok validators) :
        Effect { state with validators } []
  | removeCandidate {validators : ValidatorSet}
      (h : state.validators.requestRemoveValidatorCandidate sender state.epoch = .ok validators) :
        Effect { state with validators } []
  | join {validators : ValidatorSet}
      (h : state.validators.requestAddValidator state.parameters.minValidatorJoiningStake sender =
        .ok validators) : Effect { state with validators } []
  | requestRemoval {validators : ValidatorSet}
      (h : state.validators.requestRemoveValidator sender = .ok validators) :
      Effect { state with validators } []
  | addStake {address : SuiAddress} {stake : ℕ} {s : StakedSui} {validators : ValidatorSet}
      (h : state.validators.requestAddStake address stake state.epoch = .ok (validators, s)) :
        Effect { state with validators } [s]
  | withdraw {s : StakedSui} {amount : ℕ} {validators : ValidatorSet}
      (hcall : call = .requestWithdrawStake s) (hactivated : s.stakeActivationEpoch ≤ state.epoch)
      (h : state.validators.requestWithdrawStake s state.epoch = .ok (validators, amount)) :
        Effect { state with validators } []
  | report {cap : UnverifiedValidatorOperationCap} {reporter reportee : SuiAddress}
      (hreportee : state.validators.isActiveValidatorBySuiAddress reportee = true)
      (hreporter : state.validators.verifyCap cap .activeOnly = .ok reporter) :
      Effect
        { state with
          validatorReportRecords :=
          SuiSystemState.addReport state.validatorReportRecords reporter reportee } []
  | undoReport {reporter reportee : SuiAddress} {validatorReportRecords : ReportRecords}
      (h : SuiSystemState.removeReport state.validatorReportRecords reporter reportee =
        .ok validatorReportRecords) :
      Effect { state with validatorReportRecords } []
  | settings {validators : ValidatorSet} (h : Agree Validator.content state.validators validators) :
      Effect { state with validators } []
  | stage {update : Validator → Except Abort Validator} {v : Validator} {validators : ValidatorSet}
      (hupdate : WritesMetadata update)
      (h : state.validators.getActiveOrPendingOrCandidateValidatorMut sender false
        (fun v => do let v ← update v; return (v, v)) =
        .ok (validators, v))
      (hcheck : validators.assertNoPendingOrActiveDuplicates v = .ok ()) :
        Effect { state with validators } []
  | updateCandidate {update : Validator → Except Abort Validator} {validators : ValidatorSet}
      (hcall : call.updatesCandidateIdentity = true)
      (hupdate : WritesMetadata update) (hpreactive : ∀ v v', update v = .ok v' → v.isPreactive = true)
      (h : state.validators.getActiveOrPendingOrCandidateValidatorMut sender true (plain update) =
        .ok (validators, ())) : Effect { state with validators } []
  | advance {computationReward storageFundReward rewardSlashingRate : ℕ} {validators : ValidatorSet}
      {records : ReportRecords} {stakes : List StakedSui} (hcall : call =
        .advanceEpoch computationReward storageFundReward rewardSlashingRate)
      (hrate : rewardSlashingRate ≤ basisPointDenominator)
      (h : state.validators.advanceEpoch computationReward storageFundReward
        state.validatorReportRecords rewardSlashingRate
        state.parameters.thresholds state.epoch = .ok ((validators, records), stakes)) :
      Effect
        { state with epoch := state.epoch + 1, validators, validatorReportRecords := records } stakes
  | safeMode (hcall : call = .advanceEpochSafeMode) : Effect { state with epoch := state.epoch + 1 } []

end

/-- A call has its effect, and keeps the dossiers unless it moves validators or sets something. -/
structure Outcome (validateMetadata : ValidatorMetadata → Bool) (state : SuiSystemState)
    (sender : SuiAddress) (call : Call)
    (state' : SuiSystemState) (stakes : List StakedSui) : Prop where
  effect : Effect validateMetadata state sender call state' stakes
  dossiers : call.isMove = false → call.isSetting = false →
    state'.epoch = state.epoch ∧ Agree Validator.dossier state.validators state'.validators

variable {validateMetadata : ValidatorMetadata → Bool} {state state' : SuiSystemState}
  {sender : SuiAddress} {call : Call}

namespace Outcome

lemma of_move (hmove : call.isMove = true)
    (h : Effect validateMetadata state sender call state' stakes) :
    Outcome validateMetadata state sender call state' stakes :=
  ⟨h, fun hstays => by rw [hmove] at hstays; cases hstays⟩

lemma of_setting (hsett : call.isSetting = true)
    (h : ∃ validators, state' = { state with validators } ∧ stakes = [] ∧
      Agree content state.validators validators) :
    Outcome validateMetadata state sender call state' stakes := by
  obtain ⟨validators, rfl, rfl, hagr⟩ := h
  exact ⟨.settings hagr, fun _ hsets => by rw [hsett] at hsets; cases hsets⟩

variable {update : Validator → Except Abort Validator}

lemma dossier_of_address {metadata : ValidatorMetadata}
    (h : metadata.suiAddress = v.metadata.suiAddress) : dossier { v with metadata } = v.dossier :=
  congrArg (fun address => { v.dossier with address }) h

lemma of_text {includeCandidate : Bool}
    (h : state.updateSender sender includeCandidate update = .ok (state', stakes))
    (hupd : ∀ v v', update v = .ok v' →
      ∃ metadata, v' = { v with metadata } ∧ metadata.identity = v.metadata.identity) :
    Outcome validateMetadata state sender call state' stakes := by
  obtain ⟨validators, rfl, rfl, hagr⟩ :=
    SuiSystemState.agree_updateSender (f := fun v => (v.content, v.dossier))
    (fun v v' hv => by
      obtain ⟨metadata, rfl, hid⟩ := hupd v v' hv
      exact Prod.ext (congrArg (fun identity => (identity, v.stakingPool, v.nextEpochStake)) hid)
        (dossier_of_address (congrArg Identity.suiAddress hid))) h
  exact ⟨.settings (hagr.of_eq fun _ _ => congrArg Prod.fst),
    fun _ _ => ⟨rfl, hagr.of_eq fun _ _ => congrArg Prod.snd⟩⟩

lemma of_stage (h : state.updateNextEpoch sender update = .ok (state', stakes))
    (hupd : ∀ v v', update v = .ok v' →
      ∃ metadata, v' = { v with metadata } ∧ metadata.suiAddress = v.metadata.suiAddress) :
    Outcome validateMetadata state sender call state' stakes := by
  obtain ⟨validators, hset', rfl, rfl⟩ := SuiSystemState.withValidators_eq_ok h
  obtain ⟨⟨validators, v⟩, hvals, h⟩ := bind_eq_ok.mp hset'
  -- the changed validator has passed the check for duplicates
  obtain ⟨_, hchk, h⟩ := bind_eq_ok.mp h
  cases h
  refine ⟨.stage (writesMetadata_of_address hupd) hvals hchk, fun _ _ => ⟨rfl, ?_⟩⟩
  refine agree_getActiveOrPendingOrCandidateValidatorMut (fun v v' _ hv => ?_) hvals
  obtain ⟨u, hu, hv⟩ := bind_eq_ok.mp hv
  cases hv
  obtain ⟨metadata, rfl, hkept⟩ := hupd v v' hu
  exact dossier_of_address hkept

/-- The updates of a candidate check first that the validator is one. -/
lemma of_candidate {write : Validator → Except Abort Validator}
    (hcall : call.updatesCandidateIdentity = true) (h : state.updateSender sender true
      (fun v => do check v.isPreactive .notValidatorCandidate; write v) =
      .ok (state', stakes))
    (hwrite : ∀ v v', write v = .ok v' →
      ∃ metadata, v' = { v with metadata } ∧ metadata.suiAddress = v.metadata.suiAddress) :
    Outcome validateMetadata state sender call state' stakes := by
  obtain ⟨validators, hvals, rfl, rfl⟩ := SuiSystemState.updateSender_eq_ok h
  have hupd : ∀ v v' : Validator,
      (do check v.isPreactive .notValidatorCandidate; write v) = .ok v' → _ :=
    fun v v' hv => hwrite v v' (check_bind_eq_ok.mp hv).2
  refine ⟨.updateCandidate hcall (writesMetadata_of_address hupd)
    (fun v v' hv => (check_bind_eq_ok.mp hv).1) hvals,
    fun _ _ => ⟨rfl, ?_⟩⟩
  refine agree_getActiveOrPendingOrCandidateValidatorMut (fun v v' _ hv => ?_) hvals
  obtain ⟨metadata, rfl, hkept⟩ := hupd v v' (plain_eq_ok hv)
  exact dossier_of_address hkept

end Outcome

namespace SuiSystemState

lemma reportValidator_outcome {cap : UnverifiedValidatorOperationCap} {reportee : SuiAddress}
    (h : state.reportValidator cap reportee = .ok (state', stakes)) :
    Outcome validateMetadata state sender call state' stakes := by
  obtain ⟨hrepe, h⟩ := check_bind_eq_ok.mp h
  obtain ⟨reporter, hrepr, h⟩ := bind_eq_ok.mp h
  obtain ⟨_, -, h⟩ := bind_eq_ok.mp h
  cases h
  exact ⟨.report hrepe hrepr, fun _ _ => ⟨rfl, .refl _ _⟩⟩

lemma requestWithdrawStake_outcome {s : StakedSui} (hcall : call = .requestWithdrawStake s)
    (h : state.requestWithdrawStake s = .ok (state', stakes)) :
    Outcome validateMetadata state sender call state' stakes := by
  obtain ⟨hactd, h⟩ := check_bind_eq_ok.mp h
  obtain ⟨⟨validators, amount⟩, hvals, h⟩ := bind_eq_ok.mp h
  rw [decide_eq_true_eq] at hactd
  cases h
  exact ⟨.withdraw hcall hactd hvals,
    fun _ _ => ⟨rfl, agree_requestWithdrawStake
      (fun _ _ _ hv => (requestWithdrawStake_kept hv).2) hvals⟩⟩

lemma advanceEpoch_outcome {computationReward storageFundReward rewardSlashingRate : ℕ}
    (hcall : call = .advanceEpoch computationReward storageFundReward rewardSlashingRate)
    (h : state.advanceEpoch computationReward storageFundReward rewardSlashingRate =
      .ok (state', stakes)) :
    Outcome validateMetadata state sender call state' stakes := by
  obtain ⟨hrate, h⟩ := check_bind_eq_ok.mp h
  obtain ⟨⟨⟨validators, records⟩, rewards⟩, hvals, h⟩ := bind_eq_ok.mp h
  rw [decide_eq_true_eq] at hrate
  cases h
  subst hcall
  exact .of_move rfl (.advance rfl hrate hvals)

lemma execute_outcome (h : state.execute validateMetadata sender call = .ok (state', stakes)) :
    Outcome validateMetadata state sender call state' stakes := by
  cases call with
  | requestAddValidatorCandidate registration poolId operationCapId =>
    obtain ⟨v, hnew, h⟩ := bind_eq_ok.mp h
    obtain ⟨validators, hvals, rfl, rfl⟩ := withValidators_eq_ok h
    exact .of_move rfl (.register rfl hnew hvals)
  | requestRemoveValidatorCandidate =>
    obtain ⟨validators, hvals, rfl, rfl⟩ := withValidators_eq_ok h
    exact .of_move rfl (.removeCandidate hvals)
  | requestAddValidator =>
    obtain ⟨_, -, h⟩ := bind_eq_ok.mp h
    obtain ⟨_, -, h⟩ := bind_eq_ok.mp h
    obtain ⟨validators, hvals, rfl, rfl⟩ := withValidators_eq_ok h
    exact .of_move rfl (.join hvals)
  | requestRemoveValidator =>
    obtain ⟨_, -, h⟩ := bind_eq_ok.mp h
    obtain ⟨validators, hvals, rfl, rfl⟩ := withValidators_eq_ok h
    exact .of_move rfl (.requestRemoval hvals)
  | requestSetGasPrice cap newGasPrice =>
    refine .of_setting rfl (agree_updateWithCap (fun v v' _ hv => ?_) h)
    obtain rfl := requestSetGasPrice_eq_ok hv
    rfl
  | setCandidateValidatorGasPrice cap newGasPrice =>
    refine .of_setting rfl (agree_updateWithCap (fun v v' _ hv => ?_) h)
    obtain ⟨-, rfl⟩ := setCandidateGasPrice_eq_ok hv
    rfl
  | requestSetCommissionRate newCommissionRate =>
    obtain ⟨⟨validators, _⟩, hvals, h⟩ := bind_eq_ok.mp h
    cases h
    refine .of_setting rfl ⟨validators, rfl, rfl, agree_getActiveMut (fun v v' _ hv => ?_) hvals⟩
    obtain rfl := requestSetCommissionRate_eq_ok (plain_eq_ok hv)
    rfl
  | setCandidateValidatorCommissionRate newCommissionRate =>
    refine .of_setting rfl (agree_updateSender (fun v v' hv => ?_) h)
    obtain ⟨-, rfl⟩ := setCandidateCommissionRate_eq_ok hv
    rfl
  | requestAddStake stake validatorAddress =>
    obtain ⟨⟨validators, s⟩, hvals, h⟩ := bind_eq_ok.mp h
    cases h
    exact ⟨.addStake hvals,
      fun _ _ => ⟨rfl, agree_requestAddStake (fun _ _ _ hv => (requestAddStake_kept hv).2) hvals⟩⟩
  | requestWithdrawStake stakedSui => exact requestWithdrawStake_outcome rfl h
  | reportValidator cap reporteeAddr => exact reportValidator_outcome h
  | undoReportValidator cap reporteeAddr =>
    obtain ⟨reporter, -, h⟩ := bind_eq_ok.mp h
    obtain ⟨records, hrecs, h⟩ := bind_eq_ok.mp h
    cases h
    exact ⟨.undoReport hrecs, fun _ _ => ⟨rfl, .refl _ _⟩⟩
  | rotateOperationCap newId =>
    obtain ⟨validators, rfl, rfl, hagr⟩ :=
      agree_updateSender (f := fun v => (v.content, v.dossier)) (fun v v' hv => by
      obtain ⟨_, -, hv⟩ := bind_eq_ok.mp hv
      cases hv
      rfl) h
    exact ⟨.settings (hagr.of_eq fun _ _ => congrArg Prod.fst), fun _ _ =>
      ⟨rfl, hagr.of_eq fun _ _ => congrArg Prod.snd⟩⟩
  | updateValidatorName | updateValidatorDescription | updateValidatorImageUrl
  | updateValidatorProjectUrl => exact .of_text h fun _ _ hv => metadataText_eq_ok hv fun _ => rfl
  | updateValidatorNextEpochNetworkAddress | updateValidatorNextEpochP2pAddress =>
    exact .of_stage h fun _ _ hv => metadataText_valid_eq_ok hv fun _ => rfl
  | updateCandidateValidatorNetworkAddress | updateCandidateValidatorP2pAddress =>
    exact .of_candidate rfl h fun _ _ hv => metadataText_valid_eq_ok hv fun _ => rfl
  | updateValidatorNextEpochPrimaryAddress | updateValidatorNextEpochWorkerAddress =>
    exact .of_text h fun _ _ hv => metadataText_valid_eq_ok hv fun _ => rfl
  | updateCandidateValidatorPrimaryAddress | updateCandidateValidatorWorkerAddress =>
    exact .of_text h fun _ _ hv => metadataText_valid_eq_ok (check_bind_eq_ok.mp hv).2 fun _ => rfl
  | updateValidatorNextEpochProtocolPubkey | updateValidatorNextEpochWorkerPubkey
  | updateValidatorNextEpochNetworkPubkey =>
    exact .of_stage h fun _ _ hv => setValidMetadata_eq_ok hv rfl
  | updateCandidateValidatorProtocolPubkey | updateCandidateValidatorWorkerPubkey
  | updateCandidateValidatorNetworkPubkey =>
    exact .of_candidate rfl h fun _ _ hv => setValidMetadata_eq_ok hv rfl
  | advanceEpoch computationReward storageFundReward rewardSlashingRate =>
      exact advanceEpoch_outcome rfl h
  | advanceEpochSafeMode =>
    cases h
    exact .of_move rfl (.safeMode rfl)

end SuiSystemState

/-- The changes of a validator set, as far as the stamps tell. -/
inductive Move (set : ValidatorSet) : ValidatorSet → Prop where
  | inPlace {set' : ValidatorSet} (h : Agree Validator.stamp set set') : Move set set'
  | register {set' : ValidatorSet} {v : Validator} {id : ID} (hpool : v.stakingPool = .new id)
      (hfresh : id ∉ set.inactiveValidators)
      (h : set.requestAddValidatorCandidate v = .ok set') : Move set set'
  | removeCandidate {set' : ValidatorSet} {address : SuiAddress} {epoch : ℕ}
      (h : set.requestRemoveValidatorCandidate address epoch = .ok set') :
      Move set set'
  | join {set' : ValidatorSet} {address : SuiAddress} {minJoiningStakeAmount : ℕ}
      (h : set.requestAddValidator minJoiningStakeAmount address = .ok set') : Move set set'
  | requestRemoval {set' : ValidatorSet} {address : SuiAddress}
      (h : set.requestRemoveValidator address = .ok set') : Move set set'
  | advance {records : ReportRecords} {after : ValidatorSet.WithRecords} {epoch : ℕ}
      {stakes : List StakedSui} {parts : ValidatorSet.EpochParts}
      (h : ValidatorSet.Advanced (set, records) after epoch stakes parts) : Move set after.1

section Moves

variable {set set' : ValidatorSet} {s : StakedSui}

lemma stamp_addStake {address : SuiAddress} {stake : ℕ}
    (h : set.requestAddStake address stake epoch = .ok (set', s)) :
    Agree stamp set set' :=
  agree_requestAddStake (fun _ _ _ hv => stamp_eq_of_profile (requestAddStake_kept hv).1) h

lemma stamp_withdraw {amount : ℕ} (h : set.requestWithdrawStake s epoch = .ok (set', amount)) :
    Agree stamp set set' :=
  agree_requestWithdrawStake (fun _ _ _ hv => stamp_eq_of_profile (requestWithdrawStake_kept hv).1) h

lemma stamp_settings (h : Agree content set set') : Agree stamp set set' :=
  h.of_eq fun _ _ hv =>
    stamp_eq_of_pool
      (congrArg (fun content : Identity × StakingPool × ℕ => content.1.suiAddress) hv)
    (congrArg (fun content : Identity × StakingPool × ℕ => content.2.1) hv)

variable {update : Validator → Except Abort Validator} {sender : SuiAddress}

lemma stamp_stage (hupd : WritesMetadata update)
    (h : set.getActiveOrPendingOrCandidateValidatorMut sender false
      (fun v => do let v ← update v; return (v, v)) = .ok (set', v)) :
    Agree stamp set set' := by
  refine agree_getActiveOrPendingOrCandidateValidatorMut (fun v v' w hv => ?_) h
  obtain ⟨u, hu, hv⟩ := bind_eq_ok.mp hv
  cases hv
  exact stamp_eq_of_pool (hupd v v' hu).1 (hupd v v' hu).2.1

lemma stamp_updateCandidate (hupd : WritesMetadata update)
    (h : set.getActiveOrPendingOrCandidateValidatorMut sender true (plain update) =
      .ok (set', ())) : Agree stamp set set' := by
  refine agree_getActiveOrPendingOrCandidateValidatorMut (fun v v' _ hv => ?_) h
  have hwr := hupd v v' (plain_eq_ok hv)
  exact stamp_eq_of_pool hwr.1 hwr.2.1

lemma Effect.move (hfr : call.Fresh state)
    (h : Effect validateMetadata state sender call state' stakes) :
    Move state.validators state'.validators := by
  cases h with
  | register hcall hnew hset =>
    subst hcall
    obtain ⟨metadata, -, rfl⟩ := new_eq_ok hnew
    exact .register rfl (hfr _ rfl).2 hset
  | removeCandidate hset => exact .removeCandidate hset
  | join hset => exact .join hset
  | requestRemoval hset => exact .requestRemoval hset
  | addStake hset => exact .inPlace (stamp_addStake hset)
  | withdraw _ _ hset => exact .inPlace (stamp_withdraw hset)
  | report | undoReport | safeMode => exact .inPlace (.refl _ _)
  | settings hagr => exact .inPlace (stamp_settings hagr)
  | stage hupd hset _ => exact .inPlace (stamp_stage hupd hset)
  | updateCandidate _ hupd _ hset => exact .inPlace (stamp_updateCandidate hupd hset)
  | advance _ _ hset =>
    obtain ⟨parts, -, hadv⟩ := advanceEpoch_eq_ok hset
    exact .advance hadv

end Moves

namespace SuiSystemState

variable {validateMetadata : ValidatorMetadata → Bool} {state : SuiSystemState}
  {allocations : List (SuiAddress × ℕ)}

lemma create_eq_ok {genesisValidators : List GenesisValidator} {parameters : SystemParameters}
    (h : create validateMetadata genesisValidators allocations parameters = .ok (state, stakes)) :
    ∃ registered allocated activated mappings active,
      genesisValidators.foldlM (addGenesisValidator validateMetadata) [] = .ok registered ∧
      allocateTokens registered allocations = .ok (allocated, stakes) ∧
        allocated.mapM (fun v => v.activate 0) = .ok activated ∧
      activated.foldlM (fun table v => tableAdd table v.stakingPoolId v.suiAddress) ∅ = .ok mappings ∧
      VotingPower.setVotingPower activated = .ok active ∧
      state = ⟨0, ⟨calculateTotalStakes activated, active, [], [], mappings, ∅, ∅, ∅⟩,
        parameters, []⟩ := by
  obtain ⟨registered, hregd, h⟩ := bind_eq_ok.mp h
  obtain ⟨⟨allocated, stakes⟩, halloc, h⟩ := bind_eq_ok.mp h
  obtain ⟨activated, hactd, h⟩ := bind_eq_ok.mp h
  obtain ⟨set, hset, h⟩ := bind_eq_ok.mp h
  obtain ⟨mappings, hmapps, hset⟩ := bind_eq_ok.mp hset
  obtain ⟨active, hact, hset⟩ := bind_eq_ok.mp hset
  cases hset
  cases h
  exact ⟨registered, allocated, activated, mappings, active, hregd, halloc, hactd, hmapps, hact, rfl⟩

lemma allocateTokens_map {f : Validator → β} {validators allocated : List Validator}
    (hf : ∀ v v' amount s, v.requestAddStakeAtGenesis amount 0 = .ok (v', s) → f v' = f v)
    (h : allocateTokens validators allocations = .ok (allocated, stakes)) :
    allocated.map f = validators.map f := by
  refine foldlM_ok_induction (fun acc : List Validator × List StakedSui =>
    acc.1.map f = validators.map f) ?_ rfl h
  rintro acc allocation acc' - hacc hstep
  obtain ⟨⟨validators', s⟩, hvals, hstep⟩ := bind_eq_ok.mp hstep
  cases hstep
  exact (getValidatorMut_map (fun v v' s hv => hf v v' _ s hv) hvals).trans hacc

end SuiSystemState

end SuiProofs.SuiSystem

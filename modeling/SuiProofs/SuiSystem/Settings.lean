import SuiProofs.SuiSystem.StakeBooks

namespace SuiProofs.SuiSystem

open Library List Option Validator SuiSystemState Std

namespace Validator

variable {validateMetadata : ValidatorMetadata → Bool} {v v' : Validator}

lemma activation_of_preactive (h : v.isPreactive = true) : v.dossier.activation = none :=
  isNone_iff_eq_none.mp h

lemma activation_of_not_preactive (h : v.isPreactive = false) : ∃ a, v.dossier.activation = some a := by
  cases hst : v.stakingPool.activationEpoch with
  | none => simp [isPreactive, StakingPool.isPreactive, hst] at h
  | some a => exact ⟨a, hst⟩

end Validator

namespace ValidatorSet.Settled

variable {set : ValidatorSet} {epoch : ℕ} {rewards : Rewards}
  {results : List (Validator × List StakedSui)} {processed joining : List Validator} {v : Validator}

lemma exists_processed (h : Settled set epoch rewards results processed joining) (hv : v ∈ processed) :
    ∃ w ∈ set.activeValidators, v.dossier = w.dossier.adjusted := by
  obtain ⟨u, hu, hproc⟩ := exists_of_forall₂_right (forall₂_of_mapM_eq_ok h.processed_eq) hv
  obtain ⟨result, hres, rfl⟩ := mem_map.mp hu
  obtain ⟨entry, hent, staking, storageFund, commission, w, -, -, -, hrew, hdeposit⟩ :=
    exists_of_forall₂_right h.rewarded hres
  have hmem : entry.1 ∈ set.activeValidators := by
    rw [← zipIdx_map_fst 0 set.activeValidators]
    exact mem_map_of_mem hent
  refine ⟨entry.1, hmem, ?_⟩
  rw [(processPendingStakesAndWithdraws_kept hproc).2, hdeposit, ← (addValidatorReward_kept hrew).2]
  rfl

end ValidatorSet.Settled

/-- All that was asked for a validator since its registration, the latest first. -/
structure SettingsLog where
  address : SuiAddress
  poolId : ID
  registered : Registration
  commission : List (SlotWrite ℕ)
  gasPrice : List (SlotWrite ℕ)

namespace SettingsLog

def setCommission (log : SettingsLog) (address : SuiAddress) (write : SlotWrite ℕ) : SettingsLog :=
  if address = log.address then { log with commission := write :: log.commission } else log

def setGasPrice (log : SettingsLog) (address : SuiAddress) (write : SlotWrite ℕ) : SettingsLog :=
  if address = log.address then { log with gasPrice := write :: log.gasPrice } else log

def record (log : SettingsLog) (epoch : ℕ) (sender : SuiAddress) : Call → SettingsLog
  | .requestSetGasPrice cap newGasPrice =>
      log.setGasPrice cap.authorizerValidatorAddress ⟨epoch, false, newGasPrice⟩
  | .setCandidateValidatorGasPrice cap newGasPrice =>
      log.setGasPrice cap.authorizerValidatorAddress ⟨epoch, true, newGasPrice⟩
  | .requestSetCommissionRate newCommissionRate =>
      log.setCommission sender ⟨epoch, false, newCommissionRate⟩
  | .setCandidateValidatorCommissionRate newCommissionRate =>
      log.setCommission sender ⟨epoch, true, newCommissionRate⟩
  | _ => log

lemma record_of_not_setting {log : SettingsLog} {epoch : ℕ} {sender : SuiAddress} {call : Call}
    (h : call.isSetting = false) :
    log.record epoch sender call = log := by
  cases call with
  | requestSetGasPrice | setCandidateValidatorGasPrice | requestSetCommissionRate
  | setCandidateValidatorCommissionRate => cases h
  | _ => rfl

end SettingsLog

section

variable (validateMetadata : ValidatorMetadata → Bool)

/-- The states after the registration of a candidate in a run, without safe mode since, with the log
of that candidate. -/
inductive SettingsHistory : SuiSystemState → Multiset StakedSui → SettingsLog → Prop where
  | register {state state' : SuiSystemState} {sender : SuiAddress} {registration : Registration}
      {poolId operationCapId : ID} {outstanding : Multiset StakedSui} {stakes : List StakedSui}
      (hrun : SystemRun validateMetadata (fun _ _ _ _ => True) state outstanding)
      (hfresh : (Call.requestAddValidatorCandidate registration poolId operationCapId).Fresh state)
      (h : state.execute validateMetadata sender
        (.requestAddValidatorCandidate registration poolId operationCapId) = .ok (state', stakes)) :
      SettingsHistory state' (↑stakes + outstanding) ⟨sender, poolId, registration, [], []⟩
  | call {state state' : SuiSystemState} {sender : SuiAddress} {call : Call}
      {outstanding rest : Multiset StakedSui}
      {stakes : List StakedSui} {log : SettingsLog} (hhistory : SettingsHistory state outstanding log)
      (hfresh : call.Fresh state) (htakes : call.Takes outstanding rest)
      (h : state.execute validateMetadata sender call = .ok (state', stakes))
      (hregular : call.isRegular = true) : SettingsHistory state' (↑stakes + rest)
      (log.record state.epoch sender call)
  | split {state : SuiSystemState} {s kept part : StakedSui} {rest : Multiset StakedSui}
      {amount : ℕ} {log : SettingsLog}
      (hhistory : SettingsHistory state (s ::ₘ rest) log) (h : s.split amount = .ok (kept, part)) :
      SettingsHistory state (kept ::ₘ part ::ₘ rest) log
  | join {state : SuiSystemState} {s other joined : StakedSui} {rest : Multiset StakedSui}
      {log : SettingsLog} (hhistory : SettingsHistory state (s ::ₘ other ::ₘ rest) log)
      (h : s.joinStakedSui other = .ok joined) :
      SettingsHistory state (joined ::ₘ rest) log

end

lemma SettingsHistory.run {validateMetadata : ValidatorMetadata → Bool} {state : SuiSystemState}
    {outstanding : Multiset StakedSui}
    {log : SettingsLog} (h : SettingsHistory validateMetadata state outstanding log) :
    SystemRun validateMetadata (fun _ _ _ _ => True) state outstanding := by
  induction h with
  | register hrun hfr h => exact .call hrun hfr rfl h trivial
  | call _ hfr htakes h _ ih => exact .call ih hfr htakes h trivial
  | split _ h ih => exact .split ih h
  | join _ h ih => exact .join ih h

/-- The settings of a dossier are those of the log. Commission rates are staged only once the
validator is active. -/
structure Follows (epoch : ℕ) (d : Dossier) (log : SettingsLog) : Prop where
  address : d.address = log.address
  commission : Tracks false log.registered.commissionRate epoch d.activation d.commission log.commission
  gasPrice : Tracks true log.registered.gasPrice epoch d.activation d.gasPrice log.gasPrice
  staged : ∀ w ∈ log.commission, w.direct = false → ∃ a ∈ d.activation, a ≤ w.time

/-- The validator of the log, wherever it is, follows it until it leaves. -/
structure Tracked (epoch : ℕ) (set : ValidatorSet) (log : SettingsLog) : Prop where
  follows : ∀ v, set.Holds v → v.stakingPool.isInactive = false → v.stakingPoolId = log.poolId →
    Follows epoch v.dossier log
  known : set.roster.Knows log.poolId

variable {epoch : ℕ} {set set' : ValidatorSet} {log log' : SettingsLog} {address : SuiAddress}
  {v : Validator} {value : ℕ}

namespace Follows

variable {d : Dossier} {a : ℕ}

section

variable (h : Follows epoch d log)

include h

lemma adjusted (hst : d.activation = some a) : Follows (epoch + 1) d.adjusted log := by
  obtain ⟨address, poolId, isInactive, activation, commission, gasPrice⟩ := d
  cases hst
  exact ⟨h.address, h.commission.commit, h.gasPrice.commit, h.staged⟩

lemma activated (hst : d.activation = none) : Follows (epoch + 1) (d.activated (epoch + 1)) log := by
  obtain ⟨address, poolId, isInactive, activation, commission, gasPrice⟩ := d
  cases hst
  refine ⟨h.address, h.commission.begin, h.gasPrice.begin, fun w hw hdir => ?_⟩
  obtain ⟨a, ha, -⟩ := h.staged w hw hdir
  cases ha

lemma wait (hst : d.activation = none) : Follows (epoch + 1) d log := by
  obtain ⟨address, poolId, isInactive, activation, commission, gasPrice⟩ := d
  cases hst
  exact ⟨h.address, h.commission.wait, h.gasPrice.wait, h.staged⟩

lemma stageCommission (hst : d.activation = some a) :
    Follows epoch { d with commission := d.commission.stage value }
      { log with commission := ⟨epoch, false, value⟩ :: log.commission } where
  address := h.address
  commission := h.commission.stage
  gasPrice := h.gasPrice
  staged := forall_mem_cons.mpr ⟨fun _ => ⟨a, hst, (h.commission.started a hst).1⟩, h.staged⟩

lemma writeCommission (hst : d.activation = none) :
    Follows epoch { d with commission := d.commission.write false value }
      { log with commission := ⟨epoch, true, value⟩ :: log.commission } where
  address := h.address
  commission := by
    rw [hst]
    exact (hst ▸ h.commission).write
  gasPrice := h.gasPrice
  staged := forall_mem_cons.mpr ⟨fun hdir => (by cases hdir), h.staged⟩

lemma stageGasPrice :
    Follows epoch { d with gasPrice := d.gasPrice.stage value }
      { log with gasPrice := ⟨epoch, false, value⟩ :: log.gasPrice } where
  address := h.address
  commission := h.commission
  gasPrice := h.gasPrice.stage
  staged := h.staged

lemma writeGasPrice (hst : d.activation = none) :
    Follows epoch { d with gasPrice := d.gasPrice.write true value }
      { log with gasPrice := ⟨epoch, true, value⟩ :: log.gasPrice } where
  address := h.address
  commission := h.commission
  gasPrice := by
    rw [hst]
    exact (hst ▸ h.gasPrice).write
  staged := h.staged

end

end Follows

namespace ValidatorSet

variable {v w : Validator}

section

variable (hpart : set.roster.Partition)
include hpart

lemma entry_of_holds (hsgs : set.Stages) (hv : set.Holds v) (hina : v.stakingPool.isInactive = false) :
    v.entry ∈ set.roster.joined ∨ set.roster.candidates v.suiAddress = some v.entry := by
  cases hv with
  | active hv =>
    rw [joined_roster]
    exact .inl (mem_map_of_mem (mem_append_left _ hv))
  | pending hv =>
    rw [joined_roster]
    exact .inl (mem_map_of_mem (mem_append_right _ hv))
  | candidate address hv =>
    have hcand : set.roster.candidates address = some v.entry := by simp [roster, hv]
    have haddr : v.suiAddress = address := (hpart.candidates address v.entry hcand).1
    exact .inr (haddr ▸ hcand)
  | inactive id hv =>
    rw [hsgs.inactive id v hv] at hina
    cases hina

lemma id_eq_of_address (hsgs : set.Stages) (hv : set.Holds v) (hw : set.Holds w)
    (hvinact : v.stakingPool.isInactive = false) (hwinact : w.stakingPool.isInactive = false)
    (haddr : v.suiAddress = w.suiAddress) :
    v.stakingPoolId = w.stakingPoolId := by
  have hboth : ∀ {u : Validator}, u.entry ∈ set.roster.joined →
    u.suiAddress ∈ set.roster.joined.map Prod.fst := mem_map_of_mem
  rcases entry_of_holds hpart hsgs hv hvinact with hv' | hv' <;>
    rcases entry_of_holds hpart hsgs hw hwinact with hw' | hw'
  · exact congrArg Prod.snd (inj_on_of_nodup_map hpart.addresses hv' hw' haddr)
  · exact absurd (haddr ▸ hboth hv') (hpart.candidates _ _ hw').2
  · exact absurd (haddr ▸ hboth hw') (hpart.candidates _ _ hv').2
  · rw [haddr, hw'] at hv'
    exact (congrArg Prod.snd (some.inj hv')).symm

variable {α : Type} {a : α} {update : Update α}

lemma replaces_getActiveMut
    (h : set.getActiveMut address update = .ok (set', a)) :
    ∃ v v', Replaces set set' v v' ∧ update v = .ok (v', a) ∧ v.suiAddress = address ∧
      v ∈ set.activeValidators := by
  obtain ⟨validators, hvals, rfl⟩ := getActiveMut_eq_ok h
  obtain ⟨before, v, v', after, hact, haddr, hv', rfl⟩ := getValidatorMut_eq_ok hvals
  exact ⟨v, v', replaces_active hpart hact, hv', haddr, by simp [hact]⟩

lemma replaces_getActiveOrPendingOrCandidateValidatorMut {includeCandidate : Bool}
    (hsgs : set.Stages)
    (h : set.getActiveOrPendingOrCandidateValidatorMut address includeCandidate update = .ok (set', a)) :
    ∃ v v', Replaces set set' v v' ∧ update v = .ok (v', a) ∧ v.suiAddress = address ∧
      v.stakingPool.isInactive = false := by
  rcases getActiveOrPendingOrCandidateValidatorMut_cases h with h | ⟨-, h⟩ | ⟨-, h⟩
  · obtain ⟨v, v', hrepl, hv', haddr, hact⟩ := replaces_getActiveMut hpart h
    exact ⟨v, v', hrepl, hv', haddr, (hsgs.active v hact).2⟩
  · obtain ⟨validators, hvals, rfl⟩ := getPendingMut_eq_ok h
    obtain ⟨before, v, v', after, hpend, haddr, hv', rfl⟩ := getValidatorMut_eq_ok hvals
    exact ⟨v, v', replaces_joined (set.activeValidators ++ before) after hpart (by simp [hpend])
      (by simp), hv', haddr, (hsgs.pending v (by simp [hpend])).2⟩
  · obtain ⟨v, v', hv, hv', rfl⟩ := getCandidateMut_eq_ok h
    have haddr := (hpart.candidates address v.entry (by simp [roster, hv])).1
    exact ⟨v, v', replaces_candidate hpart hv, hv', haddr, (hsgs.candidates address v hv).2⟩

end

end ValidatorSet

namespace Tracked

open ValidatorSet

section

variable (h : Tracked epoch set log)
include h

lemma agree (hagr : Agree dossier set set') : Tracked epoch set' log := by
  refine ⟨fun v hv hina hid => ?_, ?_⟩
  · obtain ⟨w, hw, heq⟩ := hv.of_agree hagr
    rw [← heq]
    exact h.follows w hw ((congrArg Dossier.isInactive heq).trans hina)
      ((congrArg Dossier.poolId heq).trans hid)
  · rw [roster_eq_of_agree (hagr.of_eq fun _ _ =>
      congrArg fun d : Dossier => (d.address, d.poolId, d.activation.isNone, d.isInactive))]
    exact h.known

/-- A call sets something for one validator, and the log records it if it is its own. -/
lemma replace {v' : Validator} (hpart : set.roster.Partition) (hsgs : set.Stages)
    (hrepl : Replaces set set' v v') (hroster : set'.roster = set.roster)
    (hina : v.stakingPool.isInactive = false)
    (hid : v'.stakingPoolId = v.stakingPoolId) (hpool : log'.poolId = log.poolId)
    (hown : v.suiAddress = log.address → Follows epoch v.dossier log → Follows epoch v'.dossier log')
    (hoth : v.suiAddress ≠ log.address → log' = log) : Tracked epoch set' log' := by
  refine ⟨fun w hw hwinact hwid => ?_, ?_⟩
  · rw [hpool] at hwid
    rcases hrepl.others w hw with rfl | ⟨hheld, hne⟩
    · have hfol := h.follows v hrepl.held hina (hid.symm.trans hwid)
      exact hown hfol.address hfol
    · have hfol := h.follows w hheld hwinact hwid
      have haddr : v.suiAddress ≠ log.address := fun heq =>
        hne (id_eq_of_address hpart hsgs hheld hrepl.held hwinact hina (hfol.address.trans heq.symm))
      rw [hoth haddr]
      exact hfol
  · rw [hroster, hpool]
    exact h.known

lemma register {id : ID} (hpool : v.stakingPool = .new id)
    (hfr : id ∉ set.stakingPoolMappings ∧ id ∉ set.inactiveValidators)
    (hset : set.requestAddValidatorCandidate v = .ok set') :
    Tracked epoch set' log := by
  have hstep := roster_register hpool hfr.2 hset
  refine ⟨fun w hw hina hid => ?_, hstep.knows h.known⟩
  rcases hw.of_register hset with rfl | hw
  · have hpoolId : id = log.poolId := (congrArg StakingPool.id hpool).symm.trans hid
    rcases h.known with hkn | hkn
    · exact absurd (by simp [roster, ← hpoolId, TreeMap.getElem?_eq_none hfr.1]) hkn
    · exact absurd (by simp [roster, ← hpoolId, TreeMap.getElem?_eq_none hfr.2]) hkn
  · exact h.follows w hw hina hid

lemma removeCandidate {deactivationEpoch : ℕ}
    (hset : set.requestRemoveValidatorCandidate address deactivationEpoch = .ok set') :
    Tracked epoch set' log := by
  have hstep := roster_removeCandidate hset
  refine ⟨fun w hw hina hid => ?_, hstep.knows h.known⟩
  rcases hw.of_removeCandidate hset with hw | ⟨v, -, -, rfl⟩
  · exact h.follows w hw hina hid
  · cases hina

lemma join {minJoiningStakeAmount : ℕ}
    (hset : set.requestAddValidator minJoiningStakeAmount address = .ok set') :
    Tracked epoch set' log := by
  have hstep := roster_join hset
  exact ⟨fun w hw => h.follows w (hw.of_join hset), hstep.knows h.known⟩

end

lemma advance {before after : WithRecords} {stakes : List StakedSui} {parts : EpochParts}
    (h : Tracked epoch before.1 log)
    (hsgs : before.1.Stages) (hadv : Advanced before after epoch stakes parts) :
    Tracked (epoch + 1) after.1 log := by
  have hstep := roster_advance hadv
  have hact := hadv.active_forall₂
  have hdep := hadv.departs
  refine ⟨fun v hv hina hid => ?_, hstep.knows h.known⟩
  obtain rfl := hadv.after_eq
  cases hv with
  | active hv =>
    obtain ⟨u, hu, power, metadata, hmeta, rfl⟩ := exists_of_forall₂_right hact hv
    have hdoss : dossier { u with votingPower := power, metadata } = u.dossier := by
      have haddr : metadata.suiAddress = u.suiAddress :=
        (ValidatorMetadata.within_effectuateStaged hmeta).suiAddress
      exact congrArg (fun address => { u.dossier with address }) haddr
    rw [hdoss]
    rcases mem_append.mp (hdep.sublist.subset hu) with hu | hu
    · obtain ⟨w, hw, heq⟩ := hadv.settled.exists_processed hu
      obtain ⟨hpre, hwinact⟩ := hsgs.active w hw
      obtain ⟨a, ha⟩ := activation_of_not_preactive hpre
      rw [heq]
      exact (h.follows w (.active hw) hwinact ((congrArg Dossier.poolId heq).symm.trans hid)).adjusted ha
    · obtain ⟨w, hw, hactv⟩ := exists_of_forall₂_right (forall₂_of_mapM_eq_ok hadv.settled.joining_eq) hu
      have heq := (activate_kept hactv).2
      have hw := mem_reverse.mp hw
      obtain ⟨hpre, hwinact⟩ := hsgs.pending w hw
      rw [heq]
      exact (h.follows w (.pending hw) hwinact ((congrArg Dossier.poolId heq).symm.trans hid)).activated
        (activation_of_preactive hpre)
  | pending hv =>
    rw [hdep.pending] at hv
    simp at hv
  | candidate address hv =>
    rw [hdep.candidates] at hv
    exact (h.follows v (.candidate address hv) hina hid).wait
      (activation_of_preactive (hsgs.candidates address v hv).1)
  | inactive id hv =>
    by_cases hleav : id ∈ parts.leaving.map stakingPoolId
    · obtain ⟨w, hw, rfl⟩ := mem_map.mp hleav
      obtain rfl := some.inj (hv.symm.trans (hdep.left w hw).2)
      cases hina
    · rw [hdep.inactive id hleav] at hv
      rw [hsgs.inactive id v hv] at hina
      cases hina

end Tracked

section Histories

open ValidatorSet

variable {validateMetadata : ValidatorMetadata → Bool} {state state' : SuiSystemState}
  {sender address : SuiAddress} {call : Call} {stakes : List StakedSui} {direct : Bool}

namespace SettingsLog

variable {write : SlotWrite ℕ}

lemma setCommission_of_eq (h : address = log.address) :
    log.setCommission address write = { log with commission := write :: log.commission } := if_pos h

lemma setCommission_of_ne (h : address ≠ log.address) : log.setCommission address write = log := if_neg h

lemma setGasPrice_of_eq (h : address = log.address) :
    log.setGasPrice address write = { log with gasPrice := write :: log.gasPrice } := if_pos h

lemma setGasPrice_of_ne (h : address ≠ log.address) : log.setGasPrice address write = log := if_neg h

@[simp] lemma poolId_setCommission : (log.setCommission address write).poolId = log.poolId := by
  unfold setCommission
  split_ifs <;> rfl

@[simp] lemma poolId_setGasPrice : (log.setGasPrice address write).poolId = log.poolId := by
  unfold setGasPrice
  split_ifs <;> rfl

end SettingsLog

lemma ValidatorSet.verifyCap_eq_ok {cap : UnverifiedValidatorOperationCap} {which : WhichValidator}
    (h : set.verifyCap cap which = .ok address) : address = cap.authorizerValidatorAddress := by
  unfold verifyCap at h
  split_ifs at h <;>
    · obtain ⟨_, -, h⟩ := bind_eq_ok.mp h
      obtain ⟨_, -, h⟩ := bind_eq_ok.mp h
      cases h
      rfl

namespace Tracked

variable (h : Tracked state.epoch state.validators log)
include h

section

variable (hpart : state.validators.roster.Partition) (hsgs : state.validators.Stages)

include hpart hsgs

lemma updateSender {includeCandidate : Bool} {update : Validator → Except Abort Validator}
    (hupd : state.updateSender address includeCandidate update = .ok (state', stakes))
    (hown : ∀ v v', update v = .ok v' →
      v'.stamp = v.stamp ∧ (address = log.address → Follows state.epoch v.dossier log →
        Follows state.epoch v'.dossier log'))
    (hpool : log'.poolId = log.poolId) (hoth : address ≠ log.address → log' = log) :
    Tracked state'.epoch state'.validators log' := by
  obtain ⟨validators, hvals, rfl, -⟩ := updateSender_eq_ok hupd
  have hroster := roster_eq_of_agree
    (agree_getActiveOrPendingOrCandidateValidatorMut
      (fun v v' _ hv => (hown v v' (plain_eq_ok hv)).1) hvals)
  obtain ⟨v, v', hrepl, hv', rfl, hina⟩ :=
    replaces_getActiveOrPendingOrCandidateValidatorMut hpart hsgs hvals
  obtain ⟨hstamp, hown⟩ := hown v v' (plain_eq_ok hv')
  have hid : v'.stakingPoolId = v.stakingPoolId :=
    congrArg (fun stamp : SuiAddress × ID × Bool × Bool => stamp.2.1) hstamp
  exact h.replace hpart hsgs hrepl hroster hina hid hpool hown hoth

lemma setting
    (hsett : call.isSetting = true)
    (hexec : state.execute validateMetadata sender call = .ok (state', stakes)) :
    Tracked state'.epoch state'.validators (log.record state.epoch sender call) := by
  cases call with
  | requestSetGasPrice cap newGasPrice =>
    obtain ⟨address, hcap, hupd⟩ := bind_eq_ok.mp hexec
    obtain rfl := verifyCap_eq_ok hcap
    refine h.updateSender hpart hsgs hupd (fun v v' hv => ?_) SettingsLog.poolId_setGasPrice
      SettingsLog.setGasPrice_of_ne
    obtain rfl := requestSetGasPrice_eq_ok hv
    refine ⟨rfl, fun heq hfol => ?_⟩
    rw [SettingsLog.record, SettingsLog.setGasPrice_of_eq heq]
    exact hfol.stageGasPrice
  | setCandidateValidatorGasPrice cap newGasPrice =>
    obtain ⟨address, hcap, hupd⟩ := bind_eq_ok.mp hexec
    obtain rfl := verifyCap_eq_ok hcap
    refine h.updateSender hpart hsgs hupd (fun v v' hv => ?_) SettingsLog.poolId_setGasPrice
      SettingsLog.setGasPrice_of_ne
    obtain ⟨hpre, rfl⟩ := setCandidateGasPrice_eq_ok hv
    refine ⟨rfl, fun heq hfol => ?_⟩
    rw [SettingsLog.record, SettingsLog.setGasPrice_of_eq heq]
    exact hfol.writeGasPrice (activation_of_preactive hpre)
  | requestSetCommissionRate newCommissionRate =>
    obtain ⟨⟨validators, _⟩, hvals, hexec⟩ := bind_eq_ok.mp hexec
    cases hexec
    have hroster := roster_eq_of_agree (agree_getActiveMut (f := stamp) (fun v v' _ hv => by
      rw [requestSetCommissionRate_eq_ok (plain_eq_ok hv)]
      rfl) hvals)
    obtain ⟨v, v', hrepl, hv', rfl, hact⟩ := replaces_getActiveMut hpart hvals
    obtain rfl := requestSetCommissionRate_eq_ok (plain_eq_ok hv')
    obtain ⟨hpre, hina⟩ := hsgs.active v hact
    obtain ⟨a, ha⟩ := activation_of_not_preactive hpre
    refine h.replace hpart hsgs hrepl hroster hina rfl SettingsLog.poolId_setCommission
      (fun heq hfol => ?_) SettingsLog.setCommission_of_ne
    rw [SettingsLog.record, SettingsLog.setCommission_of_eq heq]
    exact hfol.stageCommission ha
  | setCandidateValidatorCommissionRate newCommissionRate =>
    refine h.updateSender hpart hsgs hexec (fun v v' hv => ?_) SettingsLog.poolId_setCommission
      SettingsLog.setCommission_of_ne
    obtain ⟨hpre, rfl⟩ := setCandidateCommissionRate_eq_ok hv
    refine ⟨rfl, fun heq hfol => ?_⟩
    rw [SettingsLog.record, SettingsLog.setCommission_of_eq heq]
    exact hfol.writeCommission (activation_of_preactive hpre)
  | _ => cases hsett

end

lemma move (hsgs : state.validators.Stages) (hmove : call.isMove = true)
    (hregu : call.isRegular = true) (hfr : call.Fresh state)
    (hexec : state.execute validateMetadata sender call = .ok (state', stakes)) :
    Tracked state'.epoch state'.validators log := by
  cases call with
  | requestAddValidatorCandidate registration poolId operationCapId =>
    obtain ⟨v, hnew, hexec⟩ := bind_eq_ok.mp hexec
    obtain ⟨validators, hvals, rfl, -⟩ := withValidators_eq_ok hexec
    obtain ⟨metadata, -, rfl⟩ := new_eq_ok hnew
    exact h.register rfl (hfr _ rfl) hvals
  | requestRemoveValidatorCandidate =>
    obtain ⟨validators, hvals, rfl, -⟩ := withValidators_eq_ok hexec
    exact h.removeCandidate hvals
  | requestAddValidator =>
    obtain ⟨_, -, hexec⟩ := bind_eq_ok.mp hexec
    obtain ⟨_, -, hexec⟩ := bind_eq_ok.mp hexec
    obtain ⟨validators, hvals, rfl, -⟩ := withValidators_eq_ok hexec
    exact h.join hvals
  | requestRemoveValidator =>
    obtain ⟨_, -, hexec⟩ := bind_eq_ok.mp hexec
    obtain ⟨validators, hvals, rfl, -⟩ := withValidators_eq_ok hexec
    have hstep := roster_requestRemoval hvals
    obtain ⟨index, -, -, rfl⟩ := requestRemoveValidator_eq_ok hvals
    refine ⟨fun v hv => h.follows v ?_, hstep.knows h.known⟩
    cases hv with
    | active hv => exact .active hv
    | pending hv => exact .pending hv
    | candidate address hv => exact .candidate address hv
    | inactive id hv => exact .inactive id hv
  | advanceEpoch computationReward storageFundReward rewardSlashingRate =>
    obtain ⟨_, -, hexec⟩ := bind_eq_ok.mp hexec
    obtain ⟨⟨⟨validators, records⟩, rewards⟩, hvals, hexec⟩ := bind_eq_ok.mp hexec
    cases hexec
    obtain ⟨parts, -, hadv⟩ := advanceEpoch_eq_ok hvals
    exact h.advance hsgs hadv
  | advanceEpochSafeMode => cases hregu
  | _ => cases hmove

end Tracked

lemma ValidatorSet.ne_of_fresh {id : ID} (hpart : set.roster.Partition)
    (hfr : id ∉ set.stakingPoolMappings ∧ id ∉ set.inactiveValidators) (hv : set.Holds v) :
    v.stakingPoolId ≠ id := by
  rintro rfl
  have hnone := TreeMap.getElem?_eq_none hfr.1
  cases hv with
  | active hv => simp [mapping_of_joined hpart (mem_append_left _ hv)] at hnone
  | pending hv => simp [mapping_of_joined hpart (mem_append_right _ hv)] at hnone
  | candidate address hv => simp [mapping_of_candidate hpart hv] at hnone
  | inactive id hv =>
    refine hfr.2 (mem_map_iff_exists.mpr ⟨v, ?_⟩)
    rw [(mapping_of_inactive hpart hv).1, hv]

lemma tracked_register {registration : Registration} {poolId operationCapId : ID}
    (hpart : state.validators.roster.Partition)
    (hfr : (Call.requestAddValidatorCandidate registration poolId operationCapId).Fresh state)
    (h : state.execute validateMetadata sender
      (.requestAddValidatorCandidate registration poolId operationCapId) = .ok (state', stakes)) :
    Tracked state'.epoch state'.validators ⟨sender, poolId, registration, [], []⟩ := by
  obtain ⟨v, hnew, h⟩ := bind_eq_ok.mp h
  obtain ⟨validators, hvals, rfl, -⟩ := withValidators_eq_ok h
  obtain ⟨metadata, rfl, rfl⟩ := new_eq_ok hnew
  have hoth := fun w hw => ne_of_fresh (v := w) hpart (hfr _ rfl) hw
  refine ⟨fun w hw _ hwid => ?_, .inl ?_⟩
  · rcases hw.of_register hvals with rfl | hw
    · exact ⟨rfl, .new, .new, by simp⟩
    · exact absurd hwid (hoth w hw)
  · obtain ⟨-, -, -, -, -, rfl⟩ := requestAddValidatorCandidate_eq_ok hvals
    simp [roster, newFromMetadata, stakingPoolId, StakingPool.new]

lemma SettingsHistory.tracked {outstanding : Multiset StakedSui}
    (h : SettingsHistory validateMetadata state outstanding log) :
    Tracked state.epoch state.validators log := by
  induction h with
  | register hrun hfr h => exact tracked_register (partition_run hrun) hfr h
  | call hhist hfr _ h hregu ih =>
    rename_i call _ _ _ _ _
    have hrun := hhist.run
    cases hsett : call.isSetting with
    | true => exact ih.setting (partition_run hrun) (stages_run hrun) hsett h
    | false =>
      rw [SettingsLog.record_of_not_setting hsett]
      cases hmove : call.isMove with
      | true => exact ih.move (stages_run hrun) hmove hregu hfr h
      | false =>
        obtain ⟨hep, hagr⟩ := (execute_outcome h).dossiers hmove hsett
        rw [hep]
        exact ih.agree hagr
  | split _ _ ih | join _ _ ih => exact ih

end Histories

/-- The value of the last call before an epoch, or the registered one. -/
def lastBefore (registered : ℕ) (writes : List (SlotWrite ℕ)) (epoch : ℕ) : ℕ :=
  latest (fun w => w.time < epoch) registered writes

/-- The value of the last call as a candidate, or the registered one. -/
def lastAsCandidate (registered : ℕ) (writes : List (SlotWrite ℕ)) : ℕ :=
  latest SlotWrite.direct registered writes

/-- When the settings of an active validator are those that were set last before the epoch. The
commission rate a candidate has set is lost with the first epoch change after its activation; the
gas price a pending validator has requested comes an epoch late. -/
theorem settings_in_force_iff {validateMetadata : ValidatorMetadata → Bool} {state : SuiSystemState}
    {outstanding : Multiset StakedSui} {log : SettingsLog} {v : Validator} {activationEpoch : ℕ}
    (hhistory : SettingsHistory validateMetadata state outstanding log)
    (hv : v ∈ state.validators.activeValidators) (hpool : v.stakingPoolId = log.poolId)
    (hactivation : v.stakingPool.activationEpoch = some activationEpoch) :
    (v.commissionRate = lastBefore log.registered.commissionRate log.commission state.epoch ↔
      state.epoch = activationEpoch ∨ (∃ w ∈ log.commission, w.direct = false ∧ w.time < state.epoch) ∨
        lastAsCandidate log.registered.commissionRate log.commission = log.registered.commissionRate) ∧
    (v.gasPrice = lastBefore log.registered.gasPrice log.gasPrice state.epoch ↔
      state.epoch ≠ activationEpoch ∨
        lastBefore log.registered.gasPrice log.gasPrice state.epoch =
          lastAsCandidate log.registered.gasPrice log.gasPrice) := by
  have hinactive := ((stages_run hhistory.run).active v hv).2
  have hfollows := hhistory.tracked.follows v (.active hv) hinactive hpool
  have hcommission := hfollows.commission
  have hgasPrice := hfollows.gasPrice
  have hdossier : v.dossier.activation = some activationEpoch := hactivation
  rw [hdossier] at hcommission hgasPrice
  refine ⟨hcommission.current_iff_of_not_both fun w hw hdirect => ?_, hgasPrice.current_iff_of_both⟩
  obtain ⟨a, ha, hle⟩ := hfollows.staged w hw hdirect
  rw [hdossier] at ha
  exact mem_some.mp ha ▸ hle

def tryRecord (acc : (SuiSystemState × List StakedSui) × SettingsLog) (entry : SuiAddress × Call) :
    Option ((SuiSystemState × List StakedSui) × SettingsLog) := do
  let result ← tryCall (fun _ _ call => call.isRegular) acc.1 entry
  return (result, acc.2.record acc.1.1.epoch entry.1 entry.2)

def runSettings (script : List (SuiAddress × Call)) :
    Option ((SuiSystemState × List StakedSui) × SettingsLog) := do
  let start ← sampleGenesis.toOption
  let registered ← tryCall (fun _ _ _ => true) start
    (2, .requestAddValidatorCandidate (sampleRegistration 2) 2 2)
  script.foldlM tryRecord (registered, ⟨2, 2, sampleRegistration 2, [], []⟩)

variable {result : (SuiSystemState × List StakedSui) × SettingsLog} {script : List (SuiAddress × Call)}

lemma settingsHistory_of_runSettings
    (h : runSettings script = some result) :
    SettingsHistory (fun _ => true) result.1.1 result.1.2 result.2 := by
  unfold runSettings at h
  obtain ⟨start, hst, h⟩ := bind_eq_some_iff.mp h
  obtain ⟨registered, hregd, h⟩ := bind_eq_some_iff.mp h
  refine foldlM_some_induction (fun acc => SettingsHistory (fun _ => true) acc.1.1 acc.1.2 acc.2) ?_
    (fun _ _ _ _ hacc hnext => ?_) h
  · have hrun : SystemRun (fun _ => true) (fun _ _ _ _ => True) start.1 start.2 := by
      have hscript : runScript (fun _ _ _ => true) sampleGenesis [] = some start :=
        bind_eq_some_iff.mpr ⟨start, hst, rfl⟩
      exact systemRun_of_runScript (fun _ _ _ _ _ => trivial) hscript
    obtain ⟨hfr, -, stakes, rest, hexec, htakes, hres⟩ := tryCall_eq_some hregd
    have hrest : (start.2 : Multiset StakedSui) = rest := htakes
    have hhist := SettingsHistory.register hrun hfr hexec
    rw [hres, ← Multiset.coe_add, ← hrest]
    exact hhist
  · obtain ⟨called, hcalled, hnext⟩ := bind_eq_some_iff.mp hnext
    cases hnext
    obtain ⟨hfr, hregu, stakes, rest, hexec, htakes, hres⟩ := tryCall_eq_some hcalled
    rw [hres]
    exact .call hacc hfr htakes hexec hregu

/-- The candidate sets its commission rate and joins; while it is pending it requests a
gas price. -/
def settingsScript : List (SuiAddress × Call) :=
  [(2, .setCandidateValidatorCommissionRate 500), (3, .requestAddStake 30000000000 2),
    (2, .requestAddValidator),
    (2, .requestSetGasPrice ⟨2, 2⟩ 7), (0, .advanceEpoch 0 0 0)]

/-- With a commission rate requested in the first epoch, both settings are in force in
the second. -/
theorem settings_in_force_requested :
    ∃ state outstanding log v, SettingsHistory (fun _ => true) state outstanding log ∧
      v ∈ state.validators.activeValidators ∧
      state.epoch = 2 ∧ lastBefore log.registered.commissionRate log.commission 2 = 700 ∧
        lastBefore log.registered.gasPrice log.gasPrice 2 = 7 ∧
      v.stakingPoolId = log.poolId ∧ v.commissionRate = 700 ∧ v.gasPrice = 7 := by
  obtain ⟨⟨⟨state, outstanding⟩, log⟩, hresult, hstate⟩ := (any_eq_true _ _).mp
    (by decide +kernel : (runSettings (settingsScript ++
        [(2, .requestSetCommissionRate 700), (0, .advanceEpoch 0 0 0)])).any
      (fun result =>
        decide (result.1.1.epoch = 2 ∧
          lastBefore result.2.registered.commissionRate result.2.commission 2 = 700 ∧
        lastBefore result.2.registered.gasPrice result.2.gasPrice 2 = 7) &&
        (result.1.1.validators.activeValidators.any fun v =>
          v.stakingPoolId = result.2.poolId ∧ v.stakingPool.activationEpoch = some 1) &&
        result.2.commission.any fun w => w.direct = false ∧ w.time < 2) = true)
  have hhistory : SettingsHistory (fun _ => true) state outstanding log :=
    settingsHistory_of_runSettings hresult
  obtain ⟨hstate, hrequested⟩ := Bool.and_eq_true_iff.mp hstate
  obtain ⟨hdata, hactive⟩ := Bool.and_eq_true_iff.mp hstate
  obtain ⟨hepoch, hcommission, hgasPrice⟩ := of_decide_eq_true hdata
  obtain ⟨v, hv, hpool⟩ := any_eq_true.mp hactive
  obtain ⟨hpool, hactivation⟩ := of_decide_eq_true hpool
  obtain ⟨w, hw, hwrite⟩ := any_eq_true.mp hrequested
  have hsettings := settings_in_force_iff hhistory hv hpool hactivation
  rw [hepoch, hcommission, hgasPrice] at hsettings
  refine ⟨state, outstanding, log, v, hhistory, hv, hepoch, hcommission, hgasPrice, hpool, ?_, ?_⟩
  · exact hsettings.1.mpr (.inr (.inl ⟨w, hw, of_decide_eq_true hwrite⟩))
  · exact hsettings.2.mpr (.inl (by decide))

/-- In the epoch of the activation the gas price is the registered one, not the requested one; in
the next epoch the commission rate is the registered one, not the one the candidate has set. -/
theorem settings_lost :
    (∃ state outstanding log v, SettingsHistory (fun _ => true) state outstanding log ∧
      v ∈ state.validators.activeValidators ∧
      v.stakingPoolId = log.poolId ∧ state.epoch = 1 ∧
        lastBefore log.registered.gasPrice log.gasPrice 1 = 7 ∧ v.gasPrice = 1) ∧
    ∃ state outstanding log v, SettingsHistory (fun _ => true) state outstanding log ∧
      v ∈ state.validators.activeValidators ∧
      v.stakingPoolId = log.poolId ∧ state.epoch = 2 ∧
        lastBefore log.registered.commissionRate log.commission 2 = 500 ∧
      v.commissionRate = 0 := by
  constructor
  · obtain ⟨⟨⟨state, outstanding⟩, log⟩, hresult, hstate⟩ := (any_eq_true _ _).mp
      (by decide +kernel : (runSettings settingsScript).any
        (fun result => result.1.1.validators.activeValidators.any fun v =>
        v.stakingPoolId = result.2.poolId ∧ result.1.1.epoch = 1 ∧
          lastBefore result.2.registered.gasPrice result.2.gasPrice 1 = 7 ∧
          v.gasPrice = 1) = true)
    obtain ⟨v, hv, hdata⟩ := any_eq_true.mp hstate
    exact ⟨state, outstanding, log, v, settingsHistory_of_runSettings hresult, hv,
      of_decide_eq_true hdata⟩
  · obtain ⟨⟨⟨state, outstanding⟩, log⟩, hresult, hstate⟩ := (any_eq_true _ _).mp
      (by decide +kernel : (runSettings (settingsScript ++ [(0, .advanceEpoch 0 0 0)])).any
        (fun result => result.1.1.validators.activeValidators.any fun v =>
          v.stakingPoolId = result.2.poolId ∧ result.1.1.epoch = 2 ∧
          lastBefore result.2.registered.commissionRate result.2.commission 2 = 500 ∧
            v.commissionRate = 0) = true)
    obtain ⟨v, hv, hdata⟩ := any_eq_true.mp hstate
    exact ⟨state, outstanding, log, v, settingsHistory_of_runSettings hresult, hv,
      of_decide_eq_true hdata⟩

end SuiProofs.SuiSystem

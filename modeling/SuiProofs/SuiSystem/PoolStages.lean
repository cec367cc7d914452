import SuiProofs.SuiSystem.Roster

namespace SuiProofs.SuiSystem

open Library List Option Validator

/-- The pools by place: preactive until their validators are active, inactive after they left. -/
structure ValidatorSet.Stages (set : ValidatorSet) : Prop where
  active : ∀ v ∈ set.activeValidators, v.isPreactive = false ∧ v.stakingPool.isInactive = false
  pending : ∀ v ∈ set.pendingActiveValidators, v.isPreactive = true ∧ v.stakingPool.isInactive = false
  candidates : ∀ (address : SuiAddress) (v : Validator), set.validatorCandidates[address]? = some v →
    v.isPreactive = true ∧ v.stakingPool.isInactive = false
  inactive : ∀ (id : ID) (v : Validator), set.inactiveValidators[id]? = some v →
    v.stakingPool.isInactive = true

namespace ValidatorSet.Stages

variable {set set' : ValidatorSet} (h : set.Stages)
include h

lemma agree (hagr : Agree stamp set set') : set'.Stages := by
  have hlist : ∀ {l l' : List Validator} {p : Bool × Bool → Prop}, l'.map stamp = l.map stamp →
      (∀ v ∈ l, p v.stamp.2.2) → ∀ v ∈ l', p v.stamp.2.2 := by
    intro l l' p hmap hl v hv
    obtain ⟨w, hw, heq⟩ := mem_map.mp (hmap ▸ mem_map_of_mem (f := stamp) hv)
    exact heq ▸ hl w hw
  have htb : ∀ {o o' : Option Validator} {p : Bool × Bool → Prop}, o'.map stamp = o.map stamp →
      (∀ v, o = some v → p v.stamp.2.2) → ∀ v, o' = some v → p v.stamp.2.2 := by
    rintro o o' p hmap ho v rfl
    obtain ⟨w, hw, heq⟩ := map_eq_some_iff.mp hmap.symm
    exact heq ▸ ho w hw
  refine ⟨?_, ?_, fun address => ?_, fun id => ?_⟩
  · exact hlist (p := fun stage => stage.1 = false ∧ stage.2 = false) hagr.active h.active
  · exact hlist (p := fun stage => stage.1 = true ∧ stage.2 = false) hagr.pending h.pending
  · exact htb (p := fun stage => stage.1 = true ∧ stage.2 = false) (hagr.candidates address)
      (h.candidates address)
  · exact htb (p := fun stage => stage.2 = true) (hagr.inactive id) (h.inactive id)

lemma register {v : Validator} {id : ID} (hpool : v.stakingPool = .new id)
    (hset : set.requestAddValidatorCandidate v = .ok set') :
    set'.Stages := by
  obtain ⟨-, -, -, -, -, rfl⟩ := ValidatorSet.requestAddValidatorCandidate_eq_ok hset
  refine ⟨h.active, h.pending, fun address w hw => ?_, h.inactive⟩
  rcases entry_of_insert hw with ⟨-, rfl⟩ | ⟨-, hw⟩
  · rw [isPreactive, hpool]
    exact ⟨rfl, rfl⟩
  · exact h.candidates address w hw

variable {address : SuiAddress} {epoch : ℕ}

lemma removeCandidate
    (hset : set.requestRemoveValidatorCandidate address epoch = .ok set') : set'.Stages := by
  obtain ⟨v, -, -, -, -, rfl⟩ := ValidatorSet.requestRemoveValidatorCandidate_eq_ok hset
  refine ⟨h.active, h.pending, fun address' w hw => ?_, fun id w hw => ?_⟩
  · exact h.candidates address' w (entry_of_erase hw).2
  · rcases entry_of_insert hw with ⟨-, rfl⟩ | ⟨-, hw⟩
    · rfl
    · exact h.inactive id w hw

lemma join {minJoiningStakeAmount : ℕ}
    (hset : set.requestAddValidator minJoiningStakeAmount address = .ok set') : set'.Stages := by
  obtain ⟨v, hv, -, -, -, -, rfl⟩ := ValidatorSet.requestAddValidator_eq_ok hset
  refine ⟨h.active, forall_mem_concat h.pending (h.candidates address v hv), fun address' w hw =>
    ?_, h.inactive⟩
  exact h.candidates address' w (entry_of_erase hw).2

lemma joined {rewards : Rewards} {results : List (Validator × List StakedSui)}
    {processed joining : List Validator}
    (hsett : Settled set epoch rewards results processed joining) :
    ∀ v ∈ processed ++ joining, v.isPreactive = false ∧ v.stakingPool.isInactive = false := by
  intro v hv
  rcases mem_append.mp hv with hv | hv
  · obtain ⟨w, hw, heq⟩ := mem_map.mp (hsett.processed_profile ▸ mem_map_of_mem (f := profile) hv)
    have hpre : w.isPreactive = v.isPreactive := congrArg Profile.isPreactive heq
    have hina : w.stakingPool.isInactive = v.stakingPool.isInactive := congrArg Profile.isInactive heq
    exact ⟨hpre ▸ (h.active w hw).1, hina ▸ (h.active w hw).2⟩
  · obtain ⟨w, hw, heq⟩ := mem_map.mp (hsett.joining_profile ▸ mem_map_of_mem (f := profile) hv)
    have hpre : false = v.isPreactive := congrArg Profile.isPreactive heq
    have hina : w.stakingPool.isInactive = v.stakingPool.isInactive := congrArg Profile.isInactive heq
    exact ⟨hpre.symm, hina ▸ (h.pending w (mem_reverse.mp hw)).2⟩

omit h in
lemma advance {before after : WithRecords} {stakes : List StakedSui} {parts : EpochParts}
    (h : before.1.Stages) (hadv : Advanced before after epoch stakes parts) : after.1.Stages := by
  have hjnd := h.joined hadv.settled
  have hact := hadv.active_forall₂
  have hdep := hadv.departs
  obtain rfl := hadv.after_eq
  refine ⟨fun v' hv' => ?_, fun v hv => ?_, fun address v hv => ?_, fun id v hv => ?_⟩
  · obtain ⟨v, hv, power, metadata, -, rfl⟩ := exists_of_forall₂_right hact hv'
    exact hjnd v (hdep.sublist.subset hv)
  · rw [hdep.pending] at hv
    simp at hv
  · rw [hdep.candidates] at hv
    exact h.candidates address v hv
  · by_cases hid : id ∈ parts.leaving.map stakingPoolId
    · obtain ⟨w, hw, rfl⟩ := mem_map.mp hid
      rw [(hdep.left w hw).2] at hv
      cases hv
      rfl
    · rw [hdep.inactive id hid] at hv
      exact h.inactive id v hv

lemma move (hmove : Move set set') : set'.Stages := by
  cases hmove with
  | inPlace hagr => exact h.agree hagr
  | register hpool _ hset => exact h.register hpool hset
  | removeCandidate hset => exact h.removeCandidate hset
  | join hset => exact h.join hset
  | requestRemoval hset =>
    obtain ⟨index, -, -, rfl⟩ := ValidatorSet.requestRemoveValidator_eq_ok hset
    exact ⟨h.active, h.pending, h.candidates, h.inactive⟩
  | advance hadv => exact h.advance hadv

end ValidatorSet.Stages

section Runs

variable {validateMetadata : ValidatorMetadata → Bool} {state : SuiSystemState}
  {stakes : List StakedSui} {genesisValidators : List SuiSystemState.GenesisValidator}

lemma addGenesisValidator_new {validators : List Validator}
    (h : genesisValidators.foldlM (SuiSystemState.addGenesisValidator validateMetadata) [] =
      .ok validators) :
    ∀ v ∈ validators, (∃ id, v.stakingPool = .new id) ∧ v.nextEpochStake = 0 := by
  refine foldlM_ok_induction (fun validators : List Validator =>
    ∀ v ∈ validators, (∃ id, v.stakingPool = .new id) ∧ v.nextEpochStake = 0)
    ?_ (by simp) h
  rintro validators genesisValidator validators' - hnew hstep v hv
  obtain ⟨w, hw, hstep⟩ := bind_eq_ok.mp hstep
  obtain ⟨_, -, hstep⟩ := bind_eq_ok.mp hstep
  cases hstep
  rcases mem_append.mp hv with hv | hv
  · exact hnew v hv
  · obtain rfl := mem_singleton.mp hv
    obtain ⟨metadata, -, rfl⟩ := new_eq_ok hw
    exact ⟨⟨_, rfl⟩, rfl⟩

lemma stages_create {allocations : List (SuiAddress × ℕ)} {parameters : SystemParameters}
    (h : SuiSystemState.create validateMetadata genesisValidators allocations parameters =
      .ok (state, stakes)) :
    state.validators.Stages := by
  obtain ⟨registered, allocated, activated, mappings, active, hregd, halloc, hactd, -, hact, rfl⟩ :=
    SuiSystemState.create_eq_ok h
  have hnew := addGenesisValidator_new hregd
  have halloc :=
    SuiSystemState.allocateTokens_map
      (fun v v' amount s hv => requestAddStakeAtGenesis_profile hv) halloc
  refine ⟨fun v'' hv'' => ?_, by simp, by simp, by simp⟩
  obtain ⟨v', hv', power, rfl⟩ := exists_of_forall₂_right (VotingPower.setVotingPower_eq_ok hact) hv''
  obtain ⟨v, hv, hactv⟩ := exists_of_forall₂_right (forall₂_of_mapM_eq_ok hactd) hv'
  have hprof := (activate_kept hactv).1
  obtain ⟨w, hw, heq⟩ := mem_map.mp (halloc ▸ mem_map_of_mem (f := profile) hv)
  obtain ⟨⟨id, hpool⟩, -⟩ := hnew w hw
  have hina : w.stakingPool.isInactive = v'.stakingPool.isInactive :=
    (congrArg Profile.isInactive heq).trans (congrArg Profile.isInactive hprof).symm
  refine ⟨congrArg Profile.isPreactive hprof, ?_⟩
  rw [← hina, hpool]
  rfl

lemma stages_run {allowed : SuiSystemState → SuiAddress → Call → SuiSystemState → Prop}
    {outstanding : Multiset StakedSui}
    (h : SystemRun validateMetadata allowed state outstanding) : state.validators.Stages := by
  induction h with
  | genesis h => exact stages_create h
  | call _ hfr _ hexec _ ih => exact ih.move ((SuiSystemState.execute_outcome hexec).effect.move hfr)
  | split _ _ ih | join _ _ ih => exact ih

end Runs

end SuiProofs.SuiSystem

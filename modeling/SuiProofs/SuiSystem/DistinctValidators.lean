import SuiProofs.SuiSystem.SetFrames

namespace SuiProofs.SuiSystem

open Library List Validator

namespace ValidatorSet

def identities (set : ValidatorSet) : List Identity :=
  (set.activeValidators ++ set.pendingActiveValidators).map fun v => v.metadata.identity

/-- Candidate updates are refused to active validators because these are not preactive. -/
structure DistinctIdentities (set : ValidatorSet) : Prop where
  distinct : set.identities.Pairwise Identity.Distinct
  activated : ∀ v ∈ set.activeValidators, v.isPreactive = false

def identityKey (v : Validator) : Identity × Bool := (v.metadata.identity, v.isPreactive)

variable {set set' : ValidatorSet} (h : set.DistinctIdentities)
include h

lemma DistinctIdentities.of_map
    (hact : set'.activeValidators.map identityKey = set.activeValidators.map identityKey)
    (hpend : set'.pendingActiveValidators.map identityKey =
      set.pendingActiveValidators.map identityKey) : set'.DistinctIdentities where
  distinct := by
    have hkeys : (set'.activeValidators ++ set'.pendingActiveValidators).map identityKey =
        (set.activeValidators ++ set.pendingActiveValidators).map identityKey := by
      rw [map_append, map_append, hact, hpend]
    have hids := congrArg (List.map Prod.fst) hkeys
    rw [map_map, map_map] at hids
    have hdist := h.distinct
    unfold identities at hdist ⊢
    exact hids ▸ hdist
  activated := by
    intro v hv
    have hkey : identityKey v ∈ set.activeValidators.map identityKey := hact ▸ mem_map_of_mem hv
    obtain ⟨w, hw, heq⟩ := mem_map.mp hkey
    exact (congrArg Prod.snd heq).symm.trans (h.activated w hw)

lemma DistinctIdentities.agree (hagr : Agree identityKey set set') : set'.DistinctIdentities :=
  h.of_map hagr.active hagr.pending

variable {before after : List Validator} {v : Validator}

omit h in
/-- A validator is its own duplicate, so one duplicate means none among the others. -/
lemma countDuplicates_others (h : countDuplicates (before ++ v :: after) v = 1) :
    countDuplicates (before ++ after) v = 0 := by
  have hself : v.isDuplicate v = true := by simp [Validator.isDuplicate, ValidatorMetadata.isDuplicate]
  unfold countDuplicates at h ⊢
  rw [countP_append, countP_cons, if_pos hself] at h
  rw [countP_append]
  omega

omit h in
lemma pairwise_replace {v' : Validator}
    (h : ((before ++ v :: after).map fun v => v.metadata.identity).Pairwise Identity.Distinct)
    (hv' : ∀ w ∈ before ++ after, w.metadata.identity.Distinct v'.metadata.identity) :
    ((before ++ v' :: after).map fun v => v.metadata.identity).Pairwise Identity.Distinct := by
  rw [pairwise_map] at h ⊢
  obtain ⟨hbef, hcons, hacross⟩ := pairwise_append.mp h
  refine pairwise_append.mpr ⟨hbef, pairwise_cons.mpr ⟨fun w hw => ?_, (pairwise_cons.mp hcons).2⟩,
    fun w hw u hu => ?_⟩
  · exact (hv' w (mem_append_right _ hw)).symm
  · rcases mem_cons.mp hu with rfl | hu
    · exact hv' w (mem_append_left _ hw)
    · exact hacross w hw u (mem_cons_of_mem _ hu)

variable {sender : SuiAddress} {update : Validator → Except Abort Validator}

lemma DistinctIdentities.stage
    (hupd : ∀ v v', update v = .ok v' → v'.isPreactive = v.isPreactive)
    (hset : set.getActiveOrPendingOrCandidateValidatorMut sender false
      (fun v => do let v ← update v; return (v, v)) = .ok (set', v))
    (hchk : set'.assertNoPendingOrActiveDuplicates v = .ok ()) : set'.DistinctIdentities := by
  have hcnt : countDuplicates (set'.activeValidators ++ set'.pendingActiveValidators) v = 1 := by
    rw [assertNoPendingOrActiveDuplicates, check_eq_ok, decide_eq_true_eq] at hchk
    unfold countDuplicates at hchk ⊢
    rw [countP_append, hchk]
  have hdist := h.distinct
  unfold identities at hdist
  rcases getActiveOrPendingOrCandidateValidatorMut_cases hset with hset | ⟨-, hset⟩ | ⟨hfalse, -⟩
  · obtain ⟨validators, hvals, rfl⟩ := getActiveMut_eq_ok hset
    obtain ⟨before, w, w', after, hact, -, hw, rfl⟩ := getValidatorMut_eq_ok hvals
    obtain ⟨u, hu, hw⟩ := bind_eq_ok.mp hw
    cases hw
    rw [hact, append_assoc, cons_append] at hdist
    rw [append_assoc, cons_append] at hcnt
    constructor
    · unfold identities
      rw [append_assoc, cons_append]
      exact pairwise_replace hdist (distinct_of_countDuplicates (countDuplicates_others hcnt))
    · intro x hx
      have hold := h.activated
      rw [hact] at hold
      rcases mem_append.mp hx with hx | hx
      · exact hold x (mem_append_left _ hx)
      · rcases mem_cons.mp hx with rfl | hx
        · exact (hupd w x hu).trans (hold w (by simp))
        · exact hold x (by simp [hx])
  · obtain ⟨validators, hvals, rfl⟩ := getPendingMut_eq_ok hset
    obtain ⟨before, w, w', after, hpend, -, hw, rfl⟩ := getValidatorMut_eq_ok hvals
    obtain ⟨u, hu, hw⟩ := bind_eq_ok.mp hw
    cases hw
    rw [hpend, ← append_assoc] at hdist
    rw [← append_assoc] at hcnt
    refine ⟨?_, h.activated⟩
    unfold identities
    rw [← append_assoc]
    exact pairwise_replace hdist (distinct_of_countDuplicates (countDuplicates_others hcnt))
  · cases hfalse

lemma DistinctIdentities.updateCandidate
    (hpre : ∀ v v', update v = .ok v' → v.isPreactive = true)
    (hpend : (findValidator set.pendingActiveValidators sender).isSome = false)
    (hset : set.getActiveOrPendingOrCandidateValidatorMut sender true (plain update) =
      .ok (set', ())) : set'.DistinctIdentities := by
  rcases getActiveOrPendingOrCandidateValidatorMut_cases hset with hset | ⟨hsome, -⟩ | ⟨-, hset⟩
  · obtain ⟨validators, hvals, rfl⟩ := getActiveMut_eq_ok hset
    obtain ⟨before, v, v', after, hact, -, hv, rfl⟩ := getValidatorMut_eq_ok hvals
    have hfalse : v.isPreactive = false := h.activated v (by simp [hact])
    rw [hpre v v' (plain_eq_ok hv)] at hfalse
    cases hfalse
  · rw [hpend] at hsome
    cases hsome
  · obtain ⟨v, v', -, -, rfl⟩ := getCandidateMut_eq_ok hset
    exact ⟨h.distinct, h.activated⟩

lemma DistinctIdentities.join {minJoiningStakeAmount : ℕ}
    (hset : set.requestAddValidator minJoiningStakeAmount sender = .ok set') :
    set'.DistinctIdentities := by
  obtain ⟨v, -, hact, hpend, -, -, rfl⟩ := requestAddValidator_eq_ok hset
  refine ⟨?_, h.activated⟩
  have hdist := h.distinct
  unfold identities at hdist ⊢
  rw [pairwise_map] at hdist ⊢
  rw [← append_assoc]
  refine pairwise_append.mpr ⟨hdist, pairwise_singleton _ _, fun w hw u hu => ?_⟩
  obtain rfl := mem_singleton.mp hu
  rcases mem_append.mp hw with hw | hw
  · exact distinct_of_countDuplicates hact w hw
  · exact distinct_of_countDuplicates hpend w hw

omit h

lemma pairwise_effectuate {validators validators' : List Validator}
    (h : List.Forall₂ (fun v v' => v'.metadata.identity.Within v.metadata.identity)
      validators validators')
    (hdist : (validators.map fun v => v.metadata.identity).Pairwise Identity.Distinct) :
    (validators'.map fun v => v.metadata.identity).Pairwise Identity.Distinct := by
  rw [pairwise_map] at hdist ⊢
  induction h with
  | nil => exact .nil
  | cons hv htail ih =>
    obtain ⟨hhead, hdist⟩ := pairwise_cons.mp hdist
    refine pairwise_cons.mpr ⟨fun w' hw' => ?_, ih hdist⟩
    obtain ⟨w, hw, hwithin⟩ := exists_of_forall₂_right htail hw'
    exact (hhead w hw).within hv hwithin

lemma DistinctIdentities.advanceEpoch {before after : WithRecords} {epoch : ℕ}
    {stakes : List StakedSui} {parts : EpochParts}
    (h : before.1.DistinctIdentities) (hadv : Advanced before after epoch stakes parts) :
    after.1.DistinctIdentities := by
  obtain rfl := hadv.after_eq
  have hall : ((parts.processed ++ parts.joining).map profile) =
      before.1.activeValidators.map profile ++
        before.1.pendingActiveValidators.reverse.map fun v => v.profile.activated := by
    rw [map_append, hadv.settled.processed_profile, hadv.settled.joining_profile]
  have hids : ((parts.processed ++ parts.joining).map fun v => v.metadata.identity).Pairwise
      Identity.Distinct := by
    have hmap : (parts.processed ++ parts.joining).map (fun v => v.metadata.identity) =
        before.1.activeValidators.map (fun v => v.metadata.identity) ++
          before.1.pendingActiveValidators.reverse.map fun v => v.metadata.identity := by
      have hprof := congrArg (List.map fun profile : Profile => profile.metadata.identity) hall
      rw [map_map] at hprof
      refine hprof.trans ?_
      rw [map_append, map_map, map_map]
      rfl
    have hperm : ((parts.processed ++ parts.joining).map fun v => v.metadata.identity).Perm
        before.1.identities := by
      refine (List.Perm.of_eq hmap).trans ?_
      unfold identities
      rw [map_append]
      exact ((reverse_perm _).map _).append_left _
    exact (hperm.pairwise_iff fun h => h.symm).mpr h.distinct
  have hactd : ∀ v ∈ parts.processed ++ parts.joining, v.isPreactive = false := by
    intro v hv
    have hprof := mem_map_of_mem (f := profile) hv
    rw [hall] at hprof
    rcases mem_append.mp hprof with hprof | hprof
    · obtain ⟨w, hw, heq⟩ := mem_map.mp hprof
      have hpre : w.isPreactive = v.isPreactive := congrArg Profile.isPreactive heq
      exact hpre.symm.trans (h.activated w hw)
    · obtain ⟨w, -, heq⟩ := mem_map.mp hprof
      exact (congrArg Profile.isPreactive heq).symm
  have hsublist := hadv.departs.sublist
  constructor
  · unfold identities
    rw [hadv.departs.pending, append_nil]
    refine pairwise_effectuate (hadv.active_forall₂.imp ?_) (hids.sublist (hsublist.map _))
    rintro v v' ⟨power, metadata, hmeta, rfl⟩
    exact ValidatorMetadata.within_effectuateStaged hmeta
  · intro v' hv'
    obtain ⟨v, hv, power, metadata, -, rfl⟩ := exists_of_forall₂_right hadv.active_forall₂ hv'
    exact hactd v (hsublist.subset hv)

end ValidatorSet

open ValidatorSet

variable {validateMetadata : ValidatorMetadata → Bool} {state state' : SuiSystemState}
  {sender : SuiAddress} {call : Call} {stakes : List StakedSui}

variable (state sender call) in
/-- Current identity data is only updated by validators that are not pending. -/
def UpdatesByCandidates : Prop :=
  call.updatesCandidateIdentity = true →
    (findValidator state.validators.pendingActiveValidators sender).isSome = false

instance : Decidable (UpdatesByCandidates state sender call) := inferInstanceAs (Decidable (_ → _))

lemma distinctIdentities_effect (h : state.validators.DistinctIdentities)
    (hall : UpdatesByCandidates state sender call)
    (heffect : Effect validateMetadata state sender call state' stakes) :
    state'.validators.DistinctIdentities := by
  have hcontent : ∀ v v' : Validator, v'.content = v.content →
    identityKey v' = identityKey v := fun v v' hv =>
    congrArg (fun content : Identity × StakingPool × ℕ => (content.1, content.2.1.isPreactive)) hv
  have hprof : ∀ v v' : Validator, v'.profile = v.profile →
    identityKey v' = identityKey v := fun v v' hv =>
    congrArg (fun profile : Profile => (profile.metadata.identity, profile.isPreactive)) hv
  cases heffect with
  | register _ _ hset =>
    obtain ⟨-, -, -, -, -, rfl⟩ := requestAddValidatorCandidate_eq_ok hset
    exact ⟨h.distinct, h.activated⟩
  | removeCandidate hset =>
    obtain ⟨v, -, -, -, -, rfl⟩ := requestRemoveValidatorCandidate_eq_ok hset
    exact ⟨h.distinct, h.activated⟩
  | join hset => exact h.join hset
  | requestRemoval hset =>
    obtain ⟨index, -, -, rfl⟩ := requestRemoveValidator_eq_ok hset
    exact ⟨h.distinct, h.activated⟩
  | addStake hset =>
      exact h.agree (agree_requestAddStake
        (fun v v' _ hv => hprof v v' (requestAddStake_kept hv).1) hset)
  | withdraw _ _ hset =>
    exact h.agree (agree_requestWithdrawStake
      (fun v v' _ hv => hprof v v' (requestWithdrawStake_kept hv).1) hset)
  | report | undoReport | safeMode => exact h
  | settings hagr => exact h.agree (hagr.of_eq hcontent)
  | stage hupd hset hchk =>
    exact h.stage (fun v v' hv => congrArg StakingPool.isPreactive (hupd v v' hv).2.1) hset hchk
  | updateCandidate hcall hupd hpre hset => exact h.updateCandidate hpre (hall hcall) hset
  | advance _ _ hset =>
    obtain ⟨parts, -, hadv⟩ := advanceEpoch_eq_ok hset
    exact h.advanceEpoch hadv

variable {genesisValidators : List SuiSystemState.GenesisValidator}

lemma pairwise_addGenesisValidator {validators : List Validator}
    (h : genesisValidators.foldlM (SuiSystemState.addGenesisValidator validateMetadata) [] =
      .ok validators) :
    (validators.map fun v => v.metadata.identity).Pairwise Identity.Distinct := by
  refine foldlM_ok_induction (fun validators : List Validator =>
    (validators.map fun v => v.metadata.identity).Pairwise Identity.Distinct)
    ?_ List.Pairwise.nil h
  rintro validators genesisValidator validators' - hpw hstep
  obtain ⟨v, -, hstep⟩ := bind_eq_ok.mp hstep
  obtain ⟨hdup, hstep⟩ := check_bind_eq_ok.mp hstep
  cases hstep
  have hnone : countDuplicates validators v = 0 := by
    simpa [isDuplicateValidator] using hdup
  rw [pairwise_map] at hpw ⊢
  refine pairwise_append.mpr ⟨hpw, pairwise_singleton _ _, fun w hw u hu => ?_⟩
  obtain rfl := mem_singleton.mp hu
  exact distinct_of_countDuplicates hnone w hw

lemma distinctIdentities_create {allocations : List (SuiAddress × ℕ)}
    {parameters : SystemParameters}
    (h : SuiSystemState.create validateMetadata genesisValidators allocations parameters =
      .ok (state, stakes)) :
    state.validators.DistinctIdentities := by
  obtain ⟨registered, allocated, activated, mappings, active, hregd, halloc, hactd, -, hact, rfl⟩ :=
    SuiSystemState.create_eq_ok h
  have hprofs : active.map profile = registered.map fun v => v.profile.activated := by
    have halloc :=
      SuiSystemState.allocateTokens_map
        (fun v v' amount s hv => requestAddStakeAtGenesis_profile hv) halloc
    rw [map_eq_of_forall₂ (f := profile) (fun v v' hv => ?_)
      (VotingPower.setVotingPower_eq_ok hact), map_profile_activate hactd]
    · have hmap := congrArg (List.map Profile.activated) halloc
      rw [map_map, map_map] at hmap
      exact hmap
    · obtain ⟨power, rfl⟩ := hv
      rfl
  constructor
  · have hmap := congrArg (List.map fun profile : Profile => profile.metadata.identity) hprofs
    rw [map_map, map_map] at hmap
    unfold identities
    rw [append_nil]
    exact hmap ▸ pairwise_addGenesisValidator hregd
  · intro v hv
    have hmem := mem_map_of_mem (f := profile) hv
    rw [hprofs] at hmem
    obtain ⟨w, -, heq⟩ := mem_map.mp hmem
    exact (congrArg Profile.isPreactive heq).symm

lemma distinctIdentities_run {outstanding : Multiset StakedSui} (h : SystemRun validateMetadata
      (fun state sender call _ => UpdatesByCandidates state sender call) state outstanding) :
    state.validators.DistinctIdentities := by
  induction h with
  | genesis h => exact distinctIdentities_create h
  | call _ _ _ hexec hall ih =>
      exact distinctIdentities_effect ih hall (SuiSystemState.execute_outcome hexec).effect
  | split _ _ ih | join _ _ ih => exact ih

/-- Active and pending validators share no identity data, in runs in which no pending validator
updates its current data as if it were a candidate. -/
theorem identities_pairwise_distinct {outstanding : Multiset StakedSui}
    (h : SystemRun validateMetadata
      (fun state sender call _ => UpdatesByCandidates state sender call) state outstanding) :
    state.validators.identities.Pairwise Identity.Distinct :=
  (distinctIdentities_run h).distinct

def joiningScript : List (SuiAddress × Call) :=
  [(2, .requestAddValidatorCandidate (sampleRegistration 2) 2 2),
    (2, .updateCandidateValidatorNetworkAddress [3]),
    (3, .requestAddStake 30000000000 2), (2, .requestAddValidator)]

/-- A candidate changes its network address and joins. -/
theorem identities_pairwise_distinct_joining :
    ∃ state outstanding, SystemRun (fun _ => true)
      (fun state sender call _ => UpdatesByCandidates state sender call) state outstanding ∧
      state.validators.identities.map Identity.netAddresses = [[[1]], [[3]]] ∧
      state.validators.identities.Pairwise Identity.Distinct := by
  obtain ⟨result, hresult, hnet⟩ := (Option.any_eq_true _ _).mp
    (by decide +kernel : (runScript
        (fun state sender call => decide (UpdatesByCandidates state sender call)) sampleGenesis
        joiningScript).any
      (fun result => result.1.validators.identities.map Identity.netAddresses = [[[1]], [[3]]]) = true)
  have hrun : SystemRun (fun _ => true)
      (fun state sender call _ => UpdatesByCandidates state sender call) result.1 result.2 := by
    refine systemRun_of_runScript ?_ hresult
    intro _ _ _ _ h
    exact of_decide_eq_true h
  exact ⟨result.1, result.2, hrun, of_decide_eq_true hnet, identities_pairwise_distinct hrun⟩

/-- A pending validator takes the address of an active one. -/
theorem pending_takes_active_address :
    ∃ state outstanding, SystemRun (fun _ => true) (fun _ _ _ _ => True) state outstanding ∧
      state.validators.identities.map Identity.netAddresses = [[[1]], [[1]]] ∧
      ¬state.validators.identities.Pairwise Identity.Distinct := by
  obtain ⟨result, hresult, hnet⟩ := (Option.any_eq_true _ _).mp
    (by decide +kernel : (runScript (fun _ _ _ => true) sampleGenesis
        (joiningScript ++ [(2, .updateCandidateValidatorNetworkAddress [1])])).any
      (fun result => result.1.validators.identities.map Identity.netAddresses = [[[1]], [[1]]]) = true)
  have hnet := of_decide_eq_true hnet
  refine ⟨result.1, result.2, systemRun_of_runScript (fun _ _ _ _ _ => trivial) hresult, hnet,
    fun hpairwise => ?_⟩
  have hdisjoint := (hpairwise.imp fun h => h.netAddresses)
  rw [← pairwise_map (R := List.Disjoint), hnet] at hdisjoint
  simp at hdisjoint

end SuiProofs.SuiSystem

import SuiProofs.SuiSystem.Roster

namespace SuiProofs.SuiSystem

open Library ValidatorSet List Validator

/-- A record about validators with `P`, by reporters with `P`. The reporters form a set. -/
structure RecordAmong (P : SuiAddress → Prop) (record : SuiAddress × List SuiAddress) : Prop where
  reported : P record.1
  reporters : ∀ reporter ∈ record.2, P reporter
  nonempty : record.2 ≠ []
  nodup : record.2.Nodup

def RecordsAmong (P : SuiAddress → Prop) (records : ReportRecords) : Prop :=
  ∀ record ∈ records, RecordAmong P record

section Records

variable {P Q : SuiAddress → Prop} {records records' : ReportRecords} {reporter reportee a : SuiAddress}

section

variable (h : RecordsAmong P records)
include h

lemma RecordsAmong.mono (hPQ : ∀ a, P a → Q a) : RecordsAmong Q records := by
  intro record hrec
  obtain ⟨hrepd, hreprs, hne, hnd⟩ := h record hrec
  exact ⟨hPQ _ hrepd, fun reporter hrepr => hPQ _ (hreprs reporter hrepr), hne, hnd⟩

lemma RecordsAmong.addReport (hrepr : P reporter) (hrepe : P reportee) :
    RecordsAmong P (SuiSystemState.addReport records reporter reportee) := by
  unfold SuiSystemState.addReport
  split_ifs
  · intro record hrec
    obtain ⟨old, hold, rfl⟩ := mem_map.mp hrec
    obtain ⟨hrepd, hreprs, hne, hnd⟩ := h old hold
    split_ifs with hcond
    · have hnew : reporter ∉ old.2 := by simpa using hcond.2
      refine ⟨hrepd, forall_mem_concat hreprs hrepr, by simp, ?_⟩
      · refine nodup_append.mpr ⟨hnd, nodup_singleton _, fun b hb c hc => ?_⟩
        rintro rfl
        exact hnew (mem_singleton.mp hc ▸ hb)
    · exact ⟨hrepd, hreprs, hne, hnd⟩
  · intro record hrec
    rcases mem_append.mp hrec with hrec | hrec
    · exact h record hrec
    · obtain rfl := mem_singleton.mp hrec
      refine ⟨hrepe, fun b hb => ?_, by simp, nodup_singleton _⟩
      exact mem_singleton.mp hb ▸ hrepr

omit h in
lemma RecordAmong.erase {record : SuiAddress × List SuiAddress} (h : RecordAmong P record)
    (hrest : (record.2.erase a).isEmpty = false) :
    RecordAmong P (record.1, record.2.erase a) where
  reported := h.reported
  reporters := fun reporter hrepr => h.reporters reporter (mem_of_mem_erase hrepr)
  nonempty := by simpa using hrest
  nodup := h.nodup.erase a

lemma RecordsAmong.removeReport
    (hrem : SuiSystemState.removeReport records reporter reportee = .ok records') :
    RecordsAmong P records' := by
  unfold SuiSystemState.removeReport at hrem
  split at hrem
  · cases hrem
  rename_i reporters hlk
  obtain ⟨_, -, hrem⟩ := bind_eq_ok.mp hrem
  cases hrem
  have hmem : (reportee, reporters) ∈ records := by
    obtain ⟨first, rest, hrecs, -⟩ := lookup_eq_some_iff.mp hlk
    simp [hrecs]
  intro record hrec
  split_ifs at hrec with hemp
  · exact h record (mem_of_mem_filter hrec)
  · obtain ⟨old, hold, rfl⟩ := mem_map.mp hrec
    split_ifs with heq
    · have herase := (h _ hmem).erase (a := reporter) (Bool.eq_false_of_not_eq_true hemp)
      exact heq ▸ herase
    · exact h old hold

lemma RecordsAmong.clean :
    RecordsAmong (fun b => P b ∧ b ≠ a) (cleanReportRecordsLeavingValidator records a) := by
  intro record hrec
  obtain ⟨old, hold, hcln⟩ := mem_filterMap.mp hrec
  obtain ⟨hold, hne⟩ := mem_filter.mp hold
  have hne : old.1 ≠ a := of_decide_eq_true hne
  have hamong := h old hold
  dsimp only at hcln
  split_ifs at hcln with hcont hemp
  · cases hcln
    have herase := hamong.erase (a := a) (Bool.eq_false_of_not_eq_true hemp)
    refine ⟨⟨herase.reported, hne⟩, fun b hb => ⟨herase.reporters b hb, ?_⟩,
      herase.nonempty, herase.nodup⟩
    rintro rfl
    exact hamong.nodup.not_mem_erase hb
  · cases hcln
    refine ⟨⟨hamong.reported, hne⟩, fun b hb => ⟨hamong.reporters b hb, ?_⟩,
      hamong.nonempty, hamong.nodup⟩
    rintro rfl
    exact hcont (contains_iff_mem.mpr hb)

lemma RecordsAmong.clean_all (leaving : List Validator) :
    RecordsAmong (fun b => P b ∧ b ∉ leaving.map suiAddress)
      (leaving.foldl (fun records v => cleanReportRecordsLeavingValidator records v.suiAddress)
        records) := by
  induction leaving generalizing P records with
  | nil => exact h.mono fun a ha => ⟨ha, by simp⟩
  | cons v leaving ih =>
    refine (ih (h.clean (a := v.suiAddress))).mono ?_
    rintro b ⟨⟨hb, hne⟩, hnot⟩
    exact ⟨hb, by simp [hne, hnot]⟩

end

end Records

namespace ValidatorSet

variable {set : ValidatorSet} {records : ReportRecords}

def IsActive (set : ValidatorSet) (address : SuiAddress) : Prop :=
  address ∈ set.activeValidators.map Validator.suiAddress

variable {address : SuiAddress}

lemma isActive_iff : set.IsActive address ↔ ∃ v ∈ set.activeValidators, v.suiAddress = address := mem_map

lemma isActiveValidatorBySuiAddress_iff : set.isActiveValidatorBySuiAddress address = true ↔
    set.IsActive address := by
  unfold isActiveValidatorBySuiAddress findValidator
  rw [List.findIdx?_isSome, any_eq_true, isActive_iff]
  simp

lemma getValidatorRef_total (h : set.IsActive address) :
    ∃ v, getValidatorRef set.activeValidators address = .ok v := by
  obtain ⟨v, hv, haddr⟩ := isActive_iff.mp h
  unfold getValidatorRef
  cases hfind : set.activeValidators.find? fun v => v.suiAddress = address with
  | none => exact absurd haddr (by simpa using List.find?_eq_none.mp hfind v hv)
  | some w => exact ⟨w, rfl⟩

lemma isActive_of_verifyCap {cap : UnverifiedValidatorOperationCap}
    (h : set.verifyCap cap .activeOnly = .ok address) :
    set.IsActive address := by
  obtain ⟨v, hv, h⟩ := bind_eq_ok.mp h
  obtain ⟨_, -, h⟩ := bind_eq_ok.mp h
  cases h
  unfold getValidatorRef at hv
  cases hfind : set.activeValidators.find? fun v => v.suiAddress = cap.authorizerValidatorAddress with
  | none =>
    rw [hfind] at hv
    cases hv
  | some w => exact isActive_iff.mpr ⟨w,
      mem_of_find?_eq_some hfind, by simpa using List.find?_some hfind⟩

lemma computeSlashedValidators_total (h : RecordsAmong set.IsActive records) :
    ∃ slashed, set.computeSlashedValidators records = .ok slashed := by
  have hslashed : ∀ record ∈ records.reverse, set.isSlashed record =
      .ok ((set.isSlashed record).toOption.getD false) := by
    intro record hrec
    obtain ⟨hrepd, hreprs, -, -⟩ := h record (mem_reverse.mp hrec)
    obtain ⟨validators, hvals, -⟩ :=
      mapM_total fun address haddr => getValidatorRef_total (hreprs address haddr)
    have hact := isActiveValidatorBySuiAddress_iff.mpr hrepd
    unfold isSlashed sumVotingPowerByAddresses
    rw [hvals, hact]
    rfl
  unfold computeSlashedValidators
  rw [filterM_eq_ok hslashed]
  exact ⟨_, rfl⟩

lemma isActive_iff_roster : set.IsActive address ↔ address ∈ set.roster.active.map Prod.fst := by
  unfold IsActive roster
  rw [map_map]
  rfl

lemma records_advance {before after : WithRecords} {epoch : ℕ} {stakes : List StakedSui}
    {parts : EpochParts}
    (hadv : Advanced before after epoch stakes parts) (h : RecordsAmong before.1.IsActive before.2) :
    RecordsAmong after.1.IsActive after.2 := by
  have hents := hadv.entry_active
  have hprocd := hadv.settled.entry_processed
  obtain rfl := hadv.after_eq
  have hcln := h.clean_all parts.leaving
  rw [hadv.departs.records]
  refine hcln.mono ?_
  rintro a ⟨ha, hnot⟩
  have haddrs : parts.active.map suiAddress = parts.departed.1.activeValidators.map suiAddress :=
    map_eq_of_map_eq (fun _ _ hv => congrArg Prod.fst hv) hents
  have hstill : parts.processed.map suiAddress = before.1.activeValidators.map suiAddress :=
    map_eq_of_map_eq (fun _ _ hv => congrArg Prod.fst hv) hprocd
  have hold : a ∈ (parts.processed ++ parts.joining).map suiAddress := by
    rw [map_append, hstill]
    exact mem_append_left _ ha
  have hmem := (hadv.departs.perm.map suiAddress).mem_iff.mpr hold
  rw [map_append] at hmem
  rcases mem_append.mp hmem with hmem | hmem
  · unfold IsActive
    rw [haddrs]
    exact hmem
  · exact absurd hmem hnot

end ValidatorSet

section Runs

variable {validateMetadata : ValidatorMetadata → Bool} {state state' : SuiSystemState}
  {sender : SuiAddress} {call : Call} {stakes : List StakedSui}

lemma records_effect (h : RecordsAmong state.validators.IsActive state.validatorReportRecords)
    (heffect : Effect validateMetadata state sender call state' stakes) :
    RecordsAmong state'.validators.IsActive state'.validatorReportRecords := by
  have hinPlace : ∀ {set : ValidatorSet}, Agree stamp state.validators set →
      RecordsAmong set.IsActive state.validatorReportRecords :=
    fun hset => h.mono fun a ha => by
      rwa [isActive_iff_roster, roster_eq_of_agree hset, ← isActive_iff_roster]
  cases heffect with
  | register _ _ hset =>
    obtain ⟨-, -, -, -, -, rfl⟩ := requestAddValidatorCandidate_eq_ok hset
    exact h
  | removeCandidate hset =>
    obtain ⟨v, -, -, -, -, rfl⟩ := requestRemoveValidatorCandidate_eq_ok hset
    exact h
  | join hset =>
    obtain ⟨v, -, -, -, -, -, rfl⟩ := requestAddValidator_eq_ok hset
    exact h
  | requestRemoval hset =>
    obtain ⟨index, -, -, rfl⟩ := requestRemoveValidator_eq_ok hset
    exact h
  | addStake hset => exact hinPlace (stamp_addStake hset)
  | withdraw _ _ hset => exact hinPlace (stamp_withdraw hset)
  | report hrepe hrepr =>
      exact h.addReport (isActive_of_verifyCap hrepr) (isActiveValidatorBySuiAddress_iff.mp hrepe)
  | undoReport hrem => exact h.removeReport hrem
  | settings hagr => exact hinPlace (stamp_settings hagr)
  | stage hupd hset _ => exact hinPlace (stamp_stage hupd hset)
  | updateCandidate _ hupd _ hset => exact hinPlace (stamp_updateCandidate hupd hset)
  | advance _ _ hset =>
    obtain ⟨parts, -, hadv⟩ := advanceEpoch_eq_ok hset
    exact records_advance hadv h
  | safeMode => exact h

lemma records_run {allowed : SuiSystemState → SuiAddress → Call → SuiSystemState → Prop}
    {outstanding : Multiset StakedSui} (h : SystemRun validateMetadata allowed state outstanding) :
    RecordsAmong state.validators.IsActive state.validatorReportRecords := by
  induction h with
  | genesis h =>
    obtain ⟨_, _, _, _, _, -, -, -, -, -, rfl⟩ := SuiSystemState.create_eq_ok h
    intro record hrec
    simp at hrec
  | call _ _ _ hexec _ ih => exact records_effect ih (SuiSystemState.execute_outcome hexec).effect
  | split _ _ ih | join _ _ ih => exact ih

/-- In every reachable state the validators are partitioned and the records are about
active ones. -/
theorem partition_and_records {outstanding : Multiset StakedSui}
    (h : SystemRun validateMetadata (fun _ _ _ _ => True) state outstanding) :
    state.validators.roster.Partition ∧
      RecordsAmong state.validators.IsActive state.validatorReportRecords ∧
      ∃ slashed, state.validators.computeSlashedValidators state.validatorReportRecords = .ok slashed :=
  ⟨partition_run h, records_run h, computeSlashedValidators_total (records_run h)⟩

/-- One of two validators is reported and leaves, while a candidate registers. -/
theorem partition_and_records_reported :
    ∃ state outstanding, SystemRun (fun _ => true) (fun _ _ _ _ => True) state outstanding ∧
      (state.validatorReportRecords = [(2, [1])] ∧ state.validators.pendingRemovals = [1] ∧
        state.validators.validatorCandidates.keys = [3]) ∧
      state.validators.roster.Partition ∧
        RecordsAmong state.validators.IsActive state.validatorReportRecords ∧
      ∃ slashed, state.validators.computeSlashedValidators state.validatorReportRecords =
        .ok slashed := by
  obtain ⟨result, hresult, hstate⟩ := (Option.any_eq_true _ _).mp
    (by decide +kernel : (runScript (fun _ _ _ => true) sampleGenesisPair
      [(3, .requestAddValidatorCandidate (sampleRegistration 3) 3 3),
        (1, .reportValidator ⟨1, 1⟩ 2), (2, .requestRemoveValidator)]).any
      (fun result => result.1.validatorReportRecords = [(2, [1])] ∧
        result.1.validators.pendingRemovals = [1] ∧
        result.1.validators.validatorCandidates.keys = [3]) = true)
  have hrun : SystemRun (fun _ => true) (fun _ _ _ _ => True) result.1 result.2 :=
    systemRun_of_runScript (fun _ _ _ _ _ => trivial) hresult
  exact ⟨result.1, result.2, hrun, of_decide_eq_true hstate, partition_and_records hrun⟩

end Runs

end SuiProofs.SuiSystem

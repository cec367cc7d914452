import SuiProofs.SuiSystem.DistinctValidators

namespace SuiProofs.SuiSystem

open Library List Function Std Validator

abbrev Entry := SuiAddress × ID

/-- Where each validator of the set is, by address and pool id. -/
@[ext]
structure Roster where
  active : List Entry
  pending : List Entry
  candidates : SuiAddress → Option Entry
  mappings : ID → Option SuiAddress
  inactive : ID → Option ID
  removals : List ℕ

namespace Roster

def joined (r : Roster) : List Entry := r.active ++ r.pending

/-- Each address is in one place, the mappings are those of the three places, and each id is mapped
or inactive. -/
structure Partition (r : Roster) : Prop where
  addresses : (r.joined.map Prod.fst).Nodup
  candidates : ∀ a e, r.candidates a = some e → e.1 = a ∧ a ∉ r.joined.map Prod.fst
  mappings : ∀ id a, r.mappings id = some a ↔ (a, id) ∈ r.joined ∨ r.candidates a = some (a, id)
  inactive : ∀ id id', r.inactive id = some id' → id' = id ∧ r.mappings id = none
  removals_nodup : r.removals.Nodup
  removals_lt : ∀ index ∈ r.removals, index < r.active.length

/-- What calls and epoch changes do to the places. -/
inductive Step : Roster → Roster → Prop where
  | register {r : Roster} {a : SuiAddress} {id : ID} (hjoined : a ∉ r.joined.map Prod.fst)
      (hcandidate : r.candidates a = none)
      (hmapping : r.mappings id = none) (hinactive : r.inactive id = none) :
      Step r { r with
        candidates := update r.candidates a (some (a, id))
        mappings := update r.mappings id (some a) }
  | removeCandidate {r : Roster} {a : SuiAddress} {e : Entry} (hcandidate : r.candidates a = some e) :
      Step r { r with
        candidates := update r.candidates a none
        mappings := update r.mappings e.2 none
        inactive := update r.inactive e.2 (some e.2) }
  | join {r : Roster} {a : SuiAddress} {e : Entry} (hcandidate : r.candidates a = some e) :
      Step r { r with candidates := update r.candidates a none, pending := r.pending ++ [e] }
  | requestRemoval {r : Roster} {index : ℕ} (hlt : index < r.active.length) (hnew : index ∉ r.removals) :
      Step r { r with removals := r.removals ++ [index] }
  | epochChange {r : Roster} {active leaving : List Entry} (hperm : (active ++ leaving).Perm r.joined) :
      Step r { r with
        active, pending := [], removals := []
        mappings := fun id => if id ∈ leaving.map Prod.snd then none else r.mappings id
        inactive := fun id => if id ∈ leaving.map Prod.snd then some id else r.inactive id }

variable {r r' : Roster} {a b : SuiAddress} {id : ID}

namespace Partition

lemma mapping_of_mem (h : r.Partition) (hmem : (a, id) ∈ r.joined) : r.mappings id = some a :=
  (h.mappings id a).mpr (.inl hmem)

variable {e : Entry}

section

variable (h : r.Partition)

include h

lemma mapping_of_candidate (hcand : r.candidates a = some e) : r.mappings e.2 = some a := by
  obtain ⟨rfl, -⟩ := h.candidates a e hcand
  exact (h.mappings e.2 e.1).mpr (.inr hcand)

lemma address_unique (ha : (a, id) ∈ r.joined) (hb : (b, id) ∈ r.joined) : a = b :=
  Option.some.inj ((h.mapping_of_mem ha).symm.trans (h.mapping_of_mem hb))

lemma ids_nodup : (r.joined.map Prod.snd).Nodup := by
  have haddrs := h.addresses
  rw [List.Nodup, pairwise_map] at haddrs ⊢
  refine haddrs.imp_of_mem ?_
  rintro ⟨a, id⟩ ⟨b, id'⟩ ha hb hne heq
  obtain rfl : id = id' := heq
  exact hne (h.address_unique ha hb)

lemma register (hjnd : a ∉ r.joined.map Prod.fst) (hcand : r.candidates a = none)
    (hmapp : r.mappings id = none) (hina : r.inactive id = none) :
    Partition { r with
      candidates := update r.candidates a (some (a, id))
      mappings := update r.mappings id (some a) } where
  addresses := h.addresses
  candidates := by
    intro b e hb
    dsimp only at hb
    rw [update_apply] at hb
    split_ifs at hb with hba
    · cases hb
      exact ⟨hba.symm, hba ▸ hjnd⟩
    · exact h.candidates b e hb
  mappings := by
    intro id' b
    dsimp only
    rw [update_apply, update_apply]
    by_cases hid : id' = id
    · subst hid
      rw [if_pos rfl]
      have hnone : ∀ c, (c, id') ∉ r.joined := fun c hc => by simp [h.mapping_of_mem hc] at hmapp
      constructor
      · intro hb
        cases hb
        exact .inr (if_pos rfl)
      · rintro (hb | hb)
        · exact absurd hb (hnone b)
        · split_ifs at hb with hba
          · rw [hba]
          · simp [h.mapping_of_candidate hb] at hmapp
    · rw [if_neg hid, h.mappings id' b]
      refine or_congr_right ?_
      split_ifs with hba
      · subst hba
        simp [hcand, Ne.symm hid]
      · rfl
  inactive := by
    intro id' id'' hid
    obtain ⟨heq, hnone⟩ := h.inactive id' id'' hid
    refine ⟨heq, ?_⟩
    dsimp only at hid ⊢
    have hne : id' ≠ id := by
      rintro rfl
      simp [hina] at hid
    rw [update_of_ne hne, hnone]
  removals_nodup := h.removals_nodup
  removals_lt := h.removals_lt

lemma removeCandidate (hcand : r.candidates a = some e) :
    Partition { r with
      candidates := update r.candidates a none
      mappings := update r.mappings e.2 none
      inactive := update r.inactive e.2 (some e.2) } where
  addresses := h.addresses
  candidates := by
    intro b e' hb
    dsimp only at hb
    rw [update_apply] at hb
    split_ifs at hb
    exact h.candidates b e' hb
  mappings := by
    intro id b
    obtain ⟨rfl, hnot⟩ := h.candidates a e hcand
    have hmapp := h.mapping_of_candidate hcand
    dsimp only
    rw [update_apply, update_apply]
    by_cases hid : id = e.2
    · subst hid
      refine iff_of_false (by simp) ?_
      rintro (hb | hb)
      · have heq : b = e.1 := Option.some.inj ((h.mapping_of_mem hb).symm.trans hmapp)
        exact hnot (heq ▸ mem_map_of_mem hb)
      · split_ifs at hb with hba
        have heq : b = e.1 := Option.some.inj ((h.mapping_of_candidate hb).symm.trans hmapp)
        exact hba heq
    · rw [if_neg hid, h.mappings id b]
      refine or_congr_right ?_
      split_ifs with hba
      · subst hba
        rw [hcand]
        refine iff_of_false (fun heq => hid ?_) (by simp)
        exact (congrArg Prod.snd (Option.some.inj heq)).symm
      · rfl
  inactive := by
    intro id id' hid
    dsimp only at hid ⊢
    rw [update_apply] at hid ⊢
    split_ifs at hid ⊢ with heq
    · cases hid
      exact ⟨heq.symm, rfl⟩
    · exact h.inactive id id' hid
  removals_nodup := h.removals_nodup
  removals_lt := h.removals_lt

lemma join (hcand : r.candidates a = some e) :
    Partition { r with candidates := update r.candidates a none, pending := r.pending ++ [e] } := by
  obtain ⟨rfl, hnot⟩ := h.candidates a e hcand
  have hjnd : joined { r with candidates := update r.candidates e.1 none, pending := r.pending ++
      [e] } = r.joined ++ [e] :=
    (append_assoc _ _ _).symm
  refine ⟨?_, ?_, ?_, h.inactive, h.removals_nodup, h.removals_lt⟩
  · rw [hjnd, map_append]
    exact nodup_append.mpr ⟨h.addresses, nodup_singleton _, fun b hb c hc => by
      rintro rfl
      obtain rfl := mem_singleton.mp hc
      exact hnot hb⟩
  · intro b e' hb
    dsimp only at hb
    rw [update_apply] at hb
    split_ifs at hb with hba
    obtain ⟨heq, hbnot⟩ := h.candidates b e' hb
    refine ⟨heq, ?_⟩
    rw [hjnd, map_append, mem_append, not_or]
    exact ⟨hbnot, fun hmem => hba (mem_singleton.mp hmem)⟩
  · intro id b
    rw [hjnd, mem_append, mem_singleton, or_assoc]
    dsimp only
    rw [h.mappings id b, update_apply]
    refine or_congr_right ?_
    by_cases hba : b = e.1
    · subst hba
      simp [hcand, eq_comm]
    · have hne : (b, id) ≠ e := fun heq => hba (congrArg Prod.fst heq)
      simp [hba, hne]

lemma requestRemoval {index : ℕ} (hlt : index < r.active.length) (hnew : index ∉ r.removals) :
    Partition { r with removals := r.removals ++ [index] } := by
  refine ⟨h.addresses, h.candidates, h.mappings, h.inactive, ?_, ?_⟩
  · refine nodup_append.mpr ⟨h.removals_nodup, nodup_singleton _, fun i hi j hj => ?_⟩
    rintro rfl
    exact hnew (mem_singleton.mp hj ▸ hi)
  · exact forall_mem_concat h.removals_lt hlt

lemma epochChange {active leaving : List Entry} (hperm : (active ++ leaving).Perm r.joined) :
    Partition { r with
      active, pending := [], removals := []
      mappings := fun id => if id ∈ leaving.map Prod.snd then none else r.mappings id
      inactive := fun id => if id ∈ leaving.map Prod.snd then some id else r.inactive id } := by
  have hnd : ((active ++ leaving).map Prod.fst).Nodup := (hperm.map _).nodup_iff.mpr h.addresses
  rw [map_append, nodup_append] at hnd
  obtain ⟨hact, -, hapart⟩ := hnd
  have hmem : ∀ e, e ∈ r.joined ↔
    e ∈ active ∨ e ∈ leaving := fun e => by rw [← hperm.mem_iff, mem_append]
  -- The pool of a validator that stays or is a candidate is not the pool of one that leaves.
  have hstays : ∀ id b, (b, id) ∈ active ∨ r.candidates b = some (b, id) →
      id ∉ leaving.map Prod.snd := by
    rintro id b hb hid
    obtain ⟨⟨c, id'⟩, hc, rfl⟩ := mem_map.mp hid
    have hcmap := h.mapping_of_mem ((hmem _).mpr (.inr hc))
    rcases hb with hb | hb
    · have heq : c = b := h.address_unique ((hmem _).mpr (.inr hc)) ((hmem _).mpr (.inl hb))
      exact hapart b (mem_map_of_mem hb) c (mem_map_of_mem hc) heq.symm
    · have heq : c = b := Option.some.inj (hcmap.symm.trans (h.mapping_of_candidate hb))
      exact (h.candidates b _ hb).2 (heq ▸ mem_map_of_mem ((hmem _).mpr (.inr hc)))
  refine ⟨?_, ?_, ?_, ?_, nodup_nil, by simp⟩
  · unfold joined
    rwa [append_nil]
  · intro b e hb
    obtain ⟨heq, hnot⟩ := h.candidates b e hb
    refine ⟨heq, fun hin => hnot ?_⟩
    unfold joined at hin
    rw [append_nil] at hin
    exact (hperm.map Prod.fst).mem_iff.mp (by rw [map_append]; exact mem_append_left _ hin)
  · intro id b
    unfold joined
    rw [append_nil]
    dsimp only
    by_cases hid : id ∈ leaving.map Prod.snd
    · rw [if_pos hid]
      exact iff_of_false (by simp) fun hb => hstays id b hb hid
    · rw [if_neg hid, h.mappings id b, hmem]
      have hnot : (b, id) ∉ leaving := fun hin => hid (mem_map_of_mem hin)
      simp [hnot]
  · intro id id' hin
    dsimp only at hin ⊢
    split_ifs at hin ⊢ with hid
    · exact ⟨(Option.some.inj hin).symm, rfl⟩
    · exact h.inactive id id' hin

lemma step (hstep : r.Step r') : r'.Partition := by
  cases hstep with
  | register hjnd hcand hmapp hina => exact h.register hjnd hcand hmapp hina
  | removeCandidate hcand => exact h.removeCandidate hcand
  | join hcand => exact h.join hcand
  | requestRemoval hlt hnew => exact h.requestRemoval hlt hnew
  | epochChange hperm => exact h.epochChange hperm

end

end Partition

end Roster

def Validator.entry (v : Validator) : Entry := (v.suiAddress, v.stakingPoolId)

namespace ValidatorSet

def roster (set : ValidatorSet) : Roster where
  active := set.activeValidators.map Validator.entry
  pending := set.pendingActiveValidators.map Validator.entry
  candidates := fun address => set.validatorCandidates[address]?.map Validator.entry
  mappings := fun id => set.stakingPoolMappings[id]?
  inactive := fun id => set.inactiveValidators[id]?.map Validator.stakingPoolId
  removals := set.pendingRemovals

variable {set set' : ValidatorSet}

lemma joined_roster : set.roster.joined =
    (set.activeValidators ++ set.pendingActiveValidators).map entry :=
  (map_append ..).symm

lemma addresses_roster : set.roster.joined.map Prod.fst =
    (set.activeValidators ++ set.pendingActiveValidators).map suiAddress := by
  rw [joined_roster, map_map]
  rfl

lemma roster_eq_of_agree (hstamp : Agree stamp set set') : set'.roster = set.roster := by
  have h : Agree entry set set' := hstamp.of_eq fun _ _ hv =>
    congrArg (fun stamp : SuiAddress × ID × Bool × Bool => (stamp.1, stamp.2.1)) hv
  have hina : ∀ id : ID, set'.inactiveValidators[id]?.map stakingPoolId =
      set.inactiveValidators[id]?.map stakingPoolId :=
    fun id => option_map_eq_of_map_eq (fun v v' hv => congrArg Prod.snd hv) (h.inactive id)
  ext1
  · exact h.active
  · exact h.pending
  · funext address
    exact h.candidates address
  · funext id
    exact congrArg (fun table : TreeMap ID SuiAddress => table[id]?) h.mappings
  · funext id
    exact hina id
  · exact h.removals

variable {α β : Type} {f : α → β}

section

variable (table : TreeMap ℕ α)

lemma update_insert (key : ℕ) (value : α) :
    (fun key' => (table.insert key value)[key']?.map f) =
      update (fun key' => table[key']?.map f) key (some (f value)) := by
  funext key'
  rw [getElem?_insert_ite, update_apply]
  by_cases heq : key = key'
  · simp [heq]
  · simp [heq, Ne.symm heq]

lemma update_erase (key : ℕ) :
    (fun key' => (table.erase key)[key']?.map f) = update (fun key' => table[key']?.map f) key none := by
  funext key'
  rw [getElem?_erase_ite, update_apply]
  by_cases heq : key = key'
  · simp [heq]
  · simp [heq, Ne.symm heq]

lemma update_insert_self (key : ℕ) (value : α) :
    (fun key' => (table.insert key value)[key']?) = update (fun key' => table[key']?) key
      (some value) := by
  simpa using update_insert (f := id) table key value

lemma update_erase_self (key : ℕ) :
    (fun key' => (table.erase key)[key']?) = update (fun key' => table[key']?) key none := by
  simpa using update_erase (f := id) table key

end

variable {v : Validator}

lemma not_mem_addresses (hact : countDuplicates set.activeValidators v = 0)
    (hpend : countDuplicates set.pendingActiveValidators v = 0) :
    v.suiAddress ∉ set.roster.joined.map Prod.fst := by
  rw [addresses_roster]
  intro hmem
  obtain ⟨w, hw, heq⟩ := mem_map.mp hmem
  rcases mem_append.mp hw with hw | hw
  · exact (distinct_of_countDuplicates hact w hw).suiAddress heq
  · exact (distinct_of_countDuplicates hpend w hw).suiAddress heq

lemma roster_register {id : ID} (hpool : v.stakingPool = .new id) (hfr : id ∉ set.inactiveValidators)
    (h : set.requestAddValidatorCandidate v = .ok set') :
    set.roster.Step set'.roster := by
  obtain ⟨hact, hpend, hcand, hmapp, -, rfl⟩ := requestAddValidatorCandidate_eq_ok h
  have hnone : ∀ {α : Type} {table : TreeMap ℕ α} {key : ℕ}, table.contains key = false →
    table[key]? = none := fun hkey =>
    TreeMap.getElem?_eq_none fun hmem => Bool.eq_false_iff.mp hkey (TreeMap.contains_iff_mem.mpr hmem)
  have hid : v.stakingPoolId = id := congrArg StakingPool.id hpool
  have hunmapped : set.roster.mappings v.stakingPoolId = none := hnone hmapp
  have hstep :=
    Roster.Step.register (not_mem_addresses hact hpend) (by simp [roster, hnone hcand]) hunmapped
    (by simp [roster, hid, TreeMap.getElem?_eq_none hfr])
  convert hstep using 1
  ext1 <;> try rfl
  · exact update_insert _ _ _
  · exact update_insert_self _ _ _

variable {address : SuiAddress}

lemma roster_removeCandidate {epoch : ℕ}
    (h : set.requestRemoveValidatorCandidate address epoch = .ok set') :
    set.roster.Step set'.roster := by
  obtain ⟨v, hv, -, -, -, rfl⟩ := requestRemoveValidatorCandidate_eq_ok h
  have hstep :=
    Roster.Step.removeCandidate (r := set.roster) (a := address) (e := v.entry)
      (by simp [roster, hv])
  convert hstep using 1
  ext1 <;> try rfl
  · exact update_erase _ _
  · exact update_erase_self _ _
  · exact update_insert _ _ _

lemma roster_join {minJoiningStakeAmount : ℕ}
    (h : set.requestAddValidator minJoiningStakeAmount address = .ok set') :
    set.roster.Step set'.roster := by
  obtain ⟨v, hv, -, -, -, -, rfl⟩ := requestAddValidator_eq_ok h
  have hstep := Roster.Step.join (r := set.roster) (a := address) (e := v.entry) (by simp [roster, hv])
  convert hstep using 1
  ext1 <;> try rfl
  · exact map_append
  · exact update_erase _ _

lemma roster_requestRemoval (h : set.requestRemoveValidator address = .ok set') :
    set.roster.Step set'.roster := by
  obtain ⟨index, hfind, hnew, rfl⟩ := requestRemoveValidator_eq_ok h
  obtain ⟨hlt, -⟩ := List.findIdx?_eq_some_iff_getElem.mp hfind
  exact Roster.Step.requestRemoval (r := set.roster) (by simpa [roster] using hlt) hnew

section EpochChange

variable {epoch : ℕ} {rewards : Rewards} {results : List (Validator × List StakedSui)}
  {processed joining : List Validator}

section

variable (h : Settled set epoch rewards results processed joining)

include h

lemma Settled.entry_processed : processed.map entry = set.activeValidators.map entry :=
  map_eq_of_map_eq (fun _ _ hv =>
    congrArg (fun profile : Profile => (profile.metadata.suiAddress, profile.poolId)) hv)
      h.processed_profile

lemma Settled.entry_joining :
    joining.map entry = set.pendingActiveValidators.reverse.map entry := by
  have hprof :=
    congrArg (List.map fun profile : Profile => (profile.metadata.suiAddress, profile.poolId))
      h.joining_profile
  rw [map_map, map_map] at hprof
  exact hprof

lemma Settled.perm_joined : ((processed ++ joining).map entry).Perm set.roster.joined := by
  rw [map_append, h.entry_processed, h.entry_joining]
  exact ((reverse_perm _).map _).append_left _

end

variable {before after : WithRecords} {epoch : ℕ} {stakes : List StakedSui} {parts : EpochParts}

lemma Advanced.entry_active (h : Advanced before after epoch stakes parts) :
    parts.active.map entry = parts.departed.1.activeValidators.map entry := by
  refine map_eq_of_forall₂ ?_ h.active_forall₂
  rintro v v' ⟨power, metadata, hmeta, rfl⟩
  have haddr := (ValidatorMetadata.within_effectuateStaged hmeta).suiAddress
  exact congrArg (fun address => (address, v.stakingPoolId)) haddr

lemma roster_advance (h : Advanced before after epoch stakes parts) :
    before.1.roster.Step after.1.roster := by
  have hperm : (parts.active.map entry ++ parts.leaving.map entry).Perm before.1.roster.joined := by
    rw [h.entry_active, ← map_append]
    exact (h.departs.perm.map _).trans h.settled.perm_joined
  have hleav : (parts.leaving.map entry).map Prod.snd = parts.leaving.map stakingPoolId := map_map
  have hstep := Roster.Step.epochChange hperm
  convert hstep using 1
  obtain rfl := h.after_eq
  ext1
  · rfl
  · exact congrArg (List.map entry) h.departs.pending
  · funext address
    exact congrArg (fun table : TreeMap SuiAddress Validator => table[address]?.map entry)
      h.departs.candidates
  · funext id
    dsimp only [roster]
    rw [h.departs.mappings id, hleav]
  · funext id
    dsimp only [roster]
    rw [hleav]
    split_ifs with hid
    · obtain ⟨v, hv, rfl⟩ := mem_map.mp hid
      rw [(h.departs.left v hv).2]
      rfl
    · rw [h.departs.inactive id hid]
  · exact h.departs.removals

end EpochChange

end ValidatorSet

open ValidatorSet

section Runs

variable {validateMetadata : ValidatorMetadata → Bool} {state state' : SuiSystemState}
  {sender : SuiAddress} {call : Call} {stakes : List StakedSui}

lemma roster_move {set set' : ValidatorSet} (h : Move set set') :
    set'.roster = set.roster ∨ set.roster.Step set'.roster := by
  cases h with
  | inPlace hagr => exact .inl (roster_eq_of_agree hagr)
  | register hpool hfr hset => exact .inr (roster_register hpool hfr hset)
  | removeCandidate hset => exact .inr (roster_removeCandidate hset)
  | join hset => exact .inr (roster_join hset)
  | requestRemoval hset => exact .inr (roster_requestRemoval hset)
  | advance hadv => exact .inr (roster_advance hadv)

lemma mappings_of_foldlM {validators : List Validator} {table : TreeMap ID SuiAddress}
    (h : validators.foldlM (fun table v => tableAdd table v.stakingPoolId v.suiAddress) ∅ =
      .ok table) (id : ID) (a : SuiAddress) :
    table[id]? = some a ↔ (a, id) ∈ validators.map entry := by
  have hends : Ends (validators.foldlM (fun table v => tableAdd table v.stakingPoolId v.suiAddress)
    (∅ : TreeMap ID SuiAddress))
      (fun _ => True) fun table => ∀ id a, table[id]? = some a ↔ (a, id) ∈ validators.map entry := by
    refine Ends.foldlM (fun done (table : TreeMap ID SuiAddress) =>
      ∀ id a, table[id]? = some a ↔ (a, id) ∈ done.map entry)
      ?_ ?_
    swap
    · intro id a
      simp
    intro done v table _ htb
    refine ⟨fun table' hadd id a => ?_, fun _ _ => trivial⟩
    obtain ⟨hnew, rfl⟩ := tableAdd_eq_ok.mp hadd
    rw [getElem?_insert_ite, map_append, mem_append]
    split_ifs with heq
    · have hnone : ∀ b, (b, id) ∉ done.map entry := by
        intro b hb
        have hin : id ∈ table := mem_map_iff_exists.mpr ⟨b, (htb id b).mpr hb⟩
        exact absurd (TreeMap.contains_iff_mem.mpr hin) (heq ▸ Bool.eq_false_iff.mp hnew)
      simp [hnone, entry, heq, eq_comm]
    · have hne : ∀ b, (b, id) ≠ v.entry := fun b hb => heq (congrArg Prod.snd hb).symm
      simp [htb id a, hne]
  exact hends.1 table h id a

lemma partition_create {genesisValidators : List SuiSystemState.GenesisValidator}
    {allocations : List (SuiAddress × ℕ)} {parameters : SystemParameters}
    (h : SuiSystemState.create validateMetadata genesisValidators allocations parameters =
      .ok (state, stakes)) :
    state.validators.roster.Partition := by
  have hdist := (distinctIdentities_create h).distinct
  obtain ⟨registered, allocated, activated, mappings, active, -, -, -, hmapps, hact, rfl⟩ :=
    SuiSystemState.create_eq_ok h
  have hents : active.map entry = activated.map entry := by
    refine map_eq_of_forall₂ ?_ (VotingPower.setVotingPower_eq_ok hact)
    rintro v v' ⟨power, rfl⟩
    rfl
  refine ⟨?_, by simp [roster], fun id a => ?_, by simp [roster], nodup_nil, by simp [roster]⟩
  · rw [addresses_roster]
    unfold identities at hdist
    rw [pairwise_map] at hdist
    exact pairwise_map.mpr (hdist.imp fun h => h.suiAddress)
  · rw [joined_roster, append_nil, hents, ← mappings_of_foldlM hmapps id a]
    simp [roster]

lemma partition_run {allowed : SuiSystemState → SuiAddress → Call → SuiSystemState → Prop}
    {outstanding : Multiset StakedSui}
    (h : SystemRun validateMetadata allowed state outstanding) : state.validators.roster.Partition := by
  induction h with
  | genesis h => exact partition_create h
  | call _ hfr _ hexec _ ih =>
    rcases roster_move ((SuiSystemState.execute_outcome hexec).effect.move hfr) with heq | hstep
    · exact heq ▸ ih
    · exact ih.step hstep
  | split _ _ ih | join _ _ ih => exact ih

end Runs

end SuiProofs.SuiSystem

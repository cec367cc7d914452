import SuiProofs.SuiSystem.PoolStages
import SuiProofs.SuiSystem.StakeAccounting

namespace SuiProofs.SuiSystem

open Library StakeLedger List Function Validator

def stakesOf (outstanding : Multiset StakedSui) (id : ID) : Multiset StakedSui :=
  outstanding.filter fun s => s.poolId = id

variable {outstanding : Multiset StakedSui} {s : StakedSui} {id : ID}

lemma stakesOf_cons_self (h : s.poolId = id) :
    stakesOf (s ::ₘ outstanding) id = s ::ₘ stakesOf outstanding id :=
  Multiset.filter_cons_of_pos (p := fun s : StakedSui => s.poolId = id) _ h

lemma stakesOf_cons_of_ne (h : s.poolId ≠ id) :
    stakesOf (s ::ₘ outstanding) id = stakesOf outstanding id :=
  Multiset.filter_cons_of_neg (p := fun s : StakedSui => s.poolId = id) _ h

lemma stakesOf_add (first second : Multiset StakedSui) (id : ID) :
    stakesOf (first + second) id = stakesOf first id + stakesOf second id :=
  Multiset.filter_add _ _ _

/-- The current rate has at least the tokens of the pool. -/
def Capped (v : Validator) (rate : PoolTokenExchangeRate) : Prop :=
  rate.suiAmount = 0 ∨ v.stakingPool.poolTokenBalance ≤ rate.poolTokenAmount

/-- The stakes of the pool of a validator are in order at some rates. -/
def HasBook (epoch : ℕ) (outstanding : Multiset StakedSui) (v : Validator) : Prop :=
  ∃ rate, Accounts ⟨epoch, v, stakesOf outstanding v.stakingPoolId⟩ rate ∧ Capped v (rate epoch)

section Rates

variable {l : StakeLedger} {rate : ℕ → PoolTokenExchangeRate}

lemma rate_of_preactive (h : Accounts l rate) (hpre : l.validator.isPreactive = true) (e : ℕ) :
    (rate e).suiAmount = 0 := by
  obtain ⟨-, -, -, -, -, -, hrate⟩ := h.stage_of_preactive hpre
  rw [hrate]
  rfl

lemma rate_of_inactive (h : Accounts l rate) (hpre : l.validator.isPreactive = false)
    (hina : l.pool.isInactive = true) :
    rate (l.epoch + 1) = rate l.epoch := by
  cases h.stage with
  | preactive hstage => simp [isPreactive, StakingPool.isPreactive, hstage] at hpre
  | active first hstage hact => simp [StakingPool.isInactive, hact] at hina
  | inactive first last hstage hdeact hfst hlast hrecs haft =>
    rw [haft (l.epoch + 1) (by omega)]
    rcases hlast.eq_or_lt with heq | hlt
    · rw [heq]
    · rw [haft l.epoch hlt]

end Rates

variable {epoch : ℕ} {rest : Multiset StakedSui}

namespace HasBook

variable {v v' : Validator}

lemma new (hpool : v.stakingPool = .new id) (hstk : v.nextEpochStake = 0)
    (hnone : stakesOf outstanding v.stakingPoolId = 0) :
    HasBook epoch outstanding v := by
  refine ⟨fun _ => PoolTokenExchangeRate.initialExchangeRate, ?_, .inl rfl⟩
  rw [hnone]
  exact accounts_of_isNew ⟨⟨id, hpool⟩, hstk, rfl⟩

variable (h : HasBook epoch outstanding v)
include h

lemma of_pool (hpool : v'.stakingPool = v.stakingPool) (hstk : v'.nextEpochStake = v.nextEpochStake) :
    HasBook epoch outstanding v' := by
  obtain ⟨rate, haccs, hcapped⟩ := h
  have hid : v'.stakingPoolId = v.stakingPoolId := congrArg StakingPool.id hpool
  refine ⟨rate, ?_, ?_⟩
  · rw [hid]
    exact haccs.of_pool hpool hstk
  · unfold Capped
    rw [hpool]
    exact hcapped

lemma of_stakes {outstanding' : Multiset StakedSui}
    (hsks : stakesOf outstanding' v.stakingPoolId = stakesOf outstanding v.stakingPoolId) :
    HasBook epoch outstanding' v := by
  unfold HasBook at h ⊢
  rw [hsks]
  exact h

variable {amount : ℕ}

lemma addStake (hadd : v.requestAddStake amount epoch = .ok (v', s)) :
    HasBook epoch (s ::ₘ outstanding) v' := by
  obtain ⟨rate, haccs, hcapped⟩ := h
  have hid : v'.stakingPoolId = v.stakingPoolId := congrArg Profile.poolId (requestAddStake_kept hadd).1
  have haccs' := haccs.addStake hadd
  obtain ⟨-, -, rfl, pool, hpool, rfl⟩ := requestAddStake_eq_ok hadd
  refine ⟨rate, ?_, ?_⟩
  · rw [hid, stakesOf_cons_self (show v.stakingPool.id = v.stakingPoolId from rfl)]
    exact haccs'
  · obtain ⟨hpre, -⟩ | ⟨-, rfl⟩ := processStakeIfPreactive_eq_ok hpool
    · exact .inl (rate_of_preactive haccs hpre epoch)
    · exact hcapped

lemma addStakeAtGenesis (hpre : v.isPreactive = true)
    (hadd : v.requestAddStakeAtGenesis amount epoch = .ok (v', s)) :
    HasBook epoch (s ::ₘ outstanding) v' := by
  obtain ⟨rate, haccs, -⟩ := h
  have hid : v'.stakingPoolId = v.stakingPoolId :=
    congrArg Profile.poolId (requestAddStakeAtGenesis_profile hadd)
  have haccs' := haccs.addStakeAtGenesis hpre hadd
  obtain ⟨-, -, -, rfl, -, -, -⟩ := requestAddStakeAtGenesis_eq_ok hadd
  refine ⟨rate, ?_, .inl (rate_of_preactive haccs hpre epoch)⟩
  rw [hid, stakesOf_cons_self (show v.stakingPool.id = v.stakingPoolId from rfl)]
  exact haccs'

omit h in
lemma withdraw (h : HasBook epoch (s ::ₘ rest) v) (hid : s.poolId = v.stakingPoolId)
    (hactd : s.stakeActivationEpoch ≤ epoch)
    (hdraw : v.requestWithdrawStake s epoch = .ok (v', amount)) : HasBook epoch rest v' := by
  obtain ⟨rate, haccs, hcapped⟩ := h
  have hid' : v'.stakingPoolId = v.stakingPoolId :=
    congrArg Profile.poolId (requestWithdrawStake_kept hdraw).1
  have haccs' := haccs.withdraw (stakesOf_cons_self hid) hactd hdraw
  refine ⟨rate, ?_, ?_⟩
  · rw [hid']
    exact haccs'
  · obtain ⟨pool, hpool, -, rfl⟩ := requestWithdrawStake_eq_ok hdraw
    obtain ⟨rate', reward, -, -, -, hproc⟩ := StakingPool.requestWithdrawStake_eq_ok hpool
    refine hcapped.imp_right fun hle => le_trans ?_ hle
    obtain ⟨-, rfl⟩ | ⟨-, rfl⟩ := StakingPool.processWithdrawIfInactive_eq_ok hproc
    · exact Nat.sub_le _ _
    · exact le_rfl

omit h in
lemma parts_iff {e x y : ℕ} :
    HasBook epoch (⟨id, e, x + y⟩ ::ₘ rest) v ↔
      HasBook epoch (⟨id, e, x⟩ ::ₘ ⟨id, e, y⟩ ::ₘ rest) v := by
  unfold HasBook
  by_cases hid : id = v.stakingPoolId
  · simp only [stakesOf_cons_self, hid, Accounts.parts_iff]
  · simp only [stakesOf_cons_of_ne, hid, ne_eq, not_false_eq_true]

lemma removeCandidate {deactivationEpoch : ℕ} (hpre : v.isPreactive = true) :
    HasBook epoch outstanding { v with
      stakingPool := { v.stakingPool with deactivationEpoch := some deactivationEpoch } } := by
  obtain ⟨rate, haccs, hcapped⟩ := h
  exact ⟨rate, haccs.deactivatedPreactive hpre, hcapped⟩

omit h

section

variable (h : HasBook epoch outstanding v)

include h

lemma idle (hidle : v.isPreactive = true ∨ v.stakingPool.isInactive = true) :
    HasBook (epoch + 1) outstanding v := by
  obtain ⟨rate, haccs, hcapped⟩ := h
  refine ⟨rate, haccs.idle hidle, ?_⟩
  by_cases hpre : v.isPreactive = true
  · exact .inl (rate_of_preactive haccs hpre _)
  · have hrate := rate_of_inactive haccs (Bool.eq_false_of_not_eq_true hpre) (hidle.resolve_left hpre)
    rw [hrate]
    exact hcapped

lemma activation : ∀ s ∈ stakesOf outstanding v.stakingPoolId, s.stakeActivationEpoch ≤ epoch + 1 := by
  obtain ⟨rate, haccs, -⟩ := h
  exact haccs.activation

lemma process (hact : IsActive v) (hproc : v.processPendingStakesAndWithdraws epoch = .ok v') :
    HasBook (epoch + 1) outstanding v' := by
  obtain ⟨rate, haccs, -⟩ := h
  obtain ⟨pool, hpool, -, rfl⟩ := processPendingStakesAndWithdraws_eq_ok hproc
  obtain rfl := StakingPool.processPendingStakesAndWithdraws_eq_ok hpool
  refine ⟨_, haccs.processed hact, .inr ?_⟩
  unfold Accounts.nextRate
  rw [if_pos rfl]
  exact le_rfl

end

variable (h : HasBook epoch outstanding v)
include h

lemma activate {activationEpoch : ℕ} (hactv : v.activate activationEpoch = .ok v')
    (hsks : ∀ s ∈ stakesOf outstanding v.stakingPoolId, s.stakeActivationEpoch ≤ activationEpoch) :
    HasBook activationEpoch outstanding v' := by
  obtain ⟨rate, haccs, -⟩ := h
  have hid : v'.stakingPoolId = v.stakingPoolId := congrArg Profile.poolId (activate_kept hactv).1
  obtain ⟨pool, hpool, hv⟩ := bind_eq_ok.mp hactv
  cases hv
  refine ⟨fun _ => PoolTokenExchangeRate.initialExchangeRate, ?_, .inl rfl⟩
  rw [hid]
  exact haccs.activated hpool hsks

lemma depositRewards (hact : IsActive v) (reward : ℕ) :
    HasBook epoch outstanding (v.depositStakeRewards reward) := by
  obtain ⟨rate, haccs, hcapped⟩ := h
  exact ⟨rate, haccs.depositRewards hact reward, hcapped⟩

lemma deactivate (hina : v.stakingPool.isInactive = false)
    (hsks : ∀ s ∈ stakesOf outstanding v.stakingPoolId, s.stakeActivationEpoch ≤ epoch) :
    HasBook epoch outstanding { v with
      stakingPool := { v.stakingPool with deactivationEpoch := some epoch } } := by
  obtain ⟨rate, haccs, hcapped⟩ := h
  have hpool : v.stakingPool.deactivateStakingPool epoch =
      .ok { v.stakingPool with deactivationEpoch := some epoch } := by
    unfold StakingPool.deactivateStakingPool
    rw [hina]
    rfl
  refine ⟨_, haccs.deactivated hpool hsks, ?_⟩
  rw [min_self]
  exact hcapped

end HasBook

namespace Roster

def Knows (r : Roster) (id : ID) : Prop := r.mappings id ≠ none ∨ r.inactive id ≠ none

lemma Step.knows {r r' : Roster} (hstep : r.Step r') (h : r.Knows id) : r'.Knows id := by
  unfold Knows at h ⊢
  cases hstep with
  | register =>
    refine h.imp_left fun hmapped => ?_
    dsimp only
    rw [update_apply]
    split_ifs
    · simp
    · exact hmapped
  | removeCandidate =>
    dsimp only
    rw [update_apply, update_apply]
    split_ifs
    · exact .inr (by simp)
    · exact h
  | join | requestRemoval => exact h
  | epochChange =>
    dsimp only
    split_ifs
    · exact .inr (by simp)
    · exact h

end Roster

namespace ValidatorSet

variable {set set' : ValidatorSet} {v v' w : Validator} {address : SuiAddress} {id : ID}

variable (set v) in
/-- The set holds the validator in one of its four places. -/
inductive Holds : Prop where
  | active (h : v ∈ set.activeValidators)
  | pending (h : v ∈ set.pendingActiveValidators)
  | candidate (address : SuiAddress) (h : set.validatorCandidates[address]? = some v)
  | inactive (id : ID) (h : set.inactiveValidators[id]? = some v)

lemma Holds.of_agree {β : Type} {f : Validator → β} (hagr : Agree f set set') (h : set'.Holds v) :
    ∃ w, set.Holds w ∧ f w = f v := by
  have hlist : ∀ {l l' : List Validator}, l'.map f = l.map f → v ∈ l' →
    ∃ w ∈ l, f w = f v := fun hmap hv =>
    mem_map.mp (hmap ▸ mem_map_of_mem hv)
  have htb : ∀ {o o' : Option Validator}, o'.map f = o.map f → o' = some v →
      ∃ w, o = some w ∧ f w = f v := by
    rintro o o' hmap rfl
    exact Option.map_eq_some_iff.mp hmap.symm
  cases h with
  | active hv =>
    obtain ⟨w, hw, heq⟩ := hlist hagr.active hv
    exact ⟨w, .active hw, heq⟩
  | pending hv =>
    obtain ⟨w, hw, heq⟩ := hlist hagr.pending hv
    exact ⟨w, .pending hw, heq⟩
  | candidate address hv =>
    obtain ⟨w, hw, heq⟩ := htb (hagr.candidates address) hv
    exact ⟨w, .candidate address hw, heq⟩
  | inactive id hv =>
    obtain ⟨w, hw, heq⟩ := htb (hagr.inactive id) hv
    exact ⟨w, .inactive id hw, heq⟩

lemma Holds.of_register (hset : set.requestAddValidatorCandidate v = .ok set') (hw : set'.Holds w) :
    w = v ∨ set.Holds w := by
  obtain ⟨-, -, -, -, -, rfl⟩ := requestAddValidatorCandidate_eq_ok hset
  cases hw with
  | active hw => exact .inr (.active hw)
  | pending hw => exact .inr (.pending hw)
  | candidate address hw =>
    rcases entry_of_insert hw with ⟨-, rfl⟩ | ⟨-, hw⟩
    · exact .inl rfl
    · exact .inr (.candidate address hw)
  | inactive id hw => exact .inr (.inactive id hw)

lemma Holds.of_removeCandidate (hset : set.requestRemoveValidatorCandidate address epoch = .ok set')
    (hw : set'.Holds w) :
    set.Holds w ∨ ∃ v, set.Holds v ∧ v.isPreactive = true ∧
      w = { v with stakingPool := { v.stakingPool with deactivationEpoch := some epoch } } := by
  obtain ⟨v, hv, hpre, -, -, rfl⟩ := requestRemoveValidatorCandidate_eq_ok hset
  cases hw with
  | active hw => exact .inl (.active hw)
  | pending hw => exact .inl (.pending hw)
  | candidate address' hw => exact .inl (.candidate address' (entry_of_erase hw).2)
  | inactive id hw =>
    rcases entry_of_insert hw with ⟨-, rfl⟩ | ⟨-, hw⟩
    · exact .inr ⟨v, .candidate address hv, hpre, rfl⟩
    · exact .inl (.inactive id hw)

lemma Holds.of_join {minJoiningStakeAmount : ℕ}
    (hset : set.requestAddValidator minJoiningStakeAmount address = .ok set')
    (hw : set'.Holds w) : set.Holds w := by
  obtain ⟨v, hv, -, -, -, -, rfl⟩ := requestAddValidator_eq_ok hset
  cases hw with
  | active hw => exact .active hw
  | pending hw =>
    rcases mem_append.mp hw with hw | hw
    · exact .pending hw
    · exact mem_singleton.mp hw ▸ .candidate address hv
  | candidate address' hw => exact .candidate address' (entry_of_erase hw).2
  | inactive id hw => exact .inactive id hw

section

variable (h : set.roster.Partition)

include h

lemma mapping_of_joined (hv : v ∈ set.activeValidators ++ set.pendingActiveValidators) :
    set.stakingPoolMappings[v.stakingPoolId]? = some v.suiAddress :=
  h.mapping_of_mem (joined_roster ▸ mem_map_of_mem (f := entry) hv)

lemma mapping_of_candidate (hv : set.validatorCandidates[address]? = some v) :
    set.stakingPoolMappings[v.stakingPoolId]? = some address := by
  have hcand : set.roster.candidates address = some v.entry := by simp [roster, hv]
  exact h.mapping_of_candidate hcand

lemma mapping_of_inactive (hv : set.inactiveValidators[id]? = some v) :
    v.stakingPoolId = id ∧ set.stakingPoolMappings[v.stakingPoolId]? = none := by
  have hina : set.roster.inactive id = some v.stakingPoolId := by simp [roster, hv]
  obtain ⟨heq, hnone⟩ := h.inactive id _ hina
  exact ⟨heq, heq ▸ hnone⟩

lemma ne_of_candidate (hv : v ∈ set.activeValidators ++ set.pendingActiveValidators)
    (hw : set.validatorCandidates[address]? = some w) : v.stakingPoolId ≠ w.stakingPoolId := by
  intro heq
  have haddr : v.suiAddress = address :=
    Option.some.inj ((mapping_of_joined h hv).symm.trans (heq ▸ mapping_of_candidate h hw))
  refine (h.candidates address w.entry (by simp [roster, hw])).2 ?_
  rw [addresses_roster, ← haddr]
  exact mem_map_of_mem hv

lemma ne_of_inactive (hv : set.stakingPoolMappings[v.stakingPoolId]? = some address)
    (hw : set.inactiveValidators[id]? = some w) : w.stakingPoolId ≠ v.stakingPoolId := by
  intro heq
  have hnone := (mapping_of_inactive h hw).2
  rw [heq, hv] at hnone
  cases hnone

end

variable (set set' v v') in
/-- The validator `v` has become `v'`, and no other one has the pool of `v`. -/
structure Replaces : Prop where
  held : set.Holds v
  others : ∀ w, set'.Holds w → w = v' ∨ set.Holds w ∧ w.stakingPoolId ≠ v.stakingPoolId

variable {before after : List Validator}

lemma ne_of_joined (h : set.roster.Partition)
    (hjnd : set.activeValidators ++ set.pendingActiveValidators = before ++ v :: after) :
    ∀ w ∈ before ++ after, w.stakingPoolId ≠ v.stakingPoolId := by
  have hnd := h.ids_nodup
  rw [joined_roster, map_map, hjnd, map_append, map_cons, nodup_middle, nodup_cons, ← map_append] at hnd
  intro w hw heq
  exact hnd.1 (mem_map.mpr ⟨w, hw, heq⟩)

lemma holds_joined (hv : v ∈ set.activeValidators ++ set.pendingActiveValidators) : set.Holds v :=
  (mem_append.mp hv).elim .active .pending

lemma replaces_joined (before after : List Validator) {active pending : List Validator}
    (h : set.roster.Partition)
    (hjnd : set.activeValidators ++ set.pendingActiveValidators = before ++ v :: after)
    (hjnd' : active ++ pending = before ++ v' :: after) :
    Replaces set { set with activeValidators := active, pendingActiveValidators := pending } v v' := by
  have hin : v ∈ set.activeValidators ++ set.pendingActiveValidators := by simp [hjnd]
  have hoth : ∀ w ∈ active ++ pending, w = v' ∨ set.Holds w ∧ w.stakingPoolId ≠ v.stakingPoolId := by
    intro w hw
    rw [hjnd', mem_append, mem_cons, or_left_comm, ← mem_append] at hw
    refine hw.imp_right fun hw => ⟨holds_joined ?_, ne_of_joined h hjnd w hw⟩
    rw [hjnd]
    exact mem_append.mpr ((mem_append.mp hw).imp_right (mem_cons_of_mem v))
  refine ⟨holds_joined hin, fun w hw => ?_⟩
  cases hw with
  | active hw => exact hoth w (mem_append_left _ hw)
  | pending hw => exact hoth w (mem_append_right _ hw)
  | candidate address hw => exact .inr ⟨.candidate address hw, (ne_of_candidate h hin hw).symm⟩
  | inactive id hw => exact .inr ⟨.inactive id hw, ne_of_inactive h (mapping_of_joined h hin) hw⟩

section

variable (h : set.roster.Partition)

include h

lemma replaces_active (hact : set.activeValidators = before ++ v :: after) :
    Replaces set { set with activeValidators := before ++ v' :: after } v v' :=
  replaces_joined before (after ++ set.pendingActiveValidators) h (by simp [hact]) (by simp)

lemma replaces_candidate (hv : set.validatorCandidates[address]? = some v) :
    Replaces set { set with validatorCandidates := set.validatorCandidates.insert address v' } v v' := by
  have hmapp := mapping_of_candidate h hv
  refine ⟨.candidate address hv, fun w hw => ?_⟩
  cases hw with
  | active hw => exact .inr ⟨.active hw, ne_of_candidate h (mem_append_left _ hw) hv⟩
  | pending hw => exact .inr ⟨.pending hw, ne_of_candidate h (mem_append_right _ hw) hv⟩
  | candidate address' hw =>
    rcases entry_of_insert hw with ⟨-, rfl⟩ | ⟨hne, hw⟩
    · exact .inl rfl
    · refine .inr ⟨.candidate address' hw, fun hid => hne ?_⟩
      exact Option.some.inj (hmapp.symm.trans (hid ▸ mapping_of_candidate h hw))
  | inactive id hw => exact .inr ⟨.inactive id hw, ne_of_inactive h hmapp hw⟩

lemma replaces_inactive (hv : set.inactiveValidators[id]? = some v) :
    Replaces set { set with inactiveValidators := set.inactiveValidators.insert id v' } v v' := by
  have hid := (mapping_of_inactive h hv).1
  refine ⟨.inactive id hv, fun w hw => ?_⟩
  cases hw with
  | active hw =>
      exact .inr ⟨.active hw,
        (ne_of_inactive h (mapping_of_joined h (mem_append_left _ hw)) hv).symm⟩
  | pending hw =>
      exact .inr ⟨.pending hw,
        (ne_of_inactive h (mapping_of_joined h (mem_append_right _ hw)) hv).symm⟩
  | candidate address hw =>
      exact .inr ⟨.candidate address hw, (ne_of_inactive h (mapping_of_candidate h hw) hv).symm⟩
  | inactive id' hw =>
    rcases entry_of_insert hw with ⟨-, rfl⟩ | ⟨hne, hw⟩
    · exact .inl rfl
    · refine .inr ⟨.inactive id' hw, ?_⟩
      rw [(mapping_of_inactive h hw).1, hid]
      exact hne.symm

end

lemma replaces_getCandidateOrActiveValidatorMut {α : Type} {a : α} {update : Update α}
    (h : set.roster.Partition)
    (hupd : set.getCandidateOrActiveValidatorMut address update = .ok (set', a)) :
    ∃ v v', Replaces set set' v v' ∧ update v = .ok (v', a) ∧
      set.stakingPoolMappings[v.stakingPoolId]? = some address := by
  unfold getCandidateOrActiveValidatorMut at hupd
  split_ifs at hupd
  · obtain ⟨v, v', hv, hv', rfl⟩ := getCandidateMut_eq_ok hupd
    exact ⟨v, v', replaces_candidate h hv, hv', mapping_of_candidate h hv⟩
  · obtain ⟨validators, hvals, rfl⟩ := getActiveMut_eq_ok hupd
    obtain ⟨before, v, v', after, hact, rfl, hv', rfl⟩ := getValidatorMut_eq_ok hvals
    refine ⟨v, v', replaces_active h hact, hv', mapping_of_joined h (mem_append_left _ ?_)⟩
    simp [hact]

lemma replaces_requestWithdrawStake {epoch amount : ℕ} (h : set.roster.Partition)
    (hdraw : set.requestWithdrawStake s epoch = .ok (set', amount)) :
    ∃ v v', Replaces set set' v v' ∧ v.requestWithdrawStake s epoch = .ok (v', amount) := by
  unfold requestWithdrawStake at hdraw
  cases hmapp : set.stakingPoolMappings[s.poolId]? with
  | some address =>
    rw [hmapp] at hdraw
    obtain ⟨v, v', hrepl, hv', -⟩ := replaces_getCandidateOrActiveValidatorMut h hdraw
    exact ⟨v, v', hrepl, hv'⟩
  | none =>
    rw [hmapp] at hdraw
    dsimp only [requestWithdrawStakeInactive] at hdraw
    split at hdraw
    · cases hdraw
    rename_i v hv
    obtain ⟨⟨v', amount'⟩, hv', hdraw⟩ := bind_eq_ok.mp hdraw
    cases hdraw
    exact ⟨v, v', replaces_inactive h hv, hv'⟩

end ValidatorSet

lemma requestWithdrawStake_poolId {v : Validator} {result : Validator × ℕ}
    (h : v.requestWithdrawStake s epoch = .ok result) : s.poolId = v.stakingPoolId := by
  obtain ⟨_, hpool, -⟩ := bind_eq_ok.mp h
  obtain ⟨_, hprin, -⟩ := bind_eq_ok.mp hpool
  obtain ⟨hid, -⟩ := check_bind_eq_ok.mp hprin
  exact of_decide_eq_true hid

/-- Every validator has its book, and every stake is of a pool that is in use or was. -/
structure Books (epoch : ℕ) (set : ValidatorSet) (outstanding : Multiset StakedSui) : Prop where
  book : ∀ v, set.Holds v → HasBook epoch outstanding v
  known : ∀ s ∈ outstanding, set.roster.Knows s.poolId

namespace Books

open ValidatorSet

variable {set set' : ValidatorSet} {address : SuiAddress}

lemma addStake {stake : ℕ} (h : Books epoch set outstanding) (hpart : set.roster.Partition)
    (hadd : set.requestAddStake address stake epoch = .ok (set', s)) :
    Books epoch set' (s ::ₘ outstanding) := by
  have hroster := roster_eq_of_agree (stamp_addStake hadd)
  obtain ⟨_, -, hupd⟩ := bind_eq_ok.mp hadd
  obtain ⟨v, v', hrepl, hv', hmapp⟩ := replaces_getCandidateOrActiveValidatorMut hpart hupd
  have hid : s.poolId = v.stakingPoolId := by
    obtain ⟨-, -, rfl, -⟩ := requestAddStake_eq_ok hv'
    rfl
  refine ⟨fun w hw => ?_, fun t ht => ?_⟩
  · rcases hrepl.others w hw with rfl | ⟨hheld, hne⟩
    · exact (h.book v hrepl.held).addStake hv'
    · exact (h.book w hheld).of_stakes (stakesOf_cons_of_ne (hid ▸ hne.symm))
  · rw [hroster]
    rcases Multiset.mem_cons.mp ht with rfl | ht
    · refine .inl ?_
      change set.stakingPoolMappings[t.poolId]? ≠ none
      rw [hid, hmapp]
      simp
    · exact h.known t ht

variable {amount : ℕ}

lemma withdraw (h : Books epoch set (s ::ₘ rest)) (hpart : set.roster.Partition)
    (hactd : s.stakeActivationEpoch ≤ epoch)
    (hdraw : set.requestWithdrawStake s epoch = .ok (set', amount)) : Books epoch set' rest := by
  have hroster := roster_eq_of_agree (stamp_withdraw hdraw)
  obtain ⟨v, v', hrepl, hv'⟩ := replaces_requestWithdrawStake hpart hdraw
  have hid := requestWithdrawStake_poolId hv'
  refine ⟨fun w hw => ?_, fun t ht => ?_⟩
  · rcases hrepl.others w hw with rfl | ⟨hheld, hne⟩
    · exact (h.book v hrepl.held).withdraw hid hactd hv'
    · exact (h.book w hheld).of_stakes (stakesOf_cons_of_ne (hid ▸ hne.symm)).symm
  · rw [hroster]
    exact h.known t (Multiset.mem_cons_of_mem ht)

lemma parts_iff {id : ID} {e x y : ℕ} :
    Books epoch set (⟨id, e, x + y⟩ ::ₘ rest) ↔
      Books epoch set (⟨id, e, x⟩ ::ₘ ⟨id, e, y⟩ ::ₘ rest) := by
  constructor <;> intro h <;> have hknown := Multiset.forall_mem_cons.mp h.known
  · exact ⟨fun v hv => HasBook.parts_iff.mp (h.book v hv),
      Multiset.forall_mem_cons.mpr ⟨hknown.1, Multiset.forall_mem_cons.mpr hknown⟩⟩
  · exact ⟨fun v hv => HasBook.parts_iff.mpr (h.book v hv), Multiset.forall_mem_cons.mpr
      ⟨hknown.1, (Multiset.forall_mem_cons.mp hknown.2).2⟩⟩

section

variable (h : Books epoch set outstanding)

include h

lemma agree (hagr : Agree (fun v => (v.stakingPool, v.nextEpochStake)) set set')
    (hroster : set'.roster = set.roster) : Books epoch set' outstanding := by
  refine ⟨fun v hv => ?_, fun s hs => ?_⟩
  · obtain ⟨w, hw, heq⟩ := hv.of_agree hagr
    exact (h.book w hw).of_pool (congrArg Prod.fst heq).symm (congrArg Prod.snd heq).symm
  · rw [hroster]
    exact h.known s hs

lemma register {v : Validator} (hpool : v.stakingPool = .new id) (hstk : v.nextEpochStake = 0)
    (hfr : id ∉ set.stakingPoolMappings ∧ id ∉ set.inactiveValidators)
    (hset : set.requestAddValidatorCandidate v = .ok set') :
    Books epoch set' outstanding := by
  have hstep := roster_register hpool hfr.2 hset
  have hid : v.stakingPoolId = id := congrArg StakingPool.id hpool
  have hnone : stakesOf outstanding v.stakingPoolId = 0 := by
    refine Multiset.filter_eq_nil.mpr fun s hs heq => ?_
    rcases h.known s hs with hkn | hkn
    · exact hkn (by simp [roster, heq, hid, Std.TreeMap.getElem?_eq_none hfr.1])
    · exact hkn (by simp [roster, heq, hid, Std.TreeMap.getElem?_eq_none hfr.2])
  refine ⟨fun w hw => ?_, fun s hs => hstep.knows (h.known s hs)⟩
  rcases hw.of_register hset with rfl | hw
  · exact .new hpool hstk hnone
  · exact h.book w hw

lemma removeCandidate (hset : set.requestRemoveValidatorCandidate address epoch = .ok set') :
    Books epoch set' outstanding := by
  have hstep := roster_removeCandidate hset
  refine ⟨fun w hw => ?_, fun s hs => hstep.knows (h.known s hs)⟩
  rcases hw.of_removeCandidate hset with hw | ⟨v, hv, hpre, rfl⟩
  · exact h.book w hw
  · exact (h.book v hv).removeCandidate hpre

lemma joinPending {minJoiningStakeAmount : ℕ}
    (hset : set.requestAddValidator minJoiningStakeAmount address = .ok set') :
    Books epoch set' outstanding := by
  have hstep := roster_join hset
  exact ⟨fun w hw => h.book w (hw.of_join hset), fun s hs => hstep.knows (h.known s hs)⟩

end

end Books

variable {stakes : Multiset StakedSui}

lemma stakesOf_eq_self (h : ∀ s ∈ stakes, s.poolId = id) : stakesOf stakes id = stakes :=
  Multiset.filter_eq_self.mpr h

lemma stakesOf_eq_zero (h : ∀ s ∈ stakes, s.poolId ≠ id) : stakesOf stakes id = 0 :=
  Multiset.filter_eq_nil.mpr h

lemma stakesOf_flatten {results : List (Validator × List StakedSui)}
    (hids : (results.map fun result => result.1.stakingPoolId).Nodup)
    (hown : ∀ result ∈ results, ∀ s ∈ result.2, s.poolId = result.1.stakingPoolId)
    {result : Validator × List StakedSui}
    (hres : result ∈ results) : stakesOf ↑(results.map Prod.snd).flatten result.1.stakingPoolId =
      ↑result.2 := by
  induction results with
  | nil => simp at hres
  | cons first rest ih =>
    rw [map_cons, nodup_cons] at hids
    rw [map_cons, flatten_cons, ← Multiset.coe_add, stakesOf_add]
    have hrest : ∀ other ∈ rest, ∀ s ∈ other.2, s.poolId = other.1.stakingPoolId :=
      fun other hoth => hown other (mem_cons_of_mem _ hoth)
    rcases mem_cons.mp hres with rfl | hin
    · rw [stakesOf_eq_self fun s hs => hown result mem_cons_self s (Multiset.mem_coe.mp hs),
        stakesOf_eq_zero, add_zero]
      intro s hs heq
      obtain ⟨stakes, hsks, hs⟩ := mem_flatten.mp (Multiset.mem_coe.mp hs)
      obtain ⟨other, hoth, rfl⟩ := mem_map.mp hsks
      exact hids.1 (mem_map.mpr ⟨other, hoth, (hrest other hoth s hs).symm.trans heq⟩)
    · rw [stakesOf_eq_zero, zero_add, ih hids.2 hrest hin]
      intro s hs heq
      have hfst := hown first mem_cons_self s (Multiset.mem_coe.mp hs)
      exact hids.1 (mem_map.mpr ⟨result, hin, heq.symm.trans hfst⟩)

namespace HasBook

lemma reward {rewards : Rewards} {entry : Validator × ℕ} {result : Validator × List StakedSui}
    (h : HasBook epoch outstanding entry.1)
    (hact : IsActive entry.1) (hrewd : ValidatorSet.Rewarded rewards epoch entry result) :
    HasBook epoch (↑result.2 + outstanding) result.1 ∧
      ∀ s ∈ result.2, s.poolId = entry.1.stakingPoolId := by
  obtain ⟨v, stakes⟩ := result
  obtain ⟨staking, storageFund, commission, w, -, -, -, hrew, rfl⟩ := hrewd
  have hprof := (addValidatorReward_kept hrew).1
  have hwactive : IsActive w :=
    ⟨(congrArg Profile.isPreactive hprof).trans hact.1,
      (congrArg Profile.isInactive hprof).trans hact.2⟩
  unfold addValidatorReward at hrew
  split_ifs at hrew
  · obtain ⟨⟨w', s⟩, hstk, hrew⟩ := bind_eq_ok.mp hrew
    cases hrew
    refine ⟨(h.addStake hstk).depositRewards hwactive _, fun t ht => ?_⟩
    obtain ⟨-, -, rfl, -⟩ := requestAddStake_eq_ok hstk
    obtain rfl := mem_singleton.mp ht
    rfl
  · cases hrew
    refine ⟨?_, by simp⟩
    rw [Multiset.coe_nil, zero_add]
    exact h.depositRewards hwactive _

end HasBook

namespace ValidatorSet.Settled

variable {set : ValidatorSet} {rewards : Rewards} {results : List (Validator × List StakedSui)}
  {processed joining : List Validator}

section

variable (h : Settled set epoch rewards results processed joining)

include h

lemma ids_results :
    results.map (fun result => result.1.stakingPoolId) = set.activeValidators.map stakingPoolId := by
  have hmap := map_eq_of_forall₂ (f := fun entry : Validator × ℕ => entry.1.stakingPoolId)
    (g := fun result : Validator × List StakedSui => result.1.stakingPoolId)
    (fun entry result hent => congrArg Profile.poolId hent.profile) h.rewarded
  rw [hmap]
  conv_rhs => rw [← zipIdx_map_fst 0 set.activeValidators, map_map]
  rfl

variable (hbooks : Books epoch set outstanding)
include hbooks

lemma results_own (hsgs : set.Stages) :
    ∀ result ∈ results, HasBook epoch (↑result.2 + outstanding) result.1 ∧
      StakeLedger.IsActive result.1 ∧
      ∀ s ∈ result.2, s.poolId = result.1.stakingPoolId := by
  intro result hres
  obtain ⟨entry, hent, hrewd⟩ := exists_of_forall₂_right h.rewarded hres
  have hmem : entry.1 ∈ set.activeValidators := by
    rw [← zipIdx_map_fst 0 set.activeValidators]
    exact mem_map_of_mem hent
  have hact := hsgs.active entry.1 hmem
  obtain ⟨hbook, hown⟩ := (hbooks.book entry.1 (.active hmem)).reward hact hrewd
  have hprof := hrewd.profile
  have hid : result.1.stakingPoolId = entry.1.stakingPoolId := congrArg Profile.poolId hprof
  exact ⟨hbook, ⟨(congrArg Profile.isPreactive hprof).trans hact.1,
    (congrArg Profile.isInactive hprof).trans hact.2⟩,
    fun s hs => (hown s hs).trans hid.symm⟩

lemma flatten_own (hsgs : set.Stages) :
    ∀ s ∈ (results.map Prod.snd).flatten, s.poolId ∈ set.activeValidators.map stakingPoolId := by
  intro s hs
  obtain ⟨stakes, hsks, hs⟩ := mem_flatten.mp hs
  obtain ⟨result, hres, rfl⟩ := mem_map.mp hsks
  rw [← h.ids_results]
  exact mem_map.mpr ⟨result, hres, ((h.results_own hbooks hsgs result hres).2.2 s hs).symm⟩

lemma books_joined (hsgs : set.Stages)
    (hpart : set.roster.Partition) : ∀ v ∈ processed ++ joining,
      HasBook (epoch + 1) (↑(results.map Prod.snd).flatten + outstanding) v ∧
        ∀ s ∈ stakesOf (↑(results.map Prod.snd).flatten + outstanding) v.stakingPoolId,
          s.stakeActivationEpoch ≤ epoch + 1 := by
  have hids : (set.activeValidators.map stakingPoolId ++
      set.pendingActiveValidators.map stakingPoolId).Nodup := by
    have hnd := hpart.ids_nodup
    rw [joined_roster, map_map, map_append] at hnd
    exact hnd
  have hress := h.results_own hbooks hsgs
  intro v hv
  rcases mem_append.mp hv with hv | hv
  · obtain ⟨w, hw, hproc⟩ := exists_of_forall₂_right (forall₂_of_mapM_eq_ok h.processed_eq) hv
    obtain ⟨result, hres, rfl⟩ := mem_map.mp hw
    obtain ⟨hbook, hact, hown⟩ := hress result hres
    have hid : v.stakingPoolId = result.1.stakingPoolId :=
      congrArg Profile.poolId (processPendingStakesAndWithdraws_kept hproc).1
    have hsks : stakesOf (↑(results.map Prod.snd).flatten + outstanding) result.1.stakingPoolId =
        stakesOf (↑result.2 + outstanding) result.1.stakingPoolId := by
      have hnd : (results.map fun result => result.1.stakingPoolId).Nodup :=
        h.ids_results ▸ (nodup_append.mp hids).1
      rw [stakesOf_add, stakesOf_add,
        stakesOf_flatten hnd (fun other hoth => (hress other hoth).2.2) hres,
        stakesOf_eq_self fun s hs => hown s (Multiset.mem_coe.mp hs)]
    have hadjusted : HasBook epoch (↑result.2 + outstanding) result.1.adjustStakeAndGasPrice :=
      hbook.of_pool rfl rfl
    have hcl := hadjusted.process hact hproc
    refine ⟨hcl.of_stakes (hid ▸ hsks), ?_⟩
    rw [hid, hsks]
    exact hbook.activation
  · obtain ⟨w, hw, hactv⟩ := exists_of_forall₂_right (forall₂_of_mapM_eq_ok h.joining_eq) hv
    have hw := mem_reverse.mp hw
    have hbook := hbooks.book w (.pending hw)
    have hid : v.stakingPoolId = w.stakingPoolId := congrArg Profile.poolId (activate_kept hactv).1
    have hsks : stakesOf (↑(results.map Prod.snd).flatten + outstanding) w.stakingPoolId =
        stakesOf outstanding w.stakingPoolId := by
      rw [stakesOf_add, stakesOf_eq_zero, zero_add]
      intro s hs heq
      have hin := h.flatten_own hbooks hsgs s (Multiset.mem_coe.mp hs)
      exact (nodup_append.mp hids).2.2 _ hin _ (mem_map_of_mem hw) heq
    refine ⟨(hbook.activate hactv hbook.activation).of_stakes (hid ▸ hsks), ?_⟩
    rw [hid, hsks]
    exact hbook.activation

end

end ValidatorSet.Settled

open ValidatorSet in
lemma Books.advance {before after : WithRecords} {stakes : List StakedSui} {parts : EpochParts}
    (h : Books epoch before.1 outstanding) (hsgs : before.1.Stages) (hpart : before.1.roster.Partition)
    (hadv : Advanced before after epoch stakes parts) :
    Books (epoch + 1) after.1 (↑stakes + outstanding) := by
  have hsett := hadv.settled
  have hjnd := hsett.books_joined h hsgs hpart
  have hown := hsett.flatten_own h hsgs
  have hstep := roster_advance hadv
  have hact := hadv.active_forall₂
  have hdep := hadv.departs
  obtain rfl := hadv.stakes_eq
  obtain rfl := hadv.after_eq
  have hmapped : ∀ id ∈ before.1.activeValidators.map stakingPoolId,
      ∃ address, before.1.stakingPoolMappings[id]? = some address := by
    intro id hid
    obtain ⟨v, hv, rfl⟩ := mem_map.mp hid
    exact ⟨_, mapping_of_joined hpart (mem_append_left _ hv)⟩
  -- A pool outside the active ones gets no rewards.
  have hidle : ∀ v, before.1.Holds v → v.stakingPoolId ∉ before.1.activeValidators.map stakingPoolId →
      v.isPreactive = true ∨ v.stakingPool.isInactive = true →
        HasBook (epoch + 1) (↑(parts.results.map Prod.snd).flatten + outstanding) v := by
    intro v hv hnot hstage
    refine ((h.book v hv).idle hstage).of_stakes ?_
    rw [stakesOf_add, stakesOf_eq_zero, zero_add]
    intro s hs heq
    exact hnot (heq ▸ hown s (Multiset.mem_coe.mp hs))
  refine ⟨fun v hv => ?_, fun s hs => hstep.knows ?_⟩
  · cases hv with
    | active hv =>
      obtain ⟨w, hw, power, metadata, -, rfl⟩ := exists_of_forall₂_right hact hv
      exact (hjnd w (hdep.sublist.subset hw)).1.of_pool rfl rfl
    | pending hv =>
      rw [hdep.pending] at hv
      simp at hv
    | candidate address hv =>
      rw [hdep.candidates] at hv
      refine hidle v (.candidate address hv) (fun hin => ?_) (.inl (hsgs.candidates address v hv).1)
      obtain ⟨w, hw, heq⟩ := mem_map.mp hin
      exact ne_of_candidate hpart (mem_append_left _ hw) hv heq
    | inactive id hv =>
      by_cases hid : id ∈ parts.leaving.map stakingPoolId
      · obtain ⟨w, hw, rfl⟩ := mem_map.mp hid
        obtain ⟨hina, hleft⟩ := hdep.left w hw
        obtain rfl := Option.some.inj (hv.symm.trans hleft)
        obtain ⟨hbook, hst⟩ := hjnd w (hdep.perm.subset (mem_append_right _ hw))
        exact hbook.deactivate hina hst
      · rw [hdep.inactive id hid] at hv
        refine hidle v (.inactive id hv) (fun hin => ?_) (.inr (hsgs.inactive id v hv))
        obtain ⟨address, haddr⟩ := hmapped _ hin
        exact ne_of_inactive hpart haddr hv rfl
  · rcases Multiset.mem_add.mp hs with hs | hs
    · obtain ⟨address, haddr⟩ := hmapped _ (hown s (Multiset.mem_coe.mp hs))
      refine .inl ?_
      change before.1.stakingPoolMappings[s.poolId]? ≠ none
      simp [haddr]
    · exact h.known s hs

section Runs

open ValidatorSet

variable {validateMetadata : ValidatorMetadata → Bool} {state state' : SuiSystemState}
  {sender : SuiAddress} {call : Call} {stakes : List StakedSui}

/-- The books of the validators before genesis ends. -/
structure GenesisBooks (acc : List Validator × List StakedSui) : Prop where
  ids : (acc.1.map Validator.stakingPoolId).Nodup
  book : ∀ v ∈ acc.1, HasBook 0 ↑acc.2 v ∧ v.isPreactive = true
  stakes : ∀ s ∈ acc.2, s.poolId ∈ acc.1.map Validator.stakingPoolId ∧ s.stakeActivationEpoch = 0

lemma GenesisBooks.allocate {acc : List Validator × List StakedSui} {allocation : SuiAddress × ℕ}
    {validators : List Validator} (h : GenesisBooks acc) (hstep : getValidatorMut acc.1 allocation.1
      (fun v => v.requestAddStakeAtGenesis allocation.2 0) = .ok (validators, s)) :
    GenesisBooks (validators, acc.2 ++ [s]) := by
  have hmap := getValidatorMut_map (f := stakingPoolId)
    (fun v v' s hv => congrArg Profile.poolId (requestAddStakeAtGenesis_profile hv)) hstep
  have hsks : (↑(acc.2 ++ [s]) : Multiset StakedSui) = s ::ₘ ↑acc.2 :=
    Multiset.coe_eq_coe.mpr (perm_append_singleton s acc.2)
  obtain ⟨before, v, v', after, hbef, -, hv', rfl⟩ := getValidatorMut_eq_ok hstep
  obtain ⟨-, -, -, hs, -⟩ := requestAddStakeAtGenesis_eq_ok hv'
  have hid : s.poolId = v.stakingPoolId := by rw [hs, stakingPoolId]
  have hoth : ∀ w ∈ before ++ after, w.stakingPoolId ≠ v.stakingPoolId := by
    have hnd := h.ids
    rw [hbef, map_append, map_cons, nodup_middle, nodup_cons, ← map_append] at hnd
    intro w hw heq
    exact hnd.1 (mem_map.mpr ⟨w, hw, heq⟩)
  refine ⟨hmap ▸ h.ids, fun w hw => ?_, fun t ht => ?_⟩
  · obtain ⟨hv, hpre⟩ := h.book v (by simp [hbef])
    rw [hsks]
    rcases mem_append.mp hw with hw | hw
    · obtain ⟨hbook, hwpre⟩ := h.book w (by simp [hbef, hw])
      exact ⟨hbook.of_stakes (stakesOf_cons_of_ne (hid ▸ (hoth w (mem_append_left _ hw)).symm)), hwpre⟩
    · rcases mem_cons.mp hw with rfl | hw
      · exact ⟨hv.addStakeAtGenesis hpre hv',
          (congrArg Profile.isPreactive (requestAddStakeAtGenesis_profile hv')).trans hpre⟩
      · obtain ⟨hbook, hwpre⟩ := h.book w (by simp [hbef, hw])
        exact ⟨hbook.of_stakes (stakesOf_cons_of_ne (hid ▸ (hoth w (mem_append_right _ hw)).symm)),
          hwpre⟩
  · rw [hmap]
    rcases mem_append.mp ht with ht | ht
    · exact h.stakes t ht
    · obtain rfl := mem_singleton.mp ht
      refine ⟨hid ▸ ?_, by rw [hs]⟩
      simp [hbef]

lemma books_create {genesisValidators : List SuiSystemState.GenesisValidator}
    {allocations : List (SuiAddress × ℕ)} {parameters : SystemParameters}
    (h : SuiSystemState.create validateMetadata genesisValidators allocations parameters =
      .ok (state, stakes)) :
    Books state.epoch state.validators stakes := by
  have hpart := partition_create h
  obtain ⟨registered, allocated, activated, mappings, active, hregd, halloc, hactd, -, hact, rfl⟩ :=
    SuiSystemState.create_eq_ok h
  have hnew := addGenesisValidator_new hregd
  have hforall := forall₂_of_mapM_eq_ok hactd
  have hpow := VotingPower.setVotingPower_eq_ok hact
  have hids : active.map stakingPoolId = allocated.map stakingPoolId := by
    rw [map_eq_of_forall₂ (f := stakingPoolId) ?_ hpow]
    · have hprofs := congrArg (List.map Profile.poolId) (map_profile_activate hactd)
      rw [map_map, map_map] at hprofs
      exact hprofs
    · rintro v v' ⟨power, rfl⟩
      rfl
  have hnd : (allocated.map stakingPoolId).Nodup := by
    have hall := hpart.ids_nodup
    rw [joined_roster, append_nil, map_map] at hall
    exact hids ▸ hall
  have hregisteredIds : registered.map stakingPoolId = allocated.map stakingPoolId :=
    (SuiSystemState.allocateTokens_map (fun v v' amount s hv =>
      congrArg Profile.poolId (requestAddStakeAtGenesis_profile hv)) halloc).symm
  have hgen : GenesisBooks (allocated, stakes) := by
    refine foldlM_ok_induction GenesisBooks ?_ ⟨hregisteredIds ▸ hnd, fun v hv => ?_, by simp⟩ halloc
    · rintro acc allocation acc' - hacc hstep
      obtain ⟨⟨validators, s⟩, hvals, hstep⟩ := bind_eq_ok.mp hstep
      cases hstep
      exact hacc.allocate hvals
    · obtain ⟨⟨id, hpool⟩, hstk⟩ := hnew v hv
      refine ⟨.new hpool hstk rfl, ?_⟩
      rw [isPreactive, hpool]
      rfl
  refine ⟨fun v hv => ?_, fun s hs => ?_⟩
  · cases hv with
    | active hv =>
      obtain ⟨v', hv', power, rfl⟩ := exists_of_forall₂_right hpow hv
      obtain ⟨w, hw, hactv⟩ := exists_of_forall₂_right hforall hv'
      have hbook := (hgen.book w hw).1.activate hactv fun s hs =>
        (hgen.stakes s (Multiset.mem_coe.mp (Multiset.mem_of_mem_filter hs))).2.le
      exact hbook.of_pool rfl rfl
    | pending hv | candidate _ hv | inactive _ hv => simp at hv
  · have hin := (hgen.stakes s (Multiset.mem_coe.mp hs)).1
    rw [← hids] at hin
    obtain ⟨v, hv, heq⟩ := mem_map.mp hin
    have hmapp := mapping_of_joined hpart (mem_append_left _ hv)
    refine .inl ?_
    rw [← heq]
    exact fun hnone => by simp [roster, hmapp] at hnone

lemma Call.Takes.eq_of_ne (h : call.Takes outstanding rest)
    (hstays : ∀ s, call ≠ .requestWithdrawStake s) : outstanding = rest := by
  cases call with
  | requestWithdrawStake s => exact absurd rfl (hstays s)
  | _ => exact h

def Call.isRegular : Call → Bool
  | .advanceEpochSafeMode => false
  | _ => true

lemma books_effect (h : Books state.epoch state.validators outstanding) (hsgs : state.validators.Stages)
    (hpart : state.validators.roster.Partition) (hfr : call.Fresh state) (hregu : call.isRegular = true)
    (hstays : ∀ s, call ≠ .requestWithdrawStake s)
    (heffect : Effect validateMetadata state sender call state' stakes) :
    Books state'.epoch state'.validators (↑stakes + outstanding) := by
  have hupd : ∀ {α : Type} {includeCandidate : Bool} {update : Update α} {set : ValidatorSet} {a : α},
      (∀ v v' a, update v = .ok (v', a) →
        (v'.stakingPool, v'.nextEpochStake) = (v.stakingPool, v.nextEpochStake)) →
      Agree stamp state.validators set →
      state.validators.getActiveOrPendingOrCandidateValidatorMut sender includeCandidate update =
        .ok (set, a) →
      Books state.epoch set outstanding := fun hkp hstamp hset =>
    h.agree (agree_getActiveOrPendingOrCandidateValidatorMut hkp hset) (roster_eq_of_agree hstamp)
  cases heffect with
  | register hcall hnew hset =>
    subst hcall
    obtain ⟨metadata, -, rfl⟩ := new_eq_ok hnew
    exact (Multiset.coe_nil ▸ zero_add outstanding).symm ▸ h.register rfl rfl (hfr _ rfl) hset
  | removeCandidate hset =>
    rw [Multiset.coe_nil, zero_add]
    exact h.removeCandidate hset
  | join hset =>
    rw [Multiset.coe_nil, zero_add]
    exact h.joinPending hset
  | requestRemoval hset =>
    rw [Multiset.coe_nil, zero_add]
    have hstep := roster_requestRemoval hset
    obtain ⟨index, -, -, rfl⟩ := requestRemoveValidator_eq_ok hset
    refine ⟨fun v hv => h.book v ?_, fun s hs => hstep.knows (h.known s hs)⟩
    cases hv with
    | active hv => exact .active hv
    | pending hv => exact .pending hv
    | candidate address hv => exact .candidate address hv
    | inactive id hv => exact .inactive id hv
  | addStake hset => exact h.addStake hpart hset
  | withdraw hcall => exact absurd hcall (hstays _)
  | report | undoReport =>
    rw [Multiset.coe_nil, zero_add]
    exact h
  | settings hagr =>
    rw [Multiset.coe_nil, zero_add]
    exact h.agree (hagr.of_eq fun v v' hv => congrArg Prod.snd hv)
      (roster_eq_of_agree (stamp_settings hagr))
  | stage hwr hset hchk =>
    rw [Multiset.coe_nil, zero_add]
    refine hupd (fun v v' w hv => ?_) (stamp_stage hwr hset) hset
    obtain ⟨u, hu, hv⟩ := bind_eq_ok.mp hv
    cases hv
    rw [(hwr v v' hu).2.1, (hwr v v' hu).2.2]
  | updateCandidate _ hwr _ hset =>
    rw [Multiset.coe_nil, zero_add]
    refine hupd (fun v v' w hv => ?_) (stamp_updateCandidate hwr hset) hset
    have hv := plain_eq_ok hv
    rw [(hwr v v' hv).2.1, (hwr v v' hv).2.2]
  | advance _ _ hset =>
    obtain ⟨parts, -, hadv⟩ := advanceEpoch_eq_ok hset
    exact h.advance hsgs hpart hadv
  | safeMode hcall =>
    subst hcall
    cases hregu

lemma books_run
    (h : SystemRun validateMetadata (fun _ _ call _ => call.isRegular = true) state outstanding) :
    Books state.epoch state.validators outstanding := by
  induction h with
  | genesis h => exact books_create h
  | call hrun hfr htakes hexec hregu ih =>
    rename_i call _ rest _
    by_cases hdraw : ∃ s, call = .requestWithdrawStake s
    · obtain ⟨s, rfl⟩ := hdraw
      obtain rfl : _ = s ::ₘ rest := htakes
      obtain ⟨hactd, hexec⟩ := check_bind_eq_ok.mp hexec
      obtain ⟨⟨validators, amount⟩, hvals, hexec⟩ := bind_eq_ok.mp hexec
      rw [decide_eq_true_eq] at hactd
      cases hexec
      rw [Multiset.coe_nil, zero_add]
      exact ih.withdraw (partition_run hrun) hactd hvals
    · have hstays : ∀ s, call ≠ .requestWithdrawStake s := not_exists.mp hdraw
      have hrest : _ = rest := htakes.eq_of_ne hstays
      rw [← hrest]
      exact books_effect ih (stages_run hrun) (partition_run hrun) hfr hregu hstays
        (SuiSystemState.execute_outcome hexec).effect
  | split _ hspl ih =>
    obtain ⟨id, e, x, y, rfl, rfl, rfl, -, -⟩ := StakedSui.split_eq_ok hspl
    exact Books.parts_iff.mp ih
  | join _ hjoin ih =>
    obtain ⟨id, e, x, y, rfl, rfl, rfl⟩ := StakedSui.joinStakedSui_eq_ok hjoin
    exact Books.parts_iff.mpr ih

end Runs

end SuiProofs.SuiSystem

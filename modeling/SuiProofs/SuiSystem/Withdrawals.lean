import SuiProofs.SuiSystem.StakeBooks

namespace SuiProofs.SuiSystem

open Library StakeLedger List Std Multiset Validator

/-- Tokens and the SUI of the rates are unsigned 64 bit numbers. -/
def StakingPool.FitsU64 (pool : StakingPool) : Prop :=
  pool.poolTokenBalance < 2 ^ 64 ∧ ∀ entry ∈ pool.exchangeRates.toList, entry.2.suiAmount < 2 ^ 64

instance (pool : StakingPool) : Decidable pool.FitsU64 := inferInstanceAs (Decidable (_ ∧ _))

lemma StakingPool.FitsU64.rate_lt {pool : StakingPool} (h : pool.FitsU64) {epoch : ℕ}
    {rate : PoolTokenExchangeRate}
    (hrate : pool.exchangeRates[epoch]? = some rate) : rate.suiAmount < 2 ^ 64 :=
  h.2 (epoch, rate) (TreeMap.mem_toList_iff_getElem?_eq_some.mpr hrate)

namespace PoolTokenExchangeRate

variable {E : Abort → Prop} {rate : PoolTokenExchangeRate} {amount : ℕ}

lemma getSuiAmount_ends_of_le (hfits : rate.suiAmount < 2 ^ 64)
    (hle : rate.suiAmount = 0 ∨ amount ≤ rate.poolTokenAmount) :
    Ends (rate.getSuiAmount amount) E fun _ => True := by
  unfold getSuiAmount
  split_ifs with hzero
  · exact .ok trivial
  · have hle := hle.resolve_left fun he => hzero (.inl he)
    have hworth : rate.suiAmount * amount / rate.poolTokenAmount ≤ rate.suiAmount :=
      Nat.div_le_of_le_mul (by rw [Nat.mul_comm]; exact Nat.mul_le_mul_right _ hle)
    rw [castU64_eq_ok.mpr ⟨hworth.trans_lt hfits, rfl⟩]
    exact .ok trivial

end PoolTokenExchangeRate

variable {epoch : ℕ} {outstanding : Multiset StakedSui} {v : Validator} {s : StakedSui}

namespace HasBook

lemma rate_lt {rate : ℕ → PoolTokenExchangeRate} (h : Accounts ⟨epoch, v, outstanding⟩ rate)
    (hfits : v.stakingPool.FitsU64) :
    (rate epoch).suiAmount < 2 ^ 64 := by
  cases h.stage with
  | preactive _ _ _ _ _ _ hrate =>
    rw [hrate]
    exact Nat.two_pow_pos 64
  | active first _ _ hfst hrecs =>
    have hrecd : v.stakingPool.exchangeRates[epoch]? = some (rate epoch) :=
      (hrecs.1 epoch).trans (if_pos ⟨hfst, le_rfl⟩)
    exact hfits.rate_lt hrecd
  | inactive first last _ _ hfst hlast hrecs haft =>
    have hrecd : (rate last).suiAmount < 2 ^ 64 :=
      hfits.rate_lt ((hrecs.1 last).trans (if_pos ⟨hfst, le_rfl⟩))
    rcases hlast.eq_or_lt with heq | hlt
    · obtain rfl : last = epoch := heq
      exact hrecd
    · rw [haft epoch hlt]
      exact hrecd

lemma withdraw_total (h : HasBook epoch outstanding v) (hfits : v.stakingPool.FitsU64)
    (hs : s ∈ outstanding)
    (hid : s.poolId = v.stakingPoolId) (hactd : s.stakeActivationEpoch ≤ epoch) :
    ∃ v' amount, v.requestWithdrawStake s epoch = .ok (v', amount) ∧ s.principal ≤ amount := by
  obtain ⟨rate, haccs, hcapped⟩ := h
  have hmem : s ∈ stakesOf outstanding v.stakingPoolId := mem_filter.mpr ⟨hs, hid⟩
  obtain ⟨rest, hrest⟩ := exists_cons_of_mem hmem
  -- the tokens of the stake are in the pool
  have htok : (rate s.stakeActivationEpoch).tokens s.principal ≤ v.stakingPool.poolTokenBalance := by
    have hsolv : tokensOwed (stakesOf outstanding v.stakingPoolId) rate epoch +
      v.stakingPool.pendingPoolTokenWithdraw ≤
        v.stakingPool.poolTokenBalance := haccs.solvent
    rw [hrest] at hsolv
    have howed : tokensOwed rest rate epoch + (rate s.stakeActivationEpoch).tokens s.principal ≤
        tokensOwed (s ::ₘ rest) rate epoch :=
      tokensOwed_add_le hactd
    omega
  have hends := haccs.requestWithdrawStake (E := fun _ => False) hmem hactd
    (PoolTokenExchangeRate.getTokenAmount_of_lt (htok.trans_lt hfits.1) ▸ .ok rfl)
    (PoolTokenExchangeRate.getSuiAmount_ends_of_le (rate_lt haccs hfits) (hcapped.imp_right htok.trans))
  obtain ⟨⟨v', amount⟩, hdraw, -⟩ := hends.exists_ok
  refine ⟨v', amount, hdraw, ?_⟩
  obtain ⟨pool, hpool, -⟩ := requestWithdrawStake_eq_ok hdraw
  obtain ⟨_, reward, -, -, rfl, -⟩ := StakingPool.requestWithdrawStake_eq_ok hpool
  exact Nat.le_add_right _ _

end HasBook

namespace ValidatorSet

variable {set : ValidatorSet}

def everyone (set : ValidatorSet) : List Validator :=
  set.activeValidators ++ set.pendingActiveValidators ++ set.validatorCandidates.toList.map Prod.snd ++
    set.inactiveValidators.toList.map Prod.snd

lemma mem_everyone (h : set.Holds v) : v ∈ set.everyone := by
  have hval : ∀ {table : TreeMap ℕ Validator} {key : ℕ}, table[key]? = some v →
    v ∈ table.toList.map Prod.snd := fun hkey =>
    mem_map.mpr ⟨_, TreeMap.mem_toList_iff_getElem?_eq_some.mpr hkey, rfl⟩
  unfold everyone
  rw [mem_append, mem_append, mem_append]
  cases h with
  | active hv => exact .inl (.inl (.inl hv))
  | pending hv => exact .inl (.inl (.inr hv))
  | candidate address hv => exact .inl (.inr (hval hv))
  | inactive id hv => exact .inr (hval hv)

lemma getCandidateOrActiveValidatorMut_total {α : Type} {address : SuiAddress} (update : Update α)
    {v' : Validator} {a : α} (hv : set.validatorCandidates[address]? = some v ∨
      set.validatorCandidates[address]? = none ∧
        ∃ index, findValidator set.activeValidators address = some index ∧
          set.activeValidators[index]? = some v)
    (hupd : update v = .ok (v', a)) :
    ∃ set', set.getCandidateOrActiveValidatorMut address update = .ok (set', a) := by
  unfold getCandidateOrActiveValidatorMut
  rcases hv with hv | ⟨hnone, index, hfind, hv⟩
  · have hcont : set.validatorCandidates.contains address = true :=
      TreeMap.contains_iff_mem.mpr (mem_map_iff_exists.mpr ⟨v, hv⟩)
    rw [if_pos hcont, getCandidateMut, hv]
    dsimp only
    rw [hupd]
    exact ⟨_, rfl⟩
  · have hcont : ¬set.validatorCandidates.contains address = true := fun hin => by
      obtain ⟨w, hw⟩ := mem_map_iff_exists.mp (TreeMap.contains_iff_mem.mp hin)
      rw [hnone] at hw
      cases hw
    rw [if_neg hcont, getActiveMut, getValidatorMut, hfind]
    dsimp only [updateAt]
    rw [hv]
    dsimp only
    rw [hupd]
    exact ⟨_, rfl⟩

lemma findValidator_active (h : set.roster.Partition) (hv : v ∈ set.activeValidators) :
    ∃ index, findValidator set.activeValidators v.suiAddress = some index ∧
      set.activeValidators[index]? = some v := by
  have hnd : (set.activeValidators.map suiAddress).Nodup := by
    have haddrs := h.addresses
    rw [addresses_roster, map_append] at haddrs
    exact (nodup_append.mp haddrs).1
  have hsome : (findValidator set.activeValidators v.suiAddress).isSome = true := by
    rw [findValidator, List.findIdx?_isSome, any_eq_true]
    exact ⟨v, hv, decide_eq_true rfl⟩
  obtain ⟨index, hfind⟩ := Option.isSome_iff_exists.mp hsome
  obtain ⟨hlt, hfd, -⟩ := List.findIdx?_eq_some_iff_getElem.mp hfind
  have hsame : set.activeValidators[index] = v :=
    inj_on_of_nodup_map hnd (getElem_mem hlt) hv (of_decide_eq_true hfd)
  exact ⟨index, hfind, by rw [List.getElem?_eq_getElem hlt, hsame]⟩

lemma candidate_none_of_joined (h : set.roster.Partition)
    (hv : v ∈ set.activeValidators ++ set.pendingActiveValidators) :
    set.validatorCandidates[v.suiAddress]? = none := by
  cases hcand : set.validatorCandidates[v.suiAddress]? with
  | none => rfl
  | some w =>
    refine absurd ?_ (h.candidates v.suiAddress w.entry (by simp [roster, hcand])).2
    rw [addresses_roster]
    exact mem_map_of_mem hv

lemma requestWithdrawStake_total (hpart : set.roster.Partition) (hbooks : Books epoch set outstanding)
    (hfits : ∀ v ∈ set.everyone, v.stakingPool.FitsU64) (hs : s ∈ outstanding)
    (hactd : s.stakeActivationEpoch ≤ epoch)
    (hpend : s.poolId ∉ set.pendingActiveValidators.map stakingPoolId) :
    ∃ set' amount, set.requestWithdrawStake s epoch = .ok (set', amount) ∧ s.principal ≤ amount := by
  have hpays : ∀ v, set.Holds v → s.poolId = v.stakingPoolId →
      ∃ v' amount, v.requestWithdrawStake s epoch = .ok (v', amount) ∧
        s.principal ≤ amount := fun v hv hid =>
    (hbooks.book v hv).withdraw_total (hfits v (mem_everyone hv)) hs hid hactd
  unfold requestWithdrawStake
  cases hmapp : set.stakingPoolMappings[s.poolId]? with
  | some address =>
    suffices h : ∃ v, set.Holds v ∧ s.poolId = v.stakingPoolId ∧
      (set.validatorCandidates[address]? = some v ∨
        set.validatorCandidates[address]? = none ∧
          ∃ index, findValidator set.activeValidators address = some index ∧
            set.activeValidators[index]? = some v) by
      obtain ⟨v, hheld, hid, hplace⟩ := h
      obtain ⟨v', amount, hv', hle⟩ := hpays v hheld hid
      obtain ⟨set', hset'⟩ :=
        getCandidateOrActiveValidatorMut_total (fun v => v.requestWithdrawStake s epoch) hplace hv'
      exact ⟨set', amount, hset', hle⟩
    rcases (hpart.mappings s.poolId address).mp hmapp with hjnd | hcand
    · rw [joined_roster] at hjnd
      obtain ⟨v, hv, heq⟩ := mem_map.mp hjnd
      obtain ⟨rfl, hid⟩ := Prod.mk.inj heq
      have hact : v ∈ set.activeValidators :=
        (mem_append.mp hv).resolve_right fun hin => hpend (hid ▸ mem_map_of_mem hin)
      exact ⟨v, .active hact, hid.symm,
        .inr ⟨candidate_none_of_joined hpart hv, findValidator_active hpart hact⟩⟩
    · obtain ⟨v, hv, heq⟩ := Option.map_eq_some_iff.mp hcand
      exact ⟨v, .candidate address hv, (congrArg Prod.snd heq).symm, .inl hv⟩
  | none =>
    have hkn : set.roster.inactive s.poolId ≠ none :=
      (hbooks.known s hs).resolve_left fun hmapped => hmapped hmapp
    obtain ⟨id, hina⟩ := Option.ne_none_iff_exists'.mp hkn
    obtain ⟨v, hv, -⟩ := Option.map_eq_some_iff.mp hina
    obtain ⟨v', amount, hv', hle⟩ := hpays v (.inactive _ hv) (mapping_of_inactive hpart hv).1.symm
    dsimp only [requestWithdrawStakeInactive]
    rw [hv]
    dsimp only
    rw [hv']
    exact ⟨_, amount, rfl, hle⟩

lemma requestWithdrawStake_pending (hpart : set.roster.Partition)
    (hpend : s.poolId ∈ set.pendingActiveValidators.map stakingPoolId)
    {result : ValidatorSet × ℕ} : set.requestWithdrawStake s epoch ≠ .ok result := by
  intro hdraw
  obtain ⟨v, hv, hid⟩ := mem_map.mp hpend
  have hjnd : v ∈ set.activeValidators ++ set.pendingActiveValidators := mem_append_right _ hv
  have hmapp := mapping_of_joined hpart hjnd
  have hcand := candidate_none_of_joined hpart hjnd
  unfold requestWithdrawStake at hdraw
  rw [← hid, hmapp] at hdraw
  dsimp only [getCandidateOrActiveValidatorMut] at hdraw
  split_ifs at hdraw with hcont
  · obtain ⟨w, hw⟩ := mem_map_iff_exists.mp (TreeMap.contains_iff_mem.mp hcont)
    rw [hcand] at hw
    cases hw
  · obtain ⟨validators, hvals, -⟩ := getActiveMut_eq_ok hdraw
    obtain ⟨before, w, w', after, hact, haddr, -⟩ := getValidatorMut_eq_ok hvals
    have haddrs := hpart.addresses
    rw [addresses_roster, map_append] at haddrs
    refine (nodup_append.mp haddrs).2.2 w.suiAddress ?_ v.suiAddress (mem_map_of_mem hv) haddr
    rw [hact]
    exact mem_map_of_mem (mem_append_right _ mem_cons_self)

end ValidatorSet

/-- In a run without safe mode, an activated stake is withdrawn, with at least its principal, unless
the validator of its pool is pending. -/
theorem activated_stake_withdrawn_iff {validateMetadata : ValidatorMetadata → Bool}
    {state : SuiSystemState} {outstanding : Multiset StakedSui}
    {sender : SuiAddress} {s : StakedSui}
    (hrun : SystemRun validateMetadata (fun _ _ call _ => call.isRegular = true) state outstanding)
    (hfits : ∀ v ∈ state.validators.everyone, v.stakingPool.FitsU64) (hs : s ∈ outstanding)
    (hactivated : s.stakeActivationEpoch ≤ state.epoch) :
    (∃ validators amount, state.validators.requestWithdrawStake s state.epoch =
      .ok (validators, amount) ∧ s.principal ≤ amount ∧
        state.execute validateMetadata sender (.requestWithdrawStake s) =
          .ok ({ state with validators }, [])) ↔
      s.poolId ∉ state.validators.pendingActiveValidators.map Validator.stakingPoolId := by
  have hpartition := partition_run hrun
  constructor
  · rintro ⟨validators, amount, hwithdraw, -⟩ hpending
    exact ValidatorSet.requestWithdrawStake_pending hpartition hpending hwithdraw
  · intro hpending
    obtain ⟨validators, amount, hwithdraw, hle⟩ :=
      ValidatorSet.requestWithdrawStake_total hpartition (books_run hrun) hfits hs hactivated hpending
    refine ⟨validators, amount, hwithdraw, hle, ?_⟩
    exact bind_eq_ok.mpr ⟨(), check_eq_ok.mpr (decide_eq_true hactivated),
      bind_eq_ok.mpr ⟨_, hwithdraw, rfl⟩⟩

def stakedCandidateScript : List (SuiAddress × Call) :=
  [(2, .requestAddValidatorCandidate (sampleRegistration 2) 2 2),
    (3, .requestAddStake 30000000000 2), (0, .advanceEpoch 0 0 0)]

/-- Rewards and a stake of sixty SUI, a safe mode epoch, rewards again, and the validator leaves. -/
def safeModeScript : List (SuiAddress × Call) :=
  [(3, .requestAddStake 200000000000 1), (0, .advanceEpoch 60000000000 0 0),
    (3, .requestAddStake 60000000000 2), (0, .advanceEpochSafeMode), (2, .requestRemoveValidator),
    (0, .advanceEpoch 120000000000 0 0), (3, .requestWithdrawStake ⟨2, 2, 60000000000⟩)]

/-- A stake with a candidate is withdrawn an epoch later. -/
theorem activated_stake_withdrawn_candidate :
    ∃ state outstanding, SystemRun (fun _ => true)
      (fun _ _ call _ => call.isRegular = true) state outstanding ∧
      (⟨2, 1, 30000000000⟩ : StakedSui) ∈ outstanding ∧ state.epoch = 1 ∧
      ∃ validators amount, state.validators.requestWithdrawStake ⟨2, 1, 30000000000⟩ state.epoch =
        .ok (validators, amount) ∧
        30000000000 ≤ amount ∧ state.execute (fun _ => true) 3
          (.requestWithdrawStake ⟨2, 1, 30000000000⟩) = .ok ({ state with validators }, []) := by
  obtain ⟨⟨state, outstanding⟩, hresult, hstate⟩ := (Option.any_eq_true _ _).mp
    (by decide +kernel : (runScript (fun _ _ call => call.isRegular) sampleGenesis
        stakedCandidateScript).any
      (fun result => (⟨2, 1, 30000000000⟩ : StakedSui) ∈ result.2 ∧ result.1.epoch = 1 ∧
        (∀ v ∈ result.1.validators.everyone, v.stakingPool.FitsU64) ∧
          result.1.validators.pendingActiveValidators.isEmpty = true) = true)
  have hrun : SystemRun (fun _ => true) (fun _ _ call _ => call.isRegular = true) state outstanding :=
    systemRun_of_runScript (fun _ _ _ _ h => h) hresult
  obtain ⟨hs, hepoch, hfits, hpending⟩ := of_decide_eq_true hstate
  refine ⟨state, outstanding, hrun, mem_coe.mpr hs, hepoch, ?_⟩
  refine (activated_stake_withdrawn_iff hrun hfits (mem_coe.mpr hs) (by rw [hepoch])).mpr ?_
  rw [isEmpty_iff.mp hpending]
  exact not_mem_nil

/-- The activated stake of a candidate that has joined, and one of a pool that went through a safe
mode epoch, are not withdrawn. -/
theorem withdrawal_fails :
    (∃ state outstanding, SystemRun (fun _ => true) (fun _ _ call _ => call.isRegular = true)
      state outstanding ∧
      (⟨2, 1, 30000000000⟩ : StakedSui) ∈ outstanding ∧ state.epoch = 1 ∧
      state.validators.requestWithdrawStake ⟨2, 1, 30000000000⟩ state.epoch = .error .notAValidator) ∧
    ∃ state outstanding, SystemRun (fun _ => true) (fun _ _ _ _ => True) state outstanding ∧
      (⟨2, 0, 30000000000⟩ : StakedSui) ∈ outstanding ∧
      state.validators.requestWithdrawStake ⟨2, 0, 30000000000⟩ state.epoch =
        .error .arithmeticUnderflow := by
  constructor
  · obtain ⟨⟨state, outstanding⟩, hresult, hstate⟩ := (Option.any_eq_true _ _).mp
      (by decide +kernel : (runScript (fun _ _ call => call.isRegular) sampleGenesis
          (stakedCandidateScript ++ [(2, .requestAddValidator)])).any
        (fun result => decide ((⟨2, 1, 30000000000⟩ : StakedSui) ∈ result.2 ∧ result.1.epoch = 1) &&
          failsWith (result.1.validators.requestWithdrawStake ⟨2, 1, 30000000000⟩ result.1.epoch)
            .notAValidator) = true)
    obtain ⟨hdata, hfails⟩ := Bool.and_eq_true_iff.mp hstate
    obtain ⟨hs, hepoch⟩ := of_decide_eq_true hdata
    exact ⟨state, outstanding, systemRun_of_runScript (fun _ _ _ _ h => h) hresult, mem_coe.mpr hs,
      hepoch, eq_error_of_failsWith hfails⟩
  · obtain ⟨⟨state, outstanding⟩, hresult, hstate⟩ := (Option.any_eq_true _ _).mp
      (by decide +kernel : (runScript (fun _ _ _ => true) sampleGenesisPair safeModeScript).any
        (fun result => decide ((⟨2, 0, 30000000000⟩ : StakedSui) ∈ result.2) &&
          failsWith (result.1.validators.requestWithdrawStake ⟨2, 0, 30000000000⟩ result.1.epoch)
            .arithmeticUnderflow) = true)
    obtain ⟨hs, hfails⟩ := Bool.and_eq_true_iff.mp hstate
    exact ⟨state, outstanding, systemRun_of_runScript (fun _ _ _ _ _ => trivial) hresult,
      mem_coe.mpr (of_decide_eq_true hs),
      eq_error_of_failsWith hfails⟩

end SuiProofs.SuiSystem

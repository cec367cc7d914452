import SuiProofs.SuiSystem.Validator

namespace SuiProofs.SuiSystem

open Library PoolTokenExchangeRate Multiset Validator

def totalPrincipal (stakes : Multiset StakedSui) : ℕ := (stakes.map StakedSui.principal).sum

def principalAt (stakes : Multiset StakedSui) (epoch : ℕ) : ℕ :=
  totalPrincipal (stakes.filter fun s => s.stakeActivationEpoch = epoch)

section Principal

variable {stakes : Multiset StakedSui} {s : StakedSui} {epoch : ℕ}

@[simp] lemma totalPrincipal_cons :
    totalPrincipal (s ::ₘ stakes) = s.principal + totalPrincipal stakes := by
  simp [totalPrincipal]

@[simp] lemma principalAt_cons :
    principalAt (s ::ₘ stakes) epoch =
      (if s.stakeActivationEpoch = epoch then s.principal else 0) + principalAt stakes epoch := by
  unfold principalAt
  by_cases h : s.stakeActivationEpoch = epoch
  · rw [filter_cons_of_pos (p := fun s => s.stakeActivationEpoch = epoch) stakes h,
      totalPrincipal_cons, if_pos h]
  · rw [filter_cons_of_neg (p := fun s => s.stakeActivationEpoch = epoch) stakes h, if_neg h, zero_add]

lemma principalAt_eq_zero (h : ∀ s ∈ stakes, s.stakeActivationEpoch < epoch) :
    principalAt stakes epoch = 0 := by
  unfold principalAt
  rw [filter_eq_nil.mpr fun s hs => (h s hs).ne]
  rfl

lemma sum_principalAt (h : ∀ s ∈ stakes, s.stakeActivationEpoch < epoch) :
    ∑ e ∈ Finset.range epoch, principalAt stakes e = totalPrincipal stakes := by
  induction stakes using Multiset.induction with
  | empty => simp [principalAt, totalPrincipal]
  | cons s stakes ih =>
    have hs : s.stakeActivationEpoch < epoch := h s (mem_cons_self s stakes)
    have hrest := ih fun t ht => h t (mem_cons_of_mem ht)
    simp only [principalAt_cons, totalPrincipal_cons, Finset.sum_add_distrib, hrest,
      Finset.sum_ite_eq, Finset.mem_range, hs,
      if_true]

lemma sum_principalAt_add (h : ∀ s ∈ stakes, s.stakeActivationEpoch ≤ epoch + 1) :
    ∑ e ∈ Finset.range (epoch + 1), principalAt stakes e + principalAt stakes (epoch + 1) =
      totalPrincipal stakes := by
  rw [← Finset.sum_range_succ]
  exact sum_principalAt fun s hs => Nat.lt_succ_of_le (h s hs)

/-- The tokens of the activated stakes, each epoch's at its own rate. -/
def tokensOwed (stakes : Multiset StakedSui) (rate : ℕ → PoolTokenExchangeRate) (epoch : ℕ) : ℕ :=
  ∑ e ∈ Finset.range (epoch + 1), (rate e).tokens (principalAt stakes e)

variable {rate : ℕ → PoolTokenExchangeRate}

lemma tokensOwed_succ (rate : ℕ → PoolTokenExchangeRate) :
    tokensOwed stakes rate (epoch + 1) = tokensOwed stakes rate epoch + (rate (epoch + 1)).tokens
      (principalAt stakes (epoch + 1)) :=
  Finset.sum_range_succ _ _

lemma tokensOwed_congr {rate' : ℕ → PoolTokenExchangeRate} (h : ∀ e ≤ epoch, rate e = rate' e) :
    tokensOwed stakes rate epoch = tokensOwed stakes rate' epoch :=
  Finset.sum_congr rfl fun e he => by rw [h e (Nat.lt_succ_iff.mp (Finset.mem_range.mp he))]

lemma tokensOwed_add_le (hs : s.stakeActivationEpoch ≤ epoch) :
    tokensOwed stakes rate epoch + (rate s.stakeActivationEpoch).tokens s.principal ≤ tokensOwed
      (s ::ₘ stakes) rate epoch := by
  have hown : ∑ e ∈ Finset.range (epoch + 1),
    (rate e).tokens (if s.stakeActivationEpoch = e then s.principal else 0) =
      (rate s.stakeActivationEpoch).tokens s.principal := by
    rw [Finset.sum_eq_single_of_mem s.stakeActivationEpoch (Finset.mem_range.mpr (Nat.lt_succ_of_le hs))]
    · rw [if_pos rfl]
    · intro e _ hne
      rw [if_neg hne.symm, tokens_zero]
  unfold tokensOwed
  rw [← hown, ← Finset.sum_add_distrib]
  refine Finset.sum_le_sum fun e _ => ?_
  rw [principalAt_cons, add_comm]
  exact tokens_add_le

lemma tokensOwed_cons_of_lt (hs : epoch < s.stakeActivationEpoch) :
    tokensOwed (s ::ₘ stakes) rate epoch = tokensOwed stakes rate epoch := by
  refine Finset.sum_congr rfl fun e he => ?_
  have hne : s.stakeActivationEpoch ≠ e := ((Finset.mem_range.mp he).trans_le hs).ne'
  rw [principalAt_cons, if_neg hne, zero_add]

lemma tokensOwed_initial :
    tokensOwed stakes (fun _ => initialExchangeRate) epoch =
      ∑ e ∈ Finset.range (epoch + 1), principalAt stakes e :=
  Finset.sum_congr rfl fun _ _ => tokens_of_zero (.inl rfl)

end Principal

/-- A validator with the stakes that were taken from its pool and are not withdrawn. -/
structure StakeLedger where
  epoch : ℕ
  validator : Validator
  outstanding : Multiset StakedSui

namespace StakeLedger

abbrev pool (l : StakeLedger) : StakingPool := l.validator.stakingPool

def IsActive (v : Validator) : Prop := v.isPreactive = false ∧ v.stakingPool.isInactive = false

/-- What the end of an epoch does to a validator that stays. -/
inductive EpochEnd (epoch : ℕ) (v : Validator) : Validator → Prop where
  | process {v' : Validator} (hactive : IsActive v)
      (h : v.processPendingStakesAndWithdraws epoch = .ok v') : EpochEnd epoch v v'
  | activate {v' : Validator} (h : v.activate (epoch + 1) = .ok v') : EpochEnd epoch v v'
  | idle (h : v.isPreactive = true ∨ v.stakingPool.isInactive = true) : EpochEnd epoch v v

/-- What calls and epoch changes do to one pool and its stakes. -/
inductive Step (l : StakeLedger) : StakeLedger → Prop where
  | addStake {amount : ℕ} {v : Validator} {s : StakedSui}
      (h : l.validator.requestAddStake amount l.epoch = .ok (v, s)) :
      Step l ⟨l.epoch, v, s ::ₘ l.outstanding⟩
  | addStakeAtGenesis {amount : ℕ} {v : Validator} {s : StakedSui}
      (hpreactive : l.validator.isPreactive = true)
      (h : l.validator.requestAddStakeAtGenesis amount l.epoch = .ok (v, s)) :
        Step l ⟨l.epoch, v, s ::ₘ l.outstanding⟩
  | split {s kept part : StakedSui} {rest : Multiset StakedSui} {amount : ℕ}
      (hmem : l.outstanding = s ::ₘ rest)
      (h : s.split amount = .ok (kept, part)) : Step l ⟨l.epoch, l.validator, kept ::ₘ part ::ₘ rest⟩
  | join {s other joined : StakedSui} {rest : Multiset StakedSui}
      (hmem : l.outstanding = s ::ₘ other ::ₘ rest)
      (h : s.joinStakedSui other = .ok joined) : Step l ⟨l.epoch, l.validator, joined ::ₘ rest⟩
  | withdraw {s : StakedSui} {rest : Multiset StakedSui} {v : Validator} {amount : ℕ}
      (hmem : l.outstanding = s ::ₘ rest) (hactivated : s.stakeActivationEpoch ≤ l.epoch)
      (h : l.validator.requestWithdrawStake s l.epoch = .ok (v, amount)) :
      Step l ⟨l.epoch, v, rest⟩
  | depositRewards {reward : ℕ} (hactive : IsActive l.validator) :
      Step l ⟨l.epoch, l.validator.depositStakeRewards reward, l.outstanding⟩
  | activateAtGenesis {v : Validator} (hgenesis : l.epoch = 0)
      (hstakes : ∀ s ∈ l.outstanding, s.stakeActivationEpoch = 0)
      (h : l.validator.activate 0 = .ok v) : Step l ⟨l.epoch, v, l.outstanding⟩
  | removeCandidate {v : Validator} (hpreactive : l.validator.isPreactive = true)
      (h : l.validator.deactivate l.epoch = .ok v) :
      Step l ⟨l.epoch, v, l.outstanding⟩
  | epochChange {v : Validator} (hend : EpochEnd l.epoch l.validator v) :
      Step l ⟨l.epoch + 1, v, l.outstanding⟩
  | leave {v v' : Validator} (hend : EpochEnd l.epoch l.validator v)
      (h : v.deactivate (l.epoch + 1) = .ok v') :
      Step l ⟨l.epoch + 1, v', l.outstanding⟩

/-- A pool that nobody has staked with. -/
structure IsNew (l : StakeLedger) : Prop where
  pool : ∃ id, l.pool = .new id
  nextEpochStake : l.validator.nextEpochStake = 0
  outstanding : l.outstanding = 0

def Reachable (l : StakeLedger) : Prop :=
  ∃ start : StakeLedger, start.IsNew ∧ Relation.ReflTransGen Step start l

/-- The rates recorded from the activation of a pool to an epoch are those of `rate`. -/
def Records (pool : StakingPool) (rate : ℕ → PoolTokenExchangeRate) (first last : ℕ) : Prop :=
  (∀ e, pool.exchangeRates[e]? = if first ≤ e ∧ e ≤ last then some (rate e) else none) ∧
    ∀ e < first, rate e = initialExchangeRate

/-- What the stage of the pool says about its tokens. -/
inductive PoolStage (l : StakeLedger) (rate : ℕ → PoolTokenExchangeRate) : Prop where
  | preactive (hstage : l.pool.activationEpoch = none)
      (hempty : ∀ e : ℕ, l.pool.exchangeRates[e]? = none)
      (hpending : l.pool.pendingStake = 0) (hrewards : l.pool.rewardsPool = 0)
      (htokens : l.pool.poolTokenBalance = l.pool.suiBalance)
      (hwithdraw : l.pool.pendingPoolTokenWithdraw = l.pool.pendingTotalSuiWithdraw)
      (hrate : rate = fun _ => initialExchangeRate)
  | active (first : ℕ) (hstage : l.pool.activationEpoch = some first)
      (hactive : l.pool.deactivationEpoch = none)
      (hfirst : first ≤ l.epoch) (hrecords : Records l.pool rate first l.epoch)
      (hpending : l.pool.pendingStake = principalAt l.outstanding (l.epoch + 1))
      (hsolvent : tokensOwed l.outstanding rate l.epoch + l.pool.pendingPoolTokenWithdraw ≤
        l.pool.poolTokenBalance)
  | inactive (first last : ℕ) (hstage : l.pool.activationEpoch = some first)
      (hinactive : l.pool.deactivationEpoch = some last)
      (hfirst : first ≤ last) (hlast : last ≤ l.epoch) (hrecords : Records l.pool rate first last)
      (hafter : ∀ e, last < e → rate e = rate last) (hpending : l.pool.pendingStake = 0)
      (hactivated : ∀ s ∈ l.outstanding, s.stakeActivationEpoch ≤ last)
      (hsolvent : tokensOwed l.outstanding rate l.epoch + l.pool.pendingPoolTokenWithdraw ≤
        l.pool.poolTokenBalance)

/-- The invariant of a pool: it holds the stakes, the rewards and the pending withdrawals. -/
structure Accounts (l : StakeLedger) (rate : ℕ → PoolTokenExchangeRate) : Prop where
  poolId : ∀ s ∈ l.outstanding, s.poolId = l.pool.id
  activation : ∀ s ∈ l.outstanding, s.stakeActivationEpoch ≤ l.epoch + 1
  balance : l.pool.suiBalance + l.pool.pendingStake =
    totalPrincipal l.outstanding + l.pool.rewardsPool + l.pool.pendingTotalSuiWithdraw
  nextStake : l.validator.nextEpochStake + l.pool.pendingTotalSuiWithdraw =
    l.pool.suiBalance + l.pool.pendingStake
  stage : PoolStage l rate

variable {l l' : StakeLedger} {rate : ℕ → PoolTokenExchangeRate}

lemma accounts_of_isNew (h : l.IsNew) : Accounts l fun _ => initialExchangeRate := by
  obtain ⟨⟨id, hpool⟩, hstk, hout⟩ := h
  refine ⟨?_, ?_, ?_, ?_, .preactive ?_ ?_ ?_ ?_ ?_ ?_ rfl⟩ <;>
    simp [hpool, hstk, hout, StakingPool.new, totalPrincipal]

namespace Accounts

section

variable (h : Accounts l rate)

include h

lemma solvent :
    tokensOwed l.outstanding rate l.epoch + l.pool.pendingPoolTokenWithdraw ≤
      l.pool.poolTokenBalance := by
  cases h.stage with
  | preactive hstage hemp hpend hrews htok hdraw hrate =>
    have hsum := sum_principalAt_add h.activation
    have hbal := h.balance
    rw [hrate, tokensOwed_initial]
    omega
  | active _ _ _ _ _ _ hsolv | inactive _ _ _ _ _ _ _ _ _ _ hsolv => exact hsolv

lemma withdraw_le : l.pool.pendingTotalSuiWithdraw ≤ l.pool.suiBalance := by
  have hbal := h.balance
  cases h.stage with
  | preactive | inactive => omega
  | active first hstage hact hfst hrecs hpend hsolv =>
    have hsum := sum_principalAt_add h.activation
    omega

lemma stage_of_preactive (hpre : l.validator.isPreactive = true) :
    l.pool.activationEpoch = none ∧ (∀ e : ℕ, l.pool.exchangeRates[e]? = none) ∧
      l.pool.pendingStake = 0 ∧
      l.pool.rewardsPool = 0 ∧ l.pool.poolTokenBalance = l.pool.suiBalance ∧
      l.pool.pendingPoolTokenWithdraw = l.pool.pendingTotalSuiWithdraw ∧ rate = fun _ =>
        initialExchangeRate := by
  cases h.stage with
  | preactive hstage hemp hpend hrews htok hdraw hrate =>
      exact ⟨hstage, hemp, hpend, hrews, htok, hdraw, hrate⟩
  | active _ hstage | inactive _ _ hstage =>
    exact absurd hpre (StakingPool.isPreactive_of_activationEpoch hstage)

lemma stage_of_active (hact : IsActive l.validator) :
    ∃ first, l.pool.activationEpoch = some first ∧ l.pool.deactivationEpoch = none ∧ first ≤ l.epoch ∧
      Records l.pool rate first l.epoch ∧ l.pool.pendingStake = principalAt l.outstanding (l.epoch + 1) ∧
      tokensOwed l.outstanding rate l.epoch + l.pool.pendingPoolTokenWithdraw ≤
        l.pool.poolTokenBalance := by
  obtain ⟨hpre, hina⟩ := hact
  cases h.stage with
  | preactive hstage => simp [isPreactive, StakingPool.isPreactive, hstage] at hpre
  | active first hstage hact hfst hrecs hpend hsolv =>
    exact ⟨first, hstage, hact, hfst, hrecs, hpend, hsolv⟩
  | inactive first last hstage hdeact =>
      exact absurd hina (StakingPool.isInactive_of_deactivationEpoch hdeact)

lemma poolTokenExchangeRateAtEpoch {e : ℕ} (he : e ≤ l.epoch) :
    l.pool.poolTokenExchangeRateAtEpoch e = .ok (rate e) := by
  unfold StakingPool.poolTokenExchangeRateAtEpoch
  cases h.stage with
  | preactive hstage hemp hpend hrews htok hdraw hrate => rw [hstage, hrate]
  | active first hstage hact hfst hrecs hpend hsolv =>
    rw [hstage, hact]
    dsimp only
    split_ifs with hbef
    · rw [hrecs.2 e hbef]
    · have hle : first ≤ e := not_lt.mp hbef
      rw [Option.getD_none, min_self]
      exact StakingPool.latestRate_of_getElem? hle (by rw [hrecs.1, if_pos ⟨hle, he⟩])
  | inactive first last hstage hina hfst hlast hrecs haft hpend hactd hsolv =>
    rw [hstage, hina]
    dsimp only
    split_ifs with hbef
    · rw [hrecs.2 e hbef]
    · have hle : first ≤ e := not_lt.mp hbef
      rw [Option.getD_some]
      refine StakingPool.latestRate_of_getElem? (le_min hfst hle) ?_
      rw [hrecs.1, if_pos ⟨le_min hfst hle, min_le_left _ _⟩]
      -- after the deactivation the last rate stays
      rcases le_or_gt e last with hin | hout
      · rw [min_eq_right hin]
      · rw [min_eq_left hout.le, haft e hout]

end

variable {v : Validator}

lemma of_pool (h : Accounts l rate) (hpool : v.stakingPool = l.pool)
    (hnext : v.nextEpochStake = l.validator.nextEpochStake) :
    Accounts ⟨l.epoch, v, l.outstanding⟩ rate := by
  obtain ⟨metadata, votingPower, capId, gasPrice, stakingPool, commissionRate, nextStake,
    nextGasPrice, nextCommissionRate⟩ := v
  subst hpool hnext
  refine ⟨h.poolId, h.activation, h.balance, h.nextStake, ?_⟩
  cases h.stage with
  | preactive hstage hemp hpend hrews htok hdraw hrate =>
    exact .preactive hstage hemp hpend hrews htok hdraw hrate
  | active first hstage hact hfst hrecs hpend hsolv =>
    exact .active first hstage hact hfst hrecs hpend hsolv
  | inactive first last hstage hina hfst hlast hrecs haft hpend hactd hsolv =>
    exact .inactive first last hstage hina hfst hlast hrecs haft hpend hactd hsolv

/-- Only the principal of each epoch counts, not how it is divided into stakes. -/
lemma of_outstanding (h : Accounts l rate) {out : Multiset StakedSui}
    (hat : ∀ e, principalAt out e = principalAt l.outstanding e)
    (htot : totalPrincipal out = totalPrincipal l.outstanding)
    (hmem : ∀ s ∈ out, ∃ t ∈ l.outstanding, s.poolId = t.poolId ∧
      s.stakeActivationEpoch = t.stakeActivationEpoch) :
    Accounts ⟨l.epoch, l.validator, out⟩ rate := by
  have howed : tokensOwed out rate l.epoch = tokensOwed l.outstanding rate l.epoch := by
    unfold tokensOwed
    simp only [hat]
  refine ⟨fun s hs => ?_, fun s hs => ?_, htot ▸ h.balance, h.nextStake, ?_⟩
  · obtain ⟨t, ht, hid, -⟩ := hmem s hs
    exact hid.trans (h.poolId t ht)
  · obtain ⟨t, ht, -, hep⟩ := hmem s hs
    exact hep.trans_le (h.activation t ht)
  · cases h.stage with
    | preactive hstage hemp hpend hrews htok hdraw hrate =>
      exact .preactive hstage hemp hpend hrews htok hdraw hrate
    | active first hstage hact hfst hrecs hpend hsolv =>
      exact .active first hstage hact hfst hrecs (hpend.trans (hat _).symm) (howed ▸ hsolv)
    | inactive first last hstage hina hfst hlast hrecs haft hpend hactd hsolv =>
      refine .inactive first last hstage hina hfst hlast hrecs haft hpend (fun s hs => ?_)
        (howed ▸ hsolv)
      obtain ⟨t, ht, -, hep⟩ := hmem s hs
      exact hep.trans_le (hactd t ht)

variable {s : StakedSui} {rest : Multiset StakedSui} {amount : ℕ}

/-- A stake counts as much as its two parts. -/
lemma parts_iff {epoch e x y : ℕ} {id : ID} :
    Accounts ⟨epoch, v, ⟨id, e, x + y⟩ ::ₘ rest⟩ rate ↔
      Accounts ⟨epoch, v, ⟨id, e, x⟩ ::ₘ ⟨id, e, y⟩ ::ₘ rest⟩ rate := by
  have hat : ∀ e', principalAt (⟨id, e, x⟩ ::ₘ ⟨id, e, y⟩ ::ₘ rest) e' =
      principalAt (⟨id, e, x + y⟩ ::ₘ rest) e' := by
    intro e'
    simp only [principalAt_cons]
    split_ifs <;> omega
  have htot : totalPrincipal (⟨id, e, x⟩ ::ₘ ⟨id, e, y⟩ ::ₘ rest) =
      totalPrincipal (⟨id, e, x + y⟩ ::ₘ rest) := by
    simp only [totalPrincipal_cons, add_assoc]
  constructor <;> intro h
  · refine h.of_outstanding hat htot (forall_mem_cons.mpr ⟨?_, forall_mem_cons.mpr ⟨?_, ?_⟩⟩)
    · exact ⟨_, mem_cons_self _ _, rfl, rfl⟩
    · exact ⟨_, mem_cons_self _ _, rfl, rfl⟩
    · exact fun t ht => ⟨t, mem_cons_of_mem ht, rfl, rfl⟩
  · refine h.of_outstanding (fun e' => (hat e').symm) htot.symm (forall_mem_cons.mpr ⟨?_, ?_⟩)
    · exact ⟨_, mem_cons_self _ _, rfl, rfl⟩
    · exact fun t ht => ⟨t, mem_cons_of_mem (mem_cons_of_mem ht), rfl, rfl⟩

section

variable (h : Accounts l rate)

include h

lemma stakePreactive (hpre : l.validator.isPreactive = true)
    (hid : s.poolId = l.pool.id) (hep : s.stakeActivationEpoch ≤ l.epoch + 1) :
    Accounts ⟨l.epoch, { l.validator with
      stakingPool := { l.pool with pendingStake := l.pool.pendingStake + s.principal }.staked
      nextEpochStake := l.validator.nextEpochStake + s.principal }, s ::ₘ l.outstanding⟩ rate := by
  have hbal := h.balance
  have hnext := h.nextStake
  obtain ⟨hstage, hemp, hpend, hrews, htok, hdraw, hrate⟩ := h.stage_of_preactive hpre
  have hone : tokens ⟨l.pool.suiBalance, l.pool.poolTokenBalance⟩
    (l.pool.suiBalance + (l.pool.pendingStake + s.principal)) =
      l.pool.suiBalance + (l.pool.pendingStake + s.principal) := by
    rw [htok]
    unfold tokens
    split_ifs with hzero
    · rfl
    · exact Nat.mul_div_cancel_left _ (Nat.pos_of_ne_zero fun he => hzero (.inl he))
  refine ⟨?_, ?_, ?_, ?_, .preactive hstage hemp rfl hrews hone hdraw hrate⟩
  · exact forall_mem_cons.mpr ⟨hid, h.poolId⟩
  · exact forall_mem_cons.mpr ⟨hep, h.activation⟩
  · dsimp only [StakingPool.staked]
    rw [totalPrincipal_cons]
    omega
  · dsimp only [StakingPool.staked]
    omega

lemma stakeActive (hact : IsActive l.validator) (hid : s.poolId = l.pool.id)
    (hep : s.stakeActivationEpoch = l.epoch + 1) :
    Accounts ⟨l.epoch, { l.validator with
      stakingPool := { l.pool with pendingStake := l.pool.pendingStake + s.principal }
      nextEpochStake := l.validator.nextEpochStake + s.principal }, s ::ₘ l.outstanding⟩ rate := by
  have hbal := h.balance
  have hnext := h.nextStake
  obtain ⟨first, hstage, hact, hfst, hrecs, hpend, hsolv⟩ := h.stage_of_active hact
  refine ⟨?_, ?_, ?_, ?_, .active first hstage hact hfst hrecs ?_ ?_⟩
  · exact forall_mem_cons.mpr ⟨hid, h.poolId⟩
  · exact forall_mem_cons.mpr ⟨hep.le, h.activation⟩
  · rw [totalPrincipal_cons]
    dsimp only
    omega
  · dsimp only
    omega
  · rw [principalAt_cons, if_pos hep]
    dsimp only
    omega
  · dsimp only
    rw [tokensOwed_cons_of_lt (by omega)]
    exact hsolv

lemma addStake
    (hadd : l.validator.requestAddStake amount l.epoch = .ok (v, s)) :
    Accounts ⟨l.epoch, v, s ::ₘ l.outstanding⟩ rate := by
  obtain ⟨hina, -, rfl, pool, hpool, rfl⟩ := requestAddStake_eq_ok hadd
  obtain ⟨hpre, rfl⟩ | ⟨hpre, rfl⟩ := processStakeIfPreactive_eq_ok hpool
  · exact h.stakePreactive (s := ⟨l.pool.id, l.epoch + 1, amount⟩) hpre rfl le_rfl
  · exact h.stakeActive (s := ⟨l.pool.id, l.epoch + 1, amount⟩) ⟨hpre, hina⟩ rfl rfl

lemma addStakeAtGenesis
    (hpre : l.validator.isPreactive = true)
    (hadd : l.validator.requestAddStakeAtGenesis amount l.epoch = .ok (v, s)) :
    Accounts ⟨l.epoch, v, s ::ₘ l.outstanding⟩ rate := by
  obtain ⟨-, -, -, rfl, pool, hpool, rfl⟩ := requestAddStakeAtGenesis_eq_ok hadd
  obtain rfl := StakingPool.processPendingStake_eq_ok hpool
  exact h.stakePreactive (s := ⟨l.pool.id, 0, amount⟩) hpre rfl (Nat.zero_le _)

lemma depositRewards (hact : IsActive l.validator) (reward : ℕ) :
    Accounts ⟨l.epoch, l.validator.depositStakeRewards reward, l.outstanding⟩ rate := by
  have hbal := h.balance
  have hnext := h.nextStake
  obtain ⟨first, hstage, hact, hfst, hrecs, hpend, hsolv⟩ := h.stage_of_active hact
  refine ⟨h.poolId, h.activation, ?_, ?_, .active first hstage hact hfst hrecs hpend hsolv⟩
  · dsimp only [pool, depositStakeRewards, StakingPool.depositRewards] at hbal ⊢
    omega
  · dsimp only [pool, depositStakeRewards, StakingPool.depositRewards] at hnext ⊢
    omega

/-- Taking an activated stake out of the books, before the withdrawal is processed. -/
lemma recordWithdraw {reward : ℕ} (hmem : l.outstanding = s ::ₘ rest)
    (hactd : s.stakeActivationEpoch ≤ l.epoch) (hrew : reward ≤ l.pool.rewardsPool) :
    Accounts ⟨l.epoch, { l.validator with
      stakingPool := l.pool.recordWithdraw s.principal reward
        ((rate s.stakeActivationEpoch).tokens s.principal)
      nextEpochStake := l.validator.nextEpochStake - (s.principal + reward) }, rest⟩ rate := by
  have hbal := h.balance
  have hnext := h.nextStake
  rw [hmem, totalPrincipal_cons] at hbal
  have hrest : ∀ t ∈ rest, t ∈ l.outstanding := fun t ht => hmem ▸ mem_cons_of_mem ht
  have howed : tokensOwed rest rate l.epoch + (rate s.stakeActivationEpoch).tokens s.principal ≤
      tokensOwed l.outstanding rate l.epoch := by
    rw [hmem]
    exact tokensOwed_add_le hactd
  refine ⟨fun t ht => h.poolId t (hrest t ht), fun t ht => h.activation t (hrest t ht), ?_, ?_, ?_⟩
  · dsimp only [pool, StakingPool.recordWithdraw] at hbal hrew ⊢
    omega
  · dsimp only [pool, StakingPool.recordWithdraw] at hbal hnext hrew ⊢
    omega
  · cases h.stage with
    | preactive hstage hemp hpend hrews htok hdraw hrate =>
      refine .preactive hstage hemp hpend ?_ htok ?_ hrate
      · exact Nat.sub_eq_zero_of_le (hrews.le.trans (Nat.zero_le reward))
      · have hone : (rate s.stakeActivationEpoch).tokens s.principal = s.principal := by
          rw [hrate]
          exact tokens_of_zero (.inl rfl)
        dsimp only [StakingPool.recordWithdraw]
        omega
    | active first hstage hact hfst hrecs hpend hsolv =>
      refine .active first hstage hact hfst hrecs ?_ ?_
      · rw [hmem, principalAt_cons, if_neg (by omega), zero_add] at hpend
        exact hpend
      · dsimp only [pool, StakingPool.recordWithdraw] at hsolv ⊢
        omega
    | inactive first last hstage hina hfst hlast hrecs haft hpend hactd hsolv =>
      refine .inactive first last hstage hina hfst hlast hrecs haft hpend
        (fun t ht => hactd t (hrest t ht)) ?_
      dsimp only [pool, StakingPool.recordWithdraw] at hsolv ⊢
      omega

lemma withdrawn :
    Accounts ⟨l.epoch, { l.validator with stakingPool := l.pool.withdrawn }, l.outstanding⟩ rate := by
  have hle := h.withdraw_le
  have hbal := h.balance
  have hnext := h.nextStake
  refine ⟨h.poolId, h.activation, ?_, ?_, ?_⟩
  · dsimp only [StakingPool.withdrawn]
    omega
  · dsimp only [StakingPool.withdrawn]
    omega
  · cases h.stage with
    | preactive hstage hemp hpend hrews htok hdraw hrate =>
      refine .preactive hstage hemp hpend hrews ?_ rfl hrate
      dsimp only [StakingPool.withdrawn]
      omega
    | active first hstage hact hfst hrecs hpend =>
      refine .active first hstage hact hfst hrecs hpend ?_
      dsimp only [StakingPool.withdrawn]
      omega
    | inactive first last hstage hina hfst hlast hrecs haft hpend hactd =>
      refine .inactive first last hstage hina hfst hlast hrecs haft hpend hactd ?_
      dsimp only [StakingPool.withdrawn]
      omega

lemma withdraw (hmem : l.outstanding = s ::ₘ rest) (hactd : s.stakeActivationEpoch ≤ l.epoch)
    (hdraw : l.validator.requestWithdrawStake s l.epoch = .ok (v, amount)) :
    Accounts ⟨l.epoch, v, rest⟩ rate := by
  obtain ⟨pool, hpool, -, rfl⟩ := requestWithdrawStake_eq_ok hdraw
  obtain ⟨rate', reward, hrate, hrew, rfl, hproc⟩ := StakingPool.requestWithdrawStake_eq_ok hpool
  rw [h.poolTokenExchangeRateAtEpoch hactd] at hrate
  cases hrate
  have hrec := h.recordWithdraw hmem hactd hrew
  obtain ⟨-, rfl⟩ | ⟨-, rfl⟩ := StakingPool.processWithdrawIfInactive_eq_ok hproc
  · exact hrec.withdrawn
  · exact hrec

/-- The SUI of an active pool without what is withdrawn is what its activated stakes are owed. -/
lemma suiBalance_of_active (hpend : l.pool.pendingStake = principalAt l.outstanding (l.epoch + 1)) :
    l.pool.withdrawn.suiBalance = ∑ e ∈ Finset.range (l.epoch + 1),
      principalAt l.outstanding e + l.pool.rewardsPool := by
  have hbal := h.balance
  have hsum := sum_principalAt_add h.activation
  dsimp only [StakingPool.withdrawn]
  omega

end

variable (l rate) in
def nextRate (e : ℕ) : PoolTokenExchangeRate :=
  if e = l.epoch + 1 then ⟨l.pool.withdrawn.staked.suiBalance,
    l.pool.withdrawn.staked.poolTokenBalance⟩ else rate e

lemma processed (h : Accounts l rate) (hact : IsActive l.validator) :
    Accounts ⟨l.epoch + 1, { l.validator with stakingPool := l.pool.processed l.epoch },
      l.outstanding⟩ (nextRate l rate) := by
  have hle := h.withdraw_le
  have hbal := h.balance
  have hnext := h.nextStake
  obtain ⟨first, hstage, hact, hfst, hrecs, hpend, hsolv⟩ := h.stage_of_active hact
  refine ⟨h.poolId, fun s hs => (h.activation s hs).trans (Nat.le_succ _), ?_, ?_, ?_⟩
  · dsimp only [StakingPool.processed, StakingPool.staked, StakingPool.withdrawn]
    omega
  · dsimp only [StakingPool.processed, StakingPool.staked, StakingPool.withdrawn]
    omega
  · have hlat : ∀ e, e ≤ l.epoch → nextRate l rate e = rate e := fun e he =>
      if_neg (Nat.lt_succ_of_le he).ne
    refine .active first hstage hact (hfst.trans (Nat.le_succ _)) ⟨fun e => ?_, fun e he => ?_⟩ ?_ ?_
    · dsimp only [StakingPool.processed]
      rw [getElem?_insert_ite]
      by_cases he : e = l.epoch + 1
      · rw [if_pos he.symm, if_pos ⟨by omega, he.le⟩, nextRate, if_pos he]
      · rw [if_neg (Ne.symm he), nextRate, if_neg he]
        have hiff : first ≤ e ∧ e ≤ l.epoch ↔ first ≤ e ∧ e ≤ l.epoch + 1 := by omega
        simp only [← hiff]
        exact hrecs.1 e
    · rw [hlat e (by omega)]
      exact hrecs.2 e he
    · exact (principalAt_eq_zero fun s hs => Nat.lt_succ_of_le (h.activation s hs)).symm
    · -- the old stakes keep their tokens, the new ones get theirs at the new rate
      have hold : tokensOwed l.outstanding rate l.epoch ≤ l.pool.withdrawn.poolTokenBalance := by
        dsimp only [StakingPool.withdrawn]
        omega
      have hzero : l.pool.withdrawn.suiBalance = 0 → tokensOwed l.outstanding rate l.epoch = 0 := by
        rw [h.suiBalance_of_active hpend]
        intro hsum
        refine Finset.sum_eq_zero fun e he => ?_
        rw [Finset.sum_eq_zero_iff.mp (Nat.eq_zero_of_add_eq_zero_right hsum) e he, tokens_zero]
      have hnew := add_tokens_le (a := l.pool.withdrawn.pendingStake) hold hzero
      rw [tokensOwed_succ, tokensOwed_congr hlat, nextRate, if_pos rfl, ← hpend]
      exact hnew

variable {epoch : ℕ} {pool : StakingPool}

section

variable (h : Accounts l rate)

include h

lemma activated (hactv : l.pool.activateStakingPool epoch = .ok pool)
    (hsks : ∀ s ∈ l.outstanding, s.stakeActivationEpoch ≤ epoch) :
    Accounts ⟨epoch, { l.validator with stakingPool := pool }, l.outstanding⟩ fun _ =>
      initialExchangeRate := by
  obtain ⟨hpre, hina, rfl⟩ := StakingPool.activateStakingPool_eq_ok hactv
  refine ⟨h.poolId, fun s hs => (hsks s hs).trans (Nat.le_succ _), h.balance, h.nextStake, ?_⟩
  obtain ⟨hstage, hemp, hpend, hrews, htok, hdraw, hrate⟩ := h.stage_of_preactive hpre
  have hdeac : l.pool.deactivationEpoch = none := by simpa [StakingPool.isInactive] using hina
  have hnone : principalAt l.outstanding (epoch + 1) = 0 :=
    principalAt_eq_zero fun s hs => Nat.lt_succ_of_le (hsks s hs)
  refine .active epoch rfl hdeac le_rfl ⟨fun e => ?_, fun e _ => rfl⟩ (hpend.trans hnone.symm) ?_
  · rw [getElem?_insert_ite, hemp]
    by_cases he : epoch = e
    · rw [if_pos he, if_pos ⟨he.le, he.ge⟩]
    · rw [if_neg he, if_neg fun hboth => he (le_antisymm hboth.1 hboth.2)]
  · have hsum := sum_principalAt_add fun s hs => (hsks s hs).trans (Nat.le_succ _)
    have hbal := h.balance
    dsimp only
    rw [tokensOwed_initial]
    omega

lemma idle (hidle : l.validator.isPreactive = true ∨ l.pool.isInactive = true) :
    Accounts ⟨l.epoch + 1, l.validator, l.outstanding⟩ rate := by
  refine ⟨h.poolId, fun s hs => (h.activation s hs).trans (Nat.le_succ _), h.balance, h.nextStake, ?_⟩
  cases h.stage with
  | preactive hstage hemp hpend hrews htok hdraw hrate =>
    exact .preactive hstage hemp hpend hrews htok hdraw hrate
  | active first hstage hact =>
    simp [isPreactive, StakingPool.isPreactive, StakingPool.isInactive, hstage, hact] at hidle
  | inactive first last hstage hina hfst hlast hrecs haft hpend hactd hsolv =>
    refine .inactive first last hstage hina hfst (hlast.trans (Nat.le_succ _)) hrecs haft hpend hactd ?_
    have hnone : principalAt l.outstanding (l.epoch + 1) = 0 := principalAt_eq_zero fun s hs => by
      have := hactd s hs
      omega
    rw [tokensOwed_succ, hnone, tokens_zero]
    exact hsolv

lemma deactivatedPreactive (hpre : l.validator.isPreactive = true) :
    Accounts ⟨l.epoch, { l.validator with
      stakingPool := { l.pool with deactivationEpoch := some epoch } }, l.outstanding⟩ rate := by
  refine ⟨h.poolId, h.activation, h.balance, h.nextStake, ?_⟩
  obtain ⟨hstage, hemp, hpend, hrews, htok, hdraw, hrate⟩ := h.stage_of_preactive hpre
  exact .preactive hstage hemp hpend hrews htok hdraw hrate

lemma deactivated (hdeac : l.pool.deactivateStakingPool l.epoch = .ok pool)
    (hsks : ∀ s ∈ l.outstanding, s.stakeActivationEpoch ≤ l.epoch) :
    Accounts ⟨l.epoch, { l.validator with stakingPool := pool }, l.outstanding⟩ fun e =>
      rate (min e l.epoch) := by
  obtain ⟨hina, rfl⟩ := StakingPool.deactivateStakingPool_eq_ok hdeac
  refine ⟨h.poolId, h.activation, h.balance, h.nextStake, ?_⟩
  cases h.stage with
  | preactive hstage hemp hpend hrews htok hdraw hrate =>
    exact .preactive hstage hemp hpend hrews htok hdraw (by rw [hrate])
  | active first hstage hact hfst hrecs hpend hsolv =>
    have hnone : principalAt l.outstanding (l.epoch + 1) = 0 :=
      principalAt_eq_zero fun s hs => Nat.lt_succ_of_le (hsks s hs)
    refine .inactive first l.epoch hstage rfl hfst le_rfl ⟨fun e => ?_, fun e he => ?_⟩
      (fun e he => ?_) (hpend.trans hnone) hsks ?_
    · refine (hrecs.1 e).trans ?_
      dsimp only
      split_ifs with hin
      · rw [min_eq_left hin.2]
      · rfl
    · dsimp only
      rw [min_eq_left (by omega)]
      exact hrecs.2 e he
    · rw [min_eq_right he.le, min_self]
    · have hsame : tokensOwed l.outstanding (fun e => rate (min e l.epoch)) l.epoch =
          tokensOwed l.outstanding rate l.epoch :=
        tokensOwed_congr fun e he => by rw [min_eq_left he]
      rw [hsame]
      exact hsolv
  | inactive first last hstage hdeact =>
      exact absurd hina (StakingPool.isInactive_of_deactivationEpoch hdeact)

lemma epochEnd (hend : EpochEnd l.epoch l.validator v) :
    ∃ rate', Accounts ⟨l.epoch + 1, v, l.outstanding⟩ rate' := by
  cases hend with
  | process hact hproc =>
    obtain ⟨pool, hpool, -, rfl⟩ := processPendingStakesAndWithdraws_eq_ok hproc
    obtain rfl := StakingPool.processPendingStakesAndWithdraws_eq_ok hpool
    exact ⟨_, h.processed hact⟩
  | activate hactv =>
    obtain ⟨pool, hpool, hv⟩ := bind_eq_ok.mp hactv
    cases hv
    exact ⟨_, h.activated hpool h.activation⟩
  | idle hidle => exact ⟨rate, h.idle hidle⟩

lemma step (hstep : Step l l') : ∃ rate', Accounts l' rate' := by
  cases hstep with
  | addStake hadd => exact ⟨rate, h.addStake hadd⟩
  | addStakeAtGenesis hpre hadd => exact ⟨rate, h.addStakeAtGenesis hpre hadd⟩
  | split hmem hspl =>
    obtain ⟨id, e, x, y, rfl, rfl, rfl, -, -⟩ := StakedSui.split_eq_ok hspl
    exact ⟨rate, parts_iff.mp (hmem ▸ h)⟩
  | join hmem hjoin =>
    obtain ⟨id, e, x, y, rfl, rfl, rfl⟩ := StakedSui.joinStakedSui_eq_ok hjoin
    exact ⟨rate, parts_iff.mpr (hmem ▸ h)⟩
  | withdraw hmem hactd hdraw => exact ⟨rate, h.withdraw hmem hactd hdraw⟩
  | depositRewards hact => exact ⟨rate, h.depositRewards hact _⟩
  | activateAtGenesis hgen hsks hactv =>
    obtain ⟨pool, hpool, hv⟩ := bind_eq_ok.mp hactv
    cases hv
    rw [hgen]
    exact ⟨_, h.activated hpool fun s hs => (hsks s hs).le⟩
  | removeCandidate hpre hdeac =>
    obtain ⟨pool, hpool, hv⟩ := bind_eq_ok.mp hdeac
    cases hv
    obtain ⟨-, rfl⟩ := StakingPool.deactivateStakingPool_eq_ok hpool
    exact ⟨rate, h.deactivatedPreactive hpre⟩
  | epochChange hend => exact h.epochEnd hend
  | leave hend hdeac =>
    obtain ⟨rate', h'⟩ := h.epochEnd hend
    obtain ⟨pool, hpool, hv⟩ := bind_eq_ok.mp hdeac
    cases hv
    exact ⟨_, h'.deactivated hpool h.activation⟩

end

end Accounts

lemma Reachable.accounts (h : Reachable l) : ∃ rate, Accounts l rate := by
  obtain ⟨start, hnew, hsts⟩ := h
  induction hsts with
  | refl => exact ⟨_, accounts_of_isNew hnew⟩
  | tail _ hstep ih =>
    obtain ⟨rate, haccs⟩ := ih
    exact haccs.step hstep

namespace Accounts

lemma processPendingStakeWithdraw (h : Accounts l rate) :
    l.pool.processPendingStakeWithdraw = .ok l.pool.withdrawn :=
  StakingPool.processPendingStakeWithdraw_eq_ok.mpr
    ⟨h.withdraw_le, (Nat.le_add_left _ _).trans h.solvent, rfl⟩

lemma processPendingStakesAndWithdraws (h : Accounts l rate) (hact : IsActive l.validator)
    (htok : l.pool.withdrawn.nextPoolTokenBalance < 2 ^ 64) :
    ∃ v, l.validator.processPendingStakesAndWithdraws l.epoch = .ok v := by
  have hnext := h.nextStake
  have hle := h.withdraw_le
  obtain ⟨first, hstage, hact, hfst, hrecs, hpend, hsolv⟩ := h.stage_of_active hact
  have hnew : l.epoch + 1 ∉ l.pool.exchangeRates := by
    rw [← Std.TreeMap.isSome_getElem?_iff_mem, hrecs.1, if_neg (by omega)]
    simp
  have hpool :=
    StakingPool.processPendingStakesAndWithdraws_of_lt hstage hact
      (hfst.trans (Nat.le_succ _)) hnew hle
    ((Nat.le_add_left _ _).trans hsolv) htok
  have hstk : (l.pool.processed l.epoch).suiBalance = l.validator.nextEpochStake := by
    dsimp only [StakingPool.processed, StakingPool.staked, StakingPool.withdrawn]
    omega
  exact ⟨_, bind_eq_ok.mpr ⟨_, hpool, bind_eq_ok.mpr ⟨(), check_eq_ok.mpr (decide_eq_true hstk), rfl⟩⟩⟩

lemma requestWithdrawStake (h : Accounts l rate) {E : Abort → Prop} {s : StakedSui}
    (hs : s ∈ l.outstanding) (hactd : s.stakeActivationEpoch ≤ l.epoch)
    (htok : Ends ((rate s.stakeActivationEpoch).getTokenAmount s.principal) E
      (· = (rate s.stakeActivationEpoch).tokens s.principal))
    (hsui : Ends ((rate l.epoch).getSuiAmount ((rate s.stakeActivationEpoch).tokens s.principal)) E
      fun _ => True) :
    Ends (l.validator.requestWithdrawStake s l.epoch) E fun _ => True := by
  obtain ⟨rest, hmem⟩ := exists_cons_of_mem hs
  have hpays : ∀ reward ≤ l.pool.rewardsPool, ∃ pool, (l.pool.recordWithdraw s.principal reward
      ((rate s.stakeActivationEpoch).tokens s.principal)).processWithdrawIfInactive = .ok pool := by
    intro reward hrew
    unfold StakingPool.processWithdrawIfInactive
    split_ifs
    · exact ⟨_, (h.recordWithdraw hmem hactd hrew).processPendingStakeWithdraw⟩
    · exact ⟨_, rfl⟩
  have hpool :=
    StakingPool.requestWithdrawStake_ends (h.poolId s hs) (h.poolTokenExchangeRateAtEpoch hactd)
    (h.poolTokenExchangeRateAtEpoch le_rfl) htok hsui hpays
  refine hpool.bind fun result _ hres => ?_
  obtain ⟨pool, amount⟩ := result
  obtain ⟨reward, hrew, hamount⟩ := hres
  subst hamount
  -- the stake of the next epoch covers the principal and the rewards
  have hcov : s.principal + reward ≤ l.validator.nextEpochStake := by
    have hbal := h.balance
    have hnext := h.nextStake
    rw [hmem, totalPrincipal_cons] at hbal
    omega
  dsimp only
  rw [checkedSub_eq_ok.mpr ⟨Nat.le_add_right _ _, rfl⟩, ok_bind,
    checkedSub_eq_ok.mpr ⟨hcov, rfl⟩, ok_bind]
  exact .ok trivial

end Accounts

/-- The accounts of a staking pool, in every history. -/
theorem pool_accounts_balance (h : Reachable l) :
    l.pool.suiBalance + l.pool.pendingStake =
      totalPrincipal l.outstanding + l.pool.rewardsPool + l.pool.pendingTotalSuiWithdraw ∧
    l.validator.nextEpochStake + l.pool.pendingTotalSuiWithdraw =
      l.pool.suiBalance + l.pool.pendingStake ∧
    (∃ rate : ℕ → PoolTokenExchangeRate,
      (∀ e ≤ l.epoch, l.pool.poolTokenExchangeRateAtEpoch e = .ok (rate e)) ∧
      ∑ e ∈ Finset.range (l.epoch + 1), (rate e).tokens
        (principalAt l.outstanding e) + l.pool.pendingPoolTokenWithdraw ≤
        l.pool.poolTokenBalance) ∧
    l.pool.processPendingStakeWithdraw = .ok l.pool.withdrawn ∧
    (IsActive l.validator → l.pool.withdrawn.nextPoolTokenBalance < 2 ^ 64 →
      ∃ v, l.validator.processPendingStakesAndWithdraws l.epoch = .ok v) ∧
    ∀ s ∈ l.outstanding, s.stakeActivationEpoch ≤ l.epoch →
      ∀ abort, l.validator.requestWithdrawStake s l.epoch = .error abort → abort = .castOverflow := by
  obtain ⟨rate, haccounts⟩ := h.accounts
  refine ⟨haccounts.balance, haccounts.nextStake,
    ⟨rate, fun e he => haccounts.poolTokenExchangeRateAtEpoch he, haccounts.solvent⟩,
    haccounts.processPendingStakeWithdraw, haccounts.processPendingStakesAndWithdraws,
      fun s hs hactivated => ?_⟩
  exact (haccounts.requestWithdrawStake hs hactivated PoolTokenExchangeRate.getTokenAmount_ends
    PoolTokenExchangeRate.getSuiAmount_ends).2

def sampleValidator : Validator :=
  .newFromMetadata ⟨1, [], [], [], [], [], [], [], [], [], [], [], [], none, none, none, none, none,
    none, none, none⟩ 0 0 7 8

/-- A candidate is staked with in epoch 0, joins, and earns rewards in epoch 1. -/
def sampleLedger : Except Abort StakeLedger := do
  let (v, s) ← sampleValidator.requestAddStake 3000000000 0
  let v ← v.activate 1
  let (v, t) ← v.requestAddStake 1000000000 1
  let v := v.depositStakeRewards 500000000
  let v ← v.processPendingStakesAndWithdraws 1
  return ⟨2, v, {t, s}⟩

lemma reachable_sampleLedger (h : sampleLedger = .ok l) : Reachable l := by
  obtain ⟨⟨staked, s⟩, hstk, h⟩ := bind_eq_ok.mp h
  obtain ⟨joined, hactv, h⟩ := bind_eq_ok.mp h
  obtain ⟨⟨v, t⟩, hstk', h⟩ := bind_eq_ok.mp h
  obtain ⟨processed, hproc, h⟩ := bind_eq_ok.mp h
  have hpreactive : joined.isPreactive = false := by
    obtain ⟨pool, hpool, hjnd⟩ := bind_eq_ok.mp hactv
    obtain ⟨-, -, rfl⟩ := StakingPool.activateStakingPool_eq_ok hpool
    cases hjnd
    rfl
  have hact : IsActive v := by
    obtain ⟨hina, -, -, pool, hpool, rfl⟩ := requestAddStake_eq_ok hstk'
    obtain ⟨hpre, -⟩ | ⟨-, rfl⟩ := processStakeIfPreactive_eq_ok hpool
    · exact absurd hpre (Bool.eq_false_iff.mp hpreactive)
    · exact ⟨hpreactive, hina⟩
  cases h
  refine ⟨⟨0, sampleValidator, 0⟩, ⟨⟨7, rfl⟩, rfl, rfl⟩, ?_⟩
  have h₁ : Step ⟨0, sampleValidator, 0⟩ ⟨0, staked, {s}⟩ := .addStake hstk
  have h₂ : Step ⟨0, staked, {s}⟩ ⟨1, joined, {s}⟩ := .epochChange (.activate hactv)
  have h₃ : Step ⟨1, joined, {s}⟩ ⟨1, v, {t, s}⟩ := .addStake hstk'
  have h₄ : Step ⟨1, v, {t, s}⟩ ⟨1, v.depositStakeRewards 500000000, {t, s}⟩ := .depositRewards hact
  have h₅ : Step ⟨1, v.depositStakeRewards 500000000, {t, s}⟩ ⟨2, processed, {t, s}⟩ :=
    .epochChange (.process hact hproc)
  exact ((((Relation.ReflTransGen.single h₁).tail h₂).tail h₃).tail h₄).tail h₅

/-- The balances of this pool. -/
theorem pool_accounts_balance_sample :
    ∃ l, Reachable l ∧ l.pool.suiBalance = 4500000000 ∧ l.pool.poolTokenBalance = 3857142857 ∧
    l.pool.suiBalance + l.pool.pendingStake =
      totalPrincipal l.outstanding + l.pool.rewardsPool + l.pool.pendingTotalSuiWithdraw := by
  have hruns : returns sampleLedger
      (fun l => l.pool.suiBalance = 4500000000 ∧ l.pool.poolTokenBalance = 3857142857) = true := by
    decide +kernel
  obtain ⟨l, hl, hbalances⟩ := exists_of_returns hruns
  obtain ⟨hsui, htokens⟩ := of_decide_eq_true hbalances
  exact ⟨l, reachable_sampleLedger hl, hsui, htokens,
    (pool_accounts_balance (reachable_sampleLedger hl)).1⟩

end StakeLedger

end SuiProofs.SuiSystem

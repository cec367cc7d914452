import SuiProofs.Library.Exec
import SuiProofs.Library.Ordered

/-!
Models `staking_pool.move`. Amounts of SUI are natural numbers: their sum is bounded by the supply.
Amounts of pool tokens are checked where the code casts them.
-/

namespace SuiProofs.SuiSystem

open Library

abbrev SuiAddress := ℕ
abbrev ID := ℕ

/-- The assertions of the package, and the aborts of the virtual machine. -/
inductive Abort where
  | wrongPool
  | insufficientSuiTokenBalance
  | tokenBalancesDoNotMatchExchangeRate
  | delegationToInactivePool
  | deactivationOfInactivePool
  | incompatibleStakedSui
  | poolAlreadyActive
  | activationOfInactivePool
  | delegationOfZeroSui
  | stakedSuiBelowThreshold
  | metadataExceedingLengthLimit
  | invalidMetadata
  | invalidAsciiCharacter
  | notValidatorCandidate
  | invalidStakeAmount
  | calledDuringNonGenesis
  | newCapNotCreatedByValidatorItself
  | invalidCap
  | commissionRateTooHigh
  | gasPriceHigherThanThreshold
  | duplicateValidator
  | noPoolFound
  | notAValidator
  | minJoiningStakeNotReached
  | alreadyValidatorCandidate
  | validatorNotCandidate
  | notActiveOrPendingValidator
  | stakingBelowThreshold
  | validatorAlreadyRemoved
  | validatorSetEmpty
  | limitExceeded
  | bpsTooLarge
  | nonValidatorInReportRecords
  | cannotReportOneself
  | reportRecordNotFound
  | notValidator
  | totalPowerMismatch
  | relativePowerMismatch
  | votingPowerOverThreshold
  | invalidVotingPower
  | notEnoughBalance
  | stakeWithdrawBeforeActivation
  | arithmeticUnderflow
  | castOverflow
  | indexOutOfBounds
  | keyAlreadyExists
  | keyNotFound
  | optionNotSet
  | divisionByZero
deriving DecidableEq, Repr

def check (condition : Bool) (abort : Abort) : Except Abort Unit :=
  if condition then .ok () else .error abort

def checkedSub (a b : ℕ) : Except Abort ℕ := if b ≤ a then .ok (a - b) else .error .arithmeticUnderflow

def castU64 (n : ℕ) : Except Abort ℕ := if n < 2 ^ 64 then .ok n else .error .castOverflow

lemma check_eq_ok {condition : Bool} {abort : Abort} {u : Unit} :
    check condition abort = .ok u ↔ condition = true := by
  unfold check
  split_ifs with h <;> simp [h]

lemma check_bind_eq_ok {α : Type} {condition : Bool} {abort : Abort}
    {f : Unit → Except Abort α} {a : α} :
    check condition abort >>= f = .ok a ↔ condition = true ∧ f () = .ok a := by
  cases condition <;> simp [check]

lemma checkedSub_eq_ok {a b c : ℕ} : checkedSub a b = .ok c ↔ b ≤ a ∧ c = a - b := by
  unfold checkedSub
  split_ifs with h
  · simp [h, eq_comm]
  · simp [h]

lemma castU64_eq_ok {n m : ℕ} : castU64 n = .ok m ↔ n < 2 ^ 64 ∧ m = n := by
  unfold castU64
  split_ifs with h
  · rw [Except.ok.injEq, eq_comm]
    exact (and_iff_right h).symm
  · exact iff_of_false (fun he => by cases he) fun hn => h hn.1

structure PoolTokenExchangeRate where
  suiAmount : ℕ
  poolTokenAmount : ℕ
deriving DecidableEq, Repr

namespace PoolTokenExchangeRate

def initialExchangeRate : PoolTokenExchangeRate := ⟨0, 0⟩

def getTokenAmount (rate : PoolTokenExchangeRate) (suiAmount : ℕ) : Except Abort ℕ :=
  if rate.suiAmount = 0 ∨ rate.poolTokenAmount = 0 then .ok suiAmount
  else castU64 (rate.poolTokenAmount * suiAmount / rate.suiAmount)

def getSuiAmount (rate : PoolTokenExchangeRate) (tokenAmount : ℕ) : Except Abort ℕ :=
  if rate.suiAmount = 0 ∨ rate.poolTokenAmount = 0 then .ok tokenAmount
  else castU64 (rate.suiAmount * tokenAmount / rate.poolTokenAmount)

/-- The exact amount of tokens, whether it fits into 64 bits or not. -/
def tokens (rate : PoolTokenExchangeRate) (suiAmount : ℕ) : ℕ :=
  if rate.suiAmount = 0 ∨ rate.poolTokenAmount = 0 then suiAmount
  else rate.poolTokenAmount * suiAmount / rate.suiAmount

variable {rate : PoolTokenExchangeRate} {a b n : ℕ}

lemma getTokenAmount_eq_ok (h : rate.getTokenAmount a = .ok n) : n = rate.tokens a := by
  unfold getTokenAmount at h
  unfold tokens
  split_ifs at h ⊢ with hzero
  · cases h
    rfl
  · exact (castU64_eq_ok.mp h).2

lemma getTokenAmount_of_lt (h : rate.tokens a < 2 ^ 64) :
    rate.getTokenAmount a = .ok (rate.tokens a) := by
  unfold tokens at h ⊢
  unfold getTokenAmount
  split_ifs at h ⊢ with hzero
  · rfl
  · exact castU64_eq_ok.mpr ⟨h, rfl⟩

lemma getTokenAmount_ends : Ends (rate.getTokenAmount a) (· = .castOverflow) (· = rate.tokens a) := by
  refine ⟨fun _ => getTokenAmount_eq_ok, fun abort h => ?_⟩
  unfold getTokenAmount castU64 at h
  split_ifs at h
  cases h
  rfl

lemma getSuiAmount_ends : Ends (rate.getSuiAmount a) (· = .castOverflow) fun _ => True := by
  refine ⟨fun _ _ => trivial, fun abort h => ?_⟩
  unfold getSuiAmount castU64 at h
  split_ifs at h
  cases h
  rfl

lemma tokens_of_zero (h : rate.suiAmount = 0 ∨ rate.poolTokenAmount = 0) : rate.tokens a = a := if_pos h

lemma tokens_of_pos (hs : 0 < rate.suiAmount) (ht : 0 < rate.poolTokenAmount) :
    rate.tokens a = rate.poolTokenAmount * a / rate.suiAmount :=
  if_neg fun h => h.elim hs.ne' ht.ne'

@[simp] lemma tokens_zero : rate.tokens 0 = 0 := by
  unfold tokens
  split_ifs <;> simp

lemma tokens_add_le : rate.tokens a + rate.tokens b ≤ rate.tokens (a + b) := by
  unfold tokens
  split_ifs with hzero
  · exact le_rfl
  · rw [mul_add]
    exact Nat.div_add_div_le_add_div

variable {s t : ℕ}

lemma tokens_self (hzero : s = 0 ∨ t = 0 → t = s) : tokens ⟨s, t⟩ s = t := by
  unfold tokens
  split_ifs with h
  · exact (hzero h).symm
  · exact Nat.mul_div_cancel t (Nat.pos_of_ne_zero fun hs => h (.inl hs))

/-- New stake is given tokens at the rate before it: a pool has none only if it has no SUI. -/
lemma tokens_eq_of_zero (h : s + a = 0 ∨ tokens ⟨s, t⟩ (s + a) = 0) : tokens ⟨s, t⟩ (s + a) = s + a := by
  unfold tokens at h ⊢
  split_ifs at h ⊢ with hzero
  · rfl
  · exfalso
    have hs : 0 < s := Nat.pos_of_ne_zero fun h => hzero (.inl h)
    have ht : 0 < t := Nat.pos_of_ne_zero fun h => hzero (.inr h)
    have hle : t ≤ t * (s + a) / s := by
      rw [Nat.le_div_iff_mul_le hs]
      exact Nat.mul_le_mul_left t (Nat.le_add_right s a)
    dsimp only at h
    omega

/-- The tokens of new stake, at the rate after it, are among those the pool has gained. -/
lemma add_tokens_le {old : ℕ} (hold : old ≤ t) (hzero : s = 0 → old = 0) :
    old + tokens ⟨s + a, tokens ⟨s, t⟩ (s + a)⟩ a ≤ tokens ⟨s, t⟩ (s + a) := by
  by_cases h : s = 0 ∨ t = 0
  · have hnone : old = 0 := by
      cases h with
      | inl hs => exact hzero hs
      | inr ht => omega
    have hgain : tokens ⟨s, t⟩ (s + a) = s + a := tokens_of_zero h
    rw [hgain, hnone, zero_add]
    unfold tokens
    split_ifs with hpos
    · exact Nat.le_add_left a s
    · rw [Nat.mul_div_cancel_left a (Nat.pos_of_ne_zero fun he => hpos (.inl he))]
      exact Nat.le_add_left a s
  · have hs : 0 < s := Nat.pos_of_ne_zero fun he => h (.inl he)
    have ht : 0 < t := Nat.pos_of_ne_zero fun he => h (.inr he)
    have hgain : tokens ⟨s, t⟩ (s + a) = t + t * a / s := by
      rw [tokens_of_pos hs ht]
      rw [mul_add, add_comm, Nat.add_mul_div_right (t * a) t hs, add_comm]
    have hnew : tokens ⟨s + a, tokens ⟨s, t⟩ (s + a)⟩ a ≤ t * a / s := by
      rw [tokens_of_pos (Nat.add_pos_left hs a) (by rw [hgain]; exact Nat.add_pos_left ht _)]
      -- the new rate is at most the old one
      have hrate : tokens ⟨s, t⟩ (s + a) * s ≤ t * (s + a) := by
        rw [tokens_of_pos hs ht]
        exact Nat.div_mul_le_self _ _
      have hfloor := Nat.div_mul_le_self (tokens ⟨s, t⟩ (s + a) * a) (s + a)
      rw [Nat.le_div_iff_mul_le hs]
      refine Nat.le_of_mul_le_mul_right ?_ (Nat.add_pos_left hs a)
      calc tokens ⟨s, t⟩ (s + a) * a / (s + a) * s * (s + a)
          = tokens ⟨s, t⟩ (s + a) * a / (s + a) * (s + a) * s := mul_right_comm _ _ _
        _ ≤ tokens ⟨s, t⟩ (s + a) * a * s := Nat.mul_le_mul_right s hfloor
        _ = tokens ⟨s, t⟩ (s + a) * s * a := mul_right_comm _ _ _
        _ ≤ t * (s + a) * a := Nat.mul_le_mul_right a hrate
        _ = t * a * (s + a) := mul_right_comm _ _ _
    omega

end PoolTokenExchangeRate

/-- Stakes of at least this amount may be made, and split off. -/
def minStakingThreshold : ℕ := 1000000000

structure StakedSui where
  poolId : ID
  stakeActivationEpoch : ℕ
  principal : ℕ
deriving DecidableEq, Repr

namespace StakedSui

def split (self : StakedSui) (splitAmount : ℕ) : Except Abort (StakedSui × StakedSui) := do
  check (splitAmount ≤ self.principal) .insufficientSuiTokenBalance
  let remainingAmount := self.principal - splitAmount
  check (remainingAmount ≥ minStakingThreshold) .stakedSuiBelowThreshold
  check (splitAmount ≥ minStakingThreshold) .stakedSuiBelowThreshold
  return ({ self with principal := remainingAmount }, { self with principal := splitAmount })

def isEqualStakingMetadata (self other : StakedSui) : Bool :=
  self.poolId = other.poolId ∧ self.stakeActivationEpoch = other.stakeActivationEpoch

def joinStakedSui (self other : StakedSui) : Except Abort StakedSui := do
  check (self.isEqualStakingMetadata other) .incompatibleStakedSui
  return { self with principal := self.principal + other.principal }

variable {s other kept part joined : StakedSui} {amount : ℕ}

lemma split_eq_ok (h : s.split amount = .ok (kept, part)) :
    ∃ id e x y, s = ⟨id, e, x + y⟩ ∧ kept = ⟨id, e, x⟩ ∧ part = ⟨id, e, y⟩ ∧
      minStakingThreshold ≤ x ∧ minStakingThreshold ≤ y := by
  obtain ⟨hle, h⟩ := check_bind_eq_ok.mp h
  obtain ⟨hkept, h⟩ := check_bind_eq_ok.mp h
  obtain ⟨hpart, h⟩ := check_bind_eq_ok.mp h
  cases h
  have hsum := Nat.sub_add_cancel (of_decide_eq_true hle)
  exact ⟨_, _, _, _, by rw [hsum], rfl, rfl, of_decide_eq_true hkept, of_decide_eq_true hpart⟩

lemma joinStakedSui_eq_ok (h : s.joinStakedSui other = .ok joined) :
    ∃ id e x y, s = ⟨id, e, x⟩ ∧ other = ⟨id, e, y⟩ ∧ joined = ⟨id, e, x + y⟩ := by
  obtain ⟨heq, h⟩ := check_bind_eq_ok.mp h
  obtain ⟨hpool, hep⟩ := of_decide_eq_true heq
  cases h
  exact ⟨_, _, _, _, rfl, by rw [hpool, hep], rfl⟩

end StakedSui

structure StakingPool where
  id : ID
  activationEpoch : Option ℕ
  deactivationEpoch : Option ℕ
  suiBalance : ℕ
  rewardsPool : ℕ
  poolTokenBalance : ℕ
  exchangeRates : Std.TreeMap ℕ PoolTokenExchangeRate
  pendingStake : ℕ
  pendingTotalSuiWithdraw : ℕ
  pendingPoolTokenWithdraw : ℕ

namespace StakingPool

open PoolTokenExchangeRate

def new (id : ID) : StakingPool := ⟨id, none, none, 0, 0, 0, ∅, 0, 0, 0⟩

def isPreactive (pool : StakingPool) : Bool := pool.activationEpoch.isNone

def isInactive (pool : StakingPool) : Bool := pool.deactivationEpoch.isSome

variable {pool : StakingPool} {epoch : ℕ}

lemma isPreactive_of_activationEpoch (h : pool.activationEpoch = some epoch) :
    pool.isPreactive ≠ true := by
  simp [isPreactive, h]

lemma isInactive_of_deactivationEpoch (h : pool.deactivationEpoch = some epoch) :
    pool.isInactive ≠ false := by
  simp [isInactive, h]

def requestAddStake (pool : StakingPool) (stake stakeActivationEpoch : ℕ) :
    Except Abort (StakingPool × StakedSui) := do
  check (!pool.isInactive) .delegationToInactivePool
  check (stake > 0) .delegationOfZeroSui
  return ({ pool with pendingStake := pool.pendingStake + stake },
    ⟨pool.id, stakeActivationEpoch, stake⟩)

/-- The rate of the latest epoch that has one, down to the activation of the pool. Counting below
zero aborts. -/
def latestRate (exchangeRates : Std.TreeMap ℕ PoolTokenExchangeRate) (activationEpoch : ℕ) :
    ℕ → Except Abort PoolTokenExchangeRate
  | 0 =>
    if activationEpoch ≤ 0 then
      match exchangeRates[0]? with
      | some rate => .ok rate
      | none => .error .arithmeticUnderflow
    else .ok initialExchangeRate
  | epoch + 1 =>
    if activationEpoch ≤ epoch + 1 then
      match exchangeRates[epoch + 1]? with
      | some rate => .ok rate
      | none => latestRate exchangeRates activationEpoch epoch
    else .ok initialExchangeRate

def poolTokenExchangeRateAtEpoch (pool : StakingPool) (epoch : ℕ) : Except Abort PoolTokenExchangeRate :=
  match pool.activationEpoch with
  | none => .ok initialExchangeRate
  | some activationEpoch =>
    if activationEpoch > epoch then .ok initialExchangeRate
    else latestRate pool.exchangeRates activationEpoch (min (pool.deactivationEpoch.getD epoch) epoch)

def withdrawFromPrincipal (pool : StakingPool) (stakedSui : StakedSui) : Except Abort (ℕ × ℕ) := do
  check (stakedSui.poolId = pool.id) .wrongPool
  let exchangeRateAtStakingEpoch ← pool.poolTokenExchangeRateAtEpoch stakedSui.stakeActivationEpoch
  let poolTokenWithdrawAmount ← exchangeRateAtStakingEpoch.getTokenAmount stakedSui.principal
  return (poolTokenWithdrawAmount, stakedSui.principal)

def withdrawRewards (pool : StakingPool)
    (principalWithdrawAmount poolTokenWithdrawAmount epoch : ℕ) :
    Except Abort (StakingPool × ℕ) := do
  let exchangeRate ← pool.poolTokenExchangeRateAtEpoch epoch
  let totalSuiWithdrawAmount ← exchangeRate.getSuiAmount poolTokenWithdrawAmount
  let rewardWithdrawAmount :=
    if totalSuiWithdrawAmount ≥ principalWithdrawAmount then
      totalSuiWithdrawAmount - principalWithdrawAmount else 0
  let rewardWithdrawAmount := min rewardWithdrawAmount pool.rewardsPool
  return ({ pool with rewardsPool := pool.rewardsPool - rewardWithdrawAmount }, rewardWithdrawAmount)

def processPendingStakeWithdraw (pool : StakingPool) : Except Abort StakingPool := do
  let suiBalance ← checkedSub pool.suiBalance pool.pendingTotalSuiWithdraw
  let poolTokenBalance ← checkedSub pool.poolTokenBalance pool.pendingPoolTokenWithdraw
  return { pool with
    suiBalance := suiBalance
    poolTokenBalance := poolTokenBalance
    pendingTotalSuiWithdraw := 0
    pendingPoolTokenWithdraw := 0 }

def processWithdrawIfInactive (pool : StakingPool) : Except Abort StakingPool :=
  if pool.isInactive then pool.processPendingStakeWithdraw else .ok pool

def requestWithdrawStake (pool : StakingPool) (stakedSui : StakedSui) (epoch : ℕ) :
    Except Abort (StakingPool × ℕ) := do
  let (poolTokenWithdrawAmount, principalWithdrawAmount) ← pool.withdrawFromPrincipal stakedSui
  let (pool, rewardsWithdraw) ← pool.withdrawRewards principalWithdrawAmount
    poolTokenWithdrawAmount epoch
  let totalSuiWithdrawAmount := principalWithdrawAmount + rewardsWithdraw
  let pool := { pool with
    pendingTotalSuiWithdraw := pool.pendingTotalSuiWithdraw + totalSuiWithdrawAmount
    pendingPoolTokenWithdraw := pool.pendingPoolTokenWithdraw + poolTokenWithdrawAmount }
  let pool ← pool.processWithdrawIfInactive
  return (pool, totalSuiWithdrawAmount)

def depositRewards (pool : StakingPool) (rewards : ℕ) : StakingPool :=
  { pool with suiBalance := pool.suiBalance + rewards, rewardsPool := pool.rewardsPool + rewards }

def processPendingStake (pool : StakingPool) : Except Abort StakingPool := do
  let latestExchangeRate : PoolTokenExchangeRate := ⟨pool.suiBalance, pool.poolTokenBalance⟩
  let suiBalance := pool.suiBalance + pool.pendingStake
  let poolTokenBalance ← latestExchangeRate.getTokenAmount suiBalance
  return { pool with suiBalance := suiBalance, poolTokenBalance := poolTokenBalance, pendingStake := 0 }

/-- Adding a key that is in the table aborts. -/
def addExchangeRate (pool : StakingPool) (epoch : ℕ) (rate : PoolTokenExchangeRate) :
    Except Abort StakingPool :=
  if pool.exchangeRates.contains epoch then .error .keyAlreadyExists
  else .ok { pool with exchangeRates := pool.exchangeRates.insert epoch rate }

def checkBalanceInvariants (pool : StakingPool) (epoch : ℕ) : Except Abort Unit := do
  let exchangeRate ← pool.poolTokenExchangeRateAtEpoch epoch
  let expected ← exchangeRate.getTokenAmount pool.suiBalance
  check (expected = pool.poolTokenBalance) .tokenBalancesDoNotMatchExchangeRate

def processPendingStakesAndWithdraws (pool : StakingPool) (epoch : ℕ) : Except Abort StakingPool := do
  let newEpoch := epoch + 1
  let pool ← pool.processPendingStakeWithdraw
  let pool ← pool.processPendingStake
  let pool ← pool.addExchangeRate newEpoch ⟨pool.suiBalance, pool.poolTokenBalance⟩
  pool.checkBalanceInvariants newEpoch
  return pool

def activateStakingPool (pool : StakingPool) (activationEpoch : ℕ) : Except Abort StakingPool := do
  let pool ← pool.addExchangeRate activationEpoch initialExchangeRate
  check pool.isPreactive .poolAlreadyActive
  check (!pool.isInactive) .activationOfInactivePool
  return { pool with activationEpoch := some activationEpoch }

def deactivateStakingPool (pool : StakingPool) (deactivationEpoch : ℕ) : Except Abort StakingPool := do
  check (!pool.isInactive) .deactivationOfInactivePool
  return { pool with deactivationEpoch := some deactivationEpoch }

variable {pool pool' : StakingPool} {stakedSui : StakedSui} {epoch : ℕ}

lemma requestAddStake_eq_ok {stake : ℕ} (h : pool.requestAddStake stake epoch = .ok (pool', stakedSui)) :
    pool.isInactive = false ∧ 0 < stake ∧
      pool' = { pool with pendingStake := pool.pendingStake + stake } ∧
      stakedSui = ⟨pool.id, epoch, stake⟩ := by
  obtain ⟨hina, h⟩ := check_bind_eq_ok.mp h
  obtain ⟨hpos, h⟩ := check_bind_eq_ok.mp h
  cases h
  exact ⟨by simpa using hina, of_decide_eq_true hpos, rfl, rfl⟩

def withdrawn (pool : StakingPool) : StakingPool :=
  { pool with
    suiBalance := pool.suiBalance - pool.pendingTotalSuiWithdraw
    poolTokenBalance := pool.poolTokenBalance - pool.pendingPoolTokenWithdraw
    pendingTotalSuiWithdraw := 0
    pendingPoolTokenWithdraw := 0 }

lemma processPendingStakeWithdraw_eq_ok : pool.processPendingStakeWithdraw = .ok pool' ↔
    pool.pendingTotalSuiWithdraw ≤ pool.suiBalance ∧
      pool.pendingPoolTokenWithdraw ≤ pool.poolTokenBalance ∧
      pool' = pool.withdrawn := by
  unfold processPendingStakeWithdraw
  simp only [bind_eq_ok, checkedSub_eq_ok, pure_eq_ok, Except.ok.injEq]
  constructor
  · rintro ⟨_, ⟨hsui, rfl⟩, _, ⟨htok, rfl⟩, rfl⟩
    exact ⟨hsui, htok, rfl⟩
  · rintro ⟨hsui, htok, rfl⟩
    exact ⟨_, ⟨hsui, rfl⟩, _, ⟨htok, rfl⟩, rfl⟩

/-- The tokens of the pool once the pending stake is in it. -/
def nextPoolTokenBalance (pool : StakingPool) : ℕ :=
  tokens ⟨pool.suiBalance, pool.poolTokenBalance⟩ (pool.suiBalance + pool.pendingStake)

def staked (pool : StakingPool) : StakingPool :=
  { pool with
    suiBalance := pool.suiBalance + pool.pendingStake
    poolTokenBalance := pool.nextPoolTokenBalance
    pendingStake := 0 }

lemma processPendingStake_eq_ok (h : pool.processPendingStake = .ok pool') : pool' = pool.staked := by
  obtain ⟨balance, hbal, h⟩ := bind_eq_ok.mp h
  cases h
  rw [getTokenAmount_eq_ok hbal]
  rfl

variable {rate : PoolTokenExchangeRate}

lemma addExchangeRate_eq_ok : pool.addExchangeRate epoch rate = .ok pool' ↔
    epoch ∉ pool.exchangeRates ∧ pool' =
      { pool with exchangeRates := pool.exchangeRates.insert epoch rate } := by
  unfold addExchangeRate
  split_ifs with h <;> rw [Std.TreeMap.contains_iff_mem] at h
  · exact iff_of_false (fun he => by cases he) fun hn => hn.1 h
  · rw [Except.ok.injEq, eq_comm]
    exact (and_iff_right h).symm

def processed (pool : StakingPool) (epoch : ℕ) : StakingPool :=
  let next := pool.withdrawn.staked
  { next with
    exchangeRates :=
      next.exchangeRates.insert (epoch + 1) ⟨next.suiBalance, next.poolTokenBalance⟩ }

lemma processPendingStakesAndWithdraws_eq_ok
    (h : pool.processPendingStakesAndWithdraws epoch = .ok pool') :
    pool' = pool.processed epoch := by
  obtain ⟨withdrawn, hdrawn, h⟩ := bind_eq_ok.mp h
  obtain ⟨-, -, rfl⟩ := processPendingStakeWithdraw_eq_ok.mp hdrawn
  obtain ⟨staked, hstaked, h⟩ := bind_eq_ok.mp h
  obtain rfl := processPendingStake_eq_ok hstaked
  obtain ⟨rated, hrated, h⟩ := bind_eq_ok.mp h
  obtain ⟨-, rfl⟩ := addExchangeRate_eq_ok.mp hrated
  obtain ⟨_, -, h⟩ := bind_eq_ok.mp h
  cases h
  rfl

variable {activationEpoch : ℕ}

lemma latestRate_of_getElem? {exchangeRates : Std.TreeMap ℕ PoolTokenExchangeRate}
    (hle : activationEpoch ≤ epoch) (h : exchangeRates[epoch]? = some rate) :
    latestRate exchangeRates activationEpoch epoch = .ok rate := by
  cases epoch with
  | zero | succ => rw [latestRate, if_pos hle, h]

lemma checkBalanceInvariants_processed (hst : pool.activationEpoch = some activationEpoch)
    (hactive : pool.deactivationEpoch = none) (hle : activationEpoch ≤ epoch + 1)
    (htok : pool.withdrawn.nextPoolTokenBalance < 2 ^ 64) :
    (pool.processed epoch).checkBalanceInvariants (epoch + 1) = .ok () := by
  have hrate : (pool.processed epoch).poolTokenExchangeRateAtEpoch (epoch + 1) =
      .ok ⟨(pool.processed epoch).suiBalance, (pool.processed epoch).poolTokenBalance⟩ := by
    have hact : (pool.processed epoch).activationEpoch = some activationEpoch := hst
    have hdeact : (pool.processed epoch).deactivationEpoch = none := hactive
    unfold poolTokenExchangeRateAtEpoch
    rw [hact, hdeact]
    dsimp only
    rw [if_neg (not_lt.mpr hle), Option.getD_none, min_self]
    refine latestRate_of_getElem? hle ?_
    unfold processed
    rw [getElem?_insert_ite, if_pos rfl]
  have hself : tokens ⟨(pool.processed epoch).suiBalance, (pool.processed epoch).poolTokenBalance⟩
    (pool.processed epoch).suiBalance =
      (pool.processed epoch).poolTokenBalance :=
    tokens_self tokens_eq_of_zero
  have hexpected := getTokenAmount_of_lt (hself.symm ▸ htok :
    tokens ⟨(pool.processed epoch).suiBalance, (pool.processed epoch).poolTokenBalance⟩
      (pool.processed epoch).suiBalance < 2 ^ 64)
  unfold checkBalanceInvariants
  rw [hrate, ok_bind, hexpected, ok_bind, hself]
  exact check_eq_ok.mpr (decide_eq_true rfl)

lemma processPendingStakesAndWithdraws_of_lt (hst : pool.activationEpoch = some activationEpoch)
    (hact : pool.deactivationEpoch = none) (hle : activationEpoch ≤ epoch + 1)
    (hnew : epoch + 1 ∉ pool.exchangeRates) (hsui : pool.pendingTotalSuiWithdraw ≤ pool.suiBalance)
    (hdraw : pool.pendingPoolTokenWithdraw ≤ pool.poolTokenBalance)
    (htok : pool.withdrawn.nextPoolTokenBalance < 2 ^ 64) :
    pool.processPendingStakesAndWithdraws epoch = .ok (pool.processed epoch) := by
  refine bind_eq_ok.mpr ⟨_, processPendingStakeWithdraw_eq_ok.mpr ⟨hsui, hdraw, rfl⟩, ?_⟩
  refine bind_eq_ok.mpr ⟨_, bind_eq_ok.mpr ⟨_, getTokenAmount_of_lt htok, rfl⟩, ?_⟩
  refine bind_eq_ok.mpr ⟨_, addExchangeRate_eq_ok.mpr ⟨hnew, rfl⟩, ?_⟩
  exact bind_eq_ok.mpr ⟨_, checkBalanceInvariants_processed hst hact hle htok, rfl⟩

lemma withdrawRewards_eq_ok {principal tokenAmount reward : ℕ}
    (h : pool.withdrawRewards principal tokenAmount epoch = .ok (pool', reward)) :
    reward ≤ pool.rewardsPool ∧ pool' = { pool with rewardsPool := pool.rewardsPool - reward } := by
  obtain ⟨rate, -, h⟩ := bind_eq_ok.mp h
  obtain ⟨amount, -, h⟩ := bind_eq_ok.mp h
  cases h
  exact ⟨min_le_right _ _, rfl⟩

def recordWithdraw (pool : StakingPool) (principal reward tokenAmount : ℕ) : StakingPool :=
  { pool with
    rewardsPool := pool.rewardsPool - reward
    pendingTotalSuiWithdraw := pool.pendingTotalSuiWithdraw + (principal + reward)
    pendingPoolTokenWithdraw := pool.pendingPoolTokenWithdraw + tokenAmount }

lemma processWithdrawIfInactive_eq_ok (h : pool.processWithdrawIfInactive = .ok pool') :
    pool.isInactive = true ∧ pool' = pool.withdrawn ∨ pool.isInactive = false ∧ pool' = pool := by
  unfold processWithdrawIfInactive at h
  split_ifs at h with hina
  · exact .inl ⟨hina, (processPendingStakeWithdraw_eq_ok.mp h).2.2⟩
  · exact .inr ⟨Bool.eq_false_of_not_eq_true hina, (Except.ok.inj h).symm⟩

lemma requestWithdrawStake_eq_ok {amount : ℕ}
    (h : pool.requestWithdrawStake stakedSui epoch = .ok (pool', amount)) :
    ∃ rate reward, pool.poolTokenExchangeRateAtEpoch stakedSui.stakeActivationEpoch = .ok rate ∧
      reward ≤ pool.rewardsPool ∧
      amount = stakedSui.principal + reward ∧
      (pool.recordWithdraw stakedSui.principal reward
        (rate.tokens stakedSui.principal)).processWithdrawIfInactive = .ok pool' := by
  obtain ⟨_, hprin, h⟩ := bind_eq_ok.mp h
  obtain ⟨_, -, hprin⟩ := bind_eq_ok.mp hprin
  obtain ⟨rate, hrate, hprin⟩ := bind_eq_ok.mp hprin
  obtain ⟨_, hamount, hprin⟩ := bind_eq_ok.mp hprin
  cases hprin
  obtain rfl := getTokenAmount_eq_ok hamount
  obtain ⟨⟨rewarded, reward⟩, hrew, h⟩ := bind_eq_ok.mp h
  obtain ⟨hle, rfl⟩ := withdrawRewards_eq_ok hrew
  obtain ⟨_, hproc, h⟩ := bind_eq_ok.mp h
  cases h
  exact ⟨rate, reward, hrate, hle, rfl, hproc⟩

lemma requestWithdrawStake_ends {E : Abort → Prop} {current : PoolTokenExchangeRate}
    (hid : stakedSui.poolId = pool.id)
    (hrate : pool.poolTokenExchangeRateAtEpoch stakedSui.stakeActivationEpoch = .ok rate)
    (hcurr : pool.poolTokenExchangeRateAtEpoch epoch = .ok current)
    (htok : Ends (rate.getTokenAmount stakedSui.principal) E (· = rate.tokens stakedSui.principal))
    (hsui : Ends (current.getSuiAmount (rate.tokens stakedSui.principal)) E fun _ => True)
    (hpays : ∀ reward ≤ pool.rewardsPool, ∃ pool',
      (pool.recordWithdraw stakedSui.principal reward
        (rate.tokens stakedSui.principal)).processWithdrawIfInactive = .ok pool') :
    Ends (pool.requestWithdrawStake stakedSui epoch) E fun result =>
      ∃ reward ≤ pool.rewardsPool, result.2 = stakedSui.principal + reward := by
  have hprin : Ends (pool.withdrawFromPrincipal stakedSui) E
      (· = (rate.tokens stakedSui.principal, stakedSui.principal)) := by
    unfold withdrawFromPrincipal
    rw [(check_eq_ok (u := ())).mpr (decide_eq_true hid), ok_bind, hrate, ok_bind]
    refine htok.bind fun amount _ hamount => ?_
    subst hamount
    exact .ok rfl
  refine hprin.bind fun amounts _ hamounts => ?_
  subst hamounts
  have hrews : Ends (pool.withdrawRewards stakedSui.principal (rate.tokens stakedSui.principal) epoch) E
      fun _ => True := by
    unfold withdrawRewards
    rw [hcurr, ok_bind]
    exact hsui.bind fun _ _ _ => .ok trivial
  refine hrews.bind fun result hres _ => ?_
  obtain ⟨rewarded, reward⟩ := result
  obtain ⟨hrew, rfl⟩ := withdrawRewards_eq_ok hres
  obtain ⟨paid, hpaid⟩ := hpays reward hrew
  have hproc : Ends ((pool.recordWithdraw stakedSui.principal reward
      (rate.tokens stakedSui.principal)).processWithdrawIfInactive) E fun _ => True := by
    rw [hpaid]
    exact .ok trivial
  exact hproc.bind fun _ _ _ => .ok ⟨reward, hrew, rfl⟩

lemma activateStakingPool_eq_ok (h : pool.activateStakingPool epoch = .ok pool') :
    pool.isPreactive = true ∧ pool.isInactive = false ∧
      pool' = { pool with
        exchangeRates := pool.exchangeRates.insert epoch initialExchangeRate
        activationEpoch := some epoch } := by
  obtain ⟨rated, hrated, h⟩ := bind_eq_ok.mp h
  obtain ⟨hpre, h⟩ := check_bind_eq_ok.mp h
  obtain ⟨hina, h⟩ := check_bind_eq_ok.mp h
  obtain ⟨-, rfl⟩ := addExchangeRate_eq_ok.mp hrated
  cases h
  exact ⟨hpre, Bool.not_eq_true' _ ▸ hina, rfl⟩

lemma deactivateStakingPool_eq_ok (h : pool.deactivateStakingPool epoch = .ok pool') :
    pool.isInactive = false ∧ pool' = { pool with deactivationEpoch := some epoch } := by
  obtain ⟨hina, h⟩ := check_bind_eq_ok.mp h
  cases h
  exact ⟨by simpa using hina, rfl⟩

end StakingPool

end SuiProofs.SuiSystem

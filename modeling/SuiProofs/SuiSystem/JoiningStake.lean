import SuiProofs.SuiSystem.StakeAccounting
import SuiProofs.SuiSystem.SystemState

namespace SuiProofs.SuiSystem

open Library List Validator StakingPool

/-- A change of the set by others, or of other data of the candidate. -/
def KeepsCandidate (address : SuiAddress) (set set' : ValidatorSet) : Prop :=
  ∀ v, set.validatorCandidates[address]? = some v →
    ∃ v', set'.validatorCandidates[address]? = some v' ∧ v'.stakingPool = v.stakingPool ∧
      v'.nextEpochStake = v.nextEpochStake ∧
      set'.stakingPoolMappings[v.stakingPoolId]? = set.stakingPoolMappings[v.stakingPoolId]?

/-- The histories of a candidate: the set, the epoch, the outstanding stakes of its pool and the
stakes that have been withdrawn from it. -/
inductive Candidacy (address : SuiAddress) :
    ValidatorSet → ℕ → Multiset StakedSui → List StakedSui → Prop where
  | register {set set' : ValidatorSet} {v : Validator} {epoch : ℕ}
      (hpool : ∃ id, v.stakingPool = .new id) (hstake : v.nextEpochStake = 0)
      (haddress : v.suiAddress = address) (h : set.requestAddValidatorCandidate v = .ok set') :
        Candidacy address set' epoch 0 []
  | addStake {set set' : ValidatorSet} {epoch stake : ℕ} {outstanding : Multiset StakedSui}
      {withdrawn : List StakedSui} {s : StakedSui}
      (hbefore : Candidacy address set epoch outstanding withdrawn)
      (h : set.requestAddStake address stake epoch = .ok (set', s)) :
      Candidacy address set' epoch (s ::ₘ outstanding) withdrawn
  | split {set : ValidatorSet} {epoch amount : ℕ} {outstanding rest : Multiset StakedSui}
      {withdrawn : List StakedSui}
      {s kept part : StakedSui} (hbefore : Candidacy address set epoch outstanding withdrawn)
      (hmem : outstanding = s ::ₘ rest)
      (h : s.split amount = .ok (kept, part)) : Candidacy address set epoch
        (kept ::ₘ part ::ₘ rest) withdrawn
  | join {set : ValidatorSet} {epoch : ℕ} {outstanding rest : Multiset StakedSui}
      {withdrawn : List StakedSui}
      {s other joined : StakedSui} (hbefore : Candidacy address set epoch outstanding withdrawn)
      (hmem : outstanding = s ::ₘ other ::ₘ rest) (h : s.joinStakedSui other = .ok joined) :
      Candidacy address set epoch (joined ::ₘ rest) withdrawn
  | withdraw {set set' : ValidatorSet} {epoch amount : ℕ} {outstanding rest : Multiset StakedSui}
      {withdrawn : List StakedSui}
      {s : StakedSui} (hbefore : Candidacy address set epoch outstanding withdrawn)
      (hmem : outstanding = s ::ₘ rest)
      (hactivated : s.stakeActivationEpoch ≤ epoch) (h : set.requestWithdrawStake s epoch =
        .ok (set', amount)) :
      Candidacy address set' epoch rest (s :: withdrawn)
  | others {set set' : ValidatorSet} {epoch : ℕ} {outstanding : Multiset StakedSui}
      {withdrawn : List StakedSui} (hbefore : Candidacy address set epoch outstanding withdrawn)
      (h : KeepsCandidate address set set') :
      Candidacy address set' epoch outstanding withdrawn
  | epochChange {set set' : ValidatorSet} {epoch : ℕ} {outstanding : Multiset StakedSui}
      {withdrawn : List StakedSui} (hbefore : Candidacy address set epoch outstanding withdrawn)
      (h : KeepsCandidate address set set') :
      Candidacy address set' (epoch + 1) outstanding withdrawn

namespace Candidacy

open StakeLedger

/-- What the pool of a candidate with validator `v` looks like. -/
structure Counts (address : SuiAddress) (set : ValidatorSet) (epoch : ℕ)
    (outstanding : Multiset StakedSui) (withdrawn : List StakedSui) (v : Validator) : Prop where
  candidate : set.validatorCandidates[address]? = some v
  mapping : set.stakingPoolMappings[v.stakingPoolId]? = some address
  accounts : ∃ rate, Accounts ⟨epoch, v, outstanding⟩ rate
  preactive : v.isPreactive = true
  notInactive : v.stakingPool.isInactive = false
  pending : v.stakingPool.pendingTotalSuiWithdraw = (withdrawn.map StakedSui.principal).sum
  outstanding_pos : ∀ s ∈ outstanding, 0 < s.principal
  withdrawn_pos : ∀ s ∈ withdrawn, 0 < s.principal

variable {address : SuiAddress} {set set' : ValidatorSet} {epoch : ℕ}
  {outstanding rest : Multiset StakedSui} {withdrawn : List StakedSui}
  {v : Validator} {s other kept part joined : StakedSui} {amount : ℕ}

namespace Counts

variable (h : Counts address set epoch outstanding withdrawn v)
include h

lemma balance :
    v.stakingPool.rewardsPool = 0 ∧
      v.totalStakeAmount = totalPrincipal outstanding + (withdrawn.map StakedSui.principal).sum := by
  obtain ⟨rate, haccs⟩ := h.accounts
  have hbal := haccs.balance
  obtain ⟨-, -, hpend, hrews, -, -, -⟩ := haccs.stage_of_preactive h.preactive
  rw [hpend, hrews] at hbal
  exact ⟨hrews, h.pending ▸ hbal⟩

omit h in
lemma insert_candidate {v' : Validator}
    (hmapp : set.stakingPoolMappings[v'.stakingPoolId]? = some address)
    (haccs : ∃ rate, Accounts ⟨epoch, v', outstanding⟩ rate) (hpre : v'.isPreactive = true)
    (hina : v'.stakingPool.isInactive = false)
    (hpend : v'.stakingPool.pendingTotalSuiWithdraw = (withdrawn.map StakedSui.principal).sum)
    (hout : ∀ s ∈ outstanding, 0 < s.principal) (hdrawn : ∀ s ∈ withdrawn, 0 < s.principal) :
    Counts address { set with validatorCandidates := set.validatorCandidates.insert address v' }
      epoch outstanding withdrawn v' := by
  refine ⟨?_, hmapp, haccs, hpre, hina, hpend, hout, hdrawn⟩
  rw [getElem?_insert_ite, if_pos rfl]

lemma addStake
    (hadd : set.requestAddStake address amount epoch = .ok (set', s)) :
    ∃ v', Counts address set' epoch (s ::ₘ outstanding) withdrawn v' := by
  obtain ⟨-, hadd⟩ := check_bind_eq_ok.mp hadd
  obtain ⟨v', hv', rfl⟩ := ValidatorSet.getCandidateOrActiveValidatorMut_candidate h.candidate hadd
  obtain ⟨rate, haccs⟩ := h.accounts
  have hnew := haccs.addStake hv'
  obtain ⟨-, hpos, rfl, pool, hpool, rfl⟩ := requestAddStake_eq_ok hv'
  obtain ⟨-, rfl⟩ | ⟨hpre, -⟩ := processStakeIfPreactive_eq_ok hpool
  · exact ⟨_, insert_candidate h.mapping ⟨rate, hnew⟩ h.preactive h.notInactive h.pending
      (Multiset.forall_mem_cons.mpr ⟨hpos, h.outstanding_pos⟩) h.withdrawn_pos⟩
  · exact absurd h.preactive (Bool.eq_false_iff.mp hpre)

omit h in
lemma withdraw (h : Counts address set epoch (s ::ₘ rest) withdrawn v)
    (hactd : s.stakeActivationEpoch ≤ epoch)
    (hdraw : set.requestWithdrawStake s epoch = .ok (set', amount)) :
    ∃ v', Counts address set' epoch rest (s :: withdrawn) v' := by
  obtain ⟨rate, haccs⟩ := h.accounts
  have hid : s.poolId = v.stakingPoolId := haccs.poolId s (Multiset.mem_cons_self s rest)
  unfold ValidatorSet.requestWithdrawStake at hdraw
  rw [hid, h.mapping] at hdraw
  obtain ⟨v', hv', rfl⟩ := ValidatorSet.getCandidateOrActiveValidatorMut_candidate h.candidate hdraw
  have hnew := haccs.withdraw rfl hactd hv'
  obtain ⟨pool, hpool, -, rfl⟩ := requestWithdrawStake_eq_ok hv'
  obtain ⟨rate', reward, -, hrew, rfl, hproc⟩ := requestWithdrawStake_eq_ok hpool
  -- there are no rewards in the pool of a candidate
  obtain rfl : reward = 0 := Nat.le_zero.mp (h.balance.1 ▸ hrew)
  have hina := h.notInactive
  obtain ⟨hprocd, -⟩ | ⟨-, rfl⟩ := processWithdrawIfInactive_eq_ok hproc
  · exact absurd hprocd (Bool.eq_false_iff.mp hina)
  · have hpend := h.pending
    refine ⟨_, insert_candidate h.mapping ⟨rate, hnew⟩ h.preactive hina ?_ ?_ ?_⟩
    · dsimp only [recordWithdraw]
      rw [map_cons, sum_cons, hpend]
      omega
    · exact fun t ht => h.outstanding_pos t (Multiset.mem_cons_of_mem ht)
    · exact forall_mem_cons.mpr ⟨h.outstanding_pos s (Multiset.mem_cons_self s rest), h.withdrawn_pos⟩

omit h in
lemma split (h : Counts address set epoch (s ::ₘ rest) withdrawn v)
    (hspl : s.split amount = .ok (kept, part)) :
    Counts address set epoch (kept ::ₘ part ::ₘ rest) withdrawn v := by
  obtain ⟨id, e, x, y, rfl, rfl, rfl, hkept, hpart⟩ := StakedSui.split_eq_ok hspl
  obtain ⟨rate, haccs⟩ := h.accounts
  have hmin : 0 < minStakingThreshold := by decide
  exact { h with
    accounts := ⟨rate, Accounts.parts_iff.mp haccs⟩
    outstanding_pos := Multiset.forall_mem_cons.mpr ⟨hmin.trans_le hkept,
      Multiset.forall_mem_cons.mpr ⟨hmin.trans_le hpart,
        (Multiset.forall_mem_cons.mp h.outstanding_pos).2⟩⟩ }

omit h in
lemma join (h : Counts address set epoch (s ::ₘ other ::ₘ rest) withdrawn v)
    (hjoin : s.joinStakedSui other = .ok joined) :
    Counts address set epoch (joined ::ₘ rest) withdrawn v := by
  obtain ⟨id, e, x, y, rfl, rfl, rfl⟩ := StakedSui.joinStakedSui_eq_ok hjoin
  obtain ⟨rate, haccs⟩ := h.accounts
  obtain ⟨hs, hrest⟩ := Multiset.forall_mem_cons.mp h.outstanding_pos
  exact { h with
    accounts := ⟨rate, Accounts.parts_iff.mpr haccs⟩
    outstanding_pos := Multiset.forall_mem_cons.mpr ⟨Nat.add_pos_left hs _,
      (Multiset.forall_mem_cons.mp hrest).2⟩ }

lemma keeps (hkp : KeepsCandidate address set set') :
    ∃ v', Counts address set' epoch outstanding withdrawn v' := by
  obtain ⟨v', hv', hpool, hstk, hmapp⟩ := hkp v h.candidate
  obtain ⟨rate, haccs⟩ := h.accounts
  have hid : v'.stakingPoolId = v.stakingPoolId := congrArg StakingPool.id hpool
  have hpre : v'.isPreactive = v.isPreactive := congrArg StakingPool.isPreactive hpool
  refine ⟨v', hv', hid ▸ hmapp.trans h.mapping, ⟨rate, haccs.of_pool hpool hstk⟩,
    hpre.trans h.preactive, ?_, ?_,
    h.outstanding_pos, h.withdrawn_pos⟩
  · rw [hpool]
    exact h.notInactive
  · rw [hpool]
    exact h.pending

end Counts

lemma counts (h : Candidacy address set epoch outstanding withdrawn) :
    ∃ v, Counts address set epoch outstanding withdrawn v := by
  induction h with
  | @register set set' v epoch hpool hstk haddr hreg =>
    obtain ⟨-, -, -, -, hpre, rfl⟩ := ValidatorSet.requestAddValidatorCandidate_eq_ok hreg
    have haccs := accounts_of_isNew (l := ⟨epoch, v, 0⟩) ⟨hpool, hstk, rfl⟩
    obtain ⟨id, hpool⟩ := hpool
    refine ⟨v, ?_, ?_, ⟨_, haccs⟩, hpre, ?_, ?_, by simp, by simp⟩
    · rw [← haddr]
      rw [getElem?_insert_ite, if_pos rfl]
    · rw [← haddr]
      rw [getElem?_insert_ite, if_pos rfl]
    · rw [hpool]
      rfl
    · rw [hpool]
      rfl
  | addStake _ hadd ih =>
    obtain ⟨v, hv⟩ := ih
    exact hv.addStake hadd
  | split _ hmem hspl ih =>
    obtain ⟨v, hv⟩ := ih
    subst hmem
    exact ⟨v, hv.split hspl⟩
  | join _ hmem hjoin ih =>
    obtain ⟨v, hv⟩ := ih
    subst hmem
    exact ⟨v, hv.join hjoin⟩
  | withdraw _ hmem hactd hdraw ih =>
    obtain ⟨v, hv⟩ := ih
    subst hmem
    exact hv.withdraw hactd hdraw
  | others _ hkp ih =>
    obtain ⟨v, hv⟩ := ih
    exact hv.keeps hkp
  | epochChange _ hkp ih =>
    obtain ⟨v, hv⟩ := ih
    obtain ⟨v', hv'⟩ := hv.keeps hkp
    obtain ⟨rate, haccs⟩ := hv'.accounts
    exact ⟨v', hv'.candidate, hv'.mapping, ⟨rate, haccs.idle (.inl hv'.preactive)⟩, hv'.preactive,
      hv'.notInactive, hv'.pending,
      hv'.outstanding_pos, hv'.withdrawn_pos⟩

/-- The stake that a candidate joins with is the outstanding principal of its pool exactly as long
as nothing has been withdrawn from it. -/
theorem totalStakeAmount_eq_outstanding_iff (h : Candidacy address set epoch outstanding withdrawn) :
    ∃ v, set.validatorCandidates[address]? = some v ∧
      (v.totalStakeAmount = totalPrincipal outstanding ↔ withdrawn = []) ∧
      (withdrawn = [] →
        ∀ minJoiningStake set', set.requestAddValidator minJoiningStake address = .ok set' →
        minJoiningStake ≤ totalPrincipal outstanding) := by
  obtain ⟨v, hv⟩ := h.counts
  obtain ⟨-, hbalance⟩ := hv.balance
  refine ⟨v, hv.candidate, ⟨fun heq => ?_, ?_⟩, ?_⟩
  · have hzero : (withdrawn.map StakedSui.principal).sum = 0 := by omega
    rw [eq_nil_iff_forall_not_mem]
    intro s hs
    exact (hv.withdrawn_pos s hs).ne' (sum_eq_zero_iff.mp hzero _ (mem_map_of_mem hs))
  · rintro rfl
    simpa using hbalance
  · rintro rfl minJoiningStake set' hjoin
    obtain ⟨w, hw, -, -, -, hmin, -⟩ := ValidatorSet.requestAddValidator_eq_ok hjoin
    obtain rfl := Option.some.inj (hw.symm.trans hv.candidate)
    rw [hbalance] at hmin
    simpa using hmin

/-- A candidate with address 2 is staked with in epoch 0, and the stake is withdrawn in epoch 1. The
sets after the stake, after the epoch change and after the withdrawal. -/
def drainedCandidacy : Except Abort ((ValidatorSet × ValidatorSet × ValidatorSet) × StakedSui) := do
  let (state, _) ← sampleGenesis
  let v ← Validator.new (fun _ => true) 2 (sampleRegistration 2) 2 2
  let registered ← state.validators.requestAddValidatorCandidate v
  let (staked, s) ← registered.requestAddStake 2 30000000000 0
  let ((advanced, _), _) ← staked.advanceEpoch 0 0 [] 0 sampleParameters.thresholds 0
  let (drained, _) ← advanced.requestWithdrawStake s 1
  return ((staked, advanced, drained), s)

/-- The pool of the candidate is mapped to it throughout. -/
def mapsPool (set : ValidatorSet) : Bool :=
  (set.validatorCandidates[2]?.all fun v => v.stakingPoolId = 2) && set.stakingPoolMappings[2]? = some 2

lemma keepsCandidate_of_mapsPool (hcands : set'.validatorCandidates = set.validatorCandidates)
    (hset : mapsPool set = true) (hset' : mapsPool set' = true) : KeepsCandidate 2 set set' := by
  intro v hv
  simp only [mapsPool, Bool.and_eq_true, decide_eq_true_eq] at hset hset'
  have hid : v.stakingPoolId = 2 := by simpa [hv] using hset.1
  refine ⟨v, hcands ▸ hv, rfl, rfl, ?_⟩
  rw [hid, hset.2, hset'.2]

lemma of_drainedCandidacy {staked advanced drained : ValidatorSet}
    (h : drainedCandidacy = .ok ((staked, advanced, drained), s))
    (hstaked : mapsPool staked = true) (hadv : mapsPool advanced = true)
    (hep : s.stakeActivationEpoch ≤ 1) :
    Candidacy 2 staked 0 {s} [] ∧ Candidacy 2 drained 1 0 [s] := by
  obtain ⟨⟨state, _⟩, -, h⟩ := bind_eq_ok.mp h
  obtain ⟨v, hv, h⟩ := bind_eq_ok.mp h
  obtain ⟨registered, hreg, h⟩ := bind_eq_ok.mp h
  obtain ⟨⟨_, _⟩, hstk, h⟩ := bind_eq_ok.mp h
  obtain ⟨⟨⟨_, _⟩, _⟩, hadvance, h⟩ := bind_eq_ok.mp h
  obtain ⟨⟨_, _⟩, hdraw, h⟩ := bind_eq_ok.mp h
  cases h
  have hnew : (∃ id, v.stakingPool = .new id) ∧ v.nextEpochStake = 0 ∧ v.suiAddress = 2 := by
    cases hv
    exact ⟨⟨2, rfl⟩, rfl, rfl⟩
  have hcands := ValidatorSet.advanceEpoch_validatorCandidates hadvance
  have hcandy : Candidacy 2 staked 0 {s} [] := .addStake (.register hnew.1 hnew.2.1 hnew.2.2 hreg) hstk
  exact ⟨hcandy, .withdraw (.epochChange hcandy (keepsCandidate_of_mapsPool hcands hstaked hadv))
    rfl hep hdraw⟩

def drainedJoins (result : (ValidatorSet × ValidatorSet × ValidatorSet) × StakedSui) : Bool :=
  mapsPool result.1.1 && mapsPool result.1.2.1 && decide (result.2.stakeActivationEpoch ≤ 1)
    && (result.1.2.2.requestAddValidator 30000000000 2).isOk
    && decide (result.1.2.2.validatorCandidates[2]?.map Validator.totalStakeAmount = some 30000000000)

lemma returns_drainedCandidacy : returns drainedCandidacy drainedJoins = true := by
  decide +kernel

/-- A candidate joins without any outstanding stake. -/
theorem drained_candidate_joins :
    ∃ set s, Candidacy 2 set 1 0 [s] ∧ (set.requestAddValidator 30000000000 2).isOk = true ∧
    set.validatorCandidates[2]?.map Validator.totalStakeAmount = some 30000000000 ∧
      totalPrincipal 0 < 30000000000 := by
  obtain ⟨⟨⟨staked, advanced, drained⟩, s⟩, h, hjoins⟩ := exists_of_returns returns_drainedCandidacy
  simp only [drainedJoins, Bool.and_eq_true, decide_eq_true_eq] at hjoins
  obtain ⟨⟨⟨⟨hstaked, hadvanced⟩, hepoch⟩, hok⟩, hamount⟩ := hjoins
  exact ⟨drained, s, (of_drainedCandidacy h hstaked hadvanced hepoch).2, hok, hamount, by decide⟩

/-- The candidate after its first stake. -/
theorem totalStakeAmount_eq_outstanding_sample : ∃ set s, Candidacy 2 set 0 {s} [] ∧
    ∃ v, set.validatorCandidates[2]? = some v ∧ v.totalStakeAmount = totalPrincipal {s} := by
  obtain ⟨⟨⟨staked, advanced, drained⟩, s⟩, h, hjoins⟩ := exists_of_returns returns_drainedCandidacy
  simp only [drainedJoins, Bool.and_eq_true, decide_eq_true_eq] at hjoins
  obtain ⟨⟨⟨⟨hstaked, hadvanced⟩, hepoch⟩, -⟩, -⟩ := hjoins
  have hcandidacy := (of_drainedCandidacy h hstaked hadvanced hepoch).1
  obtain ⟨v, hv, hiff, -⟩ := totalStakeAmount_eq_outstanding_iff hcandidacy
  exact ⟨staked, s, hcandidacy, v, hv, hiff.mpr rfl⟩

end Candidacy

end SuiProofs.SuiSystem

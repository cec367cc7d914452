import SuiProofs.SuiSystem.Validator

/-! Models `voting_power.move`. -/

namespace SuiProofs.SuiSystem

open Library List

def totalVotingPower : ℕ := 10000

def quorumThreshold : ℕ := 6667

def maxVotingPower : ℕ := 1000

def divideAndRoundUp (x y : ℕ) : Except Abort ℕ :=
  if y = 0 then .error .divisionByZero else .ok (if x % y = 0 then x / y else x / y + 1)

def checkedDiv (x y : ℕ) : Except Abort ℕ := if y = 0 then .error .divisionByZero else .ok (x / y)

structure VotingPowerInfoV2 where
  validatorIndex : ℕ
  votingPower : ℕ
  stake : ℕ
deriving DecidableEq, Repr

namespace VotingPower

def totalStake (validators : List Validator) : ℕ := (validators.map Validator.totalStake).sum

def insertInfo (infoList : List VotingPowerInfoV2) (newInfo : VotingPowerInfoV2) :
    List VotingPowerInfoV2 :=
  infoList.takeWhile (fun info => info.stake > newInfo.stake) ++
    newInfo :: infoList.dropWhile fun info => info.stake > newInfo.stake

def initInfo (total threshold : ℕ) (acc : List VotingPowerInfoV2 × ℕ) (entry : Validator × ℕ) :
    Except Abort (List VotingPowerInfoV2 × ℕ) := do
  let stake := entry.1.totalStake
  let adjustedStake ← checkedDiv (stake * totalVotingPower) total
  let adjustedStake ← castU64 adjustedStake
  let votingPower := min adjustedStake threshold
  return (insertInfo acc.1 ⟨entry.2, votingPower, stake⟩, acc.2 + votingPower)

variable (validators : List Validator)

def initVotingPowerInfo (threshold : ℕ) : Except Abort (List VotingPowerInfoV2 × ℕ) := do
  let (result, totalPower) ← validators.zipIdx.foldlM
    (initInfo (totalStake validators) threshold) ([], 0)
  let remaining ← checkedSub totalVotingPower totalPower
  return (result, remaining)

/-- Gives the remaining power to the validators that are not capped, from the largest stake on. -/
def adjustVotingPower (threshold : ℕ) :
    List VotingPowerInfoV2 → ℕ → Except Abort (List VotingPowerInfoV2)
  | [], remainingPower => do
    check (remainingPower = 0) .totalPowerMismatch
    return []
  | v :: rest, remainingPower =>
    if remainingPower = 0 then .ok (v :: rest)
    else do
      let planned ← divideAndRoundUp remainingPower (rest.length + 1)
      let target := min threshold (v.votingPower + planned)
      let room ← checkedSub target v.votingPower
      let actual := min remainingPower room
      let v := { v with votingPower := v.votingPower + actual }
      check (v.votingPower ≤ threshold) .votingPowerOverThreshold
      let rest ← adjustVotingPower threshold rest (remainingPower - actual)
      return v :: rest

def updateVotingPower (infoList : List VotingPowerInfoV2) : List Validator :=
  infoList.foldr (fun info validators =>
    validators.modify info.validatorIndex fun v => { v with votingPower := info.votingPower })
    validators

def ordered (a b : Validator) : Bool :=
  (a.totalStake ≤ b.totalStake || b.votingPower ≤ a.votingPower) &&
    (b.totalStake ≤ a.totalStake || a.votingPower ≤ b.votingPower)

def checkInvariants : Except Abort Unit := do
  check (validators.all fun v => v.votingPower > 0) .invalidVotingPower
  check ((validators.map Validator.votingPower).sum = totalVotingPower) .totalPowerMismatch
  check (decide (validators.Pairwise fun a b => ordered a b = true)) .relativePowerMismatch

def setVotingPower : Except Abort (List Validator) := do
  let feasible ← divideAndRoundUp totalVotingPower validators.length
  let threshold := min totalVotingPower (max maxVotingPower feasible)
  let (infoList, remainingPower) ← initVotingPowerInfo validators threshold
  let infoList ← adjustVotingPower threshold infoList remainingPower
  let validators := updateVotingPower validators infoList
  checkInvariants validators
  return validators

lemma updateVotingPower_forall₂ (validators : List Validator) (infoList : List VotingPowerInfoV2) :
    List.Forall₂ (fun v v' => ∃ power, v' = { v with votingPower := power }) validators
      (updateVotingPower validators infoList) := by
  induction infoList with
  | nil => exact forall₂_same.mpr fun v _ => ⟨v.votingPower, rfl⟩
  | cons info infoList ih =>
    rw [forall₂_iff_get] at ih ⊢
    obtain ⟨hlen, hget⟩ := ih
    refine ⟨?_, fun i h₁ h₂ => ?_⟩
    · rw [hlen]
      exact (length_modify _ _ _).symm
    · have h₂' : i < (updateVotingPower validators infoList).length := hlen ▸ h₁
      obtain ⟨power, hpower⟩ := hget i h₁ h₂'
      have hmodify : (updateVotingPower validators (info :: infoList)).get ⟨i, h₂⟩ =
          if info.validatorIndex = i then
            { (updateVotingPower validators infoList).get ⟨i, h₂'⟩
              with votingPower := info.votingPower }
          else (updateVotingPower validators infoList).get ⟨i, h₂'⟩ := getElem_modify ..
      rw [hmodify, hpower]
      split_ifs
      · exact ⟨info.votingPower, rfl⟩
      · exact ⟨power, rfl⟩

lemma setVotingPower_eq_ok {validators validators' : List Validator}
    (h : setVotingPower validators = .ok validators') :
    List.Forall₂ (fun v v' => ∃ power, v' = { v with votingPower := power }) validators validators' := by
  obtain ⟨_, -, h⟩ := bind_eq_ok.mp h
  obtain ⟨_, -, h⟩ := bind_eq_ok.mp h
  obtain ⟨infoList, -, h⟩ := bind_eq_ok.mp h
  obtain ⟨_, -, h⟩ := bind_eq_ok.mp h
  cases h
  exact updateVotingPower_forall₂ validators infoList

end VotingPower

end SuiProofs.SuiSystem

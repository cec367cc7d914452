import SuiProofs.Authority.Base

/-! Models `committee.rs` of `sui-types` and `stake_aggregator.rs` of `sui-core`. -/

namespace SuiProofs.Authority

open Library Std

abbrev AuthorityName := ℕ

def totalVotingPower : ℕ := 10000

def quorumThreshold : ℕ := 6667

def validityThreshold : ℕ := 3334

structure Committee where
  epoch : ℕ
  votingRights : List (AuthorityName × ℕ)
  sorted : votingRights.Pairwise fun a b => a.1 < b.1
  total : (votingRights.map Prod.snd).sum = totalVotingPower

namespace Committee

def weight (committee : Committee) (author : AuthorityName) : ℕ :=
  (committee.votingRights.lookup author).getD 0

def threshold (strength : Bool) : ℕ := if strength then quorumThreshold else validityThreshold

def stake (committee : Committee) (authorities : List AuthorityName) : ℕ :=
  (authorities.map committee.weight).sum

def sole : Committee := ⟨0, [(1, 10000)], by decide, by decide⟩

end Committee

/-- The errors of `SuiError` met here. -/
inductive AggregatorError where
  | stakeAggregatorRepeatedSigner (signer : AuthorityName) (conflictingSig : Bool)
  | invalidAuthenticator
  | wrongEpoch (expectedEpoch actualEpoch : ℕ)
  | invalidSignature (error : String)
  | unknownSigner (signer : Option AuthorityName) (index : Option ℕ)
  | certificateRequiresQuorum
deriving DecidableEq, Repr

inductive InsertResult (C : Type*) where
  | quorumReached (cert : C)
  | failed (error : AggregatorError)
  | notEnoughVotes (badVotes : ℕ) (badAuthorities : List AuthorityName)

def InsertResult.isQuorumReached {C : Type*} : InsertResult C → Bool
  | quorumReached _ => true
  | _ => false

structure StakeAggregator (S : Type*) where
  data : TreeMap AuthorityName S
  totalVotes : ℕ

namespace StakeAggregator

variable {S : Type*} [BEq S] {committee : Committee} {strength : Bool} {agg : StakeAggregator S}
  {authority : AuthorityName} {s : S}

def new : StakeAggregator S := ⟨∅, 0⟩

variable (committee strength agg authority s) in
def insertGeneric : StakeAggregator S × InsertResult (TreeMap AuthorityName S) :=
  match agg.data[authority]? with
  | some old => (agg, .failed (.stakeAggregatorRepeatedSigner authority (old != s)))
  | none =>
    let agg := { agg with data := agg.data.insert authority s }
    let votes := committee.weight authority
    if votes > 0 then
      let agg := { agg with totalVotes := agg.totalVotes + votes }
      if agg.totalVotes ≥ Committee.threshold strength then (agg, .quorumReached agg.data)
      else (agg, .notEnoughVotes 0 [])
    else (agg, .failed .invalidAuthenticator)

/-- The votes are those of the authorities that were inserted. -/
def Counts (committee : Committee) (agg : StakeAggregator S) : Prop :=
  agg.totalVotes = committee.stake agg.data.keys

omit [BEq S] in
lemma counts_new : (new : StakeAggregator S).Counts committee := by
  rfl

end StakeAggregator

end SuiProofs.Authority

import SuiProofs.Authority.SignatureAggregation

/-!
Models `MultiStakeAggregator` of `stake_aggregator.rs` and `CheckpointSignatureAggregator` of
`checkpoints/mod.rs`. A subtraction that underflows has no result.
-/

namespace SuiProofs.Authority

open Library List Committee
open Std (TreeMap)

structure MultiStakeAggregator (K V Sig : Type) [LinearOrder K] where
  stakeMaps : TreeMap K (V × StakeAggregator (AuthoritySignInfo Sig))

namespace MultiStakeAggregator

variable {K V Sig : Type} [LinearOrder K]

def new : MultiStakeAggregator K V Sig := ⟨∅⟩

/-- A failed insertion adds no key. -/
def insert (verify : V → ℕ → AuthorityName → Sig → Bool) (committee : Committee) (strength : Bool)
    (agg : MultiStakeAggregator K V Sig) (k : K) (envelope : Envelope V Sig) :
    MultiStakeAggregator K V Sig × InsertResult (AuthorityQuorumSignInfo Sig) :=
  match agg.stakeMaps[k]? with
  | some entry =>
    let inserted := entry.2.insert verify committee strength envelope
    (⟨agg.stakeMaps.insert k (entry.1, inserted.1)⟩, inserted.2)
  | none =>
    let inserted := StakeAggregator.new.insert verify committee strength envelope
    match inserted.2 with
    | .failed error => (agg, .failed error)
    | result => (⟨agg.stakeMaps.insert k (envelope.data, inserted.1)⟩, result)

def totalVotes (agg : MultiStakeAggregator K V Sig) : ℕ :=
  (agg.stakeMaps.toList.map fun e => e.2.2.totalVotes).sum

def uncommittedStake (committee : Committee) (agg : MultiStakeAggregator K V Sig) : Option ℕ :=
  if agg.totalVotes ≤ committee.totalVotes then some (committee.totalVotes - agg.totalVotes) else none

def pluralityStake (agg : MultiStakeAggregator K V Sig) : ℕ :=
  ((agg.stakeMaps.toList.map fun e => e.2.2.totalVotes).max?).getD 0

def quorumUnreachable (committee : Committee) (strength : Bool)
    (agg : MultiStakeAggregator K V Sig) : Option Bool :=
  (agg.uncommittedStake committee).map fun uncommitted =>
    decide (uncommitted + agg.pluralityStake < Committee.threshold strength)

def insertAll (verify : V → ℕ → AuthorityName → Sig → Bool) (committee : Committee) (strength : Bool)
    (calls : List (K × Envelope V Sig)) : MultiStakeAggregator K V Sig :=
  calls.foldl (fun agg call => (agg.insert verify committee strength call.1 call.2).1) .new

def firstSignature (calls : List (K × Envelope V Sig)) (k : K) (name : AuthorityName) :
    Option (AuthoritySignInfo Sig) :=
  (calls.find? fun call => call.1 = k ∧ call.2.authSignature.authority = name).map fun call =>
    call.2.authSignature

def signers (calls : List (K × Envelope V Sig)) (k : K) : List AuthorityName :=
  ((calls.filter fun call => call.1 = k).map fun call => call.2.authSignature.authority).dedup

def nonSigners (committee : Committee) (calls : List (K × Envelope V Sig)) : List AuthorityName :=
  (committee.votingRights.map Prod.fst).filter fun name =>
    ∀ call ∈ calls, call.2.authSignature.authority ≠ name

def aggregatorFor (agg : MultiStakeAggregator K V Sig) (k : K) :
    StakeAggregator (AuthoritySignInfo Sig) :=
  (agg.stakeMaps[k]?).elim .new Prod.snd

section Calls

variable {verify : V → ℕ → AuthorityName → Sig → Bool} {committee : Committee} {strength : Bool}
  {agg : MultiStakeAggregator K V Sig}
  {calls : List (K × Envelope V Sig)} {call : K × Envelope V Sig} {k : K} {name : AuthorityName}

variable (committee call) in
def FromMember : Prop :=
  call.2.authSignature.epoch = committee.epoch ∧ 0 < committee.weight call.2.authSignature.authority

lemma mem_signers : name ∈ signers calls k ↔
    ∃ call ∈ calls, call.1 = k ∧ call.2.authSignature.authority = name := by
  unfold signers
  simp only [mem_dedup, mem_map, mem_filter, decide_eq_true_eq, and_assoc]

lemma nodup_signers : (signers calls k).Nodup := nodup_dedup _

lemma mem_signers_iff_firstSignature :
    name ∈ signers calls k ↔ ∃ sig, firstSignature calls k name = some sig := by
  unfold firstSignature
  rw [mem_signers, ← Option.isSome_iff_exists, Option.isSome_map, List.find?_isSome]
  simp only [decide_eq_true_eq]

lemma firstSignature_append : firstSignature (calls ++ [call]) k name = (firstSignature calls k name).or
    (if call.1 = k ∧ call.2.authSignature.authority = name then some call.2.authSignature
      else none) := by
  unfold firstSignature
  rw [List.find?_append, Option.map_or, List.find?_singleton]
  split_ifs with h₁ h₂ h₂
  · rfl
  · exact absurd (of_decide_eq_true h₁) h₂
  · exact absurd (decide_eq_true h₂) h₁
  · rfl

omit [LinearOrder K] in
lemma insert_new_ne_failed (hmem : FromMember committee call) (error : AggregatorError) :
    ((StakeAggregator.new : StakeAggregator (AuthoritySignInfo Sig)).insert verify committee
      strength call.2).2 ≠ .failed error := by
  intro hfailed
  generalize hins : StakeAggregator.new.insert verify committee strength call.2 = outcome at hfailed
  have hcases : StakeAggregator.Insertion verify committee strength call.2.data .new
      call.2.authSignature outcome :=
    hins ▸ StakeAggregator.insertion hmem.1
  cases hcases with
  | repeated old hold => simp [StakeAggregator.new] at hold
  | notMember _ hzero => exact absurd hzero hmem.2.ne'
  | notEnough _ _ _ => cases hfailed
  | enough hfr _ hq =>
    have hsig : (StakeAggregator.new : StakeAggregator (AuthoritySignInfo Sig)).Signed committee := by
      intro name sig hget
      simp [StakeAggregator.new] at hget
    rcases @StakeAggregator.aggregate_cases V Sig verify committee strength call.2.data
      _ (hsig.added hmem.1)
        (StakeAggregator.counts_new.added hfr) hq
          with ⟨-, cert, heq, -⟩ | ⟨-, ⟨error, -, name, hname, hzero⟩ | heq⟩
    · rw [heq] at hfailed
      cases hfailed
    · obtain ⟨sig, hget⟩ := mem_map_iff_exists.mp hname
      rw [StakeAggregator.getElem?_added] at hget
      split_ifs at hget with hauth
      · rw [← hauth] at hzero
        exact absurd hzero hmem.2.ne'
      · simp [StakeAggregator.new] at hget
    · rw [heq] at hfailed
      cases hfailed

lemma insert_eq (hmem : FromMember committee call) :
    ∃ v, agg.insert verify committee strength call.1 call.2 =
      (⟨agg.stakeMaps.insert call.1 (v,
        ((agg.aggregatorFor call.1).insert verify committee strength call.2).1)⟩,
        ((agg.aggregatorFor call.1).insert verify committee strength call.2).2) := by
  unfold insert aggregatorFor
  cases hget : agg.stakeMaps[call.1]? with
  | some entry => exact ⟨entry.1, rfl⟩
  | none =>
    refine ⟨call.2.data, ?_⟩
    dsimp only
    split
    · rename_i error hfailed
      exact absurd hfailed (insert_new_ne_failed hmem error)
    · rfl

lemma aggregatorFor_insert (hmem : FromMember committee call) (k : K) :
    (agg.insert verify committee strength call.1 call.2).1.aggregatorFor k =
      if call.1 = k then ((agg.aggregatorFor call.1).insert verify committee strength call.2).1
      else agg.aggregatorFor k := by
  obtain ⟨v, heq⟩ := insert_eq hmem
  rw [heq, aggregatorFor, getElem?_insert_ite]
  split_ifs <;> rfl

variable (committee calls k) in
/-- The aggregator of a key holds the first signature of each authority for it. -/
structure Tracks (agg : MultiStakeAggregator K V Sig) : Prop where
  counts : (agg.aggregatorFor k).Counts committee
  signed : (agg.aggregatorFor k).Signed committee
  data : ∀ name : AuthorityName, (agg.aggregatorFor k).data[name]? = firstSignature calls k name

section

variable (h : agg.Tracks committee calls k)

include h

omit h in
lemma totalVotes_of_data {agg : StakeAggregator (AuthoritySignInfo Sig)} (hcts : agg.Counts committee)
    (hdata : ∀ name : AuthorityName, agg.data[name]? = firstSignature calls k name) :
    agg.totalVotes = committee.stake (signers calls k) := by
  rw [hcts]
  apply committee.stake_perm
  rw [perm_ext_iff_of_nodup TreeMap.nodup_keys nodup_signers]
  intro name
  rw [TreeMap.mem_keys, mem_map_iff_exists, mem_signers_iff_firstSignature]
  simp only [hdata]

lemma Tracks.totalVotes : (agg.aggregatorFor k).totalVotes = committee.stake (signers calls k) :=
  totalVotes_of_data h.counts h.data

lemma Tracks.added (hkey : call.1 = k)
    (hfr : (agg.aggregatorFor k).data[call.2.authSignature.authority]? = none) (name : AuthorityName) :
    ((agg.aggregatorFor k).added committee call.2.authSignature).data[name]? = firstSignature
      (calls ++ [call]) k name := by
  rw [StakeAggregator.getElem?_added, firstSignature_append, ← h.data]
  by_cases hname : call.2.authSignature.authority = name
  · rw [if_pos hname, if_pos ⟨hkey, hname⟩, ← hname, hfr, Option.none_or]
  · rw [if_neg hname, if_neg (fun hc => hname hc.2), Option.or_none]

lemma Tracks.totalVotes_added (hkey : call.1 = k)
    (hfr : (agg.aggregatorFor k).data[call.2.authSignature.authority]? = none) :
    ((agg.aggregatorFor k).added committee call.2.authSignature).totalVotes = committee.stake
      (signers (calls ++ [call]) k) :=
  totalVotes_of_data (h.counts.added hfr) (h.added hkey hfr)

lemma Tracks.insert (hmem : FromMember committee call)
    (hbel : committee.stake (signers (calls ++ [call]) k) < Committee.threshold strength) :
    (agg.insert verify committee strength call.1 call.2).1.Tracks committee (calls ++ [call]) k := by
  have heq : (agg.insert verify committee strength call.1 call.2).1.aggregatorFor k =
      if call.1 = k then ((agg.aggregatorFor call.1).insert verify committee strength call.2).1
      else agg.aggregatorFor k :=
    aggregatorFor_insert hmem k
  by_cases hkey : call.1 = k
  · subst hkey
    rw [if_pos rfl] at heq
    generalize hins : (agg.aggregatorFor call.1).insert verify committee strength call.2 = outcome at heq
    have hcases : StakeAggregator.Insertion verify committee strength call.2.data
        (agg.aggregatorFor call.1) call.2.authSignature outcome :=
      hins ▸ StakeAggregator.insertion hmem.1
    cases hcases with
    | repeated old hold =>
      refine ⟨heq ▸ h.counts, heq ▸ h.signed, fun name => ?_⟩
      rw [heq, firstSignature_append, ← h.data]
      split_ifs with hname
      · rw [← hname.2, hold, Option.some_or]
      · rw [Option.or_none]
    | notMember _ hzero => exact absurd hzero hmem.2.ne'
    | notEnough hfr _ _ =>
      refine ⟨heq ▸ h.counts.added hfr, heq ▸ h.signed.added hmem.1, fun name => ?_⟩
      rw [heq]
      exact h.added rfl hfr name
    | enough hfr _ hq =>
      rw [h.totalVotes_added rfl hfr] at hq
      exact absurd hbel (not_lt.mpr hq)
  · rw [if_neg hkey] at heq
    constructor
    · rw [heq]
      exact h.counts
    · rw [heq]
      exact h.signed
    · intro name
      rw [heq, h.data, firstSignature_append, if_neg (fun hc => hkey hc.1), Option.or_none]

end

lemma signers_subset_append : signers calls k ⊆ signers (calls ++ [call]) k := by
  intro name hname
  obtain ⟨call', hin, hrest⟩ := mem_signers.mp hname
  exact mem_signers.mpr ⟨call', mem_append_left _ hin, hrest⟩

@[simp] lemma insertAll_append : insertAll verify committee strength (calls ++ [call]) =
    ((insertAll verify committee strength calls).insert verify committee strength call.1 call.2).1 := by
  simp [insertAll]

variable (hmembs : ∀ call ∈ calls, FromMember committee call)
include hmembs

lemma tracks_insertAll
    (hbel : committee.stake (signers calls k) < Committee.threshold strength) :
    (insertAll verify committee strength calls).Tracks committee calls k := by
  induction calls using List.reverseRecOn with
  | nil =>
    have hnew : (insertAll verify committee strength ([] : List (K × Envelope V Sig))).aggregatorFor
        k = .new := by
      simp [insertAll, MultiStakeAggregator.new, aggregatorFor]
    constructor
    · exact StakeAggregator.counts_new
    · rw [hnew]
      intro name sig hget
      simp [StakeAggregator.new] at hget
    · intro name
      rw [hnew]
      simp [StakeAggregator.new, firstSignature]
  | append_singleton calls call ih =>
    rw [forall_mem_append, forall_mem_singleton] at hmembs
    have hbef := (stake_le_of_subset nodup_signers signers_subset_append).trans_lt hbel
    rw [insertAll_append]
    exact (ih hmembs.1 hbef).insert hmembs.2 hbel

omit hmembs in
lemma totalVotes_insert (hmem : FromMember committee call) :
    (agg.insert verify committee strength call.1 call.2).1.totalVotes +
      (agg.aggregatorFor call.1).totalVotes =
      agg.totalVotes +
        ((agg.aggregatorFor call.1).insert verify committee strength call.2).1.totalVotes := by
  obtain ⟨v, heq⟩ := insert_eq hmem
  have hold : (agg.aggregatorFor call.1).totalVotes = (agg.stakeMaps[call.1]?).elim 0 fun e =>
      e.2.totalVotes := by
    unfold aggregatorFor
    cases agg.stakeMaps[call.1]? <;> rfl
  rw [heq, hold]
  exact sum_map_insert agg.stakeMaps call.1 _ fun e => e.2.totalVotes

def allSigners (calls : List (K × Envelope V Sig)) : List AuthorityName :=
  (calls.map fun call => call.2.authSignature.authority).dedup

omit hmembs in
lemma stake_dedup_append {names : List AuthorityName} :
    committee.stake (names ++ [name]).dedup = committee.stake names.dedup + if name ∈ names then 0
      else committee.weight name := by
  split_ifs with hin
  · apply committee.stake_perm
    rw [perm_ext_iff_of_nodup (nodup_dedup _) (nodup_dedup _)]
    intro a
    simp only [mem_dedup, mem_append, mem_singleton]
    exact ⟨fun h => h.elim id fun he => he ▸ hin, .inl⟩
  · have hperm : (names ++ [name]).dedup.Perm (name :: names.dedup) := by
      rw [perm_ext_iff_of_nodup (nodup_dedup _)
        (nodup_cons.mpr ⟨fun h => hin (mem_dedup.mp h), nodup_dedup _⟩)]
      intro a
      rw [mem_dedup, mem_append, mem_singleton, mem_cons, mem_dedup]
      exact or_comm
    rw [committee.stake_perm hperm, add_comm]
    rfl

def SignOnce (calls : List (K × Envelope V Sig)) : Prop :=
  ∀ call ∈ calls, ∀ call' ∈ calls, call.2.authSignature.authority =
    call'.2.authSignature.authority → call.1 = call'.1

lemma totalVotes_insertAll
    (hbel : ∀ k, committee.stake (signers calls k) < Committee.threshold strength)
    (honce : SignOnce calls) :
    (insertAll verify committee strength calls).totalVotes = committee.stake (allSigners calls) := by
  induction calls using List.reverseRecOn with
  | nil => rfl
  | append_singleton calls call ih =>
    have hbef : ∀ k, committee.stake (signers calls k) < threshold strength :=
      fun k => (stake_le_of_subset nodup_signers signers_subset_append).trans_lt (hbel k)
    have hold : (insertAll verify committee strength calls).Tracks committee calls call.1 :=
      tracks_insertAll (fun c hc => hmembs c (mem_append_left _ hc)) (hbef _)
    have hmem : FromMember committee call := hmembs call (by simp)
    have hnew : ((insertAll verify committee strength calls).insert verify committee strength call.1
      call.2).1.Tracks committee
        (calls ++ [call]) call.1 := hold.insert hmem (hbel _)
    have htot : ((insertAll verify committee strength calls).insert verify committee strength call.1
        call.2).1.totalVotes + _ = _ :=
      totalVotes_insert hmem
    have hvts := hnew.totalVotes
    rw [aggregatorFor_insert hmem, if_pos rfl] at hvts
    rw [hvts, hold.totalVotes, ih (fun c hc => hmembs c (mem_append_left _ hc)) hbef
      (fun c hc c' hc' => honce c (mem_append_left _ hc) c' (mem_append_left _ hc'))] at htot
    have hkey : committee.stake (signers (calls ++ [call]) call.1) =
      committee.stake (signers calls call.1) +
        if call.2.authSignature.authority ∈ (calls.filter fun c => c.1 = call.1).map fun c =>
          c.2.authSignature.authority then 0
        else committee.weight call.2.authSignature.authority := by
      unfold signers
      rw [filter_append, map_append, ← stake_dedup_append]
      simp
    have hany : committee.stake (allSigners (calls ++ [call])) = committee.stake (allSigners calls) +
        if call.2.authSignature.authority ∈ calls.map fun c => c.2.authSignature.authority then 0
        else committee.weight call.2.authSignature.authority := by
      unfold allSigners
      rw [map_append, ← stake_dedup_append]
      rfl
    have hsame : (call.2.authSignature.authority ∈ (calls.filter fun c => c.1 = call.1).map fun c =>
      c.2.authSignature.authority) ↔
        call.2.authSignature.authority ∈ calls.map fun c => c.2.authSignature.authority := by
      simp only [mem_map, mem_filter, decide_eq_true_eq, and_assoc]
      refine exists_congr fun c => and_congr_right fun hc => and_iff_right_of_imp fun heq => ?_
      exact honce c (mem_append_left _ hc) call (by simp) heq
    rw [insertAll_append, hany]
    rw [hkey] at htot
    simp only [hsame] at htot
    omega

omit hmembs in
lemma stake_members (committee : Committee) :
    committee.stake (committee.votingRights.map Prod.fst) = totalVotingPower := by
  have hwt : ∀ rights : List (AuthorityName × ℕ), rights.Pairwise (fun a b => a.1 < b.1) →
      ∀ e ∈ rights, (rights.lookup e.1).getD 0 = e.2 := by
    intro rights hsort e he
    have hlk : rights.lookup e.1 = some e.2 := by
      obtain ⟨l₁, l₂, rfl⟩ := append_of_mem he
      refine lookup_eq_some_iff.mpr ⟨l₁, l₂, rfl, fun e' he' => ?_⟩
      have hlt := (pairwise_append.mp hsort).2.2 e' he' e mem_cons_self
      simpa using hlt.ne'
    rw [hlk]
    rfl
  unfold stake
  rw [map_map, ← committee.total]
  congr 1
  exact map_congr_left fun e he => hwt committee.votingRights committee.sorted e he

omit [LinearOrder K] in
lemma stake_allSigners_add :
    committee.stake (allSigners calls) + committee.stake (nonSigners committee calls) =
      totalVotingPower := by
  have hnd : (committee.votingRights.map Prod.fst).Nodup :=
    pairwise_map.mpr (committee.sorted.imp fun h => h.ne)
  have hspl :=
    filter_append_perm (fun name => decide (∀ call ∈ calls, call.2.authSignature.authority ≠ name))
    (committee.votingRights.map Prod.fst)
  have hsigners : (allSigners calls).Perm ((committee.votingRights.map Prod.fst).filter fun name =>
      !decide (∀ call ∈ calls, call.2.authSignature.authority ≠ name)) := by
    unfold allSigners
    rw [perm_ext_iff_of_nodup (nodup_dedup _) (hnd.filter _)]
    intro name
    simp only [mem_dedup, mem_filter, Bool.not_eq_true', decide_eq_false_iff_not, not_forall,
      not_not, mem_map]
    constructor
    · rintro ⟨call, hcall, rfl⟩
      refine ⟨?_, call, hcall, rfl⟩
      exact mem_map.mp (mem_of_weight_pos (hmembs call hcall).2)
    · rintro ⟨-, call, hcall, rfl⟩
      exact ⟨call, hcall, rfl⟩
  rw [committee.stake_perm hsigners, ← stake_members committee, ← committee.stake_perm hspl]
  unfold nonSigners stake
  rw [map_append, sum_append, add_comm]

omit hmembs

lemma add_max?_lt_iff {l : List ℕ} {bound n : ℕ} :
    n + l.max?.getD 0 < bound ↔ n < bound ∧ ∀ v ∈ l, v + n < bound := by
  cases hmax : l.max? with
  | none => simp [List.max?_eq_none_iff.mp hmax]
  | some v =>
    obtain ⟨hin, hle⟩ := List.max?_eq_some_iff.mp hmax
    rw [Option.getD_some]
    refine ⟨fun hlt => ⟨by omega, fun w hw => ?_⟩, fun h => by have := h.2 v hin; omega⟩
    have := hle w hw
    omega

lemma add_pluralityStake_lt_iff [Inhabited K] {bound uncommitted : ℕ}
    (htr : ∀ k, agg.Tracks committee calls k) :
    uncommitted + agg.pluralityStake < bound ↔
      ∀ k, committee.stake (signers calls k) + uncommitted < bound := by
  simp only [← (htr _).totalVotes]
  unfold pluralityStake aggregatorFor
  rw [add_max?_lt_iff, forall_mem_map]
  constructor
  · rintro ⟨hlt, hall⟩ k
    cases hget : agg.stakeMaps[k]? with
    | none => exact (zero_add _).trans_lt hlt
    | some e => exact hall (k, e) (TreeMap.mem_toList_iff_getElem?_eq_some.mpr hget)
  · intro hall
    refine ⟨(Nat.le_add_left _ _).trans_lt (hall default), fun e he => ?_⟩
    have hlt := hall e.1
    rw [TreeMap.mem_toList_iff_getElem?_eq_some.mp he] at hlt
    exact hlt

/-- Valid signatures of members without a quorum for any key: if no authority signs two keys, the
uncommitted stake is that of the members that have not signed, and a quorum is found unreachable
exactly if no key can reach one with their votes. -/
theorem quorumUnreachable_iff_of_signOnce [Inhabited K]
    (verify : V → ℕ → AuthorityName → Sig → Bool) (committee : Committee)
    (strength : Bool) (calls : List (K × Envelope V Sig))
    (hvalid : ∀ call ∈ calls, call.2.authSignature.epoch = committee.epoch ∧
      call.2.authSignature.Verifies verify committee call.2.data)
    (hbelow : ∀ k, committee.stake (signers calls k) < Committee.threshold strength)
    (honce : SignOnce calls) :
    (insertAll verify committee strength calls).uncommittedStake committee =
      some (committee.stake (nonSigners committee calls)) ∧
    ∃ unreachable, (insertAll verify committee strength calls).quorumUnreachable committee
      strength = some unreachable ∧
      (unreachable = true ↔
        ∀ k, committee.stake (signers calls k) + committee.stake (nonSigners committee calls) <
          Committee.threshold strength) := by
  have hmembers : ∀ call ∈ calls, FromMember committee call := fun call hcall =>
    ⟨(hvalid call hcall).1, (hvalid call hcall).2.1⟩
  have htracks : ∀ k, (insertAll verify committee strength calls).Tracks committee calls k :=
    fun k => tracks_insertAll hmembers (hbelow k)
  have htotal : (insertAll verify committee strength calls).totalVotes =
      committee.stake (allSigners calls) :=
    totalVotes_insertAll hmembers hbelow honce
  have hsum := stake_allSigners_add hmembers
  have huncommitted : (insertAll verify committee strength calls).uncommittedStake committee =
      some (committee.stake (nonSigners committee calls)) := by
    unfold uncommittedStake Committee.totalVotes
    rw [htotal, if_pos (by omega)]
    congr 1
    omega
  refine ⟨huncommitted, decide (committee.stake (nonSigners committee calls) +
    (insertAll verify committee strength calls).pluralityStake <
    threshold strength), ?_, ?_⟩
  · unfold quorumUnreachable
    rw [huncommitted]
    rfl
  · rw [decide_eq_true_eq, add_pluralityStake_lt_iff htracks]

end Calls

def equalCommittee : Committee := ⟨0, [(1, 2500), (2, 2500), (3, 2500), (4, 2500)], by decide, by decide⟩

def signsValue (value : Fin 10) (_ : ℕ) (_ : AuthorityName) (signature : Fin 10) : Bool :=
  value = signature

def validCall (authority : AuthorityName) (k : Fin 10) : Fin 10 × Envelope (Fin 10) (Fin 10) :=
  (k, ⟨k, ⟨0, authority, k⟩⟩)

/-- Three of four members vote for three values. -/
theorem quorumUnreachable_of_split :
    (insertAll signsValue equalCommittee true [validCall 1 7, validCall 2 8,
      validCall 3 9]).uncommittedStake equalCommittee = some 2500 ∧
    ∃ unreachable,
      (insertAll signsValue equalCommittee true [validCall 1 7, validCall 2 8,
        validCall 3 9]).quorumUnreachable
        equalCommittee true = some unreachable ∧
      (unreachable = true ↔
        ∀ k, equalCommittee.stake (signers [validCall 1 7, validCall 2 8, validCall 3 9] k) + 2500 <
        Committee.threshold true) :=
  quorumUnreachable_iff_of_signOnce signsValue equalCommittee true [validCall 1 7, validCall 2 8,
    validCall 3 9]
    (by decide) (by decide) (by unfold SignOnce; decide)

/-- One authority that signs three keys makes a quorum seem unreachable, while three quarters of the
stake have not been used; with five keys the uncommitted stake underflows. -/
theorem quorumUnreachable_equivocation :
    ((insertAll signsValue equalCommittee true [validCall 1 7, validCall 1 8,
      validCall 1 9]).quorumUnreachable equalCommittee true = some true ∧
      ¬ ∀ k, equalCommittee.stake (signers [validCall 1 7, validCall 1 8, validCall 1 9] k) +
        equalCommittee.stake
          (nonSigners equalCommittee [validCall 1 7, validCall 1 8, validCall 1 9]) <
          Committee.threshold true) ∧
    (insertAll signsValue equalCommittee true
      [validCall 1 5, validCall 1 6, validCall 1 7, validCall 1 8, validCall 1 9]).uncommittedStake
        equalCommittee = none := by
  refine ⟨⟨by decide +kernel, fun h => absurd (h 7) (by decide +kernel)⟩, by decide +kernel⟩

end MultiStakeAggregator

/-- Signatures on the summary of a checkpoint and on others with its sequence number. -/
structure CheckpointSignatureAggregator (Summary Digest Sig : Type) [LinearOrder Digest] where
  summary : Summary
  digest : Digest
  signaturesByDigest : MultiStakeAggregator Digest Summary Sig

/-- The branch that is taken for a signature. Without a quorum, it is checked whether one can still
be reached. -/
inductive AggregateOutcome (Sig : Type) where
  | failed (error : AggregatorError) (splitBrain : Option Bool)
  | remoteFork
  | certified (cert : AuthorityQuorumSignInfo Sig)
  | notEnoughVotes (badAuthorities : List AuthorityName) (splitBrain : Option Bool)

def AggregateOutcome.discarded {Sig : Type} : AggregateOutcome Sig → List AuthorityName
  | notEnoughVotes badAuthorities _ => badAuthorities
  | _ => []

namespace CheckpointSignatureAggregator

variable {Summary Digest Sig : Type} [LinearOrder Digest]

def new (digest : Summary → Digest) (summary : Summary) :
    CheckpointSignatureAggregator Summary Digest Sig :=
  ⟨summary, digest summary, .new⟩

/-- The signature is checked against the local summary. -/
def tryAggregate (verify : Summary → ℕ → AuthorityName → Sig → Bool) (digest : Summary → Digest)
    (committee : Committee)
    (agg : CheckpointSignatureAggregator Summary Digest Sig) (message : Envelope Summary Sig) :
    CheckpointSignatureAggregator Summary Digest Sig × AggregateOutcome Sig :=
  let theirDigest := digest message.data
  let envelope : Envelope Summary Sig := ⟨agg.summary, message.authSignature⟩
  let inserted := agg.signaturesByDigest.insert verify committee true theirDigest envelope
  let agg := { agg with signaturesByDigest := inserted.1 }
  match inserted.2 with
  | .failed error => (agg, .failed error (agg.signaturesByDigest.quorumUnreachable committee true))
  | .quorumReached cert => if theirDigest ≠ agg.digest then (agg, .remoteFork)
      else (agg, .certified cert)
  | .notEnoughVotes _ badAuthorities =>
      (agg, .notEnoughVotes badAuthorities
        (agg.signaturesByDigest.quorumUnreachable committee true))

def aggregateAll (verify : Summary → ℕ → AuthorityName → Sig → Bool) (digest : Summary → Digest)
    (committee : Committee) (summary : Summary) (messages : List (Envelope Summary Sig)) :
    CheckpointSignatureAggregator Summary Digest Sig :=
  messages.foldl (fun agg message => (agg.tryAggregate verify digest committee message).1)
    (.new digest summary)

def storedSigners (agg : CheckpointSignatureAggregator Summary Digest Sig) (digest : Digest) :
    List AuthorityName :=
  (agg.signaturesByDigest.aggregatorFor digest).data.keys

def callFor (digest : Summary → Digest) (summary : Summary) (message : Envelope Summary Sig) :
    Digest × Envelope Summary Sig :=
  (digest message.data, ⟨summary, message.authSignature⟩)

section Messages

variable {verify : Summary → ℕ → AuthorityName → Sig → Bool} {digest : Summary → Digest}
  {committee : Committee} {summary : Summary}
  {messages : List (Envelope Summary Sig)} {message : Envelope Summary Sig}

lemma tryAggregate_fields (agg : CheckpointSignatureAggregator Summary Digest Sig) :
    (agg.tryAggregate verify digest committee message).1 = { agg with signaturesByDigest :=
      (agg.signaturesByDigest.insert verify committee true (callFor digest agg.summary message).1
        (callFor digest agg.summary message).2).1 } := by
  unfold tryAggregate callFor
  dsimp only
  split
  · rfl
  · split_ifs <;> rfl
  · rfl

lemma aggregateAll_eq : aggregateAll verify digest committee summary messages =
    ⟨summary, digest summary, .insertAll verify committee true
      (messages.map (callFor digest summary))⟩ := by
  induction messages using List.reverseRecOn with
  | nil => rfl
  | append_singleton messages message ih =>
    unfold aggregateAll at ih ⊢
    rw [map_append, map_singleton, MultiStakeAggregator.insertAll_append, foldl_append, ih]
    exact tryAggregate_fields _

lemma tryAggregate_eq_remoteFork (agg : CheckpointSignatureAggregator Summary Digest Sig)
    (hoth : digest message.data ≠ agg.digest) :
    (agg.tryAggregate verify digest committee message).2 = .remoteFork ↔
      (agg.signaturesByDigest.insert verify committee true (callFor digest agg.summary message).1
        (callFor digest agg.summary message).2).2.isQuorumReached = true := by
  unfold tryAggregate callFor
  dsimp only
  generalize (agg.signaturesByDigest.insert verify committee true (digest message.data)
    ⟨agg.summary, message.authSignature⟩) = inserted
  obtain ⟨sigs, result⟩ := inserted
  cases result with
  | quorumReached cert =>
    dsimp only
    rw [if_pos hoth]
    simp [InsertResult.isQuorumReached]
  | failed | notEnoughVotes => simp [InsertResult.isQuorumReached]

open MultiStakeAggregator in
/-- Validly signed messages for the sequence number of the local summary. The message that
gives a quorum to another digest takes the branch for remote forks, and keeps the
signatures for this digest, exactly if the first signature of each signer of the digest
verifies on the local summary too. -/
theorem tryAggregate_detects_fork_iff (verify : Summary → ℕ → AuthorityName → Sig → Bool)
    (digest : Summary → Digest)
    (committee : Committee) (summary : Summary) (messages : List (Envelope Summary Sig))
    (message : Envelope Summary Sig)
    (hvalid : ∀ m ∈ messages ++ [message], m.authSignature.epoch = committee.epoch ∧
      m.authSignature.Verifies verify committee m.data)
    (hother : digest message.data ≠ digest summary)
    (hbefore : committee.stake (signers (messages.map (callFor digest summary))
      (digest message.data)) < quorumThreshold)
    (hafter : quorumThreshold ≤ committee.stake
      (signers ((messages ++ [message]).map (callFor digest summary)) (digest message.data))) :
    (((aggregateAll verify digest committee summary messages).tryAggregate verify digest committee
      message).2 = .remoteFork ∧
      ∀ name ∈ signers ((messages ++ [message]).map (callFor digest summary)) (digest message.data),
        name ∈ (aggregateAll verify digest committee summary (messages ++ [message])).storedSigners
          (digest message.data)) ↔
    ∀ name sig, firstSignature ((messages ++ [message]).map (callFor digest summary))
      (digest message.data) name = some sig →
      sig.Verifies verify committee summary := by
  rw [map_append, map_singleton] at hafter ⊢
  have hmembers : ∀ call ∈ messages.map (callFor digest summary), FromMember committee call := by
    intro call hcall
    obtain ⟨m, hm, rfl⟩ := mem_map.mp hcall
    exact ⟨(hvalid m (mem_append_left _ hm)).1, (hvalid m (mem_append_left _ hm)).2.1⟩
  have hmember : FromMember committee (callFor digest summary message) :=
    ⟨(hvalid message (by simp)).1, (hvalid message (by simp)).2.1⟩
  have htracks :
    (insertAll verify committee true (messages.map (callFor digest summary))).Tracks committee
      (messages.map (callFor digest summary)) (digest message.data) := tracks_insertAll hmembers hbefore
  have hagg : aggregateAll verify digest committee summary messages =
      ⟨summary, digest summary, insertAll verify committee true
        (messages.map (callFor digest summary))⟩ := aggregateAll_eq
  have hagg' : aggregateAll verify digest committee summary (messages ++ [message]) =
      ⟨summary, digest summary,
        ((insertAll verify committee true (messages.map (callFor digest summary))).insert verify
          committee true
        (callFor digest summary message).1 (callFor digest summary message).2).1⟩ := by
    rw [aggregateAll_eq, map_append, map_singleton, insertAll_append]
  rw [tryAggregate_eq_remoteFork _ (by rw [hagg]; exact hother), hagg, hagg']
  unfold storedSigners
  generalize insertAll verify committee true (messages.map (callFor digest summary)) = agg at htracks ⊢
  generalize messages.map (callFor digest summary) = calls at hbefore hafter htracks ⊢
  generalize hcall : callFor digest summary message = call at hafter hmember ⊢
  obtain ⟨hkey, hdata⟩ : digest message.data = call.1 ∧ summary = call.2.data := by
    rw [← hcall]
    exact ⟨rfl, rfl⟩
  rw [hkey] at hbefore hafter htracks ⊢
  -- The signer is new for the digest, since its stake makes the quorum.
  have hfresh : (agg.aggregatorFor call.1).data[call.2.authSignature.authority]? = none := by
    rw [htracks.data]
    cases hfirst : firstSignature calls call.1 call.2.authSignature.authority with
    | none => rfl
    | some sig =>
      have hin := mem_signers_iff_firstSignature.mpr ⟨sig, hfirst⟩
      refine absurd (hbefore.trans_le hafter)
        (not_lt.mpr (stake_le_of_subset nodup_signers fun name hname => ?_))
      obtain ⟨c, hc, hck, rfl⟩ := mem_signers.mp hname
      rcases mem_append.mp hc with hc | hc
      · exact mem_signers.mpr ⟨c, hc, hck, rfl⟩
      · rw [mem_singleton.mp hc]
        exact hin
  obtain ⟨hcert, hreached⟩ :=
    @StakeAggregator.insert_quorumReached Summary Sig verify committee true call.2.data
    (agg.aggregatorFor call.1) call.2.authSignature htracks.signed htracks.counts hmember.1
  have hverify : ((agg.aggregatorFor call.1).added committee call.2.authSignature).AllVerify verify
    committee call.2.data ↔
      ∀ name sig, firstSignature (calls ++ [call]) call.1 name = some sig →
        sig.Verifies verify committee summary := by
    unfold StakeAggregator.AllVerify
    simp only [htracks.added rfl hfresh, ← hdata]
  obtain ⟨v, heq⟩ := insert_eq hmember
  rw [aggregatorFor_insert hmember, if_pos rfl, heq, ← hverify]
  constructor
  · intro h
    exact (hreached.mp h.1).2.2.2
  · intro hall
    have hquorum :=
      hreached.mpr
        ⟨hfresh, hmember.2, by rw [htracks.totalVotes_added rfl hfresh]; exact hafter, hall⟩
    refine ⟨hquorum, fun name hname => ?_⟩
    have hkept : ((agg.aggregatorFor call.1).insert verify committee true call.2).1 =
        (agg.aggregatorFor call.1).added committee call.2.authSignature := by
      cases hresult : ((agg.aggregatorFor call.1).insert verify committee true call.2).2 with
      | quorumReached cert => exact (hcert cert hresult).1
      | failed | notEnoughVotes =>
        rw [hresult] at hquorum
        cases hquorum
    rw [hkept, TreeMap.mem_keys, mem_map_iff_exists]
    simp only [htracks.added rfl hfresh]
    exact mem_signers_iff_firstSignature.mp hname

end Messages

def validMessage (authority : AuthorityName) (summary : Fin 10) : Envelope (Fin 10) (Fin 10) :=
  ⟨summary, ⟨0, authority, summary⟩⟩

open MultiStakeAggregator in
/-- A quorum of three members signs another digest. -/
theorem tryAggregate_detects_fork_accepted :
    ((aggregateAll (fun _ _ _ _ => true) id equalCommittee 0
      [validMessage 1 5, validMessage 2 5]).tryAggregate (fun _ _ _ _ => true) id
      equalCommittee (validMessage 3 5)).2 = .remoteFork :=
  ((tryAggregate_detects_fork_iff (fun _ _ _ _ => true) id equalCommittee 0
    [validMessage 1 5, validMessage 2 5] (validMessage 3 5)
    (by decide) (by decide) (by decide) (by decide)).mpr (by
      intro name sig hfirst
      have hall : ∀ call ∈ ([validMessage 1 5, validMessage 2 5] ++
        [validMessage 3 5]).map (callFor id 0),
          call.2.authSignature.Verifies (fun _ _ _ _ => true) equalCommittee (0 : Fin 10) := by decide
      obtain ⟨call, hfind, rfl⟩ := Option.map_eq_some_iff.mp hfirst
      exact hall call (mem_of_find?_eq_some hfind))).1

open MultiStakeAggregator in
/-- Three of four authorities sign the same other summary: the fork is not seen, and all their
signatures are discarded. -/
theorem tryAggregate_misses_fork :
    (∀ m ∈ [validMessage 1 5, validMessage 2 5, validMessage 3 5],
      m.authSignature.epoch = equalCommittee.epoch ∧
        m.authSignature.Verifies signsValue equalCommittee m.data) ∧
    equalCommittee.stake (signers ([validMessage 1 5, validMessage 2 5].map (callFor id 0)) 5) <
      quorumThreshold ∧
    quorumThreshold ≤ equalCommittee.stake
      (signers ([validMessage 1 5, validMessage 2 5, validMessage 3 5].map (callFor id 0)) 5) ∧
    ((aggregateAll signsValue id equalCommittee 0
      [validMessage 1 5, validMessage 2 5]).tryAggregate signsValue id
      equalCommittee (validMessage 3 5)).2 ≠ .remoteFork ∧
    ((aggregateAll signsValue id equalCommittee 0
      [validMessage 1 5, validMessage 2 5]).tryAggregate signsValue id
      equalCommittee (validMessage 3 5)).2.discarded = [1, 2, 3] := by
  have hdiscarded :
    ((aggregateAll signsValue id equalCommittee 0
      [validMessage 1 5, validMessage 2 5]).tryAggregate signsValue id
      equalCommittee (validMessage 3 5)).2.discarded = [1, 2, 3] := by decide +kernel
  refine ⟨by decide, by decide, by decide, fun hfork => ?_, hdiscarded⟩
  rw [hfork] at hdiscarded
  cases hdiscarded

end CheckpointSignatureAggregator

end SuiProofs.Authority

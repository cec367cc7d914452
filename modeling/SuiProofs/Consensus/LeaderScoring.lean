import SuiProofs.Consensus.LeaderSchedule
import SuiProofs.Consensus.LinearizerCommits

/-! Models the other strategies of `leader_scoring_strategy.rs`, and what all of them score. -/

namespace SuiProofs.Consensus

open Library Relation List VerifiedBlock UnscoredSubdag
open Std (TreeMap)

abbrev CertifiedVotes := TreeMap BlockRef (Bool × StakeAggregator .quorum)

def countCertifiedVote (ctx : Context) (subdag : UnscoredSubdag) (leaderBlock : VerifiedBlock)
    (authority : ℕ)
    (allVotes : CertifiedVotes) (reference : BlockRef) : Except Panic CertifiedVotes :=
  match allVotes[reference]? with
  | some (isVote, stakeAgg) =>
    .ok (if isVote then allVotes.insert reference (isVote, (stakeAgg.add authority ctx.committee).1)
      else allVotes)
  | none =>
    match subdag.blocks[reference]? with
    | some potentialVote => do
      let isVote ← subdag.isVote potentialVote leaderBlock
      return allVotes.insert reference
        (isVote, ((StakeAggregator.new : StakeAggregator .quorum).add authority ctx.committee).1)
    | none => .ok allVotes

def certifiedVotes (ctx : Context) (subdag : UnscoredSubdag) (leaderBlock : VerifiedBlock) :
    Except Panic CertifiedVotes :=
  (subdag.getBlocksAtRound (leaderBlock.round + defaultWaveLength - 1)).foldlM
    (fun allVotes potentialCert =>
    potentialCert.ancestors.foldlM
      (countCertifiedVote ctx subdag leaderBlock potentialCert.author) allVotes) ∅

def scoreCertifiedVotes (ctx : Context) (points : Bool × StakeAggregator .quorum → ℕ)
    (subdag : UnscoredSubdag) (leaderBlock : VerifiedBlock) : Except Panic (List ℕ) := do
  let allVotes ← certifiedVotes ctx subdag leaderBlock
  return allVotes.toList.foldl (fun scores vote => scores.modify vote.1.author (· + points vote.2))
    (List.replicate ctx.committee.size 0)

/-- As many points for a vote as the stake of the blocks that link it. -/
def certifiedVoteScoringStrategyV2 (ctx : Context) : ScoringStrategy :=
  scoreLeaderBlock ctx (scoreCertifiedVotes ctx fun vote => if vote.1 then vote.2.stake else 0)

/-- One point for a vote that blocks of quorum stake link. -/
def certifiedVoteScoringStrategyV1 (ctx : Context) : ScoringStrategy :=
  scoreLeaderBlock ctx (scoreCertifiedVotes ctx fun vote =>
    if vote.1 && vote.2.reachedThreshold ctx.committee then 1 else 0)

namespace UnscoredSubdag

/-- Whether a reference is a vote, with the answers that were found before. -/
def lookupVote (subdag : UnscoredSubdag) (leaderBlock : VerifiedBlock) (allVotes : TreeMap BlockRef Bool)
    (reference : BlockRef) : Except Panic (Bool × TreeMap BlockRef Bool) :=
  match allVotes[reference]? with
  | some isVote => .ok (isVote, allVotes)
  | none =>
    match subdag.blocks[reference]? with
    | some potentialVote => do
      let isVote ← subdag.isVote potentialVote leaderBlock
      return (isVote, allVotes.insert reference isVote)
    | none => .ok (false, allVotes)

def isCertificate (ctx : Context) (subdag : UnscoredSubdag) (leaderBlock : VerifiedBlock) :
    List BlockRef → StakeAggregator .quorum → TreeMap BlockRef Bool →
      Except Panic (Bool × TreeMap BlockRef Bool)
  | [], _, allVotes => .ok (false, allVotes)
  | reference :: ancestors, votesStakeAggregator, allVotes => do
    let (isVote, allVotes) ← subdag.lookupVote leaderBlock allVotes reference
    if isVote then
      let (votesStakeAggregator, reached) := votesStakeAggregator.add reference.author ctx.committee
      if reached then return (true, allVotes)
      else isCertificate ctx subdag leaderBlock ancestors votesStakeAggregator allVotes
    else isCertificate ctx subdag leaderBlock ancestors votesStakeAggregator allVotes

end UnscoredSubdag

def certificateScoringStrategy (ctx : Context) : ScoringStrategy :=
  scoreLeaderBlock ctx fun subdag leaderBlock => do
    let (scores, _) ← (subdag.getBlocksAtRound (leaderBlock.round + defaultWaveLength - 1)).foldlM
      (fun (state : List ℕ × TreeMap BlockRef Bool) potentialCert => do
        let (isCertificate, allVotes) ← subdag.isCertificate ctx leaderBlock
          potentialCert.ancestors .new state.2
        return (if isCertificate then state.1.modify potentialCert.author (· + 1)
          else state.1, allVotes))
      (List.replicate ctx.committee.size 0, ∅)
    return scores

def scoringStrategies (ctx : Context) : List ScoringStrategy :=
  [voteScoringStrategy ctx, certifiedVoteScoringStrategyV1 ctx, certifiedVoteScoringStrategyV2 ctx,
    certificateScoringStrategy ctx]

def UnscoredSubdag.Holds (subdag : UnscoredSubdag) (blocks : Set VerifiedBlock) : Prop :=
  ∀ (r : BlockRef) (b : VerifiedBlock), subdag.blocks[r]? = some b ↔ b ∈ blocks ∧ b.reference = r

namespace UnscoredSubdag

variable {subdag : UnscoredSubdag} {blocks : Set VerifiedBlock} {subdags : List CommittedSubDag}
  {b leader : VerifiedBlock}

section

variable (h : subdag.Holds blocks)
include h

lemma Holds.mem_filter {p : BlockRef → Prop} [DecidablePred p] :
    b ∈ (subdag.blocks.toList.filter fun e => p e.1).map Prod.snd ↔ b ∈ blocks ∧ p b.reference := by
  rw [mem_map_snd_filter]
  constructor
  · rintro ⟨r, hr, hp⟩
    obtain ⟨hb, rfl⟩ := (h r b).mp hr
    exact ⟨hb, of_decide_eq_true hp⟩
  · rintro ⟨hb, hp⟩
    exact ⟨b.reference, (h _ b).mpr ⟨hb, rfl⟩, decide_eq_true hp⟩

lemma Holds.mem_getBlocksAtRound {round : ℕ} :
    b ∈ subdag.getBlocksAtRound round ↔ b ∈ blocks ∧ b.round = round :=
  h.mem_filter (p := fun r => r.round = round)

lemma Holds.getBlocksAtSlot_eq (hleader : leader ∈ blocks)
    (huni : ∀ b ∈ blocks, b.slot = leader.slot → b = leader) :
    subdag.getBlocksAtSlot leader.slot = [leader] := by
  have hnd : (subdag.getBlocksAtSlot leader.slot).Nodup :=
    nodup_map_snd_filter (fun k v hv => ((h k v).mp hv).2) _
  apply perm_singleton.mp
  rw [perm_ext_iff_of_nodup hnd (nodup_singleton leader)]
  intro b
  rw [UnscoredSubdag.getBlocksAtSlot, h.mem_filter (p := fun r => r.slot = leader.slot), mem_singleton]
  constructor
  · rintro ⟨hb, hslot⟩
    exact huni b hb hslot
  · rintro rfl
    exact ⟨hleader, rfl⟩

end

lemma checkContiguous_eq_ok
    (h : ∀ (i : ℕ) (s s' : CommittedSubDag), subdags[i]? = some s → subdags[i + 1]? = some s' →
    s'.commitRef.index = s.commitRef.index + 1) : checkContiguous subdags = .ok () := by
  induction subdags with
  | nil => rfl
  | cons s subdags ih =>
    cases subdags with
    | nil => rfl
    | cons s' subdags =>
      rw [checkContiguous, if_pos (h 0 s s' rfl rfl)]
      exact ih fun i s s' hs hs' => h (i + 1) s s' hs hs'

lemma new_total (hne : subdags ≠ []) (hbs : ∀ s ∈ subdags, s.blocks ≠ [])
    (hidx : ∀ (i : ℕ) (s s' : CommittedSubDag), subdags[i]? = some s → subdags[i + 1]? = some s' →
      s'.commitRef.index = s.commitRef.index + 1)
    (hinj : ∀ b b', (∃ s ∈ subdags, b ∈ s.blocks) → (∃ s ∈ subdags, b' ∈ s.blocks) →
      b.reference = b'.reference → b = b') :
    ∃ subdag, new subdags = .ok subdag ∧ subdag.committedLeaders = subdags.map CommittedSubDag.leader ∧
      subdag.Holds {b | ∃ s ∈ subdags, b ∈ s.blocks} := by
  have hholds : ∀ (r : BlockRef) (b : VerifiedBlock), ((subdags.flatMap CommittedSubDag.blocks).foldl
      (fun m b => m.insert b.reference b) (∅ : TreeMap BlockRef VerifiedBlock))[r]? = some b ↔
        (∃ s ∈ subdags, b ∈ s.blocks) ∧ b.reference = r := by
    intro r b
    have hset : ∀ b, (b ∈ (∅ : Set VerifiedBlock) ∨ b ∈ subdags.flatMap CommittedSubDag.blocks) ↔
        ∃ s ∈ subdags, b ∈ s.blocks := by
      simp
    rw [getElem?_foldl_insert_iff (S := ∅) (by simp)
      (fun b b' hb hb' => hinj b b' ((hset b).mp hb) ((hset b').mp hb')), hset]
  obtain ⟨first, rest, rfl⟩ := exists_cons_of_ne_nil hne
  obtain ⟨b, hb⟩ := exists_mem_of_ne_nil _ (hbs first mem_cons_self)
  have hnonempty : ((((first :: rest).flatMap CommittedSubDag.blocks).foldl
      (fun m b => m.insert b.reference b) (∅ : TreeMap BlockRef VerifiedBlock))).isEmpty = false := by
    rw [TreeMap.isEmpty_eq_false_iff_exists_mem]
    exact ⟨b.reference, mem_map_iff_exists.mpr ⟨b, (hholds _ b).mpr ⟨⟨first, mem_cons_self, hb⟩, rfl⟩⟩⟩
  obtain ⟨last, hlast⟩ : ∃ last, (first :: rest).getLast? = some last :=
    Option.ne_none_iff_exists'.mp (by simp)
  refine ⟨⟨⟨first.commitRef.index, last.commitRef.index + 1⟩,
    (first :: rest).map CommittedSubDag.leader, _⟩, ?_, rfl, hholds⟩
  rw [new, checkContiguous_eq_ok hidx, ok_bind]
  dsimp only
  rw [hlast, hnonempty]
  rfl

lemma isVote_eq {committee : Committee} {genesis : List BlockRef}
    (hwf : WellFormed committee genesis b.toBlock) (hrd : b.round ≤ leader.round + 1) :
    subdag.isVote b leader = .ok (decide (leader.reference ∈ b.ancestors)) :=
  searchSupport_isVote hwf.ancestor_round_lt hwf.nodup_authors hrd

end UnscoredSubdag

variable {ctx : Context} {subdags : List CommittedSubDag} {leaders : List VerifiedBlock}
  {commits : List TrustedCommit} {S : Set VerifiedBlock}

section Strategies

variable {subdag : UnscoredSubdag} {blocks : Set VerifiedBlock} {leader : VerifiedBlock}
  {genesis : List BlockRef}

def votesOf (subdag : UnscoredSubdag) (authority : ℕ) (leader : VerifiedBlock) : List VerifiedBlock :=
  (subdag.getBlocksAtRound (leader.round + 1)).filter fun b =>
    b.author = authority ∧ leader.reference ∈ b.ancestors

lemma length_votesOf_le_one (h : subdag.Holds blocks) {a : ℕ}
    (hone : ∀ b b', b ∈ blocks → b' ∈ blocks → b.author = a → b'.author = a →
      b.round = b'.round → b = b') :
    (votesOf subdag a leader).length ≤ 1 := by
  have hmem : ∀ b ∈ votesOf subdag a leader, b ∈ blocks ∧ b.author = a ∧ b.round = leader.round + 1 := by
    intro b hb
    rw [votesOf, mem_filter, decide_eq_true_eq] at hb
    obtain ⟨hblk, hrd⟩ := h.mem_getBlocksAtRound.mp hb.1
    exact ⟨hblk, hb.2.1, hrd⟩
  have hnd : (votesOf subdag a leader).Nodup :=
    (nodup_map_snd_filter (fun k v hv => ((h k v).mp hv).2) _).filter _
  generalize votesOf subdag a leader = votes at hmem hnd ⊢
  rcases votes with _ | ⟨b, _ | ⟨b', rest⟩⟩
  · exact Nat.zero_le 1
  · exact le_rfl
  · obtain ⟨hb, hau, hrd⟩ := hmem b mem_cons_self
    obtain ⟨hb', hau', hrd'⟩ := hmem b' (mem_cons_of_mem b mem_cons_self)
    obtain rfl := hone b b' hb hb' hau hau' (hrd.trans hrd'.symm)
    simp at hnd

lemma length_foldl_modify {α : Type} (author points : α → ℕ) (votes : List α) (scores : List ℕ) :
    (votes.foldl (fun scores vote => scores.modify (author vote) (· + points vote)) scores).length =
      scores.length := by
  induction votes generalizing scores with
  | nil => rfl
  | cons vote votes ih => rw [foldl_cons, ih, length_modify]

lemma getElem?_foldl_modify (votes : List VerifiedBlock) (scores : List ℕ) (a : ℕ) :
    (votes.foldl (fun scores vote => scores.modify vote.author (· + 1)) scores)[a]? =
      scores[a]?.map (· + (votes.filter fun b => b.author = a).length) := by
  induction votes generalizing scores with
  | nil => simp
  | cons vote votes ih =>
    rw [foldl_cons, ih, getElem?_modify, Option.map_eq_map, Option.map_map]
    congr 1
    funext n
    by_cases ha : vote.author = a
    · rw [filter_cons_of_pos (by simpa using ha), length_cons, Function.comp_apply, if_pos ha]
      omega
    · rw [filter_cons_of_neg (by simpa using ha), Function.comp_apply, if_neg ha]

variable (h : subdag.Holds blocks) (hwf : ∀ b ∈ blocks, WellFormed ctx.committee genesis b.toBlock)
  (hslot : subdag.getBlocksAtSlot leader.slot = [leader])

include h hwf

lemma voteScoringStrategy_eq (hslot : subdag.getBlocksAtSlot leader.slot = [leader]) :
    ∃ scores, (voteScoringStrategy ctx).calculateScoresForLeader subdag leader.slot = .ok scores ∧
      scores.length = ctx.committee.size ∧
      ∀ a < ctx.committee.size, scores[a]? = some (votesOf subdag a leader).length := by
  have hvts : (subdag.getBlocksAtRound (leader.round + 1)).filterM
    (fun potentialVote => subdag.isVote potentialVote leader) =
      .ok ((subdag.getBlocksAtRound (leader.round + 1)).filter fun b =>
        leader.reference ∈ b.ancestors) := by
    refine filterM_eq_ok fun b hb => ?_
    obtain ⟨hb, hrd⟩ := h.mem_getBlocksAtRound.mp hb
    exact isVote_eq (hwf b hb) hrd.le
  refine ⟨((subdag.getBlocksAtRound (leader.round + 1)).filter fun b =>
    leader.reference ∈ b.ancestors).foldl
    (fun scores vote => scores.modify vote.author (· + 1)) (replicate ctx.committee.size 0), ?_, ?_,
      fun a ha => ?_⟩
  · rw [voteScoringStrategy, scoreLeaderBlock]
    dsimp only
    rw [hslot]
    dsimp only
    rw [hvts]
    rfl
  · rw [length_foldl_modify (fun vote : VerifiedBlock => vote.author) fun _ => 1, length_replicate]
  · rw [getElem?_foldl_modify, getElem?_replicate_of_lt ha, filter_filter]
    simp [votesOf]

lemma scoreCertifiedVotes_total (points : Bool × StakeAggregator .quorum → ℕ) :
    ∃ scores, scoreCertifiedVotes ctx points subdag leader = .ok scores ∧
      scores.length = ctx.committee.size := by
  obtain ⟨allVotes, hok, -⟩ : ∃ allVotes, certifiedVotes ctx subdag leader = .ok allVotes ∧ True := by
    refine foldlM_total (fun _ _ => True) (fun _ potentialCert allVotes hcert _ => ?_) trivial
    obtain ⟨hmem, hrd⟩ := h.mem_getBlocksAtRound.mp hcert
    refine foldlM_total (fun _ _ => True) (fun _ reference allVotes href _ => ?_) trivial
    have hlt := (hwf _ hmem).ancestor_round_lt reference href
    unfold countCertifiedVote
    split
    · exact ⟨_, rfl, trivial⟩
    split
    · rename_i potentialVote hvote
      obtain ⟨hb, rfl⟩ := (h _ _).mp hvote
      rw [isVote_eq (hwf _ hb) (by rw [reference_round, hrd, defaultWaveLength] at hlt; omega)]
      exact ⟨_, rfl, trivial⟩
    · exact ⟨_, rfl, trivial⟩
  refine ⟨_, by rw [scoreCertifiedVotes, hok]; rfl, ?_⟩
  rw [length_foldl_modify (fun vote : BlockRef × Bool × StakeAggregator .quorum => vote.1.author)
    fun vote => points vote.2,
    length_replicate]

lemma isCertificate_total {ancestors : List BlockRef} (hrd : ∀ a ∈ ancestors, a.round ≤ leader.round + 1)
    (votesStakeAggregator : StakeAggregator .quorum) (allVotes : TreeMap BlockRef Bool) :
    ∃ result, subdag.isCertificate ctx leader ancestors votesStakeAggregator allVotes = .ok result := by
  induction ancestors generalizing votesStakeAggregator allVotes with
  | nil => exact ⟨_, rfl⟩
  | cons reference ancestors ih =>
    obtain ⟨⟨isVote, found⟩, hlk⟩ :
        ∃ result, subdag.lookupVote leader allVotes reference = .ok result := by
      unfold lookupVote
      split
      · exact ⟨_, rfl⟩
      split
      · rename_i potentialVote hvote
        obtain ⟨hb, rfl⟩ := (h _ _).mp hvote
        rw [isVote_eq (hwf _ hb) (hrd _ mem_cons_self)]
        exact ⟨_, rfl⟩
      · exact ⟨_, rfl⟩
    have hrest := ih fun a ha => hrd a (mem_cons_of_mem reference ha)
    rw [isCertificate, hlk, ok_bind]
    dsimp only
    split_ifs
    · exact ⟨_, rfl⟩
    · exact hrest _ _
    · exact hrest _ _

lemma scoringStrategies_total (hslot : subdag.getBlocksAtSlot leader.slot = [leader])
    {strategy : ScoringStrategy} (hstrat : strategy ∈ scoringStrategies ctx) :
    ∃ scores, strategy.calculateScoresForLeader subdag leader.slot = .ok scores ∧
      scores.length = ctx.committee.size := by
  have hscore : ∀ score, (scoreLeaderBlock ctx score).calculateScoresForLeader subdag leader.slot =
      score subdag leader := by
    intro score
    simp only [scoreLeaderBlock, hslot]
  simp only [scoringStrategies, mem_cons, not_mem_nil, or_false] at hstrat
  rcases hstrat with rfl | rfl | rfl | rfl
  · obtain ⟨scores, hok, hlen, _⟩ := voteScoringStrategy_eq h hwf hslot
    exact ⟨scores, hok, hlen⟩
  · rw [certifiedVoteScoringStrategyV1, hscore]
    exact scoreCertifiedVotes_total h hwf _
  · rw [certifiedVoteScoringStrategyV2, hscore]
    exact scoreCertifiedVotes_total h hwf _
  · rw [certificateScoringStrategy, hscore]
    obtain ⟨⟨scores, allVotes⟩, hok, hlen⟩ := foldlM_total
      (l := subdag.getBlocksAtRound (leader.round + defaultWaveLength - 1))
      (b := (replicate ctx.committee.size 0, ∅))
      (f := fun (state : List ℕ × TreeMap BlockRef Bool) potentialCert => do
        let (isCertificate, allVotes) ← subdag.isCertificate ctx leader
          potentialCert.ancestors .new state.2
        return (if isCertificate then state.1.modify potentialCert.author (· + 1)
          else state.1, allVotes))
      (fun _ state => state.1.length = ctx.committee.size) (by
        intro _ potentialCert state hcert hlen
        obtain ⟨hmem, hrd⟩ := h.mem_getBlocksAtRound.mp hcert
        have hancs : ∀ a ∈ potentialCert.ancestors, a.round ≤ leader.round + 1 := by
          intro a ha
          have hlt := (hwf _ hmem).ancestor_round_lt a ha
          rw [hrd, defaultWaveLength] at hlt
          omega
        obtain ⟨⟨isCertificate, allVotes⟩, hok⟩ := isCertificate_total h hwf hancs .new state.2
        refine ⟨_, by rw [hok]; rfl, ?_⟩
        split_ifs
        · rw [length_modify, hlen]
        · exact hlen) length_replicate
    exact ⟨scores, by rw [hok]; rfl, hlen⟩

end Strategies

lemma calculateReputationScores_total {strategy : ScoringStrategy} {subdag : UnscoredSubdag}
    (hne : subdags ≠ []) (hnew : UnscoredSubdag.new subdags = .ok subdag)
    (score : BlockRef → List ℕ)
    (hscore : ∀ leader ∈ subdag.committedLeaders,
      strategy.calculateScoresForLeader subdag leader.slot = .ok (score leader) ∧
        (score leader).length = ctx.committee.size) :
    ∃ scores, calculateReputationScores ctx strategy subdags = .ok scores ∧
      ∀ a < ctx.committee.size, scores.scoresPerAuthority[a]? =
        some (subdag.committedLeaders.map fun leader => (score leader)[a]?.getD 0).sum := by
  obtain ⟨total, hok, hlen, htot⟩ := foldlM_total (l := subdag.committedLeaders)
    (b := replicate ctx.committee.size 0)
    (f := fun (total : List ℕ) leader => do
      let scores ← strategy.calculateScoresForLeader subdag leader.slot
      if scores.length ≠ total.length then throw Panic.scoresLengthMismatch
      return zipWith (· + ·) total scores)
    (fun done total => total.length = ctx.committee.size ∧ ∀ a < ctx.committee.size,
      total[a]? = some (done.map fun leader => (score leader)[a]?.getD 0).sum) (by
      intro done leader total hleader
      rintro ⟨hlen, htot⟩
      obtain ⟨hok, hsize⟩ := hscore leader hleader
      refine ⟨zipWith (· + ·) total (score leader), ?_, ?_, fun a ha => ?_⟩
      · rw [hok, ok_bind, if_neg (not_not.mpr (hsize.trans hlen.symm))]
        rfl
      · rw [length_zipWith, hlen, hsize, min_self]
      · have hget := getElem?_eq_getElem (hsize.symm ▸ ha)
        rw [getElem?_zipWith, htot a ha, map_append, sum_append, map_singleton, sum_singleton, hget]
        rfl) ⟨length_replicate, fun a ha => by simp [ha]⟩
  refine ⟨⟨total, subdag.commitRange⟩, ?_, htot⟩
  rw [calculateReputationScores, if_neg hne]
  rw [hnew, ok_bind, hok]
  rfl

namespace Linearized

variable {leader b : VerifiedBlock} {subdag : CommittedSubDag} {committee : Committee}
  {genesis : List BlockRef}
  (h : Linearized ctx S leaders subdags commits) (hwf : ∀ b ∈ S, WellFormed committee genesis b.toBlock)
  (hleaders : ∀ L ∈ leaders, L ∈ S)

include h hleaders

lemma mem_of_mem_subdag (hs : subdag ∈ subdags) (hb : b ∈ subdag.blocks) : b ∈ S := by
  obtain ⟨i, hi⟩ := getElem?_of_mem hs
  obtain ⟨L, _, hL, _, hfor⟩ := h.of_subdag hi
  exact mem_of_history (hleaders L (mem_of_getElem? hL))
    (ReflTransGen.mono (fun _ _ hlink => hlink.1) _ _ ((hfor.subDagOf.mem_iff b).mp hb))

include hwf

/-- With strictly increasing rounds, a committed block in the slot of a leader is the leader:
earlier sub-dags end below its round, later ones are pruned above it. -/
lemma eq_leader_of_slot (hrs : leaders.Pairwise (fun L L' => L.round < L'.round)) {i j : ℕ}
    (hl : leaders[i]? = some leader) (hs : subdags[j]? = some subdag) (hb : b ∈ subdag.blocks)
    (hslot : b.slot = leader.slot) : b = leader := by
  obtain ⟨L, _, hL, _, hfor⟩ := h.of_subdag hs
  have hrch := (hfor.subDagOf.mem_iff b).mp hb
  have hrd : b.round = leader.round := congrArg Slot.round hslot
  have hau : b.author = leader.author := congrArg Slot.authority hslot
  have hle : b = L ∨ b.round < L.round := round_lt_or_eq hwf (hleaders L (mem_of_getElem? hL)) hrch
  have hlt : ∀ {i j : ℕ} {L L' : VerifiedBlock}, leaders[i]? = some L → leaders[j]? = some L' →
      i < j → L.round < L'.round := by
    intro i j L L' hL hL' hij
    obtain ⟨hi, rfl⟩ := List.getElem?_eq_some_iff.mp hL
    obtain ⟨hj, rfl⟩ := List.getElem?_eq_some_iff.mp hL'
    exact pairwise_iff_getElem.mp hrs i j hi hj hij
  rcases lt_trichotomy i j with hij | rfl | hij
  · have hbel := hlt hl hL hij
    obtain ⟨_, _, hs', hfor'⟩ := h.of_leader hl
    have hcommd := h.round_le hs' ((hfor'.subDagOf.mem_iff leader).mpr .refl) hij
    rcases hrch.cases_tail with rfl | ⟨_, _, hlink⟩
    · omega
    · have hopen := hlink.2
      rw [hau, hrd] at hopen
      omega
  · obtain rfl := Option.some.inj (hl.symm.trans hL)
    exact hle.resolve_right (by omega)
  · have hbel := hlt hL hl hij
    rcases hle with rfl | hle <;> omega

end Linearized

section Range

variable {n m : ℕ}

lemma getElem?_take_drop {α : Type} {l : List α} {i : ℕ} {x : α} :
    ((l.take m).drop n)[i]? = some x ↔ n + i < m ∧ l[n + i]? = some x := by
  rw [getElem?_drop, getElem?_take]
  split_ifs with hlt <;> simp [hlt]

variable (h : Linearized ctx S leaders subdags commits)
include h

lemma Linearized.map_leader :
    subdags.map CommittedSubDag.leader = leaders.map reference := by
  apply ext_getElem?
  intro i
  rw [getElem?_map, getElem?_map]
  by_cases hi : i < leaders.length
  · obtain ⟨leader, subdag, commit, hl, hs, -, hfor⟩ := h.exists_entry hi
    rw [hl, hs, Option.map_some, Option.map_some, hfor.leader_eq]
  · rw [getElem?_eq_none (not_lt.mp hi), getElem?_eq_none (by rw [h.subdags_length]; omega)]
    rfl

lemma Linearized.index_eq {i : ℕ} {subdag : CommittedSubDag}
    (hs : subdags[i]? = some subdag) : subdag.commitRef.index = i + 1 := by
  obtain ⟨_, _, _, hc, hfor⟩ := h.of_subdag hs
  rw [hfor.commitRef_eq, hfor.commit_eq]
  change (commits.take i).length + 1 = i + 1
  rw [length_take, min_eq_left (List.getElem?_eq_some_iff.mp hc).1.le]

lemma Linearized.unscoredSubdag {committee : Committee} {genesis : List BlockRef}
    (hwf : ∀ b ∈ S, WellFormed committee genesis b.toBlock) (hleaders : ∀ L ∈ leaders, L ∈ S)
    (hinj : ∀ b ∈ S, ∀ b' ∈ S, b.reference = b'.reference → b = b')
    (hrs : leaders.Pairwise (fun L L' => L.round < L'.round)) (hn : n < m) (hm : m ≤ leaders.length) :
    ∃ subdag, UnscoredSubdag.new ((subdags.take m).drop n) = .ok subdag ∧
      subdag.committedLeaders = ((leaders.take m).drop n).map reference ∧
      subdag.Holds {b | ∃ s ∈ (subdags.take m).drop n, b ∈ s.blocks} ∧
      ∀ L ∈ (leaders.take m).drop n, subdag.getBlocksAtSlot L.slot = [L] := by
  have hsub : ∀ s ∈ (subdags.take m).drop n, s ∈ subdags := fun s hs =>
    mem_of_mem_take (mem_of_mem_drop hs)
  have hne : (subdags.take m).drop n ≠ [] := by
    apply ne_nil_of_length_pos
    rw [length_drop, length_take, h.subdags_length]
    omega
  have hbs : ∀ s ∈ (subdags.take m).drop n, s.blocks ≠ [] := by
    intro s hs
    obtain ⟨i, hi⟩ := getElem?_of_mem (hsub s hs)
    obtain ⟨L, _, _, _, hfor⟩ := h.of_subdag hi
    exact ne_nil_of_mem ((hfor.subDagOf.mem_iff L).mpr .refl)
  have hidx : ∀ (i : ℕ) (s s' : CommittedSubDag), ((subdags.take m).drop n)[i]? = some s →
      ((subdags.take m).drop n)[i + 1]? = some s' → s'.commitRef.index = s.commitRef.index + 1 := by
    intro i s s' hs hs'
    rw [h.index_eq (getElem?_take_drop.mp hs).2, h.index_eq (getElem?_take_drop.mp hs').2]
    omega
  have hrefs : ∀ b b', (∃ s ∈ (subdags.take m).drop n, b ∈ s.blocks) →
    (∃ s ∈ (subdags.take m).drop n, b' ∈ s.blocks) →
      b.reference = b'.reference → b = b' := by
    rintro b b' ⟨s, hs, hb⟩ ⟨s', hs', hb'⟩
    exact hinj b (h.mem_of_mem_subdag hleaders (hsub s hs) hb) b'
      (h.mem_of_mem_subdag hleaders (hsub s' hs') hb')
  obtain ⟨subdag, hnew, hcommd, hholds⟩ := new_total hne hbs hidx hrefs
  refine ⟨subdag, hnew, ?_, hholds, fun L hL => hholds.getBlocksAtSlot_eq ?_ ?_⟩
  · rw [hcommd, map_drop, map_take, h.map_leader, ← map_take, ← map_drop]
  · obtain ⟨i, hi⟩ := getElem?_of_mem hL
    obtain ⟨hlt, hi⟩ := getElem?_take_drop.mp hi
    obtain ⟨s, _, hs, hfor⟩ := h.of_leader hi
    exact ⟨s, mem_of_getElem? (getElem?_take_drop.mpr ⟨hlt, hs⟩), (hfor.subDagOf.mem_iff L).mpr .refl⟩
  · rintro b ⟨s, hs, hb⟩ hslot
    obtain ⟨i, hi⟩ := getElem?_of_mem (mem_of_mem_take (mem_of_mem_drop hL))
    obtain ⟨j, hj⟩ := getElem?_of_mem (hsub s hs)
    exact h.eq_leader_of_slot hwf hleaders hrs hi hj hb hslot

end Range

/-- Scores over any range of commits of leaders with strictly increasing rounds. Every leader is
alone in its slot, so that no strategy fails; votes score by block, and an author with at most
one block in every round scores at most once for each leader. -/
theorem calculateReputationScores_ofRange {v : SignedBlockVerifier} {V : Finset VerifiedBlock}
    {d : DagState} (hverified : ∀ b ∈ V, v.verify b.toSignedBlock = .ok ())
    (hclosed : AncestorClosed (↑V : Set VerifiedBlock))
    (hrefines : d.Refines v.context V) (hnone : d.CommitLog [])
    (batches : List (List VerifiedBlock)) (hleaders : ∀ L ∈ batches.flatten, L ∈ V)
    (hrounds : batches.flatten.Pairwise (fun L L' => L.round < L'.round)) {n m : ℕ} (hn : n < m)
    (hm : m ≤ batches.flatten.length) :
    ∃ d' subdags subdag scores, Linearizer.handleCommits v.context d batches = .ok (d', subdags) ∧
      UnscoredSubdag.new ((subdags.take m).drop n) = .ok subdag ∧
      (∀ L ∈ (batches.flatten.take m).drop n, subdag.getBlocksAtSlot L.slot = [L]) ∧
      (∀ strategy ∈ scoringStrategies v.context,
        ∃ scores, calculateReputationScores v.context strategy ((subdags.take m).drop n) = .ok scores) ∧
      (∀ L ∈ (batches.flatten.take m).drop n, ∃ points,
        (voteScoringStrategy v.context).calculateScoresForLeader subdag L.slot = .ok points ∧
        ∀ a < v.context.committee.size, points[a]? = some (votesOf subdag a L).length) ∧
      calculateReputationScores v.context (voteScoringStrategy v.context)
        ((subdags.take m).drop n) = .ok scores ∧
      ∀ a < v.context.committee.size,
        (∀ s ∈ (subdags.take m).drop n, ∀ s' ∈ (subdags.take m).drop n, ∀ b ∈ s.blocks, ∀ b' ∈ s'.blocks,
          b.author = a → b'.author = a → b.round = b'.round → b = b') →
        (∀ L ∈ (batches.flatten.take m).drop n, (votesOf subdag a L).length ≤ 1) ∧
        ∃ score, scores.scoresPerAuthority[a]? = some score ∧ score ≤ m - n := by
  have hwf : ∀ b ∈ (↑V : Set VerifiedBlock),
      WellFormed v.context.committee (genesisRefs v.context) b.toBlock :=
    fun b hb => SignedBlockVerifier.wellFormed_of_verify (hverified b hb)
  have hnodup : ∀ b ∈ V, b.ancestors.Nodup := fun b hb => .of_map _ (hwf b hb).nodup_authors
  obtain ⟨d', subdags, hok, ⟨_, commits, _, hlin⟩, _⟩ :=
    Linearizer.handleCommits_total hclosed hnodup hrefines hnone hleaders
  obtain ⟨subdag, hnew, hcommitted, hholds, hslot⟩ :=
    hlin.unscoredSubdag hwf hleaders hrefines.acceptable.injOn hrounds hn hm
  have hsubwf : ∀ b ∈ {b | ∃ s ∈ (subdags.take m).drop n, b ∈ s.blocks},
      WellFormed v.context.committee (genesisRefs v.context) b.toBlock := by
    rintro b ⟨s, hs, hb⟩
    exact hwf b (hlin.mem_of_mem_subdag hleaders (mem_of_mem_take (mem_of_mem_drop hs)) hb)
  have hne : (subdags.take m).drop n ≠ [] := by
    apply ne_nil_of_length_pos
    rw [length_drop, length_take, hlin.subdags_length]
    omega
  have htotal : ∀ strategy ∈ scoringStrategies v.context, ∀ r ∈ subdag.committedLeaders, ∃ scores,
      strategy.calculateScoresForLeader subdag r.slot = .ok scores ∧
        scores.length = v.context.committee.size := by
    intro strategy hstrategy r hr
    rw [hcommitted] at hr
    obtain ⟨L, hL, rfl⟩ := mem_map.mp hr
    exact scoringStrategies_total hholds hsubwf (hslot L hL) hstrategy
  have hvotes := fun L hL => voteScoringStrategy_eq hholds hsubwf (hslot L hL)
  choose! score hscore using htotal (voteScoringStrategy v.context) mem_cons_self
  obtain ⟨scores, hscores, hsum⟩ := calculateReputationScores_total hne hnew score hscore
  refine ⟨d', subdags, subdag, scores, hok, hnew, hslot, ?_, ?_, hscores, fun a ha hone => ?_⟩
  · intro strategy hstrategy
    choose! score' hscore' using htotal strategy hstrategy
    obtain ⟨scores', hscores', _⟩ := calculateReputationScores_total hne hnew score' hscore'
    exact ⟨scores', hscores'⟩
  · intro L hL
    obtain ⟨points, hpoints, _, hcount⟩ := hvotes L hL
    exact ⟨points, hpoints, hcount⟩
  have hle : ∀ L ∈ (batches.flatten.take m).drop n, (votesOf subdag a L).length ≤ 1 := by
    intro L _
    apply length_votesOf_le_one hholds
    rintro b b' ⟨s, hs, hb⟩ ⟨s', hs', hb'⟩
    exact hone s hs s' hs' b hb b' hb'
  refine ⟨hle, _, hsum a ha, ?_⟩
  calc (subdag.committedLeaders.map fun r => (score r)[a]?.getD 0).sum
      ≤ (subdag.committedLeaders.map fun r => (score r)[a]?.getD 0).length • 1 := by
        refine sum_le_card_nsmul _ _ fun x hx => ?_
        obtain ⟨r, hr, rfl⟩ := mem_map.mp hx
        have hr' := hr
        rw [hcommitted] at hr'
        obtain ⟨L, hL, rfl⟩ := mem_map.mp hr'
        obtain ⟨points, hpoints, _, hcount⟩ := hvotes L hL
        obtain rfl := Except.ok.inj (hpoints.symm.trans (hscore _ hr).1)
        rw [hcount a ha]
        exact hle L hL
    _ = m - n := by
        rw [length_map, hcommitted, length_map, length_drop, length_take, min_eq_left hm,
          smul_eq_mul, mul_one]

namespace fourAuthorities

/-- Author 3 votes for the leader of round 1 with three blocks, which the blocks of round 3 link. -/
def equivocatedVotes : List VerifiedBlock :=
  let vote := fun timestampMs => block 2 3 timestampMs (links 1 3 (List.range 4))
  let third := fun author timestampMs =>
    block 3 author 5 (links 2 author [0, 1, 2] ++ [(vote timestampMs).reference])
  (List.range 4).map (fullBlock 1) ++ (List.range 3).map (fullBlock 2) ++
    [vote 2, vote 3, vote 4, third 0 2, third 1 3, third 2 4,
    block 4 0 6 [(third 0 2).reference, (third 1 3).reference, (third 2 4).reference]]

def scoresOf (strategy : ScoringStrategy) (blocks : List VerifiedBlock) (slots : List Slot) :
    Except Panic ReputationScores := do
  let d ← acceptedState blocks
  let (_, subdags) ← Linearizer.handleCommits fourAuthorities d
    [slots.flatMap fun slot => blocks.filter fun b => b.slot = slot]
  calculateReputationScores fourAuthorities strategy subdags

end fourAuthorities

open fourAuthorities in
/-- Author 3 scores three times for one of two leaders. -/
theorem voteScoring_equivocatedVotes :
    (∀ b ∈ equivocatedVotes,
      (⟨fourAuthorities, fun _ => true, fun _ => true⟩ : SignedBlockVerifier).verify
      b.toSignedBlock = .ok ()) ∧
    (∀ b ∈ equivocatedVotes, ∀ r ∈ b.ancestors, r.round ≠ genesisRound →
      ∃ p ∈ equivocatedVotes, p.reference = r) ∧
    scoresOf (voteScoringStrategy fourAuthorities) equivocatedVotes [⟨1, 1⟩, ⟨4, 0⟩] =
      .ok ⟨[1, 1, 1, 3], ⟨1, 3⟩⟩ := by
  refine ⟨by decide +kernel, by decide +kernel, by decide +kernel⟩

/-- The last two of three commits on four full rounds. -/
theorem calculateReputationScores_ofRange_fullRounds :
    ∃ d d' subdags scores, acceptedState (fourAuthorities.fullRounds 4) = .ok d ∧
      Linearizer.handleCommits fourAuthorities d [[fourAuthorities.fullBlock 1 1],
        [fourAuthorities.fullBlock 2 2, fourAuthorities.fullBlock 3 3]] = .ok (d', subdags) ∧
      calculateReputationScores fourAuthorities (voteScoringStrategy fourAuthorities)
        ((subdags.take 3).drop 1) = .ok scores := by
  obtain ⟨d, V, hd, hrefines, hnone, hclosed, hverified, hleaders⟩ := fourAuthorities.accepted_fullRounds
  obtain ⟨d', subdags, _, scores, hok, _, _, _, _, hscores, _⟩ :=
    calculateReputationScores_ofRange hverified hclosed hrefines
    hnone _ hleaders (by decide +kernel) (show 1 < 3 by decide) (by decide)
  exact ⟨d, d', subdags, scores, hd, hok, hscores⟩

end SuiProofs.Consensus

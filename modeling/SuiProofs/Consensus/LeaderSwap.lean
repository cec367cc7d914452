import SuiProofs.Consensus.LeaderSchedule

namespace SuiProofs.Consensus

open Library List

namespace LeaderSwapTable

variable {ctx : Context} {rng : LeaderRng} {l : List (ℕ × ℕ)} {reputation : ReputationScores}

def ranking (rng : LeaderRng) (commitIndex : ℕ) (scores : List ℕ) : List (ℕ × ℕ) :=
  (rng.shuffle commitIndex (scores.zipIdx.map fun p => (p.2, p.1))).insertionSort fun a b => b.2 ≤ a.2

def stakeLimit (ctx : Context) : ℕ :=
  ctx.consensusBadNodesStakeThreshold * ctx.committee.totalStake / 100

variable (ctx l) in
def stakes : ℕ := (l.map fun p => ctx.committee.stake p.1).sum

variable (ctx l) in
def firstNodes : List (ℕ × ℕ) :=
  retrieveFirstNodes ctx ctx.consensusBadNodesStakeThreshold 0 l

variable (ctx l reputation) in
def ofRanking : LeaderSwapTable :=
  ⟨firstNodes ctx l, (firstNodes ctx l.reverse).foldl (fun m p => m.insert p.1 p.2) ∅, l, reputation⟩

variable (ctx l) in
/-- Where the lowest authority is light enough to be a bad node, the highest can be a good one. -/
def BestFits : Prop :=
  ∀ best ∈ l.head?, ∀ worst ∈ l.getLast?, ctx.committee.stake worst.1 ≤ stakeLimit ctx →
    ctx.committee.stake best.1 ≤ stakeLimit ctx

instance : Decidable (BestFits ctx l) := by
  unfold BestFits
  infer_instance

/-- The good and the bad nodes are different authorities within the limit, and the good
score higher. -/
structure Sound (ctx : Context) (scores : List ℕ) (table : LeaderSwapTable) : Prop where
  disjoint : ∀ g ∈ table.goodNodes, g.1 ∉ table.badNodes
  good_stake : 100 * ctx.committee.stakeOf (table.goodNodes.map Prod.fst).toFinset ≤
    ctx.consensusBadNodesStakeThreshold * ctx.committee.totalStake
  bad_stake : 100 * ctx.committee.stakeOf table.badNodes.keys.toFinset ≤
    ctx.consensusBadNodesStakeThreshold * ctx.committee.totalStake
  score_le : ∀ g ∈ table.goodNodes, ∀ b ∈ table.badNodes, ∃ good bad,
    scores[g.1]? = some good ∧ scores[b]? = some bad ∧ bad ≤ good

/-- Every authority once with its score, in descending order; two limits are less than all stake. -/
structure Ranks (ctx : Context) (scores : List ℕ) (l : List (ℕ × ℕ)) : Prop where
  nodup : (l.map Prod.fst).Nodup
  sorted : l.Pairwise fun a b => b.2 ≤ a.2
  mem_iff : ∀ p, p ∈ l ↔ scores[p.1]? = some p.2
  limit_lt : 2 * stakeLimit ctx < stakes ctx l

lemma retrieveFirstNodes_eq_take (stake : ℕ) (l : List (ℕ × ℕ)) (hstake : stake ≤ stakeLimit ctx) :
    ∃ n, retrieveFirstNodes ctx ctx.consensusBadNodesStakeThreshold stake l =
      (l.take n).map (fun p => (p.1, ctx.committee.stake p.1)) ∧
        stake + stakes ctx (l.take n) ≤ stakeLimit ctx := by
  induction l generalizing stake with
  | nil => exact ⟨0, rfl, hstake⟩
  | cons p l ih =>
    rw [retrieveFirstNodes]
    split_ifs with hgt
    · exact ⟨0, rfl, hstake⟩
    · obtain ⟨n, he, hle⟩ := ih (stake + ctx.committee.stake p.1) (not_lt.mp hgt)
      refine ⟨n + 1, by rw [he]; rfl, ?_⟩
      simp only [take_succ_cons, stakes, map_cons, sum_cons] at hle ⊢
      omega

lemma firstNodes_eq_take (ctx : Context) (l : List (ℕ × ℕ)) :
    ∃ n, firstNodes ctx l = (l.take n).map (fun p => (p.1, ctx.committee.stake p.1)) ∧
      stakes ctx (l.take n) ≤ stakeLimit ctx := by
  simpa only [firstNodes, Nat.zero_add] using retrieveFirstNodes_eq_take 0 l (Nat.zero_le _)

lemma firstNodes_eq_nil_iff (h : l ≠ []) :
    firstNodes ctx l = [] ↔ stakeLimit ctx < ctx.committee.stake (l.head h).1 := by
  cases l with
  | nil => exact absurd rfl h
  | cons p l =>
    rw [firstNodes, retrieveFirstNodes, Nat.zero_add, head_cons]
    split_ifs with hgt
    · exact iff_of_true rfl hgt
    · exact iff_of_false not_false hgt

lemma bestFits_iff (hne : l ≠ []) :
    BestFits ctx l ↔ (firstNodes ctx l = [] → firstNodes ctx l.reverse = []) := by
  rw [firstNodes_eq_nil_iff hne, firstNodes_eq_nil_iff (reverse_ne_nil_iff.mpr hne),
    head_reverse, BestFits,
    head?_eq_some_head hne, getLast?_eq_some_getLast hne]
  simp only [Option.mem_some_iff, forall_eq', ← not_lt]
  exact not_imp_not

/-- The good nodes end before the bad nodes begin, as together they have less than the
whole stake. -/
lemma exists_split (hl : 2 * stakeLimit ctx < stakes ctx l) :
    ∃ good rest bad, l = good ++ (rest ++ bad) ∧ stakes ctx good ≤ stakeLimit ctx ∧
      stakes ctx bad ≤ stakeLimit ctx ∧
      firstNodes ctx l = good.map (fun p => (p.1, ctx.committee.stake p.1)) ∧
      firstNodes ctx l.reverse = bad.reverse.map fun p => (p.1, ctx.committee.stake p.1) := by
  obtain ⟨n, hgood, hn⟩ := firstNodes_eq_take ctx l
  obtain ⟨m, hbad, hm⟩ := firstNodes_eq_take ctx l.reverse
  have hrev : l.reverse.take m = (l.drop (l.length - m)).reverse := take_reverse
  have hsum : stakes ctx (l.take n) + stakes ctx (l.drop n) = stakes ctx l := by
    rw [stakes, stakes, ← sum_append, ← map_append, take_append_drop, stakes]
  rw [hrev] at hbad hm
  replace hm : stakes ctx (l.drop (l.length - m)) ≤ stakeLimit ctx := by
    rwa [stakes, map_reverse, sum_reverse] at hm
  have hmid : n ≤ l.length - m := by
    by_contra hlt
    have hsub := (drop_sublist_drop_left l (not_le.mp hlt).le).map fun p => ctx.committee.stake p.1
    have hle : stakes ctx (l.drop n) ≤ stakes ctx (l.drop (l.length - m)) :=
      hsub.sum_le_sum fun _ _ => Nat.zero_le _
    omega
  have hdrop : (l.drop n).drop (l.length - m - n) = l.drop (l.length - m) := by
    rw [drop_drop]
    congr 1
    omega
  refine ⟨l.take n, (l.drop n).take (l.length - m - n), l.drop (l.length - m), ?_, hn, hm, hgood, hbad⟩
  rw [← hdrop, take_append_drop, take_append_drop]

lemma mem_badNodes {a : ℕ} : a ∈ (ofRanking ctx l reputation).badNodes ↔
    ∃ p ∈ firstNodes ctx l.reverse, p.1 = a := by
  refine mem_foldl_insert_map.trans ?_
  simp

namespace Ranks

variable (h : Ranks ctx reputation.scoresPerAuthority l)

include h

lemma sound : (ofRanking ctx l reputation).Sound ctx reputation.scoresPerAuthority := by
  obtain ⟨good, rest, bad, hl, hgs, hbs, hgood, hbad⟩ := exists_split h.limit_lt
  have hnd := h.nodup
  have hsort := h.sorted
  rw [hl, map_append, nodup_append] at hnd
  rw [hl, pairwise_append] at hsort
  have hg : ∀ g ∈ (ofRanking ctx l reputation).goodNodes, ∃ p ∈ good, p.1 = g.1 := by
    intro g hg
    change g ∈ firstNodes ctx l at hg
    rw [hgood] at hg
    obtain ⟨p, hp, rfl⟩ := mem_map.mp hg
    exact ⟨p, hp, rfl⟩
  have hb : ∀ b, b ∈ (ofRanking ctx l reputation).badNodes ↔ ∃ p ∈ bad, p.1 = b := by
    intro b
    rw [mem_badNodes, hbad]
    simp
  have hwithin : ∀ nodes, stakes ctx nodes ≤ stakeLimit ctx →
    100 * ctx.committee.stakeOf (nodes.map Prod.fst).toFinset ≤
      ctx.consensusBadNodesStakeThreshold * ctx.committee.totalStake := by
    intro nodes hle
    have hset := ctx.committee.stakeOf_toFinset_le (nodes.map Prod.fst)
    rw [map_map] at hset
    have := hset.trans hle
    unfold stakeLimit at this
    omega
  constructor
  · intro g hgn hbn
    obtain ⟨p, hp, hpg⟩ := hg g hgn
    obtain ⟨q, hq, hqg⟩ := (hb g.1).mp hbn
    exact hnd.2.2 p.1 (mem_map_of_mem hp) q.1 (mem_map_of_mem (mem_append_right rest hq))
      (hpg.trans hqg.symm)
  · have hfst : (ofRanking ctx l reputation).goodNodes.map Prod.fst = good.map Prod.fst := by
      rw [ofRanking, hgood, map_map]
      rfl
    rw [hfst]
    exact hwithin good hgs
  · have hkeys : (ofRanking ctx l reputation).badNodes.keys.toFinset = (bad.map Prod.fst).toFinset := by
      ext b
      rw [mem_toFinset, mem_toFinset, Std.TreeMap.mem_keys, hb, mem_map]
    rw [hkeys]
    exact hwithin bad hbs
  · intro g hgn b hbn
    obtain ⟨p, hp, hpg⟩ := hg g hgn
    obtain ⟨q, hq, rfl⟩ := (hb b).mp hbn
    refine ⟨p.2, q.2, hpg ▸ (h.mem_iff p).mp ?_, (h.mem_iff q).mp ?_,
      hsort.2.2 p hp q (mem_append_right rest hq)⟩
    · simp [hl, hp]
    · simp [hl, hq]

lemma lt_length {p : ℕ × ℕ} {l' : List (ℕ × ℕ)} (hl : ∀ q ∈ l', q ∈ l) (hp : p ∈ firstNodes ctx l') :
    p.1 < reputation.scoresPerAuthority.length := by
  obtain ⟨n, hn, -⟩ := firstNodes_eq_take ctx l'
  rw [hn] at hp
  obtain ⟨q, hq, rfl⟩ := mem_map.mp hp
  exact (List.getElem?_eq_some_iff.mp ((h.mem_iff q).mp (hl q (mem_of_mem_take hq)))).1

end Ranks

lemma ranks_ranking (hthr : ctx.consensusBadNodesStakeThreshold ≤ 33)
    (hshuffle : ∀ i l, (rng.shuffle i l).Perm l)
    (commitIndex : ℕ) {scores : List ℕ} (hlen : scores.length = ctx.committee.size) :
    Ranks ctx scores (ranking rng commitIndex scores) := by
  have hperm : (ranking rng commitIndex scores).Perm (scores.zipIdx.map fun p => (p.2, p.1)) :=
    (perm_insertionSort _ _).trans (hshuffle _ _)
  have hindex : (scores.zipIdx.map fun p => (p.2, p.1)).map Prod.fst = range scores.length := by
    rw [map_map, range_eq_range', ← zipIdx_map_snd 0 scores]
    rfl
  constructor
  · rw [(hperm.map Prod.fst).nodup_iff, hindex]
    exact nodup_range
  · exact pairwise_insertionSort _ _
  · intro p
    rw [hperm.mem_iff, mem_map]
    constructor
    · rintro ⟨q, hq, rfl⟩
      exact mem_zipIdx_iff_getElem?.mp hq
    · intro hp
      exact ⟨(p.2, p.1), mem_zipIdx_iff_getElem?.mpr hp, rfl⟩
  · have hsum : stakes ctx (ranking rng commitIndex scores) = ctx.committee.totalStake := by
      rw [stakes, (hperm.map _).sum_eq, ← Committee.stakeOf_range, ← hlen]
      change (((scores.zipIdx.map fun p => (p.2, p.1))).map (ctx.committee.stake ∘ Prod.fst)).sum = _
      rw [← map_map, hindex]
      rfl
    have hpos : ctx.committee.totalStake ≠ 0 := ctx.committee.totalStake_ne_zero
    have hle := Nat.mul_le_mul_right ctx.committee.totalStake hthr
    unfold stakeLimit
    omega

end LeaderSwapTable

open LeaderSwapTable in
/-- A swap table is sound, for every committee and all scores. The election returns a leader that is
no bad node, whoever is drawn, exactly if the highest authority fits among the good nodes whenever
the lowest one is a bad node. -/
theorem electLeader_total_iff (ctx : Context) (hthr : ctx.consensusBadNodesStakeThreshold ≤ 33)
    (rng : LeaderRng) (hshuffle : ∀ i l, (rng.shuffle i l).Perm l)
    (hchoose : ∀ r o l, (rng.choose r o l).elim (l = []) (· ∈ l))
    (commitIndex : ℕ) (reputation : ReputationScores)
    (hlen : reputation.scoresPerAuthority.length = ctx.committee.size) :
    ∃ table, LeaderSwapTable.new ctx rng commitIndex reputation = .ok table ∧
      table.Sound ctx reputation.scoresPerAuthority ∧
      ((∀ s : LeaderSchedule, s.leaderSwapTable = table → s.rng.choose = rng.choose →
          (∀ r o, s.rng.electLeaderStakeBased r o < ctx.committee.size) →
          ∀ round, ∃ leader, s.electLeader round 0 = .ok leader ∧ leader < ctx.committee.size ∧
            leader ∉ table.badNodes) ↔
        BestFits ctx (ranking rng commitIndex reputation.scoresPerAuthority)) := by
  have hranks := ranks_ranking hthr hshuffle commitIndex hlen
  have hscores : reputation.scoresPerAuthority ≠ [] := by
    rw [← length_pos_iff, hlen]
    exact length_pos_iff.mpr ctx.committee.nonempty
  have hnew : LeaderSwapTable.new ctx rng commitIndex reputation =
      .ok (ofRanking ctx (ranking rng commitIndex reputation.scoresPerAuthority) reputation) := by
    rw [LeaderSwapTable.new, if_neg (not_lt.mpr hthr), if_neg hscores, if_neg (not_not.mpr hlen)]
    rfl
  refine ⟨_, hnew, hranks.sound, ?_⟩
  generalize ranking rng commitIndex reputation.scoresPerAuthority = l at hranks
  have hne : l ≠ [] := by
    rintro rfl
    exact absurd hranks.limit_lt (Nat.not_lt_zero _)
  rw [bestFits_iff hne, ← hlen]
  set table := ofRanking ctx l reputation with htable
  constructor
  · intro h hgood
    by_contra hbad
    -- A bad node is drawn, and there is no good node to take its place.
    obtain ⟨b, hb⟩ := exists_mem_of_ne_nil _ hbad
    have hnone : rng.choose 0 0 table.goodNodes = none := by
      have hpick := hchoose 0 0 table.goodNodes
      cases hc : rng.choose 0 0 table.goodNodes with
      | none => rfl
      | some p =>
        rw [hc] at hpick
        exact absurd hgood (ne_nil_of_mem hpick)
    have hin : table.badNodes.contains b.1 = true :=
      Std.TreeMap.contains_iff_mem.mpr (mem_badNodes.mpr ⟨b, hb, rfl⟩)
    obtain ⟨leader, he, -⟩ := h ⟨table, { rng with electLeaderStakeBased := fun _ _ => b.1 }⟩
      rfl rfl (fun _ _ => hranks.lt_length (fun q hq => mem_reverse.mp hq) hb) 0
    simp [LeaderSchedule.electLeader, LeaderSwapTable.swap, hin, hnone] at he
  · intro h s hs hsame hdraw round
    rw [LeaderSchedule.electLeader, LeaderSwapTable.swap, hs, hsame]
    by_cases hin : table.badNodes.contains (s.rng.electLeaderStakeBased round 0) = true
    · obtain ⟨b, hb, -⟩ := mem_badNodes.mp (Std.TreeMap.contains_iff_mem.mp hin)
      have hpick := hchoose round 0 table.goodNodes
      cases hc : rng.choose round 0 table.goodNodes with
      | none =>
        rw [hc] at hpick
        exact absurd (h hpick) (ne_nil_of_mem hb)
      | some g =>
        rw [hc] at hpick
        exact ⟨g.1, by simp [hin], hranks.lt_length (fun _ hq => hq) hpick,
          hranks.sound.disjoint g hpick⟩
    · exact ⟨_, by simp [hin], hdraw round 0, fun hmem => hin (Std.TreeMap.contains_iff_mem.mpr hmem)⟩

def firstOf : LeaderRng := ⟨fun _ _ => 0, fun _ l => l, fun _ _ l => l.head?⟩

/-- The worst of four authorities is swapped out. -/
theorem electLeader_total_fourAuthorities :
    ∃ table, LeaderSwapTable.new fourAuthorities firstOf 0 ⟨[1, 3, 2, 4], ⟨0, 0⟩⟩ = .ok table ∧
    0 ∈ table.badNodes ∧ ∃ leader, LeaderSchedule.electLeader ⟨table, firstOf⟩ 7 0 = .ok leader ∧
      leader ∉ table.badNodes := by
  obtain ⟨table, hnew, -, hiff⟩ :=
    electLeader_total_iff fourAuthorities (by decide) firstOf (fun _ l => .refl l)
    (fun _ _ l => by cases l <;> simp [firstOf]) 0 ⟨[1, 3, 2, 4], ⟨0, 0⟩⟩ rfl
  obtain ⟨leader, he, -, hnot⟩ := hiff.mpr (by decide) ⟨table, firstOf⟩ rfl rfl
    (fun _ _ => Nat.zero_lt_succ 3) 7
  refine ⟨table, hnew, ?_, leader, he, hnot⟩
  cases hnew
  decide

def heavyAuthority : Context :=
  { fourAuthorities with committee := ⟨0, [⟨10⟩, ⟨10⟩, ⟨80⟩], by decide, by decide, by decide⟩ }

/-- One authority has almost all stake: no node is good, and the swap panics. -/
theorem electLeader_noGoodNode :
    ∃ table, LeaderSwapTable.new heavyAuthority firstOf 0 ⟨[1, 1, 5], ⟨0, 0⟩⟩ = .ok table ∧
    0 ∈ table.badNodes ∧
    LeaderSchedule.electLeader ⟨table, firstOf⟩ 7 0 = .error .noGoodNode := by
  exact ⟨_, rfl, by decide, by decide⟩

end SuiProofs.Consensus

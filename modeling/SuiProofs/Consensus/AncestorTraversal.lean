import SuiProofs.Consensus.CommitRule
import SuiProofs.Consensus.DagStateRefinement

namespace SuiProofs.Consensus

open Library Relation List VerifiedBlock
open Std (TreeMap TreeSet)

/-- The history of a block is found in the state down to a round, and links go to lower rounds. -/
structure DagState.Traversable (ctx : Context) (d : DagState) (S : Set VerifiedBlock) (b : VerifiedBlock)
    (round : ℕ) : Prop where
  mem : b ∈ S
  found : ∀ c, Reaches S b c → d.requireBlock ctx c.reference = .ok c
  closed : ∀ c ∈ S, ∀ r ∈ c.ancestors, round ≤ r.round → ∃ p ∈ S, p.reference = r
  lower : ∀ c ∈ S, ∀ r ∈ c.ancestors, r.round < c.round

/-- The linked references are in the history of the block, and every block of the history down to
the round is linked or below a linked one. -/
structure Traversal (S : Set VerifiedBlock) (b : VerifiedBlock) (round : ℕ) (linked : TreeSet BlockRef) :
    Prop where
  sound : ∀ r ∈ linked, round ≤ r.round → ∃ c, Reaches S b c ∧ c.reference = r
  complete : ∀ c, Reaches S b c → c.round ≤ round →
    c.reference ∈ linked ∨ ∃ x, Reaches S b x ∧ x.reference ∈ linked ∧ Reaches S x c

variable {ctx : Context} {d : DagState} {S : Set VerifiedBlock} {b c p : VerifiedBlock} {round : ℕ}
  {linked : TreeSet BlockRef}

namespace DagState.Traversable

variable (h : d.Traversable ctx S b round)
include h

lemma round_lt (hp : p ∈ S) (hc : Reaches S p c) : c.round < p.round := by
  induction hc with
  | single hl => exact h.lower p hp _ hl.2
  | tail hx hl ih => exact (h.lower _ (mem_of_reaches hx) _ hl.2).trans ih

lemma exists_ancestor (hp : p ∈ S) {r : BlockRef} (hr : r ∈ p.ancestors)
    (hrd : round ≤ r.round) : ∃ q, LinksTo S p q ∧ q.reference = r := by
  obtain ⟨q, hq, rfl⟩ := h.closed p hp r hr hrd
  exact ⟨q, ⟨hq, hr⟩, rfl⟩

omit h in
lemma ancestor_or_below (hc : Reaches S p c) :
    c.reference ∈ p.ancestors ∨ ∃ y, LinksTo S p y ∧ Reaches S y c := by
  obtain ⟨y, hy, hyc⟩ := TransGen.head'_iff.mp hc
  rcases reflTransGen_iff_eq_or_transGen.mp hyc with rfl | hyc
  · exact .inl hy.2
  · exact .inr ⟨y, hy, hyc⟩

lemma start :
    Traversal S b round (b.ancestors.foldl (fun t r => t.insert r) ∅) := by
  have hmem : ∀ r, r ∈ b.ancestors.foldl (fun t r => t.insert r) (∅ : TreeSet BlockRef) ↔
      r ∈ b.ancestors := by
    intro r
    rw [mem_foldl_insert_set (f := fun r => r)]
    simp
  constructor
  · intro r hr hrd
    obtain ⟨q, hq, rfl⟩ := h.exists_ancestor h.mem ((hmem r).mp hr) hrd
    exact ⟨q, .single hq, rfl⟩
  · intro c hc _
    apply (ancestor_or_below hc).imp (hmem _).mpr
    rintro ⟨y, hy, hyc⟩
    exact ⟨y, .single hy, (hmem _).mpr hy.2, hyc⟩

lemma pop (ht : Traversal S b round linked) (hp : Reaches S b p)
    (hrd : round < p.round) :
    Traversal S b round (p.ancestors.foldl (fun t r => t.insert r) (linked.erase p.reference)) := by
  have hmem : ∀ r, r ∈ p.ancestors.foldl (fun t r => t.insert r) (linked.erase p.reference) ↔
      (p.reference ≠ r ∧ r ∈ linked) ∨ r ∈ p.ancestors := by
    intro r
    rw [mem_foldl_insert_set (f := fun r => r), TreeSet.mem_erase, Ne, compare_eq_iff_eq]
    simp
  constructor
  · intro r hr hle
    rcases (hmem r).mp hr with ⟨_, hr⟩ | hr
    · exact ht.sound r hr hle
    · obtain ⟨q, hq, rfl⟩ := h.exists_ancestor (mem_of_reaches hp) hr hle
      exact ⟨q, hp.tail hq, rfl⟩
  · intro c hc hle
    rcases ht.complete c hc hle with hlk | ⟨x, hx, hlk, hrch⟩
    · refine .inl ((hmem _).mpr (.inl ⟨fun he => ?_, hlk⟩))
      have : p.round = c.round := congrArg BlockRef.round he
      omega
    · by_cases hpx : p.reference = x.reference
      · -- The popped block is the one above `c`: its ancestor on the way to `c` is linked now.
        have hsame := h.found p hp
        rw [hpx, h.found x hx] at hsame
        cases hsame
        apply (ancestor_or_below hrch).imp fun hr => (hmem _).mpr (.inr hr)
        rintro ⟨y, hy, hyc⟩
        exact ⟨y, hp.tail hy, (hmem _).mpr (.inr hy.2), hyc⟩
      · exact .inr ⟨x, hx, (hmem _).mpr (.inl ⟨hpx, hlk⟩), hrch⟩

end DagState.Traversable

namespace DagState

variable (d linked) in
/-- The stored references at or below a linked one, which a pop makes fewer. -/
def pendingRefs : Finset BlockRef :=
  (d.recentBlocks.keys ++ d.store.blocks.keys).toFinset.filter fun r => ∃ s ∈ linked.toList, r ≤ s

lemma card_pendingRefs_le (d : DagState) (linked : TreeSet BlockRef) :
    (d.pendingRefs linked).card ≤ d.recentBlocks.size + d.store.blocks.size := by
  apply (Finset.card_filter_le _ _).trans
  apply (toFinset_card_le _).trans
  rw [length_append, TreeMap.length_keys, TreeMap.length_keys]

lemma mem_keys_of_requireBlock {r : BlockRef} (h : d.requireBlock ctx r = .ok p)
    (hr : r.round ≠ genesisRound) :
    r ∈ d.recentBlocks.keys ++ d.store.blocks.keys := by
  rw [requireBlock, getBlock, if_neg hr] at h
  rw [mem_append, TreeMap.mem_keys, TreeMap.mem_keys]
  cases hrecent : d.recentBlocks[r]? with
  | some c => exact .inl (mem_map_iff_exists.mpr ⟨c, hrecent⟩)
  | none =>
    rw [hrecent] at h
    cases hstd : d.store.blocks[r]? with
    | some c => exact .inr (mem_map_iff_exists.mpr ⟨c, hstd⟩)
    | none =>
      rw [hstd] at h
      cases h

lemma pendingRefs_lt {linked' : TreeSet BlockRef} {last : BlockRef}
    (hlast : last? linked = some last) (hkeys : last ∈ d.recentBlocks.keys ++ d.store.blocks.keys)
    (hbel : ∀ r ∈ linked', r < last) : (d.pendingRefs linked').card < (d.pendingRefs linked).card := by
  have hmem := (last?_eq_some_iff.mp hlast).1
  apply Finset.card_lt_card
  refine Finset.ssubset_iff_subset_ne.mpr ⟨fun r hr => ?_, fun he => ?_⟩
  · obtain ⟨hr, s, hs, hrs⟩ := Finset.mem_filter.mp hr
    refine Finset.mem_filter.mpr ⟨hr, last, TreeSet.mem_toList.mpr hmem, ?_⟩
    exact hrs.trans (hbel s (TreeSet.mem_toList.mp hs)).le
  · have hin : last ∈ d.pendingRefs linked :=
      Finset.mem_filter.mpr ⟨mem_toFinset.mpr hkeys, last, TreeSet.mem_toList.mpr hmem, le_rfl⟩
    rw [← he] at hin
    obtain ⟨_, s, hs, hle⟩ := Finset.mem_filter.mp hin
    exact absurd hle (not_le.mpr (hbel s (TreeSet.mem_toList.mp hs)))

lemma Traversable.loop (h : d.Traversable ctx S b round) :
    ∃ linked, loopM (.error .outOfFuel) (d.ancestorsAtRoundStep ctx round)
      (d.recentBlocks.size + d.store.blocks.size + 1)
      (b.ancestors.foldl (fun t r => t.insert r) ∅) = .ok linked ∧
      Traversal S b round linked ∧ ∀ r ∈ linked, r.round ≤ round := by
  refine loopM_total (Traversal S b round) _ (fun linked => (d.pendingRefs linked).card) ?_ h.start
    (Nat.lt_succ_of_le (d.card_pendingRefs_le _))
  intro linked ht
  unfold ancestorsAtRoundStep
  cases hlast : last? linked with
  | none => exact .inr ⟨linked, rfl, ht, fun r hr => absurd hr (last?_eq_none_iff.mp hlast r)⟩
  | some last =>
    obtain ⟨hmem, hmax⟩ := last?_eq_some_iff.mp hlast
    dsimp only
    split_ifs with hle
    · exact .inr ⟨linked, rfl, ht, fun r hr => (BlockRef.round_le_of_le (hmax r hr)).trans hle⟩
    · obtain ⟨p, hp, rfl⟩ := ht.sound last hmem (by omega)
      rw [h.found p hp, ok_bind]
      refine .inl ⟨_, rfl, h.pop ht hp (not_le.mp hle), pendingRefs_lt hlast ?_ fun r hr => ?_⟩
      · exact mem_keys_of_requireBlock (h.found p hp) (by rw [genesisRound]; omega)
      · rw [mem_foldl_insert_set (f := fun r => r), TreeSet.mem_erase, Ne, compare_eq_iff_eq] at hr
        rcases hr with ⟨hne, hr⟩ | ⟨_, hr, rfl⟩
        · exact lt_of_le_of_ne (hmax r hr) (Ne.symm hne)
        · have hlt := h.lower p (mem_of_reaches hp) _ hr
          by_contra hnot
          have := BlockRef.round_le_of_le (not_lt.mp hnot)
          simp only [reference_round] at this
          omega

lemma Traversable.ancestorsAtRound (h : d.Traversable ctx S b round) :
    ∃ blocks, d.ancestorsAtRound ctx b round = .ok blocks ∧ blocks.Nodup ∧
      ∀ c, c ∈ blocks ↔ Reaches S b c ∧ c.round = round := by
  obtain ⟨linked, hloop, ht, hrs⟩ := h.loop
  -- The references that are looked up are those of the reached blocks of the round.
  have hrefs : ∀ r, r ∈ linked.toList.filter (fun r => round ≤ r.round) ↔
      ∃ c, Reaches S b c ∧ c.round = round ∧ c.reference = r := by
    intro r
    rw [mem_filter, TreeSet.mem_toList, decide_eq_true_eq]
    constructor
    · rintro ⟨hr, hle⟩
      obtain ⟨c, hc, rfl⟩ := ht.sound r hr hle
      exact ⟨c, hc, le_antisymm (hrs _ hr) hle, rfl⟩
    · rintro ⟨c, hc, rfl, rfl⟩
      refine ⟨?_, le_rfl⟩
      rcases ht.complete c hc le_rfl with hlk | ⟨x, hx, hlk, hrch⟩
      · exact hlk
      · have hlt := h.round_lt (mem_of_reaches hx) hrch
        have hle := hrs _ hlk
        simp only [reference_round] at hle
        omega
  have hget : ∀ r ∈ linked.toList.filter (fun r => round ≤ r.round), ∃ c, d.requireBlock ctx r = .ok c ∧
      Reaches S b c ∧ c.round = round ∧ c.reference = r := by
    intro r hr
    obtain ⟨c, hc, hrd, rfl⟩ := (hrefs r).mp hr
    exact ⟨c, h.found c hc, hc, hrd, rfl⟩
  obtain ⟨blocks, hbs, hmem⟩ := mapM_total fun r hr => (hget r hr).imp fun _ hc => hc.1
  refine ⟨blocks, by rw [DagState.ancestorsAtRound, hloop, ok_bind]; exact hbs, ?_, fun c => ?_⟩
  · apply Nodup.of_map reference
    rw [map_of_mapM_eq_ok (fun r hr c he => ?_) hbs]
    · exact nodup_toList.filter _
    · obtain ⟨c', he', -, -, hr⟩ := hget r hr
      cases he.symm.trans he'
      exact hr
  · rw [hmem]
    constructor
    · rintro ⟨r, hr, he⟩
      obtain ⟨c', he', hc', hrd, -⟩ := hget r hr
      cases he.symm.trans he'
      exact ⟨hc', hrd⟩
    · rintro ⟨hc, hrd⟩
      exact ⟨c.reference, (hrefs _).mpr ⟨c, hc, hrd, rfl⟩, h.found c hc⟩

end DagState

/-- `ancestors_at_round` returns the blocks of the round in the history of a block, each once, in
every DAG that is closed under ancestors and whose links go to lower rounds. -/
theorem ancestorsAtRound_exact {ctx : Context} {d : DagState} {S : Set VerifiedBlock}
    (hfound : ∀ c ∈ S, d.getBlock ctx c.reference = some c)
    (hclosed : ∀ c ∈ S, ∀ r ∈ c.ancestors, ∃ p ∈ S, p.reference = r)
    (hlower : ∀ c ∈ S, ∀ r ∈ c.ancestors, r.round < c.round) {b : VerifiedBlock}
    (hb : b ∈ S) (round : ℕ) :
    ∃ blocks, d.ancestorsAtRound ctx b round = .ok blocks ∧ blocks.Nodup ∧
      ∀ c, c ∈ blocks ↔ Reaches S b c ∧ c.round = round := by
  have ht : d.Traversable ctx S b round :=
    { mem := hb
      found := fun c hc => by rw [DagState.requireBlock, hfound c (mem_of_reaches hc)]
      closed := fun c hc r hr _ => hclosed c hc r hr
      lower := hlower }
  exact ht.ancestorsAtRound

namespace fourAuthorities

/-- Two blocks of one slot, linked from round 2 and, past it, from round 3. -/
def skippingBlocks : List VerifiedBlock :=
  let first := block 1 1 1 (links 0 1 (range 4))
  let second := block 1 1 2 (links 0 1 (range 4))
  let middle := block 2 2 3 [first.reference]
  [first, second, middle, block 3 3 4 [middle.reference, second.reference]]

end fourAuthorities

/-- Both blocks of the slot are found, one of them past a round. -/
theorem ancestorsAtRound_exact_skippingBlocks :
    ∃ d blocks, acceptedState fourAuthorities.skippingBlocks = .ok d ∧
    d.ancestorsAtRound fourAuthorities
      (fourAuthorities.skippingBlocks.getLast (by decide)) 1 = .ok blocks ∧
    blocks.Nodup ∧ blocks.length = 2 := by
  let S := genesisBlocks fourAuthorities ++ fourAuthorities.skippingBlocks
  obtain ⟨d, hd, hp⟩ := exists_of_returns (x := acceptedState fourAuthorities.skippingBlocks)
    (p := fun d => S.all (fun c => d.getBlock fourAuthorities c.reference = some c) &&
      returns (d.ancestorsAtRound fourAuthorities (fourAuthorities.skippingBlocks.getLast (by decide)) 1)
        fun blocks => blocks.length == 2) (by decide +kernel)
  rw [Bool.and_eq_true, all_eq_true] at hp
  have hclosed : ∀ c ∈ S, ∀ r ∈ c.ancestors, ∃ p ∈ S, p.reference = r := by decide +kernel
  have hlower : ∀ c ∈ S, ∀ r ∈ c.ancestors, r.round < c.round := by decide +kernel
  obtain ⟨blocks, hblocks, hnodup, -⟩ := ancestorsAtRound_exact (S := {c | c ∈ S})
    (fun c hc => of_decide_eq_true (hp.1 c hc)) hclosed hlower (mem_append_right _ (getLast_mem _)) 1
  obtain ⟨blocks', hblocks', hlength⟩ := exists_of_returns hp.2
  cases hblocks.symm.trans hblocks'
  exact ⟨d, blocks, hd, hblocks, hnodup, beq_iff_eq.mp hlength⟩

end SuiProofs.Consensus

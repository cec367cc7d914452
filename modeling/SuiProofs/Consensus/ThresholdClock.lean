import SuiProofs.Consensus.Committee

/-!
Models `threshold_clock.rs`. The first block of a higher round is counted without a look at the
threshold, so the order matters when an authority is a quorum alone.
-/

namespace SuiProofs.Consensus

open List StakeAggregator

def StakeAggregator.clear {T : CommitteeThreshold} (_ : StakeAggregator T) : StakeAggregator T := ⟨∅, 0⟩

structure ThresholdClock where
  aggregator : StakeAggregator .quorum
  round : ℕ

def authorsAt (blocks : List BlockRef) (round : ℕ) : Finset ℕ :=
  ((blocks.filter fun b => b.round = round).map BlockRef.author).toFinset

/-- The greatest of the start, the rounds seen and the successors of the rounds from the start on
that have a quorum. -/
def thresholdRound (c : Committee) (start : ℕ) (blocks : List BlockRef) : ℕ :=
  let rounds := (blocks.map BlockRef.round).toFinset
  max (max start (rounds.sup id))
    ((rounds.filter fun r => start ≤ r ∧ c.IsQuorum (authorsAt blocks r)).sup (· + 1))

variable {c : Committee} {blocks blocks' : List BlockRef} {b : BlockRef} {r start : ℕ}

lemma authorsAt_append :
    authorsAt (blocks ++ [b]) r = if b.round = r then insert b.author (authorsAt blocks r)
      else authorsAt blocks r := by
  ext a
  by_cases h : b.round = r <;> simp [authorsAt, h]

lemma authorsAt_eq_empty (h : ∀ b ∈ blocks, b.round < r) : authorsAt blocks r = ∅ := by
  have hnone : (blocks.filter fun b => b.round = r) = [] := by
    apply filter_eq_nil_iff.mpr
    intro b hb
    simpa using (h b hb).ne
  rw [authorsAt, hnone]
  rfl

lemma mem_rounds_of_isQuorum (h : c.IsQuorum (authorsAt blocks r)) :
    r ∈ (blocks.map BlockRef.round).toFinset := by
  obtain ⟨a, ha⟩ := h.nonempty
  simp only [authorsAt, mem_toFinset, mem_map, mem_filter, decide_eq_true_eq] at ha ⊢
  obtain ⟨b, hb, -⟩ := ha
  exact ⟨b, hb⟩

lemma thresholdRound_perm (h : blocks'.Perm blocks) :
    thresholdRound c start blocks' = thresholdRound c start blocks := by
  have hrs : (blocks'.map BlockRef.round).toFinset = (blocks.map BlockRef.round).toFinset :=
    toFinset_eq_of_perm _ _ (h.map _)
  have hauthors : authorsAt blocks' = authorsAt blocks := by
    funext r
    exact toFinset_eq_of_perm _ _ ((h.filter _).map _)
  rw [thresholdRound, thresholdRound, hrs, hauthors]

namespace ThresholdClock

def new (round : ℕ) : ThresholdClock := ⟨.new, round⟩

def addBlock (c : Committee) (clock : ThresholdClock) (block : BlockRef) : ThresholdClock :=
  match compare block.round clock.round with
  | .lt => clock
  | .gt => ⟨(clock.aggregator.clear.add block.author c).1, block.round⟩
  | .eq =>
    let (aggregator, reached) := clock.aggregator.add block.author c
    if reached then ⟨aggregator.clear, (block.round + 1) % 2 ^ 32⟩ else { clock with aggregator }

/-- The new round is returned if the clock has advanced. -/
def addBlocks (c : Committee) (clock : ThresholdClock) (blocks : List BlockRef) :
    ThresholdClock × Option ℕ :=
  let clock' := blocks.foldl (addBlock c) clock
  (clock', if clock'.round > clock.round then some clock'.round else none)

/-- The clock after the blocks seen: it counts the authors of its round, which are no quorum. -/
structure Follows (c : Committee) (start : ℕ) (blocks : List BlockRef)
    (clock : ThresholdClock) : Prop where
  start_le : start ≤ clock.round
  seen_le : ∀ b ∈ blocks, b.round ≤ clock.round
  counts : clock.aggregator.Counts c
  votes : clock.aggregator.votes = authorsAt blocks clock.round
  noQuorum : ¬ c.IsQuorum (authorsAt blocks clock.round)
  reached : clock.round ≤ thresholdRound c start blocks

lemma not_isQuorum_empty : ¬ c.IsQuorum ∅ := by
  intro h
  simpa using h.nonempty

lemma le_thresholdRound_of_mem (h : b ∈ blocks) : b.round ≤ thresholdRound c start blocks := by
  apply le_max_of_le_left
  apply le_max_of_le_right
  exact Finset.le_sup (f := id) (mem_toFinset.mpr (mem_map_of_mem h))

lemma lt_thresholdRound_of_isQuorum (hr : start ≤ r) (h : c.IsQuorum (authorsAt blocks r)) :
    r < thresholdRound c start blocks := by
  have hmem : r ∈ (blocks.map BlockRef.round).toFinset.filter fun r =>
      start ≤ r ∧ c.IsQuorum (authorsAt blocks r) :=
    Finset.mem_filter.mpr ⟨mem_rounds_of_isQuorum h, hr, h⟩
  exact lt_max_of_lt_right (Finset.le_sup (f := (· + 1)) hmem)

lemma thresholdRound_le_append :
    thresholdRound c start blocks ≤ thresholdRound c start (blocks ++ [b]) := by
  apply max_le
  · apply max_le
    · exact le_max_of_le_left (le_max_left _ _)
    · apply Finset.sup_le
      intro r hr
      obtain ⟨b', hb', rfl⟩ := mem_map.mp (mem_toFinset.mp hr)
      exact le_thresholdRound_of_mem (mem_append_left _ hb')
  · apply Finset.sup_le
    intro r hr
    obtain ⟨-, hst, hq⟩ := Finset.mem_filter.mp hr
    apply lt_thresholdRound_of_isQuorum hst
    rw [authorsAt_append]
    split_ifs
    · exact hq.mono (Finset.subset_insert _ _)
    · exact hq

lemma Follows.round_eq {clock : ThresholdClock} (h : Follows c start blocks clock) :
    clock.round = thresholdRound c start blocks := by
  apply le_antisymm h.reached
  apply max_le
  · apply max_le h.start_le
    apply Finset.sup_le
    intro r hr
    obtain ⟨b, hb, rfl⟩ := mem_map.mp (mem_toFinset.mp hr)
    exact h.seen_le b hb
  · apply Finset.sup_le
    intro r hr
    obtain ⟨hseen, -, hq⟩ := Finset.mem_filter.mp hr
    obtain ⟨b, hb, rfl⟩ := mem_map.mp (mem_toFinset.mp hseen)
    apply lt_of_le_of_ne (h.seen_le b hb)
    intro he
    exact h.noQuorum (he ▸ hq)

lemma follows_new : Follows c start [] (new start) where
  start_le := le_rfl
  seen_le := by simp
  counts := counts_new c
  votes := rfl
  noQuorum := not_isQuorum_empty
  reached := le_max_of_le_left (le_max_left _ _)

lemma Follows.addBlock {clock : ThresholdClock} (h : Follows c start blocks clock)
    (hsole : ∀ a, c.stake a < c.quorumThreshold) (hb : b.round + 1 < 2 ^ 32) :
    Follows c start (blocks ++ [b]) (clock.addBlock c b) := by
  unfold ThresholdClock.addBlock
  have hgrow := h.reached.trans (thresholdRound_le_append (b := b))
  have hlast : b.round ≤ thresholdRound c start (blocks ++ [b]) := le_thresholdRound_of_mem (by simp)
  have hseen : ∀ n, clock.round ≤ n → b.round ≤ n → ∀ b' ∈ blocks ++ [b], b'.round ≤ n := by
    intro n hn hbn b' hb'
    rcases mem_append.mp hb' with hb' | hb'
    · exact (h.seen_le b' hb').trans hn
    · rwa [mem_singleton.mp hb']
  cases hcmp : compare b.round clock.round with
  | lt =>
    have hlt := Nat.compare_eq_lt.mp hcmp
    have hsame : authorsAt (blocks ++ [b]) clock.round = authorsAt blocks clock.round := by
      rw [authorsAt_append, if_neg hlt.ne]
    exact ⟨h.start_le, hseen _ le_rfl hlt.le, h.counts, hsame ▸ h.votes, hsame ▸ h.noQuorum, hgrow⟩
  | gt =>
    have hgt := Nat.compare_eq_gt.mp hcmp
    have hone : authorsAt (blocks ++ [b]) b.round = {b.author} := by
      rw [authorsAt_append, if_pos rfl, authorsAt_eq_empty fun b' hb' => (h.seen_le b' hb').trans_lt hgt]
      rfl
    have hfew : ¬ c.IsQuorum {b.author} := by
      simpa [Committee.IsQuorum, Committee.stakeOf] using hsole b.author
    refine ⟨(h.start_le.trans_lt hgt).le, hseen _ hgt.le le_rfl, (counts_new c).add _, ?_,
      hone ▸ hfew, hlast⟩
    rw [add_votes, hone]
    rfl
  | eq =>
    have heq := Nat.compare_eq_eq.mp hcmp
    have hvts : insert b.author clock.aggregator.votes = authorsAt (blocks ++ [b]) clock.round := by
      rw [h.votes, authorsAt_append, if_pos heq]
    have hquorum := h.counts.add_snd b.author
    rw [hvts] at hquorum
    dsimp only
    split_ifs with hreached
    · have hnext : (b.round + 1) % 2 ^ 32 = clock.round + 1 := by
        rw [Nat.mod_eq_of_lt hb, heq]
      have hnone : authorsAt (blocks ++ [b]) (clock.round + 1) = ∅ :=
        authorsAt_eq_empty fun b' hb' => Nat.lt_succ_of_le (hseen _ le_rfl heq.le b' hb')
      rw [hnext]
      refine ⟨h.start_le.trans (Nat.le_succ _),
        hseen _ (Nat.le_succ _) (heq.le.trans (Nat.le_succ _)), counts_new c, hnone.symm,
        hnone ▸ not_isQuorum_empty, ?_⟩
      exact lt_thresholdRound_of_isQuorum h.start_le (hquorum.mp hreached)
    · refine ⟨h.start_le, hseen _ le_rfl heq.le, h.counts.add _, ?_, fun hq =>
        hreached (hquorum.mpr hq), hgrow⟩
      rw [add_votes, hvts]

lemma follows_addBlocks (hsole : ∀ a, c.stake a < c.quorumThreshold)
    (hbs : ∀ b ∈ blocks, b.round + 1 < 2 ^ 32) :
    Follows c start blocks ((new start).addBlocks c blocks).1 := by
  unfold addBlocks
  induction blocks using List.reverseRecOn with
  | nil => exact follows_new
  | append_singleton blocks b ih =>
    rw [foldl_append]
    exact (ih fun b' hb' => hbs b' (mem_append_left _ hb')).addBlock hsole (hbs b (by simp))

/-- The round is that of the blocks seen, whatever their order, exactly for the committees in which
no authority is a quorum alone. -/
theorem thresholdClock_orderIndependent_iff (c : Committee) :
    (∀ start blocks, (∀ b ∈ blocks, b.author < c.size ∧ b.round + 1 < 2 ^ 32) →
      ((new start).addBlocks c blocks).1.round = thresholdRound c start blocks ∧
      ∀ blocks' : List BlockRef, blocks'.Perm blocks →
        ((new start).addBlocks c blocks').1.round = ((new start).addBlocks c blocks).1.round) ↔
    ∀ a, c.stake a < c.quorumThreshold := by
  constructor
  · intro h a
    by_contra hge
    -- The first block of a round above the clock is a quorum alone, yet the clock stays
    -- at its round.
    have hpos : c.stake a ≠ 0 := by
      unfold Committee.quorumThreshold at hge
      omega
    have hsize : a < c.size := not_le.mp fun hle => hpos (Committee.stake_eq_zero_of_size_le hle)
    have hround := (h 0 [⟨1, a, 0⟩] (by simpa using hsize)).1
    have hq : c.IsQuorum (authorsAt [⟨1, a, 0⟩] 1) := by
      simpa [authorsAt, Committee.IsQuorum, Committee.stakeOf] using not_lt.mp hge
    have hlt := lt_thresholdRound_of_isQuorum (Nat.zero_le 1) hq
    rw [← hround] at hlt
    exact absurd hlt (lt_irrefl 1)
  · intro hsole start blocks hblocks
    have hround : ((new start).addBlocks c blocks).1.round = thresholdRound c start blocks :=
      (follows_addBlocks hsole fun b hb => (hblocks b hb).2).round_eq
    refine ⟨hround, fun blocks' hperm => ?_⟩
    rw [(follows_addBlocks hsole fun b hb => (hblocks b (hperm.mem_iff.mp hb)).2).round_eq, hround,
      thresholdRound_perm hperm]

def soleAuthority : Committee := ⟨0, [⟨1⟩], by decide, by decide, by decide⟩

/-- The round depends on the order of the blocks. -/
theorem thresholdClock_orderDependent :
    ((new 1).addBlocks soleAuthority [⟨1, 0, 0⟩, ⟨2, 0, 0⟩]).1.round = 3 ∧
    ((new 1).addBlocks soleAuthority [⟨2, 0, 0⟩, ⟨1, 0, 0⟩]).1.round = 2 ∧
    thresholdRound soleAuthority 1 [⟨2, 0, 0⟩, ⟨1, 0, 0⟩] = 3 := by
  decide

end ThresholdClock

end SuiProofs.Consensus

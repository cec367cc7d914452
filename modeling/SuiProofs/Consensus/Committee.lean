import SuiProofs.Consensus.Block

/-! Models `committee.rs` and `stake_aggregator.rs` of the consensus crates. -/

namespace SuiProofs.Consensus

open List

structure Authority where
  stake : ℕ
deriving DecidableEq, Repr

/-- The authorities of an epoch. The proof fields are the assertions of `Committee::new`. -/
structure Committee where
  epoch : ℕ
  authorities : List Authority
  nonempty : authorities ≠ []
  size_lt : authorities.length < 2 ^ 32 - 1
  totalStake_ne_zero : (authorities.map Authority.stake).sum ≠ 0

namespace Committee

def size (c : Committee) : ℕ := c.authorities.length

def totalStake (c : Committee) : ℕ := (c.authorities.map Authority.stake).sum

def quorumThreshold (c : Committee) : ℕ := 2 * c.totalStake / 3 + 1

def validityThreshold (c : Committee) : ℕ := (c.totalStake + 2) / 3

/-- The stake of a valid index; the source panics on an invalid one. -/
def stake (c : Committee) (authorityIndex : ℕ) : ℕ :=
  (c.authorities[authorityIndex]?.map Authority.stake).getD 0

def isValidIndex (c : Committee) (index : ℕ) : Bool := index < c.size

def reachedQuorum (c : Committee) (stake : ℕ) : Bool := c.quorumThreshold ≤ stake

def reachedValidity (c : Committee) (stake : ℕ) : Bool := c.validityThreshold ≤ stake

def stakeOf (c : Committee) (s : Finset ℕ) : ℕ := ∑ a ∈ s, c.stake a

def IsQuorum (c : Committee) (s : Finset ℕ) : Prop := c.quorumThreshold ≤ c.stakeOf s

instance (c : Committee) (s : Finset ℕ) : Decidable (c.IsQuorum s) :=
  inferInstanceAs (Decidable (c.quorumThreshold ≤ c.stakeOf s))

variable {c : Committee}

lemma stake_eq_zero_of_size_le {a : ℕ} (h : c.size ≤ a) : c.stake a = 0 := by
  rw [stake, List.getElem?_eq_none_iff.mpr h]
  rfl

lemma stakeOf_range (c : Committee) : c.stakeOf (Finset.range c.size) = c.totalStake := by
  rw [stakeOf, totalStake, size, Finset.sum_range, ← sum_ofFn]
  congr 1
  apply ext_getElem
  · simp
  · intro i h1 h2
    simp [stake]

variable {s t : Finset ℕ}

lemma stakeOf_mono (c : Committee) (h : s ⊆ t) :
    c.stakeOf s ≤ c.stakeOf t :=
  Finset.sum_le_sum_of_subset h

lemma IsQuorum.mono (hs : c.IsQuorum s) (h : s ⊆ t) :
    c.IsQuorum t :=
  le_trans hs (c.stakeOf_mono h)

lemma stakeOf_toFinset_le (c : Committee) (l : List ℕ) : c.stakeOf l.toFinset ≤ (l.map c.stake).sum := by
  induction l with
  | nil => simp [stakeOf]
  | cons a l ih =>
    rw [toFinset_cons, map_cons, sum_cons]
    by_cases ha : a ∈ l.toFinset
    · rw [Finset.insert_eq_of_mem ha]
      omega
    · rw [stakeOf, Finset.sum_insert ha]
      exact Nat.add_le_add_left ih _

lemma stakeOf_le_totalStake (c : Committee) (s : Finset ℕ) : c.stakeOf s ≤ c.totalStake := by
  have hrange : c.stakeOf (s ∩ Finset.range c.size) = c.stakeOf s := by
    apply Finset.sum_subset Finset.inter_subset_left
    intro a ha hna
    apply stake_eq_zero_of_size_le
    by_contra hlt
    exact hna (Finset.mem_inter.mpr ⟨ha, Finset.mem_range.mpr (not_le.mp hlt)⟩)
  rw [← hrange, ← stakeOf_range]
  exact c.stakeOf_mono Finset.inter_subset_right

/-- Two quorums share an authority outside any set `f` of at most faulty stake. -/
theorem quorum_intersection (c : Committee) {s t f : Finset ℕ} (hs : c.IsQuorum s)
    (ht : c.IsQuorum t) (hf : c.stakeOf f ≤ c.totalStake - c.quorumThreshold) :
    ∃ a ∈ s, a ∈ t ∧ a ∉ f := by
  by_contra hno
  push Not at hno
  have hsub : s ∩ t ⊆ f := by
    intro a ha
    rw [Finset.mem_inter] at ha
    exact hno a ha.1 ha.2
  have hunion : c.stakeOf (s ∪ t) + c.stakeOf (s ∩ t) = c.stakeOf s + c.stakeOf t :=
    Finset.sum_union_inter
  have htotal := c.stakeOf_le_totalStake (s ∪ t)
  have hinter := c.stakeOf_mono hsub
  unfold IsQuorum at hs ht
  unfold quorumThreshold at hs ht hf
  omega

lemma IsQuorum.nonempty (hs : c.IsQuorum s) : s.Nonempty := by
  rw [Finset.nonempty_iff_ne_empty]
  rintro rfl
  simp [IsQuorum, stakeOf, quorumThreshold] at hs

end Committee

inductive CommitteeThreshold where
  | quorum
  | validity
deriving DecidableEq, Repr

def CommitteeThreshold.isThreshold : CommitteeThreshold → Committee → ℕ → Bool
  | .quorum, c, amount => c.reachedQuorum amount
  | .validity, c, amount => c.reachedValidity amount

structure StakeAggregator (T : CommitteeThreshold) where
  votes : Finset ℕ
  stake : ℕ
deriving DecidableEq

namespace StakeAggregator

variable {T : CommitteeThreshold}

def new : StakeAggregator T := ⟨∅, 0⟩

/-- Adds the vote of an authority, counted once, and tells whether the threshold is reached. -/
def add (agg : StakeAggregator T) (vote : ℕ) (c : Committee) : StakeAggregator T × Bool :=
  let agg' := if vote ∈ agg.votes then agg else ⟨insert vote agg.votes, agg.stake + c.stake vote⟩
  (agg', T.isThreshold c agg'.stake)

def reachedThreshold (agg : StakeAggregator T) (c : Committee) : Bool := T.isThreshold c agg.stake

/-- Adds votes in order until the threshold is reached, as the loops over blocks do. -/
def addUntilThreshold (agg : StakeAggregator T) (c : Committee) : List ℕ → Bool
  | [] => false
  | vote :: votes => if (agg.add vote c).2 then true else addUntilThreshold (agg.add vote c).1 c votes

def addAll (agg : StakeAggregator T) (c : Committee) (votes : List ℕ) : StakeAggregator T :=
  votes.foldl (fun agg vote => (agg.add vote c).1) agg

def Counts (agg : StakeAggregator T) (c : Committee) : Prop := agg.stake = c.stakeOf agg.votes

lemma counts_new (c : Committee) : (new : StakeAggregator T).Counts c := by
  simp [Counts, new, Committee.stakeOf]

lemma add_votes (agg : StakeAggregator T) (vote : ℕ) (c : Committee) :
    (agg.add vote c).1.votes = insert vote agg.votes := by
  unfold add
  by_cases h : vote ∈ agg.votes <;> simp [h]

variable {agg : StakeAggregator T} {c : Committee}

lemma Counts.add (h : agg.Counts c) (vote : ℕ) :
    (agg.add vote c).1.Counts c := by
  unfold StakeAggregator.add
  by_cases hv : vote ∈ agg.votes
  · simpa [hv] using h
  · simp only [hv, if_false, Counts, Committee.stakeOf, Finset.sum_insert hv]
    rw [h, Committee.stakeOf, Nat.add_comm]

lemma Counts.add_snd {agg : StakeAggregator .quorum} (h : agg.Counts c)
    (vote : ℕ) : (agg.add vote c).2 = true ↔ c.IsQuorum (insert vote agg.votes) := by
  have hc := h.add vote
  have hv := add_votes agg vote c
  rw [← hv]
  unfold Counts at hc
  simp only [Committee.IsQuorum, ← hc]
  simp [StakeAggregator.add, CommitteeThreshold.isThreshold, Committee.reachedQuorum]

lemma addAll_votes (agg : StakeAggregator T) (c : Committee) (votes : List ℕ) :
    (agg.addAll c votes).votes = agg.votes ∪ votes.toFinset := by
  induction votes generalizing agg with
  | nil => simp [addAll]
  | cons vote votes ih =>
    change ((agg.add vote c).1.addAll c votes).votes = _
    rw [ih, add_votes]
    ext a
    simp

lemma Counts.addAll (h : agg.Counts c) (votes : List ℕ) :
    (agg.addAll c votes).Counts c := by
  induction votes generalizing agg with
  | nil => exact h
  | cons vote votes ih => exact ih (h.add vote)

lemma Counts.reachedThreshold_iff {agg : StakeAggregator .quorum} (h : agg.Counts c) :
    agg.reachedThreshold c = true ↔ c.IsQuorum agg.votes := by
  unfold Counts at h
  simp [reachedThreshold, CommitteeThreshold.isThreshold, Committee.reachedQuorum,
    Committee.IsQuorum, ← h]

lemma reachedThreshold_addAll_new (votes : List ℕ) :
    ((new : StakeAggregator .quorum).addAll c votes).reachedThreshold c = true ↔
      c.IsQuorum votes.toFinset := by
  rw [((counts_new c).addAll votes).reachedThreshold_iff, addAll_votes]
  simp [new]

/-- The loop reports a quorum exactly if all votes together make one. -/
theorem addUntilThreshold_iff {agg : StakeAggregator .quorum} (h : agg.Counts c) (votes : List ℕ) :
    agg.addUntilThreshold c votes = true ↔
      votes ≠ [] ∧ c.IsQuorum (agg.votes ∪ votes.toFinset) := by
  induction votes generalizing agg with
  | nil => simp [addUntilThreshold]
  | cons vote votes ih =>
    have hset : agg.votes ∪ (vote :: votes).toFinset = insert vote agg.votes ∪ votes.toFinset := by
      ext a
      simp
    rw [addUntilThreshold, hset]
    by_cases hq : (agg.add vote c).2 = true
    · have hquorum := (h.add_snd vote).mp hq
      rw [if_pos hq]
      exact ⟨fun _ => ⟨by simp, hquorum.mono Finset.subset_union_left⟩, fun _ => rfl⟩
    · have hnot := fun hn => hq ((h.add_snd vote).mpr hn)
      rw [if_neg hq, ih (h.add vote), add_votes]
      constructor
      · rintro ⟨_, hi⟩
        exact ⟨by simp, hi⟩
      · rintro ⟨_, hi⟩
        refine ⟨?_, hi⟩
        rintro rfl
        exact hnot (by simpa using hi)

lemma addUntilThreshold_new (votes : List ℕ) [Decidable (c.IsQuorum votes.toFinset)] :
    (new : StakeAggregator .quorum).addUntilThreshold c votes =
      decide (c.IsQuorum votes.toFinset) := by
  rw [Bool.eq_iff_iff, addUntilThreshold_iff (counts_new c), decide_eq_true_eq]
  simp only [new, Finset.empty_union, and_iff_right_iff_imp]
  rintro hq rfl
  simpa using hq.nonempty

end StakeAggregator

end SuiProofs.Consensus

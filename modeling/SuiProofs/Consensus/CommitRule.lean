import SuiProofs.Library.AnchoredRule
import SuiProofs.Consensus.BlockVerifier

namespace SuiProofs.Consensus

open Library Relation List VerifiedBlock

/-- A set with all ancestors of its blocks, down to genesis. -/
def AncestorClosed (S : Set VerifiedBlock) : Prop :=
  ∀ b ∈ S, ∀ r ∈ b.ancestors, r.round ≠ genesisRound → ∃ p ∈ S, p.reference = r

/-- All blocks that were ever created. References identify blocks, and authorities outside a
set of stake at most `total - quorum` author at most one block per round. -/
structure GlobalDag (committee : Committee) (genesis : List BlockRef) where
  blocks : Set VerifiedBlock
  wellFormed : ∀ b ∈ blocks, WellFormed committee genesis b.toBlock
  closed : AncestorClosed blocks
  reference_inj : ∀ b ∈ blocks, ∀ b' ∈ blocks, b.reference = b'.reference → b = b'
  faulty : Finset ℕ
  faulty_stake : committee.stakeOf faulty ≤ committee.totalStake - committee.quorumThreshold
  no_equivocation : ∀ b ∈ blocks, ∀ b' ∈ blocks, b.author ∉ faulty → b.slot = b'.slot → b = b'

def LinksTo (S : Set VerifiedBlock) (b p : VerifiedBlock) : Prop := p ∈ S ∧ p.reference ∈ b.ancestors

/-- `p` is in the causal history of `b`, itself excluded. -/
abbrev Reaches (S : Set VerifiedBlock) : VerifiedBlock → VerifiedBlock → Prop := TransGen (LinksTo S)

variable {S : Set VerifiedBlock} {a b : VerifiedBlock}

lemma mem_of_reaches (h : Reaches S a b) : b ∈ S := by
  cases h with
  | single h | tail _ h => exact h.1

lemma round_lt_of_reaches {committee : Committee} {genesis : List BlockRef}
    (hwf : ∀ b ∈ S, WellFormed committee genesis b.toBlock) (ha : a ∈ S)
    (h : Reaches S a b) : b.round < a.round := by
  induction h with
  | single h => exact (hwf a ha).ancestor_round_lt _ h.2
  | tail hab hbc ih => exact lt_trans ((hwf _ (mem_of_reaches hab)).ancestor_round_lt _ hbc.2) ih

/-- The blocks one authority has, with all of their ancestors. -/
structure GlobalDag.View {committee : Committee} {genesis : List BlockRef}
    (G : GlobalDag committee genesis) where
  blocks : Finset VerifiedBlock
  subset : ∀ b ∈ blocks, b ∈ G.blocks
  closed : AncestorClosed (↑blocks : Set VerifiedBlock)

namespace GlobalDag

variable {committee : Committee} {genesis : List BlockRef} (G : GlobalDag committee genesis)

def IsVote (leader : VerifiedBlock) (r : BlockRef) : Prop :=
  ∃ b ∈ G.blocks, b.reference = r ∧ leader.reference ∈ b.ancestors

open Classical in
noncomputable def voters (leader c : VerifiedBlock) : Finset ℕ :=
  ((c.ancestors.filter (fun r => G.IsVote leader r)).map BlockRef.author).toFinset

/-- A block of the decision round that carries a quorum of votes. -/
structure IsCertificate (leader c : VerifiedBlock) : Prop where
  mem : c ∈ G.blocks
  round_eq : c.round = leader.round + 2
  quorum : committee.IsQuorum (G.voters leader c)

variable {G}

open Classical in
noncomputable def View.certifiers (V : G.View) (leader : VerifiedBlock) : Finset ℕ :=
  (V.blocks.filter (fun c => G.IsCertificate leader c)).image (fun c => c.author)

/-- The authors of the blocks of the voting round that link no block of the leader. -/
def View.blamers (V : G.View) (slot : Slot) : Finset ℕ :=
  (V.blocks.filter (fun b => b.round = slot.round + 1 ∧
    ∀ a ∈ b.ancestors, a.author ≠ slot.authority)).image
    (fun b => b.author)

variable (G)

def commitRule (leader : ℕ → ℕ) : AnchoredRule G.View VerifiedBlock where
  wave := defaultWaveLength
  direct V k
    | some b => b ∈ V.blocks ∧ b.slot = ⟨k, leader k⟩ ∧ committee.IsQuorum (V.certifiers b)
    | none => committee.IsQuorum (V.blamers ⟨k, leader k⟩)
  link a k b :=
    b ∈ G.blocks ∧ b.slot = ⟨k, leader k⟩ ∧ ∃ c, Reaches G.blocks a c ∧ G.IsCertificate b c

variable {G} {a b c : VerifiedBlock} {leader : ℕ → ℕ}

lemma View.mem_of_reaches (V : G.View) (ha : a ∈ V.blocks) (h : Reaches G.blocks a b) :
    b ∈ V.blocks := by
  have hstep : ∀ {x y}, x ∈ V.blocks → LinksTo G.blocks x y → y ∈ V.blocks := by
    intro x y hx hxy
    have hrd : y.reference.round ≠ genesisRound := (G.wellFormed y hxy.1).round_pos.ne'
    obtain ⟨p, hp, he⟩ := V.closed x hx _ hxy.2 hrd
    rwa [← G.reference_inj p (V.subset p hp) y hxy.1 he]
  induction h with
  | single h => exact hstep ha h
  | tail _ h ih => exact hstep ih h

variable {i : ℕ}

lemma mem_voters (h : i ∈ G.voters b c) :
    ∃ v ∈ G.blocks, v.author = i ∧ v.reference ∈ c.ancestors ∧ b.reference ∈ v.ancestors := by
  simp only [voters, mem_toFinset, mem_map, mem_filter, decide_eq_true_eq] at h
  obtain ⟨r, ⟨hr, v, hv, rfl, hb⟩, rfl⟩ := h
  exact ⟨v, hv, rfl, hr, hb⟩

lemma IsCertificate.mem_voters (h : G.IsCertificate b c) (hi : i ∈ G.voters b c) :
    ∃ v ∈ G.blocks, v.slot = ⟨b.round + 1, i⟩ ∧ v.reference ∈ c.ancestors ∧
      b.reference ∈ v.ancestors := by
  obtain ⟨v, hv, hau, hc, hb⟩ := GlobalDag.mem_voters hi
  refine ⟨v, hv, ?_, hc, hb⟩
  have hvc := (G.wellFormed c h.mem).ancestor_round_lt _ hc
  have hbv := (G.wellFormed v hv).ancestor_round_lt _ hb
  have hrd := h.round_eq
  simp only [reference_round] at hvc hbv
  rw [slot, hau]
  congr 1
  omega

lemma certified_unique {b' c' : VerifiedBlock} (hb : b ∈ G.blocks) (hb' : b' ∈ G.blocks)
    (hc : G.IsCertificate b c) (hc' : G.IsCertificate b' c') (hslot : b.slot = b'.slot) : b = b' := by
  obtain ⟨i, hi, hi', hhon⟩ := committee.quorum_intersection hc.quorum hc'.quorum G.faulty_stake
  obtain ⟨v, hv, hvslot, _, hbv⟩ := hc.mem_voters hi
  obtain ⟨v', hv', hvslot', _, hbv'⟩ := hc'.mem_voters hi'
  have hrd : b.round = b'.round := congrArg Slot.round hslot
  have hau : b.author = b'.author := congrArg Slot.authority hslot
  have hvauthor : v.author = i := congrArg Slot.authority hvslot
  have hvv : v = v' := G.no_equivocation v hv v' hv' (hvauthor ▸ hhon) (by rw [hvslot, hvslot', hrd])
  exact G.reference_inj b hb b' hb'
    (inj_on_of_nodup_map (G.wellFormed v hv).nodup_authors hbv (hvv ▸ hbv') hau)

variable {V : G.View}

lemma View.mem_certifiers :
    i ∈ V.certifiers b ↔ ∃ c ∈ V.blocks, G.IsCertificate b c ∧ c.author = i := by
  simp [certifiers, and_assoc]

lemma View.mem_blamers {slot : Slot} :
    i ∈ V.blamers slot ↔ ∃ b ∈ V.blocks, (b.round = slot.round + 1 ∧
      ∀ a ∈ b.ancestors, a.author ≠ slot.authority) ∧ b.author = i := by
  simp [blamers, and_assoc]

lemma not_certified_of_blamed (hbl : committee.IsQuorum (V.blamers b.slot))
    (hc : G.IsCertificate b c) : False := by
  obtain ⟨i, hi, hi', hhon⟩ := committee.quorum_intersection hbl hc.quorum G.faulty_stake
  obtain ⟨v, hv, ⟨hrd, hall⟩, rfl⟩ := View.mem_blamers.mp hi
  obtain ⟨v', hv', hslot', _, hbv'⟩ := hc.mem_voters hi'
  have hvv : v = v' := G.no_equivocation v (V.subset v hv) v' hv' hhon
    (by rw [hslot', slot, hrd, slot_round])
  exact hall _ (hvv ▸ hbv') rfl

lemma reaches_quorum {m : ℕ} (hm : 0 < m) (ha : a ∈ G.blocks) (hrd : m < a.round) :
    ∃ s, committee.IsQuorum s ∧ ∀ i ∈ s, ∃ c, Reaches G.blocks a c ∧ c.slot = ⟨m, i⟩ := by
  -- Strong induction on the round: go down to any parent, which is at or above the round.
  induction hn : a.round using Nat.strong_induction_on generalizing a with
  | _ n ih =>
    have hparents : ∀ i ∈ a.parentAuthors, ∃ p, LinksTo G.blocks a p ∧ p.slot = ⟨a.round - 1, i⟩ := by
      intro i hi
      simp only [Block.parentAuthors, mem_toFinset, mem_map, mem_filter,
        decide_eq_true_eq] at hi
      obtain ⟨r, ⟨hr, hrr⟩, rfl⟩ := hi
      obtain ⟨p, hp, rfl⟩ := G.closed a ha r hr (by rw [genesisRound]; omega)
      refine ⟨p, ⟨hp, hr⟩, ?_⟩
      rw [slot, ← hrr, reference_author]
      simp
    have hq := (G.wellFormed a ha).parents_quorum
    rcases Nat.lt_or_ge m (a.round - 1) with hlt | hge
    · obtain ⟨i, hi⟩ := hq.nonempty
      obtain ⟨p, hp, hslot⟩ := hparents i hi
      have hpround : p.round = a.round - 1 := congrArg Slot.round hslot
      obtain ⟨s, hs, hrch⟩ := ih p.round (by omega) hp.1 (by omega) rfl
      refine ⟨s, hs, fun i hi => ?_⟩
      obtain ⟨c, hc, hcslot⟩ := hrch i hi
      exact ⟨c, .head hp hc, hcslot⟩
    · obtain rfl : m = a.round - 1 := by omega
      refine ⟨_, hq, fun i hi => ?_⟩
      obtain ⟨p, hp, hslot⟩ := hparents i hi
      exact ⟨p, .single hp, hslot⟩

/-- A quorum of certificates leaves one in the history of every later block. -/
lemma reaches_certificate (hq : committee.IsQuorum (V.certifiers b)) (ha : a ∈ G.blocks)
    (hrd : b.round + 2 < a.round) : ∃ c, Reaches G.blocks a c ∧ G.IsCertificate b c := by
  obtain ⟨s, hs, hrch⟩ := reaches_quorum (by omega) ha hrd
  obtain ⟨i, hi, hi', hhon⟩ := committee.quorum_intersection hq hs G.faulty_stake
  obtain ⟨c, hcV, hc, rfl⟩ := View.mem_certifiers.mp hi
  obtain ⟨c', hc', hslot⟩ := hrch _ hi'
  have hcc : c = c' := G.no_equivocation c hc.mem c' (mem_of_reaches hc') hhon
    (by rw [hslot, ← hc.round_eq]; rfl)
  exact ⟨c', hc', hcc ▸ hc⟩

variable (G) in
/-- The commit rule of Mysticeti is a safe anchored rule: certificates of one slot exclude each
other and every later anchor sees them. -/
theorem commitRule_safe (leader : ℕ → ℕ) :
    (G.commitRule leader).Safe (fun k b => b ∈ G.blocks ∧ b.slot = ⟨k, leader k⟩)
      (fun k b => (b ∈ G.blocks ∧ b.slot = ⟨k, leader k⟩) ∧ ∃ c, G.IsCertificate b c) where
  slotBlock_of_certified h := h.1
  certified_of_direct {V k b} h := by
    obtain ⟨hb, hslot, hquorum⟩ := h
    obtain ⟨i, hi⟩ := hquorum.nonempty
    obtain ⟨c, _, hc, _⟩ := View.mem_certifiers.mp hi
    exact ⟨⟨V.subset b hb, hslot⟩, c, hc⟩
  certified_of_link h := by
    obtain ⟨hb, hslot, c, _, hc⟩ := h
    exact ⟨⟨hb, hslot⟩, c, hc⟩
  certified_unique h h' := by
    obtain ⟨⟨hb, hslot⟩, c, hc⟩ := h
    obtain ⟨⟨hb', hslot'⟩, c', hc'⟩ := h'
    exact G.certified_unique hb hb' hc hc' (hslot.trans hslot'.symm)
  not_certified_of_skip {V k b} hskip h := by
    obtain ⟨⟨_, hslot⟩, c, hc⟩ := h
    have hblame : committee.IsQuorum (V.blamers b.slot) := by
      rw [hslot]
      exact hskip
    exact not_certified_of_blamed hblame hc
  link_of_direct {V j k a b} h hj ha := by
    obtain ⟨hb, hslot, hquorum⟩ := h
    have hround : b.round = k := congrArg Slot.round hslot
    have hround' : a.round = j := congrArg Slot.round ha.2
    refine ⟨V.subset b hb, hslot, reaches_certificate hquorum ha.1 ?_⟩
    change k + 3 ≤ j at hj
    omega

lemma exists_round_of_decided {k : ℕ}
    (h : (G.commitRule leader).Decided V k (some b)) : ∃ c ∈ V.blocks, k + 2 ≤ c.round := by
  obtain ⟨j, a, hkj, _, hslot, hq⟩ := h.exists_direct
  obtain ⟨i, hi⟩ := hq.nonempty
  obtain ⟨c, hc, hcert, _⟩ := View.mem_certifiers.mp hi
  have hrd : a.round = j := congrArg Slot.round hslot
  have hcround := hcert.round_eq
  exact ⟨c, hc, by omega⟩

variable {V : G.View} {k : ℕ}

lemma View.mem_of_link (V : G.View) {anchor : VerifiedBlock} (ha : anchor ∈ V.blocks)
    (hlink : (G.commitRule leader).link anchor k b) : b ∈ V.blocks := by
  obtain ⟨hb, _, c, hc, hcert⟩ := hlink
  obtain ⟨i, hi⟩ := hcert.quorum.nonempty
  obtain ⟨v, hv, _, hvc, hbv⟩ := hcert.mem_voters hi
  exact V.mem_of_reaches ha ((hc.tail ⟨hv, hvc⟩).tail ⟨hb, hbv⟩)

lemma View.mem_of_decided (V : G.View) (hd : (G.commitRule leader).Decided V k (some b)) :
    b ∈ V.blocks := by
  generalize hv : some b = v at hd
  induction hd generalizing b with
  | direct hd =>
    subst hv
    exact hd.1
  | anchored _ _ _ hl iha _ =>
    subst hv
    exact V.mem_of_link (iha rfl) hl

noncomputable def View.leaderStatus (V : G.View) (leader : ℕ → ℕ) (k : ℕ) : LeaderStatus :=
  match (G.commitRule leader).verdict V k with
  | some (some b) => .commit b
  | some none => .skip ⟨k, leader k⟩
  | none => .undecided ⟨k, leader k⟩

lemma View.leaderStatus_commit (hd : (G.commitRule leader).Decided V k (some b)) :
    V.leaderStatus leader k = .commit b := by
  rw [View.leaderStatus, (AnchoredRule.verdict_eq_some_iff (G.commitRule_safe leader)).mpr hd]

lemma View.leaderStatus_skip (hd : (G.commitRule leader).Decided V k none) :
    V.leaderStatus leader k = .skip ⟨k, leader k⟩ := by
  rw [View.leaderStatus, (AnchoredRule.verdict_eq_some_iff (G.commitRule_safe leader)).mpr hd]

lemma View.leaderStatus_undecided (hd : ∀ v, ¬ (G.commitRule leader).Decided V k v) :
    V.leaderStatus leader k = .undecided ⟨k, leader k⟩ := by
  rw [View.leaderStatus, AnchoredRule.verdict_eq_none_iff.mpr hd]

@[simp] lemma View.round_leaderStatus : (V.leaderStatus leader k).round = k := by
  by_cases hd : ∃ v, (G.commitRule leader).Decided V k v
  · obtain ⟨_ | b, hd⟩ := hd
    · rw [leaderStatus_skip hd]
      rfl
    · rw [leaderStatus_commit hd]
      exact congrArg Slot.round ((G.commitRule_safe leader).slotBlock_of_decided hd).2
  · rw [leaderStatus_undecided (not_exists.mp hd)]
    rfl

noncomputable def View.decidedLeader? (V : G.View) (leader : ℕ → ℕ) (k : ℕ) : Option DecidedLeader :=
  (V.leaderStatus leader k).intoDecidedLeader

def toDecidedLeader (slot : Slot) : Option VerifiedBlock → DecidedLeader
  | some b => .commit b
  | none => .skip slot

lemma View.decidedLeader?_eq_some_iff {x : DecidedLeader} : V.decidedLeader? leader k = some x ↔
    ∃ v, (G.commitRule leader).Decided V k v ∧ x = toDecidedLeader ⟨k, leader k⟩ v := by
  have hsafe := G.commitRule_safe leader
  unfold View.decidedLeader?
  by_cases hd : ∃ v, (G.commitRule leader).Decided V k v
  · obtain ⟨v, hd⟩ := hd
    have hstat : (V.leaderStatus leader k).intoDecidedLeader =
        some (toDecidedLeader ⟨k, leader k⟩ v) := by
      cases v with
      | none => rw [leaderStatus_skip hd]; rfl
      | some b => rw [leaderStatus_commit hd]; rfl
    rw [hstat, Option.some.injEq]
    constructor
    · rintro rfl
      exact ⟨v, hd, rfl⟩
    · rintro ⟨v', hd', rfl⟩
      rw [hsafe.decided_unique hd hd']
  · rw [leaderStatus_undecided (not_exists.mp hd)]
    simp only [LeaderStatus.intoDecidedLeader, reduceCtorEq, false_iff]
    rintro ⟨v, hd', _⟩
    exact hd ⟨v, hd'⟩

end GlobalDag

end SuiProofs.Consensus

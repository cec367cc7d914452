import SuiProofs.Consensus.AncestorTraversal
import SuiProofs.Consensus.BaseCommitter

namespace SuiProofs.Consensus

open Library Relation List DagState VerifiedBlock GlobalDag.View StakeAggregator

/-- The state holds the blocks of a view, those from round `lo` on in the cache, and nothing
above round `lo` is committed. -/
structure DagState.Presents {ctx : Context} {G : GlobalDag ctx.committee (genesisRefs ctx)}
    (d : DagState) (V : G.View) (lo : ℕ) : Prop where
  refines : d.Refines ctx V.blocks
  cached : ∀ b ∈ V.blocks, lo ≤ b.round → d.authorityEvictionRound b.author < b.round
  lastCommitRound_le : d.lastCommitRound ≤ lo

variable {ctx : Context} {G : GlobalDag ctx.committee (genesisRefs ctx)} {d : DagState} {V : G.View}
  {lo : ℕ} {elected : ℕ → ℕ} {k : ℕ} {o : BaseCommitter}

namespace BaseCommitter

variable {leader b c : VerifiedBlock}

lemma isVote_eq (hrs : ∀ r ∈ b.ancestors, r.round < b.round)
    (hauthors : (b.ancestors.map BlockRef.author).Nodup) (hrd : b.round ≤ leader.round + 1) :
    isVote ctx d b leader = .ok (decide (leader.reference ∈ b.ancestors)) :=
  searchSupport_isVote hrs hauthors hrd

variable (G leader) in
def VotesCache (allVotes : Std.TreeMap BlockRef Bool) : Prop :=
  ∀ (r : BlockRef) (v : Bool), allVotes[r]? = some v → (v = true ↔ G.IsVote leader r)

lemma votesCache_empty : VotesCache G leader ∅ := by
  intro r v h
  simp at h

open scoped Classical

variable {r : BlockRef} (h : d.Presents V lo)
include h

lemma getBlock_ancestor (leader : VerifiedBlock) (hc : c ∈ V.blocks)
    (hr : r ∈ c.ancestors) :
    ∃ p, d.requireBlock ctx r = .ok p ∧ p.reference = r ∧ (∀ a ∈ p.ancestors, a.round < p.round) ∧
      (p.ancestors.map BlockRef.author).Nodup ∧
        (leader.reference ∈ p.ancestors ↔ G.IsVote leader r) := by
  by_cases h0 : r.round = genesisRound
  · have hgen := (G.wellFormed c (V.subset c hc)).genesis_ancestor r hr h0
    obtain ⟨p, hp, rfl⟩ := mem_map.mp hgen
    have hanc : p.ancestors = [] := by
      rw [(mem_genesisBlocks.mp hp).2]
      rfl
    refine ⟨p, h.refines.requireBlock_eq (.inl hp), rfl, by simp [hanc], by simp [hanc], ?_⟩
    simp only [hanc, not_mem_nil, false_iff]
    rintro ⟨b, hb, he, _⟩
    have hrd : b.round = p.round := congrArg BlockRef.round he
    have hpos := (G.wellFormed b hb).round_pos
    rw [round_of_mem_genesisBlocks hp] at hrd
    omega
  · obtain ⟨p, hp, rfl⟩ := V.closed c hc r hr h0
    have hwf := G.wellFormed p (V.subset p hp)
    refine ⟨p, h.refines.requireBlock_eq (.inr hp), rfl, hwf.ancestor_round_lt, hwf.nodup_authors, ?_⟩
    constructor
    · exact fun hl => ⟨p, V.subset p hp, rfl, hl⟩
    · rintro ⟨b, hb, he, hl⟩
      rwa [← G.reference_inj b hb p (V.subset p hp) he]

variable {allVotes : Std.TreeMap BlockRef Bool}

section

variable (hc : c ∈ V.blocks) (hrd : c.round = leader.round + 2)

include hc hrd

lemma cachedVote_eq (hr : r ∈ c.ancestors) (hvts : VotesCache G leader allVotes) :
    ∃ allVotes', cachedVote ctx d leader r allVotes = .ok (decide (G.IsVote leader r), allVotes') ∧
      VotesCache G leader allVotes' := by
  unfold cachedVote
  cases hcache : allVotes[r]? with
  | some v =>
    refine ⟨allVotes, ?_, hvts⟩
    rw [Bool.eq_iff_iff.mpr ((hvts r v hcache).trans decide_eq_true_iff.symm)]
  | none =>
    obtain ⟨p, hp, rfl, hrs, hauthors, hvote⟩ := getBlock_ancestor h leader hc hr
    have hpc := (G.wellFormed c (V.subset c hc)).ancestor_round_lt _ hr
    have hle : p.round ≤ leader.round + 1 := by
      simp only [reference_round] at hpc
      omega
    refine ⟨allVotes.insert p.reference (decide (G.IsVote leader p.reference)), ?_, ?_⟩
    · rw [hp, ok_bind, isVote_eq hrs hauthors hle, decide_eq_decide.mpr hvote]
      rfl
    · intro r v hv
      rcases entry_of_insert hv with ⟨rfl, rfl⟩ | ⟨-, hv⟩
      · rw [decide_eq_true_eq]
      · exact hvts r v hv

lemma countVotes_eq {refs : List BlockRef} (hrefs : ∀ r ∈ refs, r ∈ c.ancestors)
    (agg : StakeAggregator .quorum) (hvts : VotesCache G leader allVotes) :
    ∃ allVotes', countVotes ctx d leader refs agg allVotes =
        .ok (agg.addUntilThreshold ctx.committee
          ((refs.filter (fun r => G.IsVote leader r)).map BlockRef.author), allVotes') ∧
      VotesCache G leader allVotes' := by
  induction refs generalizing agg allVotes with
  | nil => exact ⟨allVotes, rfl, hvts⟩
  | cons r refs ih =>
    have hrest : ∀ r ∈ refs, r ∈ c.ancestors := fun x hx => hrefs x (mem_cons_of_mem r hx)
    obtain ⟨votes', hvote, hvts'⟩ := cachedVote_eq h hc hrd (hrefs r mem_cons_self) hvts
    rw [countVotes, hvote, ok_bind, filter_cons]
    dsimp only
    split_ifs with hr hq
    · exact ⟨votes', by rw [map_cons, addUntilThreshold, if_pos hq]; rfl, hvts'⟩
    · rw [map_cons, addUntilThreshold, if_neg hq]
      exact ih hrest _ hvts'
    · exact ih hrest _ hvts'

lemma isCertificate_eq (hvts : VotesCache G leader allVotes) :
    ∃ allVotes', isCertificate ctx d c leader allVotes =
        .ok (decide (G.IsCertificate leader c), allVotes') ∧ VotesCache G leader allVotes' := by
  obtain ⟨votes', he, hvts'⟩ := countVotes_eq h hc hrd (fun r hr => hr) .new hvts
  refine ⟨votes', ?_, hvts'⟩
  rw [isCertificate, he, addUntilThreshold_new, decide_eq_decide.mpr]
  exact ⟨fun hq => ⟨V.subset c hc, hrd, hq⟩, fun hcert => hcert.quorum⟩

end

variable {round : ℕ}

lemma getUncommittedBlocksAtRound_eq (hlo : lo < round) :
    ∃ blocks, d.getUncommittedBlocksAtRound round = .ok blocks ∧
      ∀ b, b ∈ blocks ↔ b ∈ V.blocks ∧ b.round = round := by
  have hlast := h.lastCommitRound_le
  unfold getUncommittedBlocksAtRound
  rw [if_neg (by omega)]
  refine ⟨_, rfl, fun b => h.refines.mem_cached_filter (p := fun r => r.round = round) ?_⟩
  rintro b hb rfl
  exact h.cached b hb (by simpa using hlo.le)

variable {slot : Slot}

lemma mem_getUncommittedBlocksAtSlot (hlo : lo ≤ slot.round) :
    b ∈ d.getUncommittedBlocksAtSlot slot ↔ b ∈ V.blocks ∧ b.slot = slot := by
  refine h.refines.mem_cached_filter (p := fun r => r.slot = slot) ?_
  rintro b hb rfl
  exact h.cached b hb hlo

lemma enoughLeaderBlame_eq (slot : Slot) (hlo : lo ≤ slot.round) :
    enoughLeaderBlame ctx d (slot.round + 1) slot.authority =
      .ok (decide (ctx.committee.IsQuorum (V.blamers slot))) := by
  obtain ⟨blocks, hbs, hmem⟩ := getUncommittedBlocksAtRound_eq h (Nat.lt_succ_of_le hlo)
  have hset : ((blocks.filter (fun b => b.ancestors.all (fun a => a.author ≠ slot.authority))).map
      (fun b => b.author)).toFinset = V.blamers slot := by
    ext i
    simp only [mem_toFinset, mem_map, mem_filter, hmem, all_eq_true, decide_eq_true_eq,
      mem_blamers, and_assoc]
  rw [enoughLeaderBlame, hbs, ok_bind, pure_eq_ok, addUntilThreshold_new, hset]

lemma countCertificates_eq {blocks : List VerifiedBlock}
    (hbs : ∀ c ∈ blocks, c ∈ V.blocks ∧ c.round = leader.round + 2) (agg : StakeAggregator .quorum)
    (hvts : VotesCache G leader allVotes) :
    countCertificates ctx d leader blocks agg allVotes =
      .ok (agg.addUntilThreshold ctx.committee
        ((blocks.filter (fun c => G.IsCertificate leader c)).map (fun c => c.author))) := by
  induction blocks generalizing agg allVotes with
  | nil => rfl
  | cons c blocks ih =>
    have hrest : ∀ x ∈ blocks, x ∈ V.blocks ∧ x.round = leader.round + 2 :=
      fun x hx => hbs x (mem_cons_of_mem c hx)
    obtain ⟨hc, hrd⟩ := hbs c mem_cons_self
    obtain ⟨votes', hcert, hvts'⟩ := isCertificate_eq h hc hrd hvts
    rw [countCertificates, hcert, ok_bind, filter_cons]
    dsimp only
    split_ifs with hr hq
    · rw [map_cons, addUntilThreshold, if_pos hq]
      rfl
    · rw [map_cons, addUntilThreshold, if_neg hq]
      exact ih hrest _ hvts'
    · exact ih hrest _ hvts'

lemma enoughLeaderSupport_eq (hlo : lo ≤ leader.round) :
    enoughLeaderSupport ctx d (leader.round + 2) leader =
      .ok (decide (ctx.committee.IsQuorum (V.certifiers leader))) := by
  obtain ⟨blocks, hbs, hmem⟩ := getUncommittedBlocksAtRound_eq h (by omega : lo < leader.round + 2)
  have hset : ((blocks.filter (G.IsCertificate leader)).map (fun c => c.author)).toFinset =
      V.certifiers leader := by
    ext i
    simp only [mem_toFinset, mem_map, mem_filter, hmem, decide_eq_true_eq,
      mem_certifiers]
    constructor
    · rintro ⟨c, ⟨⟨hc, _⟩, hcert⟩, rfl⟩
      exact ⟨c, hc, hcert, rfl⟩
    · rintro ⟨c, hc, hcert, rfl⟩
      exact ⟨c, ⟨⟨hc, hcert.round_eq⟩, hcert⟩, rfl⟩
  rw [enoughLeaderSupport, hbs, ok_bind]
  dsimp only
  split_ifs with hstk
  · -- The certifiers are among the authors counted by the quick check.
    rw [pure_eq_ok, decide_eq_false]
    intro hq
    have hle : ctx.committee.stakeOf (V.certifiers leader) ≤
        (blocks.map (fun b => ctx.committee.stake b.author)).sum := by
      refine le_trans (ctx.committee.stakeOf_mono ?_)
        (ctx.committee.stakeOf_toFinset_le (blocks.map (fun b => b.author)) |>.trans_eq
          (by rw [List.map_map]; rfl))
      intro i hi
      obtain ⟨c, hc, hcert, rfl⟩ := mem_certifiers.mp hi
      exact mem_toFinset.mpr (mem_map.mpr ⟨c, (hmem c).mpr ⟨hc, hcert.round_eq⟩, rfl⟩)
    simp only [Committee.reachedQuorum, Bool.not_eq_true', decide_eq_false_iff_not] at hstk
    exact hstk (le_trans hq hle)
  · rw [countCertificates_eq h (fun c hc => (hmem c).mp hc) .new votesCache_empty,
      addUntilThreshold_new, hset]

omit h in
lemma eq_nil_or_singleton {α : Type*} {l : List α} (hnd : l.Nodup) (huni : ∀ a ∈ l, ∀ b ∈ l, a = b) :
    l = [] ∨ ∃ a, l = [a] := by
  rcases l with _ | ⟨a, _ | ⟨b, l⟩⟩
  · exact .inl rfl
  · exact .inr ⟨a, rfl⟩
  · have hab := huni a (by simp) b (by simp)
    simp [hab] at hnd

lemma filterM_leaderBlocks (hlo : lo ≤ slot.round)
    {f : VerifiedBlock → Except Panic Bool} {P : VerifiedBlock → Prop}
    (hf : ∀ b ∈ V.blocks, b.slot = slot → f b = .ok (decide (P b)))
    (huni : ∀ b b', P b → P b' → b = b') :
    ((d.getUncommittedBlocksAtSlot slot).filterM f = .ok [] ∧ ∀ b ∈ V.blocks, b.slot = slot → ¬ P b) ∨
      ∃ b ∈ V.blocks, b.slot = slot ∧ P b ∧ (d.getUncommittedBlocksAtSlot slot).filterM f = .ok [b] := by
  have hfil : (d.getUncommittedBlocksAtSlot slot).filterM f =
      .ok ((d.getUncommittedBlocksAtSlot slot).filter (fun b => decide (P b))) := by
    apply filterM_eq_ok
    intro b hb
    obtain ⟨hbV, hbslot⟩ := (mem_getUncommittedBlocksAtSlot h hlo).mp hb
    exact hf b hbV hbslot
  have hmem : ∀ b, b ∈ (d.getUncommittedBlocksAtSlot slot).filter (fun b => decide (P b)) ↔
      b ∈ V.blocks ∧ b.slot = slot ∧ P b := by
    intro b
    rw [mem_filter, mem_getUncommittedBlocksAtSlot h hlo, decide_eq_true_eq, and_assoc]
  have hnd := (h.refines.nodup_getUncommittedBlocksAtSlot slot).filter (fun b => decide (P b))
  rw [hfil]
  rcases eq_nil_or_singleton hnd (fun b hb b' hb' => huni b b' ((hmem b).mp hb).2.2
    ((hmem b').mp hb').2.2) with hnil | ⟨b, hsgl⟩
  · rw [hnil] at hmem ⊢
    exact .inl ⟨rfl, fun b hb hslot hP => by simpa using (hmem b).mpr ⟨hb, hslot, hP⟩⟩
  · rw [hsgl] at hmem ⊢
    obtain ⟨hb, hslot, hP⟩ := (hmem b).mp (by simp)
    exact .inr ⟨b, hb, hslot, hP, rfl⟩

/-- The committer elects the leader of the slot's round, which starts a wave. -/
structure Elects (o : BaseCommitter) (round : ℕ) : Prop where
  waveLength_eq : o.waveLength = defaultWaveLength
  leaderRound_eq : o.leaderRound (o.waveNumber round) = round

omit h in
lemma Elects.decisionRound_eq (h : o.Elects round) :
    o.decisionRound (o.waveNumber round) = round + 2 := by
  have hw := h.waveLength_eq
  have hr := h.leaderRound_eq
  unfold leaderRound defaultWaveLength at *
  unfold decisionRound
  omega

omit h in
lemma tryDirectDecide_eq (elected : ℕ → ℕ) (h : d.Presents V lo) (hlo : lo ≤ k) (ho : o.Elects k) :
    ∃ status, tryDirectDecide ctx d o ⟨k, elected k⟩ = .ok status ∧
      (status = .skip ⟨k, elected k⟩ ∧ (G.commitRule elected).direct V k none ∨
        (∃ b, status = .commit b ∧ (G.commitRule elected).direct V k (some b)) ∨
        status = .undecided ⟨k, elected k⟩ ∧ ∀ v, ¬ (G.commitRule elected).direct V k v) := by
  have hsup : ∀ b ∈ V.blocks, b.slot = ⟨k, elected k⟩ →
      enoughLeaderSupport ctx d (k + 2) b =
        .ok (decide ((G.commitRule elected).direct V k (some b))) := by
    intro b hb hslot
    obtain rfl : b.round = k := congrArg Slot.round hslot
    rw [enoughLeaderSupport_eq h hlo, decide_eq_decide.mpr]
    exact ⟨fun hq => ⟨hb, hslot, hq⟩, fun hd => hd.2.2⟩
  have huni : ∀ b b', (G.commitRule elected).direct V k (some b) →
      (G.commitRule elected).direct V k (some b') → b = b' :=
    fun b b' hd hd' => Option.some.inj ((G.commitRule_safe elected).direct_unique hd hd')
  rw [tryDirectDecide, enoughLeaderBlame_eq h ⟨k, elected k⟩ hlo, ok_bind]
  simp only [decide_eq_true_eq]
  split_ifs with hb
  · exact ⟨_, rfl, .inl ⟨rfl, hb⟩⟩
  · rw [ho.decisionRound_eq]
    rcases filterM_leaderBlocks h hlo hsup huni with ⟨hnil, hnone⟩ | ⟨b, _, _, hd, hsgl⟩
    · rw [hnil]
      refine ⟨.undecided ⟨k, elected k⟩, rfl, .inr (.inr ⟨rfl, ?_⟩)⟩
      rintro (_ | b) hd
      · exact hb hd
      · exact hnone b hd.1 hd.2.1 hd
    · rw [hsgl]
      exact ⟨.commit b, rfl, .inr (.inl ⟨b, rfl, hd⟩)⟩

variable {anchor : VerifiedBlock}

lemma traversable (ha : anchor ∈ V.blocks) (hrd : 0 < round) :
    d.Traversable ctx G.blocks anchor round where
  mem := V.subset anchor ha
  found c hc := h.refines.requireBlock_eq (.inr (V.mem_of_reaches ha hc))
  closed c hc r hr hle := G.closed c hc r hr (by rw [genesisRound]; omega)
  lower c hc := (G.wellFormed c hc).ancestor_round_lt

lemma anyCertificate_eq {cs : List VerifiedBlock}
    (hcs : ∀ c ∈ cs, c ∈ V.blocks ∧ c.round = leader.round + 2)
    (hvts : VotesCache G leader allVotes) :
    anyCertificate ctx d leader cs allVotes = .ok (decide (∃ c ∈ cs, G.IsCertificate leader c)) := by
  induction cs generalizing allVotes with
  | nil => simp [anyCertificate]
  | cons c cs ih =>
    obtain ⟨hc, hrd⟩ := hcs c mem_cons_self
    obtain ⟨votes', hcert, hvts'⟩ := isCertificate_eq h hc hrd hvts
    rw [anyCertificate, hcert, ok_bind]
    dsimp only
    rw [ih (fun x hx => hcs x (mem_cons_of_mem c hx)) hvts']
    by_cases hr : G.IsCertificate leader c <;> simp [hr]

lemma decideLeaderFromAnchor_eq (hlo : lo ≤ k)
    (ho : o.Elects k) (ha : anchor ∈ V.blocks) :
    ∃ status, decideLeaderFromAnchor ctx d o anchor ⟨k, elected k⟩ = .ok status ∧
      (status = .skip ⟨k, elected k⟩ ∧ (G.commitRule elected).Linked anchor k none ∨
        ∃ b, status = .commit b ∧ (G.commitRule elected).Linked anchor k (some b)) := by
  obtain ⟨cs, hcs, -, hmem⟩ := (traversable h ha (by omega : 0 < k + 2)).ancestorsAtRound
  have hcert : ∀ b ∈ V.blocks, b.slot = ⟨k, elected k⟩ →
      anyCertificate ctx d b cs ∅ = .ok (decide ((G.commitRule elected).link anchor k b)) := by
    intro b hb hslot
    have hrd : b.round = k := congrArg Slot.round hslot
    have hcsV : ∀ c ∈ cs, c ∈ V.blocks ∧ c.round = b.round + 2 := by
      intro c hc
      obtain ⟨hrch, hcround⟩ := (hmem c).mp hc
      exact ⟨V.mem_of_reaches ha hrch, by omega⟩
    rw [anyCertificate_eq h hcsV votesCache_empty, decide_eq_decide.mpr]
    constructor
    · rintro ⟨c, hc, hcert⟩
      exact ⟨V.subset b hb, hslot, c, ((hmem c).mp hc).1, hcert⟩
    · rintro ⟨_, _, c, hc, hcert⟩
      exact ⟨c, (hmem c).mpr ⟨hc, by rw [hcert.round_eq, hrd]⟩, hcert⟩
  have huni : ∀ b b', (G.commitRule elected).link anchor k b → (G.commitRule elected).link anchor k b' →
      b = b' := by
    intro b b' hl hl'
    have hsafe := G.commitRule_safe elected
    exact hsafe.certified_unique (hsafe.certified_of_link hl) (hsafe.certified_of_link hl')
  rw [decideLeaderFromAnchor, ho.decisionRound_eq, hcs, ok_bind]
  rcases filterM_leaderBlocks h hlo hcert huni with ⟨hnil, hnone⟩ | ⟨b, _, _, hl, hsgl⟩
  · rw [hnil]
    exact ⟨_, rfl, .inl ⟨rfl, fun b hl => hnone b (V.mem_of_link ha hl) hl.2.1 hl⟩⟩
  · rw [hsgl]
    exact ⟨_, rfl, .inr ⟨b, rfl, hl⟩⟩

omit h in
lemma decideFromAnchors_eq (js : List ℕ) :
    decideFromAnchors ctx d o slot (js.map (V.leaderStatus elected)) =
      match AnchoredRule.firstAnchor ((G.commitRule elected).verdict V) js with
      | some anchor => decideLeaderFromAnchor ctx d o anchor slot
      | none => .ok (.undecided slot) := by
  induction js with
  | nil => rfl
  | cons j js ih =>
    rw [map_cons, AnchoredRule.firstAnchor, leaderStatus]
    cases (G.commitRule elected).verdict V j with
    | none => rfl
    | some v =>
      cases v with
      | none => exact ih
      | some a => rfl

omit h in
lemma filter_range' {s n m : ℕ} (hsm : s ≤ m) :
    (List.range' s n).filter (fun j => m ≤ j) = List.range' m (s + n - m) := by
  induction n generalizing s with
  | zero =>
    have hemp : s - m = 0 := by omega
    simp [hemp]
  | succ n ih =>
    rw [range'_succ]
    rcases hsm.eq_or_lt with rfl | hlt
    · have hall : (range' s (n + 1)).filter (fun j => s ≤ j) = range' s (n + 1) := by
        rw [filter_eq_self]
        intro j hj
        simpa using (mem_range'_1.mp hj).1
      rw [← range'_succ, hall]
      congr 1
      omega
    · rw [filter_cons_of_neg (by simpa using hlt), ih hlt]
      congr 1
      omega

/-- The statuses of the later leaders, up to the last round that can hold a commit. -/
noncomputable def laterStatuses (V : G.View) (elected : ℕ → ℕ) (bound k : ℕ) : List LeaderStatus :=
  (List.range' k (bound - k)).map (V.leaderStatus elected)

lemma tryIndirectDecide_eq {bound : ℕ} (hlo : lo ≤ k) (ho : o.Elects k)
    (hbd : ∀ j a, (G.commitRule elected).Decided V j (some a) → j < bound)
    (hdir : ∀ v, ¬ (G.commitRule elected).direct V k v) :
    tryIndirectDecide ctx d o ⟨k, elected k⟩ (laterStatuses V elected bound (k + 1)) =
      .ok (V.leaderStatus elected k) := by
  have hiff := fun v =>
    AnchoredRule.decided_iff_of_not_direct (v := v) (G.commitRule_safe elected) hbd hdir
  have hfil : (laterStatuses V elected bound (k + 1)).filter (fun x => k + o.waveLength ≤ x.round) =
      (range' (k + defaultWaveLength) (bound - (k + defaultWaveLength))).map
        (V.leaderStatus elected) := by
    rw [laterStatuses, filter_map, ho.waveLength_eq]
    have hcomp : ((fun x : LeaderStatus => decide (k + defaultWaveLength ≤ x.round)) ∘
      V.leaderStatus elected) =
        fun j => decide (k + defaultWaveLength ≤ j) := by
      funext j
      simp
    rw [hcomp, filter_range' (by unfold defaultWaveLength; omega)]
    congr 2
    unfold defaultWaveLength
    omega
  rw [tryIndirectDecide, hfil, decideFromAnchors_eq]
  cases hanchor : AnchoredRule.firstAnchor ((G.commitRule elected).verdict V)
      (range' (k + defaultWaveLength) (bound - (k + defaultWaveLength))) with
  | none =>
    rw [leaderStatus_undecided]
    intro v hd
    obtain ⟨a, ha, _⟩ := (hiff v).mp hd
    cases hanchor.symm.trans ha
  | some a =>
    have ha : a ∈ V.blocks := by
      obtain ⟨j, _, _, hj, _⟩ := AnchoredRule.firstAnchor_range'_eq_some.mp hanchor
      exact V.mem_of_decided ((AnchoredRule.verdict_eq_some_iff (G.commitRule_safe elected)).mp hj)
    obtain ⟨status, hstat, ⟨rfl, hl⟩ | ⟨b, rfl, hl⟩⟩ := decideLeaderFromAnchor_eq h hlo ho ha
    · rw [leaderStatus_skip ((hiff none).mpr ⟨a, hanchor, hl⟩)]
      exact hstat
    · rw [leaderStatus_commit ((hiff (some b)).mpr ⟨a, hanchor, hl⟩)]
      exact hstat

end BaseCommitter

namespace UniversalCommitter

open BaseCommitter

variable {bound : ℕ}

lemma decideSlot_eq (h : d.Presents V lo) (hlo : lo ≤ k) (ho : o.Elects k)
    (hbd : ∀ j a, (G.commitRule elected).Decided V j (some a) → j < bound) :
    ∃ decision, decideSlot ctx d o ⟨k, elected k⟩ (laterStatuses V elected bound (k + 1)) =
      .ok (V.leaderStatus elected k, decision) := by
  obtain ⟨status, hstat, ⟨rfl, hd⟩ | ⟨b, rfl, hd⟩ | ⟨rfl, hd⟩⟩ := tryDirectDecide_eq elected h hlo ho
  · exact ⟨.direct, by rw [decideSlot, hstat, leaderStatus_skip (.direct hd)]; rfl⟩
  · exact ⟨.direct, by rw [decideSlot, hstat, leaderStatus_commit (.direct hd)]; rfl⟩
  · refine ⟨.indirect, ?_⟩
    rw [decideSlot, hstat, ok_bind, if_neg (by simp [LeaderStatus.isDecided]),
      tryIndirectDecide_eq h hlo ho hbd hd]
    rfl

section Loop

variable {elect : ℕ → ℕ → Except Panic ℕ} {lastDecided : Slot} {rest : List (ℕ × BaseCommitter)}
  {leaders : List (LeaderStatus × Decision)}

/-- The pipelined committer of offset `i` leads the rounds that are `i` modulo the wave length. -/
lemma electLeader_pipelined {i : ℕ} (hi : i < 3) (helect : elect k 0 = .ok (elected k)) :
    (k % 3 = i → (⟨3, 0, i⟩ : BaseCommitter).electLeader elect k = .ok (some ⟨k, elected k⟩) ∧
      (⟨3, 0, i⟩ : BaseCommitter).Elects k) ∧
    (k % 3 ≠ i → (⟨3, 0, i⟩ : BaseCommitter).electLeader elect k = .ok none) := by
  have hrd : (⟨3, 0, i⟩ : BaseCommitter).leaderRound ((⟨3, 0, i⟩ : BaseCommitter).waveNumber k) = k ↔
      k % 3 = i := by
    simp only [leaderRound, waveNumber]
    omega
  constructor
  · intro hk
    refine ⟨?_, rfl, hrd.mpr hk⟩
    rw [electLeader, if_neg (not_not.mpr (hrd.mpr hk)), helect]
    rfl
  · intro hk
    rw [electLeader, if_pos (fun hr => hk (hrd.mp hr))]

/-- In every round exactly one of the pipelined committers elects a leader. -/
lemma visit_pipelined (helect : elect k 0 = .ok (elected k)) :
    ∃ before after o, pipelined.visit k = before ++ (k, o) :: after ∧
      o.electLeader elect k = .ok (some ⟨k, elected k⟩) ∧ o.Elects k ∧
      ∀ x ∈ before ++ after, x.1 = k ∧ x.2.electLeader elect k = .ok none := by
  have h0 := electLeader_pipelined (by omega : 0 < 3) helect
  have h1 := electLeader_pipelined (by omega : 1 < 3) helect
  have h2 := electLeader_pipelined (by omega : 2 < 3) helect
  have hvis : pipelined.visit k = [(k, ⟨3, 0, 2⟩), (k, ⟨3, 0, 1⟩), (k, ⟨3, 0, 0⟩)] := rfl
  have hmod : k % 3 = 0 ∨ k % 3 = 1 ∨ k % 3 = 2 := by omega
  rcases hmod with hk | hk | hk
  · refine ⟨[(k, ⟨3, 0, 2⟩), (k, ⟨3, 0, 1⟩)], [], _, hvis, (h0.1 hk).1, (h0.1 hk).2, ?_⟩
    simp [h1.2 (by omega), h2.2 (by omega)]
  · refine ⟨[(k, ⟨3, 0, 2⟩)], [(k, ⟨3, 0, 0⟩)], _, hvis, (h1.1 hk).1, (h1.1 hk).2, ?_⟩
    simp [h0.2 (by omega), h2.2 (by omega)]
  · refine ⟨[], [(k, ⟨3, 0, 1⟩), (k, ⟨3, 0, 0⟩)], _, hvis, (h2.1 hk).1, (h2.1 hk).2, ?_⟩
    simp [h0.2 (by omega), h1.2 (by omega)]

lemma decideLoop_append_skip {before : List (ℕ × BaseCommitter)}
    (hbef : ∀ x ∈ before, x.1 = k ∧ x.2.electLeader elect k = .ok none) :
    decideLoop ctx d elect lastDecided (before ++ rest) leaders =
      decideLoop ctx d elect lastDecided rest leaders := by
  induction before with
  | nil => rfl
  | cons x before ih =>
    obtain ⟨hk, he⟩ := hbef x mem_cons_self
    obtain ⟨k', o⟩ := x
    obtain rfl : k' = k := hk
    rw [cons_append, decideLoop, he, ok_bind, ih (fun y hy => hbef y (mem_cons_of_mem _ hy))]

/-- The round of the last decided leader ends the loop when its slot is elected again. -/
lemma decideLoop_visit_break (helect : elect k 0 = .ok (elected k))
    (heq : (⟨k, elected k⟩ : Slot) = lastDecided) :
    decideLoop ctx d elect lastDecided (pipelined.visit k ++ rest) leaders = .ok leaders := by
  obtain ⟨before, after, o, hvis, he, _, hskip⟩ := visit_pipelined helect
  rw [hvis, append_assoc, cons_append,
    decideLoop_append_skip (fun x hx => hskip x (mem_append_left _ hx)), decideLoop, he, ok_bind]
  exact if_pos heq

lemma decideLoop_visit (h : d.Presents V lo) (hlo : lo ≤ k) (helect : elect k 0 = .ok (elected k))
    (hne : (⟨k, elected k⟩ : Slot) ≠ lastDecided)
    (hbd : ∀ j a, (G.commitRule elected).Decided V j (some a) → j < bound) (hk : k < bound)
    (hleads : leaders.map Prod.fst = laterStatuses V elected bound (k + 1)) :
    ∃ leaders', decideLoop ctx d elect lastDecided (pipelined.visit k ++ rest) leaders =
        decideLoop ctx d elect lastDecided rest leaders' ∧
      leaders'.map Prod.fst = laterStatuses V elected bound k := by
  obtain ⟨before, after, o, hvis, he, ho, hskip⟩ := visit_pipelined helect
  obtain ⟨decision, hs⟩ := decideSlot_eq h hlo ho hbd
  refine ⟨(V.leaderStatus elected k, decision) :: leaders, ?_, ?_⟩
  · rw [hvis, append_assoc, cons_append,
      decideLoop_append_skip (fun x hx => hskip x (mem_append_left _ hx)),
      decideLoop, he, ok_bind]
    simp only [hne, if_false]
    rw [hleads, hs, ok_bind, decideLoop_append_skip (fun x hx => hskip x (mem_append_right _ hx))]
  · have hrange : bound - k = (bound - (k + 1)) + 1 := by omega
    rw [map_cons, hleads, laterStatuses, laterStatuses, hrange, range'_succ, map_cons]

def firstRound (elected : ℕ → ℕ) (lastDecided : Slot) : ℕ :=
  if (⟨lastDecided.round, elected lastDecided.round⟩ : Slot) = lastDecided then lastDecided.round + 1
  else lastDecided.round

variable {s n : ℕ}

lemma decideLoop_rounds (h : d.Presents V lo) (hlo : lo ≤ s)
    (helect : ∀ k, s ≤ k → k < s + n → elect k 0 = .ok (elected k))
    (hne : ∀ k, s ≤ k → (⟨k, elected k⟩ : Slot) ≠ lastDecided)
    (hbd : ∀ j a, (G.commitRule elected).Decided V j (some a) → j < bound) (hn : s + n ≤ bound)
    (hleads : leaders.map Prod.fst = laterStatuses V elected bound (s + n)) :
    ∃ leaders', decideLoop ctx d elect lastDecided
      ((List.range' s n).reverse.flatMap pipelined.visit ++ rest) leaders =
        decideLoop ctx d elect lastDecided rest leaders' ∧
      leaders'.map Prod.fst = laterStatuses V elected bound s := by
  induction n generalizing leaders with
  | zero => exact ⟨leaders, rfl, hleads⟩
  | succ n ih =>
    rw [range'_1_concat, reverse_append, reverse_singleton, singleton_append,
      flatMap_cons, append_assoc]
    obtain ⟨leaders', he, hleads'⟩ :=
      decideLoop_visit h (by omega) (helect (s + n) (by omega) (by omega))
      (hne (s + n) (by omega)) hbd (by omega) hleads
    rw [he]
    exact ih (fun k hsk hk => helect k hsk (by omega)) (by omega) hleads'

lemma decideLoop_eq (h : d.Presents V lastDecided.round)
    (helect : ∀ k, lastDecided.round ≤ k → k < bound → elect k 0 = .ok (elected k))
    (hbd : ∀ j a, (G.commitRule elected).Decided V j (some a) → j < bound) :
    ∃ leaders, decideLoop ctx d elect lastDecided
        ((List.range' lastDecided.round (bound - lastDecided.round)).reverse.flatMap
          pipelined.visit) [] = .ok leaders ∧
      leaders.map Prod.fst = laterStatuses V elected bound (firstRound elected lastDecided) := by
  set lo := lastDecided.round with hlo
  have hne : ∀ k, lo + 1 ≤ k → (⟨k, elected k⟩ : Slot) ≠ lastDecided := by
    intro k hk he
    have : k = lastDecided.round := congrArg Slot.round he
    omega
  rcases Nat.lt_or_ge lo bound with hlt | hge
  · have hcnt : bound - lo = (bound - (lo + 1)) + 1 := by omega
    rw [hcnt, range'_succ, reverse_cons, flatMap_append, flatMap_singleton]
    have hrs : lo + 1 + (bound - (lo + 1)) = bound := by omega
    have hst : ([] : List (LeaderStatus × Decision)).map Prod.fst =
        laterStatuses V elected bound (lo + 1 + (bound - (lo + 1))) := by
      simp [laterStatuses, hrs]
    obtain ⟨leaders, he, hleads⟩ := decideLoop_rounds h (Nat.le_succ lo)
      (fun k hk hkb => helect k (by omega) (by omega)) hne hbd hrs.le hst
    rw [he]
    unfold firstRound
    split_ifs with heq
    · refine ⟨leaders, ?_, hleads⟩
      exact decideLoop_visit_break (helect lo le_rfl hlt) heq
    · obtain ⟨leaders', he', hleads'⟩ :=
        decideLoop_visit h le_rfl (helect lo le_rfl hlt) heq hbd hlt hleads
      exact ⟨leaders', he', hleads'⟩
  · refine ⟨[], by simp [Nat.sub_eq_zero_of_le hge, decideLoop], ?_⟩
    have hfst : lo ≤ firstRound elected lastDecided := by
      unfold firstRound
      split_ifs <;> omega
    simp [laterStatuses, Nat.sub_eq_zero_of_le (hge.trans hfst)]

lemma decidedPrefix_eq (hleads : leaders.map Prod.fst = (List.range' s n).map (V.leaderStatus elected)) :
    decidedPrefix leaders = decidedRun (V.decidedLeader? elected) (max 1 s) (s + n - max 1 s) := by
  induction n generalizing s leaders with
  | zero =>
    obtain rfl : leaders = [] := by simpa using hleads
    have hemp : s + 0 - max 1 s = 0 := by omega
    rw [hemp]
    rfl
  | succ n ih =>
    cases leaders with
    | nil => simp at hleads
    | cons x leaders =>
      obtain ⟨status, decision⟩ := x
      obtain ⟨rfl, hrest⟩ := cons.inj hleads
      have ih' := ih hrest
      rw [decidedPrefix, round_leaderStatus, genesisRound]
      split_ifs with hs
      · subst hs
        rw [ih']
        congr 1
        omega
      · have hmax : max 1 s = s := by omega
        have hmax' : max 1 (s + 1) = s + 1 := by omega
        have hcnt : s + (n + 1) - s = n + 1 := by omega
        have hcnt' : s + 1 + n - (s + 1) = n := by omega
        rw [hmax', hcnt'] at ih'
        rw [hmax, hcnt, decidedRun, ← ih', decidedLeader?]
        cases (V.leaderStatus elected s).intoDecidedLeader <;> rfl

/-- `try_decide` returns the decided leaders of the commit rule, in order, up to the
first undecided round. -/
theorem tryDecide_eq (h : d.Presents V lastDecided.round)
    (helect : ∀ k, lastDecided.round ≤ k → k < d.highestAcceptedRound - 2 + 1 →
      elect k 0 = .ok (elected k)) :
    pipelined.tryDecide ctx d elect lastDecided =
      .ok (decidedRun (V.decidedLeader? elected) (max 1 (firstRound elected lastDecided))
        (d.highestAcceptedRound - 2 + 1 - max 1 (firstRound elected lastDecided))) := by
  have hbound : ∀ j a, (G.commitRule elected).Decided V j (some a) →
      j < d.highestAcceptedRound - 2 + 1 := by
    intro j a hd
    obtain ⟨c, hc, hround⟩ := GlobalDag.exists_round_of_decided hd
    have := h.refines.highest_ge c hc
    omega
  obtain ⟨leaders, he, hleaders⟩ := decideLoop_eq h helect hbound
  rw [tryDecide, schedule, he, ok_bind, decidedPrefix_eq hleaders]
  congr 2
  omega

end Loop

end UniversalCommitter

/-- A validator's DAG in which nothing is committed yet: an ancestor-closed part of all blocks. -/
structure UncommittedDag (v : SignedBlockVerifier) (blocks : Set VerifiedBlock) (ctx : Context)
    (d : DagState) (V : Finset VerifiedBlock) : Prop where
  committee_eq : ctx.committee = v.context.committee
  genesis_eq : genesisRefs ctx = genesisRefs v.context
  subset : ∀ b ∈ V, b ∈ blocks
  closed : AncestorClosed (↑V : Set VerifiedBlock)
  refines : d.Refines ctx V
  lastCommit_eq : d.lastCommit = none
  lastCommittedRounds_eq : ∀ a, d.lastCommittedRounds a = 0

lemma UncommittedDag.tryDecide_eq {v : SignedBlockVerifier}
    {V : Finset VerifiedBlock} {G : GlobalDag v.context.committee (genesisRefs v.context)}
    (h : UncommittedDag v G.blocks ctx d V) (elected : ℕ → ℕ) (lastDecided : Slot) :
    ∃ n, UniversalCommitter.pipelined.tryDecide ctx d (fun round _ => .ok (elected round)) lastDecided =
      .ok (decidedRun ((⟨V, h.subset, h.closed⟩ : G.View).decidedLeader? elected)
        (max 1 (UniversalCommitter.firstRound elected lastDecided)) n) := by
  obtain ⟨hcomt, hgen, hsub, hcl, href, hlast, hrs⟩ := h
  revert G
  rw [← hcomt, ← hgen]
  intro G hsub
  have hpresents : d.Presents (⟨V, hsub, hcl⟩ : G.View) lastDecided.round := by
    refine ⟨href, fun b hb _ => ?_, ?_⟩
    · have := href.acceptable.round_pos b hb
      rw [authorityEvictionRound, evictionRound, hrs]
      omega
    · rw [lastCommitRound, hlast]
      exact Nat.zero_le _
  exact ⟨_, UniversalCommitter.tryDecide_eq hpresents (fun _ _ _ => rfl)⟩

/-- Safety of the commit rule: on any two validators' DAGs `try_decide` returns without a panic,
and one of the two lists of decided leaders is a prefix of the other. -/
theorem tryDecide_agreement {v : SignedBlockVerifier} {blocks : Set VerifiedBlock}
    (hverified : ∀ b ∈ blocks, v.verify b.toSignedBlock = .ok ()) (hclosed : AncestorClosed blocks)
    (hreference : ∀ b ∈ blocks, ∀ b' ∈ blocks, b.reference = b'.reference → b = b')
    (faulty : Finset ℕ) (hfaulty : v.context.committee.stakeOf faulty ≤
      v.context.committee.totalStake - v.context.committee.quorumThreshold)
    (hhonest : ∀ b ∈ blocks, ∀ b' ∈ blocks, b.author ∉ faulty → b.slot = b'.slot → b = b')
    {ctx₁ ctx₂ : Context} {d₁ d₂ : DagState} {V₁ V₂ : Finset VerifiedBlock}
    (h₁ : UncommittedDag v blocks ctx₁ d₁ V₁) (h₂ : UncommittedDag v blocks ctx₂ d₂ V₂)
    (elected : ℕ → ℕ) (lastDecided : Slot) :
    ∃ l₁ l₂,
      UniversalCommitter.pipelined.tryDecide ctx₁ d₁
        (fun round _ => .ok (elected round)) lastDecided = .ok l₁ ∧
      UniversalCommitter.pipelined.tryDecide ctx₂ d₂
        (fun round _ => .ok (elected round)) lastDecided = .ok l₂ ∧
      (l₁ <+: l₂ ∨ l₂ <+: l₁) := by
  let G : GlobalDag v.context.committee (genesisRefs v.context) :=
    { blocks, faulty, closed := hclosed, reference_inj := hreference, faulty_stake := hfaulty
      no_equivocation := hhonest
      wellFormed := fun b hb => SignedBlockVerifier.wellFormed_of_verify (hverified b hb) }
  obtain ⟨n₁, he₁⟩ := UncommittedDag.tryDecide_eq (G := G) h₁ elected lastDecided
  obtain ⟨n₂, he₂⟩ := UncommittedDag.tryDecide_eq (G := G) h₂ elected lastDecided
  refine ⟨_, _, he₁, he₂, decidedRun_comparable ?_ _ n₁ n₂⟩
  intro k x y hx hy
  obtain ⟨w, hw, rfl⟩ := decidedLeader?_eq_some_iff.mp hx
  obtain ⟨w', hw', rfl⟩ := decidedLeader?_eq_some_iff.mp hy
  rw [(G.commitRule_safe elected).decided_unique hw hw']

lemma uncommittedDag_fullRounds {blocks : List VerifiedBlock}
    (hd : acceptedState blocks = .ok d)
    (hsub : ∀ b ∈ blocks.foldl acceptInto ∅, b ∈ fourAuthorities.fullRounds 3)
    (hcl : ∀ b ∈ blocks.foldl acceptInto ∅, ∀ r ∈ b.ancestors, r.round ≠ genesisRound →
      ∃ p ∈ blocks.foldl acceptInto ∅, p.reference = r) :
    UncommittedDag ⟨fourAuthorities, fun _ => true, fun _ => true⟩ {b | b ∈ fourAuthorities.fullRounds 3}
      fourAuthorities d (blocks.foldl acceptInto ∅) := by
  simp only [acceptedState, bind_eq_ok] at hd
  obtain ⟨d₀, hd₀, hd⟩ := hd
  have hsame := sameCommits_acceptBlocks hd
  obtain ⟨rounds, subdags, hrecov, hsame₀, _⟩ := new_eq_ok hd₀
  obtain ⟨rfl, rfl⟩ : (fun _ => 0) = rounds ∧ [] = subdags :=
    Prod.mk.inj (Except.ok.inj hrecov)
  refine ⟨rfl, rfl, hsub, hcl, ((DagRun.start hd₀).acceptBlocks hd).refines (by decide), ?_, ?_⟩
  · rw [hsame.lastCommit, hsame₀.lastCommit]
    rfl
  · intro a
    rw [hsame.lastCommittedRounds, hsame₀.lastCommittedRounds]
    rfl

/-- One validator has all of three full rounds and commits the leader of round 1; another
lacks two blocks of round 3. -/
theorem tryDecide_agreement_fullRounds :
    ∃ d₁ d₂, acceptedState (fourAuthorities.fullRounds 3) = .ok d₁ ∧
      acceptedState ((fourAuthorities.fullRounds 3).take 10) = .ok d₂ ∧
      ∃ l₁ l₂,
        UniversalCommitter.pipelined.tryDecide fourAuthorities d₁
          (fun round _ => .ok (round % 4)) ⟨0, 0⟩ = .ok l₁ ∧
        UniversalCommitter.pipelined.tryDecide fourAuthorities d₂
          (fun round _ => .ok (round % 4)) ⟨0, 0⟩ = .ok l₂ ∧
        (l₁ <+: l₂ ∨ l₂ <+: l₁) := by
  obtain ⟨d₁, hd₁⟩ :=
    exists_eq_ok_of_isOk (x := acceptedState (fourAuthorities.fullRounds 3)) (by decide +kernel)
  obtain ⟨d₂, hd₂⟩ := exists_eq_ok_of_isOk (x := acceptedState ((fourAuthorities.fullRounds 3).take 10))
    (by decide +kernel)
  have h₁ := uncommittedDag_fullRounds hd₁ (by decide +kernel) (by decide +kernel)
  have h₂ := uncommittedDag_fullRounds hd₂ (by decide +kernel) (by decide +kernel)
  have hverified : ∀ b ∈ fourAuthorities.fullRounds 3,
      (⟨fourAuthorities, fun _ => true, fun _ => true⟩ : SignedBlockVerifier).verify
        b.toSignedBlock = .ok () := by
    decide +kernel
  have hclosed : ∀ b ∈ fourAuthorities.fullRounds 3, ∀ r ∈ b.ancestors, r.round ≠ genesisRound →
      ∃ p ∈ fourAuthorities.fullRounds 3, p.reference = r := by
    decide +kernel
  have hslots : ∀ b ∈ fourAuthorities.fullRounds 3,
      ∀ b' ∈ fourAuthorities.fullRounds 3, b.slot = b'.slot → b = b' := by
    decide +kernel
  exact ⟨d₁, d₂, hd₁, hd₂, tryDecide_agreement hverified hclosed
    (fun b hb b' hb' he => hslots b hb b' hb' (congrArg BlockRef.slot he))
    ∅ (by decide) (fun b hb b' hb' _ => hslots b hb b' hb') h₁ h₂ (fun round => round % 4) ⟨0, 0⟩⟩

end SuiProofs.Consensus

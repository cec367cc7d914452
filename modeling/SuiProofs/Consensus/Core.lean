import SuiProofs.Consensus.CommitterRefinement
import SuiProofs.Consensus.LinearizerCommits

/-! Models `try_commit` of `core.rs` under a fixed leader schedule. -/

namespace SuiProofs.Consensus

open Library List DagState UniversalCommitter DecidedLeader Linearizer

/-- The branch without `mysticeti_leader_scoring_and_schedule`. Returns the last decided leader, the
DAG state and the committed sub-dags. -/
def Core.tryCommit (ctx : Context) (d : DagState) (elect : ℕ → ℕ → Except Panic ℕ)
    (lastDecidedLeader : Slot) :
    Except Panic (Slot × DagState × List CommittedSubDag) := do
  let decidedLeaders ← pipelined.tryDecide ctx d elect lastDecidedLeader
  let (d, subdags) ← handleCommit ctx d (decidedLeaders.filterMap intoCommittedBlock)
  return ((decidedLeaders.map DecidedLeader.slot).getLastD lastDecidedLeader, d, subdags)

variable {committee : Committee} {genesis : List BlockRef}

/-- The context of a validator that takes part in the protocol. -/
structure Joins (G : GlobalDag committee genesis) (digest : Commit → CommitDigest)
    (ctx : Context) : Prop where
  committee_eq : ctx.committee = committee
  genesis_eq : genesisRefs ctx = genesis
  digest_eq : ctx.computeCommitDigest = digest
  unscored : ctx.mysticetiLeaderScoringAndSchedule = false
  cached : 1 ≤ ctx.dagStateCachedRounds

section

variable (G : GlobalDag committee genesis) (digest : Commit → CommitDigest) (ctx : Context)
  (elected : ℕ → ℕ)

/-- The sub-dags of a list of leaders, each as some validator collects it, with the last commit and
the committed rounds after them. The latest comes first. -/
inductive Linearizes : List VerifiedBlock → List CommittedSubDag → Option TrustedCommit → (ℕ → ℕ) → Prop
  | nil : Linearizes [] [] none (fun _ => 0)
  | cons {ctx d leader leaders subdag subdags commit} {V : G.View} :
      Linearizes leaders subdags d.lastCommit d.lastCommittedRounds → ctx.computeCommitDigest = digest →
      d.Refines ctx V.blocks → leader ∈ V.blocks →
        collectSubDagAndCommit ctx d leader = .ok (subdag, commit) →
      Linearizes (leader :: leaders) (subdag :: subdags) (some commit)
        (raiseCommittedRounds d.lastCommittedRounds commit.blocks)

/-- A validator with the blocks `V` that has committed the leaders, in order, as the sub-dags. -/
structure Committed (V : G.View) (leaders : List VerifiedBlock) (d : DagState)
    (subdags : List CommittedSubDag) : Prop
    extends Joins G digest ctx where
  refines : d.Refines ctx V.blocks
  linearizes : Linearizes G digest leaders.reverse subdags.reverse d.lastCommit d.lastCommittedRounds

/-- What the views say about a round, if any of them decides it. -/
noncomputable def GlobalDag.verdict (k : ℕ) : Option VerifiedBlock :=
  Classical.epsilon fun v => ∃ V : G.View, (G.commitRule elected).Decided V k v

noncomputable def GlobalDag.decision (k : ℕ) : DecidedLeader :=
  toDecidedLeader ⟨k, elected k⟩ (G.verdict elected k)

/-- The validator has committed the leaders of all rounds up to the last decided one. -/
structure CommittedUpTo (V : G.View) (d : DagState) (last : Slot) (out : List CommittedSubDag) : Prop
    extends Committed G digest ctx V ((range' 1 last.round).filterMap (G.verdict elected)) d out where
  next : max 1 (firstRound elected last) = last.round + 1
  decided : ∀ k ∈ range' 1 last.round, (G.commitRule elected).Decided V k (G.verdict elected k) ∧
    ∃ b ∈ V.blocks, k + 2 ≤ b.round

/-- Runs of a validator: it accepts blocks that it has the ancestors of, flushes and commits. -/
inductive CoreRun : G.View → DagState → Slot → List CommittedSubDag → Prop
  -- The last decided leader is at first the slot of the first genesis block.
  | new {V d} : Joins G digest ctx → DagState.new ctx .empty = .ok d → V.blocks = ∅ →
      CoreRun V d ⟨genesisRound, 0⟩ []
  | acceptBlocks {V V' d d' last out now blocks} :
      CoreRun V d last out → d.acceptBlocks ctx now blocks = .ok d' →
      V'.blocks = blocks.foldl acceptInto V.blocks → CoreRun V' d' last out
  | flush {V d last out} : CoreRun V d last out → CoreRun V (d.flush ctx) last out
  | tryCommit {V d d' last last' out subdags} : CoreRun V d last out →
      Core.tryCommit ctx d (fun round _ => .ok (elected round)) last = .ok (last', d', subdags) →
        CoreRun V d' last' (out ++ subdags)

end

variable {G : GlobalDag committee genesis} {V V' : G.View} {digest : Commit → CommitDigest}
  {ctx ctx' : Context} {elected : ℕ → ℕ} {d d' : DagState} {leader : VerifiedBlock}

lemma GlobalDag.View.nodup_ancestors (V : G.View) : ∀ b ∈ V.blocks, b.ancestors.Nodup := fun b hb =>
  (G.wellFormed b (V.subset b hb)).nodup_authors.of_map

section TwoStates

variable (h : d.Refines ctx V.blocks) (h' : d'.Refines ctx' V'.blocks)
  (hrounds : d.lastCommittedRounds = d'.lastCommittedRounds)

include h h' hrounds

lemma searchStep_eq {s : Search} (hs : ∀ b ∈ s.buffer, b ∈ V.blocks ∧ b ∈ V'.blocks) :
    searchStep ctx d s = searchStep ctx' d' s := by
  unfold searchStep
  cases hbuffer : s.buffer with
  | nil => rfl
  | cons x buffer =>
    obtain ⟨hx, hx'⟩ := hs x (hbuffer ▸ mem_cons_self)
    set refs := newAncestors d.lastCommittedRounds s.committed x with hrefs
    have hlookup : ∀ r ∈ refs, d.requireBlock ctx r = d'.requireBlock ctx' r := by
      intro r hr
      simp only [hrefs, newAncestors, mem_filter, decide_eq_true_eq] at hr
      have hround : r.round ≠ genesisRound := (Nat.zero_lt_of_lt hr.2.2).ne'
      obtain ⟨p, hp, rfl⟩ := V.closed x hx r hr.1 hround
      obtain ⟨p', hp', he⟩ := V'.closed x hx' _ hr.1 hround
      obtain rfl := G.reference_inj p' (V'.subset p' hp') p (V.subset p hp) he
      rw [h.requireBlock_eq (.inr hp), h'.requireBlock_eq (.inr hp')]
    have hmapM : refs.mapM (d.requireBlock ctx) = refs.mapM (d'.requireBlock ctx') := by
      simpa [Function.comp_def] using congrArg (mapM id) (map_congr_left hlookup)
    simp only [← hrounds, ← hrefs, hmapM]

variable (hleader : leader ∈ V.blocks) (hleader' : leader ∈ V'.blocks)

include hleader hleader'

lemma collectBlocks_eq : collectBlocks ctx d leader = collectBlocks ctx' d' leader := by
  obtain ⟨found, hok, -⟩ := collectBlocks_total h V.closed V.nodup_ancestors hleader
  obtain ⟨found', hok', -⟩ := collectBlocks_total h' V'.closed V'.nodup_ancestors hleader'
  let I (s : Search) : Prop := Searching V.blocks d.lastCommittedRounds leader s ∧
    Searching V'.blocks d'.lastCommittedRounds leader s
  have heq : ∀ s, I s → searchStep ctx d s = searchStep ctx' d' s := fun s hs =>
    searchStep_eq h h' hrounds fun b hb =>
      ⟨hs.1.mem b (mem_append_right _ hb), hs.2.mem b (mem_append_right _ hb)⟩
  -- The two loops pass the same states, but their fuel differs.
  rw [hok, hok', loopM_unique I heq ?_ ⟨.start hleader, .start hleader'⟩ hok hok']
  intro s s' hs hstep
  cases hbuffer : s.buffer with
  | nil => simp [searchStep, hbuffer] at hstep
  | cons x buffer =>
    obtain ⟨t, ht, hsearch, -⟩ := hs.1.step h V.closed V.nodup_ancestors hbuffer
    obtain ⟨t', ht', hsearch', -⟩ := hs.2.step h' V'.closed V'.nodup_ancestors hbuffer
    cases hstep.symm.trans ht
    cases hstep.symm.trans ((heq s hs).trans ht')
    exact ⟨hsearch, hsearch'⟩

/-- The sub-dag of a leader depends on its history and the commits before it, and on
nothing else of the DAG. -/
lemma collectSubDagAndCommit_eq (hlast : d.lastCommit = d'.lastCommit)
    (hdigest : ctx.computeCommitDigest = ctx'.computeCommitDigest) :
    collectSubDagAndCommit ctx d leader = collectSubDagAndCommit ctx' d' leader := by
  simp only [collectSubDagAndCommit, collectBlocks_eq h h' hrounds hleader hleader', nextCommit,
    newTrusted, lastCommitIndex,
    lastCommitDigest, lastCommitTimestampMs, hlast, hdigest]

end TwoStates

namespace Linearizes

variable {leaders later : List VerifiedBlock} {subdags subdags' : List CommittedSubDag}
  {last last' : Option TrustedCommit}
  {rounds rounds' : ℕ → ℕ} {n : ℕ} (h : Linearizes G digest leaders subdags last rounds)

include h

lemma unique (h' : Linearizes G digest leaders subdags' last' rounds') :
    subdags = subdags' ∧ last = last' ∧ rounds = rounds' := by
  induction h generalizing subdags' last' rounds' with
  | nil =>
    cases h'
    exact ⟨rfl, rfl, rfl⟩
  | cons _ hdigest hrefines hmem hok ih =>
    cases h' with
    | cons h' hdigest' hrefines' hmem' hok' =>
      obtain ⟨rfl, hlast, hrounds⟩ := ih h'
      have hsame :=
        collectSubDagAndCommit_eq hrefines hrefines' hrounds hmem hmem' hlast
          (hdigest.trans hdigest'.symm)
      cases hok.symm.trans (hsame.trans hok')
      exact ⟨rfl, rfl, by rw [hrounds]⟩

lemma suffix (h' : Linearizes G digest (later ++ leaders) subdags' last' rounds') :
    subdags <:+ subdags' := by
  induction later generalizing subdags' last' rounds' with
  | nil => exact (h.unique h').1 ▸ suffix_rfl
  | cons leader later ih =>
    cases h' with
    | cons h' => exact (ih h').trans (suffix_cons _ _)

lemma round_le (hn : ∀ L ∈ leaders, L.round ≤ n) :
    (∀ a, rounds a ≤ n) ∧ ∀ commit ∈ last, commit.leader.round ≤ n := by
  induction h with
  | nil => simp
  | @cons _ d leader _ _ _ _ V _ _ hrefines hmem hok ih =>
    obtain ⟨hleader, hn⟩ := forall_mem_cons.mp hn
    obtain ⟨found, hfound, hok'⟩ := collectSubDagAndCommit_total hrefines V.closed V.nodup_ancestors hmem
    cases hok.symm.trans hok'
    refine ⟨fun a => raiseCommittedRounds_le_iff.mpr ⟨(ih hn).1 a, ?_⟩, ?_⟩
    · rintro r hr -
      obtain ⟨b, hb, rfl⟩ := mem_map.mp hr
      obtain rfl | hlt :=
        Linearized.round_lt_or_eq (fun b hb => G.wellFormed b (V.subset b hb)) hmem
          ((hfound.mem_iff b).mp hb)
      · exact hleader
      · exact hlt.le.trans hleader
    · rintro _ ⟨⟩
      exact hleader

end Linearizes

variable {leaders batch : List VerifiedBlock} {before acc : List CommittedSubDag}

lemma Committed.flush (h : Committed G digest ctx V leaders d before) :
    Committed G digest ctx V leaders (d.flush ctx) before := by
  obtain ⟨_, _, he⟩ : ∃ recentBlocks recentRefs, d.flush ctx = _ := flush_eq
  refine ⟨h.toJoins, h.refines.flush, ?_⟩
  rw [he]
  exact h.linearizes

lemma commitLeader_committed (h : Committed G digest ctx V leaders d (before ++ acc))
    (hleader : leader ∈ V.blocks) :
    ∃ d' subdag, commitLeader ctx (d, acc) leader = .ok (d', acc ++ [subdag]) ∧
      Committed G digest ctx V (leaders ++ [leader]) d' (before ++ (acc ++ [subdag])) := by
  obtain ⟨found, hfound, hcollect⟩ :=
    collectSubDagAndCommit_total h.refines V.closed V.nodup_ancestors hleader
  set commit := nextCommit ctx d leader found
  obtain ⟨d', hd'⟩ : ∃ d', d.addCommit commit = .ok d' := addCommit_total rfl (le_max_right _ _)
  refine ⟨d', .new leader.reference found commit.timestampMs commit.reference, ?_, h.toJoins,
    h.refines.addCommit (commitOf_nextCommit hfound hleader) hd', ?_⟩
  · rw [commitLeader, hcollect, ok_bind]
    dsimp only
    rw [hd']
    rfl
  · obtain ⟨-, hle⟩ | ⟨-, -, rfl⟩ := addCommit_eq_ok hd'
    · exact absurd hle (Nat.not_succ_le_self _)
    · rw [← append_assoc, reverse_append, reverse_append]
      exact h.linearizes.cons h.digest_eq h.refines hleader hcollect

lemma handleCommit_committed (h : Committed G digest ctx V leaders d before)
    (hbatch : ∀ L ∈ batch, L ∈ V.blocks) :
    ∃ d' subdags, handleCommit ctx d batch = .ok (d', subdags) ∧
      Committed G digest ctx V (leaders ++ batch) d' (before ++ subdags) := by
  obtain ⟨⟨d₁, subdags⟩, hok, h₁⟩ : ∃ state, batch.foldlM (commitLeader ctx) (d, []) = .ok state ∧
      Committed G digest ctx V (leaders ++ batch) state.1 (before ++ state.2) := by
    refine foldlM_total (fun done (state : DagState × List CommittedSubDag) =>
      Committed G digest ctx V (leaders ++ done) state.1 (before ++ state.2)) ?_ (by simpa using h)
    rintro done leader ⟨d₁, acc⟩ hleader h₁
    obtain ⟨d', subdag, hok, h'⟩ := commitLeader_committed h₁ (hbatch leader hleader)
    exact ⟨_, hok, by simpa using h'⟩
  rw [handleCommit, hok, ok_bind]
  refine ⟨_, subdags, rfl, ?_⟩
  split_ifs
  · exact h₁
  · exact h₁.flush

namespace GlobalDag

variable {k : ℕ} {v : Option VerifiedBlock}

lemma verdict_eq (h : (G.commitRule elected).Decided V k v) : G.verdict elected k = v := by
  obtain ⟨V', hV'⟩ :=
    Classical.epsilon_spec (p := fun v =>
      ∃ V : G.View, (G.commitRule elected).Decided V k v) ⟨v, V, h⟩
  exact (G.commitRule_safe elected).decided_unique hV' h

lemma View.decided_mono (hsub : V.blocks ⊆ V'.blocks) (h : (G.commitRule elected).Decided V k v) :
    (G.commitRule elected).Decided V' k v := by
  refine h.mono fun k v hv => ?_
  cases v with
  | none =>
    refine hv.mono fun i hi => ?_
    obtain ⟨b, hb, hi⟩ := View.mem_blamers.mp hi
    exact View.mem_blamers.mpr ⟨b, hsub hb, hi⟩
  | some b =>
    refine ⟨hsub hv.1, hv.2.1, hv.2.2.mono fun i hi => ?_⟩
    obtain ⟨c, hc, hi⟩ := View.mem_certifiers.mp hi
    exact View.mem_certifiers.mpr ⟨c, hsub hc, hi⟩

lemma filterMap_decision (l : List ℕ) :
    (l.map (G.decision elected)).filterMap intoCommittedBlock = l.filterMap
    (G.verdict elected) := by
  rw [filterMap_map]
  refine congrArg (filterMap · l) (funext fun k => ?_)
  rw [Function.comp, decision]
  cases G.verdict elected k <;> rfl

lemma slot_decision (h : (G.commitRule elected).Decided V k (G.verdict elected k)) :
    (G.decision elected k).slot = ⟨k, elected k⟩ := by
  unfold decision
  cases hv : G.verdict elected k with
  | none => rfl
  | some b => exact ((G.commitRule_safe elected).slotBlock_of_decided (hv ▸ h)).2

/-- A run of decided leaders is a piece of the one sequence of decisions. It ends where
the view is undecided. -/
lemma View.decidedRun_eq (V : G.View) (elected : ℕ → ℕ) (s n : ℕ) :
    ∃ m ≤ n, decidedRun (V.decidedLeader? elected) s n = (range' s m).map (G.decision elected) ∧
      (∀ k ∈ range' s m, (G.commitRule elected).Decided V k (G.verdict elected k)) ∧
      ∀ v, (G.commitRule elected).Decided V (s + m) v → n ≤ m := by
  induction n generalizing s with
  | zero => exact ⟨0, le_rfl, rfl, by simp, fun _ _ => le_rfl⟩
  | succ n ih =>
    rw [decidedRun]
    cases hx : V.decidedLeader? elected s with
    | none =>
      refine ⟨0, Nat.zero_le _, rfl, by simp, fun v hv => ?_⟩
      cases hx.symm.trans (View.decidedLeader?_eq_some_iff.mpr ⟨v, hv, rfl⟩)
    | some x =>
      obtain ⟨m, hm, hrun, hdecided, hstop⟩ := ih (s + 1)
      obtain ⟨v, hv, rfl⟩ := View.decidedLeader?_eq_some_iff.mp hx
      obtain rfl := verdict_eq hv
      refine ⟨m + 1, Nat.succ_le_succ hm, by rw [range'_succ, map_cons, hrun]; rfl, ?_, fun v hv' => ?_⟩
      · rw [range'_succ]
        exact forall_mem_cons.mpr ⟨hv, hdecided⟩
      · rw [← Nat.add_assoc, Nat.add_right_comm] at hv'
        exact Nat.succ_le_succ (hstop v hv')

end GlobalDag

variable {last last' : Slot} {out out' : List CommittedSubDag}

namespace CommittedUpTo

lemma presents {G : GlobalDag ctx.committee (genesisRefs ctx)} {V : G.View}
    (h : CommittedUpTo G digest ctx elected V d last out) :
    d.Presents V last.round := by
  obtain ⟨hrounds, hcommit⟩ := h.linearizes.round_le (n := last.round) (by
    intro L hL
    obtain ⟨k, hk, hL⟩ := mem_filterMap.mp (mem_reverse.mp hL)
    have hround : L.round = k :=
      congrArg Slot.round ((G.commitRule_safe elected).slotBlock_of_decided
        (hL ▸ (h.decided k hk).1)).2
    have := mem_range'_1.mp hk
    omega)
  refine ⟨h.refines, fun b hb hle => ?_, ?_⟩
  · have := h.refines.acceptable.round_pos b hb
    have := hrounds b.author
    have := h.refines.cachedRounds_eq
    have := h.cached
    rw [authorityEvictionRound, evictionRound]
    omega
  · unfold lastCommitRound
    split
    · exact hcommit _ ‹_›
    · exact Nat.zero_le _

variable (h : CommittedUpTo G digest ctx elected V d last out)

include h

lemma exists_last {m : ℕ} (hdecided : ∀ k ∈ range' (last.round + 1) m,
      (G.commitRule elected).Decided V k (G.verdict elected k)) :
    ∃ last', (((range' (last.round + 1) m).map (G.decision elected)).map
      DecidedLeader.slot).getLastD last = last' ∧
      last'.round = last.round + m ∧ max 1 (firstRound elected last') = last'.round + 1 := by
  cases m with
  | zero => exact ⟨last, rfl, rfl, h.next⟩
  | succ m =>
    have hslot :=
      GlobalDag.slot_decision (hdecided (last.round + 1 + m)
        (mem_range'_1.mpr ⟨by omega, by omega⟩))
    refine ⟨⟨last.round + 1 + m, elected (last.round + 1 + m)⟩, ?_, Nat.add_right_comm _ _ _, ?_⟩
    · rw [range'_1_concat, map_append, map_append, map_singleton, map_singleton, getLastD_concat, hslot]
    · rw [firstRound, if_pos rfl]
      exact max_eq_right (Nat.succ_pos _)

/-- Committing goes on to the first round that is undecided, or has no round two above it yet. -/
lemma tryCommit :
    ∃ last' d' subdags, Core.tryCommit ctx d (fun round _ => .ok (elected round)) last =
      .ok (last', d', subdags) ∧
    CommittedUpTo G digest ctx elected V d' last' (out ++ subdags) ∧
    ∀ v, (G.commitRule elected).Decided V (last'.round + 1) v →
      ∀ b ∈ V.blocks, b.round ≤ last'.round + 2 := by
  obtain ⟨rfl, rfl, -, -, -⟩ := h.toJoins
  have hdecide : pipelined.tryDecide ctx d (fun round _ => .ok (elected round)) last = _ :=
    tryDecide_eq h.presents (fun _ _ _ => rfl)
  obtain ⟨m, hm, hrun, hdecided, hstop⟩ :=
    V.decidedRun_eq elected (last.round + 1) (d.highestAcceptedRound - 2 + 1 - (last.round + 1))
  rw [h.next, hrun] at hdecide
  have hmem : ∀ L ∈ (range' (last.round + 1) m).filterMap (G.verdict elected), L ∈ V.blocks := by
    intro L hL
    obtain ⟨k, hk, hL⟩ := mem_filterMap.mp hL
    exact V.mem_of_decided (hL ▸ hdecided k hk)
  obtain ⟨d', subdags, hok, hcommitted⟩ := handleCommit_committed h.toCommitted hmem
  rw [← filterMap_append, Nat.add_comm last.round, range'_append_1] at hcommitted
  refine ⟨_, d', subdags,
    by rw [Core.tryCommit, hdecide, ok_bind, GlobalDag.filterMap_decision, hok, ok_bind]; rfl, ?_⟩
  obtain ⟨last', hlast', hround, hnext⟩ := h.exists_last hdecided
  rw [hlast']
  refine ⟨⟨hround ▸ hcommitted, hnext, fun k hk => ?_⟩, fun v hv b hb => ?_⟩
  · rw [hround, ← range'_append_1, Nat.add_comm 1] at hk
    rcases mem_append.mp hk with hk | hk
    · exact h.decided k hk
    · have := mem_range'_1.mp hk
      obtain ⟨b, hb, hround⟩ := h.refines.highest_mem (by omega)
      exact ⟨hdecided k hk, b, hb, by omega⟩
  · rw [hround, Nat.add_right_comm] at hv
    have := hstop v hv
    have := h.refines.highest_ge b hb
    omega

lemma initial_of_le (h' : CommittedUpTo G digest ctx' elected V' d' last' out')
    (hle : last.round ≤ last'.round) : out <+: out' := by
  have hlin' := h'.linearizes
  rw [← Nat.add_sub_cancel' hle, ← range'_append_1, filterMap_append, reverse_append] at hlin'
  exact reverse_suffix.mp (h.linearizes.suffix hlin')

end CommittedUpTo

lemma CoreRun.committedUpTo (hrun : CoreRun G digest ctx elected V d last out) :
    CommittedUpTo G digest ctx elected V d last out := by
  induction hrun with
  | new hjoins hnew hempty =>
    have hlog := CommitLog.new_empty hnew
    refine ⟨⟨hjoins, hempty ▸ (DagRun.start hnew).refines hjoins.cached, ?_⟩, ?_, by simp [genesisRound]⟩
    · rw [hlog.lastCommit_eq, hlog.rounds_eq]
      exact .nil
    · unfold firstRound
      split_ifs <;> rfl
  | acceptBlocks _ haccept hblocks ih =>
    have hsame := sameCommits_acceptBlocks haccept
    have hsub := hblocks ▸ subset_foldl_acceptInto
    refine ⟨⟨ih.toJoins, hblocks ▸ ih.refines.acceptBlocks
      (ih.refines.cacheReachesCommits ih.cached) haccept, ?_⟩, ih.next, fun k hk => ?_⟩
    · rw [hsame.lastCommit, hsame.lastCommittedRounds]
      exact ih.linearizes
    · obtain ⟨hdecided, b, hb, hround⟩ := ih.decided k hk
      exact ⟨GlobalDag.View.decided_mono hsub hdecided, b, hsub hb, hround⟩
  | flush _ ih => exact ⟨ih.toCommitted.flush, ih.next, ih.decided⟩
  | tryCommit _ hok ih =>
    obtain ⟨_, _, _, hok', h, -⟩ := ih.tryCommit
    cases hok.symm.trans hok'
    exact h

/-- Any two validators commit the same sub-dags, one possibly more of them, in whatever order they
accept blocks and whenever they commit. -/
theorem tryCommit_agreement (hrun : CoreRun G digest ctx elected V d last out)
    (hrun' : CoreRun G digest ctx' elected V' d' last' out') :
    out <+: out' ∨ out' <+: out :=
  (le_total last.round last'.round).imp (hrun.committedUpTo.initial_of_le hrun'.committedUpTo)
    (hrun'.committedUpTo.initial_of_le hrun.committedUpTo)

/-- Committing never fails. After it a validator has committed all that was ever committed from
a part of its blocks. -/
theorem tryCommit_complete (hrun : CoreRun G digest ctx elected V d last out)
    (hrun' : CoreRun G digest ctx' elected V' d' last' out') (hsub : V.blocks ⊆ V'.blocks) :
    ∃ next e subdags, Core.tryCommit ctx' d' (fun round _ => .ok (elected round)) last' =
      .ok (next, e, subdags) ∧ out <+: out' ++ subdags := by
  have h := hrun.committedUpTo
  obtain ⟨next, e, subdags, hok, h', hstop⟩ := hrun'.committedUpTo.tryCommit
  refine ⟨next, e, subdags, hok, h.initial_of_le h' (not_lt.mp fun hlt => ?_)⟩
  obtain ⟨hdecided, b, hb, hround⟩ := h.decided (next.round + 1) (mem_range'_1.mpr ⟨by omega, by omega⟩)
  have := hstop _ (GlobalDag.View.decided_mono hsub hdecided) b (hsub hb)
  omega

namespace fourAuthorities

def unscored : Context := { fourAuthorities with mysticetiLeaderScoringAndSchedule := false }

def threeRounds : Finset VerifiedBlock := (fullRounds 3).foldl acceptInto ∅

/-- A validator with three full rounds before and after it commits the leader of round 1. -/
structure CommitsOne (G : GlobalDag unscored.committee (genesisRefs unscored)) (V : G.View)
    (d d' : DagState) (last : Slot) (out : List CommittedSubDag) : Prop where
  before : CoreRun G unscored.computeCommitDigest unscored (· % 4) V d ⟨0, 0⟩ []
  after : CoreRun G unscored.computeCommitDigest unscored (· % 4) V d' last out
  length : out.length = 1

lemma exists_commitsOne : ∃ G V d d' last out, CommitsOne G V d d' last out := by
  have hclosed : ∀ b ∈ threeRounds,
      ∀ r ∈ b.ancestors, r.round ≠ genesisRound → ∃ p ∈ threeRounds, p.reference = r := by
    decide +kernel
  have hslots : ∀ b ∈ threeRounds, ∀ b' ∈ threeRounds, b.slot = b'.slot → b = b' := by decide +kernel
  have hverified : ∀ b ∈ threeRounds,
      SignedBlockVerifier.verify ⟨unscored, fun _ => true, fun _ => true⟩
    b.toSignedBlock = .ok () := by
    decide +kernel
  let G : GlobalDag unscored.committee (genesisRefs unscored) :=
    { blocks := {b | b ∈ threeRounds}, faulty := ∅, closed := hclosed, faulty_stake := by decide
      reference_inj := fun b hb b' hb' he => hslots b hb b' hb' (congrArg BlockRef.slot he)
      no_equivocation := fun b hb b' hb' _ => hslots b hb b' hb'
      wellFormed := fun b hb => SignedBlockVerifier.wellFormed_of_verify (hverified b hb) }
  obtain ⟨⟨last, d', out⟩, hok, hlength⟩ := exists_of_returns (p := fun r => r.2.2.length = 1) (x := do
    let d ← DagState.new unscored .empty
    let d ← d.acceptBlocks unscored 100 (fullRounds 3)
    Core.tryCommit unscored d (fun round _ => .ok (round % 4)) ⟨0, 0⟩) (by decide +kernel)
  simp only [bind_eq_ok] at hok
  obtain ⟨d₀, hnew, d, haccept, hok⟩ := hok
  have hrun : CoreRun G _ unscored (· % 4) ⟨threeRounds, fun _ hb => hb, hclosed⟩ d ⟨0, 0⟩ [] :=
    .acceptBlocks (.new (V := ⟨∅, by simp, by simp [AncestorClosed]⟩)
      ⟨rfl, rfl, rfl, rfl, by decide⟩ hnew rfl) haccept
      (by dsimp only [threeRounds])
  exact ⟨G, _, d, d', last, out, hrun, hrun.tryCommit hok, by simpa using hlength⟩

/-- One view has committed a leader, the other none. -/
theorem tryCommit_agreement_threeRounds :
    ∃ G V d d' last out, CommitsOne G V d d' last out ∧ ([] <+: out ∨ out <+: []) := by
  obtain ⟨G, V, d, d', last, out, h⟩ := exists_commitsOne
  exact ⟨G, V, d, d', last, out, h, tryCommit_agreement h.before h.after⟩

/-- A view with all the blocks commits the leader, too. -/
theorem tryCommit_complete_threeRounds : ∃ G V d d' last out, CommitsOne G V d d' last out ∧
    ∃ next e subdags, Core.tryCommit unscored d (fun round _ => .ok (round % 4)) ⟨0, 0⟩ =
      .ok (next, e, subdags) ∧ out <+: [] ++ subdags := by
  obtain ⟨G, V, d, d', last, out, h⟩ := exists_commitsOne
  exact ⟨G, V, d, d', last, out, h, tryCommit_complete h.after h.before subset_rfl⟩

end fourAuthorities

end SuiProofs.Consensus

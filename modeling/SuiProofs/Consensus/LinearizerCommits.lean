import SuiProofs.Consensus.Linearizer

namespace SuiProofs.Consensus

open Library Relation DagState List Option VerifiedBlock

namespace Linearizer

def handleCommits (ctx : Context) (d : DagState) (batches : List (List VerifiedBlock)) :
    Except Panic (DagState × List CommittedSubDag) :=
  batches.foldlM (fun state batch => do
    let (d, subdags) ← handleCommit ctx state.1 batch
    return (d, state.2 ++ subdags)) (d, [])

end Linearizer

/-- The sub-dag and the commit of a leader, after the commits `before`. -/
structure CommitFor (ctx : Context) (S : Set VerifiedBlock) (before : List TrustedCommit)
    (leader : VerifiedBlock) (subdag : CommittedSubDag) (commit : TrustedCommit) : Prop where
  subDagOf : SubDagOf S (committedRounds before) leader subdag.blocks
  leader_eq : subdag.leader = leader.reference
  commitRef_eq : subdag.commitRef = commit.reference
  commit_eq : commit = Linearizer.newTrusted ctx ⟨before.length + 1, previousDigest before,
    subdag.timestampMs,
    leader.reference, subdag.blocks.map VerifiedBlock.reference⟩

/-- One subdag and one commit for each leader, in order. -/
structure Linearized (ctx : Context) (S : Set VerifiedBlock) (leaders : List VerifiedBlock)
    (subdags : List CommittedSubDag) (commits : List TrustedCommit) : Prop where
  subdags_length : subdags.length = leaders.length
  commits_length : commits.length = leaders.length
  commitFor : ∀ (i : ℕ) (leader : VerifiedBlock) (subdag : CommittedSubDag) (commit : TrustedCommit),
    leaders[i]? = some leader → subdags[i]? = some subdag → commits[i]? = some commit →
      CommitFor ctx S (commits.take i) leader subdag commit

variable {ctx : Context} {leaders : List VerifiedBlock} {subdags : List CommittedSubDag}
  {commits : List TrustedCommit}

namespace Linearized

variable {S : Set VerifiedBlock} {leader b : VerifiedBlock} {subdag : CommittedSubDag}
  {commit : TrustedCommit}

lemma nil : Linearized ctx S [] [] [] := ⟨rfl, rfl, by simp⟩

section

variable (h : Linearized ctx S leaders subdags commits)

include h

lemma snoc (hc : CommitFor ctx S commits leader subdag commit) :
    Linearized ctx S (leaders ++ [leader]) (subdags ++ [subdag]) (commits ++ [commit]) := by
  refine ⟨by simp [h.subdags_length], by simp [h.commits_length], ?_⟩
  intro i leader' subdag' commit' hl hs hcm
  rcases lt_trichotomy i leaders.length with hi | rfl | hi
  · have hi' := h.commits_length ▸ hi
    rw [getElem?_append_left hi] at hl
    rw [getElem?_append_left (h.subdags_length ▸ hi)] at hs
    rw [getElem?_append_left hi'] at hcm
    rw [take_append_of_le_length hi'.le]
    exact h.commitFor i _ _ _ hl hs hcm
  · rw [getElem?_concat_length] at hl
    rw [← h.subdags_length, getElem?_concat_length] at hs
    rw [← h.commits_length, getElem?_concat_length] at hcm
    rw [← h.commits_length, take_left, ← some.inj hl, ← some.inj hs, ← some.inj hcm]
    exact hc
  · rw [getElem?_eq_none (by simp; omega)] at hl
    cases hl

lemma take (n : ℕ) :
    Linearized ctx S (leaders.take n) (subdags.take n) (commits.take n) := by
  refine ⟨by simp [h.subdags_length], by simp [h.commits_length], ?_⟩
  intro i leader subdag commit hl hs hc
  rw [getElem?_take] at hl hs hc
  split_ifs at hl hs hc with hi
  rw [take_take, min_eq_left hi.le]
  exact h.commitFor i _ _ _ hl hs hc

lemma exists_entry {i : ℕ} (hi : i < leaders.length) :
    ∃ leader subdag commit, leaders[i]? = some leader ∧ subdags[i]? = some subdag ∧
      commits[i]? = some commit ∧ CommitFor ctx S (commits.take i) leader subdag commit := by
  have hl := getElem?_eq_getElem hi
  have hs := getElem?_eq_getElem (h.subdags_length ▸ hi)
  have hc := getElem?_eq_getElem (h.commits_length ▸ hi)
  exact ⟨_, _, _, hl, hs, hc, h.commitFor i _ _ _ hl hs hc⟩

lemma of_leader {i : ℕ} (hl : leaders[i]? = some leader) :
    ∃ subdag commit, subdags[i]? = some subdag ∧
      CommitFor ctx S (commits.take i) leader subdag commit := by
  obtain ⟨_, subdag, commit, hl', hs, -, hfor⟩ := h.exists_entry (List.getElem?_eq_some_iff.mp hl).1
  obtain rfl := some.inj (hl.symm.trans hl')
  exact ⟨subdag, commit, hs, hfor⟩

lemma of_subdag {i : ℕ} (hs : subdags[i]? = some subdag) :
    ∃ leader commit, leaders[i]? = some leader ∧ commits[i]? = some commit ∧
      CommitFor ctx S (commits.take i) leader subdag commit := by
  have hi := (List.getElem?_eq_some_iff.mp hs).1
  obtain ⟨leader, _, commit, hl, hs', hc, hfor⟩ := h.exists_entry (h.subdags_length ▸ hi)
  obtain rfl := some.inj (hs.symm.trans hs')
  exact ⟨leader, commit, hl, hc, hfor⟩

lemma exists_of_mem_commits (hc : commit ∈ commits) {r : BlockRef} (hr : r ∈ commit.blocks) :
    ∃ (i : ℕ) (subdag : CommittedSubDag), subdags[i]? = some subdag ∧
      ∃ b ∈ subdag.blocks, b.reference = r := by
  obtain ⟨i, hi⟩ := List.getElem?_of_mem hc
  have hlt := (List.getElem?_eq_some_iff.mp hi).1
  obtain ⟨leader, subdag, commit', hl, hs, hc', hfor⟩ := h.exists_entry (h.commits_length ▸ hlt)
  obtain rfl := some.inj (hi.symm.trans hc')
  rw [hfor.commit_eq] at hr
  exact ⟨i, subdag, hs, mem_map.mp hr⟩

lemma round_le {i j : ℕ} (hs : subdags[i]? = some subdag)
    (hb : b ∈ subdag.blocks) (hij : i < j) : b.round ≤ committedRounds (commits.take j) b.author := by
  obtain ⟨leader, commit, -, hc, hfor⟩ := h.of_subdag hs
  have hmem : commit ∈ commits.take j := mem_of_getElem? (i := i) (by rw [getElem?_take, if_pos hij, hc])
  refine committedRounds_le_iff.mp le_rfl commit hmem b.reference ?_ rfl
  rw [hfor.commit_eq]
  exact mem_map_of_mem hb

end

section Blocks

variable {committee : Committee} {genesis : List BlockRef}
  (hwf : ∀ b ∈ S, WellFormed committee genesis b.toBlock) (hleaders : ∀ L ∈ leaders, L ∈ S)

include hwf in
lemma round_lt_or_eq {x y : VerifiedBlock} {rounds : ℕ → ℕ} (hx : x ∈ S)
    (hxy : ReflTransGen (UncommittedLink S rounds) x y) : y = x ∨ y.round < x.round := by
  have hhist : ReflTransGen (LinksTo S) x y := ReflTransGen.mono (fun _ _ hlink => hlink.1) _ _ hxy
  exact (reflTransGen_iff_eq_or_transGen.mp hhist).imp_right (round_lt_of_reaches hwf hx)

section

variable (h : Linearized ctx S leaders subdags commits)
  (hrs : leaders.Pairwise (fun L L' => L.round ≤ L'.round)) (hslots : (leaders.map slot).Nodup)

include h hrs hslots

include hwf hleaders in
lemma leader_uncommitted
    {j : ℕ} (hl : leaders[j]? = some leader) :
    committedRounds (commits.take j) leader.author < leader.round := by
  have hpos := (hwf leader (hleaders leader (mem_of_getElem? hl))).round_pos
  suffices committedRounds (commits.take j) leader.author ≤ leader.round - 1 by omega
  rw [committedRounds_le_iff]
  intro c hc r hr hau
  obtain ⟨i, subdag, hs, b, hb, rfl⟩ := (h.take j).exists_of_mem_commits hc hr
  rw [getElem?_take] at hs
  split_ifs at hs with hij
  obtain ⟨_, _, hl', _, hfor⟩ := h.of_subdag hs
  have hrch := (hfor.subDagOf.mem_iff b).mp hb
  obtain ⟨hi, rfl⟩ := List.getElem?_eq_some_iff.mp hl'
  obtain ⟨hj, rfl⟩ := List.getElem?_eq_some_iff.mp hl
  have hle := pairwise_iff_getElem.mp hrs i j hi hj hij
  have hne := pairwise_iff_getElem.mp (pairwise_map.mp hslots) i j hi hj hij
  simp only [reference_author, reference_round] at hau ⊢
  rcases round_lt_or_eq hwf (hleaders _ (getElem_mem hi)) hrch with rfl | hlt
  · have : leaders[i].round ≠ leaders[j].round := fun he => hne (by rw [slot, he, hau]; rfl)
    omega
  · omega

include hwf hleaders in
lemma disjoint {i j : ℕ} (hij : i < j) {subdag' : CommittedSubDag} (hs : subdags[i]? = some subdag)
    (hs' : subdags[j]? = some subdag') (hb : b ∈ subdag.blocks) : b ∉ subdag'.blocks := by
  intro hb'
  have hle := h.round_le hs hb hij
  obtain ⟨leader, _, hl, _, hfor⟩ := h.of_subdag hs'
  rcases ((hfor.subDagOf.mem_iff b).mp hb').cases_tail with rfl | ⟨_, _, hlink⟩
  · exact absurd (h.leader_uncommitted hwf hleaders hrs hslots hl) (not_lt.mpr hle)
  · exact absurd hlink.2 (not_lt.mpr hle)

end

lemma exists_committed (h : Linearized ctx S leaders subdags commits) {a n : ℕ} (hn : 0 < n)
    (hle : n ≤ committedRounds commits a) :
    ∃ s ∈ subdags, ∃ m ∈ s.blocks, m.author = a ∧ n ≤ m.round := by
  by_contra hnone
  push Not at hnone
  have hbel : committedRounds commits a ≤ n - 1 := by
    rw [committedRounds_le_iff]
    intro c hc r hr hau
    obtain ⟨i, subdag, hs, m, hm, rfl⟩ := h.exists_of_mem_commits hc hr
    have := hnone subdag (mem_of_getElem? hs) m hm hau
    simp only [reference_round]
    omega
  omega

lemma mem_of_history {x y : VerifiedBlock} (hx : x ∈ S) (h : ReflTransGen (LinksTo S) x y) : y ∈ S := by
  rcases h.cases_tail with rfl | ⟨_, _, hlink⟩
  · exact hx
  · exact hlink.1

include hwf hleaders in
lemma mem_take_iff_history (h : Linearized ctx S leaders subdags commits)
    (hch : ∀ b ∈ S, ∀ b' ∈ S, b.author = b'.author → b = b' ∨ Reaches S b b' ∨ Reaches S b' b) (n : ℕ) :
    (∃ s ∈ subdags.take n, b ∈ s.blocks) ↔ ∃ L ∈ leaders.take n, ReflTransGen (LinksTo S) L b := by
  induction n generalizing b with
  | zero => simp
  | succ n ih =>
    by_cases hn : n < leaders.length
    · obtain ⟨leader, subdag, commit, hl, hs, -, hfor⟩ := h.exists_entry hn
      rw [take_add_one, take_add_one, hl, hs]
      simp only [toList_some, mem_append, mem_singleton, or_and_right, exists_or, exists_eq_left, ih,
        hfor.subDagOf.mem_iff]
      constructor
      · rintro (hold | hr)
        · exact .inl hold
        · exact .inr (ReflTransGen.mono (fun _ _ hlink => hlink.1) _ _ hr)
      · rintro (hold | hr)
        · exact .inl hold
        induction hr with
        | refl => exact .inr .refl
        | @tail x y hx hlink ihx =>
          rcases ihx with ⟨L, hL, hLx⟩ | hx
          · exact .inl ⟨L, hL, hLx.tail hlink⟩
          by_cases hrd : committedRounds (commits.take n) y.author < y.round
          · exact .inr (hx.tail ⟨hlink, hrd⟩)
          -- The search stops at `y`, below a committed block of the same author.
          left
          obtain ⟨s, hsn, m, hm, hau, hle⟩ :=
            (h.take n).exists_committed (hwf y hlink.1).round_pos (not_lt.mp hrd)
          obtain ⟨L, hL, hLm⟩ := ih.mp ⟨s, hsn, hm⟩
          have hmS := mem_of_history (hleaders L (mem_of_mem_take hL)) hLm
          rcases hch m hmS y hlink.1 hau with rfl | hmy | hym
          · exact ⟨L, hL, hLm⟩
          · exact ⟨L, hL, hLm.trans hmy.to_reflTransGen⟩
          · have := round_lt_of_reaches hwf hlink.1 hym
            omega
    · rw [take_of_length_le (by rw [h.subdags_length]; omega), take_of_length_le (by omega)]
      rw [take_of_length_le (by rw [h.subdags_length]; omega), take_of_length_le (by omega)] at ih
      exact ih

end Blocks

end Linearized

namespace Linearizer

variable {d d' : DagState} {A : Finset VerifiedBlock} {leader : VerifiedBlock}

variable (ctx A) in
/-- The loop over the leaders, after those given. -/
structure Committing (leaders : List VerifiedBlock) (d : DagState)
    (subdags : List CommittedSubDag) : Prop where
  refines : d.Refines ctx A
  log : ∃ commits, d.CommitLog commits ∧ Linearized ctx ↑A leaders subdags commits

lemma commitOf_nextCommit {rounds : ℕ → ℕ} {blocks : List VerifiedBlock}
    (h : SubDagOf ↑A rounds leader blocks)
    (hleader : leader ∈ A) : CommitOf A (nextCommit ctx d leader blocks).toCommit where
  blocks r hr := by
    obtain ⟨b, hb, rfl⟩ := mem_map.mp hr
    refine ⟨b, ?_, rfl⟩
    rcases ((h.mem_iff b).mp hb).cases_tail with rfl | ⟨_, _, hlink⟩
    · exact hleader
    · exact hlink.1.1
  leader_mem := mem_map_of_mem ((h.mem_iff leader).mpr .refl)

section Total

variable (hclosed : AncestorClosed (↑A : Set VerifiedBlock)) (hnodup : ∀ b ∈ A, b.ancestors.Nodup)

include hclosed hnodup

lemma commitLeader_total {acc before : List CommittedSubDag}
    (h : Committing ctx A leaders d (before ++ acc))
    (hleader : leader ∈ A) : ∃ d' subdag, commitLeader ctx (d, acc) leader = .ok (d', acc ++ [subdag]) ∧
      Committing ctx A (leaders ++ [leader]) d' (before ++ (acc ++ [subdag])) := by
  obtain ⟨commits, hlog, hlin⟩ := h.log
  obtain ⟨blocks, hbs, hcollect⟩ := collectSubDagAndCommit_total h.refines hclosed hnodup hleader
  obtain ⟨d', hd'⟩ : ∃ d', d.addCommit (nextCommit ctx d leader blocks) = .ok d' :=
    addCommit_total rfl (le_max_right _ _)
  have hok : commitLeader ctx (d, acc) leader = .ok (d', acc ++ [.new leader.reference blocks
      (max leader.timestampMs d.lastCommitTimestampMs) (nextCommit ctx d leader blocks).reference]) := by
    rw [commitLeader, hcollect, ok_bind]
    change (d.addCommit (nextCommit ctx d leader blocks) >>= _) = _
    rw [hd']
    rfl
  refine ⟨d', _, hok, ?_, ?_⟩
  · exact h.refines.addCommit (commitOf_nextCommit hbs hleader) hd'
  · refine ⟨commits ++ [nextCommit ctx d leader blocks], hlog.addCommit rfl hd', ?_⟩
    rw [← append_assoc]
    refine hlin.snoc ⟨hlog.rounds_eq ▸ hbs, rfl, rfl, ?_⟩
    rw [nextCommit, hlog.lastCommitIndex_eq, hlog.lastCommitDigest_eq]
    rfl

lemma handleCommit_total {before : List CommittedSubDag} (h : Committing ctx A leaders d before)
    (hw : d.commitsToWrite = []) {batch : List VerifiedBlock} (hbatch : ∀ L ∈ batch, L ∈ A) :
    ∃ d' subdags, handleCommit ctx d batch = .ok (d', subdags) ∧
      Committing ctx A (leaders ++ batch) d' (before ++ subdags) ∧ d'.commitsToWrite = [] := by
  obtain ⟨⟨d₁, subdags⟩, hfold, h₁, hlen, hkeep⟩ :
    ∃ state, batch.foldlM (commitLeader ctx) (d, []) = .ok state ∧
      Committing ctx A (leaders ++ batch) state.1 (before ++ state.2) ∧ state.2.length = batch.length ∧
        (batch = [] → state.1 = d) := by
    refine foldlM_total (fun done (state : DagState × List CommittedSubDag) =>
      Committing ctx A (leaders ++ done) state.1 (before ++ state.2) ∧
      state.2.length = done.length ∧ (done = [] → state.1 = d)) ?_ ⟨by simpa using h, rfl, fun _ => rfl⟩
    rintro done leader ⟨d₁, acc⟩ hleader ⟨h₁, hlen, _⟩
    obtain ⟨d', subdag, hok, h'⟩ := commitLeader_total hclosed hnodup h₁ (hbatch leader hleader)
    exact ⟨_, hok, by simpa using h', by simpa using hlen, by simp⟩
  rw [handleCommit, hfold, ok_bind]
  dsimp only at h₁ hlen hkeep ⊢
  by_cases hemp : subdags = []
  · obtain rfl : batch = [] := by simpa [hemp] using hlen.symm
    exact ⟨d₁, subdags, by simp [hemp], h₁, hkeep rfl ▸ hw⟩
  · obtain ⟨commits, hlog, hlin⟩ := h₁.log
    exact ⟨d₁.flush ctx, subdags, by simp [hemp], ⟨h₁.refines.flush, commits, hlog.flush, hlin⟩, by simp⟩

lemma handleCommits_total {batches : List (List VerifiedBlock)} (hrefines : d.Refines ctx A)
    (hnone : d.CommitLog []) (hbatches : ∀ L ∈ batches.flatten, L ∈ A) :
    ∃ d' subdags, handleCommits ctx d batches = .ok (d', subdags) ∧
      Committing ctx A batches.flatten d' subdags ∧ d'.commitsToWrite = [] := by
  suffices hrun : ∃ state, handleCommits ctx d batches = .ok state ∧
      Committing ctx A batches.flatten state.1 state.2 ∧ state.1.commitsToWrite = [] by
    obtain ⟨⟨d', subdags⟩, hstate⟩ := hrun
    exact ⟨d', subdags, hstate⟩
  have hw : d.commitsToWrite = [] := by
    obtain ⟨stored, he, _⟩ := hnone.stored
    exact (append_eq_nil_iff.mp he.symm).2
  refine foldlM_total (fun done (state : DagState × List CommittedSubDag) =>
    Committing ctx A done.flatten state.1 state.2 ∧ state.1.commitsToWrite = []) ?_
      ⟨⟨hrefines, [], hnone, .nil⟩, hw⟩
  rintro done batch ⟨d₁, acc⟩ hbatch ⟨h₁, hw₁⟩
  obtain ⟨d₂, subdags, hok, h₂, hw₂⟩ := handleCommit_total hclosed hnodup h₁ hw₁
    (fun L hL => hbatches L (mem_flatten.mpr ⟨batch, hbatch, hL⟩))
  exact ⟨_, by rw [hok, ok_bind]; rfl, by simpa using h₂, hw₂⟩

end Total

end Linearizer

def UncommittedPath (S : Set VerifiedBlock) (rounds : ℕ → ℕ) (leader b : VerifiedBlock) : Prop :=
  rounds leader.author < leader.round ∧ ReflTransGen (UncommittedLink S rounds) leader b

/-- Leaders of distinct slots with non-decreasing rounds are committed in any batching: every
sub-dag holds what its leader reaches above the committed rounds, no block is committed twice,
the blocks of authors that build chains are all committed, and the commits form a chain. -/
theorem handleCommits_exactlyOnce {v : SignedBlockVerifier} {V : Finset VerifiedBlock} {d : DagState}
    (hverified : ∀ b ∈ V, v.verify b.toSignedBlock = .ok ())
    (hclosed : AncestorClosed (↑V : Set VerifiedBlock))
    (hrefines : d.Refines v.context V) (hnone : d.CommitLog [])
    (batches : List (List VerifiedBlock)) (hleaders : ∀ L ∈ batches.flatten, L ∈ V)
    (hrounds : batches.flatten.Pairwise (fun L L' => L.round ≤ L'.round))
    (hslots : (batches.flatten.map VerifiedBlock.slot).Nodup) :
    ∃ d' subdags commits, Linearizer.handleCommits v.context d batches = .ok (d', subdags) ∧
      d'.store.scanCommits ⟨1, batches.flatten.length + 1⟩ = commits ∧
      subdags.length = batches.flatten.length ∧ commits.length = batches.flatten.length ∧
      d'.lastCommittedRounds = committedRounds commits ∧
      (∀ (i : ℕ) (leader : VerifiedBlock) (subdag : CommittedSubDag), batches.flatten[i]? = some leader →
        subdags[i]? = some subdag →
        subdag.leader = leader.reference ∧ subdag.blocks.Nodup ∧
          subdag.blocks.Pairwise (fun a b =>
            a.round < b.round ∨ a.round = b.round ∧ a.author ≤ b.author) ∧
          ∀ b, b ∈ subdag.blocks ↔ UncommittedPath ↑V (committedRounds (commits.take i)) leader b) ∧
      (∀ (i j : ℕ) (subdag subdag' : CommittedSubDag), i ≠ j → subdags[i]? = some subdag →
        subdags[j]? = some subdag' →
        ∀ b ∈ subdag.blocks, b ∉ subdag'.blocks) ∧
      ((∀ b ∈ V, ∀ b' ∈ V, b.author = b'.author → b = b' ∨ Reaches ↑V b b' ∨ Reaches ↑V b' b) →
        ∀ (i : ℕ) (b : VerifiedBlock), (∃ s ∈ subdags.take i, b ∈ s.blocks) ↔
          ∃ L ∈ batches.flatten.take i, ReflTransGen (LinksTo ↑V) L b) ∧
      (∀ (i : ℕ) (subdag : CommittedSubDag) (commit : TrustedCommit), subdags[i]? = some subdag →
        commits[i]? = some commit →
        commit.reference = subdag.commitRef ∧ commit.blocks = subdag.blocks.map VerifiedBlock.reference ∧
          commit.timestampMs = subdag.timestampMs ∧ commit.index = i + 1 ∧
          commit.previousDigest = previousDigest (commits.take i)) ∧
      commits.Pairwise (fun c c' => c.timestampMs ≤ c'.timestampMs) := by
  have hwf : ∀ b ∈ (↑V : Set VerifiedBlock),
      WellFormed v.context.committee (genesisRefs v.context) b.toBlock :=
    fun b hb => SignedBlockVerifier.wellFormed_of_verify (hverified b hb)
  have hnodup : ∀ b ∈ V, b.ancestors.Nodup := fun b hb => .of_map _ (hwf b hb).nodup_authors
  obtain ⟨d', subdags, hok, ⟨_, commits, hlog, hlin⟩, hwrite'⟩ :=
    Linearizer.handleCommits_total hclosed hnodup hrefines hnone hleaders
  refine ⟨d', subdags, commits, hok, ?_, hlin.subdags_length, hlin.commits_length, hlog.rounds_eq,
    ?_, ?_, ?_, ?_,
    hlog.timestamps⟩
  · rw [← hlin.commits_length]
    exact hlog.scanCommits hwrite' 0
  · intro i leader subdag hl hs
    obtain ⟨_, commit, hs', hfor⟩ := hlin.of_leader hl
    obtain rfl := some.inj (hs.symm.trans hs')
    refine ⟨hfor.leader_eq, hfor.subDagOf.nodup, hfor.subDagOf.sorted, fun b => ?_⟩
    rw [hfor.subDagOf.mem_iff, UncommittedPath, and_iff_right]
    exact hlin.leader_uncommitted hwf hleaders hrounds hslots hl
  · intro i j subdag subdag' hij hs hs' b hb hb'
    rcases lt_or_gt_of_ne hij with hlt | hlt
    · exact hlin.disjoint hwf hleaders hrounds hslots hlt hs hs' hb hb'
    · exact hlin.disjoint hwf hleaders hrounds hslots hlt hs' hs hb' hb
  · intro hchain i b
    exact hlin.mem_take_iff_history hwf hleaders hchain i
  · intro i subdag commit hs hc
    obtain ⟨leader, _, _, hc', hfor⟩ := hlin.of_subdag hs
    obtain rfl := some.inj (hc.symm.trans hc')
    refine ⟨hfor.commitRef_eq.symm, ?_, ?_, hlog.index_eq i commit hc, ?_⟩ <;>
      rw [hfor.commit_eq] <;> rfl

/-- Author 3 does not equivocate, but its block of round 3 links its block of round 1. -/
def skippedParent : List VerifiedBlock :=
  let block := fun round author ancestors => fourAuthorities.block round author round ancestors
  let links := fourAuthorities.links
  let ref := fourAuthorities.ref
  fourAuthorities.fullRounds 2 ++
    [block 3 0 (links 2 0 [1, 2]), block 3 1 (links 2 1 [0, 2]), block 3 2 (links 2 2 [0, 1]),
      block 3 3 [ref 1 3, ref 2 0, ref 2 1, ref 2 2],
      block 4 0 (links 3 0 [1, 2, 3]), block 4 1 (links 3 1 [0, 2] ++ [ref 2 3]),
        block 4 2 (links 3 2 [0, 1]),
      block 5 0 (links 4 0 [1, 2])]

def committedSlots (blocks : List VerifiedBlock) (batches : List (List Slot)) :
    Except Panic (List (List Slot)) := do
  let d ← acceptedState blocks
  let (_, subdags) ← Linearizer.handleCommits fourAuthorities d
    (batches.map (fun batch => batch.flatMap (fun slot => blocks.filter (fun b => b.slot = slot))))
  return subdags.map (fun s => s.blocks.map VerifiedBlock.slot)

/-- The second leader reaches the block of author 3 of round 2, which no commit contains; and a
leader that is passed twice is committed twice. -/
theorem committedSlots_skippedParent :
    (∀ b ∈ skippedParent, (⟨fourAuthorities, fun _ => true, fun _ => true⟩ : SignedBlockVerifier).verify
      b.toSignedBlock = .ok ()) ∧
    (∀ b ∈ skippedParent, ∀ r ∈ b.ancestors, r.round ≠ genesisRound →
      ∃ p ∈ skippedParent, p.reference = r) ∧
    (skippedParent.map VerifiedBlock.slot).Nodup ∧
    (∃ leader p, leader.slot = ⟨5, 0⟩ ∧ p.slot = ⟨2, 3⟩ ∧ Reaches {b | b ∈ skippedParent} leader p) ∧
    committedSlots skippedParent [[⟨4, 0⟩], [⟨5, 0⟩]] =
      .ok [[⟨1, 0⟩, ⟨1, 1⟩, ⟨1, 2⟩, ⟨1, 3⟩, ⟨2, 0⟩, ⟨2, 1⟩, ⟨2, 2⟩, ⟨3, 0⟩, ⟨3, 1⟩, ⟨3, 2⟩,
        ⟨3, 3⟩, ⟨4, 0⟩],
        [⟨4, 1⟩, ⟨4, 2⟩, ⟨5, 0⟩]] ∧
    committedSlots skippedParent [[⟨4, 0⟩], [⟨4, 0⟩]] =
      .ok [[⟨1, 0⟩, ⟨1, 1⟩, ⟨1, 2⟩, ⟨1, 3⟩, ⟨2, 0⟩, ⟨2, 1⟩, ⟨2, 2⟩, ⟨3, 0⟩, ⟨3, 1⟩, ⟨3, 2⟩,
        ⟨3, 3⟩, ⟨4, 0⟩],
        [⟨4, 0⟩]] := by
  refine ⟨by decide +kernel, by decide +kernel, by decide +kernel,
    ?_, by decide +kernel, by decide +kernel⟩
  refine ⟨fourAuthorities.block 5 0 5 (fourAuthorities.links 4 0 [1, 2]),
    fourAuthorities.fullBlock 2 3, rfl, rfl, ?_⟩
  have hvia : fourAuthorities.block 4 1 4
    (fourAuthorities.links 3 1 [0, 2] ++ [fourAuthorities.ref 2 3]) ∈
      skippedParent := by decide +kernel
  have hparent : fourAuthorities.fullBlock 2 3 ∈ skippedParent := by decide +kernel
  exact .tail (.single ⟨hvia, by decide +kernel⟩) ⟨hparent, by decide +kernel⟩

def fourAuthorities.fullRoundLeaders : List (List VerifiedBlock) :=
  [[fullBlock 1 1], [fullBlock 2 2, fullBlock 3 3]]

lemma fourAuthorities.accepted_fullRounds :
    ∃ (d : DagState) (V : Finset VerifiedBlock), acceptedState (fullRounds 4) = .ok d ∧
      d.Refines fourAuthorities V ∧
      d.CommitLog [] ∧ AncestorClosed (↑V : Set VerifiedBlock) ∧
      (∀ b ∈ V, (⟨fourAuthorities, fun _ => true, fun _ => true⟩ : SignedBlockVerifier).verify
        b.toSignedBlock = .ok ()) ∧
      ∀ L ∈ fullRoundLeaders.flatten, L ∈ V := by
  obtain ⟨d, hd, -⟩ :=
    exists_of_returns (x := acceptedState (fullRounds 4)) (p := fun _ => true) (by decide +kernel)
  have hacc := hd
  simp only [acceptedState, bind_eq_ok] at hacc
  obtain ⟨d₀, h₀, hacc⟩ := hacc
  have href := ((DagRun.start h₀).acceptBlocks hacc).refines (by decide)
  have hnone := (CommitLog.new_empty h₀).of_sameCommits (sameCommits_acceptBlocks hacc)
  have hclosed : ∀ b ∈ (fullRounds 4).foldl acceptInto ∅, ∀ r ∈ b.ancestors, r.round ≠ genesisRound →
      ∃ p ∈ (fullRounds 4).foldl acceptInto ∅, p.reference = r := by
    decide +kernel
  have hver : ∀ b ∈ (fullRounds 4).foldl acceptInto ∅,
      (⟨fourAuthorities, fun _ => true, fun _ => true⟩ : SignedBlockVerifier).verify
        b.toSignedBlock = .ok () := by
    decide +kernel
  have hleaders : ∀ L ∈ fullRoundLeaders.flatten, L ∈ (fullRounds 4).foldl acceptInto ∅ := by
    decide +kernel
  generalize (fullRounds 4).foldl acceptInto ∅ = V at href hclosed hver hleaders
  exact ⟨d, V, hd, href, hnone, hclosed, hver, hleaders⟩

/-- Three leaders of four full rounds, in two batches. -/
theorem handleCommits_exactlyOnce_fullRounds :
    ∃ d d' subdags, acceptedState (fourAuthorities.fullRounds 4) = .ok d ∧
      Linearizer.handleCommits fourAuthorities d [[fourAuthorities.fullBlock 1 1],
        [fourAuthorities.fullBlock 2 2, fourAuthorities.fullBlock 3 3]] = .ok (d', subdags) ∧
      subdags.length = 3 := by
  obtain ⟨d, V, hd, hrefines, hnone, hclosed, hverified, hleaders⟩ := fourAuthorities.accepted_fullRounds
  obtain ⟨d', subdags, _, hok, _, hlength, _⟩ :=
    handleCommits_exactlyOnce hverified hclosed hrefines hnone _ hleaders
    (by decide +kernel) (by decide +kernel)
  exact ⟨d, d', subdags, hd, hok, hlength⟩

end SuiProofs.Consensus

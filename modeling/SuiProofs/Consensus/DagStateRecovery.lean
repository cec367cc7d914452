import SuiProofs.Consensus.CommitLog

namespace SuiProofs.Consensus

open Library List DagState

/-- The subdag read back for a commit, but for its time and scores. -/
structure SubDagOfCommit (A : Finset VerifiedBlock) (commit : TrustedCommit)
    (subdag : CommittedSubDag) : Prop where
  leader : subdag.leader = commit.leader
  refs : subdag.blocks.map VerifiedBlock.reference = commit.blocks
  mem : ∀ b ∈ subdag.blocks, b ∈ A
  commitRef : subdag.commitRef = commit.reference

def CommittedSubDag.content (subdag : CommittedSubDag) : BlockRef × List VerifiedBlock × CommitRef :=
  (subdag.leader, subdag.blocks, subdag.commitRef)

section SubDags

variable {ctx : Context} {A B : Finset VerifiedBlock} {commit : TrustedCommit}
  {commits : List TrustedCommit}

lemma SubDagOfCommit.mono {s : CommittedSubDag} (h : SubDagOfCommit A commit s) (hAB : A ⊆ B) :
    SubDagOfCommit B commit s :=
  ⟨h.leader, h.refs, fun b hb => hAB (h.mem b hb), h.commitRef⟩

lemma SubDagOfCommit.content_eq {s s' : CommittedSubDag} (hA : AcceptableSet ctx A)
    (h : SubDagOfCommit A commit s) (h' : SubDagOfCommit A commit s') : s.content = s'.content := by
  have hbs : s.blocks = s'.blocks :=
    eq_of_map_eq (fun b hb b' hb' => hA.injOn b (h.mem b hb) b' (h'.mem b' hb'))
      (h.refs.trans h'.refs.symm)
  rw [CommittedSubDag.content, CommittedSubDag.content, h.leader, h'.leader, hbs,
    h.commitRef, h'.commitRef]

lemma subDags_content_eq {l l' : List CommittedSubDag} (hA : AcceptableSet ctx A)
    (h : List.Forall₂ (SubDagOfCommit A) commits l) (h' : List.Forall₂ (SubDagOfCommit A) commits l') :
    l.map CommittedSubDag.content = l'.map CommittedSubDag.content := by
  induction h generalizing l' with
  | nil =>
    cases h'
    rfl
  | cons hc _ ih =>
    cases h' with
    | cons hc' h' => rw [map_cons, map_cons, hc.content_eq hA hc', ih h']

variable {s : Store} (h : StoreHolds ctx s A)

include h

lemma Store.loadCommittedSubdag_spec (hc : CommitOf A commit.toCommit) :
    ∃ subdag, s.loadCommittedSubdag commit = .ok subdag ∧ SubDagOfCommit A commit subdag := by
  obtain ⟨subdag, hs⟩ := loadCommittedSubdag_total h hc
  refine ⟨subdag, hs, ?_⟩
  obtain ⟨blocks, hbs, hs⟩ := bind_eq_ok.mp hs
  have hread : ∀ r b, s.readBlock r = .ok b → b ∈ A ∧ b.reference = r := by
    intro r b hb
    unfold Store.readBlock at hb
    split at hb
    · next hr =>
      cases hb
      exact (h.blocks_iff r _).mp hr
    · cases hb
  have hmem : ∀ b ∈ blocks, b ∈ A := by
    intro b hb
    have hmap := mapM_eq_ok_iff.mp hbs
    have hok : Except.ok b ∈ commit.blocks.map s.readBlock := hmap ▸ mem_map_of_mem hb
    obtain ⟨r, _, hr⟩ := mem_map.mp hok
    exact (hread r b hr).1
  split_ifs at hs
  cases hs
  exact ⟨rfl, map_of_mapM_eq_ok (fun r _ b hr => (hread r b hr).2) hbs, hmem, rfl⟩

lemma foldlM_recoverCommit (hscoring : ctx.mysticetiLeaderScoringAndSchedule = true)
    (hcomms : ∀ c ∈ commits, CommitOf A c.toCommit) (rounds : ℕ → ℕ) (acc : List CommittedSubDag) :
    ∃ subdags, commits.foldlM (recoverCommit ctx s) (rounds, acc) =
        .ok (raiseCommittedRounds rounds (commits.flatMap (fun c => c.blocks)), acc ++ subdags) ∧
      List.Forall₂ (SubDagOfCommit A) commits subdags := by
  induction commits generalizing rounds acc with
  | nil => exact ⟨[], by simp [raiseCommittedRounds], .nil⟩
  | cons c commits ih =>
    obtain ⟨subdag, hload, hsub⟩ := Store.loadCommittedSubdag_spec h (hcomms c mem_cons_self)
    obtain ⟨subdags, hok, hall⟩ := ih (fun c' hc' => hcomms c' (mem_cons_of_mem c hc'))
      (raiseCommittedRounds rounds c.blocks) (acc ++ [subdag])
    refine ⟨subdag :: subdags, ?_, .cons hsub hall⟩
    have hstep : recoverCommit ctx s (rounds, acc) c =
        .ok (raiseCommittedRounds rounds c.blocks, acc ++ [subdag]) := by
      unfold recoverCommit
      rw [if_pos hscoring, hload]
      rfl
    rw [foldlM_cons, hstep, ok_bind, hok]
    simp [raiseCommittedRounds]

end SubDags

/-- What was given to a DAG state since it was first started. -/
structure DagHistory where
  accepted : Finset VerifiedBlock
  commits : List TrustedCommit
  outstanding : List TrustedCommit
  commitInfo : Option (CommitRef × CommitInfo)

namespace DagHistory

def scored (h : DagHistory) : ℕ :=
  match h.commitInfo with
  | some (commitRef, _) => commitRef.index
  | none => 0

def start : DagHistory := ⟨∅, [], [], none⟩

end DagHistory

namespace DagState

/-- A pending commit info is flushed together with a block or a commit. -/
def FlushesInfo (d : DagState) : Prop :=
  d.commitInfoToWrite ≠ [] → d.blocksToWrite ≠ [] ∨ d.commitsToWrite ≠ []

end DagState

/-- Runs of the API of `DagState` with leader scoring. The sub-dags of new commits are passed on
in order, and a commit info is added when none of them is outstanding. -/
inductive DagApiRun (ctx : Context) (U : Set VerifiedBlock) : DagState → DagHistory → Prop
  | start {d : DagState} : DagState.new ctx .empty = .ok d → DagApiRun ctx U d .start
  | acceptBlocks {d d' : DagState} {h : DagHistory} {now : ℕ} {blocks : List VerifiedBlock} :
      DagApiRun ctx U d h → (∀ b ∈ blocks, b ∈ U) → d.acceptBlocks ctx now blocks = .ok d' →
      DagApiRun ctx U d' { h with accepted := blocks.foldl acceptInto h.accepted }
  | addCommit {d d' : DagState} {h : DagHistory} {commit : TrustedCommit} :
      DagApiRun ctx U d h → CommitOf h.accepted commit.toCommit → d.lastCommitIndex < commit.index →
      d.addCommit commit = .ok d' →
      DagApiRun ctx U d' { h with
        commits := h.commits ++ [commit], outstanding := h.outstanding ++ [commit] }
  | oldCommit {d d' : DagState} {h : DagHistory} {commit : TrustedCommit} :
      DagApiRun ctx U d h → commit.index ≤ d.lastCommitIndex → d.addCommit commit = .ok d' →
        DagApiRun ctx U d' h
  | addUnscored {d : DagState} {h : DagHistory} {commits rest : List TrustedCommit}
      {subdags : List CommittedSubDag} :
      DagApiRun ctx U d h → h.outstanding = commits ++ rest →
        List.Forall₂ (SubDagOfCommit h.accepted) commits subdags →
      DagApiRun ctx U (d.addUnscoredCommittedSubdags subdags) { h with outstanding := rest }
  | addCommitInfo {d d' : DagState} {h : DagHistory} {last : TrustedCommit} {scores : ReputationScores} :
      DagApiRun ctx U d h → h.outstanding = [] → d.lastCommit = some last →
      d.takeUnscoredCommittedSubdags.1.addCommitInfo scores = .ok d' →
      DagApiRun ctx U d' { h with commitInfo := some (last.reference, ⟨d.lastCommittedRounds, scores⟩) }
  | flush {d : DagState} {h : DagHistory} :
      DagApiRun ctx U d h → d.FlushesInfo → DagApiRun ctx U (d.flush ctx) h
  | restart {d d' : DagState} {h : DagHistory} : DagApiRun ctx U d h → d.FlushesInfo →
      DagState.new ctx (d.flush ctx).store = .ok d' → DagApiRun ctx U d' { h with outstanding := [] }

/-- The store, the buffers and the unscored sub-dags agree with the history. -/
structure Recoverable (ctx : Context) (U : Set VerifiedBlock) (d : DagState)
    (h : DagHistory) : Prop where
  persists : d.Persists ctx h.accepted
  mem : ∀ b ∈ h.accepted, b ∈ U
  log : d.CommitLog h.commits
  commits : ∀ c ∈ h.commits, CommitOf h.accepted c.toCommit
  infos : ∃ stored, (stored ++ d.commitInfoToWrite).getLast? = h.commitInfo ∧
    (stored ++ d.commitInfoToWrite).Pairwise (fun i j => i.1 ≤ j.1) ∧
    (∀ i ∈ stored ++ d.commitInfoToWrite, ∃ c ∈ h.commits, c.reference = i.1) ∧
    d.store.commitInfo = stored.foldl (fun m i => m.insert i.1 i.2) ∅
  rounds : ∀ k i, h.commitInfo = some (k, i) →
    i.committedRounds = DagState.committedRounds (h.commits.take k.index)
  unscored : ∃ waiting, h.commits.drop h.scored = waiting ++ h.outstanding ∧
    List.Forall₂ (SubDagOfCommit h.accepted) waiting d.unscoredCommittedSubdags

namespace Recoverable

variable {ctx : Context} {U : Set VerifiedBlock} {d d' : DagState} {h : DagHistory}
  (hr : Recoverable ctx U d h)
include hr

lemma scored_le : h.scored ≤ h.commits.length := by
  unfold DagHistory.scored
  cases hinfo : h.commitInfo with
  | none => exact Nat.zero_le _
  | some info =>
    obtain ⟨stored, hlast, _, hkeys, _⟩ := hr.infos
    obtain ⟨c, hc, he⟩ := hkeys info (mem_of_getLast? (hlast.trans hinfo))
    obtain ⟨i, hi⟩ := List.getElem?_of_mem hc
    have hidx := hr.log.index_eq i c hi
    have hlt := (List.getElem?_eq_some_iff.mp hi).1
    have hkey : info.1.index = c.index := by rw [← he, TrustedCommit.reference_index]
    dsimp only
    omega

omit hr in
lemma start (hok : new ctx .empty = .ok d) : Recoverable ctx U d .start := by
  obtain ⟨d', hd', hpers, -⟩ := new_total (storeHolds_empty : StoreHolds ctx _ _)
  obtain rfl : d' = d := Except.ok.inj (hd'.symm.trans hok)
  obtain ⟨rounds, subdags, hrecov, hsame, -⟩ := new_eq_ok hok
  obtain ⟨-, rfl⟩ : (fun _ => 0) = rounds ∧ [] = subdags :=
    Prod.mk.inj (Except.ok.inj hrecov)
  refine ⟨hpers, by simp [DagHistory.start], .new_empty hok, by simp [DagHistory.start], ⟨[], ?_⟩,
    ?_, [], rfl, ?_⟩
  · simp [hsame.commitInfoToWrite, hsame.store, recovered, DagHistory.start, Store.empty]
  · simp [DagHistory.start]
  · rw [hsame.unscoredCommittedSubdags]
    exact .nil

lemma of_sameCommits {A : Finset VerifiedBlock} (hs : d.SameCommits d')
    (hp : d'.Persists ctx A) (hA : h.accepted ⊆ A) (hU : ∀ b ∈ A, b ∈ U) :
    Recoverable ctx U d' { h with accepted := A } where
  persists := hp
  mem := hU
  log := hr.log.of_sameCommits hs
  commits c hc := (hr.commits c hc).mono hA
  infos := by
    rw [hs.commitInfoToWrite, hs.store]
    exact hr.infos
  rounds := hr.rounds
  unscored := by
    obtain ⟨waiting, hw, hall⟩ := hr.unscored
    rw [hs.unscoredCommittedSubdags]
    exact ⟨waiting, hw, hall.imp fun _ _ hc => hc.mono hA⟩

lemma addCommit {commit : TrustedCommit} (hcom : CommitOf h.accepted commit.toCommit)
    (hnew : d.lastCommitIndex < commit.index) (hok : d.addCommit commit = .ok d') :
    Recoverable ctx U d' { h with commits := h.commits ++ [commit], outstanding := h.outstanding ++
      [commit] } := by
  have hpers := hr.persists.addCommit hcom hok
  obtain ⟨_, hle⟩ | ⟨hidx, htime, rfl⟩ := addCommit_eq_ok hok
  · omega
  have hscored := hr.scored_le
  refine ⟨hpers, hr.mem, hr.log.addCommit hidx hok, ?_, ?_, ?_, ?_⟩
  · exact forall_mem_concat hr.commits hcom
  · obtain ⟨stored, hlast, hsort, hkeys, hsto⟩ := hr.infos
    refine ⟨stored, hlast, hsort, fun i hi => ?_, hsto⟩
    obtain ⟨c, hc, he⟩ := hkeys i hi
    exact ⟨c, mem_append_left _ hc, he⟩
  · intro k i hi
    change h.commitInfo = _ at hi
    have hk : k.index ≤ h.commits.length := by simpa [DagHistory.scored, hi] using hscored
    rw [hr.rounds k i hi, take_append_of_le_length hk]
  · obtain ⟨waiting, hw, hall⟩ := hr.unscored
    refine ⟨waiting, ?_, hall⟩
    change (h.commits ++ [commit]).drop h.scored = _
    rw [drop_append_of_le_length hscored, hw, append_assoc]

lemma addUnscored {commits rest : List TrustedCommit} {subdags : List CommittedSubDag}
    (hout : h.outstanding = commits ++ rest)
    (hsub : List.Forall₂ (SubDagOfCommit h.accepted) commits subdags) :
    Recoverable ctx U (d.addUnscoredCommittedSubdags subdags) { h with outstanding := rest } where
  persists := { hr.persists with cache := ⟨hr.persists.cache.mem, hr.persists.cache.refs_iff⟩ }
  mem := hr.mem
  log := { hr.log with }
  commits := hr.commits
  infos := hr.infos
  rounds := hr.rounds
  unscored := by
    obtain ⟨waiting, hw, hall⟩ := hr.unscored
    refine ⟨waiting ++ commits, ?_, rel_append hall hsub⟩
    rw [append_assoc, ← hout]
    exact hw

lemma addCommitInfo {last : TrustedCommit} {scores : ReputationScores}
    (hout : h.outstanding = []) (hlast : d.lastCommit = some last)
    (hok : d.takeUnscoredCommittedSubdags.1.addCommitInfo scores = .ok d') :
    Recoverable ctx U d'
      { h with commitInfo := some (last.reference, ⟨d.lastCommittedRounds, scores⟩) } := by
  obtain ⟨_, last', hlast', rfl⟩ := addCommitInfo_eq_ok hok
  obtain rfl : last = last' := Option.some.inj (hlast.symm.trans hlast')
  have htak : d.takeUnscoredCommittedSubdags.1.Persists ctx h.accepted :=
    { hr.persists with cache := ⟨hr.persists.cache.mem, hr.persists.cache.refs_iff⟩ }
  have hgetLast : h.commits.getLast? = some last := hr.log.lastCommit_eq.symm.trans hlast
  have hidx : last.index = h.commits.length := by
    rw [← hr.log.lastCommitIndex_eq, lastCommitIndex, hlast]
  refine ⟨htak.addCommitInfo hok, hr.mem, { hr.log with }, hr.commits, ?_, ?_, ?_⟩
  · -- The new key is that of the last commit, which no earlier one exceeds.
    obtain ⟨stored, _, hsort, hkeys, hsto⟩ := hr.infos
    refine ⟨stored, ?_, ?_, ?_, hsto⟩
    · rw [← append_assoc, List.getLast?_append_cons]
      rfl
    · rw [← append_assoc, pairwise_append]
      refine ⟨hsort, pairwise_singleton _ _, fun i hi j hj => ?_⟩
      obtain ⟨c, hc, he⟩ := hkeys i hi
      rw [mem_singleton.mp hj, ← he]
      exact hr.log.index_eq.reference_le_last hgetLast hc
    · intro i hi
      rw [← append_assoc] at hi
      rcases mem_append.mp hi with hi | hi
      · exact hkeys i hi
      · exact ⟨last, mem_of_getLast? hgetLast, by rw [mem_singleton.mp hi]⟩
  · intro k i hi
    cases hi
    rw [TrustedCommit.reference_index, hidx, take_length]
    exact hr.log.rounds_eq
  · refine ⟨[], ?_, .nil⟩
    change h.commits.drop last.reference.index = _
    rw [TrustedCommit.reference_index, hidx, drop_length, hout]
    rfl

omit hr in
lemma flush (hscoring : ctx.mysticetiLeaderScoringAndSchedule = true) (hr : Recoverable ctx U d h)
    (hinfo : d.FlushesInfo) : Recoverable ctx U (d.flush ctx) h := by
  have hpers := hr.persists.flush
  have hlog : (d.flush ctx).CommitLog h.commits := hr.log.flush
  refine ⟨hpers, hr.mem, hlog, hr.commits, ?_, hr.rounds, ?_⟩
  · obtain ⟨stored, hlast, hsort, hkeys, hsto⟩ := hr.infos
    have hbuffer : (d.flush ctx).commitInfoToWrite = [] := flush_commitInfoToWrite hscoring
    refine ⟨stored ++ d.commitInfoToWrite, by rwa [hbuffer, append_nil], by rwa [hbuffer, append_nil],
      by rwa [hbuffer, append_nil], ?_⟩
    rw [flush_store, flushedStore]
    split_ifs with hemp
    · have hnil : d.commitInfoToWrite = [] := by
        by_contra hne
        rcases hinfo hne with hb | hc
        · exact hb hemp.1
        · exact hc hemp.2
      rw [hnil, append_nil, hsto]
    · rw [foldl_append, ← hsto]
      simp [Store.write, commitInfoOfFlush, hscoring]
  · rw [flush_unscoredCommittedSubdags]
    exact hr.unscored

lemma readLastCommitInfo (hinfos : d.commitInfoToWrite = []) :
    d.store.readLastCommitInfo = h.commitInfo := by
  obtain ⟨stored, hlast, hsort, _, he⟩ := hr.infos
  rw [hinfos, append_nil] at hlast hsort
  rw [Store.readLastCommitInfo, he, lastPair?_foldl_insert hsort, hlast]

omit hr

lemma recover (hscoring : ctx.mysticetiLeaderScoringAndSchedule = true) (hr : Recoverable ctx U d h)
    (hbs : d.blocksToWrite = []) (hcomms : d.commitsToWrite = []) (hinfos : d.commitInfoToWrite = []) :
    ∃ d', new ctx d.store = .ok d' ∧ Recoverable ctx U d' { h with outstanding := [] } ∧
      d'.store = d.store := by
  have hsto : StoreHolds ctx d.store h.accepted := by
    obtain ⟨B, hBA, hA, hB⟩ := hr.persists.store
    obtain rfl : B = h.accepted := hBA.antisymm fun b hb => (hA b hb).resolve_right (by simp [hbs])
    exact hB
  obtain ⟨d', hd', hpers, -⟩ := new_total hsto
  obtain ⟨rounds, subdags, hrecov, hsame, -⟩ := new_eq_ok hd'
  -- Recovery starts at the checkpoint and replays what follows it.
  have hst : recoveryStart d.store = (committedRounds (h.commits.take h.scored), h.scored + 1) := by
    unfold recoveryStart DagHistory.scored
    rw [hr.readLastCommitInfo hinfos]
    cases hinfo : h.commitInfo with
    | none => rfl
    | some info =>
      dsimp only
      rw [hr.rounds info.1 info.2 hinfo]
  have hdrop : ∀ c ∈ h.commits.drop h.scored, CommitOf h.accepted c.toCommit :=
    fun c hc => hr.commits c (mem_of_mem_drop hc)
  obtain ⟨subdags', hreplay, hall⟩ := foldlM_recoverCommit hsto hscoring hdrop
    (committedRounds (h.commits.take h.scored)) []
  have hres : recoverCommits ctx d.store = .ok (committedRounds h.commits, subdags') := by
    have hspl := committedRounds_append (h.commits.take h.scored) (h.commits.drop h.scored)
    rw [take_append_drop] at hspl
    unfold recoverCommits
    rw [hst, hr.log.readLastCommit hcomms, hspl]
    cases hlast : h.commits.getLast? with
    | none =>
      rw [List.getLast?_eq_none_iff.mp hlast] at hall ⊢
      obtain rfl : subdags' = [] := by simpa using hall
      simp [raiseCommittedRounds]
    | some last =>
      have hidx : last.index = h.commits.length := by
        rw [← hr.log.lastCommitIndex_eq, lastCommitIndex, hr.log.lastCommit_eq, hlast]
      dsimp only
      rw [hidx, hr.log.scanCommits hcomms, hreplay, nil_append]
  obtain ⟨rfl, rfl⟩ : rounds = committedRounds h.commits ∧ subdags = subdags' :=
    Prod.mk.inj (Except.ok.inj (hrecov.symm.trans hres))
  refine ⟨d', hd', ⟨hpers, hr.mem, ?_, hr.commits, ?_, hr.rounds, ?_⟩, hsame.store⟩
  · refine ⟨⟨hr.log.index_eq, ?_, ?_⟩, hr.log.timestamps, hsame.lastCommittedRounds⟩
    · rw [hsame.lastCommit]
      exact hr.log.readLastCommit hcomms
    · rw [hsame.commitsToWrite, hsame.store]
      obtain ⟨stored, he, hstd⟩ := hr.log.stored
      exact ⟨stored, by rw [he, hcomms]; rfl, hstd⟩
  · rw [hsame.commitInfoToWrite, hsame.store]
    obtain ⟨stored, hinfo⟩ := hr.infos
    rw [hinfos] at hinfo
    exact ⟨stored, hinfo⟩
  · refine ⟨h.commits.drop h.scored, (append_nil _).symm, ?_⟩
    rw [hsame.unscoredCommittedSubdags]
    exact hall

end Recoverable

section Runs

variable {ctx : Context} {U : Set VerifiedBlock} {d : DagState} {h : DagHistory}
  (hscoring : ctx.mysticetiLeaderScoringAndSchedule = true)
  (hinj : ∀ b ∈ U, ∀ b' ∈ U, b.reference = b'.reference → b = b')

include hscoring

lemma Recoverable.restart (hr : Recoverable ctx U d h) (hinfo : d.FlushesInfo) :
    ∃ d', new ctx (d.flush ctx).store = .ok d' ∧ Recoverable ctx U d' { h with outstanding := [] } ∧
      d'.store = (d.flush ctx).store := by
  exact (hr.flush hscoring hinfo).recover hscoring flush_blocksToWrite flush_commitsToWrite
    (flush_commitInfoToWrite hscoring)

include hinj

/-- After any run the store has what a recovery needs. -/
theorem DagApiRun.recoverable (hrun : DagApiRun ctx U d h) : Recoverable ctx U d h := by
  induction hrun with
  | start hok => exact .start hok
  | acceptBlocks _ hblocks hok ih =>
    refine ih.of_sameCommits (sameCommits_acceptBlocks hok)
      (ih.persists.acceptBlocks hinj ih.mem hblocks hok) subset_foldl_acceptInto fun b hb => ?_
    exact (mem_of_mem_foldl_acceptInto hb).elim (ih.mem b) (hblocks b)
  | addCommit _ hcommit hnew hok ih => exact ih.addCommit hcommit hnew hok
  | oldCommit _ hold hok ih =>
    obtain ⟨rfl, _⟩ | ⟨hindex, _, rfl⟩ := addCommit_eq_ok hok
    · exact ih
    · omega
  | addUnscored _ hout hsub ih => exact ih.addUnscored hout hsub
  | addCommitInfo _ hout hlast hok ih => exact ih.addCommitInfo hout hlast hok
  | flush _ hinfo ih => exact ih.flush hscoring hinfo
  | restart _ hinfo hok ih =>
    obtain ⟨d', hd', hr, _⟩ := ih.restart hscoring hinfo
    obtain rfl := Except.ok.inj (hok.symm.trans hd')
    exact hr

/-- In runs whose flushes all write the pending commit info, a restart after a flush restores the
commit state. -/
theorem recovery_restoresFlushedState (hrun : DagApiRun ctx U d h) (hout : h.outstanding = [])
    (hinfo : d.FlushesInfo) :
    ∃ d', DagState.new ctx (d.flush ctx).store = .ok d' ∧
      d'.lastCommit = (d.flush ctx).lastCommit ∧
      d'.lastCommittedRounds = (d.flush ctx).lastCommittedRounds ∧
      d'.unscoredCommittedSubdags.map CommittedSubDag.content =
        (d.flush ctx).unscoredCommittedSubdags.map CommittedSubDag.content ∧
      d'.recoverLastCommitInfo = h.commitInfo := by
  have hr := (hrun.recoverable hscoring hinj).flush hscoring hinfo
  obtain ⟨d', hd', hr', hstore⟩ := (hrun.recoverable hscoring hinj).restart hscoring hinfo
  refine ⟨d', hd', ?_, ?_, ?_, ?_⟩
  · rw [hr'.log.lastCommit_eq, hr.log.lastCommit_eq]
  · rw [hr'.log.rounds_eq, hr.log.rounds_eq]
  · obtain ⟨waiting, hw, hall⟩ := hr.unscored
    obtain ⟨waiting', hw', hall'⟩ := hr'.unscored
    obtain rfl : waiting' = waiting := by
      rw [hout, append_nil] at hw
      exact (append_nil _).symm.trans (hw'.symm.trans hw)
    exact subDags_content_eq hr.persists.acceptable hall' hall
  · rw [DagState.recoverLastCommitInfo, hstore]
    exact hr.readLastCommitInfo (DagState.flush_commitInfoToWrite hscoring)

end Runs

namespace fourAuthorities

def singleCommit : TrustedCommit := ⟨⟨1, 0, 1, ref 1 0, [ref 1 0]⟩, 1⟩

/-- A commit is flushed; then its sub-dag is scored and the state is flushed again, with nothing
but the commit info to write. Returns the states before and after a restart. -/
def scoredAfterFlush : Except Panic (DagState × DagState) := do
  let d ← DagState.new fourAuthorities .empty
  let d ← d.acceptBlocks fourAuthorities 10 [fullBlock 1 0]
  let d ← d.addCommit singleCommit
  let d := d.addUnscoredCommittedSubdags [.new (ref 1 0) [fullBlock 1 0] 1 singleCommit.reference]
  let d := d.flush fourAuthorities
  let d ← d.takeUnscoredCommittedSubdags.1.addCommitInfo ⟨[1, 0, 0, 0], ⟨1, 1⟩⟩
  let d := d.flush fourAuthorities
  let d' ← DagState.new fourAuthorities d.store
  return (d, d')

end fourAuthorities

/-- The commit info is lost, and the scored sub-dag comes back as an unscored one. -/
theorem recovery_losesCommitInfo :
    ∃ d d', fourAuthorities.scoredAfterFlush = .ok (d, d') ∧ d.unscoredCommittedSubdags = [] ∧
      d'.unscoredCommittedSubdags.length = 1 ∧ d'.recoverLastCommitInfo.isNone = true := by
  obtain ⟨⟨d, d'⟩, hd, hp⟩ := exists_of_returns (x := fourAuthorities.scoredAfterFlush)
    (p := fun s => decide (s.1.unscoredCommittedSubdags = []) &&
      decide (s.2.unscoredCommittedSubdags.length = 1) &&
      s.2.recoverLastCommitInfo.isNone) (by decide +kernel)
  simp only [Bool.and_eq_true, decide_eq_true_eq] at hp
  exact ⟨d, d', hd, hp.1.1, hp.1.2, hp.2⟩

/-- The same calls with one flush at the end. -/
theorem recovery_restoresFlushedState_oneFlush :
    ∃ d h, DagApiRun fourAuthorities {b | b = fourAuthorities.fullBlock 1 0} d h ∧
      h.commitInfo.isSome = true ∧
      ∃ d', DagState.new fourAuthorities (d.flush fourAuthorities).store = .ok d' ∧
        d'.recoverLastCommitInfo = h.commitInfo := by
  obtain ⟨d, hd, hp⟩ := exists_of_returns (x := do
    let d ← DagState.new fourAuthorities .empty
    let d ← d.acceptBlocks fourAuthorities 10 [fourAuthorities.fullBlock 1 0]
    let d ← d.addCommit fourAuthorities.singleCommit
    let d := d.addUnscoredCommittedSubdags
      [.new (fourAuthorities.ref 1 0)
        [fourAuthorities.fullBlock 1 0] 1 fourAuthorities.singleCommit.reference]
    d.takeUnscoredCommittedSubdags.1.addCommitInfo ⟨[1, 0, 0, 0], ⟨1, 1⟩⟩)
    (p := fun d => decide (d.blocksToWrite ≠ [])) (by decide +kernel)
  obtain ⟨d₀, h₀, hd⟩ := bind_eq_ok.mp hd
  obtain ⟨d₁, h₁, hd⟩ := bind_eq_ok.mp hd
  obtain ⟨d₂, h₂, hd⟩ := bind_eq_ok.mp hd
  have hinj : ∀ b ∈ {b | b = fourAuthorities.fullBlock 1 0},
    ∀ b' ∈ {b | b = fourAuthorities.fullBlock 1 0},
      b.reference = b'.reference → b = b' := fun b hb b' hb' _ => hb.trans hb'.symm
  have hrun₁ := (DagApiRun.start h₀).acceptBlocks (fun b hb => mem_singleton.mp hb) h₁
  have hindex : d₁.lastCommitIndex = 0 := (hrun₁.recoverable rfl hinj).log.lastCommitIndex_eq
  have hcommit : CommitOf ([fourAuthorities.fullBlock 1 0].foldl acceptInto ∅)
      fourAuthorities.singleCommit.toCommit :=
    ⟨by decide +kernel, by decide +kernel⟩
  have hrun₂ := hrun₁.addCommit hcommit
    (by rw [hindex]; decide) h₂
  have hlast : d₂.lastCommit = some fourAuthorities.singleCommit :=
    (hrun₂.recoverable rfl hinj).log.lastCommit_eq
  have hsub : List.Forall₂ (SubDagOfCommit ([fourAuthorities.fullBlock 1 0].foldl acceptInto ∅))
      [fourAuthorities.singleCommit] [.new (fourAuthorities.ref 1 0) [fourAuthorities.fullBlock 1 0] 1
        fourAuthorities.singleCommit.reference] :=
    .cons ⟨rfl, by decide +kernel, by decide +kernel, rfl⟩ .nil
  have hrun := (hrun₂.addUnscored (append_nil _).symm hsub).addCommitInfo rfl hlast hd
  obtain ⟨d', hd', _, _, _, hinfo⟩ := recovery_restoresFlushedState rfl hinj hrun rfl
    (fun _ => .inl (of_decide_eq_true hp))
  exact ⟨d, _, hrun, rfl, d', hd', hinfo⟩

end SuiProofs.Consensus

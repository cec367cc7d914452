import SuiProofs.Consensus.CommitSyncer
import SuiProofs.Consensus.Linearizer

/-! Models `handle_fetch_commits` of `authority_service.rs` and `verify_commits` of
`commit_syncer.rs`. -/

namespace SuiProofs.Consensus

open Library List DagState TrustedCommit CommitSyncer

/-- The serialised form of commits and blocks. Digests of commits are those of their bytes. -/
structure WireFormat (ctx : Context) where
  encodeCommit : Commit → List UInt8
  decodeCommit : List UInt8 → Option Commit
  computeDigest : List UInt8 → CommitDigest
  encodeBlock : SignedBlock → List UInt8
  decodeBlock : List UInt8 → Option SignedBlock
  decodeCommit_encode : ∀ c, decodeCommit (encodeCommit c) = some c
  decodeBlock_encode : ∀ b, decodeBlock (encodeBlock b) = some b
  computeDigest_encode : ∀ c, computeDigest (encodeCommit c) = ctx.computeCommitDigest c

namespace AuthorityService

/-- The loop that drops commits from the end until one is certified; the last commit comes
first here. Returns the commits that are left and the votes on the last of them. -/
def popUncertified (ctx : Context) (s : Store) : List TrustedCommit → List TrustedCommit × List BlockRef
  | [] => ([], [])
  | c :: commits =>
    let votes := s.readCommitVotes c.index
    let aggregator :=
      (StakeAggregator.new : StakeAggregator .quorum).addAll ctx.committee
        (votes.map BlockRef.author)
    if aggregator.reachedThreshold ctx.committee then ((c :: commits).reverse, votes)
    else popUncertified ctx s commits

def scanRange (commitSyncBatchSize start stop : ℕ) : CommitRange :=
  ⟨start, min (stop + 1) (start + commitSyncBatchSize)⟩

def handleFetchCommits (ctx : Context) (commitSyncBatchSize : ℕ) (s : Store) (start stop : ℕ) :
    List TrustedCommit × List VerifiedBlock :=
  let commits := s.scanCommits (scanRange commitSyncBatchSize start stop)
  let (commits, certifierBlockRefs) := popUncertified ctx s commits.reverse
  (commits, certifierBlockRefs.filterMap (fun r => s.blocks[r]?))

end AuthorityService

namespace CommitSyncer

/-- A commit starts the requested range or continues the one before it. -/
def checkSequence (peer start : ℕ) (commits : List (CommitDigest × Commit)) (commit : Commit) :
    Except ConsensusError Unit :=
  match commits.getLast? with
  | none => if commit.index ≠ start then .error (.unexpectedStartCommit peer start commit) else .ok ()
  | some (lastDigest, last) =>
    if commit.index ≠ last.index + 1 ∨ commit.previousDigest ≠ lastDigest then
      .error (.unexpectedCommitSequence peer last commit)
    else .ok ()

/-- The loop that parses the commits; it stops past the end of the range. -/
def parseCommits {ctx : Context} (w : WireFormat ctx) (peer start stop : ℕ) :
    List (List UInt8) → List (CommitDigest × Commit) →
      Except ConsensusError (List (CommitDigest × Commit))
  | [], commits => .ok commits
  | serialized :: rest, commits =>
    match w.decodeCommit serialized with
    | none => .error .malformedCommit
    | some commit => do
      checkSequence peer start commits commit
      if commit.index > stop then return commits
      else parseCommits w peer start stop rest (commits ++ [(w.computeDigest serialized, commit)])

def countVotes {ctx : Context} (w : WireFormat ctx) (v : BlockVerifier) (endCommitRef : CommitRef)
    (aggregator : StakeAggregator .quorum) (serialized : List UInt8) :
    Except ConsensusError (StakeAggregator .quorum) :=
  match w.decodeBlock serialized with
  | none => .error .malformedBlock
  | some block => do
    v.verify block
    return aggregator.addAll ctx.committee
      ((block.commitVotes.filter (· = endCommitRef)).map fun _ => block.author)

def verifyCommits {ctx : Context} (w : WireFormat ctx) (v : BlockVerifier) (peer start stop : ℕ)
    (serializedCommits serializedBlocks : List (List UInt8)) :
    Except ConsensusError (List TrustedCommit) := do
  let commits ← parseCommits w peer start stop serializedCommits []
  match commits.getLast? with
  | none => throw (.noCommitReceived peer)
  | some (endCommitDigest, endCommit) =>
    let aggregator ← serializedBlocks.foldlM (countVotes w v ⟨endCommit.index, endCommitDigest⟩)
      StakeAggregator.new
    if !aggregator.reachedThreshold ctx.committee then
      throw (.notEnoughCommitVotes aggregator.stake peer endCommit)
    return (commits.zip serializedCommits).map fun p => { p.1.2 with digest := w.computeDigest p.2 }

end CommitSyncer

/-- Runs of an honest authority on its state of the DAG: it accepts blocks of the given set, adds
commits that follow its last one, and may crash at any time. -/
inductive AuthorityRun (ctx : Context) (U : Set VerifiedBlock) : DagState → List TrustedCommit → Prop
  | start {d : DagState} : DagState.new ctx .empty = .ok d → AuthorityRun ctx U d []
  | acceptBlocks {d d' : DagState} {commits : List TrustedCommit} {now : ℕ}
      {blocks : List VerifiedBlock} :
      AuthorityRun ctx U d commits → (∀ b ∈ blocks, b ∈ U) → d.acceptBlocks ctx now blocks = .ok d' →
      AuthorityRun ctx U d' commits
  | addCommit {d d' : DagState} {commits : List TrustedCommit} (leader : VerifiedBlock)
      (blocks : List VerifiedBlock) :
      AuthorityRun ctx U d commits → d.addCommit (Linearizer.nextCommit ctx d leader blocks) = .ok d' →
      AuthorityRun ctx U d' (commits ++ [Linearizer.nextCommit ctx d leader blocks])
  | addCommitInfo {d d' : DagState} {commits : List TrustedCommit} {scores : ReputationScores} :
      AuthorityRun ctx U d commits → d.addCommitInfo scores = .ok d' → AuthorityRun ctx U d' commits
  | addUnscored {d : DagState} {commits : List TrustedCommit} {subdags : List CommittedSubDag} :
      AuthorityRun ctx U d commits → AuthorityRun ctx U (d.addUnscoredCommittedSubdags subdags) commits
  | takeUnscored {d : DagState} {commits : List TrustedCommit} :
      AuthorityRun ctx U d commits → AuthorityRun ctx U d.takeUnscoredCommittedSubdags.1 commits
  | takeCommitVotes {d : DagState} {commits : List TrustedCommit} {limit : ℕ} :
      AuthorityRun ctx U d commits → AuthorityRun ctx U (d.takeCommitVotes limit).1 commits
  | flush {d : DagState} {commits : List TrustedCommit} :
      AuthorityRun ctx U d commits → AuthorityRun ctx U (d.flush ctx) commits
  | restart {d d' : DagState} {stored : List TrustedCommit} :
      AuthorityRun ctx U d (stored ++ d.commitsToWrite) → DagState.new ctx d.store = .ok d' →
      AuthorityRun ctx U d' stored

def TrustedCommit.Follows (c c' : TrustedCommit) : Prop :=
  c'.index = c.index + 1 ∧ c'.previousDigest = c.digest

def Store.HoldsVotes (s : Store) : Prop :=
  ∀ (vote : CommitVote) (r : BlockRef), toLex (vote, r) ∈ s.commitVotes ↔
    ∃ b : VerifiedBlock, s.blocks[r]? = some b ∧ vote ∈ b.commitVotes

/-- The state of an honest authority, whose commits are chained by their digests. -/
structure HonestState (ctx : Context) (U : Set VerifiedBlock) (d : DagState)
    (commits : List TrustedCommit) : Prop
    extends d.StoredCommits commits where
  chain : commits.IsChain TrustedCommit.Follows
  digest_eq : ∀ c ∈ commits, c.digest = ctx.computeCommitDigest c.toCommit
  toWrite : ∀ b ∈ d.blocksToWrite, b ∈ U
  blocks : ∀ (r : BlockRef) (b : VerifiedBlock), d.store.blocks[r]? = some b → b ∈ U ∧ b.reference = r
  votes : d.store.HoldsVotes

variable {ctx : Context} {U : Set VerifiedBlock} {d d' : DagState} {commits : List TrustedCommit}
  {s : Store} {blocks : List VerifiedBlock}

section Reachable

variable {batch : WriteBatch}

lemma mem_commitVotes_write {vote : CommitVote} {r : BlockRef} :
    toLex (vote, r) ∈ (s.write batch).commitVotes ↔
      toLex (vote, r) ∈ s.commitVotes ∨ ∃ b ∈ batch.blocks, vote ∈ b.commitVotes ∧ b.reference = r := by
  unfold Store.write
  dsimp only
  generalize s.commitVotes = t
  induction batch.blocks generalizing t with
  | nil => simp
  | cons b blocks ih =>
    rw [foldl_cons, ih, mem_foldl_insert_set]
    simp only [EmbeddingLike.apply_eq_iff_eq, Prod.mk.injEq, mem_cons, exists_eq_or_imp, or_assoc]
    refine or_congr_right (or_congr_left ?_)
    constructor
    · rintro ⟨v, hv, rfl, rfl⟩
      exact ⟨hv, rfl⟩
    · rintro ⟨hv, rfl⟩
      exact ⟨vote, hv, rfl, rfl⟩

variable (hinj : ∀ b ∈ U, ∀ b' ∈ U, b.reference = b'.reference → b = b')

include hinj

lemma Store.HoldsVotes.write (h : s.HoldsVotes)
    (hbs : ∀ (r : BlockRef) (b : VerifiedBlock), s.blocks[r]? = some b → b ∈ U ∧ b.reference = r)
    (hbatch : ∀ b ∈ batch.blocks, b ∈ U) :
    (s.write batch).HoldsVotes ∧
      ∀ (r : BlockRef) (b : VerifiedBlock), (s.write batch).blocks[r]? = some b →
        b ∈ U ∧ b.reference = r := by
  have hlk : ∀ (r : BlockRef) (b : VerifiedBlock), (s.write batch).blocks[r]? = some b ↔
      (b ∈ {b : VerifiedBlock | s.blocks[b.reference]? = some b} ∨ b ∈ batch.blocks) ∧
        b.reference = r := by
    intro r b
    apply getElem?_foldl_insert_iff
    · intro k b
      constructor
      · intro hb
        obtain ⟨_, rfl⟩ := hbs k b hb
        exact ⟨hb, rfl⟩
      · rintro ⟨hb, rfl⟩
        exact hb
    · intro b b' hb hb'
      exact hinj b (hb.elim (fun hb => (hbs _ b hb).1) (hbatch b)) b'
        (hb'.elim (fun hb => (hbs _ b' hb).1) (hbatch b'))
  refine ⟨fun vote r => ?_, fun r b hb => ?_⟩
  · rw [mem_commitVotes_write, h vote r]
    simp only [hlk]
    constructor
    · rintro (⟨b, hb, hv⟩ | ⟨b, hb, hv, rfl⟩)
      · obtain ⟨_, rfl⟩ := hbs r b hb
        exact ⟨b, ⟨.inl hb, rfl⟩, hv⟩
      · exact ⟨b, ⟨.inr hb, rfl⟩, hv⟩
    · rintro ⟨b, ⟨hb | hb, rfl⟩, hv⟩
      · exact .inl ⟨b, hb, hv⟩
      · exact .inr ⟨b, hb, hv, rfl⟩
  · obtain ⟨hmem, rfl⟩ := (hlk r b).mp hb
    exact ⟨hmem.elim (fun hmem => (hbs _ b hmem).1) (hbatch b), rfl⟩

variable (h : HonestState ctx U d commits)
include h

lemma HonestState.flush : HonestState ctx U (d.flush ctx) commits := by
  have hstd : (d.flush ctx).StoredCommits commits := h.toStoredCommits.flush
  have hsto : (d.flush ctx).store.HoldsVotes ∧ ∀ (r : BlockRef) (b : VerifiedBlock),
      (d.flush ctx).store.blocks[r]? = some b → b ∈ U ∧ b.reference = r := by
    rw [flush_store, flushedStore]
    split_ifs
    · exact ⟨h.votes, h.blocks⟩
    · exact h.votes.write hinj h.blocks h.toWrite
  exact ⟨hstd, h.chain, h.digest_eq, by simp, hsto.2, hsto.1⟩

omit hinj

lemma HonestState.of_frame (hlast : d'.lastCommit = d.lastCommit)
    (hcomms : d'.commitsToWrite = d.commitsToWrite) (hsto : d'.store = d.store)
    (hwrite : ∀ b ∈ d'.blocksToWrite, b ∈ U) : HonestState ctx U d' commits where
  index_eq := h.index_eq
  lastCommit_eq := hlast.trans h.lastCommit_eq
  stored := by rw [hcomms, hsto]; exact h.stored
  chain := h.chain
  digest_eq := h.digest_eq
  toWrite := hwrite
  blocks := by rw [hsto]; exact h.blocks
  votes := by rw [hsto]; exact h.votes

lemma HonestState.acceptBlocks {now : ℕ}
    (hbs : ∀ b ∈ blocks, b ∈ U) (hok : d.acceptBlocks ctx now blocks = .ok d') :
    HonestState ctx U d' commits := by
  refine foldlM_ok_induction (fun d => HonestState ctx U d commits) (fun d₁ b d₂ hb h₁ hstep => ?_) h hok
  obtain ⟨_, _, ⟨_, rfl⟩ | ⟨_, _, _, rfl⟩⟩ := acceptBlock_eq_ok hstep
  · exact h₁
  · exact h₁.of_frame rfl rfl rfl (forall_mem_concat h₁.toWrite (hbs b hb))

lemma HonestState.addCommit {leader : VerifiedBlock}
    (hok : d.addCommit (Linearizer.nextCommit ctx d leader blocks) = .ok d') :
    HonestState ctx U d' (commits ++ [Linearizer.nextCommit ctx d leader blocks]) := by
  have hstd := h.toStoredCommits.addCommit rfl hok
  obtain ⟨_, hle⟩ | ⟨_, _, rfl⟩ := addCommit_eq_ok hok
  · exact absurd hle (Nat.not_succ_le_self _)
  refine ⟨hstd, ?_, ?_, h.toWrite, h.blocks, h.votes⟩
  · refine isChain_append.mpr ⟨h.chain, isChain_singleton _, fun last hlast c hc => ?_⟩
    obtain rfl : Linearizer.nextCommit ctx d leader blocks = c := by simpa using hc
    have hd : d.lastCommit = some last := h.lastCommit_eq.trans hlast
    refine ⟨?_, ?_⟩
    · change d.lastCommitIndex + 1 = last.index + 1
      rw [lastCommitIndex, hd]
    · change d.lastCommitDigest = last.digest
      rw [lastCommitDigest, hd]
  · exact forall_mem_concat h.digest_eq rfl

omit h

lemma HonestState.restart {stored : List TrustedCommit}
    (h : HonestState ctx U d (stored ++ d.commitsToWrite))
    (hok : new ctx d.store = .ok d') : HonestState ctx U d' stored := by
  obtain ⟨rounds, subdags, _, hsame, hbs⟩ := new_eq_ok hok
  obtain ⟨stored', he, hstd⟩ := h.stored
  obtain rfl : stored = stored' := append_cancel_right he
  have hidx : IndexedFromOne stored := by
    intro i c hi
    refine h.index_eq i c ?_
    rw [List.getElem?_append_left (List.getElem?_eq_some_iff.mp hi).1]
    exact hi
  refine ⟨⟨hidx, ?_, stored, ?_, ?_⟩, (isChain_append.mp h.chain).1,
    fun c hc => h.digest_eq c (mem_append_left _ hc), by simp [hbs], ?_, ?_⟩
  · rw [hsame.lastCommit]
    exact hstd.readLastCommit hidx
  · rw [hsame.commitsToWrite]
    exact (append_nil _).symm
  · rw [hsame.store]
    exact hstd
  · rw [hsame.store]
    exact h.blocks
  · rw [hsame.store]
    exact h.votes

/-- What an honest authority stores, after any run. -/
theorem AuthorityRun.honestState (hinj : ∀ b ∈ U, ∀ b' ∈ U, b.reference = b'.reference → b = b')
    (hrun : AuthorityRun ctx U d commits) : HonestState ctx U d commits := by
  induction hrun with
  | start hok =>
    have hlog := DagState.CommitLog.new_empty hok
    obtain ⟨rounds, subdags, _, hsame, hblocks⟩ := new_eq_ok hok
    refine ⟨hlog.toStoredCommits, .nil, by simp, by simp [hblocks], ?_, ?_⟩ <;>
      simp [Store.HoldsVotes, hsame.store, recovered, Store.empty]
  | acceptBlocks _ hblocks hok ih => exact ih.acceptBlocks hblocks hok
  | addCommit _ _ _ hok ih => exact ih.addCommit hok
  | addCommitInfo _ hok ih =>
    obtain ⟨_, _, _, rfl⟩ := addCommitInfo_eq_ok hok
    exact ih.of_frame rfl rfl rfl ih.toWrite
  | addUnscored _ ih | takeUnscored _ ih | takeCommitVotes _ ih =>
    exact ih.of_frame rfl rfl rfl ih.toWrite
  | flush _ ih => exact ih.flush hinj
  | restart _ hok ih => exact ih.restart hok

end Reachable

namespace Store

/-- The authors of stored blocks with a vote on some commit of the index. -/
def votersAt (s : Store) (commitIndex : ℕ) : Finset ℕ :=
  ((s.readCommitVotes commitIndex).map BlockRef.author).toFinset

def votersFor (s : Store) (commitRef : CommitRef) : Finset ℕ :=
  ((s.commitVotes.toList.filter (fun v => (ofLex v).1 = commitRef)).map
    (fun v => (ofLex v).2.author)).toFinset

end Store

/-- The highest commit of the range whose index has votes of quorum stake has a quorum of votes
itself, and the range does not start at the genesis commit. -/
def CertifiedByExactVotes (ctx : Context) (commitSyncBatchSize : ℕ) (s : Store)
    (start stop : ℕ) : Prop :=
  start ≠ 0 ∧ ∀ c ∈ s.scanCommits (AuthorityService.scanRange commitSyncBatchSize start stop),
    ctx.committee.IsQuorum (s.votersAt c.index) →
    (∀ c' ∈ s.scanCommits (AuthorityService.scanRange commitSyncBatchSize start stop),
      c.index < c'.index →
      ¬ ctx.committee.IsQuorum (s.votersAt c'.index)) →
    ctx.committee.IsQuorum (s.votersFor c.reference)

instance (ctx : Context) (commitSyncBatchSize : ℕ) (s : Store) (start stop : ℕ) :
    Decidable (CertifiedByExactVotes ctx commitSyncBatchSize s start stop) :=
  inferInstanceAs (Decidable (_ ∧ _))

section Server

/-- What the server keeps: a prefix whose last commit has enough votes on its index. -/
lemma AuthorityService.popUncertified_spec (ctx : Context) (s : Store) (commits : List TrustedCommit) :
    ∃ rest, commits = (popUncertified ctx s commits.reverse).1 ++ rest ∧
      (∀ c ∈ rest, ¬ ctx.committee.IsQuorum (s.votersAt c.index)) ∧
      ∀ last, (popUncertified ctx s commits.reverse).1.getLast? = some last →
        ctx.committee.IsQuorum (s.votersAt last.index) ∧
          (popUncertified ctx s commits.reverse).2 = s.readCommitVotes last.index := by
  induction commits using reverseRecOn with
  | nil => exact ⟨[], rfl, by simp, by simp [popUncertified]⟩
  | append_singleton init c ih =>
    rw [reverse_append, reverse_singleton, singleton_append]
    unfold popUncertified
    dsimp only
    split_ifs with hq <;> rw [StakeAggregator.reachedThreshold_addAll_new] at hq
    · refine ⟨[], by simp, by simp, fun last hlast => ?_⟩
      obtain rfl : c = last := by simpa using hlast
      exact ⟨hq, rfl⟩
    · obtain ⟨rest, he, hrest, hlast⟩ := ih
      exact ⟨rest ++ [c], by rw [← append_assoc, ← he], forall_mem_concat hrest hq, hlast⟩

end Server

section Client

variable {w : WireFormat ctx} {v : BlockVerifier} {peer start stop : ℕ}

def TrustedCommit.parsed (c : TrustedCommit) : CommitDigest × Commit := (c.digest, c.toCommit)

lemma CommitSyncer.parseCommits_chain {done rest : List TrustedCommit}
    (hch : (done ++ rest).IsChain TrustedCommit.Follows)
    (hdig : ∀ c ∈ rest, c.digest = ctx.computeCommitDigest c.toCommit)
    (hfst : ∀ c, (done ++ rest).head? = some c → c.index = start) (hstop : ∀ c ∈ rest, c.index ≤ stop) :
    parseCommits w peer start stop (rest.map fun c => w.encodeCommit c.toCommit)
      (done.map TrustedCommit.parsed) =
      .ok ((done ++ rest).map TrustedCommit.parsed) := by
  induction rest generalizing done with
  | nil => simp [parseCommits]
  | cons c rest ih =>
    have hchk : checkSequence peer start (done.map parsed) c.toCommit = .ok () := by
      unfold checkSequence
      rw [getLast?_map]
      cases hlast : done.getLast? with
      | none =>
        obtain rfl := getLast?_eq_none_iff.mp hlast
        exact if_neg (not_not.mpr (hfst c rfl))
      | some last =>
        have hfol := (isChain_append.mp hch).2.2 last hlast c rfl
        refine if_neg ?_
        rintro (hne | hne)
        · exact hne hfol.1
        · exact hne hfol.2
    have hle := hstop c mem_cons_self
    have hnext : parseCommits w peer start stop (rest.map fun c => w.encodeCommit c.toCommit)
        ((done ++ [c]).map parsed) = .ok ((done ++ [c] ++ rest).map parsed) :=
      ih (by simpa using hch) (fun c' hc' => hdig c' (mem_cons_of_mem c hc')) (by simpa using hfst)
        (fun c' hc' => hstop c' (mem_cons_of_mem c hc'))
    rw [map_cons, parseCommits, w.decodeCommit_encode]
    dsimp only
    rw [hchk, ok_bind, if_neg (not_lt.mpr hle), w.computeDigest_encode, ← hdig c mem_cons_self]
    simpa [parsed] using hnext

def CommitSyncer.countedAuthors (endCommitRef : CommitRef) (blocks : List VerifiedBlock) : List ℕ :=
  blocks.flatMap fun b => (b.commitVotes.filter (· = endCommitRef)).map fun _ => b.author

lemma CommitSyncer.foldlM_countVotes {endCommitRef : CommitRef}
    (hver : ∀ b ∈ blocks, v.verify b.toSignedBlock = .ok ()) (aggregator : StakeAggregator .quorum) :
    (blocks.map fun b => w.encodeBlock b.toSignedBlock).foldlM (countVotes w v endCommitRef) aggregator =
      .ok (aggregator.addAll ctx.committee (countedAuthors endCommitRef blocks)) := by
  induction blocks generalizing aggregator with
  | nil => rfl
  | cons b blocks ih =>
    have hstep : countVotes w v endCommitRef aggregator (w.encodeBlock b.toSignedBlock) =
        .ok (aggregator.addAll ctx.committee ((b.commitVotes.filter (· = endCommitRef)).map fun _ =>
          b.author)) := by
      rw [countVotes, w.decodeBlock_encode]
      dsimp only
      rw [hver b mem_cons_self]
      rfl
    rw [map_cons, foldlM_cons, hstep, ok_bind, ih fun b' hb' => hver b' (mem_cons_of_mem b hb')]
    simp [countedAuthors, StakeAggregator.addAll]

lemma CommitSyncer.verifyCommits_eq_ok_iff {last : TrustedCommit}
    (hch : commits.IsChain TrustedCommit.Follows)
    (hdig : ∀ c ∈ commits, c.digest = ctx.computeCommitDigest c.toCommit)
    (hfst : ∀ c, commits.head? = some c → c.index = start) (hstop : ∀ c ∈ commits, c.index ≤ stop)
    (hlast : commits.getLast? = some last) (hver : ∀ b ∈ blocks, v.verify b.toSignedBlock = .ok ()) :
    verifyCommits w v peer start stop (commits.map fun c => w.encodeCommit c.toCommit)
        (blocks.map fun b => w.encodeBlock b.toSignedBlock) = .ok commits ↔
      ctx.committee.IsQuorum (countedAuthors last.reference blocks).toFinset := by
  have hparse : parseCommits w peer start stop (commits.map fun c => w.encodeCommit c.toCommit) [] =
      .ok (commits.map parsed) :=
    parseCommits_chain (nil_append commits ▸ hch) hdig (nil_append commits ▸ hfst) hstop
  have hres : ((commits.map parsed).zip (commits.map fun c => w.encodeCommit c.toCommit)).map
      (fun p => ({ p.1.2 with digest := w.computeDigest p.2 } : TrustedCommit)) = commits := by
    rw [zip_map', map_map]
    conv_rhs => rw [← map_id commits]
    refine map_congr_left fun c hc => ?_
    simp [parsed, w.computeDigest_encode, ← hdig c hc]
  have hend : (commits.map parsed).getLast? = some last.parsed := by
    rw [getLast?_map, hlast]
    rfl
  rw [verifyCommits, hparse, ok_bind]
  rw [hend]
  change (foldlM (countVotes w v last.reference) _ _ >>= _) = _ ↔ _
  rw [foldlM_countVotes hver, ok_bind, hres, ← StakeAggregator.reachedThreshold_addAll_new]
  cases (StakeAggregator.new.addAll ctx.committee
    (countedAuthors last.reference blocks)).reachedThreshold ctx.committee with
  | true => simp
  | false => simp [bind, Except.bind, throw, throwThe, MonadExceptOf.throw]

end Client

section Agreement

lemma mem_readCommitVotes {i : ℕ} {r : BlockRef} :
    r ∈ s.readCommitVotes i ↔ ∃ vote : CommitVote, vote.index = i ∧ toLex (vote, r) ∈ s.commitVotes := by
  simp only [Store.readCommitVotes, mem_map, mem_filter, Std.TreeSet.mem_toList, decide_eq_true_eq]
  constructor
  · rintro ⟨p, ⟨hp, rfl⟩, rfl⟩
    exact ⟨(ofLex p).1, rfl, hp⟩
  · rintro ⟨vote, rfl, hv⟩
    exact ⟨toLex (vote, r), ⟨hv, rfl⟩, rfl⟩

lemma mem_votersFor {commitRef : CommitRef} {a : ℕ} :
    a ∈ s.votersFor commitRef ↔ ∃ r : BlockRef, toLex (commitRef, r) ∈ s.commitVotes ∧ r.author = a := by
  simp only [Store.votersFor, mem_toFinset, mem_map, mem_filter, Std.TreeSet.mem_toList,
    decide_eq_true_eq]
  constructor
  · rintro ⟨p, ⟨hp, rfl⟩, rfl⟩
    exact ⟨(ofLex p).2, hp, rfl⟩
  · rintro ⟨r, hr, rfl⟩
    exact ⟨toLex (commitRef, r), ⟨hr, rfl⟩, rfl⟩

variable (h : HonestState ctx U d commits)
include h

lemma countedAuthors_eq_votersFor (last : TrustedCommit) :
    (CommitSyncer.countedAuthors last.reference
      ((d.store.readCommitVotes last.index).filterMap fun r => d.store.blocks[r]?)).toFinset =
      d.store.votersFor last.reference := by
  ext a
  rw [mem_votersFor]
  simp only [countedAuthors, mem_toFinset, mem_flatMap, mem_filterMap, mem_map,
    mem_filter, decide_eq_true_eq]
  constructor
  · rintro ⟨b, ⟨r, _, hb⟩, ⟨vote, ⟨hv, rfl⟩, rfl⟩⟩
    obtain ⟨_, rfl⟩ := h.blocks r b hb
    exact ⟨b.reference, (h.votes _ _).mpr ⟨b, hb, hv⟩, rfl⟩
  · rintro ⟨r, hr, rfl⟩
    obtain ⟨b, hb, hv⟩ := (h.votes _ _).mp hr
    obtain ⟨_, rfl⟩ := h.blocks r b hb
    exact ⟨b, ⟨_, mem_readCommitVotes.mpr ⟨_, rfl, hr⟩, hb⟩, last.reference, ⟨hv, rfl⟩, rfl⟩

lemma HonestState.scanCommits (batchSize stop : ℕ) {start : ℕ} (hst : start ≠ 0) :
    (d.store.scanCommits (AuthorityService.scanRange batchSize start stop)).IsChain
      TrustedCommit.Follows ∧
    (∀ c ∈ d.store.scanCommits (AuthorityService.scanRange batchSize start stop),
      c.digest = ctx.computeCommitDigest c.toCommit ∧ c.index ≤ stop) ∧
    (∀ c, (d.store.scanCommits (AuthorityService.scanRange batchSize start stop)).head? = some c →
      c.index = start) ∧
    (d.store.scanCommits (AuthorityService.scanRange batchSize start stop)).Pairwise fun c c' =>
      c.index < c'.index := by
  obtain ⟨n, rfl⟩ := Nat.exists_eq_succ_of_ne_zero hst
  obtain ⟨stored, rfl, hstd⟩ := h.stored
  have hidx : IndexedFromOne stored := by
    intro i c hi
    refine h.index_eq i c ?_
    rwa [List.getElem?_append_left (List.getElem?_eq_some_iff.mp hi).1]
  have hrange : AuthorityService.scanRange batchSize (n + 1) stop =
      ⟨n + 1, min stop (n + batchSize) + 1⟩ := by
    simp only [AuthorityService.scanRange, CommitRange.mk.injEq, true_and]
    omega
  rw [hrange, hstd.scanCommits hidx]
  refine ⟨((isChain_append.mp h.chain).1.take _).drop _, fun c hc => ?_, fun c hc => ?_,
    hidx.pairwise_index.take.drop⟩
  · obtain ⟨i, hi⟩ := getElem?_of_mem (mem_of_mem_drop hc)
    rw [List.getElem?_take, Option.ite_none_right_eq_some] at hi
    have hi' := hidx i c hi.2
    exact ⟨h.digest_eq c (mem_append_left _ (mem_of_getElem? hi.2)), by omega⟩
  · rw [head?_eq_getElem?, getElem?_drop, List.getElem?_take, Option.ite_none_right_eq_some] at hc
    exact hidx _ c hc.2

/-- The genesis commit is never stored, so that a request from index 0 on is answered wrongly. -/
lemma HonestState.verifyCommits_start_zero {w : WireFormat ctx} {v : BlockVerifier} {peer stop : ℕ}
    {response : List TrustedCommit} {blocks : List (List UInt8)}
    (hresponse : ∀ c ∈ response, ∃ k : CommitRef, d.store.commits[k]? = some c) (hne : response ≠ []) :
    CommitSyncer.verifyCommits w v peer 0 stop
      (response.map fun c => w.encodeCommit c.toCommit) blocks ≠ .ok response := by
  obtain ⟨c, rest, rfl⟩ := exists_cons_of_ne_nil hne
  obtain ⟨k, hk⟩ := hresponse c mem_cons_self
  obtain ⟨stored, rfl, hstd⟩ := h.stored
  obtain ⟨i, hi⟩ := getElem?_of_mem (mem_append_left d.commitsToWrite ((hstd k c).mp hk).1)
  have hidx : c.index ≠ 0 := by rw [h.index_eq i c hi]; omega
  rw [verifyCommits, map_cons, parseCommits, w.decodeCommit_encode]
  dsimp only
  have hchk : checkSequence peer 0 [] c.toCommit = .error (.unexpectedStartCommit peer 0 c.toCommit) :=
    if_pos hidx
  rw [hchk]
  simp

omit h

/-- The response of an honest authority is accepted exactly when the votes on its last commit
alone have quorum stake. -/
theorem fetchedCommits_verified_iff {v : SignedBlockVerifier}
    (hverified : ∀ b ∈ U, v.verify b.toSignedBlock = .ok ())
    (hinj : ∀ b ∈ U, ∀ b' ∈ U, b.reference = b'.reference → b = b')
    (hrun : AuthorityRun v.context U d commits)
    (w : WireFormat v.context) (peer commitSyncBatchSize start stop : ℕ)
    (hne : (AuthorityService.handleFetchCommits v.context commitSyncBatchSize d.store start
      stop).1 ≠ []) :
    CommitSyncer.verifyCommits w v.toBlockVerifier peer start stop
        ((AuthorityService.handleFetchCommits v.context commitSyncBatchSize d.store start stop).1.map
          fun c => w.encodeCommit c.toCommit)
        ((AuthorityService.handleFetchCommits v.context commitSyncBatchSize d.store start stop).2.map
          fun b => w.encodeBlock b.toSignedBlock) =
        .ok (AuthorityService.handleFetchCommits v.context commitSyncBatchSize d.store start stop).1 ↔
      CertifiedByExactVotes v.context commitSyncBatchSize d.store start stop := by
  have h := hrun.honestState hinj
  obtain ⟨rest, hscan, hrest, hlast⟩ := AuthorityService.popUncertified_spec v.context d.store
    (d.store.scanCommits (AuthorityService.scanRange commitSyncBatchSize start stop))
  unfold AuthorityService.handleFetchCommits at hne ⊢
  dsimp only at hne ⊢
  generalize AuthorityService.popUncertified v.context d.store
    (d.store.scanCommits (AuthorityService.scanRange commitSyncBatchSize start stop)).reverse =
      response at hscan hlast hne ⊢
  obtain ⟨response, votes⟩ := response
  by_cases hstart : start = 0
  · subst hstart
    refine iff_of_false (h.verifyCommits_start_zero (fun c hc => ?_) hne) (fun hcert => hcert.1 rfl)
    have hmem : c ∈ d.store.scanCommits (AuthorityService.scanRange commitSyncBatchSize 0 stop) :=
      hscan ▸ mem_append_left rest hc
    obtain ⟨k, hk, _⟩ := mem_map_snd_filter.mp hmem
    exact ⟨k, hk⟩
  obtain ⟨hchain, hall, hfirst, hsorted⟩ := h.scanCommits commitSyncBatchSize stop hstart
  rw [hscan] at hchain hall hfirst hsorted
  obtain ⟨last, hgetLast⟩ : ∃ last, response.getLast? = some last :=
    Option.ne_none_iff_exists'.mp (mt getLast?_eq_none_iff.mp hne)
  obtain ⟨hquorum, rfl⟩ := hlast last hgetLast
  have hmemLast := mem_of_getLast? hgetLast
  rw [verifyCommits_eq_ok_iff (isChain_append.mp hchain).1
    (fun c hc => (hall c (mem_append_left _ hc)).1) ?_
      (fun c hc => (hall c (mem_append_left _ hc)).2) hgetLast ?_,
    countedAuthors_eq_votersFor h]
  · refine ⟨fun hexact => ⟨hstart, ?_⟩, fun hcert => ?_⟩
    · -- The only commit of the range with this property is the last one that was sent.
      rw [hscan]
      intro c hc hq hhigher
      rcases mem_append.mp hc with hc | hc
      · rcases rel_or_eq_last (pairwise_append.mp hsorted).1 hgetLast hc with hlt | rfl
        · exact absurd hquorum (hhigher last (mem_append_left _ hmemLast) hlt)
        · exact hexact
      · exact absurd hq (hrest c hc)
    · refine hcert.2 last (hscan ▸ mem_append_left _ hmemLast) hquorum ?_
      rw [hscan]
      intro c hc hlt hq
      rcases mem_append.mp hc with hc | hc
      · rcases rel_or_eq_last (pairwise_append.mp hsorted).1 hgetLast hc with hgt | rfl
        · exact lt_asymm hlt hgt
        · exact lt_irrefl _ hlt
      · exact hrest c hc hq
  · intro c hc
    refine hfirst c ?_
    obtain ⟨tail, rfl⟩ := head?_eq_some_iff.mp hc
    rfl
  · intro b hb
    obtain ⟨r, _, hr⟩ := mem_filterMap.mp hb
    exact hverified b (h.blocks r b hr).1

end Agreement

instance encodableUInt8 : Encodable UInt8 :=
  Encodable.ofLeftInverse UInt8.toNat UInt8.ofNat (fun _ => UInt8.ofNat_toNat)

deriving instance Encodable for BlockRef, CommitRef, Transaction, Block, SignedBlock, Commit

/-- A wire format that counts: a value is as many bytes as its number. -/
def WireFormat.counting (ctx : Context) : WireFormat ctx where
  encodeCommit c := List.replicate (Encodable.encode c) 0
  decodeCommit bytes := Encodable.decode bytes.length
  computeDigest bytes := ((Encodable.decode bytes.length).map ctx.computeCommitDigest).getD 0
  encodeBlock b := List.replicate (Encodable.encode b) 0
  decodeBlock bytes := Encodable.decode bytes.length
  decodeCommit_encode c := by rw [length_replicate, Encodable.encodek]
  decodeBlock_encode b := by rw [length_replicate, Encodable.encodek]
  computeDigest_encode c := by
    rw [length_replicate, Encodable.encodek, Option.map_some, Option.getD_some]

namespace fourAuthorities

def votingBlock (author : ℕ) (vote : CommitVote) : VerifiedBlock :=
  .newVerified fourAuthorities ⟨⟨0, 4, author, 4, links 3 author (List.range 4), [], [vote]⟩, []⟩

def votingBlocks (vote : CommitVote) : List VerifiedBlock :=
  [votingBlock 0 ⟨1, 1⟩, votingBlock 1 ⟨1, 1⟩, votingBlock 2 vote]

/-- Three rounds, a commit of a leader of the first one, and the votes on it. -/
def commitWithVotes (vote : CommitVote) : Except Panic DagState := do
  let d ← DagState.new fourAuthorities .empty
  let d ← d.acceptBlocks fourAuthorities 10 (fullRounds 3)
  let d ← d.addCommit (Linearizer.nextCommit fourAuthorities d (fullBlock 1 1) [fullBlock 1 1])
  let d ← d.acceptBlocks fourAuthorities 10 (votingBlocks vote)
  return d.flush fourAuthorities

lemma commitWithVotes_run {vote : CommitVote} (h : commitWithVotes vote = .ok d) :
    ∃ commits, AuthorityRun fourAuthorities {b | b ∈ fullRounds 3 ++ votingBlocks vote} d commits := by
  obtain ⟨d₀, h₀, h⟩ := bind_eq_ok.mp h
  obtain ⟨d₁, h₁, h⟩ := bind_eq_ok.mp h
  obtain ⟨d₂, h₂, h⟩ := bind_eq_ok.mp h
  obtain ⟨d₃, h₃, h⟩ := bind_eq_ok.mp h
  cases h
  exact ⟨_, ((((AuthorityRun.start h₀).acceptBlocks (fun b hb => mem_append_left _ hb) h₁).addCommit
    _ _ h₂).acceptBlocks
    (fun b hb => mem_append_right _ hb) h₃).flush⟩

end fourAuthorities

open fourAuthorities in
/-- One vote on another commit of the same index certifies the commit for the server only. -/
theorem fetchedCommits_conflictingVote :
    ∃ d commits, AuthorityRun fourAuthorities {b | b ∈ fullRounds 3 ++ votingBlocks ⟨1, 7⟩} d commits ∧
      (∀ b ∈ fullRounds 3 ++ votingBlocks ⟨1, 7⟩,
        (⟨fourAuthorities, fun _ => true, fun _ => true⟩ : SignedBlockVerifier).verify
          b.toSignedBlock = .ok ()) ∧
      (AuthorityService.handleFetchCommits fourAuthorities 100 d.store 1 1).1.length = 1 ∧
      ∀ (w : WireFormat fourAuthorities) (peer : ℕ),
        CommitSyncer.verifyCommits w
          (⟨fourAuthorities, fun _ => true,
            fun _ => true⟩ : SignedBlockVerifier).toBlockVerifier peer 1 1
          ((AuthorityService.handleFetchCommits fourAuthorities 100 d.store 1 1).1.map fun c =>
            w.encodeCommit c.toCommit)
          ((AuthorityService.handleFetchCommits fourAuthorities 100 d.store 1 1).2.map
            fun b => w.encodeBlock b.toSignedBlock) ≠
          .ok (AuthorityService.handleFetchCommits fourAuthorities 100 d.store 1 1).1 := by
  obtain ⟨d, hd, hp⟩ := exists_of_returns (x := commitWithVotes ⟨1, 7⟩)
    (p := fun d => decide (AuthorityService.handleFetchCommits fourAuthorities 100 d.store 1 1 =
      ([⟨⟨1, 0, 1, ref 1 1, [ref 1 1]⟩, 1⟩], votingBlocks ⟨1, 7⟩))) (by decide +kernel)
  obtain ⟨commits, hrun⟩ := commitWithVotes_run hd
  refine ⟨d, commits, hrun, by decide +kernel, ?_, ?_⟩
  · rw [of_decide_eq_true hp]
    rfl
  · intro w peer
    rw [of_decide_eq_true hp, Ne, verifyCommits_eq_ok_iff (isChain_singleton _) (by decide) (by decide)
      (by decide) rfl (by decide +kernel)]
    decide +kernel

open fourAuthorities in
/-- Three votes on the commit itself certify it on both sides. -/
theorem fetchedCommits_verified_sameVote :
    ∃ d commits, AuthorityRun fourAuthorities {b | b ∈ fullRounds 3 ++ votingBlocks ⟨1, 1⟩} d commits ∧
      (AuthorityService.handleFetchCommits fourAuthorities 100 d.store 1 1).1 ≠ [] ∧
      CommitSyncer.verifyCommits (.counting fourAuthorities)
        (⟨fourAuthorities, fun _ => true, fun _ => true⟩ : SignedBlockVerifier).toBlockVerifier 2 1 1
        ((AuthorityService.handleFetchCommits fourAuthorities 100 d.store 1 1).1.map
          fun c => (WireFormat.counting fourAuthorities).encodeCommit c.toCommit)
        ((AuthorityService.handleFetchCommits fourAuthorities 100 d.store 1 1).2.map
          fun b => (WireFormat.counting fourAuthorities).encodeBlock b.toSignedBlock) =
        .ok (AuthorityService.handleFetchCommits fourAuthorities 100 d.store 1 1).1 := by
  obtain ⟨d, hd, hp⟩ := exists_of_returns (x := commitWithVotes ⟨1, 1⟩)
    (p := fun d =>
      decide ((AuthorityService.handleFetchCommits fourAuthorities 100 d.store 1 1).1 ≠ []) &&
      decide (CertifiedByExactVotes fourAuthorities 100 d.store 1 1)) (by decide +kernel)
  rw [Bool.and_eq_true, decide_eq_true_eq, decide_eq_true_eq] at hp
  obtain ⟨commits, hrun⟩ := commitWithVotes_run hd
  refine ⟨d, commits, hrun, hp.1, ?_⟩
  exact (fetchedCommits_verified_iff (v := ⟨fourAuthorities, fun _ => true, fun _ => true⟩)
    (show ∀ b ∈ fullRounds 3 ++ votingBlocks ⟨1, 1⟩, _ by decide +kernel)
    (show ∀ b ∈ fullRounds 3 ++ votingBlocks ⟨1, 1⟩,
      ∀ b' ∈ fullRounds 3 ++ votingBlocks ⟨1, 1⟩, _ by decide +kernel)
    hrun _ 2 100 1 1 hp.1).mpr hp.2

end SuiProofs.Consensus

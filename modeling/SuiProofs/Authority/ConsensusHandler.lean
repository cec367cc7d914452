import SuiProofs.Library.Lru
import SuiProofs.Authority.EpochRun

/-! Models `consensus_handler.rs` of `sui-core`: an output becomes a commit, with its transactions
in order and without repetitions. -/

namespace SuiProofs.Authority

open Library List

/-- The transactions of an authority; the deprecated randomness updates are not processed. -/
inductive ConsensusOutputTransaction where
  | transaction (kind : ConsensusTransactionKind)
  | randomnessStateUpdate (randomnessRound : ℕ)
deriving DecidableEq, Repr

structure ConsensusOutput where
  leaderRound : ℕ
  leaderAuthorIndex : ℕ
  commitTimestampMs : ℕ
  commitSubDagIndex : ℕ
  transactions : List (ℕ × List ConsensusOutputTransaction)
  consensusDigest : Fin (2 ^ 256)
deriving DecidableEq, Repr

def ConsensusCommitInfo.new (consensusOutput : ConsensusOutput) : ConsensusCommitInfo :=
  ⟨consensusOutput.leaderRound, consensusOutput.commitTimestampMs, consensusOutput.consensusDigest⟩

structure ConsensusCommitPrologue where
  epoch : ℕ
  round : ℕ
  commitTimestampMs : ℕ
  consensusCommitDigest : Option (Fin (2 ^ 256))
deriving DecidableEq, Repr

structure ExecutionIndices where
  lastCommittedRound : ℕ
  subDagIndex : ℕ
  transactionIndex : ℕ
deriving DecidableEq, Repr

/-- The derived order. -/
def ExecutionIndices.key (index : ExecutionIndices) : ℕ ×ₗ ℕ ×ₗ ℕ :=
  toLex (index.lastCommittedRound, toLex (index.subDagIndex, index.transactionIndex))

structure HandlerConfig where
  epochConfig : EpochConfig
  epochStartTimestampMs : ℕ
  includeConsensusDigestInPrologue : Bool
  authorities : List AuthorityName
  processedCacheCap : ℕ

inductive HandlerPanic where
  | roundBeforeLastCommitted (round : ℕ)
  | indexNotIncreasing
  | unknownAuthority (index : ℕ)
  | commit (panic : CommitPanic)
deriving DecidableEq, Repr

structure ConsensusHandler where
  index : ExecutionIndices
  processedCache : Lru SequencedConsensusTransactionKey Unit
  throughput : List (ℕ × ℕ)

namespace ConsensusHandler

def new : ConsensusHandler := ⟨⟨0, 0, 0⟩, .empty, []⟩

def updateIndexAndHash (handler : ConsensusHandler) (index : ExecutionIndices) :
    Except HandlerPanic ConsensusHandler :=
  if handler.index.key < index.key then .ok { handler with index := index }
  else .error .indexNotIncreasing

def sequencedTransactions (consensusOutput : ConsensusOutput)
    (authenticatorStateUpdate : Option VerifiedExecutableTransaction) :
    List (SequencedConsensusTransactionKind × ℕ) :=
  (authenticatorStateUpdate.toList.map fun tx => (.system tx, consensusOutput.leaderAuthorIndex)) ++
    consensusOutput.transactions.flatMap fun authority => authority.2.filterMap fun
      | .transaction kind => some (.external kind, authority.1)
      | .randomnessStateUpdate _ => none

/-- The loop that removes repetitions: the handler, the keys seen in this output, the
transactions. -/
structure Dedup where
  handler : ConsensusHandler
  processedSet : Finset SequencedConsensusTransactionKey
  allTransactions : List SequencedConsensusTransaction

def Dedup.step (cfg : HandlerConfig) (consensusOutput : ConsensusOutput) (acc : Dedup)
    (entry : (SequencedConsensusTransactionKind × ℕ) × ℕ) : Except HandlerPanic Dedup := do
  let handler ← acc.handler.updateIndexAndHash ⟨consensusOutput.leaderRound,
    consensusOutput.commitSubDagIndex, entry.2 + 1⟩
  match cfg.authorities[entry.1.2]? with
  | none => .error (.unknownAuthority entry.1.2)
  | some certificateAuthor =>
    let sequenced : SequencedConsensusTransaction := ⟨certificateAuthor, entry.1.1⟩
    let inSet := sequenced.key ∈ acc.processedSet
    let (cache, old) := handler.processedCache.push sequenced.key ()
    let handler := { handler with processedCache := cache.shrink cfg.processedCacheCap }
    let processedSet := insert sequenced.key acc.processedSet
    if inSet ∨ old.isSome then .ok ⟨handler, processedSet, acc.allTransactions⟩
    else .ok ⟨handler, processedSet, acc.allTransactions ++ [sequenced]⟩

structure HandledCommit where
  info : ConsensusCommitInfo
  prologue : ConsensusCommitPrologue
  output : CommitOutput

/-- A commit of a new round is processed; the same commit may be received twice. -/
def handleConsensusOutput (cfg : HandlerConfig) (handler : ConsensusHandler)
    (store : AuthorityPerEpochStore)
    (consensusOutput : ConsensusOutput) (manager : RandomnessManager)
    (authenticatorStateUpdate : Option VerifiedExecutableTransaction) :
    Except HandlerPanic (ConsensusHandler × AuthorityPerEpochStore × Option HandledCommit) :=
  let round := consensusOutput.leaderRound
  let lastCommittedRound := handler.index.lastCommittedRound
  if round < lastCommittedRound then .error (.roundBeforeLastCommitted round)
  else if lastCommittedRound = round then .ok (handler, store, none)
  else do
    let timestamp := if consensusOutput.commitTimestampMs < cfg.epochStartTimestampMs then
      cfg.epochStartTimestampMs
      else consensusOutput.commitTimestampMs
    let handler ← handler.updateIndexAndHash ⟨round, consensusOutput.commitSubDagIndex, 0⟩
    let transactions := sequencedTransactions consensusOutput authenticatorStateUpdate
    let dedup ← transactions.zipIdx.foldlM (Dedup.step cfg consensusOutput) ⟨handler, ∅, []⟩
    let info := ConsensusCommitInfo.new consensusOutput
    let prologue : ConsensusCommitPrologue := ⟨cfg.epochConfig.epoch, info.round, info.timestamp,
      if cfg.includeConsensusDigestInPrologue then some info.consensusCommitDigest else none⟩
    match processConsensusTransactionsAndCommitBoundary cfg.epochConfig store dedup.allTransactions
      manager info with
    | .error panic => .error (.commit panic)
    | .ok (store, output) =>
      let throughput := dedup.handler.throughput ++ [(timestamp, output.transactionsToSchedule.length)]
      return ({ dedup.handler with throughput := throughput }, store, some ⟨info, prologue, output⟩)

def HandledCommit.timestamps (commit : HandledCommit) : List ℕ :=
  commit.prologue.commitTimestampMs :: commit.output.pendingCheckpoints.map PendingCheckpoint.timestampMs

/-- The outputs of an epoch and the commits made from them. A restart forgets the cache of processed
transactions. -/
inductive Run (cfg : HandlerConfig) :
    ConsensusHandler → AuthorityPerEpochStore → List ConsensusOutput → List HandledCommit → Prop
  | start : Run cfg .new .new [] []
  | handle {handler handler' : ConsensusHandler} {store store' : AuthorityPerEpochStore}
      {outputs : List ConsensusOutput}
      {commits : List HandledCommit} {consensusOutput : ConsensusOutput} {manager : RandomnessManager}
      {authenticatorStateUpdate : Option VerifiedExecutableTransaction} {commit : Option HandledCommit} :
      Run cfg handler store outputs commits →
      handleConsensusOutput cfg handler store consensusOutput manager authenticatorStateUpdate =
        .ok (handler', store', commit) →
      Run cfg handler' store' (outputs ++ [consensusOutput]) (commits ++ commit.toList)
  | closeUserCerts {handler : ConsensusHandler} {store : AuthorityPerEpochStore}
      {outputs : List ConsensusOutput}
      {commits : List HandledCommit} : Run cfg handler store outputs commits →
      Run cfg handler { store with reconfigState := store.reconfigState.closeUserCerts } outputs commits
  | restart {handler : ConsensusHandler} {store : AuthorityPerEpochStore}
      {outputs : List ConsensusOutput}
      {commits : List HandledCommit} : Run cfg handler store outputs commits →
      Run cfg { handler with processedCache := .empty, throughput := [] } store outputs commits

section Runs

variable {cfg : HandlerConfig} {handler handler' : ConsensusHandler}
  {store store' : AuthorityPerEpochStore} {outputs : List ConsensusOutput}
  {commits : List HandledCommit} {consensusOutput : ConsensusOutput} {manager : RandomnessManager}
  {authenticatorStateUpdate : Option VerifiedExecutableTransaction} {commit : Option HandledCommit}

lemma updateIndexAndHash_ok {index : ExecutionIndices}
    (h : handler.updateIndexAndHash index = .ok handler') : handler'.index = index := by
  unfold updateIndexAndHash at h
  split_ifs at h
  rw [← Except.ok.inj h]

lemma Dedup.step_index {acc acc' : Dedup} {entry : (SequencedConsensusTransactionKind × ℕ) × ℕ}
    (h : acc.step cfg consensusOutput entry = .ok acc') :
    acc'.handler.index.lastCommittedRound = consensusOutput.leaderRound := by
  obtain ⟨handler, hidx, h⟩ := bind_eq_ok.mp h
  have hrd : handler.index.lastCommittedRound = consensusOutput.leaderRound := by
    rw [updateIndexAndHash_ok hidx]
  split at h
  · cases h
  · dsimp only at h
    split_ifs at h <;> rw [← Except.ok.inj h] <;> exact hrd

lemma timestampMs_of_mem_pendingCheckpointsOf {epochConfig : EpochConfig} {loaded : LoadedCommit}
    {loop : CommitLoop}
    {endOfPublish : EndOfPublishLoop} {finalRound : Bool} {info : ConsensusCommitInfo}
    {checkpoint : PendingCheckpoint}
    (h : checkpoint ∈ pendingCheckpointsOf epochConfig loaded loop endOfPublish finalRound info) :
    checkpoint.timestampMs = info.timestamp := by
  unfold pendingCheckpointsOf at h
  by_cases hmake : (endOfPublish.reconfigState.shouldAcceptTx || finalRound) = true
  · rw [if_pos hmake] at h
    cases hrd : loaded.randomnessRound with
    | none =>
      rw [hrd] at h
      rw [mem_singleton.mp h]
    | some randomnessRound =>
      rw [hrd] at h
      rcases mem_cons.mp h with rfl | h
      · rfl
      · rw [mem_singleton.mp h]
  · rw [if_neg hmake] at h
    cases h

lemma handleConsensusOutput_ok
    (h : handleConsensusOutput cfg handler store consensusOutput manager authenticatorStateUpdate =
      .ok (handler', store', commit)) :
    (handler.index.lastCommittedRound = consensusOutput.leaderRound ∧ handler' = handler ∧
      commit = none) ∨
    (handler'.index.lastCommittedRound = consensusOutput.leaderRound ∧
      ∃ handled, commit = some handled ∧ handled.info = .new consensusOutput ∧
        ∀ t ∈ handled.timestamps, t = consensusOutput.commitTimestampMs) := by
  unfold handleConsensusOutput at h
  dsimp only at h
  by_cases hbef : consensusOutput.leaderRound < handler.index.lastCommittedRound
  · rw [if_pos hbef] at h
    cases h
  rw [if_neg hbef] at h
  by_cases hsame : handler.index.lastCommittedRound = consensusOutput.leaderRound
  · rw [if_pos hsame] at h
    obtain ⟨rfl, hrest⟩ := Prod.mk.inj (Except.ok.inj h)
    exact .inl ⟨hsame, rfl, (Prod.mk.inj hrest).2.symm⟩
  rw [if_neg hsame] at h
  right
  obtain ⟨first, hfst, h⟩ := bind_eq_ok.mp h
  obtain ⟨dedup, hdedup, h⟩ := bind_eq_ok.mp h
  have hrd : dedup.handler.index.lastCommittedRound = consensusOutput.leaderRound := by
    refine foldlM_ok_induction (fun acc : Dedup =>
      acc.handler.index.lastCommittedRound = consensusOutput.leaderRound)
      (fun _ _ _ _ _ hstep => Dedup.step_index hstep) ?_ hdedup
    rw [updateIndexAndHash_ok hfst]
  split at h
  · cases h
  · rename_i store₁ output hproc
    obtain ⟨rfl, hrest⟩ := Prod.mk.inj (Except.ok.inj h)
    obtain ⟨parts⟩ := nonempty_commitParts hproc
    refine ⟨hrd, _, (Prod.mk.inj hrest).2.symm, rfl, fun t ht => ?_⟩
    rcases mem_cons.mp ht with rfl | ht
    · rfl
    · obtain ⟨checkpoint, hcp, rfl⟩ := mem_map.mp ht
      rw [parts.pendingCheckpoints] at hcp
      exact timestampMs_of_mem_pendingCheckpointsOf hcp

def Increasing (outputs : List ConsensusOutput) : Prop :=
  (∀ o ∈ outputs, 0 < o.leaderRound) ∧ outputs.Pairwise fun a b => a.leaderRound < b.leaderRound

lemma Run.forall₂_timestamps (hrun : Run cfg handler store outputs commits) (hrs : Increasing outputs) :
    (handler.index.lastCommittedRound = 0 ∨
      ∃ o ∈ outputs, o.leaderRound = handler.index.lastCommittedRound) ∧
      List.Forall₂
        (fun commit o => ∀ t, t ∈ HandledCommit.timestamps commit ↔
          t = ConsensusOutput.commitTimestampMs o) commits outputs := by
  induction hrun with
  | start => exact ⟨.inl rfl, .nil⟩
  | closeUserCerts _ ih | restart _ ih => exact ih hrs
  | @handle handler handler' store store' outputs commits consensusOutput manager
      authenticatorStateUpdate commit hrun hhdl ih =>
    have hbef : Increasing outputs :=
      ⟨fun o ho => hrs.1 o (mem_append_left _ ho), (pairwise_append.mp hrs.2).1⟩
    obtain ⟨hlast, hcomms⟩ := ih hbef
    have hnew : handler.index.lastCommittedRound < consensusOutput.leaderRound := by
      rcases hlast with hzero | ⟨o, ho, heq⟩
      · rw [hzero]
        exact hrs.1 consensusOutput (by simp)
      · rw [← heq]
        exact (pairwise_append.mp hrs.2).2.2 o ho consensusOutput (by simp)
    rcases handleConsensusOutput_ok hhdl with ⟨hsame, -, -⟩ | ⟨hrd, handled, rfl, -, htimes⟩
    · exact absurd hsame hnew.ne
    · refine ⟨.inr ⟨consensusOutput, by simp, hrd.symm⟩, ?_⟩
      have hone : List.Forall₂ (fun commit o =>
        ∀ t, t ∈ HandledCommit.timestamps commit ↔ t = ConsensusOutput.commitTimestampMs o)
          (some handled).toList [consensusOutput] := by
        refine .cons (fun t => ⟨htimes t, fun ht => ?_⟩) .nil
        rw [ht, ← htimes handled.prologue.commitTimestampMs mem_cons_self]
        exact mem_cons_self
      exact rel_append hcomms hone

/-- Outputs with increasing rounds and non-decreasing timestamps: the timestamps of the prologues
and of the pending checkpoints do not decrease over the epoch, and they are never before the start
of the epoch exactly if those of the outputs are not. -/
theorem commit_timestamps_iff (cfg : HandlerConfig) (handler : ConsensusHandler)
    (store : AuthorityPerEpochStore) (outputs : List ConsensusOutput) (commits : List HandledCommit)
    (hrun : Run cfg handler store outputs commits) (hrounds : Increasing outputs)
    (htimestamps : outputs.Pairwise fun a b => a.commitTimestampMs ≤ b.commitTimestampMs) :
    (commits.flatMap HandledCommit.timestamps).Pairwise (· ≤ ·) ∧
      ((∀ t ∈ commits.flatMap HandledCommit.timestamps, cfg.epochStartTimestampMs ≤ t) ↔
        ∀ o ∈ outputs, cfg.epochStartTimestampMs ≤ o.commitTimestampMs) := by
  have hcommits := (hrun.forall₂_timestamps hrounds).2
  clear hrun hrounds
  -- Every timestamp is that of an output, in the order of the outputs.
  suffices h : (commits.flatMap HandledCommit.timestamps).Pairwise (· ≤ ·) ∧
      ((∀ t ∈ commits.flatMap HandledCommit.timestamps, cfg.epochStartTimestampMs ≤ t) ↔
        ∀ o ∈ outputs, cfg.epochStartTimestampMs ≤ o.commitTimestampMs) ∧
      ∀ t ∈ commits.flatMap HandledCommit.timestamps,
        ∃ o ∈ outputs, t = o.commitTimestampMs from ⟨h.1, h.2.1⟩
  induction hcommits with
  | nil => simp
  | @cons commit o commits outputs hone hrest ih =>
    rw [pairwise_cons] at htimestamps
    obtain ⟨hsorted, hstart, hmem⟩ := ih htimestamps.2
    rw [flatMap_cons]
    refine ⟨pairwise_append.mpr ⟨?_, hsorted, fun t ht t' ht' => ?_⟩, ?_, fun t ht => ?_⟩
    · apply pairwise_of_forall_mem_list
      intro t ht t' ht'
      rw [(hone t).mp ht, (hone t').mp ht']
    · obtain ⟨o', ho', rfl⟩ := hmem t' ht'
      rw [(hone t).mp ht]
      exact htimestamps.1 o' ho'
    · rw [forall_mem_append, forall_mem_cons, hstart]
      refine and_congr_left' ⟨fun h => h _ ((hone _).mpr rfl), fun h t ht => ?_⟩
      rw [(hone t).mp ht]
      exact h
    · rcases mem_append.mp ht with ht | ht
      · exact ⟨o, mem_cons_self, (hone t).mp ht⟩
      · obtain ⟨o', ho', heq⟩ := hmem t ht
        exact ⟨o', mem_cons_of_mem o ho', heq⟩

end Runs

def lateEpoch : HandlerConfig :=
  ⟨⟨Committee.sole, false, .none, 0, 0, .none,
    fun _ => ⟨⟨0, 0, [.sharedMoveObject 6 1 true], []⟩, 0, 0, .other⟩⟩, 100, true, [1], 16⟩

def emptyOutput (timestamp : ℕ) : ConsensusOutput := ⟨1, 0, timestamp, 1, [], 0⟩

lemma run_emptyOutput (timestamp : ℕ)
    (h : returns (handleConsensusOutput lateEpoch .new .new (emptyOutput timestamp)
      ⟨.pending, none⟩ none)
      (fun r => r.2.2.any fun commit => commit.timestamps.contains timestamp) = true) :
    ∃ handler store commit, Run lateEpoch handler store [emptyOutput timestamp] [commit] ∧
      timestamp ∈ HandledCommit.timestamps commit := by
  obtain ⟨⟨handler, store, commit⟩, hhdl, hreturns⟩ := exists_of_returns h
  obtain ⟨handled, hsome, hin⟩ := (Option.any_eq_true ..).mp hreturns
  subst hsome
  exact ⟨handler, store, handled, Run.handle Run.start hhdl, contains_iff_mem.mp hin⟩

/-- A commit whose leader comes after the start of the epoch. -/
theorem commit_timestamps_after_start :
    ∃ handler store commit, Run lateEpoch handler store [emptyOutput 150] [commit] ∧
    ∀ t ∈ [commit].flatMap HandledCommit.timestamps, 100 ≤ t := by
  obtain ⟨handler, store, commit, hrun, -⟩ := run_emptyOutput 150 (by decide +kernel)
  refine ⟨handler, store, commit, hrun, ?_⟩
  exact (commit_timestamps_iff lateEpoch handler store [emptyOutput 150] [commit] hrun
    ⟨by decide, by decide⟩ (by decide)).2.mpr (by decide)

/-- The timestamp of a leader before the start of the epoch gets into the commit. -/
theorem commit_timestamps_before_start :
    ∃ handler store commit, Run lateEpoch handler store [emptyOutput 50] [commit] ∧
    Increasing [emptyOutput 50] ∧
      ∃ t ∈ [commit].flatMap HandledCommit.timestamps, t < lateEpoch.epochStartTimestampMs := by
  obtain ⟨handler, store, commit, hrun, hin⟩ := run_emptyOutput 50 (by decide +kernel)
  refine ⟨handler, store, commit, hrun, ⟨by decide, by decide⟩, 50, ?_, by decide⟩
  rw [flatMap_singleton]
  exact hin

end ConsensusHandler

end SuiProofs.Authority

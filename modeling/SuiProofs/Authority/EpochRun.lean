import SuiProofs.Authority.CommitResults

namespace SuiProofs.Authority

open Library

/-- The phases of a commit that was processed, with what each left in the store. -/
structure CommitParts (cfg : EpochConfig) (store : AuthorityPerEpochStore)
    (transactions : List SequencedConsensusTransaction)
    (manager : RandomnessManager) (info : ConsensusCommitInfo) (store' : AuthorityPerEpochStore)
    (output : CommitOutput) where
  commit : LoadedCommit
  loop : CommitLoop
  final : CommitLoop
  endOfPublish : EndOfPublishLoop
  load : loadCommit cfg store transactions manager info = .ok commit
  ran : loop.Ran cfg store commit.ctx (rootsOf (commit.system ++ commit.sequenced))
    (rootsOf commit.randomness)
    (commit.system ++ reorder cfg commit.sequenced ++ reorder cfg commit.randomness)
  prologue : loop.addConsensusCommitPrologueTransaction cfg store info = .ok final
  reconfig : processEndOfPublishTransactionsAndReconfig cfg store commit.endOfPublish
    (!final.deferredTxns.isEmpty) =
    .ok (endOfPublish, output.finalRound)
  checkpoints : (pendingCheckpointsOf cfg commit final endOfPublish output.finalRound info).foldlM
    writePendingCheckpoint
    store.pendingCheckpoints = .ok store'.pendingCheckpoints
  not_failed : commit.randomnessRound.isSome = true → commit.ctx.dkgFailed = false
  deferredTransactions : store'.deferredTransactions =
    final.deferredTxns.toList.foldl (fun m e => m.insert e.1 e.2)
    (commit.loaded.foldl (fun m e => m.erase e.1) store.deferredTransactions)
  processed : store'.consensusMessageProcessed =
    store.consensusMessageProcessed ∪ final.processed ∪ endOfPublish.processed
  endOfPublish_eq : store'.endOfPublish = endOfPublish.endOfPublish
  reconfigState : store'.reconfigState = endOfPublish.reconfigState
  scheduled : output.transactionsToSchedule = final.verifiedCertificates
  results : output.results = final.results
  deferralWrites : output.deferralWrites = final.deferredTxns.toList
  pendingCheckpoints : output.pendingCheckpoints =
    pendingCheckpointsOf cfg commit final endOfPublish output.finalRound info
  randomnessRound : output.randomnessRound = commit.randomnessRound

section Parts

variable {cfg : EpochConfig} {store store' : AuthorityPerEpochStore}
  {transactions : List SequencedConsensusTransaction}
  {manager : RandomnessManager} {info : ConsensusCommitInfo} {output : CommitOutput}

lemma nonempty_commitParts
    (h : processConsensusTransactionsAndCommitBoundary cfg store transactions manager info =
      .ok (store', output)) :
    Nonempty (CommitParts cfg store transactions manager info store' output) := by
  obtain ⟨commit, hload, h⟩ := bind_eq_ok.mp h
  obtain ⟨⟨final, endOfPublish, finalRound⟩, hproc, h⟩ := bind_eq_ok.mp h
  obtain ⟨checkpoints, hcps, h⟩ := bind_eq_ok.mp h
  cases h
  unfold processConsensusTransactions at hproc
  split_ifs at hproc with hfailed
  obtain ⟨loop, hloop, hproc⟩ := bind_eq_ok.mp hproc
  obtain ⟨final', hprologue, hproc⟩ := bind_eq_ok.mp hproc
  obtain ⟨⟨endOfPublish', finalRound'⟩, hreconfig, hproc⟩ := bind_eq_ok.mp hproc
  obtain ⟨rfl, hrest⟩ := Prod.mk.inj (Except.ok.inj hproc)
  obtain ⟨rfl, rfl⟩ := Prod.mk.inj hrest
  refine ⟨⟨commit, loop, final', endOfPublish', hload, CommitLoop.ran_of_foldlM hloop, hprologue,
    hreconfig, hcps,
    fun hsome => ?_, rfl, rfl, rfl, rfl, rfl, rfl, rfl, rfl, rfl⟩⟩
  rw [hsome, Bool.true_and, Bool.not_eq_true] at hfailed
  exact hfailed

end Parts

end SuiProofs.Authority

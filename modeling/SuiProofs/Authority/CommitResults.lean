import SuiProofs.Authority.PerEpochStore

namespace SuiProofs.Authority

open Library List Option ConsensusCertificateResult
open Std (TreeMap TreeSet)

namespace ConsensusCertificateResult

def scheduled : ConsensusCertificateResult → Option VerifiedExecutableTransaction
  | suiTransaction tx => some tx
  | cancelled tx _ => some tx
  | _ => none

def isFiltered : ConsensusCertificateResult → Bool
  | deferred _ => true
  | ignored => true
  | ignoredSystem => true
  | _ => false

end ConsensusCertificateResult

/-- The round of the first deferral of a certificate that may be deferred now. -/
def CommitContext.deferredFromRound (ctx : CommitContext) (digest : TransactionDigest) : ℕ :=
  match ctx.previouslyDeferredTxDigests[digest]? with
  | some previousKey => previousKey.deferredFromRound
  | none => ctx.commitRound

section

variable (cfg : EpochConfig) (store : AuthorityPerEpochStore) (ctx : CommitContext)

/-- A certificate that is not ignored because of its epoch or the end of the epoch. -/
def Admitted (author : AuthorityName) (cert : VerifiedExecutableTransaction) : Prop :=
  cert.epoch = cfg.epoch ∧
    (cert.digest ∈ ctx.previouslyDeferredTxDigests ∨
      author ∉ store.endOfPublish.data ∧ store.reconfigState.shouldAcceptConsensusCerts = true)

variable (cert : VerifiedExecutableTransaction)

/-- A certificate that needs randomness in a commit that has none, while there may be some later. -/
def AwaitsRandomness : Prop :=
  ctx.dkgFailed = false ∧ ctx.generatingRandomness = false ∧ cfg.randomnessStateEnabled = true ∧
    cert.usesRandomness = true

def LacksRandomness : Prop :=
  ctx.dkgFailed = true ∧ cfg.randomnessStateEnabled = true ∧ cert.usesRandomness = true

def congestionKey : DeferralKey :=
  .consensusRound (ctx.commitRound + 1) (ctx.deferredFromRound cert.digest)

/-- What becomes of a certificate, with the reason. -/
inductive UserResult (author : AuthorityName) (cert : VerifiedExecutableTransaction) :
    ConsensusCertificateResult → Prop
  | notAdmitted : ¬ Admitted cfg store ctx author cert → UserResult author cert .ignored
  | awaitsRandomness : Admitted cfg store ctx author cert → AwaitsRandomness cfg ctx cert →
      UserResult author cert (.deferred (.randomness (ctx.deferredFromRound cert.digest)))
  | congested : Admitted cfg store ctx author cert → ¬ AwaitsRandomness cfg ctx cert →
      ctx.commitRound + 1 - ctx.deferredFromRound cert.digest ≤
        cfg.maxDeferralRoundsForCongestionControl →
      UserResult author cert (.deferred (congestionKey ctx cert))
  | cancelled (objects : List ObjectId) :
      Admitted cfg store ctx author cert → ¬ AwaitsRandomness cfg ctx cert →
      cfg.maxDeferralRoundsForCongestionControl <
        ctx.commitRound + 1 - ctx.deferredFromRound cert.digest →
      UserResult author cert (.cancelled cert (.congestionOnObjects objects))
  | lacksRandomness : Admitted cfg store ctx author cert → LacksRandomness cfg ctx cert →
      UserResult author cert .ignored
  | scheduled : Admitted cfg store ctx author cert → ¬ AwaitsRandomness cfg ctx cert →
      ¬ LacksRandomness cfg ctx cert →
      UserResult author cert (.suiTransaction cert)

end

variable {cfg : EpochConfig} {store : AuthorityPerEpochStore} {ctx : CommitContext}
  {tx : SequencedConsensusTransaction} {result : ConsensusCertificateResult}

section Results

variable {author : AuthorityName} {cert : VerifiedExecutableTransaction}
  {tracker tracker' : SharedObjectCongestionTracker}

lemma shouldDeferDueToObjectCongestion_key {max : ℕ} {key : DeferralKey} {objects : List ObjectId}
    (h : tracker.shouldDeferDueToObjectCongestion cert max ctx.previouslyDeferredTxDigests
      ctx.commitRound =
      .ok (some (key, objects))) : key = congestionKey ctx cert := by
  obtain ⟨startCost, -, h⟩ := bind_eq_ok.mp h
  dsimp only at h
  split_ifs at h
  · cases h
  · have hkey := (Prod.mk.inj (some.inj (Except.ok.inj h))).1
    rw [← hkey]
    unfold congestionKey CommitContext.deferredFromRound
    cases ctx.previouslyDeferredTxDigests[cert.digest]? <;> rfl

variable {deferral : Option (DeferralKey × DeferralReason)}

lemma shouldDefer_ok (h : shouldDefer cfg ctx cert tracker = .ok deferral) :
    AwaitsRandomness cfg ctx cert ∧
      deferral = some (.randomness (ctx.deferredFromRound cert.digest), .randomnessNotReady) ∨
    ¬ AwaitsRandomness cfg ctx cert ∧
      (deferral = none ∨ ∃ objects, deferral =
        some (congestionKey ctx cert, .sharedObjectCongestion objects)) := by
  unfold shouldDefer at h
  split_ifs at h with hawaits
  · left
    simp only [Bool.and_eq_true, Bool.not_eq_true'] at hawaits
    refine ⟨⟨hawaits.1.1.1, hawaits.1.1.2, hawaits.1.2, hawaits.2⟩, ?_⟩
    rw [← Except.ok.inj h]
    rfl
  · right
    refine ⟨fun ha => hawaits ?_, ?_⟩
    · simp only [Bool.and_eq_true, Bool.not_eq_true']
      exact ⟨⟨⟨ha.1, ha.2.1⟩, ha.2.2.1⟩, ha.2.2.2⟩
    · cases hmode : cfg.perObjectCongestionControlMode with
      | none =>
        rw [hmode] at h
        exact .inl (Except.ok.inj h).symm
      | totalGasBudget =>
        rw [hmode] at h
        obtain ⟨congestion, hcong, h⟩ := bind_eq_ok.mp h
        rw [← Except.ok.inj h]
        cases congestion with
        | none => exact .inl rfl
        | some c =>
          refine .inr ⟨c.2, ?_⟩
          have hkey : c.1 = congestionKey ctx cert := shouldDeferDueToObjectCongestion_key hcong
          rw [map_some, hkey]

lemma admitted_of_not {isPrevious : Bool}
    (hprev : ctx.previouslyDeferredTxDigests.contains cert.digest = isPrevious)
    (hep : ¬ cert.epoch ≠ cfg.epoch)
    (hend : ¬ (store.endOfPublish.data.contains author && !isPrevious) = true)
    (hacc : ¬ (!store.reconfigState.shouldAcceptConsensusCerts && !isPrevious) = true) :
    Admitted cfg store ctx author cert := by
  refine ⟨not_not.mp hep, ?_⟩
  cases isPrevious with
  | true => exact .inl (TreeMap.mem_iff_contains.mpr hprev)
  | false =>
    right
    rw [TreeMap.mem_iff_contains]
    simpa using And.intro hend hacc

lemma settleCertificate_result (hadm : Admitted cfg store ctx author cert)
    (hdef : shouldDefer cfg ctx cert tracker = .ok deferral)
    (h : settleCertificate cfg ctx cert tracker deferral = .ok (result, tracker')) :
    UserResult cfg store ctx author cert result := by
  rcases shouldDefer_ok hdef with ⟨hawaits, rfl⟩ | ⟨hawaits, rfl | ⟨objects, rfl⟩⟩
  · cases h
    exact .awaitsRandomness hadm hawaits
  · unfold settleCertificate at h
    by_cases hlacks : (ctx.dkgFailed && cfg.randomnessStateEnabled && cert.usesRandomness) = true
    · rw [if_pos hlacks] at h
      cases h
      simp only [Bool.and_eq_true] at hlacks
      exact .lacksRandomness hadm ⟨hlacks.1.1, hlacks.1.2, hlacks.2⟩
    · have hres : result = .suiTransaction cert := by
        split_ifs at h
        · obtain ⟨tracker₁, -, h⟩ := bind_eq_ok.mp h
          exact (Prod.mk.inj (Except.ok.inj h)).1.symm
        · exact (Prod.mk.inj (Except.ok.inj h)).1.symm
      rw [hres]
      refine .scheduled hadm hawaits fun hl => hlacks ?_
      simp only [Bool.and_eq_true]
      exact ⟨⟨hl.1, hl.2.1⟩, hl.2.2⟩
  · unfold settleCertificate at h
    dsimp only at h
    split_ifs at h with hlim
    · cases h
      exact .congested hadm hawaits (of_decide_eq_true hlim)
    · cases h
      exact .cancelled objects hadm hawaits (not_le.mp fun hle => hlim (decide_eq_true hle))

lemma processUserTransaction_result
    (h : processUserTransaction cfg store ctx author cert tracker = .ok (result, tracker')) :
    UserResult cfg store ctx author cert result := by
  unfold processUserTransaction at h
  dsimp only at h
  split_ifs at h with hep hend hacc
  · cases h
    exact .notAdmitted fun ha => hep ha.1
  · cases h
    refine .notAdmitted fun ha => ?_
    simp only [Bool.and_eq_true, Bool.not_eq_true'] at hend
    rcases ha.2 with hin | ⟨hnot, -⟩
    · rw [TreeMap.mem_iff_contains, hend.2] at hin
      cases hin
    · exact hnot (TreeMap.mem_iff_contains.mpr hend.1)
  · cases h
    refine .notAdmitted fun ha => ?_
    simp only [Bool.and_eq_true, Bool.not_eq_true'] at hacc
    rcases ha.2 with hin | ⟨-, hok⟩
    · rw [TreeMap.mem_iff_contains, hacc.2] at hin
      cases hin
    · rw [hacc.1] at hok
      cases hok
  · have hadm := admitted_of_not rfl hep hend hacc
    obtain ⟨deferral, hdef, h⟩ := bind_eq_ok.mp h
    exact settleCertificate_result hadm hdef h

end Results

/-- What the loop has collected so far, in terms of the results. -/
structure CommitLoop.Collects (roots randomnessRoots : TreeSet TransactionKey)
    (loop : CommitLoop) : Prop where
  scheduled : loop.verifiedCertificates = loop.results.filterMap fun r => r.2.scheduled
  deferred : ∀ k tx, (∃ txs, loop.deferredTxns[k]? = some txs ∧ tx ∈ txs) ↔
    (tx, .deferred k) ∈ loop.results
  deferred_sublist : ∀ (k : DeferralKey) txs, loop.deferredTxns[k]? = some txs →
    txs.Sublist (loop.results.map Prod.fst) ∧ txs ≠ []
  processed : ∀ key, key ∈ loop.processed ↔ ∃ r ∈ loop.results, r.2 ≠ .ignored ∧ r.1.key = key
  roots : ∀ k, k ∈ loop.roots ↔ k ∈ roots ∧ ∀ r ∈ loop.results, r.2.isFiltered = true → r.1.root ≠ some k
  randomnessRoots : ∀ k, k ∈ loop.randomnessRoots ↔
    k ∈ randomnessRoots ∧ ∀ r ∈ loop.results, r.2.isFiltered = true → r.1.root ≠ some k

namespace CommitLoop

variable {roots randomnessRoots : TreeSet TransactionKey} {loop loop' : CommitLoop}

lemma Collects.new : (CommitLoop.new roots randomnessRoots).Collects roots randomnessRoots := by
  constructor <;> simp [CommitLoop.new]

def deferredAfter (deferredTxns : TreeMap DeferralKey (List SequencedConsensusTransaction))
    (tx : SequencedConsensusTransaction)
    (result : ConsensusCertificateResult) : TreeMap DeferralKey (List SequencedConsensusTransaction) :=
  match result with
  | .deferred k => deferredTxns.insert k ((deferredTxns[k]?).getD [] ++ [tx])
  | _ => deferredTxns

/-- The loop took the result of a transaction and changed nothing else. -/
structure Records (loop : CommitLoop) (tx : SequencedConsensusTransaction)
    (result : ConsensusCertificateResult) (loop' : CommitLoop) : Prop where
  results : loop'.results = loop.results ++ [(tx, result)]
  verifiedCertificates : loop'.verifiedCertificates =
    loop.verifiedCertificates ++ result.scheduled.toList
  deferredTxns : loop'.deferredTxns = deferredAfter loop.deferredTxns tx result
  processed : loop'.processed = if result = .ignored then loop.processed
    else insert tx.key loop.processed
  roots : ∀ k, k ∈ loop'.roots ↔ k ∈ loop.roots ∧ (result.isFiltered = true → tx.root ≠ some k)
  randomnessRoots : ∀ k, k ∈ loop'.randomnessRoots ↔
    k ∈ loop.randomnessRoots ∧ (result.isFiltered = true → tx.root ≠ some k)
  tracker : loop'.tracker = loop.tracker
  randomnessTracker : loop'.randomnessTracker = loop.randomnessTracker

lemma mem_erase_root {t : TreeSet TransactionKey} {k k' : TransactionKey} :
    k' ∈ t.erase k ↔ k' ∈ t ∧ some k ≠ some k' := by
  rw [TreeSet.mem_erase, Ne, compare_eq_iff_eq, and_comm, Ne, some.injEq]

lemma filterRoots_roots (loop : CommitLoop) (tx : SequencedConsensusTransaction) (k : TransactionKey) :
    (k ∈ (loop.filterRoots tx).roots ↔ k ∈ loop.roots ∧ tx.root ≠ some k) ∧
      (k ∈ (loop.filterRoots tx).randomnessRoots ↔ k ∈ loop.randomnessRoots ∧ tx.root ≠ some k) := by
  unfold filterRoots
  cases hroot : tx.root with
  | none => simp
  | some key => exact ⟨mem_erase_root, mem_erase_root⟩

lemma Records.filterRoots {l : CommitLoop} (hfilt : result.isFiltered = true)
    (hress : l.results = loop.results ++ [(tx, result)])
    (hcerts : l.verifiedCertificates = loop.verifiedCertificates ++ result.scheduled.toList)
    (hdeferred : l.deferredTxns = deferredAfter loop.deferredTxns tx result)
    (hprocd : l.processed = if result = .ignored then loop.processed else insert tx.key loop.processed)
    (hroots : l.roots = loop.roots ∧ l.randomnessRoots = loop.randomnessRoots)
    (htrackers : l.tracker = loop.tracker ∧ l.randomnessTracker = loop.randomnessTracker) :
    loop.Records tx result (l.filterRoots tx) := by
  have hfds : (l.filterRoots tx).results = l.results ∧
    (l.filterRoots tx).verifiedCertificates = l.verifiedCertificates ∧
      (l.filterRoots tx).deferredTxns = l.deferredTxns ∧ (l.filterRoots tx).processed = l.processed ∧
      (l.filterRoots tx).tracker = l.tracker ∧
        (l.filterRoots tx).randomnessTracker = l.randomnessTracker := by
    unfold CommitLoop.filterRoots
    cases tx.root <;> exact ⟨rfl, rfl, rfl, rfl, rfl, rfl⟩
  obtain ⟨h₁, h₂, h₃, h₄, h₅, h₆⟩ := hfds
  refine ⟨h₁.trans hress, h₂.trans hcerts, h₃.trans hdeferred, h₄.trans hprocd, fun k => ?_, fun k => ?_,
    h₅.trans htrackers.1, h₆.trans htrackers.2⟩
  · rw [(filterRoots_roots l tx k).1, hroots.1, hfilt]
    simp
  · rw [(filterRoots_roots l tx k).2, hroots.2, hfilt]
    simp

lemma records_of_record (h : loop.record tx result = .ok loop') : loop.Records tx result loop' := by
  cases result with
  | suiTransaction cert =>
    cases h
    exact ⟨rfl, rfl, rfl, rfl, by simp [isFiltered, recordProcessed],
      by simp [isFiltered, recordProcessed], rfl, rfl⟩
  | deferred | ignoredSystem | ignored =>
    cases h
    exact .filterRoots rfl rfl (append_nil _).symm rfl rfl ⟨rfl, rfl⟩ ⟨rfl, rfl⟩
  | cancelled cert reason =>
    unfold record at h
    dsimp only at h
    split_ifs at h
    cases h
    exact ⟨rfl, rfl, rfl, rfl, by simp [isFiltered, recordProcessed],
      by simp [isFiltered, recordProcessed], rfl, rfl⟩
  | randomnessConsensusMessage | consensusMessage =>
    cases h
    exact ⟨rfl, (append_nil _).symm, rfl, rfl, by simp [isFiltered, recordProcessed],
      by simp [isFiltered, recordProcessed], rfl, rfl⟩

lemma Collects.records (h : loop.Collects roots randomnessRoots) (hr : loop.Records tx result loop') :
    loop'.Collects roots randomnessRoots := by
  have hforall : ∀ k, (∀ r ∈ loop.results ++ [(tx, result)], r.2.isFiltered = true → r.1.root ≠ some k) ↔
      (∀ r ∈ loop.results, r.2.isFiltered = true → r.1.root ≠ some k) ∧
        (result.isFiltered = true → tx.root ≠ some k) := by
    intro k
    simp only [forall_mem_append, forall_mem_singleton]
  constructor
  · rw [hr.results, hr.verifiedCertificates, filterMap_append, h.scheduled]
    cases result <;> rfl
  · intro k tx'
    rw [hr.results, hr.deferredTxns, mem_append, mem_singleton, ← h.deferred]
    cases result with
    | deferred k' =>
      rw [deferredAfter, getElem?_insert_ite]
      by_cases hk : k' = k
      · subst hk
        cases hget : loop.deferredTxns[k']? with
        | none | some => simp
      · simp [hk, Ne.symm hk]
    | _ => simp [deferredAfter]
  · intro k txs hget
    rw [hr.deferredTxns] at hget
    rw [hr.results, map_append]
    cases result with
    | deferred k' =>
      rcases entry_of_insert hget with ⟨hk, rfl⟩ | ⟨hk, hget⟩
      · refine ⟨List.Sublist.append ?_ (List.Sublist.refl _), by simp⟩
        cases hold : loop.deferredTxns[k']? with
        | none => simp
        | some old => exact (h.deferred_sublist k' old hold).1
      · exact ⟨(h.deferred_sublist k txs hget).1.trans (sublist_append_left _ _),
          (h.deferred_sublist k txs hget).2⟩
    | _ => exact ⟨(h.deferred_sublist k txs hget).1.trans (sublist_append_left _ _),
        (h.deferred_sublist k txs hget).2⟩
  · intro key
    rw [hr.results, hr.processed]
    split_ifs with hign
    · rw [h.processed]
      simp [hign]
    · rw [Finset.mem_insert, h.processed]
      simp only [mem_append, mem_singleton, or_and_right, exists_or, exists_eq_left]
      simp [hign, or_comm, eq_comm]
  · intro k
    rw [hr.roots, h.roots, hr.results, hforall, and_assoc]
  · intro k
    rw [hr.randomnessRoots, h.randomnessRoots, hr.results, hforall, and_assoc]

variable {tracker : SharedObjectCongestionTracker}

lemma Collects.of_fields (h : loop.Collects roots randomnessRoots)
    {randomnessTracker : SharedObjectCongestionTracker} :
    CommitLoop.Collects roots randomnessRoots
      { loop with tracker := tracker, randomnessTracker := randomnessTracker } :=
  ⟨h.scheduled, h.deferred, h.deferred_sublist, h.processed, h.roots, h.randomnessRoots⟩

variable (cfg store ctx roots randomnessRoots) in
/-- The loop over some transactions: every one has a result. After DKG has failed, no transaction
that uses randomness is scheduled, so the tracker for them is not changed. -/
structure Ran (transactions : List SequencedConsensusTransaction) (loop : CommitLoop) : Prop where
  collects : loop.Collects roots randomnessRoots
  transactions : loop.results.map Prod.fst = transactions
  result : ∀ r ∈ loop.results, ∃ tracker tracker',
    processConsensusTransaction cfg store ctx r.1 tracker = .ok (r.2, tracker') ∧
    (ctx.dkgFailed = true → r.1.isUserTxWithRandomness cfg.randomnessStateEnabled = true →
      tracker = .new)
  randomnessTracker : ctx.dkgFailed = true → loop.randomnessTracker = .new

lemma lacksRandomness_of_isUserTxWithRandomness (hfailed : ctx.dkgFailed = true)
    (huses : tx.isUserTxWithRandomness cfg.randomnessStateEnabled = true) :
    ∃ cert, tx.transaction = .external (.userTransaction cert) ∧ LacksRandomness cfg ctx cert := by
  unfold SequencedConsensusTransaction.isUserTxWithRandomness at huses
  split at huses
  · rename_i cert htx
    rw [Bool.and_eq_true] at huses
    exact ⟨cert, htx, hfailed, huses.1, huses.2⟩
  · cases huses

lemma tracker_of_lacksRandomness {author : AuthorityName} {cert : VerifiedExecutableTransaction}
    {tracker' : SharedObjectCongestionTracker} (hlacks : LacksRandomness cfg ctx cert)
    (h : processUserTransaction cfg store ctx author cert tracker = .ok (result, tracker')) :
    tracker' = tracker := by
  unfold processUserTransaction at h
  dsimp only at h
  split_ifs at h
  any_goals exact (Prod.mk.inj (Except.ok.inj h)).2.symm
  obtain ⟨deferral, -, h⟩ := bind_eq_ok.mp h
  have hign : (ctx.dkgFailed && cfg.randomnessStateEnabled && cert.usesRandomness) = true := by
    rw [hlacks.1, hlacks.2.1, hlacks.2.2]
    rfl
  unfold settleCertificate at h
  rw [hign] at h
  split at h
  · cases h
    rfl
  · split_ifs at h <;> exact (Prod.mk.inj (Except.ok.inj h)).2.symm
  · cases h
    rfl

variable {transactions : List SequencedConsensusTransaction}

lemma Ran.step (h : loop.Ran cfg store ctx roots randomnessRoots transactions)
    (hstep : loop.step cfg store ctx tx = .ok loop') :
    loop'.Ran cfg store ctx roots randomnessRoots (transactions ++ [tx]) := by
  unfold CommitLoop.step at hstep
  split_ifs at hstep with huses
  · obtain ⟨⟨result, tracker⟩, hres, hrec⟩ := bind_eq_ok.mp hstep
    have hr := records_of_record hrec
    refine ⟨h.collects.of_fields.records hr, ?_, fun r hin => ?_, fun hfailed => ?_⟩
    · rw [hr.results, map_append, h.transactions]
      rfl
    · rw [hr.results, mem_append, mem_singleton] at hin
      rcases hin with hin | rfl
      · exact h.result r hin
      · exact ⟨_, tracker, hres, fun hfailed _ => h.randomnessTracker hfailed⟩
    · obtain ⟨cert, htx, hlacks⟩ := lacksRandomness_of_isUserTxWithRandomness hfailed huses
      rw [processConsensusTransaction, htx] at hres
      rw [hr.randomnessTracker]
      exact (tracker_of_lacksRandomness hlacks hres).trans (h.randomnessTracker hfailed)
  · obtain ⟨⟨result, tracker⟩, hres, hrec⟩ := bind_eq_ok.mp hstep
    have hr := records_of_record hrec
    refine ⟨h.collects.of_fields.records hr, ?_, fun r hin => ?_, fun hfailed => ?_⟩
    · rw [hr.results, map_append, h.transactions]
      rfl
    · rw [hr.results, mem_append, mem_singleton] at hin
      rcases hin with hin | rfl
      · exact h.result r hin
      · exact ⟨_, tracker, hres, fun _ hu => absurd hu huses⟩
    · rw [hr.randomnessTracker]
      exact h.randomnessTracker hfailed

lemma ran_of_foldlM
    (h : transactions.foldlM (CommitLoop.step cfg store ctx) (.new roots randomnessRoots) = .ok loop) :
    loop.Ran cfg store ctx roots randomnessRoots transactions := by
  have hnew : (CommitLoop.new roots randomnessRoots).Ran cfg store ctx roots randomnessRoots [] :=
    ⟨.new, rfl, fun r hr => absurd hr not_mem_nil, fun _ => rfl⟩
  have hends : Ends (transactions.foldlM (CommitLoop.step cfg store ctx)
    (.new roots randomnessRoots)) (fun _ => True)
      (CommitLoop.Ran cfg store ctx roots randomnessRoots transactions) := by
    refine Ends.foldlM _ ?_ hnew
    intro done tx loop _ hloop
    exact ⟨fun loop' hstep => hloop.step hstep, fun _ _ => trivial⟩
  exact hends.1 loop h

end CommitLoop

end SuiProofs.Authority

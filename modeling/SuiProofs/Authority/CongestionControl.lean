import SuiProofs.Authority.CommitResults

namespace SuiProofs.Authority

open Library List SharedObjectCongestionTracker
open Std (TreeMap)

namespace SharedObjectCongestionTracker

variable {tracker : SharedObjectCongestionTracker} {objects : List SharedInputObject} {limit : ℕ}

def Within (limit : ℕ) (tracker : SharedObjectCongestionTracker) : Prop :=
  ∀ (id : ObjectId) (cost : ℕ), tracker.objectExecutionCost[id]? = some cost → cost ≤ limit

lemma within_new : new.Within limit := by
  intro id cost hget
  simp [new] at hget

lemma Within.cost_le (h : tracker.Within limit) (obj : SharedInputObject) :
    tracker.cost obj ≤ limit := by
  unfold cost
  cases hget : tracker.objectExecutionCost[obj.id]? with
  | none => exact Nat.zero_le _
  | some c => exact h obj.id c hget

variable {startCost : ℕ}

lemma computeTxStartAtCost_eq_ok : tracker.computeTxStartAtCost objects = .ok startCost ↔
    (∃ obj ∈ objects, tracker.cost obj = startCost) ∧ ∀ obj ∈ objects, tracker.cost obj ≤ startCost := by
  unfold computeTxStartAtCost
  cases hmax : (objects.map tracker.cost).max? with
  | none =>
    have hnil : objects = [] := map_eq_nil_iff.mp (List.max?_eq_none_iff.mp hmax)
    simp [hnil]
  | some c =>
    have hiff := List.max?_eq_some_iff.mp hmax
    rw [mem_map] at hiff
    have hall : ∀ obj ∈ objects, tracker.cost obj ≤ c := fun obj hobj => hiff.2 _ (mem_map_of_mem hobj)
    constructor
    · intro h
      cases h
      exact ⟨hiff.1, hall⟩
    · rintro ⟨⟨obj, hobj, rfl⟩, hle⟩
      obtain ⟨obj', hobj', rfl⟩ := hiff.1
      exact congrArg Except.ok (le_antisymm (hle obj' hobj') (hall obj hobj))

lemma exists_computeTxStartAtCost (h : objects ≠ []) :
    ∃ startCost, tracker.computeTxStartAtCost objects = .ok startCost := by
  unfold computeTxStartAtCost
  cases hmax : (objects.map tracker.cost).max? with
  | none => exact absurd (map_eq_nil_iff.mp (List.max?_eq_none_iff.mp hmax)) h
  | some c => exact ⟨c, rfl⟩

lemma shouldDeferDueToObjectCongestion_ok {cert : VerifiedExecutableTransaction} {max : ℕ}
    {previous : TreeMap TransactionDigest DeferralKey} {commitRound : ℕ}
    (hst : tracker.computeTxStartAtCost cert.sharedInputObjects = .ok startCost) :
    ∃ congestion, tracker.shouldDeferDueToObjectCongestion cert max previous commitRound =
      .ok congestion ∧
      (congestion = none ↔ startCost + cert.gasBudget ≤ max) := by
  obtain ⟨⟨obj, hobj, hcost⟩, -⟩ := computeTxStartAtCost_eq_ok.mp hst
  unfold shouldDeferDueToObjectCongestion
  rw [hst, ok_bind]
  dsimp only
  have hcong : ((cert.sharedInputObjects.filter fun obj => startCost = tracker.cost obj).map
      fun obj => obj.id).isEmpty = false := by
    rw [isEmpty_eq_false_iff, Ne, map_eq_nil_iff, filter_eq_nil_iff]
    intro hnone
    exact hnone obj hobj (decide_eq_true hcost.symm)
  split_ifs with hlim
  · exact ⟨none, rfl, fun _ => hlim, fun _ => rfl⟩
  · rename_i hemp
    rw [hcong] at hemp
    cases hemp
  · exact ⟨_, rfl, fun h => (by cases h), fun h => absurd h hlim⟩

/-- A transaction is accounted for on distinct objects, when it ends after everything scheduled on
them. -/
lemma bumpObjectExecutionCost_ok {txCost : ℕ} (hnd : (objects.map SharedInputObject.id).Nodup)
    (hpos : 0 < txCost)
    (hst : tracker.computeTxStartAtCost objects = .ok startCost) (hwithin : tracker.Within limit)
    (hlim : startCost + txCost ≤ limit) :
    ∃ tracker', tracker.bumpObjectExecutionCost objects txCost = .ok tracker' ∧
      tracker'.Within limit := by
  have hcosts := (computeTxStartAtCost_eq_ok.mp hst).2
  unfold bumpObjectExecutionCost
  rw [hst, ok_bind]
  -- Objects that are still to come keep their cost.
  let I (done : List SharedInputObject) (t : SharedObjectCongestionTracker) : Prop :=
    t.Within limit ∧ ∀ obj ∈ objects, obj.id ∉ done.map SharedInputObject.id →
      t.objectExecutionCost[obj.id]? = tracker.objectExecutionCost[obj.id]?
  have hstep : ∀ done obj t, done ++ [obj] <+: objects → I done t →
      ∃ t', bumpObject (startCost + txCost) t obj = .ok t' ∧ I (done ++ [obj]) t' := by
    intro done obj t hdone hI
    have hobj : obj ∈ objects := hdone.subset (by simp)
    have hfr : obj.id ∉ done.map SharedInputObject.id := by
      intro hin
      obtain ⟨obj', hobj', heq⟩ := mem_map.mp hin
      exact rel_of_prefix (pairwise_map.mp hnd) hdone hobj' heq
    have hold := hI.2 obj hobj hfr
    have hins : I (done ++ [obj]) ⟨t.objectExecutionCost.insert obj.id (startCost + txCost)⟩ := by
      refine ⟨fun id c hget => ?_, fun obj' hobj' hnot => ?_⟩
      · rcases entry_of_insert hget with ⟨-, rfl⟩ | ⟨-, hget⟩
        · exact hlim
        · exact hI.1 id c hget
      · rw [map_append, mem_append, not_or] at hnot
        rw [getElem?_insert_ite, if_neg (fun heq => hnot.2 (by simp [heq]))]
        exact hI.2 obj' hobj' hnot.1
    unfold bumpObject
    by_cases hmutable : obj.isMutable = true
    · rw [if_pos hmutable]
      cases hget : t.objectExecutionCost[obj.id]? with
      | none => exact ⟨_, rfl, hins⟩
      | some c =>
        have hc : c ≤ startCost := by
          have hle := hcosts obj hobj
          unfold cost at hle
          rw [← hold, hget] at hle
          exact hle
        dsimp only
        rw [if_pos (by omega)]
        exact ⟨_, rfl, hins⟩
    · rw [if_neg hmutable]
      refine ⟨t, rfl, hI.1, fun obj' hobj' hnot => hI.2 obj' hobj' fun hin => hnot ?_⟩
      rw [map_append]
      exact mem_append_left _ hin
  obtain ⟨tracker', hok, hI⟩ := foldlM_total_of_prefix I hstep ⟨hwithin, fun _ _ _ => rfl⟩
  exact ⟨tracker', hok, hI.1⟩

end SharedObjectCongestionTracker

variable {cfg : EpochConfig} {store : AuthorityPerEpochStore} {ctx : CommitContext}
  {cert : VerifiedExecutableTransaction}

section Certificates

variable {author : AuthorityName} {tracker tracker' : SharedObjectCongestionTracker}
  {result : ConsensusCertificateResult}

variable (cfg store ctx author) in
def ChecksCongestion (cert : VerifiedExecutableTransaction) : Prop :=
  Admitted cfg store ctx author cert ∧ ¬ AwaitsRandomness cfg ctx cert

lemma containsSharedObject_iff : cert.containsSharedObject = true ↔ cert.sharedInputObjects ≠ [] := by
  unfold VerifiedExecutableTransaction.containsSharedObject
  rw [Bool.not_eq_true', isEmpty_eq_false_iff]

variable (hmode : cfg.perObjectCongestionControlMode = .totalGasBudget)
include hmode

lemma shouldDefer_of_not_awaits (hawaits : ¬ AwaitsRandomness cfg ctx cert) :
    shouldDefer cfg ctx cert tracker = do
      let congestion ← tracker.shouldDeferDueToObjectCongestion cert
        cfg.maxAccumulatedTxnCostPerObjectInCheckpoint
        ctx.previouslyDeferredTxDigests ctx.commitRound
      return congestion.map fun c => (c.1, .sharedObjectCongestion c.2) := by
  unfold shouldDefer
  rw [if_neg, hmode]
  intro h
  simp only [Bool.and_eq_true, Bool.not_eq_true'] at h
  exact hawaits ⟨h.1.1.1, h.1.1.2, h.1.2, h.2⟩

omit hmode in
lemma processUserTransaction_of_admitted (hadm : Admitted cfg store ctx author cert) :
    processUserTransaction cfg store ctx author cert tracker = (do
      settleCertificate cfg ctx cert tracker (← shouldDefer cfg ctx cert tracker)) := by
  unfold processUserTransaction
  have hcont : ctx.previouslyDeferredTxDigests.contains cert.digest = true ∨
      store.endOfPublish.data.contains author = false ∧
        store.reconfigState.shouldAcceptConsensusCerts = true := by
    refine hadm.2.imp TreeMap.mem_iff_contains.mp fun h => ⟨?_, h.2⟩
    rw [← Bool.not_eq_true, ← TreeMap.mem_iff_contains]
    exact h.1
  rw [if_neg (not_not.mpr hadm.1), if_neg, if_neg]
  · rcases hcont with h | h <;> simp [h]
  · rcases hcont with h | h <;> simp [h]

lemma containsSharedObject_of_ok
    (hchecks : ChecksCongestion cfg store ctx author cert)
    (h : processUserTransaction cfg store ctx author cert tracker = .ok (result, tracker')) :
    cert.containsSharedObject = true := by
  rw [processUserTransaction_of_admitted hchecks.1, shouldDefer_of_not_awaits hmode hchecks.2] at h
  obtain ⟨deferral, hdef, -⟩ := bind_eq_ok.mp h
  obtain ⟨congestion, hcong, -⟩ := bind_eq_ok.mp hdef
  obtain ⟨startCost, hst, -⟩ := bind_eq_ok.mp hcong
  obtain ⟨⟨obj, hobj, -⟩, -⟩ := computeTxStartAtCost_eq_ok.mp hst
  exact containsSharedObject_iff.mpr (ne_nil_of_mem hobj)

/-- A certificate as it is verified before it is sent to consensus. -/
structure CertificateOk (cfg : EpochConfig) (maxTxGas : ℕ)
    (cert : VerifiedExecutableTransaction) : Prop where
  epoch : cert.epoch = cfg.epoch
  budget_pos : 0 < cert.gasBudget
  budget_le : cert.gasBudget ≤ maxTxGas
  nodup : (cert.sharedInputObjects.map SharedInputObject.id).Nodup

lemma processUserTransaction_total {maxTxGas : ℕ} (hok : CertificateOk cfg maxTxGas cert)
    (hsh : ChecksCongestion cfg store ctx author cert → cert.containsSharedObject = true)
    (hwithin : tracker.Within cfg.maxAccumulatedTxnCostPerObjectInCheckpoint) :
    ∃ result tracker', processUserTransaction cfg store ctx author cert tracker =
      .ok (result, tracker') ∧
      tracker'.Within cfg.maxAccumulatedTxnCostPerObjectInCheckpoint := by
  by_cases hadm : Admitted cfg store ctx author cert
  · rw [processUserTransaction_of_admitted hadm]
    by_cases hawaits : AwaitsRandomness cfg ctx cert
    · have hdefer : shouldDefer cfg ctx cert tracker =
          .ok (some (.randomness (ctx.deferredFromRound cert.digest), .randomnessNotReady)) := by
        unfold shouldDefer
        rw [hawaits.1, hawaits.2.1, hawaits.2.2.1, hawaits.2.2.2]
        rfl
      rw [hdefer, ok_bind]
      exact ⟨_, tracker, rfl, hwithin⟩
    · have hcont := hsh ⟨hadm, hawaits⟩
      obtain ⟨startCost, hst⟩ := exists_computeTxStartAtCost (containsSharedObject_iff.mp hcont)
      obtain ⟨congestion, hcong, hnone⟩ := shouldDeferDueToObjectCongestion_ok hst
      rw [shouldDefer_of_not_awaits hmode hawaits, hcong, ok_bind, pure_eq_ok, ok_bind]
      cases congestion with
      | some c =>
        unfold settleCertificate
        rw [Option.map_some]
        dsimp only
        split_ifs <;> exact ⟨_, tracker, rfl, hwithin⟩
      | none =>
        unfold settleCertificate
        rw [Option.map_none]
        split_ifs
        · exact ⟨_, tracker, rfl, hwithin⟩
        · obtain ⟨tracker', hbump, hwithin'⟩ := bumpObjectExecutionCost_ok hok.nodup hok.budget_pos
            hst hwithin (hnone.mp rfl)
          unfold updateObjectExecutionCost
          rw [hmode]
          rw [hbump, ok_bind]
          exact ⟨_, tracker', rfl, hwithin'⟩
  · unfold processUserTransaction
    by_cases hign : cert.epoch ≠ cfg.epoch
    · exact absurd hok.epoch hign
    · rw [if_neg hign]
      split_ifs with hend hacc
      · exact ⟨_, tracker, rfl, hwithin⟩
      · exact ⟨_, tracker, rfl, hwithin⟩
      · exact absurd (admitted_of_not rfl hign hend hacc) hadm

end Certificates

namespace CommitLoop

variable {loop : CommitLoop} {tx : SequencedConsensusTransaction}
  {roots randomnessRoots : Std.TreeSet TransactionKey}
  {transactions done : List SequencedConsensusTransaction} {maxTxGas : ℕ}

variable (cfg loop tx) in
def trackerFor : SharedObjectCongestionTracker :=
  if tx.isUserTxWithRandomness cfg.randomnessStateEnabled then loop.randomnessTracker else loop.tracker

variable (cfg done) in
/-- The costs are within the limit, and only certificates of the commit were cancelled. -/
structure CostsOk (loop : CommitLoop) : Prop where
  tracker : loop.tracker.Within cfg.maxAccumulatedTxnCostPerObjectInCheckpoint
  randomnessTracker : loop.randomnessTracker.Within cfg.maxAccumulatedTxnCostPerObjectInCheckpoint
  cancelled : ∀ d ∈ loop.cancelledTxns, ∃ tx ∈ done, tx.key = .external (.certificate d)

lemma CostsOk.trackerFor (h : loop.CostsOk cfg done) (tx : SequencedConsensusTransaction) :
    (loop.trackerFor cfg tx).Within cfg.maxAccumulatedTxnCostPerObjectInCheckpoint := by
  unfold CommitLoop.trackerFor
  split_ifs
  · exact h.randomnessTracker
  · exact h.tracker

lemma record_total {result : ConsensusCertificateResult}
    (hfr : ∀ cert reason, result = .cancelled cert reason → cert.digest ∉ loop.cancelledTxns) :
    ∃ loop', loop.record tx result = .ok loop' ∧ ∀ d ∈ loop'.cancelledTxns,
      d ∈ loop.cancelledTxns ∨ ∃ cert reason, result = .cancelled cert reason ∧ cert.digest = d := by
  have hfil : ∀ l : CommitLoop, (l.filterRoots tx).cancelledTxns = l.cancelledTxns := by
    intro l
    unfold filterRoots
    cases tx.root <;> rfl
  cases result with
  | cancelled cert reason =>
    have hnot := hfr cert reason rfl
    rw [TreeMap.mem_iff_contains] at hnot
    unfold record
    dsimp only
    rw [if_neg hnot]
    refine ⟨_, rfl, fun d hd => ?_⟩
    unfold recordProcessed at hd
    rw [TreeMap.mem_insert, compare_eq_iff_eq] at hd
    exact hd.symm.imp id fun heq => ⟨cert, reason, rfl, heq⟩
  | deferred | ignored | ignoredSystem =>
    refine ⟨_, rfl, fun d hd => ?_⟩
    rw [hfil] at hd
    exact .inl hd
  | suiTransaction | randomnessConsensusMessage | consensusMessage =>
    exact ⟨_, rfl, fun d hd => .inl hd⟩

lemma step_total (hmode : cfg.perObjectCongestionControlMode = .totalGasBudget)
    (htx : tx.transaction = .external (.userTransaction cert)) (hok : CertificateOk cfg maxTxGas cert)
    (hsh : ChecksCongestion cfg store ctx tx.certificateAuthor cert → cert.containsSharedObject = true)
    (hnew : ∀ tx' ∈ done, tx'.key ≠ tx.key) (h : loop.CostsOk cfg done) :
    ∃ loop', loop.step cfg store ctx tx = .ok loop' ∧ loop'.CostsOk cfg (done ++ [tx]) := by
  have hkey : tx.key = .external (.certificate cert.digest) := by
    unfold SequencedConsensusTransaction.key
    rw [htx]
    rfl
  obtain ⟨result, tracker', hres, hwithin⟩ : ∃ result tracker',
      processUserTransaction cfg store ctx tx.certificateAuthor cert (loop.trackerFor cfg tx) =
        .ok (result, tracker') ∧
        tracker'.Within cfg.maxAccumulatedTxnCostPerObjectInCheckpoint :=
    processUserTransaction_total hmode hok hsh (h.trackerFor tx)
  have hproc : processConsensusTransaction cfg store ctx tx (loop.trackerFor cfg tx) =
      .ok (result, tracker') := by
    unfold processConsensusTransaction
    rw [htx]
    exact hres
  have hcanc : ∀ cert' reason, result = .cancelled cert' reason → cert' = cert := by
    rintro cert' reason rfl
    cases processUserTransaction_result hres with
    | cancelled objects _ _ _ => rfl
  have hfr : ∀ cert' reason, result = .cancelled cert' reason → cert'.digest ∉ loop.cancelledTxns := by
    intro cert' reason heq hin
    obtain ⟨tx', htx', hkey'⟩ := h.cancelled cert'.digest hin
    rw [hcanc cert' reason heq, ← hkey] at hkey'
    exact hnew tx' htx' hkey'
  have hcosts : ∀ l l' : CommitLoop, l.tracker.Within cfg.maxAccumulatedTxnCostPerObjectInCheckpoint →
      l.randomnessTracker.Within cfg.maxAccumulatedTxnCostPerObjectInCheckpoint →
        l.cancelledTxns = loop.cancelledTxns →
      l.record tx result = .ok l' →
      (∀ d ∈ l'.cancelledTxns, d ∈ l.cancelledTxns ∨
        ∃ cert reason, result = .cancelled cert reason ∧ cert.digest = d) →
      l'.CostsOk cfg (done ++ [tx]) := by
    intro l l' htracker hrand hsame hrec hnext
    have hrecs := records_of_record hrec
    refine ⟨hrecs.tracker ▸ htracker, hrecs.randomnessTracker ▸ hrand, fun d hd => ?_⟩
    rcases hnext d hd with hold | ⟨cert', reason, heq, hdig⟩
    · obtain ⟨tx', htx', hkey'⟩ := h.cancelled d (hsame ▸ hold)
      exact ⟨tx', mem_append_left _ htx', hkey'⟩
    · refine ⟨tx, by simp, ?_⟩
      rw [hkey, ← hdig, hcanc cert' reason heq]
  unfold step
  unfold trackerFor at hproc
  split_ifs at hproc ⊢ with huses
  · obtain ⟨loop', hrec, hnext⟩ :=
      @record_total { loop with randomnessTracker := tracker' } tx result hfr
    rw [hproc, ok_bind]
    exact ⟨loop', hrec, hcosts { loop with randomnessTracker := tracker' } loop' h.tracker hwithin
      rfl hrec hnext⟩
  · obtain ⟨loop', hrec, hnext⟩ := @record_total { loop with tracker := tracker' } tx result hfr
    rw [hproc, ok_bind]
    exact ⟨loop', hrec, hcosts { loop with tracker := tracker' } loop' hwithin h.randomnessTracker
      rfl hrec hnext⟩

/-- Certificates of the epoch, as they are verified before they are sent to consensus. -/
def CertificatesOk (cfg : EpochConfig) (maxTxGas : ℕ)
    (transactions : List SequencedConsensusTransaction) : Prop :=
  (∀ tx ∈ transactions, ∃ cert, tx.transaction = .external (.userTransaction cert) ∧
    CertificateOk cfg maxTxGas cert) ∧
    (transactions.map SequencedConsensusTransaction.key).Nodup

variable (cfg store ctx transactions) in
def CheckedHaveShared : Prop :=
  ∀ tx ∈ transactions, ∀ cert, tx.transaction = .external (.userTransaction cert) →
    ChecksCongestion cfg store ctx tx.certificateAuthor cert → cert.containsSharedObject = true

lemma foldlM_step_total (hmode : cfg.perObjectCongestionControlMode = .totalGasBudget)
    (hok : CertificatesOk cfg maxTxGas transactions)
    (hsh : CheckedHaveShared cfg store ctx transactions) :
    ∃ loop, transactions.foldlM (CommitLoop.step cfg store ctx) (.new roots randomnessRoots) =
      .ok loop ∧ loop.CostsOk cfg transactions := by
  have hnew : (CommitLoop.new roots randomnessRoots).CostsOk cfg [] := by
    refine ⟨within_new, within_new, fun d hd => ?_⟩
    simp [CommitLoop.new] at hd
  refine foldlM_total_of_prefix (CommitLoop.CostsOk cfg) (fun done tx loop hdone hcosts => ?_) hnew
  have hin : tx ∈ transactions := hdone.subset (by simp)
  obtain ⟨cert, htx, hcert⟩ := hok.1 tx hin
  refine step_total hmode htx hcert (hsh tx hin cert htx) (fun tx' htx' hkey => ?_) hcosts
  exact rel_of_prefix (pairwise_map.mp hok.2) hdone htx' hkey

/-- Verified certificates of the epoch with distinct digests, with a limit that is not within the
greatest budget of the largest machine integer: the loop ends and adds no cost beyond the machine
integers exactly if every certificate that is checked for congestion has a shared input. -/
theorem congestionControl_total_iff (cfg : EpochConfig) (store : AuthorityPerEpochStore)
    (ctx : CommitContext) (roots randomnessRoots : Std.TreeSet TransactionKey)
    (transactions : List SequencedConsensusTransaction) (maxTxGas : ℕ)
    (hmode : cfg.perObjectCongestionControlMode = .totalGasBudget)
    (hok : CertificatesOk cfg maxTxGas transactions)
    (hlimit : cfg.maxAccumulatedTxnCostPerObjectInCheckpoint + maxTxGas < 2 ^ 64) :
    ((∃ loop, transactions.foldlM (CommitLoop.step cfg store ctx)
      (.new roots randomnessRoots) = .ok loop) ∧
      ∀ done tx rest loop cert startCost, transactions = done ++ tx :: rest →
        done.foldlM (CommitLoop.step cfg store ctx) (.new roots randomnessRoots) = .ok loop →
        tx.transaction = .external (.userTransaction cert) →
        (loop.trackerFor cfg tx).computeTxStartAtCost cert.sharedInputObjects = .ok startCost →
          startCost + cert.gasBudget < 2 ^ 64) ↔
    CheckedHaveShared cfg store ctx transactions := by
  constructor
  · rintro ⟨⟨loop, hloop⟩, -⟩ tx hin cert htx hchecks
    have hran := ran_of_foldlM hloop
    rw [← hran.transactions] at hin
    obtain ⟨r, hr, rfl⟩ := mem_map.mp hin
    obtain ⟨tracker, tracker', hresult, -⟩ := hran.result r hr
    unfold processConsensusTransaction at hresult
    rw [htx] at hresult
    exact containsSharedObject_of_ok hmode hchecks hresult
  · intro hshared
    obtain ⟨loop, hloop, -⟩ :=
      @foldlM_step_total cfg store ctx roots randomnessRoots transactions maxTxGas hmode hok hshared
    refine ⟨⟨loop, hloop⟩, fun done tx rest loop cert startCost hsplit hdone htx hstart => ?_⟩
    have hokDone : CertificatesOk cfg maxTxGas done := by
      refine ⟨fun tx' htx' => hok.1 tx' (by rw [hsplit]; exact mem_append_left _ htx'), ?_⟩
      have hnodup := hok.2
      rw [hsplit, map_append, nodup_append] at hnodup
      exact hnodup.1
    have hsharedDone : CheckedHaveShared cfg store ctx done := fun tx' htx' =>
      hshared tx' (by rw [hsplit]; exact mem_append_left _ htx')
    obtain ⟨loop', hloop', hcosts⟩ :=
      @foldlM_step_total cfg store ctx roots randomnessRoots done maxTxGas hmode hokDone hsharedDone
    obtain rfl := Except.ok.inj (hdone.symm.trans hloop')
    obtain ⟨⟨obj, -, rfl⟩, -⟩ := computeTxStartAtCost_eq_ok.mp hstart
    have hcost := (hcosts.trackerFor tx).cost_le obj
    obtain ⟨cert', htx', hcert⟩ := hok.1 tx (by simp [hsplit])
    rw [htx] at htx'
    obtain rfl :=
      ConsensusTransactionKind.userTransaction.inj
        (SequencedConsensusTransactionKind.external.inj htx')
    have hbudget := hcert.budget_le
    omega

def congestionConfig : EpochConfig :=
  ⟨Committee.sole, false, .totalGasBudget, 10, 2, .none,
    fun _ => ⟨⟨0, 0, [.sharedMoveObject 6 1 true], []⟩, 0, 0, .other⟩⟩

def firstContext : CommitContext := ⟨1, ∅, false, false⟩

def certificateWith (digest : TransactionDigest) (inputs : List InputObjectKind) :
    SequencedConsensusTransaction :=
  ⟨1, .external (.userTransaction ⟨⟨digest, 0, inputs, []⟩, 6, 1, .other⟩)⟩

/-- Two certificates on one shared object. -/
theorem congestionControl_total_shared :
    ∃ loop, [certificateWith 1 [.sharedMoveObject 7 1 true],
      certificateWith 2 [.sharedMoveObject 7 1 true]].foldlM
      (CommitLoop.step congestionConfig .new firstContext) (.new ∅ ∅) = .ok loop := by
  have hok : CertificatesOk congestionConfig 6 [certificateWith 1 [.sharedMoveObject 7 1 true],
      certificateWith 2 [.sharedMoveObject 7 1 true]] := by
    refine ⟨fun tx htx => ?_, by decide⟩
    rw [mem_cons, mem_singleton] at htx
    rcases htx with rfl | rfl <;> exact ⟨_, rfl, rfl, by decide, by decide, by decide⟩
  refine ((congestionControl_total_iff congestionConfig .new firstContext ∅ ∅ _ 6 rfl hok
    (by decide)).mpr ?_).1
  intro tx htx cert hcert _
  rw [mem_cons, mem_singleton] at htx
  rcases htx with rfl | rfl
  · cases hcert
    decide
  · cases hcert
    decide

/-- A certificate without shared inputs ends the loop with a panic. -/
theorem congestionControl_panics :
    CertificatesOk congestionConfig 6 [certificateWith 1 [.immOrOwnedMoveObject ⟨7, 1, 0⟩]] ∧
    [certificateWith 1 [.immOrOwnedMoveObject ⟨7, 1, 0⟩]].foldlM
      (CommitLoop.step congestionConfig .new firstContext) (.new ∅ ∅) =
      .error .noSharedInputObjects := by
  refine ⟨⟨fun tx htx => ?_, by decide⟩, ?_⟩
  · obtain rfl := mem_singleton.mp htx
    exact ⟨_, rfl, rfl, by decide, by decide, by decide⟩
  · rfl

end CommitLoop

end SuiProofs.Authority

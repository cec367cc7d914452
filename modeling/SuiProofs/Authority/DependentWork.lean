import SuiProofs.Authority.CongestionControl

namespace SuiProofs.Authority

open Library List SharedObjectCongestionTracker

namespace VerifiedExecutableTransaction

def Writes (cert : VerifiedExecutableTransaction) (id : ObjectId) : Prop :=
  ∃ obj ∈ cert.sharedInputObjects, obj.isMutable = true ∧ obj.id = id

/-- The certificates share an object that the first one takes mutably. -/
def Precedes (first second : VerifiedExecutableTransaction) : Prop :=
  ∃ obj ∈ second.sharedInputObjects, first.Writes obj.id

end VerifiedExecutableTransaction

open VerifiedExecutableTransaction

section Definitions

variable (limit : ℕ) (previous : Std.TreeMap TransactionDigest DeferralKey) (commitRound : ℕ)
  (tracker : SharedObjectCongestionTracker)
  (certs scheduled chain : List VerifiedExecutableTransaction)

abbrev Schedule := SharedObjectCongestionTracker × List VerifiedExecutableTransaction

def scheduleCertificate (acc : Schedule) (cert : VerifiedExecutableTransaction) :
    Except CommitPanic Schedule := do
  match ← acc.1.shouldDeferDueToObjectCongestion cert limit previous commitRound with
  | some _ => return acc
  | none => return (← acc.1.bumpObjectExecutionCost cert.sharedInputObjects cert.gasBudget,
      acc.2 ++ [cert])

def scheduleCertificates : Except CommitPanic Schedule :=
  certs.foldlM (scheduleCertificate limit previous commitRound) (.new, [])

def totalBudget : ℕ := (certs.map fun cert => cert.gasBudget).sum

def Dependent : Prop := chain.Sublist scheduled ∧ chain.IsChain Precedes

/-- The gas of the chains that end with a writer of the object, the empty one included. -/
def writerChains (id : ObjectId) : Set ℕ :=
  {n | ∃ chain, Dependent scheduled chain ∧ (∀ last ∈ chain.getLast?, last.Writes id) ∧
    totalBudget chain = n}

/-- The tracker knows the longest chain up to each object, and none is beyond the limit. -/
structure TracksChains : Prop where
  cost : ∀ obj, IsGreatest (writerChains scheduled obj.id) (tracker.cost obj)
  within : ∀ chain, Dependent scheduled chain → totalBudget chain ≤ limit

end Definitions

variable {limit commitRound startCost endCost : ℕ} {previous : Std.TreeMap TransactionDigest DeferralKey}
  {tracker tracker' : SharedObjectCongestionTracker}
  {certs scheduled chain : List VerifiedExecutableTransaction}
  {cert : VerifiedExecutableTransaction} {acc acc' : Schedule}

lemma totalBudget_concat : totalBudget (chain ++ [cert]) = totalBudget chain + cert.gasBudget := by
  simp [totalBudget]

lemma isChain_concat : (chain ++ [cert]).IsChain Precedes ↔
    chain.IsChain Precedes ∧ ∀ last ∈ chain.getLast?, last.Precedes cert := by
  simp [isChain_append]

lemma dependent_concat (h : Dependent (scheduled ++ [cert]) chain) :
    Dependent scheduled chain ∨ ∃ start, chain = start ++ [cert] ∧ Dependent scheduled start ∧
      (start ++ [cert]).IsChain Precedes := by
  obtain ⟨start, tail, rfl, hstart, htail⟩ := sublist_append_iff.mp h.1
  rcases sublist_singleton.mp htail with rfl | rfl
  · rw [append_nil] at h ⊢
    exact .inl ⟨hstart, h.2⟩
  · exact .inr ⟨start, rfl, ⟨hstart, (isChain_concat.mp h.2).1⟩, h.2⟩

lemma tracksChains_new : TracksChains limit .new [] := by
  have hnil : ∀ chain, Dependent [] chain → totalBudget chain = 0 := by
    intro chain h
    rw [sublist_nil.mp h.1]
    rfl
  refine ⟨fun obj => ⟨⟨[], ⟨Sublist.refl _, .nil⟩, by simp, ?_⟩, ?_⟩, fun chain h =>
    (hnil chain h).trans_le (Nat.zero_le _)⟩
  · simp [totalBudget, cost, new]
  · rintro n ⟨chain, hchain, -, rfl⟩
    exact (hnil chain hchain).trans_le (Nat.zero_le _)

section

variable (h : TracksChains limit tracker scheduled)

include h

lemma TracksChains.trackerWithin : tracker.Within limit := by
  intro id c hget
  obtain ⟨chain, hchain, -, hsum⟩ := (h.cost ⟨id, 0, true⟩).1
  have hcost : tracker.cost ⟨id, 0, true⟩ = c := by simp [SharedObjectCongestionTracker.cost, hget]
  exact hcost ▸ hsum ▸ h.within chain hchain

/-- The start cost is the gas of the heaviest chain that the certificate waits for. -/
lemma TracksChains.isGreatest_startCost
    (hst : tracker.computeTxStartAtCost cert.sharedInputObjects = .ok startCost) :
    IsGreatest {n | ∃ chain, Dependent scheduled chain ∧ (chain ++ [cert]).IsChain Precedes ∧
      totalBudget chain = n} startCost := by
  obtain ⟨⟨obj, hobj, rfl⟩, hmax⟩ := computeTxStartAtCost_eq_ok.mp hst
  constructor
  · obtain ⟨chain, hchain, hlast, hsum⟩ := (h.cost obj).1
    exact ⟨chain, hchain, isChain_concat.mpr
      ⟨hchain.2, fun last hin => ⟨obj, hobj, hlast last hin⟩⟩, hsum⟩
  · rintro n ⟨chain, hchain, hcert, rfl⟩
    cases hlast : chain.getLast? with
    | none => simp [getLast?_eq_none_iff.mp hlast, totalBudget]
    | some last =>
      obtain ⟨obj', hobj', hwrites⟩ := (isChain_concat.mp hcert).2 last hlast
      refine ((h.cost obj').2 ⟨chain, hchain, fun last' hlast' => ?_, rfl⟩).trans (hmax obj' hobj')
      rw [hlast, Option.mem_some_iff] at hlast'
      exact hlast' ▸ hwrites

end

lemma cost_bumpObject {obj : SharedInputObject} (h : tracker.bumpObject endCost obj = .ok tracker')
    (obj' : SharedInputObject) :
    tracker'.cost obj' = if obj.isMutable = true ∧ obj.id = obj'.id then endCost
      else tracker.cost obj' := by
  unfold bumpObject at h
  split_ifs at h with hmut
  · have heq : tracker' = ⟨tracker.objectExecutionCost.insert obj.id endCost⟩ := by
      split at h
      · split_ifs at h
        exact (Except.ok.inj h).symm
      · exact (Except.ok.inj h).symm
    rw [heq, cost, getElem?_insert_ite]
    by_cases hid : obj.id = obj'.id
    · rw [if_pos hid, if_pos ⟨hmut, hid⟩, Option.getD_some]
    · rw [if_neg hid, if_neg fun hboth => hid hboth.2, cost]
  · rw [if_neg fun hboth => hmut hboth.1, ← Except.ok.inj h]

lemma cost_foldlM_bumpObject {objects : List SharedInputObject} (obj' : SharedInputObject)
    (h : objects.foldlM (bumpObject endCost) tracker = .ok tracker') : tracker'.cost obj' =
      if ∃ obj ∈ objects, obj.isMutable = true ∧ obj.id = obj'.id then endCost
      else tracker.cost obj' := by
  induction objects generalizing tracker with
  | nil => simp [← Except.ok.inj h]
  | cons obj objects ih =>
    obtain ⟨mid, hmid, h⟩ := bind_eq_ok.mp h
    rw [ih h, cost_bumpObject hmid obj']
    by_cases hrest : ∃ obj ∈ objects, obj.isMutable = true ∧ obj.id = obj'.id
    · rw [if_pos hrest, if_pos (hrest.imp fun _ h => ⟨mem_cons_of_mem _ h.1, h.2⟩)]
    · simp only [mem_cons, exists_eq_or_imp, hrest, or_false, if_false]

lemma TracksChains.bump (h : TracksChains limit tracker scheduled)
    (hst : tracker.computeTxStartAtCost cert.sharedInputObjects = .ok startCost)
    (hlim : startCost + cert.gasBudget ≤ limit)
    (hbump : tracker.bumpObjectExecutionCost cert.sharedInputObjects cert.gasBudget =
      .ok tracker') :
    TracksChains limit tracker' (scheduled ++ [cert]) := by
  unfold bumpObjectExecutionCost at hbump
  rw [hst, ok_bind] at hbump
  obtain ⟨⟨heaviest, hheavy, hends, hsum⟩, hmax⟩ := h.isGreatest_startCost hst
  have hend : ∀ {start}, Dependent scheduled start → (start ++ [cert]).IsChain Precedes →
      totalBudget (start ++ [cert]) ≤ startCost + cert.gasBudget := by
    intro start hstart hcert
    rw [totalBudget_concat]
    exact Nat.add_le_add_right (hmax ⟨start, hstart, hcert, rfl⟩) _
  refine ⟨fun obj => ?_, fun chain hchain => ?_⟩
  · rw [cost_foldlM_bumpObject obj hbump]
    split_ifs with hwrites
    · refine ⟨⟨heaviest ++ [cert], ⟨hheavy.1.append (Sublist.refl _), hends⟩, fun last hlast =>
        ?_, by rw [totalBudget_concat, hsum]⟩, ?_⟩
      · rw [getLast?_concat, Option.mem_some_iff] at hlast
        exact hlast ▸ hwrites
      · rintro n ⟨chain, hchain, hlast, rfl⟩
        rcases dependent_concat hchain with hold | ⟨start, rfl, hstart, hcert⟩
        · obtain ⟨obj', hobj', -, hid⟩ := hwrites
          have hle := (h.cost obj').2 ⟨chain, hold, hid ▸ hlast, rfl⟩
          have hcost := (computeTxStartAtCost_eq_ok.mp hst).2 obj' hobj'
          omega
        · exact hend hstart hcert
    · obtain ⟨⟨chain, hchain, hlast, hcost⟩, hle⟩ := h.cost obj
      refine ⟨⟨chain, ⟨hchain.1.trans (sublist_append_left _ _), hchain.2⟩, hlast, hcost⟩, ?_⟩
      rintro n ⟨chain, hchain, hlast, rfl⟩
      rcases dependent_concat hchain with hold | ⟨start, rfl, -, -⟩
      · exact hle ⟨chain, hold, hlast, rfl⟩
      · exact absurd (hlast cert (by simp)) hwrites
  · rcases dependent_concat hchain with hold | ⟨start, rfl, hstart, hcert⟩
    · exact h.within chain hold
    · exact (hend hstart hcert).trans hlim

lemma TracksChains.step (h : TracksChains limit acc.1 acc.2)
    (hok : scheduleCertificate limit previous commitRound acc cert = .ok acc') :
    TracksChains limit acc'.1 acc'.2 := by
  obtain ⟨congestion, hcong, hok⟩ := bind_eq_ok.mp hok
  obtain ⟨startCost, hst, -⟩ := bind_eq_ok.mp hcong
  obtain ⟨congestion', hcong', hnone⟩ := shouldDeferDueToObjectCongestion_ok hst
  obtain rfl := Except.ok.inj (hcong.symm.trans hcong')
  cases congestion with
  | some deferral => exact Except.ok.inj hok ▸ h
  | none =>
    obtain ⟨tracker', hbump, hok⟩ := bind_eq_ok.mp hok
    exact Except.ok.inj hok ▸ h.bump hst (hnone.mp rfl) hbump

lemma TracksChains.step_total (h : TracksChains limit acc.1 acc.2)
    (hshared : cert.sharedInputObjects ≠ []) (hpos : 0 < cert.gasBudget)
    (hnodup : (cert.sharedInputObjects.map SharedInputObject.id).Nodup) :
    ∃ acc', scheduleCertificate limit previous commitRound acc cert = .ok acc' := by
  obtain ⟨startCost, hst⟩ := exists_computeTxStartAtCost hshared
  obtain ⟨congestion, hcong, hnone⟩ := shouldDeferDueToObjectCongestion_ok hst
  unfold scheduleCertificate
  rw [hcong, ok_bind]
  cases congestion with
  | some deferral => exact ⟨acc, rfl⟩
  | none =>
    obtain ⟨tracker', hbump, -⟩ :=
      bumpObjectExecutionCost_ok hnodup hpos hst h.trackerWithin (hnone.mp rfl)
    rw [hbump]
    exact ⟨_, rfl⟩

/-- Whatever certificates were decided, the limit bounds the gas of every chain of scheduled ones,
and the next certificate is deferred only if it would end a chain beyond the limit. Certificates
with positive budgets and distinct shared inputs are all decided, and their costs stay below `2 ^
64` if the limit and the greatest budget do together. -/
theorem congestionControl_bounds_dependent_work (limit : ℕ)
    (previous : Std.TreeMap TransactionDigest DeferralKey) (commitRound : ℕ)
    (certs : List VerifiedExecutableTransaction) :
    (∀ tracker scheduled, scheduleCertificates limit previous commitRound certs =
      .ok (tracker, scheduled) →
      (∀ chain, chain.Sublist scheduled → chain.IsChain Precedes → totalBudget chain ≤ limit) ∧
      ∀ cert deferral, tracker.shouldDeferDueToObjectCongestion cert limit previous commitRound =
        .ok (some deferral) →
        ∃ chain, chain.Sublist scheduled ∧ (chain ++ [cert]).IsChain Precedes ∧
          limit < totalBudget (chain ++ [cert])) ∧
    ((∀ cert ∈ certs, cert.sharedInputObjects ≠ [] ∧ 0 < cert.gasBudget ∧
      (cert.sharedInputObjects.map SharedInputObject.id).Nodup) →
      ∃ result, scheduleCertificates limit previous commitRound certs = .ok result) ∧
    ∀ maxTxGas, limit + maxTxGas < 2 ^ 64 → (∀ cert ∈ certs, cert.gasBudget ≤ maxTxGas) →
      ∀ done cert tracker scheduled startCost, done ++ [cert] <+: certs →
        scheduleCertificates limit previous commitRound done = .ok (tracker, scheduled) →
        tracker.computeTxStartAtCost cert.sharedInputObjects = .ok startCost →
          startCost + cert.gasBudget < 2 ^ 64 := by
  have htracks : ∀ {certs tracker scheduled},
    scheduleCertificates limit previous commitRound certs = .ok (tracker, scheduled) →
      TracksChains limit tracker scheduled := fun hrun =>
    foldlM_ok_induction (fun acc : Schedule => TracksChains limit acc.1 acc.2)
      (fun _ _ _ _ h hok => h.step hok) tracksChains_new hrun
  refine ⟨?_, ?_, ?_⟩
  · intro tracker scheduled hrun
    have htracks := htracks hrun
    refine ⟨fun chain hsub hchain => htracks.within chain ⟨hsub, hchain⟩, fun cert deferral hdefer => ?_⟩
    obtain ⟨startCost, hst, -⟩ := bind_eq_ok.mp hdefer
    obtain ⟨congestion, hcong, hnone⟩ := shouldDeferDueToObjectCongestion_ok hst
    obtain rfl := Except.ok.inj (hdefer.symm.trans hcong)
    obtain ⟨chain, hchain, hends, rfl⟩ := (htracks.isGreatest_startCost hst).1
    refine ⟨chain, hchain.1, hends, ?_⟩
    rw [totalBudget_concat]
    exact not_le.mp fun hle => nomatch hnone.mpr hle
  · intro hcerts
    have hstep : ∀ done cert acc, done ++ [cert] <+: certs → TracksChains limit acc.1 acc.2 →
        ∃ acc', scheduleCertificate limit previous commitRound acc cert = .ok acc' ∧
          TracksChains limit acc'.1 acc'.2 := by
      intro done cert acc hdone htracks
      obtain ⟨hshared, hpos, hnodup⟩ := hcerts cert (hdone.subset (by simp))
      obtain ⟨acc', hacc'⟩ := htracks.step_total hshared hpos hnodup
      exact ⟨acc', hacc', htracks.step hacc'⟩
    obtain ⟨result, hrun, -⟩ := foldlM_total_of_prefix (b := (.new, [])) _ hstep tracksChains_new
    exact ⟨result, hrun⟩
  · intro maxTxGas hmax hbudgets done cert tracker scheduled startCost hdone hrun hst
    obtain ⟨chain, hchain, -, rfl⟩ := ((htracks hrun).isGreatest_startCost hst).1
    have hwithin := (htracks hrun).within chain hchain
    have hbudget := hbudgets cert (hdone.subset (by simp))
    omega

end SuiProofs.Authority

import SuiProofs.Authority.PerEpochStore

/-! Models `shared_object_version_manager.rs` of `sui-core`. -/

namespace SuiProofs.Authority

open Library List VerifiedExecutableTransaction
open Std (TreeMap)

/-- The assertions, `expect`s and `unwrap`s met while versions are assigned. -/
inductive VersionPanic where
  | noRandomnessObject
  | missingVersion (id : ObjectId)
  | versionOverflow
  | invalidVersion (version : SequenceNumber)
deriving DecidableEq, Repr

namespace SequenceNumber

variable (version : SequenceNumber)

def increment : Except VersionPanic SequenceNumber :=
  if version = 2 ^ 64 - 1 then .error .versionOverflow else .ok (version + 1)

def lamportIncrement (inputs : List SequenceNumber) : Except VersionPanic SequenceNumber :=
  let maxInput := inputs.foldl Max.max 0
  if maxInput = 2 ^ 64 - 1 then .error .versionOverflow else .ok (maxInput + 1)

def isValid : Bool := version < max

def assertValid : Except VersionPanic Unit :=
  if isValid version then .ok () else .error (.invalidVersion version)

end SequenceNumber

namespace VerifiedExecutableTransaction

variable (tx : VerifiedExecutableTransaction)

/-- The versions in `transaction_non_shared_input_object_keys`. -/
def nonSharedInputVersions : List SequenceNumber :=
  tx.inputObjects.filterMap fun
    | .immOrOwnedMoveObject objRef => some objRef.version
    | _ => none

/-- The versions in `transaction_receiving_object_keys`. -/
def receivingVersions : List SequenceNumber :=
  tx.receivingObjects.map ObjectRef.version

end VerifiedExecutableTransaction

structure VersionConfig where
  epoch : ℕ
  randomnessObjInitialSharedVersion : Option SequenceNumber

/-- A commit, with the object versions that the cache returns when it is processed. -/
structure VersionedCommit where
  certificates : List VerifiedExecutableTransaction
  randomnessRound : Option ℕ
  cancelledTxns : TreeMap TransactionDigest CancelConsensusCertificateReason
  cacheReader : ObjectId → Option SequenceNumber

abbrev NextVersions := TreeMap ObjectId SequenceNumber

namespace NextVersions

def insertBatch (table : NextVersions) (entries : List (ObjectId × SequenceNumber)) : NextVersions :=
  entries.foldl (fun table e => table.insert e.1 e.2) table

/-- The table `next_shared_object_versions` afterwards, and the versions of the given objects. -/
def getOrInitNextObjectVersions (table : NextVersions) (objectsToInit : List (ObjectId × SequenceNumber))
    (cacheReader : ObjectId → Option SequenceNumber) : NextVersions × NextVersions :=
  let ids := objectsToInit.map Prod.fst
  let nextVersions := ids.map fun id => table[id]?
  let uninitializedObjects := (nextVersions.zip objectsToInit).filterMap fun
    | (none, idAndVersion) => some idAndVersion
    | (some _, _) => none
  let initialized := (ids.zip nextVersions).filterMap fun e => e.2.map fun v => (e.1, v)
  if uninitializedObjects.isEmpty then (table, insertBatch ∅ initialized)
  else
    let versionsToWrite := uninitializedObjects.map fun o => (o.1, (cacheReader o.1).getD o.2)
    (table.insertBatch versionsToWrite, insertBatch ∅ (initialized ++ versionsToWrite))

end NextVersions

namespace SharedObjVerManager

def sharedInputObjects (cfg : VersionConfig) (commit : VersionedCommit) :
    Except VersionPanic (List (ObjectId × SequenceNumber)) :=
  let objects := commit.certificates.flatMap fun cert =>
    cert.sharedInputObjects.map fun obj => (obj.id, obj.initialSharedVersion)
  match commit.randomnessRound with
  | none => .ok objects
  | some _ =>
    match cfg.randomnessObjInitialSharedVersion with
    | some version =>
        .ok (objects ++ [(VerifiedExecutableTransaction.suiRandomnessStateObjectId, version)])
    | none => .error .noRandomnessObject

/-- Objects are sorted by their ids and, for one id, by their versions. -/
def sortDedup (objects : List (ObjectId × SequenceNumber)) : List (ObjectId × SequenceNumber) :=
  (((objects.map toLex).insertionSort (· ≤ ·)).dedup).map ofLex

def getOrInitVersions (cfg : VersionConfig) (table : NextVersions) (commit : VersionedCommit) :
    Except VersionPanic (NextVersions × NextVersions) := do
  let objects ← sharedInputObjects cfg commit
  return table.getOrInitNextObjectVersions (sortDedup objects) commit.cacheReader

structure AssignedInput where
  id : ObjectId
  version : SequenceNumber
  isMutable : Bool

def cancellationInfo (cancelledTxns : TreeMap TransactionDigest CancelConsensusCertificateReason)
    (cert : VerifiedExecutableTransaction) : Option (List ObjectId) :=
  cancelledTxns[cert.digest]?.map fun
    | .congestionOnObjects objects => objects

def cancelledVersion (congestedObjects : List ObjectId) (id : ObjectId) : SequenceNumber :=
  if congestedObjects.contains id then SequenceNumber.congested else SequenceNumber.cancelledRead

def assignInputs (nextVersions : NextVersions) (cancellation : Option (List ObjectId))
    (inputs : List SharedInputObject) :
    Except VersionPanic (List AssignedInput) :=
  match cancellation with
  | some congestedObjects =>
      .ok (inputs.map fun obj => ⟨obj.id, cancelledVersion congestedObjects obj.id, false⟩)
  | none => inputs.mapM fun obj =>
    match nextVersions[obj.id]? with
    | some version => .ok ⟨obj.id, version, obj.isMutable⟩
    | none => .error (.missingVersion obj.id)

def replaceVersion (nextVersion : SequenceNumber) (nextVersions : NextVersions)
    (input : AssignedInput) : Except VersionPanic NextVersions :=
  match nextVersions[input.id]? with
  | some _ => .ok (nextVersions.insert input.id nextVersion)
  | none => .error (.missingVersion input.id)

def updateVersions (txnCancelled : Bool) (nextVersion : SequenceNumber)
    (nextVersions : NextVersions) (assigned : List AssignedInput) :
    Except VersionPanic NextVersions :=
  if txnCancelled then .ok nextVersions
  else (assigned.filter AssignedInput.isMutable).foldlM (replaceVersion nextVersion) nextVersions

def assignVersionsForCertificate (cert : VerifiedExecutableTransaction) (nextVersions : NextVersions)
    (cancelledTxns : TreeMap TransactionDigest CancelConsensusCertificateReason) :
    Except VersionPanic (NextVersions × List (ObjectId × SequenceNumber)) := do
  let cancellation := cancellationInfo cancelledTxns cert
  let inputObjectKeys := cert.nonSharedInputVersions ++ cert.receivingVersions
  let assigned ← assignInputs nextVersions cancellation cert.sharedInputObjects
  let inputObjectKeys := if cancellation.isSome then inputObjectKeys
    else inputObjectKeys ++ assigned.map AssignedInput.version
  let nextVersion ← SequenceNumber.lamportIncrement inputObjectKeys
  SequenceNumber.assertValid nextVersion
  let nextVersions ← updateVersions cancellation.isSome nextVersion nextVersions assigned
  return (nextVersions, assigned.map fun a => (a.id, a.version))

abbrev AssignedTxAndVersions := List (TransactionKey × List (ObjectId × SequenceNumber))

/-- The update of the randomness state comes before the certificates, which read what it writes. -/
def assignRandomness (cfg : VersionConfig) (randomnessRound : Option ℕ) (nextVersions : NextVersions) :
    Except VersionPanic (NextVersions × AssignedTxAndVersions) :=
  match randomnessRound with
  | none => .ok (nextVersions, [])
  | some round =>
    match nextVersions[VerifiedExecutableTransaction.suiRandomnessStateObjectId]? with
    | none => .error (.missingVersion VerifiedExecutableTransaction.suiRandomnessStateObjectId)
    | some version => do
      let next ← SequenceNumber.increment version
      return (nextVersions.insert VerifiedExecutableTransaction.suiRandomnessStateObjectId next,
        [(.randomnessRound cfg.epoch round,
          [(VerifiedExecutableTransaction.suiRandomnessStateObjectId, version)])])

def assignCertificate (cancelledTxns : TreeMap TransactionDigest CancelConsensusCertificateReason)
    (state : NextVersions × AssignedTxAndVersions) (cert : VerifiedExecutableTransaction) :
    Except VersionPanic (NextVersions × AssignedTxAndVersions) :=
  if !cert.containsSharedObject then .ok state
  else do
    let (nextVersions, versions) ← assignVersionsForCertificate cert state.1 cancelledTxns
    return (nextVersions, state.2 ++ [(cert.key, versions)])

/-- The table after initialisation, and `ConsensusSharedObjVerAssignment`. -/
def assignVersionsFromConsensus (cfg : VersionConfig) (table : NextVersions) (commit : VersionedCommit) :
    Except VersionPanic (NextVersions × NextVersions × AssignedTxAndVersions) := do
  let (table, nextVersions) ← getOrInitVersions cfg table commit
  let state ← assignRandomness cfg commit.randomnessRound nextVersions
  let state ← commit.certificates.foldlM (assignCertificate commit.cancelledTxns) state
  return (table, state)

/-- The commits of an epoch one after the other, each writing its next versions to the table. -/
inductive Run (cfg : VersionConfig) (start : NextVersions) :
    List VersionedCommit → NextVersions → AssignedTxAndVersions → Prop
  | start : Run cfg start [] start []
  | commit {commits : List VersionedCommit} {table initialized nextVersions : NextVersions}
      {assigned new : AssignedTxAndVersions} {commit : VersionedCommit} :
      Run cfg start commits table assigned →
        assignVersionsFromConsensus cfg table commit = .ok (initialized, nextVersions, new) →
      Run cfg start (commits ++ [commit]) (initialized.insertBatch nextVersions.toList) (assigned ++ new)

/-- A transaction that takes shared objects, as far as versions depend on it. -/
structure Taking where
  key : TransactionKey
  inputs : List SharedInputObject
  otherVersions : List SequenceNumber
  cancellation : Option (List ObjectId)
deriving DecidableEq, Repr

def randomnessTaking (cfg : VersionConfig) (round : ℕ) : Taking where
  key := .randomnessRound cfg.epoch round
  inputs := [⟨VerifiedExecutableTransaction.suiRandomnessStateObjectId,
    cfg.randomnessObjInitialSharedVersion.getD 0, true⟩]
  otherVersions := []
  cancellation := none

def certificateTaking (cancelledTxns : TreeMap TransactionDigest CancelConsensusCertificateReason)
    (cert : VerifiedExecutableTransaction) : Taking where
  key := cert.key
  inputs := cert.sharedInputObjects
  otherVersions := cert.nonSharedInputVersions ++ cert.receivingVersions
  cancellation := cancellationInfo cancelledTxns cert

def takings (cfg : VersionConfig) (commit : VersionedCommit) : List Taking :=
  (commit.randomnessRound.map (randomnessTaking cfg)).toList ++
    (commit.certificates.filter VerifiedExecutableTransaction.containsSharedObject).map
      (certificateTaking commit.cancelledTxns)

/-- The versions that were assigned to the inputs of a taking. -/
structure Assignment where
  taking : Taking
  versions : List (ObjectId × SequenceNumber)
deriving DecidableEq, Repr

namespace Assignment

def lamport (a : Assignment) : SequenceNumber :=
  1 + (a.taking.otherVersions ++ a.versions.map Prod.snd).foldl Max.max 0

def writes (a : Assignment) (id : ObjectId) : Bool :=
  a.taking.cancellation.isNone && a.taking.inputs.any fun obj => obj.id = id && obj.isMutable

end Assignment

def lastWritten (initial : ObjectId → SequenceNumber) (log : List Assignment) (id : ObjectId) :
    SequenceNumber :=
  match (log.filter fun a => a.writes id).getLast? with
  | some a => a.lamport
  | none => initial id

/-- The versions of a transaction that follows some transactions. -/
def versionsAfter (initial : ObjectId → SequenceNumber) (log : List Assignment) (t : Taking) :
    List (ObjectId × SequenceNumber) :=
  match t.cancellation with
  | none => t.inputs.map fun obj => (obj.id, lastWritten initial log obj.id)
  | some congestedObjects => t.inputs.map fun obj => (obj.id, cancelledVersion congestedObjects obj.id)

/-- The versions at which the transactions of a commit expect an object to have been shared. -/
def declared (cfg : VersionConfig) (commit : VersionedCommit) (id : ObjectId) : List SequenceNumber :=
  (takings cfg commit).flatMap fun t =>
    (t.inputs.filter fun obj => obj.id = id).map SharedInputObject.initialSharedVersion

/-- The version of an object when a commit of the epoch is the first to take it: the current one,
or the one at which it will be shared. -/
def firstVersion (cfg : VersionConfig) (commit : VersionedCommit) (id : ObjectId) :
    Option SequenceNumber :=
  (declared cfg commit id).max?.map fun v => (commit.cacheReader id).getD v

def initialVersion (cfg : VersionConfig) (start : NextVersions) (commits : List VersionedCommit)
    (id : ObjectId) : Option SequenceNumber :=
  start[id]?.or (commits.findSome? fun commit => firstVersion cfg commit id)

variable {objects : List (ObjectId × SequenceNumber)} {id : ObjectId} {v : SequenceNumber}
  {cfg : VersionConfig} {commit : VersionedCommit} {initial : ObjectId → SequenceNumber}

section Initialisation

variable {table : NextVersions} {cacheReader : ObjectId → Option SequenceNumber}

lemma getElem?_insertBatch (entries : List (ObjectId × SequenceNumber)) :
    (table.insertBatch entries)[id]? =
      ((entries.filter fun e => e.1 = id).getLast?.map Prod.snd).or table[id]? := by
  unfold NextVersions.insertBatch
  induction entries using reverseRecOn with
  | nil => rfl
  | append_singleton entries e ih =>
    rw [foldl_concat, getElem?_insert_ite, ih, filter_append]
    by_cases he : e.1 = id <;> simp [he]

lemma uninitializedObjects_eq :
    (((objects.map Prod.fst).map fun id => table[id]?).zip objects).filterMap (fun
      | (none, idAndVersion) => some idAndVersion
      | (some _, _) => none) = objects.filter fun o => table[o.1]?.isNone := by
  induction objects with
  | nil => rfl
  | cons o objects ih =>
    rw [map_cons, map_cons, zip_cons_cons, filterMap_cons, ih, filter_cons]
    cases ho : table[o.1]? with
    | none | some => simp

lemma getOrInitNextObjectVersions_eq : table.getOrInitNextObjectVersions objects cacheReader =
    let versionsToWrite := (objects.filter fun o => table[o.1]?.isNone).map fun o =>
      (o.1, (cacheReader o.1).getD o.2)
    (table.insertBatch versionsToWrite,
      NextVersions.insertBatch ∅ ((objects.filterMap fun o => table[o.1]?.map fun v => (o.1, v)) ++
        versionsToWrite)) := by
  unfold NextVersions.getOrInitNextObjectVersions
  dsimp only
  rw [uninitializedObjects_eq, map_map, zip_map', filterMap_map]
  split_ifs with hemp
  · rw [isEmpty_iff.mp hemp, map_nil, append_nil]
    rfl
  · rfl

lemma filter_versionsToWrite :
    ((objects.filter fun o => table[o.1]?.isNone).map fun o =>
      (o.1, (cacheReader o.1).getD o.2)).filter (fun e => e.1 = id) =
      if table[id]?.isNone then (objects.filter fun o => o.1 = id).map fun o =>
        (id, (cacheReader id).getD o.2) else [] := by
  induction objects with
  | nil => simp
  | cons o objects ih => grind

lemma filter_initialized :
    (objects.filterMap fun o => table[o.1]?.map fun v => (o.1, v)).filter (fun e => e.1 = id) =
      (objects.filter fun o => o.1 = id).filterMap fun _ => table[id]?.map fun v => (id, v) := by
  induction objects with
  | nil => rfl
  | cons o objects ih => grind

lemma getElem?_getOrInitNextObjectVersions_fst :
    (table.getOrInitNextObjectVersions objects cacheReader).1[id]? =
      table[id]?.or ((objects.filter fun o => o.1 = id).getLast?.map fun o =>
        (cacheReader id).getD o.2) := by
  rw [getOrInitNextObjectVersions_eq, getElem?_insertBatch, filter_versionsToWrite]
  cases table[id]? <;> simp [Function.comp_def]

lemma getElem?_getOrInitNextObjectVersions_snd :
    (table.getOrInitNextObjectVersions objects cacheReader).2[id]? =
      if id ∈ objects.map Prod.fst then
        (table.getOrInitNextObjectVersions objects cacheReader).1[id]? else none := by
  have hnil : id ∈ objects.map Prod.fst ↔ (objects.filter fun o => o.1 = id) ≠ [] := by simp
  rw [getElem?_getOrInitNextObjectVersions_fst, getOrInitNextObjectVersions_eq,
    getElem?_insertBatch, filter_append,
    filter_versionsToWrite, filter_initialized]
  simp only [hnil]
  generalize (objects.filter fun o => o.1 = id) = l
  cases l using reverseRecOn with
  | nil => simp
  | append_singleton => cases table[id]? <;> simp

lemma mem_sortDedup {o : ObjectId × SequenceNumber} : o ∈ sortDedup objects ↔ o ∈ objects := by
  unfold sortDedup
  simp [mem_dedup, mem_insertionSort, -Prod.exists]

lemma getLast?_sortDedup :
    ((sortDedup objects).filter fun o => o.1 = id).getLast?.map Prod.snd =
      ((objects.filter fun o => o.1 = id).map Prod.snd).max? := by
  have hsort : ((sortDedup objects).filter fun o => o.1 = id).Pairwise fun a b => toLex a ≤ toLex b := by
    apply List.Pairwise.filter
    unfold sortDedup
    rw [pairwise_map]
    exact (pairwise_insertionSort (· ≤ ·) (objects.map toLex)).sublist (dedup_sublist _)
  cases hlast : ((sortDedup objects).filter fun o => o.1 = id).getLast? with
  | none =>
    have hnil := getLast?_eq_none_iff.mp hlast
    symm
    rw [Option.map_none, max?_eq_none_iff, map_eq_nil_iff, filter_eq_nil_iff]
    intro o ho
    exact filter_eq_nil_iff.mp hnil o (mem_sortDedup.mpr ho)
  | some o =>
    symm
    have ho := mem_filter.mp (mem_of_getLast? hlast)
    rw [Option.map_some, max?_eq_some_iff]
    refine ⟨mem_map_of_mem (mem_filter.mpr ⟨mem_sortDedup.mp ho.1, ho.2⟩), ?_⟩
    intro v hv
    obtain ⟨o', ho', rfl⟩ := mem_map.mp hv
    obtain ⟨hin, hid⟩ := mem_filter.mp ho'
    rcases rel_or_eq_last hsort hlast (mem_filter.mpr ⟨mem_sortDedup.mpr hin, hid⟩) with hle | rfl
    · have hsame : o'.1 = o.1 := (of_decide_eq_true hid).trans (of_decide_eq_true ho.2).symm
      exact ((Prod.Lex.toLex_le_toLex.mp hle).resolve_left fun hlt => hlt.ne hsame).2
    · exact le_refl _

end Initialisation

section Commit

variable {table initialized nextVersions : NextVersions} {log : List Assignment} {t : Taking}
  {cert : VerifiedExecutableTransaction}
  {cancelledTxns : TreeMap TransactionDigest CancelConsensusCertificateReason}

lemma mem_takings : t ∈ takings cfg commit ↔
    (∃ round, commit.randomnessRound = some round ∧ randomnessTaking cfg round = t) ∨
    ∃ cert ∈ commit.certificates, cert.containsSharedObject = true ∧
      certificateTaking commit.cancelledTxns cert = t := by
  simp [takings, and_assoc]

lemma mem_declared : v ∈ declared cfg commit id ↔
    ∃ t ∈ takings cfg commit, ∃ obj ∈ t.inputs, obj.id = id ∧ obj.initialSharedVersion = v := by
  simp [declared, and_assoc]

lemma mem_sharedInputObjects (h : sharedInputObjects cfg commit = .ok objects) :
    (id, v) ∈ objects ↔ v ∈ declared cfg commit id := by
  have hcerts : (id, v) ∈ (commit.certificates.flatMap fun cert =>
    cert.sharedInputObjects.map fun obj => (obj.id, obj.initialSharedVersion)) ↔
      ∃ cert ∈ commit.certificates, cert.containsSharedObject = true ∧
        ∃ obj ∈ cert.sharedInputObjects, obj.id = id ∧ obj.initialSharedVersion = v := by
    simp only [mem_flatMap, mem_map, Prod.mk.injEq]
    refine exists_congr fun cert => and_congr_right fun _ => (and_iff_right_of_imp ?_).symm
    rintro ⟨obj, hobj, -⟩
    simpa [containsSharedObject] using ne_nil_of_mem hobj
  have hdeclared : v ∈ declared cfg commit id ↔ (∃ round, commit.randomnessRound = some round ∧
        (id, v) = (suiRandomnessStateObjectId, cfg.randomnessObjInitialSharedVersion.getD 0)) ∨
      ∃ cert ∈ commit.certificates, cert.containsSharedObject = true ∧
        ∃ obj ∈ cert.sharedInputObjects, obj.id = id ∧ obj.initialSharedVersion = v := by
    simp [declared, takings, and_assoc, certificateTaking, randomnessTaking, @eq_comm _ id, @eq_comm _ v]
  rw [hdeclared, ← hcerts]
  unfold sharedInputObjects at h
  split at h
  next hrd => simp [← Except.ok.inj h, hrd]
  next round hrd =>
    split at h
    next version hobj => simp [← Except.ok.inj h, hrd, hobj, or_comm]
    · cases h

lemma max?_eq_of_mem_iff {l l' : List ℕ} (h : ∀ v, v ∈ l ↔ v ∈ l') : l.max? = l'.max? := by
  apply Option.ext
  intro v
  rw [max?_eq_some_iff, max?_eq_some_iff, h v]
  simp only [h]

variable (cfg commit) in
def LacksRandomnessObject : Prop :=
  commit.randomnessRound.isSome = true ∧ cfg.randomnessObjInitialSharedVersion = none

lemma getOrInitVersions_ends : Ends (getOrInitVersions cfg table commit)
    (fun _ => LacksRandomnessObject cfg commit) fun r =>
    (∀ id, r.1[id]? = table[id]?.or (firstVersion cfg commit id)) ∧
      ∀ id, r.2[id]? = if declared cfg commit id = [] then none else r.1[id]? := by
  have hobjs : Ends (sharedInputObjects cfg commit) (fun _ => LacksRandomnessObject cfg commit)
    fun objects =>
      ∀ id v, (id, v) ∈ objects ↔ v ∈ declared cfg commit id := by
    refine ⟨fun objects h id v => mem_sharedInputObjects h, fun e h => ?_⟩
    unfold sharedInputObjects at h
    split at h
    · cases h
    next _ hrd =>
      split at h
      · cases h
      next hnone => exact ⟨by rw [hrd]; rfl, hnone⟩
  refine hobjs.bind fun objects _ hmem => .ok ⟨fun id => ?_, fun id => ?_⟩
  · have hmax : ((objects.filter fun o => o.1 = id).map Prod.snd).max? =
        (declared cfg commit id).max? := by
      apply max?_eq_of_mem_iff
      intro v
      rw [← hmem]
      simp
    rw [getElem?_getOrInitNextObjectVersions_fst, firstVersion, ← hmax, ← getLast?_sortDedup,
      Option.map_map]
    rfl
  · rw [getElem?_getOrInitNextObjectVersions_snd]
    have hin : id ∈ (sortDedup objects).map Prod.fst ↔ ¬ declared cfg commit id = [] := by
      rw [mem_map]
      constructor
      · rintro ⟨o, ho, rfl⟩
        exact ne_nil_of_mem ((hmem o.1 o.2).mp (mem_sortDedup.mp ho))
      · intro hne
        obtain ⟨v, hv⟩ := exists_mem_of_ne_nil _ hne
        exact ⟨(id, v), mem_sortDedup.mpr ((hmem id v).mpr hv), rfl⟩
    by_cases hnil : declared cfg commit id = []
    · rw [if_pos hnil, if_neg (fun h => hin.mp h hnil)]
    · rw [if_neg hnil, if_pos (hin.mpr hnil)]

lemma lastWritten_append_singleton (a : Assignment) :
    lastWritten initial (log ++ [a]) id = if a.writes id = true then a.lamport
      else lastWritten initial log id := by
  unfold lastWritten
  by_cases ha : a.writes id = true <;> simp [ha]

/-- Versions are kept for the objects a commit takes, as the transactions so far have left them. -/
def Tracks (touched : ObjectId → Prop) (initial : ObjectId → SequenceNumber) (log : List Assignment)
    (nextVersions : NextVersions) : Prop :=
  ∀ id v, nextVersions[id]? = some v ↔ touched id ∧ v = lastWritten initial log id

def AtLimit (e : VersionPanic) : Prop := e = .versionOverflow ∨ ∃ v, e = .invalidVersion v

lemma lamportIncrement_ends (versions : List SequenceNumber) :
    Ends (SequenceNumber.lamportIncrement versions) AtLimit (· = 1 + versions.foldl Max.max 0) := by
  unfold SequenceNumber.lamportIncrement
  dsimp only
  split_ifs
  · exact .error (.inl rfl)
  · exact .ok (add_comm _ _)

variable {touched : ObjectId → Prop}

lemma assignInputs_eq (htr : Tracks touched initial log nextVersions) {inputs : List SharedInputObject}
    (htouch : ∀ obj ∈ inputs, touched obj.id) : assignInputs nextVersions none inputs =
      .ok (inputs.map fun obj => ⟨obj.id, lastWritten initial log obj.id, obj.isMutable⟩) := by
  apply mapM_eq_ok
  intro obj hobj
  rw [(htr obj.id _).mpr ⟨htouch obj hobj, rfl⟩]

lemma foldlM_replaceVersion {inputs : List AssignedInput}
    (hin : ∀ a ∈ inputs, ∃ v, nextVersions[a.id]? = some v) :
    ∃ nextVersions', inputs.foldlM (replaceVersion v) nextVersions = .ok nextVersions' ∧
      ∀ id, nextVersions'[id]? = if (inputs.any fun a => a.id = id) = true then some v
        else nextVersions[id]? := by
  refine foldlM_total (fun (done : List AssignedInput) (m : NextVersions) =>
    ∀ id : ObjectId, m[id]? = if (done.any fun a => a.id = id) = true then some v
      else nextVersions[id]?) ?_ (fun id => rfl)
  intro done a m ha hm
  have hget : ∃ w, m[a.id]? = some w := by
    rw [hm]
    split_ifs
    · exact ⟨v, rfl⟩
    · exact hin a ha
  obtain ⟨w, hw⟩ := hget
  refine ⟨m.insert a.id v, ?_, fun id => ?_⟩
  · unfold replaceVersion
    rw [hw]
  · rw [getElem?_insert_ite, hm, any_append]
    by_cases hid : a.id = id <;> simp [hid]

lemma assertValid_ends (version : SequenceNumber) :
    Ends (SequenceNumber.assertValid version) AtLimit fun _ => True := by
  unfold SequenceNumber.assertValid
  split_ifs
  · exact .ok trivial
  · exact .error (.inr ⟨version, rfl⟩)

variable {a : Assignment} {nextVersions' : NextVersions}

lemma Tracks.append (htr : Tracks touched initial log nextVersions)
    (hget : ∀ id, nextVersions'[id]? = if a.writes id = true then some a.lamport else nextVersions[id]?)
    (htouch : ∀ id, a.writes id = true → touched id) :
    Tracks touched initial (log ++ [a]) nextVersions' := by
  intro id v
  rw [hget, lastWritten_append_singleton]
  by_cases hwr : a.writes id = true
  · rw [if_pos hwr, if_pos hwr, Option.some.injEq, eq_comm]
    exact (and_iff_right (htouch id hwr)).symm
  · rw [if_neg hwr, if_neg hwr]
    exact htr id v

lemma writes_eq_false_of_cancelled {congestedObjects : List ObjectId}
    (ha : a.taking.cancellation = some congestedObjects) :
    a.writes id = false := by
  rw [Assignment.writes, ha]
  rfl

lemma exists_of_writes (ha : a.writes id = true) :
    a.taking.cancellation = none ∧ ∃ obj ∈ a.taking.inputs, obj.id = id ∧ obj.isMutable = true := by
  simpa [Assignment.writes] using ha

/-- A certificate gets the versions left by the transactions before it, and leaves its own. -/
lemma assignVersionsForCertificate_ends (htr : Tracks touched initial log nextVersions)
    (htouch : ∀ obj ∈ cert.sharedInputObjects, touched obj.id) :
    Ends (assignVersionsForCertificate cert nextVersions cancelledTxns) AtLimit fun r =>
      r.2 = versionsAfter initial log (certificateTaking cancelledTxns cert) ∧
        Tracks touched initial (log ++ [⟨certificateTaking cancelledTxns cert, r.2⟩]) r.1 := by
  unfold assignVersionsForCertificate
  dsimp only
  cases hcancel : cancellationInfo cancelledTxns cert with
  | some congestedObjects =>
    refine (lamportIncrement_ends _).bind fun next _ _ => ?_
    refine (assertValid_ends next).bind fun _ _ _ => ?_
    refine .ok ⟨?_, ?_⟩
    · rw [versionsAfter, certificateTaking, hcancel]
      rw [map_map]
      rfl
    · refine htr.append (fun id => ?_) (fun id hwr => ?_)
      · rw [writes_eq_false_of_cancelled hcancel]
        rfl
      · rw [writes_eq_false_of_cancelled hcancel] at hwr
        cases hwr
  | none =>
    rw [assignInputs_eq htr htouch, ok_bind]
    refine (lamportIncrement_ends _).bind fun next _ hnext => ?_
    refine (assertValid_ends next).bind fun _ _ _ => ?_
    have hmem : ∀ a ∈ (cert.sharedInputObjects.map fun obj =>
      (⟨obj.id, lastWritten initial log obj.id, obj.isMutable⟩ : AssignedInput)).filter
        AssignedInput.isMutable, ∃ v, nextVersions[a.id]? = some v := by
      intro a ha
      obtain ⟨obj, hobj, rfl⟩ := mem_map.mp (mem_filter.mp ha).1
      exact ⟨_, (htr obj.id _).mpr ⟨htouch obj hobj, rfl⟩⟩
    obtain ⟨nextVersions', hfold, hget⟩ := foldlM_replaceVersion (v := next) hmem
    rw [Option.isSome_none, updateVersions, if_neg Bool.false_ne_true, hfold, ok_bind]
    refine .ok ⟨?_, htr.append (fun id => ?_) (fun id hwr => ?_)⟩
    · rw [versionsAfter, certificateTaking, hcancel]
      rw [map_map]
      rfl
    · have hwr : ((cert.sharedInputObjects.map fun obj =>
        (⟨obj.id, lastWritten initial log obj.id, obj.isMutable⟩ : AssignedInput)).filter
          AssignedInput.isMutable).any (fun a => a.id = id) =
            cert.sharedInputObjects.any fun obj => obj.id = id && obj.isMutable := by
        rw [any_filter, any_map]
        simp only [Function.comp_def, Bool.and_comm]
      have hlamport : next = 1 + ((certificateTaking cancelledTxns cert).otherVersions ++
          ((cert.sharedInputObjects.map fun obj =>
            (⟨obj.id, lastWritten initial log obj.id, obj.isMutable⟩ : AssignedInput)).map
            fun a => (a.id, a.version)).map Prod.snd).foldl Max.max 0 := by
        rw [hnext, Option.isSome_none, if_neg Bool.false_ne_true, map_map, map_map, map_map]
        rfl
      rw [hget, hwr, Assignment.writes, Assignment.lamport, certificateTaking, hcancel, hlamport]
      rfl
    · obtain ⟨-, obj, hobj, rfl, -⟩ := exists_of_writes hwr
      exact htouch obj hobj

variable (initial log) in
/-- Every transaction so far has the versions that those before it left. -/
def Chained : Prop :=
  ∀ before a, before ++ [a] <+: log → a.versions = versionsAfter initial before a.taking

lemma Chained.append (h : Chained initial log) (ha : a.versions = versionsAfter initial log a.taking) :
    Chained initial (log ++ [a]) := by
  intro before a' hbeg
  rcases prefix_concat_iff.mp hbeg with heq | hbeg
  · obtain ⟨rfl, hlast⟩ := append_inj' heq rfl
    obtain rfl := singleton_inj.mp hlast
    exact ha
  · exact h before a' hbeg

def record (log : List Assignment) : AssignedTxAndVersions := log.map fun a => (a.taking.key, a.versions)

variable (cfg commit) in
def Touched (id : ObjectId) : Prop := declared cfg commit id ≠ []

lemma touched_of_mem {obj : SharedInputObject} (ht : t ∈ takings cfg commit)
    (hobj : obj ∈ t.inputs) : Touched cfg commit obj.id :=
  ne_nil_of_mem (mem_declared.mpr ⟨t, ht, obj, hobj, rfl, rfl⟩)

/-- The loop has assigned `new` to the takings in `done`, after the log. -/
structure Assigned (touched : ObjectId → Prop) (initial : ObjectId → SequenceNumber)
    (log : List Assignment) (done : List Taking)
    (state : NextVersions × AssignedTxAndVersions) (new : List Assignment) : Prop where
  takings : new.map Assignment.taking = done
  record : state.2 = record new
  chained : Chained initial (log ++ new)
  tracks : Tracks touched initial (log ++ new) state.1

variable {done : List Taking} {state : NextVersions × AssignedTxAndVersions} {new : List Assignment}

lemma Assigned.append
    (h : Assigned touched initial log done state new)
    (ha : a.versions = versionsAfter initial (log ++ new) a.taking)
    (htr : Tracks touched initial (log ++ new ++ [a]) nextVersions') :
    Assigned touched initial log (done ++ [a.taking])
      (nextVersions', state.2 ++ [(a.taking.key, a.versions)]) (new ++ [a]) where
  takings := by rw [map_append, h.takings, map_singleton]
  record := by
    rw [h.record, SharedObjVerManager.record, SharedObjVerManager.record, map_append, map_singleton]
  chained := by
    rw [← append_assoc]
    exact h.chained.append ha
  tracks := by
    rw [← append_assoc]
    exact htr

lemma assigned_nil (hch : Chained initial log) (htr : Tracks touched initial log nextVersions) :
    Assigned touched initial log [] (nextVersions, []) [] where
  takings := rfl
  record := rfl
  chained := by rwa [append_nil]
  tracks := by rwa [append_nil]

lemma assignRandomness_ends (hch : Chained initial log)
    (htr : Tracks (Touched cfg commit) initial log nextVersions) :
    Ends (assignRandomness cfg commit.randomnessRound nextVersions) AtLimit fun state =>
      ∃ new, Assigned (Touched cfg commit) initial log
        (commit.randomnessRound.map (randomnessTaking cfg)).toList state new := by
  unfold assignRandomness
  cases hrd : commit.randomnessRound with
  | none => exact .ok ⟨[], assigned_nil hch htr⟩
  | some round =>
    have ht : randomnessTaking cfg round ∈ takings cfg commit := mem_takings.mpr (.inl ⟨round, hrd, rfl⟩)
    have htouch := touched_of_mem ht (mem_singleton.mpr rfl)
    have hget := (htr _ _).mpr ⟨htouch, rfl⟩
    rw [hget]
    dsimp only
    unfold SequenceNumber.increment
    split_ifs
    · exact .error (.inl rfl)
    · let a : Assignment := ⟨randomnessTaking cfg round, [(suiRandomnessStateObjectId,
        lastWritten initial log suiRandomnessStateObjectId)]⟩
      have hwr : ∀ id, a.writes id = decide (suiRandomnessStateObjectId = id) := by
        intro id
        simp [a, Assignment.writes, randomnessTaking]
      have hlamport : a.lamport = lastWritten initial log suiRandomnessStateObjectId + 1 := by
        simp [a, Assignment.lamport, randomnessTaking, add_comm]
      have hvers : a.versions = versionsAfter initial (log ++ []) a.taking := by
        rw [append_nil]
        rfl
      refine .ok ⟨[a], (assigned_nil hch htr).append hvers ?_⟩
      rw [append_nil]
      apply htr.append
      · intro id
        rw [getElem?_insert_ite, hwr, hlamport]
        simp only [decide_eq_true_eq]
      · intro id hid
        rw [hwr] at hid
        exact of_decide_eq_true hid ▸ htouch

lemma assignCertificate_ends
    (hcert : cert ∈ commit.certificates) (h : Assigned (Touched cfg commit) initial log done state new) :
    Ends (assignCertificate commit.cancelledTxns state cert) AtLimit fun state' =>
      ∃ new', Assigned (Touched cfg commit) initial log
        (done ++ ([cert].filter VerifiedExecutableTransaction.containsSharedObject).map
          (certificateTaking commit.cancelledTxns)) state' new' := by
  unfold assignCertificate
  cases hsh : cert.containsSharedObject with
  | false =>
    refine .ok ⟨new, ?_⟩
    rw [filter_singleton, hsh]
    simpa using h
  | true =>
    have htouch : ∀ obj ∈ cert.sharedInputObjects, Touched cfg commit obj.id := fun obj hobj =>
      touched_of_mem (mem_takings.mpr (.inr ⟨cert, hcert, hsh, rfl⟩)) hobj
    refine (assignVersionsForCertificate_ends h.tracks htouch).bind fun r _ hr => .ok ?_
    refine ⟨new ++ [⟨certificateTaking commit.cancelledTxns cert, r.2⟩], ?_⟩
    rw [filter_singleton, hsh]
    exact h.append hr.1 hr.2

lemma assignVersionsFromConsensus_ends (hch : Chained initial log)
    (hini : ∀ id, Touched cfg commit id →
      (table[id]?.or (firstVersion cfg commit id)) = some (lastWritten initial log id)) :
    Ends (assignVersionsFromConsensus cfg table commit)
      (fun e => LacksRandomnessObject cfg commit ∨ AtLimit e) fun r =>
      (∀ id, r.1[id]? = table[id]?.or (firstVersion cfg commit id)) ∧
        ∃ new, Assigned (Touched cfg commit) initial log (takings cfg commit) r.2 new := by
  refine (getOrInitVersions_ends.mono (fun e he => .inl he)).bind fun r _ hr => ?_
  have htr : Tracks (Touched cfg commit) initial log r.2 := by
    intro id v
    rw [hr.2]
    by_cases hnil : declared cfg commit id = []
    · rw [if_pos hnil]
      exact ⟨fun h => (by cases h), fun h => absurd hnil h.1⟩
    · rw [if_neg hnil, hr.1, hini id hnil, Option.some.injEq, eq_comm]
      exact (and_iff_right hnil).symm
  refine ((assignRandomness_ends hch htr).mono (fun e he => .inr he)).bind fun state _ hstate => ?_
  have hloop :=
    Ends.foldlM (f := assignCertificate commit.cancelledTxns) (l := commit.certificates)
      (b := state) (E := AtLimit)
    (fun done state =>
      ∃ new, Assigned (Touched cfg commit) initial log
        ((commit.randomnessRound.map (randomnessTaking cfg)).toList ++
      (done.filter containsSharedObject).map (certificateTaking commit.cancelledTxns)) state new)
    (fun done cert state hbeg hinv => by
      obtain ⟨new, hnew⟩ := hinv
      rw [filter_append, map_append, ← append_assoc]
      exact assignCertificate_ends (hbeg.subset (by simp)) hnew)
    (by simpa using hstate)
  exact (hloop.mono (fun e he => .inr he)).bind fun state _ hfinal => .ok ⟨hr.1, hfinal⟩

end Commit

section Runs

variable {start table : NextVersions} {commits : List VersionedCommit} {assigned : AssignedTxAndVersions}
  {log new before after between : List Assignment} {a : Assignment}

lemma lastWritten_append_of_forall (h : ∀ a ∈ new, a.writes id = false) :
    lastWritten initial (log ++ new) id = lastWritten initial log id := by
  have hnil : (new.filter fun a => a.writes id) = [] := by
    apply filter_eq_nil_iff.mpr
    intro a ha
    rw [h a ha]
    exact Bool.false_ne_true
  unfold lastWritten
  rw [filter_append, hnil, append_nil]

lemma writes_eq_false_of_not_touched (ha : a.taking ∈ takings cfg commit)
    (hid : ¬ Touched cfg commit id) : a.writes id = false := by
  apply Bool.eq_false_of_not_eq_true
  intro hwr
  obtain ⟨-, obj, hobj, rfl, -⟩ := exists_of_writes hwr
  exact hid (touched_of_mem ha hobj)

lemma firstVersion_eq_none_iff : firstVersion cfg commit id = none ↔ ¬ Touched cfg commit id := by
  rw [firstVersion, Option.map_eq_none_iff, max?_eq_none_iff, Touched, not_not]

lemma initialVersion_append_singleton : initialVersion cfg start (commits ++ [commit]) id =
    (initialVersion cfg start commits id).or (firstVersion cfg commit id) := by
  unfold initialVersion
  rw [findSome?_append, findSome?_singleton, Option.or_assoc]

section

variable (htaks : log.map Assignment.taking = commits.flatMap (takings cfg))

include htaks

lemma lastWritten_eq_initial (hid : initialVersion cfg start commits id = none) :
    lastWritten initial log id = initial id := by
  have hwr : ∀ a ∈ log, a.writes id = false := by
    intro a ha
    obtain ⟨commit, hcom, htaking⟩ := mem_flatMap.mp (htaks ▸ mem_map_of_mem ha)
    have hfst := findSome?_eq_none_iff.mp (Option.or_eq_none_iff.mp hid).2 commit hcom
    exact writes_eq_false_of_not_touched htaking (firstVersion_eq_none_iff.mp hfst)
  rw [← nil_append log, lastWritten_append_of_forall hwr]
  rfl

lemma current_of_table
    (htb : ∀ id, table[id]? = (initialVersion cfg start commits id).map fun _ =>
      lastWritten initial log id)
    (hini : ∀ id v, initialVersion cfg start (commits ++ [commit]) id = some v → initial id = v)
    (id : ObjectId) (htouch : Touched cfg commit id) :
    (table[id]?.or (firstVersion cfg commit id)) = some (lastWritten initial log id) := by
  rw [htb]
  cases hid : initialVersion cfg start commits id with
  | some v => rfl
  | none =>
    -- The object is taken for the first time in the epoch.
    cases hfst : firstVersion cfg commit id with
    | none => exact absurd htouch (firstVersion_eq_none_iff.mp hfst)
    | some v =>
      have hv : initial id = v :=
        hini id v (by rw [initialVersion_append_singleton, hid, Option.none_or, hfst])
      rw [lastWritten_eq_initial htaks hid, hv]
      rfl

end

lemma Run.chained (hrun : Run cfg start commits table assigned)
    (hini : ∀ id v, initialVersion cfg start commits id = some v → initial id = v) :
    ∃ log : List Assignment, log.map Assignment.taking = commits.flatMap (takings cfg) ∧
      record log = assigned ∧ Chained initial log ∧
      ∀ id, table[id]? = (initialVersion cfg start commits id).map fun _ =>
        lastWritten initial log id := by
  induction hrun with
  | start =>
    refine ⟨[], rfl, rfl, fun before a hbeg => ?_, fun id => ?_⟩
    · exact absurd (prefix_nil.mp hbeg) (by simp)
    · cases hid : start[id]? with
      | none => simp [initialVersion, hid]
      | some v =>
        have hv : initialVersion cfg start [] id = some v := by simp [initialVersion, hid]
        rw [hv, Option.map_some, lastWritten, filter_nil, getLast?_nil]
        rw [hini id v hv]
  | @commit commits table initialized nextVersions assigned recorded commit _ hcom ih =>
    obtain ⟨log, htaks, hrec, hch, htb⟩ := ih (fun id v hv => hini id v (by
      rw [initialVersion_append_singleton, hv, Option.some_or]))
    have hcurr := current_of_table htaks htb hini
    obtain ⟨hinit, new, hnew⟩ := (assignVersionsFromConsensus_ends hch hcurr).1 _ hcom
    refine ⟨log ++ new, ?_, ?_, hnew.chained, fun id => ?_⟩
    · rw [map_append, htaks, hnew.takings, flatMap_append, flatMap_singleton]
    · have hlast : recorded = record new := hnew.record
      rw [record, map_append, ← hrec, hlast]
      rfl
    · rw [NextVersions.insertBatch, getElem?_foldl_insert_toList, hinit, initialVersion_append_singleton]
      by_cases htouch : Touched cfg commit id
      · have hget := (hnew.tracks id _).mpr ⟨htouch, rfl⟩
        obtain ⟨v, hv⟩ := Option.ne_none_iff_exists'.mp fun h => firstVersion_eq_none_iff.mp h htouch
        rw [hget, hv]
        cases initialVersion cfg start commits id <;> rfl
      · have hget : nextVersions[id]? = none := by
          apply Option.eq_none_iff_forall_ne_some.mpr
          intro v hv
          exact htouch ((hnew.tracks id v).mp hv).1
        have hwr : ∀ a ∈ new, a.writes id = false := fun a ha =>
          writes_eq_false_of_not_touched (hnew.takings ▸ mem_map_of_mem ha) htouch
        rw [hget, firstVersion_eq_none_iff.mpr htouch, Option.or_none, Option.or_none, htb,
          lastWritten_append_of_forall hwr]
        rfl

lemma lt_lamport (h : (id, v) ∈ a.versions) : v < a.lamport := by
  have hle : v ≤ (a.taking.otherVersions ++ a.versions.map Prod.snd).foldl Max.max 0 := by
    rw [foldl_eq_foldr]
    exact le_max_of_le (mem_append_right _ (mem_map_of_mem h)) le_rfl
  unfold Assignment.lamport
  rw [add_comm]
  exact Nat.lt_succ_of_le hle

namespace Chained

variable (h : Chained initial log)

include h

lemma eq_lastWritten (hbeg : before ++ [a] <+: log) (ha : a.taking.cancellation = none)
    (hv : (id, v) ∈ a.versions) :
    v = lastWritten initial before id := by
  rw [h before a hbeg, versionsAfter, ha] at hv
  obtain ⟨obj, -, heq⟩ := mem_map.mp hv
  cases heq
  rfl

lemma mem_versions_of_writes (hbeg : before ++ [a] <+: log) (ha : a.writes id = true) :
    (id, lastWritten initial before id) ∈ a.versions := by
  obtain ⟨hcancel, obj, hobj, rfl, -⟩ := exists_of_writes ha
  rw [h before a hbeg, versionsAfter, hcancel]
  exact mem_map_of_mem hobj

lemma lastWritten_le (hbeg : before ++ between <+: log) :
    lastWritten initial before id ≤ lastWritten initial (before ++ between) id := by
  induction between using reverseRecOn with
  | nil => rw [append_nil]
  | append_singleton between a ih =>
    rw [← append_assoc] at hbeg ⊢
    have hle := ih ((prefix_append _ _).trans hbeg)
    rw [lastWritten_append_singleton]
    split_ifs with hwr
    · exact hle.trans (lt_lamport (h.mem_versions_of_writes hbeg hwr)).le
    · exact hle

end Chained

/-- Versions of shared objects form chains. A transaction gets, for each shared input, the Lamport
version of the last transaction before it that writes the object, or its initial version; a
cancelled transaction gets special versions and is no such writer. Writers of an object get
increasing versions, and the transactions between two writers get the same one. Versions that
have reached their limit are the only reason not to assign any. -/
theorem versions_form_chains (cfg : VersionConfig) (start : NextVersions)
    (commits : List VersionedCommit) (table : NextVersions)
    (assigned : AssignedTxAndVersions) (hrun : Run cfg start commits table assigned) :
    (∀ commit e, assignVersionsFromConsensus cfg table commit = .error e →
      LacksRandomnessObject cfg commit ∨ AtLimit e) ∧
    ∃ log : List Assignment, log.map Assignment.taking = commits.flatMap (takings cfg) ∧
      record log = assigned ∧
      let initial := fun id => (initialVersion cfg start commits id).getD 0
      (∀ before a after, log = before ++ a :: after → a.versions =
        match a.taking.cancellation with
        | none => a.taking.inputs.map fun obj => (obj.id, lastWritten initial before obj.id)
        | some congestedObjects => a.taking.inputs.map fun obj =>
            (obj.id, cancelledVersion congestedObjects obj.id)) ∧
      (∀ before a after id, a.taking.cancellation.isSome = true →
        lastWritten initial (before ++ a :: after) id = lastWritten initial (before ++ after) id) ∧
      (∀ before a between a' after id v v', log = before ++ a :: (between ++ a' :: after) →
        a.writes id = true → a'.writes id = true →
        (id, v) ∈ a.versions → (id, v') ∈ a'.versions → v < v') ∧
      ∀ before a between a' after id v v', log = before ++ a :: (between ++ a' :: after) →
        a.taking.cancellation = none →
        a'.taking.cancellation = none → (∀ b ∈ a :: between, b.writes id = false) →
          (id, v) ∈ a.versions → (id, v') ∈ a'.versions → v = v' := by
  have hagrees : ∀ commits id v, initialVersion cfg start commits id = some v →
      (initialVersion cfg start commits id).getD 0 = v := by
    intro commits id v hv
    rw [hv]
    rfl
  have hbegins : ∀ (log before : List Assignment) a after, log = before ++ a :: after →
      before ++ [a] <+: log := by
    rintro log before a after rfl
    exact ⟨after, by simp⟩
  constructor
  · intro commit e herror
    let initial : ObjectId → SequenceNumber := fun id =>
      (initialVersion cfg start (commits ++ [commit]) id).getD 0
    have hinitial : ∀ id v, initialVersion cfg start (commits ++ [commit]) id = some v →
      initial id = v := hagrees _
    have hprevious : ∀ id v, initialVersion cfg start commits id = some v → initial id = v := by
      intro id v hv
      apply hinitial
      rw [initialVersion_append_singleton, hv, Option.some_or]
    obtain ⟨log, htakings, -, hchained, htable⟩ := hrun.chained hprevious
    exact (assignVersionsFromConsensus_ends hchained
      (current_of_table htakings htable hinitial)).2 e herror
  · let initial : ObjectId → SequenceNumber := fun id => (initialVersion cfg start commits id).getD 0
    obtain ⟨log, htakings, hrecord, hchained, -⟩ := hrun.chained (hagrees commits)
    refine ⟨log, htakings, hrecord, ?_, ?_, ?_, ?_⟩
    · intro before a after hlog
      exact hchained before a (hbegins log before a after hlog)
    · intro before a after id ha
      obtain ⟨congestedObjects, hcancel⟩ := Option.isSome_iff_exists.mp ha
      unfold lastWritten
      rw [filter_append, filter_cons_of_neg
        (by rw [writes_eq_false_of_cancelled hcancel]; exact Bool.false_ne_true), filter_append]
    · intro before a between a' after id v v' hlog ha ha' hv hv'
      have hlast : v' = lastWritten initial (before ++ [a] ++ between) id := by
        refine hchained.eq_lastWritten (hbegins log _ a' after ?_) (exists_of_writes ha').1 hv'
        rw [hlog]
        simp
      have hle : lastWritten initial (before ++ [a]) id ≤
          lastWritten initial (before ++ [a] ++ between) id :=
        hchained.lastWritten_le ⟨a' :: after, by rw [hlog]; simp⟩
      rw [lastWritten_append_singleton, if_pos ha] at hle
      rw [hlast]
      exact lt_of_lt_of_le (lt_lamport hv) hle
    · intro before a between a' after id v v' hlog ha ha' hnone hv hv'
      have hfirst := hchained.eq_lastWritten (hbegins log before a _ hlog) ha hv
      have hlast : v' = lastWritten initial (before ++ (a :: between)) id := by
        refine hchained.eq_lastWritten (hbegins log _ a' after ?_) ha' hv'
        rw [hlog]
        simp
      rw [hfirst, hlast, lastWritten_append_of_forall hnone]

/-- A writer of an object that also takes an owned object, a cancelled writer, and a reader. -/
def writersAndReader : VersionedCommit where
  certificates :=
    [⟨⟨1, 0, [.sharedMoveObject 5 3 true, .immOrOwnedMoveObject ⟨9, 7, 0⟩], []⟩, 1, 1, .other⟩,
    ⟨⟨2, 0, [.sharedMoveObject 5 3 true], []⟩, 1, 1, .other⟩,
      ⟨⟨3, 0, [.sharedMoveObject 5 3 false], []⟩, 1, 1, .other⟩]
  randomnessRound := some 4
  cancelledTxns :=
    (∅ : TreeMap TransactionDigest CancelConsensusCertificateReason).insert 2
      (.congestionOnObjects [5])
  cacheReader := fun _ => none

/-- The run of this commit. -/
theorem versions_form_chains_reader : ∃ table, Run ⟨0, some 1⟩ ∅ [writersAndReader] table
      [(.randomnessRound 0 4, [(8, 1)]), (.digest 1, [(5, 3)]),
        (.digest 2, [(5, SequenceNumber.congested)]), (.digest 3, [(5, 8)])] ∧
    ∃ log : List Assignment, record log =
      [(.randomnessRound 0 4, [(8, 1)]), (.digest 1, [(5, 3)]),
        (.digest 2, [(5, SequenceNumber.congested)]), (.digest 3, [(5, 8)])] := by
  obtain ⟨⟨initialized, nextVersions, new⟩, hassign, hnew⟩ := exists_of_returns
    (show returns (assignVersionsFromConsensus ⟨0, some 1⟩ ∅ writersAndReader) (fun r => decide (r.2.2 =
      [(.randomnessRound 0 4, [(8, 1)]), (.digest 1, [(5, 3)]),
        (.digest 2, [(5, SequenceNumber.congested)]), (.digest 3, [(5, 8)])])) = true by
        decide +kernel)
  obtain rfl := of_decide_eq_true hnew
  have hrun := Run.commit Run.start hassign
  obtain ⟨log, -, hrecord, -⟩ := (versions_form_chains ⟨0, some 1⟩ ∅ [writersAndReader] _ _ hrun).2
  exact ⟨_, hrun, log, hrecord⟩

end Runs

end SharedObjVerManager

end SuiProofs.Authority

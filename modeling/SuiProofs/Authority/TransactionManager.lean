import SuiProofs.Library.Exec
import SuiProofs.Library.Interleaving
import SuiProofs.Library.Lru
import SuiProofs.Authority.Base

/-! Models `transaction_manager.rs` of `sui-core`. The order in which a hash map is iterated is
a parameter of a call. -/

namespace SuiProofs.Authority

open Library Std

/-- The assertions, `expect`s and `unwrap`s of the transaction manager. -/
inductive ManagerPanic where
  | unboundedCacheNotEnabled
  | noTransactionWaitingOn (id : ObjectId)
  | digestNotInInputObjects (digest : TransactionDigest)
  | pendingCertificateMissing (digest : TransactionDigest)
  | notWaitingOn (digest : TransactionDigest) (key : InputKey)
  | entryMustExist (key : InputKey)
  | notChecked (key : InputKey)
  | duplicatedMissingInput (digest : TransactionDigest) (key : InputKey)
  | duplicatedPendingCertificate (digest : TransactionDigest)
  | readyCertificateWaits (digest : TransactionDigest)
  | alreadyExecuting (digest : TransactionDigest)
deriving DecidableEq, Repr

structure CacheInner where
  versionedCache : Lru ObjectId SequenceNumber
  unversionedCache : Lru ObjectId Unit
  maxSize : ℕ
deriving DecidableEq

namespace CacheInner

def new (maxSize : ℕ) : CacheInner := ⟨.empty, .empty, maxSize⟩

def shrink (c : CacheInner) : CacheInner :=
  { c with
    versionedCache := c.versionedCache.shrink c.maxSize
    unversionedCache := c.unversionedCache.shrink c.maxSize }

/-- Inserts a key as the most recently used one. The version of an entry never decreases. -/
def insert (c : CacheInner) (object : InputKey) : CacheInner :=
  match object with
  | .versionedObject id version =>
    match c.versionedCache.push id version with
    | (cache, some (previousId, previousVersion)) =>
      if previousId = id ∧ previousVersion > version then
        { c with versionedCache := (cache.push id previousVersion).1 }
      else { c with versionedCache := cache }
    | (cache, none) => { c with versionedCache := cache }
  | .package id => { c with unversionedCache := (c.unversionedCache.push id ()).1 }

/-- A definitive answer, or none if the caller must read the store. -/
def isObjectAvailable (c : CacheInner) (object : InputKey) : CacheInner × Option Bool :=
  match object with
  | .versionedObject id version =>
    let (cache, current) := c.versionedCache.get id
    ({ c with versionedCache := cache }, current.map fun current => decide (current ≥ version))
  | .package id =>
    let (cache, entry) := c.unversionedCache.get id
    ({ c with unversionedCache := cache }, entry.map fun _ => true)

end CacheInner

structure AvailableObjectsCache where
  cache : CacheInner
  unboundedCacheEnabled : ℕ
deriving DecidableEq

namespace AvailableObjectsCache

def newWithSize (size : ℕ) : AvailableObjectsCache := ⟨.new size, 0⟩

def enableUnboundedCache (c : AvailableObjectsCache) : AvailableObjectsCache :=
  { c with unboundedCacheEnabled := c.unboundedCacheEnabled + 1 }

def disableUnboundedCache (c : AvailableObjectsCache) : Except ManagerPanic AvailableObjectsCache :=
  if c.unboundedCacheEnabled > 0 then .ok { c with unboundedCacheEnabled := c.unboundedCacheEnabled - 1 }
  else .error .unboundedCacheNotEnabled

def insert (c : AvailableObjectsCache) (object : InputKey) : AvailableObjectsCache :=
  let cache := c.cache.insert object
  { c with cache := if c.unboundedCacheEnabled = 0 then cache.shrink else cache }

def isObjectAvailable (c : AvailableObjectsCache) (object : InputKey) :
    AvailableObjectsCache × Option Bool :=
  let (cache, available) := c.cache.isObjectAvailable object
  ({ c with cache := cache }, available)

end AvailableObjectsCache

structure EpochStore where
  epoch : ℕ
  sharedLocks : TransactionDigest → List (ObjectId × SequenceNumber)

namespace EpochStore

/-- The key of an input; none when the version of a shared object was not assigned. -/
def inputObjectKey (es : EpochStore) (digest : TransactionDigest) : InputObjectKind → Option InputKey
  | .movePackage id => some (.package id)
  | .immOrOwnedMoveObject objRef => some (.versionedObject objRef.objectId objRef.version)
  | .sharedMoveObject id _ _ => ((es.sharedLocks digest).reverse.lookup id).map (.versionedObject id)

/-- The input keys of a transaction with its receiving objects. Panics in the source when a
version was not assigned. -/
def inputKeys (es : EpochStore) (cert : ExecutableTransaction) : Option (List InputKey) := do
  let keys ← cert.inputObjects.mapM (es.inputObjectKey cert.digest)
  return keys ++ cert.receivingObjects.map fun r => .versionedObject r.objectId r.version

end EpochStore

inductive MarkerValue where
  | received
  | ownedDeleted
  | sharedDeleted (digest : TransactionDigest)
deriving DecidableEq, Repr

/-- What the object cache answers: versions that exist, the latest version of an object and
whether it is alive, and the markers of the epoch. -/
structure ObjectStore where
  objects : TreeSet (ObjectId ×ₗ SequenceNumber)
  latest : TreeMap ObjectId (SequenceNumber × Bool)
  markers : TreeMap (ObjectId ×ₗ SequenceNumber) MarkerValue

namespace ObjectStore

variable (store : ObjectStore)

def haveDeletedOwnedObjectAtVersionOrAfter (id : ObjectId) (version : SequenceNumber) : Bool :=
  match (store.markers.toList.filter fun m => (ofLex m.1).1 = id).getLast? with
  | some (marker, .ownedDeleted) => decide ((ofLex marker).2 ≥ version)
  | _ => false

/-- One key of `multi_input_objects_available`. -/
def inputObjectAvailable (receivingObjects : TreeSet InputKey) (key : InputKey) : Bool :=
  match key with
  | .versionedObject id version =>
    if toLex (id, version) ∈ store.objects then true
    else if key ∈ receivingObjects then
      (match store.latest[id]? with
        | some (current, true) => decide (current ≥ version)
        | _ => false) || store.haveDeletedOwnedObjectAtVersionOrAfter id version
    else match store.markers[toLex (id, version)]? with
      | some (.sharedDeleted _) => true
      | _ => false
  | .package id =>
    match store.latest[id]? with
    | some (_, alive) => alive
    | none => false

/-- A key is available, as an input and as a receiving object. -/
def Holds (key : InputKey) : Prop :=
  ∀ receivingObjects, store.inputObjectAvailable receivingObjects key = true

end ObjectStore

structure PendingCertificate where
  certificate : ExecutableTransaction
  expectedEffectsDigest : Option (Fin (2 ^ 256))
  waitingInputObjects : TreeSet InputKey

structure Inner where
  epoch : ℕ
  missingInputs : TreeMap InputKey (TreeSet TransactionDigest)
  inputObjects : TreeMap ObjectId (List TransactionDigest)
  availableObjectsCache : AvailableObjectsCache
  pendingCertificates : TreeMap TransactionDigest PendingCertificate
  executingCertificates : TreeSet TransactionDigest

structure TransactionManager where
  inner : Inner
  txReadyCertificates : List PendingCertificate

namespace TransactionManager

def new (epoch cacheSize : ℕ) : TransactionManager :=
  ⟨⟨epoch, ∅, ∅, .newWithSize cacheSize, ∅, ∅⟩, []⟩

def removeWaiting (inputTxns : List TransactionDigest) :
    List TransactionDigest → Except ManagerPanic (List TransactionDigest)
  | [] => .ok inputTxns
  | digest :: digests =>
    if digest ∈ inputTxns then removeWaiting (inputTxns.erase digest) digests
    else .error (.digestNotInInputObjects digest)

/-- A pending certificate no longer waits for the key; returns it when it is ready. -/
def releaseKey (inputKey : InputKey) (state : Inner × List PendingCertificate)
    (digest : TransactionDigest) :
    Except ManagerPanic (Inner × List PendingCertificate) :=
  match state.1.pendingCertificates[digest]? with
  | none => .error (.pendingCertificateMissing digest)
  | some pendingCert =>
    if inputKey ∈ pendingCert.waitingInputObjects then
      let pendingCert :=
        { pendingCert with waitingInputObjects := pendingCert.waitingInputObjects.erase inputKey }
      if pendingCert.waitingInputObjects.isEmpty then
        .ok ({ state.1 with pendingCertificates := state.1.pendingCertificates.erase digest },
          state.2 ++ [pendingCert])
      else .ok ({ state.1 with
        pendingCertificates := state.1.pendingCertificates.insert digest pendingCert }, state.2)
    else .error (.notWaitingOn digest inputKey)

/-- Takes a key from the certificates that wait for it; returns those that wait for nothing else. -/
def takeReady (inner : Inner) (inputKey : InputKey) :
    Except ManagerPanic (Inner × List PendingCertificate) :=
  match inner.missingInputs[inputKey]? with
  | none => .ok (inner, [])
  | some digests =>
    match inner.inputObjects[inputKey.id]? with
    | none => .error (.noTransactionWaitingOn inputKey.id)
    | some inputTxns => do
      let inputTxns ← removeWaiting inputTxns digests.toList
      let inner := { inner with
        missingInputs := inner.missingInputs.erase inputKey
        inputObjects := if inputTxns.isEmpty then inner.inputObjects.erase inputKey.id
          else inner.inputObjects.insert inputKey.id inputTxns }
      digests.toList.foldlM (releaseKey inputKey) (inner, [])

def findReadyTransactions (inner : Inner) (inputKey : InputKey) (updateCache : Bool) :
    Except ManagerPanic (Inner × List PendingCertificate) :=
  if updateCache then takeReady { inner with
    availableObjectsCache := inner.availableObjectsCache.insert inputKey } inputKey
  else takeReady inner inputKey

variable (tm : TransactionManager)

def certificateReady (pendingCertificate : PendingCertificate) :
    Except ManagerPanic TransactionManager :=
  let digest := pendingCertificate.certificate.digest
  if !pendingCertificate.waitingInputObjects.isEmpty then .error (.readyCertificateWaits digest)
  else if digest ∈ tm.inner.executingCertificates then .error (.alreadyExecuting digest)
  else .ok ⟨{ tm.inner with executingCertificates := tm.inner.executingCertificates.insert digest },
    tm.txReadyCertificates ++ [pendingCertificate]⟩

def objectAvailable (updateCache : Bool) (tm : TransactionManager) (inputKey : InputKey) :
    Except ManagerPanic TransactionManager := do
  let (inner, ready) ← findReadyTransactions tm.inner inputKey updateCache
  ready.foldlM certificateReady { tm with inner := inner }

def objectsAvailableLocked (epoch : ℕ) (inputKeys : List InputKey) (updateCache : Bool) :
    Except ManagerPanic TransactionManager :=
  if tm.inner.epoch ≠ epoch then .ok tm else inputKeys.foldlM (objectAvailable updateCache) tm

def notifyCommit (epoch : ℕ) (digest : TransactionDigest) (outputObjectKeys : List InputKey) :
    Except ManagerPanic TransactionManager :=
  if tm.inner.epoch ≠ epoch then .ok tm
  else do
    let tm ← tm.objectsAvailableLocked epoch outputObjectKeys true
    return { tm with inner := { tm.inner with
      executingCertificates := tm.inner.executingCertificates.erase digest } }

structure EnqueuedCertificate where
  certificate : ExecutableTransaction
  expectedEffectsDigest : Option (Fin (2 ^ 256))
  inputObjectKeys : TreeSet InputKey

/-- The hash map `object_availability`, in the order of its iteration. -/
abbrev ObjectAvailability := List (InputKey × Option Bool)

/-- The first locked phase: what the cache knows. Keys known to be available are skipped. -/
def checkCache : AvailableObjectsCache → ObjectAvailability → AvailableObjectsCache × ObjectAvailability
  | cache, [] => (cache, [])
  | cache, (key, value) :: rest =>
    if value = some true then
      let (cache, rest) := checkCache cache rest
      (cache, (key, value) :: rest)
    else
      let (cache, available) := cache.isObjectAvailable key
      let (cache, rest) := checkCache cache rest
      (cache, (key, available <|> value) :: rest)

/-- The answers of the store are filled in; packages are cached. -/
def fillCacheMisses : AvailableObjectsCache → ObjectAvailability → List (Bool × InputKey) →
    Except ManagerPanic (AvailableObjectsCache × ObjectAvailability)
  | cache, objectAvailability, [] => .ok (cache, objectAvailability)
  | cache, objectAvailability, (available, key) :: rest =>
    let cache := if available && key.version.isNone then cache.insert key else cache
    if (objectAvailability.lookup key).isSome then
      fillCacheMisses cache (objectAvailability.map fun e =>
        if e.1 = key then (key, some available) else e) rest
    else .error (.entryMustExist key)

/-- Unavailable keys are looked up in the cache once more. -/
def recheckCache : AvailableObjectsCache → ObjectAvailability →
    Except ManagerPanic (AvailableObjectsCache × ObjectAvailability)
  | cache, [] => .ok (cache, [])
  | cache, (key, value) :: rest =>
    match value with
    | none => .error (.notChecked key)
    | some true => do
      let (cache, rest) ← recheckCache cache rest
      return (cache, (key, some true) :: rest)
    | some false => do
      let (cache, available) := cache.isObjectAvailable key
      let (cache, rest) ← recheckCache cache rest
      return (cache, (key, some (available == some true)) :: rest)

def waitForKey (objectAvailability : ObjectAvailability) (digest : TransactionDigest)
    (state : Inner × TreeSet InputKey) (key : InputKey) :
    Except ManagerPanic (Inner × TreeSet InputKey) :=
  match objectAvailability.lookup key with
  | some (some true) => .ok state
  | some (some false) =>
    let (inner, waiting) := state
    let digests := (inner.missingInputs[key]?).getD ∅
    if digest ∈ digests then .error (.duplicatedMissingInput digest key)
    else
      let inputTxns := (inner.inputObjects[key.id]?).getD []
      .ok ({ inner with
        missingInputs := inner.missingInputs.insert key (digests.insert digest)
        inputObjects :=
          inner.inputObjects.insert key.id (if digest ∈ inputTxns then inputTxns
            else inputTxns ++ [digest]) },
        waiting.insert key)
  | _ => .error (.notChecked key)

variable (isTxAlreadyExecuted : TransactionDigest → Bool)

def enqueueCertificate (objectAvailability : ObjectAvailability)
    (tm : TransactionManager) (cert : EnqueuedCertificate) : Except ManagerPanic TransactionManager :=
  let digest := cert.certificate.digest
  if tm.inner.epoch ≠ cert.certificate.epoch then .ok tm
  else if tm.inner.pendingCertificates.contains digest then .ok tm
  else if digest ∈ tm.inner.executingCertificates then .ok tm
  else if isTxAlreadyExecuted digest then .ok tm
  else do
    let (inner, waiting) ← cert.inputObjectKeys.toList.foldlM
      (waitForKey objectAvailability digest) (tm.inner, ∅)
    let pendingCert : PendingCertificate := ⟨cert.certificate, cert.expectedEffectsDigest, waiting⟩
    if waiting.isEmpty then certificateReady { tm with inner := inner } pendingCert
    else if inner.pendingCertificates.contains digest then throw (.duplicatedPendingCertificate digest)
    else return { tm with inner := { inner with
      pendingCertificates := inner.pendingCertificates.insert digest pendingCert } }

def enqueueChecked (tm : TransactionManager) (certs : List EnqueuedCertificate)
    (objectAvailability : ObjectAvailability) (cacheMissAvailability : List (Bool × InputKey)) :
    Except ManagerPanic TransactionManager := do
  let (cache, objectAvailability) ← fillCacheMisses tm.inner.availableObjectsCache
    objectAvailability cacheMissAvailability
  let (cache, objectAvailability) ← recheckCache cache objectAvailability
  let cache ← cache.disableUnboundedCache
  certs.foldlM (enqueueCertificate isTxAlreadyExecuted objectAvailability)
    { tm with inner := { tm.inner with availableObjectsCache := cache } }

end TransactionManager

open TransactionManager

/-- Where a call of `enqueue_impl` stands: between its unlocked start, the two locked phases and
the read of the store. -/
inductive EnqueueStage where
  | prepared (certs : List EnqueuedCertificate) (objectAvailability : ObjectAvailability)
      (receivingObjects : TreeSet InputKey)
  | checked (certs : List EnqueuedCertificate) (objectAvailability : ObjectAvailability)
      (receivingObjects : TreeSet InputKey)
  | read (certs : List EnqueuedCertificate) (objectAvailability : ObjectAvailability)
      (cacheMissAvailability : List (Bool × InputKey))
  | returned
  | panicked (panic : ManagerPanic)

/-- A call of `enqueue` with how far it has come. -/
structure EnqueueCall where
  certs : List (ExecutableTransaction × Option (Fin (2 ^ 256)))
  stage : EnqueueStage

/-- The manager among what it reads. The last fields record the history: the store at the
beginning, the keys announced and found so far, and the calls that enabled the unbounded cache. -/
structure ManagerState where
  manager : TransactionManager
  store : ObjectStore
  executed : Finset TransactionDigest
  panicked : Option ManagerPanic
  initialStore : ObjectStore
  announced : List InputKey
  found : List InputKey
  enqueuing : Finset ℕ

namespace EnqueueCall

def prepareCerts (es : EpochStore) (executed : Finset TransactionDigest)
    (certs : List (ExecutableTransaction × Option (Fin (2 ^ 256)))) :
    Option (List EnqueuedCertificate) :=
  (certs.filter fun c => c.1.digest ∉ executed).mapM fun c => do
    let keys ← es.inputKeys c.1
    return ⟨c.1, c.2, keys.foldl (fun t k => t.insert k) ∅⟩

def receivingKeys (certs : List EnqueuedCertificate) : TreeSet InputKey :=
  (certs.flatMap fun c => c.certificate.receivingObjects).foldl
    (fun t r => t.insert (.versionedObject r.objectId r.version)) ∅

def start (certs : List (ExecutableTransaction × Option (Fin (2 ^ 256))))
    (prepared : List EnqueuedCertificate) (order : List InputKey) : EnqueueCall :=
  ⟨certs, .prepared prepared (order.map fun key =>
    (key, if key.isCancelled then some true else none)) (receivingKeys prepared)⟩

def step (s : ManagerState) (i : ℕ) (call : EnqueueCall) : Option (ManagerState × EnqueueCall) :=
  match call.stage with
  | .prepared certs objectAvailability receivingObjects =>
    let (cache, objectAvailability) :=
      checkCache s.manager.inner.availableObjectsCache objectAvailability
    some ({ s with
      manager := { s.manager with inner := { s.manager.inner with
        availableObjectsCache := cache.enableUnboundedCache } }
      enqueuing := insert i s.enqueuing },
      { call with stage := .checked certs objectAvailability receivingObjects })
  | .checked certs objectAvailability receivingObjects =>
    let cacheMisses := objectAvailability.filterMap fun e => if e.2 = none then some e.1 else none
    let cacheMissAvailability := cacheMisses.map fun key =>
      (s.store.inputObjectAvailable receivingObjects key, key)
    some ({ s with
      found := s.found ++ cacheMisses.filter (s.store.inputObjectAvailable receivingObjects) },
      { call with stage := .read certs objectAvailability cacheMissAvailability })
  | .read certs objectAvailability cacheMissAvailability =>
    match enqueueChecked (fun d => decide (d ∈ s.executed)) s.manager certs objectAvailability
      cacheMissAvailability with
    | .ok manager => some ({ s with manager := manager, enqueuing := s.enqueuing.erase i },
        { call with stage := .returned })
    | .error p => some (s, { call with stage := .panicked p })
  | .returned => none
  | .panicked _ => none

end EnqueueCall

namespace ManagerState

def notifyCommit (s : ManagerState) (epoch : ℕ) (digest : TransactionDigest)
    (outputObjectKeys : List InputKey) : ManagerState :=
  match s.manager.notifyCommit epoch digest outputObjectKeys with
  | .ok manager => { s with manager := manager, announced := s.announced ++ outputObjectKeys }
  | .error p => { s with panicked := some p }

end ManagerState

def DistinctIds (keys : TreeSet InputKey) : Prop := ∀ k ∈ keys, ∀ k' ∈ keys, k.id = k'.id → k = k'

/-- Calls of `enqueue_impl` and of `notify_commit` within an epoch. The store holds a version
before it is announced, and a transaction is executed before it is. -/
def managerSystem (es : EpochStore) (cacheSize : ℕ) (mayAnnounce : ManagerState → List InputKey → Prop) :
    Interleaving ℕ ManagerState (Option EnqueueCall) where
  init s calls := s.manager = .new es.epoch cacheSize ∧ s.panicked = none ∧
    s.initialStore = s.store ∧ s.announced = [] ∧
    s.found = [] ∧ s.enqueuing = ∅ ∧ ∀ i, calls i = none
  act s calls i s' call' :=
    (∃ certs prepared order, calls i = none ∧
      EnqueueCall.prepareCerts es s.executed certs = some prepared ∧
      (∀ c ∈ prepared, DistinctIds c.inputObjectKeys) ∧ order.Nodup ∧
      (∀ k, k ∈ order ↔ ∃ c ∈ prepared, k ∈ c.inputObjectKeys) ∧ s' = s ∧
      call' = some (EnqueueCall.start certs prepared order)) ∨
    (∃ call next, calls i = some call ∧ call.step s i = some (s', next) ∧ call' = some next) ∨
    (∃ digest outputObjectKeys, digest ∈ s.executed ∧ (∀ k ∈ outputObjectKeys, s.store.Holds k) ∧
      mayAnnounce s outputObjectKeys ∧ s' = s.notifyCommit es.epoch digest outputObjectKeys ∧
        call' = calls i) ∨
    ∃ store executed,
      (∀ k r, s.store.inputObjectAvailable r k = true → store.inputObjectAvailable r k = true) ∧
      s.executed ⊆ executed ∧ s' = { s with store := store, executed := executed } ∧ call' = calls i

end SuiProofs.Authority

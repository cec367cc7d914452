import Mathlib.Data.List.Sort
import SuiProofs.Library.Exec
import SuiProofs.Library.Interleaving
import SuiProofs.Authority.Base

/-!
Models `execution_cache/object_locks.rs` of `sui-core`. Each operation on the in-memory map and the
write to the tables are atomic.
-/

namespace SuiProofs.Authority

open Library List Option Function Std

abbrev LockDetails := TransactionDigest

inductive SuiError where
  | objectNotFound (objectId : ObjectId) (version : Option SequenceNumber)
  | objectVersionUnavailableForConsumption (providedObjRef : ObjectRef) (currentVersion : SequenceNumber)
  | invalidObjectDigest (objectId : ObjectId) (expectedDigest : ObjectDigest)
  | objectLockConflict (objRef : ObjectRef) (pendingTransaction : TransactionDigest)
deriving DecidableEq, Repr

/-- The panics of `clear_cached_locks`. -/
inductive LockPanic where
  | lockMustExist
  | lockWasChanged
deriving DecidableEq, Repr

structure VerifiedSignedTransaction where
  digest : TransactionDigest
  content : List UInt8
deriving DecidableEq, Repr

/-- The in-memory locks and the tables of the epoch that the calls share. -/
structure LockState where
  lockedTransactions : TreeMap ObjectRef LockDetails
  ownedObjectLockedTransactions : TreeMap ObjectRef LockDetails
  signedTransactions : TreeMap TransactionDigest VerifiedSignedTransaction

namespace LockState

variable (s : LockState) (objRef : ObjectRef)

def getTransactionLock : LockState × Option LockDetails :=
  match s.lockedTransactions[objRef]? with
  | none =>
    match s.ownedObjectLockedTransactions[objRef]? with
    | some lock => ({ s with lockedTransactions := s.lockedTransactions.insert objRef lock }, some lock)
    | none => (s, none)
  | some lock => (s, some lock)

/-- Tests and sets the lock of an object. A lock found in the table is cached too. -/
def trySetTransactionLock (newLock : LockDetails) : LockState × Except SuiError Unit :=
  let (s, prevLock) := match s.lockedTransactions[objRef]? with
    | none =>
      let lock := (s.ownedObjectLockedTransactions[objRef]?).getD newLock
      ({ s with lockedTransactions := s.lockedTransactions.insert objRef lock }, lock)
    | some lock => (s, lock)
  if prevLock ≠ newLock then (s, .error (.objectLockConflict objRef prevLock)) else (s, .ok ())

def clearCachedLock (lock : LockDetails) : Except LockPanic LockState :=
  match s.lockedTransactions[objRef]? with
  | none => .error .lockMustExist
  | some cached =>
    if cached = lock then .ok { s with lockedTransactions := s.lockedTransactions.erase objRef }
    else .error .lockWasChanged

def writeTransactionLocks (transaction : VerifiedSignedTransaction)
    (locksToWrite : List (ObjectRef × LockDetails)) : LockState :=
  { s with
    ownedObjectLockedTransactions :=
      locksToWrite.foldl (fun m lock => m.insert lock.1 lock.2) s.ownedObjectLockedTransactions
    signedTransactions := s.signedTransactions.insert transaction.digest transaction }

end LockState

def verifyLiveObject (objRef liveObject : ObjectRef) : Except SuiError Unit :=
  if objRef.version ≠ liveObject.version then
    .error (.objectVersionUnavailableForConsumption objRef liveObject.version)
  else if objRef.digest ≠ liveObject.digest then
    .error (.invalidObjectDigest objRef.objectId liveObject.digest)
  else .ok ()

def multiGetObjectsMustExist (cache : ObjectId → Option ObjectRef) (objectIds : List ObjectId) :
    Except SuiError (List ObjectRef) :=
  objectIds.mapM fun objectId =>
    match cache objectId with
    | some object => .ok object
    | none => .error (.objectNotFound objectId none)

/-- Where a call of `acquire_transaction_locks` stands. -/
inductive AcquireStage where
  | acquiring (locksToWrite : List (ObjectRef × LockDetails)) (remaining : List ObjectRef)
  | clearing (locks : List (ObjectRef × LockDetails)) (result : Except SuiError Unit)
  | returned (result : Except SuiError Unit)
  | panicked (panic : LockPanic)
deriving DecidableEq

/-- A call of `acquire_transaction_locks` with how far it has come. -/
structure AcquireCall where
  transaction : VerifiedSignedTransaction
  ownedInputObjects : List ObjectRef
  stage : AcquireStage
deriving DecidableEq

namespace AcquireCall

/-- The checks on live objects, before the first lock is set; the objects are sorted by id. -/
def start (cache : ObjectId → Option ObjectRef) (transaction : VerifiedSignedTransaction)
    (ownedInputObjects : List ObjectRef) :
    AcquireCall :=
  let checked : Except SuiError Unit := do
    let liveObjects ← multiGetObjectsMustExist cache (ownedInputObjects.map ObjectRef.objectId)
    (ownedInputObjects.zip liveObjects).forM fun p => verifyLiveObject p.1 p.2
  match checked with
  | .error e => ⟨transaction, ownedInputObjects, .returned (.error e)⟩
  | .ok () => ⟨transaction, ownedInputObjects,
      .acquiring [] (ownedInputObjects.insertionSort fun a b => a.objectId ≤ b.objectId)⟩

/-- One atomic step: a lock is set, the locks are written, or one of them is cleared. -/
def step (s : LockState) (call : AcquireCall) : Option (LockState × AcquireCall) :=
  match call.stage with
  | .acquiring locksToWrite (objRef :: remaining) =>
    match s.trySetTransactionLock objRef call.transaction.digest with
    | (s, .ok ()) =>
      some (s, { call with
        stage := .acquiring (locksToWrite ++ [(objRef, call.transaction.digest)]) remaining })
    | (s, .error e) => some (s, { call with stage := .clearing locksToWrite (.error e) })
  | .acquiring locksToWrite [] =>
    some (s.writeTransactionLocks call.transaction locksToWrite,
      { call with stage := .clearing locksToWrite (.ok ()) })
  | .clearing (lock :: locks) result =>
    match s.clearCachedLock lock.1 lock.2 with
    | .ok s => some (s, { call with stage := .clearing locks result })
    | .error p => some (s, { call with stage := .panicked p })
  | .clearing [] result => some (s, { call with stage := .returned result })
  | .returned _ => none
  | .panicked _ => none

def InProgress (call : AcquireCall) : Prop :=
  match call.stage with
  | .acquiring _ _ => True
  | .clearing _ _ => True
  | .returned _ => False
  | .panicked _ => False

end AcquireCall

/-- Calls and readers of locks within an epoch, after any number of restarts: the in-memory map is
empty at first, the tables need not be. A call may start when `mayStart` allows it. -/
def lockSystem (mayStart : (ℕ → Option AcquireCall) → VerifiedSignedTransaction →
    List ObjectRef → Prop) :
    Interleaving ℕ LockState (Option AcquireCall) where
  init s calls := s.lockedTransactions = ∅ ∧ ∀ i, calls i = none
  act s calls i s' call' :=
    (∃ cache transaction ownedInputObjects, calls i = none ∧ ownedInputObjects.Nodup ∧
      mayStart calls transaction ownedInputObjects ∧ s' = s ∧
      call' = some (AcquireCall.start cache transaction ownedInputObjects)) ∨
    (∃ call next, calls i = some call ∧ call.step s = some (s', next) ∧ call' = some next) ∨
    ∃ objRef, s' = (s.getTransactionLock objRef).1 ∧ call' = calls i

/-- No call for the same transaction and an object in common is in progress. -/
def NoSharedLock (calls : ℕ → Option AcquireCall) (transaction : VerifiedSignedTransaction)
    (ownedInputObjects : List ObjectRef) :
    Prop :=
  ∀ (j : ℕ) (call : AcquireCall), calls j = some call → call.InProgress →
    call.transaction.digest = transaction.digest →
    ∀ o ∈ ownedInputObjects, o ∉ call.ownedInputObjects

def LockState.Consistent (s : LockState) : Prop :=
  ∀ (o : ObjectRef) (lock cached : LockDetails), s.ownedObjectLockedTransactions[o]? = some lock →
    s.lockedTransactions[o]? = some cached → lock = cached

/-- What a step of a call leaves to the others: written locks stay, and so do the cached locks
that it does not clear. -/
structure LockState.Keeps (s s' : LockState) (cleared : ObjectRef → Prop) : Prop where
  consistent : s'.Consistent
  written : ∀ (o : ObjectRef) (lock : LockDetails), s.ownedObjectLockedTransactions[o]? = some lock →
    s'.ownedObjectLockedTransactions[o]? = some lock
  cached : ∀ (o : ObjectRef) (lock : LockDetails), ¬ cleared o → s.lockedTransactions[o]? = some lock →
    s'.lockedTransactions[o]? = some lock

namespace LockState

variable {s s' : LockState} {o : ObjectRef} {lock : LockDetails} (h : s.Consistent)
include h

lemma Keeps.refl : s.Keeps s fun _ => False := ⟨h, fun _ _ => id, fun _ _ _ => id⟩

lemma Keeps.insert (hvacant : s.lockedTransactions[o]? = none)
    (hlock : ∀ written, s.ownedObjectLockedTransactions[o]? = some written → written = lock) :
    s.Keeps { s with lockedTransactions := s.lockedTransactions.insert o lock } fun _ => False where
  consistent o' written cached hw hc := by
    rcases entry_of_insert hc with ⟨rfl, rfl⟩ | ⟨-, hc⟩
    · exact hlock written hw
    · exact h o' written cached hw hc
  written _ _ hw := hw
  cached o' cached _ hc := by
    rw [getElem?_insert_ite]
    split_ifs with ho
    · subst ho
      rw [hvacant] at hc
      cases hc
    · exact hc

lemma keeps_getTransactionLock (o : ObjectRef) : s.Keeps (s.getTransactionLock o).1 fun _ => False := by
  unfold getTransactionLock
  split
  · rename_i hvacant
    split
    · rename_i lock hw
      exact .insert h hvacant fun written hw' => some.inj (hw'.symm.trans hw)
    · exact .refl h
  · exact .refl h

lemma keeps_trySetTransactionLock (o : ObjectRef) (lock : LockDetails) :
    s.Keeps (s.trySetTransactionLock o lock).1 (fun _ => False) ∧
      ((s.trySetTransactionLock o lock).2 = .ok () →
        (s.trySetTransactionLock o lock).1.lockedTransactions[o]? = some lock) := by
  unfold trySetTransactionLock
  cases hcac : s.lockedTransactions[o]? with
  | none =>
    dsimp only
    have hkp : s.Keeps { s with lockedTransactions :=
        s.lockedTransactions.insert o ((s.ownedObjectLockedTransactions[o]?).getD lock) }
          fun _ => False :=
      .insert h hcac fun written hw => by rw [hw, getD_some]
    split_ifs with hne
    · exact ⟨hkp, fun hok => by cases hok⟩
    · refine ⟨hkp, fun _ => ?_⟩
      rw [TreeMap.getElem?_insert_self, not_not.mp hne]
  | some cached =>
    dsimp only
    split_ifs with hne
    · exact ⟨.refl h, fun hok => by cases hok⟩
    · exact ⟨.refl h, fun _ => by rw [hcac, not_not.mp hne]⟩

omit h in
lemma clearCachedLock_eq (hcac : s.lockedTransactions[o]? = some lock) :
    s.clearCachedLock o lock = .ok { s with lockedTransactions := s.lockedTransactions.erase o } := by
  rw [clearCachedLock, hcac]
  exact if_pos rfl

lemma keeps_erase (o : ObjectRef) :
    s.Keeps { s with lockedTransactions := s.lockedTransactions.erase o } (· = o) where
  consistent o' written cached hw hc := h o' written cached hw (entry_of_erase hc).2
  written _ _ hw := hw
  cached o' cached hne hc := by
    rw [getElem?_erase_ite, if_neg (Ne.symm hne)]
    exact hc

variable {locks : List (ObjectRef × LockDetails)}

omit h in
lemma getElem?_foldl_insert_locks {m : TreeMap ObjectRef LockDetails}
    (hlocks : ∀ l ∈ locks, l.2 = lock) :
    (locks.foldl (fun m l => m.insert l.1 l.2) m)[o]? = if o ∈ locks.map Prod.fst then some lock
      else m[o]? := by
  induction locks generalizing m with
  | nil => simp
  | cons l locks ih =>
    rw [foldl_cons, ih fun l' hl' => hlocks l' (mem_cons_of_mem l hl'), map_cons, getElem?_insert_ite,
      hlocks l mem_cons_self]
    by_cases hl : o = l.1
    · simp [hl]
    · simp [hl, Ne.symm hl]

/-- Locks are written only while they are cached, so that none in the table changes. -/
lemma keeps_writeTransactionLocks {transaction : VerifiedSignedTransaction}
    (hlocks : ∀ l ∈ locks, l.2 = transaction.digest ∧
      s.lockedTransactions[l.1]? = some transaction.digest) :
    s.Keeps (s.writeTransactionLocks transaction locks) (fun _ => False) ∧
      ∀ o ∈ locks.map Prod.fst,
        (s.writeTransactionLocks transaction locks).ownedObjectLockedTransactions[o]? =
        some transaction.digest := by
  have hget : ∀ o : ObjectRef,
    (s.writeTransactionLocks transaction locks).ownedObjectLockedTransactions[o]? =
      if o ∈ locks.map Prod.fst then some transaction.digest else s.ownedObjectLockedTransactions[o]? :=
    fun o => getElem?_foldl_insert_locks fun l hl => (hlocks l hl).1
  have hcac : ∀ o ∈ locks.map Prod.fst, s.lockedTransactions[o]? = some transaction.digest := by
    intro o ho
    obtain ⟨l, hl, rfl⟩ := mem_map.mp ho
    exact (hlocks l hl).2
  refine ⟨⟨fun o written cached hw hc => ?_, fun o written hw => ?_, fun _ _ _ => id⟩, fun o ho => ?_⟩
  · rw [hget] at hw
    split_ifs at hw with ho
    · exact some.inj ((hw.symm.trans (hcac o ho).symm).trans hc)
    · exact h o written cached hw hc
  · rw [hget]
    split_ifs with ho
    · rw [h o written _ hw (hcac o ho)]
    · exact hw
  · rw [hget, if_pos ho]

end LockState

/-- What a call relies on: the locks it has set and not cleared are cached for its transaction,
and after a success those of all its objects are written. -/
def AcquireCall.Relies (s : LockState) : Option AcquireCall → Prop
  | none => True
  | some call =>
    match call.stage with
    | .acquiring locksToWrite remaining =>
      (∀ l ∈ locksToWrite, l.2 = call.transaction.digest ∧
        s.lockedTransactions[l.1]? = some call.transaction.digest) ∧
        (locksToWrite.map Prod.fst ++ remaining).Perm call.ownedInputObjects ∧
          call.ownedInputObjects.Nodup
    | .clearing locks result =>
      (∀ l ∈ locks, l.2 = call.transaction.digest ∧
        s.lockedTransactions[l.1]? = some call.transaction.digest ∧
        l.1 ∈ call.ownedInputObjects) ∧ (locks.map Prod.fst).Nodup ∧
        (result = .ok () → ∀ o ∈ call.ownedInputObjects, s.ownedObjectLockedTransactions[o]? =
          some call.transaction.digest)
    | .returned result =>
      result = .ok () → ∀ o ∈ call.ownedInputObjects, s.ownedObjectLockedTransactions[o]? =
        some call.transaction.digest
    | .panicked _ => False

/-- Calls for one transaction are in progress together only when they share no object. -/
def AcquireCall.Apart : Option AcquireCall → Option AcquireCall → Prop
  | some call, some call' => call.InProgress → call'.InProgress →
      call.transaction.digest = call'.transaction.digest →
      ∀ o ∈ call.ownedInputObjects, o ∉ call'.ownedInputObjects
  | _, _ => True

namespace AcquireCall

variable {s s' : LockState} {call call' : AcquireCall}

lemma Apart.symm (p q : Option AcquireCall) (h : Apart p q) : Apart q p := by
  cases p with
  | none => cases q <;> trivial
  | some call =>
    cases q with
    | none => trivial
    | some call' => exact fun h₁ h₂ he o ho ho' => h h₂ h₁ he.symm o ho' ho

section

variable (cache : ObjectId → Option ObjectRef) (transaction : VerifiedSignedTransaction)

include cache transaction

lemma start_transaction (owned : List ObjectRef) :
    (start cache transaction owned).transaction = transaction ∧
      (start cache transaction owned).ownedInputObjects = owned := by
  unfold start
  dsimp only
  split <;> exact ⟨rfl, rfl⟩

lemma start_relies {owned : List ObjectRef}
    (hnd : owned.Nodup) : Relies s (some (start cache transaction owned)) := by
  unfold start
  dsimp only
  split
  · intro hok
    cases hok
  · exact ⟨by simp, perm_insertionSort _ _, hnd⟩

end

lemma Relies.keeps {cleared : ObjectRef → Prop} {call : Option AcquireCall} (h : Relies s call)
    (hkp : s.Keeps s' cleared)
    (hclear : ∀ (c : AcquireCall) (o : ObjectRef), call = some c → c.InProgress →
      o ∈ c.ownedInputObjects →
      s.lockedTransactions[o]? = some c.transaction.digest → ¬ cleared o) : Relies s' call := by
  cases call with
  | none => trivial
  | some call =>
    have hclear' := hclear call
    unfold Relies InProgress at *
    cases hstage : call.stage with
    | acquiring locksToWrite remaining =>
      simp only [hstage] at h hclear' ⊢
      refine ⟨fun l hl => ⟨(h.1 l hl).1, hkp.cached _ _ ?_ (h.1 l hl).2⟩, h.2⟩
      refine hclear' l.1 trivial trivial (h.2.1.mem_iff.mp ?_) (h.1 l hl).2
      exact mem_append_left _ (mem_map_of_mem hl)
    | clearing locks result =>
      simp only [hstage] at h hclear' ⊢
      refine ⟨fun l hl => ⟨(h.1 l hl).1, hkp.cached _ _ ?_ (h.1 l hl).2.1, (h.1 l hl).2.2⟩, h.2.1,
        fun hok o ho => ?_⟩
      · exact hclear' l.1 trivial trivial (h.1 l hl).2.2 (h.1 l hl).2.1
      · exact hkp.written _ _ (h.2.2 hok o ho)
    | returned result =>
      simp only [hstage] at h ⊢
      exact fun hok o ho => hkp.written _ _ (h hok o ho)
    | panicked p =>
      simp only [hstage] at h

lemma step_keeps (hs : s.Consistent) (h : Relies s (some call))
    (hstep : call.step s = some (s', call')) :
    call'.transaction = call.transaction ∧ call'.ownedInputObjects = call.ownedInputObjects ∧
      (call'.InProgress → call.InProgress) ∧ Relies s' (some call') ∧
      s.Keeps s' fun o => call.InProgress ∧ o ∈ call.ownedInputObjects ∧
        s.lockedTransactions[o]? = some call.transaction.digest := by
  unfold step at hstep
  cases hstage : call.stage with
  | acquiring locksToWrite remaining =>
    have hprog : call.InProgress := by simp [InProgress, hstage]
    simp only [Relies, hstage] at h
    obtain ⟨hlocks, hperm, hnd⟩ := h
    cases remaining with
    | nil =>
      simp only [hstage, some.injEq, Prod.mk.injEq] at hstep
      obtain ⟨rfl, rfl⟩ := hstep
      rw [append_nil] at hperm
      obtain ⟨hkp, hwrit⟩ := LockState.keeps_writeTransactionLocks hs hlocks
      refine ⟨rfl, rfl, fun _ => hprog, ⟨fun l hl => ?_, hperm.nodup_iff.mpr hnd, fun _ o ho => ?_⟩,
        hkp.consistent, hkp.written, fun o lock _ => hkp.cached o lock id⟩
      · exact ⟨(hlocks l hl).1, hkp.cached _ _ id (hlocks l hl).2, hperm.mem_iff.mp (mem_map_of_mem hl)⟩
      · exact hwrit o (hperm.mem_iff.mpr ho)
    | cons objRef remaining =>
      obtain ⟨hkp, hset⟩ := s.keeps_trySetTransactionLock hs objRef call.transaction.digest
      simp only [hstage] at hstep
      generalize s.trySetTransactionLock objRef call.transaction.digest = result at hstep hkp hset
      obtain ⟨s₁, result⟩ := result
      have hkept : ∀ l ∈ locksToWrite, l.2 = call.transaction.digest ∧
          s₁.lockedTransactions[l.1]? = some call.transaction.digest :=
        fun l hl => ⟨(hlocks l hl).1, hkp.cached _ _ id (hlocks l hl).2⟩
      cases result with
      | ok u =>
        obtain ⟨rfl, rfl⟩ := hstep
        refine ⟨rfl, rfl, fun _ => hprog, ⟨fun l hl => ?_, ?_, hnd⟩, hkp.consistent, hkp.written,
          fun o lock _ => hkp.cached o lock id⟩
        · rcases mem_append.mp hl with hl | hl
          · exact hkept l hl
          · obtain rfl := mem_singleton.mp hl
            exact ⟨rfl, hset rfl⟩
        · simpa using hperm
      | error e =>
        obtain ⟨rfl, rfl⟩ := hstep
        refine ⟨rfl, rfl, fun _ => hprog, ⟨fun l hl => ?_, ?_, fun hok => by cases hok⟩, hkp.consistent,
          hkp.written, fun o lock _ => hkp.cached o lock id⟩
        · exact ⟨(hkept l hl).1, (hkept l hl).2,
            hperm.mem_iff.mp (mem_append_left _ (mem_map_of_mem hl))⟩
        · exact (nodup_append.mp (hperm.nodup_iff.mpr hnd)).1
  | clearing locks result =>
    have hprog : call.InProgress := by simp [InProgress, hstage]
    simp only [Relies, hstage] at h
    obtain ⟨hlocks, hnd, hwrit⟩ := h
    cases locks with
    | nil =>
      simp only [hstage, some.injEq, Prod.mk.injEq] at hstep
      obtain ⟨rfl, rfl⟩ := hstep
      exact ⟨rfl, rfl, fun _ => hprog, hwrit, hs, fun _ _ => id, fun _ _ _ => id⟩
    | cons lock locks =>
      obtain ⟨hdig, hcac, hown⟩ := hlocks lock mem_cons_self
      simp only [hstage, hdig, LockState.clearCachedLock_eq hcac, some.injEq, Prod.mk.injEq] at hstep
      obtain ⟨rfl, rfl⟩ := hstep
      have hkp := LockState.keeps_erase hs lock.1
      rw [map_cons, nodup_cons] at hnd
      refine ⟨rfl, rfl, fun _ => hprog,
        ⟨fun l hl => ?_, hnd.2, fun hok o ho => hkp.written _ _ (hwrit hok o ho)⟩,
        hkp.consistent, hkp.written, fun o cached hne => hkp.cached o cached ?_⟩
      · obtain ⟨hl₁, hl₂, hl₃⟩ := hlocks l (mem_cons_of_mem lock hl)
        refine ⟨hl₁, hkp.cached _ _ (fun he => hnd.1 ?_) hl₂, hl₃⟩
        exact he ▸ mem_map_of_mem hl
      · rintro rfl
        exact hne ⟨hprog, hown, hcac⟩
  | returned | panicked => simp [hstage] at hstep

end AcquireCall

/-- Calls that share no lock with another call for their transaction keep the cached and the
written locks consistent, and find the locks they have set. -/
lemma lockSystem_holds {s : LockState} {calls : ℕ → Option AcquireCall}
    (h : (lockSystem NoSharedLock).Reach s calls) :
    Interleaving.Holds LockState.Consistent
      (fun s _ => AcquireCall.Relies s) AcquireCall.Apart s calls := by
  refine h.holds AcquireCall.Apart.symm ?_ ?_
  · rintro s calls ⟨hemp, hnone⟩
    refine ⟨fun o lock cached _ hc => ?_, fun i => ?_, fun i j _ => ?_⟩
    · rw [hemp] at hc
      simp at hc
    · rw [hnone i]
      trivial
    · rw [hnone i]
      trivial
  · rintro s calls i s' q hinv (⟨cache, transaction, owned, hnone, hnd, hmay, rfl, rfl⟩ | ⟨call,
      next, hcall, hstep, rfl⟩ |
      ⟨objRef, rfl, rfl⟩)
    · refine ⟨hinv.shared, AcquireCall.start_relies cache transaction hnd, fun j hj => ⟨hinv.each j, ?_⟩⟩
      obtain ⟨htx, hown⟩ := AcquireCall.start_transaction cache transaction owned
      cases hoth : calls j with
      | none => trivial
      | some other =>
        intro _ hprog hdig o ho
        rw [htx] at hdig
        rw [hown] at ho
        exact hmay j other hoth hprog hdig.symm o ho
    · have hrelies := hinv.each i
      rw [hcall] at hrelies
      obtain ⟨htx, hown, hprog, hnext, hkp⟩ := AcquireCall.step_keeps hinv.shared hrelies hstep
      refine ⟨hkp.consistent, hnext, fun j hj => ⟨(hinv.each j).keeps hkp ?_, ?_⟩⟩
      · rintro other o hoth hoth' hmem hcac ⟨hcall', hmem', hcac'⟩
        have hapart := hinv.agree j i hj
        rw [hoth, hcall] at hapart
        exact hapart hoth' hcall' (some.inj (hcac.symm.trans hcac')) o hmem hmem'
      · have hapart := hinv.agree i j hj.symm
        rw [hcall] at hapart
        cases hoth : calls j with
        | none => trivial
        | some other =>
          rw [hoth] at hapart
          intro hnext' hoth' hdig o ho
          rw [htx] at hdig
          rw [hown] at ho
          exact hapart (hprog hnext') hoth' hdig o ho
    · have hkp := LockState.keeps_getTransactionLock hinv.shared objRef
      refine ⟨hkp.consistent, (hinv.each i).keeps hkp fun _ _ _ _ _ _ => id, fun j hj =>
        ⟨?_, hinv.agree i j hj.symm⟩⟩
      exact (hinv.each j).keeps hkp fun _ _ _ _ _ _ => id

/-- When no two calls for one transaction that share an object are in progress together, locks
are exclusive, written locks are never overwritten, and no call panics. -/
theorem acquireTransactionLocks_exclusive {s : LockState} {calls : ℕ → Option AcquireCall}
    (h : (lockSystem NoSharedLock).Reach s calls) :
    (∀ (i j : ℕ) (call call' : AcquireCall), calls i = some call → calls j = some call' →
      call.transaction.digest ≠ call'.transaction.digest →
        (∃ o ∈ call.ownedInputObjects, o ∈ call'.ownedInputObjects) →
      ¬ (call.stage = .returned (.ok ()) ∧ call'.stage = .returned (.ok ()))) ∧
    (∀ (i : ℕ) (s' : LockState) (q : Option AcquireCall), (lockSystem NoSharedLock).act s calls i s' q →
      ∀ (o : ObjectRef) (lock : LockDetails), s.ownedObjectLockedTransactions[o]? = some lock →
        s'.ownedObjectLockedTransactions[o]? = some lock) ∧
    ∀ (i : ℕ) (call : AcquireCall) (p : LockPanic), calls i = some call → call.stage ≠ .panicked p := by
  have hinv := lockSystem_holds h
  refine ⟨?_, ?_, ?_⟩
  · rintro i j call call' hi hj hne ⟨o, ho, ho'⟩ ⟨hok, hok'⟩
    have hrelies := hinv.each i
    have hrelies' := hinv.each j
    simp only [hi, hj, AcquireCall.Relies, hok, hok'] at hrelies hrelies'
    exact hne (some.inj ((hrelies trivial o ho).symm.trans (hrelies' trivial o ho')))
  · rintro i s' q (⟨_, _, _, _, _, _, rfl, _⟩ | ⟨call, next, hcall, hstep, _⟩ | ⟨objRef, rfl,
      _⟩) o lock hlock
    · exact hlock
    · have hrelies := hinv.each i
      rw [hcall] at hrelies
      exact (AcquireCall.step_keeps hinv.shared hrelies hstep).2.2.2.2.written o lock hlock
    · exact (LockState.keeps_getTransactionLock hinv.shared objRef).written o lock hlock
  · intro i call p hi hp
    have hrelies := hinv.each i
    simp only [hi, AcquireCall.Relies, hp] at hrelies

section Schedules

variable {mayStart : (ℕ → Option AcquireCall) → VerifiedSignedTransaction → List ObjectRef → Prop}
  {s s' : LockState} {calls calls' : ℕ → Option AcquireCall}

def runSchedule : LockState × (ℕ → Option AcquireCall) → List ℕ →
    Option (LockState × (ℕ → Option AcquireCall))
  | (s, calls), [] => some (s, calls)
  | (s, calls), i :: schedule => do
    let call ← calls i
    let (s, call) ← call.step s
    runSchedule (s, update calls i (some call)) schedule

variable {schedule : List ℕ}

lemma reach_runSchedule (h : (lockSystem mayStart).Reach s calls)
    (hrun : runSchedule (s, calls) schedule = some (s', calls')) :
    (lockSystem mayStart).Reach s' calls' := by
  induction schedule generalizing s calls with
  | nil =>
    cases hrun
    exact h
  | cons i schedule ih =>
    obtain ⟨call, hcall, hrun⟩ := bind_eq_some_iff.mp hrun
    obtain ⟨⟨s₁, next⟩, hstep, hrun⟩ := bind_eq_some_iff.mp hrun
    exact ih (h.act (.inr (.inl ⟨call, next, hcall, hstep, rfl⟩))) hrun

lemma runSchedule_of_notMem {j : ℕ} (hj : j ∉ schedule)
    (hrun : runSchedule (s, calls) schedule = some (s', calls')) : calls' j = calls j := by
  induction schedule generalizing s calls with
  | nil =>
    cases hrun
    rfl
  | cons i schedule ih =>
    rw [mem_cons, not_or] at hj
    obtain ⟨call, _, hrun⟩ := bind_eq_some_iff.mp hrun
    obtain ⟨⟨s₁, next⟩, _, hrun⟩ := bind_eq_some_iff.mp hrun
    rw [ih hj.2 hrun, update_of_ne hj.1]

/-- Calls that start one after the other, before any of them takes a step. -/
def startAll (cache : ObjectId → Option ObjectRef) :
    List (VerifiedSignedTransaction × List ObjectRef) → ℕ → Option AcquireCall
  | [] => fun _ => none
  | (transaction, owned) :: rest =>
    update (startAll cache rest) rest.length (some (AcquireCall.start cache transaction owned))

variable {requests : List (VerifiedSignedTransaction × List ObjectRef)}

lemma startAll_of_le (cache : ObjectId → Option ObjectRef) {i : ℕ}
    (hi : requests.length ≤ i) : startAll cache requests i = none := by
  induction requests with
  | nil => rfl
  | cons request requests ih =>
    rw [length_cons] at hi
    rw [startAll, update_of_ne (by omega), ih (by omega)]

lemma reach_startAll (cache : ObjectId → Option ObjectRef) (hs : s.lockedTransactions = ∅)
    (hnd : ∀ r ∈ requests, r.2.Nodup) :
    (lockSystem fun _ _ _ => True).Reach s (startAll cache requests) := by
  induction requests with
  | nil => exact .init ⟨hs, fun _ => rfl⟩
  | cons request requests ih =>
    refine (ih fun r hr => hnd r (mem_cons_of_mem request hr)).act
      (.inl ⟨cache, request.1, request.2, ?_, ?_⟩)
    · exact startAll_of_le cache le_rfl
    · exact ⟨hnd request mem_cons_self, trivial, rfl, rfl⟩

end Schedules

def firstVersion (n : ℕ) : ObjectRef := ⟨Fin.ofNat _ n, 1, 0⟩

def transactionOf (n : ℕ) : VerifiedSignedTransaction := ⟨Fin.ofNat _ n, []⟩

/-- Call 0 of transaction 4 wants object 1; calls 1, 3 and 4 of transaction 1 want objects 1 and 2;
call 2 of transaction 2 wants objects 2 and 3. -/
def sharedLockCalls : ℕ → Option AcquireCall :=
  startAll (fun objectId => some ⟨objectId, 1, 0⟩)
    [(transactionOf 1, [firstVersion 1, firstVersion 2]),
      (transactionOf 1, [firstVersion 1, firstVersion 2]),
      (transactionOf 2, [firstVersion 2, firstVersion 3]),
        (transactionOf 1, [firstVersion 1, firstVersion 2]),
      (transactionOf 4, [firstVersion 1])]

def lockedBefore : LockState := ⟨∅, (∅ : TreeMap ObjectRef LockDetails).insert (firstVersion 3) 3, ∅⟩

/-- Call 1 fails on object 2 and clears the lock on object 1 that call 3 relies on; call 0 takes
and writes it. Then call 3 overwrites the written lock and returns; call 4 panics. -/
theorem acquireTransactionLocks_sharedLock :
    ∃ s calls s₁ calls₁ s₂ calls₂, (lockSystem fun _ _ _ => True).Reach s calls ∧
      runSchedule (s, calls) [3] = some (s₁, calls₁) ∧ (lockSystem fun _ _ _ => True).Reach s₂ calls₂ ∧
      s.ownedObjectLockedTransactions[firstVersion 1]? = some 4 ∧
      s₁.ownedObjectLockedTransactions[firstVersion 1]? = some 1 ∧
      calls₂ 0 = some ⟨transactionOf 4, [firstVersion 1], .returned (.ok ())⟩ ∧
      calls₂ 3 = some ⟨transactionOf 1, [firstVersion 1, firstVersion 2], .returned (.ok ())⟩ ∧
      calls₂ 4 = some ⟨transactionOf 1, [firstVersion 1, firstVersion 2], .panicked .lockMustExist⟩ := by
  have hrun : (runSchedule (lockedBefore, sharedLockCalls) [2, 1, 1, 3, 1, 1, 2, 2, 2, 3, 0, 0, 0,
    0]).any (fun r =>
      decide (r.1.ownedObjectLockedTransactions[firstVersion 1]? = some 4) &&
      (runSchedule r [3]).any fun r₁ =>
        decide (r₁.1.ownedObjectLockedTransactions[firstVersion 1]? = some 1) &&
      (runSchedule r₁ [4, 3, 3, 3, 4, 4, 4]).any fun r₂ =>
        decide (r₂.2 0 = some ⟨transactionOf 4, [firstVersion 1], .returned (.ok ())⟩) &&
        decide (r₂.2 3 = some ⟨transactionOf 1, [firstVersion 1, firstVersion 2], .returned (.ok ())⟩) &&
        decide (r₂.2 4 = some ⟨transactionOf 1, [firstVersion 1, firstVersion 2],
          .panicked .lockMustExist⟩)) = true := by
    decide +kernel
  obtain ⟨⟨s, calls⟩, h, hp⟩ := (Option.any_eq_true ..).mp hrun
  rw [Bool.and_eq_true] at hp
  obtain ⟨⟨s₁, calls₁⟩, h₁, hp₁⟩ := (Option.any_eq_true ..).mp hp.2
  rw [Bool.and_eq_true] at hp₁
  obtain ⟨⟨s₂, calls₂⟩, h₂, hp₂⟩ := (Option.any_eq_true ..).mp hp₁.2
  simp only [Bool.and_eq_true, decide_eq_true_eq] at hp hp₁ hp₂
  have hreach := reach_runSchedule (reach_startAll _ rfl (by decide)) h
  exact ⟨s, calls, s₁, calls₁, s₂, calls₂, hreach, h₁,
    reach_runSchedule (reach_runSchedule hreach h₁) h₂, hp.1, hp₁.1,
    hp₂.1.1, hp₂.1.2, hp₂.2⟩

/-- A call that ends before another one for its transaction starts. -/
theorem acquireTransactionLocks_exclusive_oneAfterOther :
    ∃ s calls, (lockSystem NoSharedLock).Reach s calls ∧
      calls 0 = some ⟨transactionOf 1, [firstVersion 1], .returned (.ok ())⟩ ∧ (calls 1).isSome ∧
      ∀ (j : ℕ) (call : AcquireCall), calls j = some call → call.transaction.digest ≠ 1 →
        firstVersion 1 ∈ call.ownedInputObjects → call.stage ≠ .returned (.ok ()) := by
  have hstart : (lockSystem NoSharedLock).Reach lockedBefore
    (startAll (fun objectId => some ⟨objectId, 1, 0⟩)
      [(transactionOf 1, [firstVersion 1])]) :=
    .act (.init ⟨rfl, fun _ => rfl⟩)
      (.inl ⟨_, transactionOf 1, [firstVersion 1], rfl, by decide, by rintro j call ⟨⟩, rfl, rfl⟩)
  obtain ⟨⟨s, calls⟩, hrun, hp⟩ := (Option.any_eq_true ..).mp (show (runSchedule (lockedBefore,
    startAll (fun objectId => some ⟨objectId, 1, 0⟩) [(transactionOf 1, [firstVersion 1])])
      [0, 0, 0, 0]).any (fun r =>
      decide (r.2 0 = some ⟨transactionOf 1, [firstVersion 1], .returned (.ok ())⟩)) =
        true by decide +kernel)
  have hcall : calls 0 = some ⟨transactionOf 1, [firstVersion 1], .returned (.ok ())⟩ :=
    of_decide_eq_true hp
  have hreach := reach_runSchedule hstart hrun
  have hothers : ∀ j, j ≠ 0 → calls j = none := by
    intro j hj
    rw [runSchedule_of_notMem (by simpa using hj) hrun]
    exact startAll_of_le _ (Nat.one_le_iff_ne_zero.mpr hj)
  have hreach' :=
    hreach.act (i := 1) (.inl ⟨fun objectId => some ⟨objectId, 1, 0⟩, transactionOf 1,
      [firstVersion 1],
    hothers 1 (by decide), by decide, ?_, rfl, rfl⟩)
  · refine ⟨s, _, hreach', ?_, ?_, fun j call hj hne hmem hok => ?_⟩
    · rw [update_of_ne (by decide), hcall]
    · rfl
    · exact (acquireTransactionLocks_exclusive hreach').1 0 j _ call
        (by rw [update_of_ne (by decide), hcall]) hj
        (Ne.symm hne) ⟨_, mem_singleton_self _, hmem⟩ ⟨rfl, hok⟩
  · intro j call hj hprogress
    by_cases h0 : j = 0
    · subst h0
      rw [hcall] at hj
      cases hj
      exact hprogress.elim
    · rw [hothers j h0] at hj
      cases hj

end SuiProofs.Authority

import SuiProofs.Library.MultisetHash
import SuiProofs.Library.Exec
import SuiProofs.Authority.TransactionEffects

/-!
Models `state_accumulator.rs` of `sui-core`. The multiset hash is any hash into a commutative group.
-/

namespace SuiProofs.Authority

open Library List Function Std ObjectTable MultisetHash TransactionEffectsV2

/-- What is hashed: the digest of an object, or the serialized `WrappedObject`. -/
inductive AccumulatorItem where
  | digest (digest : ObjectDigest)
  | wrappedObject (objectKey : ObjectKey)
deriving DecidableEq

inductive AccumulatorPanic where
  | accumulatorCount
deriving DecidableEq, Repr

namespace StateAccumulator

variable {G : Type} [AddCommGroup G] (hash : AccumulatorItem → G)

def accumulateEffectsV3 (effects : List TransactionEffectsV2) : G :=
  let acc := MultisetHash.insertAll hash 0
    (effects.flatMap fun fx => fx.allChangedObjects.map fun e => .digest e.1.digest)
  MultisetHash.removeAll hash acc
    (effects.flatMap fun fx => fx.oldObjectMetadata.map fun e => .digest e.1.digest)

def accumulateLiveObject (acc : G) : LiveObject → G
  | .normal objRef => MultisetHash.insert hash acc (.digest objRef.digest)
  | .wrapped objectKey => MultisetHash.insert hash acc (.wrappedObject objectKey)

def accumulateLiveObjectSet (table : ObjectTable) (includeWrappedTombstone : Bool) : G :=
  (table.iterLiveObjectSet includeWrappedTombstone).foldl (accumulateLiveObject hash) 0

/-- The table `state_hash_by_checkpoint` afterwards, and the hash of the checkpoint. -/
def accumulateCheckpoint (stateHashByCheckpoint : TreeMap ℕ G) (effects : List TransactionEffectsV2)
    (checkpointSeqNum : ℕ) :
    TreeMap ℕ G × G :=
  match stateHashByCheckpoint[checkpointSeqNum]? with
  | some acc => (stateHashByCheckpoint, acc)
  | none =>
    let acc := accumulateEffectsV3 hash effects
    (stateHashByCheckpoint.insert checkpointSeqNum acc, acc)

variable (rootStateHashByEpoch : TreeMap ℕ (ℕ × G))

/-- The next checkpoint to accumulate, and the hash of the state before it. -/
def nextToAccumulate : ℕ × G :=
  match lastPair? rootStateHashByEpoch with
  | some (_, checkpoint, acc) => (checkpoint + 1, acc)
  | none => (0, 0)

/-- The hashes that are there for the checkpoints from `next` to `last`. -/
def inRange (ready : TreeMap ℕ G) (next last : ℕ) : List (ℕ × G) :=
  ready.toList.filter fun e => next ≤ e.1 ∧ e.1 ≤ last

def remaining (ready : TreeMap ℕ G) (next last : ℕ) : List ℕ :=
  (List.range' next (last + 1 - next)).filter fun n => n ∉ (inRange ready next last).map Prod.fst

/-- The hash of an epoch, when `ready` is what the table of checkpoint hashes has at first and
`arrived` what it has later on; nothing while a checkpoint is missing. In machine arithmetic the
assertion on the number of checkpoints is an equation without subtraction. -/
def accumulateEpoch (epoch lastCheckpointOfEpoch : ℕ) (ready arrived : TreeMap ℕ G) :
    Except AccumulatorPanic (Option (TreeMap ℕ (ℕ × G) × G)) :=
  match rootStateHashByEpoch[epoch]? with
  | some (_, acc) => .ok (some (rootStateHashByEpoch, acc))
  | none =>
    let (next, rootStateAccumulator) := nextToAccumulate rootStateHashByEpoch
    match (remaining ready next lastCheckpointOfEpoch).mapM fun n => arrived[n]? with
    | none => .ok none
    | some remainingAccumulators =>
      let accumulators :=
        (inRange ready next lastCheckpointOfEpoch).map Prod.snd ++ remainingAccumulators
      if accumulators.length + next ≠ lastCheckpointOfEpoch + 1 then .error .accumulatorCount
      else
        let acc := accumulators.foldl MultisetHash.union rootStateAccumulator
        .ok (some (rootStateHashByEpoch.insert epoch (lastCheckpointOfEpoch, acc), acc))

section Effects

variable {hash} {table : ObjectTable} {lamportVersion : SequenceNumber} {fx : TransactionEffectsV2}
  {effects : List TransactionEffectsV2} {e : ObjectId × EffectsObjectChange}
  {changes : List (ObjectId × EffectsObjectChange)}

def objectHash (hash : AccumulatorItem → G) : StoreObject → G
  | .value digest => hash (.digest digest)
  | _ => 0

def insertedHash (hash : AccumulatorItem → G) (change : EffectsObjectChange) : G :=
  match change.outputState with
  | .objectWrite digest _ => hash (.digest digest)
  | .packageWrite _ digest => hash (.digest digest)
  | .notExist => 0

def removedHash (hash : AccumulatorItem → G) (change : EffectsObjectChange) : G :=
  change.inputState.versionDigest.elim 0 fun r => hash (.digest r.2)

def liveHash (hash : AccumulatorItem → G) (entries : List (ObjectKey × StoreObject)) : G :=
  (liveSetIter false entries).foldl (accumulateLiveObject hash) 0

section Entries

variable {x y : ObjectKey × StoreObject} {l l₁ l₂ : List (ObjectKey × StoreObject)}

lemma foldl_accumulateLiveObject (l : List LiveObject) (acc : G) :
    l.foldl (accumulateLiveObject hash) acc = acc + l.foldl (accumulateLiveObject hash) 0 := by
  induction l generalizing acc with
  | nil => simp
  | cons o l ih =>
    have hstep : accumulateLiveObject hash acc o = acc + accumulateLiveObject hash 0 o := by
      cases o <;> simp [accumulateLiveObject, MultisetHash.insert]
    rw [foldl_cons, foldl_cons, ih, hstep, ih (accumulateLiveObject hash 0 o), add_assoc]

lemma liveHash_singleton : liveHash hash [x] = objectHash hash x.2 := by
  rw [liveHash, liveSetIter, storeObjectToLiveObject]
  cases x.2 <;> simp [objectHash, accumulateLiveObject, MultisetHash.insert]

lemma liveHash_cons_cons :
    liveHash hash (x :: y :: l) =
      (if (ofLex x.1).1 ≠ (ofLex y.1).1 then objectHash hash x.2 else 0) + liveHash hash (y :: l) := by
  rw [← liveHash_singleton, liveHash, liveSetIter, liveHash, liveHash]
  split_ifs
  · rw [foldl_append, foldl_accumulateLiveObject, liveSetIter]
  · rw [zero_add]

lemma liveHash_append (hids : ∀ a ∈ l₁, ∀ b ∈ l₂, (ofLex a.1).1 ≠ (ofLex b.1).1) :
    liveHash hash (l₁ ++ l₂) = liveHash hash l₁ + liveHash hash l₂ := by
  induction l₁ with
  | nil => exact (zero_add _).symm
  | cons x l₁ ih =>
    obtain ⟨hx, hids⟩ := forall_mem_cons.mp hids
    cases l₁ with
    | nil =>
      cases l₂ with
      | nil => exact (add_zero _).symm
      | cons y l₂ =>
          rw [singleton_append, liveHash_cons_cons, if_pos (hx y mem_cons_self), liveHash_singleton]
    | cons y l₁ => rw [cons_append, cons_append, liveHash_cons_cons, ← cons_append, ih hids,
        liveHash_cons_cons, add_assoc]

variable (hash) in
/-- An entry behind the others replaces the last one of its object. -/
lemma liveHash_concat (hsort : (l ++ [x]).Pairwise fun a b => (ofLex a.1).1 ≤ (ofLex b.1).1) :
    liveHash hash (l ++ [x]) + ((l.filter fun a => (ofLex a.1).1 = (ofLex x.1).1).getLast?).elim 0
      (fun a => objectHash hash a.2) =
      liveHash hash l + objectHash hash x.2 := by
  induction l with
  | nil =>
    rw [nil_append, liveHash_singleton, liveHash, liveSetIter]
    exact add_comm _ _
  | cons y l ih =>
    obtain ⟨hy, hsort⟩ := pairwise_cons.mp hsort
    cases l with
    | nil =>
      rw [singleton_append, liveHash_cons_cons, liveHash_singleton, liveHash_singleton]
      by_cases hid : (ofLex y.1).1 = (ofLex x.1).1
      · simp [hid, add_comm]
      · simp [hid]
    | cons z l =>
      have hlast : ((y :: z :: l).filter fun a => (ofLex a.1).1 = (ofLex x.1).1).getLast? =
          ((z :: l).filter fun a => (ofLex a.1).1 = (ofLex x.1).1).getLast? := by
        by_cases hid : (ofLex y.1).1 = (ofLex x.1).1
        · have hz : (ofLex z.1).1 = (ofLex x.1).1 :=
            ((pairwise_cons.mp hsort).1 x (by simp)).antisymm (hid ▸ hy z (by simp))
          simp [hid, hz]
        · simp [hid]
      rw [hlast, cons_append, cons_append, liveHash_cons_cons, ← cons_append, add_assoc, ih hsort,
        liveHash_cons_cons, add_assoc]

end Entries

variable {id : ObjectId} {version : SequenceNumber} {object : StoreObject}

section

variable (hver : ∀ old ∈ table.entries id, (ofLex old.1).2 < version)

include hver

lemma toLex_not_mem : toLex (id, version) ∉ table := by
  intro hmem
  obtain ⟨object, hget⟩ := mem_map_iff_exists.mp hmem
  have hold : (toLex (id, version), object) ∈ table.entries id :=
    mem_filter.mpr ⟨TreeMap.mem_toList_iff_getElem?_eq_some.mpr hget, decide_eq_true rfl⟩
  exact lt_irrefl _ (hver _ hold)

lemma entries_insert_of_ne {id' : ObjectId} (hid : id ≠ id') :
    ObjectTable.entries (table.insert (toLex (id, version)) object) id' = table.entries id' := by
  obtain ⟨l₁, l₂, hl, hins⟩ := exists_toList_insert (v := object) (toLex_not_mem hver)
  simp [entries, hl, hins, filter_append, hid]

/-- An entry of a version above those of its object takes the place of the latest one. -/
lemma accumulateLiveObjectSet_insert :
    accumulateLiveObjectSet hash (table.insert (toLex (id, version)) object) false +
        (table.entries id).getLast?.elim 0 (fun old => objectHash hash old.2) =
      accumulateLiveObjectSet hash table false + objectHash hash object := by
  obtain ⟨l₁, l₂, hl, hins⟩ := exists_toList_insert (v := object) (toLex_not_mem hver)
  have hsort : (l₁ ++ (toLex (id, version), object) :: l₂).Pairwise fun a b =>
      (ofLex a.1).1 ≤ (ofLex b.1).1 := by
    rw [← hins]
    exact pairwise_fst_toList.imp fun hlt => (Prod.Lex.lt_iff.mp hlt).elim LT.lt.le fun he => he.1.le
  -- The entries behind the new one belong to other objects.
  have hafter : ∀ b ∈ l₂, id ≠ (ofLex b.1).1 := by
    intro b hb he
    have hlt := (pairwise_fst_toList (m := table.insert (toLex (id, version)) object))
    rw [hins] at hlt
    have hold : b ∈ table.entries id :=
      mem_filter.mpr ⟨hl ▸ mem_append_right _ hb, decide_eq_true he.symm⟩
    rcases Prod.Lex.lt_iff.mp ((pairwise_cons.mp (pairwise_append.mp hlt).2.1).1 b hb)
      with hne | ⟨-, hversion⟩
    · exact hne.ne he
    · exact lt_asymm hversion (hver b hold)
  have hlast : table.entries id = l₁.filter fun a => (ofLex a.1).1 = id := by
    unfold entries
    rw [hl, filter_append, append_right_eq_self, filter_eq_nil_iff]
    exact fun b hb he => hafter b hb (of_decide_eq_true he).symm
  have hsplit : ∀ {l}, (∀ a ∈ l, (ofLex a.1).1 ≤ id) →
      liveHash hash (l ++ l₂) = liveHash hash l + liveHash hash l₂ := by
    intro l hle
    apply liveHash_append
    intro a ha b hb he
    have hge := (pairwise_cons.mp (pairwise_append.mp hsort).2.1).1 b hb
    exact hafter b hb (hge.antisymm (he ▸ hle a ha))
  have hle : ∀ a ∈ l₁, (ofLex a.1).1 ≤ id := fun a ha =>
    (pairwise_append.mp hsort).2.2 a ha _ mem_cons_self
  have hconcat :=
    liveHash_concat hash (x := (toLex (id, version), object)) (l := l₁) (hsort.sublist (by simp))
  rw [ofLex_toLex] at hconcat
  have hstep : ∀ l, accumulateLiveObjectSet hash l false = liveHash hash l.toList := fun _ => rfl
  rw [hstep, hstep, hl, hins, append_cons, hsplit (by simpa [or_imp, forall_and] using hle),
    hsplit hle, hlast,
    add_right_comm, hconcat, add_right_comm]

end

lemma elim_getLast?_entries : (table.entries id).getLast?.elim 0 (fun old => objectHash hash old.2) =
    (table.live id).elim 0 fun r => hash (.digest r.2) := by
  unfold live
  cases (table.entries id).getLast? with
  | none => rfl
  | some old =>
    rw [Option.elim_some, Option.bind_some]
    cases old.2 <;> rfl

lemma objectHash_of_written {change : EffectsObjectChange}
    (h : written lamportVersion change = some (version, object)) :
    objectHash hash object = insertedHash hash change := by
  unfold written at h
  unfold insertedHash
  cases hout : change.outputState with
  | objectWrite | packageWrite =>
    rw [hout] at h
    cases h
    rfl
  | notExist =>
    rw [hout] at h
    dsimp only at h
    unfold tombstone at h
    split at h
    · cases h
      rfl
    · cases h
      rfl
    · cases h

lemma notExist_of_written_eq_none {change : EffectsObjectChange}
    (hchk : TransactionEffectsV2.checkChange lamportVersion id change = true)
    (h : written lamportVersion change = none) :
    change.inputState = .notExist ∧ change.outputState = .notExist := by
  obtain ⟨input, output, operation⟩ := change
  cases output with
  | objectWrite | packageWrite => cases h
  | notExist =>
    cases input with
    | notExist => exact ⟨rfl, rfl⟩
    | exist version digest owner =>
      cases operation with
      | none | deleted => cases h
      | created => cases hchk

lemma le_of_live {digest : ObjectDigest} (h : table.live id = some (version, digest)) :
    ∀ old ∈ table.entries id, (ofLex old.1).2 ≤ version := by
  intro old hold
  obtain ⟨last, hlast, hval⟩ := Option.bind_eq_some_iff.mp h
  have hversion : (ofLex last.1).2 = version := by
    split at hval
    · exact (Prod.mk.inj (Option.some.inj hval)).1
    · cases hval
  obtain ⟨l, hl⟩ := getLast?_eq_some_iff.mp hlast
  have hsort : (l ++ [last]).Pairwise fun a b => a.1 < b.1 := hl ▸ pairwise_fst_toList.filter _
  have hid : ∀ a ∈ l ++ [last], (ofLex a.1).1 = id := fun a ha =>
    of_decide_eq_true (mem_filter.mp (hl ▸ ha : a ∈ table.entries id)).2
  rw [hl, mem_append, mem_singleton] at hold
  rcases hold with hold | rfl
  · rcases Prod.Lex.lt_iff.mp ((pairwise_append.mp hsort).2.2 old hold last mem_cons_self)
      with hlt | ⟨-, hlt⟩
    · exact absurd ((hid old (mem_append_left _ hold)).trans (hid last (by simp)).symm) hlt.ne
    · exact hversion ▸ hlt.le
  · exact hversion.le

section

variable (hchk : checkChange lamportVersion e.1 e.2 = true) (hmt : table.Matches e)

include hchk hmt

/-- A live object is written above its live version. -/
lemma writesAbove_of_matches
    (hnew : e.2.inputState = .notExist → WritesAbove lamportVersion table e) :
    WritesAbove lamportVersion table e := by
  obtain ⟨id, ⟨input, output, operation⟩⟩ := e
  cases input with
  | notExist => exact hnew rfl
  | exist oldVersion oldDigest oldOwner =>
    intro w hw old hold
    have hle : (ofLex old.1).2 ≤ oldVersion := le_of_live hmt old hold
    have hlt : oldVersion < w.1 := by
      cases output <;> cases operation <;> simp [checkChange] at hchk <;> cases hw
      · exact hchk.1.1
      · exact hchk.1
      · exact hchk.1.1.1
      · exact Nat.lt_of_succ_le hchk.1.2.le
    exact hle.trans_lt hlt

variable (hash) in
lemma accumulateLiveObjectSet_applyChange (habove : WritesAbove lamportVersion table e) :
    accumulateLiveObjectSet hash (table.applyChange lamportVersion e) false + removedHash hash e.2 =
      accumulateLiveObjectSet hash table false + insertedHash hash e.2 := by
  cases hwrit : written lamportVersion e.2 with
  | some w =>
    rw [applyChange, hwrit, removedHash, ← hmt, ← elim_getLast?_entries,
      accumulateLiveObjectSet_insert (habove w hwrit), objectHash_of_written hwrit]
  | none =>
    obtain ⟨hinp, hout⟩ := notExist_of_written_eq_none hchk hwrit
    rw [applyChange, hwrit, removedHash, insertedHash, hinp, hout]
    rfl

end

lemma entries_applyChange_of_ne (habove : WritesAbove lamportVersion table e) (hid : e.1 ≠ id) :
    (table.applyChange lamportVersion e).entries id = table.entries id := by
  unfold applyChange
  cases hwrit : written lamportVersion e.2 with
  | none => rfl
  | some w => exact entries_insert_of_ne (habove w hwrit) hid

lemma accumulateLiveObjectSet_foldl_applyChange
    (hchk : ∀ e ∈ changes, checkChange lamportVersion e.1 e.2 = true)
    (hnd : (changes.map Prod.fst).Nodup) (hmatches : ∀ e ∈ changes, table.Matches e)
    (habove : ∀ e ∈ changes, WritesAbove lamportVersion table e) :
    accumulateLiveObjectSet hash (changes.foldl (applyChange lamportVersion) table) false +
      (changes.map fun e => removedHash hash e.2).sum =
      accumulateLiveObjectSet hash table false + (changes.map fun e => insertedHash hash e.2).sum := by
  induction changes generalizing table with
  | nil => rfl
  | cons e changes ih =>
    rw [map_cons, nodup_cons] at hnd
    obtain ⟨hfirst, habove⟩ := forall_mem_cons.mp habove
    have hrest : ∀ e' ∈ changes, (table.applyChange lamportVersion e).entries e'.1 =
      table.entries e'.1 := fun e' he' =>
      entries_applyChange_of_ne hfirst fun heq => hnd.1 (heq ▸ mem_map_of_mem he')
    have hstep :=
      accumulateLiveObjectSet_applyChange hash (hchk e mem_cons_self)
        (hmatches e mem_cons_self) hfirst
    have hlat := ih (fun e' he' => hchk e' (mem_cons_of_mem e he')) hnd.2
      (fun e' he' => by
        unfold Matches live
        rw [hrest e' he']
        exact hmatches e' (mem_cons_of_mem e he'))
      (fun e' he' => by
        unfold WritesAbove
        rw [hrest e' he']
        exact habove e' he')
    simp only [foldl_cons, map_cons, sum_cons]
    rw [add_left_comm, hlat, ← add_assoc, add_comm (removedHash hash e.2), hstep, add_assoc]

lemma sum_allChangedObjects
    (hchk : ∀ e ∈ fx.changedObjects,
      TransactionEffectsV2.checkChange fx.lamportVersion e.1 e.2 = true) :
    ((fx.allChangedObjects.map fun e => AccumulatorItem.digest e.1.digest).map hash).sum =
      (fx.changedObjects.map fun e => insertedHash hash e.2).sum := by
  unfold allChangedObjects mutated created unwrapped
  simp only [map_append, map_map, sum_append]
  rw [sum_map_filterMap, sum_map_filterMap, sum_map_filterMap, ← sum_map_add, ← sum_map_add]
  congr 1
  apply map_congr_left
  intro e he
  have hchange := hchk e he
  obtain ⟨id, ⟨input, output, operation⟩⟩ := e
  -- A written object is in exactly one of the three lists.
  cases input with
  | notExist =>
    cases output with
    | notExist => simp [insertedHash]
    | objectWrite digest owner =>
      cases operation with
      | none | created => simp [insertedHash]
      | deleted => cases hchange
    | packageWrite version digest =>
      cases operation with
      | none | deleted => cases hchange
      | created => simp [insertedHash]
  | exist oldVersion oldDigest oldOwner =>
    cases output with
    | notExist | objectWrite | packageWrite => simp [insertedHash]

lemma sum_oldObjectMetadata :
    ((fx.oldObjectMetadata.map fun e => AccumulatorItem.digest e.1.digest).map hash).sum =
      (fx.changedObjects.map fun e => removedHash hash e.2).sum := by
  unfold oldObjectMetadata
  rw [map_map, sum_map_filterMap]
  congr 1
  apply map_congr_left
  rintro ⟨id, ⟨input, output, operation⟩⟩ -
  cases input with
  | notExist => rfl
  | exist version digest owner => rfl

lemma accumulateEffectsV3_append (effects effects' : List TransactionEffectsV2) :
    accumulateEffectsV3 hash (effects ++ effects') =
      accumulateEffectsV3 hash effects + accumulateEffectsV3 hash effects' := by
  unfold accumulateEffectsV3
  simp only [insertAll_eq, removeAll_eq, flatMap_append, map_append, sum_append]
  abel

lemma accumulateEffectsV3_singleton
    (hchk : ∀ e ∈ fx.changedObjects,
      TransactionEffectsV2.checkChange fx.lamportVersion e.1 e.2 = true) :
    accumulateEffectsV3 hash [fx] =
      (fx.changedObjects.map fun e => insertedHash hash e.2).sum - (fx.changedObjects.map fun e =>
        removedHash hash e.2).sum := by
  unfold accumulateEffectsV3
  rw [insertAll_eq, removeAll_eq, flatMap_singleton, flatMap_singleton, sum_allChangedObjects hchk,
    sum_oldObjectMetadata, zero_add]

lemma accumulateLiveObjectSet_applyAll (hadmits : table.Along Admits effects)
    (hraises : table.Along Raises effects) :
    accumulateLiveObjectSet hash (table.applyAll effects) false =
      accumulateLiveObjectSet hash table false + accumulateEffectsV3 hash effects := by
  induction effects generalizing table with
  | nil => simp [applyAll, accumulateEffectsV3, MultisetHash.insertAll, MultisetHash.removeAll]
  | cons fx effects ih =>
    obtain ⟨⟨hinv, hmatches⟩, hadmits⟩ := hadmits
    simp only [checkInvariant, Bool.and_eq_true, all_eq_true, decide_eq_true_eq] at hinv
    obtain ⟨⟨hchk, hids⟩, -⟩ := hinv
    have hstep : accumulateLiveObjectSet hash (table.applyEffects fx) false +
        (fx.changedObjects.map fun e => removedHash hash e.2).sum =
          accumulateLiveObjectSet hash table false +
            (fx.changedObjects.map fun e => insertedHash hash e.2).sum :=
      accumulateLiveObjectSet_foldl_applyChange hchk (nodup_append.mp hids).1 hmatches fun e he =>
        writesAbove_of_matches (hchk e he) (hmatches e he) (hraises.1 e he)
    have hrest : accumulateLiveObjectSet hash (table.applyAll (fx :: effects)) false = _ :=
      ih hadmits hraises.2
    rw [hrest, ← singleton_append, accumulateEffectsV3_append,
      accumulateEffectsV3_singleton hchk, ← add_assoc,
      ← add_sub_assoc, ← hstep, add_sub_cancel_right]

end Effects

section Epochs

/-- The root hashes of the epochs, and the hashes of the checkpoints of each. -/
structure Node (G : Type) where
  rootStateHashByEpoch : TreeMap ℕ (ℕ × G)
  stateHashByCheckpoint : ℕ → TreeMap ℕ G

def accumulateCheckpoints (history : ℕ → List TransactionEffectsV2) (table : TreeMap ℕ G)
    (checkpoints : List ℕ) : TreeMap ℕ G :=
  checkpoints.foldl (fun table n => (accumulateCheckpoint hash table (history n) n).1) table

/-- Checkpoints and epochs are accumulated in any order. While an epoch waits for the hashes of its
checkpoints, more of them arrive. -/
inductive Run (history : ℕ → List TransactionEffectsV2) (lastCheckpointOf : ℕ → ℕ) : Node G → Prop
  | start : Run history lastCheckpointOf ⟨∅, fun _ => ∅⟩
  | checkpoint {node : Node G} (epoch n : ℕ) : Run history lastCheckpointOf node →
      Run history lastCheckpointOf { node with
        stateHashByCheckpoint := update node.stateHashByCheckpoint epoch
          (accumulateCheckpoint hash (node.stateHashByCheckpoint epoch) (history n) n).1 }
  | epoch {node : Node G} {epoch : ℕ} {arriving : List ℕ} {root : TreeMap ℕ (ℕ × G)} {acc : G} :
      Run history lastCheckpointOf node →
      accumulateEpoch node.rootStateHashByEpoch epoch (lastCheckpointOf epoch)
        (node.stateHashByCheckpoint epoch)
        (accumulateCheckpoints hash history (node.stateHashByCheckpoint epoch) arriving) =
          .ok (some (root, acc)) →
      Run history lastCheckpointOf ⟨root, update node.stateHashByCheckpoint epoch
        (accumulateCheckpoints hash history (node.stateHashByCheckpoint epoch) arriving)⟩

def storeBefore (history : ℕ → List TransactionEffectsV2) (n : ℕ) : ObjectTable :=
  ObjectTable.applyAll ∅ ((List.range n).flatMap history)

variable {history : ℕ → List TransactionEffectsV2} {lastCheckpointOf : ℕ → ℕ} {node : Node G} {hash}

variable (hash history) in
def hashBefore (n : ℕ) : G :=
  ((List.range n).map fun k => accumulateEffectsV3 hash (history k)).sum

lemma accumulateEffectsV3_flatMap (checkpoints : List ℕ) :
    accumulateEffectsV3 hash (checkpoints.flatMap history) =
      (checkpoints.map fun k => accumulateEffectsV3 hash (history k)).sum := by
  induction checkpoints with
  | nil => simp [accumulateEffectsV3, MultisetHash.insertAll, MultisetHash.removeAll]
  | cons k checkpoints ih => rw [flatMap_cons, accumulateEffectsV3_append, ih, map_cons, sum_cons]

variable (hash history) in
def TableOk (table : TreeMap ℕ G) : Prop :=
  ∀ n acc, table[n]? = some acc → acc = accumulateEffectsV3 hash (history n)

variable {table : TreeMap ℕ G}

lemma TableOk.accumulateCheckpoint (h : TableOk hash history table) (n : ℕ) :
    TableOk hash history (accumulateCheckpoint hash table (history n) n).1 := by
  unfold StateAccumulator.accumulateCheckpoint
  cases hn : table[n]? with
  | some acc => exact h
  | none =>
    intro k acc hk
    rcases entry_of_insert hk with ⟨rfl, rfl⟩ | ⟨-, hk⟩
    · rfl
    · exact h k acc hk

lemma TableOk.accumulateCheckpoints (h : TableOk hash history table) (checkpoints : List ℕ) :
    TableOk hash history (accumulateCheckpoints hash history table checkpoints) := by
  unfold StateAccumulator.accumulateCheckpoints
  induction checkpoints generalizing table with
  | nil => exact h
  | cons n checkpoints ih => exact ih (h.accumulateCheckpoint n)

variable (hash history lastCheckpointOf) in
def RootOk (root : TreeMap ℕ (ℕ × G)) : Prop :=
  ∀ epoch checkpoint acc, root[epoch]? = some (checkpoint, acc) →
    checkpoint = lastCheckpointOf epoch ∧ acc = hashBefore hash history (checkpoint + 1)

variable {root : TreeMap ℕ (ℕ × G)}

lemma RootOk.nextToAccumulate (h : RootOk hash history lastCheckpointOf root) :
    (nextToAccumulate root).2 = hashBefore hash history (nextToAccumulate root).1 := by
  unfold StateAccumulator.nextToAccumulate
  cases hlast : lastPair? root with
  | none => rfl
  | some e =>
    obtain ⟨epoch, checkpoint, acc⟩ := e
    exact (h epoch checkpoint acc (lastPair?_eq_some_iff.mp hlast).1).2

omit [AddCommGroup G] in
lemma inRange_append_remaining_perm (ready : TreeMap ℕ G) (next last : ℕ) :
    ((inRange ready next last).map Prod.fst ++ remaining ready next last).Perm
      (List.range' next (last + 1 - next)) := by
  unfold remaining
  have hkeys : (ready.toList.map Prod.fst).Nodup := by
    rw [TreeMap.map_fst_toList_eq_keys]
    exact Std.TreeMap.nodup_keys
  have hnd : ((inRange ready next last).map Prod.fst).Nodup :=
    hkeys.sublist (filter_sublist.map Prod.fst)
  have hin : ∀ n ∈ (inRange ready next last).map Prod.fst, n ∈ List.range' next (last + 1 - next) := by
    intro n hn
    obtain ⟨e, he, rfl⟩ := mem_map.mp hn
    obtain ⟨hge, hle⟩ := of_decide_eq_true (mem_filter.mp he).2
    rw [mem_range'_1]
    omega
  generalize (inRange ready next last).map Prod.fst = numbers at hnd hin
  have hrange : (List.range' next (last + 1 - next)).Nodup := nodup_range'
  rw [perm_ext_iff_of_nodup _ hrange]
  · intro n
    rw [mem_append, mem_filter, decide_eq_true_eq]
    constructor
    · rintro (hn | hn)
      · exact hin n hn
      · exact hn.1
    · intro hn
      by_cases hrdy : n ∈ numbers
      · exact .inl hrdy
      · exact .inr ⟨hn, hrdy⟩
  · rw [nodup_append]
    refine ⟨hnd, hrange.filter _, ?_⟩
    rintro n hn n' hn' rfl
    exact of_decide_eq_true (mem_filter.mp hn').2 hn

lemma hashBefore_add_sum (next last : ℕ) (h : next ≤ last + 1) :
    hashBefore hash history next + ((List.range' next (last + 1 - next)).map fun k =>
      accumulateEffectsV3 hash (history k)).sum =
      hashBefore hash history (last + 1) := by
  unfold hashBefore
  rw [← sum_append, ← map_append, range_eq_range', range_eq_range']
  have happend : List.range' 0 next ++ List.range' next (last + 1 - next) =
      List.range' 0 (last + 1) := by
    have hlen : next + (last + 1 - next) = last + 1 := by omega
    rw [← hlen, ← List.range'_append_1, zero_add, hlen]
  rw [happend]

variable {ready arrived : TreeMap ℕ G} {epoch : ℕ}

lemma RootOk.accumulateEpoch {root' : TreeMap ℕ (ℕ × G)} {acc : G}
    (hroot : RootOk hash history lastCheckpointOf root) (hrdy : TableOk hash history ready)
    (harr : TableOk hash history arrived)
    (h : accumulateEpoch root epoch (lastCheckpointOf epoch) ready arrived = .ok (some (root', acc))) :
    RootOk hash history lastCheckpointOf root' ∧
      acc = hashBefore hash history (lastCheckpointOf epoch + 1) := by
  unfold StateAccumulator.accumulateEpoch at h
  cases hep : root[epoch]? with
  | some e =>
    rw [hep] at h
    obtain ⟨rfl, rfl⟩ := Prod.mk.inj (Option.some.inj (Except.ok.inj h))
    obtain ⟨hlast, hacc⟩ := hroot epoch e.1 e.2 hep
    exact ⟨hroot, hlast ▸ hacc⟩
  | none =>
    rw [hep] at h
    have hst := hroot.nextToAccumulate
    dsimp only at h
    generalize StateAccumulator.nextToAccumulate root = start at h hst
    obtain ⟨next, rootAcc⟩ := start
    dsimp only at h hst
    cases hmap : (remaining ready next (lastCheckpointOf epoch)).mapM fun n => arrived[n]? with
    | none =>
      rw [hmap] at h
      cases h
    | some accs =>
      rw [hmap] at h
      dsimp only at h
      have haccs :=
        eq_map_of_mapM_eq_some (g := fun n => accumulateEffectsV3 hash (history n))
          (fun n a ha => harr n a ha) hmap
      have hvs : (inRange ready next (lastCheckpointOf epoch)).map Prod.snd =
          ((inRange ready next (lastCheckpointOf epoch)).map Prod.fst).map fun n =>
            accumulateEffectsV3 hash (history n) := by
        rw [map_map]
        apply map_congr_left
        intro e he
        exact hrdy e.1 e.2 (TreeMap.mem_toList_iff_getElem?_eq_some.mp (mem_filter.mp he).1)
      have hperm := (inRange_append_remaining_perm ready next (lastCheckpointOf epoch)).map fun n =>
        accumulateEffectsV3 hash (history n)
      rw [haccs, hvs, ← map_append] at h
      rw [hperm.length_eq, length_map, length_range', foldl_union_eq, hperm.sum_eq, hst] at h
      split_ifs at h with hcnt
      have hle : next ≤ lastCheckpointOf epoch + 1 := by omega
      rw [hashBefore_add_sum next _ hle] at h
      obtain ⟨rfl, rfl⟩ := Prod.mk.inj (Option.some.inj (Except.ok.inj h))
      refine ⟨fun epoch' checkpoint acc hget => ?_, rfl⟩
      rcases entry_of_insert hget with ⟨rfl, heq⟩ | ⟨-, hget⟩
      · obtain ⟨rfl, rfl⟩ := Prod.mk.inj heq
        exact ⟨rfl, rfl⟩
      · exact hroot epoch' checkpoint acc hget

lemma Run.ok (hrun : Run hash history lastCheckpointOf node) :
    RootOk hash history lastCheckpointOf node.rootStateHashByEpoch ∧
      ∀ epoch, TableOk hash history (node.stateHashByCheckpoint epoch) := by
  induction hrun with
  | start =>
    constructor
    · intro epoch checkpoint acc h
      simp at h
    · intro epoch n acc h
      simp at h
  | checkpoint epoch n _ ih =>
    refine ⟨ih.1, fun epoch' => ?_⟩
    dsimp only
    by_cases he : epoch' = epoch
    · subst he
      rw [update_self]
      exact (ih.2 epoch').accumulateCheckpoint n
    · rw [update_of_ne he]
      exact ih.2 epoch'
  | @epoch node epoch arriving root acc _ hep ih =>
    refine ⟨(ih.1.accumulateEpoch (ih.2 epoch) ((ih.2 epoch).accumulateCheckpoints arriving) hep).1,
      fun epoch' => ?_⟩
    dsimp only
    by_cases he : epoch' = epoch
    · subst he
      rw [update_self]
      exact (ih.2 epoch').accumulateCheckpoints arriving
    · rw [update_of_ne he]
      exact ih.2 epoch'

lemma RootOk.accumulateEpoch_total
    (hroot : RootOk hash history lastCheckpointOf root) (hmono : Monotone lastCheckpointOf)
    (hle : ∀ e ∈ root, e ≤ epoch)
    (harr : ∀ n ≤ lastCheckpointOf epoch, (∀ e ∈ root, lastCheckpointOf e < n) → n ∈ arrived) :
    ∃ root' acc, StateAccumulator.accumulateEpoch root epoch
      (lastCheckpointOf epoch) ready arrived = .ok (some (root', acc)) := by
  have hnext : (StateAccumulator.nextToAccumulate root).1 ≤ lastCheckpointOf epoch + 1 ∧
      ∀ n, (StateAccumulator.nextToAccumulate root).1 ≤ n → ∀ e ∈ root, lastCheckpointOf e < n := by
    unfold StateAccumulator.nextToAccumulate
    cases hlast : lastPair? root with
    | none => exact ⟨Nat.zero_le _, fun n _ e he => absurd he (lastPair?_eq_none_iff.mp hlast e)⟩
    | some e =>
      obtain ⟨highest, checkpoint, acc⟩ := e
      obtain ⟨hget, hhigh⟩ := lastPair?_eq_some_iff.mp hlast
      obtain ⟨rfl, -⟩ := hroot highest checkpoint acc hget
      dsimp only
      refine ⟨Nat.succ_le_succ (hmono (hle highest (mem_map_iff_exists.mpr ⟨_, hget⟩))),
        fun n hn e he => ?_⟩
      have hmono' := hmono (hhigh e he)
      omega
  unfold StateAccumulator.accumulateEpoch
  cases hep : root[epoch]? with
  | some e => exact ⟨root, e.2, rfl⟩
  | none =>
    generalize StateAccumulator.nextToAccumulate root = start at hnext
    obtain ⟨next, rootAcc⟩ := start
    dsimp only at hnext ⊢
    have hall : ∀ n ∈ remaining ready next (lastCheckpointOf epoch), ∃ acc, arrived[n]? = some acc := by
      intro n hn
      have hrange := mem_range'_1.mp (mem_filter.mp hn).1
      exact mem_map_iff_exists.mp (harr n (by omega) (hnext.2 n hrange.1))
    obtain ⟨accs, haccs, hcnt⟩ := exists_mapM_eq_some hall
    have hlen := (inRange_append_remaining_perm ready next (lastCheckpointOf epoch)).length_eq
    rw [haccs]
    dsimp only
    rw [if_neg]
    · exact ⟨_, _, rfl⟩
    · rw [not_not, length_append, length_map, hcnt]
      rw [length_append, length_map, length_range'] at hlen
      omega

/-- The root hash of an epoch is the hash of the objects that are live after its last checkpoint,
whatever order checkpoints arrive in and whichever epochs are left out; and it is computed as soon
as the hashes of the checkpoints since the last accumulated epoch are there. -/
theorem accumulateEpoch_eq_live (hash : AccumulatorItem → G)
    (history : ℕ → List TransactionEffectsV2) (lastCheckpointOf : ℕ → ℕ) (node : Node G)
    (epoch : ℕ) (arriving : List ℕ) (hadmits : (∅ : ObjectTable).Along Admits
      ((List.range (lastCheckpointOf epoch + 1)).flatMap history))
    (hraises : (∅ : ObjectTable).Along Raises
      ((List.range (lastCheckpointOf epoch + 1)).flatMap history))
    (hrun : Run hash history lastCheckpointOf node) :
    let ready := node.stateHashByCheckpoint epoch
    let arrived := accumulateCheckpoints hash history ready arriving
    (∀ root acc, accumulateEpoch node.rootStateHashByEpoch epoch
      (lastCheckpointOf epoch) ready arrived = .ok (some (root, acc)) →
      acc = accumulateLiveObjectSet hash (storeBefore history (lastCheckpointOf epoch + 1)) false) ∧
    (Monotone lastCheckpointOf → (∀ e ∈ node.rootStateHashByEpoch, e ≤ epoch) →
      (∀ n ≤ lastCheckpointOf epoch, (∀ e ∈ node.rootStateHashByEpoch, lastCheckpointOf e < n) →
        n ∈ arrived) →
      ∃ root acc, accumulateEpoch node.rootStateHashByEpoch epoch
        (lastCheckpointOf epoch) ready arrived = .ok (some (root, acc))) := by
  obtain ⟨hroot, htables⟩ := hrun.ok
  intro ready arrived
  constructor
  · intro root acc h
    unfold storeBefore
    rw [accumulateLiveObjectSet_applyAll hadmits hraises, accumulateEffectsV3_flatMap]
    exact (hroot.accumulateEpoch (htables epoch) ((htables epoch).accumulateCheckpoints arriving)
      h).2.trans (zero_add _).symm
  · intro hmono hle harrived
    exact hroot.accumulateEpoch_total hmono hle harrived

/-- An object is created, written together with a new package, and wrapped; another is unwrapped. -/
def sampleHistory : ℕ → List TransactionEffectsV2
  | 0 => [⟨1, [(5, ⟨.notExist, .objectWrite 7 (.addressOwner 1), .created⟩),
      (6, ⟨.notExist, .notExist, .created⟩)], none, []⟩]
  | 1 => [⟨2, [(5, ⟨.exist 1 7 (.addressOwner 1), .objectWrite 9 (.addressOwner 1), .none⟩),
      (4, ⟨.notExist, .packageWrite 1 3, .created⟩)], none, []⟩,
      ⟨3, [(5, ⟨.exist 2 9 (.addressOwner 1), .notExist, .none⟩),
        (6, ⟨.notExist, .objectWrite 8 (.addressOwner 1), .none⟩)], none, []⟩]
  | _ => []

def plainHash : AccumulatorItem → ℤ
  | .digest digest => digest.val
  | .wrappedObject objectKey => (ofLex objectKey).2

/-- The checkpoints arrive in the wrong order. -/
theorem accumulateEpoch_eq_live_skipped : ∃ root acc,
    accumulateEpoch (∅ : TreeMap ℕ (ℕ × ℤ)) 2 1 ∅
      (accumulateCheckpoints plainHash sampleHistory ∅ [1, 0]) = .ok (some (root, acc)) ∧
      acc = accumulateLiveObjectSet plainHash (storeBefore sampleHistory 2) false ∧ acc = 11 := by
  obtain ⟨hlive, htotal⟩ :=
    accumulateEpoch_eq_live plainHash sampleHistory (fun _ => 1) ⟨∅, fun _ => ∅⟩ 2 [1, 0]
    (by decide +kernel) (by decide +kernel) .start
  have harrived : ∀ n ≤ 1, n ∈ accumulateCheckpoints plainHash sampleHistory ∅ [1, 0] := by
    decide +kernel
  obtain ⟨root, acc, hepoch⟩ :=
    htotal monotone_const (fun e he => by simp at he) (fun n hn _ => harrived n hn)
  refine ⟨root, acc, hepoch, hlive root acc hepoch, ?_⟩
  rw [hlive root acc hepoch]
  decide +kernel

/-- An object is created at version 5, wrapped at version 9, and unwrapped at version 7. -/
def loweredHistory (n : ℕ) : List TransactionEffectsV2 :=
  if n = 0 then
    [⟨5, [(5, ⟨.notExist, .objectWrite 7 (.addressOwner 1), .created⟩)], none, []⟩,
      ⟨9, [(5, ⟨.exist 5 7 (.addressOwner 1), .notExist, .none⟩)], none, []⟩,
      ⟨7, [(5, ⟨.notExist, .objectWrite 8 (.addressOwner 1), .none⟩)], none, []⟩]
  else []

/-- The tombstone of version 9 hides the object that was unwrapped later at a lower version. -/
theorem accumulateEpoch_ne_live_lowered :
    (∅ : ObjectTable).Along Admits ((List.range 1).flatMap loweredHistory) ∧
      (accumulateEpoch (∅ : TreeMap ℕ (ℕ × ℤ)) 0 0 ∅
        (accumulateCheckpoints plainHash loweredHistory ∅ [0])).toOption.map
        (Option.map Prod.snd) = some (some 8) ∧
      accumulateLiveObjectSet plainHash (storeBefore loweredHistory 1) false = 0 :=
  ⟨by decide +kernel, by decide +kernel, by decide +kernel⟩

end Epochs

end StateAccumulator

end SuiProofs.Authority

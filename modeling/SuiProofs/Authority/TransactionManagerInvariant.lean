import SuiProofs.Authority.TransactionManager

namespace SuiProofs.Authority

open Library TransactionManager List Option
open Std (TreeMap TreeSet)

def CacheInner.Knows (c : CacheInner) : InputKey → Prop
  | .versionedObject id version => ∃ current, c.versionedCache.peek id = some current ∧ version ≤ current
  | .package id => (c.unversionedCache.peek id).isSome

/-- The caches differ only in the order of use. -/
structure CacheInner.SameEntries (c c' : CacheInner) : Prop where
  versioned : ∀ id, c'.versionedCache.peek id = c.versionedCache.peek id
  unversioned : ∀ id, c'.unversionedCache.peek id = c.unversionedCache.peek id

namespace CacheInner

variable {c c' c'' : CacheInner} {k : InputKey}

lemma SameEntries.refl (c : CacheInner) : c.SameEntries c := ⟨fun _ => rfl, fun _ => rfl⟩

lemma SameEntries.trans (h : c.SameEntries c') (h' : c'.SameEntries c'') : c.SameEntries c'' :=
  ⟨fun id => (h'.versioned id).trans (h.versioned id), fun id =>
    (h'.unversioned id).trans (h.unversioned id)⟩

lemma SameEntries.knows_iff (h : c.SameEntries c') (k : InputKey) : c'.Knows k ↔ c.Knows k := by
  cases k with
  | versionedObject id version => simp only [Knows, h.versioned]
  | package id => simp only [Knows, h.unversioned]

lemma sameEntries_isObjectAvailable (c : CacheInner) (k : InputKey) :
    c.SameEntries (c.isObjectAvailable k).1 := by
  cases k with
  | versionedObject id version => exact ⟨fun id' => Lru.peek_get .., fun _ => rfl⟩
  | package id => exact ⟨fun _ => rfl, fun id' => Lru.peek_get ..⟩

lemma isObjectAvailable_eq_some_true_iff : (c.isObjectAvailable k).2 = some true ↔ c.Knows k := by
  cases k with
  | versionedObject id version => simp [isObjectAvailable, Knows]
  | package id => simp [isObjectAvailable, Knows, isSome_iff_exists]

lemma peek_insert_versioned (c : CacheInner) (id id' : ObjectId) (version : SequenceNumber) :
    (c.insert (.versionedObject id version)).versionedCache.peek id' =
      if id' = id then some (max ((c.versionedCache.peek id).getD 0) version)
      else c.versionedCache.peek id' := by
  have hpush : c.versionedCache.push id version =
      ((c.versionedCache.push id version).1, (c.versionedCache.peek id).map fun old => (id, old)) := rfl
  rw [insert, hpush]
  cases hold : c.versionedCache.peek id with
  | none => simp [Lru.peek_push]
  | some old =>
    simp only [map_some, true_and, getD_some]
    split_ifs with hlt hid hid <;> simp only [Lru.peek_push, hid, if_true, if_false]
    · rw [max_eq_left hlt.le]
    · rw [max_eq_right (not_lt.mp hlt)]

lemma unversionedCache_insert_versioned (c : CacheInner) (id : ObjectId) (version : SequenceNumber) :
    (c.insert (.versionedObject id version)).unversionedCache = c.unversionedCache := by
  unfold insert
  dsimp only
  split
  · split_ifs <;> rfl
  · rfl

lemma knows_insert_self (c : CacheInner) (k : InputKey) : (c.insert k).Knows k := by
  cases k with
  | versionedObject id version => exact ⟨_, by rw [peek_insert_versioned, if_pos rfl], le_max_right _ _⟩
  | package id =>
    change ((c.unversionedCache.push id ()).1.peek id).isSome
    rw [Lru.peek_push, if_pos rfl]
    rfl

lemma Knows.insert (h : c.Knows k) (key : InputKey) : (c.insert key).Knows k := by
  cases key with
  | versionedObject id version =>
    cases k with
    | versionedObject id' version' =>
      obtain ⟨current, hc, hle⟩ := h
      by_cases hid : id' = id
      · subst hid
        refine ⟨_, by rw [peek_insert_versioned, if_pos rfl], ?_⟩
        rw [hc, getD_some]
        exact hle.trans (le_max_left _ _)
      · exact ⟨current, by rw [peek_insert_versioned, if_neg hid, hc], hle⟩
    | package id' =>
      simp only [Knows, unversionedCache_insert_versioned] at h ⊢
      exact h
  | package id =>
    cases k with
    | versionedObject id' version' => exact h
    | package id' =>
      change ((c.unversionedCache.push id ()).1.peek id').isSome
      rw [Lru.peek_push]
      split_ifs
      · rfl
      · exact h

end CacheInner

/-- A key, or a higher version of the object, was announced. -/
def AnnouncedAtLeast (announced : List InputKey) : InputKey → Prop
  | .versionedObject id version => ∃ v, version ≤ v ∧ .versionedObject id v ∈ announced
  | .package id => .package id ∈ announced

/-- What allows a certificate to go ahead with an input. -/
def Released (announced found : List InputKey) (k : InputKey) : Prop :=
  k.isCancelled ∨ k ∈ found ∨ AnnouncedAtLeast announced k

/-- The entries of the cache: the highest announced version of an object, and known packages. -/
structure CacheInner.Tracks (announced found : List InputKey) (c : CacheInner) : Prop where
  mem : ∀ id current, c.versionedCache.peek id = some current → .versionedObject id current ∈ announced
  highest : ∀ id current v, c.versionedCache.peek id = some current →
    .versionedObject id v ∈ announced → v ≤ current
  package : ∀ id, (c.unversionedCache.peek id).isSome → .package id ∈ announced ∨ .package id ∈ found

/-- A version is announced while a higher one is known only if the cache has an entry for
the object. -/
def AnnouncesInOrder : List InputKey → AvailableObjectsCache → List InputKey → Prop
  | _, _, [] => True
  | announced, cache, k :: keys =>
    (∀ id version v, k = .versionedObject id version → version < v → .versionedObject id v ∈ announced →
      (cache.cache.versionedCache.peek id).isSome) ∧
    AnnouncesInOrder (announced ++ [k]) (cache.insert k) keys

namespace CacheInner.Tracks

variable {announced found : List InputKey} {c c' : CacheInner} {k : InputKey}

section

variable (h : c.Tracks announced found)

include h

lemma released (hk : c.Knows k) : Released announced found k := by
  cases k with
  | versionedObject id version =>
    obtain ⟨current, hc, hle⟩ := hk
    exact .inr (.inr ⟨current, hle, h.mem id current hc⟩)
  | package id => exact .inr ((h.package id hk).symm)

lemma sameEntries (hs : c.SameEntries c') : c'.Tracks announced found where
  mem id current hc := h.mem id current (hs.versioned id ▸ hc)
  highest id current v hc := h.highest id current v (hs.versioned id ▸ hc)
  package id hp := h.package id (hs.unversioned id ▸ hp)

lemma shrink : c.shrink.Tracks announced found where
  mem id current hc := h.mem id current (Lru.peek_of_peek_shrink hc)
  highest id current v hc := h.highest id current v (Lru.peek_of_peek_shrink hc)
  package id hp := by
    obtain ⟨u, hu⟩ := isSome_iff_exists.mp hp
    exact h.package id (by rw [Lru.peek_of_peek_shrink hu]; rfl)

lemma found_append (more : List InputKey) : c.Tracks announced (found ++ more) where
  mem := h.mem
  highest := h.highest
  package id hp := (h.package id hp).imp_right (mem_append_left more)

lemma insert_found (hver : k.version = none) (hk : k ∈ found) :
    (c.insert k).Tracks announced found := by
  cases k with
  | versionedObject id version => cases hver
  | package id =>
    refine ⟨h.mem, h.highest, fun id' hp => ?_⟩
    change ((c.unversionedCache.push id ()).1.peek id').isSome at hp
    rw [Lru.peek_push] at hp
    split_ifs at hp with hid
    · exact .inr (hid ▸ hk)
    · exact h.package id' hp

lemma insert_announced (hord : ∀ id version v, k = .versionedObject id version → version < v →
    .versionedObject id v ∈ announced →
      (c.versionedCache.peek id).isSome) : (c.insert k).Tracks (announced ++ [k]) found := by
  cases k with
  | versionedObject id version =>
    refine ⟨fun id' current hc => ?_, fun id' current v hc hv => ?_, fun id' hp => ?_⟩
    · rw [peek_insert_versioned] at hc
      split_ifs at hc with hid
      · subst hid
        rw [← some.inj hc]
        cases hold : c.versionedCache.peek id' with
        | none => simp
        | some old =>
          rw [getD_some]
          rcases max_cases old version with ⟨hmax, _⟩ | ⟨hmax, _⟩ <;> rw [hmax]
          · exact mem_append_left _ (h.mem id' old hold)
          · exact mem_append_right _ (mem_singleton_self _)
      · exact mem_append_left _ (h.mem id' current hc)
    · rw [peek_insert_versioned] at hc
      rw [mem_append, mem_singleton] at hv
      split_ifs at hc with hid
      · subst hid
        rw [← some.inj hc]
        rcases hv with hv | hv
        · by_contra hgt
          rw [not_le, max_lt_iff] at hgt
          obtain ⟨old, hold⟩ := isSome_iff_exists.mp (hord id' version v rfl hgt.2 hv)
          rw [hold, getD_some] at hgt
          exact absurd (h.highest id' old v hold hv) (not_le.mpr hgt.1)
        · obtain ⟨-, rfl⟩ := InputKey.versionedObject.inj hv
          exact le_max_right _ _
      · rcases hv with hv | hv
        · exact h.highest id' current v hc hv
        · exact absurd (InputKey.versionedObject.inj hv).1 hid
    · rw [unversionedCache_insert_versioned] at hp
      exact (h.package id' hp).imp_left (mem_append_left _)
  | package id =>
    refine ⟨fun id' current hc => mem_append_left _ (h.mem id' current hc),
      fun id' current v hc hv => ?_, fun id' hp => ?_⟩
    · rcases mem_append.mp hv with hv | hv
      · exact h.highest id' current v hc hv
      · cases mem_singleton.mp hv
    · change ((c.unversionedCache.push id ()).1.peek id').isSome at hp
      rw [Lru.peek_push] at hp
      split_ifs at hp with hid
      · exact .inl (mem_append_right _ (by rw [hid]; exact mem_singleton_self _))
      · exact (h.package id' hp).imp_left (mem_append_left _)

end

end CacheInner.Tracks

/-- The maps from keys and objects to waiting certificates, for a relation of who waits for what. -/
structure Indexes (missing : TreeMap InputKey (TreeSet TransactionDigest))
    (inputs : TreeMap ObjectId (List TransactionDigest))
    (W : TransactionDigest → InputKey → Prop) : Prop where
  missing_iff : ∀ k d, Collects missing k d ↔ W d k
  missing_ne : ∀ (k : InputKey) digests, missing[k]? = some digests → ∃ d, d ∈ digests
  queued_iff : ∀ id d, Collects inputs id d ↔ ∃ k, k.id = id ∧ W d k
  queued_nodup : ∀ (id : ObjectId) txns, inputs[id]? = some txns → txns.Nodup

variable {missing : TreeMap InputKey (TreeSet TransactionDigest)}
  {inputs : TreeMap ObjectId (List TransactionDigest)} {W W' : TransactionDigest → InputKey → Prop}

lemma Indexes.congr (h : Indexes missing inputs W) (hiff : ∀ d k, W d k ↔ W' d k) :
    Indexes missing inputs W' := by
  have he : W = W' := by
    ext d k
    exact hiff d k
  exact he ▸ h

def Inner.Waits (inner : Inner) (d : TransactionDigest) (k : InputKey) : Prop :=
  ∃ pc, inner.pendingCertificates[d]? = some pc ∧ k ∈ pc.waitingInputObjects

variable {digests : List TransactionDigest}

lemma removeWaiting_total {txns : List TransactionDigest} (htxns : txns.Nodup) (hdigs : digests.Nodup)
    (hsub : ∀ d ∈ digests, d ∈ txns) : ∃ out, removeWaiting txns digests = .ok out ∧ out.Nodup ∧
      ∀ d, d ∈ out ↔ d ∈ txns ∧ d ∉ digests := by
  induction digests generalizing txns with
  | nil => exact ⟨txns, rfl, htxns, by simp⟩
  | cons digest digests ih =>
    rw [nodup_cons] at hdigs
    obtain ⟨out, hok, hnd, hmem⟩ := ih (htxns.erase digest) hdigs.2 (by
      intro d hd
      rw [htxns.mem_erase_iff]
      exact ⟨fun he => hdigs.1 (he ▸ hd), hsub d (mem_cons_of_mem digest hd)⟩)
    refine ⟨out, by rw [removeWaiting, if_pos (hsub digest mem_cons_self), hok], hnd, fun d => ?_⟩
    rw [hmem, htxns.mem_erase_iff, mem_cons, not_or]
    tauto

def PendingCertificate.release (pc : PendingCertificate) (k : InputKey) : PendingCertificate :=
  { pc with waitingInputObjects := pc.waitingInputObjects.erase k }

/-- The pending certificates after a key was taken from some of them. -/
def afterRelease (pending : TreeMap TransactionDigest PendingCertificate) (k : InputKey)
    (done : List TransactionDigest) (d : TransactionDigest) : Option PendingCertificate :=
  if d ∈ done then
    (pending[d]?).bind fun pc =>
      if (pc.release k).waitingInputObjects.isEmpty then none else some (pc.release k)
  else pending[d]?

def readyAfter (pending : TreeMap TransactionDigest PendingCertificate) (k : InputKey)
    (done : List TransactionDigest) :
    List PendingCertificate :=
  done.filterMap fun d => (pending[d]?).bind fun pc =>
    if (pc.release k).waitingInputObjects.isEmpty then some (pc.release k) else none

variable {inner : Inner} {k : InputKey}

lemma releaseKey_eq {ready : List PendingCertificate} {digest : TransactionDigest}
    {pc : PendingCertificate} (hget : inner.pendingCertificates[digest]? = some pc)
    (hk : k ∈ pc.waitingInputObjects) :
    releaseKey k (inner, ready) digest = .ok (if (pc.release k).waitingInputObjects.isEmpty then
      ({ inner with pendingCertificates := inner.pendingCertificates.erase digest },
        ready ++ [pc.release k])
      else ({ inner with
        pendingCertificates :=
        inner.pendingCertificates.insert digest (pc.release k) }, ready)) := by
  rw [releaseKey, hget]
  dsimp only
  rw [if_pos hk]
  change (if (pc.release k).waitingInputObjects.isEmpty = true then _ else _) = _
  split_ifs <;> rfl

lemma foldlM_releaseKey (inner : Inner) (hnd : digests.Nodup)
    (hwt : ∀ d ∈ digests, inner.Waits d k) :
    ∃ pending, digests.foldlM (releaseKey k) (inner, []) =
        .ok ({ inner with pendingCertificates := pending },
          readyAfter inner.pendingCertificates k digests) ∧
      ∀ d : TransactionDigest, pending[d]? = afterRelease inner.pendingCertificates k digests d := by
  obtain ⟨⟨inner', ready⟩, hok, hinner, hrdy, hpend⟩ := foldlM_total_of_prefix
    (f := releaseKey k) (l := digests) (b := (inner, []))
    (fun done (state : Inner × List PendingCertificate) =>
      state.1 = { inner with pendingCertificates := state.1.pendingCertificates } ∧
      state.2 = readyAfter inner.pendingCertificates k done ∧
      ∀ d : TransactionDigest, state.1.pendingCertificates[d]? =
        afterRelease inner.pendingCertificates k done d) (by
      rintro done digest ⟨inner', ready⟩ hpre ⟨hinner, hrdy, hpend⟩
      have hnew : digest ∉ done := fun hd => rel_of_prefix hnd hpre hd rfl
      obtain ⟨pc, hpc, hk⟩ := hwt digest (hpre.subset (by simp))
      have hget : inner'.pendingCertificates[digest]? = some pc := by
        have hget := hpend digest
        rwa [afterRelease, if_neg hnew, hpc] at hget
      have haft : ∀ d, afterRelease inner.pendingCertificates k (done ++ [digest]) d = if digest = d then
          (if (pc.release k).waitingInputObjects.isEmpty then none else some (pc.release k))
          else afterRelease inner.pendingCertificates k done d := by
        intro d
        by_cases hd : digest = d
        · subst hd
          simp [afterRelease, hpc]
        · simp [afterRelease, hd, Ne.symm hd]
      have hlist : readyAfter inner.pendingCertificates k (done ++ [digest]) = ready ++
          if (pc.release k).waitingInputObjects.isEmpty then [pc.release k] else [] := by
        rw [show ready = readyAfter inner.pendingCertificates k done from hrdy]
        unfold readyAfter
        by_cases hemp : (pc.release k).waitingInputObjects.isEmpty = true <;> simp [hpc, hemp]
      rw [releaseKey_eq hget hk]
      by_cases hemp : (pc.release k).waitingInputObjects.isEmpty = true
      · rw [if_pos hemp] at hlist ⊢
        refine ⟨_, rfl, ?_, hlist.symm, fun d => ?_⟩
        · rw [show inner' = _ from hinner]
        · rw [haft, if_pos hemp, getElem?_erase_ite, ← hpend d]
      · rw [if_neg hemp] at hlist ⊢
        refine ⟨_, rfl, ?_, by rw [hlist, append_nil], fun d => ?_⟩
        · rw [show inner' = _ from hinner]
        · rw [haft, if_neg hemp, getElem?_insert_ite, ← hpend d])
            ⟨rfl, rfl, fun d => by simp [afterRelease]⟩
  dsimp only at hinner hrdy hpend
  refine ⟨inner'.pendingCertificates, ?_, hpend⟩
  rw [hok, ← hinner, hrdy]

/-- Announcing a key takes it from every certificate that waits for it, in all maps. -/
lemma takeReady_total (h : Indexes inner.missingInputs inner.inputObjects inner.Waits)
    (hids : ∀ d k k', inner.Waits d k → inner.Waits d k' → k.id = k'.id → k = k') (k : InputKey) :
    ∃ inner' digests, takeReady inner k = .ok (inner', readyAfter inner.pendingCertificates k digests) ∧
      digests.Nodup ∧ (∀ d, d ∈ digests ↔ inner.Waits d k) ∧ inner'.epoch = inner.epoch ∧
      inner'.executingCertificates = inner.executingCertificates ∧
      inner'.availableObjectsCache = inner.availableObjectsCache ∧
      Indexes inner'.missingInputs inner'.inputObjects (fun d k' => inner.Waits d k' ∧ k' ≠ k) ∧
      ∀ d : TransactionDigest, inner'.pendingCertificates[d]? =
        afterRelease inner.pendingCertificates k digests d := by
  unfold takeReady
  cases hget : inner.missingInputs[k]? with
  | none =>
    have hnone : ∀ d, ¬ inner.Waits d k := fun d => by simp [← h.missing_iff, Collects, hget]
    refine ⟨inner, [], rfl, nodup_nil, fun d => by simp [hnone d], rfl, rfl, rfl, h.congr fun d k' => ?_,
      fun d => by simp [afterRelease]⟩
    exact (and_iff_left_of_imp fun hd (he : k' = k) => hnone d (he ▸ hd)).symm
  | some digests =>
    have hlist : ∀ d, d ∈ digests.toList ↔ inner.Waits d k := fun d => by
      rw [TreeSet.mem_toList, ← h.missing_iff, collects_iff_mem hget]
    -- The queue of the object exists, as some digest waits for the key.
    obtain ⟨d₀, hd₀⟩ := h.missing_ne k digests hget
    obtain ⟨txns, htxns, _⟩ :=
      (h.queued_iff k.id d₀).mpr ⟨k, rfl, (hlist d₀).mp (TreeSet.mem_toList.mpr hd₀)⟩
    have hqueued : ∀ d, d ∈ txns ↔ ∃ k', k'.id = k.id ∧ inner.Waits d k' := fun d => by
      rw [← h.queued_iff, collects_iff_mem htxns]
    obtain ⟨left, hleft, hleftNodup, hleftMem⟩ :=
      removeWaiting_total (h.queued_nodup k.id txns htxns) nodup_toList
      fun d hd => (hqueued d).mpr ⟨k, rfl, (hlist d).mp hd⟩
    let inner₂ : Inner := { inner with
      missingInputs := inner.missingInputs.erase k
      inputObjects := if left.isEmpty then inner.inputObjects.erase k.id
        else inner.inputObjects.insert k.id left }
    obtain ⟨pending, hfold, haft⟩ := foldlM_releaseKey inner₂ nodup_toList fun d hd => (hlist d).mp hd
    refine ⟨{ inner₂ with pendingCertificates := pending }, digests.toList, ?_, nodup_toList, hlist,
      rfl, rfl, rfl,
      ⟨fun k' d => ?_, fun k' digests' hget' => ?_, fun id d => ?_, fun id txns' hget' => ?_⟩, haft⟩
    · rw [htxns]
      dsimp only
      rw [hleft, ok_bind]
      exact hfold
    · rw [collects_erase, h.missing_iff, and_comm, ne_comm]
    · exact h.missing_ne k' digests' (entry_of_erase hget').2
    · have hinputs : Collects inner₂.inputObjects id d ↔
          if k.id = id then d ∈ left else Collects inner.inputObjects id d := by
        by_cases hemp : left = []
        · by_cases hid : k.id = id <;> simp [inner₂, hemp, hid, collects_erase]
        · simp [inner₂, hemp, collects_insert]
      rw [hinputs]
      split_ifs with hid
      · subst hid
        rw [hleftMem, hqueued, hlist]
        constructor
        · rintro ⟨⟨k', hid, hd⟩, hnot⟩
          exact ⟨k', hid, hd, fun he => hnot (he ▸ hd)⟩
        · rintro ⟨k', hid, hd, hne⟩
          exact ⟨⟨k', hid, hd⟩, fun hk => hne (hids d k' k hd hk hid)⟩
      · rw [h.queued_iff]
        refine exists_congr fun k' => and_congr_right fun hk' => (and_iff_left fun he => hid ?_).symm
        rw [← he, hk']
    · change (if left.isEmpty = true then _ else _)[id]? = _ at hget'
      split_ifs at hget'
      · exact h.queued_nodup id txns' (entry_of_erase hget').2
      · rcases entry_of_insert hget' with ⟨-, rfl⟩ | ⟨-, hget'⟩
        · exact hleftNodup
        · exact h.queued_nodup id txns' hget'

/-- A certificate whose inputs are released, except for the keys it waits for. -/
structure PendingCertificate.Tracked (es : EpochStore) (released waitsFor : InputKey → Prop)
    (pc : PendingCertificate) : Prop where
  keys : ∃ keys, es.inputKeys pc.certificate = some keys ∧
    ∀ k ∈ keys, k ∈ pc.waitingInputObjects ∨ released k
  ids : DistinctIds pc.waitingInputObjects
  waits : ∀ k ∈ pc.waitingInputObjects, waitsFor k

/-- The maps of the manager agree, a certificate is sent once and only with released inputs. -/
structure TransactionManager.Tracked (es : EpochStore) (released waitsFor : InputKey → Prop)
    (executed : Finset TransactionDigest) (tm : TransactionManager) : Prop where
  epoch_eq : tm.inner.epoch = es.epoch
  indexes : Indexes tm.inner.missingInputs tm.inner.inputObjects tm.inner.Waits
  pending : ∀ (d : TransactionDigest) pc, tm.inner.pendingCertificates[d]? = some pc →
    pc.certificate.digest = d ∧ (∃ k, k ∈ pc.waitingInputObjects) ∧ pc.Tracked es released waitsFor
  executing : ∀ d ∈ tm.inner.executingCertificates, tm.inner.pendingCertificates[d]? = none ∧
    ∃ pc ∈ tm.txReadyCertificates, pc.certificate.digest = d
  sent : ∀ pc ∈ tm.txReadyCertificates,
    ∃ keys, es.inputKeys pc.certificate = some keys ∧ ∀ k ∈ keys, released k
  sent_nodup : (tm.txReadyCertificates.map fun pc => pc.certificate.digest).Nodup
  sent_pending :
    ∀ pc ∈ tm.txReadyCertificates, tm.inner.pendingCertificates[pc.certificate.digest]? = none
  sent_executing : ∀ pc ∈ tm.txReadyCertificates,
    pc.certificate.digest ∈ tm.inner.executingCertificates ∨ pc.certificate.digest ∈ executed

def TransactionManager.Keeps (tm : TransactionManager) (d : TransactionDigest) : Prop :=
  (tm.inner.pendingCertificates[d]?).isSome ∨ ∃ pc ∈ tm.txReadyCertificates, pc.certificate.digest = d

section Manager

variable {es : EpochStore} {released waitsFor released' waitsFor' : InputKey → Prop}
  {executed executed' : Finset TransactionDigest} {tm : TransactionManager}
  {pc : PendingCertificate} {k : InputKey}

lemma PendingCertificate.mem_release {k' : InputKey} :
    k' ∈ (pc.release k).waitingInputObjects ↔ k' ∈ pc.waitingInputObjects ∧ k' ≠ k := by
  rw [release, TreeSet.mem_erase, Ne, compare_eq_iff_eq, and_comm, ne_comm]

variable {inner : Inner}

lemma waits_afterRelease {inner' : Inner} (hdigs : ∀ d, d ∈ digests ↔ inner.Waits d k)
    (haft : ∀ d : TransactionDigest, inner'.pendingCertificates[d]? =
      afterRelease inner.pendingCertificates k digests d)
    (d : TransactionDigest) (k' : InputKey) : inner'.Waits d k' ↔ inner.Waits d k' ∧ k' ≠ k := by
  unfold Inner.Waits
  rw [haft, afterRelease]
  by_cases hd : d ∈ digests
  · obtain ⟨pc, hpc, hk⟩ := (hdigs d).mp hd
    rw [if_pos hd, hpc]
    simp only [bind_some, some.injEq, exists_eq_left']
    rw [← PendingCertificate.mem_release]
    split_ifs with hemp
    · simp [TreeSet.isEmpty_iff_forall_not_mem.mp hemp]
    · simp
  · rw [if_neg hd]
    refine (and_iff_left_of_imp ?_).symm
    rintro ⟨pc, hpc, hk'⟩ rfl
    exact hd ((hdigs d).mpr ⟨pc, hpc, hk'⟩)

variable {pending : TreeMap TransactionDigest PendingCertificate} {done : List TransactionDigest}

lemma mem_readyAfter
    : pc ∈ readyAfter pending k done ↔
      ∃ d ∈ done, ∃ pc₀, pending[d]? = some pc₀ ∧
        (pc₀.release k).waitingInputObjects.isEmpty = true ∧ pc = pc₀.release k := by
  simp only [readyAfter, mem_filterMap, bind_eq_some_iff, ite_none_right_eq_some, some.injEq,
    eq_comm (a := pc)]

lemma map_digest_readyAfter
    (hnd : done.Nodup)
    (hdig : ∀ (d : TransactionDigest) pc, pending[d]? = some pc → pc.certificate.digest = d) :
    ((readyAfter pending k done).map fun pc => pc.certificate.digest).Nodup := by
  rw [readyAfter, map_filterMap]
  refine hnd.filterMap fun d d' digest hd hd' => ?_
  simp only [mem_def, map_eq_some_iff, bind_eq_some_iff, ite_none_right_eq_some,
    some.injEq] at hd hd'
  obtain ⟨_, ⟨pc, hpc, _, rfl⟩, rfl⟩ := hd
  obtain ⟨_, ⟨pc', hpc', _, rfl⟩, hdigs⟩ := hd'
  rw [← hdig d pc hpc, ← hdig d' pc' hpc']
  exact hdigs.symm

section

variable (h : pc.Tracked es released waitsFor)

include h

lemma PendingCertificate.Tracked.release (hk : released' k) (hrel : ∀ k', released k' → released' k')
    (hwt : ∀ k', k' ≠ k → waitsFor k' → waitsFor' k') :
    (pc.release k).Tracked es released' waitsFor' where
  keys := by
    obtain ⟨keys, hkeys, hall⟩ := h.keys
    refine ⟨keys, hkeys, fun k' hk' => ?_⟩
    by_cases he : k' = k
    · exact .inr (he ▸ hk)
    · exact (hall k' hk').imp (fun hin => mem_release.mpr ⟨hin, he⟩) (hrel k')
  ids k₁ hk₁ k₂ hk₂ := h.ids k₁ (mem_release.mp hk₁).1 k₂ (mem_release.mp hk₂).1
  waits k' hk' := hwt k' (mem_release.mp hk').2 (h.waits k' (mem_release.mp hk').1)

lemma PendingCertificate.Tracked.weaken
    (hrel : ∀ k, released k → released' k)
    (hwt : ∀ k ∈ pc.waitingInputObjects, waitsFor k → waitsFor' k) :
    pc.Tracked es released' waitsFor' where
  keys := by
    obtain ⟨keys, hkeys, hall⟩ := h.keys
    exact ⟨keys, hkeys, fun k hk => (hall k hk).imp_right (hrel k)⟩
  ids := h.ids
  waits k hk := hwt k hk (h.waits k hk)

lemma PendingCertificate.Tracked.released_of_isEmpty (hemp : pc.waitingInputObjects.isEmpty = true) :
    ∃ keys, es.inputKeys pc.certificate = some keys ∧ ∀ k ∈ keys, released k := by
  obtain ⟨keys, hkeys, hall⟩ := h.keys
  refine ⟨keys, hkeys, fun k hk => (hall k hk).resolve_left ?_⟩
  exact TreeSet.isEmpty_iff_forall_not_mem.mp hemp k

end

namespace TransactionManager.Tracked

section

variable (h : tm.Tracked es released waitsFor executed)

include h

lemma certificateReady (hpc : pc.Tracked es released waitsFor)
    (hemp : pc.waitingInputObjects.isEmpty = true)
    (hnew : tm.inner.pendingCertificates[pc.certificate.digest]? = none)
    (hsent : pc.certificate.digest ∉ tm.txReadyCertificates.map fun pc => pc.certificate.digest) :
    ∃ executing, TransactionManager.certificateReady tm pc =
        .ok ⟨{ tm.inner with executingCertificates := executing }, tm.txReadyCertificates ++ [pc]⟩ ∧
      TransactionManager.Tracked es released waitsFor executed
        ⟨{ tm.inner with executingCertificates := executing }, tm.txReadyCertificates ++ [pc]⟩ := by
  have hidle : pc.certificate.digest ∉ tm.inner.executingCertificates := by
    intro hin
    obtain ⟨-, pc', hpc', hd⟩ := h.executing _ hin
    exact hsent (mem_map.mpr ⟨pc', hpc', hd⟩)
  refine ⟨tm.inner.executingCertificates.insert pc.certificate.digest, ?_, ?_⟩
  · unfold TransactionManager.certificateReady
    rw [hemp]
    exact if_neg hidle
  · constructor
    · exact h.epoch_eq
    · exact h.indexes
    · exact h.pending
    · intro d hd
      rcases TreeSet.mem_insert.mp hd with hd | hd
      · rw [compare_eq_iff_eq] at hd
        subst hd
        exact ⟨hnew, pc, by simp, rfl⟩
      · obtain ⟨hpend, pc', hpc', hd'⟩ := h.executing d hd
        exact ⟨hpend, pc', mem_append_left _ hpc', hd'⟩
    · exact forall_mem_concat h.sent (hpc.released_of_isEmpty hemp)
    · rw [map_append, map_singleton, ← concat_eq_append]
      exact h.sent_nodup.concat hsent
    · exact forall_mem_concat h.sent_pending hnew
    · refine forall_mem_concat (fun pc' hpc' => ?_) (.inl TreeSet.mem_insert_self)
      exact (h.sent_executing pc' hpc').imp_left fun hin => TreeSet.mem_insert.mpr (.inr hin)

lemma foldlM_certificateReady (ready : List PendingCertificate)
    (hrdy : ∀ pc ∈ ready, pc.Tracked es released waitsFor ∧ pc.waitingInputObjects.isEmpty = true ∧
      tm.inner.pendingCertificates[pc.certificate.digest]? = none)
    (hnd : ((tm.txReadyCertificates ++ ready).map fun pc => pc.certificate.digest).Nodup) :
    ∃ executing, ready.foldlM TransactionManager.certificateReady tm =
        .ok ⟨{ tm.inner with executingCertificates := executing }, tm.txReadyCertificates ++ ready⟩ ∧
      TransactionManager.Tracked es released waitsFor executed
        ⟨{ tm.inner with executingCertificates := executing }, tm.txReadyCertificates ++ ready⟩ := by
  induction ready generalizing tm with
  | nil => exact ⟨tm.inner.executingCertificates, by simp, by simpa using h⟩
  | cons pc ready ih =>
    rw [← singleton_append, ← append_assoc] at hnd ⊢
    have hsent : pc.certificate.digest ∉ tm.txReadyCertificates.map fun pc => pc.certificate.digest := by
      rw [map_append, nodup_append, map_append, nodup_append] at hnd
      exact fun hin => hnd.1.2.2 _ hin _ (mem_singleton_self _) rfl
    obtain ⟨hpc, hemp, hnew⟩ := hrdy pc mem_cons_self
    obtain ⟨executing₁, hstep, h₁⟩ := h.certificateReady hpc hemp hnew hsent
    obtain ⟨executing, hok, hh⟩ := ih h₁ (fun pc' hpc' => hrdy pc' (mem_cons_of_mem pc hpc')) hnd
    refine ⟨executing, ?_, hh⟩
    rw [singleton_append, foldlM_cons, hstep, ok_bind, hok]

lemma objectAvailable (hk : released' k)
    (hrel : ∀ k', released k' → released' k') (hwt : ∀ k', k' ≠ k → waitsFor k' → waitsFor' k') :
    ∃ tm', TransactionManager.objectAvailable true tm k = .ok tm' ∧
      tm'.Tracked es released' waitsFor' executed ∧
      tm'.inner.availableObjectsCache = tm.inner.availableObjectsCache.insert k ∧
        ∀ d, tm.Keeps d → tm'.Keeps d := by
  let inner₁ : Inner :=
    { tm.inner with availableObjectsCache := tm.inner.availableObjectsCache.insert k }
  have hids : ∀ d k k', tm.inner.Waits d k → tm.inner.Waits d k' → k.id = k'.id → k = k' := by
    rintro d k₁ k₂ ⟨pc, hpc, hk₁⟩ ⟨pc', hpc', hk₂⟩
    rw [hpc, some.injEq] at hpc'
    subst hpc'
    exact (h.pending d pc hpc).2.2.ids k₁ hk₁ k₂ hk₂
  obtain ⟨inner₂, digests, htake, hnd, hdigs, hep, hexing, hcache, hidxs, haft⟩ :=
    @takeReady_total inner₁ h.indexes hids k
  have hwt₂ := waits_afterRelease hdigs haft
  have hnone : ∀ d : TransactionDigest, tm.inner.pendingCertificates[d]? = none →
      inner₂.pendingCertificates[d]? = none := by
    intro d hd
    rw [haft, afterRelease]
    rw [hd]
    split_ifs <;> rfl
  have hdig : ∀ (d : TransactionDigest) pc, tm.inner.pendingCertificates[d]? = some pc →
      pc.certificate.digest = d :=
    fun d pc hpc => (h.pending d pc hpc).1
  have h₂ : TransactionManager.Tracked es released' waitsFor' executed
      ⟨inner₂, tm.txReadyCertificates⟩ := by
    constructor
    · exact hep.trans h.epoch_eq
    · exact hidxs.congr fun d k' => (hwt₂ d k').symm
    · intro d pc hpc
      have hget := haft d
      rw [hpc, afterRelease] at hget
      split_ifs at hget with hd
      · obtain ⟨pc₀, hpc₀, hrelease⟩ := bind_eq_some_iff.mp hget.symm
        split_ifs at hrelease with hemp₀
        rw [← some.inj hrelease]
        obtain ⟨hd₀, -, htrack⟩ := h.pending d pc₀ hpc₀
        have hne := TreeSet.isEmpty_eq_false_iff_exists_mem.mp (Bool.not_eq_true _ ▸ hemp₀)
        exact ⟨hd₀, hne, htrack.release hk hrel hwt⟩
      · obtain ⟨hd₀, hne, htrack⟩ := h.pending d pc hget.symm
        refine ⟨hd₀, hne, htrack.weaken hrel fun k' hk' => hwt k' ?_⟩
        rintro rfl
        exact hd ((hdigs d).mpr ⟨pc, hget.symm, hk'⟩)
    · intro d hd
      obtain ⟨hpend, hin⟩ := h.executing d (hexing ▸ hd)
      exact ⟨hnone d hpend, hin⟩
    · intro pc hpc
      obtain ⟨keys, hkeys, hall⟩ := h.sent pc hpc
      exact ⟨keys, hkeys, fun k' hk' => hrel k' (hall k' hk')⟩
    · exact h.sent_nodup
    · exact fun pc hpc => hnone _ (h.sent_pending pc hpc)
    · intro pc hpc
      rw [hexing]
      exact h.sent_executing pc hpc
  -- A certificate that becomes ready was pending, so it was not sent.
  obtain ⟨executing, hfold, htrack⟩ :=
    h₂.foldlM_certificateReady (readyAfter tm.inner.pendingCertificates k digests)
    (by
      intro pc hpc
      obtain ⟨d, hd, pc₀, hpc₀, hemp, rfl⟩ := mem_readyAfter.mp hpc
      refine ⟨(h.pending d pc₀ hpc₀).2.2.release hk hrel hwt, hemp, ?_⟩
      change inner₂.pendingCertificates[pc₀.certificate.digest]? = none
      rw [hdig d pc₀ hpc₀, haft, afterRelease, if_pos hd]
      rw [hpc₀, bind_some, if_pos hemp])
    (by
      rw [map_append, nodup_append]
      refine ⟨h.sent_nodup, map_digest_readyAfter hnd hdig, ?_⟩
      rintro d hd _ hd' rfl
      obtain ⟨pc, hpc, rfl⟩ := mem_map.mp hd
      obtain ⟨pc', hpc', hpc'd⟩ := mem_map.mp hd'
      obtain ⟨d, -, pc₀, hpc₀, -, rfl⟩ := mem_readyAfter.mp hpc'
      have hnone := h.sent_pending pc hpc
      rw [← hpc'd, show (pc₀.release k).certificate.digest = d from hdig d pc₀ hpc₀, hpc₀] at hnone
      cases hnone)
  refine ⟨_, ?_, htrack, hcache, ?_⟩
  · unfold TransactionManager.objectAvailable findReadyTransactions
    rw [if_pos rfl, htake, ok_bind]
    exact hfold
  · rintro d (hd | ⟨pc, hpc, rfl⟩)
    · obtain ⟨pc, hpc⟩ := isSome_iff_exists.mp hd
      by_cases hd' : d ∈ digests
      · by_cases hemp₀ : (pc.release k).waitingInputObjects.isEmpty = true
        · exact .inr ⟨_, mem_append_right _ (mem_readyAfter.mpr ⟨d, hd', pc, hpc, hemp₀, rfl⟩),
            hdig d pc hpc⟩
        · left
          rw [haft, afterRelease, if_pos hd']
          rw [hpc, bind_some, if_neg hemp₀]
          rfl
      · left
        rw [haft, afterRelease, if_neg hd']
        exact hd
    · exact .inr ⟨pc, mem_append_left _ hpc, rfl⟩

lemma committed {digest : TransactionDigest} (hdig : digest ∈ executed) :
    TransactionManager.Tracked es released waitsFor executed
      { tm with inner := { tm.inner with
        executingCertificates := tm.inner.executingCertificates.erase digest } } where
  epoch_eq := h.epoch_eq
  indexes := h.indexes
  pending := h.pending
  executing d hd := h.executing d (TreeSet.mem_of_mem_erase hd)
  sent := h.sent
  sent_nodup := h.sent_nodup
  sent_pending := h.sent_pending
  sent_executing pc hpc := by
    rcases h.sent_executing pc hpc with hin | hin
    · by_cases hd : digest = pc.certificate.digest
      · exact .inr (hd ▸ hdig)
      · exact .inl (TreeSet.mem_erase.mpr ⟨compare_eq_iff_eq.not.mpr hd, hin⟩)
    · exact .inr hin

lemma weaken (hrel : ∀ k, released k → released' k)
    (hwt : ∀ k, waitsFor k → waitsFor' k) (hexed : executed ⊆ executed') :
    tm.Tracked es released' waitsFor' executed' where
  epoch_eq := h.epoch_eq
  indexes := h.indexes
  pending d pc hpc := by
    obtain ⟨hd, hne, htrack⟩ := h.pending d pc hpc
    exact ⟨hd, hne, htrack.weaken hrel fun k _ => hwt k⟩
  executing := h.executing
  sent pc hpc := by
    obtain ⟨keys, hkeys, hall⟩ := h.sent pc hpc
    exact ⟨keys, hkeys, fun k hk => hrel k (hall k hk)⟩
  sent_nodup := h.sent_nodup
  sent_pending := h.sent_pending
  sent_executing pc hpc := (h.sent_executing pc hpc).imp_right fun hin => hexed hin

lemma withCache (cache : AvailableObjectsCache) :
    TransactionManager.Tracked es released waitsFor executed
      { tm with inner := { tm.inner with availableObjectsCache := cache } } :=
  ⟨h.epoch_eq, h.indexes, h.pending, h.executing, h.sent, h.sent_nodup, h.sent_pending, h.sent_executing⟩

end

end TransactionManager.Tracked

variable {objectAvailability : ObjectAvailability} {digest : TransactionDigest}

lemma waitForKey_missing (h : Indexes inner.missingInputs inner.inputObjects W)
    {key : InputKey} (waiting : TreeSet InputKey)
    (hkey : objectAvailability.lookup key = some (some false)) (hnew : ¬ W digest key) :
    ∃ missing inputs, waitForKey objectAvailability digest (inner, waiting) key =
        .ok ({ inner with missingInputs := missing, inputObjects := inputs }, waiting.insert key) ∧
      Indexes missing inputs (fun d k => W d k ∨ d = digest ∧ k = key) := by
  let digests := (inner.missingInputs[key]?).getD ∅
  let txns := (inner.inputObjects[key.id]?).getD []
  have hdigs : ∀ d, d ∈ digests ↔ W d key := fun d => by
    rw [← h.missing_iff, collects_iff_mem_getD TreeSet.not_mem_emptyc]
  have htxns : ∀ d, d ∈ txns ↔ ∃ k, k.id = key.id ∧ W d k := fun d => by
    rw [← h.queued_iff, collects_iff_mem_getD not_mem_nil]
  have htxnsNodup : txns.Nodup := by
    cases hget : inner.inputObjects[key.id]? with
    | none => simp [txns, hget]
    | some ds => simpa [txns, hget] using h.queued_nodup key.id ds hget
  let txns' := if digest ∈ txns then txns else txns ++ [digest]
  have htxns' : (∀ d, d ∈ txns' ↔ d ∈ txns ∨ d = digest) ∧ txns'.Nodup := by
    by_cases hd : digest ∈ txns
    · simp only [txns', if_pos hd]
      exact ⟨fun d => (or_iff_left_of_imp fun he => he ▸ hd).symm, htxnsNodup⟩
    · simp only [txns', if_neg hd]
      refine ⟨by simp, ?_⟩
      rw [← concat_eq_append]
      exact htxnsNodup.concat hd
  refine ⟨inner.missingInputs.insert key (digests.insert digest),
    inner.inputObjects.insert key.id txns', ?_,
    fun k d => ?_, fun k ds hget => ?_, fun id d => ?_, fun id ds hget => ?_⟩
  · rw [waitForKey, hkey]
    exact if_neg ((hdigs digest).not.mpr hnew)
  · rw [collects_insert]
    split_ifs with hk
    · subst hk
      rw [TreeSet.mem_insert, compare_eq_iff_eq, hdigs]
      tauto
    · rw [h.missing_iff]
      exact (or_iff_left fun he => hk he.2.symm).symm
  · rcases entry_of_insert hget with ⟨-, rfl⟩ | ⟨-, hget⟩
    · exact ⟨digest, by simp⟩
    · exact h.missing_ne k ds hget
  · rw [collects_insert]
    split_ifs with hid
    · subst hid
      rw [htxns'.1, htxns]
      constructor
      · rintro (⟨k, hk, hw⟩ | rfl)
        · exact ⟨k, hk, .inl hw⟩
        · exact ⟨key, rfl, .inr ⟨rfl, rfl⟩⟩
      · rintro ⟨k, hk, hw | ⟨rfl, rfl⟩⟩
        · exact .inl ⟨k, hk, hw⟩
        · exact .inr rfl
    · rw [h.queued_iff]
      refine exists_congr fun k => and_congr_right fun hk => (or_iff_left fun he => hid ?_).symm
      rw [← he.2, hk]
  · rcases entry_of_insert hget with ⟨-, rfl⟩ | ⟨-, hget⟩
    · exact htxns'.2
    · exact h.queued_nodup id ds hget

lemma foldlM_waitForKey (h : Indexes inner.missingInputs inner.inputObjects inner.Waits)
    {keys : List InputKey} (hkeys : keys.Nodup)
    (hkn : ∀ k ∈ keys, ∃ available, objectAvailability.lookup k = some (some available))
    (hnew : inner.pendingCertificates[digest]? = none) :
    ∃ missing inputs waiting, keys.foldlM (waitForKey objectAvailability digest) (inner, ∅) =
        .ok ({ inner with missingInputs := missing, inputObjects := inputs }, waiting) ∧
      (∀ k, k ∈ waiting ↔ k ∈ keys ∧ objectAvailability.lookup k = some (some false)) ∧
      Indexes missing inputs (fun d k => inner.Waits d k ∨ d = digest ∧ k ∈ waiting) := by
  have hnone : ∀ k, ¬ inner.Waits digest k := by
    rintro k ⟨pc, hpc, -⟩
    rw [hnew] at hpc
    cases hpc
  let I (done : List InputKey) (state : Inner × TreeSet InputKey) : Prop :=
    (∃ missing inputs, state.1 = { inner with missingInputs := missing, inputObjects := inputs }) ∧
    (∀ k, k ∈ state.2 ↔ k ∈ done ∧ objectAvailability.lookup k = some (some false)) ∧
    Indexes state.1.missingInputs state.1.inputObjects
      (fun d k => inner.Waits d k ∨ d = digest ∧ k ∈ state.2)
  have hstep : ∀ done key state, done ++ [key] <+: keys → I done state →
      ∃ state', waitForKey objectAvailability digest state key = .ok state' ∧
        I (done ++ [key]) state' := by
    rintro done key ⟨_, waiting⟩ hpre ⟨⟨missing, inputs, rfl⟩, hwait, hidxs⟩
    have hfr : key ∉ done := fun hd => rel_of_prefix hkeys hpre hd rfl
    obtain ⟨available, havail⟩ := hkn key (hpre.subset (by simp))
    cases available with
    | true =>
      refine ⟨_, by rw [waitForKey, havail], ⟨missing, inputs, rfl⟩, fun k => ?_, hidxs⟩
      rw [hwait, mem_append, mem_singleton]
      refine ⟨fun hk => ⟨.inl hk.1, hk.2⟩, fun ⟨hk, hf⟩ => ⟨hk.resolve_right ?_, hf⟩⟩
      rintro rfl
      rw [havail] at hf
      cases hf
    | false =>
      have hnotWaiting : ¬ (inner.Waits digest key ∨ digest = digest ∧ key ∈ waiting) := by
        rintro (hw | ⟨-, hw⟩)
        · exact hnone key hw
        · exact hfr ((hwait key).mp hw).1
      obtain ⟨missing', inputs', hstep, hidxs'⟩ := waitForKey_missing hidxs waiting havail hnotWaiting
      refine ⟨_, hstep, ⟨missing', inputs', rfl⟩, fun k => ?_, ?_⟩
      · rw [TreeSet.mem_insert, compare_eq_iff_eq, hwait, mem_append, mem_singleton]
        constructor
        · rintro (rfl | ⟨hk, hf⟩)
          · exact ⟨.inr rfl, havail⟩
          · exact ⟨.inl hk, hf⟩
        · rintro ⟨hk | rfl, hf⟩
          · exact .inr ⟨hk, hf⟩
          · exact .inl rfl
      · have hiff : ∀ d k, ((inner.Waits d k ∨ d = digest ∧ k ∈ waiting) ∨ d = digest ∧ k = key) ↔
            (inner.Waits d k ∨ d = digest ∧ k ∈ waiting.insert key) := by
          intro d k
          rw [TreeSet.mem_insert, compare_eq_iff_eq, eq_comm (a := key)]
          tauto
        simp only [hiff] at hidxs'
        exact hidxs'
  have hinit : I [] (inner, ∅) :=
    ⟨⟨inner.missingInputs, inner.inputObjects, rfl⟩, by simp, by simpa using h⟩
  obtain ⟨⟨inner', waiting⟩, hok, ⟨missing, inputs, rfl⟩, hwait, hidxs⟩ :=
    foldlM_total_of_prefix I hstep hinit
  exact ⟨missing, inputs, waiting, hok, hwait, hidxs⟩

variable (es released waitsFor objectAvailability) in
/-- All inputs of a certificate were looked up, with a right answer. -/
structure TransactionManager.EnqueuedCertificate.Checked (cert : EnqueuedCertificate) : Prop where
  keys : ∃ keys, es.inputKeys cert.certificate = some keys ∧ ∀ k ∈ keys, k ∈ cert.inputObjectKeys
  ids : DistinctIds cert.inputObjectKeys
  known : ∀ k ∈ cert.inputObjectKeys, objectAvailability.lookup k = some (some true) ∧ released k ∨
    objectAvailability.lookup k = some (some false) ∧ waitsFor k

namespace TransactionManager.Tracked

section

variable (h : tm.Tracked es released waitsFor executed)

include h

lemma withIndexes (hidxs : Indexes missing inputs tm.inner.Waits) :
    TransactionManager.Tracked es released waitsFor executed
      { tm with inner := { tm.inner with missingInputs := missing, inputObjects := inputs } } :=
  ⟨h.epoch_eq, hidxs, h.pending, h.executing, h.sent, h.sent_nodup, h.sent_pending, h.sent_executing⟩

lemma insertPending (pc : PendingCertificate)
    (hnew : tm.inner.pendingCertificates[pc.certificate.digest]? = none)
    (hsent : pc.certificate.digest ∉ tm.txReadyCertificates.map fun pc => pc.certificate.digest)
    (hne : ∃ k, k ∈ pc.waitingInputObjects) (hpc : pc.Tracked es released waitsFor)
    (hidxs : Indexes missing inputs
      (fun d k => tm.inner.Waits d k ∨ d = pc.certificate.digest ∧ k ∈ pc.waitingInputObjects)) :
    TransactionManager.Tracked es released waitsFor executed { tm with inner := { tm.inner with
      missingInputs := missing
      inputObjects := inputs
      pendingCertificates := tm.inner.pendingCertificates.insert pc.certificate.digest pc } } := by
  have hget : ∀ d : TransactionDigest,
    (tm.inner.pendingCertificates.insert pc.certificate.digest pc)[d]? =
      if pc.certificate.digest = d then some pc else tm.inner.pendingCertificates[d]? := fun d =>
        getElem?_insert_ite d
  have hwt : ∀ d k, (tm.inner.Waits d k ∨ d = pc.certificate.digest ∧ k ∈ pc.waitingInputObjects) ↔
      ∃ pc', (tm.inner.pendingCertificates.insert pc.certificate.digest pc)[d]? = some pc' ∧
        k ∈ pc'.waitingInputObjects := by
    intro d k
    rw [hget]
    by_cases hd : pc.certificate.digest = d
    · subst hd
      simp [Inner.Waits, hnew]
    · rw [if_neg hd]
      exact or_iff_left fun he => hd he.1.symm
  replace hsent : ∀ pc' ∈ tm.txReadyCertificates, pc.certificate.digest ≠ pc'.certificate.digest := by
    intro pc' hpc' he
    exact hsent (mem_map.mpr ⟨pc', hpc', he.symm⟩)
  constructor
  · exact h.epoch_eq
  · exact hidxs.congr hwt
  · intro d pc' hpc'
    rcases entry_of_insert hpc' with ⟨hd, rfl⟩ | ⟨-, hpc'⟩
    · exact ⟨hd, hne, hpc⟩
    · exact h.pending d pc' hpc'
  · intro d hd
    obtain ⟨hpend, pc', hpc', rfl⟩ := h.executing d hd
    refine ⟨?_, pc', hpc', rfl⟩
    rw [hget, if_neg (hsent pc' hpc'), hpend]
  · exact h.sent
  · exact h.sent_nodup
  · intro pc' hpc'
    rw [hget, if_neg (hsent pc' hpc'), h.sent_pending pc' hpc']
  · exact h.sent_executing

lemma enqueueCertificate
    {cert : EnqueuedCertificate} (hcert : cert.Checked es released waitsFor objectAvailability) :
    ∃ tm', TransactionManager.enqueueCertificate
      (fun d => decide (d ∈ executed)) objectAvailability tm cert = .ok tm' ∧
      tm'.Tracked es released waitsFor executed ∧
      tm'.inner.availableObjectsCache = tm.inner.availableObjectsCache ∧
        (∀ d, tm.Keeps d → tm'.Keeps d) ∧
      (cert.certificate.epoch = es.epoch → tm'.Keeps cert.certificate.digest ∨
        cert.certificate.digest ∈ executed) := by
  unfold TransactionManager.enqueueCertificate
  dsimp only
  split_ifs with hep hpend hexing hexed
  · refine ⟨tm, rfl, h, rfl, fun _ hd => hd, fun he => ?_⟩
    exact absurd (h.epoch_eq.trans he.symm) hep
  · refine ⟨tm, rfl, h, rfl, fun _ hd => hd, fun _ => .inl (.inl ?_)⟩
    rwa [TreeMap.isSome_getElem?_eq_contains]
  · exact ⟨tm, rfl, h, rfl, fun _ hd => hd, fun _ => .inl (.inr (h.executing _ hexing).2)⟩
  · exact ⟨tm, rfl, h, rfl, fun _ hd => hd, fun _ => .inr (of_decide_eq_true hexed)⟩
  · have hnew : tm.inner.pendingCertificates[cert.certificate.digest]? = none := by
      rw [Bool.not_eq_true, ← TreeMap.isSome_getElem?_eq_contains, isSome_eq_false_iff,
        isNone_iff_eq_none] at hpend
      exact hpend
    have hsent : cert.certificate.digest ∉ tm.txReadyCertificates.map fun pc =>
        pc.certificate.digest := by
      intro hin
      obtain ⟨pc, hpc, hd⟩ := mem_map.mp hin
      exact (hd ▸ h.sent_executing pc hpc).elim hexing fun hin => hexed (decide_eq_true hin)
    have hkn : ∀ k ∈ cert.inputObjectKeys.toList,
        ∃ available, objectAvailability.lookup k = some (some available) := by
      intro k hk
      rcases hcert.known k (TreeSet.mem_toList.mp hk) with ⟨hl, -⟩ | ⟨hl, -⟩
      · exact ⟨true, hl⟩
      · exact ⟨false, hl⟩
    obtain ⟨missing, inputs, waiting, hfold, hwait, hidxs⟩ :=
      foldlM_waitForKey h.indexes nodup_toList hkn hnew
    let pc : PendingCertificate := ⟨cert.certificate, cert.expectedEffectsDigest, waiting⟩
    have hpc : pc.Tracked es released waitsFor := by
      constructor
      · obtain ⟨keys, hkeys, hall⟩ := hcert.keys
        refine ⟨keys, hkeys, fun k hk => ?_⟩
        rcases hcert.known k (hall k hk) with ⟨-, hr⟩ | ⟨hl, -⟩
        · exact .inr hr
        · exact .inl ((hwait k).mpr ⟨TreeSet.mem_toList.mpr (hall k hk), hl⟩)
      · intro k₁ hk₁ k₂ hk₂
        exact hcert.ids k₁ (TreeSet.mem_toList.mp ((hwait k₁).mp hk₁).1) k₂
          (TreeSet.mem_toList.mp ((hwait k₂).mp hk₂).1)
      · intro k hk
        obtain ⟨hin, hl⟩ := (hwait k).mp hk
        rcases hcert.known k (TreeSet.mem_toList.mp hin) with ⟨hl', -⟩ | ⟨-, hw⟩
        · rw [hl] at hl'
          cases hl'
        · exact hw
    rw [hfold, ok_bind]
    by_cases hemp : waiting.isEmpty = true
    · rw [if_pos hemp]
      have hnone := TreeSet.isEmpty_iff_forall_not_mem.mp hemp
      have hidxs' : Indexes missing inputs tm.inner.Waits := by
        simpa only [hnone, and_false, or_false] using hidxs
      obtain ⟨executing, hok, htrack⟩ := (h.withIndexes hidxs').certificateReady hpc hemp hnew hsent
      refine ⟨_, hok, htrack, rfl, ?_, fun _ => .inl (.inr ⟨pc, by simp, rfl⟩)⟩
      rintro d (hd | ⟨pc', hpc', hd⟩)
      · exact .inl hd
      · exact .inr ⟨pc', mem_append_left _ hpc', hd⟩
    · rw [if_neg hemp, if_neg hpend]
      have hne := TreeSet.isEmpty_eq_false_iff_exists_mem.mp (Bool.not_eq_true _ ▸ hemp)
      refine ⟨_, rfl, h.insertPending pc hnew hsent hne hpc hidxs, rfl, ?_, fun _ => .inl (.inl ?_)⟩
      · rintro d (hd | hd)
        · left
          rw [getElem?_insert_ite]
          split_ifs
          · rfl
          · exact hd
        · exact .inr hd
      · rw [getElem?_insert_ite, if_pos rfl]
        rfl

end

end TransactionManager.Tracked

end Manager

end SuiProofs.Authority

import SuiProofs.Authority.TransactionManagerInvariant

namespace SuiProofs.Authority

open Library TransactionManager List Function CacheInner EnqueueCall

def LowerAnnounced (announced : List InputKey) : InputKey → Prop
  | .versionedObject id version => ∃ v, v < version ∧ .versionedObject id v ∈ announced
  | .package _ => False

def WaitsFor (initialStore : ObjectStore) (announced : List InputKey) (k : InputKey) : Prop :=
  k ∉ announced ∧ (initialStore.Holds k → LowerAnnounced announced k)

variable {announced : List InputKey} {k : InputKey}

lemma LowerAnnounced.append (h : LowerAnnounced announced k) (more : List InputKey) :
    LowerAnnounced (announced ++ more) k := by
  cases k with
  | versionedObject id version =>
    obtain ⟨v, hv, hin⟩ := h
    exact ⟨v, hv, mem_append_left more hin⟩
  | package id => exact h

variable {found : List InputKey}

lemma Released.append (h : Released announced found k) (moreAnnounced moreFound : List InputKey) :
    Released (announced ++ moreAnnounced) (found ++ moreFound) k := by
  rcases h with h | h | h
  · exact .inl h
  · exact .inr (.inl (mem_append_left _ h))
  · refine .inr (.inr ?_)
    cases k with
    | versionedObject id version =>
      obtain ⟨v, hv, hin⟩ := h
      exact ⟨v, hv, mem_append_left _ hin⟩
    | package id => exact mem_append_left _ h

namespace CacheInner

variable {c c' : CacheInner} {k : InputKey}

lemma SameEntries.isObjectAvailable (h : c.SameEntries c') (k : InputKey) :
    (c'.isObjectAvailable k).2 = (c.isObjectAvailable k).2 := by
  cases k with
  | versionedObject id version => simp [CacheInner.isObjectAvailable, h.versioned]
  | package id => simp [CacheInner.isObjectAvailable, h.unversioned]

/-- The cache denies a version only if it has a lower one, and then the version was not
announced. -/
lemma Tracks.of_unavailable (h : c.Tracks announced found)
    (hk : (c.isObjectAvailable k).2 = some false) : k ∉ announced ∧ LowerAnnounced announced k := by
  cases k with
  | versionedObject id version =>
    simp only [isObjectAvailable, Lru.get_snd, Option.map_eq_some_iff,
      decide_eq_false_iff_not, not_le] at hk
    obtain ⟨current, hc, hlt⟩ := hk
    refine ⟨fun hin => ?_, current, hlt, h.mem id current hc⟩
    exact absurd (h.highest id current version hc hin) (not_le.mpr hlt)
  | package id => simp [isObjectAvailable] at hk

end CacheInner

lemma AvailableObjectsCache.cache_insert_of_unbounded {c : AvailableObjectsCache}
    (h : 0 < c.unboundedCacheEnabled) (k : InputKey) :
    (c.insert k).cache = c.cache.insert k := if_neg h.ne'

lemma lookup_of_mem_keys {objectAvailability : ObjectAvailability}
    (hk : k ∈ objectAvailability.map Prod.fst) :
    ∃ value, objectAvailability.lookup k = some value ∧ (k, value) ∈ objectAvailability := by
  obtain ⟨e, he, rfl⟩ := mem_map.mp hk
  have hsome : (objectAvailability.lookup e.1).isSome := lookup_isSome_iff.mpr ⟨e, he, by simp⟩
  obtain ⟨value, hval⟩ := Option.isSome_iff_exists.mp hsome
  obtain ⟨before, after, heq, -⟩ := lookup_eq_some_iff.mp hval
  exact ⟨value, hval, by simp [heq]⟩

abbrev ManagerState.cache (s : ManagerState) : AvailableObjectsCache :=
  s.manager.inner.availableObjectsCache

def ManagerState.Verdict (s : ManagerState) (k : InputKey) : Bool → Prop
  | true => Released s.announced s.found k
  | false => (k ∈ s.announced → s.cache.cache.Knows k) ∧
      (s.initialStore.Holds k → LowerAnnounced s.announced k)

/-- The invariant of all interleavings of calls, notifications and executions. -/
structure ManagerState.Invariant (es : EpochStore) (s : ManagerState) : Prop where
  tracked : s.manager.Tracked es (Released s.announced s.found)
    (WaitsFor s.initialStore s.announced) s.executed
  cache : s.cache.cache.Tracks s.announced s.found
  unbounded : s.cache.unboundedCacheEnabled = s.enqueuing.card
  held : ∀ k ∈ s.announced, s.store.Holds k
  initial : ∀ r k, s.initialStore.inputObjectAvailable r k = true →
    s.store.inputObjectAvailable r k = true
  panicked : s.panicked = none

/-- The certificates of a call that were not executed when it began, with the keys it asks for. -/
structure PreparedCall (es : EpochStore) (s : ManagerState) (call : EnqueueCall)
    (certs : List EnqueuedCertificate) (objectAvailability : ObjectAvailability) : Prop where
  keys : ∀ c ∈ certs, ∃ keys, es.inputKeys c.certificate = some keys ∧ ∀ k ∈ keys, k ∈ c.inputObjectKeys
  ids : ∀ c ∈ certs, DistinctIds c.inputObjectKeys
  covered : ∀ c ∈ certs, ∀ k ∈ c.inputObjectKeys, k ∈ objectAvailability.map Prod.fst
  accounted : ∀ c ∈ call.certs, (∃ p ∈ certs, p.certificate = c.1) ∨ c.1.digest ∈ s.executed

/-- What a call knows of its inputs after it has read the store. -/
structure ReadCall (s : ManagerState) (objectAvailability : ObjectAvailability)
    (misses : List (Bool × InputKey)) : Prop where
  known : ∀ k available, (k, some available) ∈ objectAvailability → s.Verdict k available
  unknown : ∀ k, (k, none) ∈ objectAvailability → ∃ available, (available, k) ∈ misses
  mem : ∀ available k, (available, k) ∈ misses → k ∈ objectAvailability.map Prod.fst
  verdict : ∀ available k, (available, k) ∈ misses → s.Verdict k available
  found : ∀ k, (true, k) ∈ misses → k ∈ s.found

variable {es : EpochStore} {s s' : ManagerState} {i : ℕ} {call : EnqueueCall}
  {certs : List EnqueuedCertificate}
  {objectAvailability : ObjectAvailability} {misses : List (Bool × InputKey)}

section Phases

lemma checkCache_spec (cache : AvailableObjectsCache) (objectAvailability : ObjectAvailability) :
    cache.cache.SameEntries (checkCache cache objectAvailability).1.cache ∧
      (checkCache cache objectAvailability).1.unboundedCacheEnabled = cache.unboundedCacheEnabled ∧
      (checkCache cache objectAvailability).2 = objectAvailability.map fun e =>
        (e.1, if e.2 = some true then e.2 else (cache.cache.isObjectAvailable e.1).2 <|> e.2) := by
  induction objectAvailability generalizing cache with
  | nil => exact ⟨.refl _, rfl, rfl⟩
  | cons e rest ih =>
    rw [checkCache, map_cons]
    split_ifs with hval
    · obtain ⟨hsame, hunb, hrest⟩ := ih cache
      exact ⟨hsame, hunb, congrArg _ hrest⟩
    · have hsame₁ := sameEntries_isObjectAvailable cache.cache e.1
      obtain ⟨hsame, hunb, hrest⟩ := ih (cache.isObjectAvailable e.1).1
      simp only [AvailableObjectsCache.isObjectAvailable, hsame₁.isObjectAvailable] at hrest
      exact ⟨hsame₁.trans hsame, hunb, congrArg _ hrest⟩

lemma recheckCache_total (cache : AvailableObjectsCache) (hvs : ∀ e ∈ objectAvailability, e.2.isSome) :
    ∃ cache', recheckCache cache objectAvailability = .ok (cache', objectAvailability.map fun e =>
        (e.1, if e.2 = some true then e.2
          else some ((cache.cache.isObjectAvailable e.1).2 == some true))) ∧
      cache.cache.SameEntries cache'.cache ∧
        cache'.unboundedCacheEnabled = cache.unboundedCacheEnabled := by
  induction objectAvailability generalizing cache with
  | nil => exact ⟨cache, rfl, .refl _, rfl⟩
  | cons e rest ih =>
    obtain ⟨key, value⟩ := e
    obtain ⟨hval, hrest⟩ := forall_mem_cons.mp hvs
    obtain ⟨available, rfl⟩ := Option.isSome_iff_exists.mp hval
    cases available with
    | true =>
      obtain ⟨cache', hok, hsame, hunb⟩ := ih cache hrest
      exact ⟨cache', by rw [recheckCache, hok]; rfl, hsame, hunb⟩
    | false =>
      have hsame₁ := sameEntries_isObjectAvailable cache.cache key
      obtain ⟨cache', hok, hsame, hunb⟩ := ih (cache.isObjectAvailable key).1 hrest
      refine ⟨cache', ?_, hsame₁.trans hsame, hunb⟩
      simp only [AvailableObjectsCache.isObjectAvailable, hsame₁.isObjectAvailable] at hok
      simp only [recheckCache, AvailableObjectsCache.isObjectAvailable, hok]
      rfl

/-- An answer of the store is filled in for every entry of its key. -/
def fillCacheMiss (objectAvailability : ObjectAvailability) (available : Bool) (key : InputKey) :
    ObjectAvailability :=
  objectAvailability.map fun e => if e.1 = key then (key, some available) else e

lemma keys_fillCacheMiss (objectAvailability : ObjectAvailability) (available : Bool) (key : InputKey) :
    (fillCacheMiss objectAvailability available key).map Prod.fst = objectAvailability.map Prod.fst := by
  rw [fillCacheMiss, map_map]
  refine map_congr_left fun e _ => ?_
  dsimp only [comp]
  split_ifs with he
  · exact he.symm
  · rfl

lemma ReadCall.fillCacheMiss {available : Bool} {key : InputKey}
    (h : ReadCall s objectAvailability ((available, key) :: misses)) :
    ReadCall s (fillCacheMiss objectAvailability available key) misses where
  known k value hin := by
    obtain ⟨e, he, heq⟩ := mem_map.mp hin
    split_ifs at heq with hkey
    · cases heq
      exact h.verdict available key mem_cons_self
    · exact h.known k value (heq ▸ he)
  unknown k hin := by
    obtain ⟨e, he, heq⟩ := mem_map.mp hin
    split_ifs at heq with hkey
    · cases heq
    · subst heq
      obtain ⟨value, hmiss⟩ := h.unknown k he
      exact ⟨value, (mem_cons.mp hmiss).resolve_left fun heq => hkey (Prod.mk.inj heq).2⟩
  mem value k hin := by
    rw [keys_fillCacheMiss]
    exact h.mem value k (mem_cons_of_mem _ hin)
  verdict value k hin := h.verdict value k (mem_cons_of_mem _ hin)
  found k hin := h.found k (mem_cons_of_mem _ hin)

lemma fillCacheMisses_total {cache : AvailableObjectsCache} (h : ReadCall s objectAvailability misses)
    (htr : cache.cache.Tracks s.announced s.found) (hunb : 0 < cache.unboundedCacheEnabled) :
    ∃ cache' filled, fillCacheMisses cache objectAvailability misses = .ok (cache', filled) ∧
      (∀ k, cache.cache.Knows k → cache'.cache.Knows k) ∧ cache'.cache.Tracks s.announced s.found ∧
      cache'.unboundedCacheEnabled = cache.unboundedCacheEnabled ∧
      filled.map Prod.fst = objectAvailability.map Prod.fst ∧ ReadCall s filled [] := by
  induction misses generalizing cache objectAvailability with
  | nil => exact ⟨cache, objectAvailability, rfl, fun _ hk => hk, htr, rfl, rfl, h⟩
  | cons miss misses ih =>
    obtain ⟨available, key⟩ := miss
    let cache₁ := if available && key.version.isNone then cache.insert key else cache
    have hcache₁ : (∀ k, cache.cache.Knows k → cache₁.cache.Knows k) ∧
      cache₁.cache.Tracks s.announced s.found ∧
        cache₁.unboundedCacheEnabled = cache.unboundedCacheEnabled := by
      by_cases hpackage : (available && key.version.isNone) = true
      · simp only [cache₁, if_pos hpackage]
        rw [Bool.and_eq_true, Option.isNone_iff_eq_none] at hpackage
        rw [AvailableObjectsCache.cache_insert_of_unbounded hunb]
        exact ⟨fun k hk => hk.insert key,
          htr.insert_found hpackage.2 (h.found key (hpackage.1 ▸ mem_cons_self)), rfl⟩
      · simp only [cache₁, if_neg hpackage]
        exact ⟨fun _ hk => hk, htr, trivial⟩
    obtain ⟨hknows₁, htr₁, hunb₁⟩ := hcache₁
    obtain ⟨cache', filled, hok, hknows, htr', hunb', hkeys, hread⟩ :=
      ih h.fillCacheMiss htr₁ (hunb₁ ▸ hunb)
    refine ⟨cache', filled, ?_, fun k hk => hknows k (hknows₁ k hk), htr', hunb'.trans hunb₁,
      hkeys.trans (keys_fillCacheMiss ..), hread⟩
    obtain ⟨value, hlk, -⟩ := lookup_of_mem_keys (h.mem available key mem_cons_self)
    rw [fillCacheMisses, hlk]
    exact hok

end Phases

section Enqueue

lemma ManagerState.Invariant.enqueueChecked (h : s.Invariant es)
    (hcerts : PreparedCall es s call certs objectAvailability)
    (hread : ReadCall s objectAvailability misses) (hunb : 0 < s.enqueuing.card) :
    ∃ manager, TransactionManager.enqueueChecked
      (fun d => decide (d ∈ s.executed)) s.manager certs objectAvailability misses =
        .ok manager ∧
      manager.Tracked es (Released s.announced s.found)
        (WaitsFor s.initialStore s.announced) s.executed ∧
      manager.inner.availableObjectsCache.cache.Tracks s.announced s.found ∧
      (∀ k, s.cache.cache.Knows k → manager.inner.availableObjectsCache.cache.Knows k) ∧
      manager.inner.availableObjectsCache.unboundedCacheEnabled + 1 = s.enqueuing.card ∧
      (∀ d, s.manager.Keeps d → manager.Keeps d) ∧
      ∀ c ∈ certs, c.certificate.epoch = es.epoch → manager.Keeps c.certificate.digest ∨
        c.certificate.digest ∈ s.executed := by
  obtain ⟨cache₁, filled, hfill, hknows, htr₁, hunb₁, hkeys, hfilled⟩ :=
    fillCacheMisses_total hread h.cache (h.unbounded ▸ hunb)
  have hanswered : ∀ e ∈ filled, e.2.isSome := by
    rintro ⟨k, value⟩ hin
    cases value with
    | none =>
      obtain ⟨_, hmiss⟩ := hfilled.unknown k hin
      cases hmiss
    | some available => rfl
  obtain ⟨cache₂, hrecheck, hsame, hunb₂⟩ := recheckCache_total cache₁ hanswered
  have henabled : cache₂.unboundedCacheEnabled = s.enqueuing.card :=
    hunb₂.trans (hunb₁.trans h.unbounded)
  let cache₃ : AvailableObjectsCache :=
    { cache₂ with unboundedCacheEnabled := cache₂.unboundedCacheEnabled - 1 }
  have hdisable : cache₂.disableUnboundedCache = .ok cache₃ := if_pos (henabled ▸ hunb)
  let checked := filled.map fun e =>
    (e.1, if e.2 = some true then e.2 else some ((cache₁.cache.isObjectAvailable e.1).2 == some true))
  -- Every key of a certificate has a final answer.
  have hfinal : ∀ c ∈ certs, c.Checked es (Released s.announced s.found)
      (WaitsFor s.initialStore s.announced) checked := by
    intro c hc
    refine ⟨hcerts.keys c hc, hcerts.ids c hc, fun k hk => ?_⟩
    have hin : k ∈ checked.map Prod.fst := by
      rw [map_map]
      exact hkeys ▸ hcerts.covered c hc k hk
    obtain ⟨value, hlk, hval⟩ := lookup_of_mem_keys hin
    obtain ⟨⟨k, before⟩, hbef, heq⟩ := mem_map.mp hval
    cases heq
    obtain ⟨available, rfl⟩ := Option.isSome_iff_exists.mp (hanswered _ hbef)
    have hv := hfilled.known k available hbef
    cases available with
    | true => exact .inl ⟨hlk, hv⟩
    | false =>
      by_cases hkn : cache₁.cache.Knows k
      · refine .inl ⟨hlk.trans ?_, htr₁.released hkn⟩
        simp [isObjectAvailable_eq_some_true_iff.mpr hkn]
      · refine .inr ⟨hlk.trans ?_, fun hin => hkn (hknows k (hv.1 hin)), hv.2⟩
        simpa using isObjectAvailable_eq_some_true_iff.not.mpr hkn
  obtain ⟨manager, hfold, htrack, hcache, hkp, hque⟩ := foldlM_total
    (f := enqueueCertificate (fun d => decide (d ∈ s.executed)) checked) (l := certs)
    (b := { s.manager with inner := { s.manager.inner with availableObjectsCache := cache₃ } })
    (fun done (tm : TransactionManager) =>
      tm.Tracked es (Released s.announced s.found) (WaitsFor s.initialStore s.announced) s.executed ∧
      tm.inner.availableObjectsCache = cache₃ ∧ (∀ d, s.manager.Keeps d → tm.Keeps d) ∧
      ∀ c ∈ done, c.certificate.epoch = es.epoch → tm.Keeps c.certificate.digest ∨
        c.certificate.digest ∈ s.executed)
    (by
      rintro done c tm hc ⟨htrack, hcache, hkp, hque⟩
      obtain ⟨tm', hok, htrack', hcache', hkp', hself⟩ := htrack.enqueueCertificate (hfinal c hc)
      refine ⟨tm', hok, htrack', hcache'.trans hcache, fun d hd => hkp' d (hkp d hd), ?_⟩
      exact forall_mem_concat (fun c' hc' he => (hque c' hc' he).imp_left (hkp' _)) hself)
    ⟨h.tracked.withCache cache₃, rfl, fun _ hd => hd, fun c hc => by cases hc⟩
  refine ⟨manager, ?_, htrack, ?_, fun k hk => ?_, ?_, hkp, hque⟩
  · rw [TransactionManager.enqueueChecked, hfill, ok_bind]
    dsimp only
    rw [hrecheck, ok_bind]
    rw [hdisable, ok_bind]
    exact hfold
  · rw [hcache]
    exact htr₁.sameEntries hsame
  · rw [hcache]
    exact (hsame.knows_iff k).mpr (hknows k hk)
  · rw [hcache]
    change cache₂.unboundedCacheEnabled - 1 + 1 = _
    omega

end Enqueue

lemma TransactionManager.Tracked.foldlM_objectAvailable {initialStore : ObjectStore}
    {executed : Finset TransactionDigest} {keys : List InputKey} {tm : TransactionManager}
    (h : tm.Tracked es (Released announced found) (WaitsFor initialStore announced) executed)
    (hcache : tm.inner.availableObjectsCache.cache.Tracks announced found)
    (hord : AnnouncesInOrder announced tm.inner.availableObjectsCache keys) :
    ∃ tm', keys.foldlM (TransactionManager.objectAvailable true) tm = .ok tm' ∧
      tm'.Tracked es (Released (announced ++ keys) found)
        (WaitsFor initialStore (announced ++ keys)) executed ∧
      tm'.inner.availableObjectsCache.cache.Tracks (announced ++ keys) found ∧
      tm'.inner.availableObjectsCache.unboundedCacheEnabled =
        tm.inner.availableObjectsCache.unboundedCacheEnabled ∧
      (0 < tm.inner.availableObjectsCache.unboundedCacheEnabled →
        ∀ k, tm.inner.availableObjectsCache.cache.Knows k ∨ k ∈ keys →
          tm'.inner.availableObjectsCache.cache.Knows k) ∧
      ∀ d, tm.Keeps d → tm'.Keeps d := by
  induction keys generalizing announced tm with
  | nil =>
    refine ⟨tm, rfl, by rwa [append_nil], by rwa [append_nil], rfl, fun _ k hk => ?_, fun _ hd => hd⟩
    exact hk.resolve_right not_mem_nil
  | cons k keys ih =>
    have hrel : ∀ k', Released announced found k' → Released (announced ++ [k]) found k' :=
      fun k' hk' => by simpa using hk'.append [k] []
    have hself : Released (announced ++ [k]) found k := by
      refine .inr (.inr ?_)
      cases k with
      | versionedObject id version => exact ⟨version, le_rfl, by simp⟩
      | package id => simp [AnnouncedAtLeast]
    have hwt : ∀ k', k' ≠ k → WaitsFor initialStore announced k' →
        WaitsFor initialStore (announced ++ [k]) k' := by
      intro k' hne hk'
      refine ⟨fun hin => ?_, fun hheld => (hk'.2 hheld).append [k]⟩
      rcases mem_append.mp hin with hin | hin
      · exact hk'.1 hin
      · exact hne (mem_singleton.mp hin)
    obtain ⟨tm₁, hok₁, h₁, hcache₁, hkp₁⟩ := h.objectAvailable hself hrel hwt
    have htr₁ : tm₁.inner.availableObjectsCache.cache.Tracks (announced ++ [k]) found := by
      rw [hcache₁]
      have hins := hcache.insert_announced hord.1
      change (if _ then shrink _ else _).Tracks _ _
      split_ifs
      · exact hins.shrink
      · exact hins
    obtain ⟨tm', hok, h', htr', hunb, hknows, hkp⟩ := ih h₁ htr₁ (hcache₁ ▸ hord.2)
    rw [append_assoc, singleton_append] at h' htr'
    have hunb₁ : tm₁.inner.availableObjectsCache.unboundedCacheEnabled =
        tm.inner.availableObjectsCache.unboundedCacheEnabled := by
      rw [hcache₁]
      rfl
    refine ⟨tm', ?_, h', htr', hunb.trans hunb₁, fun hpos k' hk' => ?_, fun d hd => hkp d (hkp₁ d hd)⟩
    · rw [foldlM_cons, hok₁, ok_bind, hok]
    · refine hknows (hunb₁ ▸ hpos) k' ?_
      rw [hcache₁, AvailableObjectsCache.cache_insert_of_unbounded hpos]
      rcases hk' with hk' | hk'
      · exact .inl (hk'.insert k)
      · rcases mem_cons.mp hk' with rfl | hk'
        · exact .inl (knows_insert_self _ _)
        · exact .inr hk'

variable (es s i call) in
/-- What a call relies on, between its locked phases. -/
def EnqueueCall.Relies : Prop :=
  match call.stage with
  | .prepared certs objectAvailability _ =>
    i ∉ s.enqueuing ∧ PreparedCall es s call certs objectAvailability ∧
      ∀ k value, (k, value) ∈ objectAvailability → value = none ∨ value = some true ∧ k.isCancelled
  | .checked certs objectAvailability _ =>
    i ∈ s.enqueuing ∧ PreparedCall es s call certs objectAvailability ∧
      ∀ k available, (k, some available) ∈ objectAvailability → s.Verdict k available
  | .read certs objectAvailability misses =>
    i ∈ s.enqueuing ∧ PreparedCall es s call certs objectAvailability ∧
      ReadCall s objectAvailability misses
  | .returned =>
    i ∉ s.enqueuing ∧
      ∀ c ∈ call.certs, c.1.epoch = es.epoch → s.manager.Keeps c.1.digest ∨ c.1.digest ∈ s.executed
  | .panicked _ => False

/-- What no step of another call or of the executor disturbs. -/
structure ManagerState.Undisturbed (s s' : ManagerState) (i : ℕ) : Prop where
  enqueuing : i ∈ s'.enqueuing ↔ i ∈ s.enqueuing
  executed : s.executed ⊆ s'.executed
  keeps : ∀ d, s.manager.Keeps d → s'.manager.Keeps d
  found : ∀ k ∈ s.found, k ∈ s'.found
  verdict : i ∈ s.enqueuing → ∀ k available, s.Verdict k available → s'.Verdict k available

section Runs

lemma PreparedCall.undisturbed (h : PreparedCall es s call certs objectAvailability)
    (hs : s.Undisturbed s' i) :
    PreparedCall es s' call certs objectAvailability :=
  { h with accounted := fun c hc => (h.accounted c hc).imp_right fun hin => hs.executed hin }

lemma ReadCall.undisturbed (h : ReadCall s objectAvailability misses) (hs : s.Undisturbed s' i)
    (hi : i ∈ s.enqueuing) :
    ReadCall s' objectAvailability misses where
  known k available hin := hs.verdict hi k available (h.known k available hin)
  unknown := h.unknown
  mem := h.mem
  verdict available k hin := hs.verdict hi k available (h.verdict available k hin)
  found k hin := hs.found k (h.found k hin)

lemma EnqueueCall.Relies.undisturbed (h : call.Relies es s i) (hs : s.Undisturbed s' i) :
    call.Relies es s' i := by
  obtain ⟨certs, stage⟩ := call
  cases stage with
  | prepared prepared objectAvailability receivingObjects =>
    exact ⟨hs.enqueuing.not.mpr h.1, h.2.1.undisturbed hs, h.2.2⟩
  | checked prepared objectAvailability receivingObjects =>
    obtain ⟨hi, hcerts, hvs⟩ := h
    exact ⟨hs.enqueuing.mpr hi, hcerts.undisturbed hs, fun k available hin =>
      hs.verdict hi k available (hvs k available hin)⟩
  | read prepared objectAvailability misses =>
    exact ⟨hs.enqueuing.mpr h.1, h.2.1.undisturbed hs, h.2.2.undisturbed hs h.1⟩
  | returned =>
    obtain ⟨hi, hall⟩ := h
    exact ⟨hs.enqueuing.not.mpr hi, fun c hc he =>
      (hall c hc he).imp (hs.keeps _) fun hin => hs.executed hin⟩
  | panicked p => exact h

/-- The cache forgets nothing while a call is between its locked phases. -/
lemma ManagerState.Verdict.mono {available : Bool} (h : s.Verdict k available)
    (announced found : List InputKey)
    (hann : s'.announced = s.announced ++ announced) (hfd : s'.found = s.found ++ found)
    (hini : s'.initialStore = s.initialStore)
    (hknows : ∀ k, s.cache.cache.Knows k ∨ k ∈ announced → s'.cache.cache.Knows k) :
    s'.Verdict k available := by
  cases available with
  | true =>
    unfold ManagerState.Verdict at h ⊢
    rw [hann, hfd]
    exact h.append announced found
  | false =>
    refine ⟨fun hin => hknows k ?_, fun hheld => ?_⟩
    · rw [hann] at hin
      exact (mem_append.mp hin).imp_left h.1
    · rw [hann]
      exact (h.2 (hini ▸ hheld)).append announced

lemma EnqueueCall.relies_start {certs : List (ExecutableTransaction × Option (Fin (2 ^ 256)))}
    {prepared : List EnqueuedCertificate} {order : List InputKey} (hi : i ∉ s.enqueuing)
    (hprep : EnqueueCall.prepareCerts es s.executed certs = some prepared)
    (hids : ∀ c ∈ prepared, DistinctIds c.inputObjectKeys)
    (hord : ∀ k, k ∈ order ↔ ∃ c ∈ prepared, k ∈ c.inputObjectKeys) :
    (EnqueueCall.start certs prepared order).Relies es s i := by
  obtain ⟨hress, helts⟩ := of_mapM_eq_some hprep
  refine ⟨hi, ⟨fun c hc => ?_, hids, fun c hc k hk => ?_, fun c hc => ?_⟩, fun k value hin => ?_⟩
  · obtain ⟨c₀, -, hc₀⟩ := hress c hc
    obtain ⟨keys, hkeys, hcert⟩ := Option.bind_eq_some_iff.mp hc₀
    cases hcert
    refine ⟨keys, hkeys, fun k hk => ?_⟩
    exact (mem_foldl_insert_set (f := id)).mpr (.inr ⟨k, hk, rfl⟩)
  · rw [map_map]
    exact mem_map.mpr ⟨k, (hord k).mpr ⟨c, hc, hk⟩, rfl⟩
  · by_cases hexed : c.1.digest ∈ s.executed
    · exact .inr hexed
    · obtain ⟨p, hp, hc₀⟩ := helts c (mem_filter.mpr ⟨hc, decide_eq_true hexed⟩)
      obtain ⟨keys, -, hcert⟩ := Option.bind_eq_some_iff.mp hc₀
      cases hcert
      exact .inl ⟨_, hp, rfl⟩
  · obtain ⟨k', -, heq⟩ := mem_map.mp hin
    cases heq
    split_ifs with hcanc
    · exact .inr ⟨rfl, hcanc⟩
    · exact .inl rfl

variable {next : EnqueueCall}

variable (es s s' i next) in
/-- What a step of the call `i` leads to. -/
structure EnqueueCall.Advances : Prop where
  shared : s'.Invariant es
  relies : next.Relies es s' i
  others : ∀ j, j ≠ i → s.Undisturbed s' j

section

variable (h : s.Invariant es)

include h

lemma ManagerState.Invariant.check {certs objectAvailability receivingObjects}
    (hstage : call.stage = .prepared certs objectAvailability receivingObjects)
    (hcall : call.Relies es s i)
    (hstep : call.step s i = some (s', next)) : Advances es s s' i next := by
  obtain ⟨all, stage⟩ := call
  subst hstage
  obtain ⟨hi, hcerts, hvs⟩ := hcall
  obtain ⟨hsame, hunb, hchecked⟩ := checkCache_spec s.cache objectAvailability
  cases hstep
  refine ⟨?_, ?_, fun j hj =>
    ⟨?_, subset_rfl, fun _ hd => hd, fun _ hk => hk, fun _ k available hv => ?_⟩⟩
  · refine ⟨h.tracked.withCache _, h.cache.sameEntries hsame, ?_, h.held, h.initial, h.panicked⟩
    change (checkCache _ _).1.unboundedCacheEnabled + 1 = _
    rw [hunb, h.unbounded, Finset.card_insert_of_notMem hi]
  · rw [hchecked]
    refine ⟨Finset.mem_insert_self i _, { hcerts with covered := fun c hc k hk => ?_ },
      fun _ available hin => ?_⟩
    · rw [map_map]
      exact hcerts.covered c hc k hk
    obtain ⟨⟨k, before⟩, hbef, heq⟩ := mem_map.mp hin
    obtain ⟨rfl, hv⟩ := Prod.mk.inj heq
    rcases hvs k before hbef with rfl | ⟨rfl, hcanc⟩
    · have hanswer : (s.cache.cache.isObjectAvailable k).2 = some available := by
        rw [← hv]
        cases (s.cache.cache.isObjectAvailable k).2 <;> rfl
      cases available with
      | true => exact h.cache.released (isObjectAvailable_eq_some_true_iff.mp hanswer)
      | false =>
        obtain ⟨hnot, hlower⟩ := h.cache.of_unavailable hanswer
        exact ⟨fun hin => absurd hin hnot, fun _ => hlower⟩
    · cases hv
      exact .inl hcanc
  · exact Finset.mem_insert.trans (or_iff_right hj)
  · refine hv.mono [] [] (append_nil _).symm (append_nil _).symm rfl fun k' hk' => ?_
    exact (hsame.knows_iff k').mpr (hk'.resolve_right not_mem_nil)

lemma ManagerState.Invariant.readStore {certs objectAvailability receivingObjects}
    (hstage : call.stage = .checked certs objectAvailability receivingObjects)
    (hcall : call.Relies es s i)
    (hstep : call.step s i = some (s', next)) : Advances es s s' i next := by
  obtain ⟨all, stage⟩ := call
  subst hstage
  obtain ⟨hi, hcerts, hvs⟩ := hcall
  cases hstep
  let misses := objectAvailability.filterMap fun e => if e.2 = none then some e.1 else none
  let found := misses.filter (s.store.inputObjectAvailable receivingObjects)
  have hmisses : ∀ k, k ∈ misses ↔ (k, none) ∈ objectAvailability := by
    intro k
    rw [mem_filterMap]
    constructor
    · rintro ⟨⟨k', value⟩, hin, heq⟩
      obtain ⟨rfl, heq⟩ := Option.ite_none_right_eq_some.mp heq
      exact Option.some.inj heq ▸ hin
    · exact fun hin => ⟨(k, none), hin, rfl⟩
  have hmono : ∀ k available, s.Verdict k available →
      ManagerState.Verdict { s with found := s.found ++ found } k available := by
    intro k available hv
    exact hv.mono [] found (append_nil _).symm rfl rfl fun k' hk' =>
      hk'.resolve_right not_mem_nil
  refine ⟨?_, ⟨hi, { hcerts with }, ?_⟩, fun j hj =>
    ⟨Iff.rfl, subset_rfl, fun _ hd => hd, fun _ => mem_append_left _,
    fun _ => hmono⟩⟩
  · refine ⟨h.tracked.weaken (fun k hk => ?_) (fun _ hk => hk) subset_rfl, h.cache.found_append _,
      h.unbounded, h.held,
      h.initial, h.panicked⟩
    simpa using hk.append [] found
  · have hpair : ∀ available k, (available, k) ∈ misses.map
      (fun key => (s.store.inputObjectAvailable receivingObjects key, key)) →
        (k, none) ∈ objectAvailability ∧
          s.store.inputObjectAvailable receivingObjects k = available := by
      intro available k hin
      obtain ⟨k', hk', heq⟩ := mem_map.mp hin
      obtain ⟨rfl, rfl⟩ := Prod.mk.inj heq
      exact ⟨(hmisses k').mp hk', rfl⟩
    have hfd : ∀ k, (k, none) ∈ objectAvailability →
      s.store.inputObjectAvailable receivingObjects k = true →
        k ∈ s.found ++ found := fun k hk hsto =>
      mem_append_right _ (mem_filter.mpr ⟨(hmisses k).mpr hk, hsto⟩)
    constructor
    · exact fun k available hin => hmono k available (hvs k available hin)
    · exact fun k hin => ⟨_, mem_map.mpr ⟨k, (hmisses k).mpr hin, rfl⟩⟩
    · exact fun available k hin => mem_map.mpr ⟨_, (hpair available k hin).1, rfl⟩
    · intro available k hin
      obtain ⟨hk, hsto⟩ := hpair available k hin
      cases available with
      | true => exact .inr (.inl (hfd k hk hsto))
      | false =>
        refine ⟨fun hann => ?_, fun hheld => ?_⟩
        · rw [h.held k hann receivingObjects] at hsto
          cases hsto
        · rw [h.initial receivingObjects k (hheld receivingObjects)] at hsto
          cases hsto
    · intro k hin
      obtain ⟨hk, hsto⟩ := hpair true k hin
      exact hfd k hk hsto

lemma ManagerState.Invariant.queue {certs objectAvailability misses}
    (hstage : call.stage = .read certs objectAvailability misses) (hcall : call.Relies es s i)
    (hstep : call.step s i = some (s', next)) : Advances es s s' i next := by
  obtain ⟨all, stage⟩ := call
  subst hstage
  obtain ⟨hi, hcerts, hread⟩ := hcall
  obtain ⟨manager, hok, htrack, htr, hknows, hunb, hkp, hque⟩ :=
    h.enqueueChecked hcerts hread (Finset.card_pos.mpr ⟨i, hi⟩)
  simp only [step, hok, Option.some.injEq, Prod.mk.injEq] at hstep
  obtain ⟨rfl, rfl⟩ := hstep
  refine ⟨⟨htrack, htr, ?_, h.held, h.initial, h.panicked⟩, ⟨Finset.notMem_erase i _, fun c hc he => ?_⟩,
    fun j hj => ⟨?_, subset_rfl, hkp, fun _ hk => hk, fun _ k available hv => ?_⟩⟩
  · rw [Finset.card_erase_of_mem hi]
    exact Nat.eq_sub_of_add_eq hunb
  · rcases hcerts.accounted c hc with ⟨p, hp, hcert⟩ | hexed
    · exact hcert ▸ hque p hp (hcert ▸ he)
    · exact .inr hexed
  · exact Finset.mem_erase.trans (and_iff_right hj)
  · refine hv.mono [] [] (append_nil _).symm (append_nil _).symm rfl fun k' hk' => ?_
    exact hknows k' (hk'.resolve_right not_mem_nil)

lemma ManagerState.Invariant.notifyCommit {digest : TransactionDigest} {keys : List InputKey}
    (hdig : digest ∈ s.executed) (hheld : ∀ k ∈ keys, s.store.Holds k)
    (hord : AnnouncesInOrder s.announced s.manager.inner.availableObjectsCache keys) :
    (s.notifyCommit es.epoch digest keys).Invariant es ∧
      ∀ j, s.Undisturbed (s.notifyCommit es.epoch digest keys) j := by
  obtain ⟨manager, hok, htrack, htr, hunb, hknows, hkp⟩ := h.tracked.foldlM_objectAvailable h.cache hord
  have hep := h.tracked.epoch_eq
  have hcom : s.manager.notifyCommit es.epoch digest keys = .ok { manager with
      inner := { manager.inner with
        executingCertificates := manager.inner.executingCertificates.erase digest } } := by
    rw [TransactionManager.notifyCommit, if_neg (not_not.mpr hep), objectsAvailableLocked,
      if_neg (not_not.mpr hep), hok]
    rfl
  rw [ManagerState.notifyCommit, hcom]
  refine ⟨⟨htrack.committed hdig, htr, hunb.trans h.unbounded, fun k hk => ?_, h.initial, h.panicked⟩,
    fun j => ⟨Iff.rfl, subset_rfl, hkp, fun _ hk => hk, fun hj k available hv => ?_⟩⟩
  · exact (mem_append.mp hk).elim (h.held k) (hheld k)
  · refine hv.mono keys [] rfl (append_nil _).symm rfl (hknows ?_)
    rw [h.unbounded]
    exact Finset.card_pos.mpr ⟨j, hj⟩

lemma ManagerState.Invariant.progress {store : ObjectStore} {executed : Finset TransactionDigest}
    (hsto : ∀ k r, s.store.inputObjectAvailable r k = true → store.inputObjectAvailable r k = true)
    (hexed : s.executed ⊆ executed) :
    ManagerState.Invariant es { s with store := store, executed := executed } ∧
      ∀ j, s.Undisturbed { s with store := store, executed := executed } j := by
  refine ⟨?_, fun j => ⟨Iff.rfl, hexed, fun _ hd => hd, fun _ hk => hk, fun _ k available hv => ?_⟩⟩
  · exact ⟨h.tracked.weaken (fun _ hk => hk) (fun _ hk => hk) hexed, h.cache, h.unbounded,
      fun k hk r => hsto k r (h.held k hk r), fun r k hk => hsto k r (h.initial r k hk), h.panicked⟩
  · cases available <;> exact hv

end

variable (es s i) in
def EnqueueCall.ReliesOrIdle (call : Option EnqueueCall) : Prop :=
  call.elim (i ∉ s.enqueuing) fun call => call.Relies es s i

lemma EnqueueCall.ReliesOrIdle.undisturbed {call : Option EnqueueCall}
    (h : EnqueueCall.ReliesOrIdle es s i call)
    (hs : s.Undisturbed s' i) : EnqueueCall.ReliesOrIdle es s' i call := by
  cases call with
  | none => exact hs.enqueuing.not.mpr h
  | some call => exact EnqueueCall.Relies.undisturbed h hs

lemma TransactionManager.Tracked.new (es : EpochStore) (cacheSize : ℕ)
    (released waitsFor : InputKey → Prop) (executed : Finset TransactionDigest) :
    (TransactionManager.new es.epoch cacheSize).Tracked es released waitsFor executed := by
  refine ⟨rfl, ⟨fun k d => ?_, ?_, fun id d => ?_, ?_⟩, ?_, ?_, ?_, nodup_nil, ?_, ?_⟩ <;>
    simp [TransactionManager.new, Inner.Waits, Collects]

lemma managerSystem_holds {cacheSize : ℕ} {calls : ℕ → Option EnqueueCall}
    (h : (managerSystem es cacheSize fun s keys =>
      AnnouncesInOrder s.announced s.manager.inner.availableObjectsCache keys).Reach s calls) :
    Interleaving.Holds (ManagerState.Invariant es) (EnqueueCall.ReliesOrIdle es)
      (fun _ _ => True) s calls := by
  refine h.holds (fun _ _ _ => trivial) ?_ ?_
  · rintro ⟨_, _, _, _, _, _, _, _⟩ calls ⟨rfl, rfl, hini, rfl, rfl, rfl, hcalls⟩
    refine ⟨⟨.new .., ⟨fun id _ hc => ?_, fun id _ _ hc => ?_, fun id hp => ?_⟩, rfl, fun _ hk =>
      ?_, fun _ _ hk => hini ▸ hk, rfl⟩,
      fun i => ?_, fun _ _ _ => trivial⟩
    · cases hc
    · cases hc
    · cases hp
    · cases hk
    · rw [hcalls i]
      exact Finset.notMem_empty i
  · intro s calls i s' call' hinv hact
    have hoth : ∀ j, s.Undisturbed s' j → EnqueueCall.ReliesOrIdle es s' j (calls j) := fun j =>
      (hinv.each j).undisturbed
    rcases hact with ⟨certs, prepared, order, hnone, hprep, hids, -, hord, rfl, rfl⟩ | ⟨call, next,
      hcall, hstep, rfl⟩ |
      ⟨digest, keys, hdig, hheld, hmay, rfl, rfl⟩ | ⟨store, executed, hsto, hexed, rfl, rfl⟩
    · have hi := hinv.each i
      rw [hnone] at hi
      exact ⟨hinv.shared, relies_start hi hprep hids hord, fun j _ => ⟨hinv.each j, trivial⟩⟩
    · have hrelies := hinv.each i
      rw [hcall] at hrelies
      have hnext : Advances es s s' i next := by
        cases hstage : call.stage with
        | prepared certs objectAvailability receivingObjects =>
            exact hinv.shared.check hstage hrelies hstep
        | checked certs objectAvailability receivingObjects =>
            exact hinv.shared.readStore hstage hrelies hstep
        | read certs objectAvailability misses => exact hinv.shared.queue hstage hrelies hstep
        | returned | panicked => simp [step, hstage] at hstep
      exact ⟨hnext.shared, hnext.relies, fun j hj => ⟨hoth j (hnext.others j hj), trivial⟩⟩
    · obtain ⟨hinv', hs⟩ := hinv.shared.notifyCommit hdig hheld hmay
      exact ⟨hinv', hoth i (hs i), fun j _ => ⟨hoth j (hs j), trivial⟩⟩
    · obtain ⟨hinv', hs⟩ := hinv.shared.progress hsto hexed
      exact ⟨hinv', hoth i (hs i), fun j _ => ⟨hoth j (hs j), trivial⟩⟩

end Runs

/-- The manager loses nothing, sends nothing twice and nothing early. -/
structure ManagerState.Safe (es : EpochStore) (s : ManagerState)
    (calls : ℕ → Option EnqueueCall) : Prop where
  missingInputs : ∀ (k : InputKey) (d : TransactionDigest),
    (∃ digests, s.manager.inner.missingInputs[k]? = some digests ∧ d ∈ digests) ↔
    ∃ pc, s.manager.inner.pendingCertificates[d]? = some pc ∧ k ∈ pc.waitingInputObjects
  inputObjects : ∀ (id : ObjectId) (d : TransactionDigest),
    (∃ txns, s.manager.inner.inputObjects[id]? = some txns ∧ d ∈ txns) ↔
    ∃ k : InputKey, k.id = id ∧ ∃ pc, s.manager.inner.pendingCertificates[d]? = some pc ∧
      k ∈ pc.waitingInputObjects
  executing : ∀ d ∈ s.manager.inner.executingCertificates, s.manager.inner.pendingCertificates[d]? = none
  noPanic : s.panicked = none ∧ ∀ i call p, calls i = some call → call.stage ≠ .panicked p
  sent : ∀ pc ∈ s.manager.txReadyCertificates, ∃ keys, es.inputKeys pc.certificate = some keys ∧
    ∀ k ∈ keys, Released s.announced s.found k
  sentOnce : (s.manager.txReadyCertificates.map fun pc => pc.certificate.digest).Nodup
  waiting : ∀ (d : TransactionDigest) pc, s.manager.inner.pendingCertificates[d]? = some pc →
    (∃ k, k ∈ pc.waitingInputObjects) ∧ ∀ k ∈ pc.waitingInputObjects,
      k ∉ s.announced ∧ (s.initialStore.Holds k → LowerAnnounced s.announced k)
  kept : ∀ i call, calls i = some call → call.stage = .returned →
    ∀ c ∈ call.certs, c.1.epoch = es.epoch →
    (s.manager.inner.pendingCertificates[c.1.digest]?).isSome ∨
      (∃ pc ∈ s.manager.txReadyCertificates, pc.certificate.digest = c.1.digest) ∨
        c.1.digest ∈ s.executed

/-- If no version is announced after a higher one that the cache has dropped, no certificate is
lost, sent twice or sent early, over every interleaving and for every size of the cache. -/
theorem transactionManager_safe {es : EpochStore} {cacheSize : ℕ} {s : ManagerState}
    {calls : ℕ → Option EnqueueCall} (h : (managerSystem es cacheSize fun s keys =>
      AnnouncesInOrder s.announced s.manager.inner.availableObjectsCache keys).Reach s
        calls) : s.Safe es calls := by
  obtain ⟨hinv, heach, -⟩ := managerSystem_holds h
  have hrelies : ∀ i call, calls i = some call → call.Relies es s i := by
    intro i call hcall
    have hi := heach i
    rwa [hcall] at hi
  constructor
  · exact hinv.tracked.indexes.missing_iff
  · exact hinv.tracked.indexes.queued_iff
  · exact fun d hd => (hinv.tracked.executing d hd).1
  · refine ⟨hinv.panicked, fun i call p hcall hstage => ?_⟩
    have hp := hrelies i call hcall
    rw [EnqueueCall.Relies, hstage] at hp
    exact hp
  · exact hinv.tracked.sent
  · exact hinv.tracked.sent_nodup
  · intro d pc hpc
    obtain ⟨-, hne, htracked⟩ := hinv.tracked.pending d pc hpc
    exact ⟨hne, htracked.waits⟩
  · intro i call hcall hstage c hc he
    have hreturned := hrelies i call hcall
    rw [EnqueueCall.Relies, hstage] at hreturned
    rcases hreturned.2 c hc he with (hkept | hkept) | hkept
    · exact .inl hkept
    · exact .inr (.inl hkept)
    · exact .inr (.inr hkept)

section Schedules

variable {cacheSize : ℕ} {mayAnnounce : ManagerState → List InputKey → Prop}
  {calls : ℕ → Option EnqueueCall} {call call' : EnqueueCall}

def EnqueueCall.steps (i : ℕ) : ℕ → ManagerState × EnqueueCall → Option (ManagerState × EnqueueCall)
  | 0, r => some r
  | n + 1, (s, call) => (call.step s i).bind (steps i n)

lemma reach_steps {n : ℕ}
    (h : (managerSystem es cacheSize mayAnnounce).Reach s (update calls i (some call)))
    (hsts : EnqueueCall.steps i n (s, call) = some (s', call')) :
    (managerSystem es cacheSize mayAnnounce).Reach s' (update calls i (some call')) := by
  induction n generalizing s call with
  | zero =>
    cases hsts
    exact h
  | succ n ih =>
    obtain ⟨⟨s₁, call₁⟩, hstep, hrest⟩ := Option.bind_eq_some_iff.mp hsts
    refine ih ?_ hrest
    have hnext :=
      h.act (i := i) (q := some call₁) (.inr (.inl ⟨call, call₁, update_self .., hstep, rfl⟩))
    rwa [update_idem] at hnext

lemma reach_notifyCommit (digest : TransactionDigest) {keys : List InputKey}
    (h : (managerSystem es cacheSize mayAnnounce).Reach s calls) (hdig : digest ∈ s.executed)
    (hheld : ∀ k ∈ keys, s.store.Holds k) (hmay : mayAnnounce s keys) :
    (managerSystem es cacheSize mayAnnounce).Reach (s.notifyCommit es.epoch digest keys) calls := by
  have hnext :=
    h.act (i := 0) (q := calls 0) (.inr (.inr (.inl ⟨digest, keys, hdig, hheld, hmay, rfl, rfl⟩)))
  rwa [update_eq_self] at hnext

lemma reach_announcements {announcements : List (TransactionDigest × List InputKey)}
    (h : (managerSystem es cacheSize fun _ _ => True).Reach s calls)
    (hall : ∀ a ∈ announcements, a.1 ∈ s.executed ∧ ∀ k ∈ a.2, s.store.Holds k) :
    (managerSystem es cacheSize fun _ _ => True).Reach
      (announcements.foldl (fun s a => s.notifyCommit es.epoch a.1 a.2) s) calls := by
  induction announcements generalizing s with
  | nil => exact h
  | cons a announcements ih =>
    obtain ⟨hdig, hheld⟩ := hall a mem_cons_self
    refine ih (reach_notifyCommit a.1 h hdig hheld trivial) fun b hb => ?_
    dsimp only [ManagerState.notifyCommit]
    split <;> exact hall b (mem_cons_of_mem a hb)

end Schedules

def versionOf (n v : ℕ) : InputKey := .versionedObject (Fin.ofNat _ n) v

def storeWith (cacheSize : ℕ) (versions : List (ObjectId × SequenceNumber)) : ManagerState :=
  let store : ObjectStore := ⟨versions.foldl (fun t v => t.insert (toLex v)) ∅, ∅, ∅⟩
  ⟨.new 0 cacheSize, store, {1, 2, 3}, none, store, [], [], ∅⟩

def ownedOnly : EpochStore := ⟨0, fun _ => []⟩

def spending (n v : ℕ) : ExecutableTransaction :=
  ⟨7, 0, [.immOrOwnedMoveObject ⟨Fin.ofNat _ n, v, 0⟩], []⟩

def enqueueOf (n v : ℕ) : EnqueueCall :=
  .start [(spending n v, none)]
    [⟨spending n v, none, (∅ : Std.TreeSet InputKey).insert (versionOf n v)⟩] [versionOf n v]

variable {n v : ℕ}

lemma holds_of_mem {store : ObjectStore} (h : toLex (Fin.ofNat _ n, v) ∈ store.objects) :
    store.Holds (versionOf n v) := fun _ => if_pos h

lemma reach_enqueueOf {cacheSize : ℕ} {mayAnnounce : ManagerState → List InputKey → Prop}
    (h : (managerSystem ownedOnly cacheSize mayAnnounce).Reach s fun _ => none)
    (hexed : s.executed = {1, 2, 3}) :
    (managerSystem ownedOnly cacheSize mayAnnounce).Reach s
      (update (fun _ => none) 0 (some (enqueueOf n v))) := by
  refine h.act (.inl ⟨_, _, _, rfl, ?_, fun c hc k hk k' hk' _ => ?_, nodup_singleton _,
    fun k => ?_, rfl, rfl⟩)
  · rw [hexed]
    rfl
  · rw [mem_singleton.mp hc] at hk hk'
    rw [Std.TreeSet.mem_insert, compare_eq_iff_eq] at hk hk'
    exact (hk.resolve_right Std.TreeSet.not_mem_emptyc).symm.trans
      (hk'.resolve_right Std.TreeSet.not_mem_emptyc)
  · simp [Std.TreeSet.mem_insert, eq_comm (a := k)]

/-- Version 5 of object 1 is announced and dropped from a cache of size one by an announcement of
object 2. The late announcement of version 3 makes the cache deny version 5, so a transaction
that needs it waits for an announcement that was already made. -/
theorem transactionManager_lateAnnouncement :
    ∃ s calls, (managerSystem ownedOnly 1 fun _ _ => True).Reach s calls ∧
      (∀ i call, calls i = some call → call.stage = .returned) ∧
      ∃ pc, s.manager.inner.pendingCertificates[(7 : TransactionDigest)]? = some pc ∧
        versionOf 1 5 ∈ pc.waitingInputObjects ∧ versionOf 1 5 ∈ s.announced := by
  let s₀ := storeWith 1 [(1, 3), (1, 5), (2, 1)]
  let announcements : List (TransactionDigest × List InputKey) :=
    [(2, [versionOf 1 5]), (3, [versionOf 2 1]), (1, [versionOf 1 3])]
  let s₁ := announcements.foldl (fun s a => s.notifyCommit ownedOnly.epoch a.1 a.2) s₀
  have hheld : ∀ a ∈ announcements, a.1 ∈ s₀.executed ∧ ∀ k ∈ a.2, s₀.store.Holds k := by
    simp only [announcements, forall_mem_cons]
    refine ⟨⟨by decide, holds_of_mem ?_, ?_⟩, ⟨by decide, holds_of_mem ?_, ?_⟩,
      ⟨by decide, holds_of_mem ?_, ?_⟩, ?_⟩
    all_goals first | decide +kernel | simp
  have h₀ : (managerSystem ownedOnly 1 fun _ _ => True).Reach s₀ fun _ => none :=
    .init ⟨rfl, rfl, rfl, rfl, rfl, rfl, fun _ => rfl⟩
  have h₁ := reach_announcements h₀ hheld
  have h₂ := reach_enqueueOf (n := 1) (v := 5) h₁ rfl
  have hrun : (steps 0 3 (s₁, enqueueOf 1 5)).any (fun r =>
      (match r.2.stage with | .returned => true | _ => false) &&
      (r.1.manager.inner.pendingCertificates[(7 : TransactionDigest)]?).any
        (fun pc => decide (versionOf 1 5 ∈ pc.waitingInputObjects)) &&
      decide (versionOf 1 5 ∈ r.1.announced)) = true := by
    decide +kernel
  obtain ⟨⟨s, call⟩, hsteps, hp⟩ := (Option.any_eq_true ..).mp hrun
  rw [Bool.and_eq_true, Bool.and_eq_true] at hp
  obtain ⟨pc, hpc, hwaits⟩ := (Option.any_eq_true ..).mp hp.1.2
  refine ⟨s, _, reach_steps h₂ hsteps, fun i call' hcall => ?_, pc, hpc, of_decide_eq_true hwaits,
    of_decide_eq_true hp.2⟩
  by_cases hi : i = 0
  · subst hi
    rw [update_self, Option.some.injEq] at hcall
    subst hcall
    have hstage := hp.1.1
    split at hstage
    · assumption
    · cases hstage
  · rw [update_of_ne hi] at hcall
    cases hcall

/-- A transaction that is queued after its input was announced is sent. -/
theorem transactionManager_safe_announced :
    ∃ s calls, (managerSystem ownedOnly 1 fun s keys =>
        AnnouncesInOrder s.announced s.manager.inner.availableObjectsCache keys).Reach s calls ∧
      (∃ pc ∈ s.manager.txReadyCertificates, pc.certificate = spending 1 5) ∧
        s.Safe ownedOnly calls := by
  let s₀ := storeWith 1 [(1, 5)]
  have h₀ : (managerSystem ownedOnly 1 fun s keys =>
      AnnouncesInOrder s.announced s.manager.inner.availableObjectsCache keys).Reach s₀ fun _ => none :=
    .init ⟨rfl, rfl, rfl, rfl, rfl, rfl, fun _ => rfl⟩
  have hheld : ∀ k ∈ [versionOf 1 5], s₀.store.Holds k := by
    rw [forall_mem_singleton]
    exact holds_of_mem (by decide +kernel)
  have h₁ := reach_notifyCommit 2 h₀ (by decide) hheld
    ⟨fun _ _ _ _ _ hin => absurd hin not_mem_nil, trivial⟩
  have h₂ := reach_enqueueOf (n := 1) (v := 5) h₁ rfl
  have hrun : (steps 0 3 (s₀.notifyCommit 0 2 [versionOf 1 5], enqueueOf 1 5)).any (fun r =>
      r.1.manager.txReadyCertificates.any fun pc => decide (pc.certificate = spending 1 5)) = true := by
    decide +kernel
  obtain ⟨⟨s, call⟩, hsteps, hp⟩ := (Option.any_eq_true ..).mp hrun
  obtain ⟨pc, hpc, hcert⟩ := any_eq_true.mp hp
  have hreach := reach_steps h₂ hsteps
  exact ⟨s, _, hreach, ⟨pc, hpc, of_decide_eq_true hcert⟩, transactionManager_safe hreach⟩

end SuiProofs.Authority

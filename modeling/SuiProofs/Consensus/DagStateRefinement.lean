import SuiProofs.Consensus.DagState

namespace SuiProofs.Consensus

open Library List Function DagState VerifiedBlock
open Std (TreeMap TreeSet)

def acceptInto (A : Finset VerifiedBlock) (block : VerifiedBlock) : Finset VerifiedBlock :=
  if ∃ b ∈ A, b.reference = block.reference then A else insert block A

/-- Blocks of the committee with distinct references, genesis excluded. -/
structure AcceptableSet (ctx : Context) (A : Finset VerifiedBlock) : Prop where
  injOn : ∀ b ∈ A, ∀ b' ∈ A, b.reference = b'.reference → b = b'
  round_pos : ∀ b ∈ A, 0 < b.round
  author_lt : ∀ b ∈ A, b.author < ctx.committee.size

/-- A positive committed round is the round of an accepted block of the authority. -/
def CommittedRoundsOf (A : Finset VerifiedBlock) (rounds : ℕ → ℕ) : Prop :=
  ∀ a, rounds a ≠ 0 → ∃ b ∈ A, b.author = a ∧ b.round = rounds a

/-- A commit of accepted blocks, the leader among them. -/
structure CommitOf (A : Finset VerifiedBlock) (c : Commit) : Prop where
  blocks : ∀ r ∈ c.blocks, ∃ b ∈ A, b.reference = r
  leader_mem : c.leader ∈ c.blocks

/-- The store holds the given blocks, and commits and committed rounds of them. -/
structure StoreHolds (ctx : Context) (s : Store) (A : Finset VerifiedBlock) : Prop where
  acceptable : AcceptableSet ctx A
  blocks_iff : ∀ (r : BlockRef) (b : VerifiedBlock), s.blocks[r]? = some b ↔ b ∈ A ∧ b.reference = r
  index_iff : ∀ k, k ∈ s.digestsByAuthorities ↔ BlockRef.ofAuthorKey k ∈ s.blocks
  commits : ∀ (k : CommitRef) (c : TrustedCommit), s.commits[k]? = some c → CommitOf A c.toCommit
  commitInfo : ∀ (k : CommitRef) (i : CommitInfo), s.commitInfo[k]? = some i →
    CommittedRoundsOf A i.committedRounds

namespace DagState

/-- The cache holds accepted blocks only, and its two indices agree. -/
structure CacheSound (d : DagState) (A : Finset VerifiedBlock) : Prop where
  mem : ∀ (r : BlockRef) (b : VerifiedBlock), d.recentBlocks[r]? = some b → b ∈ A ∧ b.reference = r
  refs_iff : ∀ a r, r ∈ d.recentRefs a ↔ r.author = a ∧ r ∈ d.recentBlocks

/-- Every accepted block is in the store or about to be written. -/
structure Persists (ctx : Context) (d : DagState) (A : Finset VerifiedBlock) : Prop where
  acceptable : AcceptableSet ctx A
  cache : d.CacheSound A
  store : ∃ B ⊆ A, (∀ b ∈ A, b ∈ B ∨ b ∈ d.blocksToWrite) ∧ StoreHolds ctx d.store B
  toWrite : ∀ b ∈ d.blocksToWrite, b ∈ A
  committedRounds : CommittedRoundsOf A d.lastCommittedRounds
  commits : ∀ c ∈ d.commitsToWrite, CommitOf A c.toCommit
  commitInfo : ∀ i ∈ d.commitInfoToWrite, CommittedRoundsOf A i.2.committedRounds

/-- The state answers as the set of all accepted blocks would. -/
structure Refines (ctx : Context) (d : DagState) (A : Finset VerifiedBlock) :
    Prop extends Persists ctx d A where
  /-- All accepted blocks above the eviction rounds are cached. -/
  cached : ∀ b ∈ A, d.authorityEvictionRound b.author < b.round → b.reference ∈ d.recentBlocks
  toWrite_cached : ∀ b ∈ d.blocksToWrite, b.reference ∈ d.recentBlocks
  highest_ge : ∀ b ∈ A, b.round ≤ d.highestAcceptedRound
  highest_mem : d.highestAcceptedRound ≠ 0 → ∃ b ∈ A, b.round = d.highestAcceptedRound
  cachedRounds_eq : d.cachedRounds = ctx.dagStateCachedRounds

end DagState

variable {ctx : Context} {d d' : DagState} {A B : Finset VerifiedBlock} {b block : VerifiedBlock}
  {r : BlockRef} {blocks : List VerifiedBlock} {s : Store}

section Abstract

lemma subset_acceptInto : A ⊆ acceptInto A block := by
  unfold acceptInto
  split_ifs
  · exact subset_rfl
  · exact Finset.subset_insert block A

lemma subset_foldl_acceptInto : A ⊆ blocks.foldl acceptInto A := by
  induction blocks generalizing A with
  | nil => exact subset_rfl
  | cons b blocks ih => exact subset_acceptInto.trans ih

lemma mem_of_mem_foldl_acceptInto (hb : b ∈ blocks.foldl acceptInto A) :
    b ∈ A ∨ b ∈ blocks := by
  induction blocks generalizing A with
  | nil => exact .inl hb
  | cons c blocks ih =>
    rcases ih hb with hb | hb
    · unfold acceptInto at hb
      split_ifs at hb
      · exact .inl hb
      · rcases Finset.mem_insert.mp hb with rfl | hb
        · exact .inr mem_cons_self
        · exact .inl hb
    · exact .inr (mem_cons_of_mem c hb)

variable {rounds : ℕ → ℕ}

lemma CommittedRoundsOf.mono (h : CommittedRoundsOf A rounds) (hAB : A ⊆ B) :
    CommittedRoundsOf B rounds := by
  intro a ha
  obtain ⟨b, hb, he⟩ := h a ha
  exact ⟨b, hAB hb, he⟩

lemma CommitOf.mono {c : Commit} (h : CommitOf A c) (hAB : A ⊆ B) : CommitOf B c where
  blocks r hr := by
    obtain ⟨b, hb, he⟩ := h.blocks r hr
    exact ⟨b, hAB hb, he⟩
  leader_mem := h.leader_mem

lemma AcceptableSet.insert (h : AcceptableSet ctx A) (hnew : ∀ b ∈ A, b.reference ≠ block.reference)
    (hrd : 0 < block.round) (hau : block.author < ctx.committee.size) :
    AcceptableSet ctx (insert block A) where
  injOn b hb b' hb' he := by
    rcases Finset.mem_insert.mp hb with rfl | hbA <;> rcases Finset.mem_insert.mp hb' with rfl | hb'A
    · rfl
    · exact absurd he.symm (hnew b' hb'A)
    · exact absurd he (hnew b hbA)
    · exact h.injOn b hbA b' hb'A he
  round_pos := (Finset.forall_mem_insert _ _ _).mpr ⟨hrd, h.round_pos⟩
  author_lt := (Finset.forall_mem_insert _ _ _).mpr ⟨hau, h.author_lt⟩

lemma committedRoundsOf_raise (h : CommittedRoundsOf A rounds) {refs : List BlockRef}
    (hrefs : ∀ r ∈ refs, ∃ b ∈ A, b.reference = r) :
    CommittedRoundsOf A (raiseCommittedRounds rounds refs) := by
  induction refs generalizing rounds with
  | nil => exact h
  | cons r refs ih =>
    refine ih (?_ : CommittedRoundsOf A (update rounds r.author (max (rounds r.author) r.round)))
      (fun r' hr' => hrefs r' (mem_cons_of_mem r hr'))
    intro a ha
    by_cases har : a = r.author
    · subst har
      rw [update_self] at ha ⊢
      rcases max_choice (rounds r.author) r.round with hmax | hmax
      · rw [hmax] at ha ⊢
        exact h _ ha
      · obtain ⟨b, hb, rfl⟩ := hrefs r mem_cons_self
        exact ⟨b, hb, rfl, hmax.symm⟩
    · rw [update_of_ne har] at ha ⊢
      exact h a ha

lemma genesisGet_eq_some_iff :
    genesisGet ctx r = some b ↔ b ∈ genesisBlocks ctx ∧ b.reference = r := by
  unfold genesisGet
  constructor
  · intro h
    exact ⟨mem_of_find?_eq_some h, by simpa using List.find?_some h⟩
  · rintro ⟨hb, rfl⟩
    cases hf : (genesisBlocks ctx).find? (fun x => x.reference = b.reference) with
    | none =>
      rw [List.find?_eq_none] at hf
      exact absurd (decide_eq_true rfl) (hf b hb)
    | some b' =>
      have hmem := mem_genesisBlocks.mp (mem_of_find?_eq_some hf)
      have href : b'.reference = b.reference := by simpa using List.find?_some hf
      have hau : b'.author = b.author := congrArg BlockRef.author href
      rw [hmem.2, (mem_genesisBlocks.mp hb).2, hau]

end Abstract

namespace DagState

lemma getElem?_recentBlocks_update : (d.updateBlockMetadata block).recentBlocks[r]? =
    if block.reference = r then some block else d.recentBlocks[r]? := by
  simp [updateBlockMetadata, TreeMap.getElem?_insert]

lemma mem_recentBlocks_update :
    r ∈ (d.updateBlockMetadata block).recentBlocks ↔ block.reference = r ∨ r ∈ d.recentBlocks := by
  simp [updateBlockMetadata, TreeMap.mem_insert]

variable {a : ℕ}

lemma mem_recentRefs_update : r ∈ (d.updateBlockMetadata block).recentRefs a ↔
    (block.reference = r ∧ block.author = a) ∨ r ∈ d.recentRefs a := by
  unfold updateBlockMetadata
  by_cases ha : a = block.author
  · simp [ha, TreeSet.mem_insert]
  · simp [ha, Ne.symm ha]

namespace CacheSound

lemma lookup (h : d.CacheSound A) (hA : AcceptableSet ctx A) (hb : b ∈ A)
    (hr : b.reference ∈ d.recentBlocks) :
    d.recentBlocks[b.reference]? = some b := by
  obtain ⟨b', hb'⟩ := mem_map_iff_exists.mp hr
  obtain ⟨hA', he⟩ := h.mem _ b' hb'
  rw [hb', hA.injOn b' hA' b hb he]

lemma exists_of_mem (h : d.CacheSound A) (hr : r ∈ d.recentBlocks) : ∃ b ∈ A, b.reference = r := by
  obtain ⟨b, hb⟩ := mem_map_iff_exists.mp hr
  exact ⟨b, h.mem r b hb⟩

lemma updateBlockMetadata (h : d.CacheSound A) (hAB : A ⊆ B) (hblk : block ∈ B) :
    (d.updateBlockMetadata block).CacheSound B where
  mem r b hr := by
    rw [getElem?_recentBlocks_update] at hr
    split_ifs at hr with he
    · cases hr
      exact ⟨hblk, he⟩
    · exact (h.mem r b hr).imp_left (fun hb => hAB hb)
  refs_iff a r := by
    rw [mem_recentRefs_update, mem_recentBlocks_update, h.refs_iff]
    constructor
    · rintro (⟨rfl, rfl⟩ | ⟨hra, hr⟩)
      · exact ⟨rfl, .inl rfl⟩
      · exact ⟨hra, .inr hr⟩
    · rintro ⟨rfl, rfl | hr⟩
      · exact .inl ⟨rfl, rfl⟩
      · exact .inr ⟨rfl, hr⟩

end CacheSound

/-- The last committed block of an authority is still cached. -/
def CacheReachesCommits (d : DagState) : Prop :=
  ∀ a, d.lastCommittedRounds a ≠ 0 → 1 ≤ d.cachedRounds

/-- Some block of an authority is cached from its last committed round on, so an accepted
block that is not cached lies below a cached one. -/
lemma exists_recent_above (hA : AcceptableSet ctx A) (hrs : CommittedRoundsOf A d.lastCommittedRounds)
    (hcac : ∀ b ∈ A, d.authorityEvictionRound b.author < b.round → b.reference ∈ d.recentBlocks)
    (hpos : d.CacheReachesCommits) (hb : b ∈ A) (hn : b.reference ∉ d.recentBlocks) :
    ∃ b' ∈ A, b'.author = b.author ∧ b'.reference ∈ d.recentBlocks ∧ b.round < b'.round := by
  have hevict : b.round ≤ d.authorityEvictionRound b.author := by
    by_contra hlt
    exact hn (hcac b hb (not_le.mp hlt))
  have hrd := hA.round_pos b hb
  unfold authorityEvictionRound evictionRound at *
  have hcommd : d.lastCommittedRounds b.author ≠ 0 := by omega
  have hone := hpos b.author hcommd
  obtain ⟨b', hb', hau, hrd'⟩ := hrs b.author hcommd
  refine ⟨b', hb', hau, hcac b' hb' ?_, ?_⟩
  · rw [hau, hrd']
    omega
  · rw [hrd']
    omega

namespace Persists

variable (h : d.Persists ctx A)

include h

lemma of_store_lookup (hs : d.store.blocks[r]? = some b) : b ∈ A ∧ b.reference = r := by
  obtain ⟨B, hBA, _, hB⟩ := h.store
  exact ((hB.blocks_iff r b).mp hs).imp_left (fun hb => hBA hb)

lemma exists_of_store_contains (hs : d.store.blocks.contains r = true) : ∃ b ∈ A, b.reference = r := by
  obtain ⟨b, hb⟩ := mem_map_iff_exists.mp (TreeMap.contains_iff_mem.mp hs)
  exact ⟨b, h.of_store_lookup hb⟩

lemma exists_of_containsBlock (hrd : r.round ≠ 0) (hc : d.containsBlock ctx r = true) :
    ∃ b ∈ A, b.reference = r := by
  unfold containsBlock at hc
  dsimp only at hc
  split_ifs at hc with hkn
  · rcases hkn with hrefs | hg
    · exact h.cache.exists_of_mem ((h.cache.refs_iff _ r).mp (TreeSet.contains_iff_mem.mp hrefs)).2
    · obtain ⟨g, hg⟩ := Option.isSome_iff_exists.mp hg
      obtain ⟨hgen, rfl⟩ := genesisGet_eq_some_iff.mp hg
      exact absurd (round_of_mem_genesisBlocks hgen) hrd
  · cases hmax : last? (d.recentRefs r.author) with
    | none => simp [hmax] at hc
    | some last =>
      simp only [hmax] at hc
      split_ifs at hc
      exact h.exists_of_store_contains hc

lemma pushBlock (hinj : ∀ b ∈ A, b.reference = block.reference → b = block) (hrd : 0 < block.round)
    (hau : block.author < ctx.committee.size) :
    (d.pushBlock block).Persists ctx (insert block A) := by
  have hAB : A ⊆ insert block A := Finset.subset_insert block A
  have hself : block ∈ insert block A := Finset.mem_insert_self block A
  have hcache := h.cache.updateBlockMetadata hAB hself
  have hacc : AcceptableSet ctx (insert block A) := by
    by_cases hblk : block ∈ A
    · rw [Finset.insert_eq_of_mem hblk]
      exact h.acceptable
    · exact h.acceptable.insert (fun b hb he => hblk (hinj b hb he ▸ hb)) hrd hau
  obtain ⟨B, hBA, hA, hB⟩ := h.store
  refine
    { acceptable := hacc
      cache := ⟨hcache.mem, hcache.refs_iff⟩
      store := ⟨B, hBA.trans hAB, ?_, hB⟩
      toWrite := ?_
      committedRounds := h.committedRounds.mono hAB
      commits := fun c hc => (h.commits c hc).mono hAB
      commitInfo := fun i hi => (h.commitInfo i hi).mono hAB }
  · intro b hb
    rcases Finset.mem_insert.mp hb with rfl | hb
    · exact .inr (by simp [pushBlock])
    · exact (hA b hb).imp_right (fun hw => mem_append_left _ hw)
  · exact forall_mem_concat (fun b hb => hAB (h.toWrite b hb)) hself

end Persists

namespace Refines

variable (h : d.Refines ctx A)

include h

lemma store_lookup (hb : b ∈ A) (hn : b.reference ∉ d.recentBlocks) :
    d.store.blocks[b.reference]? = some b := by
  obtain ⟨B, _, hA, hB⟩ := h.store
  refine (hB.blocks_iff _ _).mpr ⟨(hA b hb).resolve_right fun hw => ?_, rfl⟩
  exact hn (h.toWrite_cached b hw)

lemma getBlock_iff : d.getBlock ctx r = some b ↔ b.reference = r ∧ (b ∈ genesisBlocks ctx ∨ b ∈ A) := by
  unfold getBlock
  by_cases hr : r.round = genesisRound
  · rw [if_pos hr, genesisGet_eq_some_iff]
    constructor
    · rintro ⟨hb, he⟩
      exact ⟨he, .inl hb⟩
    · rintro ⟨rfl, hb | hb⟩
      · exact ⟨hb, rfl⟩
      · exact absurd hr (h.acceptable.round_pos b hb).ne'
  · rw [if_neg hr]
    have hgen : b.reference = r → b ∉ genesisBlocks ctx := by
      rintro rfl hb
      exact hr (round_of_mem_genesisBlocks hb)
    cases hc : d.recentBlocks[r]? with
    | some b' =>
      obtain ⟨hA, rfl⟩ := h.cache.mem r b' hc
      simp only [Option.some.injEq]
      constructor
      · rintro rfl
        exact ⟨rfl, .inr hA⟩
      · rintro ⟨he, hb | hb⟩
        · exact absurd hb (hgen he)
        · exact h.acceptable.injOn b' hA b hb he.symm
    | none =>
      have hn : r ∉ d.recentBlocks := by simp [mem_map_iff_exists, hc]
      constructor
      · intro hs
        obtain ⟨hA, he⟩ := h.of_store_lookup hs
        exact ⟨he, .inr hA⟩
      · rintro ⟨rfl, hb | hb⟩
        · exact absurd hb (hgen rfl)
        · exact h.store_lookup hb hn

lemma requireBlock_eq (hb : b ∈ genesisBlocks ctx ∨ b ∈ A) : d.requireBlock ctx b.reference = .ok b := by
  rw [requireBlock, h.getBlock_iff.mpr ⟨rfl, hb⟩]

lemma requireBlock_eq_ok_iff :
    d.requireBlock ctx r = .ok b ↔ b.reference = r ∧ (b ∈ genesisBlocks ctx ∨ b ∈ A) := by
  rw [← h.getBlock_iff, requireBlock]
  cases d.getBlock ctx r <;> simp

/-- The cache and the store together have room for all accepted blocks, which bounds the
traversals of the DAG. -/
lemma card_le_fuel : A.card ≤ d.recentBlocks.size + d.store.blocks.size := by
  have hsub : A.image reference ⊆
      d.recentBlocks.keys.toFinset ∪ d.store.blocks.keys.toFinset := by
    intro r hr
    obtain ⟨b, hb, rfl⟩ := Finset.mem_image.mp hr
    simp only [Finset.mem_union, mem_toFinset, TreeMap.mem_keys]
    by_cases hrecent : b.reference ∈ d.recentBlocks
    · exact .inl hrecent
    · exact .inr (mem_map_iff_exists.mpr ⟨b, h.store_lookup hb hrecent⟩)
  calc A.card = (A.image reference).card :=
        (Finset.card_image_of_injOn h.acceptable.injOn).symm
    _ ≤ (d.recentBlocks.keys.toFinset ∪ d.store.blocks.keys.toFinset).card := Finset.card_le_card hsub
    _ ≤ d.recentBlocks.keys.toFinset.card + d.store.blocks.keys.toFinset.card := Finset.card_union_le _ _
    _ ≤ d.recentBlocks.keys.length + d.store.blocks.keys.length :=
        Nat.add_le_add (toFinset_card_le _) (toFinset_card_le _)
    _ = d.recentBlocks.size + d.store.blocks.size := by
        rw [TreeMap.length_keys, TreeMap.length_keys]

lemma exists_cached_above (hcac : d.CacheReachesCommits) (hb : b ∈ A)
    (hn : b.reference ∉ d.recentBlocks) : ∃ r ∈ d.recentRefs b.author, b.round < r.round := by
  obtain ⟨b', _, hau, hrecent, hlt⟩ := exists_recent_above h.acceptable h.committedRounds h.cached
    hcac hb hn
  exact ⟨b'.reference, (h.cache.refs_iff _ _).mpr ⟨hau, hrecent⟩, hlt⟩

lemma cacheReachesCommits (hcac : 1 ≤ ctx.dagStateCachedRounds) : d.CacheReachesCommits :=
  fun _ _ => h.cachedRounds_eq ▸ hcac

lemma containsBlock_iff (hcac : d.CacheReachesCommits) :
    d.containsBlock ctx r = true ↔
      r ∈ genesisRefs ctx ∨ ∃ b ∈ A, b.reference = r := by
  have hgen : (genesisGet ctx r).isSome ↔ r ∈ genesisRefs ctx := by
    simp [Option.isSome_iff_exists, genesisGet_eq_some_iff, genesisRefs]
  have hrefs : (d.recentRefs r.author).contains r = true ↔ r ∈ d.recentBlocks := by
    rw [TreeSet.contains_iff_mem, h.cache.refs_iff]
    exact and_iff_right rfl
  unfold containsBlock
  simp only [hrefs, hgen]
  by_cases hkn : r ∈ d.recentBlocks ∨ r ∈ genesisRefs ctx
  · rw [if_pos hkn]
    simp only [true_iff]
    exact hkn.symm.imp_right h.cache.exists_of_mem
  · rw [if_neg hkn]
    push Not at hkn
    -- An accepted block that is not cached lies below the last cached one of its author.
    have habove : ∀ b ∈ A, b.reference = r → ∃ r' ∈ d.recentRefs r.author, r.round < r'.round := by
      rintro b hb rfl
      exact h.exists_cached_above hcac hb hkn.1
    rw [or_iff_right hkn.2]
    cases hmax : last? (d.recentRefs r.author) with
    | none =>
      simp only [Bool.false_eq_true, false_iff]
      rintro ⟨b, hb, he⟩
      obtain ⟨r', hr', _⟩ := habove b hb he
      exact last?_eq_none_iff.mp hmax r' hr'
    | some last =>
      obtain ⟨_, hlast⟩ := last?_eq_some_iff.mp hmax
      dsimp only
      split_ifs with hlt
      · simp only [false_iff]
        rintro ⟨b, hb, he⟩
        obtain ⟨r', hr', hrd⟩ := habove b hb he
        have := BlockRef.round_le_of_le (hlast r' hr')
        omega
      · constructor
        · exact h.exists_of_store_contains
        · rintro ⟨b, hb, rfl⟩
          exact TreeMap.contains_iff_mem.mpr (mem_map_iff_exists.mpr ⟨b, h.store_lookup hb hkn.1⟩)

lemma mem_cached_filter {p : BlockRef → Prop} [DecidablePred p]
    (hp : ∀ b ∈ A, p b.reference → d.authorityEvictionRound b.author < b.round) :
    b ∈ (d.recentBlocks.toList.filter (fun x => p x.1)).map Prod.snd ↔ b ∈ A ∧ p b.reference := by
  simp only [mem_map_snd_filter, decide_eq_true_eq]
  constructor
  · rintro ⟨r, hr, hpr⟩
    obtain ⟨hA, rfl⟩ := h.cache.mem r b hr
    exact ⟨hA, hpr⟩
  · rintro ⟨hA, hpb⟩
    have hcac := h.cached b hA (hp b hA hpb)
    exact ⟨b.reference, h.cache.lookup h.acceptable hA hcac, hpb⟩

lemma nodup_getUncommittedBlocksAtSlot (slot : Slot) : (d.getUncommittedBlocksAtSlot slot).Nodup :=
  nodup_map_snd_filter (fun r b hr => (h.cache.mem r b hr).2) _

lemma mem_getUncommittedBlocksAtSlot {slot : Slot}
    (hslot : d.authorityEvictionRound slot.authority < slot.round) :
    b ∈ d.getUncommittedBlocksAtSlot slot ↔ b ∈ A ∧ b.slot = slot := by
  apply h.mem_cached_filter (p := fun r => r.slot = slot)
  rintro b _ rfl
  exact hslot

lemma pushBlock (hnew : ∀ b ∈ A, b.reference ≠ block.reference) (hrd : 0 < block.round)
    (hau : block.author < ctx.committee.size) :
    (d.pushBlock block).Refines ctx (insert block A) := by
  have hAB : A ⊆ insert block A := Finset.subset_insert block A
  have hself : block ∈ insert block A := Finset.mem_insert_self block A
  refine
    { h.toPersists.pushBlock (fun b hb he => absurd he (hnew b hb)) hrd hau with
      cached := ?_
      toWrite_cached := ?_
      highest_ge := ?_
      highest_mem := ?_
      cachedRounds_eq := h.cachedRounds_eq }
  · intro b hb hevict
    refine mem_recentBlocks_update.mpr ?_
    rcases Finset.mem_insert.mp hb with rfl | hb
    · exact .inl rfl
    · exact .inr (h.cached b hb hevict)
  · intro b hb
    refine mem_recentBlocks_update.mpr ?_
    rcases mem_append.mp hb with hb | hb
    · exact .inr (h.toWrite_cached b hb)
    · exact .inl (by rw [mem_singleton.mp hb])
  · exact (Finset.forall_mem_insert _ _ _).mpr
      ⟨le_max_right _ _, fun b hb => (h.highest_ge b hb).trans (le_max_left _ _)⟩
  · change max d.highestAcceptedRound block.round ≠ 0 →
      ∃ b ∈ insert block A, b.round = max d.highestAcceptedRound block.round
    intro hne
    rcases max_choice d.highestAcceptedRound block.round with hm | hm
    · rw [hm] at hne ⊢
      obtain ⟨b, hb, he⟩ := h.highest_mem hne
      exact ⟨b, hAB hb, he⟩
    · exact ⟨block, hself, hm.symm⟩

end Refines

variable {now : ℕ}

lemma acceptBlock_eq_ok (h : d.acceptBlock ctx now block = .ok d') :
    0 < block.round ∧ block.author < ctx.committee.size ∧
      (d.containsBlock ctx block.reference = true ∧ d' = d ∨
        d.containsBlock ctx block.reference = false ∧ block.timestampMs ≤ now ∧
          (block.author = ctx.ownIndex → d.getUncommittedBlocksAtSlot block.slot = []) ∧
          d' = d.pushBlock block) := by
  unfold acceptBlock at h
  split_ifs at h with h1 h2 h3 h4 h5
  · exact ⟨Nat.pos_of_ne_zero h1, by omega, .inl ⟨h3, by simpa using h.symm⟩⟩
  · refine ⟨Nat.pos_of_ne_zero h1, by omega,
      .inr ⟨by simpa using h3, by omega, ?_, by simpa using h.symm⟩⟩
    intro ho
    by_contra hne
    exact h5 ⟨ho, hne⟩

lemma Persists.acceptBlock (h : d.Persists ctx A)
    (hinj : ∀ b ∈ A, b.reference = block.reference → b = block)
    (hok : d.acceptBlock ctx now block = .ok d') : d'.Persists ctx (acceptInto A block) := by
  have hins : (∃ b ∈ A, b.reference = block.reference) → insert block A = A := by
    rintro ⟨b, hb, he⟩
    exact Finset.insert_eq_of_mem (hinj b hb he ▸ hb)
  obtain ⟨hrd, hau, ⟨hc, rfl⟩ | ⟨_, _, _, rfl⟩⟩ := acceptBlock_eq_ok hok
  · rwa [acceptInto, if_pos (h.exists_of_containsBlock hrd.ne' hc)]
  · have hpush := h.pushBlock hinj hrd hau
    unfold acceptInto
    split_ifs with hA
    · rwa [hins hA] at hpush
    · exact hpush

variable (hcac : d.CacheReachesCommits)
include hcac

lemma Refines.acceptBlock (h : d.Refines ctx A)
    (hok : d.acceptBlock ctx now block = .ok d') : d'.Refines ctx (acceptInto A block) := by
  obtain ⟨hrd, hau, ⟨hc, rfl⟩ | ⟨hc, _, _, rfl⟩⟩ := acceptBlock_eq_ok hok
  · rwa [acceptInto, if_pos (h.exists_of_containsBlock hrd.ne' hc)]
  · have hA : ¬ ∃ b ∈ A, b.reference = block.reference := by
      intro hA
      rw [(h.containsBlock_iff hcac).mpr (.inr hA)] at hc
      cases hc
    rw [acceptInto, if_neg hA]
    exact h.pushBlock (fun b hb he => hA ⟨b, hb, he⟩) hrd hau

omit hcac in
lemma Persists.acceptBlocks {U : Set VerifiedBlock}
    (hinj : ∀ b ∈ U, ∀ b' ∈ U, b.reference = b'.reference → b = b') (h : d.Persists ctx A)
    (hA : ∀ b ∈ A, b ∈ U)
    (hbs : ∀ b ∈ blocks, b ∈ U) (hok : d.acceptBlocks ctx now blocks = .ok d') :
    d'.Persists ctx (blocks.foldl acceptInto A) := by
  unfold DagState.acceptBlocks at hok
  induction blocks generalizing d A with
  | nil =>
    obtain rfl : d = d' := by simpa using hok
    exact h
  | cons block blocks ih =>
    rw [foldlM_cons, bind_eq_ok] at hok
    obtain ⟨d₁, hd₁, hok⟩ := hok
    have hblk := hbs block mem_cons_self
    refine ih (h.acceptBlock (fun b hb => hinj b (hA b hb) block hblk) hd₁) ?_
      (fun b hb => hbs b (mem_cons_of_mem block hb)) hok
    intro b hb
    rcases mem_of_mem_foldl_acceptInto (show b ∈ [block].foldl acceptInto A from hb) with hb | hb
    · exact hA b hb
    · exact mem_singleton.mp hb ▸ hblk

lemma CacheReachesCommits.acceptBlock
    (hok : d.acceptBlock ctx now block = .ok d') : d'.CacheReachesCommits := by
  obtain ⟨_, _, ⟨_, rfl⟩ | ⟨_, _, _, rfl⟩⟩ := acceptBlock_eq_ok hok <;> exact hcac

lemma CacheReachesCommits.acceptBlocks
    (hok : d.acceptBlocks ctx now blocks = .ok d') : d'.CacheReachesCommits :=
  foldlM_ok_induction CacheReachesCommits (fun _ _ _ _ hb hstep => hb.acceptBlock hstep) hcac hok

lemma Refines.acceptBlocks
    (h : d.Refines ctx A) (hok : d.acceptBlocks ctx now blocks = .ok d') :
    d'.Refines ctx (blocks.foldl acceptInto A) := by
  unfold DagState.acceptBlocks at hok
  induction blocks generalizing d A with
  | nil =>
    obtain rfl : d = d' := by simpa using hok
    exact h
  | cons block blocks ih =>
    rw [foldlM_cons, bind_eq_ok] at hok
    obtain ⟨d₁, hd₁, hok⟩ := hok
    exact ih (hcac.acceptBlock hd₁) (h.acceptBlock hcac hd₁) hok

omit hcac

/-- The two states differ at most in the cached and buffered blocks. -/
structure SameCommits (d d' : DagState) : Prop where
  lastCommit : d'.lastCommit = d.lastCommit
  lastCommittedRounds : d'.lastCommittedRounds = d.lastCommittedRounds
  unscoredCommittedSubdags : d'.unscoredCommittedSubdags = d.unscoredCommittedSubdags
  commitsToWrite : d'.commitsToWrite = d.commitsToWrite
  commitInfoToWrite : d'.commitInfoToWrite = d.commitInfoToWrite
  store : d'.store = d.store

lemma SameCommits.refl (d : DagState) : d.SameCommits d := ⟨rfl, rfl, rfl, rfl, rfl, rfl⟩

lemma SameCommits.trans {d₁ d₂ d₃ : DagState} (h : d₁.SameCommits d₂) (h' : d₂.SameCommits d₃) :
    d₁.SameCommits d₃ :=
  ⟨h'.lastCommit.trans h.lastCommit, h'.lastCommittedRounds.trans h.lastCommittedRounds,
    h'.unscoredCommittedSubdags.trans h.unscoredCommittedSubdags,
      h'.commitsToWrite.trans h.commitsToWrite,
    h'.commitInfoToWrite.trans h.commitInfoToWrite, h'.store.trans h.store⟩

lemma sameCommits_acceptBlock (h : d.acceptBlock ctx now block = .ok d') : d.SameCommits d' := by
  obtain ⟨_, _, ⟨_, rfl⟩ | ⟨_, _, _, rfl⟩⟩ := acceptBlock_eq_ok h
  · exact .refl _
  · exact ⟨rfl, rfl, rfl, rfl, rfl, rfl⟩

lemma sameCommits_acceptBlocks
    (h : d.acceptBlocks ctx now blocks = .ok d') : d.SameCommits d' :=
  foldlM_ok_induction (fun x => d.SameCommits x)
    (fun _ _ _ _ hb hstep => hb.trans (sameCommits_acceptBlock hstep)) (.refl d) h

variable {commit : TrustedCommit}

lemma addCommit_eq_ok (h : d.addCommit commit = .ok d') :
    d' = d ∧ commit.index ≤ d.lastCommitIndex ∨
      commit.index = d.lastCommitIndex + 1 ∧ d.lastCommitTimestampMs ≤ commit.timestampMs ∧
        d' = { d with
          lastCommit := some commit
          lastCommittedRounds := raiseCommittedRounds d.lastCommittedRounds commit.blocks
          pendingCommitVotes := d.pendingCommitVotes ++ [commit.reference]
          commitsToWrite := d.commitsToWrite ++ [commit] } := by
  unfold addCommit at h
  unfold lastCommitIndex lastCommitTimestampMs
  cases hl : d.lastCommit with
  | none =>
    simp only [hl] at h
    split_ifs at h with hi
    · simp only [pure_eq_ok, Except.ok.injEq] at h
      exact .inr ⟨by simpa using hi, Nat.zero_le _, h.symm⟩
  | some last =>
    simp only [hl] at h
    split_ifs at h with hle hne hts
    · simp only [pure_eq_ok, Except.ok.injEq] at h
      exact .inl ⟨h.symm, hle⟩
    · simp only [pure_eq_ok, Except.ok.injEq] at h
      exact .inr ⟨by simpa using hne, by simpa using hts, h.symm⟩

lemma le_raiseCommittedRounds (rounds : ℕ → ℕ) (refs : List BlockRef) (a : ℕ) :
    rounds a ≤ raiseCommittedRounds rounds refs a := by
  induction refs generalizing rounds with
  | nil => exact le_rfl
  | cons r refs ih =>
    refine le_trans ?_ (ih (update rounds r.author (max (rounds r.author) r.round)))
    by_cases ha : a = r.author
    · subst ha
      rw [update_self]
      exact le_max_left _ _
    · rw [update_of_ne ha]

lemma Persists.addCommit (h : d.Persists ctx A) (hcom : CommitOf A commit.toCommit)
    (hok : d.addCommit commit = .ok d') : d'.Persists ctx A := by
  obtain ⟨rfl, _⟩ | ⟨_, _, rfl⟩ := addCommit_eq_ok hok
  · exact h
  · have hcomms : ∀ c ∈ d.commitsToWrite ++ [commit], CommitOf A c.toCommit :=
      forall_mem_concat h.commits hcom
    exact { h with
      cache := ⟨h.cache.mem, h.cache.refs_iff⟩
      committedRounds := committedRoundsOf_raise h.committedRounds hcom.blocks
      commits := hcomms }

lemma Refines.addCommit (h : d.Refines ctx A) (hcom : CommitOf A commit.toCommit)
    (hok : d.addCommit commit = .ok d') : d'.Refines ctx A := by
  have hpers := h.toPersists.addCommit hcom hok
  obtain ⟨rfl, _⟩ | ⟨_, _, rfl⟩ := addCommit_eq_ok hok
  · exact h
  · have hcac :
      ∀ b ∈ A, evictionRound (raiseCommittedRounds d.lastCommittedRounds commit.blocks b.author)
        d.cachedRounds < b.round → b.reference ∈ d.recentBlocks := by
      intro b hb hevict
      have hle := le_raiseCommittedRounds d.lastCommittedRounds commit.blocks b.author
      apply h.cached b hb
      unfold authorityEvictionRound evictionRound at *
      omega
    exact { hpers, h with cached := hcac }

variable {scores : ReputationScores}

lemma addCommitInfo_eq_ok (hok : d.addCommitInfo scores = .ok d') :
    d.unscoredCommittedSubdags = [] ∧ ∃ last, d.lastCommit = some last ∧
      d' = { d with commitInfoToWrite := d.commitInfoToWrite ++
        [(last.reference, ⟨d.lastCommittedRounds, scores⟩)] } := by
  unfold addCommitInfo at hok
  split_ifs at hok with hemp
  cases hl : d.lastCommit with
  | none => simp [hl] at hok
  | some last =>
    simp only [hl, Except.ok.injEq] at hok
    exact ⟨not_not.mp hemp, last, rfl, hok.symm⟩

lemma Persists.addCommitInfo (h : d.Persists ctx A)
    (hok : d.addCommitInfo scores = .ok d') : d'.Persists ctx A := by
  obtain ⟨_, last, _, rfl⟩ := addCommitInfo_eq_ok hok
  exact { h with
    cache := ⟨h.cache.mem, h.cache.refs_iff⟩
    commitInfo := forall_mem_concat h.commitInfo h.committedRounds }

lemma Refines.addCommitInfo (h : d.Refines ctx A)
    (hok : d.addCommitInfo scores = .ok d') : d'.Refines ctx A := by
  have hpers := h.toPersists.addCommitInfo hok
  obtain ⟨_, last, _, rfl⟩ := addCommitInfo_eq_ok hok
  exact { hpers, h with }

lemma evicted_eq_filter : (d.recentRefs a).toList.takeWhile
      (fun r => r.round ≤ d.authorityEvictionRound a) =
    (d.recentRefs a).toList.filter (fun r => r.round ≤ d.authorityEvictionRound a) := by
  apply takeWhile_eq_filter pairwise_lt_toList
  intro r r' hlt hr'
  have := BlockRef.round_le_of_le hlt.le
  simp only [decide_eq_true_eq] at hr' ⊢
  omega

lemma getElem?_recentBlocks_evict : (d.evictAuthority a).recentBlocks[r]? =
    if r ∈ d.recentRefs a ∧ r.round ≤ d.authorityEvictionRound a then none else d.recentBlocks[r]? := by
  simp [evictAuthority, evicted_eq_filter, getElem?_foldl_erase]

lemma mem_recentRefs_evict {a' : ℕ} : r ∈ (d.evictAuthority a).recentRefs a' ↔
    r ∈ d.recentRefs a' ∧ (a' = a → d.authorityEvictionRound a < r.round) := by
  unfold evictAuthority
  by_cases ha : a' = a
  · subst ha
    simp only [evicted_eq_filter, update_self, mem_foldl_erase_set, mem_filter,
      TreeSet.mem_toList, decide_eq_true_eq]
    constructor
    · rintro ⟨hn, hr⟩
      exact ⟨hr, fun _ => not_le.mp (fun hle => hn ⟨hr, hle⟩)⟩
    · rintro ⟨hr, hlt⟩
      exact ⟨fun hn => absurd hn.2 (not_le.mpr (hlt trivial)), hr⟩
  · simp [ha]

lemma mem_recentBlocks_evict : r ∈ (d.evictAuthority a).recentBlocks ↔
    ¬ (r ∈ d.recentRefs a ∧ r.round ≤ d.authorityEvictionRound a) ∧ r ∈ d.recentBlocks := by
  rw [mem_map_iff_exists, mem_map_iff_exists, getElem?_recentBlocks_evict]
  split_ifs with he <;> simp [he]

lemma Persists.evictAuthority (h : d.Persists ctx A) : (d.evictAuthority a).Persists ctx A := by
  refine { h with cache := ⟨?_, ?_⟩ }
  · intro r b hr
    rw [getElem?_recentBlocks_evict] at hr
    split_ifs at hr
    exact h.cache.mem r b hr
  · intro a' r
    rw [mem_recentRefs_evict, mem_recentBlocks_evict, h.cache.refs_iff, h.cache.refs_iff]
    constructor
    · rintro ⟨⟨rfl, hr⟩, hlt⟩
      refine ⟨rfl, fun hn => ?_, hr⟩
      have := hlt hn.1.1
      omega
    · rintro ⟨rfl, hn, hr⟩
      refine ⟨⟨rfl, hr⟩, ?_⟩
      rintro rfl
      by_contra hle
      exact hn ⟨⟨rfl, hr⟩, not_lt.mp hle⟩

lemma Refines.evictAuthority (h : d.Refines ctx A) (hw : d.blocksToWrite = []) :
    (d.evictAuthority a).Refines ctx A := by
  refine { h.toPersists.evictAuthority, h with cached := ?_, toWrite_cached := ?_ }
  · intro b hb hevict
    refine mem_recentBlocks_evict.mpr ⟨?_, h.cached b hb hevict⟩
    rintro ⟨hr, hle⟩
    rw [h.cache.refs_iff] at hr
    obtain rfl := hr.1
    exact absurd hle (not_le.mpr hevict)
  · intro b hb
    change b ∈ d.blocksToWrite at hb
    simp [hw] at hb

end DagState

lemma StoreHolds.write {batch : WriteBatch}
    (h : StoreHolds ctx s B) (hA : AcceptableSet ctx A) (hsub : B ⊆ A)
    (hall : ∀ b ∈ A, b ∈ B ∨ b ∈ batch.blocks)
    (hbs : ∀ b ∈ batch.blocks, b ∈ A) (hcomms : ∀ c ∈ batch.commits, CommitOf A c.toCommit)
    (hinfo : ∀ i ∈ batch.commitInfo, CommittedRoundsOf A i.2.committedRounds) :
    StoreHolds ctx (s.write batch) A := by
  have hmem : ∀ r, r ∈ (s.write batch).blocks ↔ r ∈ s.blocks ∨ ∃ b ∈ batch.blocks, b.reference = r :=
    fun r => mem_foldl_insert_map
  have hspl : ∀ b, b ∈ B ∨ b ∈ batch.blocks ↔ b ∈ A :=
    fun b => ⟨fun hb => hb.elim (fun hb => hsub hb) (hbs b), hall b⟩
  refine ⟨hA, ?_, ?_, ?_, ?_⟩
  · intro r b
    rw [← hspl]
    apply getElem?_foldl_insert_iff h.blocks_iff
    intro b b' hb hb' he
    exact hA.injOn b ((hspl b).mp hb) b' ((hspl b').mp hb') he
  · intro k
    rw [hmem, Store.write, mem_foldl_insert_set, h.index_iff]
    refine or_congr_right (exists_congr fun b => and_congr_right fun _ => ?_)
    constructor
    · rintro rfl
      rfl
    · intro he
      rw [he, BlockRef.authorKey_ofAuthorKey]
  · intro k c hc
    exact getElem?_foldl_insert_map (fun _ c => CommitOf A c.toCommit)
      (fun k c hc => (h.commits k c hc).mono hsub) hcomms hc
  · intro k i hi
    exact getElem?_foldl_insert_map (fun _ i => CommittedRoundsOf A i.committedRounds)
      (fun k i hi => (h.commitInfo k i hi).mono hsub) hinfo hi

namespace DagState

lemma Persists.commitInfoOfFlush (h : d.Persists ctx A) :
    ∀ i ∈ d.commitInfoOfFlush ctx, CommittedRoundsOf A i.2.committedRounds := by
  unfold DagState.commitInfoOfFlush
  split_ifs
  · exact h.commitInfo
  · cases d.commitsToWrite.getLast? with
    | none => simp
    | some c =>
      intro i hi
      exact mem_singleton.mp hi ▸ h.committedRounds

lemma foldl_evict_eq (l : List ℕ) : ∃ recentBlocks recentRefs, l.foldl evictAuthority d =
    { d with recentBlocks := recentBlocks, recentRefs := recentRefs } := by
  induction l generalizing d with
  | nil => exact ⟨_, _, rfl⟩
  | cons a l ih =>
    obtain ⟨recentBlocks, recentRefs, he⟩ := ih (d := d.evictAuthority a)
    exact ⟨recentBlocks, recentRefs, he⟩

def flushedStore (ctx : Context) (d : DagState) : Store :=
  if d.blocksToWrite = [] ∧ d.commitsToWrite = [] then d.store
  else d.store.write ⟨d.blocksToWrite, d.commitsToWrite, d.commitInfoOfFlush ctx⟩

/-- A flush moves the buffers to the store and touches nothing else but the cache. -/
lemma flush_eq : ∃ recentBlocks recentRefs, d.flush ctx =
    { d.takeBuffers ctx with
      recentBlocks := recentBlocks, recentRefs := recentRefs, store := d.flushedStore ctx } := by
  unfold flush flushedStore
  split_ifs
  · exact ⟨_, _, rfl⟩
  · exact foldl_evict_eq _

@[simp] lemma flush_blocksToWrite : (d.flush ctx).blocksToWrite = [] := by
  obtain ⟨_, _, he⟩ := flush_eq
  rw [he]
  rfl

@[simp] lemma flush_commitsToWrite : (d.flush ctx).commitsToWrite = [] := by
  obtain ⟨_, _, he⟩ := flush_eq
  rw [he]
  rfl

lemma flush_commitInfoToWrite (hscor : ctx.mysticetiLeaderScoringAndSchedule = true) :
    (d.flush ctx).commitInfoToWrite = [] := by
  obtain ⟨_, _, he⟩ := flush_eq
  rw [he]
  exact if_pos hscor

@[simp] lemma flush_unscoredCommittedSubdags :
    (d.flush ctx).unscoredCommittedSubdags = d.unscoredCommittedSubdags := by
  obtain ⟨_, _, he⟩ := flush_eq
  rw [he]
  rfl

lemma flush_store : (d.flush ctx).store = d.flushedStore ctx := by
  obtain ⟨_, _, he⟩ := flush_eq
  rw [he]

section

variable (h : d.Persists ctx A)

include h

lemma Persists.flushedStore : StoreHolds ctx (d.flushedStore ctx) A := by
  obtain ⟨B, hBA, hA, hB⟩ := h.store
  unfold DagState.flushedStore
  split_ifs with hemp
  · obtain rfl : B = A := hBA.antisymm fun b hb => (hA b hb).resolve_right (by simp [hemp.1])
    exact hB
  · exact hB.write h.acceptable hBA hA h.toWrite h.commits h.commitInfoOfFlush

lemma Persists.store_flush : StoreHolds ctx (d.flush ctx).store A := by
  rw [flush_store]
  exact h.flushedStore

lemma Persists.takeBuffers (hs : StoreHolds ctx s A) :
    ({ d.takeBuffers ctx with store := s } : DagState).Persists ctx A :=
  { h with
    cache := ⟨h.cache.mem, h.cache.refs_iff⟩
    store := ⟨A, subset_rfl, fun _ => .inl, hs⟩
    toWrite := by simp [DagState.takeBuffers]
    commits := by simp [DagState.takeBuffers]
    commitInfo := by
      intro i hi
      unfold DagState.takeBuffers at hi
      split_ifs at hi
      · simp at hi
      · exact h.commitInfo i hi }

end

/-- A flush moves the buffers to the store and loses no block. -/
theorem Persists.flush (h : d.Persists ctx A) : (d.flush ctx).Persists ctx A := by
  have hs := h.flushedStore
  unfold DagState.flushedStore at hs
  unfold DagState.flush
  split_ifs at hs ⊢
  · exact h.takeBuffers hs
  · exact foldlRecOn (motive := (Persists ctx · A)) _ _ (h.takeBuffers hs) fun _ hp _ _ =>
      hp.evictAuthority

/-- A flush does not change the set of blocks. -/
theorem Refines.flush (h : d.Refines ctx A) : (d.flush ctx).Refines ctx A := by
  have htake : ∀ s, StoreHolds ctx s A →
      ({ d.takeBuffers ctx with store := s } : DagState).Refines ctx A :=
    fun s hs => { h.toPersists.takeBuffers hs, h with toWrite_cached := by simp [DagState.takeBuffers] }
  have hs := h.flushedStore
  unfold DagState.flushedStore at hs
  unfold DagState.flush
  split_ifs at hs ⊢
  · exact htake _ hs
  · exact (foldlRecOn (motive := fun d : DagState => d.Refines ctx A ∧ d.blocksToWrite = [])
      _ _ ⟨htake _ hs, rfl⟩
      fun _ hd _ _ => ⟨hd.1.evictAuthority hd.2, hd.2⟩).1

section Recovery

variable {rounds : ℕ → ℕ}

lemma readBlock_of_storeHolds (h : StoreHolds ctx s A) (hb : b ∈ A) :
    s.readBlock b.reference = .ok b := by
  simp [Store.readBlock, (h.blocks_iff b.reference b).mpr ⟨hb, rfl⟩]

variable {c : TrustedCommit}

section

variable (h : StoreHolds ctx s A)

include h

lemma loadCommittedSubdag_total (hc : CommitOf A c.toCommit) :
    ∃ subdag, s.loadCommittedSubdag c = .ok subdag := by
  obtain ⟨blocks, hbs, hmem⟩ : ∃ bs, c.blocks.mapM s.readBlock = .ok bs ∧
      ∀ b, b ∈ bs ↔ ∃ r ∈ c.blocks, s.readBlock r = .ok b := by
    apply mapM_total
    intro r hr
    obtain ⟨b, hb, rfl⟩ := hc.blocks r hr
    exact ⟨b, readBlock_of_storeHolds h hb⟩
  obtain ⟨leader, hleader, he⟩ := hc.blocks c.leader hc.leader_mem
  have hany : blocks.any (fun b => b.reference = c.leader) = true := by
    rw [any_eq_true]
    exact ⟨leader, (hmem leader).mpr ⟨c.leader, hc.leader_mem, he ▸ readBlock_of_storeHolds h hleader⟩,
      by simpa using he⟩
  rw [Store.loadCommittedSubdag, hbs, ok_bind, if_pos hany]
  exact ⟨_, rfl⟩

lemma recoverCommit_total (hc : CommitOf A c.toCommit)
    (state : (ℕ → ℕ) × List CommittedSubDag) :
    ∃ state', recoverCommit ctx s state c = .ok state' ∧
      state'.1 = raiseCommittedRounds state.1 c.blocks := by
  unfold recoverCommit
  split_ifs
  · obtain ⟨subdag, hs⟩ := loadCommittedSubdag_total h hc
    rw [hs]
    exact ⟨_, rfl, rfl⟩
  · exact ⟨_, rfl, rfl⟩

lemma committedRounds_recoveryStart : CommittedRoundsOf A (recoveryStart s).1 := by
  unfold recoveryStart
  cases hinfo : s.readLastCommitInfo with
  | none =>
    intro a ha
    exact absurd rfl ha
  | some info => exact h.commitInfo _ _ (lastPair?_eq_some_iff.mp hinfo).1

lemma recoverCommits_total :
    ∃ recovered, recoverCommits ctx s = .ok recovered ∧ CommittedRoundsOf A recovered.1 := by
  have hrs := committedRounds_recoveryStart h
  unfold recoverCommits
  cases s.readLastCommit with
  | none => exact ⟨_, rfl, hrs⟩
  | some last =>
    refine foldlM_total (fun _ (state : (ℕ → ℕ) × List CommittedSubDag) =>
      CommittedRoundsOf A state.1) ?_ hrs
    intro _ c state hc hstate
    obtain ⟨k, hk, _⟩ := mem_map_snd_filter.mp hc
    have hcom := h.commits k c hk
    obtain ⟨state', he, hstate'⟩ := recoverCommit_total h hcom state
    exact ⟨state', he, hstate' ▸ committedRoundsOf_raise hstate hcom.blocks⟩

lemma scanBlocksByAuthor_total (author startRound : ℕ) :
    ∃ blocks, s.scanBlocksByAuthor author startRound = .ok blocks ∧
      ∀ b, b ∈ blocks ↔ b ∈ A ∧ b.author = author ∧ startRound ≤ b.round := by
  have hrefs : ∀ r, r ∈ (s.digestsByAuthorities.toList.map BlockRef.ofAuthorKey).filter
      (fun r => r.author = author ∧ startRound ≤ r.round) ↔
        r ∈ s.blocks ∧ r.author = author ∧ startRound ≤ r.round := by
    intro r
    simp only [mem_filter, mem_map, TreeSet.mem_toList, h.index_iff, decide_eq_true_eq]
    refine and_congr_left fun _ => ?_
    constructor
    · rintro ⟨k, hk, rfl⟩
      exact hk
    · exact fun hr => ⟨r.authorKey, hr, rfl⟩
  obtain ⟨blocks, hbs, hmem⟩ := mapM_total (f := s.readBlock) (l := (s.digestsByAuthorities.toList.map
    BlockRef.ofAuthorKey).filter (fun r => r.author = author ∧ startRound ≤ r.round)) (by
      intro r hr
      obtain ⟨b, hb⟩ := mem_map_iff_exists.mp ((hrefs r).mp hr).1
      exact ⟨b, by simp [Store.readBlock, hb]⟩)
  refine ⟨blocks, hbs, fun b => ?_⟩
  rw [hmem]
  constructor
  · rintro ⟨r, hr, he⟩
    obtain ⟨hrs, hau, hrd⟩ := (hrefs r).mp hr
    obtain ⟨b', hb'⟩ := mem_map_iff_exists.mp hrs
    obtain ⟨hA, rfl⟩ := (h.blocks_iff r b').mp hb'
    rw [readBlock_of_storeHolds h hA] at he
    cases he
    exact ⟨hA, hau, hrd⟩
  · rintro ⟨hA, hau, hrd⟩
    have hstd := mem_map_iff_exists.mpr ⟨b, (h.blocks_iff b.reference b).mpr ⟨hA, rfl⟩⟩
    exact ⟨b.reference, (hrefs _).mpr ⟨hstd, hau, hrd⟩, readBlock_of_storeHolds h hA⟩

end

/-- The state while the cached blocks are loaded, for the authorities done so far. -/
structure Recovering (ctx : Context) (s : Store) (A : Finset VerifiedBlock) (d₀ : DagState)
    (done : List ℕ) (d : DagState) : Prop where
  cache : d.CacheSound A
  cached : ∀ b ∈ A, b.author ∈ done → d.authorityEvictionRound b.author < b.round →
    b.reference ∈ d.recentBlocks
  highest_ge : ∀ r ∈ d.recentBlocks, r.round ≤ d.highestAcceptedRound
  highest_mem : d.highestAcceptedRound ≠ 0 → ∃ b ∈ A, b.round = d.highestAcceptedRound
  frame : d = { d₀ with
    recentBlocks := d.recentBlocks
    recentRefs := d.recentRefs
    highestAcceptedRound := d.highestAcceptedRound }

variable {d₀ : DagState} {done : List ℕ}

lemma Recovering.updateBlockMetadata (h : Recovering ctx s A d₀ done d)
    (hblk : block ∈ A) : Recovering ctx s A d₀ done (d.updateBlockMetadata block) where
  cache := h.cache.updateBlockMetadata subset_rfl hblk
  cached b hb hau hevict := mem_recentBlocks_update.mpr (.inr (h.cached b hb hau hevict))
  highest_ge r hr := by
    rcases mem_recentBlocks_update.mp hr with rfl | hr
    · exact le_max_right _ _
    · exact le_trans (h.highest_ge r hr) (le_max_left _ _)
  highest_mem := by
    change max d.highestAcceptedRound block.round ≠ 0 →
      ∃ b ∈ A, b.round = max d.highestAcceptedRound block.round
    intro hne
    rcases max_choice d.highestAcceptedRound block.round with hm | hm
    · rw [hm] at hne ⊢
      exact h.highest_mem hne
    · exact ⟨block, hblk, hm.symm⟩
  frame := by
    rw [h.frame]
    rfl

lemma Recovering.foldl_update (h : Recovering ctx s A d₀ done d) (hbs : ∀ b ∈ blocks, b ∈ A) :
    Recovering ctx s A d₀ done (blocks.foldl DagState.updateBlockMetadata d) ∧
      ∀ b ∈ blocks, b.reference ∈ (blocks.foldl DagState.updateBlockMetadata d).recentBlocks := by
  suffices hfold : ∀ d, Recovering ctx s A d₀ done d →
      Recovering ctx s A d₀ done (blocks.foldl DagState.updateBlockMetadata d) ∧
        (∀ r ∈ d.recentBlocks, r ∈ (blocks.foldl DagState.updateBlockMetadata d).recentBlocks) ∧
        ∀ b ∈ blocks, b.reference ∈ (blocks.foldl DagState.updateBlockMetadata d).recentBlocks from
    ⟨(hfold d h).1, (hfold d h).2.2⟩
  induction blocks with
  | nil => exact fun d h => ⟨h, fun _ hr => hr, by simp⟩
  | cons block blocks ih =>
    intro d h
    obtain ⟨hrec, hold, hnew⟩ := ih (fun b hb => hbs b (mem_cons_of_mem block hb)) _
      (h.updateBlockMetadata (hbs block mem_cons_self))
    exact ⟨hrec, fun r hr => hold r (mem_recentBlocks_update.mpr (.inr hr)),
      forall_mem_cons.mpr ⟨hold _ (mem_recentBlocks_update.mpr (.inl rfl)), hnew⟩⟩

/-- Recovery from a store succeeds, with the blocks of the store. -/
theorem new_total (h : StoreHolds ctx s A) :
    ∃ d, DagState.new ctx s = .ok d ∧ d.Persists ctx A ∧
      (1 ≤ ctx.dagStateCachedRounds → d.Refines ctx A) := by
  obtain ⟨⟨rounds, subdags⟩, hrecovered, hrounds⟩ := recoverCommits_total h
  have hloop : ∃ d, (List.range ctx.committee.size).foldlM
    (recoverBlocks s ctx.dagStateCachedRounds rounds)
      (recovered ctx s rounds subdags) = .ok d ∧
        Recovering ctx s A (recovered ctx s rounds subdags) (List.range ctx.committee.size) d := by
    refine foldlM_total _ ?_ ⟨⟨?_, ?_⟩, ?_, ?_, ?_, rfl⟩
    · intro done a d _ hd
      obtain ⟨blocks, hblocks, hmem⟩ :=
        scanBlocksByAuthor_total h a (evictionRound (rounds a) ctx.dagStateCachedRounds + 1)
      obtain ⟨hrec, hnew⟩ := hd.foldl_update (fun b hb => ((hmem b).mp hb).1)
      refine ⟨_, by rw [recoverBlocks, hblocks, ok_bind]; rfl, { hrec with cached := ?_ }⟩
      intro b hb hauthor hevict
      rcases mem_append.mp hauthor with hdone | ha
      · exact hrec.cached b hb hdone hevict
      · obtain rfl := mem_singleton.mp ha
        rw [authorityEvictionRound, hrec.frame] at hevict
        exact hnew b ((hmem b).mpr ⟨hb, rfl, hevict⟩)
    all_goals simp [recovered]
  obtain ⟨d, hd, hrec⟩ := hloop
  refine ⟨d, by rw [DagState.new, hrecovered, ok_bind]; exact hd, ?_⟩
  clear hd
  obtain ⟨recentBlocks, recentRefs, highest, rfl⟩ : ∃ recentBlocks recentRefs highest, d =
      { recovered ctx s rounds subdags with
        recentBlocks := recentBlocks, recentRefs := recentRefs, highestAcceptedRound := highest } :=
    ⟨_, _, _, hrec.frame⟩
  have hcached' := fun b hb => hrec.cached b hb (mem_range.mpr (h.acceptable.author_lt b hb))
  have hpersists : DagState.Persists ctx _ A :=
    { acceptable := h.acceptable
      cache := hrec.cache
      store := ⟨A, subset_rfl, fun _ => .inl, h⟩
      toWrite := by simp [recovered]
      committedRounds := hrounds
      commits := by simp [recovered]
      commitInfo := by simp [recovered] }
  refine ⟨hpersists, fun hcached => { hpersists with
    cached := hcached'
    toWrite_cached := by simp [recovered]
    highest_ge := ?_
    highest_mem := hrec.highest_mem
    cachedRounds_eq := rfl }⟩
  intro b hb
  by_cases hr : b.reference ∈ recentBlocks
  · exact hrec.highest_ge _ hr
  · obtain ⟨b', _, _, hr', hlt⟩ :=
      exists_recent_above h.acceptable hrounds hcached' (fun _ _ => hcached) hb hr
    exact le_trans hlt.le (hrec.highest_ge _ hr')

lemma new_eq_ok (h : new ctx s = .ok d) :
    ∃ rounds subdags, recoverCommits ctx s = .ok (rounds, subdags) ∧
      (recovered ctx s rounds subdags).SameCommits d ∧ d.blocksToWrite = [] := by
  rw [new, bind_eq_ok] at h
  obtain ⟨⟨rounds, subdags⟩, hrecov, h⟩ := h
  refine ⟨rounds, subdags, hrecov, ?_⟩
  refine foldlM_ok_induction (fun x =>
    (recovered ctx s rounds subdags).SameCommits x ∧ x.blocksToWrite = [])
    ?_ ⟨.refl _, rfl⟩ h
  rintro d₁ a d₂ _ hd₁ hstep
  rw [recoverBlocks, bind_eq_ok] at hstep
  obtain ⟨blocks, -, hstep⟩ := hstep
  obtain rfl : blocks.foldl updateBlockMetadata d₁ = d₂ := by simpa using hstep
  clear hstep
  induction blocks generalizing d₁ with
  | nil => exact hd₁
  | cons block blocks ih =>
    exact ih (d₁.updateBlockMetadata block) ⟨hd₁.1.trans ⟨rfl, rfl, rfl, rfl, rfl, rfl⟩, hd₁.2⟩

end Recovery

lemma storeHolds_empty : StoreHolds ctx Store.empty ∅ := by
  refine ⟨⟨?_, ?_, ?_⟩, ?_, ?_, ?_, ?_⟩ <;> simp [Store.empty]

end DagState

/-- Runs of the API of `DagState` from an empty store, with the set of blocks accepted so far.
A restart recovers from the store left by a flush. -/
inductive DagRun (ctx : Context) : DagState → Finset VerifiedBlock → Prop
  | start {d : DagState} : DagState.new ctx .empty = .ok d → DagRun ctx d ∅
  | acceptBlocks {d d' : DagState} {A : Finset VerifiedBlock} {now : ℕ} {blocks : List VerifiedBlock} :
      DagRun ctx d A → d.acceptBlocks ctx now blocks = .ok d' → DagRun ctx d' (blocks.foldl acceptInto A)
  | addCommit {d d' : DagState} {A : Finset VerifiedBlock} {commit : TrustedCommit} :
      DagRun ctx d A → CommitOf A commit.toCommit → d.addCommit commit = .ok d' → DagRun ctx d' A
  | addCommitInfo {d d' : DagState} {A : Finset VerifiedBlock} {scores : ReputationScores} :
      DagRun ctx d A → d.addCommitInfo scores = .ok d' → DagRun ctx d' A
  | addUnscored {d : DagState} {A : Finset VerifiedBlock} {subdags : List CommittedSubDag} :
      DagRun ctx d A → DagRun ctx (d.addUnscoredCommittedSubdags subdags) A
  | takeUnscored {d : DagState} {A : Finset VerifiedBlock} :
      DagRun ctx d A → DagRun ctx d.takeUnscoredCommittedSubdags.1 A
  | takeCommitVotes {d : DagState} {A : Finset VerifiedBlock} {limit : ℕ} :
      DagRun ctx d A → DagRun ctx (d.takeCommitVotes limit).1 A
  | flush {d : DagState} {A : Finset VerifiedBlock} : DagRun ctx d A → DagRun ctx (d.flush ctx) A
  | restart {d d' : DagState} {A : Finset VerifiedBlock} :
      DagRun ctx d A → DagState.new ctx (d.flush ctx).store = .ok d' → DagRun ctx d' A

variable {ctx : Context} {d : DagState} {A : Finset VerifiedBlock}

lemma DagState.Refines.new (hcac : 1 ≤ ctx.dagStateCachedRounds) (hs : StoreHolds ctx s A)
    (h : new ctx s = .ok d) : d.Refines ctx A := by
  obtain ⟨d', hd', _, href⟩ := new_total hs
  obtain rfl : d' = d := Except.ok.inj (hd'.symm.trans h)
  exact href hcac

/-- Whatever calls are made, `DagState` refines the set `A` of all blocks accepted so far. -/
theorem DagRun.refines (hcached : 1 ≤ ctx.dagStateCachedRounds) (hrun : DagRun ctx d A) :
    d.Refines ctx A := by
  induction hrun with
  | start h => exact .new hcached storeHolds_empty h
  | acceptBlocks _ h ih => exact ih.acceptBlocks (ih.cacheReachesCommits hcached) h
  | addCommit _ hcommit h ih => exact ih.addCommit hcommit h
  | addCommitInfo _ h ih => exact ih.addCommitInfo h
  | addUnscored _ ih | takeUnscored _ ih | takeCommitVotes _ ih =>
    exact { ih with cache := ⟨ih.cache.mem, ih.cache.refs_iff⟩, cached := ih.cached }
  | flush _ ih => exact ih.flush
  | restart _ h ih => exact .new hcached ih.store_flush h

/-- Every lookup answers as the plain set of accepted blocks does, after any run; and a restart
after a flush is always possible. -/
theorem dagState_refines_blockSet (hcached : 1 ≤ ctx.dagStateCachedRounds) (hrun : DagRun ctx d A) :
    (∀ (refs : List BlockRef) (i : ℕ) (r : BlockRef), refs[i]? = some r →
      ((d.containsBlocks ctx refs)[i]? = some true ↔
        r ∈ genesisRefs ctx ∨ ∃ b ∈ A, b.reference = r) ∧
      ∀ b, (d.getBlocks ctx refs)[i]? = some (some b) ↔
        b.reference = r ∧ (b ∈ genesisBlocks ctx ∨ b ∈ A)) ∧
    (∀ refs : List BlockRef, (d.containsBlocks ctx refs).length = refs.length ∧
      (d.getBlocks ctx refs).length = refs.length) ∧
    (∀ slot : Slot, d.lastCommittedRounds slot.authority < slot.round →
      (d.getUncommittedBlocksAtSlot slot).Nodup ∧
        ∀ b, b ∈ d.getUncommittedBlocksAtSlot slot ↔ b ∈ A ∧ b.slot = slot) ∧
    ∃ d', DagState.new ctx (d.flush ctx).store = .ok d' := by
  have h := hrun.refines hcached
  refine ⟨fun refs i r hr => ⟨?_, fun b => ?_⟩, fun refs => ?_, fun slot hslot => ⟨?_, fun b => ?_⟩, ?_⟩
  · rw [DagState.containsBlocks, List.getElem?_map,
      hr, ← h.containsBlock_iff (h.cacheReachesCommits hcached)]
    simp
  · rw [DagState.getBlocks, List.getElem?_map, hr, ← h.getBlock_iff]
    simp
  · simp [DagState.containsBlocks, DagState.getBlocks]
  · exact h.nodup_getUncommittedBlocksAtSlot slot
  · apply h.mem_getUncommittedBlocksAtSlot
    unfold DagState.authorityEvictionRound DagState.evictionRound
    omega
  · obtain ⟨d', hd', _⟩ := DagState.new_total h.store_flush
    exact ⟨d', hd'⟩

def acceptedState (blocks : List VerifiedBlock) : Except Panic DagState := do
  let d ← DagState.new fourAuthorities .empty
  d.acceptBlocks fourAuthorities 100 blocks

/-- A leader of round 3 is committed and flushed, which evicts older rounds of its author; a
block of round 1 of that author arrives late; then the state is flushed and recovered. -/
def lateBlockRun : Except Panic DagState := do
  let leader := fourAuthorities.block 3 1 7 []
  let d ← DagState.new fourAuthorities .empty
  let d ← d.acceptBlocks fourAuthorities 10 [leader]
  let d ← d.addCommit ⟨⟨1, 0, 7, leader.reference, [leader.reference]⟩, 1⟩
  let d ← (d.flush fourAuthorities).acceptBlocks fourAuthorities 10 [fourAuthorities.block 1 1 5 []]
  DagState.new fourAuthorities (d.flush fourAuthorities).store

/-- A block that arrives after the eviction of its round is found. -/
theorem dagState_refines_blockSet_lateBlock :
    ∃ d A, DagRun fourAuthorities d A ∧
      (d.containsBlocks fourAuthorities [(fourAuthorities.block 1 1 5 []).reference])[0]? =
        some true := by
  obtain ⟨d, hd⟩ := exists_eq_ok_of_isOk (x := lateBlockRun) (by decide +kernel)
  simp only [lateBlockRun, bind_eq_ok] at hd
  obtain ⟨d₀, h₀, d₁, h₁, d₂, h₂, d₃, h₃, h₄⟩ := hd
  have hcommit : CommitOf ([fourAuthorities.block 3 1 7 []].foldl acceptInto ∅)
      ⟨1, 0, 7, (fourAuthorities.block 3 1 7 []).reference,
        [(fourAuthorities.block 3 1 7 []).reference]⟩ :=
    ⟨by decide +kernel, by decide +kernel⟩
  have hrun :=
    DagRun.restart
      (.acceptBlocks (.flush (.addCommit (.acceptBlocks (.start h₀) h₁) hcommit h₂)) h₃) h₄
  exact ⟨d, _, hrun, (((dagState_refines_blockSet (by decide) hrun).1 _ 0 _ rfl).1.mpr
    (.inr ⟨fourAuthorities.block 1 1 5 [], by decide +kernel, rfl⟩))⟩

end SuiProofs.Consensus

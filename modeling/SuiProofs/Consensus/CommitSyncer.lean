import SuiProofs.Consensus.Context

/-!
Models the loop of `commit_syncer.rs`. A turn is a tick of the timer or the completion of one fetch,
followed by the start of new fetches.
-/

namespace SuiProofs.Consensus

open Library List
open Std (TreeMap TreeSet)

structure FetchRange where
  start : ℕ
  stop : ℕ
deriving DecidableEq, Repr

/-- The order of the tuples in the source: by start, then by end. -/
def FetchRange.key (r : FetchRange) : ℕ ×ₗ ℕ := toLex (r.start, r.stop)

lemma FetchRange.key_injective : Function.Injective FetchRange.key := by
  rintro ⟨a, b⟩ ⟨a', b'⟩ h
  simpa [FetchRange.key] using h

instance : LinearOrder FetchRange := LinearOrder.lift' FetchRange.key FetchRange.key_injective

def FetchRange.Covers (r : FetchRange) (i : ℕ) : Prop := r.start ≤ i ∧ i ≤ r.stop

instance (r : FetchRange) (i : ℕ) : Decidable (r.Covers i) := inferInstanceAs (Decidable (_ ∧ _))

structure CommitSyncParameters where
  commitSyncBatchSize : ℕ
  commitSyncParallelFetches : ℕ
  commitSyncBatchesAhead : ℕ

/-- The local variables of `schedule_loop`. The in-flight fetches finish in any order. -/
structure CommitSyncer where
  inflightFetches : List FetchRange
  pendingFetches : TreeSet FetchRange
  fetchedBlocks : TreeMap FetchRange (List VerifiedBlock)
  highestScheduledIndex : Option ℕ
  syncedCommitIndex : ℕ

structure SentBatch where
  range : FetchRange
  blocks : List VerifiedBlock
  syncedCommitIndex : ℕ

namespace CommitSyncer

def new (lastCommitIndex : ℕ) : CommitSyncer := ⟨[], ∅, ∅, none, lastCommitIndex⟩

/-- The loop over the ends of the previous ranges, in steps of the batch size up to the quorum
index. The number of its turns is bounded by the number of indices. -/
def schedulePending (batchSize quorumCommitIndex : ℕ) : ℕ → ℕ → CommitSyncer → CommitSyncer
  | 0, _, s => s
  | turns + 1, prevEnd, s =>
    if quorumCommitIndex < prevEnd then s
    else
      let range : FetchRange := ⟨prevEnd + 1, prevEnd + batchSize⟩
      -- Smaller batches than the batch size are not created.
      if quorumCommitIndex < range.stop then s
      else
        schedulePending batchSize quorumCommitIndex turns range.stop
          { s with
            pendingFetches := s.pendingFetches.insert range
            highestScheduledIndex := some range.stop }

def tick (p : CommitSyncParameters) (quorumCommitIndex localCommitIndex : ℕ) (s : CommitSyncer) :
    CommitSyncer :=
  let s := { s with syncedCommitIndex := max s.syncedCommitIndex localCommitIndex }
  let fetchAfterIndex := max s.syncedCommitIndex (s.highestScheduledIndex.getD 0)
  schedulePending p.commitSyncBatchSize quorumCommitIndex (quorumCommitIndex + 1 - fetchAfterIndex)
    fetchAfterIndex s

/-- Hands fetched blocks to `Core` while there is no gap. `addBlocks` tells whether `Core` took
them; the loop of the syncer ends when it did not. -/
def sendFetched (addBlocks : List VerifiedBlock → Bool) :
    ℕ → CommitSyncer → CommitSyncer × List SentBatch × Bool
  | 0, s => (s, [], true)
  | turns + 1, s =>
    match firstPair? s.fetchedBlocks with
    | none => (s, [], true)
    | some (range, blocks) =>
      if s.syncedCommitIndex + 1 < range.start then (s, [], true)
      else
        let popped := { s with fetchedBlocks := s.fetchedBlocks.erase range }
        if range.stop ≤ s.syncedCommitIndex then sendFetched addBlocks turns popped
        else
          let sent : SentBatch := ⟨range, blocks, s.syncedCommitIndex⟩
          if addBlocks blocks then
            let (s', rest, running) := sendFetched addBlocks turns
              { popped with syncedCommitIndex := max s.syncedCommitIndex range.stop }
            (s', sent :: rest, running)
          else (popped, [sent], false)

def splitPending (targetEnd commitEnd : ℕ) (s : CommitSyncer) : CommitSyncer :=
  if commitEnd < targetEnd then
    { s with pendingFetches := s.pendingFetches.insert ⟨commitEnd + 1, targetEnd⟩ }
  else s

def keepFetched (range : FetchRange) (blocks : List VerifiedBlock) (s : CommitSyncer) : CommitSyncer :=
  if s.syncedCommitIndex < range.stop then
    { s with fetchedBlocks := s.fetchedBlocks.insert range blocks } else s

/-- Processes the result of one fetch; a fetch never returns without commits. -/
def processFetched (addBlocks : List VerifiedBlock → Bool) (localCommitIndex targetEnd : ℕ)
    (commits : List TrustedCommit) (blocks : List VerifiedBlock) (s : CommitSyncer) :
    Option (CommitSyncer × List SentBatch × Bool) :=
  match commits.head?, commits.getLast? with
  | some first, some last =>
    let s := splitPending targetEnd last.index s
    let s := { s with syncedCommitIndex := max s.syncedCommitIndex localCommitIndex }
    let s := keepFetched ⟨first.index, last.index⟩ blocks s
    some (sendFetched addBlocks s.fetchedBlocks.size s)
  | _, _ => none

def targetParallelFetches (ctx : Context) (p : CommitSyncParameters) (s : CommitSyncer) : ℕ :=
  max (min (min p.commitSyncParallelFetches (ctx.committee.size * 2 / 3))
    (p.commitSyncBatchesAhead - s.fetchedBlocks.size)) 1

def startFetches (target : ℕ) : ℕ → CommitSyncer → CommitSyncer
  | 0, s => s
  | turns + 1, s =>
    if target ≤ s.inflightFetches.length then s
    else match first? s.pendingFetches with
      | none => s
      | some range =>
        startFetches target turns
          { s with
            pendingFetches := s.pendingFetches.erase range
            inflightFetches := s.inflightFetches ++ [range] }

def finishTurn (ctx : Context) (p : CommitSyncParameters) (s : CommitSyncer) : CommitSyncer :=
  startFetches (targetParallelFetches ctx p s) s.pendingFetches.size s

end CommitSyncer

/-- A fetch returns the commits of its range from the start on, maybe not all. -/
structure FetchedPrefix (range : FetchRange) (commits : List TrustedCommit) : Prop where
  nonempty : commits ≠ []
  index_eq : ∀ (i : ℕ) (c : TrustedCommit), commits[i]? = some c → c.index = range.start + i
  stop_le : range.start + commits.length ≤ range.stop + 1

/-- Runs of the loop with the batches handed to `Core` so far. The loop ends when `Core` does not
take a batch. -/
inductive CommitSyncerRun (ctx : Context) (p : CommitSyncParameters) :
    Bool → CommitSyncer → List SentBatch → Prop
  | start (lastCommitIndex : ℕ) : CommitSyncerRun ctx p true (.new lastCommitIndex) []
  | tick {s : CommitSyncer} {sent : List SentBatch} (quorumCommitIndex localCommitIndex : ℕ) :
      CommitSyncerRun ctx p true s sent →
      CommitSyncerRun ctx p true ((s.tick p quorumCommitIndex localCommitIndex).finishTurn ctx p) sent
  | fetched {s s' : CommitSyncer} {sent new : List SentBatch} {running : Bool} {range : FetchRange}
      {commits : List TrustedCommit} {blocks : List VerifiedBlock}
      (addBlocks : List VerifiedBlock → Bool)
      (localCommitIndex : ℕ) : CommitSyncerRun ctx p true s sent → range ∈ s.inflightFetches →
      FetchedPrefix range commits →
      CommitSyncer.processFetched addBlocks localCommitIndex range.stop commits blocks
        { s with inflightFetches := s.inflightFetches.erase range } = some (s', new, running) →
      CommitSyncerRun ctx p running (s'.finishTurn ctx p) (sent ++ new)

def FetchRange.weight (r : FetchRange) (i : ℕ) : ℕ := if r.Covers i then 1 else 0

namespace CommitSyncer

def cover (s : CommitSyncer) (i : ℕ) : ℕ :=
  s.pendingFetches.toList.countP (·.Covers i) + s.inflightFetches.countP (·.Covers i) +
    s.fetchedBlocks.keys.countP (·.Covers i)

def IsRange (s : CommitSyncer) (r : FetchRange) : Prop :=
  r ∈ s.pendingFetches ∨ r ∈ s.inflightFetches ∨ r ∈ s.fetchedBlocks

/-- The ranges are disjoint and cover what is scheduled and not synced. `extra` counts a range
that is on its way from one collection to another. -/
structure Partitioned (s : CommitSyncer) (extra : ℕ → ℕ) : Prop where
  valid : ∀ r, s.IsRange r → r.start ≤ r.stop ∧ r.stop ≤ s.highestScheduledIndex.getD 0
  once : ∀ i, s.cover i + extra i ≤ 1
  covered : ∀ i, s.syncedCommitIndex < i → i ≤ s.highestScheduledIndex.getD 0 → 1 ≤ s.cover i + extra i

variable {s s' : CommitSyncer} {r : FetchRange} {i : ℕ} {w : ℕ → ℕ}

lemma cover_pos (h : s.IsRange r) (hi : r.Covers i) : 0 < s.cover i := by
  have hd : decide (r.Covers i) = true := decide_eq_true hi
  have hpos : ∀ l : List FetchRange, r ∈ l → 0 < l.countP (·.Covers i) :=
    fun l hr => countP_pos_iff.mpr ⟨r, hr, hd⟩
  unfold cover
  rcases h with h | h | h
  · have := hpos _ (TreeSet.mem_toList.mpr h)
    omega
  · have := hpos _ h
    omega
  · have := hpos _ (TreeMap.mem_keys.mpr h)
    omega

lemma cover_eq_zero (h : ∀ r, s.IsRange r → ¬ r.Covers i) : s.cover i = 0 := by
  have hzero : ∀ l : List FetchRange, (∀ r ∈ l, s.IsRange r) → l.countP (·.Covers i) = 0 := by
    intro l hl
    rw [countP_eq_zero]
    intro r hr
    simpa using h r (hl r hr)
  unfold cover
  rw [hzero _ fun r hr => .inl (TreeSet.mem_toList.mp hr), hzero _ fun r hr => .inr (.inl hr),
    hzero _ fun r hr => .inr (.inr (TreeMap.mem_keys.mp hr))]

lemma countP_covers {l l' : List FetchRange} (h : l.Perm (r :: l')) :
    l.countP (·.Covers i) = l'.countP (·.Covers i) + r.weight i := by
  rw [h.countP_eq, countP_cons]
  simp only [decide_eq_true_eq, FetchRange.weight]

lemma cover_pending_insert (h : r ∉ s.pendingFetches) :
    ({ s with pendingFetches := s.pendingFetches.insert r } : CommitSyncer).cover i =
      s.cover i + r.weight i := by
  unfold cover
  dsimp only
  rw [countP_covers (perm_toList_insert h)]
  omega

lemma cover_pending_erase (h : r ∈ s.pendingFetches) :
    s.cover i = ({ s with pendingFetches := s.pendingFetches.erase r } : CommitSyncer).cover i +
      r.weight i := by
  unfold cover
  dsimp only
  rw [countP_covers (perm_toList_erase h)]
  omega

lemma cover_inflight_erase (h : r ∈ s.inflightFetches) :
    s.cover i = ({ s with inflightFetches := s.inflightFetches.erase r } : CommitSyncer).cover i +
      r.weight i := by
  unfold cover
  dsimp only
  rw [countP_covers (perm_cons_erase h)]
  omega

lemma cover_inflight_append :
    ({ s with inflightFetches := s.inflightFetches ++ [r] } : CommitSyncer).cover i =
      s.cover i + r.weight i := by
  unfold cover
  dsimp only
  rw [countP_covers (perm_append_singleton r _)]
  omega

lemma cover_fetched_insert {blocks : List VerifiedBlock} (h : r ∉ s.fetchedBlocks) :
    ({ s with fetchedBlocks := s.fetchedBlocks.insert r blocks } : CommitSyncer).cover i =
      s.cover i + r.weight i := by
  unfold cover
  dsimp only
  rw [countP_covers (perm_keys_insert h)]
  omega

lemma cover_fetched_erase (h : r ∈ s.fetchedBlocks) :
    s.cover i = ({ s with fetchedBlocks := s.fetchedBlocks.erase r } : CommitSyncer).cover i +
      r.weight i := by
  unfold cover
  dsimp only
  rw [countP_covers (perm_keys_erase h)]
  omega

namespace Partitioned

lemma add (h : s.Partitioned r.weight) (hr : r.start ≤ r.stop)
    (hstop : r.stop ≤ s.highestScheduledIndex.getD 0)
    (hmem : ∀ r', s'.IsRange r' → r' = r ∨ s.IsRange r')
    (hcover : ¬ s.IsRange r → ∀ i, s'.cover i = s.cover i + r.weight i)
    (hhigh : s'.highestScheduledIndex = s.highestScheduledIndex)
    (hsynced : s'.syncedCommitIndex = s.syncedCommitIndex) : s'.Partitioned 0 := by
  have hst : r.weight r.start = 1 := if_pos ⟨le_rfl, hr⟩
  have hnew : ¬ s.IsRange r := by
    intro hin
    have hpos := cover_pos hin ⟨le_rfl, hr⟩
    have honce := h.once r.start
    omega
  have hcover := hcover hnew
  refine ⟨fun r' hr' => ?_, fun i => ?_, fun i hi hle => ?_⟩
  · rw [hhigh]
    rcases hmem r' hr' with rfl | hr'
    · exact ⟨hr, hstop⟩
    · exact h.valid r' hr'
  · rw [hcover]
    exact h.once i
  · rw [hcover]
    rw [hsynced] at hi
    rw [hhigh] at hle
    exact h.covered i hi hle

lemma take (h : s.Partitioned 0) (hmem : ∀ r', s'.IsRange r' → s.IsRange r')
    (hcover : ∀ i, s.cover i = s'.cover i + r.weight i)
    (hhigh : s'.highestScheduledIndex = s.highestScheduledIndex)
    (hsynced : s'.syncedCommitIndex = s.syncedCommitIndex) : s'.Partitioned r.weight := by
  refine ⟨fun r' hr' => hhigh ▸ h.valid r' (hmem r' hr'), fun i => ?_, fun i hi hle => ?_⟩
  · rw [← hcover]
    exact h.once i
  · rw [← hcover]
    exact h.covered i (hsynced ▸ hi) (hhigh ▸ hle)

lemma raise (h : s.Partitioned w) {n : ℕ} (hn : s.syncedCommitIndex ≤ n) :
    ({ s with syncedCommitIndex := n } : CommitSyncer).Partitioned w :=
  ⟨h.valid, h.once, fun i hi hle => h.covered i (lt_of_le_of_lt hn hi) hle⟩

lemma drop (h : s.Partitioned r.weight) (hr : r.stop ≤ s.syncedCommitIndex) : s.Partitioned 0 := by
  refine ⟨h.valid, fun i => ?_, fun i hi hle => ?_⟩
  · exact le_trans (Nat.le_add_right _ _) (h.once i)
  · have hcov := h.covered i hi hle
    rwa [FetchRange.weight, if_neg (fun hc => by have := hc.2; omega)] at hcov

lemma schedule (h : s.Partitioned 0) (hr : r.start ≤ r.stop)
    (hst : r.start = max s.syncedCommitIndex (s.highestScheduledIndex.getD 0) + 1) :
    ({ s with
      pendingFetches := s.pendingFetches.insert r
      highestScheduledIndex := some r.stop } : CommitSyncer).Partitioned 0 := by
  have hwith : ({ s with highestScheduledIndex := some r.stop } : CommitSyncer).Partitioned
      r.weight := by
    refine ⟨fun r' hr' => ?_, fun i => ?_, fun i hi hle => ?_⟩
    · have hvalid := h.valid r' hr'
      change r'.start ≤ r'.stop ∧ r'.stop ≤ r.stop
      omega
    · unfold FetchRange.weight
      split_ifs with hi
      · rw [cover_eq_zero fun r' hr' hc => ?_]
        have hvalid := h.valid r' hr'
        have := hi.1
        have := hc.2
        omega
      · exact h.once i
    · change s.syncedCommitIndex < i at hi
      by_cases hsched : i ≤ s.highestScheduledIndex.getD 0
      · exact le_trans (h.covered i hi hsched) (Nat.le_add_right _ _)
      · rw [FetchRange.weight, if_pos ⟨by omega, hle⟩]
        omega
  refine hwith.add hr le_rfl (fun r' hr' => ?_) (fun hnew i => ?_) rfl rfl
  · rcases hr' with hp | hrest
    · rw [TreeSet.mem_insert, compare_eq_iff_eq] at hp
      exact hp.imp Eq.symm .inl
    · exact .inr (.inr hrest)
  · exact cover_pending_insert (s := { s with highestScheduledIndex := some r.stop }) fun hp =>
      hnew (.inl hp)

variable {quorum turns : ℕ}

lemma schedulePending {batchSize prevEnd : ℕ} (hbatch : 1 ≤ batchSize) (h : s.Partitioned 0)
    (hprev : prevEnd = max s.syncedCommitIndex (s.highestScheduledIndex.getD 0)) :
    (s.schedulePending batchSize quorum turns prevEnd).Partitioned 0 := by
  induction turns generalizing s prevEnd with
  | zero => exact h
  | succ turns ih =>
    unfold CommitSyncer.schedulePending
    dsimp only
    split_ifs
    · exact h
    · exact h
    · refine ih (h.schedule ?_ ?_) ?_
      · dsimp only
        omega
      · dsimp only
        omega
      · change prevEnd + batchSize = max s.syncedCommitIndex (prevEnd + batchSize)
        omega

variable {loc : ℕ}

lemma tick {p : CommitSyncParameters} (hbatch : 1 ≤ p.commitSyncBatchSize) (h : s.Partitioned 0) :
    (s.tick p quorum loc).Partitioned 0 :=
  (h.raise (le_max_left _ _)).schedulePending hbatch rfl

lemma startFetches {target : ℕ} (h : s.Partitioned 0) : (s.startFetches target turns).Partitioned 0 := by
  induction turns generalizing s with
  | zero => exact h
  | succ turns ih =>
    unfold CommitSyncer.startFetches
    split_ifs
    · exact h
    · cases hfst : first? s.pendingFetches with
      | none => exact h
      | some r =>
        have hr := mem_of_first?_eq_some hfst
        have htak : ({ s with
            pendingFetches := s.pendingFetches.erase r } : CommitSyncer).Partitioned r.weight := by
          refine h.take (fun r' hr' => ?_) (fun i => cover_pending_erase hr) rfl rfl
          exact hr'.imp_left TreeSet.mem_of_mem_erase
        have hvalid := h.valid r (.inl hr)
        have hcover : ∀ i, CommitSyncer.cover { s with
            pendingFetches := s.pendingFetches.erase r
            inflightFetches := s.inflightFetches ++ [r] } i = _ :=
          fun i => cover_inflight_append (s := { s with pendingFetches := s.pendingFetches.erase r })
        refine ih (htak.add hvalid.1 hvalid.2 (fun r' hr' => ?_) (fun _ => hcover) rfl rfl)
        rcases hr' with hp | hf | hb
        · exact .inr (.inl hp)
        · rcases mem_append.mp hf with hf | hf
          · exact .inr (.inr (.inl hf))
          · exact .inl (mem_singleton.mp hf)
        · exact .inr (.inr (.inr hb))

variable {blocks : List VerifiedBlock}

lemma pop (h : s.Partitioned 0) (hfst : firstPair? s.fetchedBlocks = some (r, blocks)) :
    ({ s with fetchedBlocks := s.fetchedBlocks.erase r } : CommitSyncer).Partitioned r.weight := by
  have hr : r ∈ s.fetchedBlocks := mem_map_iff_exists.mpr ⟨blocks, (of_firstPair?_eq_some hfst).1⟩
  refine h.take (fun r' hr' => ?_) (fun i => cover_fetched_erase hr) rfl rfl
  exact hr'.imp_right (Or.imp_right TreeMap.mem_of_mem_erase)

lemma splitPending {commitEnd : ℕ} (h : s.Partitioned r.weight) (hst : r.start ≤ commitEnd)
    (hend : commitEnd ≤ r.stop) (hstop : r.stop ≤ s.highestScheduledIndex.getD 0) :
    (s.splitPending r.stop commitEnd).Partitioned (FetchRange.weight ⟨r.start, commitEnd⟩) := by
  unfold CommitSyncer.splitPending
  split_ifs with hlt
  · have hspl : ∀ i, r.weight i =
        FetchRange.weight ⟨commitEnd + 1, r.stop⟩ i + FetchRange.weight ⟨r.start, commitEnd⟩ i := by
      intro i
      unfold FetchRange.weight
      split_ifs <;> unfold FetchRange.Covers at * <;> dsimp only at * <;> omega
    have hnew : (⟨commitEnd + 1, r.stop⟩ : FetchRange) ∉ s.pendingFetches := by
      intro hin
      have hpos := cover_pos (i := commitEnd + 1) (.inl hin) ⟨le_rfl, hlt⟩
      have honce := h.once (commitEnd + 1)
      rw [FetchRange.weight, if_pos ⟨by omega, hlt⟩] at honce
      omega
    refine ⟨fun r' hr' => ?_, fun i => ?_, fun i hi hle => ?_⟩
    · rcases hr' with hp | hrest
      · rw [TreeSet.mem_insert, compare_eq_iff_eq] at hp
        rcases hp with rfl | hp
        · exact ⟨hlt, hstop⟩
        · exact h.valid r' (.inl hp)
      · exact h.valid r' (.inr hrest)
    · rw [cover_pending_insert hnew, Nat.add_assoc, ← hspl]
      exact h.once i
    · rw [cover_pending_insert hnew, Nat.add_assoc, ← hspl]
      exact h.covered i hi hle
  · obtain rfl : commitEnd = r.stop := by omega
    exact h

lemma keepFetched (h : s.Partitioned r.weight) (hr : r.start ≤ r.stop)
    (hstop : r.stop ≤ s.highestScheduledIndex.getD 0) : (s.keepFetched r blocks).Partitioned 0 := by
  unfold CommitSyncer.keepFetched
  split_ifs with hlt
  · refine h.add hr hstop (fun r' hr' => ?_) (fun hnew i => ?_) rfl rfl
    · rcases hr' with hp | hf | hb
      · exact .inr (.inl hp)
      · exact .inr (.inr (.inl hf))
      · rw [TreeMap.mem_insert, compare_eq_iff_eq] at hb
        exact hb.imp Eq.symm (fun hb => .inr (.inr hb))
    · exact cover_fetched_insert fun hb => hnew (.inr (.inr hb))
  · exact h.drop (not_lt.mp hlt)

variable {addBlocks : List VerifiedBlock → Bool} {sent : List SentBatch} {running : Bool}

lemma sendFetched
    (h : s.Partitioned 0) (hok : s.sendFetched addBlocks turns = (s', sent, running)) :
    (running = true → s'.Partitioned 0) ∧
      ∀ b ∈ sent, b.range.start ≤ b.syncedCommitIndex + 1 ∧ b.syncedCommitIndex < b.range.stop := by
  induction turns generalizing s s' sent running with
  | zero =>
    obtain ⟨rfl, rfl, rfl⟩ : s = s' ∧ [] = sent ∧ true = running := by
      simpa [CommitSyncer.sendFetched] using hok
    exact ⟨fun _ => h, by simp⟩
  | succ turns ih =>
    unfold CommitSyncer.sendFetched at hok
    cases hfst : firstPair? s.fetchedBlocks with
    | none =>
      obtain ⟨rfl, rfl, rfl⟩ : s = s' ∧ [] = sent ∧ true = running := by simpa [hfst] using hok
      exact ⟨fun _ => h, by simp⟩
    | some entry =>
      obtain ⟨r, blocks⟩ := entry
      simp only [hfst] at hok
      have hpop := h.pop hfst
      split_ifs at hok with hgap hsynced htak
      · obtain ⟨rfl, rfl, rfl⟩ : s = s' ∧ [] = sent ∧ true = running := by simpa using hok
        exact ⟨fun _ => h, by simp⟩
      · exact ih (hpop.drop hsynced) hok
      · rcases hrest : CommitSyncer.sendFetched addBlocks turns
          { s with
            fetchedBlocks := s.fetchedBlocks.erase r
            syncedCommitIndex := max s.syncedCommitIndex r.stop } with ⟨s₁, rest, running₁⟩
        rw [hrest] at hok
        obtain ⟨rfl, rfl, rfl⟩ : s₁ = s' ∧
          (⟨r, blocks, s.syncedCommitIndex⟩ : SentBatch) :: rest = sent ∧
          running₁ = running := by simpa using hok
        obtain ⟨hinv, hsent⟩ := ih ((hpop.raise (le_max_left _ _)).drop (le_max_right _ _)) hrest
        exact ⟨hinv, forall_mem_cons.mpr ⟨⟨not_lt.mp hgap, not_le.mp hsynced⟩, hsent⟩⟩
      · obtain ⟨-, rfl, rfl⟩ : _ = s' ∧ [(⟨r, blocks, s.syncedCommitIndex⟩ : SentBatch)] = sent ∧
            false = running := by
          simpa using hok
        refine ⟨fun hfalse => absurd hfalse (by decide), fun b hb => ?_⟩
        rw [mem_singleton.mp hb]
        exact ⟨not_lt.mp hgap, not_le.mp hsynced⟩

lemma processFetched {commits : List TrustedCommit}
    (h : s.Partitioned 0)
    (hr : r ∈ s.inflightFetches) (hpre : FetchedPrefix r commits)
    (hok : CommitSyncer.processFetched addBlocks loc r.stop commits blocks
      { s with inflightFetches := s.inflightFetches.erase r } = some (s', sent, running)) :
    (running = true → s'.Partitioned 0) ∧
      ∀ b ∈ sent, b.range.start ≤ b.syncedCommitIndex + 1 ∧ b.syncedCommitIndex < b.range.stop := by
  have hstop := (h.valid r (.inr (.inl hr))).2
  have htak : ({ s with inflightFetches := s.inflightFetches.erase r } : CommitSyncer).Partitioned
      r.weight := by
    refine h.take (fun r' hr' => ?_) (fun i => cover_inflight_erase hr) rfl rfl
    exact hr'.imp_right (Or.imp_left mem_of_mem_erase)
  unfold CommitSyncer.processFetched at hok
  cases hfst : commits.head? with
  | none => exact absurd (List.head?_eq_none_iff.mp hfst) hpre.nonempty
  | some first =>
    cases hlast : commits.getLast? with
    | none => exact absurd (List.getLast?_eq_none_iff.mp hlast) hpre.nonempty
    | some last =>
      simp only [hfst, hlast, Option.some.injEq] at hok
      have hlen := length_pos_of_ne_nil hpre.nonempty
      have hle := hpre.stop_le
      have hfirstIndex : first.index = r.start := hpre.index_eq 0 first (List.head?_eq_getElem? ▸ hfst)
      have hlastIndex : last.index = r.start + (commits.length - 1) :=
        hpre.index_eq _ last (List.getLast?_eq_getElem? ▸ hlast)
      rw [hfirstIndex] at hok
      have hspl : (CommitSyncer.splitPending r.stop last.index { s with
          inflightFetches := s.inflightFetches.erase r }).Partitioned
            (FetchRange.weight ⟨r.start, last.index⟩) :=
        htak.splitPending (by omega) (by omega) hstop
      refine ((hspl.raise (le_max_left _ _)).keepFetched ?_ ?_).sendFetched hok
      · dsimp only
        omega
      · have hhigh : ∀ (t : CommitSyncer) e, (t.splitPending r.stop e).highestScheduledIndex =
            t.highestScheduledIndex := by
          intro t e
          unfold CommitSyncer.splitPending
          split_ifs <;> rfl
        rw [hhigh]
        dsimp only
        omega

end Partitioned

lemma partitioned_new (n : ℕ) : (CommitSyncer.new n).Partitioned 0 := by
  refine ⟨?_, ?_, ?_⟩
  · simp [IsRange, CommitSyncer.new]
  · intro i
    exact Nat.zero_le 1
  · intro i hi hle
    simp only [CommitSyncer.new, Option.getD_none] at hi hle
    omega

end CommitSyncer

section Runs

variable {ctx : Context} {p : CommitSyncParameters} {s : CommitSyncer} {sent : List SentBatch}
  {running : Bool}

lemma CommitSyncerRun.invariant (hbatch : 1 ≤ p.commitSyncBatchSize)
    (hrun : CommitSyncerRun ctx p running s sent) :
    (running = true → s.Partitioned 0) ∧
      ∀ b ∈ sent, b.range.start ≤ b.syncedCommitIndex + 1 ∧ b.syncedCommitIndex < b.range.stop := by
  induction hrun with
  | start n => exact ⟨fun _ => CommitSyncer.partitioned_new n, by simp⟩
  | tick _ _ _ ih => exact ⟨fun _ => ((ih.1 rfl).tick hbatch).startFetches, ih.2⟩
  | fetched _ _ _ hr hpre hok ih =>
    obtain ⟨hinv, hsent⟩ := (ih.1 rfl).processFetched hr hpre hok
    exact ⟨fun hrng => (hinv hrng).startFetches, forall_mem_append.mpr ⟨ih.2, hsent⟩⟩

/-- No index is lost or fetched twice, and nothing is sent to `Core` past a gap. The naturals agree
with `u32` while the commit indices plus a batch size are below `2 ^ 32`. -/
theorem commitSyncer_noGap (hbatch : 1 ≤ p.commitSyncBatchSize)
    (hrun : CommitSyncerRun ctx p running s sent) :
    (running = true → ∀ i, s.syncedCommitIndex < i → i ≤ s.highestScheduledIndex.getD 0 →
      s.pendingFetches.toList.countP (·.Covers i) + s.inflightFetches.countP (·.Covers i) +
        s.fetchedBlocks.keys.countP (·.Covers i) = 1) ∧
    ∀ b ∈ sent, b.range.start ≤ b.syncedCommitIndex + 1 ∧ b.syncedCommitIndex < b.range.stop := by
  obtain ⟨hinv, hsent⟩ := hrun.invariant hbatch
  refine ⟨fun hrunning i hi hle => ?_, hsent⟩
  have honce := (hinv hrunning).once i
  have hcovered := (hinv hrunning).covered i hi hle
  exact le_antisymm honce hcovered

end Runs

/-- Two ranges are fetched in parallel. The later one finishes first and in part, and waits for
the earlier one. -/
theorem commitSyncer_noGap_partialFetch :
    ∃ s sent, CommitSyncerRun fourAuthorities ⟨3, 2, 10⟩ true s sent ∧
      sent.map SentBatch.range = [⟨1, 3⟩, ⟨4, 4⟩] ∧
      s.pendingFetches.toList.countP (·.Covers 5) + s.inflightFetches.countP (·.Covers 5) +
        s.fetchedBlocks.keys.countP (·.Covers 5) = 1 := by
  let commit (n : ℕ) : TrustedCommit := ⟨⟨n, 0, 0, ⟨0, 0, 0⟩, []⟩, 0⟩
  let p : CommitSyncParameters := ⟨3, 2, 10⟩
  let erase (s : CommitSyncer) (r : FetchRange) : CommitSyncer :=
    { s with inflightFetches := s.inflightFetches.erase r }
  let s₁ := ((CommitSyncer.new 0).tick p 10 0).finishTurn fourAuthorities p
  have hrun₁ : CommitSyncerRun fourAuthorities p true s₁ [] := .tick 10 0 (.start 0)
  obtain ⟨⟨s₂, sent₂, running₂⟩, h₂, hfin⟩ :
    ∃ out, CommitSyncer.processFetched (fun _ => true) 0 6 [commit 4] []
      (erase s₁ ⟨4, 6⟩) = some out ∧ ∃ out', CommitSyncer.processFetched (fun _ => true) 0 3
        [commit 1, commit 2, commit 3] []
        (erase (out.1.finishTurn fourAuthorities p) ⟨1, 3⟩) = some out' ∧
      out.2.2 = true ∧ out'.2.2 = true ∧ ⟨1, 3⟩ ∈ (out.1.finishTurn fourAuthorities p).inflightFetches ∧
      ([] ++ out.2.1 ++ out'.2.1).map SentBatch.range = [⟨1, 3⟩, ⟨4, 4⟩] ∧
      (out'.1.finishTurn fourAuthorities p).syncedCommitIndex = 4 ∧
      (out'.1.finishTurn fourAuthorities p).highestScheduledIndex = some 9 := by
    refine ⟨_, rfl, _, rfl, ?_⟩
    decide +kernel
  obtain ⟨⟨s₃, sent₃, running₃⟩, h₃, rfl, rfl, hmem, hsent, hsynced, hhighest⟩ := hfin
  have hpre₂ : FetchedPrefix ⟨4, 6⟩ [commit 4] := by
    refine ⟨by simp, fun i c hc => ?_, by decide⟩
    rcases i with _ | i <;> simp [commit] at hc
    rw [← hc]
  have hpre₃ : FetchedPrefix ⟨1, 3⟩ [commit 1, commit 2, commit 3] := by
    refine ⟨by simp, fun i c hc => ?_, by decide⟩
    rcases i with _ | _ | _ | i <;> simp [commit] at hc <;> rw [← hc]
  have hrun₂ := CommitSyncerRun.fetched (fun _ => true) 0 hrun₁ (by decide +kernel) hpre₂ h₂
  have hrun₃ := CommitSyncerRun.fetched (fun _ => true) 0 hrun₂ hmem hpre₃ h₃
  refine ⟨_, _, hrun₃, hsent, (commitSyncer_noGap (by decide) hrun₃).1 rfl 5 ?_ ?_⟩
  · rw [hsynced]
    decide
  · rw [hhighest]
    decide

end SuiProofs.Consensus

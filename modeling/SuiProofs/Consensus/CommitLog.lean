import SuiProofs.Consensus.DagStateRefinement

namespace SuiProofs.Consensus

open Library List

def IndexedFromOne (commits : List TrustedCommit) : Prop :=
  ∀ (i : ℕ) (c : TrustedCommit), commits[i]? = some c → c.index = i + 1

variable {commits : List TrustedCommit} {commit : TrustedCommit}

namespace IndexedFromOne

section

variable (h : IndexedFromOne commits)

include h

lemma pairwise_index : commits.Pairwise (fun c c' => c.index < c'.index) := by
  rw [pairwise_iff_getElem]
  intro i j hi hj hij
  rw [h i _ (getElem?_eq_getElem hi), h j _ (getElem?_eq_getElem hj)]
  omega

lemma pairwise_reference :
    commits.Pairwise (fun c c' => c.reference < c'.reference) :=
  h.pairwise_index.imp fun hlt => Prod.Lex.toLex_lt_toLex.mpr (.inl hlt)

lemma reference_inj : ∀ c ∈ commits, ∀ c' ∈ commits,
    c.reference = c'.reference → c = c' := by
  have hnd : (commits.map TrustedCommit.reference).Nodup :=
    pairwise_map.mpr (h.pairwise_reference.imp (fun hlt => hlt.ne))
  exact fun c hc c' hc' he => inj_on_of_nodup_map hnd hc hc' he

lemma reference_le_last {last c : TrustedCommit} (hlast : commits.getLast? = some last)
    (hc : c ∈ commits) : c.reference ≤ last.reference := by
  rcases rel_or_eq_last h.pairwise_reference hlast hc with hlt | rfl
  · exact hlt.le
  · exact le_rfl

lemma concat (hidx : commit.index = commits.length + 1) :
    IndexedFromOne (commits ++ [commit]) := by
  intro i c hc
  rw [getElem?_append] at hc
  split_ifs at hc with hi
  · exact h i c hc
  · obtain ⟨hlt, rfl⟩ := List.getElem?_eq_some_iff.mp hc
    simp only [length_singleton] at hlt
    simp only [getElem_singleton]
    omega

end

end IndexedFromOne

def Store.HoldsCommits (s : Store) (commits : List TrustedCommit) : Prop :=
  ∀ (k : CommitRef) (c : TrustedCommit), s.commits[k]? = some c ↔ c ∈ commits ∧ c.reference = k

namespace Store.HoldsCommits

variable {s : Store}

section

variable (h : s.HoldsCommits commits)

include h

lemma write {batch : WriteBatch} (hidx : IndexedFromOne (commits ++ batch.commits)) :
    (s.write batch).HoldsCommits (commits ++ batch.commits) := by
  intro k c
  rw [mem_append]
  apply getElem?_foldl_insert_iff (S := {c | c ∈ commits}) h
  intro c c' hc hc'
  exact hidx.reference_inj c (mem_append.mpr hc) c' (mem_append.mpr hc')

lemma readLastCommit (hidx : IndexedFromOne commits) : s.readLastCommit = commits.getLast? := by
  cases hlast : commits.getLast? with
  | none =>
    rw [Store.readLastCommit, Option.map_eq_none_iff, lastPair?_eq_none_iff]
    intro k hk
    obtain ⟨c, hc⟩ := mem_map_iff_exists.mp hk
    have hmem := ((h k c).mp hc).1
    simp [getLast?_eq_none_iff.mp hlast] at hmem
  | some last =>
    have hpair : lastPair? s.commits = some (last.reference, last) := by
      rw [lastPair?_eq_some_iff]
      refine ⟨(h _ _).mpr ⟨mem_of_getLast? hlast, rfl⟩, fun k hk => ?_⟩
      obtain ⟨c, hc⟩ := mem_map_iff_exists.mp hk
      obtain ⟨hmem, rfl⟩ := (h k c).mp hc
      exact hidx.reference_le_last hlast hmem
    rw [Store.readLastCommit, hpair]
    rfl

lemma scanCommits (hidx : IndexedFromOne commits) (n m : ℕ) :
    s.scanCommits ⟨n + 1, m + 1⟩ = (commits.take m).drop n := by
  have hkey : ∀ (k : CommitRef) (c : TrustedCommit), s.commits[k]? = some c → c.reference = k :=
    fun k c hc => ((h k c).mp hc).2
  refine List.Pairwise.eq_of_mem_iff (r := fun c c' => c.reference < c'.reference)
    (pairwise_map_snd_filter hkey _) (hidx.pairwise_reference.take.drop) ?_
  intro c
  simp only [Store.scanCommits, mem_map_snd_filter, decide_eq_true_eq]
  constructor
  · rintro ⟨k, hk, hrange⟩
    obtain ⟨hc, rfl⟩ := (h k c).mp hk
    obtain ⟨i, hi⟩ := getElem?_of_mem hc
    have hi' := hidx i c hi
    simp only [TrustedCommit.reference_index] at hrange
    refine mem_of_getElem? (i := i - n) ?_
    rw [getElem?_drop, getElem?_take_of_lt (by omega), ← hi]
    congr 1
    omega
  · intro hc
    obtain ⟨i, hi⟩ := getElem?_of_mem hc
    rw [getElem?_drop] at hi
    rw [List.getElem?_take, Option.ite_none_right_eq_some] at hi
    obtain ⟨hlt, hi⟩ := hi
    have hi' := hidx _ c hi
    refine ⟨c.reference, (h _ c).mpr ⟨mem_of_getElem? hi, rfl⟩, ?_⟩
    simp only [TrustedCommit.reference_index]
    omega

end

end Store.HoldsCommits

namespace DagState

variable {ctx : Context} {d d' : DagState}

def committedRounds (commits : List TrustedCommit) : ℕ → ℕ :=
  raiseCommittedRounds (fun _ => 0) (commits.flatMap (fun c => c.blocks))

lemma committedRounds_append (l l' : List TrustedCommit) :
    committedRounds (l ++ l') = raiseCommittedRounds (committedRounds l)
      (l'.flatMap (fun c => c.blocks)) := by
  simp [committedRounds, raiseCommittedRounds]

variable {a n : ℕ}

lemma raiseCommittedRounds_le_iff {rounds : ℕ → ℕ} {refs : List BlockRef} :
    raiseCommittedRounds rounds refs a ≤ n ↔ rounds a ≤ n ∧ ∀ r ∈ refs, r.author = a → r.round ≤ n := by
  induction refs generalizing rounds with
  | nil => simp [raiseCommittedRounds]
  | cons r refs ih =>
    have hcons : raiseCommittedRounds rounds (r :: refs) = raiseCommittedRounds
      (Function.update rounds r.author (max (rounds r.author) r.round)) refs := rfl
    rw [hcons, ih, forall_mem_cons]
    by_cases ha : a = r.author
    · subst ha
      simp [and_assoc]
    · simp [Function.update_of_ne ha, Ne.symm ha]

lemma committedRounds_le_iff :
    committedRounds commits a ≤ n ↔ ∀ c ∈ commits, ∀ r ∈ c.blocks, r.author = a → r.round ≤ n := by
  simp only [committedRounds, raiseCommittedRounds_le_iff, Nat.zero_le, true_and, mem_flatMap]
  grind

def previousDigest (commits : List TrustedCommit) : CommitDigest :=
  match commits.getLast? with
  | some commit => commit.digest
  | none => 0

lemma addCommit_total (hidx : commit.index = d.lastCommitIndex + 1)
    (htime : d.lastCommitTimestampMs ≤ commit.timestampMs) : ∃ d', d.addCommit commit = .ok d' := by
  unfold lastCommitIndex at hidx
  unfold lastCommitTimestampMs at htime
  unfold addCommit
  cases hlast : d.lastCommit with
  | none =>
    simp only [hlast] at hidx
    exact ⟨_, if_neg (by omega)⟩
  | some last =>
    simp only [hlast] at hidx htime
    dsimp only
    rw [if_neg (by omega), if_neg (by omega), if_neg (by omega)]
    exact ⟨_, rfl⟩

/-- The commits so far, stored or buffered, with the last of them. -/
structure StoredCommits (d : DagState) (commits : List TrustedCommit) : Prop where
  index_eq : IndexedFromOne commits
  lastCommit_eq : d.lastCommit = commits.getLast?
  stored : ∃ stored, commits = stored ++ d.commitsToWrite ∧ d.store.HoldsCommits stored

/-- The log of commits, with the committed rounds that they amount to. -/
structure CommitLog (d : DagState) (commits : List TrustedCommit) :
    Prop extends StoredCommits d commits where
  timestamps : commits.Pairwise (fun c c' => c.timestampMs ≤ c'.timestampMs)
  rounds_eq : d.lastCommittedRounds = committedRounds commits

namespace StoredCommits

section

variable (h : d.StoredCommits commits)

include h

lemma lastCommitIndex_eq : d.lastCommitIndex = commits.length := by
  unfold lastCommitIndex
  rw [h.lastCommit_eq]
  cases hlast : commits.getLast? with
  | none => simp [getLast?_eq_none_iff.mp hlast]
  | some last =>
    rw [getLast?_eq_getElem?] at hlast
    have hidx := h.index_eq _ _ hlast
    have hlt := (List.getElem?_eq_some_iff.mp hlast).1
    dsimp only
    omega

lemma lastCommitDigest_eq : d.lastCommitDigest = previousDigest commits := by
  unfold previousDigest
  rw [← h.lastCommit_eq]
  rfl

lemma of_sameCommits (hs : d.SameCommits d') : d'.StoredCommits commits where
  index_eq := h.index_eq
  lastCommit_eq := hs.lastCommit.trans h.lastCommit_eq
  stored := by
    rw [hs.commitsToWrite, hs.store]
    exact h.stored

lemma addCommit (hidx : commit.index = d.lastCommitIndex + 1)
    (hok : d.addCommit commit = .ok d') : d'.StoredCommits (commits ++ [commit]) := by
  obtain ⟨_, hle⟩ | ⟨_, htime, rfl⟩ := addCommit_eq_ok hok
  · omega
  rw [h.lastCommitIndex_eq] at hidx
  refine ⟨h.index_eq.concat hidx, by simp, ?_⟩
  obtain ⟨stored, he, hstd⟩ := h.stored
  exact ⟨stored, by simp [he], hstd⟩

lemma flush : (d.flush ctx).StoredCommits commits := by
  obtain ⟨stored, rfl, hstd⟩ := h.stored
  have hflushed : (d.flushedStore ctx).HoldsCommits (stored ++ d.commitsToWrite) := by
    unfold flushedStore
    split_ifs with hemp
    · rwa [hemp.2, append_nil]
    · exact hstd.write h.index_eq
  obtain ⟨recentBlocks, recentRefs, he⟩ := flush_eq
  rw [he]
  exact ⟨h.index_eq, h.lastCommit_eq, _, (append_nil _).symm, hflushed⟩

section

variable (hw : d.commitsToWrite = [])

include hw

lemma holdsCommits : d.store.HoldsCommits commits := by
  obtain ⟨stored, rfl, hstd⟩ := h.stored
  rwa [hw, append_nil]

lemma readLastCommit : d.store.readLastCommit = commits.getLast? :=
  (h.holdsCommits hw).readLastCommit h.index_eq

lemma scanCommits (n : ℕ) : d.store.scanCommits ⟨n + 1, commits.length + 1⟩ = commits.drop n := by
  rw [(h.holdsCommits hw).scanCommits h.index_eq, take_length]

end

end

end StoredCommits

namespace CommitLog

variable (h : d.CommitLog commits)
include h

lemma of_sameCommits (hs : d.SameCommits d') : d'.CommitLog commits where
  toStoredCommits := h.toStoredCommits.of_sameCommits hs
  timestamps := h.timestamps
  rounds_eq := hs.lastCommittedRounds.trans h.rounds_eq

omit h in
lemma new_empty (h : DagState.new ctx .empty = .ok d) : d.CommitLog [] := by
  obtain ⟨rounds, subdags, hrecov, hsame, _⟩ := new_eq_ok h
  obtain ⟨rfl, -⟩ : (fun _ => 0) = rounds ∧ [] = subdags :=
    Prod.mk.inj (Except.ok.inj hrecov)
  refine of_sameCommits ⟨⟨by simp [IndexedFromOne], rfl, [], rfl, ?_⟩, .nil, rfl⟩ hsame
  simp [Store.HoldsCommits, recovered, Store.empty]

lemma timestampMs_le {c : TrustedCommit} (hc : c ∈ commits) :
    c.timestampMs ≤ d.lastCommitTimestampMs := by
  unfold lastCommitTimestampMs
  rw [h.lastCommit_eq]
  cases hlast : commits.getLast? with
  | none => simp [getLast?_eq_none_iff.mp hlast] at hc
  | some last =>
    rcases rel_or_eq_last h.timestamps hlast hc with hle | rfl
    · exact hle
    · exact le_rfl

lemma addCommit (hidx : commit.index = d.lastCommitIndex + 1)
    (hok : d.addCommit commit = .ok d') : d'.CommitLog (commits ++ [commit]) := by
  have hstd := h.toStoredCommits.addCommit hidx hok
  obtain ⟨_, hle⟩ | ⟨_, htime, rfl⟩ := addCommit_eq_ok hok
  · omega
  refine ⟨hstd, ?_, by simp [committedRounds_append, ← h.rounds_eq]⟩
  rw [pairwise_append]
  refine ⟨h.timestamps, pairwise_singleton _ _, fun c hc c' hc' => ?_⟩
  exact mem_singleton.mp hc' ▸ le_trans (h.timestampMs_le hc) htime

lemma flush : (d.flush ctx).CommitLog commits := by
  have hstd : (d.flush ctx).StoredCommits commits := h.toStoredCommits.flush
  obtain ⟨recentBlocks, recentRefs, he⟩ : ∃ recentBlocks recentRefs, d.flush ctx = _ := flush_eq
  refine ⟨hstd, h.timestamps, ?_⟩
  rw [he]
  exact h.rounds_eq

end CommitLog

end DagState

end SuiProofs.Consensus

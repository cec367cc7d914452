import SuiProofs.Library.Worklist
import SuiProofs.Consensus.CommitLog
import SuiProofs.Consensus.CommitRule

/-! Models `linearizer.rs`, which expands committed leaders into sub-dags. -/

namespace SuiProofs.Consensus

open Library Relation List VerifiedBlock
open Std (TreeSet)

namespace Linearizer

/-- The local variables of the search; the top of the stack `buffer` comes first. -/
structure Search where
  buffer : List VerifiedBlock
  toCommit : List VerifiedBlock
  committed : TreeSet BlockRef

def insertCommitted (committed : TreeSet BlockRef) (block : VerifiedBlock) :
    Except Panic (TreeSet BlockRef) :=
  if block.reference ∈ committed then .error (.blockCommittedTwice block.reference)
  else .ok (committed.insert block.reference)

def newAncestors (rounds : ℕ → ℕ) (committed : TreeSet BlockRef) (block : VerifiedBlock) :
    List BlockRef :=
  block.ancestors.filter (fun r => r ∉ committed ∧ rounds r.author < r.round)

variable (ctx : Context) (d : DagState)

def searchStep (s : Search) : Except Panic (Search ⊕ List VerifiedBlock) :=
  match s.buffer with
  | [] => .ok (.inr s.toCommit)
  | x :: buffer => do
    let ancestors ← (newAncestors d.lastCommittedRounds s.committed x).mapM (d.requireBlock ctx)
    let committed ← ancestors.foldlM insertCommitted s.committed
    return .inl ⟨ancestors.reverse ++ buffer, s.toCommit ++ [x], committed⟩

variable (leader : VerifiedBlock)

def collectBlocks : Except Panic (List VerifiedBlock) :=
  loopM (.error .outOfFuel) (searchStep ctx d) (d.recentBlocks.size + d.store.blocks.size + 1)
    ⟨[leader], [], (∅ : TreeSet BlockRef).insert leader.reference⟩

def newTrusted (commit : Commit) : TrustedCommit :=
  { commit with digest := ctx.computeCommitDigest commit }

def nextCommit (blocks : List VerifiedBlock) :
    TrustedCommit :=
  newTrusted ctx ⟨d.lastCommitIndex + 1, d.lastCommitDigest,
    max leader.timestampMs d.lastCommitTimestampMs,
    leader.reference, blocks.map VerifiedBlock.reference⟩

def collectSubDagAndCommit :
    Except Panic (CommittedSubDag × TrustedCommit) := do
  let blocks := sortSubDagBlocks (← collectBlocks ctx d leader)
  let commit := nextCommit ctx d leader blocks
  return (.new leader.reference blocks commit.timestampMs commit.reference, commit)

def commitLeader (state : DagState × List CommittedSubDag) (leader : VerifiedBlock) :
    Except Panic (DagState × List CommittedSubDag) := do
  let (subdag, commit) ← collectSubDagAndCommit ctx state.1 leader
  let d ← state.1.addCommit commit
  return (d, state.2 ++ [subdag])

def handleCommit (committedLeaders : List VerifiedBlock) :
    Except Panic (DagState × List CommittedSubDag) := do
  let (d, subdags) ← committedLeaders.foldlM (commitLeader ctx) (d, [])
  return (if subdags = [] then d else d.flush ctx, subdags)

end Linearizer

/-- A link to a block above the committed round of its author. -/
def UncommittedLink (S : Set VerifiedBlock) (rounds : ℕ → ℕ) (b p : VerifiedBlock) : Prop :=
  LinksTo S b p ∧ rounds p.author < p.round

/-- The sub-dag of a leader above the committed rounds, sorted by round and author. -/
structure SubDagOf (S : Set VerifiedBlock) (rounds : ℕ → ℕ) (leader : VerifiedBlock)
    (blocks : List VerifiedBlock) :
    Prop where
  nodup : blocks.Nodup
  sorted : blocks.Pairwise (fun a b => a.round < b.round ∨ a.round = b.round ∧ a.author ≤ b.author)
  mem_iff : ∀ b, b ∈ blocks ↔ ReflTransGen (UncommittedLink S rounds) leader b

lemma sortSubDagBlocks_perm (blocks : List VerifiedBlock) : (sortSubDagBlocks blocks).Perm blocks :=
  perm_insertionSort _ _

lemma pairwise_sortSubDagBlocks (blocks : List VerifiedBlock) : (sortSubDagBlocks blocks).Pairwise
    (fun a b => a.round < b.round ∨ a.round = b.round ∧ a.author ≤ b.author) := by
  have : Std.Total (fun a b : VerifiedBlock =>
      a.round < b.round ∨ a.round = b.round ∧ a.author ≤ b.author) :=
    ⟨fun a b => by omega⟩
  have : IsTrans VerifiedBlock (fun a b =>
      a.round < b.round ∨ a.round = b.round ∧ a.author ≤ b.author) :=
    ⟨fun a b c => by omega⟩
  exact pairwise_insertionSort _ _

namespace Linearizer

variable {ctx : Context} {d d' : DagState} {A : Finset VerifiedBlock} {leader x : VerifiedBlock}

lemma foldlM_insertCommitted {blocks : List VerifiedBlock} {committed : TreeSet BlockRef}
    (hnd : (blocks.map reference).Nodup) (hnew : ∀ b ∈ blocks, b.reference ∉ committed) :
    blocks.foldlM insertCommitted committed =
      .ok (blocks.foldl (fun t b => t.insert b.reference) committed) := by
  induction blocks generalizing committed with
  | nil => rfl
  | cons b blocks ih =>
    rw [map_cons, nodup_cons] at hnd
    rw [foldlM_cons, insertCommitted, if_neg (hnew b mem_cons_self), ok_bind, foldl_cons]
    apply ih hnd.2
    intro b' hb'
    rw [TreeSet.mem_insert, compare_eq_iff_eq, not_or]
    refine ⟨fun he => hnd.1 ?_, hnew b' (mem_cons_of_mem b hb')⟩
    exact he ▸ mem_map_of_mem hb'

/-- The search has visited the blocks of `toCommit` and discovered those of `buffer`. -/
structure Searching (A : Finset VerifiedBlock) (rounds : ℕ → ℕ) (leader : VerifiedBlock)
    (s : Search) : Prop where
  worklist : Worklist (UncommittedLink ↑A rounds) leader s.toCommit s.buffer
  mem : ∀ b ∈ s.toCommit ++ s.buffer, b ∈ A
  committed_iff : ∀ r, r ∈ s.committed ↔ ∃ b ∈ s.toCommit ++ s.buffer, b.reference = r

lemma Searching.start {rounds : ℕ → ℕ} (hleader : leader ∈ A) :
    Searching A rounds leader ⟨[leader], [], (∅ : TreeSet BlockRef).insert leader.reference⟩ where
  worklist := .start
  mem b hb := by simpa using (mem_singleton.mp hb ▸ hleader)
  committed_iff r := by simp [TreeSet.mem_insert]

section

variable (h : d.Refines ctx A)
include h

lemma mapM_newAncestors (hcl : AncestorClosed (↑A : Set VerifiedBlock))
    (committed : TreeSet BlockRef) (hx : x ∈ A) (hnd : x.ancestors.Nodup) :
    ∃ ancestors, (newAncestors d.lastCommittedRounds committed x).mapM (d.requireBlock ctx) =
      .ok ancestors ∧
      (ancestors.map reference).Nodup ∧
      ∀ p, p ∈ ancestors ↔ UncommittedLink ↑A d.lastCommittedRounds x p ∧ p.reference ∉ committed := by
  have hlk : ∀ r ∈ newAncestors d.lastCommittedRounds committed x, ∃ p ∈ A, p.reference = r := by
    intro r hr
    simp only [newAncestors, mem_filter, decide_eq_true_eq] at hr
    refine hcl x hx r hr.1 ?_
    rw [genesisRound]
    omega
  obtain ⟨ancestors, hok, hmem⟩ := mapM_total (f := d.requireBlock ctx) (fun r hr => by
    obtain ⟨p, hp, rfl⟩ := hlk r hr
    exact ⟨p, h.requireBlock_eq (.inr hp)⟩)
  have hrefs := map_of_mapM_eq_ok (fun r _ p hp => (h.requireBlock_eq_ok_iff.mp hp).1) hok
  refine ⟨ancestors, hok, hrefs ▸ hnd.filter _, fun p => ?_⟩
  have hnew : p.reference ∈ newAncestors d.lastCommittedRounds committed x ↔
      p.reference ∈ x.ancestors ∧ p.reference ∉ committed ∧
        d.lastCommittedRounds p.author < p.round := by
    rw [newAncestors, mem_filter, decide_eq_true_eq]
    rfl
  rw [hmem]
  constructor
  · rintro ⟨r, hr, hp⟩
    obtain ⟨p', hp', rfl⟩ := hlk r hr
    rw [h.requireBlock_eq (.inr hp')] at hp
    cases hp
    obtain ⟨hlink, hcommd, hrd⟩ := hnew.mp hr
    exact ⟨⟨⟨hp', hlink⟩, hrd⟩, hcommd⟩
  · rintro ⟨⟨⟨hp, hlink⟩, hrd⟩, hcommd⟩
    exact ⟨p.reference, hnew.mpr ⟨hlink, hcommd, hrd⟩, h.requireBlock_eq (.inr hp)⟩

lemma Searching.step (hcl : AncestorClosed (↑A : Set VerifiedBlock))
    (hnd : ∀ b ∈ A, b.ancestors.Nodup) {s : Search} {buffer : List VerifiedBlock}
    (hs : Searching A d.lastCommittedRounds leader s) (hbuffer : s.buffer = x :: buffer) :
    ∃ s', searchStep ctx d s = .ok (.inl s') ∧ Searching A d.lastCommittedRounds leader s' ∧
      s'.toCommit = s.toCommit ++ [x] := by
  obtain ⟨hw, hmem, hcommd⟩ := hs
  rw [hbuffer] at hw hmem hcommd
  have hx : x ∈ A := hmem x (mem_append_right _ mem_cons_self)
  obtain ⟨ancestors, hok, hrefs, hancs⟩ := mapM_newAncestors h hcl s.committed hx (hnd x hx)
  have hins := foldlM_insertCommitted hrefs (fun b hb => ((hancs b).mp hb).2)
  have hA : ∀ p ∈ ancestors, p ∈ A := fun p hp => ((hancs p).mp hp).1.1.1
  -- References identify the blocks of the DAG, so a new reference is that of a new block.
  have hnew : ∀ p, p ∈ ancestors.reverse ↔
      UncommittedLink ↑A d.lastCommittedRounds x p ∧ p ∉ s.toCommit ++ x :: buffer := by
    intro p
    rw [mem_reverse, hancs, hcommd]
    refine and_congr_right fun hlink => not_congr ?_
    constructor
    · rintro ⟨b, hb, he⟩
      rwa [← h.acceptable.injOn b (hmem b hb) p hlink.1.1 he]
    · exact fun hp => ⟨p, hp, rfl⟩
  refine ⟨⟨ancestors.reverse ++ buffer, s.toCommit ++ [x],
    ancestors.foldl (fun t b => t.insert b.reference) s.committed⟩, ?_, ⟨?_, ?_, ?_⟩, rfl⟩
  · rw [searchStep, hbuffer]
    dsimp only
    rw [hok, ok_bind, hins, ok_bind]
    rfl
  · exact hw.expand (nodup_reverse.mpr (List.Nodup.of_map _ hrefs)) hnew
  · intro b hb
    simp only [mem_append, mem_singleton, mem_reverse] at hb
    rcases hb with (hb | rfl) | hb | hb
    · exact hmem b (mem_append_left _ hb)
    · exact hx
    · exact hA b hb
    · exact hmem b (mem_append_right _ (mem_cons_of_mem x hb))
  · intro r
    rw [mem_foldl_insert_set, hcommd]
    simp only [mem_append, mem_reverse, mem_cons]
    grind

section

variable (hclosed : AncestorClosed (↑A : Set VerifiedBlock)) (hnodup : ∀ b ∈ A, b.ancestors.Nodup)
  (hleader : leader ∈ A)

include hclosed hnodup hleader

/-- The search ends with the uncommitted history of the leader, each block once. -/
theorem collectBlocks_total : ∃ blocks, collectBlocks ctx d leader = .ok blocks ∧ blocks.Nodup ∧
      ∀ b, b ∈ blocks ↔ ReflTransGen (UncommittedLink ↑A d.lastCommittedRounds) leader b := by
  apply loopM_total (Searching A d.lastCommittedRounds leader) _ (fun s => A.card - s.toCommit.length) ?_
    (.start hleader) (by have := h.card_le_fuel; simp only [length_nil]; omega)
  intro s hs
  cases hbuffer : s.buffer with
  | nil =>
    obtain ⟨hw, _, _⟩ := hs
    rw [hbuffer] at hw
    refine .inr ⟨s.toCommit, by rw [searchStep, hbuffer], ?_, fun b => hw.mem_done_iff⟩
    simpa using hw.nodup
  | cons x buffer =>
    obtain ⟨s', hstep, hs', htoCommit⟩ := hs.step h hclosed hnodup hbuffer
    obtain ⟨hw, hmem, _⟩ := hs
    rw [hbuffer] at hw hmem
    have := hw.length_done_lt hmem
    refine .inl ⟨s', hstep, hs', ?_⟩
    rw [htoCommit, length_append, length_singleton]
    omega

/-- A commit is made for every leader of the DAG. -/
theorem collectSubDagAndCommit_total : ∃ blocks, SubDagOf ↑A d.lastCommittedRounds leader blocks ∧
      collectSubDagAndCommit ctx d leader = .ok (.new leader.reference blocks
        (max leader.timestampMs d.lastCommitTimestampMs) (nextCommit ctx d leader blocks).reference,
        nextCommit ctx d leader blocks) := by
  obtain ⟨blocks, hok, hblocks, hmem⟩ := collectBlocks_total h hclosed hnodup hleader
  refine ⟨sortSubDagBlocks blocks, ⟨?_, pairwise_sortSubDagBlocks blocks, fun b => ?_⟩, ?_⟩
  · exact (sortSubDagBlocks_perm blocks).nodup_iff.mpr hblocks
  · rw [(sortSubDagBlocks_perm blocks).mem_iff, hmem]
  · rw [collectSubDagAndCommit, hok, ok_bind]
    rfl

end

end

end Linearizer

end SuiProofs.Consensus

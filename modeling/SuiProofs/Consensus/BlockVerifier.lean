import SuiProofs.Consensus.Context

/-! Models `block_verifier.rs`. -/

namespace SuiProofs.Consensus

open List

inductive ConsensusError where
  | wrongEpoch (expected actual : ℕ)
  | unexpectedGenesisBlock
  | invalidAuthorityIndex (index max : ℕ)
  | signatureVerificationFailure
  | tooManyAncestors (number limit : ℕ)
  | insufficientParentStakes (parentStakes quorum : ℕ)
  | invalidAncestorPosition (blockAuthority ancestorAuthority position : ℕ)
  | invalidAncestorRound (ancestor block : ℕ)
  | invalidGenesisAncestor (ancestor : BlockRef)
  | duplicatedAncestorsAuthority (authority : ℕ)
  | invalidTransaction
  | invalidBlockTimestamp (maxTimestampMs blockTimestampMs : ℕ)
  | malformedBlock
  | malformedCommit
  | unexpectedStartCommit (peer start : ℕ) (commit : Commit)
  | unexpectedCommitSequence (peer : ℕ) (prevCommit currCommit : Commit)
  | noCommitReceived (peer : ℕ)
  | notEnoughCommitVotes (stake peer : ℕ) (commit : Commit)
deriving DecidableEq, Repr

/-- The trait `BlockVerifier`. -/
structure BlockVerifier where
  verify : SignedBlock → Except ConsensusError Unit
  checkAncestors : VerifiedBlock → List VerifiedBlock → Except ConsensusError Unit

structure SignedBlockVerifier where
  context : Context
  verifySignature : SignedBlock → Bool
  verifyBatch : List Transaction → Bool

namespace SignedBlockVerifier

/-- The loop over the ancestors: position, authorities seen and parent stake so far. -/
def verifyAncestors (v : SignedBlockVerifier) (block : SignedBlock) :
    List BlockRef → ℕ → Finset ℕ → ℕ → Except ConsensusError ℕ
  | [], _, _, parentStakes => .ok parentStakes
  | ancestor :: ancestors, i, seenAncestors, parentStakes =>
    let committee := v.context.committee
    if !committee.isValidIndex ancestor.author then
      .error (.invalidAuthorityIndex ancestor.author (committee.size - 1))
    else if (i = 0 ∧ ancestor.author ≠ block.author) ∨ (i > 0 ∧ ancestor.author = block.author) then
      .error (.invalidAncestorPosition block.author ancestor.author i)
    else if ancestor.round ≥ block.round then
      .error (.invalidAncestorRound ancestor.round block.round)
    else if ancestor.round = genesisRound ∧
        ancestor ∉ genesisRefs v.context then
      .error (.invalidGenesisAncestor ancestor)
    else if ancestor.author ∈ seenAncestors then
      .error (.duplicatedAncestorsAuthority ancestor.author)
    else
      verifyAncestors v block ancestors (i + 1) (insert ancestor.author seenAncestors)
        (if ancestor.round = block.round - 1 then parentStakes + committee.stake ancestor.author
          else parentStakes)

def verify (v : SignedBlockVerifier) (block : SignedBlock) : Except ConsensusError Unit := do
  let committee := v.context.committee
  if block.epoch ≠ committee.epoch then
    throw (.wrongEpoch committee.epoch block.epoch)
  if block.round = 0 then
    throw .unexpectedGenesisBlock
  if !committee.isValidIndex block.author then
    throw (.invalidAuthorityIndex block.author (committee.size - 1))
  if !v.verifySignature block then
    throw .signatureVerificationFailure
  if block.ancestors.length > committee.size then
    throw (.tooManyAncestors block.ancestors.length committee.size)
  if block.ancestors.isEmpty then
    throw (.insufficientParentStakes 0 committee.quorumThreshold)
  let parentStakes ← v.verifyAncestors block block.ancestors 0 ∅ 0
  if !committee.reachedQuorum parentStakes then
    throw (.insufficientParentStakes parentStakes committee.quorumThreshold)
  if !v.verifyBatch block.transactions then
    throw .invalidTransaction

def checkAncestors (block : VerifiedBlock) (ancestors : List VerifiedBlock) :
    Except ConsensusError Unit :=
  let maxTimestampMs := ancestors.foldl (fun ts b => max ts b.timestampMs) 0
  if maxTimestampMs > block.timestampMs then
    .error (.invalidBlockTimestamp maxTimestampMs block.timestampMs)
  else .ok ()

def toBlockVerifier (v : SignedBlockVerifier) : BlockVerifier := ⟨v.verify, checkAncestors⟩

end SignedBlockVerifier

def Block.parentAuthors (block : Block) : Finset ℕ :=
  ((block.ancestors.filter (fun a => a.round + 1 = block.round)).map BlockRef.author).toFinset

/-- What every block that passes the verifier has. -/
structure WellFormed (committee : Committee) (genesis : List BlockRef) (block : Block) : Prop where
  epoch_eq : block.epoch = committee.epoch
  round_pos : 0 < block.round
  author_lt : block.author < committee.size
  ownFirst : ∃ own rest, block.ancestors = own :: rest ∧ own.author = block.author ∧
    ∀ a ∈ rest, a.author ≠ block.author
  ancestor_author_lt : ∀ a ∈ block.ancestors, a.author < committee.size
  ancestor_round_lt : ∀ a ∈ block.ancestors, a.round < block.round
  genesis_ancestor : ∀ a ∈ block.ancestors, a.round = 0 → a ∈ genesis
  nodup_authors : (block.ancestors.map BlockRef.author).Nodup
  parents_quorum : committee.IsQuorum block.parentAuthors

namespace SignedBlockVerifier

lemma verifyAncestors_ok {v : SignedBlockVerifier} {block : SignedBlock} (hrd : 0 < block.round)
    {ancestors : List BlockRef} {i : ℕ} {seen : Finset ℕ} {stakes total : ℕ}
    (h : v.verifyAncestors block ancestors i seen stakes = .ok total) :
    (∀ a ∈ ancestors, a.author < v.context.committee.size ∧ a.round < block.round ∧
      (a.round = 0 → a ∈ genesisRefs v.context) ∧ a.author ∉ seen) ∧
    (ancestors.map BlockRef.author).Nodup ∧
    (∀ a rest, ancestors = a :: rest → (i = 0 → a.author = block.author) ∧
      (0 < i → a.author ≠ block.author) ∧ ∀ x ∈ rest, x.author ≠ block.author) ∧
    total = stakes + v.context.committee.stakeOf
      ((ancestors.filter (fun a => a.round + 1 = block.round)).map BlockRef.author).toFinset := by
  induction ancestors generalizing i seen stakes with
  | nil =>
    simp only [verifyAncestors, Except.ok.injEq] at h
    simp [h, Committee.stakeOf]
  | cons a ancestors ih =>
    simp only [verifyAncestors] at h
    generalize hsks : (if a.round = block.round - 1 then
      stakes + v.context.committee.stake a.author else stakes) = stakes' at h
    split_ifs at h with h1 h2 h3 h4 h5
    obtain ⟨hall, hnd, hpos, htot⟩ := ih h
    have hlt : a.author < v.context.committee.size := by
      simpa [Committee.isValidIndex] using h1
    have hrd' : a.round < block.round := by omega
    have hgen : a.round = 0 → a ∈ genesisRefs v.context := by
      intro h0
      by_contra hn
      exact h4 ⟨h0, hn⟩
    have hfr : ∀ x ∈ ancestors, x.author ≠ a.author := by
      intro x hx he
      exact (hall x hx).2.2.2 (by simp [he])
    refine ⟨?_, ?_, ?_, ?_⟩
    · intro x hx
      rcases mem_cons.mp hx with rfl | hx
      · exact ⟨hlt, hrd', hgen, h5⟩
      · obtain ⟨hx1, hx2, hx3, hx4⟩ := hall x hx
        exact ⟨hx1, hx2, hx3, fun hs => hx4 (Finset.mem_insert_of_mem hs)⟩
    · rw [map_cons, nodup_cons]
      refine ⟨?_, hnd⟩
      rw [mem_map]
      rintro ⟨x, hx, he⟩
      exact hfr x hx he
    · rintro a' rest he
      cases he
      push Not at h2
      refine ⟨fun hi => by_contra fun hn => hn (h2.1 hi), h2.2, ?_⟩
      intro x hx
      -- Every ancestor behind the first one stands at a positive position.
      cases ancestors with
      | nil => simp at hx
      | cons y ys =>
        obtain ⟨_, hy, hys⟩ := hpos y ys rfl
        rcases mem_cons.mp hx with rfl | hx
        · exact hy (by omega)
        · exact hys x hx
    · rw [htot, ← hsks]
      by_cases hp : a.round + 1 = block.round
      · have hp' : a.round = block.round - 1 := by omega
        have hni : a.author ∉ ((ancestors.filter (fun a => a.round + 1 = block.round)).map
            BlockRef.author).toFinset := by
          simp only [mem_toFinset, mem_map, mem_filter, not_exists, not_and]
          rintro x ⟨hx, _⟩
          exact hfr x hx
        rw [if_pos hp', filter_cons_of_pos (by simpa using hp), map_cons, toFinset_cons,
          Committee.stakeOf,
          Committee.stakeOf, Finset.sum_insert hni]
        omega
      · have hp' : ¬ a.round = block.round - 1 := by omega
        rw [if_neg hp', filter_cons_of_neg (by simpa using hp)]

/-- A block that `verify` accepts is well formed. -/
theorem wellFormed_of_verify {v : SignedBlockVerifier} {block : SignedBlock}
    (h : v.verify block = .ok ()) :
    WellFormed v.context.committee (genesisRefs v.context) block.toBlock := by
  simp only [verify, bind, Except.bind, throw, throwThe, MonadExceptOf.throw, pure, Except.pure] at h
  cases hloop : v.verifyAncestors block block.ancestors 0 ∅ 0 with
  | error e =>
    simp only [hloop] at h
    split_ifs at h
  | ok total =>
    simp only [hloop] at h
    split_ifs at h with hepoch hround hauthor hsig hlen hempty hquorum hbatch
    have hround' : 0 < block.round := Nat.pos_of_ne_zero hround
    obtain ⟨hall, hnodup, hpos, htotal⟩ := verifyAncestors_ok hround' hloop
    refine ⟨by simpa using hepoch, hround', by simpa [Committee.isValidIndex] using hauthor, ?_,
      fun a ha => (hall a ha).1, fun a ha => (hall a ha).2.1, fun a ha => (hall a ha).2.2.1, hnodup, ?_⟩
    · cases hanc : block.ancestors with
      | nil => simp [hanc] at hempty
      | cons own rest =>
        obtain ⟨hown, _, hrest⟩ := hpos own rest hanc
        exact ⟨own, rest, rfl, hown rfl, hrest⟩
    · have hq : v.context.committee.quorumThreshold ≤ total := by
        simpa [Committee.reachedQuorum] using hquorum
      rw [Committee.IsQuorum, Block.parentAuthors]
      omega

end SignedBlockVerifier

end SuiProofs.Consensus

import SuiProofs.Library.Exec
import SuiProofs.Consensus.Context

/-! The search shared by `BaseCommitter::find_supported_block` and
`UnscoredSubdag::find_supported_leader_block`. -/

namespace SuiProofs.Consensus

open Library

/-- The loop over the ancestors of a block. A weak link to the leader round or below is not
followed; a missing block ends the search. -/
def searchAncestors (leaderSlot : Slot) (get : BlockRef → Except Panic (Option VerifiedBlock))
    (recurse : VerifiedBlock → Except Panic (Option BlockRef)) :
    List BlockRef → Except Panic (Option BlockRef)
  | [] => .ok none
  | ancestor :: ancestors =>
    if ancestor.slot = leaderSlot then .ok (some ancestor)
    else if ancestor.round ≤ leaderSlot.round then searchAncestors leaderSlot get recurse ancestors
    else do
      match ← get ancestor with
      | none => return none
      | some block =>
        match ← recurse block with
        | some support => return some support
        | none => searchAncestors leaderSlot get recurse ancestors

/-- The block that a given block supports at the leader slot. Rounds go down along ancestors,
so a fuel above the round of the block is never used up. -/
def searchSupport (leaderSlot : Slot) (get : BlockRef → Except Panic (Option VerifiedBlock)) :
    ℕ → VerifiedBlock → Except Panic (Option BlockRef)
  | 0, _ => .error .outOfFuel
  | fuel + 1, block =>
    if block.round < leaderSlot.round then .ok none
    else searchAncestors leaderSlot get (searchSupport leaderSlot get fuel) block.ancestors

/-- When no ancestor is above the leader round, the search reads the ancestors alone. -/
lemma searchAncestors_eq_find {leaderSlot : Slot} {get : BlockRef → Except Panic (Option VerifiedBlock)}
    {recurse : VerifiedBlock → Except Panic (Option BlockRef)} {ancestors : List BlockRef}
    (h : ∀ a ∈ ancestors, a.round ≤ leaderSlot.round) :
    searchAncestors leaderSlot get recurse ancestors =
      .ok (ancestors.find? (fun a => a.slot = leaderSlot)) := by
  induction ancestors with
  | nil => rfl
  | cons a ancestors ih =>
    rw [searchAncestors, List.find?_cons]
    by_cases hs : a.slot = leaderSlot
    · simp [hs]
    · rw [if_neg hs, if_pos (h a List.mem_cons_self), ih (fun b hb => h b (List.mem_cons_of_mem a hb))]
      simp [hs]

/-- Up to the round after the leader a block votes for the leader if it links it. -/
lemma searchSupport_isVote {get : BlockRef → Except Panic (Option VerifiedBlock)} {fuel : ℕ}
    {b leader : VerifiedBlock}
    (hrs : ∀ r ∈ b.ancestors, r.round < b.round) (hauthors : (b.ancestors.map BlockRef.author).Nodup)
    (hrd : b.round ≤ leader.round + 1) :
    (do let supported ← searchSupport leader.slot get (fuel + 1) b
        return supported == some leader.reference) = .ok (decide (leader.reference ∈ b.ancestors)) := by
  have hsup : searchSupport leader.slot get (fuel + 1) b =
      .ok (b.ancestors.find? (fun a => a.slot = leader.slot)) := by
    rw [searchSupport]
    split_ifs with hlt
    · rw [eq_comm, Except.ok.injEq, List.find?_eq_none]
      intro r hr hslot
      have hround : r.round = leader.slot.round := congrArg Slot.round (of_decide_eq_true hslot)
      have := hrs r hr
      omega
    · apply searchAncestors_eq_find
      intro r hr
      have := hrs r hr
      rw [VerifiedBlock.slot_round]
      omega
  rw [hsup, ok_bind, pure_eq_ok, Except.ok.injEq, Bool.eq_iff_iff, beq_iff_eq, decide_eq_true_eq]
  constructor
  · exact List.mem_of_find?_eq_some
  · intro hmem
    cases hf : b.ancestors.find? (fun a => a.slot = leader.slot) with
    | none =>
      rw [List.find?_eq_none] at hf
      exact absurd (decide_eq_true rfl) (hf leader.reference hmem)
    | some r =>
      have hslot : r.slot = leader.slot := by simpa using List.find?_some hf
      have hau : r.author = leader.reference.author := congrArg Slot.authority hslot
      rw [List.inj_on_of_nodup_map hauthors (List.mem_of_find?_eq_some hf) hmem hau]

end SuiProofs.Consensus

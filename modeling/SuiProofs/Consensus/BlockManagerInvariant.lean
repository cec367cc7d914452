import SuiProofs.Consensus.BlockManager
import SuiProofs.Consensus.DagStateRefinement

namespace SuiProofs.Consensus

open Library Relation List VerifiedBlock BlockManager
open Std (TreeMap TreeSet)

namespace BlockManager

def Child (m : BlockManager) (a r : BlockRef) : Prop := ∃ cs, m.missingAncestors[a]? = some cs ∧ r ∈ cs

def WaitsFor (m : BlockManager) (r a : BlockRef) : Prop :=
  ∃ s, m.suspendedBlocks[r]? = some s ∧ a ∈ s.missingAncestors

/-- A suspended block waits for some of its own ancestors. -/
structure Entry (P : VerifiedBlock → Prop) (r : BlockRef) (s : SuspendedBlock) : Prop where
  nonempty : ∃ a, a ∈ s.missingAncestors
  block_ref : s.block.reference = r
  ancestor : ∀ a ∈ s.missingAncestors, a ∈ s.block.ancestors
  mem : P s.block

/-- The maps agree, up to the blocks that are being released. -/
structure Consistent (P : VerifiedBlock → Prop) (m : BlockManager)
    (released : List BlockRef) : Prop where
  child_iff : ∀ a r, m.Child a r ↔ m.WaitsFor r a
  missing_iff : ∀ r, r ∈ m.missingBlocks ↔ r ∈ m.missingAncestors ∧ r ∉ m.suspendedBlocks ∧ r ∉ released
  entry : ∀ (r : BlockRef) (s : SuspendedBlock), m.suspendedBlocks[r]? = some s → Entry P r s

variable {P : VerifiedBlock → Prop} {m m₀ : BlockManager} {x block : VerifiedBlock}
  {missing : List BlockRef} {a r : BlockRef}

lemma consistent_new : Consistent P new [] := by
  constructor <;> simp [Child, WaitsFor, new]

variable {children : TreeMap BlockRef (TreeSet BlockRef)}

lemma mem_recordMissing :
    a ∈ recordMissing r children missing ↔ a ∈ children ∨ a ∈ missing := by
  unfold recordMissing
  induction missing generalizing children with
  | nil => simp
  | cons b missing ih =>
    rw [foldl_cons, ih, TreeMap.mem_insert, compare_eq_iff_eq, mem_cons]
    tauto

variable {r' : BlockRef}

lemma collects_recordMissing : Collects (recordMissing r children missing) a r' ↔
    Collects children a r' ∨ a ∈ missing ∧ r' = r := by
  unfold recordMissing
  induction missing generalizing children with
  | nil => simp
  | cons b missing ih =>
    rw [foldl_cons, ih, collects_insert, TreeSet.mem_insert, TreeMap.getD_eq_getD_getElem?,
      ← collects_iff_mem_getD TreeSet.not_mem_emptyc, compare_eq_iff_eq, mem_cons]
    grind

lemma mem_foldl_insert_empty : a ∈ missing.foldl (fun t a => t.insert a)
    (∅ : TreeSet BlockRef) ↔ a ∈ missing := by
  rw [mem_foldl_insert_set (f := fun a => a)]
  simp

lemma waitsFor_suspend (hnew : block.reference ∉ m.suspendedBlocks) :
    ((m.receive block missing).suspend block missing).WaitsFor r' a ↔
      m.WaitsFor r' a ∨ a ∈ missing ∧ r' = block.reference := by
  have hnone : m.suspendedBlocks[block.reference]? = none := by
    rw [← Option.not_isSome_iff_eq_none, ← TreeMap.mem_iff_isSome_getElem?]
    exact hnew
  unfold WaitsFor suspend receive
  simp only [TreeMap.getElem?_insert, compare_eq_iff_eq]
  by_cases hr : block.reference = r'
  · subst hr
    simp [hnone, mem_foldl_insert_empty]
  · simp [hr, Ne.symm hr]

lemma mem_missingBlocks_receive : r ∈ (m.receive block missing).missingBlocks ↔
    r ≠ block.reference ∧ (r ∈ m.missingBlocks ∨ r ∈ missing ∧ r ∉ m.suspendedBlocks) := by
  unfold receive toFetch
  rw [TreeSet.mem_erase, mem_foldl_insert_set (f := fun a => a), Ne, compare_eq_iff_eq]
  simp only [mem_filter, decide_eq_true_eq, exists_eq_right]
  rw [eq_comm]

lemma Consistent.suspend (h : Consistent P m []) (hnew : block.reference ∉ m.suspendedBlocks)
    (hne : missing ≠ []) (hsub : ∀ a ∈ missing, a ∈ block.ancestors) (hP : P block) :
    Consistent P ((m.receive block missing).suspend block missing) [] := by
  refine ⟨fun a r => ?_, fun r => ?_, fun r s hs => ?_⟩
  · rw [waitsFor_suspend hnew, ← h.child_iff]
    exact collects_recordMissing
  · have hsusp : r ∈ ((m.receive block missing).suspend block missing).suspendedBlocks ↔
        block.reference = r ∨ r ∈ m.suspendedBlocks := by
      simp [BlockManager.suspend, receive, TreeMap.mem_insert]
    have hancs : r ∈ ((m.receive block missing).suspend block missing).missingAncestors ↔
        r ∈ m.missingAncestors ∨ r ∈ missing := mem_recordMissing
    have hbs : r ∈ ((m.receive block missing).suspend block missing).missingBlocks ↔ _ :=
      mem_missingBlocks_receive
    rw [hbs, hsusp, hancs, h.missing_iff]
    grind
  · rcases entry_of_insert hs with ⟨rfl, rfl⟩ | ⟨-, hs⟩
    · obtain ⟨a, ha⟩ := exists_mem_of_ne_nil missing hne
      exact ⟨⟨a, mem_foldl_insert_empty.mpr ha⟩, rfl, fun a ha =>
        hsub a (mem_foldl_insert_empty.mp ha), hP⟩
    · exact h.entry r s hs

lemma Consistent.receive_nil (h : Consistent P m []) :
    Consistent P (m.receive block []) [block.reference] := by
  refine { h with missing_iff := fun r => ?_ }
  rw [mem_missingBlocks_receive, h.missing_iff]
  simp only [not_mem_nil, not_false_eq_true, and_true, mem_singleton, false_and, or_false]
  exact and_comm.trans and_assoc

variable (m₀ x) in
/-- A cascade from `x`: the blocks of `done` are processed, and a dependency on one of them is
still recorded only where it is `due` for removal. -/
structure Cascading (due : BlockRef → BlockRef → Prop)
    (done : List VerifiedBlock) (s : Cascade) : Prop where
  perm : (done ++ s.toProcess).Perm (x :: s.unsuspended)
  nodup : ((x :: s.unsuspended).map VerifiedBlock.reference).Nodup
  suspended : ∀ (r : BlockRef) (t : SuspendedBlock), s.manager.suspendedBlocks[r]? = some t →
    (∃ a, a ∈ t.missingAncestors) ∧ ∃ t₀, m₀.suspendedBlocks[r]? = some t₀ ∧ t.block = t₀.block ∧
      ∀ a, a ∈ t.missingAncestors ↔ a ∈ t₀.missingAncestors ∧
        (a ∈ done.map VerifiedBlock.reference → due a r)
  kept : ∀ (r : BlockRef) (t₀ : SuspendedBlock), m₀.suspendedBlocks[r]? = some t₀ →
    r ∈ s.manager.suspendedBlocks ∨ t₀.block ∈ s.unsuspended
  released : ∀ b ∈ x :: s.unsuspended, b.reference ∉ s.manager.suspendedBlocks
  /-- The blocks that a released block waited for come before it. -/
  unsuspended : ∀ (i : ℕ) (b : VerifiedBlock), s.unsuspended[i]? = some b →
    ∃ t₀, m₀.suspendedBlocks[b.reference]? = some t₀ ∧ t₀.block = b ∧
      ∀ a ∈ t₀.missingAncestors, ¬ due a b.reference ∧ a ∈ done.map VerifiedBlock.reference ∧
        a ∈ (x :: s.unsuspended.take i).map VerifiedBlock.reference
  ancestors : ∀ a : BlockRef, s.manager.missingAncestors[a]? =
    if a ∈ done.map VerifiedBlock.reference then none else m₀.missingAncestors[a]?
  missingBlocks : s.manager.missingBlocks = m₀.missingBlocks

section Cascade

variable {due : BlockRef → BlockRef → Prop} {done : List VerifiedBlock} {s : Cascade}

lemma Cascading.start (h : Consistent P m₀ [x.reference]) (hx : x.reference ∉ m₀.suspendedBlocks) :
    Cascading m₀ x (fun _ _ => False) [] ⟨m₀, [x], []⟩ where
  perm := .refl _
  nodup := by simp
  suspended r t ht := ⟨(h.entry r t ht).nonempty, t, ht, rfl, by simp⟩
  kept r t₀ ht := .inl (mem_map_iff_exists.mpr ⟨t₀, ht⟩)
  released b hb := by
    obtain rfl : b = x := by simpa using hb
    exact hx
  unsuspended i b hb := by simp at hb
  ancestors a := by simp
  missingBlocks := rfl

variable {t₀ : SuspendedBlock} (hm₀ : Consistent P m₀ [x.reference])
include hm₀

section

variable (hc : Cascading m₀ x due done s) (ht₀ : m₀.suspendedBlocks[r]? = some t₀)

include hc ht₀

lemma Cascading.of_unsuspended (hr : t₀.block ∈ s.unsuspended)
    (ha : a ∈ t₀.missingAncestors) : ¬ due a r ∧ a ∈ done.map reference := by
  obtain ⟨i, hi⟩ := List.getElem?_of_mem hr
  obtain ⟨t₀', ht₀', _, hall⟩ := hc.unsuspended i _ hi
  rw [(hm₀.entry r t₀ ht₀).block_ref] at ht₀' hall
  obtain rfl := Option.some.inj (ht₀.symm.trans ht₀')
  exact ⟨(hall a ha).1, (hall a ha).2.1⟩

lemma Cascading.exists_suspended (ha : a ∈ t₀.missingAncestors)
    (hdue : due a r) : ∃ t, s.manager.suspendedBlocks[r]? = some t ∧ a ∈ t.missingAncestors := by
  rcases hc.kept r t₀ ht₀ with hr | hr
  · obtain ⟨t, ht⟩ := mem_map_iff_exists.mp hr
    obtain ⟨_, t₀', ht₀', _, hiff⟩ := hc.suspended r t ht
    obtain rfl := Option.some.inj (ht₀.symm.trans ht₀')
    exact ⟨t, ht, (hiff a).mpr ⟨ha, fun _ => hdue⟩⟩
  · exact absurd hdue (hc.of_unsuspended hm₀ ht₀ hr ha).1

end

variable {dep : BlockRef} {children : List BlockRef} {t : SuspendedBlock}

omit hm₀ in
lemma Cascading.not_mem_refs (hc : Cascading m₀ x due done s)
    (ht : s.manager.suspendedBlocks[r]? = some t) :
    r ∉ (x :: s.unsuspended).map reference := by
  intro hmem
  obtain ⟨b, hb, rfl⟩ := mem_map.mp hmem
  exact hc.released b hb (mem_map_iff_exists.mpr ⟨t, ht⟩)

section

variable (hc : Cascading m₀ x (fun a r' => a = dep ∧ r' ∈ r :: children) done s)
  (hdone : dep ∈ done.map reference) (hr : r ∉ children) (ht : s.manager.suspendedBlocks[r]? = some t)

include hc hdone hr ht

omit hm₀ in
lemma Cascading.keep (hmore : ∃ a, a ∈ t.missingAncestors.erase dep) :
    Cascading m₀ x (fun a r' => a = dep ∧ r' ∈ children) done
      ⟨{ s.manager with
          suspendedBlocks :=
            s.manager.suspendedBlocks.insert r ⟨t.block, t.missingAncestors.erase dep⟩ },
        s.toProcess, s.unsuspended⟩ := by
  refine { hc with suspended := ?_, kept := ?_, released := ?_, unsuspended := ?_ }
  · intro r' t' ht'
    rcases entry_of_insert ht' with ⟨rfl, rfl⟩ | ⟨hr', ht'⟩
    · obtain ⟨_, t₀, ht₀, hblk, hiff⟩ := hc.suspended r t ht
      refine ⟨hmore, t₀, ht₀, hblk, fun a => ?_⟩
      grind
    · obtain ⟨hne, t₀, ht₀, hblk, hiff⟩ := hc.suspended r' t' ht'
      refine ⟨hne, t₀, ht₀, hblk, fun a => ?_⟩
      grind
  · intro r' t₀ ht₀
    rw [TreeMap.mem_insert, compare_eq_iff_eq]
    exact (hc.kept r' t₀ ht₀).imp_left .inr
  · intro b hb
    rw [TreeMap.mem_insert, compare_eq_iff_eq]
    rintro (rfl | hsus)
    · exact hc.released b hb (mem_map_iff_exists.mpr ⟨t, ht⟩)
    · exact hc.released b hb hsus
  · intro i b hb
    obtain ⟨t₀, ht₀, hblk, hall⟩ := hc.unsuspended i b hb
    refine ⟨t₀, ht₀, hblk, fun a ha => ⟨?_, (hall a ha).2⟩⟩
    exact fun hdue => (hall a ha).1 ⟨hdue.1, mem_cons_of_mem r hdue.2⟩

lemma Cascading.release (hlast : ∀ a, a ∉ t.missingAncestors.erase dep) :
    Cascading m₀ x (fun a r' => a = dep ∧ r' ∈ children) done
      ⟨{ s.manager with suspendedBlocks := s.manager.suspendedBlocks.erase r }, t.block :: s.toProcess,
        s.unsuspended ++ [t.block]⟩ := by
  obtain ⟨_, t₀, ht₀, hblk, hiff⟩ := hc.suspended r t ht
  have href : t.block.reference = r := hblk ▸ (hm₀.entry r t₀ ht₀).block_ref
  have hmem : ∀ r', r' ∈ s.manager.suspendedBlocks.erase r ↔
      r ≠ r' ∧ r' ∈ s.manager.suspendedBlocks := by
    intro r'
    rw [TreeMap.mem_erase, Ne, compare_eq_iff_eq]
  refine ⟨?_, ?_, ?_, ?_, ?_, ?_, hc.ancestors, hc.missingBlocks⟩
  · calc (done ++ t.block :: s.toProcess)
      _ |>.Perm (t.block :: (done ++ s.toProcess)) := perm_middle
      _ |>.Perm (t.block :: x :: s.unsuspended) := hc.perm.cons _
      _ |>.Perm (x :: (s.unsuspended ++ [t.block])) :=
        (perm_append_singleton t.block (x :: s.unsuspended)).symm
  · rw [← cons_append, map_append, nodup_append']
    refine ⟨hc.nodup, by simp, ?_⟩
    intro r' hr' hb
    obtain rfl : r' = r := by simpa [href] using hb
    exact hc.not_mem_refs ht hr'
  · intro r' t' ht'
    obtain ⟨hr', ht'⟩ := entry_of_erase ht'
    obtain ⟨hne, t₀', ht₀', hblk', hiff'⟩ := hc.suspended r' t' ht'
    refine ⟨hne, t₀', ht₀', hblk', fun a => ?_⟩
    grind
  · intro r' t₀' ht₀'
    by_cases hr' : r = r'
    · subst hr'
      obtain rfl := Option.some.inj (ht₀.symm.trans ht₀')
      exact .inr (by simp [hblk])
    · refine (hc.kept r' t₀' ht₀').imp (fun h => (hmem r').mpr ⟨hr', h⟩) (fun h => ?_)
      exact mem_append_left _ h
  · intro b hb
    rw [← cons_append, mem_append, mem_singleton] at hb
    rw [hmem]
    rintro ⟨hne, hsus⟩
    rcases hb with hb | rfl
    · exact hc.released b hb hsus
    · exact hne href.symm
  · intro i b hb
    rw [List.getElem?_append] at hb
    split_ifs at hb with hi
    · obtain ⟨t₀', ht₀', hblk', hall⟩ := hc.unsuspended i b hb
      refine ⟨t₀', ht₀', hblk', fun a ha => ?_⟩
      obtain ⟨hdue, hdone', hbef⟩ := hall a ha
      refine ⟨fun hdue' => hdue ⟨hdue'.1, mem_cons_of_mem r hdue'.2⟩, hdone', ?_⟩
      rwa [take_append_of_le_length hi.le]
    · obtain ⟨hi', rfl⟩ := List.getElem?_eq_some_iff.mp hb
      simp only [length_singleton] at hi'
      obtain rfl : i = s.unsuspended.length := by omega
      simp only [getElem_singleton, take_left]
      refine ⟨t₀, href.symm ▸ ht₀, hblk.symm, fun a ha => ?_⟩
      have hgone : a ∈ done.map reference := by
        by_contra hn
        have hat := (hiff a).mpr ⟨ha, fun h => absurd h hn⟩
        apply hlast a
        rw [TreeSet.mem_erase, Ne, compare_eq_iff_eq]
        exact ⟨fun he => hn (he ▸ hdone), hat⟩
      refine ⟨fun hdue => hr (href ▸ hdue.2), hgone, ?_⟩
      have hsub : ∀ b ∈ done, b ∈ x :: s.unsuspended := fun b hb => hc.perm.subset (mem_append_left _ hb)
      obtain ⟨b, hb, rfl⟩ := mem_map.mp hgone
      exact mem_map_of_mem (hsub b hb)

end

def Cascade.remaining (s : Cascade) : ℕ := s.manager.suspendedBlocks.size + s.toProcess.length

lemma Cascading.unsuspendChild_total
    (hc : Cascading m₀ x (fun a r' => a = dep ∧ r' ∈ r :: children) done s)
    (hdone : dep ∈ done.map reference) (hr : r ∉ children) (hwt : m₀.WaitsFor r dep) :
    ∃ s', unsuspendChild dep s r = .ok s' ∧
      Cascading m₀ x (fun a r' => a = dep ∧ r' ∈ children) done s' ∧ s'.remaining = s.remaining := by
  obtain ⟨t₀, ht₀, hdep⟩ := hwt
  obtain ⟨t, ht, hmem⟩ := hc.exists_suspended hm₀ ht₀ hdep ⟨rfl, mem_cons_self⟩
  have hsus : r ∈ s.manager.suspendedBlocks := mem_map_iff_exists.mpr ⟨t, ht⟩
  unfold unsuspendChild tryUnsuspendBlock
  rw [ht]
  dsimp only
  rw [if_neg (not_not.mpr hmem)]
  by_cases hempty : (t.missingAncestors.erase dep).isEmpty = true
  · rw [if_pos hempty]
    refine ⟨_, rfl, hc.release hm₀ hdone hr ht ?_, ?_⟩
    · intro a ha
      rw [TreeSet.isEmpty_iff_forall_not_mem] at hempty
      exact hempty a ha
    · have hpos : s.manager.suspendedBlocks.size ≠ 0 := by
        intro h0
        have hnone : s.manager.suspendedBlocks.isEmpty = true := by
          rw [TreeMap.isEmpty_eq_size_eq_zero, h0]
          rfl
        exact TreeMap.isEmpty_iff_forall_not_mem.mp hnone r hsus
      simp only [Cascade.remaining, TreeMap.size_erase, TreeMap.contains_iff_mem.mpr hsus, if_true,
        length_cons]
      omega
  · rw [if_neg hempty]
    refine ⟨_, rfl, hc.keep hdone hr ht ?_, ?_⟩
    · by_contra hnone
      push Not at hnone
      exact hempty (TreeSet.isEmpty_iff_forall_not_mem.mpr hnone)
    · simp [Cascade.remaining, TreeMap.size_insert, hsus]

lemma Cascading.unsuspendChildren_total
    (hc : Cascading m₀ x (fun a r' => a = dep ∧ r' ∈ children) done s)
    (hdone : dep ∈ done.map reference) (hnd : children.Nodup)
    (hwt : ∀ r ∈ children, m₀.WaitsFor r dep) :
    ∃ s', children.foldlM (unsuspendChild dep) s = .ok s' ∧ Cascading m₀ x (fun _ _ => False) done s' ∧
      s'.remaining = s.remaining := by
  induction children generalizing s with
  | nil => exact ⟨s, rfl, by simpa using hc, rfl⟩
  | cons r children ih =>
    rw [nodup_cons] at hnd
    obtain ⟨s₁, hs₁, hc₁, hrem₁⟩ := hc.unsuspendChild_total hm₀ hdone hnd.1 (hwt r mem_cons_self)
    obtain ⟨s₂, hs₂, hc₂, hrem₂⟩ := ih hc₁ hnd.2 (fun r' hr' => hwt r' (mem_cons_of_mem r hr'))
    exact ⟨s₂, by rw [foldlM_cons, hs₁, ok_bind, hs₂], hc₂, hrem₂.trans hrem₁⟩

variable {b : VerifiedBlock} {rest : List VerifiedBlock}

omit hm₀ in
lemma Cascading.not_mem_done (hc : Cascading m₀ x due done s)
    (hstack : s.toProcess = b :: rest) : b.reference ∉ done.map reference := by
  have hperm := hc.perm
  rw [hstack] at hperm
  have hnd := (hperm.map reference).nodup_iff.mpr hc.nodup
  rw [map_append, map_cons, nodup_append'] at hnd
  exact fun hmem => hnd.2.2 hmem mem_cons_self

section

variable (hc : Cascading m₀ x (fun _ _ => False) done s) (hstack : s.toProcess = b :: rest)

include hc hstack

lemma Cascading.pop :
    Cascading m₀ x (fun a r => a = b.reference ∧ m₀.Child b.reference r) (done ++ [b])
      ⟨{ s.manager with missingAncestors := s.manager.missingAncestors.erase b.reference }, rest,
        s.unsuspended⟩ := by
  have hnew := hc.not_mem_done hstack
  refine ⟨?_, hc.nodup, ?_, hc.kept, hc.released, ?_, ?_, hc.missingBlocks⟩
  · rw [append_assoc, singleton_append, ← hstack]
    exact hc.perm
  · intro r t ht
    obtain ⟨hne, t₀, ht₀, hblk, hiff⟩ := hc.suspended r t ht
    refine ⟨hne, t₀, ht₀, hblk, fun a => ?_⟩
    have hchild : b.reference ∈ t₀.missingAncestors → m₀.Child b.reference r :=
      fun hb => (hm₀.child_iff _ _).mpr ⟨t₀, ht₀, hb⟩
    grind
  · intro i b' hb'
    obtain ⟨t₀, ht₀, hblk, hall⟩ := hc.unsuspended i b' hb'
    refine ⟨t₀, ht₀, hblk, fun a ha => ?_⟩
    obtain ⟨_, hdone, hbef⟩ := hall a ha
    refine ⟨?_, by rw [map_append]; exact mem_append_left _ hdone, hbef⟩
    rintro ⟨rfl, _⟩
    exact hnew hdone
  · intro a
    rw [TreeMap.getElem?_erase, hc.ancestors]
    grind

lemma Cascading.step_total :
    ∃ s', cascadeStep s = .ok (.inl s') ∧ Cascading m₀ x (fun _ _ => False) (done ++ [b]) s' ∧
      s'.remaining + 1 = s.remaining := by
  have hpop := hc.pop hm₀ hstack
  have hlk := hc.ancestors b.reference
  rw [if_neg (hc.not_mem_done hstack)] at hlk
  have hsize : s.remaining = s.manager.suspendedBlocks.size + rest.length + 1 := by
    rw [Cascade.remaining, hstack, length_cons]
    rfl
  unfold cascadeStep
  rw [hstack]
  dsimp only
  cases hchildren : s.manager.missingAncestors[b.reference]? with
  | none =>
    have hnone : m₀.missingAncestors[b.reference]? = none := hlk ▸ hchildren
    -- Nothing is due, and there is no entry to erase.
    have herase : ∀ a : BlockRef, (s.manager.missingAncestors.erase b.reference)[a]? =
        s.manager.missingAncestors[a]? := by
      intro a
      rw [TreeMap.getElem?_erase]
      split_ifs with ha
      · rw [← compare_eq_iff_eq.mp ha, hchildren]
      · rfl
    have hdue : (fun a r => a = b.reference ∧ m₀.Child b.reference r) = fun _ _ => False := by
      funext a r
      simp [Child, hnone]
    rw [hdue] at hpop
    refine ⟨_, rfl, { hpop with ancestors := fun a => ?_ }, hsize.symm⟩
    rw [← hpop.ancestors]
    exact (herase a).symm
  | some cs =>
    have hcs : m₀.missingAncestors[b.reference]? = some cs := hlk ▸ hchildren
    have hchild : ∀ r, m₀.Child b.reference r ↔ r ∈ cs.toList := by
      intro r
      simp [Child, hcs]
    have hdue : (fun a r => a = b.reference ∧ m₀.Child b.reference r) =
        fun a r => a = b.reference ∧ r ∈ cs.toList := by
      funext a r
      rw [hchild]
    rw [hdue] at hpop
    obtain ⟨s', hs', hc', hrem⟩ := hpop.unsuspendChildren_total hm₀ (by simp)
      (pairwise_lt_toList.imp (fun hlt => hlt.ne))
      (fun r hr => (hm₀.child_iff _ _).mp ((hchild r).mpr hr))
    refine ⟨s', ?_, hc', ?_⟩
    · dsimp only at hs' ⊢
      rw [hs']
      rfl
    · rw [hrem, hsize]
      rfl

end

/-- The cascade ends without a panic. -/
theorem tryUnsuspendChildrenBlocks_total
    (hx : x.reference ∉ m₀.suspendedBlocks) :
    ∃ s done, m₀.tryUnsuspendChildrenBlocks x = .ok s ∧ s.toProcess = [] ∧
      Cascading m₀ x (fun _ _ => False) done s := by
  obtain ⟨s, hs, hempty, done, hc⟩ : ∃ s, m₀.tryUnsuspendChildrenBlocks x = .ok s ∧ s.toProcess = [] ∧
      ∃ done, Cascading m₀ x (fun _ _ => False) done s := by
    refine loopM_total (fun s => ∃ done, Cascading m₀ x (fun _ _ => False) done s) _ Cascade.remaining ?_
      ⟨[], .start hm₀ hx⟩ (Nat.lt_succ_self _)
    rintro s ⟨done, hc⟩
    cases hstack : s.toProcess with
    | nil => exact .inr ⟨s, by rw [cascadeStep, hstack], hstack, done, hc⟩
    | cons b rest =>
      obtain ⟨s', hs', hc', hrem⟩ := hc.step_total hm₀ hstack
      exact .inl ⟨s', hs', ⟨_, hc'⟩, by omega⟩
  exact ⟨s, done, hs, hempty, hc⟩

omit hm₀

section Finished

variable (hm₀ : Consistent P m₀ [x.reference]) (hc : Cascading m₀ x (fun _ _ => False) done s)
  (hempty : s.toProcess = [])

include hc hempty

lemma Cascading.mem_done_iff : r ∈ done.map reference ↔
    r ∈ (x :: s.unsuspended).map reference := by
  have hperm := hc.perm
  rw [hempty, append_nil] at hperm
  exact (hperm.map _).mem_iff

lemma Cascading.mem_missingAncestors_iff : r ∈ s.manager.missingAncestors ↔
    r ∈ m₀.missingAncestors ∧ r ∉ (x :: s.unsuspended).map reference := by
  rw [mem_map_iff_exists, hc.ancestors, mem_map_iff_exists, ← hc.mem_done_iff hempty]
  split_ifs with hr
  · simp only [hr, exists_false, not_true_eq_false, and_false]
  · simp only [hr, not_false_eq_true, and_true]

include hm₀

omit hempty in
lemma Cascading.mem_suspendedBlocks_iff : r ∈ s.manager.suspendedBlocks ↔
    r ∈ m₀.suspendedBlocks ∧ r ∉ (x :: s.unsuspended).map reference := by
  constructor
  · intro hr
    obtain ⟨t, ht⟩ := mem_map_iff_exists.mp hr
    obtain ⟨_, t₀, ht₀, _⟩ := hc.suspended r t ht
    exact ⟨mem_map_iff_exists.mpr ⟨t₀, ht₀⟩, hc.not_mem_refs ht⟩
  · rintro ⟨hr, hnew⟩
    obtain ⟨t₀, ht₀⟩ := mem_map_iff_exists.mp hr
    refine (hc.kept r t₀ ht₀).resolve_right fun hout => hnew ?_
    rw [← (hm₀.entry r t₀ ht₀).block_ref]
    exact mem_map_of_mem (mem_cons_of_mem x hout)

lemma Cascading.waitsFor_iff : s.manager.WaitsFor r a ↔
    m₀.WaitsFor r a ∧ a ∉ (x :: s.unsuspended).map reference := by
  rw [← hc.mem_done_iff hempty]
  constructor
  · rintro ⟨t, ht, ha⟩
    obtain ⟨_, t₀, ht₀, _, hiff⟩ := hc.suspended r t ht
    obtain ⟨ha₀, hdone⟩ := (hiff a).mp ha
    exact ⟨⟨t₀, ht₀, ha₀⟩, hdone⟩
  · rintro ⟨⟨t₀, ht₀, ha⟩, hdone⟩
    rcases hc.kept r t₀ ht₀ with hr | hr
    · obtain ⟨t, ht⟩ := mem_map_iff_exists.mp hr
      obtain ⟨_, t₀', ht₀', _, hiff⟩ := hc.suspended r t ht
      obtain rfl := Option.some.inj (ht₀.symm.trans ht₀')
      exact ⟨t, ht, (hiff a).mpr ⟨ha, fun h => absurd h hdone⟩⟩
    · exact absurd (hc.of_unsuspended hm₀ ht₀ hr ha).2 hdone

/-- A finished cascade leaves maps that agree. -/
theorem Cascading.consistent : Consistent P s.manager [] := by
  refine ⟨fun a r => ?_, fun r => ?_, fun r t ht => ?_⟩
  · rw [hc.waitsFor_iff hm₀ hempty, ← hm₀.child_iff, ← hc.mem_done_iff hempty, Child,
      Child, hc.ancestors]
    split_ifs with ha
    · simp only [ha, false_and, exists_false, not_true_eq_false, and_false]
    · simp only [ha, not_false_eq_true, and_true]
  · -- Only `x` and suspended blocks are released, and neither is in `missingBlocks`.
    have hreleased : r ∈ (x :: s.unsuspended).map reference →
        r = x.reference ∨ r ∈ m₀.suspendedBlocks := by
      intro hr
      rw [map_cons, mem_cons] at hr
      refine hr.imp_right fun hr => ?_
      obtain ⟨b, hb, rfl⟩ := mem_map.mp hr
      obtain ⟨i, hi⟩ := List.getElem?_of_mem hb
      obtain ⟨t₀, ht₀, _⟩ := hc.unsuspended i b hi
      exact mem_map_iff_exists.mpr ⟨t₀, ht₀⟩
    rw [hc.missingBlocks, hm₀.missing_iff, hc.mem_missingAncestors_iff hempty,
      hc.mem_suspendedBlocks_iff hm₀]
    grind
  · obtain ⟨hne, t₀, ht₀, hblock, hiff⟩ := hc.suspended r t ht
    obtain ⟨-, href, hancs, hmem⟩ := hm₀.entry r t₀ ht₀
    rw [← hblock] at href hancs hmem
    exact ⟨hne, href, fun a ha => hancs a ((hiff a).mp ha).1, hmem⟩

end Finished

end Cascade

section Accept

variable {ctx : Context} {v : BlockVerifier} {now : ℕ} {d d' : DagState} {A : Finset VerifiedBlock}
  {verdicts verdicts' : Verdicts}

lemma checkBlock_eq_ok (h : checkBlock ctx v d verdicts block = .ok verdicts') :
    verdicts' = verdicts.accept block ∨ verdicts' = verdicts.reject block := by
  rw [checkBlock, bind_eq_ok] at h
  obtain ⟨ancestors, _, h⟩ := h
  cases ancestors with
  | none => exact .inr (by simpa using h.symm)
  | some ancestors =>
    cases hchk : v.checkAncestors block ancestors with
    | error e => exact .inr (by simpa [hchk] using h.symm)
    | ok _ => exact .inl (by simpa [hchk] using h.symm)

variable {blocks : List VerifiedBlock}

lemma mem_toAccept
    (h : blocks.foldlM (checkBlock ctx v d) ⟨∅, ∅⟩ = .ok verdicts) :
    ∀ b ∈ verdicts.toAccept.toList.map Prod.snd, b ∈ blocks := by
  have hall : ∀ (r : BlockRef) (b : VerifiedBlock), verdicts.toAccept[r]? = some b → b ∈ blocks := by
    refine foldlM_ok_induction (fun verdicts : Verdicts =>
      ∀ (r : BlockRef) (b : VerifiedBlock), verdicts.toAccept[r]? = some b → b ∈ blocks) ?_ (by simp) h
    intro verdicts b verdicts' hb ih hstep r b' hr
    rcases checkBlock_eq_ok hstep with rfl | rfl
    · rcases entry_of_insert hr with ⟨-, rfl⟩ | ⟨-, hr⟩
      · exact hb
      · exact ih r b' hr
    · exact ih r b' hr
  intro b hb
  obtain ⟨⟨r, _⟩, hr, rfl⟩ := mem_map.mp hb
  exact hall r _ (TreeMap.mem_toList_iff_getElem?_eq_some.mp hr)

variable (ctx A) in
/-- The references that the DAG state knows. -/
def Known (r : BlockRef) : Prop :=
  r ∈ genesisRefs ctx ∨ ∃ b ∈ A, b.reference = r

lemma known_foldl_acceptInto :
    Known ctx (blocks.foldl acceptInto A) r ↔ Known ctx A r ∨ ∃ b ∈ blocks, b.reference = r := by
  induction blocks generalizing A with
  | nil => simp
  | cons b blocks ih =>
    have hstep : Known ctx (acceptInto A b) r ↔ Known ctx A r ∨ b.reference = r := by
      unfold Known acceptInto
      split_ifs with hb
      · constructor
        · exact .inl
        · rintro (h | rfl)
          · exact h
          · exact .inr hb
      · simp only [Finset.mem_insert, exists_eq_or_imp]
        rw [or_assoc]
        exact or_congr_right or_comm
    rw [foldl_cons, ih, hstep]
    simp only [mem_cons, exists_eq_or_imp, or_assoc]

/-- What is suspended or missing is not known to the DAG state. -/
structure Sound (ctx : Context) (P : VerifiedBlock → Prop) (m : BlockManager) (d : DagState)
    (A : Finset VerifiedBlock) : Prop where
  refines : d.Refines ctx A
  cached : d.CacheReachesCommits
  consistent : Consistent P m []
  apart : ∀ r, r ∈ m.suspendedBlocks ∨ r ∈ m.missingAncestors → ¬ Known ctx A r

namespace Sound

variable (h : Sound ctx P m d A)

include h

lemma containsBlock_eq_true_iff : d.containsBlock ctx r = true ↔ Known ctx A r :=
  h.refines.containsBlock_iff h.cached

lemma mem_missingOf : r ∈ missingOf ctx d block ↔ r ∈ block.ancestors ∧ ¬ Known ctx A r := by
  rw [missingOf, mem_filter, ← h.containsBlock_eq_true_iff]
  simp

lemma suspend (hnew : block.reference ∉ m.suspendedBlocks) (hunk : ¬ Known ctx A block.reference)
    (hne : missingOf ctx d block ≠ []) (hP : P block) :
    Sound ctx P ((m.receive block (missingOf ctx d block)).suspend block
      (missingOf ctx d block)) d A where
  refines := h.refines
  cached := h.cached
  consistent := h.consistent.suspend hnew hne (fun _ ha => (h.mem_missingOf.mp ha).1) hP
  apart r hr := by
    rcases hr with hr | hr
    · have : block.reference = r ∨ r ∈ m.suspendedBlocks := by
        simpa [BlockManager.suspend, receive, TreeMap.mem_insert] using hr
      rcases this with rfl | hr
      · exact hunk
      · exact h.apart r (.inl hr)
    · rcases mem_recordMissing.mp hr with hr | hr
      · exact h.apart r (.inr hr)
      · exact (h.mem_missingOf.mp hr).2

lemma acceptWithChildren {s : Cascade} {done : List VerifiedBlock}
    (hc : Cascading (m.receive x []) x (fun _ _ => False) done s)
    (hempty : s.toProcess = []) (hbs : ∀ b ∈ blocks, b ∈ x :: s.unsuspended)
    (hok : d.acceptBlocks ctx now blocks = .ok d') :
    Sound ctx P s.manager d' (blocks.foldl acceptInto A) where
  refines := h.refines.acceptBlocks h.cached hok
  cached := h.cached.acceptBlocks hok
  consistent := hc.consistent h.consistent.receive_nil hempty
  apart r hr := by
    rw [hc.mem_suspendedBlocks_iff h.consistent.receive_nil, hc.mem_missingAncestors_iff hempty] at hr
    rw [known_foldl_acceptInto]
    rintro (hkn | ⟨b, hb, rfl⟩)
    · exact h.apart r (hr.imp And.left And.left) hkn
    · have hmem := mem_map_of_mem (f := reference) (hbs b hb)
      rcases hr with hr | hr <;> exact hr.2 hmem

/-- One block is accepted with those it releases, suspended or dropped. -/
theorem tryAcceptBlock {s' : Acceptance} {accepted : List VerifiedBlock} {fetch : TreeSet BlockRef}
    (hP : P block) (hok : BlockManager.tryAcceptBlock ctx v now ⟨m, d, accepted, fetch⟩ block = .ok s') :
    ∃ new, s'.acceptedBlocks = accepted ++ new ∧
      Sound ctx P s'.manager s'.dagState (new.foldl acceptInto A) := by
  unfold BlockManager.tryAcceptBlock tryAcceptOneBlock at hok
  dsimp only at hok
  split_ifs at hok with hknown hmissing
  · cases hok
    exact ⟨[], by simp, h⟩
  · push Not at hknown
    dsimp only at hok
    rw [hmissing, BlockManager.acceptWithChildren, bind_eq_ok] at hok
    obtain ⟨s, hs, hok⟩ := hok
    obtain ⟨s₁, done, hs₁, hempty, hc⟩ :=
      tryUnsuspendChildrenBlocks_total h.consistent.receive_nil hknown.1
    obtain rfl := Except.ok.inj (hs.symm.trans hs₁)
    obtain ⟨verdicts, hverdicts, hok⟩ := bind_eq_ok.mp hok
    obtain ⟨d', hd', hok⟩ := bind_eq_ok.mp hok
    cases hok
    exact ⟨_, rfl, h.acceptWithChildren hc hempty (mem_toAccept hverdicts) hd'⟩
  · push Not at hknown
    cases hok
    refine ⟨[], by simp, h.suspend hknown.1 ?_ hmissing hP⟩
    rw [← h.containsBlock_eq_true_iff]
    exact hknown.2

/-- A call keeps the invariant, and the DAG has the accepted blocks in addition. -/
theorem tryAcceptBlocks {s' : Acceptance} (hP : ∀ b ∈ blocks, P b)
    (hok : BlockManager.tryAcceptBlocks ctx v now m d blocks = .ok s') :
    Sound ctx P s'.manager s'.dagState (s'.acceptedBlocks.foldl acceptInto A) := by
  refine foldlM_ok_induction (fun s : Acceptance =>
    Sound ctx P s.manager s.dagState (s.acceptedBlocks.foldl acceptInto A)) ?_ h hok
  rintro ⟨m₁, d₁, accepted, fetch⟩ block s₂ hblock h₁ hstep
  have hmem : block ∈ blocks := (perm_insertionSort _ _).mem_iff.mp hblock
  obtain ⟨new, hnew, h₂⟩ := h₁.tryAcceptBlock (hP block hmem) hstep
  rwa [hnew, foldl_append]

end Sound

end Accept

end BlockManager

/-- Runs of the block manager over a DAG. Between the calls of `try_accept_blocks` the state of
the DAG may change in ways that keep its blocks, such as commits and flushes. -/
inductive BlockManagerRun (v : SignedBlockVerifier)
    (check : VerifiedBlock → List VerifiedBlock → Except ConsensusError Unit) :
    BlockManager → DagState → Finset VerifiedBlock → Prop
  | start {d : DagState} {A : Finset VerifiedBlock} : d.Refines v.context A → d.CacheReachesCommits →
      BlockManagerRun v check .new d A
  | tryAcceptBlocks {m : BlockManager} {d : DagState} {A : Finset VerifiedBlock} {now : ℕ}
      {blocks : List VerifiedBlock} {s : BlockManager.Acceptance} : BlockManagerRun v check m d A →
      (∀ b ∈ blocks, v.verify b.toSignedBlock = .ok ()) →
      m.tryAcceptBlocks v.context ⟨v.verify, check⟩ now d blocks = .ok s →
      BlockManagerRun v check s.manager s.dagState (s.acceptedBlocks.foldl acceptInto A)
  | dagStep {m : BlockManager} {d d' : DagState} {A : Finset VerifiedBlock} :
      BlockManagerRun v check m d A →
      d'.Refines v.context A → d'.CacheReachesCommits → BlockManagerRun v check m d' A

variable {v : SignedBlockVerifier}
  {check : VerifiedBlock → List VerifiedBlock → Except ConsensusError Unit}
  {m : BlockManager} {d : DagState} {A : Finset VerifiedBlock}

/-- The invariant holds after any run. -/
theorem BlockManagerRun.sound (hrun : BlockManagerRun v check m d A) :
    m.Sound v.context (fun b => v.verify b.toSignedBlock = .ok ()) d A := by
  induction hrun with
  | start hrefines hcached =>
    exact ⟨hrefines, hcached, consistent_new, by simp [new]⟩
  | tryAcceptBlocks _ hverified hok ih => exact ih.tryAcceptBlocks hverified hok
  | dagStep _ hrefines hcached ih => exact ⟨hrefines, hcached, ih.consistent, ih.apart⟩

section Chains

variable (h : m.Sound v.context (fun b => v.verify b.toSignedBlock = .ok ()) d A) {a b r : BlockRef}

include h

lemma BlockManager.Sound.round_lt_of_waitsFor (hw : m.WaitsFor b a) : a.round < b.round := by
  obtain ⟨s, hs, ha⟩ := hw
  have hentry := h.consistent.entry b s hs
  have hlt := (SignedBlockVerifier.wellFormed_of_verify hentry.mem).ancestor_round_lt a
    (hentry.ancestor a ha)
  rwa [← hentry.block_ref]

lemma BlockManager.Sound.wellFounded_waitsFor : WellFounded (fun a b => m.WaitsFor b a) :=
  Subrelation.wf h.round_lt_of_waitsFor (measure BlockRef.round).wf

lemma BlockManager.Sound.suspended_or_missing (hw : m.WaitsFor b a) :
    a ∈ m.suspendedBlocks ∨ a ∈ m.missingBlocks := by
  obtain ⟨cs, hcs, _⟩ := (h.consistent.child_iff a b).mpr hw
  rw [h.consistent.missing_iff]
  by_cases ha : a ∈ m.suspendedBlocks
  · exact .inl ha
  · exact .inr ⟨mem_map_iff_exists.mpr ⟨cs, hcs⟩, ha, not_mem_nil⟩

lemma BlockManager.Sound.exists_missing (hb : b ∈ m.suspendedBlocks) :
    ∃ r ∈ m.missingBlocks, ReflTransGen m.WaitsFor b r := by
  induction b using h.wellFounded_waitsFor.induction with
  | _ b ih =>
    obtain ⟨s, hs⟩ := mem_map_iff_exists.mp hb
    obtain ⟨a, ha⟩ := (h.consistent.entry b s hs).nonempty
    have hw : m.WaitsFor b a := ⟨s, hs, ha⟩
    rcases h.suspended_or_missing hw with ha | ha
    · obtain ⟨r, hr, har⟩ := ih a hw ha
      exact ⟨r, hr, har.head hw⟩
    · exact ⟨a, ha, .single hw⟩

end Chains

/-- The bookkeeping of the block manager after any calls that return. Chains of suspended
blocks are finite, and each of them ends at a block to be fetched. -/
theorem blockManager_bookkeeping (hrun : BlockManagerRun v check m d A) :
    (∀ r, r ∈ m.missingBlocks ↔ r ∈ m.missingAncestors ∧ r ∉ m.suspendedBlocks) ∧
    (∀ a b : BlockRef, (∃ children, m.missingAncestors[a]? = some children ∧ b ∈ children) ↔
      ∃ s : SuspendedBlock, m.suspendedBlocks[b]? = some s ∧ a ∈ s.missingAncestors) ∧
    (∀ (b : BlockRef) (s : SuspendedBlock), m.suspendedBlocks[b]? = some s →
      ∃ a, a ∈ s.missingAncestors) ∧
    (∀ r, r ∈ m.suspendedBlocks ∨ r ∈ m.missingAncestors →
      d.containsBlock v.context r = false ∧ d.getBlock v.context r = none) ∧
    WellFounded (fun a b => m.WaitsFor b a) ∧
    (∀ b ∈ m.suspendedBlocks, ∀ r, ReflTransGen m.WaitsFor b r → r ∈ m.suspendedBlocks ∨
      r ∈ m.missingBlocks) ∧
    ∀ b ∈ m.suspendedBlocks, ∃ r ∈ m.missingBlocks, ReflTransGen m.WaitsFor b r := by
  have h := hrun.sound
  refine ⟨fun r => ?_, h.consistent.child_iff, fun b s hs => (h.consistent.entry b s hs).nonempty,
    fun r hr => ⟨?_, ?_⟩,
    h.wellFounded_waitsFor, ?_, fun b => h.exists_missing⟩
  · simpa using h.consistent.missing_iff r
  · rw [← Bool.not_eq_true, h.containsBlock_eq_true_iff]
    exact h.apart r hr
  · rw [Option.eq_none_iff_forall_ne_some]
    intro b hb
    obtain ⟨rfl, hg | hA⟩ := h.refines.getBlock_iff.mp hb
    · exact h.apart _ hr (.inl (mem_map_of_mem hg))
    · exact h.apart _ hr (.inr ⟨b, hA, rfl⟩)
  · intro b hb r hr
    rcases hr.cases_tail with rfl | ⟨_, _, hw⟩
    · exact .inl hb
    · exact h.suspended_or_missing hw

/-- A block of round 3 arrives before the block of round 2 that it links, and that one before
its own ancestors. -/
theorem blockManager_bookkeeping_chain :
    ∃ m d A, BlockManagerRun ⟨fourAuthorities, fun _ => true, fun _ => true⟩
      SignedBlockVerifier.checkAncestors m d A ∧
      (fourAuthorities.fullBlock 3 0).reference ∈ m.suspendedBlocks ∧
      ∃ r ∈ m.missingBlocks, ReflTransGen m.WaitsFor (fourAuthorities.fullBlock 3 0).reference r := by
  let v : SignedBlockVerifier := ⟨fourAuthorities, fun _ => true, fun _ => true⟩
  obtain ⟨s, hs, hp⟩ := exists_of_returns (x := do
      let d ← DagState.new fourAuthorities .empty
      new.tryAcceptBlocks fourAuthorities v.toBlockVerifier 10 d
        [fourAuthorities.fullBlock 3 0, fourAuthorities.fullBlock 2 0])
    (p := fun s => decide ((fourAuthorities.fullBlock 3 0).reference ∈ s.manager.suspendedBlocks))
    (by decide +kernel)
  obtain ⟨d, hd, hs⟩ := bind_eq_ok.mp hs
  have hrefines := (DagRun.start hd).refines (by decide)
  have hrun : BlockManagerRun v SignedBlockVerifier.checkAncestors s.manager s.dagState _ :=
    .tryAcceptBlocks (.start hrefines (hrefines.cacheReachesCommits (by decide))) (by decide +kernel) hs
  have hsuspended := of_decide_eq_true hp
  exact ⟨_, _, _, hrun, hsuspended, (blockManager_bookkeeping hrun).2.2.2.2.2.2 _ hsuspended⟩

end SuiProofs.Consensus

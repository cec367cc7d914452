import SuiProofs.Consensus.BlockManagerInvariant

namespace SuiProofs.Consensus

open Library Relation List VerifiedBlock BlockManager SignedBlockVerifier
open Std (TreeMap)

/-- The list holds the ancestors of a block, from the set or genesis. -/
structure Resolves (ctx : Context) (S : Set VerifiedBlock) (block : VerifiedBlock)
    (ancestors : List VerifiedBlock) :
    Prop where
  refs : ancestors.map VerifiedBlock.reference = block.ancestors
  mem : ∀ p ∈ ancestors, p ∈ genesisBlocks ctx ∨ p ∈ S

/-- All ancestors of a block are in the set, and it passes their check. -/
def Admissible (ctx : Context) (check : VerifiedBlock → List VerifiedBlock → Except ConsensusError Unit)
    (S : Set VerifiedBlock) (block : VerifiedBlock) : Prop :=
  ∃ ancestors, Resolves ctx S block ancestors ∧ check block ancestors = .ok ()

/-- A block that fails the check of its ancestors, or descends from one that does. -/
inductive Doomed (ctx : Context)
    (check : VerifiedBlock → List VerifiedBlock → Except ConsensusError Unit)
    (U : Set VerifiedBlock) (A₀ : Finset VerifiedBlock) : VerifiedBlock → Prop
  | check {block : VerifiedBlock} {ancestors : List VerifiedBlock} :
      block ∉ A₀ → Resolves ctx U block ancestors →
      check block ancestors ≠ .ok () → Doomed ctx check U A₀ block
  | ancestor {block p : VerifiedBlock} : block ∉ A₀ → p ∈ U → p.reference ∈ block.ancestors →
      Doomed ctx check U A₀ p → Doomed ctx check U A₀ block

/-- Every ancestor of a suspended block is in the DAG or missed by the block. -/
def BlockManager.NoLostAncestor (ctx : Context) (m : BlockManager) (d : DagState) : Prop :=
  ∀ (r : BlockRef) (s : SuspendedBlock), m.suspendedBlocks[r]? = some s →
    ∀ a ∈ s.block.ancestors, d.containsBlock ctx a = true ∨ a ∈ s.missingAncestors

section Sets

variable {ctx : Context} {check : VerifiedBlock → List VerifiedBlock → Except ConsensusError Unit}
  {S T U : Set VerifiedBlock} {A₀ : Finset VerifiedBlock} {block : VerifiedBlock}
  {ps : List VerifiedBlock}

lemma Resolves.mono (h : Resolves ctx S block ps) (hST : S ⊆ T) : Resolves ctx T block ps :=
  ⟨h.refs, fun p hp => (h.mem p hp).imp_right (fun hpS => hST hpS)⟩

lemma Admissible.mono (h : Admissible ctx check S block) (hST : S ⊆ T) :
    Admissible ctx check T block := by
  obtain ⟨ps, hps, hcheck⟩ := h
  exact ⟨ps, hps.mono hST, hcheck⟩

variable (hinj : ∀ b ∈ U, ∀ b' ∈ U, b.reference = b'.reference → b = b') (hround : ∀ b ∈ U, 0 < b.round)

include hinj hround

lemma eq_of_reference_eq {b b' : VerifiedBlock} (hb : b ∈ genesisBlocks ctx ∨ b ∈ U)
    (hb' : b' ∈ genesisBlocks ctx ∨ b' ∈ U) (he : b.reference = b'.reference) : b = b' := by
  have hau : b.author = b'.author := congrArg BlockRef.author he
  have hrs : b.round = b'.round := congrArg BlockRef.round he
  rcases hb with hb | hb <;> rcases hb' with hb' | hb'
  · rw [(mem_genesisBlocks.mp hb).2, (mem_genesisBlocks.mp hb').2, hau]
  · have := hround b' hb'
    rw [← hrs, round_of_mem_genesisBlocks hb] at this
    omega
  · have := hround b hb
    rw [hrs, round_of_mem_genesisBlocks hb'] at this
    omega
  · exact hinj b hb b' hb' he

lemma Resolves.unique {qs : List VerifiedBlock} (hp : Resolves ctx U block ps)
    (hq : Resolves ctx U block qs) :
    ps = qs := by
  refine eq_of_map_eq (fun p hp' q hq' => ?_) (hp.refs.trans hq.refs.symm)
  exact eq_of_reference_eq hinj hround (hp.mem p hp') (hq.mem q hq')

omit hinj hround in
lemma not_doomed (hcheck : ∀ b ∈ U, ∀ ps, Resolves ctx U b ps → check b ps = .ok ())
    (hblock : block ∈ U) :
    ¬ Doomed ctx check U A₀ block := by
  intro hd
  induction hd with
  | check _ hps hfails => exact hfails (hcheck _ hblock _ hps)
  | ancestor _ hp _ _ ih => exact ih hp

lemma Doomed.not_mem (hU : S ⊆ U) (hS : ∀ b ∈ S, b ∈ A₀ ∨ Admissible ctx check S b)
    (hd : Doomed ctx check U A₀ block) : block ∉ S := by
  induction hd with
  | check hA₀ hps hcheck =>
    intro hb
    obtain ⟨qs, hqs, hok⟩ := (hS _ hb).resolve_left hA₀
    rw [← hps.unique hinj hround (hqs.mono hU)] at hok
    exact hcheck hok
  | ancestor hA₀ hp hlink _ ih =>
    intro hb
    obtain ⟨qs, hqs, _⟩ := (hS _ hb).resolve_left hA₀
    rw [← hqs.refs] at hlink
    obtain ⟨q, hq, he⟩ := mem_map.mp hlink
    have hqU := hqs.mem q hq
    obtain rfl := eq_of_reference_eq hinj hround (hqU.imp_right (fun h => hU h)) (.inr hp) he
    rcases hqU with hg | hqS
    · have := hround q hp
      rw [round_of_mem_genesisBlocks hg] at this
      omega
    · exact ih hqS

end Sets

variable {v : SignedBlockVerifier}
  {check : VerifiedBlock → List VerifiedBlock → Except ConsensusError Unit} {U : Set VerifiedBlock}
  {A A₀ : Finset VerifiedBlock} {d : DagState} {m : BlockManager}

namespace BlockManager

/-- The ways in which the DAG itself refuses a verified block. -/
def RefusedByDag (e : Panic) : Prop :=
  (∃ r, e = .timestampAheadOfLocalClock r) ∨ ∃ r, e = .ownSlotOccupied r

section Verdicts

variable {verdicts : Verdicts} {block : VerifiedBlock} {P : VerifiedBlock → Prop}

variable (v check U) in
/-- The blocks that a check of ancestors finds, other than those of the genesis. -/
def Verdicts.known (verdicts : Verdicts) (A : Finset VerifiedBlock) : Set VerifiedBlock :=
  {p | p ∈ A ∨ verdicts.toAccept[p.reference]? = some p}

variable (v check U) in
/-- The blocks checked so far are accepted if they are admissible, and doomed otherwise. -/
structure Judged (A₀ A : Finset VerifiedBlock) (checked : List VerifiedBlock)
    (verdicts : Verdicts) : Prop where
  accepted : ∀ (r : BlockRef) (b : VerifiedBlock), verdicts.toAccept[r]? = some b →
    b ∈ checked ∧ b.reference = r ∧
    Admissible v.context check (verdicts.known A) b
  rejected : ∀ (r : BlockRef) (b : VerifiedBlock), verdicts.toReject[r]? = some b →
    b ∈ checked ∧ b.reference = r ∧
    Doomed v.context check U A₀ b
  total : ∀ b ∈ checked, b.reference ∈ verdicts.toAccept ∨ b.reference ∈ verdicts.toReject

variable {checked : List VerifiedBlock}

section

variable (h : m.Sound v.context P d A) (hj : Judged v check U A₀ A checked verdicts)

include h hj

lemma findAncestor_total (block : VerifiedBlock) {a : BlockRef}
    (ha : Known v.context A a ∨ a ∈ checked.map reference) :
    findAncestor v.context d verdicts block a = .ok none ∧ a ∈ verdicts.toReject ∨
    ∃ p, findAncestor v.context d verdicts block a = .ok (some p) ∧ p.reference = a ∧
      (p ∈ genesisBlocks v.context ∨ p ∈ verdicts.known A) := by
  unfold findAncestor
  cases hget : d.getBlock v.context a with
  | some p =>
    obtain ⟨rfl, hp⟩ := h.refines.getBlock_iff.mp hget
    exact .inr ⟨p, if_pos rfl, rfl, hp.imp_right .inl⟩
  | none =>
    have hunk : ¬ Known v.context A a := by
      rintro (hg | ⟨b, hb, rfl⟩)
      · obtain ⟨g, hgen, rfl⟩ := mem_map.mp hg
        rw [h.refines.getBlock_iff.mpr ⟨rfl, .inl hgen⟩] at hget
        cases hget
      · rw [h.refines.getBlock_iff.mpr ⟨rfl, .inr hb⟩] at hget
        cases hget
    obtain ⟨b, hb, rfl⟩ := mem_map.mp (ha.resolve_left hunk)
    cases hacc : verdicts.toAccept[b.reference]? with
    | some p =>
      obtain ⟨_, href, _⟩ := hj.accepted _ p hacc
      exact .inr ⟨p, rfl, href, .inr (.inr (href ▸ hacc))⟩
    | none =>
      have hrej : b.reference ∈ verdicts.toReject := by
        refine (hj.total b hb).resolve_left ?_
        rw [mem_map_iff_exists, hacc]
        simp
      exact .inl ⟨if_pos hrej, hrej⟩

lemma findAncestors_total (block : VerifiedBlock) {ancestors : List BlockRef}
    (ha : ∀ a ∈ ancestors, Known v.context A a ∨ a ∈ checked.map reference) :
    findAncestors v.context d verdicts block ancestors = .ok none ∧
      (∃ a ∈ ancestors, a ∈ verdicts.toReject) ∨
    ∃ ps, findAncestors v.context d verdicts block ancestors = .ok (some ps) ∧
      ps.map reference = ancestors ∧
      ∀ p ∈ ps, p ∈ genesisBlocks v.context ∨ p ∈ verdicts.known A := by
  induction ancestors with
  | nil => exact .inr ⟨[], rfl, rfl, forall_mem_nil _⟩
  | cons a ancestors ih =>
    obtain ⟨ha, hrest⟩ := forall_mem_cons.mp ha
    unfold findAncestors
    rcases findAncestor_total h hj block ha with ⟨hfst, hr⟩ | ⟨p, hfst, href, hp⟩
    · exact .inl ⟨by rw [hfst]; rfl, a, mem_cons_self, hr⟩
    · rcases ih hrest with ⟨hok, a', ha', hr⟩ | ⟨ps, hok, hrefs, hmem⟩
      · exact .inl ⟨by rw [hfst, ok_bind, hok]; rfl, a', mem_cons_of_mem a ha', hr⟩
      · refine .inr ⟨p :: ps, by rw [hfst, ok_bind, hok]; rfl, ?_, forall_mem_cons.mpr ⟨hp, hmem⟩⟩
        rw [map_cons, href, hrefs]

end

lemma Judged.accept (hj : Judged v check U A₀ A checked verdicts)
    (hnew : block.reference ∉ checked.map reference)
    (hb : Admissible v.context check (verdicts.known A) block) :
    Judged v check U A₀ A (checked ++ [block]) (verdicts.accept block) := by
  have hsub : verdicts.known A ⊆ (verdicts.accept block).known A := by
    rintro p (hp | hp)
    · exact .inl hp
    · right
      rw [Verdicts.accept, getElem?_insert_ite, if_neg, hp]
      intro he
      rw [he] at hnew
      exact hnew (mem_map_of_mem (hj.accepted _ p hp).1)
  refine ⟨fun r b hr => ?_, fun r b hr => ?_, ?_⟩
  · rcases entry_of_insert hr with ⟨he, rfl⟩ | ⟨-, hr⟩
    · exact ⟨by simp, he, hb.mono hsub⟩
    · obtain ⟨hmem, href, hadm⟩ := hj.accepted r b hr
      exact ⟨mem_append_left _ hmem, href, hadm.mono hsub⟩
  · exact (hj.rejected r b hr).imp_left (mem_append_left _)
  · refine forall_mem_concat (fun b hb => (hj.total b hb).imp_left fun hin => ?_)
      (.inl TreeMap.mem_insert_self)
    exact TreeMap.mem_insert.mpr (.inr hin)

lemma Judged.reject (hj : Judged v check U A₀ A checked verdicts)
    (hb : Doomed v.context check U A₀ block) :
    Judged v check U A₀ A (checked ++ [block]) (verdicts.reject block) := by
  refine ⟨fun r b hr => (hj.accepted r b hr).imp_left (mem_append_left _), fun r b hr => ?_, ?_⟩
  · rcases entry_of_insert hr with ⟨he, rfl⟩ | ⟨-, hr⟩
    · exact ⟨by simp, he, hb⟩
    · exact (hj.rejected r b hr).imp_left (mem_append_left _)
  · refine forall_mem_concat (fun b hb => (hj.total b hb).imp_right fun hin => ?_)
      (.inr TreeMap.mem_insert_self)
    exact TreeMap.mem_insert.mpr (.inr hin)

lemma checkBlock_total (h : m.Sound v.context P d A)
    (hj : Judged v check U A₀ A checked verdicts) (hA : ∀ b ∈ A, b ∈ U) (hchk : ∀ b ∈ checked, b ∈ U)
    (hnew : block.reference ∉ checked.map reference) (hA₀ : block ∉ A₀)
    (ha : ∀ a ∈ block.ancestors, Known v.context A a ∨ a ∈ checked.map reference) :
    ∃ verdicts', checkBlock v.context ⟨v.verify, check⟩ d verdicts block = .ok verdicts' ∧
      Judged v check U A₀ A (checked ++ [block]) verdicts' := by
  unfold checkBlock
  rcases findAncestors_total h hj block ha with ⟨hfd, a, ha, hr⟩ | ⟨ps, hfd, hres⟩ <;> rw [hfd, ok_bind]
  · obtain ⟨p, hp⟩ := mem_map_iff_exists.mp hr
    obtain ⟨hmem, rfl, hdoomed⟩ := hj.rejected a p hp
    exact ⟨_, rfl, hj.reject (.ancestor hA₀ (hchk p hmem) ha hdoomed)⟩
  · replace hres : Resolves v.context (verdicts.known A) block ps := ⟨hres.1, hres.2⟩
    dsimp only
    cases hcheck : check block ps with
    | ok _ => exact ⟨_, rfl, hj.accept hnew ⟨ps, hres, hcheck⟩⟩
    | error e =>
      refine ⟨_, rfl, hj.reject (.check hA₀ (hres.mono ?_) (by simp [hcheck]))⟩
      rintro p (hp | hp)
      · exact hA p hp
      · exact hchk p (hj.accepted _ p hp).1

lemma checkBlocks_total (check : VerifiedBlock → List VerifiedBlock → Except ConsensusError Unit)
    (A₀ : Finset VerifiedBlock) (h : m.Sound v.context P d A) (hA : ∀ b ∈ A, b ∈ U)
    {blocks : List VerifiedBlock}
    (hU : ∀ b ∈ blocks, b ∈ U) (hnd : (blocks.map reference).Nodup) (hA₀ : ∀ b ∈ blocks, b ∉ A₀)
    (ha : ∀ checked b, checked ++ [b] <+: blocks → ∀ a ∈ b.ancestors,
      Known v.context A a ∨ a ∈ checked.map reference) :
    ∃ verdicts, blocks.foldlM (checkBlock v.context ⟨v.verify, check⟩ d) ⟨∅, ∅⟩ = .ok verdicts ∧
      Judged v check U A₀ A blocks verdicts := by
  refine foldlM_total_of_prefix (Judged v check U A₀ A) ?_ ⟨by simp, by simp, by simp⟩
  intro checked b verdicts hpre hj
  have hb : b ∈ blocks := hpre.subset (by simp)
  refine checkBlock_total h hj hA (fun b' hb' => hU b' (hpre.subset (by simp [hb']))) ?_ (hA₀ b hb)
    (ha checked b hpre)
  intro hmem
  obtain ⟨b', hb', heq⟩ := mem_map.mp hmem
  exact rel_of_prefix (pairwise_map.mp hnd) hpre hb' heq

end Verdicts

section Delivery

variable {block : VerifiedBlock} {delivered : List VerifiedBlock} {blocks : List VerifiedBlock}

lemma foldl_acceptInto_eq (hinj : ∀ b ∈ U, ∀ b' ∈ U, b.reference = b'.reference → b = b')
    (hA : ∀ b ∈ A, b ∈ U) (hblocks : ∀ b ∈ blocks, b ∈ U) :
    blocks.foldl acceptInto A = A ∪ blocks.toFinset := by
  induction blocks generalizing A with
  | nil => simp
  | cons b blocks ih =>
    have hb := hblocks b mem_cons_self
    have hins : acceptInto A b = insert b A := by
      unfold acceptInto
      split_ifs with hkn
      · obtain ⟨b', hb', he⟩ := hkn
        rw [← hinj b' (hA b' hb') b hb he, Finset.insert_eq_of_mem hb']
      · rfl
    rw [foldl_cons, hins, ih (A := insert b A) ?_ (fun b' hb' => hblocks b' (mem_cons_of_mem b hb')),
      toFinset_cons, Finset.insert_union, Finset.union_insert]
    exact (Finset.forall_mem_insert _ _ _).mpr ⟨hb, hA⟩

variable {ctx : Context}

lemma acceptBlocks_ends {now : ℕ}
    (hblocks : ∀ b ∈ blocks, 0 < b.round ∧ b.author < ctx.committee.size) :
    Ends (d.acceptBlocks ctx now blocks) RefusedByDag (fun _ => True) := by
  refine Ends.foldlM (fun _ _ => True) ?_ trivial
  intro done b d hpre _
  obtain ⟨hround, hau⟩ := hblocks b (hpre.subset (by simp))
  unfold DagState.acceptBlock
  rw [if_neg (by omega), if_neg (by omega)]
  split_ifs
  · exact .ok trivial
  · exact .error (.inl ⟨_, rfl⟩)
  · exact .error (.inr ⟨_, rfl⟩)
  · exact .ok trivial

variable (v check U A₀ delivered) in
/-- The state after the given blocks were delivered: every one of them is accepted, suspended
or doomed. -/
structure Delivery (m : BlockManager) (d : DagState) (A : Finset VerifiedBlock) : Prop where
  sound : m.Sound v.context (· ∈ delivered) d A
  base : A₀ ⊆ A
  subset : ∀ b ∈ A, b ∈ A₀ ∨ b ∈ delivered
  admissible : ∀ b ∈ A, b ∈ A₀ ∨ Admissible v.context check ↑A b
  settled : ∀ b ∈ delivered, b ∈ A ∨ b.reference ∈ m.suspendedBlocks ∨ Doomed v.context check U A₀ b

variable {P Q : VerifiedBlock → Prop}

lemma Consistent.mono {released : List BlockRef} (h : Consistent P m released)
    (hPQ : ∀ b, P b → Q b) : Consistent Q m released :=
  { h with entry := fun r s hs => { h.entry r s hs with mem := hPQ _ (h.entry r s hs).mem } }

lemma Sound.mono (h : Sound ctx P m d A) (hPQ : ∀ b, P b → Q b) :
    Sound ctx Q m d A :=
  { h with consistent := h.consistent.mono hPQ }

variable {b : VerifiedBlock}

lemma Cascading.ancestor_before {s : Cascade} {done checked : List VerifiedBlock}
    (h : Sound ctx P m d A) (hcln : NoLostAncestor ctx m d) (hmiss : missingOf ctx d block = [])
    (hc : Cascading (m.receive block []) block (fun _ _ => False) done s)
    (hpre : checked ++ [b] <+: block :: s.unsuspended) :
    ∀ a ∈ b.ancestors, Known ctx A a ∨ a ∈ checked.map reference := by
  intro a ha
  obtain ⟨rest, hrest⟩ := hpre
  cases checked with
  | nil =>
    obtain rfl : b = block := by simpa using (List.cons.inj hrest).1
    by_contra hnone
    push Not at hnone
    have hmem := h.mem_missingOf.mpr ⟨ha, hnone.1⟩
    rw [hmiss] at hmem
    exact not_mem_nil hmem
  | cons c checked =>
    rw [cons_append, cons_append, append_assoc] at hrest
    obtain ⟨rfl, htail⟩ := List.cons.inj hrest
    have hi : s.unsuspended[checked.length]? = some b := by
      rw [← htail, List.getElem?_append_right le_rfl]
      simp
    obtain ⟨t₀, ht₀, rfl, hall⟩ := hc.unsuspended _ b hi
    rcases hcln _ t₀ ht₀ a ha with hkn | hwt
    · exact .inl (h.containsBlock_eq_true_iff.mp hkn)
    · right
      have hbef := (hall a hwt).2.2
      rwa [← htail, take_left] at hbef

variable (h : Delivery v check U A₀ delivered m d A)
include h

lemma Delivery.mem (hA₀ : ∀ b ∈ A₀, b ∈ U)
    (hdelivered : ∀ b ∈ delivered, b ∈ U) : ∀ b ∈ A, b ∈ U := by
  intro b hb
  rcases h.subset b hb with hb | hb
  · exact hA₀ b hb
  · exact hdelivered b hb

lemma Delivery.suspend
    (hnew : block.reference ∉ m.suspendedBlocks) (hunk : ¬ Known v.context A block.reference)
    (hne : missingOf v.context d block ≠ []) :
    Delivery v check U A₀ (delivered ++ [block])
      ((m.receive block (missingOf v.context d block)).suspend block
        (missingOf v.context d block)) d A where
  sound := (h.sound.mono (fun b hb => mem_append_left _ hb)).suspend hnew hunk hne (by simp)
  base := h.base
  subset b hb := (h.subset b hb).imp_right (fun hb => mem_append_left _ hb)
  admissible := h.admissible
  settled b hb := by
    have hmem : ∀ r, r ∈ ((m.receive block (missingOf v.context d block)).suspend block
        (missingOf v.context d block)).suspendedBlocks ↔
          block.reference = r ∨ r ∈ m.suspendedBlocks := by
      intro r
      simp [BlockManager.suspend, receive, TreeMap.mem_insert]
    rw [hmem]
    rcases mem_append.mp hb with hb | hb
    · exact (h.settled b hb).imp_right (Or.imp_left .inr)
    · exact .inr (.inl (.inl (by rw [mem_singleton.mp hb])))

variable {ctx : Context}

omit h in
lemma NoLostAncestor.suspend (hcln : NoLostAncestor ctx m d) :
    NoLostAncestor ctx
      ((m.receive block (missingOf ctx d block)).suspend block (missingOf ctx d block)) d := by
  intro r s hs a ha
  rcases entry_of_insert hs with ⟨-, rfl⟩ | ⟨-, hs⟩
  · rw [mem_foldl_insert_empty]
    by_cases hkn : d.containsBlock ctx a = true
    · exact .inl hkn
    · exact .inr (mem_filter.mpr ⟨ha, by simpa using hkn⟩)
  · exact hcln r s hs a ha

omit h in
/-- If all released blocks are accepted, none of them is lost as an ancestor. -/
lemma NoLostAncestor.acceptWithChildren {s : Cascade}
    {done blocks : List VerifiedBlock} {d' : DagState} (hcln : NoLostAncestor ctx m d)
    (h : Sound ctx P m d A)
    (hc : Cascading (m.receive block []) block (fun _ _ => False) done s) (hemp : s.toProcess = [])
    (h' : Sound ctx P s.manager d' (blocks.foldl acceptInto A))
    (hall : ∀ b ∈ block :: s.unsuspended, b ∈ blocks) :
    NoLostAncestor ctx s.manager d' := by
  intro r t ht a ha
  rw [h'.containsBlock_eq_true_iff, known_foldl_acceptInto]
  obtain ⟨_, t₀, ht₀, hblock, hiff⟩ := hc.suspended r t ht
  rw [hblock] at ha
  rcases hcln r t₀ ht₀ a ha with hkn | hwt
  · exact .inl (.inl (h.containsBlock_eq_true_iff.mp hkn))
  · rw [hiff, hc.mem_done_iff hemp]
    by_cases hr : a ∈ (block :: s.unsuspended).map reference
    · obtain ⟨b, hb, rfl⟩ := mem_map.mp hr
      exact .inl (.inr ⟨b, hall b hb, rfl⟩)
    · exact .inr ⟨hwt, hr⟩

omit h in
lemma mem_sortByRound : b ∈ sortByRound blocks ↔ b ∈ blocks :=
  (perm_insertionSort _ _).mem_iff

variable (v check) in
/-- No ancestor is lost when the turn of a block of the call comes. -/
def CleanCall (now : ℕ) (m : BlockManager) (d : DagState) (blocks : List VerifiedBlock) : Prop :=
  ∀ (done : List VerifiedBlock) (b : VerifiedBlock) (s : Acceptance),
    done ++ [b] <+: sortByRound blocks →
    done.foldlM (BlockManager.tryAcceptBlock v.context ⟨v.verify, check⟩ now) ⟨m, d, [], ∅⟩ = .ok s →
    NoLostAncestor v.context s.manager s.dagState

lemma Delivery.of_mem_iff {delivered' : List VerifiedBlock}
    (hmem : ∀ b, b ∈ delivered ↔ b ∈ delivered') : Delivery v check U A₀ delivered' m d A where
  sound := h.sound.mono fun b hb => (hmem b).mp hb
  base := h.base
  subset b hb := (h.subset b hb).imp_right (hmem b).mp
  admissible := h.admissible
  settled b hb := h.settled b ((hmem b).mpr hb)

omit h

variable (h : Delivery v check U A₀ delivered m d A)
  (hverified : ∀ b ∈ U, v.verify b.toSignedBlock = .ok ())
  (hinj : ∀ b ∈ U, ∀ b' ∈ U, b.reference = b'.reference → b = b') (hA₀ : ∀ b ∈ A₀, b ∈ U)
  (hdelivered : ∀ b ∈ delivered, b ∈ U)

include h hverified hinj hA₀ hdelivered

section

variable (hblock : block ∈ U) (hcln : NoLostAncestor v.context m d)
  (hnew : block.reference ∉ m.suspendedBlocks) (hunk : ¬ Known v.context A block.reference)
  (hmiss : missingOf v.context d block = [])

include hblock hcln hnew hunk hmiss

omit hverified in
lemma Delivery.exists_verdicts :
    ∃ s done verdicts, (m.receive block []).tryUnsuspendChildrenBlocks block = .ok s ∧ s.toProcess = [] ∧
      Cascading (m.receive block []) block (fun _ _ => False) done s ∧
      (∀ b ∈ block :: s.unsuspended, b ∈ delivered ++ [block] ∧ b ∈ U) ∧
      (block :: s.unsuspended).foldlM (checkBlock v.context ⟨v.verify, check⟩ d) ⟨∅, ∅⟩ = .ok verdicts ∧
      (∀ b ∈ verdicts.toAccept.toList.map Prod.snd, b ∈ block :: s.unsuspended ∧
        Admissible v.context check {p | p ∈ A ∨ p ∈ verdicts.toAccept.toList.map Prod.snd} b) ∧
      ∀ b ∈ block :: s.unsuspended,
        b ∈ verdicts.toAccept.toList.map Prod.snd ∨ Doomed v.context check U A₀ b := by
  obtain ⟨s, done, hs, hemp, hc⟩ := tryUnsuspendChildrenBlocks_total h.sound.consistent.receive_nil hnew
  -- The blocks of the cascade were delivered and are not in the DAG.
  have hmem : ∀ b ∈ block :: s.unsuspended, b ∈ delivered ++ [block] ∧
      ¬ Known v.context A b.reference := by
    intro b hb
    rcases mem_cons.mp hb with rfl | hb
    · exact ⟨by simp, hunk⟩
    · obtain ⟨i, hi⟩ := List.getElem?_of_mem hb
      obtain ⟨t₀, ht₀, rfl, _⟩ := hc.unsuspended i b hi
      exact ⟨mem_append_left _ (h.sound.consistent.entry _ t₀ ht₀).mem,
        h.sound.apart _ (.inl (mem_map_iff_exists.mpr ⟨t₀, ht₀⟩))⟩
  have hU : ∀ b ∈ block :: s.unsuspended, b ∈ U :=
    fun b hb => forall_mem_concat hdelivered hblock b (hmem b hb).1
  obtain ⟨verdicts, hverds, hj⟩ := checkBlocks_total check A₀ h.sound (h.mem hA₀ hdelivered) hU hc.nodup
    (fun b hb hbA₀ => (hmem b hb).2 (.inr ⟨b, h.base hbA₀, rfl⟩))
    (fun checked b hpre => hc.ancestor_before h.sound hcln hmiss hpre)
  have hblocks : ∀ b, b ∈ verdicts.toAccept.toList.map Prod.snd ↔
      verdicts.toAccept[b.reference]? = some b := by
    intro b
    simp only [mem_map, Prod.exists, TreeMap.mem_toList_iff_getElem?_eq_some]
    constructor
    · rintro ⟨r, b, hr, rfl⟩
      rwa [(hj.accepted r b hr).2.1]
    · exact fun hb => ⟨_, b, hb, rfl⟩
  refine ⟨s, done, verdicts, hs, hemp, hc, fun b hb => ⟨(hmem b hb).1, hU b hb⟩, hverds, ?_, ?_⟩
  · intro b hb
    obtain ⟨hbL, _, hadm⟩ := hj.accepted _ b ((hblocks b).mp hb)
    refine ⟨hbL, hadm.mono fun p hp => ?_⟩
    exact hp.imp_right (hblocks p).mpr
  · intro b hb
    rw [hblocks]
    rcases hj.total b hb with hr | hr <;> obtain ⟨b', hb'⟩ := mem_map_iff_exists.mp hr
    · obtain ⟨hmem', href, _⟩ := hj.accepted _ b' hb'
      rw [hinj b' (hU b' hmem') b (hU b hb) href] at hb'
      exact .inl hb'
    · obtain ⟨hmem', href, hdoomed⟩ := hj.rejected _ b' hb'
      rw [hinj b' (hU b' hmem') b (hU b hb) href] at hdoomed
      exact .inr hdoomed

/-- A block without missing ancestors enters the DAG with the admissible blocks that it releases. -/
lemma Delivery.acceptWithChildren {now : ℕ} {accepted : List VerifiedBlock}
    {fetch : Std.TreeSet BlockRef} :
    Ends (BlockManager.acceptWithChildren v.context ⟨v.verify, check⟩ now
      ⟨m.receive block [], d, accepted, fetch⟩ block)
      RefusedByDag (fun s => ∃ A', Delivery v check U A₀ (delivered ++ [block]) s.manager s.dagState A' ∧
        ((∀ b ∈ U, ¬ Doomed v.context check U A₀ b) →
          NoLostAncestor v.context s.manager s.dagState)) := by
  obtain ⟨s, done, verdicts, hs, hemp, hc, hmem, hverds, hacc, hverd⟩ :=
    h.exists_verdicts hinj hA₀ hdelivered hblock hcln hnew hunk hmiss
  generalize hblocks : verdicts.toAccept.toList.map Prod.snd = blocks at hacc hverd
  have hU : ∀ b ∈ blocks, b ∈ U := fun b hb => (hmem b (hacc b hb).1).2
  rw [BlockManager.acceptWithChildren, hs, ok_bind, hverds, ok_bind, hblocks]
  refine (acceptBlocks_ends fun b hb => ?_).bind fun d' hd' _ => .ok ?_
  · have hwf := wellFormed_of_verify (hverified b (hU b hb))
    exact ⟨hwf.round_pos, hwf.author_lt⟩
  have hsound := h.sound.mono (Q := (· ∈ delivered ++ [block])) (fun b hb => mem_append_left _ hb)
  have hsound' := hsound.acceptWithChildren hc hemp (fun b hb => (hacc b hb).1) hd'
  have hunion : ∀ b, b ∈ blocks.foldl acceptInto A ↔ b ∈ A ∨ b ∈ blocks := by
    intro b
    rw [foldl_acceptInto_eq hinj (h.mem hA₀ hdelivered) hU, Finset.mem_union, mem_toFinset]
  refine ⟨_, ⟨hsound', fun b hb => (hunion b).mpr (.inl (h.base hb)), ?_, ?_, ?_⟩, fun hno => ?_⟩
  · intro b hb
    rcases (hunion b).mp hb with hb | hb
    · exact (h.subset b hb).imp_right (mem_append_left _)
    · exact .inr (hmem b (hacc b hb).1).1
  · intro b hb
    rcases (hunion b).mp hb with hb | hb
    · exact (h.admissible b hb).imp_right fun hadm => hadm.mono fun p hp => (hunion p).mpr (.inl hp)
    · exact .inr ((hacc b hb).2.mono fun p hp => (hunion p).mpr hp)
  · -- A delivered block that was suspended still is, or it was released and has a verdict.
    intro b hb
    rw [hunion]
    have hrel : b ∈ block :: s.unsuspended → (b ∈ A ∨ b ∈ blocks) ∨
        b.reference ∈ s.manager.suspendedBlocks ∨ Doomed v.context check U A₀ b :=
      fun hb => (hverd b hb).imp .inr .inr
    rcases mem_append.mp hb with hb | hb
    · rcases h.settled b hb with hA | hsus | hdoomed
      · exact .inl (.inl hA)
      · by_cases hr : b.reference ∈ (block :: s.unsuspended).map reference
        · obtain ⟨b', hb', he⟩ := mem_map.mp hr
          rw [← hinj b' (hmem b' hb').2 b (hdelivered b hb) he] at hrel ⊢
          exact hrel hb'
        · exact .inr (.inl ((hc.mem_suspendedBlocks_iff h.sound.consistent.receive_nil).mpr ⟨hsus, hr⟩))
      · exact .inr (.inr hdoomed)
    · exact hrel (by rw [mem_singleton.mp hb]; exact mem_cons_self)
  · refine hcln.acceptWithChildren hsound hc hemp hsound' fun b hb => ?_
    exact (hverd b hb).resolve_right (hno b (hmem b hb).2)

end

lemma Delivery.tryAcceptBlock (hblock : block ∈ U) (now : ℕ) (accepted : List VerifiedBlock)
    (fetch : Std.TreeSet BlockRef) (hcln : NoLostAncestor v.context m d) :
    Ends (BlockManager.tryAcceptBlock v.context ⟨v.verify, check⟩ now ⟨m, d, accepted, fetch⟩ block)
      RefusedByDag (fun s => ∃ A', Delivery v check U A₀ (delivered ++ [block]) s.manager s.dagState A' ∧
        ((∀ b ∈ U, ¬ Doomed v.context check U A₀ b) →
          NoLostAncestor v.context s.manager s.dagState)) := by
  unfold BlockManager.tryAcceptBlock tryAcceptOneBlock
  by_cases hprocd : block.reference ∈ m.suspendedBlocks ∨
    d.containsBlock v.context block.reference = true
  · rw [if_pos hprocd]
    refine .ok ⟨A, ⟨h.sound.mono (fun b hb => mem_append_left _ hb), h.base, ?_, h.admissible, ?_⟩,
      fun _ => hcln⟩
    · exact fun b hb => (h.subset b hb).imp_right (mem_append_left _)
    · intro b hb
      rcases mem_append.mp hb with hb | hb
      · exact h.settled b hb
      obtain rfl := mem_singleton.mp hb
      rcases hprocd with hsus | hkn
      · exact .inr (.inl hsus)
      · have hround := (wellFormed_of_verify (hverified b hblock)).round_pos
        rcases h.sound.containsBlock_eq_true_iff.mp hkn with hg | ⟨b', hb', he⟩
        · obtain ⟨g, hgen, he⟩ := mem_map.mp hg
          have hrs : g.round = b.round := congrArg BlockRef.round he
          rw [round_of_mem_genesisBlocks hgen] at hrs
          omega
        · exact .inl (hinj b' (h.mem hA₀ hdelivered b' hb') b hblock he ▸ hb')
  · rw [if_neg hprocd]
    push Not at hprocd
    have hunk : ¬ Known v.context A block.reference := by
      rw [← h.sound.containsBlock_eq_true_iff]
      exact hprocd.2
    by_cases hmiss : missingOf v.context d block = []
    · rw [if_pos hmiss, hmiss]
      exact h.acceptWithChildren hverified hinj hA₀ hdelivered hblock hcln hprocd.1 hunk hmiss
    · rw [if_neg hmiss]
      exact .ok ⟨A, h.suspend hprocd.1 hunk hmiss, fun _ => hcln.suspend⟩

/-- The accepted blocks are the greatest set of delivered blocks that is closed under ancestors
and passes their checks. -/
lemma Delivery.isGreatest :
    IsGreatest {S : Set VerifiedBlock | ∀ b ∈ S, b ∈ A₀ ∨ b ∈ delivered ∧
      Admissible v.context check S b} ↑A := by
  constructor
  · intro b hb
    rcases h.subset b hb with hb₀ | hdel
    · exact .inl hb₀
    · exact (h.admissible b hb).imp_right fun hadm => ⟨hdel, hadm⟩
  intro S hS b hb
  have hSU : S ⊆ U := fun b hb => (hS b hb).elim (hA₀ b) (fun hb => hdelivered b hb.1)
  have hwf : ∀ b ∈ U, _ := fun b hb => wellFormed_of_verify (hverified b hb)
  -- A block of the set cannot be doomed, and it is not suspended as its ancestors are in
  -- the set, too.
  induction hn : b.round using Nat.strong_induction_on generalizing b with
  | _ n ih =>
    rcases hS b hb with hb₀ | ⟨hdel, ps, hps, _⟩
    · exact h.base hb₀
    rcases h.settled b hdel with hA | hsus | hdoomed
    · exact hA
    · obtain ⟨s, hs⟩ := mem_map_iff_exists.mp hsus
      have hentry := h.sound.consistent.entry _ s hs
      have hblock : s.block = b := hinj _ (hdelivered _ hentry.mem) b (hSU hb) hentry.block_ref
      obtain ⟨a, ha⟩ := hentry.nonempty
      have hlink : a ∈ b.ancestors := hblock ▸ hentry.ancestor a ha
      obtain ⟨cs, hcs, _⟩ := (h.sound.consistent.child_iff a _).mpr ⟨s, hs, ha⟩
      refine absurd ?_ (h.sound.apart a (.inr (mem_map_iff_exists.mpr ⟨cs, hcs⟩)))
      rw [← hps.refs] at hlink
      obtain ⟨p, hp, rfl⟩ := mem_map.mp hlink
      rcases hps.mem p hp with hg | hpS
      · exact .inl (mem_map_of_mem hg)
      · have hlt := (hwf b (hSU hb)).ancestor_round_lt _ (hps.refs ▸ hlink)
        exact .inr ⟨p, ih p.round (hn ▸ hlt) hpS rfl, rfl⟩
    · refine absurd hb (hdoomed.not_mem hinj (fun b hb => (hwf b hb).round_pos) hSU fun b hb => ?_)
      exact (hS b hb).imp_right And.right

variable {now : ℕ} (hblocks : ∀ b ∈ blocks, b ∈ U)

include hblocks

/-- A condition on the states before each block that excludes lost ancestors carries the whole
delivery. -/
lemma Delivery.foldlM (I : List VerifiedBlock → Acceptance → Prop)
    (hcln : ∀ done b s, done ++ [b] <+: blocks → I done s →
      NoLostAncestor v.context s.manager s.dagState)
    (hstep : ∀ done b s s', I done s →
      BlockManager.tryAcceptBlock v.context ⟨v.verify, check⟩ now s b = .ok s' →
      ((∀ b ∈ U, ¬ Doomed v.context check U A₀ b) →
        NoLostAncestor v.context s'.manager s'.dagState) → I (done ++ [b]) s')
    (hI : I [] ⟨m, d, [], ∅⟩) :
    Ends (blocks.foldlM (BlockManager.tryAcceptBlock v.context ⟨v.verify, check⟩ now)
      ⟨m, d, [], ∅⟩) RefusedByDag
      (fun s => I blocks s ∧
        ∃ A', Delivery v check U A₀ (delivered ++ blocks) s.manager s.dagState A') := by
  refine Ends.foldlM (fun done s =>
    I done s ∧ ∃ A', Delivery v check U A₀ (delivered ++ done) s.manager s.dagState A')
    ?_ ⟨hI, A, by simpa using h⟩
  rintro done b ⟨m₁, d₁, accepted, fetch⟩ hpre ⟨hdone, A₁, h₁⟩
  have hmem : ∀ b' ∈ delivered ++ done, b' ∈ U :=
    forall_mem_append.mpr ⟨hdelivered, fun b' hb' => hblocks b' (hpre.subset (mem_append_left _ hb'))⟩
  have hends :=
    h₁.tryAcceptBlock hverified hinj hA₀ hmem (hblocks b (hpre.subset (by simp))) now accepted fetch
    (hcln done b _ hpre hdone)
  refine ⟨fun s hs => ?_, hends.2⟩
  obtain ⟨A₂, h₂, hnext⟩ := hends.1 s hs
  exact ⟨hstep done b _ s hdone hs hnext, A₂, by rwa [← append_assoc]⟩

lemma Delivery.tryAcceptBlocks (hcln : CleanCall v check now m d blocks) :
    Ends (m.tryAcceptBlocks v.context ⟨v.verify, check⟩ now d blocks) RefusedByDag
      (fun s => ∃ A', Delivery v check U A₀ (delivered ++ blocks) s.manager s.dagState A') := by
  have hsts : ∀ done b s s',
      done.foldlM (BlockManager.tryAcceptBlock v.context ⟨v.verify, check⟩ now) ⟨m, d, [], ∅⟩ = .ok s →
      BlockManager.tryAcceptBlock v.context ⟨v.verify, check⟩ now s b = .ok s' →
      (done ++ [b]).foldlM (BlockManager.tryAcceptBlock v.context ⟨v.verify, check⟩ now)
        ⟨m, d, [], ∅⟩ = .ok s' := by
    intro done b s s' hdone hs
    rw [foldlM_append, hdone, ok_bind, foldlM_cons, hs]
    rfl
  have hends := h.foldlM hverified hinj hA₀ hdelivered (fun b hb => hblocks b (mem_sortByRound.mp hb)) _
    hcln (fun done b s s' hdone hs _ => hsts done b s s' hdone hs) rfl
  refine ⟨fun s hs => ?_, hends.2⟩
  obtain ⟨_, A', hA'⟩ := hends.1 s hs
  exact ⟨A', hA'.of_mem_iff fun b => by simp [mem_sortByRound]⟩

variable (hcheck : ∀ b ∈ U, ¬ Doomed v.context check U A₀ b)

include hcheck

lemma Delivery.cleanCall (now : ℕ) (hcln : NoLostAncestor v.context m d) :
    CleanCall v check now m d blocks := by
  intro done b s hpre hs
  refine ((h.foldlM hverified hinj hA₀ hdelivered (fun b' hb' => ?_)
    (fun _ s => NoLostAncestor v.context s.manager s.dagState) ?_ ?_ hcln).1 s hs).1
  · exact hblocks b' (mem_sortByRound.mp (hpre.subset (mem_append_left _ hb')))
  · exact fun _ _ _ _ hI => hI
  · exact fun _ _ _ _ _ _ hnext => hnext hcheck

end Delivery

end BlockManager

variable (v check U A₀) in
/-- Runs of the block manager, with the blocks delivered to it, in which no call finds a
suspended block with a lost ancestor. -/
inductive CleanRun : List VerifiedBlock → BlockManager → DagState → Prop
  | start {d : DagState} : d.Refines v.context A₀ → d.CacheReachesCommits → CleanRun [] .new d
  | tryAcceptBlocks {delivered : List VerifiedBlock} {m : BlockManager} {d : DagState} {now : ℕ}
      {blocks : List VerifiedBlock} {s : BlockManager.Acceptance} : CleanRun delivered m d →
      (∀ b ∈ blocks, b ∈ U) → BlockManager.CleanCall v check now m d blocks →
      m.tryAcceptBlocks v.context ⟨v.verify, check⟩ now d blocks = .ok s →
      CleanRun (delivered ++ blocks) s.manager s.dagState
  | dagStep {delivered : List VerifiedBlock} {m : BlockManager} {d d' : DagState} :
      CleanRun delivered m d →
      (∀ A, d.Refines v.context A → d'.Refines v.context A) → d'.CacheReachesCommits →
      CleanRun delivered m d'

section Runs

variable {delivered : List VerifiedBlock}

lemma CleanRun.mem (hrun : CleanRun v check U A₀ delivered m d) : ∀ b ∈ delivered, b ∈ U := by
  induction hrun with
  | start => simp
  | tryAcceptBlocks _ hblocks _ _ ih => exact forall_mem_append.mpr ⟨ih, hblocks⟩
  | dagStep _ _ _ ih => exact ih

section

variable (hverified : ∀ b ∈ U, v.verify b.toSignedBlock = .ok ())
  (hinj : ∀ b ∈ U, ∀ b' ∈ U, b.reference = b'.reference → b = b') (hA₀ : ∀ b ∈ A₀, b ∈ U)

include hverified hinj hA₀

lemma CleanRun.delivery (hrun : CleanRun v check U A₀ delivered m d) :
    ∃ A, BlockManager.Delivery v check U A₀ delivered m d A := by
  induction hrun with
  | start href hcac =>
    exact ⟨A₀, ⟨href, hcac, consistent_new, by simp [new]⟩, subset_rfl,
      fun _ => .inl, fun _ => .inl, by simp⟩
  | tryAcceptBlocks hrun hblocks hcln hok ih =>
    obtain ⟨A, h⟩ := ih
    exact (h.tryAcceptBlocks hverified hinj hA₀ hrun.mem hblocks hcln).1 _ hok
  | dagStep _ href hcac ih =>
    obtain ⟨A, h⟩ := ih
    exact ⟨A, { h with sound := ⟨href A h.sound.refines, hcac, h.sound.consistent, h.sound.apart⟩ }⟩

lemma CleanRun.tryAcceptBlocks_of_not_doomed {now : ℕ} {blocks : List VerifiedBlock}
    {s : BlockManager.Acceptance}
    (hcheck : ∀ b ∈ U, ¬ Doomed v.context check U A₀ b) (hrun : CleanRun v check U A₀ delivered m d)
    (hcln : m.NoLostAncestor v.context d) (hblocks : ∀ b ∈ blocks, b ∈ U)
    (hok : m.tryAcceptBlocks v.context ⟨v.verify, check⟩ now d blocks = .ok s) :
    CleanRun v check U A₀ (delivered ++ blocks) s.manager s.dagState ∧
      s.manager.NoLostAncestor v.context s.dagState := by
  obtain ⟨A, h⟩ := hrun.delivery hverified hinj hA₀
  have hcall := h.cleanCall hverified hinj hA₀ hrun.mem hblocks hcheck now hcln
  exact ⟨hrun.tryAcceptBlocks hblocks hcall hok,
    ((h.foldlM hverified hinj hA₀ hrun.mem (fun b hb => hblocks b (mem_sortByRound.mp hb))
    (fun _ s => NoLostAncestor v.context s.manager s.dagState) (fun _ _ _ _ hI => hI)
    (fun _ _ _ _ _ _ hnext => hnext hcheck) hcln).1 s hok).1⟩

end

/-- As long as no call finds a suspended block with a lost ancestor, the accepted set is the
greatest admissible set of delivered blocks, and a call can only fail in the DAG. -/
theorem tryAcceptBlocks_acceptsGreatest (hverified : ∀ b ∈ U, v.verify b.toSignedBlock = .ok ())
    (hinj : ∀ b ∈ U, ∀ b' ∈ U, b.reference = b'.reference → b = b') (hA₀ : ∀ b ∈ A₀, b ∈ U)
    (hrun : CleanRun v check U A₀ delivered m d) :
    (∃ A : Finset VerifiedBlock, d.Refines v.context A ∧
      IsGreatest {S : Set VerifiedBlock | ∀ b ∈ S, b ∈ A₀ ∨ b ∈ delivered ∧
        Admissible v.context check S b} ↑A) ∧
    ∀ (now : ℕ) (blocks : List VerifiedBlock) (e : Panic), (∀ b ∈ blocks, b ∈ U) →
      BlockManager.CleanCall v check now m d blocks →
      m.tryAcceptBlocks v.context ⟨v.verify, check⟩ now d blocks = .error e →
        BlockManager.RefusedByDag e := by
  obtain ⟨A, h⟩ := hrun.delivery hverified hinj hA₀
  refine ⟨⟨A, h.sound.refines, h.isGreatest hverified hinj hA₀ hrun.mem⟩,
    fun now blocks e hblocks hclean he => ?_⟩
  exact (h.tryAcceptBlocks hverified hinj hA₀ hrun.mem hblocks hclean).2 e he

end Runs

namespace BlockManager

def deliver (ctx : Context) (v : BlockVerifier) (now : ℕ) (batches : List (List VerifiedBlock)) :
    Except Panic Acceptance := do
  let d ← DagState.new ctx .empty
  batches.foldlM (fun s blocks => s.manager.tryAcceptBlocks ctx v now s.dagState blocks) ⟨.new, d, [], ∅⟩

end BlockManager

namespace fourAuthorities

def earlyBlock : VerifiedBlock := block 2 1 0 (links 1 1 (List.range 4))

def blockOnEarly : VerifiedBlock := block 3 0 3 [ref 2 0, earlyBlock.reference, ref 2 2]

end fourAuthorities

open fourAuthorities in
/-- The block of round 3 waits for two ancestors. The first one is rejected when it arrives, and
then the second one releases the block. -/
theorem tryAcceptBlocks_releasedAfterRejection :
    (∀ b ∈ fullRounds 1 ++ [fullBlock 2 0, blockOnEarly, earlyBlock, fullBlock 2 2],
      (⟨fourAuthorities, fun _ => true, fun _ => true⟩ : SignedBlockVerifier).verify
        b.toSignedBlock = .ok ()) ∧
    ((BlockManager.deliver fourAuthorities
      (⟨fourAuthorities, fun _ => true, fun _ => true⟩ : SignedBlockVerifier).toBlockVerifier 100
      [fullRounds 1, [fullBlock 2 0], [blockOnEarly], [earlyBlock], [fullBlock 2 2]]).map fun _ => ()) =
      .error (.missingAncestor blockOnEarly.reference earlyBlock.reference) := by
  decide +kernel

lemma checkAncestors_eq_ok {b : VerifiedBlock} {ps : List VerifiedBlock}
    (h : ∀ p ∈ ps, p.timestampMs ≤ b.timestampMs) :
    SignedBlockVerifier.checkAncestors b ps = .ok () := by
  have hmax : ∀ n ≤ b.timestampMs, ps.foldl (fun ts p => max ts p.timestampMs) n ≤ b.timestampMs := by
    induction ps with
    | nil => exact fun n hn => hn
    | cons p ps ih =>
      intro n hn
      exact ih (fun q hq => h q (mem_cons_of_mem p hq)) _ (max_le hn (h p mem_cons_self))
  exact if_neg (not_lt.mpr (hmax 0 (Nat.zero_le _)))

open fourAuthorities in
/-- A block of round 2 is delivered before its ancestors of round 1. -/
theorem tryAcceptBlocks_acceptsGreatest_childFirst :
    ∃ m d, CleanRun ⟨fourAuthorities, fun _ => true, fun _ => true⟩ SignedBlockVerifier.checkAncestors
        {b | b ∈ fullRounds 2} ∅ ([] ++ [fullBlock 2 0] ++ fullRounds 1) m d ∧
      ∃ A : Finset VerifiedBlock, d.Refines fourAuthorities A ∧
        IsGreatest {S : Set VerifiedBlock | ∀ b ∈ S, b ∈ (∅ : Finset VerifiedBlock) ∨
          b ∈ [] ++ [fullBlock 2 0] ++ fullRounds 1 ∧
            Admissible fourAuthorities SignedBlockVerifier.checkAncestors S b} ↑A := by
  let v : SignedBlockVerifier := ⟨fourAuthorities, fun _ => true, fun _ => true⟩
  have hverified : ∀ b ∈ fullRounds 2, v.verify b.toSignedBlock = .ok () := by decide +kernel
  have hinj : ∀ b ∈ fullRounds 2, ∀ b' ∈ fullRounds 2, b.reference = b'.reference → b = b' := by
    decide +kernel
  have htimes : ∀ b ∈ fullRounds 2, ∀ p ∈ genesisBlocks fourAuthorities ++ fullRounds 2,
      p.reference ∈ b.ancestors → p.timestampMs ≤ b.timestampMs := by decide +kernel
  have hsub : (∀ b ∈ [fullBlock 2 0], b ∈ fullRounds 2) ∧
      ∀ b ∈ fullRounds 1, b ∈ fullRounds 2 := by decide +kernel
  obtain ⟨s, hs, -⟩ := exists_of_returns (x := deliver fourAuthorities v.toBlockVerifier 100
    [[fullBlock 2 0], fullRounds 1]) (p := fun _ => true) (by decide +kernel)
  generalize fullRounds 2 = U at *
  generalize fullRounds 1 = blocks at *
  have hcheck : ∀ b ∈ {b | b ∈ U}, ¬ Doomed v.context checkAncestors {b | b ∈ U} ∅ b := by
    refine fun b hb => not_doomed (fun b hb ps hps => checkAncestors_eq_ok fun p hp => ?_) hb
    exact htimes b hb p (mem_append.mpr (hps.mem p hp)) (hps.refs ▸ mem_map_of_mem hp)
  obtain ⟨d, hd, hs⟩ := bind_eq_ok.mp hs
  obtain ⟨s₁, hs₁, hs⟩ := bind_eq_ok.mp hs
  obtain ⟨s₂, hs₂, hs⟩ := bind_eq_ok.mp hs
  cases hs
  have hrefines := (DagRun.start hd).refines (by decide)
  obtain ⟨hrun₁, hclean₁⟩ :=
    (CleanRun.start hrefines (hrefines.cacheReachesCommits
      (by decide))).tryAcceptBlocks_of_not_doomed
    (v := v) hverified hinj (by simp) hcheck (by simp [BlockManager.NoLostAncestor, new]) hsub.1 hs₁
  obtain ⟨hrun₂, -⟩ :=
    hrun₁.tryAcceptBlocks_of_not_doomed hverified hinj (by simp) hcheck hclean₁ hsub.2 hs₂
  exact ⟨_, _, hrun₂, (tryAcceptBlocks_acceptsGreatest hverified hinj (by simp) hrun₂).1⟩

end SuiProofs.Consensus

import SuiProofs.Library.Exec
import SuiProofs.Library.Descent
import SuiProofs.Move.ControlFlowGraph

/-! Models `absint.rs` of `move-abstract-interpreter`. Running out of the costs of the meter
is one of the errors. -/

namespace SuiProofs.Move

open Library List Option Function VMControlFlowGraph

inductive JoinResult where
  | changed
  | unchanged
deriving DecidableEq, Repr

/-- A domain and a transfer function. The latter gets the offset of the instruction and of the last
one of its block. -/
structure Analysis (Op State Error : Type) where
  join : State → State → Except Error (State × JoinResult)
  execute : State → Bytecode Op → ℕ → ℕ → Except Error State

variable {Op State Error : Type}

/-- What is promised of joins: they are upper bounds, and there is no infinite chain of changes. -/
structure Analysis.UpperBounds (analysis : Analysis Op State Error)
    (le : State → State → Prop) : Prop where
  refl : ∀ a, le a a
  trans : ∀ a b c, le a b → le b c → le a c
  left_le : ∀ a b c r, analysis.join a b = .ok (c, r) → le a c
  right_le : ∀ a b c r, analysis.join a b = .ok (c, r) → le b c
  wellFounded : WellFounded fun c a => ∃ b, analysis.join a b = .ok (c, .changed)

/-- Joins also have to report every change. -/
structure Analysis.Lawful (analysis : Analysis Op State Error) (le : State → State → Prop) : Prop
    extends analysis.UpperBounds le where
  unchanged : ∀ a b c, analysis.join a b = .ok (c, .unchanged) → c = a

/-- The states before the blocks that were reached so far. -/
abbrev InvariantMap (State : Type) := ℕ → Option State

section Interpreter

variable (analysis : Analysis Op State Error) (unit : CodeUnit Op)

/-- The instructions of a block. An offset of a block is in the code. -/
def executeBlock (block : ℕ) (preState : State) : Except Error State :=
  let cfg := VMControlFlowGraph.new unit
  (cfg.instrIndexes block).foldlM (fun state offset =>
    match unit.code[offset]? with
    | some instr => analysis.execute state instr offset (cfg.blockEnd block)
    | none => .ok state) preState

/-- The loop over the successors of a block, which ends at a changed back edge. -/
def propagate (block : ℕ) (postState : State) :
    List ℕ → InvariantMap State → Option ℕ → Except Error (InvariantMap State × Option ℕ)
  | [], invMap, nextBlockCandidate => .ok (invMap, nextBlockCandidate)
  | successor :: successors, invMap, nextBlockCandidate =>
    match invMap successor with
    | some oldPre => do
      let (pre, joinResult) ← analysis.join oldPre postState
      let invMap := update invMap successor (some pre)
      match joinResult with
      | .unchanged => propagate block postState successors invMap nextBlockCandidate
      | .changed =>
        if (VMControlFlowGraph.new unit).isBackEdge block successor then .ok (invMap, some successor)
        else propagate block postState successors invMap nextBlockCandidate
    | none => propagate block postState successors (update invMap successor (some postState))
        nextBlockCandidate

def analyzeBlock (invMap : InvariantMap State) (block : ℕ) :
    Except Error (InvariantMap State × Option ℕ) :=
  let cfg := VMControlFlowGraph.new unit
  match invMap block with
  | none => .ok (invMap, cfg.nextBlock block)
  | some pre => do
    let postState ← executeBlock analysis unit block pre
    propagate analysis unit block postState (cfg.successors block) invMap (cfg.nextBlock block)

/-- The main loop, with `none` if it is not over. -/
def analyzeLoop : ℕ → InvariantMap State → Option ℕ → Option (Except Error (InvariantMap State))
  | _, invMap, none => some (.ok invMap)
  | 0, _, some _ => none
  | fuel + 1, invMap, some block =>
    match analyzeBlock analysis unit invMap block with
    | .error error => some (.error error)
    | .ok (invMap, nextBlock) => analyzeLoop fuel invMap nextBlock

/-- `analyze_function`, with the states that it has computed. -/
def analyzeFunction (initialState : State) (fuel : ℕ) : Option (Except Error (InvariantMap State)) :=
  analyzeLoop analysis unit fuel
    (update (fun _ => none) VMControlFlowGraph.entryBlockId (some initialState))
    (some VMControlFlowGraph.entryBlockId)

/-- The blocks that are reached from the entry. -/
inductive ReachableBlock : ℕ → Prop
  | entry : ReachableBlock VMControlFlowGraph.entryBlockId
  | next {block successor : ℕ} : ReachableBlock block →
      successor ∈ (VMControlFlowGraph.new unit).successors block → ReachableBlock successor

/-- The state after a block is below the states before its successors. -/
def Stable (le : State → State → Prop) (invMap : InvariantMap State) (block : ℕ) : Prop :=
  ∃ pre post, invMap block = some pre ∧ executeBlock analysis unit block pre = .ok post ∧
    ∀ successor ∈ (VMControlFlowGraph.new unit).successors block,
      ∃ pre', invMap successor = some pre' ∧ le post pre'

end Interpreter

variable {analysis : Analysis Op State Error} {unit : CodeUnit Op} {le : State → State → Prop}
  {invMap : InvariantMap State}

section Propagation

def Grows (le : State → State → Prop) (invMap invMap' : InvariantMap State) : Prop :=
  ∀ block pre, invMap block = some pre → ∃ pre', invMap' block = some pre' ∧ le pre pre'

/-- The states that the loop over successors may change, besides those not reached before. -/
def OnlyForward (unit : CodeUnit Op) (block : ℕ) (successors : List ℕ)
    (invMap invMap' : InvariantMap State) (x : ℕ) : Prop :=
  invMap' x = invMap x ∨ (x ∈ successors ∧
    (invMap x = none ∨ (VMControlFlowGraph.new unit).isBackEdge block x = false))

variable (analysis unit) in
/-- One state of the first map is the result of a join that changed the state of the second. -/
def Raised : InvariantMap State → InvariantMap State → Prop :=
  TableBelow (fun c a => ∃ b, analysis.join a b = .ok (c, .changed))
    (VMControlFlowGraph.traversalOrder unit)

variable (analysis unit le) in
/-- The outcome of the loop: all is propagated, or it ended at a changed back edge. -/
inductive Propagated (block : ℕ) (post : State) (successors : List ℕ) (invMap : InvariantMap State)
    (candidate : Option ℕ) (invMap' : InvariantMap State) : Option ℕ → Prop
  | all : (∀ s ∈ successors, ∃ pre, invMap' s = some pre ∧ le post pre) →
      (∀ x, OnlyForward unit block successors invMap invMap' x) →
    Relation.ReflTransGen (Raised analysis unit) invMap' invMap →
    Propagated block post successors invMap candidate invMap' candidate
  | back {t : ℕ} : t ∈ successors → (VMControlFlowGraph.new unit).isBackEdge block t = true →
    (∀ x, x ≠ t → OnlyForward unit block successors invMap invMap' x) →
    Relation.TransGen (Raised analysis unit) invMap' invMap →
    Propagated block post successors invMap candidate invMap' (some t)

variable (hlaw : analysis.Lawful le)
include hlaw

lemma Grows.refl (invMap : InvariantMap State) : Grows le invMap invMap :=
  fun _ pre h => ⟨pre, h, hlaw.refl pre⟩

lemma Grows.trans {a b c : InvariantMap State} (hab : Grows le a b) (hbc : Grows le b c) :
    Grows le a c := by
  intro block pre h
  obtain ⟨pre', h', hle⟩ := hab block pre h
  obtain ⟨pre'', h'', hle'⟩ := hbc block pre' h'
  exact ⟨pre'', h'', hlaw.trans _ _ _ hle hle'⟩

variable {s : ℕ}

lemma Grows.update {new : State}
    (h : ∀ old, invMap s = some old → le old new) : Grows le invMap (update invMap s (some new)) := by
  intro block pre hpre
  by_cases heq : block = s
  · subst heq
    exact ⟨new, update_self _ _ _, h pre hpre⟩
  · exact ⟨pre, (update_of_ne heq _ _).trans hpre, hlaw.refl pre⟩

variable {block x : ℕ} {successors : List ℕ} {invMap' : InvariantMap State}

omit hlaw in
lemma OnlyForward.cons {entry : Option State}
    (hs : invMap s = none ∨ (new unit).isBackEdge block s = false)
    (h : OnlyForward unit block successors (update invMap s entry) invMap' x) :
    OnlyForward unit block (s :: successors) invMap invMap' x := by
  by_cases heq : x = s
  · subst heq
    exact .inr ⟨mem_cons_self, hs⟩
  · rw [OnlyForward, update_of_ne heq] at h
    exact h.imp id fun ⟨hmem, hx⟩ => ⟨mem_cons_of_mem s hmem, hx⟩

variable {post : State} {candidate next : Option ℕ}

lemma Propagated.cons {pre : State}
    {invMap₁ : InvariantMap State}
    (h : Propagated analysis unit le block post successors invMap₁ candidate invMap' next)
    (hgrows : Grows le invMap₁ invMap') (hs : invMap₁ s = some pre) (hle : le post pre)
    (hforw : ∀ x, OnlyForward unit block successors invMap₁ invMap' x →
      OnlyForward unit block (s :: successors) invMap invMap' x)
    (hbel : Relation.ReflTransGen (Raised analysis unit) invMap₁ invMap) :
    Propagated analysis unit le block post (s :: successors) invMap candidate invMap' next := by
  cases h with
  | all hall hx hch =>
    refine .all (fun t ht => ?_) (fun x => hforw x (hx x)) (hch.trans hbel)
    rcases mem_cons.mp ht with rfl | ht
    · obtain ⟨pre', hpre', hle'⟩ := hgrows t pre hs
      exact ⟨pre', hpre', hlaw.trans _ _ _ hle hle'⟩
    · exact hall t ht
  | back ht hback hx hch =>
    exact .back (mem_cons_of_mem s ht) hback (fun x hne => hforw x (hx x hne)) (hch.trans_left hbel)

lemma propagate_spec
    (hkeys : ∀ s ∈ successors, s ∈ traversalOrder unit)
    (h : propagate analysis unit block post successors invMap candidate = .ok (invMap', next)) :
    Grows le invMap invMap' ∧
      Propagated analysis unit le block post successors invMap candidate invMap' next := by
  induction successors generalizing invMap with
  | nil =>
    obtain ⟨rfl, rfl⟩ := Prod.mk.inj (Except.ok.inj h)
    exact ⟨.refl hlaw invMap, .all (by simp) (fun x => .inl rfl) .refl⟩
  | cons s successors ih =>
    rw [forall_mem_cons] at hkeys
    rw [propagate] at h
    cases hold : invMap s with
    | none =>
      rw [hold] at h
      obtain ⟨hgrows, hprop⟩ := ih hkeys.2 h
      have hfst : Grows le invMap (update invMap s (some post)) := by
        refine .update hlaw fun old hsome => ?_
        rw [hold] at hsome
        cases hsome
      refine ⟨hfst.trans hlaw hgrows, hprop.cons hlaw hgrows (update_self _ _ _) (hlaw.refl post)
        (fun x => .cons (.inl hold)) (.single ⟨s, hkeys.1, some post, rfl, ?_⟩)⟩
      rw [hold]
      trivial
    | some old =>
      rw [hold] at h
      obtain ⟨⟨pre, joinResult⟩, hjoin, hrest⟩ := bind_eq_ok.mp h
      have hright := hlaw.right_le _ _ _ _ hjoin
      cases joinResult with
      | unchanged =>
        obtain rfl := hlaw.unchanged _ _ _ hjoin
        dsimp only at hrest
        rw [← hold, update_eq_self] at hrest
        obtain ⟨hgrows, hprop⟩ := ih hkeys.2 hrest
        exact ⟨hgrows, hprop.cons hlaw hgrows hold hright
          (fun x hx => hx.imp id fun ⟨hmem, hfwd⟩ => ⟨mem_cons_of_mem s hmem, hfwd⟩) .refl⟩
      | changed =>
        have hfst : Grows le invMap (update invMap s (some pre)) := by
          refine .update hlaw fun old' hsome => ?_
          obtain rfl := some.inj (hold.symm.trans hsome)
          exact hlaw.left_le _ _ _ _ hjoin
        have hbel : Raised analysis unit (update invMap s (some pre)) invMap := by
          refine ⟨s, hkeys.1, some pre, rfl, ?_⟩
          rw [hold]
          exact ⟨post, hjoin⟩
        dsimp only at hrest
        split at hrest
        · rename_i hback
          cases hrest
          exact ⟨hfst, .back mem_cons_self hback (fun x hne => .inl (update_of_ne hne _ _))
            (.single hbel)⟩
        · rename_i hback
          obtain ⟨hgrows, hprop⟩ := ih hkeys.2 hrest
          exact ⟨hfst.trans hlaw hgrows, hprop.cons hlaw hgrows (update_self _ _ _) hright
            (fun x => .cons (.inr (Bool.eq_false_iff.mpr hback))) (.single hbel)⟩

end Propagation

section MainLoop

variable {initialState : State}

variable (analysis unit le initialState) in
/-- The main loop has made the blocks before the next one stable. -/
structure Progress (finished rest : List ℕ) (invMap : InvariantMap State) : Prop where
  order : VMControlFlowGraph.traversalOrder unit = finished ++ rest
  entry : ∃ pre, invMap VMControlFlowGraph.entryBlockId = some pre ∧ le initialState pre
  stable : ∀ block ∈ finished, Stable analysis unit le invMap block

variable {finished rest : List ℕ} {block : ℕ}

lemma Progress.reached
    (h : Progress analysis unit le initialState finished (block :: rest) invMap) :
    ∃ pre, invMap block = some pre := by
  have hord := traversalOrder_new unit
  have hmem : block ∈ traversalOrder unit := by
    rw [h.order]
    simp
  rcases hord.parent block hmem with rfl | ⟨u, hsucc, hsub⟩
  · obtain ⟨pre, hpre, -⟩ := h.entry
    exact ⟨pre, hpre⟩
  · have hnd := hord.nodup
    rw [h.order] at hnd hsub
    obtain ⟨_, _, _, _, hall⟩ := h.stable u (DepthFirst.mem_of_pair_sublist_left hnd hsub)
    obtain ⟨pre, hpre, -⟩ := hall block hsucc
    exact ⟨pre, hpre⟩

variable {invMap' : InvariantMap State}

section

variable (hlaw : analysis.Lawful le)
include hlaw

lemma Stable.mono (h : Stable analysis unit le invMap block)
    (hsame : invMap' block = invMap block) (hgrows : Grows le invMap invMap') :
    Stable analysis unit le invMap' block := by
  obtain ⟨pre, post, hpre, hpost, hall⟩ := h
  refine ⟨pre, post, hsame.trans hpre, hpost, fun s hs => ?_⟩
  obtain ⟨pre', hpre', hle⟩ := hall s hs
  obtain ⟨pre'', hpre'', hle'⟩ := hgrows s pre' hpre'
  exact ⟨pre'', hpre'', hlaw.trans _ _ _ hle hle'⟩

/-- One round: the blocks before the new next one are stable, and the states went up or the loop
went on. -/
lemma analyzeBlock_progress
    {next : Option ℕ} (h : Progress analysis unit le initialState finished (block :: rest) invMap)
    (hrd : analyzeBlock analysis unit invMap block = .ok (invMap', next)) :
    ∃ finished' rest', Progress analysis unit le initialState finished' rest' invMap' ∧
      next = rest'.head? ∧
      (Relation.TransGen (Raised analysis unit) invMap' invMap ∨
        (invMap' = invMap ∧ rest'.length < (block :: rest).length)) := by
  have hord := traversalOrder_new unit
  have hnd := hord.nodup
  rw [h.order] at hnd
  have hmem : block ∈ traversalOrder unit := by
    rw [h.order]
    simp
  obtain ⟨pre, hpre⟩ := h.reached
  unfold analyzeBlock at hrd
  rw [hpre] at hrd
  obtain ⟨post, hpost, hprop⟩ := bind_eq_ok.mp hrd
  rw [nextBlock_new h.order] at hprop
  obtain ⟨hgrows, hpropagated⟩ := propagate_spec hlaw (hord.closed block hmem) hprop
  -- A block that was reached and does not come later keeps its state.
  have hkeep : ∀ x ∈ finished ++ [block], invMap x ≠ none →
      OnlyForward unit block ((new unit).successors block) invMap invMap' x → invMap' x = invMap x := by
    rintro x hx hrch (hsame | ⟨hsucc, hnone | hback⟩)
    · exact hsame
    · exact absurd hnone hrch
    · have hsub := hord.forward block hmem x hsucc (by simp [hback])
      rw [h.order] at hsub
      have hrest := DepthFirst.mem_of_pair_sublist hnd hsub
      rw [append_cons] at hnd
      exact absurd rfl ((nodup_append.mp hnd).2.2 x hx x hrest)
  have hrch : ∀ x ∈ finished, invMap x ≠ none := by
    intro x hx
    obtain ⟨pre', _, hpre', _⟩ := h.stable x hx
    rw [hpre']
    exact some_ne_none _
  have hent : ∃ pre, invMap' entryBlockId = some pre ∧ le initialState pre := by
    obtain ⟨p, hp, hle⟩ := h.entry
    obtain ⟨p', hp', hle'⟩ := hgrows _ p hp
    exact ⟨p', hp', hlaw.trans _ _ _ hle hle'⟩
  have hstable : ∀ x ∈ finished, OnlyForward unit block ((new unit).successors block) invMap invMap' x →
      Stable analysis unit le invMap' x := fun x hx hforw =>
    (h.stable x hx).mono hlaw (hkeep x (mem_append_left _ hx) (hrch x hx) hforw) hgrows
  cases hpropagated with
  | all hall hforw hch =>
    refine ⟨finished ++ [block], rest, ⟨by rw [h.order]; simp, hent, fun x hx => ?_⟩, rfl, ?_⟩
    · rcases mem_append.mp hx with hx | hx
      · exact hstable x hx (hforw x)
      · obtain rfl := mem_singleton.mp hx
        have hsame := hkeep x (by simp) (by rw [hpre]; exact some_ne_none _) (hforw x)
        exact ⟨pre, post, hsame.trans hpre, hpost, hall⟩
    · rcases Relation.reflTransGen_iff_eq_or_transGen.mp hch with heq | hch
      · exact .inr ⟨heq.symm, by simp⟩
      · exact .inl hch
  | @back t ht hback hforw hch =>
    rcases hord.backward block t hback with rfl | hsub
    · refine ⟨finished, block :: rest, ⟨h.order, hent, fun x hx => hstable x hx (hforw x ?_)⟩,
        rfl, .inl hch⟩
      rintro rfl
      exact absurd rfl ((nodup_append.mp hnd).2.2 x hx x mem_cons_self)
    · rw [h.order] at hsub
      obtain ⟨f₁, f₂, rfl⟩ := append_of_mem (DepthFirst.mem_of_pair_sublist_left hnd hsub)
      refine ⟨f₁, t :: f₂ ++ block :: rest,
        ⟨by rw [h.order]; simp, hent, fun x hx => hstable x (mem_append_left _ hx) (hforw x ?_)⟩,
        rfl, .inl hch⟩
      rintro rfl
      have hnd' := (nodup_append.mp hnd).1
      exact absurd rfl ((nodup_append.mp hnd').2.2 x hx x mem_cons_self)

section

variable (h : Progress analysis unit le initialState finished rest invMap)

include h

/-- The loop ends: no infinite chain of changes leads back again and again. -/
lemma exists_analyzeLoop :
    ∃ fuel result, analyzeLoop analysis unit fuel invMap rest.head? = some result := by
  have hwf := (WellFounded.transGen
    (wellFounded_tableBelow hlaw.wellFounded (traversalOrder_new unit).nodup)).prod_lex
    (wellFounded_lt (α := ℕ))
  suffices haux : ∀ p : InvariantMap State × ℕ,
    ∀ finished rest, Progress analysis unit le initialState finished rest p.1 → rest.length = p.2 →
      ∃ fuel result, analyzeLoop analysis unit fuel p.1 rest.head? =
        some result from haux (invMap, rest.length) finished rest h rfl
  intro p
  induction p using hwf.induction with
  | h p ih =>
    intro finished rest h hlen
    cases rest with
    | nil => exact ⟨0, .ok p.1, rfl⟩
    | cons block rest =>
      cases hrd : analyzeBlock analysis unit p.1 block with
      | error e => exact ⟨1, .error e, by simp [analyzeLoop, hrd]⟩
      | ok result =>
        obtain ⟨invMap', next⟩ := result
        obtain ⟨finished', rest', hprog, rfl, hdescent⟩ := analyzeBlock_progress hlaw h hrd
        have hlex : Prod.Lex (Relation.TransGen (Raised analysis unit)) (· < ·)
            (invMap', rest'.length) p := by
          rcases hdescent with hch | ⟨rfl, hlt⟩
          · exact .left _ _ hch
          · exact .right _ (by omega)
        obtain ⟨fuel, result, hres⟩ := ih (invMap', rest'.length) hlex finished' rest' hprog rfl
        exact ⟨fuel + 1, result, by simpa [analyzeLoop, hrd] using hres⟩

variable {fuel : ℕ}

lemma Progress.of_analyzeLoop
    (hloop : analyzeLoop analysis unit fuel invMap rest.head? = some (.ok invMap')) :
    Progress analysis unit le initialState (traversalOrder unit) [] invMap' := by
  induction fuel generalizing finished rest invMap with
  | zero =>
    cases rest with
    | nil =>
      cases hloop
      have hall : traversalOrder unit = finished := h.order.trans (append_nil _)
      rwa [hall]
    | cons block rest => cases hloop
  | succ fuel ih =>
    cases rest with
    | nil =>
      cases hloop
      have hall : traversalOrder unit = finished := h.order.trans (append_nil _)
      rwa [hall]
    | cons block rest =>
      rw [List.head?_cons, analyzeLoop] at hloop
      split at hloop
      · cases some.inj hloop
      · rename_i invMap₁ next hrd
        obtain ⟨finished', rest', hprog, rfl, -⟩ := analyzeBlock_progress hlaw h hrd
        exact ih hprog hloop

end

lemma Progress.start : ∃ rest, Progress analysis unit le initialState [] rest
    (update (fun _ => none) entryBlockId (some initialState)) ∧ rest.head? = some entryBlockId :=
  ⟨traversalOrder unit, ⟨rfl, ⟨initialState, update_self _ _ _, hlaw.refl _⟩, by simp⟩,
    (traversalOrder_new unit).head⟩

omit hlaw in
lemma ReachableBlock.mem_traversalOrder (h : ReachableBlock unit block) :
    block ∈ traversalOrder unit := by
  have hord := traversalOrder_new unit
  induction h with
  | entry => exact mem_of_mem_head? hord.head
  | next _ hsucc ih => exact hord.closed _ ih _ hsucc

lemma analyzeFunction_stable
    (h : analyzeFunction analysis unit initialState fuel = some (.ok invMap)) :
    (∃ pre, invMap entryBlockId = some pre ∧ le initialState pre) ∧
      ∀ block, ReachableBlock unit block → Stable analysis unit le invMap block := by
  obtain ⟨rest, hst, hhead⟩ := @Progress.start Op State Error analysis unit le initialState hlaw
  unfold analyzeFunction at h
  rw [← hhead] at h
  have hprog := hst.of_analyzeLoop hlaw h
  exact ⟨hprog.entry, fun block hblk => hprog.stable block hblk.mem_traversalOrder⟩

lemma exists_analyzeFunction :
    ∃ fuel result, analyzeFunction analysis unit initialState fuel = some result := by
  obtain ⟨rest, hst, hhead⟩ := @Progress.start Op State Error analysis unit le initialState hlaw
  obtain ⟨fuel, result, h⟩ := exists_analyzeLoop hlaw hst
  rw [hhead] at h
  exact ⟨fuel, result, h⟩

end

end MainLoop

section States

variable {block : ℕ}

lemma ReachableBlock.mem_keys (h : ReachableBlock unit block) :
    block ∈ unit.basicBlocks.map Prod.fst := by
  cases h with
  | entry => exact CodeUnit.mem_keys_basicBlocks.mpr ⟨CodeUnit.length_pos, .inl rfl⟩
  | next _ hsucc => exact CodeUnit.successorsIn_closed hsucc

variable (analysis unit) in
def executeAt (lastIndex : ℕ) (state : State) (offset : ℕ) : Except Error State :=
  match unit.code[offset]? with
  | some instr => analysis.execute state instr offset lastIndex
  | none => .ok state

lemma executeBlock_eq (block : ℕ) (pre : State) :
    executeBlock analysis unit block pre =
      (List.range' block ((new unit).blockEnd block + 1 - block)).foldlM
      (executeAt analysis unit ((new unit).blockEnd block)) pre := rfl

variable {lastIndex : ℕ} {state : State}

lemma executeAt_of_getElem? {offset : ℕ} {instr : Bytecode Op} (h : unit.code[offset]? = some instr) :
    executeAt analysis unit lastIndex state offset = analysis.execute state instr offset lastIndex := by
  rw [executeAt, h]

variable (analysis unit) in
/-- A property of the states before instructions that execution and joins keep. -/
structure Kept (P : ℕ → State → Prop) : Prop where
  execute : ∀ pc state instr lastIndex state' pc', P pc state → unit.code[pc]? = some instr →
    analysis.execute state instr pc lastIndex = .ok state' → unit.Flow pc pc' → P pc' state'
  join : ∀ pc a b c r, P pc a → P pc b → analysis.join a b = .ok (c, r) → P pc c
  join_ok : ∀ a b, ∃ c, analysis.join a b = .ok c

variable (analysis unit) in
def FailsAt (P : ℕ → State → Prop) (e : Error) : Prop :=
  ∃ pc state instr lastIndex, P pc state ∧ unit.code[pc]? = some instr ∧
    analysis.execute state instr pc lastIndex = .error e

def Holds (unit : CodeUnit Op) (P : ℕ → State → Prop) (invMap : InvariantMap State) : Prop :=
  ∀ block pre, invMap block = some pre → ReachableBlock unit block ∧ P block pre

variable {P : ℕ → State → Prop} {pre : State}

lemma Holds.update (h : Holds unit P invMap) (hrch : ReachableBlock unit block)
    (hpre : P block pre) : Holds unit P (update invMap block (some pre)) := by
  intro x p hp
  by_cases heq : x = block
  · subst heq
    rw [update_self] at hp
    cases hp
    exact ⟨hrch, hpre⟩
  · rw [update_of_ne heq] at hp
    exact h x p hp

variable {pc : ℕ}

section

variable (hkept : Kept analysis unit P)

include hkept

lemma executeAt_kept (hlt : pc < unit.code.length) (hP : P pc state) :
    (∀ post, executeAt analysis unit lastIndex state pc = .ok post →
      ∀ pc', unit.Flow pc pc' → P pc' post) ∧
      ∀ e, executeAt analysis unit lastIndex state pc = .error e → FailsAt analysis unit P e := by
  have hinstr := List.getElem?_eq_getElem hlt
  rw [executeAt_of_getElem? hinstr]
  exact ⟨fun post hpost pc' => hkept.execute pc state _ lastIndex post pc' hP hinstr hpost,
    fun e he => ⟨pc, state, _, lastIndex, hP, hinstr, he⟩⟩

lemma foldlM_executeAt_kept {exit k : ℕ} (hexit : exit < unit.code.length)
    (hin : ∀ q, pc ≤ q → q < exit → ¬ unit.IsEndOfBlock q) (hk : pc + k = exit) (hP : P pc state) :
    (∀ post, (List.range' pc (k + 1)).foldlM (executeAt analysis unit lastIndex) state = .ok post →
      ∀ pc', unit.Flow exit pc' → P pc' post) ∧
      ∀ e, (List.range' pc (k + 1)).foldlM (executeAt analysis unit lastIndex) state = .error e →
        FailsAt analysis unit P e := by
  induction k generalizing pc state with
  | zero =>
    obtain rfl : pc = exit := hk
    have hone : (List.range' pc 1).foldlM (executeAt analysis unit lastIndex) state =
        executeAt analysis unit lastIndex state pc := bind_pure _
    rw [zero_add, hone]
    exact executeAt_kept hkept hexit hP
  | succ k ih =>
    have hlt : pc < unit.code.length := by omega
    obtain ⟨hok, herror⟩ := executeAt_kept hkept hlt hP
    rw [List.range'_succ, foldlM_cons]
    cases hexec : executeAt analysis unit lastIndex state pc with
    | error e =>
      refine ⟨fun post hpost => ?_, fun e' he => ?_⟩
      · cases hpost
      · cases he
        exact herror e hexec
    | ok state' =>
      have hflow := (CodeUnit.flow_of_not_isEndOfBlock hlt (hin pc le_rfl (by omega))).mpr rfl
      exact ih (fun q hq => hin q (by omega)) (by omega) (hok state' hexec _ hflow)

lemma executeBlock_kept (hrch : ReachableBlock unit block) (hP : P block pre) :
    (∀ post, executeBlock analysis unit block pre = .ok post →
      ∀ s ∈ (new unit).successors block, P s post) ∧
      ∀ e, executeBlock analysis unit block pre = .error e → FailsAt analysis unit P e := by
  obtain ⟨hblk, hsucc⟩ := isBlock_of_mem_keys hrch.mem_keys
  have hle := hblk.le
  have hlen : (new unit).blockEnd block + 1 - block = (new unit).blockEnd block - block + 1 := by omega
  rw [executeBlock_eq, hlen]
  have hfold :=
    @foldlM_executeAt_kept _ _ _ _ _ ((new unit).blockEnd block) _ _ _ hkept
      _ _ hblk.exit_lt hblk.rest
    (Nat.add_sub_cancel' hle) hP
  exact ⟨fun post hpost s hs => hfold.1 post hpost s ((hsucc s).mp hs), hfold.2⟩

lemma propagate_holds {post : State} {successors : List ℕ}
    {candidate : Option ℕ} (h : Holds unit P invMap)
    (hsucc : ∀ s ∈ successors, ReachableBlock unit s ∧ P s post) :
    ∃ invMap' next, propagate analysis unit block post successors invMap candidate =
      .ok (invMap', next) ∧ Holds unit P invMap' := by
  induction successors generalizing invMap with
  | nil => exact ⟨invMap, candidate, rfl, h⟩
  | cons s successors ih =>
    rw [forall_mem_cons] at hsucc
    rw [propagate]
    cases hold : invMap s with
    | none => exact ih (h.update hsucc.1.1 hsucc.1.2) hsucc.2
    | some old =>
      obtain ⟨⟨pre, joinResult⟩, hjoin⟩ := hkept.join_ok old post
      have hupdated :=
        h.update hsucc.1.1 (hkept.join s old post pre joinResult (h s old hold).2 hsucc.1.2 hjoin)
      dsimp only
      rw [hjoin, ok_bind]
      cases joinResult with
      | unchanged => exact ih hupdated hsucc.2
      | changed =>
        dsimp only
        split
        · exact ⟨_, _, rfl, hupdated⟩
        · exact ih hupdated hsucc.2

lemma failsAt_of_analyzeLoop {fuel : ℕ} {next : Option ℕ} {e : Error}
    (h : Holds unit P invMap) (hloop : analyzeLoop analysis unit fuel invMap next =
      some (.error e)) : FailsAt analysis unit P e := by
  induction fuel generalizing invMap next with
  | zero =>
    cases next with
    | none => cases some.inj hloop
    | some block => cases hloop
  | succ fuel ih =>
    cases next with
    | none => cases some.inj hloop
    | some block =>
      rw [analyzeLoop, analyzeBlock] at hloop
      cases hpre : invMap block with
      | none =>
        rw [hpre] at hloop
        exact ih h hloop
      | some pre =>
        obtain ⟨hrch, hP⟩ := h block pre hpre
        obtain ⟨hok, herror⟩ := executeBlock_kept hkept hrch hP
        rw [hpre] at hloop
        dsimp only at hloop
        cases hpost : executeBlock analysis unit block pre with
        | error e' =>
          rw [hpost, error_bind] at hloop
          obtain rfl := Except.error.inj (some.inj hloop)
          exact herror e' hpost
        | ok post =>
          obtain ⟨invMap', next', hprop, hholds⟩ :=
            @propagate_holds _ _ _ _ _ invMap block _ hkept post _
            ((new unit).nextBlock block) h fun s hs => ⟨.next hrch hs, hok post hpost s hs⟩
          rw [hpost, ok_bind, hprop] at hloop
          exact ih hholds hloop

end

/-- An error of the analysis comes from an instruction at a state with the property. -/
theorem failsAt_of_analyzeFunction (hkept : Kept analysis unit P) {initialState : State}
    {fuel : ℕ} {e : Error} (hinit : P entryBlockId initialState)
    (h : analyzeFunction analysis unit initialState fuel = some (.error e)) :
    FailsAt analysis unit P e := by
  have hempty : Holds unit P fun _ => none := fun block pre hpre => nomatch hpre
  exact failsAt_of_analyzeLoop hkept (hempty.update .entry hinit) h

/-- The paths of control flow from the entry, on which every branch is possible. A step of an
instruction takes a concrete state to the next. -/
inductive FlowPath {C : Type} (unit : CodeUnit Op) (step : Bytecode Op → C → C → Prop)
    (initial : C) : ℕ → C → Prop
  | entry : FlowPath unit step initial 0 initial
  | next {pc pc' : ℕ} {c c' : C} {instr : Bytecode Op} :
      FlowPath unit step initial pc c → unit.code[pc]? = some instr → step instr c c' →
    unit.Flow pc pc' → FlowPath unit step initial pc' c'

/-- Abstract states stand for concrete ones, and execution follows the steps. -/
structure Concretization {C : Type} (analysis : Analysis Op State Error) (unit : CodeUnit Op)
    (le : State → State → Prop)
    (step : Bytecode Op → C → C → Prop) (γ : State → C → Prop) : Prop where
  mono : ∀ a b c, le a b → γ a c → γ b c
  execute : ∀ pc state instr lastIndex state' c c', unit.code[pc]? = some instr →
    analysis.execute state instr pc lastIndex = .ok state' →
    γ state c → step instr c c' → γ state' c'

variable (analysis unit invMap block pc) in
/-- The abstract state that the analysis has at an offset, from the state before its block. -/
def StateAt (state : State) : Prop :=
  ReachableBlock unit block ∧ block ≤ pc ∧ pc ≤ (VMControlFlowGraph.new unit).blockEnd block ∧
    ∃ pre, invMap block = some pre ∧
    (List.range' block (pc - block)).foldlM
      (executeAt analysis unit ((VMControlFlowGraph.new unit).blockEnd block)) pre = .ok state

lemma StateAt.start (hrch : ReachableBlock unit block) (hpre : invMap block = some pre) :
    StateAt analysis unit invMap block block pre := by
  obtain ⟨hblk, -⟩ := isBlock_of_mem_keys hrch.mem_keys
  refine ⟨hrch, le_rfl, hblk.le, pre, hpre, ?_⟩
  rw [Nat.sub_self]
  rfl

/-- The instruction at a state of a stable block has been executed, and the state after it is below
those at the next offsets. -/
lemma StateAt.next (hlaw : analysis.Lawful le) (h : StateAt analysis unit invMap block pc state)
    (hstable : ∀ block, ReachableBlock unit block → Stable analysis unit le invMap block) :
    ∃ state', executeAt analysis unit ((new unit).blockEnd block) state pc = .ok state' ∧
      ∀ pc', unit.Flow pc pc' → ∃ block' next, StateAt analysis unit invMap block' pc' next ∧
        le state' next := by
  obtain ⟨hrch, hle, hend, pre, hpre, hfold⟩ := h
  obtain ⟨hblk, hsucc⟩ := isBlock_of_mem_keys hrch.mem_keys
  obtain ⟨pre', post, hpre', hpost, hall⟩ := hstable block hrch
  obtain rfl := some.inj (hpre.symm.trans hpre')
  have hspl : List.range' block ((new unit).blockEnd block + 1 - block) =
      List.range' block (pc - block) ++
        (pc :: List.range' (pc + 1) ((new unit).blockEnd block - pc)) := by
    have hst : pc = block + (pc - block) := by omega
    have hlen : (new unit).blockEnd block + 1 - block =
        pc - block + ((new unit).blockEnd block - pc + 1) := by omega
    rw [← List.range'_succ, hlen, ← List.range'_append_1, ← hst]
  rw [executeBlock_eq, hspl, foldlM_append, hfold, ok_bind, foldlM_cons] at hpost
  obtain ⟨state', hstate', hrest⟩ := bind_eq_ok.mp hpost
  refine ⟨state', hstate', fun pc' hflow => ?_⟩
  rcases hend.lt_or_eq with hlt | rfl
  · -- Control stays in the block.
    obtain rfl :=
      (CodeUnit.flow_of_not_isEndOfBlock (hlt.trans hblk.exit_lt) (hblk.rest pc hle hlt)).mp hflow
    refine ⟨block, state', ⟨hrch, by omega, hlt, pre, hpre, ?_⟩, hlaw.refl _⟩
    rw [Nat.succ_sub hle, List.range'_concat, foldlM_append, hfold, ok_bind, foldlM_cons, one_mul,
      Nat.add_sub_cancel' hle, hstate']
    rfl
  · rw [Nat.sub_self] at hrest
    cases hrest
    obtain ⟨next, hnext, hle'⟩ := hall pc' ((hsucc pc').mpr hflow)
    exact ⟨pc', next, .start (.next hrch ((hsucc pc').mpr hflow)) hnext, hle'⟩

/-- If the analysis succeeds then on every path every instruction is executed without an error, at
an abstract state that stands for the concrete one. -/
theorem exists_execute_of_path {C : Type} {step : Bytecode Op → C → C → Prop} {γ : State → C → Prop}
    (hlawful : analysis.Lawful le)
    (hconcrete : Concretization analysis unit le step γ) {initialState : State} {initial : C} {fuel : ℕ}
    (h : analyzeFunction analysis unit initialState fuel = some (.ok invMap))
    (hinit : γ initialState initial) {c : C}
    {instr : Bytecode Op} (hpath : FlowPath unit step initial pc c)
    (hinstr : unit.code[pc]? = some instr) :
    ∃ state lastIndex state', γ state c ∧ analysis.execute state instr pc lastIndex = .ok state' := by
  obtain ⟨⟨pre, hpre, hle⟩, hstable⟩ := analyzeFunction_stable hlawful h
  have hstate : ∃ block state, StateAt analysis unit invMap block pc state ∧ γ state c := by
    clear hinstr
    induction hpath with
    | entry => exact ⟨_, pre, .start .entry hpre, hconcrete.mono _ _ _ hle hinit⟩
    | next _ hinstr' hstep hflow ih =>
      obtain ⟨block, state, hat, hγ⟩ := ih
      obtain ⟨state', hexec, hnext⟩ := hat.next hlawful hstable
      rw [executeAt_of_getElem? hinstr'] at hexec
      obtain ⟨block', next, hat', hle'⟩ := hnext _ hflow
      exact ⟨block', next, hat', hconcrete.mono _ _ _ hle'
        (hconcrete.execute _ _ _ _ _ _ _ hinstr' hexec hγ hstep)⟩
  obtain ⟨block, state, hat, hγ⟩ := hstate
  obtain ⟨state', hexec, -⟩ := hat.next hlawful hstable
  rw [executeAt_of_getElem? hinstr] at hexec
  exact ⟨state, _, state', hγ, hexec⟩

end States

/-- The abstract interpreter ends for every code unit, lawful domain and transfer
function, and if it succeeds then the states it has computed are a fixpoint on the blocks
reachable from the entry. -/
theorem analyze_function_computes_fixpoint (unit : CodeUnit Op) (analysis : Analysis Op State Error)
    (le : State → State → Prop) (hlawful : analysis.Lawful le) (initialState : State) :
    (∃ fuel result, analyzeFunction analysis unit initialState fuel = some result) ∧
    ∀ fuel invMap, analyzeFunction analysis unit initialState fuel = some (.ok invMap) →
      (∃ pre, invMap VMControlFlowGraph.entryBlockId = some pre ∧ le initialState pre) ∧
      ∀ block, ReachableBlock unit block →
        ∃ pre post, invMap block = some pre ∧ executeBlock analysis unit block pre = .ok post ∧
        ∀ successor ∈ (VMControlFlowGraph.new unit).successors block,
          ∃ pre', invMap successor = some pre' ∧ le post pre' :=
  ⟨exists_analyzeFunction hlawful, fun _ _ h => analyzeFunction_stable hlawful h⟩

namespace Example

def loopUnit : CodeUnit Unit where
  code := [.op (), .brTrue 0, .ret]
  jumpTables := []
  length_lt := by decide
  checked := by decide
  fallthrough := by decide

/-- Whether an instruction other than a branch may have been executed. -/
def mayRun : Analysis Unit Bool Empty where
  join a b := .ok (a || b, if a || !b then .unchanged else .changed)
  execute state instr _ _ := .ok (state || match instr with
    | .op _ => true
    | _ => false)

lemma mayRun_lawful : mayRun.Lawful (· ≤ ·) where
  refl := le_refl
  trans := fun _ _ _ => le_trans
  left_le := by
    rintro a b c r h
    cases h
    exact Bool.left_le_or a b
  right_le := by
    rintro a b c r h
    cases h
    exact Bool.right_le_or a b
  unchanged := by
    intro a b c h
    obtain ⟨rfl, h⟩ := Prod.mk.inj (Except.ok.inj h)
    revert h
    cases a <;> cases b <;> decide
  wellFounded := by
    refine Subrelation.wf ?_ (wellFounded_gt (α := Bool))
    rintro c a ⟨b, h⟩
    obtain ⟨rfl, h⟩ := Prod.mk.inj (Except.ok.inj h)
    revert h
    cases a <;> cases b <;> decide

end Example

/-- The states of a loop are a fixpoint. -/
theorem loop_analysis_fixpoint :
    ∃ fuel invMap, analyzeFunction Example.mayRun Example.loopUnit false fuel = some (.ok invMap) ∧
    (∃ pre, invMap 0 = some pre ∧ false ≤ pre) ∧
    ∃ pre post, invMap 2 = some pre ∧ executeBlock Example.mayRun Example.loopUnit 2 pre = .ok post := by
  have hrun : (analyzeFunction Example.mayRun Example.loopUnit false 10).map Except.isOk =
      some true := by decide +kernel
  obtain ⟨result, hresult, hok⟩ := map_eq_some_iff.mp hrun
  obtain ⟨invMap, rfl⟩ := exists_eq_ok_of_isOk hok
  obtain ⟨-, hfixpoint⟩ :=
    analyze_function_computes_fixpoint Example.loopUnit Example.mayRun
      (· ≤ ·) Example.mayRun_lawful false
  obtain ⟨hentry, hstable⟩ := hfixpoint 10 invMap hresult
  have hreachable : ReachableBlock Example.loopUnit 2 := .next .entry (by decide +kernel)
  obtain ⟨pre, post, hpre, hpost, -⟩ := hstable 2 hreachable
  exact ⟨10, invMap, hresult, hentry, pre, post, hpre, hpost⟩

namespace Example

def branchUnit : CodeUnit Unit where
  code := [.brTrue 3, .op (), .branch 0, .ret]
  jumpTables := []
  length_lt := by decide
  checked := by decide
  fallthrough := by decide

/-- The join of `id_leak_verifier.rs` for one local, with `true` for `AbstractValue::Other`. A
missing local is stored as `Other`, and no change is reported. -/
def joinLocal (self state : Option Bool) : Option Bool × JoinResult :=
  match state with
  | none => (self, .unchanged)
  | some value =>
    let oldValue := self.getD true
    let newValue := if value = oldValue then value else true
    (some newValue, if newValue = oldValue then .unchanged else .changed)

def localBelow (a b : Option Bool) : Prop := a.elim true (fun a => b.elim false fun b => a ≤ b) = true

instance (a b : Option Bool) : Decidable (localBelow a b) := inferInstanceAs (Decidable (_ = true))

def idLeak : Analysis Unit (Option Bool) Empty where
  join self state := .ok (joinLocal self state)
  execute
    | _, .op _, _, _ => .ok (some false)
    | state, _, _, _ => .ok state

lemma idLeak_upperBounds : idLeak.UpperBounds localBelow where
  refl := by decide
  trans := by decide
  left_le := by
    have hle : ∀ a b, localBelow a (joinLocal a b).1 := by decide
    intro a b c r h
    simpa [Except.ok.inj h] using hle a b
  right_le := by
    have hle : ∀ a b, localBelow b (joinLocal a b).1 := by decide
    intro a b c r h
    simpa [Except.ok.inj h] using hle a b
  wellFounded := by
    refine Subrelation.wf ?_ (measure fun a : Option Bool => if a = some true then 0 else 1).wf
    have hchanged : ∀ a b, (joinLocal a b).2 = .changed → (joinLocal a b).1 = some true ∧
        a ≠ some true := by decide
    rintro c a ⟨b, h⟩
    have hjoin := hchanged a b
    rw [Except.ok.inj h] at hjoin
    obtain ⟨rfl, ha⟩ := hjoin rfl
    change (if some true = some true then 0 else 1) < if a = some true then 0 else 1
    simp [ha]

end Example

/-- A join that changes the state and reports no change: the entry is not executed again, and the
states are no fixpoint. -/
theorem missing_local_no_fixpoint : Example.idLeak.UpperBounds Example.localBelow ∧
    ∃ fuel invMap, analyzeFunction Example.idLeak Example.branchUnit none fuel = some (.ok invMap) ∧
      ¬Stable Example.idLeak Example.branchUnit Example.localBelow invMap
        VMControlFlowGraph.entryBlockId := by
  have hrun : ((analyzeFunction Example.idLeak Example.branchUnit none 10).bind Except.toOption).map
      (fun invMap => (invMap 0, invMap 3)) = some (some (some true), some none) := by decide +kernel
  obtain ⟨invMap, hok, hstates⟩ := map_eq_some_iff.mp hrun
  obtain ⟨result, hresult, hok⟩ := bind_eq_some_iff.mp hok
  obtain ⟨hentry, hret⟩ := Prod.mk.inj hstates
  refine ⟨Example.idLeak_upperBounds, 10, invMap, ?_, ?_⟩
  · cases result with
    | error e => cases e
    | ok invMap' => rw [hresult, some.inj hok]
  · rintro ⟨pre, post, hpre, hpost, hall⟩
    obtain rfl := some.inj (hentry.symm.trans hpre)
    obtain ⟨pre', hpre', hle⟩ := hall 3 (by decide +kernel)
    obtain rfl := some.inj (hret.symm.trans hpre')
    have hexec : (executeBlock Example.idLeak Example.branchUnit entryBlockId
        (some true)).toOption = some (some true) := by decide +kernel
    rw [hpost] at hexec
    obtain rfl := some.inj hexec
    exact absurd hle (by decide)

end SuiProofs.Move

import SuiProofs.Library.DepthFirst

/-! Models `control_flow_graph.rs` of `move-abstract-interpreter`. A code unit has passed the bounds
check and cannot fall off its end. -/

namespace SuiProofs.Move

open Library List

/-- The instructions. Those that always go on to the next one are a parameter. -/
inductive Bytecode (Op : Type) where
  | ret
  | abort
  | branch (offset : ℕ)
  | brTrue (offset : ℕ)
  | brFalse (offset : ℕ)
  | variantSwitch (jumpTable : ℕ)
  | op (op : Op)
deriving DecidableEq, Repr

variable {Op : Type}

namespace Bytecode

def isUnconditionalBranch : Bytecode Op → Bool
  | ret | abort | branch _ | variantSwitch _ => true
  | _ => false

def isConditionalBranch : Bytecode Op → Bool
  | brTrue _ | brFalse _ => true
  | _ => false

def isBranch (instr : Bytecode Op) : Bool := instr.isConditionalBranch || instr.isUnconditionalBranch

/-- The offsets an instruction branches to. The bounds check has found the jump table. -/
def offsets (jumpTables : List (List ℕ)) : Bytecode Op → List ℕ
  | branch offset | brTrue offset | brFalse offset => [offset]
  | variantSwitch jumpTable => jumpTables.getD jumpTable []
  | _ => []

def checkBounds (jumpTables : List (List ℕ)) (codeLen : ℕ) : Bytecode Op → Bool
  | branch offset | brTrue offset | brFalse offset => offset < codeLen
  | variantSwitch jumpTable => jumpTable < jumpTables.length
  | _ => true

end Bytecode

def checkCode (code : List (Bytecode Op)) (jumpTables : List (List ℕ)) : Bool :=
  code.all (Bytecode.checkBounds jumpTables code.length) && jumpTables.all fun table =>
    table.all (· < code.length)

def verifyFallthrough (code : List (Bytecode Op)) : Bool :=
  match code.getLast? with
  | none => false
  | some last => last.isUnconditionalBranch

/-- The code of a function that has passed the checks. Offsets are of 16 bits. -/
structure CodeUnit (Op : Type) where
  code : List (Bytecode Op)
  jumpTables : List (List ℕ)
  length_lt : code.length < 2 ^ 16
  checked : checkCode code jumpTables = true
  fallthrough : verifyFallthrough code = true

structure BasicBlock where
  exit : ℕ
  successors : List ℕ
deriving DecidableEq, Repr

structure VMControlFlowGraph where
  blocks : List (ℕ × BasicBlock)
  /-- The traversal order, as pairs of a block and the next one. -/
  traversalSuccessors : List (ℕ × ℕ)
  loopHeads : ℕ → Finset ℕ

namespace CodeUnit

variable (unit : CodeUnit Op)

def offsetsAt (pc : ℕ) : List ℕ := (unit.code[pc]?.map (Bytecode.offsets unit.jumpTables)).getD []

def isBranchAt (pc : ℕ) : Bool := unit.code[pc]?.any Bytecode.isBranch

/-- `Bytecode::get_successors`. -/
def getSuccessors (pc : ℕ) : List ℕ :=
  let v := unit.offsetsAt pc
  let nextPc := pc + 1
  if unit.code.length ≤ nextPc then v
  else
    let v := if !(unit.code[pc]?.any Bytecode.isUnconditionalBranch) && !v.contains nextPc then
      v ++ [nextPc] else v
    v.insertionSort (· ≤ ·)

def recordBlockIds (blockIds : Finset ℕ) (pc : ℕ) : Finset ℕ :=
  let blockIds := blockIds ∪ (unit.offsetsAt pc).toFinset
  if unit.isBranchAt pc ∧ pc + 1 < unit.code.length then insert (pc + 1) blockIds else blockIds

def blockIds : Finset ℕ := (List.range unit.code.length).foldl unit.recordBlockIds {0}

def IsEndOfBlock (pc : ℕ) : Prop := pc + 1 = unit.code.length ∨ pc + 1 ∈ unit.blockIds

instance (pc : ℕ) : Decidable (unit.IsEndOfBlock pc) := inferInstanceAs (Decidable (_ ∨ _))

/-- The loop that creates the basic blocks, with the entry of the next one. -/
def createBlock (acc : List (ℕ × BasicBlock) × ℕ) (pc : ℕ) : List (ℕ × BasicBlock) × ℕ :=
  if unit.IsEndOfBlock pc then (acc.1 ++ [(acc.2, ⟨pc, unit.getSuccessors pc⟩)], pc + 1) else acc

def basicBlocks : List (ℕ × BasicBlock) :=
  ((List.range unit.code.length).foldl unit.createBlock ([], 0)).1

end CodeUnit

def successorsIn (blocks : List (ℕ × BasicBlock)) (block : ℕ) : List ℕ :=
  ((blocks.lookup block).map BasicBlock.successors).getD []

namespace VMControlFlowGraph

def entryBlockId : ℕ := 0

/-- The depth-first search of the blocks. It pops an entry of the stack for every block and every
edge, and that of the entry block. -/
def searchBlocks (blocks : List (ℕ × BasicBlock)) : DepthFirst.Search ℕ :=
  DepthFirst.explore (successorsIn blocks)
    (1 + (blocks.map fun b => b.2.successors.length + 1).sum) entryBlockId

def new (unit : CodeUnit Op) : VMControlFlowGraph :=
  let search := searchBlocks unit.basicBlocks
  let traversalOrder := search.postOrder.reverse
  ⟨unit.basicBlocks, traversalOrder.zip traversalOrder.tail, search.loopHeads⟩

variable (cfg : VMControlFlowGraph) (block : ℕ)

def successors : List ℕ := successorsIn cfg.blocks block

def blockEnd : ℕ := ((cfg.blocks.lookup block).map BasicBlock.exit).getD block

def instrIndexes : List ℕ := List.range' block (cfg.blockEnd block + 1 - block)

def nextBlock : Option ℕ := cfg.traversalSuccessors.lookup block

def isBackEdge (cur next : ℕ) : Bool := cur ∈ cfg.loopHeads next

end VMControlFlowGraph

namespace CodeUnit

variable {unit : CodeUnit Op} {pc : ℕ}

lemma length_pos : 0 < unit.code.length := by
  have h := unit.fallthrough
  cases hcode : unit.code with
  | nil =>
    rw [hcode] at h
    cases h
  | cons instr code => simp

lemma offsetsAt_lt {offset : ℕ} (h : offset ∈ unit.offsetsAt pc) : offset < unit.code.length := by
  unfold offsetsAt at h
  cases hinstr : unit.code[pc]? with
  | none =>
    rw [hinstr] at h
    cases h
  | some instr =>
    rw [hinstr, Option.map_some, Option.getD_some] at h
    have hchk := unit.checked
    unfold checkCode at hchk
    rw [Bool.and_eq_true, all_eq_true, all_eq_true] at hchk
    have hinstr := hchk.1 instr (mem_of_getElem? hinstr)
    cases instr with
    | branch o | brTrue o | brFalse o =>
      obtain rfl := mem_singleton.mp h
      exact of_decide_eq_true hinstr
    | variantSwitch jt =>
      have hjt : jt < unit.jumpTables.length := of_decide_eq_true hinstr
      rw [Bytecode.offsets, getD_eq_getElem _ _ hjt] at h
      have htb := hchk.2 _ (getElem_mem hjt)
      rw [all_eq_true] at htb
      exact of_decide_eq_true (htb offset h)
    | ret | abort | op _ => cases h

variable {ids : Finset ℕ} {x : ℕ}

lemma mem_recordBlockIds : x ∈ unit.recordBlockIds ids pc ↔
    x ∈ ids ∨ x ∈ unit.offsetsAt pc ∨
      (x = pc + 1 ∧ unit.isBranchAt pc = true ∧ pc + 1 < unit.code.length) := by
  unfold recordBlockIds
  split
  · rename_i h
    rw [Finset.mem_insert, Finset.mem_union, mem_toFinset]
    simp only [h, and_self, and_true]
    tauto
  · rw [Finset.mem_union, mem_toFinset]
    tauto

lemma mem_foldl_recordBlockIds {pcs : List ℕ} : x ∈ pcs.foldl unit.recordBlockIds ids ↔
    x ∈ ids ∨ ∃ pc ∈ pcs, x ∈ unit.offsetsAt pc ∨
      (x = pc + 1 ∧ unit.isBranchAt pc = true ∧ pc + 1 < unit.code.length) := by
  induction pcs generalizing ids with
  | nil => simp
  | cons pc pcs ih =>
    rw [foldl_cons, ih, mem_recordBlockIds, exists_mem_cons_iff, or_assoc]

lemma mem_blockIds : x ∈ unit.blockIds ↔ x = 0 ∨ ∃ pc < unit.code.length,
    x ∈ unit.offsetsAt pc ∨ (x = pc + 1 ∧ unit.isBranchAt pc = true ∧ pc + 1 < unit.code.length) := by
  rw [blockIds, mem_foldl_recordBlockIds, Finset.mem_singleton]
  simp only [mem_range]

lemma lt_of_mem_blockIds (h : x ∈ unit.blockIds) : x < unit.code.length := by
  rcases mem_blockIds.mp h with rfl | ⟨pc, -, hoffset | ⟨rfl, -, hlt⟩⟩
  · exact length_pos
  · exact offsetsAt_lt hoffset
  · exact hlt

lemma mem_blockIds_of_getSuccessors (hpc : pc < unit.code.length) (hend : unit.IsEndOfBlock pc)
    (h : x ∈ unit.getSuccessors pc) :
    x ∈ unit.blockIds := by
  have hoffset : x ∈ unit.offsetsAt pc → x ∈ unit.blockIds := fun hx =>
    mem_blockIds.mpr (.inr ⟨pc, hpc, .inl hx⟩)
  unfold getSuccessors at h
  dsimp only at h
  split at h
  · exact hoffset h
  · rw [mem_insertionSort] at h
    split at h
    · rcases mem_append.mp h with hx | hx
      · exact hoffset hx
      · obtain rfl := mem_singleton.mp hx
        exact hend.resolve_left (by omega)
    · exact hoffset h

/-- Where a basic block begins: at the entry and after the end of another one. -/
def IsStart (unit : CodeUnit Op) (x : ℕ) : Prop := x = 0 ∨ unit.IsEndOfBlock (x - 1)

/-- The blocks that the loop has created when it has seen the instructions before `pc`. -/
structure Created (unit : CodeUnit Op) (pc : ℕ) (acc : List (ℕ × BasicBlock) × ℕ) : Prop where
  le : acc.2 ≤ pc
  start : unit.IsStart acc.2
  rest : ∀ q, acc.2 ≤ q → q < pc → ¬ unit.IsEndOfBlock q
  blocks : ∀ b ∈ acc.1, b.1 ≤ b.2.exit ∧ b.2.exit < acc.2 ∧ unit.IsEndOfBlock b.2.exit ∧
    (∀ q, b.1 ≤ q → q < b.2.exit → ¬ unit.IsEndOfBlock q) ∧ b.2.successors = unit.getSuccessors b.2.exit
  keys : ∀ x, x ∈ acc.1.map Prod.fst ↔ x < acc.2 ∧ unit.IsStart x
  nodup : (acc.1.map Prod.fst).Nodup

lemma Created.step {acc : List (ℕ × BasicBlock) × ℕ} (h : Created unit pc acc) :
    Created unit (pc + 1) (unit.createBlock acc pc) := by
  have hle := h.le
  unfold createBlock
  split
  · rename_i hend
    have hnew : acc.2 ∉ acc.1.map Prod.fst := fun hmem => absurd ((h.keys _).mp hmem).1 (lt_irrefl _)
    refine ⟨le_rfl, .inr hend, fun q hq hlt => by omega, fun b hb => ?_, fun x => ?_, ?_⟩
    · rcases mem_append.mp hb with hb | hb
      · obtain ⟨h1, h2, h3⟩ := h.blocks b hb
        exact ⟨h1, by dsimp only; omega, h3⟩
      · obtain rfl := mem_singleton.mp hb
        exact ⟨hle, Nat.lt_succ_self pc, hend, h.rest, rfl⟩
    · rw [map_append, mem_append, h.keys, map_singleton, mem_singleton]
      constructor
      · rintro (⟨hlt, hx⟩ | rfl)
        · exact ⟨by dsimp only; omega, hx⟩
        · exact ⟨by dsimp only; omega, h.start⟩
      · rintro ⟨hlt, hx⟩
        rcases lt_trichotomy x acc.2 with hlt' | heq | hgt
        · exact .inl ⟨hlt', hx⟩
        · exact .inr heq
        · -- Inside the new block nothing begins.
          refine absurd (hx.resolve_left (by omega)) (h.rest (x - 1) (by omega) ?_)
          omega
    · rw [map_append, nodup_append]
      refine ⟨h.nodup, by simp, fun x hx y hy heq => hnew ?_⟩
      obtain rfl : y = acc.2 := by simpa using hy
      exact heq ▸ hx
  · rename_i hend
    refine ⟨by omega, h.start, fun q hq hlt => ?_, h.blocks, h.keys, h.nodup⟩
    rcases (Nat.lt_succ_iff.mp hlt).lt_or_eq with hlt' | rfl
    · exact h.rest q hq hlt'
    · exact hend

lemma created_range (n : ℕ) : Created unit n ((List.range n).foldl unit.createBlock ([], 0)) := by
  induction n with
  | zero => exact ⟨le_rfl, .inl rfl, fun q _ h =>
      absurd h (Nat.not_lt_zero q), by simp, by simp, by simp⟩
  | succ n ih =>
    rw [range_succ, foldl_append, foldl_cons, foldl_nil]
    exact ih.step

lemma entry_eq_length : ((List.range unit.code.length).foldl unit.createBlock ([], 0)).2 =
    unit.code.length := by
  have h := @created_range Op unit unit.code.length
  by_contra hne
  have hle := h.le
  exact h.rest (unit.code.length - 1) (by omega) (by omega) (.inl (by omega))

lemma mem_keys_basicBlocks : x ∈ unit.basicBlocks.map Prod.fst ↔
    x < unit.code.length ∧ unit.IsStart x := by
  rw [basicBlocks, (created_range unit.code.length).keys, entry_eq_length]

variable {block : BasicBlock}

lemma lookup_basicBlocks : unit.basicBlocks.lookup x = some block ↔ (x, block) ∈ unit.basicBlocks := by
  have hnd : (unit.basicBlocks.map Prod.fst).Nodup := (created_range unit.code.length).nodup
  generalize unit.basicBlocks = blocks at hnd
  induction blocks with
  | nil => simp
  | cons b blocks ih =>
    rw [map_cons, nodup_cons] at hnd
    rw [lookup_cons, mem_cons]
    by_cases hx : x = b.1
    · subst hx
      have hnot : (b.1, block) ∉ blocks := fun hmem => hnd.1 (mem_map.mpr ⟨(b.1, block), hmem, rfl⟩)
      simp [hnot, Prod.ext_iff, eq_comm]
    · have hne : (x, block) ≠ b := fun heq => hx (by rw [← heq])
      rw [beq_false_of_ne hx, or_iff_right hne]
      exact ih hnd.2

/-- A basic block: it ends at its first instruction that ends a block. -/
structure IsBlock (unit : CodeUnit Op) (block : ℕ) (exit : ℕ) : Prop where
  start : unit.IsStart block
  le : block ≤ exit
  exit_lt : exit < unit.code.length
  isEnd : unit.IsEndOfBlock exit
  rest : ∀ q, block ≤ q → q < exit → ¬ unit.IsEndOfBlock q

lemma isBlock_of_lookup (h : unit.basicBlocks.lookup x = some block) :
    unit.IsBlock x block.exit ∧ block.successors = unit.getSuccessors block.exit := by
  have hmem := lookup_basicBlocks.mp h
  obtain ⟨hle, hlt, hend, hrest, hsucc⟩ := (created_range unit.code.length).blocks _ hmem
  rw [entry_eq_length] at hlt
  have hst := (mem_keys_basicBlocks.mp (mem_map_of_mem hmem)).2
  exact ⟨⟨hst, hle, hlt, hend, hrest⟩, hsucc⟩

lemma isStart_of_mem_blockIds (h : x ∈ unit.blockIds) : unit.IsStart x := by
  rcases Nat.eq_zero_or_pos x with rfl | hpos
  · exact .inl rfl
  · refine .inr (.inr ?_)
    rwa [Nat.sub_add_cancel hpos]

lemma successorsIn_closed {u v : ℕ} (hv : v ∈ successorsIn unit.basicBlocks u) :
    v ∈ unit.basicBlocks.map Prod.fst := by
  unfold successorsIn at hv
  cases hlk : unit.basicBlocks.lookup u with
  | none =>
    rw [hlk] at hv
    cases hv
  | some block =>
    rw [hlk, Option.map_some, Option.getD_some] at hv
    obtain ⟨hblk, hsucc⟩ := isBlock_of_lookup hlk
    rw [hsucc] at hv
    have hid := mem_blockIds_of_getSuccessors hblk.exit_lt hblk.isEnd hv
    exact mem_keys_basicBlocks.mpr ⟨lt_of_mem_blockIds hid, isStart_of_mem_blockIds hid⟩

end CodeUnit

namespace CodeUnit

/-- Control may pass from an instruction to another one. Every branch is possible. -/
def Flow (unit : CodeUnit Op) (pc pc' : ℕ) : Prop :=
  match unit.code[pc]? with
  | some (.branch offset) => pc' = offset
  | some (.brTrue offset) | some (.brFalse offset) => pc' = offset ∨ pc' = pc + 1
  | some (.variantSwitch jumpTable) => pc' ∈ unit.jumpTables.getD jumpTable []
  | some (.op _) => pc' = pc + 1
  | some .ret | some .abort | none => False

variable {unit : CodeUnit Op} {pc pc' : ℕ}

lemma isUnconditionalBranch_of_last {instr : Bytecode Op} (h : unit.code[pc]? = some instr)
    (hlast : pc + 1 = unit.code.length) :
    instr.isUnconditionalBranch = true := by
  have hchk := unit.fallthrough
  have hlast' : unit.code.getLast? = some instr := by
    rw [List.getLast?_eq_getElem?, ← hlast, Nat.add_sub_cancel, h]
  rw [verifyFallthrough, hlast'] at hchk
  exact hchk

lemma mem_getSuccessors : pc' ∈ unit.getSuccessors pc ↔ unit.Flow pc pc' := by
  unfold getSuccessors Flow offsetsAt
  cases hinstr : unit.code[pc]? with
  | none =>
    have hlen := List.getElem?_eq_none_iff.mp hinstr
    rw [if_pos (by omega)]
    simp
  | some instr =>
    have hlen := (List.getElem?_eq_some_iff.mp hinstr).1
    dsimp only
    split
    · have hbranch := isUnconditionalBranch_of_last hinstr (by omega)
      cases instr with
      | brTrue o | brFalse o | op o => cases hbranch
      | ret | abort | branch o | variantSwitch o => simp [Bytecode.offsets]
    · rw [mem_insertionSort]
      cases instr with
      | ret | abort | branch o | variantSwitch o | op o =>
          simp [Bytecode.offsets, Bytecode.isUnconditionalBranch]
      | brTrue o | brFalse o =>
        by_cases heq : pc + 1 = o <;> simp [Bytecode.offsets, Bytecode.isUnconditionalBranch, heq]

lemma flow_of_not_isEndOfBlock (hlt : pc < unit.code.length) (h : ¬ unit.IsEndOfBlock pc) :
    unit.Flow pc pc' ↔ pc' = pc + 1 := by
  have hbranch : unit.isBranchAt pc = false := by
    by_contra htrue
    have hnext : pc + 1 ≠ unit.code.length := fun heq => h (.inl heq)
    exact h (.inr (mem_blockIds.mpr (.inr ⟨pc, hlt, .inr ⟨rfl, Bool.not_eq_false _ ▸ htrue, by omega⟩⟩)))
  unfold isBranchAt at hbranch
  unfold Flow
  rw [List.getElem?_eq_getElem hlt] at hbranch ⊢
  cases hinstr : unit.code[pc] with
  | op o => rfl
  | ret | abort | branch o | brTrue o | brFalse o | variantSwitch o =>
    rw [hinstr] at hbranch
    cases hbranch

end CodeUnit

namespace VMControlFlowGraph

variable {unit : CodeUnit Op}

def traversalOrder (unit : CodeUnit Op) : List ℕ := (searchBlocks unit.basicBlocks).postOrder.reverse

lemma fuel_searchBlocks :
    1 + ∑ u ∈ (unit.basicBlocks.map Prod.fst).toFinset,
      ((successorsIn unit.basicBlocks u).length + 1) ≤
    1 + (unit.basicBlocks.map fun b => b.2.successors.length + 1).sum := by
  have hnd : (unit.basicBlocks.map Prod.fst).Nodup := (CodeUnit.created_range unit.code.length).nodup
  rw [sum_toFinset _ hnd, map_map]
  refine Nat.add_le_add_left (le_of_eq (congrArg List.sum (map_congr_left fun b hb => ?_))) 1
  have hlk : unit.basicBlocks.lookup b.1 = some b.2 := CodeUnit.lookup_basicBlocks.mpr hb
  rw [Function.comp_apply, successorsIn, hlk, Option.map_some, Option.getD_some]

/-- The order of a control flow graph: the edges that do not lead forward are its back edges. -/
theorem traversalOrder_new (unit : CodeUnit Op) :
    DepthFirst.TraversalOrder (new unit).successors
      (fun u v => (new unit).isBackEdge u v = true) entryBlockId (traversalOrder unit) := by
  have hroot : entryBlockId ∈ (unit.basicBlocks.map Prod.fst).toFinset :=
    mem_toFinset.mpr (CodeUnit.mem_keys_basicBlocks.mpr ⟨CodeUnit.length_pos, .inl rfl⟩)
  have hclosed : ∀ u ∈ (unit.basicBlocks.map Prod.fst).toFinset, ∀ v ∈ successorsIn unit.basicBlocks u,
      v ∈ (unit.basicBlocks.map Prod.fst).toFinset :=
    fun u _ v hv => mem_toFinset.mpr (CodeUnit.successorsIn_closed hv)
  have horder := DepthFirst.traversalOrder_explore hclosed hroot fuel_searchBlocks
  have hback : (fun u v => (new unit).isBackEdge u v = true) = fun u v =>
      u ∈ (searchBlocks unit.basicBlocks).loopHeads v := by
    funext u v
    simp [isBackEdge, new]
  rw [hback]
  exact horder

variable {a rest : List ℕ} {b : ℕ}

lemma lookup_zip_tail (h : (a ++ b :: rest).Nodup) :
    ((a ++ b :: rest).zip (a ++ b :: rest).tail).lookup b = rest.head? := by
  induction a with
  | nil =>
    cases rest with
    | nil => rfl
    | cons c rest => simp
  | cons x a ih =>
    rw [cons_append, nodup_cons] at h
    have hne : b ≠ x := by
      rintro rfl
      exact h.1 (by simp)
    obtain ⟨y, l, hyl⟩ : ∃ y l, a ++ b :: rest = y :: l := by
      cases a with
      | nil => exact ⟨b, rest, rfl⟩
      | cons y a => exact ⟨y, a ++ b :: rest, rfl⟩
    have hih := ih h.2
    rw [hyl] at hih
    rw [cons_append, tail_cons, hyl, zip_cons_cons, lookup_cons, beq_false_of_ne hne]
    exact hih

lemma nextBlock_new (h : traversalOrder unit = a ++ b :: rest) :
    (new unit).nextBlock b = rest.head? := by
  have hnd := (traversalOrder_new unit).nodup
  rw [h] at hnd
  have hprs : (new unit).traversalSuccessors =
    (traversalOrder unit).zip (traversalOrder unit).tail := rfl
  rw [nextBlock, hprs, h, lookup_zip_tail hnd]

lemma isBlock_of_mem_keys {block : ℕ} (h : block ∈ unit.basicBlocks.map Prod.fst) :
    unit.IsBlock block ((new unit).blockEnd block) ∧
      ∀ pc, pc ∈ (new unit).successors block ↔ unit.Flow ((new unit).blockEnd block) pc := by
  obtain ⟨⟨start, basicBlock⟩, hmem, hst⟩ := mem_map.mp h
  obtain rfl : start = block := hst
  have hlk := CodeUnit.lookup_basicBlocks.mpr hmem
  obtain ⟨hblk, hsucc⟩ := CodeUnit.isBlock_of_lookup hlk
  have hend : (new unit).blockEnd start = basicBlock.exit := by
    rw [blockEnd, new, hlk, Option.map_some, Option.getD_some]
  rw [hend]
  refine ⟨hblk, fun pc => ?_⟩
  rw [successors, new, successorsIn, hlk, Option.map_some, Option.getD_some, hsucc,
    CodeUnit.mem_getSuccessors]

end VMControlFlowGraph

end SuiProofs.Move

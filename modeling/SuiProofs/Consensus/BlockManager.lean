import SuiProofs.Consensus.BlockVerifier
import SuiProofs.Consensus.DagState

/-! Models `block_manager.rs`: blocks with missing ancestors are suspended. -/

namespace SuiProofs.Consensus

open Library Std

structure SuspendedBlock where
  block : VerifiedBlock
  missingAncestors : TreeSet BlockRef

structure BlockManager where
  suspendedBlocks : TreeMap BlockRef SuspendedBlock
  /-- Missing blocks, with the suspended blocks that need them. -/
  missingAncestors : TreeMap BlockRef (TreeSet BlockRef)
  /-- Missing blocks that are not suspended themselves. -/
  missingBlocks : TreeSet BlockRef

inductive TryAcceptResult where
  | accepted (block : VerifiedBlock)
  | suspended (ancestorsToFetch : List BlockRef)
  | processed

namespace BlockManager

def new : BlockManager := ⟨∅, ∅, ∅⟩

def recordMissing (block : BlockRef) (children : TreeMap BlockRef (TreeSet BlockRef))
    (missing : List BlockRef) : TreeMap BlockRef (TreeSet BlockRef) :=
  missing.foldl (fun m a => m.insert a ((m.getD a ∅).insert block)) children

variable (ctx : Context)

def missingOf (d : DagState) (block : VerifiedBlock) : List BlockRef :=
  block.ancestors.filter (fun a => d.containsBlock ctx a = false)

variable (m : BlockManager)

/-- Missing ancestors are fetched unless they are suspended already. -/
def toFetch (missing : List BlockRef) : List BlockRef :=
  missing.filter (fun a => a ∉ m.suspendedBlocks)

/-- Records the missing ancestors of a block. The block itself is not missing any more. -/
def receive (block : VerifiedBlock) (missing : List BlockRef) : BlockManager :=
  { m with
    missingAncestors := recordMissing block.reference m.missingAncestors missing
    missingBlocks :=
      ((m.toFetch missing).foldl (fun t a => t.insert a) m.missingBlocks).erase block.reference }

def suspend (block : VerifiedBlock) (missing : List BlockRef) : BlockManager :=
  { m with
    suspendedBlocks := m.suspendedBlocks.insert block.reference
      ⟨block, missing.foldl (fun t a => t.insert a) ∅⟩ }

def tryAcceptOneBlock (d : DagState) (m : BlockManager) (block : VerifiedBlock) :
    BlockManager × TryAcceptResult :=
  if block.reference ∈ m.suspendedBlocks ∨
    d.containsBlock ctx block.reference = true then (m, .processed)
  else
    let missing := missingOf ctx d block
    if missing = [] then (m.receive block missing, .accepted block)
    else ((m.receive block missing).suspend block missing, .suspended (m.toFetch missing))

/-- Removes an accepted dependency of a suspended block; the last one releases the block. -/
def tryUnsuspendBlock (blockRef acceptedDependency : BlockRef) :
    Except Panic (BlockManager × Option VerifiedBlock) :=
  match m.suspendedBlocks[blockRef]? with
  | none => .error (.blockNotSuspended blockRef)
  | some suspended =>
    if acceptedDependency ∉ suspended.missingAncestors then
      .error (.dependencyNotMissing blockRef acceptedDependency)
    else
      let missing := suspended.missingAncestors.erase acceptedDependency
      if missing.isEmpty then
        .ok ({ m with suspendedBlocks := m.suspendedBlocks.erase blockRef }, some suspended.block)
      else
        .ok ({ m with
          suspendedBlocks := m.suspendedBlocks.insert blockRef ⟨suspended.block, missing⟩ }, none)

/-- The stack of the blocks whose children are to be released. -/
structure Cascade where
  manager : BlockManager
  toProcess : List VerifiedBlock
  unsuspended : List VerifiedBlock

def unsuspendChild (dependency : BlockRef) (s : Cascade) (child : BlockRef) : Except Panic Cascade := do
  let (m, released) ← s.manager.tryUnsuspendBlock child dependency
  match released with
  | some block => return ⟨m, block :: s.toProcess, s.unsuspended ++ [block]⟩
  | none => return { s with manager := m }

def cascadeStep (s : Cascade) : Except Panic (Cascade ⊕ Cascade) :=
  match s.toProcess with
  | [] => .ok (.inr s)
  | block :: rest =>
    match s.manager.missingAncestors[block.reference]? with
    | none => .ok (.inl { s with toProcess := rest })
    | some children => do
      let m := { s.manager with missingAncestors := s.manager.missingAncestors.erase block.reference }
      let s ← children.toList.foldlM (unsuspendChild block.reference) ⟨m, rest, s.unsuspended⟩
      return .inl s

def tryUnsuspendChildrenBlocks (acceptedBlock : VerifiedBlock) : Except Panic Cascade :=
  -- Every block that is processed was the accepted one or suspended before.
  loopM (.error .outOfFuel) cascadeStep (m.suspendedBlocks.size + 2) ⟨m, [acceptedBlock], []⟩

/-- The blocks that are decided on so far. -/
structure Verdicts where
  toAccept : TreeMap BlockRef VerifiedBlock
  toReject : TreeMap BlockRef VerifiedBlock

/-- An ancestor from the DAG or among the blocks to be accepted; none if it is rejected. -/
def findAncestor (d : DagState) (verdicts : Verdicts) (block : VerifiedBlock) (ancestor : BlockRef) :
    Except Panic (Option VerifiedBlock) :=
  match d.getBlock ctx ancestor with
  | some found =>
    if found.reference = ancestor then .ok (some found)
    else .error (.ancestorMismatch ancestor found.reference)
  | none => match verdicts.toAccept[ancestor]? with
    | some found => .ok (some found)
    | none =>
      if ancestor ∈ verdicts.toReject then .ok none
      else .error (.missingAncestor block.reference ancestor)

def findAncestors (ctx : Context) (d : DagState) (verdicts : Verdicts) (block : VerifiedBlock) :
    List BlockRef → Except Panic (Option (List VerifiedBlock))
  | [] => .ok (some [])
  | ancestor :: ancestors => do
    match ← findAncestor ctx d verdicts block ancestor with
    | none => return none
    | some found =>
      match ← findAncestors ctx d verdicts block ancestors with
      | none => return none
      | some rest => return some (found :: rest)

def Verdicts.accept (verdicts : Verdicts) (block : VerifiedBlock) : Verdicts :=
  { verdicts with toAccept := verdicts.toAccept.insert block.reference block }

def Verdicts.reject (verdicts : Verdicts) (block : VerifiedBlock) : Verdicts :=
  { verdicts with toReject := verdicts.toReject.insert block.reference block }

variable (v : BlockVerifier)

def checkBlock (d : DagState) (verdicts : Verdicts) (block : VerifiedBlock) :
    Except Panic Verdicts := do
  match ← findAncestors ctx d verdicts block block.ancestors with
  | none => return verdicts.reject block
  | some ancestors =>
    match v.checkAncestors block ancestors with
    | .error _ => return verdicts.reject block
    | .ok () => return verdicts.accept block

structure Acceptance where
  manager : BlockManager
  dagState : DagState
  acceptedBlocks : List VerifiedBlock
  missingBlocks : TreeSet BlockRef

def acceptWithChildren (now : ℕ) (s : Acceptance) (block : VerifiedBlock) :
    Except Panic Acceptance := do
  let cascade ← s.manager.tryUnsuspendChildrenBlocks block
  let verdicts ← (block :: cascade.unsuspended).foldlM (checkBlock ctx v s.dagState) ⟨∅, ∅⟩
  let blocksToAccept := verdicts.toAccept.toList.map Prod.snd
  let d ← s.dagState.acceptBlocks ctx now blocksToAccept
  return ⟨cascade.manager, d, s.acceptedBlocks ++ blocksToAccept, s.missingBlocks⟩

def tryAcceptBlock (now : ℕ) (s : Acceptance) (block : VerifiedBlock) :
    Except Panic Acceptance :=
  match s.manager.tryAcceptOneBlock ctx s.dagState block with
  | (m, .accepted block) => acceptWithChildren ctx v now { s with manager := m } block
  | (m, .suspended toFetch) =>
    .ok { s with manager := m, missingBlocks := toFetch.foldl (fun t a => t.insert a) s.missingBlocks }
  | (m, .processed) => .ok { s with manager := m }

def sortByRound (blocks : List VerifiedBlock) : List VerifiedBlock :=
  blocks.insertionSort (fun a b => a.round ≤ b.round)

/-- Tries to accept the blocks at local time `now`; returns the accepted blocks and the newly
missing ones. -/
def tryAcceptBlocks (now : ℕ) (m : BlockManager) (d : DagState)
    (blocks : List VerifiedBlock) : Except Panic Acceptance :=
  (sortByRound blocks).foldlM (tryAcceptBlock ctx v now) ⟨m, d, [], ∅⟩

end BlockManager

end SuiProofs.Consensus

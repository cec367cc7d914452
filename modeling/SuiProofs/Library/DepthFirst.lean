import Mathlib

namespace SuiProofs.Library.DepthFirst

open List Option Function DepthFirst

inductive Exploration where
  | inProgress
  | done
deriving DecidableEq, Repr

/-- The state of a search. The head of the list is the top of the stack; `loopHeads v` holds the
nodes with an edge back to `v`. -/
structure Search (α : Type*) where
  exploration : α → Option Exploration
  stack : List α
  loopHeads : α → Finset α
  postOrder : List α

variable {α : Type*} [DecidableEq α]

def start (root : α) : Search α := ⟨fun _ => none, [root], fun _ => ∅, []⟩

/-- What becomes of a successor of a node whose exploration starts. -/
def visitSuccessor (exploration : α → Option Exploration) (node : α)
    (acc : List α × (α → Finset α)) (succ : α) :
    List α × (α → Finset α) :=
  match exploration succ with
  | none => (succ :: acc.1, acc.2)
  | some .inProgress => (acc.1, update acc.2 succ (insert node (acc.2 succ)))
  | some .done => acc

def discover (s : Search α) (node : α) (stack : List α) (loopHeads : α → Finset α) : Search α :=
  ⟨update s.exploration node (some .inProgress), stack, loopHeads, s.postOrder⟩

def finish (s : Search α) (node : α) (stack : List α) : Search α :=
  ⟨update s.exploration node (some .done), stack, s.loopHeads, s.postOrder ++ [node]⟩

def step (successors : α → List α) (s : Search α) : Search α :=
  match s.stack with
  | [] => s
  | node :: stack =>
    match s.exploration node with
    | none =>
      let acc := (successors node).foldl
        (visitSuccessor (update s.exploration node (some .inProgress)) node)
        (node :: stack, s.loopHeads)
      discover s node acc.1 acc.2
    | some .done => { s with stack := stack }
    | some .inProgress => finish s node stack

/-- The loop. A step from an empty stack does nothing. -/
def explore (successors : α → List α) (fuel : ℕ) (root : α) : Search α :=
  (step successors)^[fuel] (start root)

section Visit

variable {exploration : α → Option Exploration} {node : α} {succs stack : List α}
  {loopHeads : α → Finset α}

variable (exploration node succs stack loopHeads) in
/-- What scanning the successors pushes and records. -/
structure Scanned (pushed : List α) (acc : List α × (α → Finset α)) : Prop where
  stack : acc.1 = pushed ++ stack
  mem_pushed : ∀ v, v ∈ pushed ↔ v ∈ succs ∧ exploration v = none
  length : pushed.length ≤ succs.length
  loopHeads : ∀ u v, u ∈ acc.2 v ↔
    u ∈ loopHeads v ∨ (u = node ∧ v ∈ succs ∧ exploration v = some .inProgress)

omit [DecidableEq α] in
lemma mem_and_iff_of_ne {succ v : α} {mark : Option Exploration} (h : exploration succ ≠ mark) :
    v ∈ succs ∧ exploration v = mark ↔ v ∈ succ :: succs ∧ exploration v = mark := by
  refine and_congr_left fun hv => ?_
  rw [mem_cons, or_iff_right]
  rintro rfl
  exact h hv

lemma exists_scanned : ∃ pushed, Scanned exploration node succs stack loopHeads pushed
    (succs.foldl (visitSuccessor exploration node) (stack, loopHeads)) := by
  induction succs generalizing stack loopHeads with
  | nil => exact ⟨[], rfl, by simp, le_rfl, by simp⟩
  | cons succ succs ih =>
    rw [foldl_cons, visitSuccessor]
    split
    · rename_i hsucc
      obtain ⟨pushed, hstack, hpsh, hlen, hheads⟩ := @ih (succ :: stack) loopHeads
      refine ⟨pushed ++ [succ], by simpa using hstack, fun v => ?_, by simpa using hlen, fun u v => ?_⟩
      · rw [mem_append, hpsh, mem_singleton, mem_cons]
        constructor
        · rintro (⟨hv, hnone⟩ | rfl)
          · exact ⟨.inr hv, hnone⟩
          · exact ⟨.inl rfl, hsucc⟩
        · rintro ⟨rfl | hv, hnone⟩
          · exact .inr rfl
          · exact .inl ⟨hv, hnone⟩
      · rw [← mem_and_iff_of_ne (by simp [hsucc])]
        exact hheads u v
    · rename_i hsucc
      obtain ⟨pushed, hstack, hpsh, hlen, hheads⟩ :=
        @ih stack (update loopHeads succ (insert node (loopHeads succ)))
      refine ⟨pushed, hstack, fun v => (hpsh v).trans (mem_and_iff_of_ne (by simp [hsucc])),
        hlen.trans (Nat.le_succ _), fun u v => ?_⟩
      rw [hheads u v]
      by_cases hv : v = succ
      · subst hv
        rw [update_self, Finset.mem_insert]
        simp only [hsucc, mem_cons, true_or, and_true]
        tauto
      · rw [update_of_ne hv]
        simp [hv]
    · rename_i hsucc
      obtain ⟨pushed, hstack, hpsh, hlen, hheads⟩ := @ih stack loopHeads
      refine ⟨pushed, hstack, fun v => (hpsh v).trans (mem_and_iff_of_ne (by simp [hsucc])),
        hlen.trans (Nat.le_succ _), fun u v => ?_⟩
      rw [← mem_and_iff_of_ne (by simp [hsucc])]
      exact hheads u v

end Visit

/-- The nodes in progress, the latest first, lie on the stack. Above each of them are successors
that it has pushed; the others are settled. -/
inductive Frames (successors : α → List α) (root : α) (settled : α → α → Prop) : List α → List α → Prop
  | root : Frames successors root settled [] [root]
  | nil : Frames successors root settled [] []
  | cons {u : α} {active pushed stack : List α} : (∀ v ∈ pushed, v ∈ successors u ∧ v ∉ u :: active) →
      (∀ v ∈ successors u, settled u v ∨ v ∈ pushed) → Frames successors root settled active stack →
      Frames successors root settled (u :: active) (pushed ++ u :: stack)

/-- The nodes are finished in the order of `postOrder ++ active`. -/
def Settled (s : Search α) (active : List α) (u v : α) : Prop :=
  u ∈ s.loopHeads v ∨ [v, u].Sublist (s.postOrder ++ active)

/-- The search is at the path `active`, the innermost node first. -/
structure Invariant (successors : α → List α) (root : α) (active : List α) (s : Search α) : Prop where
  done_iff : ∀ u, u ∈ s.postOrder ↔ s.exploration u = some .done
  inProgress_iff : ∀ u, u ∈ active ↔ s.exploration u = some .inProgress
  nodup : (s.postOrder ++ active).Nodup
  last : s.stack = [root] ∧ s.postOrder ++ active = [] ∨ (s.postOrder ++ active).getLast? = some root
  loopHeads : ∀ u v, u ∈ s.loopHeads v →
    v ∈ successors u ∧ (u = v ∨ [u, v].Sublist (s.postOrder ++ active))
  parent : ∀ v ∈ s.postOrder ++ active, v = root ∨
    ∃ u, v ∈ successors u ∧ [v, u].Sublist (s.postOrder ++ active)
  done_succ : ∀ u ∈ s.postOrder, ∀ v ∈ successors u, Settled s active u v
  frames : Frames successors root (Settled s active) active s.stack

section Steps

variable {successors : α → List α} {root node : α} {s : Search α} {stack active : List α}

namespace Frames

omit [DecidableEq α]

variable {settled settled' : α → α → Prop} {st : List α}

lemma mono (hle : ∀ u v, settled u v → settled' u v) (h : Frames successors root settled active stack) :
    Frames successors root settled' active stack := by
  induction h with
  | root => exact .root
  | nil => exact .nil
  | cons hpushed hsucc _ ih => exact .cons hpushed (fun v hv => (hsucc v hv).imp_left (hle _ v)) ih

section

variable (h : Frames successors root settled active st)

include h

/-- A node that is not in progress has been pushed by the latest one that is. -/
lemma pop (hst : st = node :: stack) (hnode : node ∉ active)
    (hset : ∀ u ∈ active, settled u node) : Frames successors root settled active stack ∧
      (active = [] ∧ node = root ∨ ∃ u ∈ active, node ∈ successors u) := by
  cases h with
  | root =>
    obtain ⟨rfl, rfl⟩ := List.cons.inj hst
    exact ⟨.nil, .inl ⟨rfl, rfl⟩⟩
  | nil => cases hst
  | @cons u active pushed rest hpushed hsucc hrest =>
    cases pushed with
    | nil =>
      obtain ⟨rfl, -⟩ := List.cons.inj hst
      exact absurd mem_cons_self hnode
    | cons top pushed =>
      obtain ⟨rfl, rfl⟩ := List.cons.inj hst
      rw [forall_mem_cons] at hpushed
      refine ⟨.cons hpushed.2 (fun v hv => ?_) hrest, .inr ⟨u, mem_cons_self, hpushed.1.1⟩⟩
      rcases hsucc v hv with hv | hv
      · exact .inl hv
      · rcases mem_cons.mp hv with rfl | hv
        · exact .inl (hset u mem_cons_self)
        · exact .inr hv

lemma finish (hst : st = node :: stack) (hnode : node ∈ active) :
    ∃ rest, active = node :: rest ∧ (∀ v ∈ successors node, settled node v) ∧
      Frames successors root settled rest stack := by
  cases h with
  | root => cases hnode
  | nil => cases hst
  | @cons u active pushed rest hpushed hsucc hrest =>
    cases pushed with
    | nil =>
      obtain ⟨rfl, rfl⟩ := List.cons.inj hst
      exact ⟨active, rfl, fun v hv => (hsucc v hv).resolve_right not_mem_nil, hrest⟩
    | cons top pushed =>
      obtain ⟨rfl, -⟩ := List.cons.inj hst
      exact absurd hnode (hpushed top mem_cons_self).2

lemma eq_nil (hst : st = []) : active = [] := by
  cases h with
  | root => rfl
  | nil => rfl
  | cons => simp at hst

end

end Frames

namespace Invariant

omit [DecidableEq α] in
lemma start : Invariant successors root [] (start root) where
  done_iff := by simp [DepthFirst.start]
  inProgress_iff := by simp [DepthFirst.start]
  nodup := nodup_nil
  last := .inl ⟨rfl, rfl⟩
  loopHeads := by simp [DepthFirst.start]
  parent := by simp [DepthFirst.start]
  done_succ := by simp [DepthFirst.start]
  frames := .root

variable (h : Invariant successors root active s) (hstack : s.stack = node :: stack)
include h hstack

omit [DecidableEq α] in
lemma pop (hnode : s.exploration node = some .done) :
    Invariant successors root active { s with stack := stack } := by
  have hmem : node ∈ s.postOrder := (h.done_iff node).mpr hnode
  have hidle : node ∉ active := by
    rw [h.inProgress_iff, hnode]
    simp
  refine ⟨h.done_iff, h.inProgress_iff, h.nodup, h.last.imp_left fun hlast => ?_, h.loopHeads,
    h.parent, h.done_succ, ?_⟩
  · rw [append_eq_nil_iff] at hlast
    rw [hlast.2.1] at hmem
    cases hmem
  · refine (h.frames.pop hstack hidle fun u hu => .inr ?_).1
    exact (singleton_sublist.mpr hmem).append (singleton_sublist.mpr hu)

/-- The order in which the nodes are finished stays. -/
lemma finish (hnode : s.exploration node = some .inProgress) :
    ∃ rest, Invariant successors root rest (finish s node stack) := by
  obtain ⟨rest, rfl, hset, hframes⟩ := h.frames.finish hstack ((h.inProgress_iff node).mpr hnode)
  have horder : (DepthFirst.finish s node stack).postOrder ++ rest = s.postOrder ++ node :: rest :=
    append_cons .. |>.symm
  have hsettled : Settled (DepthFirst.finish s node stack) rest = Settled s (node :: rest) := by
    unfold Settled
    rw [horder]
    rfl
  refine ⟨rest, fun u => ?_, fun u => ?_, horder ▸ h.nodup, .inr ?_, horder ▸ h.loopHeads,
    horder ▸ h.parent, ?_, ?_⟩
  · by_cases hu : u = node
    · simp [hu, DepthFirst.finish]
    · simp [hu, DepthFirst.finish, h.done_iff]
  · by_cases hu : u = node
    · subst hu
      have hrest : u ∉ rest := (nodup_cons.mp (nodup_append.mp h.nodup).2.1).1
      simp [hrest, DepthFirst.finish]
    · simpa [hu, DepthFirst.finish] using h.inProgress_iff u
  · rw [horder]
    exact h.last.resolve_left fun hlast => by simp at hlast
  · rw [hsettled]
    intro u hu
    rcases mem_append.mp hu with hu | hu
    · exact h.done_succ u hu
    · obtain rfl := mem_singleton.mp hu
      exact hset
  · rw [hsettled]
    exact hframes

/-- The new node is finished before those in progress. -/
lemma discover {pushed : List α} {acc : List α × (α → Finset α)} (hnode : s.exploration node = none)
    (hscan : Scanned (update s.exploration node (some .inProgress)) node (successors node)
      (node :: stack) s.loopHeads pushed acc) :
    Invariant successors root (node :: active) (discover s node acc.1 acc.2) := by
  have hdone : node ∉ s.postOrder := by simp [h.done_iff, hnode]
  have hidle : node ∉ active := by simp [h.inProgress_iff, hnode]
  have hsub : (s.postOrder ++ active).Sublist (s.postOrder ++ node :: active) :=
    (sublist_cons_self node active).append_left _
  have hpair : ∀ u ∈ active, [node, u].Sublist (s.postOrder ++ node :: active) := fun u hu =>
    ((singleton_sublist.mpr hu).cons_cons node).trans (sublist_append_right _ _)
  have hmono : ∀ u v, Settled s active u v →
      Settled (DepthFirst.discover s node acc.1 acc.2) (node :: active) u v :=
    fun u v => Or.imp (fun hback => (hscan.loopHeads u v).mpr (.inl hback)) fun hfin => hfin.trans hsub
  obtain ⟨hframes, hpusher⟩ := (h.frames.mono hmono).pop hstack hidle fun u hu => .inr (hpair u hu)
  refine ⟨fun u => ?_, fun u => ?_, ?_, .inr ?_, fun u v huv => ?_, fun v hv => ?_, fun u hu v hv =>
    hmono u v (h.done_succ u hu v hv), ?_⟩
  · by_cases hu : u = node
    · simp [hu, DepthFirst.discover, hdone]
    · simp [hu, DepthFirst.discover, h.done_iff]
  · by_cases hu : u = node
    · simp [hu, DepthFirst.discover]
    · simp [hu, DepthFirst.discover, h.inProgress_iff]
  · rw [DepthFirst.discover, nodup_middle, nodup_cons, mem_append, not_or]
    exact ⟨⟨hdone, hidle⟩, h.nodup⟩
  · rcases hpusher with ⟨rfl, rfl⟩ | ⟨u, hu, -⟩
    · simp [DepthFirst.discover]
    · obtain ⟨b, rest, rfl⟩ := exists_cons_of_ne_nil (ne_nil_of_mem hu)
      have hlast := h.last.resolve_left fun hlast => by simp at hlast
      simpa [DepthFirst.discover, getLast?_append] using hlast
  · rcases (hscan.loopHeads u v).mp huv with hold | ⟨rfl, hv, hin⟩
    · exact (h.loopHeads u v hold).imp_right (Or.imp_right fun hfin => hfin.trans hsub)
    · refine ⟨hv, ?_⟩
      by_cases hvu : v = u
      · exact .inl hvu.symm
      · rw [update_of_ne hvu, ← h.inProgress_iff] at hin
        exact .inr (hpair v hin)
  · rcases mem_append.mp hv with hv | hv
    · exact (h.parent v (mem_append_left _ hv)).imp_right fun ⟨u, hu, hfin⟩ => ⟨u, hu, hfin.trans hsub⟩
    · rcases mem_cons.mp hv with rfl | hv
      · exact hpusher.imp And.right fun ⟨u, hu, hsucc⟩ => ⟨u, hsucc, hpair u hu⟩
      · exact (h.parent v (mem_append_right _ hv)).imp_right fun ⟨u, hu, hfin⟩ =>
          ⟨u, hu, hfin.trans hsub⟩
  · rw [DepthFirst.discover, hscan.stack]
    refine .cons (fun v hv => ?_) (fun v hv => ?_) hframes
    · obtain ⟨hsucc, hnone⟩ := (hscan.mem_pushed v).mp hv
      refine ⟨hsucc, fun hin => ?_⟩
      by_cases hvn : v = node
      · simp [hvn] at hnone
      · rw [update_of_ne hvn] at hnone
        have hactive := (h.inProgress_iff v).mp ((mem_cons.mp hin).resolve_left hvn)
        simp [hnone] at hactive
    · -- Every successor of the new node is recorded, done or pushed above it.
      cases hmark : (update s.exploration node (some .inProgress)) v with
      | none => exact .inr ((hscan.mem_pushed v).mpr ⟨hv, hmark⟩)
      | some mark =>
        cases mark with
        | inProgress => exact .inl (.inl ((hscan.loopHeads node v).mpr (.inr ⟨rfl, hv, hmark⟩)))
        | done =>
          have hvn : v ≠ node := by
            rintro rfl
            simp at hmark
          rw [update_of_ne hvn, ← h.done_iff] at hmark
          exact .inl (.inr ((singleton_sublist.mpr hmark).append (singleton_sublist.mpr mem_cons_self)))

end Invariant

inductive StepCase (successors : α → List α) (s : Search α) : Search α → Prop
  | stop : s.stack = [] → StepCase successors s s
  | discover {node : α} {stack pushed : List α} {acc : List α × (α → Finset α)} :
      s.stack = node :: stack → s.exploration node = none →
    Scanned (update s.exploration node (some .inProgress)) node (successors node)
      (node :: stack) s.loopHeads pushed acc →
    StepCase successors s (discover s node acc.1 acc.2)
  | pop {node : α} {stack : List α} : s.stack = node :: stack → s.exploration node = some .done →
      StepCase successors s { s with stack := stack }
  | finish {node : α} {stack : List α} :
      s.stack = node :: stack → s.exploration node = some .inProgress →
    StepCase successors s (finish s node stack)

lemma stepCase (successors : α → List α) (s : Search α) : StepCase successors s (step successors s) := by
  unfold step
  split
  · rename_i hstack
    exact .stop hstack
  · rename_i node stack hstack
    split
    · rename_i hnode
      obtain ⟨pushed, hscan⟩ :=
        @exists_scanned α _ (update s.exploration node (some .inProgress)) node (successors node)
        (node :: stack) s.loopHeads
      exact .discover hstack hnode hscan
    · rename_i hnode
      exact .pop hstack hnode
    · rename_i hnode
      exact .finish hstack hnode

lemma Invariant.step (h : Invariant successors root active s) :
    ∃ active, Invariant successors root active (step successors s) := by
  have hcase := stepCase successors s
  generalize DepthFirst.step successors s = s' at hcase ⊢
  cases hcase with
  | stop _ => exact ⟨active, h⟩
  | discover hstack hnode hscan => exact ⟨_, h.discover hstack hnode hscan⟩
  | pop hstack hnode => exact ⟨active, h.pop hstack hnode⟩
  | finish hstack hnode => exact h.finish hstack hnode

lemma invariant_explore (fuel : ℕ) :
    ∃ active, Invariant successors root active (explore successors fuel root) := by
  induction fuel with
  | zero => exact ⟨[], .start⟩
  | succ fuel ih =>
    obtain ⟨active, h⟩ := ih
    rw [explore, iterate_succ_apply']
    exact h.step

end Steps

section Termination

variable {successors : α → List α} {nodes : Finset α} {root : α} {s : Search α}

variable (successors nodes s) in
/-- What is left to do: the entries of the stack, and for every unexplored node its own entry and
those of its successors. -/
def remaining : ℕ :=
  s.stack.length + ∑ u ∈ nodes.filter (fun u => s.exploration u = none), ((successors u).length + 1)

variable (hcl : ∀ u ∈ nodes, ∀ v ∈ successors u, v ∈ nodes)
include hcl

variable (hstack : ∀ u ∈ s.stack, u ∈ nodes)
include hstack

lemma mem_nodes_step :
    ∀ u ∈ (step successors s).stack, u ∈ nodes := by
  have hcase := stepCase successors s
  generalize step successors s = s' at hcase ⊢
  cases hcase with
  | stop _ => exact hstack
  | @discover node stack pushed acc heq _ hscan =>
    rw [heq, forall_mem_cons] at hstack
    intro u hu
    rw [discover, hscan.stack] at hu
    rcases mem_append.mp hu with hu | hu
    · exact hcl node hstack.1 u ((hscan.mem_pushed u).mp hu).1
    · rcases mem_cons.mp hu with rfl | hu
      · exact hstack.1
      · exact hstack.2 u hu
  | pop heq | finish heq =>
    rw [heq, forall_mem_cons] at hstack
    exact hstack.2

omit hcl in
lemma remaining_step_lt (hne : s.stack ≠ []) :
    remaining successors nodes (step successors s) < remaining successors nodes s := by
  have hcase := stepCase successors s
  generalize step successors s = s' at hcase ⊢
  cases hcase with
  | stop hnil => exact absurd hnil hne
  | @discover node stack pushed acc heq hnone hscan =>
    have hnode : node ∈ nodes := hstack node (by rw [heq]; exact mem_cons_self)
    have hlen := hscan.length
    have hfil : nodes.filter (fun u => s.exploration u = none) =
        insert node (nodes.filter fun u => (update s.exploration node (some .inProgress)) u = none) := by
      ext u
      by_cases hu : u = node
      · subst hu
        simp [hnode, hnone]
      · simp [hu]
    unfold remaining discover
    rw [hfil, Finset.sum_insert (by simp), heq, hscan.stack, length_append, length_cons]
    dsimp only
    omega
  | pop heq _ =>
    unfold remaining
    rw [heq, length_cons]
    dsimp only
    omega
  | @finish node stack heq hin =>
    have hfil : (nodes.filter fun u => (update s.exploration node (some .done)) u = none) =
        nodes.filter fun u => s.exploration u = none := by
      ext u
      by_cases hu : u = node
      · subst hu
        simp [hin]
      · simp [hu]
    unfold remaining finish
    rw [hfil, heq, length_cons]
    dsimp only
    omega

lemma stack_iterate_eq_nil {fuel : ℕ}
    (hfuel : remaining successors nodes s ≤ fuel) : ((step successors)^[fuel] s).stack = [] := by
  induction fuel generalizing s with
  | zero =>
    have hlen : s.stack.length ≤ 0 := (Nat.le_add_right _ _).trans hfuel
    exact length_eq_zero_iff.mp (Nat.le_zero.mp hlen)
  | succ fuel ih =>
    by_cases hne : s.stack = []
    · have hsame : step successors s = s := by simp [step, hne]
      rw [iterate_fixed hsame, hne]
    · have hlt := @remaining_step_lt α _ successors nodes s hstack hne
      exact ih (mem_nodes_step hcl hstack) (by omega)

omit hstack

lemma stack_explore_eq_nil (hroot : root ∈ nodes) {fuel : ℕ}
    (hfuel : 1 + ∑ u ∈ nodes, ((successors u).length + 1) ≤ fuel) :
    (explore successors fuel root).stack = [] := by
  refine stack_iterate_eq_nil hcl ?_ ?_
  · intro u hu
    obtain rfl := mem_singleton.mp hu
    exact hroot
  · simpa [remaining, start] using hfuel

end Termination

/-- An order to traverse a graph in: it starts at the root, it has the successors of its nodes,
every other node comes after a predecessor, and the edges that lead back are known. -/
structure TraversalOrder (successors : α → List α) (isBackEdge : α → α → Prop) (root : α)
    (order : List α) : Prop where
  head : order.head? = some root
  nodup : order.Nodup
  closed : ∀ u ∈ order, ∀ v ∈ successors u, v ∈ order
  forward : ∀ u ∈ order, ∀ v ∈ successors u, ¬ isBackEdge u v → [u, v].Sublist order
  backward : ∀ u v, isBackEdge u v → u = v ∨ [v, u].Sublist order
  parent : ∀ v ∈ order, v = root ∨ ∃ u, v ∈ successors u ∧ [u, v].Sublist order

omit [DecidableEq α] in
lemma mem_of_pair_sublist {a b : List α} {u v : α} (hnd : (a ++ u :: b).Nodup)
    (h : [u, v].Sublist (a ++ u :: b)) : v ∈ b := by
  induction a with
  | nil =>
    cases h with
    | cons _ h => exact absurd (h.subset mem_cons_self) (nodup_cons.mp hnd).1
    | cons_cons _ h => exact h.subset mem_cons_self
  | cons x a ih =>
    rw [cons_append, nodup_cons] at hnd
    cases h with
    | cons _ h => exact ih hnd.2 h
    | cons_cons _ h => exact absurd (by simp) hnd.1

omit [DecidableEq α] in
lemma sublist_reverse_of_pair {u v : α} {l : List α} (h : [u, v].Sublist l) :
    [v, u].Sublist l.reverse := by
  simpa using reverse_sublist.mpr h

omit [DecidableEq α] in
lemma mem_of_pair_sublist_left {a b : List α} {u v : α} (hnd : (a ++ v :: b).Nodup)
    (h : [u, v].Sublist (a ++ v :: b)) : u ∈ a := by
  have hrev := sublist_reverse_of_pair h
  rw [← nodup_reverse] at hnd
  rw [reverse_append, reverse_cons, append_assoc, singleton_append] at hnd hrev
  exact mem_reverse.mp (mem_of_pair_sublist hnd hrev)

/-- The reverse post-order of a search that is over is a traversal order. -/
theorem traversalOrder_explore {successors : α → List α} {nodes : Finset α} {root : α} {fuel : ℕ}
    (hclosed : ∀ u ∈ nodes, ∀ v ∈ successors u, v ∈ nodes) (hroot : root ∈ nodes)
    (hfuel : 1 + ∑ u ∈ nodes, ((successors u).length + 1) ≤ fuel) :
    TraversalOrder successors (fun u v => u ∈ (explore successors fuel root).loopHeads v) root
      (explore successors fuel root).postOrder.reverse := by
  have hempty := stack_explore_eq_nil hclosed hroot hfuel
  obtain ⟨active, h⟩ := @invariant_explore α _ successors root fuel
  generalize explore successors fuel root = s at h hempty
  -- Nothing is in progress any more.
  obtain rfl := h.frames.eq_nil hempty
  obtain ⟨-, -, hnodup, hlast, hheads, hparent, hsucc, -⟩ := h
  rw [append_nil] at hnodup hlast hheads hparent
  have hforward : ∀ u ∈ s.postOrder.reverse,
      ∀ v ∈ successors u, u ∈ s.loopHeads v ∨ [u, v].Sublist s.postOrder.reverse := by
    intro u hu v hv
    refine (hsucc u (mem_reverse.mp hu) v hv).imp_right fun hfin => ?_
    rw [append_nil] at hfin
    exact sublist_reverse_of_pair hfin
  have hbackward : ∀ u v, u ∈ s.loopHeads v → u = v ∨ [v, u].Sublist s.postOrder.reverse :=
    fun u v huv => (hheads u v huv).2.imp_right sublist_reverse_of_pair
  refine ⟨?_, nodup_reverse.mpr hnodup, fun u hu v hv => ?_, fun u hu v hv hback => ?_, hbackward,
    fun v hv => ?_⟩
  · rw [List.head?_reverse]
    exact hlast.resolve_left fun hroot => by simp [hempty] at hroot
  · rcases hforward u hu v hv with hback | hsub
    · rcases hbackward u v hback with rfl | hsub
      · exact hu
      · exact hsub.subset mem_cons_self
    · exact hsub.subset (by simp)
  · exact (hforward u hu v hv).resolve_left hback
  · exact (hparent v (mem_reverse.mp hv)).imp_right fun ⟨u, hu, hfin⟩ =>
      ⟨u, hu, sublist_reverse_of_pair hfin⟩

end SuiProofs.Library.DepthFirst

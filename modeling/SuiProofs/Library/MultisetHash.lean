import Mathlib

namespace SuiProofs.Library.MultisetHash

open List

variable {D G : Type*} [AddCommGroup G] (hash : D → G)

def insert (acc : G) (d : D) : G := acc + hash d

def remove (acc : G) (d : D) : G := acc - hash d

def insertAll (acc : G) (ds : List D) : G := ds.foldl (insert hash) acc

def removeAll (acc : G) (ds : List D) : G := ds.foldl (remove hash) acc

def union (acc acc' : G) : G := acc + acc'

lemma insertAll_eq (acc : G) (ds : List D) : insertAll hash acc ds = acc + (ds.map hash).sum := by
  unfold insertAll
  induction ds generalizing acc with
  | nil => simp
  | cons d ds ih => rw [foldl_cons, ih, insert, map_cons, sum_cons, add_assoc]

lemma removeAll_eq (acc : G) (ds : List D) : removeAll hash acc ds = acc - (ds.map hash).sum := by
  unfold removeAll
  induction ds generalizing acc with
  | nil => simp
  | cons d ds ih => rw [foldl_cons, ih, remove, map_cons, sum_cons, sub_sub]

lemma foldl_union_eq (acc : G) (accs : List G) : accs.foldl union acc = acc + accs.sum := by
  induction accs generalizing acc with
  | nil => simp
  | cons a accs ih => rw [foldl_cons, ih, union, sum_cons, add_assoc]

lemma sum_map_filterMap {A : Type*} (f : A → Option D) (l : List A) :
    ((l.filterMap f).map hash).sum = (l.map fun a => (f a).elim 0 hash).sum := by
  induction l with
  | nil => rfl
  | cons a l ih =>
    rw [filterMap_cons, map_cons, sum_cons, ← ih]
    cases f a with
    | none => rw [Option.elim_none, zero_add]
    | some d => rw [Option.elim_some, map_cons, sum_cons]

end SuiProofs.Library.MultisetHash

import Mathlib.Data.List.Lookmap
import Mathlib.Data.List.Basic

namespace SuiProofs.Library

open List

/-- A cache in order of use, the latest first. -/
structure Lru (α β : Type*) where
  entries : List (α × β)
deriving DecidableEq

namespace Lru

variable {α β : Type*} [DecidableEq α]

def empty : Lru α β := ⟨[]⟩

variable (c : Lru α β)

def peek (k : α) : Option β := c.entries.lookup k

/-- Puts an entry in front; returns the old entry of the key. -/
def push (k : α) (v : β) : Lru α β × Option (α × β) :=
  (⟨(k, v) :: c.entries.filter (fun e => e.1 ≠ k)⟩, (c.peek k).map fun old => (k, old))

def get (k : α) : Lru α β × Option β :=
  match c.peek k with
  | some v => ((c.push k v).1, some v)
  | none => (c, none)

def shrink (maxSize : ℕ) : Lru α β := ⟨c.entries.take maxSize⟩

lemma lookup_filter_ne {l : List (α × β)} {k k' : α} (h : k' ≠ k) :
    (l.filter fun e => e.1 ≠ k).lookup k' = l.lookup k' := by
  induction l with
  | nil => rfl
  | cons e l ih =>
    by_cases he : e.1 = k
    · have hne : (k' == e.1) = false := by simpa [he] using h
      rw [filter_cons_of_neg (by simpa using he), ih, lookup_cons, hne]
    · rw [filter_cons_of_pos (by simpa using he), lookup_cons, lookup_cons, ih]

lemma peek_push (c : Lru α β) (k k' : α) (v : β) :
    (c.push k v).1.peek k' = if k' = k then some v else c.peek k' := by
  rw [push, peek, lookup_cons]
  by_cases h : k' = k
  · simp [h]
  · have hne : (k' == k) = false := by simpa using h
    rw [hne, if_neg h]
    exact lookup_filter_ne h

lemma peek_get (c : Lru α β) (k k' : α) : (c.get k).1.peek k' = c.peek k' := by
  unfold get
  cases hk : c.peek k with
  | none => rfl
  | some v =>
    rw [peek_push]
    split_ifs with h
    · rw [h, hk]
    · rfl

@[simp] lemma get_snd (c : Lru α β) (k : α) : (c.get k).2 = c.peek k := by
  unfold get
  cases c.peek k <;> rfl

lemma peek_of_peek_shrink {c : Lru α β} {n : ℕ} {k : α} {v : β} (h : (c.shrink n).peek k = some v) :
    c.peek k = some v := by
  obtain ⟨l⟩ := c
  unfold shrink peek at *
  induction l generalizing n with
  | nil => simp at h
  | cons e l ih =>
    cases n with
    | zero => simp at h
    | succ n =>
      rw [take_succ_cons, lookup_cons] at h
      rw [lookup_cons]
      by_cases he : (k == e.1) = true
      · rw [he] at h ⊢
        exact h
      · rw [Bool.not_eq_true] at he
        rw [he] at h ⊢
        exact ih h

end Lru

end SuiProofs.Library

import Mathlib.Data.List.Basic
import Mathlib.Data.PNat.Basic

/-! Models `move-abstract-stack`: a stack that keeps a run of equal values as one entry. -/

namespace SuiProofs.Move

open List

inductive AbsStackError where
  | elementNotEqual
  | underflow
  | overflow
deriving DecidableEq, Repr

/-- The last entry of the vector comes first. -/
structure AbstractStack (T : Type) where
  values : List (ℕ × T)
  len : ℕ

inductive StackCall (T : Type) where
  | pushN (item : T) (n : ℕ)
  | popEqN (n : ℕ+)
  | popAnyN (n : ℕ+)

/-- What a call returns, and the stack after it. -/
abbrev Returns (T S : Type) := Except AbsStackError (Option T) × S

variable {T S : Type}

/-- The results of some calls, and the stack after them; `none` for a panic. -/
def runCalls (step : S → StackCall T → Option (Returns T S)) :
    S → List (StackCall T) → Option (List (Except AbsStackError (Option T)) × S)
  | s, [] => some ([], s)
  | s, call :: calls => do
    let (result, s) ← step s call
    let (results, s) ← runCalls step s calls
    return (result :: results, s)

namespace AbstractStack

def new : AbstractStack T := ⟨[], 0⟩

def pushRun [DecidableEq T] (item : T) (n : ℕ) : List (ℕ × T) → List (ℕ × T)
  | (count, lastItem) :: rest => if item = lastItem then (count + n, lastItem) :: rest
      else (n, item) :: (count, lastItem) :: rest
  | [] => [(n, item)]

def pushN [DecidableEq T] (self : AbstractStack T) (item : T) (n : ℕ) : Returns T (AbstractStack T) :=
  if n = 0 then (.ok none, self)
  else if 2 ^ 64 ≤ self.len + n then (.error .overflow, self)
  else (.ok none, ⟨pushRun item n self.values, self.len + n⟩)

def popEqN (self : AbstractStack T) (n : ℕ) : Returns T (AbstractStack T) :=
  match self.values with
  | [] => (.error .underflow, self)
  | (count, last) :: rest =>
    if self.len < n then (.error .underflow, self)
    else if count < n then (.error .elementNotEqual, self)
    else if count = n then (.ok (some last), ⟨rest, self.len - n⟩)
    else (.ok (some last), ⟨(count - n, last) :: rest, self.len - n⟩)

/-- The loop of `pop_any_n`; `none` if there is no last entry to unwrap. -/
def popRuns : ℕ → List (ℕ × T) → Option (List (ℕ × T))
  | 0, values => some values
  | _ + 1, [] => none
  | rem + 1, (count, last) :: rest =>
    if count ≤ rem + 1 then popRuns (rem + 1 - count) rest
    else some ((count - (rem + 1), last) :: rest)

def popAnyN (self : AbstractStack T) (n : ℕ) : Option (Returns T (AbstractStack T)) :=
  if self.values = [] ∨ self.len < n then some (.error .underflow, self)
  else (popRuns n self.values).map fun values => (.ok none, ⟨values, self.len - n⟩)

def step [DecidableEq T] (self : AbstractStack T) : StackCall T → Option (Returns T (AbstractStack T))
  | .pushN item n => some (self.pushN item n)
  | .popEqN n => some (self.popEqN n)
  | .popAnyN n => self.popAnyN n

/-- The plain stack of values, the top first. -/
def plainStep [DecidableEq T] (s : List T) : StackCall T → Option (Returns T (List T))
  | .pushN item n => some (if n ≠ 0 ∧ 2 ^ 64 ≤ s.length + n then (.error .overflow, s)
      else (.ok none, replicate n item ++ s))
  | .popEqN n =>
    some (if s.length < n then (.error .underflow, s)
      else if ∀ item ∈ s.take n, s.head? = some item then (.ok s.head?, s.drop n)
      else (.error .elementNotEqual, s))
  | .popAnyN n => some (if s.length < n then (.error .underflow, s) else (.ok none, s.drop n))

/-- The entries stand for the values, neighbours for different ones. -/
inductive Represents : List (ℕ × T) → List T → Prop
  | nil : Represents [] []
  | cons {count : ℕ} {item : T} {values : List (ℕ × T)} {s : List T} (hcount : 0 < count)
      (hnext : s.head? ≠ some item)
      (h : Represents values s) : Represents ((count, item) :: values) (replicate count item ++ s)

variable {values : List (ℕ × T)} {s : List T} {count n : ℕ} {item : T}

lemma head?_run (hcount : 0 < count) : (replicate count item ++ s).head? = some item := by
    simp [head?_replicate, hcount.ne']

lemma Represents.pushRun [DecidableEq T] (h : Represents values s) (hn : 0 < n) (item : T) :
    Represents (pushRun item n values) (replicate n item ++ s) := by
  cases h with
  | nil => exact .cons hn (by simp) .nil
  | @cons count last values s hcount hnext h =>
    rw [AbstractStack.pushRun]
    split_ifs with heq
    · rw [heq, ← append_assoc, replicate_append_replicate, Nat.add_comm]
      exact .cons (Nat.add_pos_left hn count) hnext h
    · exact .cons hn (by simpa [head?_run hcount] using Ne.symm heq) (.cons hcount hnext h)

lemma Represents.popRuns (h : Represents values s) (hn : n ≤ s.length) :
    ∃ values', popRuns n values = some values' ∧ Represents values' (s.drop n) := by
  induction h generalizing n with
  | nil =>
    obtain rfl := Nat.le_zero.mp hn
    exact ⟨[], rfl, .nil⟩
  | @cons count item values s hcount hnext h ih =>
    cases n with
    | zero => exact ⟨_, rfl, .cons hcount hnext h⟩
    | succ n =>
      rw [length_append, length_replicate] at hn
      rw [AbstractStack.popRuns, drop_append, drop_replicate, length_replicate]
      split_ifs with hle
      · rw [Nat.sub_eq_zero_of_le hle]
        exact ih (by omega)
      · rw [Nat.sub_eq_zero_of_le (Nat.le_of_not_le hle)]
        exact ⟨_, rfl, .cons (by omega) hnext h⟩

/-- Neighbouring entries stand for different values, so equal ones are all from one entry. -/
lemma forall_take_iff (hnext : s.head? ≠ some item) (hn : n ≤ count + s.length) :
    (∀ x ∈ (replicate count item ++ s).take n, some item = some x) ↔ n ≤ count := by
  rw [take_append, take_replicate, length_replicate]
  constructor
  · intro hall
    by_contra hlt
    cases s with
    | nil => exact hlt hn
    | cons x s =>
      obtain ⟨k, hk⟩ := Nat.exists_eq_add_of_lt (Nat.lt_of_not_le hlt)
      exact hnext (hall x (mem_append_right _ (by simp [hk, Nat.add_assoc]))).symm
  · intro hle x hx
    rw [Nat.sub_eq_zero_of_le hle, take_zero, append_nil] at hx
    rw [eq_of_mem_replicate hx]

def Agree (r : Option (Returns T (AbstractStack T))) (r' : Option (Returns T (List T))) : Prop :=
  ∃ result stack s, r = some (result, stack) ∧ r' = some (result, s) ∧ Represents stack.values s ∧
    stack.len = s.length

variable [DecidableEq T] {self : AbstractStack T} (h : Represents self.values s)
  (hlen : self.len = s.length)

include h hlen

lemma pushN_agree : Agree (self.step (.pushN item n)) (plainStep s (.pushN item n)) := by
  simp only [step, plainStep, pushN, hlen]
  by_cases hn : n = 0
  · subst hn
    exact ⟨_, _, _, rfl, rfl, h, hlen⟩
  by_cases hover : 2 ^ 64 ≤ s.length + n
  · rw [if_neg hn, if_pos hover, if_pos ⟨hn, hover⟩]
    exact ⟨_, _, _, rfl, rfl, h, hlen⟩
  rw [if_neg hn, if_neg hover, if_neg (hover ·.2)]
  exact ⟨_, _, _, rfl, rfl, h.pushRun (Nat.pos_of_ne_zero hn) item, by simp [Nat.add_comm]⟩

lemma popEqN_agree (n : ℕ+) : Agree (self.step (.popEqN n)) (plainStep s (.popEqN n)) := by
  simp only [step, plainStep, popEqN, hlen]
  obtain ⟨values, len⟩ := self
  cases h with
  | nil => exact ⟨_, _, [], rfl, by simp, .nil, hlen⟩
  | @cons count item values s hcount hnext h =>
    simp only [head?_run hcount, length_append, length_replicate] at hlen ⊢
    by_cases hunder : count + s.length < n
    · rw [if_pos hunder, if_pos hunder]
      exact ⟨_, _, _, rfl, rfl, .cons hcount hnext h, by simpa using hlen⟩
    have hall := forall_take_iff hnext (Nat.le_of_not_lt hunder)
    rw [if_neg hunder, if_neg hunder]
    rcases lt_trichotomy count n with hlt | heq | hgt
    · rw [if_pos hlt, if_neg (hall.not.mpr hlt.not_ge)]
      exact ⟨_, _, _, rfl, rfl, .cons hcount hnext h, by simpa using hlen⟩
    · rw [if_neg heq.not_lt, if_pos heq, if_pos (hall.mpr heq.ge)]
      exact ⟨_, _, _, rfl, rfl, by simpa [drop_append, heq] using h, by simp [heq]⟩
    · rw [if_neg hgt.not_gt, if_neg hgt.ne', if_pos (hall.mpr hgt.le)]
      refine ⟨_, _, _, rfl, rfl, ?_, by simp⟩
      rw [drop_append, drop_replicate, length_replicate, Nat.sub_eq_zero_of_le hgt.le]
      exact .cons (Nat.sub_pos_of_lt hgt) hnext h

lemma popAnyN_agree (n : ℕ+) : Agree (self.step (.popAnyN n)) (plainStep s (.popAnyN n)) := by
  simp only [step, plainStep, popAnyN, hlen]
  by_cases hunder : s.length < n
  · exact ⟨_, _, s, if_pos (.inr hunder), by rw [if_pos hunder], h, hlen⟩
  obtain ⟨values, hpop, hrest⟩ := h.popRuns (Nat.le_of_not_lt hunder)
  have hempty : self.values ≠ [] := by
    intro hnil
    rw [hnil] at h
    cases h
    exact hunder n.pos
  rw [if_neg (not_or.mpr ⟨hempty, hunder⟩), if_neg hunder, hpop]
  exact ⟨_, _, _, rfl, rfl, hrest, by simp⟩

lemma step_agree (call : StackCall T) : Agree (self.step call) (plainStep s call) := by
  cases call with
  | pushN item n => exact pushN_agree h hlen
  | popEqN n => exact popEqN_agree h hlen n
  | popAnyN n => exact popAnyN_agree h hlen n

lemma runCalls_agree (calls : List (StackCall T)) :
    ∃ results stack s', runCalls step self calls = some (results, stack) ∧
      runCalls plainStep s calls = some (results, s') ∧
      stack.len = s'.length := by
  induction calls generalizing self s with
  | nil => exact ⟨[], self, s, rfl, rfl, hlen⟩
  | cons call calls ih =>
    obtain ⟨result, stack, s', hstep, hplain, h, hlen⟩ := step_agree h hlen call
    obtain ⟨results, stack, s', hruns, hplains, hlen⟩ := ih h hlen
    exact ⟨result :: results, stack,
      s', by simp [runCalls, hstep, hruns], by simp [runCalls, hplain, hplains], hlen⟩

omit h hlen

/-- Whatever is called on a new stack, it returns what the plain stack returns, and has
its length. -/
theorem abstractStack_refines (calls : List (StackCall T)) :
    ∃ results stack s, runCalls step new calls = some (results, stack) ∧
      runCalls plainStep [] calls = some (results, s) ∧
      stack.len = s.length :=
  runCalls_agree .nil rfl calls

end AbstractStack

end SuiProofs.Move

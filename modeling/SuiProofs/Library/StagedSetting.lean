import Mathlib.Data.List.Forall2
import Mathlib.Order.Nat

namespace SuiProofs.Library

open List

/-- A value in force and the one that is to replace it. -/
structure Slot (α : Type) where
  current : α
  next : α

namespace Slot

variable {α : Type}

/-- A direct write, to the value in force only or to both. -/
def write (both : Bool) (slot : Slot α) (value : α) : Slot α :=
  ⟨value, if both then value else slot.next⟩

def stage (slot : Slot α) (value : α) : Slot α := { slot with next := value }

def commit (slot : Slot α) : Slot α := { slot with current := slot.next }

end Slot

/-- A write to a slot, at once or staged. -/
structure SlotWrite (α : Type) where
  time : ℕ
  direct : Bool
  value : α

section Latest

variable {α : Type} {p q : SlotWrite α → Bool} {initial : α} {log : List (SlotWrite α)} {w : SlotWrite α}

variable (p initial log) in
def latest : α := ((log.find? p).map SlotWrite.value).getD initial

lemma latest_cons_of_pos (h : p w = true) : latest p initial (w :: log) = w.value := by
  unfold latest
  rw [List.find?_cons_of_pos h]
  rfl

lemma latest_cons_of_neg (h : p w = false) : latest p initial (w :: log) = latest p initial log := by
  unfold latest
  rw [List.find?_cons_of_neg (Bool.eq_false_iff.mp h)]

lemma latest_congr (h : ∀ w ∈ log, p w = q w) : latest p initial log = latest q initial log := by
  induction log with
  | nil => rfl
  | cons w log ih =>
    have hrest := ih fun v hv => h v (mem_cons_of_mem _ hv)
    have hw := h w mem_cons_self
    cases hq : q w with
    | true => rw [latest_cons_of_pos hq, latest_cons_of_pos (hw.trans hq)]
    | false => rw [latest_cons_of_neg hq, latest_cons_of_neg (hw.trans hq), hrest]

lemma latest_eq_initial (h : ∀ w ∈ log, p w = false) : latest p initial log = initial := by
  unfold latest
  rw [List.find?_eq_none.mpr fun w hw => Bool.eq_false_iff.mp (h w hw)]
  rfl

end Latest

variable {α : Type} {both : Bool} {initial : α} {now : ℕ} {start : Option ℕ} {slot : Slot α}
  {log : List (SlotWrite α)} {value : α}

/-- Whether a write reaches the staged value. -/
def SlotWrite.reachesNext (both : Bool) (w : SlotWrite α) : Bool := !w.direct || both

variable (both initial now start slot log) in
/-- The slot after the writes of a log, at a time, with the time it has started at. -/
structure Tracks : Prop where
  sorted : log.Pairwise fun w w' => w'.time ≤ w.time
  times : ∀ w ∈ log, w.time ≤ now
  next : slot.next = latest (SlotWrite.reachesNext both) initial log
  before : start = none → slot.current = latest SlotWrite.direct initial log
  started : ∀ a ∈ start, a ≤ now ∧ ∀ w ∈ log, w.direct = true → w.time < a
  current : ∀ a ∈ start, slot.current =
    if now = a then latest SlotWrite.direct initial log
    else latest (fun w => w.reachesNext both && w.time < now) initial log

namespace Tracks

lemma new : Tracks both initial now none ⟨initial, initial⟩ [] :=
  ⟨.nil, by simp, rfl, fun _ => rfl, by simp, by simp⟩

variable (h : Tracks both initial now none slot log)
include h

lemma write : Tracks both initial now none (slot.write both value) (⟨now, true, value⟩ :: log) where
  sorted := pairwise_cons.mpr ⟨fun w hw => h.times w hw, h.sorted⟩
  times := forall_mem_cons.mpr ⟨le_rfl, h.times⟩
  next := by
    cases both with
    | true =>
      rfl
    | false =>
      exact h.next
  before _ := by
    rfl
  started := by simp
  current := by simp

omit h in
lemma stage (h : Tracks both initial now start slot log) :
    Tracks both initial now start (slot.stage value) (⟨now, false, value⟩ :: log) where
  sorted := pairwise_cons.mpr ⟨fun w hw => h.times w hw, h.sorted⟩
  times := forall_mem_cons.mpr ⟨le_rfl, h.times⟩
  next := by
    rfl
  before hst := by
    exact h.before hst
  started a ha :=
    ⟨(h.started a ha).1, forall_mem_cons.mpr ⟨fun hdir => (by cases hdir), (h.started a ha).2⟩⟩
  current a ha := by
    have hcurr := h.current a ha
    rw [latest_cons_of_neg (show SlotWrite.direct ⟨now, false, value⟩ = false from rfl),
      latest_cons_of_neg (by simp)]
    exact hcurr

lemma wait : Tracks both initial (now + 1) none slot log :=
  ⟨h.sorted, fun w hw => (h.times w hw).trans (Nat.le_succ _), h.next, h.before, by simp, by simp⟩

lemma begin : Tracks both initial (now + 1) (some (now + 1)) slot log where
  sorted := h.sorted
  times w hw := (h.times w hw).trans (Nat.le_succ _)
  next := h.next
  before hst := by cases hst
  started a ha := by
    obtain rfl := Option.mem_some.mp ha
    exact ⟨le_rfl, fun w hw _ => Nat.lt_succ_of_le (h.times w hw)⟩
  current a ha := by
    obtain rfl := Option.mem_some.mp ha
    rw [if_pos rfl]
    exact h.before rfl

omit h

lemma commit {a : ℕ} (h : Tracks both initial now (some a) slot log) : Tracks both initial (now + 1)
    (some a) slot.commit log where
  sorted := h.sorted
  times w hw := (h.times w hw).trans (Nat.le_succ _)
  next := h.next
  before hst := by cases hst
  started b hb := ⟨(h.started b hb).1.trans (Nat.le_succ _), (h.started b hb).2⟩
  current b hb := by
    have hstarted := (h.started b hb).1
    rw [if_neg (by omega)]
    refine h.next.trans (latest_congr fun w hw => ?_)
    have htime := h.times w hw
    simp [Nat.lt_succ_of_le htime]

/-- When the value in force is that of the newest write of an earlier period, for a slot whose
direct writes set both values. -/
lemma current_iff_of_both {a : ℕ} (h : Tracks true initial now (some a) slot log) :
    slot.current = latest (fun w => w.time < now) initial log ↔
      now ≠ a ∨ latest (fun w => w.time < now) initial log = latest SlotWrite.direct initial log := by
  rw [h.current a rfl]
  split_ifs with hnow
  · rw [or_iff_right (not_not_intro hnow), eq_comm]
  · refine iff_of_true (latest_congr fun w _ => ?_) (.inl hnow)
    simp [SlotWrite.reachesNext]

/-- The newest write of an earlier period is staged if one is, when nothing was staged
before the start. -/
lemma latest_staged {a : ℕ} (h : Tracks both initial now (some a) slot log)
    (hstaged : ∀ w ∈ log, w.direct = false → a ≤ w.time)
    (hsome : ∃ w ∈ log, w.direct = false ∧ w.time < now) :
    latest (fun w => w.time < now) initial log =
      latest (fun w => w.reachesNext false && w.time < now) initial log := by
  have hdir := (h.started a rfl).2
  have hsort := h.sorted
  clear h
  induction log with
  | nil => rfl
  | cons w log ih =>
    rw [pairwise_cons] at hsort
    by_cases htime : w.time < now
    · -- the first write that is early enough is at least as new as a staged one
      have hnot : w.direct = false := by
        obtain ⟨v, hv, hvstaged, -⟩ := hsome
        cases hw : w.direct with
        | false => rfl
        | true =>
          have hlt := hdir w mem_cons_self hw
          rcases mem_cons.mp hv with rfl | hv
          · rw [hw] at hvstaged
            cases hvstaged
          · have hle := hsort.1 v hv
            have hge := hstaged v (mem_cons_of_mem _ hv) hvstaged
            omega
      rw [latest_cons_of_pos (by simp [htime]),
        latest_cons_of_pos (by simp [SlotWrite.reachesNext, hnot, htime])]
    · rw [latest_cons_of_neg (by simp [htime]), latest_cons_of_neg (by simp [htime])]
      refine ih (fun v hv => hstaged v (mem_cons_of_mem _ hv)) ?_
        (fun v hv => hdir v (mem_cons_of_mem _ hv)) hsort.2
      obtain ⟨v, hv, hvstaged, hvtime⟩ := hsome
      rcases mem_cons.mp hv with rfl | hv
      · exact absurd hvtime htime
      · exact ⟨v, hv, hvstaged, hvtime⟩

/-- The same for a slot whose direct writes set the value in force only, when nothing was staged
before the start. -/
lemma current_iff_of_not_both {a : ℕ} (h : Tracks false initial now (some a) slot log)
    (hstaged : ∀ w ∈ log, w.direct = false → a ≤ w.time) :
    slot.current = latest (fun w => w.time < now) initial log ↔
      now = a ∨ (∃ w ∈ log, w.direct = false ∧ w.time < now) ∨
        latest SlotWrite.direct initial log = initial := by
  obtain ⟨hle, hdir⟩ := h.started a rfl
  rw [h.current a rfl]
  split_ifs with hnow
  · refine iff_of_true (latest_congr fun w hw => ?_) (.inl hnow)
    cases hw' : w.direct with
    | true =>
      have hlt := hdir w hw hw'
      simp [hnow, hlt]
    | false =>
      have hge := hstaged w hw hw'
      simp [hnow, hge]
  · rw [or_iff_right hnow]
    by_cases hsome : ∃ w ∈ log, w.direct = false ∧ w.time < now
    · exact iff_of_true (h.latest_staged hstaged hsome).symm (.inl hsome)
    · rw [or_iff_right hsome]
      -- all the earlier writes are direct
      have hnone : ∀ w ∈ log, w.direct = true ∨ ¬w.time < now := fun w hw => by
        cases hw' : w.direct with
        | true => exact .inl rfl
        | false => exact .inr fun htime => hsome ⟨w, hw, hw', htime⟩
      rw [latest_eq_initial fun w hw => ?_, latest_congr (q := SlotWrite.direct) fun w hw => ?_, eq_comm]
      · rcases hnone w hw with hw' | htime
        · have hlt := hdir w hw hw'
          simp [hw', hlt.trans_le hle]
        · have hw' : w.direct = false :=
            Bool.eq_false_iff.mpr fun hw' => htime ((hdir w hw hw').trans_le hle)
          simp [hw', htime]
      · rcases hnone w hw with hw' | htime
        · simp [SlotWrite.reachesNext, hw']
        · simp [htime]

end Tracks

end SuiProofs.Library

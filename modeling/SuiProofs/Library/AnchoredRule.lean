import Mathlib

namespace SuiProofs.Library

open List Option

/-- A rule for slots, which are decided directly or through a later anchor. -/
structure AnchoredRule (View Block : Type*) where
  wave : ℕ
  /-- The verdict that a view gives to a slot without an anchor. -/
  direct : View → ℕ → Option Block → Prop
  /-- An anchor commits a block at a slot. -/
  link : Block → ℕ → Block → Prop

namespace AnchoredRule

variable {View Block : Type*} (R : AnchoredRule View Block)

def Linked (a : Block) (k : ℕ) : Option Block → Prop
  | some b => R.link a k b
  | none => ∀ b, ¬ R.link a k b

/-- The anchor of a slot is the first later one that is not skipped. -/
inductive Decided (V : View) : ℕ → Option Block → Prop
  | direct {k : ℕ} {v : Option Block} : R.direct V k v → Decided V k v
  | anchored {k j : ℕ} {a : Block} {v : Option Block} :
      k + R.wave ≤ j → Decided V j (some a) → (∀ i, k + R.wave ≤ i → i < j → Decided V i none) →
      R.Linked a k v → Decided V k v

/-- The laws of a safe rule. `IsSlotBlock` holds of the candidates of a slot, `Certified` of
those that some view may commit. -/
structure Safe (IsSlotBlock Certified : ℕ → Block → Prop) : Prop where
  slotBlock_of_certified : ∀ {k b}, Certified k b → IsSlotBlock k b
  certified_of_direct : ∀ {V k b}, R.direct V k (some b) → Certified k b
  certified_of_link : ∀ {a k b}, R.link a k b → Certified k b
  certified_unique : ∀ {k b b'}, Certified k b → Certified k b' → b = b'
  not_certified_of_skip : ∀ {V k b}, R.direct V k none → ¬ Certified k b
  link_of_direct : ∀ {V j k a b}, R.direct V k (some b) → k + R.wave ≤ j → IsSlotBlock j a → R.link a k b

variable {R} {IsSlotBlock Certified : ℕ → Block → Prop} {V V' : View} {k j : ℕ} {v v' : Option Block}

lemma Decided.mono (hd : ∀ k v, R.direct V k v → R.direct V' k v) (h : R.Decided V k v) :
    R.Decided V' k v := by
  induction h with
  | direct h => exact .direct (hd _ _ h)
  | anchored hj _ _ hl iha ihskip => exact .anchored hj iha ihskip hl

lemma Decided.exists_direct {b : Block} (h : R.Decided V k (some b)) :
    ∃ j a, k ≤ j ∧ R.direct V j (some a) := by
  generalize hv : some b = v at h
  induction h generalizing b with
  | direct hd => exact ⟨_, b, le_rfl, hv ▸ hd⟩
  | anchored hj _ _ _ iha _ =>
    obtain ⟨j, a, hle, hd⟩ := iha rfl
    exact ⟨j, a, by omega, hd⟩

namespace Safe

variable (hsafe : R.Safe IsSlotBlock Certified)

include hsafe

lemma certified_of_decided {b : Block} (h : R.Decided V k (some b)) : Certified k b := by
  cases h with
  | direct hd => exact hsafe.certified_of_direct hd
  | anchored _ _ _ hl => exact hsafe.certified_of_link hl

lemma slotBlock_of_decided {b : Block} (h : R.Decided V k (some b)) : IsSlotBlock k b :=
  hsafe.slotBlock_of_certified (hsafe.certified_of_decided h)

lemma direct_unique (h : R.direct V k v) (h' : R.direct V' k v') : v = v' := by
  cases v with
  | none =>
    cases v' with
    | none => rfl
    | some b' => exact absurd (hsafe.certified_of_direct h') (hsafe.not_certified_of_skip h)
  | some b =>
    cases v' with
    | none => exact absurd (hsafe.certified_of_direct h) (hsafe.not_certified_of_skip h')
    | some b' =>
      rw [hsafe.certified_unique (hsafe.certified_of_direct h) (hsafe.certified_of_direct h')]

lemma linked_unique {a : Block} (h : R.Linked a k v) (h' : R.Linked a k v') : v = v' := by
  cases v with
  | none =>
    cases v' with
    | none => rfl
    | some b' => exact absurd h' (h b')
  | some b =>
    cases v' with
    | none => exact absurd h (h' b)
    | some b' => rw [hsafe.certified_unique (hsafe.certified_of_link h) (hsafe.certified_of_link h')]

lemma linked_of_direct {a : Block} (h : R.direct V k v) (hj : k + R.wave ≤ j)
    (ha : IsSlotBlock j a) : R.Linked a k v := by
  cases v with
  | none => exact fun b hl => hsafe.not_certified_of_skip h (hsafe.certified_of_link hl)
  | some b => exact hsafe.link_of_direct h hj ha

/-- Agreement: no two views decide a slot differently. -/
theorem decided_unique (h : R.Decided V k v) (h' : R.Decided V' k v') : v = v' := by
  induction h generalizing v' with
  | direct hd =>
    cases h' with
    | direct hd' => exact hsafe.direct_unique hd hd'
    | anchored hj ha _ hl =>
      exact hsafe.linked_unique (hsafe.linked_of_direct hd hj (hsafe.slotBlock_of_decided ha)) hl
  | @anchored k j a v hj ha hskip hl iha ihskip =>
    cases h' with
    | direct hd' =>
      exact (hsafe.linked_unique (hsafe.linked_of_direct hd' hj (hsafe.slotBlock_of_decided ha)) hl).symm
    | @anchored _ j' a' _ hj' ha' hskip' hl' =>
      -- The anchors are the same slot: the earlier of the two is skipped by the other view.
      rcases lt_trichotomy j j' with hlt | rfl | hlt
      · exact absurd (iha (hskip' j hj hlt)) (by simp)
      · have haa : a = a' := some.inj (iha ha')
        exact hsafe.linked_unique hl (haa ▸ hl')
      · exact absurd (ihskip j' hj' hlt ha') (by simp)

end Safe

section Verdict

open Classical in
variable (R V k) in
noncomputable def verdict : Option (Option Block) :=
  if h : ∃ v, R.Decided V k v then some h.choose else none

lemma verdict_eq_some_iff (hsafe : R.Safe IsSlotBlock Certified) :
    R.verdict V k = some v ↔ R.Decided V k v := by
  unfold verdict
  constructor
  · intro h
    split_ifs at h with hd
    exact some.inj h ▸ hd.choose_spec
  · intro h
    have hd : ∃ v, R.Decided V k v := ⟨v, h⟩
    rw [dif_pos hd, hsafe.decided_unique hd.choose_spec h]

lemma verdict_eq_none_iff : R.verdict V k = none ↔ ∀ v, ¬ R.Decided V k v := by
  unfold verdict
  split <;> simp_all

def firstAnchor (f : ℕ → Option (Option Block)) : List ℕ → Option Block
  | [] => none
  | j :: js =>
    match f j with
    | some (some a) => some a
    | some none => firstAnchor f js
    | none => none

lemma firstAnchor_range'_eq_some {f : ℕ → Option (Option Block)} {s n : ℕ} {a : Block} :
    firstAnchor f (List.range' s n) = some a ↔
      ∃ j, s ≤ j ∧ j < s + n ∧ f j = some (some a) ∧ ∀ i, s ≤ i → i < j → f i = some none := by
  induction n generalizing s with
  | zero => simp [firstAnchor]; omega
  | succ n ih =>
    rw [List.range'_succ, firstAnchor]
    cases hf : f s with
    | none =>
      simp only [reduceCtorEq, false_iff, not_exists, not_and]
      intro j hsj _ hj hskip
      rcases hsj.eq_or_lt with rfl | hlt
      · simp [hf] at hj
      · simpa [hf] using hskip s le_rfl hlt
    | some w =>
      cases w with
      | none =>
        rw [ih]
        constructor
        · rintro ⟨j, hsj, hjn, hj, hskip⟩
          refine ⟨j, by omega, by omega, hj, fun i hi hij => ?_⟩
          rcases hi.eq_or_lt with rfl | hlt
          · exact hf
          · exact hskip i hlt hij
        · rintro ⟨j, hsj, hjn, hj, hskip⟩
          rcases hsj.eq_or_lt with rfl | hlt
          · simp [hf] at hj
          · exact ⟨j, hlt, by omega, hj, fun i hi hij => hskip i (by omega) hij⟩
      | some b =>
        simp only [some.injEq]
        constructor
        · rintro rfl
          exact ⟨s, le_rfl, by omega, hf, fun i hi hij => by omega⟩
        · rintro ⟨j, hsj, _, hj, hskip⟩
          rcases hsj.eq_or_lt with rfl | hlt
          · simpa [hf] using hj
          · simpa [hf] using hskip s le_rfl hlt

/-- Deciding from the highest slot down: a slot that is not decided directly takes the verdict
of the first later slot that is not skipped. No commit lies at `bound` or above. -/
theorem decided_iff_of_not_direct (hsafe : R.Safe IsSlotBlock Certified) {bound : ℕ}
    (hbound : ∀ j a, R.Decided V j (some a) → j < bound) (hdirect : ∀ v, ¬ R.direct V k v) :
    R.Decided V k v ↔
      ∃ a, firstAnchor (R.verdict V) (List.range' (k + R.wave) (bound - (k + R.wave))) = some a ∧
        R.Linked a k v := by
  constructor
  · intro h
    cases h with
    | direct hd => exact absurd hd (hdirect v)
    | @anchored _ j a _ hj ha hskip hl =>
      refine ⟨a, firstAnchor_range'_eq_some.mpr ⟨j, hj, ?_, ?_, ?_⟩, hl⟩
      · have := hbound j a ha
        omega
      · exact (verdict_eq_some_iff hsafe).mpr ha
      · exact fun i hi hij => (verdict_eq_some_iff hsafe).mpr (hskip i hi hij)
  · rintro ⟨a, ha, hl⟩
    obtain ⟨j, hj, _, hja, hskip⟩ := firstAnchor_range'_eq_some.mp ha
    exact .anchored hj ((verdict_eq_some_iff hsafe).mp hja)
      (fun i hi hij => (verdict_eq_some_iff hsafe).mp (hskip i hi hij)) hl

end Verdict

end AnchoredRule

section DecidedRun

variable {α : Type*}

/-- The results of consecutive slots from `s` on, up to the first slot without one. -/
def decidedRun (f : ℕ → Option α) : ℕ → ℕ → List α
  | _, 0 => []
  | s, n + 1 =>
    match f s with
    | none => []
    | some x => x :: decidedRun f (s + 1) n

/-- Runs of functions that agree where both are defined are prefixes of one another. -/
lemma decidedRun_comparable {f g : ℕ → Option α}
    (h : ∀ k x y, f k = some x → g k = some y → x = y) (s n m : ℕ) :
    decidedRun f s n <+: decidedRun g s m ∨ decidedRun g s m <+: decidedRun f s n := by
  induction n generalizing s m with
  | zero => exact .inl nil_prefix
  | succ n ih =>
    cases m with
    | zero => exact .inr nil_prefix
    | succ m =>
      rw [decidedRun, decidedRun]
      cases hf : f s with
      | none => exact .inl nil_prefix
      | some x =>
        cases hg : g s with
        | none => exact .inr nil_prefix
        | some y =>
          obtain rfl := h s x y hf hg
          exact (ih (s + 1) m).imp (cons_prefix_cons.mpr ⟨rfl, ·⟩) (cons_prefix_cons.mpr ⟨rfl, ·⟩)

end DecidedRun

end SuiProofs.Library

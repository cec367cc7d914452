import Mathlib

namespace SuiProofs.Library

open List Option

lemma forall_mem_concat {α : Type*} {p : α → Prop} {l : List α} {a : α} (h : ∀ x ∈ l, p x) (ha : p a) :
    ∀ x ∈ l ++ [a], p x :=
  forall_mem_append.mpr ⟨h, forall_mem_singleton.mpr ha⟩

lemma rel_or_eq_last {α : Type*} {R : α → α → Prop} {l : List α} {a last : α} (h : l.Pairwise R)
    (hlast : l.getLast? = some last) (ha : a ∈ l) : R a last ∨ a = last := by
  obtain ⟨init, rfl⟩ := getLast?_eq_some_iff.mp hlast
  rcases mem_append.mp ha with ha | ha
  · exact .inl ((pairwise_append.mp h).2.2 a ha last (mem_singleton_self last))
  · exact .inr (mem_singleton.mp ha)

lemma rel_of_prefix {α : Type*} {R : α → α → Prop} {l done : List α} {a : α} (hl : l.Pairwise R)
    (h : done ++ [a] <+: l) {b : α} (hb : b ∈ done) : R b a :=
  (pairwise_append.mp (hl.sublist h.sublist)).2.2 b hb a (mem_singleton_self a)

section Except

variable {ε α β : Type} {x : Except ε α} {f : α → Except ε β} {l : List α} {bs : List β}
  {R : α → β → Prop}

lemma bind_eq_ok {b : β} :
    (x >>= f) = .ok b ↔ ∃ a, x = .ok a ∧ f a = .ok b := by
  cases x <;> simp [bind, Except.bind]

@[simp] lemma ok_bind (a : α) (f : α → Except ε β) : (Except.ok a >>= f) = f a := rfl

@[simp] lemma error_bind (e : ε) (f : α → Except ε β) : (Except.error e >>= f) = .error e := rfl

@[simp] lemma pure_eq_ok (a : α) : (pure a : Except ε α) = .ok a := rfl

lemma exists_eq_ok_of_isOk (h : x.isOk = true) : ∃ a, x = .ok a := by
  cases x with
  | error e => cases h
  | ok a => exact ⟨a, rfl⟩

def returns (x : Except ε α) (p : α → Bool) : Bool :=
  match x with
  | .ok a => p a
  | .error _ => false

lemma exists_of_returns {p : α → Bool} (h : returns x p = true) :
    ∃ a, x = .ok a ∧ p a = true := by
  cases x with
  | error e => cases h
  | ok a => exact ⟨a, rfl, h⟩

def failsWith [DecidableEq ε] (x : Except ε α) (e : ε) : Bool :=
  match x with
  | .ok _ => false
  | .error e' => e' = e

lemma eq_error_of_failsWith [DecidableEq ε] {e : ε} (h : failsWith x e = true) : x = .error e := by
  cases x with
  | ok a => cases h
  | error e' => exact congrArg Except.error (of_decide_eq_true h)

lemma mapM_eq_ok {g : α → β}
    (h : ∀ a ∈ l, f a = .ok (g a)) : l.mapM f = .ok (l.map g) := by
  induction l with
  | nil => rfl
  | cons a l ih =>
    rw [mapM_cons, h a mem_cons_self, ih (fun b hb => h b (mem_cons_of_mem a hb))]
    rfl

lemma mapM_eq_ok_iff :
    l.mapM f = .ok bs ↔ l.map f = bs.map .ok := by
  induction l generalizing bs with
  | nil => cases bs <;> simp
  | cons a l ih =>
    rw [mapM_cons, bind_eq_ok]
    constructor
    · rintro ⟨b, hb, h⟩
      obtain ⟨bs', hbs', h⟩ := bind_eq_ok.mp h
      obtain rfl : b :: bs' = bs := by simpa using h
      simp [hb, ih.mp hbs']
    · intro h
      cases bs with
      | nil => simp at h
      | cons b bs =>
        obtain ⟨hb, hbs⟩ := List.cons.inj h
        exact ⟨b, hb, bind_eq_ok.mpr ⟨bs, ih.mpr hbs, rfl⟩⟩

lemma of_mapM_eq_some {f : α → Option β} (h : l.mapM f = some bs) :
    (∀ b ∈ bs, ∃ a ∈ l, f a = some b) ∧ ∀ a ∈ l, ∃ b ∈ bs, f a = some b := by
  induction l generalizing bs with
  | nil =>
    cases h
    simp
  | cons a l ih =>
    rw [mapM_cons] at h
    obtain ⟨b, hb, h⟩ := bind_eq_some_iff.mp h
    obtain ⟨bs', hbs', h⟩ := bind_eq_some_iff.mp h
    cases h
    obtain ⟨hress, helts⟩ := ih hbs'
    refine ⟨fun b' hb' => ?_, fun a' ha' => ?_⟩
    · rcases mem_cons.mp hb' with rfl | hb'
      · exact ⟨a, mem_cons_self, hb⟩
      · obtain ⟨a', ha', hf⟩ := hress b' hb'
        exact ⟨a', mem_cons_of_mem a ha', hf⟩
    · rcases mem_cons.mp ha' with rfl | ha'
      · exact ⟨b, mem_cons_self, hb⟩
      · obtain ⟨b', hb', hf⟩ := helts a' ha'
        exact ⟨b', mem_cons_of_mem b hb', hf⟩

lemma eq_map_of_mapM_eq_some {f : α → Option β} {g : α → β} (hg : ∀ a b, f a = some b → b = g a)
    (h : l.mapM f = some bs) : bs = l.map g := by
  induction l generalizing bs with
  | nil => exact (some.inj h).symm
  | cons a l ih =>
    rw [mapM_cons] at h
    obtain ⟨b, hb, h⟩ := bind_eq_some_iff.mp h
    obtain ⟨bs', hbs', h⟩ := bind_eq_some_iff.mp h
    rw [← some.inj h, map_cons, hg a b hb, ih hbs']

lemma exists_mapM_eq_some {f : α → Option β} (h : ∀ a ∈ l, ∃ b, f a = some b) :
    ∃ bs, l.mapM f = some bs ∧ bs.length = l.length := by
  induction l with
  | nil => exact ⟨[], rfl, rfl⟩
  | cons a l ih =>
    obtain ⟨b, hb⟩ := h a mem_cons_self
    obtain ⟨bs, hbs, hlen⟩ := ih fun a' ha' => h a' (mem_cons_of_mem a ha')
    refine ⟨b :: bs, ?_, by rw [length_cons, length_cons, hlen]⟩
    rw [mapM_cons, hb, hbs]
    rfl

lemma map_of_mapM_eq_ok {g : β → α}
    (hg : ∀ a ∈ l, ∀ b, f a = .ok b → g b = a) (h : l.mapM f = .ok bs) : bs.map g = l := by
  rw [mapM_eq_ok_iff] at h
  induction l generalizing bs with
  | nil => simpa using h
  | cons a l ih =>
    cases bs with
    | nil => simp at h
    | cons b bs =>
      obtain ⟨hb, hbs⟩ := List.cons.inj h
      rw [map_cons, hg a mem_cons_self b hb, ih (fun a' ha' => hg a' (mem_cons_of_mem a ha')) hbs]

lemma forall₂_of_mapM_eq_ok (h : l.mapM f = .ok bs) :
    List.Forall₂ (fun a b => f a = .ok b) l bs := by
  rw [mapM_eq_ok_iff, ← forall₂_eq_eq_eq, forall₂_map_left_iff, forall₂_map_right_iff] at h
  exact h

lemma map_eq_of_forall₂ {γ : Type*} {f : α → γ} {g : β → γ} (hR : ∀ a b, R a b → g b = f a)
    (h : List.Forall₂ R l bs) : bs.map g = l.map f := by
  induction h with
  | nil => rfl
  | cons hab _ ih => rw [map_cons, map_cons, hR _ _ hab, ih]

lemma forall₂_comp {γ : Type} {S : β → γ → Prop} {as : List α} {cs : List γ} (hR : List.Forall₂ R as bs)
    (hS : List.Forall₂ S bs cs) : List.Forall₂ (Relation.Comp R S) as cs := by
  induction hR generalizing cs with
  | nil =>
    cases hS
    exact .nil
  | cons hab _ ih =>
    cases hS with
    | cons hbc htail => exact .cons ⟨_, hab, hbc⟩ (ih htail)

lemma exists_of_forall₂_right {as : List α} (h : List.Forall₂ R as bs) {b : β} (hb : b ∈ bs) :
    ∃ a ∈ as, R a b := by
  induction h with
  | nil => simp at hb
  | cons hab _ ih =>
    rcases mem_cons.mp hb with rfl | hb
    · exact ⟨_, mem_cons_self, hab⟩
    · obtain ⟨a, ha, hR⟩ := ih hb
      exact ⟨a, mem_cons_of_mem _ ha, hR⟩

lemma mapM_total (h : ∀ a ∈ l, ∃ b, f a = .ok b) :
    ∃ bs, l.mapM f = .ok bs ∧ ∀ b, b ∈ bs ↔ ∃ a ∈ l, f a = .ok b := by
  have hmap : ∃ bs : List β, l.map f = bs.map .ok := by
    induction l with
    | nil => exact ⟨[], rfl⟩
    | cons a l ih =>
      obtain ⟨b, hb⟩ := h a mem_cons_self
      obtain ⟨bs, hbs⟩ := ih (fun a' ha' => h a' (mem_cons_of_mem a ha'))
      exact ⟨b :: bs, by simp [hb, hbs]⟩
  obtain ⟨bs, hbs⟩ := hmap
  refine ⟨bs, mapM_eq_ok_iff.mpr hbs, fun b => ?_⟩
  have hmem : Except.ok b ∈ l.map f ↔ Except.ok b ∈ bs.map (.ok : β → Except ε β) := by rw [hbs]
  simpa using hmem.symm

lemma filterM_eq_ok {f : α → Except ε Bool} {p : α → Bool}
    (h : ∀ a ∈ l, f a = .ok (p a)) : l.filterM f = .ok (l.filter p) := by
  suffices haux : ∀ acc, List.filterAuxM f l acc = .ok ((l.filter p).reverse ++ acc) by
    simp [List.filterM, haux, bind, Except.bind, pure, Except.pure]
  induction l with
  | nil => intro acc; rfl
  | cons a l ih =>
    intro acc
    rw [List.filterAuxM, h a mem_cons_self, ok_bind, ih (fun b hb => h b (mem_cons_of_mem a hb))]
    cases hp : p a <;> simp [hp, cond]

lemma foldlM_some_induction {f : β → α → Option β} {b c : β} (P : β → Prop) (hb : P b)
    (hstep : ∀ b b' a, a ∈ l → P b → f b a = some b' → P b') (h : l.foldlM f b = some c) : P c := by
  induction l generalizing b with
  | nil =>
    cases h
    exact hb
  | cons a l ih =>
    obtain ⟨b', hb', h⟩ := bind_eq_some_iff.mp h
    have hP := hstep b b' a mem_cons_self hb hb'
    exact ih hP (fun b b' x hx => hstep b b' x (mem_cons_of_mem a hx)) h

/-- The results of a computation satisfy `Q`, and it fails only with the errors in `E`. -/
def Ends (x : Except ε α) (E : ε → Prop) (Q : α → Prop) : Prop :=
  (∀ a, x = .ok a → Q a) ∧ ∀ e, x = .error e → E e

namespace Ends

variable {E : ε → Prop} {Q : α → Prop} {R : β → Prop}

lemma ok {a : α} (h : Q a) : Ends (.ok a : Except ε α) E Q :=
  ⟨fun _ he => Except.ok.inj he ▸ h, fun _ he => by cases he⟩

lemma error {e : ε} (h : E e) : Ends (.error e : Except ε α) E Q :=
  ⟨fun _ he => (by cases he), fun _ he => Except.error.inj he ▸ h⟩

lemma exists_ok (hx : Ends x (fun _ => False) Q) : ∃ a, x = .ok a ∧ Q a := by
  cases x with
  | error e => exact (hx.2 e rfl).elim
  | ok a => exact ⟨a, rfl, hx.1 a rfl⟩

lemma mono {E' : ε → Prop} (hx : Ends x E Q) (hE : ∀ e, E e → E' e) : Ends x E' Q :=
  ⟨hx.1, fun e he => hE e (hx.2 e he)⟩

lemma bind (hx : Ends x E Q) (hf : ∀ a, x = .ok a → Q a → Ends (f a) E R) :
    Ends (x >>= f) E R := by
  cases x with
  | error e => exact .error (hx.2 e rfl)
  | ok a => exact hf a rfl (hx.1 a rfl)

lemma foldlM {f : β → α → Except ε β} {b : β} (I : List α → β → Prop)
    (hstep : ∀ done a b, done ++ [a] <+: l → I done b → Ends (f b a) E (I (done ++ [a]))) (hb : I [] b) :
    Ends (l.foldlM f b) E (I l) := by
  suffices h : ∀ rest done b, done ++ rest = l → I done b →
    Ends (rest.foldlM f b) E (I l) from h l [] b rfl hb
  intro rest
  induction rest with
  | nil =>
    rintro done b rfl hb
    exact .ok (by simpa using hb)
  | cons a rest ih =>
    intro done b hl hb
    refine (hstep done a b ⟨rest, by simpa using hl⟩ hb).bind fun c _ hc => ?_
    exact ih (done ++ [a]) c (by simpa using hl) hc

end Ends

variable {f : β → α → Except ε β} {b : β}

lemma foldlM_ok_induction {c : β} (P : β → Prop)
    (hstep : ∀ b a c, a ∈ l → P b → f b a = .ok c → P c) (hb : P b)
    (h : l.foldlM f b = .ok c) : P c := by
  have hends : Ends (l.foldlM f b) (fun _ => True) P := by
    refine Ends.foldlM (fun _ => P) (fun done a b hdone hb => ?_) hb
    exact ⟨fun c hc => hstep b a c (hdone.subset (by simp)) hb hc, fun _ _ => trivial⟩
  exact hends.1 c h

/-- Total correctness of a loop over a list, with an invariant on the part done so far. -/
lemma foldlM_total_of_prefix (I : List α → β → Prop)
    (hstep : ∀ done a b, done ++ [a] <+: l → I done b → ∃ c, f b a = .ok c ∧ I (done ++ [a]) c)
    (hb : I [] b) :
    ∃ c, l.foldlM f b = .ok c ∧ I l c := by
  refine (Ends.foldlM I (fun done a b hdone hb => ?_) hb).exists_ok
  obtain ⟨c, hc, hI⟩ := hstep done a b hdone hb
  rw [hc]
  exact .ok hI

lemma foldlM_total (I : List α → β → Prop)
    (hstep : ∀ done a b, a ∈ l → I done b → ∃ c, f b a = .ok c ∧ I (done ++ [a]) c) (hb : I [] b) :
    ∃ c, l.foldlM f b = .ok c ∧ I l c :=
  foldlM_total_of_prefix I (fun done a b hdone => hstep done a b (hdone.subset (by simp))) hb

end Except

/-- Runs `step` until it returns a result, at most `fuel` times. -/
def loopM {m : Type → Type} [Monad m] {σ ρ : Type} (exhausted : m ρ) (step : σ → m (σ ⊕ ρ)) :
    ℕ → σ → m ρ
  | 0, _ => exhausted
  | fuel + 1, s => do
    match ← step s with
    | .inl s' => loopM exhausted step fuel s'
    | .inr r => pure r

section Loop

variable {ε σ ρ : Type} {exhausted : Except ε ρ} {step : σ → Except ε (σ ⊕ ρ)}

lemma loopM_total (I : σ → Prop) (Q : ρ → Prop) (μ : σ → ℕ)
    (hstep : ∀ s, I s → (∃ s', step s = .ok (.inl s') ∧ I s' ∧ μ s' < μ s) ∨
      ∃ r, step s = .ok (.inr r) ∧ Q r)
    {fuel : ℕ} {s : σ} (hs : I s) (hfuel : μ s < fuel) :
    ∃ r, loopM exhausted step fuel s = .ok r ∧ Q r := by
  induction fuel generalizing s with
  | zero => omega
  | succ fuel ih =>
    rcases hstep s hs with ⟨s', he, hs', hμ⟩ | ⟨r, he, hr⟩
    · obtain ⟨r, hr, hq⟩ := ih hs' (by omega)
      exact ⟨r, by rw [loopM, he, ok_bind]; exact hr, hq⟩
    · exact ⟨r, by rw [loopM, he, ok_bind]; rfl, hr⟩

/-- Two loops that take the same steps return the same, whatever their fuel. -/
lemma loopM_unique {step' : σ → Except ε (σ ⊕ ρ)} {e : ε} (I : σ → Prop)
    (heq : ∀ s, I s → step s = step' s)
    (hI : ∀ s s', I s → step s = .ok (.inl s') → I s') {fuel fuel' : ℕ} {s : σ} {r r' : ρ} (hs : I s)
    (h : loopM (.error e) step fuel s = .ok r)
    (h' : loopM (.error e) step' fuel' s = .ok r') : r = r' := by
  induction fuel generalizing s fuel' with
  | zero => cases h
  | succ fuel ih =>
    cases fuel' with
    | zero => cases h'
    | succ fuel' =>
      rw [loopM, bind_eq_ok] at h h'
      obtain ⟨x, hx, h⟩ := h
      obtain ⟨x', hx', h'⟩ := h'
      rw [← heq s hs, hx] at hx'
      cases hx'
      cases x with
      | inl s' => exact ih (hI s s' hs hx) h h'
      | inr r₀ =>
        cases h
        exact Except.ok.inj h'

end Loop

end SuiProofs.Library

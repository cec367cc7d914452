import Mathlib

namespace SuiProofs.Library

open List Option
open Std (TreeMap TreeSet)

instance lawfulEqOrd_of_linearOrder {α : Type*} [LinearOrder α] : Std.LawfulEqOrd α where
  eq_of_compare h := compare_eq_iff_eq.mp h

lemma getLast?_eq_some_iff {β : Type*} {l : List β} {R : β → β → Prop} {a : β} (hl : l.Pairwise R)
    (hR : ∀ a b, R a b → ¬ R b a) : l.getLast? = some a ↔ a ∈ l ∧ ∀ b ∈ l, b = a ∨ R b a := by
  induction l with
  | nil => simp
  | cons x l ih =>
    rw [pairwise_cons] at hl
    cases l with
    | nil =>
      simp only [List.getLast?_singleton, some.injEq, mem_singleton, forall_eq]
      tauto
    | cons y l =>
      rw [List.getLast?_cons_cons, ih hl.2]
      constructor
      · rintro ⟨ha, hall⟩
        refine ⟨mem_cons_of_mem x ha, fun b hb => ?_⟩
        rcases mem_cons.mp hb with rfl | hb
        · exact .inr (hl.1 a ha)
        · exact hall b hb
      · rintro ⟨ha, hall⟩
        refine ⟨?_, fun b hb => hall b (mem_cons_of_mem x hb)⟩
        rcases mem_cons.mp ha with rfl | ha
        · -- The head precedes `y`, so it is not the last element.
          have hy := hl.1 y mem_cons_self
          rcases hall y (by simp) with rfl | hya
          · exact mem_cons_self
          · exact absurd hya (hR _ _ hy)
        · exact ha

/-- A function that tells the elements of two lists apart tells the lists apart. -/
lemma eq_of_map_eq {β γ : Type*} {f : β → γ} {l l' : List β}
    (hinj : ∀ a ∈ l, ∀ b ∈ l', f a = f b → a = b) (h : l.map f = l'.map f) : l = l' := by
  induction l generalizing l' with
  | nil => simpa [eq_comm] using h
  | cons a l ih =>
    cases l' with
    | nil => simp at h
    | cons b l' =>
      obtain ⟨hab, h⟩ := List.cons.inj h
      rw [hinj a mem_cons_self b mem_cons_self hab,
        ih (fun x hx y hy => hinj x (mem_cons_of_mem a hx) y (mem_cons_of_mem b hy)) h]

variable {α β γ : Type*} [LinearOrder α]

section Map

variable {m : TreeMap α γ} {key : β → α} {val : β → γ} {l : List β} {k : α} {v : γ}

lemma getElem?_insert_ite (a : α) [Decidable (k = a)] :
    (m.insert k v)[a]? = if k = a then some v else m[a]? := by
  simp only [TreeMap.getElem?_insert, compare_eq_iff_eq]

lemma getElem?_erase_ite (a : α) [Decidable (k = a)] :
    (m.erase k)[a]? = if k = a then none else m[a]? := by
  simp only [TreeMap.getElem?_erase, compare_eq_iff_eq]

/-- An entry after an insertion is the new one or an old one. -/
lemma entry_of_insert {k' : α} {v' : γ} (h : (m.insert k v)[k']? = some v') :
    k = k' ∧ v = v' ∨ k ≠ k' ∧ m[k']? = some v' := by
  rw [getElem?_insert_ite] at h
  split_ifs at h with hk
  · exact .inl ⟨hk, some.inj h⟩
  · exact .inr ⟨hk, h⟩

lemma entry_of_erase {k' : α} {v' : γ} (h : (m.erase k)[k']? = some v') : k ≠ k' ∧ m[k']? = some v' := by
  rw [getElem?_erase_ite] at h
  split_ifs at h with hk
  exact ⟨hk, h⟩

/-- The map has an entry for `a` that contains `b`. -/
def Collects [Membership β γ] (m : TreeMap α γ) (a : α) (b : β) : Prop := ∃ bs, m[a]? = some bs ∧ b ∈ bs

section Collects

variable [Membership β γ] {a : α} {b : β}

lemma collects_iff_mem (h : m[a]? = some v) : Collects m a b ↔ b ∈ v := by
  simp [Collects, h]

lemma collects_iff_mem_getD {default : γ} (h : b ∉ default) :
    Collects m a b ↔ b ∈ (m[a]?).getD default := by
  cases hget : m[a]? <;> simp [Collects, hget, h]

lemma collects_insert : Collects (m.insert k v) a b ↔ if k = a then b ∈ v else Collects m a b := by
  rw [Collects, getElem?_insert_ite]
  split_ifs <;> simp [Collects]

lemma collects_erase : Collects (m.erase k) a b ↔ k ≠ a ∧ Collects m a b := by
  rw [Collects, getElem?_erase_ite]
  split_ifs with hk <;> simp [Collects, hk]

end Collects

lemma mem_foldl_insert_map :
    k ∈ l.foldl (fun m b => m.insert (key b) (val b)) m ↔ k ∈ m ∨ ∃ b ∈ l, key b = k := by
  induction l generalizing m with
  | nil => simp
  | cons b l ih =>
    rw [foldl_cons, ih, TreeMap.mem_insert, compare_eq_iff_eq]
    simp only [mem_cons, exists_eq_or_imp]
    tauto

lemma getElem?_foldl_insert_map (P : α → γ → Prop) (hm : ∀ k v, m[k]? = some v → P k v)
    (hl : ∀ b ∈ l, P (key b) (val b))
    (h : (l.foldl (fun m b => m.insert (key b) (val b)) m)[k]? = some v) : P k v := by
  induction l generalizing m with
  | nil => exact hm k v h
  | cons b l ih =>
    refine ih (m := m.insert (key b) (val b)) ?_ (fun b' hb' => hl b' (mem_cons_of_mem b hb')) h
    intro k' v' h'
    rcases entry_of_insert h' with ⟨rfl, rfl⟩ | ⟨-, h'⟩
    · exact hl b mem_cons_self
    · exact hm k' v' h'

lemma getElem?_foldl_erase {ks : List α} :
    (ks.foldl (fun m k => m.erase k) m)[k]? = if k ∈ ks then none else m[k]? := by
  induction ks generalizing m with
  | nil => simp
  | cons a ks ih =>
    rw [foldl_cons, ih, TreeMap.getElem?_erase]
    by_cases hk : k ∈ ks
    · simp [hk]
    · by_cases ha : a = k
      · simp [ha]
      · simp [hk, ha, Ne.symm ha]

lemma mem_map_iff_exists : k ∈ m ↔ ∃ v, m[k]? = some v := by
  rw [TreeMap.mem_iff_isSome_getElem?, isSome_iff_exists]

lemma mem_map_snd_filter {p : α × γ → Bool} :
    v ∈ (m.toList.filter p).map Prod.snd ↔ ∃ k, m[k]? = some v ∧ p (k, v) = true := by
  simp [TreeMap.mem_toList_iff_getElem?_eq_some]

lemma pairwise_fst_toList : m.toList.Pairwise (fun a b => a.1 < b.1) :=
  TreeMap.ordered_keys_toList.imp compare_lt_iff_lt.mp

/-- Values stored under a key of their own: a loop that inserts more of them adds exactly these. -/
lemma getElem?_foldl_insert_iff {f : γ → α} {S : Set γ} {vs : List γ}
    (hm : ∀ k v, m[k]? = some v ↔ v ∈ S ∧ f v = k)
    (hinj : ∀ v v', (v ∈ S ∨ v ∈ vs) → (v' ∈ S ∨ v' ∈ vs) → f v = f v' → v = v') :
    (vs.foldl (fun m v => m.insert (f v) v) m)[k]? = some v ↔ (v ∈ S ∨ v ∈ vs) ∧ f v = k := by
  have hsound : ∀ k v, (vs.foldl (fun m v => m.insert (f v) v) m)[k]? = some v →
      (v ∈ S ∨ v ∈ vs) ∧ f v = k := by
    intro k v hv
    refine getElem?_foldl_insert_map (fun k v => (v ∈ S ∨ v ∈ vs) ∧ f v = k) ?_ ?_ hv
    · exact fun k v hv => ((hm k v).mp hv).imp_left .inl
    · exact fun v hv => ⟨.inr hv, rfl⟩
  refine ⟨hsound k v, ?_⟩
  rintro ⟨hv, rfl⟩
  have hmem : f v ∈ vs.foldl (fun m v => m.insert (f v) v) m := by
    rw [mem_foldl_insert_map]
    rcases hv with hv | hv
    · exact .inl (mem_map_iff_exists.mpr ⟨v, (hm _ v).mpr ⟨hv, rfl⟩⟩)
    · exact .inr ⟨v, hv, rfl⟩
  obtain ⟨v', hv'⟩ := mem_map_iff_exists.mp hmem
  obtain ⟨hmem', he⟩ := hsound _ v' hv'
  rw [hv', hinj v' v hmem' hv he]

lemma pairwise_map_snd_filter {f : γ → α} (h : ∀ k v, m[k]? = some v → f v = k) (p : α × γ → Bool) :
    ((m.toList.filter p).map Prod.snd).Pairwise (fun a b => f a < f b) := by
  have hvs : m.toList.Pairwise (fun a b => f a.2 < f b.2) := by
    refine pairwise_fst_toList.imp_of_mem ?_
    rintro ⟨k, v⟩ ⟨k', v'⟩ ha hb hlt
    rw [TreeMap.mem_toList_iff_getElem?_eq_some] at ha hb
    rwa [h k v ha, h k' v' hb]
  exact pairwise_map.mpr (hvs.filter p)

lemma nodup_map_snd_filter {f : γ → α} (h : ∀ k v, m[k]? = some v → f v = k) (p : α × γ → Bool) :
    ((m.toList.filter p).map Prod.snd).Nodup := by
  apply (pairwise_map_snd_filter h p).imp
  rintro a _ hlt rfl
  exact lt_irrefl (f a) hlt

def lastPair? (m : TreeMap α γ) : Option (α × γ) := m.toList.getLast?

lemma lastPair?_eq_some_iff : lastPair? m = some (k, v) ↔ m[k]? = some v ∧ ∀ k' ∈ m, k' ≤ k := by
  rw [lastPair?, getLast?_eq_some_iff pairwise_fst_toList (fun a b hab hba => lt_asymm hab hba),
    TreeMap.mem_toList_iff_getElem?_eq_some]
  refine and_congr_right fun hk => ?_
  constructor
  · intro h k' hk'
    obtain ⟨v', hv'⟩ := mem_map_iff_exists.mp hk'
    rcases h (k', v') (TreeMap.mem_toList_iff_getElem?_eq_some.mpr hv') with he | hlt
    · exact (Prod.mk.inj he).1.le
    · exact hlt.le
  · rintro h ⟨k', v'⟩ hk'
    rw [TreeMap.mem_toList_iff_getElem?_eq_some] at hk'
    rcases (h k' (mem_map_iff_exists.mpr ⟨v', hk'⟩)).eq_or_lt with rfl | hlt
    · exact .inl (by rw [some.inj (hk'.symm.trans hk)])
    · exact .inr hlt

lemma lastPair?_eq_none_iff : lastPair? m = none ↔ ∀ k, k ∉ m := by
  rw [lastPair?, List.getLast?_eq_none_iff, eq_nil_iff_forall_not_mem]
  constructor
  · intro h k hk
    obtain ⟨v, hv⟩ := mem_map_iff_exists.mp hk
    exact h (k, v) (TreeMap.mem_toList_iff_getElem?_eq_some.mpr hv)
  · rintro h ⟨k, v⟩ hk
    exact h k (mem_map_iff_exists.mpr ⟨v, TreeMap.mem_toList_iff_getElem?_eq_some.mp hk⟩)

lemma perm_keys_insert (h : k ∉ m) : (m.insert k v).keys.Perm (k :: m.keys) := by
  rw [perm_ext_iff_of_nodup TreeMap.nodup_keys (nodup_cons.mpr ⟨by simpa using h, TreeMap.nodup_keys⟩)]
  intro a
  rw [TreeMap.mem_keys, TreeMap.mem_insert, compare_eq_iff_eq, mem_cons, TreeMap.mem_keys]
  exact or_congr_left eq_comm

lemma perm_keys_erase (h : k ∈ m) : m.keys.Perm (k :: (m.erase k).keys) := by
  have hnot : k ∉ (m.erase k).keys := by simp
  rw [perm_ext_iff_of_nodup TreeMap.nodup_keys (nodup_cons.mpr ⟨hnot, TreeMap.nodup_keys⟩)]
  intro a
  by_cases ha : a = k
  · simp [ha, h]
  · simp [ha, Ne.symm ha]

lemma getElem?_foldl_insert_pairs {l : List (α × γ)} (hl : (l.map Prod.fst).Nodup)
    (m : TreeMap α γ) (k : α) :
    (∀ v, (k, v) ∈ l → (l.foldl (fun m e => m.insert e.1 e.2) m)[k]? = some v) ∧
      (k ∉ l.map Prod.fst → (l.foldl (fun m e => m.insert e.1 e.2) m)[k]? = m[k]?) := by
  induction l generalizing m with
  | nil => simp
  | cons e l ih =>
    rw [map_cons, nodup_cons] at hl
    obtain ⟨hin, hout⟩ := ih hl.2 (m.insert e.1 e.2)
    rw [foldl_cons]
    constructor
    · intro v hv
      rcases mem_cons.mp hv with rfl | hv
      · rw [hout hl.1, TreeMap.getElem?_insert_self]
      · exact hin v hv
    · intro hk
      rw [map_cons, mem_cons, not_or] at hk
      rw [hout hk.2, getElem?_insert_ite, if_neg (Ne.symm hk.1)]

lemma getElem?_foldl_insert_toList (m m' : TreeMap α γ) (k : α) :
    (m'.toList.foldl (fun m e => m.insert e.1 e.2) m)[k]? = (m'[k]?).or m[k]? := by
  have hnd : (m'.toList.map Prod.fst).Nodup := by
    rw [TreeMap.map_fst_toList_eq_keys]
    exact TreeMap.nodup_keys
  obtain ⟨hin, hout⟩ := getElem?_foldl_insert_pairs hnd m k
  cases hk : m'[k]? with
  | none =>
    apply hout
    rw [TreeMap.map_fst_toList_eq_keys, TreeMap.mem_keys, TreeMap.mem_iff_isSome_getElem?, hk]
    simp
  | some v => exact hin v (TreeMap.mem_toList_iff_getElem?_eq_some.mpr hk)

lemma nodup_toList_map (m : TreeMap α γ) : m.toList.Nodup :=
  pairwise_fst_toList.imp fun h => ne_of_apply_ne Prod.fst h.ne

/-- A new key goes between the smaller and the greater ones. -/
lemma exists_toList_insert (h : k ∉ m) :
    ∃ l₁ l₂, m.toList = l₁ ++ l₂ ∧ (m.insert k v).toList = l₁ ++ (k, v) :: l₂ := by
  obtain ⟨l₁, l₂, hl⟩ := append_of_mem (show (k, v) ∈ (m.insert k v).toList by simp)
  have hsort := pairwise_fst_toList (m := m.insert k v)
  have hnew := nodup_toList_map (m.insert k v)
  rw [hl] at hsort hnew
  refine ⟨l₁, l₂, pairwise_fst_toList.eq_of_mem_iff
    (hsort.sublist ((sublist_cons_self _ _).append_left l₁)) ?_, hl⟩
  rintro ⟨k', v'⟩
  by_cases hk : (k', v') = (k, v)
  · rw [hk, iff_false_right (nodup_cons.mp (nodup_middle.mp hnew)).1,
      TreeMap.mem_toList_iff_getElem?_eq_some]
    exact fun hget => h (mem_map_iff_exists.mpr ⟨v, hget⟩)
  · have hmem : (k', v') ∈ l₁ ++ (k, v) :: l₂ ↔ (k', v') ∈ m.toList := by
      rw [← hl, TreeMap.mem_toList_iff_getElem?_eq_some, TreeMap.mem_toList_iff_getElem?_eq_some,
        getElem?_insert_ite]
      split_ifs with he
      · subst he
        simp_all [eq_comm]
      · rfl
    simpa [hk] using hmem.symm

lemma sum_map_insert {M : Type*} [AddCommMonoid M] (m : TreeMap α γ) (k : α) (v : γ) (f : γ → M) :
    ((m.insert k v).toList.map fun e => f e.2).sum + (m[k]?).elim 0 f =
      (m.toList.map fun e => f e.2).sum + f v := by
  have hperm : ∀ v', ((m.insert k v').toList).Perm ((k, v') :: (m.toList.filter fun e => e.1 ≠ k)) := by
    intro v'
    have hnot : (k, v') ∉ m.toList.filter fun e => e.1 ≠ k := by simp
    rw [perm_ext_iff_of_nodup (nodup_toList_map _)
      (nodup_cons.mpr ⟨hnot, (nodup_toList_map m).filter _⟩)]
    rintro ⟨k₁, v₁⟩
    rw [mem_cons, mem_filter, TreeMap.mem_toList_iff_getElem?_eq_some,
      TreeMap.mem_toList_iff_getElem?_eq_some,
      getElem?_insert_ite, Prod.mk.injEq]
    by_cases hk : k = k₁
    · simp [hk, eq_comm]
    · simp [hk, Ne.symm hk]
  have hins := ((hperm v).map fun e => f e.2).sum_eq
  rw [map_cons, sum_cons] at hins
  cases hget : m[k]? with
  | none =>
    have hfil : (m.toList.filter fun e => e.1 ≠ k) = m.toList := by
      rw [filter_eq_self]
      rintro ⟨k₁, v₁⟩ he
      have hget₁ := TreeMap.mem_toList_iff_getElem?_eq_some.mp he
      apply decide_eq_true
      rintro rfl
      rw [hget] at hget₁
      cases hget₁
    rw [hfil] at hins
    rw [hins, elim_none, add_zero, add_comm]
  | some old =>
    have hsame : ∀ k' : α, (m.insert k old)[k']? = m[k']? := by
      intro k'
      rw [getElem?_insert_ite]
      split_ifs with hk
      · rw [← hk, hget]
      · rfl
    have hold : m.toList.Perm ((k, old) :: (m.toList.filter fun e => e.1 ≠ k)) := by
      refine List.Perm.trans ?_ (hperm old)
      rw [perm_ext_iff_of_nodup (nodup_toList_map _) (nodup_toList_map _)]
      intro e
      rw [TreeMap.mem_toList_iff_getElem?_eq_some, TreeMap.mem_toList_iff_getElem?_eq_some, hsame]
    have htot := (hold.map fun e => f e.2).sum_eq
    rw [map_cons, sum_cons] at htot
    rw [hins, htot, elim_some]
    rw [add_assoc, add_comm, add_comm _ (f old)]

lemma toList_foldl_insert_pairs {l : List (α × γ)} (hl : l.Pairwise fun a b => a.1 < b.1) :
    (l.foldl (fun m e => m.insert e.1 e.2) (∅ : TreeMap α γ)).toList = l := by
  have hkeys : (l.map Prod.fst).Nodup := pairwise_map.mpr (hl.imp fun h => h.ne)
  have hmem : ∀ e, e ∈ (l.foldl (fun m e => m.insert e.1 e.2) (∅ : TreeMap α γ)).toList ↔ e ∈ l := by
    intro e
    rw [TreeMap.mem_toList_iff_getElem?_eq_some]
    obtain ⟨hin, hout⟩ := getElem?_foldl_insert_pairs hkeys ∅ e.1
    by_cases he : e.1 ∈ l.map Prod.fst
    · obtain ⟨e', he', hkey⟩ := mem_map.mp he
      rw [hin e'.2 (hkey ▸ he')]
      constructor
      · intro hv
        have heq : e = e' := Prod.ext hkey.symm (some.inj hv).symm
        exact heq ▸ he'
      · intro hl'
        rw [← hin e'.2 (hkey ▸ he'), hin e.2 hl']
    · rw [hout he]
      exact ⟨fun hv => by simp at hv, fun hl' => absurd (mem_map_of_mem hl') he⟩
  have hperm := (perm_ext_iff_of_nodup (nodup_toList_map _)
    (hl.imp fun h => ne_of_apply_ne Prod.fst h.ne)).mpr hmem
  exact hperm.eq_of_pairwise (fun a b _ _ hab hba => absurd hab hba.asymm) pairwise_fst_toList hl

def firstPair? (m : TreeMap α γ) : Option (α × γ) := m.toList.head?

lemma of_firstPair?_eq_some (h : firstPair? m = some (k, v)) : m[k]? = some v ∧ ∀ k' ∈ m, k ≤ k' := by
  have hsort := pairwise_fst_toList (m := m)
  obtain ⟨rest, hrest⟩ := List.head?_eq_some_iff.mp h
  refine ⟨TreeMap.mem_toList_iff_getElem?_eq_some.mp (hrest ▸ mem_cons_self), fun k' hk' => ?_⟩
  obtain ⟨v', hv'⟩ := mem_map_iff_exists.mp hk'
  have hmem := TreeMap.mem_toList_iff_getElem?_eq_some.mpr hv'
  rw [hrest] at hmem hsort
  rcases mem_cons.mp hmem with he | hmem
  · exact (Prod.mk.inj he).1.ge
  · exact ((pairwise_cons.mp hsort).1 _ hmem).le

lemma lastPair?_foldl_insert {l : List (α × γ)} (hl : l.Pairwise (fun a b => a.1 ≤ b.1)) :
    lastPair? (l.foldl (fun m i => m.insert i.1 i.2) (∅ : TreeMap α γ)) = l.getLast? := by
  cases hlast : l.getLast? with
  | none =>
    rw [List.getLast?_eq_none_iff.mp hlast]
    rfl
  | some i =>
    obtain ⟨init, rfl⟩ := List.getLast?_eq_some_iff.mp hlast
    rw [foldl_append, foldl_cons, foldl_nil, lastPair?_eq_some_iff]
    refine ⟨TreeMap.getElem?_insert_self, fun k hk => ?_⟩
    rw [TreeMap.mem_insert, compare_eq_iff_eq, mem_foldl_insert_map] at hk
    rcases hk with rfl | hk | ⟨j, hj, rfl⟩
    · exact le_rfl
    · simp at hk
    · exact (pairwise_append.mp hl).2.2 j hj i (mem_singleton_self i)

end Map

section Set

variable {t : TreeSet α} {l : List β} {f : β → α} {a : α}

lemma mem_foldl_insert_set : a ∈ l.foldl (fun t b => t.insert (f b)) t ↔ a ∈ t ∨ ∃ b ∈ l, f b = a := by
  induction l generalizing t with
  | nil => simp
  | cons b l ih =>
    rw [foldl_cons, ih, TreeSet.mem_insert, compare_eq_iff_eq]
    simp only [mem_cons, exists_eq_or_imp]
    tauto

lemma mem_foldl_erase_set {as : List α} : a ∈ as.foldl (fun t b => t.erase b) t ↔ a ∉ as ∧ a ∈ t := by
  induction as generalizing t with
  | nil => simp
  | cons b as ih =>
    rw [foldl_cons, ih, TreeSet.mem_erase, Ne, compare_eq_iff_eq, mem_cons]
    tauto

lemma pairwise_lt_toList : t.toList.Pairwise (· < ·) :=
  TreeSet.ordered_toList.imp compare_lt_iff_lt.mp

lemma nodup_toList : t.toList.Nodup := pairwise_lt_toList.imp fun h => h.ne

lemma toList_foldl_insert_set {l : List α} (hl : l.Pairwise (· < ·)) :
    (l.foldl (fun t b => t.insert b) (∅ : TreeSet α)).toList = l := by
  refine List.Pairwise.eq_of_mem_iff pairwise_lt_toList hl fun b => ?_
  rw [TreeSet.mem_toList, mem_foldl_insert_set]
  simp

lemma perm_toList_insert (h : a ∉ t) : (t.insert a).toList.Perm (a :: t.toList) := by
  rw [perm_ext_iff_of_nodup nodup_toList (nodup_cons.mpr ⟨by simpa using h, nodup_toList⟩)]
  intro b
  rw [TreeSet.mem_toList, TreeSet.mem_insert, compare_eq_iff_eq, mem_cons, TreeSet.mem_toList]
  exact or_congr_left eq_comm

lemma perm_toList_erase (h : a ∈ t) : t.toList.Perm (a :: (t.erase a).toList) :=
  perm_keys_erase (m := t.inner) h

def first? (t : TreeSet α) : Option α := t.toList.head?

lemma mem_of_first?_eq_some (h : first? t = some a) : a ∈ t :=
  TreeSet.mem_toList.mp (mem_of_mem_head? h)

def last? (t : TreeSet α) : Option α := t.toList.getLast?

lemma last?_eq_some_iff : last? t = some a ↔ a ∈ t ∧ ∀ b ∈ t, b ≤ a := by
  rw [last?, getLast?_eq_some_iff pairwise_lt_toList (fun a b hab hba => lt_asymm hab hba)]
  simp only [TreeSet.mem_toList, le_iff_eq_or_lt]

lemma last?_eq_none_iff : last? t = none ↔ ∀ a, a ∉ t := by
  simp [last?, List.getLast?_eq_none_iff, eq_nil_iff_forall_not_mem]

end Set

lemma takeWhile_eq_filter {l : List β} {R : β → β → Prop} {p : β → Bool} (hl : l.Pairwise R)
    (hp : ∀ a b, R a b → p b = true → p a = true) : l.takeWhile p = l.filter p := by
  induction l with
  | nil => rfl
  | cons a l ih =>
    rw [pairwise_cons] at hl
    by_cases ha : p a = true
    · rw [takeWhile_cons_of_pos ha, filter_cons_of_pos ha, ih hl.2]
    · rw [takeWhile_cons_of_neg ha, filter_cons_of_neg ha, eq_comm, filter_eq_nil_iff]
      exact fun b hb hpb => ha (hp a b (hl.1 b hb) hpb)

end SuiProofs.Library

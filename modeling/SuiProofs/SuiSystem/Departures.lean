import SuiProofs.SuiSystem.PoolStages

namespace SuiProofs.SuiSystem

open Library List Validator StakingPool
open Std (TreeMap)

namespace ValidatorSet

def atIndices (validators : List Validator) (indices : List ℕ) : List Validator :=
  indices.filterMap fun index => validators[index]?

lemma atIndices_append (validators : List Validator) (first second : List ℕ) :
    atIndices validators (first ++ second) =
      atIndices validators first ++ atIndices validators second := filterMap_append

variable {validators : List Validator} {index : ℕ} {v : Validator}

lemma atIndices_singleton (h : validators[index]? = some v) :
    atIndices validators [index] = [v] := by
  simp [atIndices, h]

variable {indices : List ℕ}

lemma atIndices_range (validators : List Validator) :
    atIndices validators (List.range validators.length) = validators := by
  induction validators using reverseRecOn with
  | nil => rfl
  | append_singleton validators v ih =>
    have hsnoc : atIndices (validators ++ [v]) (List.range validators.length) =
        atIndices validators (List.range validators.length) :=
      filterMap_congr fun index hidx => getElem?_append_left (mem_range.mp hidx)
    rw [length_append, length_singleton, range_succ, atIndices_append, hsnoc,
      ih, atIndices_singleton (v := v) (by simp)]

lemma atIndices_filter (validators : List Validator) (indices : List ℕ) (q : Validator → Bool) :
    atIndices validators (indices.filter fun index => validators[index]?.any q) =
      (atIndices validators indices).filter q := by
  unfold atIndices
  rw [filterMap_filter, filter_filterMap]
  congr 1
  funext index
  cases validators[index]? with
  | none => simp
  | some v => cases hq : q v <;> simp [Option.filter, hq]

lemma sum_filter {α : Type} (l : List α) (q : α → Bool) (f : α → ℕ) :
    ((l.filter q).map f).sum = (l.map fun a => if q a = true then f a else 0).sum := by
  induction l with
  | nil => rfl
  | cons a l ih => by_cases hq : q a = true <;> simp [hq, ih]

lemma sum_atIndices (validators : List Validator) (indices : List ℕ) (f : Validator → ℕ) :
    ((atIndices validators indices).map f).sum =
      (indices.map fun index => (validators[index]?.map f).getD 0).sum := by
  induction indices with
  | nil => rfl
  | cons index indices ih =>
    rw [← singleton_append, atIndices_append, map_append, sum_append, ih, map_append, sum_append]
    cases hv : validators[index]? <;> simp [atIndices, hv]

lemma sum_ite_eq (hnd : indices.Nodup) (n c : ℕ) :
    (indices.map fun index => if index = n then c else 0).sum = if n ∈ indices then c else 0 := by
  induction indices with
  | nil => rfl
  | cons index indices ih =>
    obtain ⟨hnot, hnd⟩ := nodup_cons.mp hnd
    rw [map_cons, sum_cons, ih hnd]
    by_cases hidx : index = n
    · subst hidx
      simp [hnot]
    · simp [hidx, Ne.symm hidx]

lemma sum_zipIdx_mem (hnd : indices.Nodup) (validators : List Validator) (f : Validator → ℕ) :
    (validators.zipIdx.map fun entry => if entry.2 ∈ indices then f entry.1 else 0).sum =
      ((atIndices validators indices).map f).sum := by
  rw [sum_atIndices]
  induction validators using reverseRecOn with
  | nil => simp
  | append_singleton validators v ih =>
    have hspl : (indices.map fun index => ((validators ++ [v])[index]?.map f).getD 0) =
        indices.map fun index =>
          (validators[index]?.map f).getD 0 + if index = validators.length then f v else 0 := by
      refine map_congr_left fun index _ => ?_
      rcases lt_trichotomy index validators.length with hlt | heq | hgt
      · simp [getElem?_append_left hlt, hlt.ne]
      · subst heq
        simp
      · have hnone : (validators ++ [v])[index]? = none := getElem?_eq_none (by simpa using hgt)
        have hnone' : validators[index]? = none := getElem?_eq_none hgt.le
        simp [hnone, hnone', hgt.ne']
    rw [hspl, sum_map_add, ← ih, sum_ite_eq hnd, zipIdx_append, map_append, sum_append]
    simp

/-- Each active validator can be removed, whichever were removed before. -/
structure CanLeave (set : ValidatorSet) : Prop where
  addresses : (set.activeValidators.map Validator.suiAddress).Nodup
  ids : (set.activeValidators.map Validator.stakingPoolId).Nodup
  mapped : ∀ v ∈ set.activeValidators, v.stakingPoolId ∈ set.stakingPoolMappings
  unlisted : ∀ v ∈ set.activeValidators, v.stakingPoolId ∉ set.inactiveValidators
  notInactive : ∀ v ∈ set.activeValidators, v.stakingPool.isInactive = false

lemma removeActive_total {self : ValidatorSet} {records : ReportRecords} {epoch : ℕ}
    (hv : self.activeValidators[index]? = some v) (hmapped : v.stakingPoolId ∈ self.stakingPoolMappings)
    (hunl : v.stakingPoolId ∉ self.inactiveValidators) (hninact : v.stakingPool.isInactive = false)
    (hle : v.totalStakeAmount ≤ self.totalStake) :
    ∃ after, self.removeActive records epoch index = .ok after := by
  obtain ⟨address, haddr⟩ := mem_map_iff_exists.mp hmapped
  have hdeac : v.deactivate (epoch + 1) = .ok (deactivated v epoch) := by
    simp [deactivate, deactivateStakingPool, check, hninact, deactivated, bind, Except.bind,
      pure, Except.pure]
  have hadd : tableAdd self.inactiveValidators (deactivated v epoch).stakingPoolId
    (deactivated v epoch) =
      .ok (self.inactiveValidators.insert v.stakingPoolId (deactivated v epoch)) :=
    tableAdd_eq_ok.mpr ⟨Bool.eq_false_iff.mpr fun hcont => hunl (TreeMap.contains_iff_mem.mp hcont), rfl⟩
  have hrem : tableRemove self.stakingPoolMappings v.stakingPoolId =
      .ok (self.stakingPoolMappings.erase v.stakingPoolId, address) :=
    tableRemove_eq_ok.mpr ⟨haddr, rfl⟩
  unfold removeActive processValidatorDeparture
  rw [getAt_eq_ok.mpr hv, ok_bind]
  rw [hrem, ok_bind]
  dsimp only
  rw [checkedSub_eq_ok.mpr ⟨hle, rfl⟩, ok_bind, hdeac, ok_bind, hadd, ok_bind]
  exact ⟨_, rfl⟩

/-- The state of a loop that has gone through the indices in `done`, from the largest on, and has
removed the validators with `p`. -/
structure Visited (epoch : ℕ) (start : WithRecords) (p : ℕ → Bool) (done : List ℕ)
    (acc : WithRecords) : Prop where
  departed : Departed epoch start acc (atIndices start.1.activeValidators (done.filter p))
  intact : ∀ index, (∀ j ∈ done, index < j) →
    acc.1.activeValidators[index]? = start.1.activeValidators[index]?
  atRisk : ∀ address : SuiAddress,
    address ∉ (atIndices start.1.activeValidators done).map Validator.suiAddress →
    acc.1.atRiskValidators[address]? = start.1.atRiskValidators[address]?

variable (validators indices) in
def leavingStake : ℕ := ((atIndices validators indices).map Validator.totalStakeAmount).sum

lemma leavingStake_append (validators : List Validator) (first second : List ℕ) :
    leavingStake validators (first ++ second) =
      leavingStake validators first + leavingStake validators second := by
  unfold leavingStake
  rw [atIndices_append, map_append, sum_append]

namespace Visited

variable {epoch index : ℕ} {start acc acc' : WithRecords} {p : ℕ → Bool} {done : List ℕ} {v : Validator}

lemma nil (epoch : ℕ) (start : WithRecords) (p : ℕ → Bool) : Visited epoch start p [] start :=
  ⟨Departed.refl start, fun _ _ => rfl, fun _ _ => rfl⟩

variable (h : Visited epoch start p done acc)
include h

lemma next (hbel : ∀ j ∈ done, index < j) (hv : start.1.activeValidators[index]? = some v) :
    acc.1.activeValidators[index]? = some v :=
  (h.intact index hbel).trans hv

variable {table : TreeMap SuiAddress ℕ}

lemma atRisk_step (hv : start.1.activeValidators[index]? = some v)
    (htb : ∀ address : SuiAddress, address ≠ v.suiAddress →
      table[address]? = acc.1.atRiskValidators[address]?) (address : SuiAddress)
    (haddr : address ∉ (atIndices start.1.activeValidators (done ++ [index])).map suiAddress) :
    table[address]? = start.1.atRiskValidators[address]? := by
  rw [atIndices_append, atIndices_singleton hv, map_append, mem_append, not_or] at haddr
  rw [htb address fun heq => haddr.2 (by simp [heq]), h.atRisk address haddr.1]

lemma keep (hv : start.1.activeValidators[index]? = some v)
    (hp : p index = false) (htb : ∀ address : SuiAddress, address ≠ v.suiAddress →
      table[address]? = acc.1.atRiskValidators[address]?) :
    Visited epoch start p (done ++ [index]) ({ acc.1 with atRiskValidators := table }, acc.2) where
  departed := by
    rw [filter_append, filter_singleton, hp]
    simpa using h.departed.atRisk table
  intact := fun i hi => h.intact i fun j hj => hi j (mem_append_left _ hj)
  atRisk := h.atRisk_step hv htb

omit h

lemma remove (table : TreeMap SuiAddress ℕ) (h : Visited epoch start p done acc)
    (hbel : ∀ j ∈ done, index < j)
    (hv : start.1.activeValidators[index]? = some v) (hp : p index = true)
    (htb : ∀ address : SuiAddress, address ≠ v.suiAddress →
      table[address]? = acc.1.atRiskValidators[address]?)
    (hrem : { acc.1 with atRiskValidators := table }.removeActive acc.2 epoch index = .ok acc') :
    Visited epoch start p (done ++ [index]) acc' := by
  have hnext := h.next hbel hv
  obtain ⟨w, hw, hdepd⟩ := (h.departed.atRisk table).remove hrem
  obtain rfl : w = v := Option.some.inj (hw.symm.trans hnext)
  obtain ⟨u, hu, -, -, -, rfl⟩ := removeActive_eq_ok hrem
  obtain rfl : u = w := Option.some.inj (hu.symm.trans hw)
  refine ⟨?_, fun i hi => ?_, ?_⟩
  · rw [filter_append, filter_singleton, hp, atIndices_append]
    simpa [atIndices_singleton hv] using hdepd
  · rw [getElem?_eraseIdx_of_lt (hi index (by simp))]
    exact h.intact i fun j hj => hi j (mem_append_left _ hj)
  · refine h.atRisk_step hv fun address haddr => ?_
    rw [getElem?_erase_ite, if_neg (Ne.symm haddr), htb address haddr]

lemma remove_total (table : TreeMap SuiAddress ℕ) (h : Visited epoch start p done acc)
    (hst : start.1.CanLeave)
    (hbel : ∀ j ∈ done, index < j) (hv : start.1.activeValidators[index]? = some v) (hp : p index = true)
    (hle : leavingStake start.1.activeValidators ((done ++ [index]).filter p) ≤ start.1.totalStake) :
    ∃ acc', { acc.1 with atRiskValidators := table }.removeActive acc.2 epoch index = .ok acc' := by
  have hnext := h.next hbel hv
  have hmem : v ∈ start.1.activeValidators := mem_of_getElem? hv
  have hids : v.stakingPoolId ∉ (atIndices start.1.activeValidators (done.filter p)).map
      stakingPoolId := by
    have hnd := (h.departed.perm.map stakingPoolId).nodup_iff.mpr hst.ids
    rw [map_append, nodup_append] at hnd
    intro hin
    exact hnd.2.2 _ (mem_map_of_mem (mem_of_getElem? hnext)) _ hin rfl
  have htot := h.departed.totalStake
  rw [filter_append, filter_singleton, hp, leavingStake_append] at hle
  have hlast : leavingStake start.1.activeValidators (bif true then [index] else []) =
      v.totalStakeAmount := by
    simp [leavingStake, atIndices_singleton hv]
  refine removeActive_total hnext ?_ ?_ (hst.notInactive v hmem) ?_
  · obtain ⟨address, haddr⟩ := mem_map_iff_exists.mp (hst.mapped v hmem)
    refine mem_map_iff_exists.mpr ⟨address, ?_⟩
    rw [h.departed.mappings, if_neg hids, haddr]
  · intro hin
    obtain ⟨w, hw⟩ := mem_map_iff_exists.mp hin
    rw [h.departed.inactive _ hids] at hw
    exact hst.unlisted v hmem (mem_map_iff_exists.mpr ⟨w, hw⟩)
  · dsimp only
    rw [hlast] at hle
    unfold leavingStake at hle
    omega

end Visited

/-- A loop over indices that removes the validators with `p`, if the stake allows it. -/
structure Round (epoch : ℕ) (start : WithRecords) (p : ℕ → Bool)
    (f : WithRecords → ℕ → Except Abort WithRecords) : Prop where
  visited : ∀ done index acc acc', Visited epoch start p done acc → (∀ j ∈ done, index < j) →
    index < start.1.activeValidators.length →
    f acc index = .ok acc' → Visited epoch start p (done ++ [index]) acc'
  total : ∀ done index acc, Visited epoch start p done acc → (∀ j ∈ done, index < j) →
    index < start.1.activeValidators.length →
    leavingStake start.1.activeValidators ((done ++ [index]).filter p) ≤ start.1.totalStake →
      ∃ acc', f acc index = .ok acc'

namespace Round

variable {epoch : ℕ} {start acc : WithRecords} {p : ℕ → Bool}
  {f : WithRecords → ℕ → Except Abort WithRecords} {indices : List ℕ}

section

variable (h : Round epoch start p f) (hdesc : indices.Pairwise (· > ·))
  (hlt : ∀ index ∈ indices, index < start.1.activeValidators.length)

include h hdesc hlt

lemma run (hrun : indices.foldlM f start = .ok acc) : Visited epoch start p indices acc := by
  have hends : Ends (indices.foldlM f start) (fun _ => True) (Visited epoch start p indices) := by
    refine Ends.foldlM (Visited epoch start p) ?_ (Visited.nil epoch start p)
    intro done index acc hbeg hacc
    have hidx : index < start.1.activeValidators.length := hlt index (hbeg.subset (by simp))
    exact ⟨fun acc' hstep =>
      h.visited done index acc acc' hacc (fun j => rel_of_prefix hdesc hbeg) hidx hstep,
        fun _ _ => trivial⟩
  exact hends.1 acc hrun

lemma run_iff :
    (∃ acc, indices.foldlM f start = .ok acc) ↔
      leavingStake start.1.activeValidators (indices.filter p) ≤ start.1.totalStake := by
  constructor
  · rintro ⟨acc, hrun⟩
    have htot := (h.run hdesc hlt hrun).departed.totalStake
    unfold leavingStake
    omega
  · intro hle
    have hcov : ∀ done, done <+: indices →
        leavingStake start.1.activeValidators (done.filter p) ≤ start.1.totalStake := by
      rintro done ⟨rest, rfl⟩
      rw [filter_append, leavingStake_append] at hle
      omega
    obtain ⟨acc, hrun, -⟩ :=
      foldlM_total_of_prefix (f := f) (l := indices) (b := start) (Visited epoch start p) (by
      intro done index acc hbeg hacc
      have hidx : index < start.1.activeValidators.length := hlt index (hbeg.subset (by simp))
      have hbel : ∀ j ∈ done, index < j := fun j => rel_of_prefix hdesc hbeg
      obtain ⟨acc', hstep⟩ := h.total done index acc hacc hbel hidx (hcov _ hbeg)
      exact ⟨acc', hstep, h.visited done index acc acc' hacc hbel hidx hstep⟩)
        (Visited.nil epoch start p)
    exact ⟨acc, hrun⟩

end

end Round

def isLowStake (self : ValidatorSet) (thresholds : StakeThresholds) (address : SuiAddress)
    (stake : ℕ) : Bool :=
  stake < thresholds.lowStakeThreshold &&
    (stake < thresholds.veryLowStakeThreshold || self.atRiskValidators.getD address 0 +
      1 > thresholds.lowStakeGracePeriod)

def departures (self : ValidatorSet) (thresholds : StakeThresholds) (records : ReportRecords)
    (epoch : ℕ) : Except Abort WithRecords := do
  let (self, records) ← self.processPendingRemovals records epoch
  self.updateAndProcessLowStakeDepartures thresholds records epoch

variable {thresholds : StakeThresholds} {epoch : ℕ} {records : ReportRecords}

section Loops

variable {start : WithRecords} (hst : start.1.CanLeave)
include hst

lemma round_removeActive :
    Round epoch start (fun _ => true) fun acc index => acc.1.removeActive acc.2 epoch index where
  visited := by
    intro done index acc acc' hacc hbel hidx hstep
    exact hacc.remove acc.1.atRiskValidators hbel (getElem?_eq_getElem hidx) rfl (fun _ _ => rfl) hstep
  total := by
    intro done index acc hacc hbel hidx hle
    exact hacc.remove_total acc.1.atRiskValidators hst hbel (getElem?_eq_getElem hidx) rfl hle

variable {done : List ℕ} {index : ℕ}

lemma address_not_visited (hbel : ∀ j ∈ done, index < j)
    (hv : start.1.activeValidators[index]? = some v) :
    v.suiAddress ∉ (atIndices start.1.activeValidators done).map suiAddress := by
  intro hin
  obtain ⟨w, hw, heq⟩ := mem_map.mp hin
  obtain ⟨j, hj, hw⟩ := mem_filterMap.mp hw
  obtain ⟨hilt, -⟩ := List.getElem?_eq_some_iff.mp hv
  have hij : index = j := by
    refine (getElem?_inj (by simpa using hilt) hst.addresses).mp ?_
    rw [getElem?_map, getElem?_map, hv, hw, Option.map_some, Option.map_some, heq]
  exact absurd (hbel j hj) (by omega)

def lowAt (start : WithRecords) (thresholds : StakeThresholds) (index : ℕ) : Bool :=
  start.1.activeValidators[index]?.any fun v =>
    start.1.isLowStake thresholds v.suiAddress v.totalStakeAmount

lemma updateLowStake_cases {acc : WithRecords}
    (hacc : Visited epoch start (lowAt start thresholds) done acc) (hbel : ∀ j ∈ done, index < j)
    (hv : start.1.activeValidators[index]? = some v) :
    ∃ table : TreeMap SuiAddress ℕ,
      (∀ address : SuiAddress, address ≠ v.suiAddress →
        table[address]? = acc.1.atRiskValidators[address]?) ∧
      updateLowStake thresholds epoch acc index = if lowAt start thresholds index = true
        then { acc.1 with atRiskValidators := table }.removeActive acc.2 epoch index
        else .ok ({ acc.1 with atRiskValidators := table }, acc.2) := by
  have hgetD : acc.1.atRiskValidators.getD v.suiAddress 0 =
      start.1.atRiskValidators.getD v.suiAddress 0 := by
    rw [TreeMap.getD_eq_getD_getElem?, TreeMap.getD_eq_getD_getElem?,
      hacc.atRisk _ (address_not_visited hst hbel hv)]
  have hnext := hacc.next hbel hv
  rw [lowAt, hv, Option.any_some]
  obtain ⟨self, records⟩ := acc
  unfold updateLowStake isLowStake
  dsimp only at hgetD hnext ⊢
  rw [getAt_eq_ok.mpr hnext, ok_bind]
  by_cases hlow : v.totalStakeAmount ≥ thresholds.lowStakeThreshold
  · refine ⟨self.atRiskValidators.erase v.suiAddress, fun address haddr => ?_, ?_⟩
    · rw [getElem?_erase_ite, if_neg (Ne.symm haddr)]
    · rw [if_pos hlow]
      simp [not_lt.mpr hlow, pure, Except.pure]
  · by_cases hvery : v.totalStakeAmount ≥ thresholds.veryLowStakeThreshold
    · refine ⟨self.atRiskValidators.insert v.suiAddress
        (self.atRiskValidators.getD v.suiAddress 0 + 1), fun address haddr => ?_, ?_⟩
      · rw [getElem?_insert_ite, if_neg (Ne.symm haddr)]
      · rw [if_neg hlow, if_pos hvery, hgetD]
        simp only [not_le.mp hlow, not_lt.mpr hvery, decide_true, decide_false, Bool.true_and,
          Bool.false_or, decide_eq_true_eq]
        rfl
    · refine ⟨self.atRiskValidators, fun _ _ => rfl, ?_⟩
      rw [if_neg hlow, if_neg hvery]
      simp [not_le.mp hlow, not_le.mp hvery]

lemma round_updateLowStake :
    Round epoch start (lowAt start thresholds) (updateLowStake thresholds epoch) where
  visited := by
    intro done index acc acc' hacc hbel hidx hstep
    have hv := getElem?_eq_getElem hidx
    obtain ⟨table, htb, heq⟩ := updateLowStake_cases hst hacc hbel hv
    rw [heq] at hstep
    split_ifs at hstep with hlow
    · exact hacc.remove table hbel hv hlow htb hstep
    · cases hstep
      exact hacc.keep hv (Bool.eq_false_of_not_eq_true hlow) htb
  total := by
    intro done index acc hacc hbel hidx hle
    have hv := getElem?_eq_getElem hidx
    obtain ⟨table, -, heq⟩ := updateLowStake_cases hst hacc hbel hv
    rw [heq]
    split_ifs with hlow
    · exact hacc.remove_total table hst hbel hv hlow hle
    · exact ⟨_, rfl⟩

omit hst

lemma Departed.canLeave {after : WithRecords} {leaving : List Validator}
    (h : Departed epoch start after leaving) (hst : start.1.CanLeave) :
    after.1.CanLeave := by
  have hsub := h.sublist.subset
  have hids : ∀ v ∈ after.1.activeValidators, v.stakingPoolId ∉ leaving.map stakingPoolId := by
    have hnd := (h.perm.map stakingPoolId).nodup_iff.mpr hst.ids
    rw [map_append, nodup_append] at hnd
    intro v hv hin
    exact hnd.2.2 _ (mem_map_of_mem hv) _ hin rfl
  refine ⟨hst.addresses.sublist (h.sublist.map _), hst.ids.sublist (h.sublist.map _), fun v hv =>
    ?_, fun v hv hin => ?_,
    fun v hv => hst.notInactive v (hsub hv)⟩
  · obtain ⟨address, haddr⟩ := mem_map_iff_exists.mp (hst.mapped v (hsub hv))
    exact mem_map_iff_exists.mpr ⟨address, by rw [h.mappings, if_neg (hids v hv), haddr]⟩
  · obtain ⟨w, hw⟩ := mem_map_iff_exists.mp hin
    rw [h.inactive _ (hids v hv)] at hw
    exact hst.unlisted v (hsub hv) (mem_map_iff_exists.mpr ⟨w, hw⟩)

end Loops

def departing (self : ValidatorSet) (thresholds : StakeThresholds) : ℕ :=
  (self.activeValidators.zipIdx.map fun entry =>
    if entry.2 ∈ self.pendingRemovals ∨
      self.isLowStake thresholds entry.1.suiAddress entry.1.totalStakeAmount = true
    then entry.1.totalStakeAmount else 0).sum

section Departures

variable {self : ValidatorSet}

def lowStake (self : ValidatorSet) (thresholds : StakeThresholds) (v : Validator) : ℕ :=
  if self.isLowStake thresholds v.suiAddress v.totalStakeAmount = true then v.totalStakeAmount else 0

def removalOrder (self : ValidatorSet) : List ℕ := (self.pendingRemovals.insertionSort (· ≤ ·)).reverse

lemma perm_removalOrder : self.removalOrder.Perm self.pendingRemovals :=
  (reverse_perm _).trans (perm_insertionSort _ _)

lemma pairwise_removalOrder (h : self.pendingRemovals.Nodup) : self.removalOrder.Pairwise (· > ·) := by
  have hsort := pairwise_insertionSort (· ≤ ·) self.pendingRemovals
  have hnd : (self.pendingRemovals.insertionSort (· ≤ ·)).Nodup :=
    (perm_insertionSort _ _).nodup_iff.mpr h
  refine pairwise_reverse.mpr ((hsort.and hnd).imp ?_)
  rintro i j ⟨hle, hne⟩
  exact lt_of_le_of_ne hle hne

lemma departing_add_eq (thresholds : StakeThresholds) (h : self.pendingRemovals.Nodup) :
    self.departing thresholds +
      ((atIndices self.activeValidators self.removalOrder).map (self.lowStake thresholds)).sum =
      leavingStake self.activeValidators self.removalOrder +
        (self.activeValidators.map (self.lowStake thresholds)).sum := by
  have hperm : (atIndices self.activeValidators self.removalOrder).Perm
      (atIndices self.activeValidators self.pendingRemovals) :=
    perm_removalOrder.filterMap _
  have hall : (self.activeValidators.map (self.lowStake thresholds)).sum =
      (self.activeValidators.zipIdx.map fun entry => self.lowStake thresholds entry.1).sum := by
    conv_lhs => rw [← zipIdx_map_fst 0 self.activeValidators, map_map]
    rfl
  unfold leavingStake
  rw [(hperm.map _).sum_eq, (hperm.map _).sum_eq, ← sum_zipIdx_mem h, ← sum_zipIdx_mem h, hall]
  unfold departing
  rw [← sum_map_add, ← sum_map_add]
  congr 1
  refine map_congr_left fun entry _ => ?_
  unfold lowStake
  by_cases hremoval : entry.2 ∈ self.pendingRemovals <;> simp [hremoval]

lemma leavingStake_le_departing (h : self.pendingRemovals.Nodup) :
    leavingStake self.activeValidators self.removalOrder ≤ self.departing thresholds := by
  unfold leavingStake departing
  have hperm : (atIndices self.activeValidators self.removalOrder).Perm
      (atIndices self.activeValidators self.pendingRemovals) :=
    perm_removalOrder.filterMap _
  rw [(hperm.map _).sum_eq, ← sum_zipIdx_mem h]
  refine sum_le_sum fun entry _ => ?_
  split_ifs with hremoval hlvs hlvs
  · exact le_refl _
  · exact absurd (.inl hremoval) hlvs
  · exact Nat.zero_le _
  · exact le_refl _

lemma leavingStake_lowAt (start : WithRecords) :
    leavingStake start.1.activeValidators
      ((List.range start.1.activeValidators.length).reverse.filter (lowAt start thresholds)) =
      (start.1.activeValidators.map (start.1.lowStake thresholds)).sum := by
  have hreverse : atIndices start.1.activeValidators
      (range start.1.activeValidators.length).reverse = start.1.activeValidators.reverse := by
    unfold atIndices
    rw [filterMap_reverse]
    exact congrArg reverse (atIndices_range _)
  have hlow : lowAt start thresholds = fun index =>
      start.1.activeValidators[index]?.any fun v =>
        start.1.isLowStake thresholds v.suiAddress v.totalStakeAmount := rfl
  unfold leavingStake
  rw [hlow, atIndices_filter, hreverse, sum_filter, map_reverse, sum_reverse]
  rfl

variable {mid : WithRecords}

lemma departing_eq (hleave : self.CanLeave) (hnd : self.pendingRemovals.Nodup)
    (hmid : Visited epoch ({ self with pendingRemovals := [] }, records)
      (fun _ => true) self.removalOrder mid) :
    self.departing thresholds = leavingStake self.activeValidators self.removalOrder +
      (mid.1.activeValidators.map (mid.1.lowStake thresholds)).sum := by
  have hsum := departing_add_eq thresholds hnd
  have hdepd := hmid.departed
  rw [filter_true] at hdepd
  have hperm := (hdepd.perm.map (self.lowStake thresholds)).sum_eq
  rw [map_append, sum_append] at hperm
  have haddrs := (hdepd.perm.map suiAddress).nodup_iff.mpr hleave.addresses
  rw [map_append, nodup_append] at haddrs
  have hsame : mid.1.activeValidators.map (mid.1.lowStake thresholds) =
      mid.1.activeValidators.map (self.lowStake thresholds) := by
    refine map_congr_left fun v hv => ?_
    have hrisk := hmid.atRisk v.suiAddress fun hin => haddrs.2.2 _ (mem_map_of_mem hv) _ hin rfl
    unfold lowStake isLowStake
    rw [TreeMap.getD_eq_getD_getElem?, TreeMap.getD_eq_getD_getElem?, hrisk]
  rw [hsame]
  dsimp only at hperm
  omega

lemma departures_iff (hleave : self.CanLeave) (hnd : self.pendingRemovals.Nodup)
    (hlt : ∀ index ∈ self.pendingRemovals, index < self.activeValidators.length) :
    (∃ after, self.departures thresholds records epoch = .ok after) ↔
      self.departing thresholds ≤ self.totalStake := by
  have hst : CanLeave ({ self with pendingRemovals := [] }, records).1 :=
    ⟨hleave.addresses, hleave.ids, hleave.mapped, hleave.unlisted, hleave.notInactive⟩
  have hrd : Round epoch ({ self with pendingRemovals := [] }, records) (fun _ => true)
      fun acc index => acc.1.removeActive acc.2 epoch index :=
    round_removeActive hst
  have hdesc := pairwise_removalOrder hnd
  have hlt' : ∀ index ∈ self.removalOrder, index < self.activeValidators.length := fun index hidx =>
    hlt index (perm_removalOrder.mem_iff.mp hidx)
  have hfst := hrd.run_iff hdesc hlt'
  rw [filter_true] at hfst
  have hsnd : ∀ mid, self.processPendingRemovals records epoch = .ok mid →
      ((∃ after, mid.1.updateAndProcessLowStakeDepartures thresholds mid.2 epoch = .ok after) ↔
        self.departing thresholds ≤ self.totalStake) := by
    intro mid hmid
    have hvis := hrd.run hdesc hlt' hmid
    have hdepd := hvis.departed
    rw [filter_true] at hdepd
    have htot := hdepd.totalStake
    have hrs : Round epoch mid (lowAt mid thresholds) (updateLowStake thresholds epoch) :=
      round_updateLowStake (hdepd.canLeave hst)
    have hloop : (∃ after, mid.1.updateAndProcessLowStakeDepartures thresholds mid.2 epoch =
      .ok after) ↔ _ := hrs.run_iff
      (pairwise_reverse.mpr pairwise_lt_range) (fun index hidx => mem_range.mp (mem_reverse.mp hidx))
    rw [leavingStake_lowAt] at hloop
    refine hloop.trans ?_
    rw [departing_eq hleave hnd hvis]
    unfold leavingStake
    dsimp only at htot
    omega
  constructor
  · rintro ⟨after, haft⟩
    obtain ⟨mid, hmid, haft⟩ := bind_eq_ok.mp haft
    exact (hsnd mid hmid).mp ⟨after, haft⟩
  · intro hle
    obtain ⟨mid, hmid⟩ := hfst.mpr ((leavingStake_le_departing hnd).trans hle)
    obtain ⟨after, haft⟩ := (hsnd mid hmid).mpr hle
    exact ⟨after, bind_eq_ok.mpr ⟨mid, hmid, haft⟩⟩

end Departures

def beforeDepartures (self : ValidatorSet) (computationReward storageFundReward : ℕ)
    (records : ReportRecords) (rewardSlashingRate epoch : ℕ) :
    Except Abort (ValidatorSet × List StakedSui) := do
  let rewards ← self.computeRewards computationReward storageFundReward records rewardSlashingRate
  let distribution ← distributeReward self.activeValidators rewards computationReward
    storageFundReward epoch
  let activeValidators ← (distribution.validators.map Validator.adjustStakeAndGasPrice).mapM
    fun v => v.processPendingStakesAndWithdraws epoch
  let joined ← { self with activeValidators }.processPendingValidators (epoch + 1)
  return (joined, distribution.stakes)

/-- What `advance_epoch` does after the departures. -/
def afterDepartures (left : WithRecords) (stakes : List StakedSui) :
    Except Abort (WithRecords × List StakedSui) := do
  let self := { left.1 with totalStake := calculateTotalStakes left.1.activeValidators }
  let activeValidators ← VotingPower.setVotingPower self.activeValidators
  let self ← { self with activeValidators }.effectuateStagedMetadata
  return ((self, left.2), stakes)

section Connection

variable {self joined : ValidatorSet}
  {computationReward storageFundReward rewardSlashingRate epoch : ℕ} {stakes : List StakedSui}
  {rewards : Rewards}

lemma advanceEpoch_eq :
    self.advanceEpoch computationReward storageFundReward records rewardSlashingRate
    thresholds epoch = (do
    let (joined, stakes) ← self.beforeDepartures computationReward storageFundReward records
      rewardSlashingRate epoch
    let left ← joined.departures thresholds records epoch
    afterDepartures left stakes) := by
  simp [advanceEpoch, beforeDepartures, departures, afterDepartures]

lemma beforeDepartures_eq_ok
    (h : self.beforeDepartures computationReward storageFundReward records rewardSlashingRate
      epoch = .ok (joined, stakes)) :
    ∃ rewards results processed joining,
      self.computeRewards computationReward storageFundReward records rewardSlashingRate = .ok rewards ∧
      Settled self epoch rewards results processed joining ∧
      joined = { self with
        activeValidators := processed ++ joining, pendingActiveValidators := [] } := by
  obtain ⟨rewards, hrews, h⟩ := bind_eq_ok.mp h
  obtain ⟨distribution, hdistr, h⟩ := bind_eq_ok.mp h
  obtain ⟨processed, hprocd, h⟩ := bind_eq_ok.mp h
  obtain ⟨joined, hjnd, h⟩ := bind_eq_ok.mp h
  obtain ⟨joining, hjoin, hjnd⟩ := bind_eq_ok.mp hjnd
  cases hjnd
  cases h
  obtain ⟨results, hress, hvals, -⟩ := distributeReward_eq_ok hdistr
  rw [hvals, map_map] at hprocd
  exact ⟨rewards, results, processed, joining, hrews, ⟨hress, hprocd, hjoin⟩, rfl⟩

variable (self rewards) in
def nextStakes : List (SuiAddress × ℕ) :=
  (self.activeValidators.zipIdx.map fun entry =>
    (entry.1.suiAddress, entry.1.nextEpochStake + rewards.staking.getD entry.2 0 +
      rewards.storageFund.getD entry.2 0)) ++
  self.pendingActiveValidators.reverse.map fun v => (v.suiAddress, v.totalStakeAmount)

variable (self rewards) in
/-- The stake of the validators that leave at the end of the epoch: those that asked for it and
those whose stake is too low. -/
def departingStake (thresholds : StakeThresholds) : ℕ :=
  ((self.nextStakes rewards).zipIdx.map fun entry =>
    if entry.2 ∈ self.pendingRemovals ∨ self.isLowStake thresholds entry.1.1 entry.1.2 = true then
      entry.1.2 else 0).sum

lemma addValidatorReward_nextEpochStake {v v' : Validator} {reward : ℕ}
    (h : addValidatorReward v reward epoch = .ok (v', stakes)) :
    v'.nextEpochStake = v.nextEpochStake + reward := by
  unfold addValidatorReward at h
  split_ifs at h with hpos
  · obtain ⟨⟨w, s⟩, hstk, h⟩ := bind_eq_ok.mp h
    cases h
    obtain ⟨-, -, -, pool, -, rfl⟩ := requestAddStake_eq_ok hstk
    rfl
  · cases h
    omega

lemma Rewarded.nextEpochStake {entry : Validator × ℕ} {result : Validator × List StakedSui}
    (h : Rewarded rewards epoch entry result) :
    result.1.nextEpochStake = entry.1.nextEpochStake + rewards.staking.getD entry.2 0 +
      rewards.storageFund.getD entry.2 0 := by
  obtain ⟨staking, storageFund, commission, v, hstaking, hstorage, hle, hrew, hres⟩ := h
  have hv := addValidatorReward_nextEpochStake hrew
  have hget : rewards.staking.getD entry.2 0 = staking ∧
      rewards.storageFund.getD entry.2 0 = storageFund := by
    simp [getD_eq_getElem?_getD, hstaking, hstorage]
  rw [hres, hget.1, hget.2]
  change v.nextEpochStake + (staking - commission) = _
  omega

variable {results : List (Validator × List StakedSui)} {processed joining : List Validator}

section

variable (h : Settled self epoch rewards results processed joining)

include h

lemma Settled.nextStakes :
    (processed ++ joining).map (fun v => (v.suiAddress, v.totalStakeAmount)) =
      self.nextStakes rewards := by
  have hprocd : processed.map (fun v => (v.suiAddress, v.totalStakeAmount)) = results.map fun result =>
      (result.1.suiAddress, result.1.nextEpochStake) := by
    have hforall := forall₂_of_mapM_eq_ok h.processed_eq
    rw [forall₂_map_left_iff] at hforall
    refine map_eq_of_forall₂ (fun result v hv => ?_) hforall
    have haddr : v.suiAddress = result.1.suiAddress :=
      congrArg (fun profile : Profile => profile.metadata.suiAddress)
        (processPendingStakesAndWithdraws_kept hv).1
    obtain ⟨pool, -, hstk, rfl⟩ := processPendingStakesAndWithdraws_eq_ok hv
    exact Prod.ext haddr hstk
  have hress : (results.map fun result => (result.1.suiAddress, result.1.nextEpochStake)) =
    self.activeValidators.zipIdx.map fun entry =>
      (entry.1.suiAddress, entry.1.nextEpochStake + rewards.staking.getD entry.2 0 +
        rewards.storageFund.getD entry.2 0) := by
    refine map_eq_of_forall₂ (fun entry result hent => ?_) h.rewarded
    have haddr : result.1.suiAddress = entry.1.suiAddress :=
      congrArg (fun profile : Profile => profile.metadata.suiAddress) hent.profile
    exact Prod.ext haddr hent.nextEpochStake
  have hjoin : joining.map (fun v => (v.suiAddress, v.totalStakeAmount)) =
    self.pendingActiveValidators.reverse.map fun v =>
      (v.suiAddress, v.totalStakeAmount) := by
    refine map_eq_of_forall₂ (fun v v' hv => ?_) (forall₂_of_mapM_eq_ok h.joining_eq)
    obtain ⟨pool, hpool, hv⟩ := bind_eq_ok.mp hv
    obtain ⟨-, -, rfl⟩ := activateStakingPool_eq_ok hpool
    cases hv
    rfl
  unfold ValidatorSet.nextStakes
  rw [map_append, hprocd, hress, hjoin]

lemma Settled.departing :
    { self with
      activeValidators := processed ++ joining
      pendingActiveValidators := [] }.departing thresholds =
        self.departingStake rewards thresholds := by
  unfold departingStake ValidatorSet.departing
  rw [← h.nextStakes, zipIdx_map, map_map]
  rfl

lemma Settled.canLeave (hpart : self.roster.Partition) (hsgs : self.Stages) :
    CanLeave { self with activeValidators := processed ++ joining, pendingActiveValidators := [] } := by
  have hperm := h.perm_joined
  have hmem : ∀ v ∈ processed ++ joining,
    (v.suiAddress, v.stakingPoolId) ∈ self.roster.joined := fun v hv =>
    hperm.mem_iff.mp (mem_map_of_mem hv)
  have hmapp : ∀ v ∈ processed ++ joining, self.stakingPoolMappings[v.stakingPoolId]? =
    some v.suiAddress := fun v hv =>
    hpart.mapping_of_mem (hmem v hv)
  refine ⟨?_, ?_, fun v hv => mem_map_iff_exists.mpr ⟨_, hmapp v hv⟩, fun v hv hin => ?_,
    fun v hv => (hsgs.joined h v hv).2⟩
  · have hnd := (hperm.map Prod.fst).nodup_iff.mpr hpart.addresses
    rw [map_map] at hnd
    exact hnd
  · have hnd := (hperm.map Prod.snd).nodup_iff.mpr hpart.ids_nodup
    rw [map_map] at hnd
    exact hnd
  · obtain ⟨w, hw⟩ := mem_map_iff_exists.mp hin
    have hnone :=
      (hpart.inactive v.stakingPoolId w.stakingPoolId (congrArg (Option.map stakingPoolId) hw)).2
    have hsome := hmapp v hv
    dsimp only [roster] at hnone
    rw [hnone] at hsome
    cases hsome

end

lemma totalStake_advanceEpoch {after : WithRecords}
    (h : self.advanceEpoch computationReward storageFundReward records rewardSlashingRate thresholds
      epoch = .ok (after, stakes)) :
    after.1.totalStake = calculateTotalStakes after.1.activeValidators := by
  obtain ⟨parts, -, hadv⟩ := advanceEpoch_eq_ok h
  have hact : parts.active.map totalStakeAmount =
      parts.departed.1.activeValidators.map totalStakeAmount := by
    refine map_eq_of_forall₂ ?_ hadv.active_forall₂
    rintro v v' ⟨power, metadata, -, rfl⟩
    rfl
  obtain rfl := hadv.after_eq
  unfold calculateTotalStakes
  rw [hact]

end Connection

end ValidatorSet

open ValidatorSet

/-- An epoch change goes on with the departures, which succeed if and only if the total stake of the
epoch that ends covers the stake that leaves; the total stake of the next epoch is that of its
validators. -/
theorem departures_succeed_iff {validateMetadata : ValidatorMetadata → Bool}
    {state : SuiSystemState} {outstanding : Multiset StakedSui}
    (hrun : SystemRun validateMetadata (fun _ _ _ _ => True) state outstanding)
    {computationReward storageFundReward rewardSlashingRate : ℕ}
    {thresholds : StakeThresholds} {rewards : Rewards} {joined : ValidatorSet} {stakes : List StakedSui}
    (hrewards : state.validators.computeRewards computationReward storageFundReward
      state.validatorReportRecords rewardSlashingRate = .ok rewards)
    (hjoined : state.validators.beforeDepartures computationReward storageFundReward
      state.validatorReportRecords rewardSlashingRate state.epoch =
      .ok (joined, stakes)) :
    ((∃ left, joined.departures thresholds state.validatorReportRecords state.epoch = .ok left) ↔
      state.validators.departingStake rewards thresholds ≤ state.validators.totalStake) ∧
    state.validators.advanceEpoch computationReward storageFundReward state.validatorReportRecords
      rewardSlashingRate thresholds state.epoch =
      (do afterDepartures (← joined.departures thresholds state.validatorReportRecords
        state.epoch) stakes) ∧
    ∀ after stakes, state.validators.advanceEpoch computationReward storageFundReward
      state.validatorReportRecords rewardSlashingRate thresholds
      state.epoch = .ok (after, stakes) →
        after.1.totalStake = calculateTotalStakes after.1.activeValidators := by
  refine ⟨?_, by rw [advanceEpoch_eq, hjoined]; rfl, fun after stakes hafter =>
    totalStake_advanceEpoch hafter⟩
  have hpartition := partition_run hrun
  obtain ⟨rewards', results, processed, joining, hrewards', hsettled, rfl⟩ :=
    beforeDepartures_eq_ok hjoined
  obtain rfl : rewards' = rewards := Except.ok.inj (hrewards'.symm.trans hrewards)
  rw [← hsettled.departing]
  refine departures_iff (hsettled.canLeave hpartition (stages_run hrun)) hpartition.removals_nodup
    fun index hindex => ?_
  have hlt := hpartition.removals_lt index hindex
  have hlength := congrArg length hsettled.entry_processed
  dsimp only [roster] at hlt
  rw [length_map, length_map] at hlength
  rw [length_map] at hlt
  rw [length_append]
  omega

/-- Stake is added to the second of two validators, which then asks to leave. -/
def leavingScript (stake : ℕ) : List (SuiAddress × Call) :=
  [(3, .requestAddStake stake 2), (2, .requestRemoveValidator)]

/-- Fifty of sixty SUI leave. -/
theorem departures_succeed_covered :
    ∃ state outstanding rewards joined stakes, SystemRun (fun _ => true)
      (fun _ _ _ _ => True) state outstanding ∧
      state.validators.computeRewards 0 0 state.validatorReportRecords 0 = .ok rewards ∧
      state.validators.beforeDepartures 0 0 state.validatorReportRecords 0 state.epoch =
        .ok (joined, stakes) ∧
      state.validators.departingStake rewards sampleParameters.thresholds = 50000000000 ∧
        state.validators.totalStake = 60000000000 ∧
      ∃ left, joined.departures sampleParameters.thresholds state.validatorReportRecords
        state.epoch = .ok left := by
  obtain ⟨⟨state, outstanding⟩, hresult, hstate⟩ := (Option.any_eq_true _ _).mp
    (by decide +kernel : (runScript (fun _ _ _ => true) sampleGenesisPair 
        (leavingScript 20000000000)).any (fun result =>
        returns (result.1.validators.computeRewards 0 0 result.1.validatorReportRecords 0)
          (fun rewards =>
        returns (result.1.validators.beforeDepartures 0 0 result.1.validatorReportRecords 0
          result.1.epoch) (fun _ =>
          result.1.validators.departingStake rewards sampleParameters.thresholds = 50000000000 ∧
            result.1.validators.totalStake = 60000000000))) = true)
  have hrun : SystemRun (fun _ => true) (fun _ _ _ _ => True) state outstanding :=
    systemRun_of_runScript (fun _ _ _ _ _ => trivial) hresult
  obtain ⟨rewards, hrewards, hstate⟩ := exists_of_returns hstate
  obtain ⟨⟨joined, stakes⟩, hjoined, hstate⟩ := exists_of_returns hstate
  obtain ⟨hdeparting, htotal⟩ := of_decide_eq_true hstate
  refine ⟨state, outstanding, rewards, joined, stakes, hrun, hrewards, hjoined, hdeparting, htotal, ?_⟩
  exact (departures_succeed_iff hrun hrewards hjoined).1.mpr (by rw [hdeparting, htotal]; decide)

/-- A validator with a hundred and thirty SUI does not get out of sixty, and the epoch
does not end. -/
theorem departure_underflows :
    ∃ state outstanding, SystemRun (fun _ => true) (fun _ _ _ _ => True) state outstanding ∧
      state.validators.activeValidators.length = 2 ∧ state.validators.pendingRemovals = [1] ∧
      (∃ joined stakes, state.validators.beforeDepartures 0 0 state.validatorReportRecords 0
        state.epoch = .ok (joined, stakes) ∧
        joined.departures sampleParameters.thresholds state.validatorReportRecords state.epoch =
          .error .arithmeticUnderflow) ∧
      state.validators.advanceEpoch 0 0 state.validatorReportRecords 0 sampleParameters.thresholds
        state.epoch = .error .arithmeticUnderflow := by
  obtain ⟨⟨state, outstanding⟩, hresult, hstate⟩ := (Option.any_eq_true _ _).mp
    (by decide +kernel : (runScript (fun _ _ _ => true) sampleGenesisPair 
        (leavingScript 100000000000)).any
      (fun result => decide (result.1.validators.activeValidators.length = 2 ∧
        result.1.validators.pendingRemovals = [1]) &&
        returns (result.1.validators.beforeDepartures 0 0 result.1.validatorReportRecords 0
          result.1.epoch) (fun joined =>
          failsWith (joined.1.departures sampleParameters.thresholds result.1.validatorReportRecords
            result.1.epoch) .arithmeticUnderflow)) = true)
  have hrun : SystemRun (fun _ => true) (fun _ _ _ _ => True) state outstanding :=
    systemRun_of_runScript (fun _ _ _ _ _ => trivial) hresult
  obtain ⟨hvalidators, hstate⟩ := Bool.and_eq_true_iff.mp hstate
  obtain ⟨hlength, hremovals⟩ := of_decide_eq_true hvalidators
  obtain ⟨⟨joined, stakes⟩, hjoined, hfails⟩ := exists_of_returns hstate
  have hdepartures : joined.departures sampleParameters.thresholds state.validatorReportRecords
      state.epoch = _ :=
    eq_error_of_failsWith hfails
  refine ⟨state, outstanding, hrun, hlength, hremovals, ⟨joined, stakes, hjoined, hdepartures⟩, ?_⟩
  rw [advanceEpoch_eq, hjoined, ok_bind]
  dsimp only
  rw [hdepartures]
  rfl

end SuiProofs.SuiSystem

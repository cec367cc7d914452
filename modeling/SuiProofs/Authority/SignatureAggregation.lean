import SuiProofs.Library.Exec
import SuiProofs.Authority.StakeAggregator

/-!
Models the signatures of `crypto.rs` in `sui-types` and the aggregators of `stake_aggregator.rs` in
`sui-core`. An aggregate is the list of its parts and verifies if all of them do.
-/

namespace SuiProofs.Authority

open Library List Committee StakeAggregator
open Std (TreeMap)

namespace Committee

def authorityIndex (committee : Committee) (author : AuthorityName) : Option ℕ :=
  committee.votingRights.findIdx? fun e => e.1 = author

def authorityByIndex (committee : Committee) (index : ℕ) : Option AuthorityName :=
  committee.votingRights[index]?.map Prod.fst

def totalVotes (_ : Committee) : ℕ := totalVotingPower

def signerIndex (committee : Committee) (pk : AuthorityName) : Except AggregatorError ℕ :=
  match committee.authorityIndex pk with
  | some index => .ok index
  | none => .error (.unknownSigner (some pk) none)

def signerAt (committee : Committee) (authorityIndex : ℕ) : Except AggregatorError AuthorityName :=
  match committee.authorityByIndex authorityIndex with
  | none => .error (.unknownSigner none (some authorityIndex))
  | some authority =>
    if committee.weight authority = 0 then
      .error (.unknownSigner (some authority) (some authorityIndex)) else .ok authority

variable {committee : Committee} {a b : AuthorityName} {i j : ℕ}

lemma authorityByIndex_lt (hi : committee.authorityByIndex i = some a)
    (hj : committee.authorityByIndex j = some b) (hij : i < j) :
    a < b := by
  obtain ⟨ei, hei, rfl⟩ := Option.map_eq_some_iff.mp hi
  obtain ⟨ej, hej, rfl⟩ := Option.map_eq_some_iff.mp hj
  obtain ⟨hlti, rfl⟩ := List.getElem?_eq_some_iff.mp hei
  obtain ⟨hltj, rfl⟩ := List.getElem?_eq_some_iff.mp hej
  exact pairwise_iff_getElem.mp committee.sorted i j hlti hltj hij

lemma authorityByIndex_of_authorityIndex (h : committee.authorityIndex a = some i) :
    committee.authorityByIndex i = some a := by
  obtain ⟨hlt, ha, -⟩ := findIdx?_eq_some_iff_getElem.mp h
  unfold authorityByIndex
  rw [getElem?_eq_getElem hlt, Option.map_some, of_decide_eq_true ha]

lemma authorityIndex_lt (ha : committee.authorityIndex a = some i)
    (hb : committee.authorityIndex b = some j) (hab : a < b) :
    i < j := by
  have hi := authorityByIndex_of_authorityIndex ha
  have hj := authorityByIndex_of_authorityIndex hb
  rcases lt_trichotomy i j with hij | rfl | hij
  · exact hij
  · rw [hi] at hj
    exact absurd (Option.some.inj hj) hab.ne
  · exact absurd (authorityByIndex_lt hj hi hij) hab.asymm

lemma exists_authorityIndex (h : 0 < committee.weight a) : ∃ i, committee.authorityIndex a = some i := by
  unfold weight at h
  cases hlk : committee.votingRights.lookup a with
  | none =>
    rw [hlk] at h
    cases h
  | some w =>
    obtain ⟨l₁, l₂, hrights, -⟩ := lookup_eq_some_iff.mp hlk
    unfold authorityIndex
    rw [← Option.isSome_iff_exists, findIdx?_isSome, hrights]
    simp

lemma mem_of_weight_pos (h : 0 < committee.weight a) : a ∈ committee.votingRights.map Prod.fst := by
  obtain ⟨i, hi⟩ := exists_authorityIndex h
  have hat := authorityByIndex_of_authorityIndex hi
  obtain ⟨e, he, rfl⟩ := Option.map_eq_some_iff.mp hat
  exact mem_map_of_mem (mem_of_getElem? he)

variable {l l' : List AuthorityName}

lemma stake_perm (committee : Committee) (h : l.Perm l') : committee.stake l = committee.stake l' :=
  (h.map committee.weight).sum_eq

lemma stake_le_of_subset (hnd : l.Nodup) (h : l ⊆ l') : committee.stake l ≤ committee.stake l' := by
  obtain ⟨l₁, hperm, hsublist⟩ := subperm_of_subset hnd h
  rw [← stake_perm committee hperm]
  exact (hsublist.map committee.weight).sum_le_sum fun _ _ => Nat.zero_le _

end Committee

structure AuthoritySignInfo (Sig : Type) where
  epoch : ℕ
  authority : AuthorityName
  signature : Sig
deriving DecidableEq, Repr

/-- Signatures are not compared: there can be several valid ones. -/
instance (Sig : Type) : BEq (AuthoritySignInfo Sig) :=
  ⟨fun a b => a.epoch == b.epoch && a.authority == b.authority⟩

structure AuthorityQuorumSignInfo (Sig : Type) where
  epoch : ℕ
  signature : List Sig
  signersMap : Std.TreeSet ℕ

structure Envelope (T Sig : Type) where
  data : T
  authSignature : AuthoritySignInfo Sig

section Signatures

variable {T Sig : Type} (verify : T → ℕ → AuthorityName → Sig → Bool) (committee : Committee)
  (strength : Bool)

namespace AuthoritySignInfo

def verifySecure (sig : AuthoritySignInfo Sig) (data : T) : Except AggregatorError Unit :=
  if sig.epoch ≠ committee.epoch then .error (.wrongEpoch committee.epoch sig.epoch)
  else if committee.weight sig.authority = 0 then .error (.unknownSigner (some sig.authority) none)
  else if verify data sig.epoch sig.authority sig.signature then .ok ()
    else .error (.invalidSignature "")

end AuthoritySignInfo

namespace AuthorityQuorumSignInfo

def newFromAuthSignInfos (authSignInfos : List (AuthoritySignInfo Sig)) :
    Except AggregatorError (AuthorityQuorumSignInfo Sig) :=
  let totalStake := committee.stake (authSignInfos.map AuthoritySignInfo.authority)
  if !authSignInfos.all fun a => a.epoch = committee.epoch then
    .error (.invalidSignature "All signatures must be from the same epoch as the committee")
  else if totalStake < Committee.threshold strength then
    .error (.invalidSignature "Signatures don't have enough stake to form a quorum")
  else do
    let signatures :=
      authSignInfos.foldl (fun m a => m.insert a.authority a.signature)
        (∅ : TreeMap AuthorityName Sig)
    let indices ← signatures.keys.mapM committee.signerIndex
    return ⟨committee.epoch, signatures.toList.map Prod.snd,
      indices.foldl (fun map index => map.insert index) ∅⟩

def verifySecure (aggregated : AuthorityQuorumSignInfo Sig) (data : T) : Except AggregatorError Unit :=
  if aggregated.epoch ≠ committee.epoch then .error (.wrongEpoch committee.epoch aggregated.epoch)
  else do
    let publicKeys ← aggregated.signersMap.toList.mapM committee.signerAt
    if committee.stake publicKeys < Committee.threshold strength then .error .certificateRequiresQuorum
    else if (publicKeys.zip aggregated.signature).all fun part =>
      verify data aggregated.epoch part.1 part.2 then .ok ()
    else .error (.invalidSignature "")

end AuthorityQuorumSignInfo

namespace StakeAggregator

/-- A signature that does not verify is removed together with its votes. -/
def removeIfBad (data : T) (acc : StakeAggregator (AuthoritySignInfo Sig) × ℕ × List AuthorityName)
    (entry : AuthorityName × AuthoritySignInfo Sig) :
    StakeAggregator (AuthoritySignInfo Sig) × ℕ × List AuthorityName :=
  match entry.2.verifySecure verify committee data with
  | .ok _ => acc
  | .error _ =>
    let votes := committee.weight entry.1
    (⟨acc.1.data.erase entry.1, acc.1.totalVotes - votes⟩, acc.2.1 + votes, acc.2.2 ++ [entry.1])

def removeBad (data : T) (agg : StakeAggregator (AuthoritySignInfo Sig)) :
    StakeAggregator (AuthoritySignInfo Sig) × ℕ × List AuthorityName :=
  agg.data.toList.foldl (removeIfBad verify committee data) (agg, 0, [])

/-- The signatures are aggregated and checked when their votes are enough. -/
def aggregate (data : T) (agg : StakeAggregator (AuthoritySignInfo Sig)) :
    StakeAggregator (AuthoritySignInfo Sig) × InsertResult (AuthorityQuorumSignInfo Sig) :=
  match AuthorityQuorumSignInfo.newFromAuthSignInfos committee strength
    (agg.data.toList.map Prod.snd) with
  | .error error => (agg, .failed error)
  | .ok aggregated =>
    match aggregated.verifySecure verify committee strength data with
    | .ok _ => (agg, .quorumReached aggregated)
    | .error _ =>
      let (agg, badVotes, badAuthorities) := agg.removeBad verify committee data
      (agg, .notEnoughVotes badVotes badAuthorities)

def insert (agg : StakeAggregator (AuthoritySignInfo Sig)) (envelope : Envelope T Sig) :
    StakeAggregator (AuthoritySignInfo Sig) × InsertResult (AuthorityQuorumSignInfo Sig) :=
  let sig := envelope.authSignature
  if committee.epoch ≠ sig.epoch then (agg, .failed (.wrongEpoch committee.epoch sig.epoch))
  else match agg.insertGeneric committee strength sig.authority sig with
    | (agg, .quorumReached _) => agg.aggregate verify committee strength envelope.data
    | (agg, .failed error) => (agg, .failed error)
    | (agg, .notEnoughVotes badVotes badAuthorities) => (agg, .notEnoughVotes badVotes badAuthorities)

end StakeAggregator

section Checks

variable {verify committee strength} {data : T} {agg : StakeAggregator (AuthoritySignInfo Sig)}

variable (verify committee data) in
def AuthoritySignInfo.Verifies (sig : AuthoritySignInfo Sig) : Prop :=
  0 < committee.weight sig.authority ∧ verify data sig.epoch sig.authority sig.signature = true

instance decidableVerifies (verify : T → ℕ → AuthorityName → Sig → Bool) (committee : Committee)
    (data : T) (sig : AuthoritySignInfo Sig) :
    Decidable (sig.Verifies verify committee data) :=
  inferInstanceAs (Decidable (_ ∧ _))

lemma AuthoritySignInfo.verifySecure_eq_ok {sig : AuthoritySignInfo Sig}
    (hep : sig.epoch = committee.epoch) :
    sig.verifySecure verify committee data = .ok () ↔ sig.Verifies verify committee data := by
  unfold verifySecure Verifies
  rw [if_neg (not_not.mpr hep)]
  by_cases hwt : committee.weight sig.authority = 0
  · simp [hwt]
  · simp [hwt, Nat.pos_iff_ne_zero]

namespace StakeAggregator

variable (committee agg) in
def Signed : Prop :=
  ∀ (name : AuthorityName) (sig : AuthoritySignInfo Sig), agg.data[name]? = some sig →
    sig.authority = name ∧ sig.epoch = committee.epoch

variable (verify committee data agg) in
def AllVerify : Prop :=
  ∀ (name : AuthorityName) (sig : AuthoritySignInfo Sig), agg.data[name]? = some sig →
    sig.Verifies verify committee data

variable (committee agg) in
/-- The certificate has the signatures of the aggregator, in the order of the signers. -/
structure IsAggregate (cert : AuthorityQuorumSignInfo Sig) : Prop where
  epoch : cert.epoch = committee.epoch
  signature : cert.signature = agg.data.toList.map fun e => e.2.signature
  signers : cert.signersMap.toList.map committee.authorityByIndex = agg.data.keys.map some

variable (hsig : agg.Signed committee)
include hsig

lemma Signed.toList : ∀ e ∈ agg.data.toList, e.2.authority = e.1 ∧ e.2.epoch = committee.epoch :=
  fun e he => hsig e.1 e.2 (TreeMap.mem_toList_iff_getElem?_eq_some.mp he)

omit hsig in
lemma sorted_toList : agg.data.toList.Pairwise fun a b => a.1 < b.1 :=
  TreeMap.ordered_keys_toList.imp compare_lt_iff_lt.mp

lemma authorities_toList :
    (agg.data.toList.map Prod.snd).map AuthoritySignInfo.authority = agg.data.keys := by
  rw [← TreeMap.map_fst_toList_eq_keys, map_map]
  exact map_congr_left fun e he => (hsig.toList e he).1

lemma signatures_toList :
    ((agg.data.toList.map Prod.snd).foldl (fun m a => m.insert a.authority a.signature)
      (∅ : TreeMap AuthorityName Sig)).toList =
      agg.data.toList.map fun e => (e.1, e.2.signature) := by
  have hprs : (agg.data.toList.map fun e => (e.1, e.2.signature)).Pairwise fun a b => a.1 < b.1 :=
    pairwise_map.mpr sorted_toList
  rw [← toList_foldl_insert_pairs hprs, foldl_map, foldl_map]
  congr 1
  refine foldl_ext _ _ _ fun m e he => ?_
  rw [(hsig.toList e he).1]

lemma newFromAuthSignInfos_eq (hcts : agg.Counts committee)
    (hq : Committee.threshold strength ≤ agg.totalVotes) :
    AuthorityQuorumSignInfo.newFromAuthSignInfos committee strength (agg.data.toList.map Prod.snd) = (do
      let indices ← agg.data.keys.mapM committee.signerIndex
      return ⟨committee.epoch, agg.data.toList.map fun e => e.2.signature,
        indices.foldl (fun map index => map.insert index) ∅⟩) := by
  have hepochs : ((agg.data.toList.map Prod.snd).all fun a => a.epoch = committee.epoch) = true := by
    rw [all_map, all_eq_true]
    intro e he
    exact decide_eq_true (hsig.toList e he).2
  have hsigs := signatures_toList hsig
  unfold AuthorityQuorumSignInfo.newFromAuthSignInfos
  dsimp only
  rw [hepochs, authorities_toList hsig, ← hcts, if_neg (by simp), if_neg (not_lt.mpr hq),
    ← TreeMap.map_fst_toList_eq_keys, hsigs, map_map, map_map, ← TreeMap.map_fst_toList_eq_keys]
  rfl

omit hsig

variable {indices : List ℕ}

lemma isAggregate_of_mapM (h : agg.data.keys.mapM committee.signerIndex = .ok indices) :
    IsAggregate committee agg
      ⟨committee.epoch, agg.data.toList.map fun e => e.2.signature,
        indices.foldl (fun map index => map.insert index) ∅⟩ := by
  refine ⟨rfl, rfl, ?_⟩
  rw [mapM_eq_ok_iff] at h
  have hidx : ∀ name i, committee.signerIndex name = .ok i → committee.authorityIndex name = some i := by
    intro name i hi
    unfold signerIndex at hi
    cases hat : committee.authorityIndex name with
    | none =>
      rw [hat] at hi
      cases hi
    | some j =>
      rw [hat] at hi
      rw [Except.ok.inj hi]
  have hsort : agg.data.keys.Pairwise (· < ·) := by
    rw [← TreeMap.map_fst_toList_eq_keys]
    exact pairwise_map.mpr sorted_toList
  generalize agg.data.keys = names at h hsort
  suffices haux : indices.Pairwise (· < ·) ∧ indices.map committee.authorityByIndex = names.map some by
    rw [toList_foldl_insert_set haux.1]
    exact haux.2
  induction names generalizing indices with
  | nil =>
    cases indices with
    | nil => exact ⟨List.Pairwise.nil, rfl⟩
    | cons i indices => cases h
  | cons name names ih =>
    cases indices with
    | nil => cases h
    | cons i indices =>
      rw [map_cons, map_cons, cons.injEq] at h
      rw [pairwise_cons] at hsort
      obtain ⟨hrest, hat⟩ := ih h.2 hsort.2
      have hi := hidx name i h.1
      refine ⟨pairwise_cons.mpr ⟨fun j hj => ?_, hrest⟩, ?_⟩
      · have hmem : Except.ok j ∈ names.map committee.signerIndex := h.2 ▸ mem_map_of_mem hj
        obtain ⟨name', hname', hj'⟩ := mem_map.mp hmem
        exact authorityIndex_lt hi (hidx name' j hj') (hsort.1 name' hname')
      · rw [map_cons, map_cons, hat, authorityByIndex_of_authorityIndex hi]

lemma mapM_signerAt {names names' : List AuthorityName}
    (h : indices.map committee.authorityByIndex = names.map some) :
    indices.mapM committee.signerAt = .ok names' ↔
      names' = names ∧ ∀ name ∈ names, 0 < committee.weight name := by
  rw [mapM_eq_ok_iff]
  induction indices generalizing names names' with
  | nil =>
    obtain rfl : names = [] := map_eq_nil_iff.mp h.symm
    simp
  | cons i indices ih =>
    cases names with
    | nil => cases h
    | cons name names =>
      rw [map_cons, map_cons, cons.injEq] at h
      have hat : committee.signerAt i = if committee.weight name = 0 then
          .error (.unknownSigner (some name) (some i)) else .ok name := by
        unfold signerAt
        rw [h.1]
      rw [map_cons, hat]
      cases names' with
      | nil => simp
      | cons name' names' =>
        rw [map_cons, cons.injEq, ih h.2, cons.injEq, forall_mem_cons]
        by_cases hwt : committee.weight name = 0
        · simp [hwt]
        · simp only [hwt, if_false, Except.ok.injEq, Nat.pos_of_ne_zero hwt, true_and, and_assoc,
            @eq_comm _ name name']

lemma IsAggregate.verifySecure_eq_ok {cert : AuthorityQuorumSignInfo Sig}
    (h : IsAggregate committee agg cert) (hsig : agg.Signed committee) (hcts : agg.Counts committee)
    (hq : Committee.threshold strength ≤ agg.totalVotes) :
    cert.verifySecure verify committee strength data = .ok () ↔ agg.AllVerify verify committee data := by
  have hpts : ((agg.data.keys.zip cert.signature).all fun part =>
    verify data cert.epoch part.1 part.2) = true ↔
      ∀ e ∈ agg.data.toList, verify data e.2.epoch e.2.authority e.2.signature = true := by
    rw [h.signature, h.epoch, ← TreeMap.map_fst_toList_eq_keys, zip_map', all_map, all_eq_true]
    refine forall₂_congr fun e he => ?_
    rw [(hsig.toList e he).1, (hsig.toList e he).2]
    rfl
  have hverify : agg.AllVerify verify committee data ↔
    (∀ name ∈ agg.data.keys, 0 < committee.weight name) ∧
      ∀ e ∈ agg.data.toList, verify data e.2.epoch e.2.authority e.2.signature = true := by
    constructor
    · intro hall
      have hent : ∀ e ∈ agg.data.toList, e.2.Verifies verify committee data :=
        fun e he => hall e.1 e.2 (TreeMap.mem_toList_iff_getElem?_eq_some.mp he)
      refine ⟨fun name hname => ?_, fun e he => (hent e he).2⟩
      rw [← TreeMap.map_fst_toList_eq_keys] at hname
      obtain ⟨e, he, rfl⟩ := mem_map.mp hname
      rw [← (hsig.toList e he).1]
      exact (hent e he).1
    · rintro ⟨hweights, hvalid⟩ name sig hget
      refine ⟨?_, hvalid (name, sig) (TreeMap.mem_toList_iff_getElem?_eq_some.mpr hget)⟩
      rw [(hsig name sig hget).1]
      exact hweights name (TreeMap.mem_keys.mpr (mem_map_iff_exists.mpr ⟨sig, hget⟩))
  rw [hverify]
  unfold AuthorityQuorumSignInfo.verifySecure
  rw [if_neg (not_not.mpr h.epoch), bind_eq_ok]
  constructor
  · rintro ⟨names, hnames, hchk⟩
    obtain ⟨rfl, hweights⟩ := (mapM_signerAt h.signers).mp hnames
    refine ⟨hweights, hpts.mp ?_⟩
    split_ifs at hchk with _ hall
    exact hall
  · rintro ⟨hweights, hvalid⟩
    refine ⟨agg.data.keys, (mapM_signerAt h.signers).mpr ⟨rfl, hweights⟩, ?_⟩
    rw [← hcts, if_neg (not_lt.mpr hq), if_pos (hpts.mpr hvalid)]

lemma removeIfBad_spec {acc : StakeAggregator (AuthoritySignInfo Sig) × ℕ × List AuthorityName}
    {name : AuthorityName} {sig : AuthoritySignInfo Sig} (hep : sig.epoch = committee.epoch)
    (hstd : acc.1.data[name]? = some sig) (hcts : acc.1.Counts committee) :
    (removeIfBad verify committee data acc (name, sig)).1.Counts committee ∧
      (∀ name' sig', (removeIfBad verify committee data acc (name, sig)).1.data[name']? = some sig' ↔
        acc.1.data[name']? = some sig' ∧
          ((name', sig') = (name, sig) → sig'.Verifies verify committee data)) ∧
      ∀ name', name' ∈ (removeIfBad verify committee data acc (name, sig)).2.2 ↔
        name' ∈ acc.2.2 ∨ name' = name ∧ ¬ sig.Verifies verify committee data := by
  have hiff : sig.verifySecure verify committee data = .ok () ↔ _ :=
    AuthoritySignInfo.verifySecure_eq_ok hep
  unfold removeIfBad
  cases hverify : sig.verifySecure verify committee data with
  | ok u =>
    have hgood := hiff.mp hverify
    refine ⟨hcts, fun name' sig' => (and_iff_left fun he => ?_).symm, fun name' =>
      (or_iff_left fun h => h.2 hgood).symm⟩
    obtain ⟨-, rfl⟩ := Prod.mk.inj he
    exact hgood
  | error e =>
    have hbad : ¬ sig.Verifies verify committee data := fun h => by
      rw [hiff.mpr h] at hverify
      cases hverify
    refine ⟨?_, fun name' sig' => ?_, fun name' => ?_⟩
    · have hperm := committee.stake_perm (perm_keys_erase (mem_map_iff_exists.mpr ⟨sig, hstd⟩))
      have htot : acc.1.totalVotes = committee.stake acc.1.data.keys := hcts
      unfold Counts
      unfold stake at hperm htot ⊢
      rw [map_cons, sum_cons] at hperm
      dsimp only
      omega
    · rw [getElem?_erase_ite]
      split_ifs with hname
      · subst hname
        refine iff_of_false (by simp) fun ⟨hget, hin⟩ => ?_
        obtain rfl := Option.some.inj (hstd.symm.trans hget)
        exact hbad (hin rfl)
      · exact (and_iff_left fun he => absurd (Prod.mk.inj he).1.symm hname).symm
    · rw [mem_append, mem_singleton, and_iff_left hbad]

lemma foldl_removeIfBad {entries : List (AuthorityName × AuthoritySignInfo Sig)}
    {acc : StakeAggregator (AuthoritySignInfo Sig) × ℕ × List AuthorityName}
    (hnd : (entries.map Prod.fst).Nodup) (hepochs : ∀ e ∈ entries, e.2.epoch = committee.epoch)
    (hstd : ∀ e ∈ entries, acc.1.data[e.1]? = some e.2) (hcts : acc.1.Counts committee) :
    (entries.foldl (removeIfBad verify committee data) acc).1.Counts committee ∧
      (∀ name sig, (entries.foldl (removeIfBad verify committee data) acc).1.data[name]? = some sig ↔
        acc.1.data[name]? = some sig ∧ ((name, sig) ∈ entries → sig.Verifies verify committee data)) ∧
      ∀ name, name ∈ (entries.foldl (removeIfBad verify committee data) acc).2.2 ↔
        name ∈ acc.2.2 ∨ ∃ sig, (name, sig) ∈ entries ∧ ¬ sig.Verifies verify committee data := by
  induction entries generalizing acc with
  | nil => simpa using hcts
  | cons entry entries ih =>
    rw [map_cons, nodup_cons] at hnd
    rw [forall_mem_cons] at hepochs hstd
    obtain ⟨hcts₁, hdata₁, hbad₁⟩ :=
      @removeIfBad_spec T Sig verify committee data acc _ _ hepochs.1 hstd.1 hcts
    obtain ⟨hcts', hdata, hbad⟩ := ih hnd.2 hepochs.2 (fun e he => (hdata₁ e.1 e.2).mpr
      ⟨hstd.2 e he, fun heq =>
        absurd (mem_map_of_mem (f := Prod.fst) he) ((Prod.mk.inj heq).1 ▸ hnd.1)⟩) hcts₁
    refine ⟨hcts', fun name sig => ?_, fun name => ?_⟩
    · rw [foldl_cons, hdata, hdata₁, mem_cons, or_imp, and_assoc]
    · rw [foldl_cons, hbad, hbad₁, or_assoc]
      simp only [mem_cons, Prod.ext_iff, or_and_right, exists_or, and_assoc, exists_and_left,
        exists_eq_left]

lemma removeBad_spec (hsig : agg.Signed committee) (hcts : agg.Counts committee) :
    (agg.removeBad verify committee data).1.Counts committee ∧
      (∀ (name : AuthorityName) (sig : AuthoritySignInfo Sig),
        (agg.removeBad verify committee data).1.data[name]? = some sig ↔
        agg.data[name]? = some sig ∧ sig.Verifies verify committee data) ∧
      ∀ name, name ∈ (agg.removeBad verify committee data).2.2 ↔
        ∃ sig, agg.data[name]? = some sig ∧ ¬ sig.Verifies verify committee data := by
  have hnd : (agg.data.toList.map Prod.fst).Nodup := by
    rw [TreeMap.map_fst_toList_eq_keys]
    exact TreeMap.nodup_keys
  have hstd : ∀ e ∈ agg.data.toList, agg.data[e.1]? = some e.2 := fun e he =>
    TreeMap.mem_toList_iff_getElem?_eq_some.mp he
  obtain ⟨hcts', hdata, hbad⟩ :=
    @foldl_removeIfBad T Sig verify committee data agg.data.toList (agg, 0, []) hnd
    (fun e he => (hsig.toList e he).2) hstd hcts
  refine ⟨hcts', fun name sig => ?_, fun name => ?_⟩
  · unfold removeBad
    rw [hdata, and_congr_right_iff]
    intro hget
    rw [TreeMap.mem_toList_iff_getElem?_eq_some]
    exact ⟨fun h => h hget, fun h _ => h⟩
  · unfold removeBad
    rw [hbad]
    simp only [not_mem_nil, false_or, TreeMap.mem_toList_iff_getElem?_eq_some]

lemma aggregate_cases (hsig : agg.Signed committee) (hcts : agg.Counts committee)
    (hq : Committee.threshold strength ≤ agg.totalVotes) :
    (agg.AllVerify verify committee data ∧
      ∃ cert, agg.aggregate verify committee strength data = (agg, .quorumReached cert) ∧
        IsAggregate committee agg cert) ∨
    (¬ agg.AllVerify verify committee data ∧
      ((∃ error, agg.aggregate verify committee strength data = (agg, .failed error) ∧
        ∃ name ∈ agg.data, committee.weight name = 0) ∨
        agg.aggregate verify committee strength data = ((agg.removeBad verify committee data).1,
          .notEnoughVotes (agg.removeBad verify committee data).2.1
            (agg.removeBad verify committee data).2.2))) := by
  unfold aggregate
  rw [newFromAuthSignInfos_eq hsig hcts hq]
  cases hindices : agg.data.keys.mapM committee.signerIndex with
  | error error =>
    have hunk : ∃ name ∈ agg.data, committee.weight name = 0 := by
      by_contra hnone
      have hall : ∀ name ∈ agg.data.keys, ∃ i, committee.signerIndex name = .ok i := by
        intro name hname
        have hwt : committee.weight name ≠ 0 := fun hzero =>
          hnone ⟨name, TreeMap.mem_keys.mp hname, hzero⟩
        obtain ⟨i, hi⟩ := exists_authorityIndex (Nat.pos_of_ne_zero hwt)
        refine ⟨i, ?_⟩
        unfold signerIndex
        rw [hi]
      obtain ⟨indices, hok, -⟩ := mapM_total hall
      rw [hok] at hindices
      cases hindices
    right
    refine ⟨fun hall => ?_, .inl ⟨error, rfl, hunk⟩⟩
    obtain ⟨name, hname, hzero⟩ := hunk
    obtain ⟨sig, hget⟩ := mem_map_iff_exists.mp hname
    have hpos := (hall name sig hget).1
    rw [(hsig name sig hget).1, hzero] at hpos
    exact absurd hpos (lt_irrefl 0)
  | ok indices =>
    have hcert := isAggregate_of_mapM hindices
    rw [ok_bind, pure_eq_ok]
    dsimp only
    cases hverify : AuthorityQuorumSignInfo.verifySecure verify committee strength
      ⟨committee.epoch, agg.data.toList.map fun e => e.2.signature,
        indices.foldl (fun map index => map.insert index) ∅⟩ data with
    | ok u =>
      left
      exact ⟨(hcert.verifySecure_eq_ok hsig hcts hq).mp hverify, _, rfl, hcert⟩
    | error error =>
      right
      refine ⟨fun hall => ?_, .inr rfl⟩
      rw [(hcert.verifySecure_eq_ok hsig hcts hq).mpr hall] at hverify
      cases hverify

variable (committee agg) in
def added (sig : AuthoritySignInfo Sig) : StakeAggregator (AuthoritySignInfo Sig) :=
  ⟨agg.data.insert sig.authority sig, agg.totalVotes + committee.weight sig.authority⟩

section Insert

variable {sig : AuthoritySignInfo Sig}

lemma getElem?_added (name : AuthorityName) :
    (agg.added committee sig).data[name]? = if sig.authority = name then some sig else agg.data[name]? :=
  getElem?_insert_ite name

lemma Signed.added (hsig : agg.Signed committee) (hep : sig.epoch = committee.epoch) :
    (agg.added committee sig).Signed committee := by
  intro name sig' hget
  rcases entry_of_insert hget with ⟨hname, rfl⟩ | ⟨-, hget⟩
  · exact ⟨hname, hep⟩
  · exact hsig name sig' hget

lemma Counts.added (hcts : agg.Counts committee) (hfr : agg.data[sig.authority]? = none) :
    (agg.added committee sig).Counts committee := by
  have hnot : sig.authority ∉ agg.data := by
    rw [mem_map_iff_exists, hfr]
    simp
  have htot : agg.totalVotes = committee.stake agg.data.keys := hcts
  unfold Counts StakeAggregator.added
  rw [committee.stake_perm (perm_keys_insert hnot), htot, add_comm]
  rfl

variable (verify committee strength data agg sig) in
/-- What `insert` makes of a signature, case by case. -/
inductive Insertion : StakeAggregator (AuthoritySignInfo Sig) × InsertResult
    (AuthorityQuorumSignInfo Sig) → Prop
  | repeated (old : AuthoritySignInfo Sig) : agg.data[sig.authority]? = some old →
      Insertion (agg, .failed (.stakeAggregatorRepeatedSigner sig.authority (old != sig)))
  | notMember : agg.data[sig.authority]? = none → committee.weight sig.authority = 0 →
      Insertion (agg.added committee sig, .failed .invalidAuthenticator)
  | notEnough : agg.data[sig.authority]? = none → 0 < committee.weight sig.authority →
      (agg.added committee sig).totalVotes < Committee.threshold strength →
      Insertion (agg.added committee sig, .notEnoughVotes 0 [])
  | enough : agg.data[sig.authority]? = none → 0 < committee.weight sig.authority →
      Committee.threshold strength ≤ (agg.added committee sig).totalVotes →
      Insertion ((agg.added committee sig).aggregate verify committee strength data)

lemma insertion (hep : sig.epoch = committee.epoch) :
    Insertion verify committee strength data agg sig
      (agg.insert verify committee strength ⟨data, sig⟩) := by
  unfold insert
  rw [if_neg (not_not.mpr hep.symm)]
  unfold insertGeneric
  cases hget : agg.data[sig.authority]? with
  | some old => exact .repeated old hget
  | none =>
    by_cases hvts : committee.weight sig.authority > 0
    · rw [if_pos hvts]
      by_cases hq : agg.totalVotes + committee.weight sig.authority ≥ threshold strength
      · rw [if_pos hq]
        exact .enough hget hvts hq
      · rw [if_neg hq]
        exact .notEnough hget hvts (not_le.mp hq)
    · rw [if_neg hvts]
      have hzero : committee.weight sig.authority = 0 := Nat.eq_zero_of_not_pos hvts
      have hadded : agg.added committee sig =
          { agg with data := agg.data.insert sig.authority sig } := by
        unfold added
        rw [hzero, add_zero]
      rw [← hadded]
      exact .notMember hget hzero

variable (agg sig) in
/-- A signature is stored, or it is inserted for a name that has none. -/
def Offered (name : AuthorityName) (sig' : AuthoritySignInfo Sig) : Prop :=
  agg.data[name]? = some sig' ∨ agg.data[name]? = none ∧ name = sig.authority ∧ sig' = sig

variable (verify committee data agg sig) in
/-- What an insertion leaves: signatures that were offered, among them all that verify. -/
structure Leaves (agg' : StakeAggregator (AuthoritySignInfo Sig)) : Prop where
  counts : agg'.Counts committee
  signed : agg'.Signed committee
  offered : ∀ (name : AuthorityName) (sig' : AuthoritySignInfo Sig), agg'.data[name]? = some sig' →
    Offered agg sig name sig'
  kept : ∀ (name : AuthorityName) (sig' : AuthoritySignInfo Sig), sig'.Verifies verify committee data →
    Offered agg sig name sig' → agg'.data[name]? = some sig'

lemma insert_leaves (hsig : agg.Signed committee) (hcts : agg.Counts committee)
    (hep : sig.epoch = committee.epoch) :
    Leaves verify committee data agg sig (agg.insert verify committee strength ⟨data, sig⟩).1 := by
  have hadded : agg.data[sig.authority]? = none →
    ∀ (name : AuthorityName) (sig' : AuthoritySignInfo Sig),
      (agg.added committee sig).data[name]? = some sig' ↔ Offered agg sig name sig' := by
    intro hfr name sig'
    rw [getElem?_added, Offered]
    split_ifs with hname
    · subst hname
      rw [hfr]
      simp [eq_comm]
    · simp [Ne.symm hname]
  have hsame : agg.data[sig.authority]? = none →
    Leaves verify committee data agg sig (agg.added committee sig) := fun hfr =>
    ⟨hcts.added hfr, hsig.added hep, fun name sig' => (hadded hfr name sig').mp,
      fun name sig' _ => (hadded hfr name sig').mpr⟩
  generalize hins : agg.insert verify committee strength ⟨data, sig⟩ = outcome
  have hcases : Insertion verify committee strength data agg sig outcome := hins ▸ insertion hep
  cases hcases with
  | repeated old hold =>
    refine ⟨hcts, hsig, fun name sig' h => .inl h, fun name sig' _ h =>
      h.elim id fun ⟨hnone, hname, _⟩ => ?_⟩
    rw [hname, hold] at hnone
    cases hnone
  | notMember hfr | notEnough hfr => exact hsame hfr
  | enough hfr hpos hq =>
    rcases @aggregate_cases T Sig verify committee strength data _ (hsig.added hep)
      (hcts.added hfr) hq with
      ⟨-, cert, heq, -⟩ | ⟨-, ⟨error, heq, -⟩ | heq⟩ <;> rw [heq]
    · exact hsame hfr
    · exact hsame hfr
    · obtain ⟨hcts', hdata, -⟩ :=
        @removeBad_spec T Sig verify committee data _ (hsig.added hep) (hcts.added hfr)
      refine ⟨hcts', fun name sig' hget => ?_, fun name sig' hget => ?_, fun name sig' hgood hor => ?_⟩
      · exact hsig.added hep name sig' ((hdata name sig').mp hget).1
      · exact (hadded hfr name sig').mp ((hdata name sig').mp hget).1
      · exact (hdata name sig').mpr ⟨(hadded hfr name sig').mpr hor, hgood⟩

lemma insert_quorumReached (hsig : agg.Signed committee) (hcts : agg.Counts committee)
    (hep : sig.epoch = committee.epoch) :
    (∀ cert, (agg.insert verify committee strength ⟨data, sig⟩).2 = .quorumReached cert →
      (agg.insert verify committee strength ⟨data, sig⟩).1 = agg.added committee sig ∧
        IsAggregate committee (agg.added committee sig) cert) ∧
    ((agg.insert verify committee strength ⟨data, sig⟩).2.isQuorumReached = true ↔
      agg.data[sig.authority]? = none ∧ 0 < committee.weight sig.authority ∧
        Committee.threshold strength ≤ (agg.added committee sig).totalVotes ∧
          (agg.added committee sig).AllVerify verify committee data) := by
  generalize hins : agg.insert verify committee strength ⟨data, sig⟩ = outcome
  have hcases : Insertion verify committee strength data agg sig outcome := hins ▸ insertion hep
  cases hcases with
  | repeated old hold =>
    refine ⟨fun cert h => (by cases h), fun h => (by cases h), fun h => ?_⟩
    rw [hold] at h
    cases h.1
  | notMember hfr hzero =>
    refine ⟨fun cert h => (by cases h), fun h => (by cases h), fun h => ?_⟩
    rw [hzero] at h
    exact absurd h.2.1 (lt_irrefl 0)
  | notEnough hfr hpos hlt =>
    exact ⟨fun cert h => (by cases h), fun h => (by cases h), fun h => absurd h.2.2.1 (not_le.mpr hlt)⟩
  | enough hfr hpos hq =>
    rcases @aggregate_cases T Sig verify committee strength data _ (hsig.added hep)
      (hcts.added hfr) hq with
      ⟨hall, cert, heq, hcert⟩ | ⟨hbad, ⟨error, heq, -⟩ | heq⟩ <;> rw [heq]
    · refine ⟨fun cert' h => ?_, fun _ => ⟨hfr, hpos, hq, hall⟩, fun _ => rfl⟩
      obtain rfl := InsertResult.quorumReached.inj h
      exact ⟨rfl, hcert⟩
    · exact ⟨fun cert h => (by cases h), fun h => (by cases h), fun h => absurd h.2.2.2 hbad⟩
    · exact ⟨fun cert h => (by cases h), fun h => (by cases h), fun h => absurd h.2.2.2 hbad⟩

variable (verify committee strength data) in
def insertAll (sigs : List (AuthoritySignInfo Sig)) : StakeAggregator (AuthoritySignInfo Sig) :=
  sigs.foldl (fun agg sig => (agg.insert verify committee strength ⟨data, sig⟩).1) .new

variable (verify committee data) in
def validSigners (sigs : List (AuthoritySignInfo Sig)) : List AuthorityName :=
  (committee.votingRights.map Prod.fst).filter fun name =>
    (sigs.find? fun sig => sig.authority = name).any fun sig =>
    decide (sig.Verifies verify committee data)

variable (verify committee data) in
/-- What is known after some insertions: a first signature that verifies is never removed. -/
structure Collects (sigs : List (AuthoritySignInfo Sig))
    (agg : StakeAggregator (AuthoritySignInfo Sig)) : Prop where
  counts : agg.Counts committee
  signed : agg.Signed committee
  inserted : ∀ (name : AuthorityName) (sig : AuthoritySignInfo Sig), agg.data[name]? =
    some sig → sig ∈ sigs
  kept : ∀ (name : AuthorityName) (sig : AuthoritySignInfo Sig),
    (sigs.find? fun sig => sig.authority = name) = some sig →
    sig.Verifies verify committee data → agg.data[name]? = some sig

variable {sigs : List (AuthoritySignInfo Sig)}

lemma Collects.insert (h : agg.Collects verify committee data sigs) (hep : sig.epoch = committee.epoch) :
    (agg.insert verify committee strength ⟨data, sig⟩).1.Collects verify committee data
      (sigs ++ [sig]) := by
  obtain ⟨hcts, hsig, hnew, hkept⟩ :=
    @insert_leaves T Sig verify committee strength data agg sig h.signed h.counts hep
  refine ⟨hcts, hsig, fun name sig' hget => ?_, fun name sig' hfst hgood => ?_⟩
  · rcases hnew name sig' hget with hold | ⟨-, -, rfl⟩
    · exact mem_append_left _ (h.inserted name sig' hold)
    · exact mem_append_right _ (mem_singleton_self _)
  · apply hkept name sig' hgood
    rw [find?_append, Option.or_eq_some_iff] at hfst
    rcases hfst with hfst | ⟨hnone, hfst⟩
    · exact .inl (h.kept name sig' hfst hgood)
    · -- The signer is new, so nothing is stored under the name.
      have hname := find?_some hfst
      obtain rfl : sig' = sig := by simpa using mem_of_find?_eq_some hfst
      refine .inr ⟨?_, (of_decide_eq_true hname).symm, rfl⟩
      cases hget : agg.data[name]? with
      | none => rfl
      | some old =>
        have hnot := find?_eq_none.mp hnone old (h.inserted name old hget)
        exact absurd (decide_eq_true (h.signed name old hget).1) hnot

lemma collects_insertAll (hepochs : ∀ sig ∈ sigs, sig.epoch = committee.epoch) :
    (insertAll verify committee strength data sigs).Collects verify committee data sigs := by
  induction sigs using reverseRecOn with
  | nil =>
    refine ⟨counts_new, fun name sig hget => ?_, fun name sig hget => ?_, fun name sig hfst =>
      (by cases hfst)⟩
    · simp [insertAll, new] at hget
    · simp [insertAll, new] at hget
  | append_singleton sigs sig ih =>
    rw [forall_mem_append, forall_mem_singleton] at hepochs
    have hstep : ((insertAll verify committee strength data sigs).insert verify committee strength
      ⟨data, sig⟩).1.Collects verify
        committee data (sigs ++ [sig]) := (ih hepochs.1).insert hepochs.2
    unfold insertAll at hstep ⊢
    rw [foldl_append]
    exact hstep

lemma nodup_validSigners : (validSigners verify committee data sigs).Nodup := by
  apply List.Nodup.filter
  exact pairwise_map.mpr (committee.sorted.imp fun h => h.ne)

lemma of_mem_validSigners {name : AuthorityName} (h : name ∈ validSigners verify committee data sigs) :
    ∃ first, (sigs.find? fun s => s.authority = name) = some first ∧ first.authority = name ∧
      first.Verifies verify committee data := by
  obtain ⟨first, hfst, hgood⟩ := (Option.any_eq_true ..).mp (mem_filter.mp h).2
  have hname := find?_some hfst
  exact ⟨first, hfst, of_decide_eq_true hname, of_decide_eq_true hgood⟩

/-- A call that adds to the valid signers is the first of its signer, with a valid signature. -/
lemma validSigners_append
    (hlt : committee.stake (validSigners verify committee data sigs) <
      committee.stake (validSigners verify committee data (sigs ++ [sig]))) :
    (∀ s ∈ sigs, s.authority ≠ sig.authority) ∧ sig.Verifies verify committee data := by
  by_contra hnot
  refine absurd hlt (not_lt.mpr (stake_le_of_subset nodup_validSigners fun name hname => ?_))
  have hmem := (mem_filter.mp hname).1
  obtain ⟨first, hfst, hauth, hgood⟩ := of_mem_validSigners hname
  rw [find?_append, Option.or_eq_some_iff] at hfst
  rcases hfst with hfst | ⟨hnone, hfst⟩
  · apply mem_filter.mpr
    refine ⟨hmem, ?_⟩
    rw [hfst]
    exact decide_eq_true hgood
  · obtain rfl : first = sig := by simpa using mem_of_find?_eq_some hfst
    refine absurd ⟨fun s hs heq => ?_, hgood⟩ hnot
    exact find?_eq_none.mp hnone s hs (decide_eq_true (heq.trans hauth))

/-- Signatures on the same data: the votes are always those of the stored signers, and a quorum is
reported only with valid signatures of distinct members. The call that makes the members with a
valid first signature a quorum reports it exactly if every signature stored before it is a valid
one of a member. -/
theorem insert_reports_quorum_iff (verify : T → ℕ → AuthorityName → Sig → Bool)
    (committee : Committee) (strength : Bool) (data : T)
    (sigs : List (AuthoritySignInfo Sig)) (sig : AuthoritySignInfo Sig)
    (hepochs : ∀ s ∈ sigs ++ [sig], s.epoch = committee.epoch) :
    (insertAll verify committee strength data sigs).totalVotes =
      committee.stake (insertAll verify committee strength data sigs).data.keys ∧
    (∀ cert, ((insertAll verify committee strength data sigs).insert verify committee strength
      ⟨data, sig⟩).2 = .quorumReached cert →
      ∃ signatures : List (AuthoritySignInfo Sig), signatures ⊆ sigs ++ [sig] ∧
        (signatures.map AuthoritySignInfo.authority).Nodup ∧
          (∀ s ∈ signatures, s.Verifies verify committee data) ∧
        Committee.threshold strength ≤ committee.stake (signatures.map AuthoritySignInfo.authority) ∧
        cert.signature = signatures.map AuthoritySignInfo.signature ∧
        cert.signersMap.toList.map committee.authorityByIndex = signatures.map fun s =>
          some s.authority) ∧
    (committee.stake (validSigners verify committee data sigs) < Committee.threshold strength →
      Committee.threshold strength ≤ committee.stake
        (validSigners verify committee data (sigs ++ [sig])) →
      (((insertAll verify committee strength data sigs).insert verify committee strength
        ⟨data, sig⟩).2.isQuorumReached = true ↔
        ∀ (name : AuthorityName) (s : AuthoritySignInfo Sig),
          (insertAll verify committee strength data sigs).data[name]? = some s →
          s.Verifies verify committee data)) := by
  rw [forall_mem_append, forall_mem_singleton] at hepochs
  have hcollects : (insertAll verify committee strength data sigs).Collects verify committee data
    sigs := collects_insertAll hepochs.1
  generalize insertAll verify committee strength data sigs = agg at hcollects ⊢
  obtain ⟨hcert, hreached⟩ :=
    @insert_quorumReached T Sig verify committee strength data agg sig hcollects.signed
      hcollects.counts hepochs.2
  refine ⟨hcollects.counts, fun cert hquorum => ?_, fun hbefore hafter => ?_⟩
  · obtain ⟨hfresh, -, hthreshold, hall⟩ := hreached.mp (by rw [hquorum]; rfl)
    have hparts := (hcert cert hquorum).2
    have hsigned : (agg.added committee sig).Signed committee := hcollects.signed.added hepochs.2
    have hnames := authorities_toList hsigned
    refine ⟨(agg.added committee sig).data.toList.map Prod.snd, fun s hs => ?_,
      hnames ▸ TreeMap.nodup_keys, fun s hs => ?_, ?_, ?_, ?_⟩
    · obtain ⟨e, he, rfl⟩ := mem_map.mp hs
      have hget := TreeMap.mem_toList_iff_getElem?_eq_some.mp he
      rcases entry_of_insert hget with ⟨-, rfl⟩ | ⟨-, hget⟩
      · exact mem_append_right _ (mem_singleton_self _)
      · exact mem_append_left _ (hcollects.inserted e.1 e.2 hget)
    · obtain ⟨e, he, rfl⟩ := mem_map.mp hs
      exact hall e.1 e.2 (TreeMap.mem_toList_iff_getElem?_eq_some.mp he)
    · rw [hnames, ← hcollects.counts.added hfresh]
      exact hthreshold
    · rw [hparts.signature, map_map]
      rfl
    · rw [hparts.signers, ← hnames, map_map]
      rfl
  · obtain ⟨hfirst, hgood⟩ := validSigners_append (hbefore.trans_le hafter)
    have hfresh : agg.data[sig.authority]? = none := by
      cases hget : agg.data[sig.authority]? with
      | none => rfl
      | some old =>
          exact absurd (hcollects.signed _ old hget).1 (hfirst old (hcollects.inserted _ old hget))
    -- The valid signers are all stored, so their votes are counted.
    have hthreshold : threshold strength ≤ (agg.added committee sig).totalVotes := by
      rw [hcollects.counts.added hfresh]
      refine hafter.trans (stake_le_of_subset nodup_validSigners fun name hname => ?_)
      obtain ⟨first, hfound, hauthority, hverifies⟩ := of_mem_validSigners hname
      rw [TreeMap.mem_keys, mem_map_iff_exists]
      simp only [getElem?_added]
      rw [find?_append, Option.or_eq_some_iff] at hfound
      split_ifs with heq
      · exact ⟨sig, rfl⟩
      · rcases hfound with hfound | ⟨-, hfound⟩
        · exact ⟨first, hcollects.kept name first hfound hverifies⟩
        · obtain rfl : first = sig := by simpa using mem_of_find?_eq_some hfound
          exact absurd hauthority heq
    rw [hreached]
    constructor
    · rintro ⟨-, -, -, hall⟩ name s hget
      apply hall name s
      rw [getElem?_added, if_neg (fun heq => ?_), hget]
      rw [← heq, hfresh] at hget
      cases hget
    · intro hall
      refine ⟨hfresh, hgood.1, hthreshold, fun name s hget => ?_⟩
      rcases entry_of_insert hget with ⟨-, rfl⟩ | ⟨-, hget⟩
      · exact hgood
      · exact hall name s hget

def unequalCommittee : Committee := ⟨0, [(1, 1), (2, 9999)], by decide, by decide⟩

/-- Signatures that say themselves whether they are valid. -/
def marked (_ : Unit) (_ : ℕ) (_ : AuthorityName) (signature : Bool) : Bool := signature

/-- Two valid signatures make a quorum. -/
theorem insert_reports_quorum_valid :
    ((insertAll marked unequalCommittee true () [⟨0, 1, true⟩]).insert marked unequalCommittee true
      ⟨(), ⟨0, 2, true⟩⟩).2.isQuorumReached =
      true :=
  ((insert_reports_quorum_iff marked unequalCommittee true () [⟨0, 1, true⟩] ⟨0, 2, true⟩
    (by decide)).2.2
    (by decide +kernel) (by decide +kernel)).mpr (by
      intro name s hget
      have hmem : (name, s) ∈ (insertAll marked unequalCommittee true () [⟨0, 1, true⟩]).data.toList :=
        TreeMap.mem_toList_iff_getElem?_eq_some.mpr hget
      have hlist : (insertAll marked unequalCommittee true () [⟨0, 1, true⟩]).data.toList =
          [(1, ⟨0, 1, true⟩)] := by decide +kernel
      rw [hlist, mem_singleton] at hmem
      cases hmem
      decide)

/-- A quorum of valid signatures is missed after an invalid signature of a member, and also after
a signature of someone who is no member. -/
theorem insert_misses_quorum :
    (unequalCommittee.stake (validSigners marked unequalCommittee () [⟨0, 1, false⟩]) <
      Committee.threshold true ∧
      Committee.threshold true ≤ unequalCommittee.stake
        (validSigners marked unequalCommittee () [⟨0, 1, false⟩, ⟨0, 2, true⟩]) ∧
      ((insertAll marked unequalCommittee true () [⟨0, 1, false⟩]).insert marked unequalCommittee
        true ⟨(), ⟨0, 2, true⟩⟩).2.isQuorumReached =
        false) ∧
    (unequalCommittee.stake (validSigners marked unequalCommittee () [⟨0, 3, true⟩]) <
      Committee.threshold true ∧
      Committee.threshold true ≤ unequalCommittee.stake
        (validSigners marked unequalCommittee () [⟨0, 3, true⟩, ⟨0, 2, true⟩]) ∧
      ((insertAll marked unequalCommittee true () [⟨0, 3, true⟩]).insert marked unequalCommittee
        true ⟨(), ⟨0, 2, true⟩⟩).2.isQuorumReached =
        false) := by
  decide +kernel

end Insert

end StakeAggregator

end Checks

end Signatures

end SuiProofs.Authority

import SuiProofs.SuiSystem.Validator

namespace SuiProofs.SuiSystem

open Library List

/-- The identity data of a validator, each with the value staged for the next epoch. -/
structure Identity where
  suiAddress : SuiAddress
  netAddresses : List Bytes
  p2pAddresses : List Bytes
  protocolPubkeys : List Bytes
  networkAndWorkerPubkeys : List Bytes
deriving DecidableEq, Repr

namespace Identity

/-- Nothing is shared. Network and worker keys are compared with each other, too. -/
structure Distinct (i j : Identity) : Prop where
  suiAddress : i.suiAddress ≠ j.suiAddress
  netAddresses : i.netAddresses.Disjoint j.netAddresses
  p2pAddresses : i.p2pAddresses.Disjoint j.p2pAddresses
  protocolPubkeys : i.protocolPubkeys.Disjoint j.protocolPubkeys
  networkAndWorkerPubkeys : i.networkAndWorkerPubkeys.Disjoint j.networkAndWorkerPubkeys

/-- Nothing is added to the identity. -/
structure Within (i j : Identity) : Prop where
  suiAddress : i.suiAddress = j.suiAddress
  netAddresses : i.netAddresses ⊆ j.netAddresses
  p2pAddresses : i.p2pAddresses ⊆ j.p2pAddresses
  protocolPubkeys : i.protocolPubkeys ⊆ j.protocolPubkeys
  networkAndWorkerPubkeys : i.networkAndWorkerPubkeys ⊆ j.networkAndWorkerPubkeys

variable {i i' j j' : Identity}

lemma Distinct.symm (h : i.Distinct j) : j.Distinct i :=
  ⟨h.suiAddress.symm, h.netAddresses.symm, h.p2pAddresses.symm, h.protocolPubkeys.symm,
    h.networkAndWorkerPubkeys.symm⟩

lemma Distinct.within (h : i.Distinct j) (hi : i'.Within i) (hj : j'.Within j) : i'.Distinct j' where
  suiAddress := by
    rw [hi.suiAddress, hj.suiAddress]
    exact h.suiAddress
  netAddresses := fun _ ha hb => h.netAddresses (hi.netAddresses ha) (hj.netAddresses hb)
  p2pAddresses := fun _ ha hb => h.p2pAddresses (hi.p2pAddresses ha) (hj.p2pAddresses hb)
  protocolPubkeys := fun _ ha hb => h.protocolPubkeys (hi.protocolPubkeys ha) (hj.protocolPubkeys hb)
  networkAndWorkerPubkeys := fun _ ha hb =>
    h.networkAndWorkerPubkeys (hi.networkAndWorkerPubkeys ha) (hj.networkAndWorkerPubkeys hb)

end Identity

namespace ValidatorMetadata

def currentAndStaged (current : Bytes) (staged : Option Bytes) : List Bytes := current :: staged.toList

def identity (metadata : ValidatorMetadata) : Identity where
  suiAddress := metadata.suiAddress
  netAddresses := currentAndStaged metadata.netAddress metadata.nextEpochNetAddress
  p2pAddresses := currentAndStaged metadata.p2pAddress metadata.nextEpochP2pAddress
  protocolPubkeys := currentAndStaged metadata.protocolPubkeyBytes metadata.nextEpochProtocolPubkeyBytes
  networkAndWorkerPubkeys :=
    currentAndStaged metadata.networkPubkeyBytes metadata.nextEpochNetworkPubkeyBytes ++
    currentAndStaged metadata.workerPubkeyBytes metadata.nextEpochWorkerPubkeyBytes

lemma disjoint_currentAndStaged {a b : Bytes} {x y : Option Bytes} (hab : a ≠ b)
    (hxy : isEqualSome x y = false)
    (hxb : isEqualSomeAndValue x b = false) (hya : isEqualSomeAndValue y a = false) :
    (currentAndStaged a x).Disjoint (currentAndStaged b y) := by
  intro value hval hoth
  simp only [currentAndStaged, mem_cons, Option.mem_toList] at hval hoth
  rcases hval with rfl | rfl
  · rcases hoth with rfl | rfl
    · exact hab rfl
    · simp [isEqualSomeAndValue] at hya
  · rcases hoth with rfl | rfl
    · simp [isEqualSomeAndValue] at hxb
    · simp [isEqualSome] at hxy

lemma distinct_of_isDuplicate {m n : ValidatorMetadata} (h : m.isDuplicate n = false) :
    m.identity.Distinct n.identity := by
  simp only [isDuplicate, Bool.or_eq_false_iff, beq_eq_false_iff_ne, and_assoc] at h
  obtain ⟨haddr, -, hnet, hp2p, hprot, hnn, hnw, hww, hwn, hnet', hp2p', hprot', hnn', hnw', hww',
    hwn', hnetl, hp2pl, hprotocoll,
    hnnl, hnwl, hwwl, hwnl, hnetr, hp2pr, hprotocolr, hnnr, hnwr, hwwr, hwnr⟩ := h
  refine ⟨haddr, disjoint_currentAndStaged hnet hnet' hnetl hnetr,
    disjoint_currentAndStaged hp2p hp2p' hp2pl hp2pr,
    disjoint_currentAndStaged hprot hprot' hprotocoll hprotocolr, ?_⟩
  dsimp only [identity]
  rw [disjoint_append_left, disjoint_append_right, disjoint_append_right]
  exact ⟨⟨disjoint_currentAndStaged hnn hnn' hnnl hnnr, disjoint_currentAndStaged hnw hnw' hnwl hwnr⟩,
    disjoint_currentAndStaged hwn hwn' hwnl hnwr, disjoint_currentAndStaged hww hww' hwwl hwwr⟩

lemma effectuateProtocolPubkey_eq_ok {m m' : ValidatorMetadata}
    (h : m.effectuateProtocolPubkey = .ok m') :
    ∃ proof nextProof, m' = { m with
      protocolPubkeyBytes := m.nextEpochProtocolPubkeyBytes.getD m.protocolPubkeyBytes
      nextEpochProtocolPubkeyBytes := none, proofOfPossession := proof
      nextEpochProofOfPossession := nextProof } := by
  unfold effectuateProtocolPubkey at h
  cases hkey : m.nextEpochProtocolPubkeyBytes with
  | none =>
    rw [hkey] at h
    cases h
    refine ⟨m.proofOfPossession, m.nextEpochProofOfPossession, ?_⟩
    rw [Option.getD_none, ← hkey]
  | some key =>
    cases hproof : m.nextEpochProofOfPossession with
    | none =>
      rw [hkey, hproof] at h
      cases h
    | some proof =>
      rw [hkey, hproof] at h
      cases h
      exact ⟨proof, none, rfl⟩

lemma getD_subset (current : Bytes) (staged : Option Bytes) :
    currentAndStaged (staged.getD current) none ⊆ currentAndStaged current staged := by
  cases staged <;> simp [currentAndStaged]

lemma within_effectuateStaged {m m' : ValidatorMetadata} (h : m.effectuateStaged = .ok m') :
    m'.identity.Within m.identity := by
  obtain ⟨keyed, hky, h⟩ := bind_eq_ok.mp h
  obtain ⟨proof, nextProof, rfl⟩ := effectuateProtocolPubkey_eq_ok hky
  cases h
  refine ⟨rfl, getD_subset _ _, getD_subset _ _, getD_subset _ _, ?_⟩
  exact append_subset.mpr ⟨List.Subset.trans (getD_subset _ _) (subset_append_left _ _),
    List.Subset.trans (getD_subset _ _) (subset_append_right _ _)⟩

end ValidatorMetadata

end SuiProofs.SuiSystem

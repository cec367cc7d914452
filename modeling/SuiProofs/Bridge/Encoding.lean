import SuiProofs.Bridge.Message

/-!
Models the `BridgeMessageEncoding` implementations of `encoding.rs` for the actions that the Move
package executes. A panic of the encoder is `none`.
-/

namespace SuiProofs.Bridge

open Library List TokenTransferPayload

abbrev EthAddress := FixedBytes 20

inductive BridgeChainId where
  | suiMainnet
  | suiTestnet
  | suiCustom
  | ethMainnet
  | ethSepolia
  | ethCustom
deriving DecidableEq, Repr

def BridgeChainId.toU8 : BridgeChainId → UInt8
  | suiMainnet => 0
  | suiTestnet => 1
  | suiCustom => 2
  | ethMainnet => 10
  | ethSepolia => 11
  | ethCustom => 12

inductive BridgeActionType where
  | tokenTransfer
  | updateCommitteeBlocklist
  | emergencyButton
  | limitUpdate
  | assetPriceUpdate
  | addTokensOnSui
deriving DecidableEq, Repr

def BridgeActionType.toU8 : BridgeActionType → UInt8
  | tokenTransfer => 0
  | updateCommitteeBlocklist => 1
  | emergencyButton => 2
  | limitUpdate => 3
  | assetPriceUpdate => 4
  | addTokensOnSui => 6

inductive BlocklistType where
  | blocklist
  | unblocklist
deriving DecidableEq, Repr

def BlocklistType.toU8 : BlocklistType → UInt8
  | blocklist => 0
  | unblocklist => 1

inductive EmergencyActionType where
  | pause
  | unpause
deriving DecidableEq, Repr

def EmergencyActionType.toU8 : EmergencyActionType → UInt8
  | pause => 0
  | unpause => 1

structure EmittedSuiToEthTokenBridgeV1 where
  nonce : UInt64
  suiChainId : BridgeChainId
  ethChainId : BridgeChainId
  suiAddress : SuiAddress
  ethAddress : EthAddress
  tokenId : UInt8
  amountSuiAdjusted : UInt64

structure EthToSuiTokenBridgeV1 where
  nonce : UInt64
  suiChainId : BridgeChainId
  ethChainId : BridgeChainId
  suiAddress : SuiAddress
  ethAddress : EthAddress
  tokenId : UInt8
  suiAdjustedAmount : UInt64

structure SuiToEthBridgeAction where
  suiTxDigest : FixedBytes 32
  suiTxEventIndex : UInt16
  suiBridgeEvent : EmittedSuiToEthTokenBridgeV1

structure EthToSuiBridgeAction where
  ethTxHash : FixedBytes 32
  ethEventIndex : UInt16
  ethBridgeEvent : EthToSuiTokenBridgeV1

structure BlocklistCommitteeAction (PublicKey : Type) where
  nonce : UInt64
  chainId : BridgeChainId
  blocklistType : BlocklistType
  blocklistedMembers : List PublicKey

structure EmergencyAction where
  nonce : UInt64
  chainId : BridgeChainId
  actionType : EmergencyActionType

structure LimitUpdateAction where
  nonce : UInt64
  chainId : BridgeChainId
  sendingChainId : BridgeChainId
  newUsdLimit : UInt64

structure AssetPriceUpdateAction where
  nonce : UInt64
  chainId : BridgeChainId
  tokenId : UInt8
  newUsdPrice : UInt64

structure AddTokensOnSuiAction (TypeTag : Type) where
  nonce : UInt64
  chainId : BridgeChainId
  native : Bool
  tokenIds : List UInt8
  tokenTypeNames : List TypeTag
  tokenPrices : List UInt64

inductive BridgeAction (PublicKey TypeTag : Type) where
  | suiToEth (action : SuiToEthBridgeAction)
  | ethToSui (action : EthToSuiBridgeAction)
  | blocklistCommittee (action : BlocklistCommitteeAction PublicKey)
  | emergency (action : EmergencyAction)
  | limitUpdate (action : LimitUpdateAction)
  | assetPriceUpdate (action : AssetPriceUpdateAction)
  | addTokensOnSui (action : AddTokensOnSuiAction TypeTag)

/-- The conversions of keys and type names to bytes, which both sides share. -/
structure Conversions (PublicKey TypeTag : Type) where
  toEthAddress : PublicKey → EthAddress
  toCanonicalString : TypeTag → AsciiString
  toEthAddress_injective : Function.Injective toEthAddress
  toCanonicalString_injective : Function.Injective toCanonicalString

def tokenTransferMessageVersion : UInt8 := 1
def committeeBlocklistMessageVersion : UInt8 := 1
def emergencyButtonMessageVersion : UInt8 := 1
def limitUpdateMessageVersion : UInt8 := 1
def addTokensOnSuiMessageVersion : UInt8 := 1

def messageBytes (actionType : BridgeActionType) (version : UInt8) (nonce : UInt64)
    (chainId : BridgeChainId) (payload : Bytes) : Bytes :=
  [actionType.toU8] ++ [version] ++ beBytes 8 nonce.toNat ++ [chainId.toU8] ++ payload

namespace SuiToEthBridgeAction

def asPayloadBytes (action : SuiToEthBridgeAction) : Bytes :=
  let e := action.suiBridgeEvent
  [UInt8.ofNat 32] ++ e.suiAddress.bytes ++ [e.ethChainId.toU8] ++ [UInt8.ofNat 20] ++
    e.ethAddress.bytes ++ [e.tokenId] ++ beBytes 8 e.amountSuiAdjusted.toNat

def asBytes (action : SuiToEthBridgeAction) : Bytes :=
  messageBytes .tokenTransfer tokenTransferMessageVersion action.suiBridgeEvent.nonce
    action.suiBridgeEvent.suiChainId action.asPayloadBytes

end SuiToEthBridgeAction

namespace EthToSuiBridgeAction

def asPayloadBytes (action : EthToSuiBridgeAction) : Bytes :=
  let e := action.ethBridgeEvent
  [UInt8.ofNat 20] ++ e.ethAddress.bytes ++ [e.suiChainId.toU8] ++ [UInt8.ofNat 32] ++
    e.suiAddress.bytes ++ [e.tokenId] ++ beBytes 8 e.suiAdjustedAmount.toNat

def asBytes (action : EthToSuiBridgeAction) : Bytes :=
  messageBytes .tokenTransfer tokenTransferMessageVersion action.ethBridgeEvent.nonce
    action.ethBridgeEvent.ethChainId action.asPayloadBytes

end EthToSuiBridgeAction

section

variable {PublicKey TypeTag : Type} (conversions : Conversions PublicKey TypeTag)

namespace BlocklistCommitteeAction

variable (action : BlocklistCommitteeAction PublicKey)

/-- The conversion of the number of members to a byte panics above 255. -/
def asPayloadBytes : Option Bytes :=
  if action.blocklistedMembers.length < 256 then
    some ([action.blocklistType.toU8] ++ [UInt8.ofNat action.blocklistedMembers.length]
      ++ (action.blocklistedMembers.map fun m => (conversions.toEthAddress m).bytes).flatten)
  else none

def asBytes : Option Bytes :=
  (action.asPayloadBytes conversions).map
    (messageBytes .updateCommitteeBlocklist committeeBlocklistMessageVersion action.nonce
      action.chainId)

end BlocklistCommitteeAction

namespace EmergencyAction

def asPayloadBytes (action : EmergencyAction) : Bytes := [action.actionType.toU8]

def asBytes (action : EmergencyAction) : Bytes :=
  messageBytes .emergencyButton emergencyButtonMessageVersion action.nonce action.chainId
    action.asPayloadBytes

end EmergencyAction

namespace LimitUpdateAction

def asPayloadBytes (action : LimitUpdateAction) : Bytes :=
  [action.sendingChainId.toU8] ++ beBytes 8 action.newUsdLimit.toNat

def asBytes (action : LimitUpdateAction) : Bytes :=
  messageBytes .limitUpdate limitUpdateMessageVersion action.nonce action.chainId action.asPayloadBytes

end LimitUpdateAction

namespace AssetPriceUpdateAction

def asPayloadBytes (action : AssetPriceUpdateAction) : Bytes :=
  [action.tokenId] ++ beBytes 8 action.newUsdPrice.toNat

-- the source writes the version of the emergency button here
def asBytes (action : AssetPriceUpdateAction) : Bytes :=
  messageBytes .assetPriceUpdate emergencyButtonMessageVersion action.nonce action.chainId
    action.asPayloadBytes

end AssetPriceUpdateAction

namespace AddTokensOnSuiAction

variable (action : AddTokensOnSuiAction TypeTag)

/-- The serialisation of the three lists panics when BCS refuses it. -/
def asPayloadBytes : Option Bytes := do
  let idsBytes ← bcsVecU8 action.tokenIds
  let namesBytes ← bcsVecVecU8 (action.tokenTypeNames.map fun m =>
    (conversions.toCanonicalString m).bytes)
  let pricesBytes ← bcsVecU64 action.tokenPrices
  pure ([if action.native then 1 else 0] ++ idsBytes ++ namesBytes ++ pricesBytes)

def asBytes : Option Bytes :=
  (action.asPayloadBytes conversions).map
    (messageBytes .addTokensOnSui addTokensOnSuiMessageVersion action.nonce action.chainId)

end AddTokensOnSuiAction

namespace BridgeAction

def asBytes : BridgeAction PublicKey TypeTag → Option Bytes
  | suiToEth action => some action.asBytes
  | ethToSui action => some action.asBytes
  | blocklistCommittee action => action.asBytes conversions
  | emergency action => some action.asBytes
  | limitUpdate action => some action.asBytes
  | assetPriceUpdate action => some action.asBytes
  | addTokensOnSui action => action.asBytes conversions

/-- The message that the package builds from the fields of the action. -/
def createMessage : BridgeAction PublicKey TypeTag → Except Abort BridgeMessage
  | suiToEth { suiBridgeEvent := e, .. } =>
    BridgeMessage.createTokenBridgeMessage e.suiChainId.toU8 e.nonce e.suiAddress.bytes
      e.ethChainId.toU8 e.ethAddress.bytes e.tokenId e.amountSuiAdjusted
  | ethToSui { ethBridgeEvent := e, .. } =>
    BridgeMessage.createTokenBridgeMessage e.ethChainId.toU8 e.nonce e.ethAddress.bytes
      e.suiChainId.toU8 e.suiAddress.bytes e.tokenId e.suiAdjustedAmount
  | blocklistCommittee action =>
    BridgeMessage.createBlocklistMessage action.chainId.toU8 action.nonce action.blocklistType.toU8
      (action.blocklistedMembers.map fun m => (conversions.toEthAddress m).bytes)
  | emergency action =>
      BridgeMessage.createEmergencyOpMessage action.chainId.toU8 action.nonce action.actionType.toU8
  | limitUpdate action =>
    BridgeMessage.createUpdateBridgeLimitMessage action.chainId.toU8 action.nonce
      action.sendingChainId.toU8 action.newUsdLimit
  | assetPriceUpdate action =>
      BridgeMessage.createUpdateAssetPriceMessage action.tokenId action.chainId.toU8 action.nonce
        action.newUsdPrice
  | addTokensOnSui action =>
    BridgeMessage.createAddTokensOnSuiMessage action.chainId.toU8 action.nonce action.native
      action.tokenIds
      (action.tokenTypeNames.map conversions.toCanonicalString) action.tokenPrices

/-- The reader of the payload, applied to the message, returns the fields of the action. -/
def Extracts (action : BridgeAction PublicKey TypeTag) (message : BridgeMessage) : Prop :=
  match action with
  | suiToEth { suiBridgeEvent := e, .. } =>
    message.extractTokenBridgePayload =
      .ok ⟨e.suiAddress.bytes, e.ethChainId.toU8, e.ethAddress.bytes, e.tokenId,
        e.amountSuiAdjusted⟩
  | ethToSui { ethBridgeEvent := e, .. } =>
    message.extractTokenBridgePayload =
      .ok ⟨e.ethAddress.bytes, e.suiChainId.toU8, e.suiAddress.bytes, e.tokenId,
        e.suiAdjustedAmount⟩
  | blocklistCommittee action =>
    message.extractBlocklistPayload =
      .ok ⟨action.blocklistType.toU8, action.blocklistedMembers.map fun m =>
        (conversions.toEthAddress m).bytes⟩
  | emergency action => message.extractEmergencyOpPayload = .ok ⟨action.actionType.toU8⟩
  | limitUpdate action => message.extractUpdateBridgeLimit =
      .ok ⟨action.chainId.toU8, action.sendingChainId.toU8, action.newUsdLimit⟩
  | assetPriceUpdate action => message.extractUpdateAssetPrice = .ok ⟨action.tokenId, action.newUsdPrice⟩
  | addTokensOnSui action =>
    message.extractAddTokensOnSui =
      .ok ⟨action.native, action.tokenIds, action.tokenTypeNames.map conversions.toCanonicalString,
        action.tokenPrices⟩

end BridgeAction

end

namespace BridgeAction

variable {PublicKey TypeTag : Type}

def actionType : BridgeAction PublicKey TypeTag → BridgeActionType
  | suiToEth _ => .tokenTransfer
  | ethToSui _ => .tokenTransfer
  | blocklistCommittee _ => .updateCommitteeBlocklist
  | emergency _ => .emergencyButton
  | limitUpdate _ => .limitUpdate
  | assetPriceUpdate _ => .assetPriceUpdate
  | addTokensOnSui _ => .addTokensOnSui

def nonce : BridgeAction PublicKey TypeTag → UInt64
  | suiToEth action => action.suiBridgeEvent.nonce
  | ethToSui action => action.ethBridgeEvent.nonce
  | blocklistCommittee action => action.nonce
  | emergency action => action.nonce
  | limitUpdate action => action.nonce
  | assetPriceUpdate action => action.nonce
  | addTokensOnSui action => action.nonce

/-- The chain whose id the frame records: the source of a transfer, the executing chain
otherwise. -/
def chainId : BridgeAction PublicKey TypeTag → BridgeChainId
  | suiToEth action => action.suiBridgeEvent.suiChainId
  | ethToSui action => action.ethBridgeEvent.ethChainId
  | blocklistCommittee action => action.chainId
  | emergency action => action.chainId
  | limitUpdate action => action.chainId
  | assetPriceUpdate action => action.chainId
  | addTokensOnSui action => action.chainId

/-- Equality of everything but the transaction and the event that a transfer was observed in. -/
def SameEncodedFields : BridgeAction PublicKey TypeTag → BridgeAction PublicKey TypeTag → Prop
  | suiToEth a, suiToEth b => a.suiBridgeEvent = b.suiBridgeEvent
  | ethToSui a, ethToSui b => a.ethBridgeEvent = b.ethBridgeEvent
  | blocklistCommittee a, blocklistCommittee b => a = b
  | emergency a, emergency b => a = b
  | limitUpdate a, limitUpdate b => a = b
  | assetPriceUpdate a, assetPriceUpdate b => a = b
  | addTokensOnSui a, addTokensOnSui b => a = b
  | _, _ => False

def MembersInRange : BridgeAction PublicKey TypeTag → Prop
  | blocklistCommittee action =>
      1 ≤ action.blocklistedMembers.length ∧ action.blocklistedMembers.length ≤ 255
  | _ => True

variable (conversions : Conversions PublicKey TypeTag)

/-- The lists of the action are not longer than BCS allows. -/
def FitsBcs : BridgeAction PublicKey TypeTag → Prop
  | addTokensOnSui action =>
    action.tokenIds.length ≤ maxSequenceLength ∧ action.tokenTypeNames.length ≤ maxSequenceLength
      ∧ (∀ m ∈ action.tokenTypeNames, (conversions.toCanonicalString m).bytes.length ≤ maxSequenceLength)
      ∧ action.tokenPrices.length ≤ maxSequenceLength
  | _ => True

def payload : BridgeAction PublicKey TypeTag → Option Bytes
  | suiToEth action => some action.asPayloadBytes
  | ethToSui action => some action.asPayloadBytes
  | blocklistCommittee action => action.asPayloadBytes conversions
  | emergency action => some action.asPayloadBytes
  | limitUpdate action => some action.asPayloadBytes
  | assetPriceUpdate action => some action.asPayloadBytes
  | addTokensOnSui action => action.asPayloadBytes conversions

def message (action : BridgeAction PublicKey TypeTag) (payload : Bytes) : BridgeMessage :=
  ⟨action.actionType.toU8, currentMessageVersion, action.nonce, action.chainId.toU8, payload⟩

end BridgeAction

lemma BridgeChainId.isValidChainId_toU8 (chain : BridgeChainId) : isValidChainId chain.toU8 = true := by
  cases chain <;> decide

lemma BridgeChainId.toU8_injective : Function.Injective BridgeChainId.toU8 := by
  intro a b
  cases a <;> cases b <;> decide

lemma BridgeActionType.toU8_injective : Function.Injective BridgeActionType.toU8 := by
  intro a b
  cases a <;> cases b <;> decide

lemma BlocklistType.toU8_injective : Function.Injective BlocklistType.toU8 := by
  intro a b
  cases a <;> cases b <;> decide

lemma EmergencyActionType.toU8_injective : Function.Injective EmergencyActionType.toU8 := by
  intro a b
  cases a <;> cases b <;> decide

lemma assertValidChainId_toU8 (chain : BridgeChainId) : assertValidChainId chain.toU8 = .ok () :=
  check_eq_ok.mpr chain.isValidChainId_toU8

/-- Big endian bytes on one side are reversed little endian bytes on the other. -/
lemma messageBytes_eq_serializeMessage (actionType : BridgeActionType) (version : UInt8)
    (nonce : UInt64) (chainId : BridgeChainId) (payload : Bytes) :
    messageBytes actionType version nonce chainId payload
      = BridgeMessage.serializeMessage ⟨actionType.toU8, version, nonce, chainId.toU8, payload⟩ := by
  unfold messageBytes BridgeMessage.serializeMessage
  rw [reverseBytes_bcsU64]
  rfl

lemma castU8_of_lt {n : ℕ} (h : n < 256) : castU8 n = .ok (UInt8.ofNat n) := if_pos h

namespace BridgeMessage

lemma createTokenBridgeMessage_eq_ok {m n : ℕ} {source target : BridgeChainId}
    {seqNum amount : UInt64} {sender recipient : Bytes} {tokenType : UInt8}
    (hsdr : sender.length = m) (hrcp : recipient.length = n) (hlen : m + n = 52) :
    createTokenBridgeMessage source.toU8 seqNum sender target.toU8 recipient tokenType amount
      = .ok ⟨MessageTypes.token, currentMessageVersion, seqNum, source.toU8,
          [UInt8.ofNat m] ++ sender ++ [target.toU8] ++ [UInt8.ofNat n] ++ recipient ++
            [tokenType] ++ beBytes 8 amount.toNat⟩ := by
  unfold createTokenBridgeMessage
  rw [assertValidChainId_toU8, assertValidChainId_toU8, hsdr, hrcp, castU8_of_lt (by omega),
    castU8_of_lt (by omega), reverseBytes_bcsU64]
  simp only [ok_bind]
  rw [decide_eq_true]
  · rfl
  · simp only [length_append, length_singleton, length_beBytes]
    omega

lemma foldlM_append_addresses {addresses : List Bytes}
    (h : ∀ address ∈ addresses, address.length = ecdsaAddressLength) (payload : Bytes) :
    addresses.foldlM (fun payload address => do
      check (address.length = ecdsaAddressLength) .invalidAddressLength
      pure (payload ++ address)) payload = .ok (payload ++ addresses.flatten) := by
  induction addresses generalizing payload with
  | nil =>
    rw [flatten_nil, append_nil]
    rfl
  | cons address addresses ih =>
    rw [foldlM_cons, decide_eq_true (h address mem_cons_self), check_true, ok_bind, pure_eq_ok, ok_bind,
      ih fun a ha => h a (mem_cons_of_mem address ha), flatten_cons, append_assoc]

end BridgeMessage

namespace BridgeAction

open BridgeMessage

variable {PublicKey TypeTag : Type} {conversions : Conversions PublicKey TypeTag}
  {action other : BridgeAction PublicKey TypeTag} {bytes : Bytes}

lemma length_members {members : List PublicKey} : ∀ address ∈ members.map fun m =>
    (conversions.toEthAddress m).bytes, address.length = ecdsaAddressLength := by
  intro address haddr
  obtain ⟨m, -, rfl⟩ := mem_map.mp haddr
  exact (conversions.toEthAddress m).length_bytes

lemma asBytes_eq : action.asBytes conversions = (action.payload conversions).map fun payload =>
    (action.message payload).serializeMessage := by
  cases action with
  | suiToEth | ethToSui | emergency | limitUpdate | assetPriceUpdate =>
    exact congrArg some (messageBytes_eq_serializeMessage _ _ _ _ _)
  | blocklistCommittee | addTokensOnSui =>
    exact congrArg (Option.map · _) (funext fun _ => messageBytes_eq_serializeMessage _ _ _ _ _)

lemma createMessage_toOption :
    (action.createMessage conversions).toOption =
    (action.payload conversions).map action.message := by
  cases action with
  | suiToEth action =>
    obtain ⟨digest, index, e⟩ := action
    exact congrArg Except.toOption
      (createTokenBridgeMessage_eq_ok e.suiAddress.length_bytes e.ethAddress.length_bytes rfl)
  | ethToSui action =>
    obtain ⟨hash, index, e⟩ := action
    exact congrArg Except.toOption
      (createTokenBridgeMessage_eq_ok e.ethAddress.length_bytes e.suiAddress.length_bytes rfl)
  | blocklistCommittee action =>
    simp only [createMessage, createBlocklistMessage, assertValidChainId_toU8, ok_bind, payload,
      BlocklistCommitteeAction.asPayloadBytes, length_map]
    split_ifs with hcnt
    · rw [castU8_of_lt hcnt, ok_bind, foldlM_append_addresses length_members]
      rfl
    · unfold castU8
      rw [if_neg hcnt]
      rfl
  | emergency action =>
    simp only [createMessage, createEmergencyOpMessage, assertValidChainId_toU8, ok_bind]
    rfl
  | limitUpdate action =>
    simp only [createMessage, createUpdateBridgeLimitMessage, assertValidChainId_toU8, ok_bind,
      reverseBytes_bcsU64]
    rfl
  | assetPriceUpdate action =>
    simp only [createMessage, createUpdateAssetPriceMessage, assertValidChainId_toU8, ok_bind,
      reverseBytes_bcsU64]
    rfl
  | addTokensOnSui action =>
    simp only [createMessage, createAddTokensOnSuiMessage, assertValidChainId_toU8, ok_bind,
      payload, AddTokensOnSuiAction.asPayloadBytes, map_map]
    cases bcsVecU8 action.tokenIds with
    | none => rfl
    | some idsBytes =>
      change (orAbort (bcsVecVecU8 (action.tokenTypeNames.map fun m =>
        (conversions.toCanonicalString m).bytes)) .bcsSerializationFailure >>= _).toOption = _
      cases bcsVecVecU8 (action.tokenTypeNames.map fun m => (conversions.toCanonicalString m).bytes) with
      | none => rfl
      | some namesBytes =>
        cases bcsVecU64 action.tokenPrices <;> rfl

lemma extracts_message (hmembs : action.MembersInRange) (h : action.payload conversions = some bytes) :
    action.Extracts conversions (action.message bytes) := by
  cases action with
  | suiToEth action =>
    obtain ⟨digest, index, e⟩ := action
    cases h
    exact BCS.readAll_of_reads
      (reads_peelTokenBridgePayload e.suiAddress.length_bytes e.ethAddress.length_bytes rfl
      (assertValidChainId_toU8 e.ethChainId)) _
  | ethToSui action =>
    obtain ⟨hash, index, e⟩ := action
    cases h
    exact BCS.readAll_of_reads
      (reads_peelTokenBridgePayload e.ethAddress.length_bytes e.suiAddress.length_bytes rfl
      (assertValidChainId_toU8 e.suiChainId)) _
  | blocklistCommittee action =>
    obtain ⟨hpos, hle⟩ := hmembs
    have hcnt : action.blocklistedMembers.length < 256 := by omega
    have hne : (action.blocklistedMembers.map fun m => (conversions.toEthAddress m).bytes) ≠ [] := by
      apply ne_nil_of_length_pos
      rwa [length_map]
    have hreads :=
      @reads_peelBlocklistPayload action.blocklistType.toU8
        _ (@length_members _ _ conversions action.blocklistedMembers) hne
      (by rwa [length_map])
    rw [length_map] at hreads
    simp only [payload, BlocklistCommitteeAction.asPayloadBytes, if_pos hcnt] at h
    cases h
    exact BCS.readAll_of_reads hreads _
  | emergency action =>
    cases h
    rfl
  | limitUpdate action =>
    cases h
    exact BCS.readAll_of_reads (reads_peelUpdateBridgeLimit
      (assertValidChainId_toU8 action.sendingChainId)) _
  | assetPriceUpdate action =>
    cases h
    exact BCS.readAll_of_reads reads_peelUpdateAssetPrice _
  | addTokensOnSui action =>
    obtain ⟨idsBytes, hids, h⟩ := Option.bind_eq_some_iff.mp h
    obtain ⟨namesBytes, hnames, h⟩ := Option.bind_eq_some_iff.mp h
    obtain ⟨pricesBytes, hprices, h⟩ := Option.bind_eq_some_iff.mp h
    cases h
    have hnames' : bcsVecVecU8 ((action.tokenTypeNames.map conversions.toCanonicalString).map
        AsciiString.bytes) = some namesBytes := by
      rw [map_map]
      exact hnames
    exact BCS.readAll_of_reads (reads_peelAddTokensOnSui hids hnames' hprices) _

variable {α : Type}

lemma isSome_bcsVec {encode : α → Option Bytes} {l : List α} :
    (bcsVec encode l).isSome ↔ l.length ≤ maxSequenceLength ∧ ∀ a ∈ l, (encode a).isSome := by
  have hmap : (l.mapM encode).isSome ↔ ∀ a ∈ l, (encode a).isSome := by
    constructor
    · intro h a ha
      obtain ⟨parts, hpts⟩ := Option.isSome_iff_exists.mp h
      obtain ⟨part, -, hpart⟩ := (of_mapM_eq_some hpts).2 a ha
      rw [hpart]
      rfl
    · intro h
      obtain ⟨parts, hpts, -⟩ := exists_mapM_eq_some fun a ha => Option.isSome_iff_exists.mp (h a ha)
      rw [hpts]
      rfl
  unfold bcsVec
  split_ifs with hlen
  · rw [Option.isSome_map, hmap, and_iff_right hlen]
  · exact iff_of_false (by simp) fun h => hlen h.1

lemma isSome_payload (hmembs : action.MembersInRange) :
    (action.payload conversions).isSome ↔ action.FitsBcs conversions := by
  cases action with
  | blocklistCommittee action =>
    have hcnt : action.blocklistedMembers.length < 256 := Nat.lt_succ_of_le hmembs.2
    simp only [payload, BlocklistCommitteeAction.asPayloadBytes, if_pos hcnt, FitsBcs,
      Option.isSome_some]
  | addTokensOnSui action =>
    have hids : (bcsVecU8 action.tokenIds).isSome ↔ action.tokenIds.length ≤ maxSequenceLength := by
      rw [bcsVecU8, isSome_bcsVec]
      exact and_iff_left fun _ _ => rfl
    have hnames : (bcsVecVecU8 (action.tokenTypeNames.map fun m =>
      (conversions.toCanonicalString m).bytes)).isSome
        ↔ action.tokenTypeNames.length ≤ maxSequenceLength
          ∧ ∀ m ∈ action.tokenTypeNames, (conversions.toCanonicalString m).bytes.length ≤
            maxSequenceLength := by
      rw [bcsVecVecU8, isSome_bcsVec, length_map, forall_mem_map]
      simp only [bcsVecU8, isSome_bcsVec, Option.isSome_some, implies_true, and_true]
    have hprices : (bcsVecU64 action.tokenPrices).isSome ↔
        action.tokenPrices.length ≤ maxSequenceLength := by
      rw [bcsVecU64, isSome_bcsVec]
      exact and_iff_left fun _ _ => rfl
    simp only [FitsBcs, payload, AddTokensOnSuiAction.asPayloadBytes]
    rw [← hids, ← hprices, ← and_assoc (b := ∀ m ∈ _, _), ← hnames]
    cases bcsVecU8 action.tokenIds with
    | none => simp
    | some idsBytes =>
      cases bcsVecVecU8 (action.tokenTypeNames.map fun m => (conversions.toCanonicalString m).bytes) with
      | none => simp
      | some namesBytes => cases bcsVecU64 action.tokenPrices <;> simp
  | suiToEth | ethToSui | emergency | limitUpdate | assetPriceUpdate =>
    exact iff_of_true rfl trivial

attribute [ext] EmittedSuiToEthTokenBridgeV1 EthToSuiTokenBridgeV1 BlocklistCommitteeAction
  EmergencyAction LimitUpdateAction
  AssetPriceUpdateAction AddTokensOnSuiAction

/-- The sender has 32 bytes on one side and 20 on the other. -/
lemma not_extracts_suiToEth_ethToSui {m : BridgeMessage} {a : SuiToEthBridgeAction}
    {b : EthToSuiBridgeAction}
    (ha : (suiToEth a : BridgeAction PublicKey TypeTag).Extracts conversions m)
    (hb : (ethToSui b : BridgeAction PublicKey TypeTag).Extracts conversions m) : False := by
  obtain ⟨hsdr, -⟩ := mk.inj (Except.ok.inj (ha.symm.trans hb))
  have hlen := congrArg List.length hsdr
  rw [a.suiBridgeEvent.suiAddress.length_bytes, b.ethBridgeEvent.ethAddress.length_bytes] at hlen
  cases hlen

lemma sameEncodedFields_of_extracts {m : BridgeMessage}
    (htype : action.actionType = other.actionType) (hnonce : action.nonce = other.nonce)
    (hch : action.chainId = other.chainId) (ha : action.Extracts conversions m)
    (hb : other.Extracts conversions m) :
    action.SameEncodedFields other := by
  cases action <;> cases other <;> try cases htype
  case suiToEth.suiToEth a b =>
    obtain ⟨hsui, heth, haddr, htoken, hamount⟩ := mk.inj (Except.ok.inj (ha.symm.trans hb))
    exact EmittedSuiToEthTokenBridgeV1.ext hnonce hch (BridgeChainId.toU8_injective heth)
      (FixedBytes.ext_bytes hsui) (FixedBytes.ext_bytes haddr) htoken hamount
  case suiToEth.ethToSui a b => exact (not_extracts_suiToEth_ethToSui ha hb).elim
  case ethToSui.suiToEth a b => exact (not_extracts_suiToEth_ethToSui hb ha).elim
  case ethToSui.ethToSui a b =>
    obtain ⟨heth, hsui, haddr, htoken, hamount⟩ := mk.inj (Except.ok.inj (ha.symm.trans hb))
    exact EthToSuiTokenBridgeV1.ext hnonce (BridgeChainId.toU8_injective hsui) hch
      (FixedBytes.ext_bytes haddr) (FixedBytes.ext_bytes heth) htoken hamount
  case blocklistCommittee.blocklistCommittee a b =>
    obtain ⟨hkind, hmembs⟩ := Blocklist.mk.inj (Except.ok.inj (ha.symm.trans hb))
    exact BlocklistCommitteeAction.ext hnonce hch (BlocklistType.toU8_injective hkind)
      (map_injective_iff.mpr (fun _ _ h =>
        conversions.toEthAddress_injective (FixedBytes.ext_bytes h)) hmembs)
  case emergency.emergency a b =>
    have hkind := EmergencyOp.mk.inj (Except.ok.inj (ha.symm.trans hb))
    exact EmergencyAction.ext hnonce hch (EmergencyActionType.toU8_injective hkind)
  case limitUpdate.limitUpdate a b =>
    obtain ⟨-, hsending, hlimit⟩ := UpdateBridgeLimit.mk.inj (Except.ok.inj (ha.symm.trans hb))
    exact LimitUpdateAction.ext hnonce hch (BridgeChainId.toU8_injective hsending) hlimit
  case assetPriceUpdate.assetPriceUpdate a b =>
    obtain ⟨htoken, hprice⟩ := UpdateAssetPrice.mk.inj (Except.ok.inj (ha.symm.trans hb))
    exact AssetPriceUpdateAction.ext hnonce hch htoken hprice
  case addTokensOnSui.addTokensOnSui a b =>
    obtain ⟨hnative, hids, hnames, hprices⟩ := AddTokenOnSui.mk.inj (Except.ok.inj (ha.symm.trans hb))
    exact AddTokensOnSuiAction.ext hnonce hch hnative hids
      (map_injective_iff.mpr conversions.toCanonicalString_injective hnames) hprices

end BridgeAction

/-- The nodes and the package agree on the bytes of every action that both know. The encoder returns
the serialised form of the message that the package builds, and panics exactly where the package
aborts, on lists that BCS refuses. The payload reader returns the fields of the action, and two
actions with the same bytes have the same fields. -/
theorem asBytes_eq_serializeMessage {PublicKey TypeTag : Type}
    (conversions : Conversions PublicKey TypeTag) (action : BridgeAction PublicKey TypeTag)
    (hmembers : action.MembersInRange) :
    (action.asBytes conversions = (action.createMessage conversions).toOption.map
      BridgeMessage.serializeMessage)
      ∧ ((action.asBytes conversions).isSome ↔ action.FitsBcs conversions)
      ∧ (∀ message, action.createMessage conversions = .ok message →
          message.seqNum = action.nonce ∧ message.sourceChain = action.chainId.toU8 ∧
            action.Extracts conversions message)
      ∧ ∀ other : BridgeAction PublicKey TypeTag, other.MembersInRange →
        ∀ bytes, action.asBytes conversions = some bytes →
          other.asBytes conversions = some bytes → action.SameEncodedFields other := by
  refine ⟨?_, ?_, ?_, ?_⟩
  · rw [BridgeAction.asBytes_eq, BridgeAction.createMessage_toOption, Option.map_map]
    rfl
  · rw [BridgeAction.asBytes_eq, Option.isSome_map]
    exact BridgeAction.isSome_payload hmembers
  · intro message hmessage
    have hoption := @BridgeAction.createMessage_toOption _ _ conversions action
    rw [hmessage] at hoption
    obtain ⟨payload, hpayload, rfl⟩ := Option.map_eq_some_iff.mp hoption.symm
    exact ⟨rfl, rfl, BridgeAction.extracts_message hmembers hpayload⟩
  · intro other hother bytes hbytes hbytes'
    rw [BridgeAction.asBytes_eq] at hbytes hbytes'
    obtain ⟨payload, hpayload, rfl⟩ := Option.map_eq_some_iff.mp hbytes
    obtain ⟨payload', hpayload', hserialized⟩ := Option.map_eq_some_iff.mp hbytes'
    have hmessage : other.message payload' = action.message payload :=
      BridgeMessage.serializeMessage_injective hserialized
    have hextracts := BridgeAction.extracts_message hother hpayload'
    rw [hmessage] at hextracts
    obtain ⟨htype, -, hnonce, hchain, -⟩ := BridgeMessage.mk.inj hmessage.symm
    exact BridgeAction.sameEncodedFields_of_extracts (BridgeActionType.toU8_injective htype) hnonce
      (BridgeChainId.toU8_injective hchain)
      (BridgeAction.extracts_message hmembers hpayload) hextracts

def identityConversions : Conversions EthAddress AsciiString :=
  ⟨id, id, Function.injective_id, Function.injective_id⟩

def blockOneMember : BridgeAction EthAddress AsciiString :=
  .blocklistCommittee ⟨129, .suiCustom, .blocklist, [⟨List.replicate 20 7, length_replicate⟩]⟩

/-- A blocklist action with one member, byte by byte. -/
theorem asBytes_blockOneMember :
    blockOneMember.MembersInRange
      ∧ blockOneMember.asBytes identityConversions =
        some ([1, 1, 0, 0, 0, 0, 0, 0, 0, 129, 2, 0, 1] ++ List.replicate 20 7)
      ∧ blockOneMember.asBytes identityConversions
          = (blockOneMember.createMessage identityConversions).toOption.map
            BridgeMessage.serializeMessage := by
  have hmembers : blockOneMember.MembersInRange := ⟨by decide, by decide⟩
  exact ⟨hmembers, by decide,
    (asBytes_eq_serializeMessage identityConversions blockOneMember hmembers).1⟩

end SuiProofs.Bridge

import SuiProofs.Bridge.Framework

/-! Models `chain_ids.move`, `message_types.move` and `message.move` of the bridge package. -/

namespace SuiProofs.Bridge

open Library List Reads

namespace ChainIds

def suiMainnet : UInt8 := 0
def suiTestnet : UInt8 := 1
def suiCustom : UInt8 := 2
def ethMainnet : UInt8 := 10
def ethSepolia : UInt8 := 11
def ethCustom : UInt8 := 12

end ChainIds

open ChainIds

structure BridgeRoute where
  source : UInt8
  destination : UInt8
deriving DecidableEq, Repr

def isValidChainId (id : UInt8) : Bool :=
  id = suiMainnet || id = suiTestnet || id = suiCustom || id = ethMainnet || id =
    ethSepolia || id = ethCustom

def assertValidChainId (id : UInt8) : Except Abort Unit := check (isValidChainId id) .invalidBridgeRoute

namespace MessageTypes

def token : UInt8 := 0
def committeeBlocklist : UInt8 := 1
def emergencyOp : UInt8 := 2
def updateBridgeLimit : UInt8 := 3
def updateAssetPrice : UInt8 := 4
def addTokensOnSui : UInt8 := 6

end MessageTypes

def currentMessageVersion : UInt8 := 1

def ecdsaAddressLength : ℕ := 20

structure BridgeMessage where
  messageType : UInt8
  messageVersion : UInt8
  seqNum : UInt64
  sourceChain : UInt8
  payload : Bytes
deriving DecidableEq, Repr

structure TokenTransferPayload where
  senderAddress : Bytes
  targetChain : UInt8
  targetAddress : Bytes
  tokenType : UInt8
  amount : UInt64
deriving DecidableEq, Repr

structure EmergencyOp where
  opType : UInt8
deriving DecidableEq, Repr

structure Blocklist where
  blocklistType : UInt8
  validatorEthAddresses : List Bytes
deriving DecidableEq, Repr

structure UpdateBridgeLimit where
  receivingChain : UInt8
  sendingChain : UInt8
  limit : UInt64
deriving DecidableEq, Repr

structure UpdateAssetPrice where
  tokenId : UInt8
  newPrice : UInt64
deriving DecidableEq, Repr

/-- An `ascii::String`. -/
structure AsciiString where
  bytes : Bytes
  valid : ∀ b ∈ bytes, b ≤ 0x7f
deriving DecidableEq

def asciiString (bytes : Bytes) : Except Abort AsciiString :=
  if h : ∀ b ∈ bytes, b ≤ 0x7f then .ok ⟨bytes, h⟩ else .error .invalidAsciiCharacter

structure AddTokenOnSui where
  nativeToken : Bool
  tokenIds : List UInt8
  tokenTypeNames : List AsciiString
  tokenPrices : List UInt64
deriving DecidableEq

def castU8 (n : ℕ) : Except Abort UInt8 :=
  if n < 256 then .ok (UInt8.ofNat n) else .error .arithmeticError

def reverseBytes (bytes : Bytes) : Bytes := bytes.reverse

def peelU64Be : BCS UInt64 := do
  let value ← readBe BCS.peelU8 8 0
  pure (UInt64.ofNat value)

lemma reverseBytes_bcsU64 (n : UInt64) : reverseBytes (bcsU64 n) = beBytes 8 n.toNat :=
  reverse_leBytes 8 n.toNat

lemma reads_peelU64Be (n : UInt64) : Reads peelU64Be (beBytes 8 n.toNat) n := by
  apply (reads_readBe BCS.reads_peelU8 8 0 n.toNat).bind_nil
  have hval : UInt64.ofNat (0 + n.toNat % 256 ^ 8) = n := by
    rw [zero_add, Nat.mod_eq_of_lt (by have := n.toNat_lt; omega), UInt64.ofNat_toNat]
  rw [hval]
  exact pure n

lemma reads_lengthByte {value : Bytes} (h : value.length < 128) :
    Reads BCS.peelVecU8 ([UInt8.ofNat value.length] ++ value) value := by
  apply BCS.reads_peelVecU8
  have hmap : value.mapM (fun b => some [b]) = some (value.map fun b => [b]) := by
    induction value with
    | nil => rfl
    | cons b value ih =>
      rw [mapM_cons, ih (by rw [length_cons] at h; omega)]
      rfl
  have hlen : value.length ≤ maxSequenceLength := by
    unfold maxSequenceLength
    omega
  unfold bcsVecU8 bcsVec
  rw [if_pos hlen, hmap, uleb128_of_lt h, Option.map_some, ← flatMap_def, flatMap_singleton']

namespace BridgeMessage

variable (message : BridgeMessage)

def serializeMessage : Bytes :=
  [message.messageType, message.messageVersion] ++ reverseBytes (bcsU64 message.seqNum) ++
    [message.sourceChain] ++ message.payload

def peelTokenBridgePayload : BCS TokenTransferPayload := do
  let senderAddress ← BCS.peelVecU8
  let targetChain ← BCS.peelU8
  let targetAddress ← BCS.peelVecU8
  let tokenType ← BCS.peelU8
  let amount ← peelU64Be
  StateT.lift (assertValidChainId targetChain)
  pure ⟨senderAddress, targetChain, targetAddress, tokenType, amount⟩

def extractTokenBridgePayload : Except Abort TokenTransferPayload :=
  BCS.readAll peelTokenBridgePayload message.payload .trailingBytes

def extractEmergencyOpPayload : Except Abort EmergencyOp := do
  check (message.payload.length = 1) .trailingBytes
  let opType ← orAbort message.payload.head? .vectorError
  pure ⟨opType⟩

def peelBlocklistPayload : BCS Blocklist := do
  let blocklistType ← BCS.peelU8
  let addressCount ← BCS.peelU8
  StateT.lift (check (addressCount ≠ 0) .emptyList)
  let validatorEthAddresses ← readMany (readMany BCS.peelU8 ecdsaAddressLength) addressCount.toNat
  pure ⟨blocklistType, validatorEthAddresses⟩

def extractBlocklistPayload : Except Abort Blocklist :=
  BCS.readAll peelBlocklistPayload message.payload .trailingBytes

def peelUpdateBridgeLimit (receivingChain : UInt8) : BCS UpdateBridgeLimit := do
  let sendingChain ← BCS.peelU8
  let limit ← peelU64Be
  StateT.lift (assertValidChainId sendingChain)
  pure ⟨receivingChain, sendingChain, limit⟩

def extractUpdateBridgeLimit : Except Abort UpdateBridgeLimit :=
  BCS.readAll (peelUpdateBridgeLimit message.sourceChain) message.payload .trailingBytes

def peelUpdateAssetPrice : BCS UpdateAssetPrice := do
  let tokenId ← BCS.peelU8
  let newPrice ← peelU64Be
  pure ⟨tokenId, newPrice⟩

def extractUpdateAssetPrice : Except Abort UpdateAssetPrice :=
  BCS.readAll peelUpdateAssetPrice message.payload .trailingBytes

def peelAddTokensOnSui : BCS AddTokenOnSui := do
  let nativeToken ← BCS.peelBool
  let tokenIds ← BCS.peelVecU8
  let tokenTypeNamesBytes ← BCS.peelVecVecU8
  let tokenPrices ← BCS.peelVecU64
  let tokenTypeNames ← StateT.lift (tokenTypeNamesBytes.mapM asciiString)
  pure ⟨nativeToken, tokenIds, tokenTypeNames, tokenPrices⟩

def extractAddTokensOnSui : Except Abort AddTokenOnSui :=
  BCS.readAll peelAddTokensOnSui message.payload .trailingBytes

variable (sourceChain : UInt8) (seqNum : UInt64)

def createTokenBridgeMessage (senderAddress : Bytes) (targetChain : UInt8) (targetAddress : Bytes)
    (tokenType : UInt8) (amount : UInt64) : Except Abort BridgeMessage := do
  assertValidChainId sourceChain
  assertValidChainId targetChain
  let senderLength ← castU8 senderAddress.length
  let targetLength ← castU8 targetAddress.length
  let payload := [senderLength] ++ senderAddress ++ [targetChain] ++ [targetLength] ++
    targetAddress ++ [tokenType] ++ reverseBytes (bcsU64 amount)
  check (payload.length = 64) .invalidPayloadLength
  pure ⟨MessageTypes.token, currentMessageVersion, seqNum, sourceChain, payload⟩

def createEmergencyOpMessage (opType : UInt8) : Except Abort BridgeMessage := do
  assertValidChainId sourceChain
  pure ⟨MessageTypes.emergencyOp, currentMessageVersion, seqNum, sourceChain, [opType]⟩

def createBlocklistMessage (blocklistType : UInt8) (validatorEcdsaAddresses : List Bytes) :
    Except Abort BridgeMessage := do
  assertValidChainId sourceChain
  let addressLength ← castU8 validatorEcdsaAddresses.length
  -- the loop over the addresses appends each one that has the right length
  let payload ← validatorEcdsaAddresses.foldlM (fun payload address => do
    check (address.length = ecdsaAddressLength) .invalidAddressLength
    pure (payload ++ address)) [blocklistType, addressLength]
  pure ⟨MessageTypes.committeeBlocklist, currentMessageVersion, seqNum, sourceChain, payload⟩

def createUpdateBridgeLimitMessage (receivingChain : UInt8) (seqNum : UInt64) (sendingChain : UInt8)
    (newLimit : UInt64) :
    Except Abort BridgeMessage := do
  assertValidChainId receivingChain
  assertValidChainId sendingChain
  pure ⟨MessageTypes.updateBridgeLimit, currentMessageVersion, seqNum, receivingChain,
    [sendingChain] ++ reverseBytes (bcsU64 newLimit)⟩

def createUpdateAssetPriceMessage (tokenId : UInt8) (sourceChain : UInt8) (seqNum : UInt64)
    (newPrice : UInt64) :
    Except Abort BridgeMessage := do
  assertValidChainId sourceChain
  pure ⟨MessageTypes.updateAssetPrice, currentMessageVersion, seqNum, sourceChain,
    [tokenId] ++ reverseBytes (bcsU64 newPrice)⟩

def createAddTokensOnSuiMessage (nativeToken : Bool) (tokenIds : List UInt8)
    (typeNames : List AsciiString) (tokenPrices : List UInt64) : Except Abort BridgeMessage := do
  assertValidChainId sourceChain
  let idsBytes ← orAbort (bcsVecU8 tokenIds) .bcsSerializationFailure
  let namesBytes ← orAbort (bcsVecVecU8 (typeNames.map AsciiString.bytes)) .bcsSerializationFailure
  let pricesBytes ← orAbort (bcsVecU64 tokenPrices) .bcsSerializationFailure
  pure ⟨MessageTypes.addTokensOnSui, currentMessageVersion, seqNum, sourceChain,
    bcsBool nativeToken ++ idsBytes ++ namesBytes ++ pricesBytes⟩

lemma serializeMessage_injective : Function.Injective serializeMessage := by
  rintro ⟨t, v, n, c, p⟩ ⟨t', v', n', c', p'⟩ h
  unfold serializeMessage at h
  simp only [append_assoc, cons_append, nil_append, List.cons.injEq, reverseBytes_bcsU64] at h
  obtain ⟨rfl, rfl, h⟩ := h
  obtain ⟨hnum, htail⟩ := append_inj h (by rw [length_beBytes, length_beBytes])
  obtain rfl : n = n' := by
    apply (reads_peelU64Be n).unique
    rw [hnum]
    exact reads_peelU64Be n'
  cases htail
  rfl

lemma reads_peelTokenBridgePayload {m n : ℕ} {sender target : Bytes} {targetChain tokenType : UInt8}
    {amount : UInt64} (hsdr : sender.length = m) (htgt : target.length = n) (hlen : m + n = 52)
    (hch : assertValidChainId targetChain = .ok ()) :
    Reads peelTokenBridgePayload
      ([UInt8.ofNat m] ++ sender ++ [targetChain] ++ [UInt8.ofNat n] ++ target ++ [tokenType] ++
        beBytes 8 amount.toNat)
      ⟨sender, targetChain, target, tokenType, amount⟩ := by
  subst hsdr htgt
  simp only [append_assoc]
  rw [← append_assoc, ← append_assoc [UInt8.ofNat target.length]]
  apply (reads_lengthByte (by omega)).bind
  apply (BCS.reads_peelU8 targetChain).bind
  apply (reads_lengthByte (by omega)).bind
  apply (BCS.reads_peelU8 tokenType).bind
  apply (reads_peelU64Be amount).bind_nil
  apply (lift hch).bind_nil
  exact pure _

lemma reads_peelBlocklistPayload {blocklistType : UInt8} {addresses : List Bytes}
    (hlen : ∀ address ∈ addresses, address.length = ecdsaAddressLength)
    (hne : addresses ≠ []) (hcnt : addresses.length < 256) :
    Reads peelBlocklistPayload ([blocklistType, UInt8.ofNat addresses.length] ++ addresses.flatten)
      ⟨blocklistType, addresses⟩ := by
  have htoNat : (UInt8.ofNat addresses.length).toNat = addresses.length := by
    rw [toNat_ofNat_uint8, Nat.mod_eq_of_lt hcnt]
  have hnonzero : check (UInt8.ofNat addresses.length ≠ 0) .emptyList = .ok () := by
    rw [check_eq_ok, decide_eq_true_eq]
    intro hzero
    rw [hzero] at htoNat
    exact hne (eq_nil_of_length_eq_zero htoNat.symm)
  have hbytes : ∀ address : Bytes, Reads (readMany BCS.peelU8 address.length) address address := by
    intro address
    have hpts : List.Forall₂ (Reads BCS.peelU8) (address.map fun b => [b]) address := by
      rw [forall₂_map_left_iff, forall₂_same]
      exact fun b _ => BCS.reads_peelU8 b
    have hread := readMany hpts
    rwa [← flatMap_def, flatMap_singleton'] at hread
  have haddrs : Reads (readMany (readMany BCS.peelU8 ecdsaAddressLength)
      (UInt8.ofNat addresses.length).toNat) addresses.flatten addresses := by
    rw [htoNat]
    apply Reads.readMany
    rw [forall₂_same]
    intro address haddr
    rw [← hlen address haddr]
    exact hbytes address
  have hreads : Reads peelBlocklistPayload
      ([blocklistType] ++ ([UInt8.ofNat addresses.length] ++ ([] ++ addresses.flatten)))
    ⟨blocklistType, addresses⟩ := by
    apply (BCS.reads_peelU8 blocklistType).bind
    apply (BCS.reads_peelU8 _).bind
    apply (lift hnonzero).bind
    apply haddrs.bind_nil
    exact pure _
  exact hreads

lemma reads_peelUpdateBridgeLimit {receivingChain sendingChain : UInt8} {limit : UInt64}
    (hch : assertValidChainId sendingChain = .ok ()) :
    Reads (peelUpdateBridgeLimit receivingChain)
      ([sendingChain] ++ beBytes 8 limit.toNat) ⟨receivingChain, sendingChain, limit⟩ := by
  apply (BCS.reads_peelU8 sendingChain).bind
  apply (reads_peelU64Be limit).bind_nil
  apply (lift hch).bind_nil
  exact pure _

lemma reads_peelUpdateAssetPrice {tokenId : UInt8} {newPrice : UInt64} :
    Reads peelUpdateAssetPrice ([tokenId] ++ beBytes 8 newPrice.toNat) ⟨tokenId, newPrice⟩ := by
  apply (BCS.reads_peelU8 tokenId).bind
  apply (reads_peelU64Be newPrice).bind_nil
  exact pure _

lemma reads_peelAddTokensOnSui {nativeToken : Bool} {tokenIds : List UInt8}
    {typeNames : List AsciiString} {tokenPrices : List UInt64}
    {idsBytes namesBytes pricesBytes : Bytes} (hids : bcsVecU8 tokenIds = some idsBytes)
    (hnames : bcsVecVecU8 (typeNames.map AsciiString.bytes) = some namesBytes)
    (hprices : bcsVecU64 tokenPrices = some pricesBytes) :
    Reads peelAddTokensOnSui (bcsBool nativeToken ++ idsBytes ++ namesBytes ++ pricesBytes)
      ⟨nativeToken, tokenIds, typeNames, tokenPrices⟩ := by
  have hascii : (typeNames.map AsciiString.bytes).mapM asciiString = .ok typeNames := by
    rw [mapM_eq_ok_iff, map_map]
    exact map_congr_left fun name _ => dif_pos name.valid
  have hreads : Reads peelAddTokensOnSui
      (bcsBool nativeToken ++ (idsBytes ++ (namesBytes ++ pricesBytes)))
    ⟨nativeToken, tokenIds, typeNames, tokenPrices⟩ := by
    apply (BCS.reads_peelBool nativeToken).bind
    apply (BCS.reads_peelVecU8 hids).bind
    apply (BCS.reads_peelVecVecU8 hnames).bind
    apply (BCS.reads_peelVecU64 hprices).bind_nil
    apply (lift hascii).bind_nil
    exact pure _
  simpa only [append_assoc] using hreads

end BridgeMessage

end SuiProofs.Bridge

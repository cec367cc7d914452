import SuiProofs.Bridge.Message

/-! Models `treasury.move`. A coin type is its type name, a treasury cap the supply it has issued,
and an upgrade cap the package it belongs to. -/

namespace SuiProofs.Bridge

open Library

abbrev TypeName := AsciiString

/-- Models the loop of `math::pow`, which squares and multiplies in 64 bits. -/
def powLoop (base res exponent : ℕ) : Except Abort ℕ :=
  if exponent = 0 then .ok res
  else if exponent % 2 = 0 then do
    let base ← fits 64 (base * base)
    powLoop base res (exponent / 2)
  else do
    let res ← fits 64 (res * base)
    powLoop base res (exponent - 1)
termination_by exponent
decreasing_by all_goals omega

def pow (base : ℕ) (exponent : UInt8) : Except Abort ℕ := powLoop base 1 exponent.toNat

lemma powLoop_bounds {base res exponent n : ℕ} (hbase : 0 < base) (hres : 0 < res)
    (hlt : res < 2 ^ 64) (h : powLoop base res exponent = .ok n) :
    0 < n ∧ n < 2 ^ 64 := by
  induction base, res, exponent using powLoop.induct generalizing n with
  | case1 base res =>
    rw [powLoop, if_pos rfl] at h
    cases h
    exact ⟨hres, hlt⟩
  | case2 base res exponent hne heven ih =>
    rw [powLoop, if_neg hne, if_pos heven] at h
    obtain ⟨square, hsquare, h⟩ := bind_eq_ok.mp h
    obtain ⟨-, rfl⟩ := fits_eq_ok.mp hsquare
    exact ih _ (Nat.mul_pos hbase hbase) hres hlt h
  | case3 base res exponent hne hodd ih =>
    rw [powLoop, if_neg hne, if_neg hodd] at h
    obtain ⟨product, hproduct, h⟩ := bind_eq_ok.mp h
    obtain ⟨hfits, rfl⟩ := fits_eq_ok.mp hproduct
    exact ih _ hbase (Nat.mul_pos hres hbase) hfits h

/-- The multiplier is a power of ten, so it is not zero. -/
structure BridgeTokenMetadata where
  id : UInt8
  decimalMultiplier : UInt64
  notionalValue : UInt64
  nativeToken : Bool
  decimalMultiplier_pos : 0 < decimalMultiplier.toNat
deriving DecidableEq

structure ForeignTokenRegistration where
  typeName : TypeName
  decimal : UInt8
deriving DecidableEq

structure BridgeTreasury where
  treasuries : VecMap TypeName ℕ
  supportedTokens : VecMap TypeName BridgeTokenMetadata
  idTokenTypeMap : VecMap UInt8 TypeName
  waitingRoom : VecMap AsciiString ForeignTokenRegistration

namespace BridgeTreasury

variable {treasury treasury' : BridgeTreasury} {coin : TypeName}

def create : BridgeTreasury := ⟨.empty, .empty, .empty, .empty⟩

def getTokenMetadata (treasury : BridgeTreasury) (coin : TypeName) : Except Abort BridgeTokenMetadata :=
  orAbort (treasury.supportedTokens.tryGet coin) .unsupportedTokenType

/-- `coinAddress` is the package that defines the coin, `upgradePackage` the one that the
upgrade cap is for. -/
def registerForeignToken (treasury : BridgeTreasury) (coin : TypeName) (totalSupply : ℕ)
    (coinAddress upgradePackage : SuiAddress) (decimals : UInt8) :
    Except Abort BridgeTreasury := do
  check (totalSupply = 0) .tokenSupplyNonZero
  check (upgradePackage = coinAddress) .invalidUpgradeCap
  let waitingRoom ← treasury.waitingRoom.addField coin ⟨coin, decimals⟩
  let treasuries ← treasury.treasuries.addField coin totalSupply
  pure { treasury with waitingRoom, treasuries }

def decimalPower (decimal : UInt8) : Except Abort { multiplier : UInt64 // 0 < multiplier.toNat } :=
  match h : pow 10 decimal with
  | .error abort => .error abort
  | .ok n => .ok ⟨UInt64.ofNat n, by
      obtain ⟨hpos, hlt⟩ := powLoop_bounds (by norm_num) one_pos (by norm_num) h
      rwa [UInt64.toNat_ofNat_of_lt' hlt]⟩

def addNewToken (treasury : BridgeTreasury) (tokenName : AsciiString) (tokenId : UInt8)
    (nativeToken : Bool) (notionalValue : UInt64) :
    Except Abort BridgeTreasury :=
  if !nativeToken then do
    check (0 < notionalValue) .invalidNotionalValue
    let registration ← treasury.waitingRoom.borrowField tokenName
    let multiplier ← decimalPower registration.decimal
    let supportedTokens ← treasury.supportedTokens.insert registration.typeName
      ⟨tokenId, multiplier.1, notionalValue, nativeToken, multiplier.2⟩
    let idTokenTypeMap ← treasury.idTokenTypeMap.insert tokenId registration.typeName
    pure { treasury with
      waitingRoom := treasury.waitingRoom.erase tokenName, supportedTokens, idTokenTypeMap }
  else .ok treasury

def updateAssetNotionalPrice (treasury : BridgeTreasury) (tokenId : UInt8) (newUsdPrice : UInt64) :
    Except Abort BridgeTreasury := do
  let typeName ← orAbort (treasury.idTokenTypeMap.tryGet tokenId) .unsupportedTokenType
  check (0 < newUsdPrice) .invalidNotionalValue
  let metadata ← treasury.supportedTokens.get typeName
  pure { treasury with
    supportedTokens :=
    treasury.supportedTokens.set typeName { metadata with notionalValue := newUsdPrice } }

end BridgeTreasury

end SuiProofs.Bridge

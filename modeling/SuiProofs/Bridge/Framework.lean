import SuiProofs.Library.Codec
import SuiProofs.Library.Exec

/-!
What the bridge package uses of the Sui framework: aborts, checked arithmetic, `vec_map.move`, and
`bcs.move`.
-/

namespace SuiProofs.Bridge

open Library List

/-- The aborts of the modelled functions, of the framework and of the virtual machine. -/
inductive Abort where
  | arithmeticError
  | vectorError
  | fieldAlreadyExists
  | fieldDoesNotExist
  | keyAlreadyExists
  | keyDoesNotExist
  | outOfRange
  | notBool
  | lenOutOfRange
  | bcsSerializationFailure
  | invalidAsciiCharacter
  | invalidBridgeRoute
  | trailingBytes
  | invalidAddressLength
  | emptyList
  | invalidPayloadLength
  | invalidSignature
  | limitNotFoundForRoute
  | unsupportedTokenType
  | invalidUpgradeCap
  | tokenSupplyNonZero
  | invalidNotionalValue
deriving DecidableEq, Repr

abbrev Bytes := List UInt8

structure FixedBytes (length : ℕ) where
  bytes : Bytes
  length_bytes : bytes.length = length
deriving DecidableEq

variable {n : ℕ}

lemma FixedBytes.ext_bytes {a b : FixedBytes n} (h : a.bytes = b.bytes) : a = b := by
  cases a
  cases b
  cases h
  rfl

abbrev SuiAddress := FixedBytes 32

def check (condition : Bool) (abort : Abort) : Except Abort Unit :=
  if condition then .ok () else .error abort

variable {abort : Abort}

lemma check_eq_ok {condition : Bool} {u : Unit} : check condition abort = .ok u ↔ condition = true := by
  unfold check
  split_ifs with h <;> simp [h]

@[simp] lemma check_true (abort : Abort) : check true abort = .ok () := rfl

def orAbort {α : Type} (value : Option α) (abort : Abort) : Except Abort α :=
  match value with
  | some a => .ok a
  | none => .error abort

def fits (width n : ℕ) : Except Abort ℕ := if n < 2 ^ width then .ok n else .error .arithmeticError

variable {width : ℕ}

lemma fits_eq_ok {m : ℕ} : fits width n = .ok m ↔ n < 2 ^ width ∧ n = m := by
  unfold fits
  split_ifs with h
  · rw [Except.ok.injEq, and_iff_right h]
  · exact iff_of_false (fun he => by cases he) fun hn => h hn.1

lemma fits_of_lt (h : n < 2 ^ width) : fits width n = .ok n := if_pos h

def checkedSub (a b : ℕ) : Except Abort ℕ := if b ≤ a then .ok (a - b) else .error .arithmeticError

lemma checkedSub_of_le {a b : ℕ} (h : b ≤ a) : checkedSub a b = .ok (a - b) := if_pos h

structure VecMap (K V : Type) where
  contents : List (K × V)
  nodup_keys : (contents.map Prod.fst).Nodup

namespace VecMap

variable {K V : Type} {m m' : VecMap K V} {key key' : K} {value : V}

def empty : VecMap K V := ⟨[], nodup_nil⟩

def keys (m : VecMap K V) : List K := m.contents.map Prod.fst

lemma eq_of_contents_eq (h : m.contents = m'.contents) : m = m' := by
  cases m
  cases m'
  cases h
  rfl

lemma nodup_push (h : key ∉ m.keys) (value : V) :
    ((m.contents ++ [(key, value)]).map Prod.fst).Nodup := by
  rw [map_append, map_singleton, ← concat_eq_append]
  exact m.nodup_keys.concat h

variable [DecidableEq K]

def tryGet (m : VecMap K V) (key : K) : Option V :=
  (m.contents.find? fun entry => entry.1 = key).map Prod.snd

def contains (m : VecMap K V) (key : K) : Bool := (m.tryGet key).isSome

def get (m : VecMap K V) (key : K) : Except Abort V := orAbort (m.tryGet key) .keyDoesNotExist

/-- The map with the value behind the reference of `get_mut` overwritten. -/
def set (m : VecMap K V) (key : K) (value : V) : VecMap K V where
  contents := m.contents.map fun entry => if entry.1 = key then (entry.1, value) else entry
  nodup_keys := by
    have hkeys : (m.contents.map fun entry => if entry.1 = key then (entry.1, value) else entry).map
        Prod.fst = m.contents.map Prod.fst := by
      rw [map_map]
      apply map_congr_left
      intro entry _
      dsimp only [Function.comp_apply]
      split_ifs <;> rfl
    rw [hkeys]
    exact m.nodup_keys

lemma tryGet_eq_none_iff : m.tryGet key = none ↔ key ∉ m.keys := by
  unfold tryGet keys
  simp only [Option.map_eq_none_iff, List.find?_eq_none, decide_eq_true_eq, mem_map, not_exists, not_and]

lemma contains_eq_false_iff : m.contains key = false ↔ key ∉ m.keys := by
  unfold contains
  rw [← tryGet_eq_none_iff]
  cases m.tryGet key <;> simp

lemma tryGet_eq_some_iff : m.tryGet key = some value ↔ (key, value) ∈ m.contents := by
  unfold tryGet
  rw [Option.map_eq_some_iff]
  constructor
  · rintro ⟨⟨k, v⟩, hfind, rfl⟩
    have hkey := List.find?_some hfind
    rw [decide_eq_true_eq] at hkey
    cases hkey
    exact mem_of_find?_eq_some hfind
  · intro hmem
    have hsome : (m.contents.find? fun entry => entry.1 = key).isSome := by
      rw [List.find?_isSome]
      exact ⟨(key, value), hmem, decide_eq_true rfl⟩
    obtain ⟨entry, hfind⟩ := Option.isSome_iff_exists.mp hsome
    have hkey := List.find?_some hfind
    rw [decide_eq_true_eq] at hkey
    -- both entries have the key, and the keys are distinct
    have heq := inj_on_of_nodup_map m.nodup_keys (mem_of_find?_eq_some hfind) hmem hkey
    exact ⟨entry, hfind, congrArg Prod.snd heq⟩

lemma get_eq_ok : m.get key = .ok value ↔ m.tryGet key = some value := by
  unfold get orAbort
  cases m.tryGet key <;> simp

def insert (m : VecMap K V) (key : K) (value : V) : Except Abort (VecMap K V) :=
  if h : m.contains key = false then
    .ok ⟨m.contents ++ [(key, value)], nodup_push (contains_eq_false_iff.mp h) value⟩
  else .error .keyAlreadyExists

lemma insert_eq_ok : m.insert key value = .ok m' ↔
    m.tryGet key = none ∧ m'.contents = m.contents ++ [(key, value)] := by
  unfold insert
  rw [tryGet_eq_none_iff, ← contains_eq_false_iff]
  split_ifs with h
  · rw [Except.ok.injEq, and_iff_right h]
    exact ⟨fun he => he ▸ rfl, fun he => eq_of_contents_eq he.symm⟩
  · exact iff_of_false (fun he => by cases he) fun hm => h hm.1

lemma exists_insert (h : m.tryGet key = none) (value : V) : ∃ m', m.insert key value = .ok m' :=
  ⟨⟨m.contents ++ [(key, value)], nodup_push (tryGet_eq_none_iff.mp h) value⟩, insert_eq_ok.mpr ⟨h, rfl⟩⟩

lemma tryGet_insert (h : m.insert key value = .ok m') (key' : K) :
    m'.tryGet key' = if key' = key then some value else m.tryGet key' := by
  obtain ⟨hnone, hcontents⟩ := insert_eq_ok.mp h
  ext v
  rw [tryGet_eq_some_iff, hcontents, mem_append, mem_singleton, Prod.mk.injEq, ← tryGet_eq_some_iff]
  split_ifs with hkey
  · subst hkey
    simp [hnone, eq_comm]
  · simp [hkey]

lemma tryGet_set (m : VecMap K V) (key : K) (value : V) (key' : K) :
    (m.set key value).tryGet key' = if key' = key then (m.tryGet key).map fun _ =>
      value else m.tryGet key' := by
  have hfind : ∀ l : List (K × V),
      ((l.map fun entry => if entry.1 = key then (entry.1, value) else entry).find? fun entry =>
        entry.1 = key').map Prod.snd
        = if key' = key then ((l.find? fun entry => entry.1 = key).map Prod.snd).map fun _ => value
          else (l.find? fun entry => entry.1 = key').map Prod.snd := by
    intro l
    induction l with
    | nil => split_ifs <;> rfl
    | cons entry l ih =>
      by_cases hent : entry.1 = key
      · by_cases hkey : key' = key
        · simp [hent, hkey]
        · have hne : key ≠ key' := fun h => hkey h.symm
          simpa [hent, hkey, hne] using ih
      · by_cases hkey' : entry.1 = key'
        · have hne : key' ≠ key := fun h => hent (hkey'.trans h)
          simp [hkey', hne]
        · simpa [hent, hkey'] using ih
  exact hfind m.contents

def erase (m : VecMap K V) (key : K) : VecMap K V where
  contents := m.contents.filter fun entry => entry.1 ≠ key
  nodup_keys := m.nodup_keys.sublist (filter_sublist.map Prod.fst)

/-- Models `dynamic_field::add`, which tables and bags are made of. -/
def addField (m : VecMap K V) (key : K) (value : V) : Except Abort (VecMap K V) :=
  (m.insert key value).mapError fun _ => .fieldAlreadyExists

/-- Models `dynamic_field::borrow`. -/
def borrowField (m : VecMap K V) (key : K) : Except Abort V := orAbort (m.tryGet key) .fieldDoesNotExist

end VecMap

/-- The longest sequence that the serialiser accepts, `MAX_SEQUENCE_LENGTH` of the `bcs` library. -/
def maxSequenceLength : ℕ := 2 ^ 31 - 1

def bcsBool (b : Bool) : Bytes := [if b then 1 else 0]

def bcsU64 (n : UInt64) : Bytes := leBytes 8 n.toNat

def bcsVec {α : Type} (encode : α → Option Bytes) (l : List α) : Option Bytes :=
  if l.length ≤ maxSequenceLength then (l.mapM encode).map fun parts =>
    uleb128 l.length ++ parts.flatten else none

def bcsVecU8 (bytes : Bytes) : Option Bytes := bcsVec (fun b => some [b]) bytes

def bcsVecVecU8 (l : List Bytes) : Option Bytes := bcsVec bcsVecU8 l

def bcsVecU64 (l : List UInt64) : Option Bytes := bcsVec (fun n => some (bcsU64 n)) l

abbrev BCS (α : Type) := Reader Abort α

namespace BCS

/-- Models `vector::pop_back` on the reversed bytes. -/
def popBack : BCS UInt8 := fun bytes =>
  match bytes with
  | [] => .error .vectorError
  | b :: rest => .ok (b, rest)

def peelU8 : BCS UInt8 := fun bytes => do
  check (1 ≤ bytes.length) .outOfRange
  popBack bytes

def peelBool : BCS Bool := do
  let value ← peelU8
  if value = 0 then pure false else if value = 1 then pure true else throw .notBool

def peelU64 : BCS UInt64 := fun bytes => do
  check (8 ≤ bytes.length) .outOfRange
  let (value, rest) ← readLe popBack 8 0 0 bytes
  pure (UInt64.ofNat value, rest)

/-- At most five bytes of a LEB128 number. -/
def peelVecLength : BCS ℕ := readUleb128 popBack .lenOutOfRange 5 0 0

def peelVec {α : Type} (peel : BCS α) : BCS (List α) := do
  let len ← peelVecLength
  readMany peel len

def peelVecU8 : BCS Bytes := peelVec peelU8

def peelVecVecU8 : BCS (List Bytes) := peelVec peelVecU8

def peelVecU64 : BCS (List UInt64) := peelVec peelU64

/-- A reader of all the given bytes; the caller asserts that none are left over. -/
def readAll {α : Type} (p : BCS α) (bytes : Bytes) (abort : Abort) : Except Abort α := do
  let (a, rest) ← p bytes
  check rest.isEmpty abort
  pure a

variable {α : Type} {bytes : Bytes}

lemma readAll_of_reads {p : BCS α} {a : α} (h : Reads p bytes a) (abort : Abort) :
    readAll p bytes abort = .ok a := by
  have hp := h []
  rw [append_nil] at hp
  unfold readAll
  rw [hp]
  rfl

lemma reads_popBack (b : UInt8) : Reads popBack [b] b := fun _ => rfl

lemma reads_peelU8 (b : UInt8) : Reads peelU8 [b] b := by
  intro rest
  have hlen : 1 ≤ ([b] ++ rest).length := by simp
  unfold peelU8
  rfl

lemma reads_peelBool (b : Bool) : Reads peelBool (bcsBool b) b := by
  apply (reads_peelU8 _).bind_nil
  cases b
  · exact Reads.pure false
  · exact Reads.pure true

lemma reads_peelU64 (n : UInt64) : Reads peelU64 (bcsU64 n) n := by
  intro rest
  have hlen : 8 ≤ (bcsU64 n ++ rest).length := by simp [bcsU64]
  have hread := reads_readLe reads_popBack 8 0 0 n.toNat rest
  have hval : 0 + (n.toNat % 256 ^ 8) <<< 0 = n.toNat := by
    have := n.toNat_lt
    rw [Nat.shiftLeft_zero, zero_add, Nat.mod_eq_of_lt]
    omega
  unfold peelU64
  unfold bcsU64
  rw [hread, ok_bind]
  simp

lemma reads_peelVecLength (h : n ≤ maxSequenceLength) : Reads peelVecLength (uleb128 n) n := by
  have hfuel : n < 128 ^ (4 + 1) := by
    unfold maxSequenceLength at h
    omega
  have hread := reads_readUleb128 .lenOutOfRange reads_popBack hfuel (show 0 < 2 ^ 0 by norm_num)
  rwa [Nat.shiftLeft_zero, zero_add] at hread

lemma reads_peelVec {peel : BCS α} {encode : α → Option Bytes} {l : List α}
    (hpeel : ∀ a ∈ l, ∀ part, encode a = some part → Reads peel part a)
    (h : bcsVec encode l = some bytes) :
    Reads (peelVec peel) bytes l := by
  unfold bcsVec at h
  split_ifs at h with hlen
  obtain ⟨parts, hpts, rfl⟩ := Option.map_eq_some_iff.mp h
  apply (reads_peelVecLength hlen).bind
  apply Reads.readMany
  clear h hlen
  induction l generalizing parts with
  | nil =>
    cases hpts
    exact .nil
  | cons a l ih =>
    rw [mapM_cons] at hpts
    obtain ⟨part, hpart, hpts⟩ := Option.bind_eq_some_iff.mp hpts
    obtain ⟨rest, hrest, hpts⟩ := Option.bind_eq_some_iff.mp hpts
    cases hpts
    exact .cons (hpeel a mem_cons_self part hpart)
      (ih (fun b hb => hpeel b (mem_cons_of_mem a hb)) rest hrest)

lemma reads_peelVecU8 {value : Bytes} (h : bcsVecU8 value = some bytes) :
    Reads peelVecU8 bytes value := by
  apply reads_peelVec _ h
  intro b _ part hpart
  cases hpart
  exact reads_peelU8 b

lemma reads_peelVecVecU8 {value : List Bytes} (h : bcsVecVecU8 value = some bytes) :
    Reads peelVecVecU8 bytes value :=
  reads_peelVec (fun _ _ _ hpart => reads_peelVecU8 hpart) h

lemma reads_peelVecU64 {value : List UInt64} (h : bcsVecU64 value = some bytes) :
    Reads peelVecU64 bytes value := by
  apply reads_peelVec _ h
  intro n _ part hpart
  cases hpart
  exact reads_peelU64 n

end BCS

end SuiProofs.Bridge

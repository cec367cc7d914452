import SuiProofs.Library.Codec

/-! Models the ULEB128 functions of `file_format_common.rs`. -/

namespace SuiProofs.Move.Uleb128

open List Library

inductive Error where
  | binarySize (len : ℕ)
  | invalidUleb128

def push (binary : List UInt8) (item : UInt8) : Except Error (List UInt8) :=
  if binary.length + 1 < 2 ^ 64 then .ok (binary ++ [item]) else .error (.binarySize binary.length)

def writeU64AsUleb128 (binary : List UInt8) (val : ℕ) : Except Error (List UInt8) :=
  let cur := val &&& 0x7f
  if _h : cur ≠ val then do
    let binary ← push binary (UInt8.ofNat (cur ||| 0x80))
    writeU64AsUleb128 binary (val >>> 7)
  else push binary (UInt8.ofNat cur)
termination_by val
decreasing_by
  have hcur : val % 128 ≠ val := and_0x7f val ▸ _h
  rw [Nat.shiftRight_eq_div_pow]
  omega

/-- The loop, on the bytes that the cursor has left. -/
def readUleb128Loop (value shift : ℕ) : List UInt8 → Except Error (ℕ × List UInt8)
  -- `read_u8` fails, which ends the loop
  | [] => .error .invalidUleb128
  | byte :: cursor =>
    let cur := byte.toNat &&& 0x7f
    if (cur <<< shift % 2 ^ 64) >>> shift ≠ cur then .error .invalidUleb128
    else
      let value := value ||| (cur <<< shift % 2 ^ 64)
      if byte.toNat &&& 0x80 = 0 then
        if 0 < shift ∧ cur = 0 then .error .invalidUleb128 else .ok (value, cursor)
      else if 64 < shift + 7 then .error .invalidUleb128
      else readUleb128Loop value (shift + 7) cursor

def readUleb128AsU64 (cursor : List UInt8) : Except Error (ℕ × List UInt8) := readUleb128Loop 0 0 cursor

lemma writeU64AsUleb128_eq {count val : ℕ} {binary : List UInt8} (hval : val < 128 ^ (count + 1))
    (hlen : binary.length + count + 1 < 2 ^ 64) :
    writeU64AsUleb128 binary val = .ok (binary ++ uleb128 val) := by
  induction count generalizing binary val with
  | zero =>
    rw [zero_add, pow_one] at hval
    rw [writeU64AsUleb128, uleb128, if_pos hval]
    simp only [and_0x7f, Nat.mod_eq_of_lt hval, ne_eq, not_true, dite_false]
    exact if_pos hlen
  | succ count ih =>
    rw [writeU64AsUleb128, uleb128]
    simp only [and_0x7f]
    split_ifs with hcur hlt hlt
    · omega
    · have hor : val % 128 ||| 0x80 = val % 128 + 128 :=
        @or_shiftLeft _ 7 (Nat.mod_lt val (by norm_num)) 1
      have hshift : val >>> 7 = val / 128 := Nat.shiftRight_eq_div_pow val 7
      have hdiv : val / 128 < 128 ^ (count + 1) := by
        rw [Nat.div_lt_iff_lt_mul (by norm_num), ← pow_succ]
        exact hval
      rw [push, if_pos (by omega), hor, hshift]
      change writeU64AsUleb128 _ _ = _
      rw [ih hdiv (by rw [length_append, length_singleton]; omega), append_assoc, singleton_append]
    · rw [push, if_pos (by omega), Nat.mod_eq_of_lt hlt]
    · omega

section

variable {n value shift bits : ℕ} {cursor rest : List UInt8} (hbits : shift + bits = 64)
  (hvalue : value < 2 ^ shift)
include hbits hvalue

/-- One turn of the loop, in arithmetic: the shift back finds the groups that do not fit the
`bits` that are left. -/
lemma readUleb128Loop_cons (byte : UInt8) : readUleb128Loop value shift (byte :: cursor) =
    if 2 ^ bits ≤ byte.toNat % 128 ∨ 0 < shift ∧ byte.toNat = 0 ∨ 128 ≤ byte.toNat ∧
      bits < 7 then .error .invalidUleb128
    else if byte.toNat < 128 then .ok (value + (byte.toNat % 128) <<< shift, cursor)
    else readUleb128Loop (value + (byte.toNat % 128) <<< shift) (shift + 7) cursor := by
  have hmod : (byte.toNat % 128) <<< shift % 2 ^ 64 = (byte.toNat % 128 % 2 ^ bits) <<< shift := by
    rw [Nat.shiftLeft_eq, Nat.shiftLeft_eq, ← hbits, pow_add, Nat.mul_comm (2 ^ shift),
      Nat.mul_mod_mul_right]
  simp only [readUleb128Loop, and_0x7f, and_0x80_eq_zero_iff byte.toNat_lt, hmod,
    Nat.shiftLeft_shiftRight, or_shiftLeft hvalue]
  rcases lt_or_ge (byte.toNat % 128) (2 ^ bits) with hfit | hfit
  · rw [Nat.mod_eq_of_lt hfit, if_neg (not_not.mpr rfl)]
    split_ifs <;> first | rfl | omega
  · rw [if_pos ((Nat.mod_lt _ (Nat.two_pow_pos _)).trans_le hfit).ne, if_pos (.inl hfit)]

lemma readUleb128Loop_uleb128 (hn : n < 2 ^ bits) (hpos : 0 < shift → 0 < n) :
    readUleb128Loop value shift (uleb128 n ++ rest) = .ok (value + n <<< shift, rest) := by
  induction n using Nat.strong_induction_on generalizing value shift bits with
  | _ n ih =>
    rw [uleb128]
    split_ifs with hlast
    · have hbyte := UInt8.toNat_ofNat_of_lt' (show n < 256 by omega)
      rw [singleton_append, readUleb128Loop_cons hbits hvalue, hbyte, Nat.mod_eq_of_lt hlast,
        if_neg (by omega), if_pos hlast]
    · have hbyte := UInt8.toNat_ofNat_of_lt' (show n % 128 + 128 < 256 by omega)
      have hlow : (n % 128 + 128) % 128 = n % 128 := by omega
      have hmore : 7 < bits := (Nat.pow_lt_pow_iff_right one_lt_two).mp (show 2 ^ 7 < 2 ^ bits by omega)
      have hdiv : n / 128 < 2 ^ (bits - 7) := by
        rw [← Nat.sub_add_cancel hmore.le, pow_add] at hn
        omega
      rw [cons_append, readUleb128Loop_cons hbits hvalue, hbyte, hlow, if_neg (by omega),
        if_neg (by omega),
        ih (n / 128) (by omega) (by omega) (add_digit_lt hvalue n) hdiv (by omega), add_digits]

/-- What the loop accepts begins with the encoding of a number that fits the remaining bits. -/
lemma uleb128_prefix_of_readUleb128Loop {result : ℕ × List UInt8}
    (h : readUleb128Loop value shift cursor = .ok result) :
    ∃ n < 2 ^ bits, (0 < shift → 0 < n) ∧ uleb128 n <+: cursor := by
  induction cursor generalizing value shift bits with
  | nil => cases h
  | cons byte cursor ih =>
    have hbyte : byte.toNat < 256 := byte.toNat_lt
    rw [readUleb128Loop_cons hbits hvalue] at h
    split_ifs at h with hfail hlast
    · refine ⟨byte.toNat, by omega, by omega, ?_⟩
      rw [uleb128, if_pos hlast, UInt8.ofNat_toNat]
      exact prefix_append [byte] cursor
    · obtain ⟨n, hn, hpos, hbegins⟩ :=
        ih (show shift + 7 + (bits - 7) = 64 by omega) (add_digit_lt hvalue _) h
      have hlt : byte.toNat % 128 + 128 * n < 2 ^ bits := by
        rw [← Nat.sub_add_cancel (show 7 ≤ bits by omega), pow_add]
        omega
      refine ⟨byte.toNat % 128 + 128 * n, hlt, by omega, ?_⟩
      rw [uleb128, if_neg (by omega), show (byte.toNat % 128 + 128 * n) / 128 = n by omega,
        cons_prefix_cons, ← UInt8.toNat_inj, toNat_ofNat_uint8]
      exact ⟨by omega, hbegins⟩

end

/-- Reading inverts writing, whatever follows the written bytes, and accepts nothing else. -/
theorem readUleb128AsU64_exact :
    (∀ val : UInt64, ∃ written, writeU64AsUleb128 [] val.toNat = .ok written ∧
      ∀ rest, readUleb128AsU64 (written ++ rest) = .ok (val.toNat, rest)) ∧
    ∀ cursor, (∃ result, readUleb128AsU64 cursor = .ok result) ↔
      ∃ (val : UInt64) (written : List UInt8), writeU64AsUleb128 [] val.toNat = .ok written ∧
        written <+: cursor := by
  have hwrite : ∀ val : UInt64, writeU64AsUleb128 [] val.toNat = .ok (uleb128 val.toNat) := fun val =>
    @writeU64AsUleb128_eq 9 _ _ (val.toNat_lt.trans (by norm_num)) (by norm_num)
  have hread : ∀ (val : UInt64) rest, readUleb128AsU64 (uleb128 val.toNat ++ rest) =
      .ok (val.toNat, rest) := by
    intro val rest
    rw [readUleb128AsU64, readUleb128Loop_uleb128 (zero_add 64) Nat.one_pos val.toNat_lt (by simp)]
    simp
  refine ⟨fun val => ⟨_, hwrite val, hread val⟩, fun cursor => ⟨?_, ?_⟩⟩
  · rintro ⟨result, hok⟩
    obtain ⟨n, hn, -, hbegins⟩ := uleb128_prefix_of_readUleb128Loop (zero_add 64) Nat.one_pos hok
    refine ⟨UInt64.ofNat n, _, hwrite _, ?_⟩
    rwa [UInt64.toNat_ofNat_of_lt' hn]
  · rintro ⟨val, written, hok, rest, rfl⟩
    rw [hwrite] at hok
    cases hok
    exact ⟨_, hread val rest⟩

end SuiProofs.Move.Uleb128

import Mathlib

namespace SuiProofs.Library

open List

abbrev Reader (ε α : Type) := StateT (List UInt8) (Except ε) α

section Reads

variable {ε α β : Type}

def Reads (p : Reader ε α) (bytes : List UInt8) (a : α) : Prop :=
  ∀ rest, p (bytes ++ rest) = .ok (a, rest)

def readMany (p : Reader ε α) : ℕ → Reader ε (List α)
  | 0 => pure []
  | count + 1 => do
    let a ← p
    let as ← readMany p count
    pure (a :: as)

namespace Reads

lemma pure (a : α) : Reads (ε := ε) (Pure.pure a) [] a := fun _ => rfl

lemma lift {x : Except ε α} {a : α} (h : x = .ok a) : Reads (StateT.lift x) [] a := by
  intro rest
  rw [h]
  rfl

lemma bind {p : Reader ε α} {f : α → Reader ε β} {bytes bytes' : List UInt8} {a : α} {b : β}
    (hp : Reads p bytes a) (hf : Reads (f a) bytes' b) : Reads (p >>= f) (bytes ++ bytes') b := by
  intro rest
  have hrun : (p >>= f) (bytes ++ bytes' ++ rest) =
    (p (bytes ++ bytes' ++ rest) >>= fun x => f x.1 x.2) := rfl
  rw [hrun, append_assoc, hp]
  exact hf rest

lemma bind_nil {p : Reader ε α} {f : α → Reader ε β} {bytes : List UInt8} {a : α} {b : β}
    (hp : Reads p bytes a) (hf : Reads (f a) [] b) : Reads (p >>= f) bytes b := by
  have h := hp.bind hf
  rwa [append_nil] at h

lemma readMany {p : Reader ε α} {parts : List (List UInt8)} {as : List α}
    (h : List.Forall₂ (Reads p) parts as) :
    Reads (Library.readMany p as.length) parts.flatten as := by
  induction h with
  | nil => exact Reads.pure []
  | @cons part a parts as hpart _ ih =>
    apply hpart.bind
    apply ih.bind_nil
    exact Reads.pure (a :: as)

lemma unique {p : Reader ε α} {bytes : List UInt8} {a a' : α} (h : Reads p bytes a)
    (h' : Reads p bytes a') : a = a' := by
  have heq := (h []).symm.trans (h' [])
  cases heq
  rfl

end Reads

end Reads

lemma toNat_ofNat_uint8 (n : ℕ) : (UInt8.ofNat n).toNat = n % 256 := UInt8.toNat_ofNat'

def leBytes : ℕ → ℕ → List UInt8
  | 0, _ => []
  | width + 1, n => UInt8.ofNat n :: leBytes width (n / 256)

def beBytes : ℕ → ℕ → List UInt8
  | 0, _ => []
  | width + 1, n => UInt8.ofNat (n / 256 ^ width) :: beBytes width n

@[simp] lemma length_leBytes (width n : ℕ) : (leBytes width n).length = width := by
  induction width generalizing n with
  | zero => rfl
  | succ width ih => rw [leBytes, length_cons, ih]

lemma leBytes_succ' (width n : ℕ) :
    leBytes (width + 1) n = leBytes width n ++ [UInt8.ofNat (n / 256 ^ width)] := by
  induction width generalizing n with
  | zero => simp [leBytes]
  | succ width ih =>
    rw [leBytes, ih, leBytes, cons_append, Nat.div_div_eq_div_mul, pow_succ']

lemma reverse_leBytes (width n : ℕ) : (leBytes width n).reverse = beBytes width n := by
  induction width with
  | zero => rfl
  | succ width ih => rw [leBytes_succ', reverse_append, ih, beBytes, reverse_singleton, singleton_append]

@[simp] lemma length_beBytes (width n : ℕ) : (beBytes width n).length = width := by
  rw [← reverse_leBytes, length_reverse, length_leBytes]

section Readers

variable {ε : Type} {next : Reader ε UInt8}

def readLe (next : Reader ε UInt8) : ℕ → ℕ → ℕ → Reader ε ℕ
  | 0, _, value => pure value
  | width + 1, shift, value => do
    let byte ← next
    readLe next width (shift + 8) (value + byte.toNat <<< shift)

def readBe (next : Reader ε UInt8) : ℕ → ℕ → Reader ε ℕ
  | 0, value => pure value
  | width + 1, value => do
    let byte ← next
    readBe next width (value + byte.toNat <<< (8 * width))

lemma reads_readLe (hnext : ∀ b, Reads next [b] b) (width shift value n : ℕ) :
    Reads (readLe next width shift value) (leBytes width n) (value + (n % 256 ^ width) <<< shift) := by
  induction width generalizing shift value n with
  | zero =>
    rw [pow_zero, Nat.mod_one, Nat.zero_shiftLeft, Nat.add_zero]
    exact Reads.pure value
  | succ width ih =>
    have hstep :=
      (hnext (UInt8.ofNat n)).bind (f := fun byte =>
        readLe next width (shift + 8) (value + byte.toNat <<< shift))
      (ih (shift + 8) _ (n / 256))
    have hmod : n % 256 ^ (width + 1) = n % 256 + 256 * (n / 256 % 256 ^ width) := by
      rw [pow_succ', Nat.mod_mul]
    have hval : value + (UInt8.ofNat n).toNat <<< shift + (n / 256 % 256 ^ width) <<< (shift + 8)
        = value + (n % 256 ^ (width + 1)) <<< shift := by
      rw [toNat_ofNat_uint8, hmod]
      simp only [Nat.shiftLeft_eq, pow_add]
      ring
    rw [hval] at hstep
    exact hstep

lemma reads_readBe (hnext : ∀ b, Reads next [b] b) (width value n : ℕ) :
    Reads (readBe next width value) (beBytes width n) (value + n % 256 ^ width) := by
  induction width generalizing value with
  | zero =>
    rw [pow_zero, Nat.mod_one, Nat.add_zero]
    exact Reads.pure value
  | succ width ih =>
    have hstep := (hnext (UInt8.ofNat (n / 256 ^ width))).bind
      (f := fun byte => readBe next width (value + byte.toNat <<< (8 * width))) (ih _)
    have hval : value + (UInt8.ofNat (n / 256 ^ width)).toNat <<< (8 * width) + n % 256 ^ width
        = value + n % 256 ^ (width + 1) := by
      rw [toNat_ofNat_uint8, pow_succ, Nat.mod_mul, Nat.shiftLeft_eq, pow_mul]
      norm_num
      ring
    rw [hval] at hstep
    exact hstep

/-- Seven bits a byte, the lowest first, with the highest bit set on every byte but the last. -/
def uleb128 (n : ℕ) : List UInt8 :=
  if n < 128 then [UInt8.ofNat n] else UInt8.ofNat (n % 128 + 128) :: uleb128 (n / 128)
termination_by n
decreasing_by omega

lemma uleb128_of_lt {n : ℕ} (h : n < 128) : uleb128 n = [UInt8.ofNat n] := by
  rw [uleb128, if_pos h]

/-- Reads at most `fuel` bytes of a LEB128 number on top of `total`. -/
def readUleb128 (next : Reader ε UInt8) (tooLong : ε) : ℕ → ℕ → ℕ → Reader ε ℕ
  | 0, _, _ => throw tooLong
  | fuel + 1, total, shift => do
    let byte ← next
    let total := total ||| ((byte.toNat &&& 0x7f) <<< shift)
    if byte.toNat &&& 0x80 = 0 then pure total else readUleb128 next tooLong fuel total (shift + 7)

lemma and_0x7f (n : ℕ) : n &&& 0x7f = n % 128 := Nat.and_two_pow_sub_one_eq_mod n 7

lemma and_0x80_eq_zero_iff {n : ℕ} (h : n < 256) : n &&& 0x80 = 0 ↔ n < 128 := by
  have hall : ∀ i : Fin 256, i.val &&& 0x80 = 0 ↔ i.val < 128 := by decide +kernel
  exact hall ⟨n, h⟩

lemma or_shiftLeft {total shift : ℕ} (h : total < 2 ^ shift) (n : ℕ) :
    total ||| (n <<< shift) = total + n <<< shift := by
  rw [Nat.or_comm, Nat.shiftLeft_eq, Nat.mul_comm, ← Nat.two_pow_add_eq_or_of_lt h, Nat.add_comm]

lemma add_digit_lt {total shift : ℕ} (h : total < 2 ^ shift) (n : ℕ) :
    total + (n % 128) <<< shift < 2 ^ (shift + 7) := by
  have hdigit : n % 128 < 2 ^ 7 := Nat.mod_lt n (by norm_num)
  rw [Nat.shiftLeft_eq, pow_add]
  nlinarith

lemma add_digits (total shift n : ℕ) :
    total + (n % 128) <<< shift + (n / 128) <<< (shift + 7) = total + n <<< shift := by
  conv_rhs => rw [← Nat.mod_add_div n 128]
  simp only [Nat.shiftLeft_eq, pow_add]
  ring

lemma readUleb128_last (tooLong : ε) (hnext : ∀ b, Reads next [b] b) {fuel total shift n : ℕ}
    (hn : n < 128) (htot : total < 2 ^ shift) :
    Reads (readUleb128 next tooLong (fuel + 1) total shift) [UInt8.ofNat n] (total + n <<< shift) := by
  have hbyte := UInt8.toNat_ofNat_of_lt' (show n < 256 by omega)
  apply (hnext _).bind_nil
  simp only [hbyte]
  rw [if_pos ((and_0x80_eq_zero_iff (by omega)).mpr hn), and_0x7f, Nat.mod_eq_of_lt hn,
    or_shiftLeft htot]
  exact Reads.pure _

lemma reads_readUleb128 (tooLong : ε) (hnext : ∀ b, Reads next [b] b) {fuel total shift n : ℕ}
    (hn : n < 128 ^ (fuel + 1)) (htot : total < 2 ^ shift) :
    Reads (readUleb128 next tooLong (fuel + 1) total shift) (uleb128 n) (total + n <<< shift) := by
  induction fuel generalizing total shift n with
  | zero =>
    rw [zero_add, pow_one] at hn
    rw [uleb128, if_pos hn]
    exact readUleb128_last tooLong hnext hn htot
  | succ fuel ih =>
    rw [uleb128]
    split_ifs with hlast
    · exact readUleb128_last tooLong hnext hlast htot
    · have hbyte := UInt8.toNat_ofNat_of_lt' (show n % 128 + 128 < 256 by omega)
      have hlow : (n % 128 + 128) % 128 = n % 128 := by omega
      have hhigh : n / 128 < 128 ^ (fuel + 1) := by
        rw [Nat.div_lt_iff_lt_mul (by norm_num), ← pow_succ]
        exact hn
      refine (hnext _).bind ?_
      simp only [hbyte]
      rw [if_neg fun h => absurd ((and_0x80_eq_zero_iff (by omega)).mp h) (by omega), and_0x7f,
        hlow, or_shiftLeft htot, ← add_digits total shift n]
      exact ih hhigh (add_digit_lt htot n)

end Readers

end SuiProofs.Library

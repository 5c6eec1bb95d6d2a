import Mathlib.Data.List.Iterate
import Outpace.Data.Crc32

/-!
# What an error does to the checksum

The checksums of data that differ in one byte differ by the response of the register to the two
bytes' difference, with zeros behind it (`mpegCrc32_xor_byte`). The response is linear in the
difference, so the responses to the eight bits of a byte give that to every byte (`combine_bits`).
`crcBitNat` is the division on naturals, on which the kernel computes.
-/

namespace Outpace

/-- The register after a number of zero bytes. -/
def crcZeros (m : Nat) (x : UInt32) : UInt32 := (List.replicate m 0).foldl crcByte x

theorem crcZeros_succ (m : Nat) (x : UInt32) : crcZeros (m + 1) x = crcByte (crcZeros m x) 0 := by
  rw [crcZeros, List.replicate_succ', List.foldl_append]
  rfl

theorem crcZeros_one (x : UInt32) : crcZeros 1 x = crcByte x 0 := rfl

theorem crcZeros_xor (m : Nat) (x y : UInt32) :
    crcZeros m (x ^^^ y) = crcZeros m x ^^^ crcZeros m y := by
  induction m with
  | zero => rfl
  | succ m ih => rw [crcZeros_succ, crcZeros_succ, crcZeros_succ, ih, ← crcByte_xor, UInt8.xor_zero]

theorem crcZeros_add (m n : Nat) (x : UInt32) : crcZeros (m + n) x = crcZeros n (crcZeros m x) := by
  rw [crcZeros, ← List.replicate_append_replicate, List.foldl_append]
  rfl

/-- Two registers that take in the same data keep their difference. -/
theorem foldl_crcByte_same (data : List UInt8) (x y : UInt32) :
    data.foldl crcByte x ^^^ data.foldl crcByte y = crcZeros data.length (x ^^^ y) := by
  have hsame : List.zipWith (· ^^^ ·) data data = List.replicate data.length 0 := by
    induction data with
    | nil => rfl
    | cons b data ih => rw [List.zipWith_cons_cons, ih, UInt8.xor_self]; rfl
  rw [← foldl_crcByte_xor rfl, hsame]
  rfl

theorem mpegCrc32_xor_byte (before after : List UInt8) (a b : UInt8) :
    mpegCrc32 (before ++ a :: after) ^^^ mpegCrc32 (before ++ b :: after) =
      crcZeros after.length (crcByte 0 (a ^^^ b)) := by
  rw [mpegCrc32, mpegCrc32, List.foldl_append, List.foldl_append, List.foldl_cons, List.foldl_cons,
    foldl_crcByte_same, ← crcByte_xor, UInt32.xor_self]

theorem toUInt32_shiftLeft (d : UInt8) : d.toUInt32 <<< 24 = .ofNat (d.toNat * 2 ^ 24) := by
  rw [← UInt32.toNat_inj, UInt32.toNat_shiftLeft, UInt8.toNat_toUInt32, UInt32.toNat_ofNat']
  show d.toNat <<< 24 % 2 ^ 32 = _
  rw [Nat.shiftLeft_eq]

/-- A byte may as well be in the register before a zero byte. -/
theorem crcByte_eq (x : UInt32) (d : UInt8) :
    crcByte x d = crcByte (x ^^^ .ofNat (d.toNat * 2 ^ 24)) 0 := by
  have hzero : (0 : UInt8).toUInt32 <<< 24 = (0 : UInt32) := rfl
  rw [crcByte, crcByte, toUInt32_shiftLeft, hzero, UInt32.xor_zero]

/-! ### The bits of a byte -/

theorem xor_mod_two_double (d : Nat) : (d % 2) ^^^ (2 * (d / 2)) = d := by
  refine Nat.eq_of_testBit_eq fun i => ?_
  rw [Nat.testBit_xor]
  cases i with
  | zero => simp [Nat.testBit_zero]
  | succ i =>
    have hlow : d % 2 / 2 = 0 := by omega
    rw [Nat.testBit_succ, Nat.testBit_succ, Nat.testBit_succ, hlow,
      Nat.mul_div_cancel_left _ (by decide), Nat.zero_testBit, Bool.false_xor]

/-- The sum of the entries that belong to the bits of a number. -/
def combine : List Nat → Nat → Nat
  | [], _ => 0
  | b :: bs, d => bif (d % 2).beq 1 then b ^^^ combine bs (d / 2) else combine bs (d / 2)

/-- A linear function is given by its values on the bits from `s` on. -/
theorem combine_bits {f : UInt32 → UInt32} (hf : ∀ x y, f (x ^^^ y) = f x ^^^ f y) {t s d : Nat}
    (hd : d < 2 ^ t) (hs : s + t ≤ 32) :
    (f (.ofNat (d * 2 ^ s))).toNat =
      combine ((List.range' s t).map fun j => (f (.ofNat (2 ^ j))).toNat) d := by
  have hzero : f 0 = 0 := by
    have := hf 0 0
    rwa [UInt32.xor_self, UInt32.xor_self] at this
  induction t generalizing s d with
  | zero =>
    obtain rfl : d = 0 := by omega
    rw [Nat.zero_mul]
    exact congrArg UInt32.toNat hzero
  | succ t ih =>
    have hhalf := ih (d := d / 2) (s := s + 1) (by omega) (by omega)
    have hsplit : UInt32.ofNat (d * 2 ^ s) =
        UInt32.ofNat (d % 2 * 2 ^ s) ^^^ UInt32.ofNat (d / 2 * 2 ^ (s + 1)) := by
      have hdouble : d / 2 * 2 ^ (s + 1) = (2 * (d / 2)) <<< s := by
        rw [Nat.shiftLeft_eq, Nat.pow_succ', ← Nat.mul_assoc, Nat.mul_comm 2]
      rw [← UInt32.toNat_inj, UInt32.toNat_xor, UInt32.toNat_ofNat', UInt32.toNat_ofNat',
        UInt32.toNat_ofNat', ← Nat.xor_mod_two_pow, hdouble, ← Nat.shiftLeft_eq, ← Nat.shiftLeft_eq,
        ← Nat.shiftLeft_xor_distrib, xor_mod_two_double]
    rw [hsplit, hf, UInt32.toNat_xor, hhalf, List.range'_succ, List.map_cons, combine]
    rcases Nat.mod_two_eq_zero_or_one d with h | h
    · rw [h, Nat.zero_mul]
      show (f 0).toNat ^^^ _ = _
      rw [hzero]
      exact Nat.zero_xor _
    · rw [h, Nat.one_mul]
      rfl

/-! ### Evaluation -/

def crcBitNat (crc : Nat) : Nat :=
  bif Nat.ble 0x80000000 crc then (2 * crc % 2 ^ 32) ^^^ 0x04C11DB7 else 2 * crc

/-- A zero byte. -/
def crcZeroNat (crc : Nat) : Nat := Nat.repeat crcBitNat 8 crc

theorem toNat_crcBit (x : UInt32) : (crcBit x).toNat = crcBitNat x.toNat := by
  have hlt := x.toNat_lt
  have hshift : (x <<< 1).toNat = 2 * x.toNat % 2 ^ 32 := by
    rw [UInt32.toNat_shiftLeft, Nat.mul_comm]
    exact congrArg (· % 2 ^ 32) (Nat.shiftLeft_eq _ _)
  unfold crcBit crcBitNat
  by_cases h : x.toNat < 2 ^ 31
  · rw [if_neg (not_not.mpr ((and_top_eq_zero_iff x).mpr h)), hshift,
      Nat.mod_eq_of_lt (by omega), show Nat.ble 0x80000000 x.toNat = false from
        Bool.eq_false_iff.mpr fun hle => absurd (Nat.le_of_ble_eq_true hle) (by omega)]
    rfl
  · rw [if_pos ((and_top_eq_zero_iff x).not.mpr h), UInt32.toNat_xor, hshift,
      show Nat.ble 0x80000000 x.toNat = true from Nat.ble_eq.mpr (by omega)]
    rfl

theorem toNat_crcByte_zero (x : UInt32) : (crcByte x 0).toNat = crcZeroNat x.toNat := by
  have hrepeat (n : Nat) : (Nat.repeat crcBit n x).toNat = Nat.repeat crcBitNat n x.toNat := by
    induction n with
    | zero => rfl
    | succ n ih =>
      show (crcBit _).toNat = crcBitNat _
      rw [toNat_crcBit, ih]
  rw [crcByte, show x ^^^ ((0 : UInt8).toUInt32 <<< 24) = x from UInt32.xor_zero]
  exact hrepeat 8

theorem toNat_crcZeros (m : Nat) (x : UInt32) :
    (crcZeros m x).toNat = crcZeroNat^[m] x.toNat := by
  induction m with
  | zero => rfl
  | succ m ih => rw [crcZeros_succ, toNat_crcByte_zero, ih, Function.iterate_succ_apply']

end Outpace

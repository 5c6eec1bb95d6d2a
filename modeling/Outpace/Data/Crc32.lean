import Mathlib.Data.List.Basic
import Mathlib.Data.Nat.Bitwise
import Outpace.Data.BigEndian

/-!
# CRC-32/MPEG-2

The checksum with polynomial `0x04C11DB7`, most significant bit first, from all ones and without a
final exclusive or.

A register that is fed with its own leading byte is shifted by it (`crcByte_top`), so the checksum
of data with its checksum behind it is zero. A step on the register can be undone, since the
polynomial is odd (`crcBit_injective`), so the checksum tells data apart that differ in one byte.
-/

namespace Outpace

/-- One bit of the division. -/
def crcBit (crc : UInt32) : UInt32 :=
  if crc &&& 0x80000000 ≠ 0 then (crc <<< 1) ^^^ 0x04C11DB7 else crc <<< 1

def crcByte (crc : UInt32) (byte : UInt8) : UInt32 :=
  Nat.repeat crcBit 8 (crc ^^^ (byte.toUInt32 <<< 24))

def mpegCrc32 (data : List UInt8) : UInt32 := data.foldl crcByte 0xFFFFFFFF

/-! ### The data with its checksum -/

theorem and_top_eq_zero_iff (x : UInt32) : x &&& 0x80000000 = 0 ↔ x.toNat < 2 ^ 31 := by
  have hlt := x.toNat_lt
  rw [← UInt32.toNat_inj, UInt32.toNat_and]
  show x.toNat &&& 2 ^ 31 = 0 ↔ _
  rw [Nat.and_two_pow, Nat.mul_eq_zero, or_iff_left (by decide), Bool.toNat_eq_zero,
    Nat.testBit_eq_decide_div_mod_eq, decide_eq_false_iff_not]
  omega

/-- As long as no bit is shifted out, the division only shifts. -/
theorem repeat_crcBit {x : UInt32} {n : Nat} (h : x.toNat * 2 ^ n < 2 ^ 32) :
    (Nat.repeat crcBit n x).toNat = x.toNat * 2 ^ n := by
  induction n with
  | zero => exact (Nat.mul_one _).symm
  | succ n ih =>
    rw [Nat.pow_succ, ← Nat.mul_assoc] at h ⊢
    have hbefore := ih (by omega)
    have hlow : Nat.repeat crcBit n x &&& 0x80000000 = 0 :=
      (and_top_eq_zero_iff _).mpr (by omega)
    show (crcBit (Nat.repeat crcBit n x)).toNat = _
    rw [crcBit, if_neg (not_not.mpr hlow), UInt32.toNat_shiftLeft, hbefore]
    show (x.toNat * 2 ^ n) <<< 1 % 2 ^ 32 = _
    rw [Nat.shiftLeft_eq, Nat.pow_one, Nat.mod_eq_of_lt h]

/-- What the leading byte of a register leaves of it. -/
theorem xor_top (x : UInt32) :
    (x ^^^ ((UInt8.ofNat (x.toNat / 2 ^ 24)).toUInt32 <<< 24)).toNat = x.toNat % 2 ^ 24 := by
  have hlt := x.toNat_lt
  have hbyte : ((UInt8.ofNat (x.toNat / 2 ^ 24)).toUInt32 <<< 24).toNat =
      (x.toNat >>> 24) <<< 24 := by
    rw [UInt32.toNat_shiftLeft, UInt8.toNat_toUInt32, UInt8.toNat_ofNat', Nat.shiftRight_eq_div_pow]
    show (x.toNat / 2 ^ 24 % 2 ^ 8) <<< 24 % 2 ^ 32 = _
    rw [Nat.shiftLeft_eq, Nat.shiftLeft_eq]
    omega
  rw [UInt32.toNat_xor, hbyte]
  refine Nat.eq_of_testBit_eq fun i => ?_
  rw [Nat.testBit_xor, Nat.testBit_shiftLeft, Nat.testBit_shiftRight, Nat.testBit_mod_two_pow]
  by_cases hi : i < 24
  · simp [hi, Nat.not_le.mpr hi]
  · simp [hi, Nat.not_lt.mp hi, Nat.add_sub_cancel' (Nat.not_lt.mp hi)]

theorem crcByte_top (x : UInt32) :
    (crcByte x (UInt8.ofNat (x.toNat / 2 ^ 24))).toNat = x.toNat % 2 ^ 24 * 2 ^ 8 := by
  have htop := xor_top x
  rw [crcByte, repeat_crcBit (by rw [htop]; omega), htop]

/-- A register that is fed with its four bytes is empty. -/
theorem foldl_crcByte_be32 (x : UInt32) : (be32 x).foldl crcByte x = 0 := by
  have hlt := x.toNat_lt
  have h₁ := crcByte_top x
  have h₂ := crcByte_top (crcByte x (UInt8.ofNat (x.toNat / 2 ^ 24)))
  rw [h₁, show UInt8.ofNat (x.toNat % 2 ^ 24 * 2 ^ 8 / 2 ^ 24) = UInt8.ofNat (x.toNat / 2 ^ 16) by
    rw [← UInt8.toNat_inj, UInt8.toNat_ofNat', UInt8.toNat_ofNat']; omega] at h₂
  have h₃ := crcByte_top (crcByte (crcByte x (UInt8.ofNat (x.toNat / 2 ^ 24)))
    (UInt8.ofNat (x.toNat / 2 ^ 16)))
  rw [h₂, show UInt8.ofNat (x.toNat % 2 ^ 24 * 2 ^ 8 % 2 ^ 24 * 2 ^ 8 / 2 ^ 24) =
      UInt8.ofNat (x.toNat / 2 ^ 8) by
    rw [← UInt8.toNat_inj, UInt8.toNat_ofNat', UInt8.toNat_ofNat']; omega] at h₃
  have h₄ := crcByte_top (crcByte (crcByte (crcByte x (UInt8.ofNat (x.toNat / 2 ^ 24)))
    (UInt8.ofNat (x.toNat / 2 ^ 16))) (UInt8.ofNat (x.toNat / 2 ^ 8)))
  rw [h₃, show UInt8.ofNat (x.toNat % 2 ^ 24 * 2 ^ 8 % 2 ^ 24 * 2 ^ 8 % 2 ^ 24 * 2 ^ 8 / 2 ^ 24) =
      UInt8.ofNat x.toNat by
    rw [← UInt8.toNat_inj, UInt8.toNat_ofNat', UInt8.toNat_ofNat']; omega] at h₄
  rw [← UInt32.toNat_inj]
  show (crcByte _ _).toNat = 0
  rw [h₄]
  omega

theorem mpegCrc32_append_be32 (data : List UInt8) :
    mpegCrc32 (data ++ be32 (mpegCrc32 data)) = 0 := by
  rw [mpegCrc32, List.foldl_append]
  exact foldl_crcByte_be32 _

/-! ### Data that differ in a byte -/

theorem crcBit_odd_iff (x : UInt32) : (crcBit x).toNat % 2 = 1 ↔ x &&& 0x80000000 ≠ 0 := by
  have hshift : (x <<< 1).toNat % 2 = 0 := by
    rw [UInt32.toNat_shiftLeft]
    show x.toNat <<< 1 % 2 ^ 32 % 2 = 0
    rw [Nat.shiftLeft_eq]
    omega
  unfold crcBit
  split
  · next htop =>
    refine iff_of_true ?_ htop
    rw [UInt32.toNat_xor, Nat.xor_mod_two_eq, Nat.add_mod, hshift]
    decide
  · next htop => exact iff_of_false (by omega) htop

/-- A step of the division can be undone: whether the leading bit was set is seen at the end. -/
theorem crcBit_injective : Function.Injective crcBit := by
  intro x y h
  have htop : x &&& 0x80000000 ≠ 0 ↔ y &&& 0x80000000 ≠ 0 := by
    rw [← crcBit_odd_iff, ← crcBit_odd_iff, h]
  have hshift : x <<< 1 = y <<< 1 := by
    unfold crcBit at h
    by_cases hx : x &&& 0x80000000 ≠ 0
    · rw [if_pos hx, if_pos (htop.mp hx)] at h
      exact (UInt32.xor_left_inj _).mp h
    · rw [if_neg hx, if_neg (htop.not.mp hx)] at h
      exact h
  have hx := x.toNat_lt
  have hy := y.toNat_lt
  rw [ne_eq, ne_eq, and_top_eq_zero_iff, and_top_eq_zero_iff] at htop
  rw [← UInt32.toNat_inj, UInt32.toNat_shiftLeft, UInt32.toNat_shiftLeft] at hshift
  rw [← UInt32.toNat_inj]
  change x.toNat <<< 1 % 2 ^ 32 = y.toNat <<< 1 % 2 ^ 32 at hshift
  rw [Nat.shiftLeft_eq, Nat.shiftLeft_eq] at hshift
  omega

theorem repeat_crcBit_injective (n : Nat) : Function.Injective (Nat.repeat crcBit n) := by
  induction n with
  | zero => exact fun _ _ h => h
  | succ n ih => exact fun _ _ h => ih (crcBit_injective h)

theorem crcByte_injective (byte : UInt8) : Function.Injective (crcByte · byte) :=
  fun _ _ h => (UInt32.xor_left_inj _).mp (repeat_crcBit_injective 8 h)

theorem crcByte_ne {a b : UInt8} (h : a ≠ b) (x : UInt32) : crcByte x a ≠ crcByte x b := by
  intro heq
  have hshift := (UInt32.xor_right_inj x).mp (repeat_crcBit_injective 8 heq)
  have ha := a.toNat_lt
  have hb := b.toNat_lt
  rw [← UInt32.toNat_inj, UInt32.toNat_shiftLeft, UInt32.toNat_shiftLeft, UInt8.toNat_toUInt32,
    UInt8.toNat_toUInt32] at hshift
  change a.toNat <<< 24 % 2 ^ 32 = b.toNat <<< 24 % 2 ^ 32 at hshift
  rw [Nat.shiftLeft_eq, Nat.shiftLeft_eq] at hshift
  exact h (UInt8.toNat_inj.mp (by omega))

theorem foldl_crcByte_injective (data : List UInt8) :
    Function.Injective fun x => data.foldl crcByte x := by
  induction data with
  | nil => exact fun _ _ h => h
  | cons byte data ih => exact fun _ _ h => crcByte_injective byte (ih h)

theorem mpegCrc32_ne_of_byte {a b : UInt8} (h : a ≠ b) (before after : List UInt8) :
    mpegCrc32 (before ++ a :: after) ≠ mpegCrc32 (before ++ b :: after) := by
  intro heq
  rw [mpegCrc32, mpegCrc32, List.foldl_append, List.foldl_append] at heq
  exact crcByte_ne h _ (foldl_crcByte_injective after heq)

/-! ### Linearity -/

theorem and_top_ne_zero_iff (x : UInt32) : x &&& 0x80000000 ≠ 0 ↔ x.toNat.testBit 31 = true := by
  have hlt := x.toNat_lt
  rw [ne_eq, and_top_eq_zero_iff, Nat.testBit_eq_decide_div_mod_eq, decide_eq_true_iff]
  omega

theorem crcBit_xor (x y : UInt32) : crcBit (x ^^^ y) = crcBit x ^^^ crcBit y := by
  have htop : (x ^^^ y) &&& 0x80000000 ≠ 0 ↔
      ¬(x &&& 0x80000000 ≠ 0 ↔ y &&& 0x80000000 ≠ 0) := by
    rw [and_top_ne_zero_iff, and_top_ne_zero_iff, and_top_ne_zero_iff, UInt32.toNat_xor,
      Nat.testBit_xor]
    cases x.toNat.testBit 31 <;> cases y.toNat.testBit 31 <;> decide
  unfold crcBit
  rw [UInt32.shiftLeft_xor]
  by_cases hx : x &&& 0x80000000 ≠ 0 <;> by_cases hy : y &&& 0x80000000 ≠ 0
  · -- the polynomial is taken twice
    rw [if_neg (by rw [htop]; tauto), if_pos hx, if_pos hy, UInt32.xor_comm (y <<< 1),
      UInt32.xor_assoc, ← UInt32.xor_assoc _ _ (y <<< 1), UInt32.xor_self, UInt32.zero_xor]
  · rw [if_pos (by rw [htop]; tauto), if_pos hx, if_neg hy, UInt32.xor_assoc,
      UInt32.xor_comm (y <<< 1), UInt32.xor_assoc]
  · rw [if_pos (by rw [htop]; tauto), if_neg hx, if_pos hy, UInt32.xor_assoc]
  · rw [if_neg (by rw [htop]; tauto), if_neg hx, if_neg hy]

theorem repeat_crcBit_xor (n : Nat) (x y : UInt32) :
    Nat.repeat crcBit n (x ^^^ y) = Nat.repeat crcBit n x ^^^ Nat.repeat crcBit n y := by
  induction n with
  | zero => rfl
  | succ n ih =>
    show crcBit _ = crcBit _ ^^^ crcBit _
    rw [ih, crcBit_xor]

theorem crcByte_xor (x y : UInt32) (a b : UInt8) :
    crcByte (x ^^^ y) (a ^^^ b) = crcByte x a ^^^ crcByte y b := by
  rw [crcByte, crcByte, crcByte, ← repeat_crcBit_xor, UInt8.toUInt32_xor, UInt32.shiftLeft_xor]
  refine congrArg (Nat.repeat crcBit 8) ?_
  rw [UInt32.xor_assoc, UInt32.xor_assoc, ← UInt32.xor_assoc y, UInt32.xor_comm y,
    UInt32.xor_assoc _ y]

/-- The register after data of one length is linear in the register before and the data. -/
theorem foldl_crcByte_xor {d e : List UInt8} (h : d.length = e.length) (x y : UInt32) :
    (List.zipWith (· ^^^ ·) d e).foldl crcByte (x ^^^ y) =
      d.foldl crcByte x ^^^ e.foldl crcByte y := by
  induction d generalizing e x y with
  | nil => cases e with
    | nil => rfl
    | cons b e => cases h
  | cons a d ih => cases e with
    | nil => cases h
    | cons b e =>
      rw [List.zipWith_cons_cons, List.foldl_cons, crcByte_xor]
      exact ih (Nat.succ.inj h) _ _

-- the check value of the catalogue
example : mpegCrc32 [0x31, 0x32, 0x33, 0x34, 0x35, 0x36, 0x37, 0x38, 0x39] = 0x0376E6E7 := by
  decide +kernel

end Outpace

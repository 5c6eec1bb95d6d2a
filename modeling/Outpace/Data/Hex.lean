import Outpace.Data.Utf8

/-!
# Hexadecimal text

Digits and numbers in base 16, as `from_str_radix` reads them: in either case, with an optional plus
sign.
-/

namespace Outpace

/-- The value of a digit, by its code. -/
def hexDigitValue (n : Nat) : Option Nat :=
  if 48 ≤ n ∧ n ≤ 57 then some (n - 48)
  else if 97 ≤ n ∧ n ≤ 102 then some (n - 87)
  else if 65 ≤ n ∧ n ≤ 70 then some (n - 55)
  else none

/-- The lower case digit. -/
def hexDigit (v : Nat) : Char := Char.ofNat (if v < 10 then 48 + v else 87 + v)

def isHexDigit (c : Char) : Bool := (hexDigitValue c.toNat).isSome

def isHexByte (b : UInt8) : Bool := (hexDigitValue b.toNat).isSome

/-- The value of a run of digits, most significant first. -/
def hexValue (s : List UInt8) : Nat :=
  s.foldl (fun acc b => acc * 16 + (hexDigitValue b.toNat).getD 0) 0

/-- `from_str_radix` in base 16, for unsigned numbers up to `max`. -/
def parseHex (max : Nat) (s : List UInt8) : Option Nat :=
  let digits := stripPlus s
  if digits ≠ [] ∧ digits.all isHexByte = true ∧ hexValue digits ≤ max then some (hexValue digits)
  else none

/-- `hex::encode`. -/
def hexEncode (bytes : List UInt8) : List Char :=
  bytes.flatMap fun b => [hexDigit (b.toNat / 16), hexDigit (b.toNat % 16)]

theorem hexDigitValue_lt {n v : Nat} (h : hexDigitValue n = some v) : v < 16 ∧ n < 128 := by
  unfold hexDigitValue at h
  split at h
  · cases h
    omega
  split at h
  · cases h
    omega
  split at h
  · cases h
    omega
  · cases h

theorem hexDigitValue_getD_lt (n : Nat) : (hexDigitValue n).getD 0 < 16 := by
  cases h : hexDigitValue n with
  | none => decide
  | some v => exact (hexDigitValue_lt h).1

theorem hexDigit_of_value {c : Char} {v : Nat} (h : hexDigitValue c.toNat = some v) :
    hexDigit v = c.toLower := by
  have hall : ∀ n < 128, ∀ v ∈ hexDigitValue n, hexDigit v = (Char.ofNat n).toLower := by decide
  have hlower := hall c.toNat (hexDigitValue_lt h).2 v h
  rwa [Char.ofNat_toNat] at hlower

theorem stripPlus_cons_of_ne {b : UInt8} (h : b ≠ 43) (s : List UInt8) :
    stripPlus (b :: s) = b :: s := by
  unfold stripPlus
  split
  · next heq => exact absurd (List.cons.inj heq).1 h
  · rfl

theorem parseHex_le {max n : Nat} {s : List UInt8} (h : parseHex max s = some n) : n ≤ max := by
  obtain ⟨hle, heq⟩ := Option.ite_none_right_eq_some.mp h
  exact Option.some.inj heq ▸ hle.2.2

theorem parseHex_digits {max : Nat} {s : List UInt8} (hne : s ≠ []) (hall : s.all isHexByte = true) :
    parseHex max s = if hexValue s ≤ max then some (hexValue s) else none := by
  have hplus : stripPlus s = s := by
    obtain ⟨b, s, rfl⟩ := List.exists_cons_of_ne_nil hne
    rw [List.all_cons, Bool.and_eq_true] at hall
    refine stripPlus_cons_of_ne ?_ s
    rintro rfl
    cases hall.1
  simp only [parseHex, hplus, hne, hall, ne_eq, not_false_eq_true, true_and]

/-- `hex::decode`. -/
def hexDecode : List UInt8 → Option (List UInt8)
  | [] => some []
  | hi :: lo :: s =>
    match hexDigitValue hi.toNat, hexDigitValue lo.toNat with
    | some hi, some lo => (hexDecode s).map (UInt8.ofNat (hi * 16 + lo) :: ·)
    | _, _ => none
  | _ => none

theorem utf8EncodeChar_hexDigit {v : Nat} (h : v < 16) :
    ∃ b, String.utf8EncodeChar (hexDigit v) = [b] ∧ hexDigitValue b.toNat = some v := by
  have hall : ∀ v < 16, String.utf8EncodeChar (hexDigit v) = [UInt8.ofNat (hexDigit v).toNat] ∧
      hexDigitValue (UInt8.ofNat (hexDigit v).toNat).toNat = some v := by decide
  exact ⟨_, hall v h⟩

theorem encodeUtf8_hexEncode_cons (b : UInt8) (bytes : List UInt8) :
    ∃ hi lo, encodeUtf8 (hexEncode (b :: bytes)) = hi :: lo :: encodeUtf8 (hexEncode bytes) ∧
      hexDigitValue hi.toNat = some (b.toNat / 16) ∧
      hexDigitValue lo.toNat = some (b.toNat % 16) := by
  have hb := b.toNat_lt
  obtain ⟨hi, henc, hhi⟩ := utf8EncodeChar_hexDigit (v := b.toNat / 16) (by omega)
  obtain ⟨lo, henc', hlo⟩ := utf8EncodeChar_hexDigit (v := b.toNat % 16) (by omega)
  refine ⟨hi, lo, ?_, hhi, hlo⟩
  rw [hexEncode, List.flatMap_cons, ← hexEncode, List.cons_append, List.cons_append,
    List.nil_append, encodeUtf8_cons, encodeUtf8_cons, henc, henc']
  rfl

theorem hexDecode_hexEncode (bytes : List UInt8) :
    hexDecode (encodeUtf8 (hexEncode bytes)) = some bytes := by
  induction bytes with
  | nil => rfl
  | cons b bytes ih =>
    obtain ⟨hi, lo, htext, hhi, hlo⟩ := encodeUtf8_hexEncode_cons b bytes
    have hbyte : UInt8.ofNat (b.toNat / 16 * 16 + b.toNat % 16) = b := by
      rw [Nat.div_add_mod' b.toNat 16, UInt8.ofNat_toNat]
    rw [htext, hexDecode, hhi, hlo, ih]
    exact congrArg (fun b => some (b :: bytes)) hbyte

theorem length_encodeUtf8_hexEncode (bytes : List UInt8) :
    (encodeUtf8 (hexEncode bytes)).length = 2 * bytes.length := by
  induction bytes with
  | nil => rfl
  | cons b bytes ih =>
    obtain ⟨hi, lo, htext, -, -⟩ := encodeUtf8_hexEncode_cons b bytes
    rw [htext, List.length_cons, List.length_cons, ih, List.length_cons]
    omega

theorem isHexByte_of_mem_hexEncode {bytes : List UInt8} {c : UInt8}
    (hc : c ∈ encodeUtf8 (hexEncode bytes)) : isHexByte c = true := by
  induction bytes with
  | nil => cases hc
  | cons b bytes ih =>
    obtain ⟨hi, lo, htext, hhi, hlo⟩ := encodeUtf8_hexEncode_cons b bytes
    rw [htext] at hc
    rcases List.mem_cons.mp hc with rfl | hc
    · rw [isHexByte, hhi]
      rfl
    rcases List.mem_cons.mp hc with rfl | hc
    · rw [isHexByte, hlo]
      rfl
    · exact ih hc

end Outpace

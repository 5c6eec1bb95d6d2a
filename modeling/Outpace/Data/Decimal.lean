import Mathlib.Algebra.Group.Nat.Defs
import Mathlib.Data.Nat.Digits.Lemmas
import Mathlib.Data.List.Lex
import Outpace.Data.Machine

/-!
# Decimal text in bytes

Numbers written as ASCII digits: the canonical text of a number, and the parsers of the standard
library's fixed-width integers, which also take a sign and leading zeros. Reading back the
canonical text gives the number (`parseU64_decimal`, `parseI64_format`), and the canonical text is
never longer than a text that was read (`length_decimal_le`, `length_format_le`).
-/

namespace Outpace

instance uint8LinearOrder : LinearOrder UInt8 where
  le_refl a := UInt8.le_refl a
  le_trans _ _ _ := UInt8.le_trans
  lt_iff_le_not_ge _ _ := by
    rw [UInt8.lt_iff_toNat_lt, UInt8.le_iff_toNat_le, UInt8.le_iff_toNat_le]
    omega
  le_antisymm _ _ := UInt8.le_antisymm
  le_total a b := UInt8.le_total a b
  toDecidableLE := inferInstance

def isDigit (b : UInt8) : Bool := 48 ≤ b && b ≤ 57

/-- The value of a run of digits, most significant first. -/
def digitsValue (s : List UInt8) : Nat := s.foldl (fun acc b => acc * 10 + (b.toNat - 48)) 0

def parseDigits (s : List UInt8) : Option Nat :=
  if s ≠ [] ∧ s.all isDigit = true then some (digitsValue s) else none

/-- The text of `n`: no leading zero, and one zero for zero. -/
def decimal (n : Nat) : List UInt8 :=
  if n = 0 then [48] else (Nat.digits 10 n).reverse.map fun d => UInt8.ofNat (48 + d)

def stripPlus : List UInt8 → List UInt8
  | 43 :: s => s
  | s => s

/-- `str::parse::<u64>`. -/
def parseU64 (s : List UInt8) : Option Nat :=
  (parseDigits (stripPlus s)).bind fun n => if n ≤ u64Max then some n else none

/-- `str::parse::<i64>`. -/
def parseI64 : List UInt8 → Option Int64
  | 45 :: s => (parseDigits s).bind fun n =>
      if n ≤ 2 ^ 63 then some (Int64.ofInt (-n)) else none
  | s => (parseDigits (stripPlus s)).bind fun n =>
      if n < 2 ^ 63 then some (Int64.ofInt n) else none

/-- `i64::to_string`. -/
def formatI64 (i : Int64) : List UInt8 :=
  if i.toInt < 0 then 45 :: decimal i.toInt.natAbs else decimal i.toInt.natAbs

/-! ### The digits of a number -/

theorem digitsValue_append (s : List UInt8) (b : UInt8) :
    digitsValue (s ++ [b]) = digitsValue s * 10 + (b.toNat - 48) := by
  simp [digitsValue]

variable {s : List UInt8}

theorem digitsValue_lt (h : s.all isDigit = true) : digitsValue s < 10 ^ s.length := by
  induction s using List.reverseRecOn with
  | nil => simp [digitsValue]
  | append_singleton s b ih =>
    simp only [List.all_append, List.all_cons, List.all_nil, Bool.and_true, Bool.and_eq_true] at h
    have hs := ih h.1
    have hb : b.toNat ≤ 57 := by
      have := h.2
      simp only [isDigit, Bool.and_eq_true, decide_eq_true_eq, UInt8.le_iff_toNat_le] at this
      exact this.2
    rw [digitsValue_append, List.length_append, List.length_singleton, Nat.pow_succ]
    omega

theorem digitsValue_map_digits (ds : List Nat) (h : ∀ d ∈ ds, d < 10) :
    digitsValue (ds.reverse.map fun d => UInt8.ofNat (48 + d)) = Nat.ofDigits 10 ds := by
  induction ds with
  | nil => simp [digitsValue]
  | cons d ds ih =>
    have hd : d < 10 := h d List.mem_cons_self
    rw [List.reverse_cons, List.map_append, List.map_singleton, digitsValue_append,
      ih fun e he => h e (List.mem_cons_of_mem _ he), Nat.ofDigits_cons]
    simp only [UInt8.toNat_ofNat', Nat.reducePow]
    rw [Nat.mod_eq_of_lt (by omega)]
    simp
    omega

theorem isDigit_ofNat {d : Nat} (h : d < 10) : isDigit (UInt8.ofNat (48 + d)) = true := by
  simp only [isDigit, Bool.and_eq_true, decide_eq_true_eq, UInt8.le_iff_toNat_le,
    UInt8.toNat_ofNat', Nat.reducePow, UInt8.reduceToNat]
  omega

theorem all_isDigit_decimal (n : Nat) : (decimal n).all isDigit = true := by
  unfold decimal
  split
  · rfl
  · simp only [List.all_map, List.all_reverse, List.all_eq_true, Function.comp_apply]
    exact fun d hd => isDigit_ofNat (Nat.digits_lt_base (by decide) hd)

theorem decimal_ne_nil (n : Nat) : decimal n ≠ [] := by
  unfold decimal
  split
  · simp
  · next h => simpa using Nat.digits_ne_nil_iff_ne_zero.mpr h

theorem digitsValue_decimal (n : Nat) : digitsValue (decimal n) = n := by
  unfold decimal
  split
  · next h => rw [h]; rfl
  · rw [digitsValue_map_digits _ fun d hd => Nat.digits_lt_base (by decide) hd,
      Nat.ofDigits_digits]

theorem parseDigits_decimal (n : Nat) : parseDigits (decimal n) = some n := by
  rw [parseDigits, if_pos ⟨decimal_ne_nil n, all_isDigit_decimal n⟩, digitsValue_decimal]

theorem length_decimal_le_of_lt {n k : Nat} (hk : 0 < k) (h : n < 10 ^ k) :
    (decimal n).length ≤ k := by
  unfold decimal
  split
  · exact hk
  · simpa using (Nat.digits_length_le_iff (by decide) n).mpr h

theorem length_decimal_parseDigits {n : Nat} (h : parseDigits s = some n) :
    (decimal n).length ≤ s.length := by
  unfold parseDigits at h
  split at h
  · next hs =>
    cases h
    exact length_decimal_le_of_lt (List.length_pos_iff.mpr hs.1) (digitsValue_lt hs.2)
  · cases h

/-! ### Signs -/

theorem length_stripPlus_le (s : List UInt8) : (stripPlus s).length ≤ s.length := by
  unfold stripPlus
  split <;> simp

/-- A text that starts with a digit has no sign to strip. -/
theorem stripPlus_of_isDigit (h : s.all isDigit = true) : stripPlus s = s := by
  unfold stripPlus
  split
  · simp [isDigit] at h
  · rfl

theorem parseU64_decimal {n : Nat} (h : n ≤ u64Max) : parseU64 (decimal n) = some n := by
  rw [parseU64, stripPlus_of_isDigit (all_isDigit_decimal n), parseDigits_decimal]
  simp [h]

theorem length_decimal_le {n : Nat} (h : parseU64 s = some n) : (decimal n).length ≤ s.length := by
  simp only [parseU64, Option.bind_eq_some_iff] at h
  obtain ⟨m, hm, h⟩ := h
  split at h <;> cases h
  exact (length_decimal_parseDigits hm).trans (length_stripPlus_le s)

theorem parseI64_of_isDigit (h : s.all isDigit = true) :
    parseI64 s = (parseDigits s).bind fun n =>
      if n < 2 ^ 63 then some (Int64.ofInt n) else none := by
  unfold parseI64
  split
  · simp [isDigit] at h
  · rw [stripPlus_of_isDigit h]

theorem parseI64_format (i : Int64) : parseI64 (formatI64 i) = some i := by
  have hlo := i.le_toInt
  have hhi := i.toInt_lt
  unfold formatI64
  split
  · next hneg =>
    have hval : -(i.toInt.natAbs : Int) = i.toInt := by omega
    simp only [parseI64, parseDigits_decimal, Option.bind_some]
    rw [if_pos (by omega), hval, Int64.ofInt_toInt]
  · next hneg =>
    have hval : (i.toInt.natAbs : Int) = i.toInt := by omega
    rw [parseI64_of_isDigit (all_isDigit_decimal _), parseDigits_decimal, Option.bind_some,
      if_pos (by omega), hval, Int64.ofInt_toInt]

theorem length_format_of_natAbs_le {i : Int64} {k : Nat}
    (h : (decimal i.toInt.natAbs).length ≤ k) : (formatI64 i).length ≤ k + 1 := by
  unfold formatI64
  split
  · simpa using h
  · omega

theorem toInt_ofInt_of_mem {n : Int} (hlo : -2 ^ 63 ≤ n) (hhi : n < 2 ^ 63) :
    (Int64.ofInt n).toInt = n :=
  Int64.toInt_ofInt_of_le hlo hhi

theorem length_format_le {i : Int64} (h : parseI64 s = some i) :
    (formatI64 i).length ≤ s.length := by
  unfold parseI64 at h
  split at h
  · next t =>
    simp only [Option.bind_eq_some_iff] at h
    obtain ⟨n, hn, h⟩ := h
    split at h <;> cases h
    next hle =>
    refine length_format_of_natAbs_le ?_
    rw [toInt_ofInt_of_mem (by omega) (by omega), Int.natAbs_neg, Int.natAbs_natCast]
    exact length_decimal_parseDigits hn
  · simp only [Option.bind_eq_some_iff] at h
    obtain ⟨n, hn, h⟩ := h
    split at h <;> cases h
    next hlt =>
    unfold formatI64
    rw [toInt_ofInt_of_mem (by omega) (by omega), if_neg (by omega), Int.natAbs_natCast]
    exact (length_decimal_parseDigits hn).trans (length_stripPlus_le s)

end Outpace

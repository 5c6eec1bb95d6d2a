import Outpace.Data.Decimal
import Outpace.Data.Rows

/-!
# Addresses as text

IPv4 addresses with the text form and the parser of the standard library: four numbers of at most
three digits and without leading zeros, with dots in between.
-/

namespace Outpace

structure Ipv4Addr where
  a : UInt8
  b : UInt8
  c : UInt8
  d : UInt8
  deriving DecidableEq

structure SocketAddrV4 where
  ip : Ipv4Addr
  port : UInt16
  deriving DecidableEq

/-- `str::parse` of an unsigned integer with a maximum. -/
def parseUnsigned (max : Nat) (s : List UInt8) : Option Nat :=
  (parseDigits (stripPlus s)).bind fun n => if n ≤ max then some n else none

theorem parseUnsigned_decimal {max n : Nat} (h : n ≤ max) :
    parseUnsigned max (decimal n) = some n := by
  rw [parseUnsigned, stripPlus_of_isDigit (all_isDigit_decimal n), parseDigits_decimal]
  exact if_pos h

/-- `str::parse::<u16>`. -/
def parseU16 (s : List UInt8) : Option UInt16 := (parseUnsigned 65535 s).map UInt16.ofNat

theorem parseU16_decimal (n : UInt16) : parseU16 (decimal n.toNat) = some n := by
  have h := n.toNat_lt
  rw [parseU16, parseUnsigned_decimal (by omega), Option.map_some, UInt16.ofNat_toNat]

namespace Ipv4Addr

/-- One of the four numbers. -/
def parseOctet (s : List UInt8) : Option UInt8 :=
  (parseDigits s).bind fun n =>
    if s.length ≤ 3 ∧ (s.head? = some 48 → s.length = 1) ∧ n ≤ 255 then some (UInt8.ofNat n)
    else none

/-- `str::parse::<Ipv4Addr>`. -/
def parse (s : List UInt8) : Option Ipv4Addr :=
  match s.splitOn 46 with
  | [a, b, c, d] => do
    let a ← parseOctet a
    let b ← parseOctet b
    let c ← parseOctet c
    let d ← parseOctet d
    return ⟨a, b, c, d⟩
  | _ => none

def text (ip : Ipv4Addr) : List UInt8 :=
  [46].intercalate [decimal ip.a.toNat, decimal ip.b.toNat, decimal ip.c.toNat, decimal ip.d.toNat]

theorem head?_decimal {n : Nat} (h : n ≠ 0) : (decimal n).head? ≠ some 48 := by
  rw [decimal, if_neg h, List.head?_map, List.head?_reverse]
  intro heq
  obtain ⟨d, hlast, hd⟩ := Option.map_eq_some_iff.mp heq
  have hne : Nat.digits 10 n ≠ [] := Nat.digits_ne_nil_iff_ne_zero.mpr h
  have hlt : d < 10 := Nat.digits_lt_base (by decide) (List.mem_of_getLast? hlast)
  have hzero : d = 0 := by
    have hval := congrArg UInt8.toNat hd
    rw [UInt8.toNat_ofNat', Nat.mod_eq_of_lt (by omega)] at hval
    have : UInt8.toNat 48 = 48 := rfl
    omega
  have hget := Nat.getLast_digit_ne_zero 10 h
  rw [List.getLast?_eq_some_getLast hne] at hlast
  exact hget ((Option.some.inj hlast).trans hzero)

theorem parseOctet_decimal (n : UInt8) : parseOctet (decimal n.toNat) = some n := by
  have hlt := n.toNat_lt
  have hlen : (decimal n.toNat).length ≤ 3 := length_decimal_le_of_lt (by decide) (by omega)
  have hzero : (decimal n.toNat).head? = some 48 → (decimal n.toNat).length = 1 := by
    intro hhead
    by_cases h : n.toNat = 0
    · rw [h]
      rfl
    · exact absurd hhead (head?_decimal h)
  rw [parseOctet, parseDigits_decimal, Option.bind_some, if_pos ⟨hlen, hzero, by omega⟩,
    UInt8.ofNat_toNat]

theorem not_mem_decimal {b : UInt8} (h : isDigit b = false) (n : Nat) : b ∉ decimal n := fun hb =>
  Bool.false_ne_true (h.symm.trans (List.all_eq_true.mp (all_isDigit_decimal n) b hb))

/-- The text of an address read back. -/
theorem parse_text (ip : Ipv4Addr) : parse ip.text = some ip := by
  have hsplit : ip.text.splitOn 46 =
      [decimal ip.a.toNat, decimal ip.b.toNat, decimal ip.c.toNat, decimal ip.d.toNat] := by
    refine List.splitOn_intercalate 46 (fun l hl => ?_) (by simp)
    simp only [List.mem_cons, List.not_mem_nil, or_false] at hl
    rcases hl with rfl | rfl | rfl | rfl
    all_goals exact not_mem_decimal rfl _
  rw [parse, hsplit]
  simp only [parseOctet_decimal]
  rfl

theorem length_text_le (ip : Ipv4Addr) : ip.text.length ≤ 15 := by
  have hlen : ∀ n : UInt8, (decimal n.toNat).length ≤ 3 := fun n => by
    have hlt := n.toNat_lt
    exact length_decimal_le_of_lt (by decide) (by omega)
  have ha := hlen ip.a
  have hb := hlen ip.b
  have hc := hlen ip.c
  have hd := hlen ip.d
  simp [text, List.intercalate]
  omega

theorem text_isDigit (ip : Ipv4Addr) : ∀ b ∈ ip.text, isDigit b = true ∨ b = 46 := by
  have hall : ∀ n, ∀ b ∈ decimal n, isDigit b = true := fun n =>
    List.all_eq_true.mp (all_isDigit_decimal n)
  intro b hb
  rcases mem_intercalate_singleton hb with rfl | ⟨l, hl, hb⟩
  · exact .inr rfl
  · simp only [List.mem_cons, List.not_mem_nil, or_false] at hl
    rcases hl with rfl | rfl | rfl | rfl
    all_goals exact .inl (hall _ b hb)

end Ipv4Addr

end Outpace

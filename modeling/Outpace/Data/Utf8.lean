import Mathlib.Order.Lattice
import Outpace.Data.Decimal

/-!
# UTF-8 text

Text is a list of characters, which are the Unicode scalar values of the source's `str`; only its
encoding is bytes.
-/

namespace Outpace

def isContinuation (b : UInt8) : Bool := 0x80 ≤ b && b ≤ 0xbf

/-- `str::from_utf8` accepts the bytes: the table of well-formed sequences of the Unicode standard,
without surrogates and overlong forms. -/
def utf8Valid : List UInt8 → Bool
  | [] => true
  | b :: rest =>
    if b ≤ 0x7f then utf8Valid rest
    else if 0xc2 ≤ b ∧ b ≤ 0xdf then
      match rest with
      | c :: rest => isContinuation c && utf8Valid rest
      | _ => false
    else if 0xe0 ≤ b ∧ b ≤ 0xef then
      match rest with
      | c :: d :: rest =>
        isContinuation c && isContinuation d && (b != 0xe0 || 0xa0 ≤ c) && (b != 0xed || c ≤ 0x9f)
          && utf8Valid rest
      | _ => false
    else if 0xf0 ≤ b ∧ b ≤ 0xf4 then
      match rest with
      | c :: d :: e :: rest =>
        isContinuation c && isContinuation d && isContinuation e && (b != 0xf0 || 0x90 ≤ c)
          && (b != 0xf4 || c ≤ 0x8f) && utf8Valid rest
      | _ => false
    else false

variable {s : List UInt8} {c : Char}

theorem utf8Valid_ascii_append (h : ∀ b ∈ s, b ≤ 0x7f) (t : List UInt8) :
    utf8Valid (s ++ t) = utf8Valid t := by
  induction s with
  | nil => rfl
  | cons b s ih =>
    rw [← ih fun c hc => h c (List.mem_cons_of_mem _ hc), List.cons_append]
    conv => lhs; unfold utf8Valid
    exact if_pos (h b List.mem_cons_self)

theorem utf8Valid_of_ascii (h : ∀ b ∈ s, b ≤ 0x7f) : utf8Valid s = true := by
  rw [← List.append_nil s, utf8Valid_ascii_append h]
  rfl

/-- The first character of a nonempty byte list and its length, or the length of the part that
`from_utf8_lossy` replaces: the longest beginning of a sequence that is cut off or broken. -/
def nextChar : List UInt8 → Option Char × Nat
  | [] => (none, 0)
  | b :: rest =>
    let low (c : UInt8) : Nat := c.toNat % 64
    if b ≤ 0x7f then (some (Char.ofNat b.toNat), 1)
    else if 0xc2 ≤ b ∧ b ≤ 0xdf then
      match rest with
      | c :: _ =>
        if isContinuation c then (some (Char.ofNat (b.toNat % 32 * 64 + low c)), 2) else (none, 1)
      | _ => (none, 1)
    else if 0xe0 ≤ b ∧ b ≤ 0xef then
      let second (c : UInt8) : Bool :=
        isContinuation c && (b != 0xe0 || 0xa0 ≤ c) && (b != 0xed || c ≤ 0x9f)
      match rest with
      | c :: d :: _ =>
        if second c = false then (none, 1)
        else if isContinuation d = false then (none, 2)
        else (some (Char.ofNat (b.toNat % 16 * 4096 + low c * 64 + low d)), 3)
      | [c] => (none, if second c then 2 else 1)
      | [] => (none, 1)
    else if 0xf0 ≤ b ∧ b ≤ 0xf4 then
      let second (c : UInt8) : Bool :=
        isContinuation c && (b != 0xf0 || 0x90 ≤ c) && (b != 0xf4 || c ≤ 0x8f)
      match rest with
      | c :: d :: e :: _ =>
        if second c = false then (none, 1)
        else if isContinuation d = false then (none, 2)
        else if isContinuation e = false then (none, 3)
        else (some (Char.ofNat (b.toNat % 8 * 262144 + low c * 4096 + low d * 64 + low e)), 4)
      | [c, d] => (none, if second c = false then 1 else if isContinuation d then 3 else 2)
      | [c] => (none, if second c then 2 else 1)
      | [] => (none, 1)
    else (none, 1)

/-- `String::from_utf8_lossy`. Every step passes at least one byte, so the length is enough fuel. -/
def decodeLossy (s : List UInt8) : List Char := go s.length s
where
  go : Nat → List UInt8 → List Char
    | 0, _ => []
    | _ + 1, [] => []
    | fuel + 1, s =>
      let r := nextChar s
      r.1.getD (Char.ofNat 0xfffd) :: go fuel (s.drop r.2)

/-- `char::is_whitespace`. -/
def isWhitespace (c : Char) : Bool :=
  let n := c.toNat
  (0x9 ≤ n && n ≤ 0xd) || n == 0x20 || n == 0x85 || n == 0xa0 || n == 0x1680 ||
    (0x2000 ≤ n && n ≤ 0x200a) || n == 0x2028 || n == 0x2029 || n == 0x202f || n == 0x205f ||
    n == 0x3000

/-- `char::is_control`. -/
def isControl (c : Char) : Bool := c.toNat ≤ 0x1f || (0x7f ≤ c.toNat && c.toNat ≤ 0x9f)

/-- `str::trim`. -/
def trim (s : List Char) : List Char :=
  ((s.dropWhile isWhitespace).reverse.dropWhile isWhitespace).reverse

/-- The longest beginning of a text whose encoding has at most `max` bytes: the cut of a string at
the last character boundary up to `max`. -/
def cutToBytes (max : Nat) : List Char → List Char
  | [] => []
  | c :: s => if c.utf8Size ≤ max then c :: cutToBytes (max - c.utf8Size) s else []

/-- The bytes of a text. -/
def encodeUtf8 (s : List Char) : List UInt8 := s.flatMap String.utf8EncodeChar

theorem length_encodeUtf8_cutToBytes (max : Nat) (s : List Char) :
    (encodeUtf8 (cutToBytes max s)).length ≤ max := by
  induction s generalizing max with
  | nil => exact Nat.zero_le _
  | cons c s ih =>
    unfold cutToBytes
    split
    · have := ih (max - c.utf8Size)
      simp only [encodeUtf8, List.flatMap_cons, List.length_append,
        String.length_utf8EncodeChar] at *
      omega
    · exact Nat.zero_le _

/-! ### Slices of a text -/

/-- `is_char_boundary`. -/
def isCharBoundary : List Char → Nat → Bool
  | _, 0 => true
  | [], _ + 1 => false
  | c :: s, i => c.utf8Size ≤ i && isCharBoundary s (i - c.utf8Size)

/-- The bytes of the slice of a text from `a` to `b`, unless the slice panics. -/
def slice? (s : List Char) (a b : Nat) : Option (List UInt8) :=
  if isCharBoundary s a && isCharBoundary s b && a ≤ b then
    some (((encodeUtf8 s).drop a).take (b - a))
  else none

theorem encodeUtf8_append (s t : List Char) : encodeUtf8 (s ++ t) = encodeUtf8 s ++ encodeUtf8 t :=
  List.flatMap_append

theorem encodeUtf8_cons (c : Char) (s : List Char) :
    encodeUtf8 (c :: s) = String.utf8EncodeChar c ++ encodeUtf8 s := List.flatMap_cons

theorem length_encodeUtf8_cons (c : Char) (s : List Char) :
    (encodeUtf8 (c :: s)).length = c.utf8Size + (encodeUtf8 s).length := by
  rw [encodeUtf8_cons, List.length_append, String.length_utf8EncodeChar]

@[simp] theorem isCharBoundary_zero (s : List Char) : isCharBoundary s 0 = true := by
  cases s <;> rfl

theorem isCharBoundary_cons {s : List Char} {i : Nat} (hi : i ≠ 0) :
    isCharBoundary (c :: s) i = (decide (c.utf8Size ≤ i) && isCharBoundary s (i - c.utf8Size)) := by
  cases i with
  | zero => exact absurd rfl hi
  | succ i => rfl

theorem isCharBoundary_append (s t : List Char) (i : Nat) :
    isCharBoundary (s ++ t) ((encodeUtf8 s).length + i) = isCharBoundary t i := by
  induction s with
  | nil => rw [show (encodeUtf8 []).length = 0 from rfl, Nat.zero_add, List.nil_append]
  | cons c s ih =>
    have hpos := c.utf8Size_pos
    rw [List.cons_append, length_encodeUtf8_cons, isCharBoundary_cons (by omega), ← ih,
      Nat.add_assoc, Nat.add_sub_cancel_left, decide_eq_true (Nat.le_add_right ..), Bool.true_and]

theorem slice?_append (s t : List Char) (a b : Nat) :
    slice? (s ++ t) ((encodeUtf8 s).length + a) ((encodeUtf8 s).length + b) = slice? t a b := by
  rw [slice?, slice?, isCharBoundary_append, isCharBoundary_append, encodeUtf8_append,
    List.drop_append, Nat.add_sub_cancel_left, List.drop_eq_nil_of_le (Nat.le_add_right ..),
    List.nil_append, Nat.add_sub_add_left]
  simp only [Nat.add_le_add_iff_left]

theorem utf8EncodeChar_of_lt (hc : c.toNat < 128) :
    String.utf8EncodeChar c = [UInt8.ofNat c.toNat] := if_pos (Nat.le_of_lt_succ hc)

theorem utf8Size_eq_one_iff : c.utf8Size = 1 ↔ c.toNat < 128 := by
  rw [Char.utf8Size_eq_one_iff, UInt32.le_iff_toNat_le]
  exact Nat.lt_succ_iff.symm

/-- A character that is not ASCII has no ASCII byte in its encoding. -/
theorem le_of_mem_utf8EncodeChar (hc : ¬c.toNat < 128) {b : UInt8}
    (hb : b ∈ String.utf8EncodeChar c) : 128 ≤ b.toNat := by
  unfold String.utf8EncodeChar at hb
  dsimp only at hb
  split at hb
  · next h => exact absurd (Nat.lt_succ_of_le h) hc
  split at hb
  · simp only [List.mem_cons, List.not_mem_nil, or_false] at hb
    rcases hb with rfl | rfl <;> rw [UInt8.toNat_ofNat'] <;> omega
  split at hb
  · simp only [List.mem_cons, List.not_mem_nil, or_false] at hb
    rcases hb with rfl | rfl | rfl <;> rw [UInt8.toNat_ofNat'] <;> omega
  · simp only [List.mem_cons, List.not_mem_nil, or_false] at hb
    rcases hb with rfl | rfl | rfl | rfl <;> rw [UInt8.toNat_ofNat'] <;> omega

/-! ### ASCII -/

theorem decodeLossy_ascii_append (h : ∀ b ∈ s, b ≤ 0x7f) (t : List UInt8) :
    decodeLossy (s ++ t) = s.map (fun b => Char.ofNat b.toNat) ++ decodeLossy t := by
  induction s with
  | nil => rfl
  | cons b s ih =>
    have hnext : nextChar (b :: (s ++ t)) = (some (Char.ofNat b.toNat), 1) :=
      if_pos (h b List.mem_cons_self)
    rw [List.cons_append, decodeLossy, List.length_cons, decodeLossy.go, hnext, List.map_cons,
      List.cons_append, ← ih fun c hc => h c (List.mem_cons_of_mem _ hc)]
    rfl
    exact List.cons_ne_nil _ _

theorem encodeUtf8_ascii (h : ∀ b ∈ s, b ≤ 0x7f) :
    encodeUtf8 (s.map fun b => Char.ofNat b.toNat) = s := by
  induction s with
  | nil => rfl
  | cons b s ih =>
    have hb : b.toNat < 128 := Nat.lt_succ_of_le (UInt8.le_iff_toNat_le.mp (h b List.mem_cons_self))
    have hc : (Char.ofNat b.toNat).toNat = b.toNat := by
      rw [Char.ofNat, dif_pos (.inl (by omega))]
      rfl
    rw [List.map_cons, encodeUtf8_cons, ih fun c hc => h c (List.mem_cons_of_mem _ hc),
      utf8EncodeChar_of_lt (hc.trans_lt hb), hc, UInt8.ofNat_toNat]
    rfl

theorem trim_of_forall {s : List Char} (h : ∀ c ∈ s, isWhitespace c = false) : trim s = s := by
  have hdrop : ∀ t : List Char, (∀ c ∈ t, isWhitespace c = false) → t.dropWhile isWhitespace = t := by
    intro t ht
    cases t with
    | nil => rfl
    | cons c t => exact List.dropWhile_cons_of_neg (Bool.eq_false_iff.mp (ht c List.mem_cons_self))
  rw [trim, hdrop s h, hdrop _ fun c hc => h c (List.mem_reverse.mp hc), List.reverse_reverse]

/-! ### Strict decoding -/

/-- `String::from_utf8`. -/
def decodeUtf8 (s : List UInt8) : Option (List Char) := s.toByteArray.utf8Decode?.map Array.toList

@[simp] theorem decodeUtf8_encodeUtf8 (s : List Char) : decodeUtf8 (encodeUtf8 s) = some s := by
  have h : (encodeUtf8 s).toByteArray.utf8Decode? = some s.toArray := List.utf8Decode?_utf8Encode
  rw [decodeUtf8, h, Option.map_some]

/-! ### The cut of a text -/

theorem cutToBytes_prefix (max : Nat) (s : List Char) : cutToBytes max s <+: s := by
  induction s generalizing max with
  | nil => exact List.prefix_rfl
  | cons c s ih =>
    unfold cutToBytes
    split
    · exact List.prefix_cons_inj c |>.mpr (ih _)
    · exact List.nil_prefix

theorem cutToBytes_ne_nil {max : Nat} (hmax : 4 ≤ max) {s : List Char} (hs : s ≠ []) :
    cutToBytes max s ≠ [] := by
  cases s with
  | nil => exact absurd rfl hs
  | cons c s =>
    have := c.utf8Size_le_four
    rw [cutToBytes, if_pos (by omega)]
    exact List.cons_ne_nil _ _

/-! ### Trimming and filtering -/

/-- The text without the whitespace at its end. -/
def trimEnd (s : List Char) : List Char := (s.reverse.dropWhile isWhitespace).reverse

theorem trimEnd_cons (c : Char) (s : List Char) :
    trimEnd (c :: s) =
      if trimEnd s = [] then if isWhitespace c then [] else [c] else c :: trimEnd s := by
  rw [trimEnd, List.reverse_cons, List.dropWhile_append]
  by_cases h : s.reverse.dropWhile isWhitespace = []
  · rw [if_pos (List.isEmpty_iff.mpr h), if_pos (by rw [trimEnd, h, List.reverse_nil])]
    by_cases hc : isWhitespace c <;> simp [hc]
  · rw [if_neg (List.isEmpty_iff.not.mpr h), if_neg (by rwa [trimEnd, List.reverse_eq_nil_iff]),
      List.reverse_append]
    rfl

/-- It does not matter at which end the trimming starts. -/
theorem trim_eq (s : List Char) : trim s = (trimEnd s).dropWhile isWhitespace := by
  show trimEnd (s.dropWhile isWhitespace) = _
  induction s with
  | nil => rfl
  | cons c s ih =>
    rw [List.dropWhile_cons, trimEnd_cons]
    by_cases hc : isWhitespace c
    · rw [if_pos hc, if_pos hc, ih]
      by_cases hs : trimEnd s = []
      · rw [if_pos hs, hs]
      · rw [if_neg hs, List.dropWhile_cons_of_pos hc]
    · rw [if_neg hc, if_neg hc, trimEnd_cons, if_neg hc]
      split <;> rw [List.dropWhile_cons_of_neg hc]

theorem dropWhile_filter_dropWhile {α : Type} (p q : α → Bool) (s : List α) :
    ((s.dropWhile p).filter q).dropWhile p = (s.filter q).dropWhile p := by
  rw [List.dropWhile_filter, List.dropWhile_filter]
  congr 1
  induction s with
  | nil => rfl
  | cons c s ih =>
    by_cases hc : p c
    · rw [List.dropWhile_cons_of_pos hc, ih, List.dropWhile_cons_of_pos (by simp [hc])]
    · rw [List.dropWhile_cons_of_neg hc]

/-- Whitespace at the ends may be trimmed before characters are taken out. -/
theorem trim_filter_trim (q : Char → Bool) (s : List Char) :
    trim ((trim s).filter q) = trim (s.filter q) := by
  have hstop (s : List Char) : trimEnd ((trimEnd s).filter q) = trimEnd (s.filter q) := by
    rw [trimEnd, trimEnd, trimEnd, List.filter_reverse, List.reverse_reverse,
      dropWhile_filter_dropWhile, List.filter_reverse]
  calc trim ((trim s).filter q) = (trimEnd ((trim s).filter q)).dropWhile isWhitespace := trim_eq _
    _ = (trimEnd ((s.dropWhile isWhitespace).filter q)).dropWhile isWhitespace := by
      show (trimEnd ((trimEnd _).filter q)).dropWhile isWhitespace = _
      rw [hstop]
    _ = trimEnd (((s.dropWhile isWhitespace).filter q).dropWhile isWhitespace) := (trim_eq _).symm
    _ = trim (s.filter q) := by rw [dropWhile_filter_dropWhile]; rfl

end Outpace

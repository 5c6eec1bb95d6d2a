import Outpace.Data.Except
import Outpace.Data.Hex

/-!
# Content ids and infohashes

`hex20` and `infohash_hex` of `ace-swarm/src/resolve.rs`, with `ace_normalized_hex_id` and
`native_stream_id` of the HTTP routes. The decoder cuts the text into slices of two bytes, which
panics inside a character, and reads each slice with `from_str_radix`, which takes a plus sign before
a single digit (`hex20_exact_iff`).
-/

namespace Outpace.Swarm

inductive IdentifierError where
  | badInfohash
  deriving DecidableEq

/-- The loop of `decode_hex20` over the pairs from `i` on, or `none` if a slice panics. -/
def decodePairs (hex : List Char) (i : Nat) : (pairs : Nat) → Option (Option (List UInt8))
  | 0 => some (some [])
  | pairs + 1 =>
    match slice? hex (i * 2) (i * 2 + 2) with
    | none => none
    | some digits =>
      match parseHex 255 digits with
      | none => some none
      | some b => (decodePairs hex (i + 1) pairs).map (·.map (UInt8.ofNat b :: ·))

def decodeHex20 (hex : List Char) : Option (Option (List UInt8)) :=
  if (encodeUtf8 hex).length ≠ 40 then some none else decodePairs hex 0 20

/-- `none` if it panics. -/
def hex20 (hex : List Char) : Option (Except IdentifierError (List UInt8)) :=
  (decodeHex20 hex).map (okOr · .badInfohash)

def infohashHex (infohash : List UInt8) : List Char := hexEncode infohash

def aceNormalizedHexId (id : List Char) : Option (List Char) :=
  if (encodeUtf8 id).length = 40 ∧ (encodeUtf8 id).all isHexByte = true then
    some (id.map Char.toLower)
  else none

/-! ### What the decoder reads -/

/-- Two characters that are read as a byte. -/
def isPair (c d : Char) : Bool := (isHexDigit c || c == '+') && isHexDigit d

/-- The text after the pairs that are read. -/
def afterPairs : List Char → List Char
  | c :: d :: s => if isPair c d then afterPairs s else c :: d :: s
  | s => s

def pairValue (c d : Char) : Nat :=
  (hexDigitValue c.toNat).getD 0 * 16 + (hexDigitValue d.toNat).getD 0

/-- The bytes of the pairs. -/
def pairBytes : List Char → List UInt8
  | c :: d :: s => UInt8.ofNat (pairValue c d) :: pairBytes s
  | _ => []

variable {c d : Char}

theorem afterPairs_cons (h : isPair c d = true) (s : List Char) :
    afterPairs (c :: d :: s) = afterPairs s := if_pos h

theorem isPair_lt (h : isPair c d = true) : c.toNat < 128 ∧ d.toNat < 128 := by
  rw [isPair, Bool.and_eq_true, Bool.or_eq_true, beq_iff_eq] at h
  obtain ⟨hc, hd⟩ := h
  obtain ⟨v, hv⟩ := Option.isSome_iff_exists.mp hd
  refine ⟨?_, (hexDigitValue_lt hv).2⟩
  rcases hc with hc | rfl
  · obtain ⟨v, hv⟩ := Option.isSome_iff_exists.mp hc
    exact (hexDigitValue_lt hv).2
  · decide

theorem toNat_ofNat_ascii {c : Char} (hc : c.toNat < 128) : (UInt8.ofNat c.toNat).toNat = c.toNat := by
  rw [UInt8.toNat_ofNat']
  exact Nat.mod_eq_of_lt (by omega)

/-- The slice of two ASCII characters. -/
theorem parseHex_pair (hc : c.toNat < 128) (hd : d.toNat < 128) :
    parseHex 255 [UInt8.ofNat c.toNat, UInt8.ofNat d.toNat] =
      if isPair c d then some (pairValue c d) else none := by
  have hc' := toNat_ofNat_ascii hc
  have hd' := toNat_ofNat_ascii hd
  have hvalue : pairValue c d ≤ 255 := by
    have hhigh := hexDigitValue_getD_lt c.toNat
    have hlow := hexDigitValue_getD_lt d.toNat
    unfold pairValue
    omega
  by_cases hplus : c = '+'
  · subst hplus
    have hnumber : hexValue [UInt8.ofNat d.toNat] = pairValue '+' d := by
      simp [hexValue, pairValue, hd', hexDigitValue]
    rw [parseHex, show stripPlus [UInt8.ofNat '+'.toNat, UInt8.ofNat d.toNat] =
      [UInt8.ofNat d.toNat] from rfl, hnumber]
    simp [hvalue, isPair, isHexByte, hd', isHexDigit]
  · have hne : UInt8.ofNat c.toNat ≠ 43 := by
      intro h
      have hcode := congrArg UInt8.toNat h
      rw [hc'] at hcode
      exact hplus (by rw [← Char.ofNat_toNat c, hcode]; rfl)
    have hnumber : hexValue [UInt8.ofNat c.toNat, UInt8.ofNat d.toNat] = pairValue c d := by
      simp [hexValue, pairValue, hc', hd']
    rw [parseHex, stripPlus_cons_of_ne hne, hnumber]
    simp [hvalue, isPair, isHexByte, hc', hd', isHexDigit, hplus]

/-- A slice that begins inside the encoding of a character that is not ASCII is not a number. -/
theorem parseHex_of_not_ascii {b : UInt8} (hb : 128 ≤ b.toNat) (s : List UInt8) (max : Nat) :
    parseHex max (b :: s) = none := by
  have hplus : stripPlus (b :: s) = b :: s := by
    refine stripPlus_cons_of_ne ?_ s
    rintro rfl
    exact absurd hb (by decide)
  have hdigit : isHexByte b = false := by
    unfold isHexByte
    cases hv : hexDigitValue b.toNat with
    | none => rfl
    | some v => exact absurd (hexDigitValue_lt hv).2 (Nat.not_lt.mpr hb)
  rw [parseHex, hplus, List.all_cons, hdigit]
  exact if_neg fun h => by cases h.2.1

theorem isCharBoundary_pair {c : Char} (hc : c.toNat < 128) (d : Char) (s : List Char) :
    isCharBoundary (c :: d :: s) 2 = decide (d.toNat < 128) := by
  have hpos := d.utf8Size_pos
  rw [isCharBoundary_cons (by decide), utf8Size_eq_one_iff.mpr hc, isCharBoundary_cons (by decide)]
  by_cases hd : d.utf8Size = 1
  · simp [hd, utf8Size_eq_one_iff.mp hd]
  · have hlong : ¬d.utf8Size ≤ 1 := by omega
    simp [hlong, mt utf8Size_eq_one_iff.mpr hd]

theorem slice?_pair (hc : c.toNat < 128) (hd : d.toNat < 128) (s : List Char) :
    slice? (c :: d :: s) 0 2 = some [UInt8.ofNat c.toNat, UInt8.ofNat d.toNat] := by
  rw [slice?, isCharBoundary_pair hc, isCharBoundary_zero, encodeUtf8_cons, encodeUtf8_cons,
    utf8EncodeChar_of_lt hc, utf8EncodeChar_of_lt hd, decide_eq_true hd]
  rfl

variable {s : List Char}

theorem slice?_of_cut (h : isCharBoundary s 2 = false) : slice? s 0 2 = none := by
  rw [slice?, h, Bool.and_false]
  rfl

/-- The decoder reads pairs, and stops at the first slice that is none or panics there. -/
theorem decodePairs_eq (u t : List Char) {i pairs : Nat} (hu : (encodeUtf8 u).length = i * 2)
    (ht : (encodeUtf8 t).length = pairs * 2) :
    decodePairs (u ++ t) i pairs =
      if afterPairs t = [] then some (some (pairBytes t))
      else if isCharBoundary (afterPairs t) 2 then some none else none := by
  induction pairs generalizing u t i with
  | zero =>
    have hnil : t = [] := by
      cases t with
      | nil => rfl
      | cons c t =>
        have hpos := c.utf8Size_pos
        rw [length_encodeUtf8_cons] at ht
        omega
    subst hnil
    rfl
  | succ pairs ih =>
    have hslice : slice? (u ++ t) (i * 2) (i * 2 + 2) = slice? t 0 2 := by
      have h := slice?_append u t 0 2
      rwa [hu, Nat.add_zero] at h
    rw [decodePairs, hslice]
    cases t with
    | nil =>
      rw [show (encodeUtf8 []).length = 0 from rfl] at ht
      omega
    | cons c t =>
    rw [length_encodeUtf8_cons] at ht
    by_cases hc : c.toNat < 128
    · rw [utf8Size_eq_one_iff.mpr hc] at ht
      cases t with
      | nil =>
        rw [show (encodeUtf8 []).length = 0 from rfl] at ht
        omega
      | cons d t =>
      by_cases hd : d.toNat < 128
      · rw [slice?_pair hc hd]
        dsimp only
        rw [parseHex_pair hc hd]
        by_cases hpair : isPair c d = true
        · have hcd : (encodeUtf8 (u ++ [c, d])).length = (i + 1) * 2 := by
            rw [encodeUtf8_append, List.length_append, hu, length_encodeUtf8_cons,
              length_encodeUtf8_cons, utf8Size_eq_one_iff.mpr hc, utf8Size_eq_one_iff.mpr hd,
              show (encodeUtf8 []).length = 0 from rfl]
            omega
          have hrest : (encodeUtf8 t).length = pairs * 2 := by
            rw [length_encodeUtf8_cons, utf8Size_eq_one_iff.mpr hd] at ht
            omega
          have hih := ih (u ++ [c, d]) t hcd hrest
          rw [List.append_assoc] at hih
          rw [if_pos hpair, afterPairs_cons hpair]
          dsimp only
          rw [show u ++ c :: d :: t = u ++ ([c, d] ++ t) from rfl, hih]
          split
          · rfl
          · split <;> rfl
        · have hafter : afterPairs (c :: d :: t) = c :: d :: t := if_neg hpair
          rw [if_neg hpair, hafter, if_neg (by simp), isCharBoundary_pair hc, decide_eq_true hd,
            if_pos rfl]
      · have hcut : isCharBoundary (c :: d :: t) 2 = false := by
          rw [isCharBoundary_pair hc, decide_eq_false hd]
        have hafter : afterPairs (c :: d :: t) = c :: d :: t := if_neg fun h => hd (isPair_lt h).2
        rw [slice?_of_cut hcut, hafter, if_neg (by simp), hcut]
        rfl
    · have hafter : afterPairs (c :: t) = c :: t := by
        cases t with
        | nil => rfl
        | cons d t => exact if_neg fun h => hc (isPair_lt h).1
      rw [hafter, if_neg (by simp)]
      by_cases hcut : isCharBoundary (c :: t) 2 = true
      · obtain ⟨b, bs, hb⟩ : ∃ b bs, String.utf8EncodeChar c = b :: bs :=
          List.exists_cons_of_ne_nil (by simp)
        have hbyte := le_of_mem_utf8EncodeChar hc (hb ▸ List.mem_cons_self)
        have hs : slice? (c :: t) 0 2 = some (b :: (bs ++ encodeUtf8 t).take 1) := by
          rw [slice?, hcut, isCharBoundary_zero, encodeUtf8_cons, hb]
          rfl
        rw [hs, hcut]
        dsimp only
        rw [parseHex_of_not_ascii hbyte]
        rfl
      · rw [Bool.not_eq_true] at hcut
        rw [slice?_of_cut hcut, hcut]
        rfl

theorem hex20_eq (h : (encodeUtf8 s).length = 40) :
    hex20 s =
      if afterPairs s = [] then some (.ok (pairBytes s))
      else if isCharBoundary (afterPairs s) 2 then some (.error .badInfohash) else none := by
  rw [hex20, decodeHex20, if_neg (not_not_intro h)]
  have hpairs := @decodePairs_eq [] s 0 20 rfl h
  rw [List.nil_append] at hpairs
  rw [hpairs]
  split
  · rfl
  · split <;> rfl

theorem hex20_of_length_ne (h : (encodeUtf8 s).length ≠ 40) :
    hex20 s = some (.error .badInfohash) := by
  rw [hex20, decodeHex20, if_pos h]
  rfl

/-! ### Identifiers -/

/-- 40 hexadecimal digits. -/
def IsHexId (s : List Char) : Prop := s.length = 40 ∧ ∀ c ∈ s, isHexDigit c = true

/-- The identifier is decoded if and only if it is one, and it can be written back. -/
structure ExactId (s : List Char) : Prop where
  returns : hex20 s ≠ none
  accepts : IsHexId s → ∃ x, hex20 s = some (.ok x)
  sound : ∀ x, hex20 s = some (.ok x) → IsHexId s ∧ infohashHex x = s.map Char.toLower

/-- Nothing in the text misleads the decoder: its length in bytes is another one, it is read to its
end and has no plus sign, or the first slice that is not read ends with a character. -/
def Unmistakable (s : List Char) : Prop :=
  (encodeUtf8 s).length ≠ 40 ∨ (afterPairs s = [] ∧ '+' ∉ s) ∨
    (afterPairs s ≠ [] ∧ isCharBoundary (afterPairs s) 2 = true)

theorem length_encodeUtf8_of_hex (h : ∀ c ∈ s, isHexDigit c = true) :
    (encodeUtf8 s).length = s.length := by
  induction s with
  | nil => rfl
  | cons c s ih =>
    obtain ⟨hc, hs⟩ := List.forall_mem_cons.mp h
    obtain ⟨v, hv⟩ := Option.isSome_iff_exists.mp hc
    rw [length_encodeUtf8_cons, ih hs, utf8Size_eq_one_iff.mpr (hexDigitValue_lt hv).2,
      List.length_cons, Nat.add_comm]

theorem afterPairs_of_hex (h : ∀ c ∈ s, isHexDigit c = true) (heven : s.length % 2 = 0) :
    afterPairs s = [] := by
  induction s using afterPairs.induct with
  | case1 c d s hpair ih =>
    rw [afterPairs_cons hpair]
    refine ih (fun x hx => h x (by simp [hx])) ?_
    rw [List.length_cons, List.length_cons] at heven
    omega
  | case2 c d s hpair =>
    refine absurd ?_ hpair
    rw [isPair, h c (by simp), h d (by simp)]
    rfl
  | case3 s hshort =>
    rcases s with _ | ⟨c, _ | ⟨d, s⟩⟩
    · rfl
    · cases heven
    · exact absurd rfl (hshort c d s)

/-- What is read without a plus sign are digits, and they can be written back. -/
theorem hex_of_afterPairs (h : afterPairs s = []) (hplus : '+' ∉ s) :
    (∀ c ∈ s, isHexDigit c = true) ∧ infohashHex (pairBytes s) = s.map Char.toLower := by
  induction s using afterPairs.induct with
  | case1 c d s hpair ih =>
    rw [afterPairs_cons hpair] at h
    rw [List.mem_cons, List.mem_cons, not_or, not_or] at hplus
    obtain ⟨hall, hback⟩ := ih h hplus.2.2
    rw [isPair, Bool.and_eq_true, Bool.or_eq_true, beq_iff_eq] at hpair
    have hc : isHexDigit c = true := hpair.1.resolve_right fun h => hplus.1 h.symm
    obtain ⟨v, hv⟩ := Option.isSome_iff_exists.mp hc
    obtain ⟨w, hw⟩ := Option.isSome_iff_exists.mp hpair.2
    have hv16 := (hexDigitValue_lt hv).1
    have hw16 := (hexDigitValue_lt hw).1
    have hbyte : (UInt8.ofNat (pairValue c d)).toNat = v * 16 + w := by
      rw [pairValue, hv, hw, Option.getD_some, Option.getD_some, UInt8.toNat_ofNat']
      exact Nat.mod_eq_of_lt (by omega)
    refine ⟨List.forall_mem_cons.mpr ⟨hc, List.forall_mem_cons.mpr ⟨hpair.2, hall⟩⟩, ?_⟩
    rw [pairBytes, infohashHex, hexEncode, List.flatMap_cons, ← hexEncode, ← infohashHex, hback,
      hbyte, show (v * 16 + w) / 16 = v by omega, show (v * 16 + w) % 16 = w by omega,
      hexDigit_of_value hv, hexDigit_of_value hw]
    rfl
  | case2 c d s hpair =>
    rw [afterPairs, if_neg hpair] at h
    cases h
  | case3 s hshort =>
    rcases s with _ | ⟨c, _ | ⟨d, s⟩⟩
    · exact ⟨fun _ h => (by cases h), rfl⟩
    · cases h
    · exact absurd rfl (hshort c d s)

theorem IsHexId.length (h : IsHexId s) : (encodeUtf8 s).length = 40 :=
  (length_encodeUtf8_of_hex h.2).trans h.1

theorem IsHexId.afterPairs (h : IsHexId s) : Swarm.afterPairs s = [] :=
  afterPairs_of_hex h.2 (by rw [h.1])

theorem ExactId.of_error (h : hex20 s = some (.error .badInfohash)) (hid : ¬IsHexId s) :
    ExactId s where
  returns := fun hnone => by cases h.symm.trans hnone
  accepts := fun h => absurd h hid
  sound := fun x hx => by cases h.symm.trans hx

theorem exactId_iff (s : List Char) : ExactId s ↔ Unmistakable s := by
  by_cases hlen : (encodeUtf8 s).length = 40
  swap
  · exact ⟨fun _ => .inl hlen, fun _ => .of_error (hex20_of_length_ne hlen) fun h => hlen h.length⟩
  by_cases hafter : afterPairs s = []
  · have hok : hex20 s = some (.ok (pairBytes s)) := by rw [hex20_eq hlen, if_pos hafter]
    constructor
    · intro E
      refine .inr (.inl ⟨hafter, fun hplus => ?_⟩)
      have hdigit := (E.sound _ hok).1.2 '+' hplus
      exact absurd hdigit (by decide)
    · rintro (hne | ⟨-, hplus⟩ | ⟨hne, -⟩)
      · exact absurd hlen hne
      · obtain ⟨hall, hback⟩ := hex_of_afterPairs hafter hplus
        refine ⟨fun h => (by cases hok.symm.trans h), fun _ => ⟨_, hok⟩, fun x hx => ?_⟩
        cases hok.symm.trans hx
        exact ⟨⟨(length_encodeUtf8_of_hex hall).symm.trans hlen, hall⟩, hback⟩
      · exact absurd hafter hne
  · have hstop := hex20_eq hlen
    rw [if_neg hafter] at hstop
    constructor
    · intro E
      refine .inr (.inr ⟨hafter, ?_⟩)
      by_contra hcut
      rw [if_neg hcut] at hstop
      exact E.returns hstop
    · rintro (hne | ⟨hnil, -⟩ | ⟨-, hcut⟩)
      · exact absurd hlen hne
      · exact absurd hnil hafter
      · rw [if_pos hcut] at hstop
        exact .of_error hstop fun h => hafter h.afterPairs

/-! ### The routes -/

/-- `native_stream_id`. -/
def nativeStreamId (network id : List Char) : Except String (List Char) :=
  if network ≠ "ace".toList then .ok id
  else
    match id.dropPrefix? "ih:".toList with
    | some hex =>
      okOr (aceNormalizedHexId hex) "ih: requires a 40-character hexadecimal infohash"
    | none =>
      match id.dropPrefix? "cid:".toList with
      | some hex =>
        okOr ((aceNormalizedHexId hex).map ("cid:".toList ++ ·))
          "cid: requires a 40-character hexadecimal content id"
      | none =>
        match aceNormalizedHexId id with
        | some hex => .ok ("cid:".toList ++ hex)
        | none => .ok id

theorem hex_of_all_isHexByte (h : (encodeUtf8 s).all isHexByte = true) :
    ∀ c ∈ s, isHexDigit c = true := by
  intro c hc
  have hbytes (b : UInt8) (hb : b ∈ String.utf8EncodeChar c) : isHexByte b = true :=
    List.all_eq_true.mp h b (List.mem_flatMap.mpr ⟨c, hc, hb⟩)
  by_cases hascii : c.toNat < 128
  · have hbyte := hbytes (UInt8.ofNat c.toNat) (by rw [utf8EncodeChar_of_lt hascii]; simp)
    rwa [isHexByte, UInt8.toNat_ofNat', Nat.mod_eq_of_lt (by omega)] at hbyte
  · obtain ⟨b, bs, hb⟩ : ∃ b bs, String.utf8EncodeChar c = b :: bs :=
      List.exists_cons_of_ne_nil (by simp)
    have hmem : b ∈ String.utf8EncodeChar c := hb ▸ List.mem_cons_self
    obtain ⟨v, hv⟩ := Option.isSome_iff_exists.mp (hbytes b hmem)
    exact absurd (hexDigitValue_lt hv).2 (Nat.not_lt.mpr (le_of_mem_utf8EncodeChar hascii hmem))

theorem isHexDigit_toLower {c : Char} (h : isHexDigit c = true) : isHexDigit c.toLower = true := by
  have hall : ∀ v < 16, isHexDigit (hexDigit v) = true := by decide
  obtain ⟨v, hv⟩ := Option.isSome_iff_exists.mp h
  rw [← hexDigit_of_value hv]
  exact hall v (hexDigitValue_lt hv).1

theorem isHexId_of_normalized {id hex : List Char} (h : aceNormalizedHexId id = some hex) :
    IsHexId hex := by
  unfold aceNormalizedHexId at h
  split at h
  · next hcond =>
    cases h
    obtain ⟨hlen, hall⟩ := hcond
    have hdigits := hex_of_all_isHexByte hall
    refine ⟨?_, fun c hc => ?_⟩
    · rw [List.length_map, ← length_encodeUtf8_of_hex hdigits, hlen]
    · obtain ⟨d, hd, rfl⟩ := List.mem_map.mp hc
      exact isHexDigit_toLower (hdigits d hd)
  · cases h

/-- A content id that a route hands on is one. -/
theorem isHexId_of_route {id sel hex : List Char}
    (h : nativeStreamId "ace".toList id = .ok sel) (hcid : sel.dropPrefix? "cid:".toList = some hex) :
    IsHexId hex := by
  have hback (hex' : List Char) : ("cid:".toList ++ hex').dropPrefix? "cid:".toList = some hex' := by
    simp [List.dropPrefix?]
  rw [nativeStreamId, if_neg (not_not_intro rfl)] at h
  split at h
  · next hex' hih =>
    have hnorm := isHexId_of_normalized (okOr_eq_ok.mp h)
    obtain ⟨p, rfl, hp⟩ := List.dropPrefix?_eq_some_iff.mp hcid
    obtain rfl := eq_of_beq hp
    exact absurd (hnorm.2 'i' (by simp)) (by decide)
  · split at h
    · next hih hex' hid =>
      obtain ⟨hex'', hnorm, rfl⟩ := Option.map_eq_some_iff.mp (okOr_eq_ok.mp h)
      cases (hback hex'').symm.trans hcid
      exact isHexId_of_normalized hnorm
    · split at h
      · next hex'' hnorm =>
        cases h
        cases (hback hex'').symm.trans hcid
        exact isHexId_of_normalized hnorm
      · next hid _ _ =>
        cases h
        cases hid.symm.trans hcid

/-- An identifier is decoded exactly, without a panic, if and only if nothing in it misleads the
decoder. Two such identifiers of one value differ by letter case only, and the native route hands on
such content ids only. -/
theorem hex20_exact_iff (s : List Char) :
    (ExactId s ↔ Unmistakable s) ∧
    (∀ t x, Unmistakable s → Unmistakable t → hex20 s = some (.ok x) → hex20 t = some (.ok x) →
      s.map Char.toLower = t.map Char.toLower) ∧
    ∀ sel hex, nativeStreamId "ace".toList s = .ok sel →
      sel.dropPrefix? "cid:".toList = some hex → ∃ x, hex20 hex = some (.ok x) := by
  refine ⟨exactId_iff s, fun t x hs ht hsx htx => ?_, fun sel hex hroute hcid => ?_⟩
  · have hback := (((exactId_iff s).mpr hs).sound x hsx).2
    have hback' := (((exactId_iff t).mpr ht).sound x htx).2
    exact hback.symm.trans hback'
  · have hid := isHexId_of_route hroute hcid
    exact ⟨_, (hex20_eq hid.length).trans (if_pos hid.afterPairs)⟩

/-- Zeros and fifteens, in capital letters. -/
def sampleId : List Char := (List.replicate 20 ['0', 'F']).flatten

theorem hex20_exact_sample :
    sampleId.map Char.toLower = (sampleId.map Char.toLower).map Char.toLower ∧
    nativeStreamId "ace".toList ("cid:".toList ++ sampleId) =
      .ok ("cid:".toList ++ sampleId.map Char.toLower) ∧
    ∃ x, hex20 (sampleId.map Char.toLower) = some (.ok x) := by
  have hroute : nativeStreamId "ace".toList ("cid:".toList ++ sampleId) =
      .ok ("cid:".toList ++ sampleId.map Char.toLower) := by decide +kernel
  refine ⟨?_, hroute, ?_⟩
  · exact (hex20_exact_iff sampleId).2.1 (sampleId.map Char.toLower) (List.replicate 20 15)
      (.inr (.inl (by decide +kernel))) (.inr (.inl (by decide +kernel))) (by decide +kernel)
      (by decide +kernel)
  · exact (hex20_exact_iff _).2.2 _ _ hroute (by decide +kernel)

/-- A text of 40 bytes with a character across the end of its first slice. -/
def cutId : List Char := 'a' :: Char.ofNat 0xe9 :: List.replicate 37 'a'

/-- Plus signs for the zeros of an identifier. -/
def plusId : List Char := (List.replicate 20 ['+', 'f']).flatten

/-- One text panics the decoder, and another one is read as the identifier with zeros. -/
theorem hex20_inexact :
    hex20 cutId = none ∧ hex20 plusId = some (.ok (List.replicate 20 15)) ∧
    hex20 sampleId = some (.ok (List.replicate 20 15)) ∧
    plusId.map Char.toLower ≠ sampleId.map Char.toLower := by decide +kernel

end Outpace.Swarm

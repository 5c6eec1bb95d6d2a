import Outpace.Data.CrcResponse
import Outpace.Data.Except
import Outpace.Media.TsPacket

/-!
# Table sections

`section` of `ace-media/src/audio.rs`: the checks that a table packet has to pass before its section
is used. A section is accepted if it is complete in one packet, with a pointer field of zero and
nothing but stuffing behind it.

A packet whose section was accepted is rejected after a change to any byte of the section
(`psiSection_set`). A change outside the length field leaves the extent of the section as it is, and
the checksum sees it. A change to the length moves the end of the section into the stuffing; that
the checksum sees this too is a computation over the lengths which fit a packet
(`lengthErrors_detected`).
-/

namespace Outpace.Media

inductive PsiError where
  | invalid
  | unsupported
  deriving DecidableEq

/-- Offset of the payload of a packet. -/
def payload (packet : List UInt8) : Option Nat :=
  if byteAt packet 3 &&& 0x30 = 0x10 then some 4
  else if byteAt packet 3 &&& 0x30 = 0x30 then
    if 5 + (byteAt packet 4).toNat < tsPacketLen then some (5 + (byteAt packet 4).toNat) else none
  else none

/-- The section of a table in one packet, `section` of the source. -/
def psiSection (packet : List UInt8) (id : UInt8) (min : Nat) (program : Option Nat) :
    Except PsiError (List UInt8) :=
  if byteAt packet 0 ≠ tsSync ∨ byteAt packet 1 &&& 0x80 ≠ 0 ∨ byteAt packet 3 &&& 0xc0 ≠ 0 then
    .error .invalid
  else
    match payload packet with
    | none => .error .invalid
    | some off =>
      if byteAt packet 1 &&& 0x40 = 0 then .error .unsupported
      else
        let start := off + 1 + (byteAt packet off).toNat
        if packet.length < start + 3 then .error .invalid
        else if byteAt packet start ≠ id ∨ byteAt packet (start + 1) &&& 0xf0 ≠ 0xb0 then
          .error .invalid
        else
          let len := lengthAt packet (start + 1)
          if len < min ∨ 1021 < len then .error .invalid
          -- another program's or a future table is not evidence of a change of ours
          else if packet.length ≤ start + 5 ∨ byteAt packet (start + 5) &&& 1 = 0 then
            .error .invalid
          else if program.any (· ≠ word packet (start + 3)) then .error .invalid
          else
            let stop := start + 3 + len
            if packet.length < stop then .error .unsupported
            else
              let s := (packet.take stop).drop start
              if byteAt s 5 &&& 1 = 0 ∨ mpegCrc32 s ≠ 0 then .error .invalid
              else if byteAt s 6 ≠ 0 ∨ byteAt s 7 ≠ 0 ∨ byteAt packet off ≠ 0 ∨
                  (packet.drop stop).any (· ≠ 0xff) then .error .unsupported
              else .ok s

/-- What makes the bytes behind the pointer field at `off` an accepted section. -/
structure IsSection (packet : List UInt8) (id : UInt8) (min : Nat) (program : Option Nat)
    (off : Nat) (s : List UInt8) : Prop where
  header : byteAt packet 0 = tsSync ∧ byteAt packet 1 &&& 0x80 = 0 ∧ byteAt packet 3 &&& 0xc0 = 0
  offset : payload packet = some off
  unitStart : byteAt packet 1 &&& 0x40 ≠ 0
  pointer : byteAt packet off = 0
  tableId : byteAt packet (off + 1) = id
  flags : byteAt packet (off + 2) &&& 0xf0 = 0xb0
  length : min ≤ lengthAt packet (off + 2) ∧ lengthAt packet (off + 2) ≤ 1021
  current : off + 6 < packet.length ∧ byteAt packet (off + 6) &&& 1 ≠ 0
  ours : program.any (· ≠ word packet (off + 4)) = false
  fits : off + 4 + lengthAt packet (off + 2) ≤ packet.length
  bytes : s = (packet.take (off + 4 + lengthAt packet (off + 2))).drop (off + 1)
  checked : byteAt s 5 &&& 1 ≠ 0 ∧ mpegCrc32 s = 0
  single : byteAt s 6 = 0 ∧ byteAt s 7 = 0
  stuffing : (packet.drop (off + 4 + lengthAt packet (off + 2))).any (· ≠ 0xff) = false

theorem psiSection_eq_ok {packet : List UInt8} {id : UInt8} {min : Nat} {program : Option Nat}
    {s : List UInt8} :
    psiSection packet id min program = .ok s ↔ ∃ off, IsSection packet id min program off s := by
  unfold psiSection
  rw [ite_error_eq_ok]
  cases hoff : payload packet with
  | none =>
    refine iff_of_false (fun h => (by cases h.2)) ?_
    rintro ⟨off, h⟩
    cases hoff.symm.trans h.offset
  | some off =>
    simp only [ite_error_eq_ok, not_or, not_not, Nat.not_lt, Nat.not_le, Bool.not_eq_true,
      Except.ok.injEq]
    constructor
    · rintro ⟨header, unitStart, -, htable, hlength, hcurrent, ours, fits, checked,
        ⟨single₆, single₇, pointer, stuffing⟩, bytes⟩
      have hzero : off + 1 + (byteAt packet off).toNat = off + 1 := by rw [pointer]; rfl
      simp only [hzero] at *
      subst bytes
      exact ⟨off, header, hoff, unitStart, pointer, htable.1, htable.2, hlength, hcurrent, ours,
        by omega, rfl, checked, ⟨single₆, single₇⟩, stuffing⟩
    · rintro ⟨off', h⟩
      obtain rfl : off' = off := Option.some.inj (h.offset.symm.trans hoff)
      have hzero : off' + 1 + (byteAt packet off').toNat = off' + 1 := by rw [h.pointer]; rfl
      obtain ⟨header, -, unitStart, pointer, tableId, flags, hlength, current, ours, fits, rfl,
        checked, single, stuffing⟩ := h
      simp only [hzero]
      exact ⟨header, unitStart, by omega, ⟨tableId, flags⟩, hlength, current, ours, by omega,
        checked, ⟨single.1, single.2, pointer, stuffing⟩, trivial⟩

/-! ### An error in the length

The end of the section moves from `len` to `len + k`, over `k` bytes of stuffing. -/

/-- A stuffing byte. -/
def stuffNat (crc : Nat) : Nat := crcZeroNat (crc ^^^ 0xff000000)

/-- The responses to the bits of a byte with `len` bytes behind it, for each length. -/
def bitResponses (len : Nat) : List Nat :=
  (List.range' 24 8).map fun j => crcZeroNat^[len + 1] (2 ^ j)

/-- Whether the length `len` cannot be mistaken for `len - k` and the following. -/
def rowDetected (bits : List Nat) (len : Nat) : (k : Nat) → (stuffing : List Nat) → Bool
  | _, [] => true
  | k, f :: stuffing =>
    bif Nat.ble len k then true
    else bif (combine bits ((len - k) ^^^ len)).beq f then false
    else rowDetected bits len (k + 1) stuffing

/-- The rows from `len` on. -/
def rowsDetected (stuffing : List Nat) : (fuel len : Nat) → (bits : List Nat) → Bool
  | 0, _, _ => true
  | fuel + 1, len, bits =>
    bif rowDetected bits len 1 stuffing then
      rowsDetected stuffing fuel (len + 1) (bits.map crcZeroNat)
    else false

theorem lengthErrors_detected :
    rowsDetected (List.iterate stuffNat (stuffNat 0) 180) 181 0 (bitResponses 0) = true := by
  decide +kernel

variable {i : Nat}

theorem rowDetected_spec {bits stuffing : List Nat} {len k : Nat}
    (h : rowDetected bits len k stuffing = true) (hi : i < stuffing.length) (hlen : k + i < len) :
    combine bits ((len - (k + i)) ^^^ len) ≠ stuffing[i] := by
  induction stuffing generalizing k i with
  | nil => cases hi
  | cons f stuffing ih =>
    have hk : Nat.ble len k = false :=
      Bool.eq_false_iff.mpr fun hle => absurd (Nat.le_of_ble_eq_true hle) (by omega)
    rw [rowDetected, hk, cond_false] at h
    cases hf : (combine bits ((len - k) ^^^ len)).beq f with
    | true => rw [hf] at h; cases h
    | false =>
      rw [hf, cond_false] at h
      cases i with
      | zero => exact Nat.ne_of_beq_eq_false hf
      | succ i =>
        have := ih h (i := i) (by simpa using hi) (by omega)
        rwa [Nat.add_assoc, Nat.add_comm 1] at this

theorem rowsDetected_spec {stuffing : List Nat} {fuel len : Nat}
    (h : rowsDetected stuffing fuel len (bitResponses len) = true) (hi : i < fuel) :
    rowDetected (bitResponses (len + i)) (len + i) 1 stuffing = true := by
  induction fuel generalizing len i with
  | zero => cases hi
  | succ fuel ih =>
    rw [rowsDetected] at h
    cases hrow : rowDetected (bitResponses len) len 1 stuffing with
    | false => rw [hrow] at h; cases h
    | true =>
      have hnext : (bitResponses len).map crcZeroNat = bitResponses (len + 1) := by
        simp only [bitResponses, List.map_map, Function.comp_def, ← Function.iterate_succ_apply']
      rw [hrow, cond_true, hnext] at h
      cases i with
      | zero => exact hrow
      | succ i =>
        have := ih h (Nat.lt_of_succ_lt_succ hi)
        rwa [Nat.add_assoc, Nat.add_comm 1] at this

theorem toNat_crcByte_stuff (x : UInt32) : (crcByte x 0xff).toNat = stuffNat x.toNat := by
  rw [crcByte_eq, toNat_crcByte_zero, UInt32.toNat_xor]
  rfl

theorem toNat_foldl_stuff (k : Nat) (x : UInt32) :
    ((List.replicate k 0xff).foldl crcByte x).toNat = stuffNat^[k] x.toNat := by
  induction k with
  | zero => rfl
  | succ k ih =>
    rw [List.replicate_succ', List.foldl_append, Function.iterate_succ_apply', ← ih]
    exact toNat_crcByte_stuff _

/-- The response to a difference in a byte with `len` bytes behind it. -/
theorem toNat_response (len : Nat) (d : UInt8) :
    (crcZeros len (crcByte 0 d)).toNat = combine (bitResponses len) d.toNat := by
  have hd := d.toNat_lt
  have hbits := combine_bits (crcZeros_xor (1 + len)) (t := 8) (s := 24) hd (by decide)
  rw [crcByte_eq, UInt32.zero_xor, ← crcZeros_one, ← crcZeros_add, hbits]
  refine congrArg (combine · _) (List.map_congr_left fun j hj => ?_)
  rw [toNat_crcZeros, UInt32.toNat_ofNat', Nat.mod_eq_of_lt, Nat.add_comm]
  exact Nat.pow_lt_pow_right (by decide) (by simpa using (List.mem_range'_1.mp hj).2)

/-- A section of which the length is read as another, larger one, and which then ends in the
stuffing, has another checksum than zero. -/
theorem lengthError_ne_zero {len k : Nat} (hlen : 0 < len) (hk : 0 < k) (h : len + k ≤ 180) :
    (List.replicate k 0xff).foldl crcByte
      (crcZeros len (crcByte 0 (.ofNat len ^^^ .ofNat (len + k)))) ≠ 0 := by
  intro hzero
  have hstuff := foldl_crcByte_same (List.replicate k 0xff)
    (crcZeros len (crcByte 0 (.ofNat len ^^^ .ofNat (len + k)))) 0
  rw [hzero, UInt32.zero_xor, UInt32.xor_zero, List.length_replicate, ← crcZeros_add,
    ← UInt32.toNat_inj, toNat_foldl_stuff, toNat_response] at hstuff
  have hdelta : (UInt8.ofNat len ^^^ UInt8.ofNat (len + k)).toNat = len ^^^ (len + k) := by
    rw [UInt8.toNat_xor, UInt8.toNat_ofNat', UInt8.toNat_ofNat', Nat.mod_eq_of_lt (by omega),
      Nat.mod_eq_of_lt (by omega)]
  have hrow := rowsDetected_spec lengthErrors_detected (i := len + k) (by omega)
  rw [Nat.zero_add] at hrow
  refine rowDetected_spec hrow (i := k - 1) (by rw [List.length_iterate]; omega) (by omega) ?_
  rw [hdelta] at hstuff
  rw [List.getElem_iterate, ← Function.iterate_succ_apply, show 1 + (k - 1) = k by omega,
    show len + k - k = len by omega, ← hstuff, show (k - 1).succ = k by omega]
  rfl

/-! ### A changed byte -/

theorem four_le_payload {packet : List UInt8} {off : Nat} (h : payload packet = some off) :
    4 ≤ off ∧ (byteAt packet 3 &&& 0x30 ≠ 0x10 → 5 ≤ off) := by
  unfold payload at h
  split at h
  · next hafc => cases h; exact ⟨Nat.le_refl 4, fun hne => absurd hafc hne⟩
  · split at h
    · split at h
      · cases h; exact ⟨by omega, fun _ => by omega⟩
      · cases h
    · cases h

/-- The offset of the payload does not depend on what is behind it. -/
theorem payload_set {packet : List UInt8} {off i : Nat} (h : payload packet = some off)
    (hi : off < i) (b : UInt8) : payload (packet.set i b) = some off := by
  obtain ⟨hfour, hfive⟩ := four_le_payload h
  rw [← h, payload, payload, byteAt_set_of_ne _ (by omega)]
  split
  · rfl
  · next hafc =>
    have := hfive hafc
    rw [byteAt_set_of_ne _ (by omega)]

namespace IsSection

variable {packet : List UInt8} {id : UInt8} {min : Nat} {program : Option Nat} {off : Nat}
  {s : List UInt8}

theorem length_eq (h : IsSection packet id min program off s) :
    s.length = 3 + lengthAt packet (off + 2) := by
  have := h.fits
  rw [h.bytes, List.length_drop, List.length_take]
  omega

/-- In a packet, the length takes up one byte only. -/
theorem high_eq (h : IsSection packet id min program off s) (hlen : packet.length = tsPacketLen) :
    byteAt packet (off + 2) = 0xb0 ∧ lengthAt packet (off + 2) = (byteAt packet (off + 3)).toNat ∧
      lengthAt packet (off + 2) ≤ 180 := by
  have hfits := h.fits
  have hbound : tsPacketLen = 188 := rfl
  have hoff := (four_le_payload h.offset).1
  have hhigh : (byteAt packet (off + 2) &&& 0x0F).toNat = 0 := by
    unfold lengthAt at hfits
    omega
  have hbyte : ∀ x : UInt8, (x &&& 0x0F).toNat = 0 → x &&& 0xf0 = 0xb0 → x = 0xb0 :=
    forall_byte (by decide +kernel)
  refine ⟨hbyte _ hhigh h.flags, ?_, by omega⟩
  rw [lengthAt, hhigh, Nat.zero_mul, Nat.zero_add]

variable {b : UInt8} {s' : List UInt8}

/-- The section after a change that leaves its extent. -/
theorem bytes_set (h : IsSection packet id min program off s) (hi : off < i)
    (h' : IsSection (packet.set i b) id min program off s')
    (hlen : lengthAt (packet.set i b) (off + 2) = lengthAt packet (off + 2)) :
    s' = s.set (i - (off + 1)) b := by
  rw [h'.bytes, h.bytes, hlen, List.take_set, List.drop_set, if_neg (by omega)]

/-- The section after a change that makes it longer ends in the stuffing. -/
theorem bytes_longer (h : IsSection packet id min program off s)
    (h' : IsSection (packet.set (off + 3) b) id min program off s') {k : Nat}
    (hlen : lengthAt (packet.set (off + 3) b) (off + 2) = lengthAt packet (off + 2) + k) :
    s' = s.set 2 b ++ List.replicate k 0xff := by
  have hfits := h'.fits
  rw [hlen, List.length_set] at hfits
  generalize hstop : off + 4 + lengthAt packet (off + 2) = stop at *
  have hstuff : (packet.drop stop).take k = List.replicate k 0xff := by
    have hany := h.stuffing
    rw [hstop, List.any_eq_false] at hany
    refine List.eq_replicate_iff.mpr ⟨?_, fun x hx => ?_⟩
    · rw [List.length_take, List.length_drop]
      omega
    · simpa using hany x (List.mem_of_mem_take hx)
  have hsplit : packet.take (stop + k) = packet.take stop ++ List.replicate k 0xff := by
    rw [List.take_add, hstuff]
  have hset : (packet.take stop).length = stop := by
    rw [List.length_take]
    omega
  rw [h'.bytes, h.bytes, hlen, hstop, show off + 4 + (lengthAt packet (off + 2) + k) = stop + k by
    omega, List.take_set, hsplit, List.set_append_left _ _ (by omega),
    List.drop_append_of_le_length (by rw [List.length_set]; omega), List.drop_set,
    if_neg (by omega), show off + 3 - (off + 1) = 2 by omega]

end IsSection

theorem set_eq_split {s : List UInt8} (hi : i < s.length) (b : UInt8) :
    s.set i b = s.take i ++ b :: s.drop (i + 1) := by
  rw [List.set_eq_take_append_cons_drop, if_pos hi]

theorem eq_split {s : List UInt8} (hi : i < s.length) :
    s = s.take i ++ byteAt s i :: s.drop (i + 1) := by
  rw [← set_eq_split hi, byteAt, List.getD_eq_getElem _ _ hi, List.set_getElem_self]

/-- The checksum sees a change to a byte. -/
theorem mpegCrc32_set_ne {s : List UInt8} (hi : i < s.length) (hb : b ≠ byteAt s i) :
    mpegCrc32 (s.set i b) ≠ mpegCrc32 s := by
  have hne := mpegCrc32_ne_of_byte hb (s.take i) (s.drop (i + 1))
  rwa [← set_eq_split hi, ← eq_split hi] at hne

namespace IsSection

variable {packet : List UInt8} {id : UInt8} {min : Nat} {program : Option Nat} {off : Nat}
  {s : List UInt8}

theorem byteAt_eq (h : IsSection packet id min program off s) (hi : i < s.length) :
    byteAt s i = byteAt packet (off + 1 + i) := by
  have hlen := h.length_eq
  unfold byteAt
  rw [List.getD_eq_getElem?_getD, List.getD_eq_getElem?_getD, h.bytes, List.getElem?_drop,
    List.getElem?_take_of_lt (by omega)]

/-- The length is not read as a larger one. -/
theorem not_longer (h : IsSection packet id min program off s)
    (hpacket : packet.length = tsPacketLen)
    (h' : IsSection (packet.set (off + 3) b) id min program off s') (hmin : 0 < min) {k : Nat}
    (hk : 0 < k)
    (hlen : lengthAt (packet.set (off + 3) b) (off + 2) = lengthAt packet (off + 2) + k) :
    False := by
  obtain ⟨-, hlow, hmax⟩ := h.high_eq hpacket
  obtain ⟨-, hlow', hmax'⟩ := h'.high_eq (by rw [List.length_set, hpacket])
  have hs := h.length_eq
  have hpos := h.length.1
  have hfits := h.fits
  have hbytes := h.bytes_longer h' hlen
  rw [byteAt_set (by omega), if_pos rfl] at hlow'
  generalize lengthAt packet (off + 2) = len at *
  rw [hlen] at hlow' hmax'
  have ha : byteAt s 2 = .ofNat len := by
    rw [h.byteAt_eq (by omega), hlow, UInt8.ofNat_toNat]
  have hb : b = .ofNat (len + k) := by rw [hlow', UInt8.ofNat_toNat]
  have hdelta := mpegCrc32_xor_byte (s.take 2) (s.drop 3) (byteAt s 2) b
  rw [← eq_split (by omega), ← set_eq_split (by omega), h.checked.2, UInt32.zero_xor,
    List.length_drop, hs, Nat.add_sub_cancel_left, ha, hb] at hdelta
  have hzero := h'.checked.2
  rw [hbytes, mpegCrc32, List.foldl_append] at hzero
  change (List.replicate k 0xff).foldl crcByte (mpegCrc32 (s.set 2 b)) = 0 at hzero
  rw [hb, hdelta] at hzero
  exact lengthError_ne_zero (by omega) hk hmax' hzero

/-- No byte of an accepted section can be changed so that the section is accepted again. -/
theorem not_set (h : IsSection packet id min program off s) (hpacket : packet.length = tsPacketLen)
    (hmin : 0 < min) (hi : off < i) (hs : i < off + 1 + s.length) (hb : b ≠ byteAt packet i)
    {off' : Nat} (h' : IsSection (packet.set i b) id min program off' s') : False := by
  obtain rfl : off' = off := Option.some.inj (h'.offset.symm.trans (payload_set h.offset hi b))
  have hfits := h.fits
  have hlength := h.length_eq
  have hbound : i < packet.length := by omega
  obtain ⟨hhigh, hlow, -⟩ := h.high_eq hpacket
  obtain ⟨hhigh', hlow', -⟩ := h'.high_eq (by rw [List.length_set, hpacket])
  rw [byteAt_set hbound] at hhigh' hlow'
  have hne : i ≠ off' + 2 := by
    rintro rfl
    rw [if_pos rfl] at hhigh'
    exact hb (hhigh'.trans hhigh.symm)
  by_cases hthree : i = off' + 3
  · -- the length itself
    subst hthree
    rw [if_pos rfl] at hlow'
    rcases Nat.lt_trichotomy (lengthAt packet (off' + 2))
      (lengthAt (packet.set (off' + 3) b) (off' + 2)) with hlt | heq | hlt
    · exact h.not_longer hpacket h' hmin (k := _ - _) (Nat.sub_pos_of_lt hlt) (by omega)
    · exact hb (UInt8.toNat_inj.mp (by omega))
    · have hself := set_byteAt hbound b
      have hback : IsSection ((packet.set (off' + 3) b).set (off' + 3) (byteAt packet (off' + 3)))
          id min program off' s := by rwa [hself]
      refine h'.not_longer (by rw [List.length_set, hpacket]) hback hmin (Nat.sub_pos_of_lt hlt) ?_
      rw [hself]
      omega
  · rw [if_neg hthree, ← hlow] at hlow'
    have hbytes := h.bytes_set hi h' hlow'
    refine mpegCrc32_set_ne (s := s) (i := i - (off' + 1)) (b := b) (by omega) ?_ ?_
    · rwa [h.byteAt_eq (by omega), Nat.add_sub_cancel' (by omega)]
    · rw [← hbytes, h'.checked.2, h.checked.2]

end IsSection

/-- A packet with an accepted section is rejected after a change to a byte of the section, which is
behind the pointer field. -/
theorem psiSection_set {packet : List UInt8} (hpacket : packet.length = tsPacketLen) {id : UInt8}
    {min : Nat} (hmin : 0 < min) {program : Option Nat} {s : List UInt8}
    (h : psiSection packet id min program = .ok s) {off i : Nat} (hoff : payload packet = some off)
    (hi : off < i) (hs : i < off + 1 + s.length) (hb : b ≠ byteAt packet i) (s' : List UInt8) :
    psiSection (packet.set i b) id min program ≠ .ok s' := by
  intro hset
  obtain ⟨off', h⟩ := psiSection_eq_ok.mp h
  obtain ⟨_, h'⟩ := psiSection_eq_ok.mp hset
  obtain rfl : off' = off := Option.some.inj (h.offset.symm.trans hoff)
  exact h.not_set hpacket hmin hi hs hb h'

end Outpace.Media

import Mathlib.Data.List.Range
import Outpace.Data.BigEndian
import Outpace.Wire.Message

/-!
# Live availability messages

`live_have` and `live_bitfield` of `ace-wire/src/live_codec.rs`, and the pieces a peer reads from
them by the layout given there: a stream word, the first piece and, in a bitfield, the number of
bits and the bits themselves, the most significant one first.
-/

namespace Outpace.Wire

/-- `live_have`: the message with the id 4. -/
def liveHave (piece : UInt32) : PeerMessage := .unknown 4 ([0, 0, 0, 0] ++ be32 piece)

def bitMask (bit : Nat) : UInt8 := 0x80 >>> UInt8.ofNat (bit % 8)

/-- One turn of the loop that sets the bits. -/
def setBit (bits : Bytes) (bit : Nat) : Bytes := bits.modify (bit / 8) (· ||| bitMask bit)

/-- `live_bitfield`: the first `bitCount` bits are set. -/
def liveBitfield (firstPiece bitCount : UInt32) : PeerMessage :=
  let bits := (List.range bitCount.toNat).foldl setBit
    (List.replicate ((bitCount.toNat + 7) / 8) 0)
  .bitfield ([0, 0, 0, 0] ++ be32 firstPiece ++ be32 bitCount ++ bits)

def hasBit (bits : Bytes) (bit : Nat) : Bool := bits[bit / 8]?.any (· &&& bitMask bit != 0)

/-- The pieces that a message announces to the peer. -/
def announces : PeerMessage → List Nat
  | .unknown 4 [_, _, _, _, a, b, c, d] => [(ofBe32 a b c d).toNat]
  | .bitfield (_ :: _ :: _ :: _ :: a :: b :: c :: d :: e :: f :: g :: h :: bits) =>
    ((List.range (ofBe32 e f g h).toNat).filter (hasBit bits)).map ((ofBe32 a b c d).toNat + ·)
  | _ => []

theorem announces_liveHave (piece : UInt32) : announces (liveHave piece) = [piece.toNat] := by
  show [(ofBe32 _ _ _ _).toNat] = _
  rw [ofBe32_be32]

theorem bitMask_and (i j : Nat) : (bitMask i &&& bitMask j != 0) = decide (i % 8 = j % 8) := by
  have hall : ∀ a < 8, ∀ b < 8,
      ((0x80 >>> UInt8.ofNat a) &&& (0x80 >>> UInt8.ofNat b) != 0) = decide (a = b) := by decide
  exact hall _ (Nat.mod_lt i (by decide)) _ (Nat.mod_lt j (by decide))

theorem or_ne_zero (x y : UInt8) : (x ||| y != 0) = ((x != 0) || (y != 0)) := by
  rw [Bool.eq_iff_iff]
  simp only [bne_iff_ne, ne_eq, Bool.or_eq_true, UInt8.or_eq_zero_iff, not_and_or]

theorem or_and_mask (x y mask : UInt8) : (x ||| y) &&& mask = (x &&& mask) ||| (y &&& mask) := by
  refine UInt8.toBitVec_inj.mp (BitVec.eq_of_getElem_eq fun i hi => ?_)
  simp only [UInt8.toBitVec_and, UInt8.toBitVec_or, BitVec.getElem_and, BitVec.getElem_or]
  exact Bool.and_or_distrib_right ..

theorem hasBit_setBit (bits : Bytes) (bit i : Nat) :
    hasBit (setBit bits bit) i = (hasBit bits i || decide (i = bit ∧ bit / 8 < bits.length)) := by
  unfold hasBit setBit
  rw [List.getElem?_modify]
  by_cases hbyte : bit / 8 = i / 8
  · simp only [if_pos hbyte]
    cases hget : bits[i / 8]? with
    | none =>
      have hlen := List.getElem?_eq_none_iff.mp hget
      have hfalse : decide (i = bit ∧ bit / 8 < bits.length) = false := decide_eq_false (by omega)
      rw [hfalse]
      rfl
    | some b =>
      obtain ⟨hlen, -⟩ := List.getElem?_eq_some_iff.mp hget
      have hiff : decide (i = bit ∧ bit / 8 < bits.length) = decide (bit % 8 = i % 8) := by
        rw [decide_eq_decide]
        omega
      simp only [Option.map_eq_map, Option.map_some, Option.any_some]
      rw [hiff, ← bitMask_and, or_and_mask, or_ne_zero]
  · simp only [if_neg hbyte]
    have hfalse : decide (i = bit ∧ bit / 8 < bits.length) = false := decide_eq_false (by
      rintro ⟨rfl, -⟩
      exact hbyte rfl)
    rw [hfalse, Bool.or_false]
    cases bits[i / 8]? <;> rfl

theorem length_setBit (bits : Bytes) (bit : Nat) : (setBit bits bit).length = bits.length :=
  List.length_modify ..

theorem hasBit_foldl_setBit (bits : Bytes) (n i : Nat) :
    ((List.range n).foldl setBit bits).length = bits.length ∧
      hasBit ((List.range n).foldl setBit bits) i =
        (hasBit bits i || decide (i < n ∧ i / 8 < bits.length)) := by
  induction n with
  | zero => simp
  | succ n ih =>
    obtain ⟨hlen, hbit⟩ := ih
    rw [List.range_succ, List.foldl_append, List.foldl_cons, List.foldl_nil, length_setBit,
      hasBit_setBit, hbit, hlen, Bool.or_assoc]
    refine ⟨rfl, congrArg _ ?_⟩
    rw [← Bool.decide_or, decide_eq_decide]
    constructor
    · rintro (h | ⟨rfl, h⟩)
      · exact ⟨Nat.lt_succ_of_lt h.1, h.2⟩
      · exact ⟨Nat.lt_succ_self _, h⟩
    · rintro ⟨h, hbyte⟩
      rcases Nat.lt_succ_iff_lt_or_eq.mp h with h | rfl
      · exact .inl ⟨h, hbyte⟩
      · exact .inr ⟨rfl, hbyte⟩

/-- A bitfield announces as many pieces as it has bits, from its first piece on. -/
theorem announces_liveBitfield (firstPiece bitCount : UInt32) :
    announces (liveBitfield firstPiece bitCount) =
      (List.range bitCount.toNat).map (firstPiece.toNat + ·) := by
  show ((List.range (ofBe32 _ _ _ _).toNat).filter (hasBit _)).map ((ofBe32 _ _ _ _).toNat + ·) = _
  rw [ofBe32_be32, ofBe32_be32, List.filter_eq_self.mpr fun i hi => ?_]
  obtain ⟨-, hbit⟩ := hasBit_foldl_setBit
    (List.replicate ((bitCount.toNat + 7) / 8) 0) bitCount.toNat i
  have hi := List.mem_range.mp hi
  rw [List.append_eq, List.nil_append, hbit, Bool.or_eq_true]
  refine .inr (decide_eq_true ⟨hi, ?_⟩)
  rw [List.length_replicate]
  omega

end Outpace.Wire

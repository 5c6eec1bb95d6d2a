import Outpace.Data.BigEndian
import Outpace.Wire.Reassembly

/-!
# Peer message framing

`PeerMessage` of `ace-wire/src/message.rs`: a frame is a 32-bit length and a body of an id and a
payload. A body is decoded to its typed message when the payload has the shape of that id, and kept
as `unknown` otherwise, so decoding a body loses nothing (`encodeBody_decodeBody`).
-/

namespace Outpace.Wire

/-- The largest accepted body, 2 MiB. -/
def maxFrameLen : Nat := 2 * 1024 * 1024

inductive PeerMessage where
  | keepAlive
  | choke
  | unchoke
  | interested
  | notInterested
  | have (index : UInt32)
  | bitfield (bytes : Bytes)
  | request (index begin length : UInt32)
  | piece (index begin : UInt32) (block : Bytes)
  | cancel (index begin length : UInt32)
  | extended (extId : UInt8) (payload : Bytes)
  | unknown (id : UInt8) (payload : Bytes)
  deriving DecidableEq, Repr

namespace PeerMessage

def bodyLen : PeerMessage → Nat
  | .keepAlive => 0
  | .choke | .unchoke | .interested | .notInterested => 1
  | .have _ => 5
  | .bitfield bytes => 1 + bytes.length
  | .request .. | .cancel .. => 13
  | .piece _ _ block => 9 + block.length
  | .extended _ payload => 2 + payload.length
  | .unknown _ payload => 1 + payload.length

def encodeBody : PeerMessage → Bytes
  | .keepAlive => []
  | .choke => [0]
  | .unchoke => [1]
  | .interested => [2]
  | .notInterested => [3]
  | .have i => 4 :: be32 i
  | .bitfield b => 5 :: b
  | .request index begin length => 6 :: (be32 index ++ be32 begin ++ be32 length)
  | .piece index begin block => 7 :: (be32 index ++ be32 begin ++ block)
  | .cancel index begin length => 8 :: (be32 index ++ be32 begin ++ be32 length)
  | .extended extId payload => 20 :: extId :: payload
  | .unknown id payload => id :: payload

/-- The length field is `body_len as u32`. -/
def encode (m : PeerMessage) : Bytes := be32 (UInt32.ofNat m.bodyLen) ++ m.encodeBody

/-- `be32` of the source, at an offset. -/
def readBe32 (p : Bytes) (off : Nat) : Except WireError UInt32 :=
  match (p.drop off).take 4 with
  | [a, b, c, d] => .ok (ofBe32 a b c d)
  | _ => .error (.invalid "short u32")

/-- The typed message of a body, if its payload has the shape for the id. -/
def typed (id : UInt8) (p : Bytes) : Except WireError (Option PeerMessage) :=
  if id = 0 ∧ p = [] then .ok (some .choke)
  else if id = 1 ∧ p = [] then .ok (some .unchoke)
  else if id = 2 ∧ p = [] then .ok (some .interested)
  else if id = 3 ∧ p = [] then .ok (some .notInterested)
  else if id = 4 ∧ p.length = 4 then do return some (.have (← readBe32 p 0))
  else if id = 5 then .ok (some (.bitfield p))
  else if id = 6 ∧ p.length = 12 then do
    return some (.request (← readBe32 p 0) (← readBe32 p 4) (← readBe32 p 8))
  else if id = 7 ∧ 8 ≤ p.length then do
    return some (.piece (← readBe32 p 0) (← readBe32 p 4) (p.drop 8))
  else if id = 8 ∧ p.length = 12 then do
    return some (.cancel (← readBe32 p 0) (← readBe32 p 4) (← readBe32 p 8))
  else match id, p with
    | 20, extId :: payload => .ok (some (.extended extId payload))
    | _, _ => .ok none

def decodeBody : Bytes → Except WireError PeerMessage
  | [] => .ok .keepAlive
  | id :: p => do return (← typed id p).getD (.unknown id p)

/-- Decode one frame from the front of `buf`; `none` asks for more bytes. -/
def decode : Bytes → Except WireError (Option (PeerMessage × Nat))
  | a :: b :: c :: d :: rest =>
    let len := (ofBe32 a b c d).toNat
    if maxFrameLen < len then .error (.invalid "frame too large")
    else if rest.length < len then .ok none
    else do return some (← decodeBody (rest.take len), 4 + len)
  | _ => .ok none

/-! ### Bodies -/

theorem length_encodeBody (m : PeerMessage) : m.encodeBody.length = m.bodyLen := by
  cases m <;> simp [encodeBody, bodyLen, length_be32] <;> omega

theorem readBe32_append {p q : Bytes} {off : Nat} {x : UInt32} (h : p.drop off = be32 x ++ q) :
    readBe32 p off = .ok x := by
  have htake : (p.drop off).take 4 = be32 x := by rw [h, List.take_left' (length_be32 x)]
  rw [readBe32, htake]
  exact congrArg Except.ok (ofBe32_be32 x)

/-- A word is read wherever four bytes are left. -/
theorem exists_be32_of_length (p : Bytes) (off : Nat) (h : off + 4 ≤ p.length) :
    ∃ x, p.drop off = be32 x ++ p.drop (off + 4) := by
  obtain ⟨a, b, c, d, rest, hd⟩ : ∃ a b c d rest, p.drop off = a :: b :: c :: d :: rest := by
    rcases hd : p.drop off with _ | ⟨a, _ | ⟨b, _ | ⟨c, _ | ⟨d, rest⟩⟩⟩⟩
    all_goals
      have hlen := congrArg List.length hd
      simp only [List.length_drop, List.length_cons, List.length_nil] at hlen
    · omega
    · omega
    · omega
    · omega
    · exact ⟨a, b, c, d, rest, rfl⟩
  refine ⟨ofBe32 a b c d, ?_⟩
  rw [be32_ofBe32, ← List.drop_drop, hd]
  rfl

/-- An id and a payload of the shape of a typed message. -/
def typedShape (id : UInt8) (p : Bytes) : Bool :=
  (id < 4 && p.isEmpty) || (id == 4 && p.length == 4) || id == 5 || (id == 6 && p.length == 12) ||
    (id == 7 && 8 ≤ p.length) || (id == 8 && p.length == 12) || (id == 20 && !p.isEmpty)

/-- The messages that `decode` produces: an `unknown` never has the shape of a typed message. -/
def canonical : PeerMessage → Bool
  | .unknown id p => !typedShape id p
  | _ => true

section Typed
variable {p : Bytes} {index begin length : UInt32}

theorem typed_have (hp : p.length = 4) (h₀ : readBe32 p 0 = .ok index) :
    typed 4 p = .ok (some (.have index)) := by
  simp [typed, hp, h₀]

theorem typed_piece (hp : 8 ≤ p.length) (h₀ : readBe32 p 0 = .ok index)
    (h₄ : readBe32 p 4 = .ok begin) :
    typed 7 p = .ok (some (.piece index begin (p.drop 8))) := by
  simp only [typed, hp, h₀, h₄]
  rfl

theorem readBe32_words {q : Bytes} (hp : p = be32 index ++ be32 begin ++ q) :
    readBe32 p 0 = .ok index ∧ readBe32 p 4 = .ok begin ∧ p.drop 8 = q := by
  subst hp
  refine ⟨readBe32_append (q := be32 begin ++ q) (by simp), ?_, ?_⟩
  · exact readBe32_append (q := q) (by rw [List.append_assoc, List.drop_left' (length_be32 index)])
  · exact List.drop_left' (by simp [length_be32])

theorem readBe32_three (hp : p = be32 index ++ be32 begin ++ be32 length) :
    p.length = 12 ∧ readBe32 p 0 = .ok index ∧ readBe32 p 4 = .ok begin ∧
      readBe32 p 8 = .ok length := by
  obtain ⟨h₀, h₄, h₈⟩ := readBe32_words hp
  refine ⟨by simp [hp, length_be32], h₀, h₄, readBe32_append (q := []) ?_⟩
  rw [h₈, List.append_nil]

theorem typed_request (hp : p = be32 index ++ be32 begin ++ be32 length) :
    typed 6 p = .ok (some (.request index begin length)) := by
  obtain ⟨hlen, h₀, h₄, h₈⟩ := readBe32_three hp
  simp only [typed, hlen, h₀, h₄, h₈]
  rfl

theorem typed_cancel (hp : p = be32 index ++ be32 begin ++ be32 length) :
    typed 8 p = .ok (some (.cancel index begin length)) := by
  obtain ⟨hlen, h₀, h₄, h₈⟩ := readBe32_three hp
  simp only [typed, hlen, h₀, h₄, h₈]
  rfl

/-- A payload of twelve bytes is three words. -/
theorem exists_words (hp : p.length = 12) :
    ∃ index begin length, p = be32 index ++ be32 begin ++ be32 length := by
  obtain ⟨x, hx⟩ := exists_be32_of_length p 0 (by omega)
  obtain ⟨y, hy⟩ := exists_be32_of_length p 4 (by omega)
  obtain ⟨z, hz⟩ := exists_be32_of_length p 8 (by omega)
  have hend : p.drop 12 = [] := List.drop_eq_nil_of_le (by omega)
  refine ⟨x, y, z, ?_⟩
  rw [List.drop_zero] at hx
  rw [hx, hy, hz, hend]
  simp

end Typed

/-- A payload of the shape of its id gives a message with that body. -/
theorem typed_of_shape {id : UInt8} {p : Bytes} (h : typedShape id p = true) :
    ∃ m, typed id p = .ok (some m) ∧ m.encodeBody = id :: p := by
  simp only [typedShape, Bool.or_eq_true, Bool.and_eq_true, beq_iff_eq, decide_eq_true_eq,
    List.isEmpty_iff, Bool.not_eq_true', List.isEmpty_eq_false_iff] at h
  rcases h with (((((⟨hid, rfl⟩ | ⟨rfl, hp⟩) | rfl) | ⟨rfl, hp⟩) | ⟨rfl, hp⟩) | ⟨rfl, hp⟩) |
    ⟨rfl, hp⟩
  · have hid : id = 0 ∨ id = 1 ∨ id = 2 ∨ id = 3 := by
      have := UInt8.lt_iff_toNat_lt.mp hid
      simp only [← UInt8.toNat_inj]
      simp only [UInt8.reduceToNat] at *
      omega
    rcases hid with rfl | rfl | rfl | rfl
    · exact ⟨.choke, rfl, rfl⟩
    · exact ⟨.unchoke, rfl, rfl⟩
    · exact ⟨.interested, rfl, rfl⟩
    · exact ⟨.notInterested, rfl, rfl⟩
  · obtain ⟨x, hx⟩ := exists_be32_of_length p 0 (by omega)
    refine ⟨.have x, typed_have hp (readBe32_append hx), ?_⟩
    rw [List.drop_zero, List.drop_eq_nil_of_le (by omega), List.append_nil] at hx
    rw [hx, encodeBody]
  · exact ⟨.bitfield p, rfl, rfl⟩
  · obtain ⟨index, begin, length, rfl⟩ := exists_words hp
    exact ⟨.request index begin length, typed_request rfl, rfl⟩
  · obtain ⟨x, hx⟩ := exists_be32_of_length p 0 (by omega)
    obtain ⟨y, hy⟩ := exists_be32_of_length p 4 (by omega)
    rw [List.drop_zero] at hx
    have hwords : p = be32 x ++ be32 y ++ p.drop 8 := by
      rw [List.append_assoc, ← hy]
      exact hx
    obtain ⟨h₀, h₄, -⟩ := readBe32_words hwords
    refine ⟨.piece x y (p.drop 8), typed_piece hp h₀ h₄, ?_⟩
    rw [encodeBody, ← hwords]
  · obtain ⟨index, begin, length, rfl⟩ := exists_words hp
    exact ⟨.cancel index begin length, typed_cancel rfl, rfl⟩
  · obtain ⟨extId, payload, rfl⟩ := List.exists_cons_of_ne_nil hp
    exact ⟨.extended extId payload, rfl, rfl⟩

theorem typed_of_not_shape {id : UInt8} {p : Bytes} (h : typedShape id p = false) :
    typed id p = .ok none := by
  have hne : ∀ {id' : UInt8} {p' : Bytes}, typedShape id' p' = true → ¬(id = id' ∧ p = p') := by
    rintro id' p' hs ⟨rfl, rfl⟩
    rw [hs] at h
    cases h
  unfold typed
  rw [if_neg (hne rfl), if_neg (hne rfl), if_neg (hne rfl), if_neg (hne rfl)]
  have hid : ∀ {id' : UInt8} {P : Prop}, (P → typedShape id' p = true) → ¬(id = id' ∧ P) := by
    rintro id' P hs ⟨rfl, hP⟩
    rw [hs hP] at h
    cases h
  rw [if_neg (hid fun hp => by simp [typedShape, hp]), if_neg fun h5 => hid (P := True)
      (fun _ => by simp [typedShape]) ⟨h5, trivial⟩,
    if_neg (hid fun hp => by simp [typedShape, hp]), if_neg (hid fun hp => by simp [typedShape, hp]),
    if_neg (hid fun hp => by simp [typedShape, hp])]
  split
  · simp [typedShape] at h
  · rfl

/-- Decoding a body always succeeds and loses nothing. -/
theorem encodeBody_decodeBody (body : Bytes) :
    ∃ m, decodeBody body = .ok m ∧ m.encodeBody = body := by
  cases body with
  | nil => exact ⟨.keepAlive, rfl, rfl⟩
  | cons id p =>
    cases hs : typedShape id p with
    | true =>
      obtain ⟨m, hm, hbody⟩ := typed_of_shape hs
      exact ⟨m, by simp only [decodeBody, hm]; rfl, hbody⟩
    | false => exact ⟨.unknown id p, by simp only [decodeBody, typed_of_not_shape hs]; rfl, rfl⟩

variable {m : PeerMessage}

/-- A message that `decode` can produce is decoded from its body. -/
theorem decodeBody_encodeBody (hm : m.canonical = true) : decodeBody m.encodeBody = .ok m := by
  have of_typed : ∀ {id p m}, typed id p = .ok (some m) → decodeBody (id :: p) = .ok m := by
    intro id p m h
    simp only [decodeBody, h]
    rfl
  cases m with
  | keepAlive => rfl
  | choke => rfl
  | unchoke => rfl
  | interested => rfl
  | notInterested => rfl
  | «have» index =>
    exact of_typed (typed_have (length_be32 index) (readBe32_append (q := []) (by simp)))
  | bitfield b => rfl
  | request index begin length => exact of_typed (typed_request rfl)
  | piece index begin block =>
    obtain ⟨h₀, h₄, h₈⟩ := readBe32_words (p := be32 index ++ be32 begin ++ block) rfl
    have h := of_typed (typed_piece (by simp [length_be32]; omega) h₀ h₄)
    rwa [h₈] at h
  | cancel index begin length => exact of_typed (typed_cancel rfl)
  | extended extId payload => rfl
  | unknown id p =>
    have hs : typedShape id p = false := by simpa [canonical] using hm
    simp only [encodeBody, decodeBody, typed_of_not_shape hs]
    rfl

/-! ### Frames -/

/-- The length field of a buffer, if it is there. -/
def lengthField : Bytes → Option Nat
  | a :: b :: c :: d :: _ => some (ofBe32 a b c d).toNat
  | _ => none

variable {buf : Bytes} {len : Nat}

theorem lengthField_eq_some (h : lengthField buf = some len) :
    ∃ a b c d rest, buf = a :: b :: c :: d :: rest ∧ (ofBe32 a b c d).toNat = len := by
  unfold lengthField at h
  split at h
  · next a b c d rest => exact ⟨a, b, c, d, rest, rfl, Option.some.inj h⟩
  · cases h

theorem lengthField_append (h : lengthField buf = some len) (rest : Bytes) :
    lengthField (buf ++ rest) = some len := by
  obtain ⟨a, b, c, d, buf, rfl, -⟩ := lengthField_eq_some h
  exact h

theorem lengthField_isSome : (lengthField buf).isSome = true ↔ 4 ≤ buf.length := by
  rcases buf with _ | ⟨a, _ | ⟨b, _ | ⟨c, _ | ⟨d, buf⟩⟩⟩⟩ <;> simp [lengthField]

/-- `decode` by the length field: the body is the bytes after it. -/
theorem decode_eq (buf : Bytes) :
    decode buf = match lengthField buf with
      | none => .ok none
      | some len =>
        if maxFrameLen < len then .error (.invalid "frame too large")
        else if buf.length < 4 + len then .ok none
        else do return some (← decodeBody ((buf.drop 4).take len), 4 + len) := by
  rcases buf with _ | ⟨a, _ | ⟨b, _ | ⟨c, _ | ⟨d, buf⟩⟩⟩⟩
  · rfl
  · rfl
  · rfl
  · rfl
  · simp only [decode, lengthField, List.length_cons, List.drop_succ_cons, List.drop_zero]
    congr 1
    have hlt (n : Nat) : (buf.length < n) = (buf.length + 1 + 1 + 1 + 1 < 4 + n) := by
      rw [eq_iff_iff]; omega
    simp only [hlt]

theorem decode_none (h : lengthField buf = none) : decode buf = .ok none := by
  rw [decode_eq, h]

theorem decode_tooLarge (h : lengthField buf = some len) (hlen : maxFrameLen < len) :
    decode buf = .error (.invalid "frame too large") := by
  rw [decode_eq, h]
  exact if_pos hlen

theorem decode_short (h : lengthField buf = some len) (hlen : len ≤ maxFrameLen)
    (hbuf : buf.length < 4 + len) : decode buf = .ok none := by
  rw [decode_eq, h]
  exact (if_neg (by omega)).trans (if_pos hbuf)

theorem decode_whole (h : lengthField buf = some len) (hlen : len ≤ maxFrameLen)
    (hbuf : 4 + len ≤ buf.length) (hm : decodeBody ((buf.drop 4).take len) = .ok m) :
    decode buf = .ok (some (m, 4 + len)) := by
  rw [decode_eq, h]
  refine (if_neg (by omega)).trans ((if_neg (by omega)).trans ?_)
  rw [hm]
  rfl

/-- The four things `decode` can do, by the length field. -/
theorem decode_cases (buf : Bytes) :
    (lengthField buf = none ∧ decode buf = .ok none) ∨
    ∃ len, lengthField buf = some len ∧
      ((maxFrameLen < len ∧ decode buf = .error (.invalid "frame too large")) ∨
       (len ≤ maxFrameLen ∧ buf.length < 4 + len ∧ decode buf = .ok none) ∨
       (len ≤ maxFrameLen ∧ 4 + len ≤ buf.length ∧ ∃ m, decode buf = .ok (some (m, 4 + len)) ∧
          decodeBody ((buf.drop 4).take len) = .ok m ∧ m.encodeBody = (buf.drop 4).take len)) := by
  cases h : lengthField buf with
  | none => exact .inl ⟨rfl, decode_none h⟩
  | some len =>
    refine .inr ⟨len, rfl, ?_⟩
    by_cases hlen : maxFrameLen < len
    · exact .inl ⟨hlen, decode_tooLarge h hlen⟩
    · by_cases hbuf : buf.length < 4 + len
      · exact .inr (.inl ⟨by omega, hbuf, decode_short h (by omega) hbuf⟩)
      · obtain ⟨m, hm, hbody⟩ := encodeBody_decodeBody ((buf.drop 4).take len)
        exact .inr (.inr ⟨by omega, by omega, m, decode_whole h (by omega) (by omega) hm, hm, hbody⟩)

theorem take_of_lengthField (h : lengthField buf = some len) :
    buf.take 4 = be32 (UInt32.ofNat len) ∧ 4 ≤ buf.length := by
  refine ⟨?_, lengthField_isSome.mp (by rw [h]; rfl)⟩
  obtain ⟨a, b, c, d, buf, rfl, rfl⟩ := lengthField_eq_some h
  rw [UInt32.ofNat_toNat, be32_ofBe32]
  rfl

theorem lengthField_be32 (x : UInt32) (rest : Bytes) :
    lengthField (be32 x ++ rest) = some x.toNat := by
  show some (ofBe32 _ _ _ _).toNat = _
  rw [ofBe32_be32]

/-- A decoded message encodes to the bytes it was decoded from. -/
theorem encode_of_decode {n : Nat} (h : decode buf = .ok (some (m, n))) :
    m.encode = buf.take n ∧ 4 ≤ n ∧ n ≤ buf.length := by
  obtain ⟨-, hd⟩ | ⟨len, hlen, ⟨-, hd⟩ | ⟨-, -, hd⟩ | ⟨-, hbuf, m', hd, -, hbody⟩⟩ := decode_cases buf
  · rw [hd] at h; cases h
  · rw [hd] at h; cases h
  · rw [hd] at h; cases h
  · rw [hd] at h
    cases h
    obtain ⟨htake, -⟩ := take_of_lengthField hlen
    have hbl : m.bodyLen = len := by
      rw [← length_encodeBody, hbody, List.length_take, List.length_drop]
      omega
    refine ⟨?_, by omega, hbuf⟩
    rw [encode, hbl, hbody, ← htake, List.take_add]

/-- More bytes do not change a frame that is complete, nor one that is refused. -/
theorem decode_append (buf : Bytes) (h : decode buf ≠ .ok none) (rest : Bytes) :
    decode (buf ++ rest) = decode buf := by
  obtain ⟨-, hd⟩ | ⟨len, hlen, ⟨hmax, hd⟩ | ⟨-, -, hd⟩ | ⟨hmax, hbuf, m, hd, hm, -⟩⟩ :=
    decode_cases buf
  · exact absurd hd h
  · rw [hd, decode_tooLarge (lengthField_append hlen rest) hmax]
  · exact absurd hd h
  · rw [hd]
    refine decode_whole (lengthField_append hlen rest) hmax (by simp; omega) ?_
    rwa [List.drop_append_of_le_length (by omega),
      List.take_append_of_le_length (by rw [List.length_drop]; omega)]

theorem length_encode (m : PeerMessage) : m.encode.length = 4 + m.bodyLen := by
  rw [encode, List.length_append, length_be32, length_encodeBody]

theorem decode_encode (hlen : m.bodyLen ≤ maxFrameLen) (hm : m.canonical = true) :
    decode m.encode = .ok (some (m, m.encode.length)) := by
  have hmax : m.bodyLen < 2 ^ 32 := hlen.trans_lt (by decide)
  have hfield : lengthField m.encode = some m.bodyLen := by
    rw [encode, lengthField_be32, UInt32.toNat_ofNat', Nat.mod_eq_of_lt hmax]
  rw [length_encode]
  refine decode_whole hfield hlen (by rw [length_encode]) ?_
  rw [encode, List.drop_left' (length_be32 _), ← length_encodeBody, List.take_length]
  exact decodeBody_encodeBody hm

/-- A proper part of a frame from its beginning asks for more bytes. -/
theorem decode_of_partial {frame part : Bytes} (hfield : lengthField frame = some len)
    (hlen : len ≤ maxFrameLen) (hframe : frame.length = 4 + len) (hpart : part <+: frame)
    (hlt : part.length < frame.length) : decode part = .ok none := by
  cases h : lengthField part with
  | none => exact decode_none h
  | some len' =>
    obtain ⟨rest, rfl⟩ := hpart
    cases (lengthField_append h rest).symm.trans hfield
    exact decode_short h hlen (by omega)

end PeerMessage
end Outpace.Wire

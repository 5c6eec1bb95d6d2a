import Outpace.Data.Buffer
import Outpace.Peer.Session
import Outpace.Wire.UtMetadata

/-!
# Metadata exchange

The two sides of a metadata transfer: the reply of the seed session to a request
(`ace-swarm/src/seed.rs`) and `fetch_metadata` (`ace-peer/src/session.rs`). The seed multiplies the
peer's piece number by the block length on machine words of 64 bits, so a number of `2 ^ 50` or more
overflows, with overflow checks or without; for all others it replies with the block, and the
fetcher puts the blocks together in any order.
-/

namespace Outpace.Swarm
open Outpace.Wire Outpace.Peer

/-! ### The seed -/

/-- The reply to a request for a piece. The outer `none` is a panic. -/
def answerRequest (checks : Bool) (metadata : Bytes) (piece : Int64) : Option (Option PeerMessage) :=
  -- `piece.max(0) as usize`
  let piece := piece.toInt.toNat
  (word checks (piece * metadataBlockLen)).bind fun start =>
    if start < metadata.length then
      (word checks (start + metadataBlockLen)).bind fun stop =>
        let stop := min stop metadata.length
        if start ≤ stop then
          some (some (.extended 2 (dataPiece (Int64.ofNat piece) (Int64.ofNat metadata.length)
            ((metadata.drop start).take (stop - start)))))
        else none
    else some none

/-- The arm of the session loop for the extended message 2. -/
def answerMetadata (checks : Bool) (metadata : Option Bytes) (payload : Bytes) :
    Option (Option PeerMessage) :=
  match metadata, MetadataMessage.parse payload with
  | some metadata, some (.request piece) => answerRequest checks metadata piece
  | _, _ => some none

/-- The block of a piece, with its number and the size of the whole. -/
def metadataReply (m : Bytes) (piece : Int64) : PeerMessage :=
  .extended 2 (dataPiece piece (Int64.ofNat m.length)
    ((m.drop (metadataBlockLen * piece.toInt.toNat)).take metadataBlockLen))

/-! ### The fetcher -/

/-- `PeerError` with its `Protocol` case. -/
inductive FetchError where
  | peer (e : PeerError)
  | protocol (reason : String)
  deriving DecidableEq

def maxMetadataSize : Nat := 1048576

structure MetadataFetch where
  blob : Bytes
  haves : List Bool
  remaining : Nat
  deriving DecidableEq

/-- A data message with a number in range. -/
def MetadataFetch.write (metadataSize : Nat) (f : MetadataFetch) (idx : Nat) (data : Bytes) :
    MetadataFetch :=
  let off := idx * metadataBlockLen
  let stop := min (off + data.length) metadataSize
  let blob := if off < stop then overwrite f.blob off (data.take (stop - off)) else f.blob
  if f.haves[idx]? = some false then
    { blob, haves := f.haves.set idx true, remaining := f.remaining - 1 }
  else { f with blob }

/-- What the loop makes of a message. -/
def MetadataFetch.receive (metadataSize : Nat) (f : MetadataFetch) :
    PeerMessage → Except FetchError MetadataFetch
  | .extended extId payload =>
    if extId = 0 then .ok f
    else
      match MetadataMessage.parse payload with
      | some (.data piece _ data) =>
        if piece.toInt < 0 ∨ pieceCount metadataSize ≤ piece.toInt.toNat then .ok f
        else .ok (f.write metadataSize piece.toInt.toNat data)
      | some (.reject _) => .error (.protocol "metadata request rejected")
      | _ => .ok f
  | _ => .ok f

/-- The loop of `fetch_metadata` over the messages that are read before the connection closes. -/
def fetchLoop (metadataSize : Nat) : List PeerMessage → MetadataFetch → Except FetchError Bytes
  | [], f => if f.remaining = 0 then .ok f.blob else .error (.peer .closed)
  | msg :: messages, f =>
    if f.remaining = 0 then .ok f.blob
    else
      match f.receive metadataSize msg with
      | .error e => .error e
      | .ok f => fetchLoop metadataSize messages f

def fetchMetadata (metadataSize : Nat) (messages : List PeerMessage) : Except FetchError Bytes :=
  let pieces := pieceCount metadataSize
  if pieces = 0 then .ok []
  else
    fetchLoop metadataSize messages
      { blob := List.replicate metadataSize 0
        haves := List.replicate pieces false
        remaining := pieces }

/-- A message that the fetcher passes over: no metadata message, or a request, or a block of a piece
that was not asked for. -/
def Unrelated (metadataSize : Nat) : PeerMessage → Prop
  | .extended extId payload =>
    extId ≠ 0 → (∀ piece, MetadataMessage.parse payload ≠ some (.reject piece)) ∧
      ∀ piece totalSize data, MetadataMessage.parse payload = some (.data piece totalSize data) →
        piece.toInt < 0 ∨ pieceCount metadataSize ≤ piece.toInt.toNat
  | _ => True

/-! ### Replies -/

theorem length_block_lt (m : Bytes) (off : Nat) :
    ((m.drop off).take metadataBlockLen).length < 2 ^ 63 :=
  (List.length_take_le ..).trans_lt (by decide)

/-- A reply carries the piece number, the size and the bytes of the block. -/
theorem parse_metadataReply (m : Bytes) (piece : Int64) :
    ∃ payload, metadataReply m piece = .extended 2 payload ∧
      MetadataMessage.parse payload = some (.data piece (Int64.ofNat m.length)
        ((m.drop (metadataBlockLen * piece.toInt.toNat)).take metadataBlockLen)) :=
  ⟨_, rfl, parse_dataPiece _ _ (length_block_lt ..)⟩

theorem ofNat_toNat_of_nonneg {p : Int64} (h : 0 ≤ p.toInt) : Int64.ofNat p.toInt.toNat = p := by
  rw [← Int64.ofInt_eq_ofNat, Int.toNat_of_nonneg h, Int64.ofInt_toInt]

variable {checks : Bool} {m payload : Bytes} {p : Int64}

theorem answerRequest_start {start : Nat} (hm : m.length < 2 ^ 63) (h0 : 0 ≤ p.toInt)
    (hstart : word checks (p.toInt.toNat * metadataBlockLen) = some start) :
    answerRequest checks m p = some (if start < m.length then
      some (.extended 2 (dataPiece p (Int64.ofNat m.length) ((m.drop start).take metadataBlockLen)))
      else none) := by
  rw [answerRequest, hstart, Option.bind_some]
  by_cases hlt : start < m.length
  · have hmax : start + metadataBlockLen ≤ u64Max := by
      have : metadataBlockLen = 16384 := rfl
      have : u64Max = 2 ^ 64 - 1 := rfl
      omega
    have hstop : start ≤ min (start + metadataBlockLen) m.length :=
      Nat.le_min.mpr ⟨Nat.le_add_right .., Nat.le_of_lt hlt⟩
    rw [if_pos hlt, if_pos hlt, word_of_le hmax, Option.bind_some, if_pos hstop,
      ofNat_toNat_of_nonneg h0]
    congr 4
    refine List.take_eq_take_iff.mpr ?_
    rw [List.length_drop]
    omega
  · rw [if_neg hlt, if_neg hlt]

/-- The seed replies as it should exactly if the start of the block does not overflow, or wraps to a
start behind the end. -/
theorem answerRequest_iff (hm : m.length < 2 ^ 63) (h0 : 0 ≤ p.toInt) :
    answerRequest checks m p =
        some (if metadataBlockLen * p.toInt.toNat < m.length then some (metadataReply m p) else none) ↔
      metadataBlockLen * p.toInt.toNat ≤ u64Max ∨
        checks = false ∧ m.length ≤ metadataBlockLen * p.toInt.toNat % (u64Max + 1) := by
  rw [Nat.mul_comm]
  by_cases hmax : p.toInt.toNat * metadataBlockLen ≤ u64Max
  · rw [answerRequest_start hm h0 (word_of_le hmax), metadataReply, Nat.mul_comm metadataBlockLen]
    exact ⟨fun _ => .inl hmax, fun _ => rfl⟩
  · have hbehind : ¬p.toInt.toNat * metadataBlockLen < m.length := by
      have : u64Max = 2 ^ 64 - 1 := rfl
      omega
    rw [if_neg hbehind]
    cases checks with
    | true =>
      have hword : word true (p.toInt.toNat * metadataBlockLen) = none := if_neg hmax
      rw [answerRequest, hword]
      exact ⟨fun h => (by cases h), fun h => absurd (h.resolve_left hmax).1 (by decide)⟩
    | false =>
      have hword : word false (p.toInt.toNat * metadataBlockLen) =
          some (p.toInt.toNat * metadataBlockLen % (u64Max + 1)) := if_neg hmax
      rw [answerRequest_start hm h0 hword]
      constructor
      · intro h
        refine .inr ⟨rfl, Nat.le_of_not_lt fun hlt => ?_⟩
        rw [if_pos hlt] at h
        cases h
      · intro h
        rw [if_neg (Nat.not_lt.mpr (h.resolve_left hmax).2)]

/-! ### The blob -/

/-- The fetcher has the right bytes in the blocks that it has. -/
structure Filled (m : Bytes) (f : MetadataFetch) : Prop where
  length : f.blob.length = m.length
  length_haves : f.haves.length = pieceCount m.length
  remaining : f.remaining = f.haves.count false
  bytes : ∀ j < m.length, f.haves[j / metadataBlockLen]? = some true → f.blob[j]? = m[j]?

variable {f : MetadataFetch} {idx : Nat}

theorem Filled.init (m : Bytes) :
    Filled m { blob := List.replicate m.length 0
               haves := List.replicate (pieceCount m.length) false
               remaining := pieceCount m.length } where
  length := List.length_replicate
  length_haves := List.length_replicate
  remaining := List.count_replicate_self.symm
  bytes j _ h := by
    rw [List.getElem?_replicate] at h
    split at h
    · cases h
    · cases h

theorem lt_pieceCount {size j : Nat} (h : j < size) : j / metadataBlockLen < pieceCount size := by
  simp only [pieceCount, metadataBlockLen]
  omega

theorem mul_lt_of_lt_pieceCount {size idx : Nat} (h : idx < pieceCount size) :
    idx * metadataBlockLen < size := by
  simp only [pieceCount, metadataBlockLen] at h ⊢
  omega

/-- A fetcher that waits for no piece has the whole blob. -/
theorem Filled.blob_eq (H : Filled m f) (h : f.remaining = 0) : f.blob = m := by
  refine List.ext_getElem? fun j => ?_
  by_cases hj : j < m.length
  · refine H.bytes j hj ?_
    have hlt : j / metadataBlockLen < f.haves.length := H.length_haves ▸ lt_pieceCount hj
    rw [List.getElem?_eq_getElem hlt, Option.some_inj]
    refine Bool.eq_true_of_not_eq_false fun hfalse => ?_
    rw [H.remaining] at h
    exact List.count_eq_zero.mp h (hfalse ▸ List.getElem_mem hlt)
  · rw [List.getElem?_eq_none (by rw [H.length]; omega), List.getElem?_eq_none (by omega)]

theorem length_block (m : Bytes) (idx : Nat) :
    ((m.drop (idx * metadataBlockLen)).take metadataBlockLen).length =
      min metadataBlockLen (m.length - idx * metadataBlockLen) := by
  rw [List.length_take, List.length_drop]

/-- The blob after the right block was written. -/
theorem blob_write (f : MetadataFetch) (hidx : idx < pieceCount m.length) :
    (f.write m.length idx ((m.drop (metadataBlockLen * idx)).take metadataBlockLen)).blob =
      overwrite f.blob (idx * metadataBlockLen)
        ((m.drop (idx * metadataBlockLen)).take metadataBlockLen) := by
  have hoff := mul_lt_of_lt_pieceCount hidx
  have hlen := length_block m idx
  have hpos : 0 < metadataBlockLen := by decide
  unfold MetadataFetch.write
  dsimp only
  rw [Nat.mul_comm metadataBlockLen idx]
  have hlt : idx * metadataBlockLen < min (idx * metadataBlockLen +
      ((m.drop (idx * metadataBlockLen)).take metadataBlockLen).length) m.length := by omega
  rw [if_pos hlt, List.take_of_length_le (by omega)]
  split
  · rfl
  · rfl

theorem haves_write (H : Filled m f) (hidx : idx < pieceCount m.length) (data : Bytes) :
    (f.write m.length idx data).haves = f.haves.set idx true ∧
      (f.write m.length idx data).remaining = (f.haves.set idx true).count false := by
  have hlt : idx < f.haves.length := H.length_haves ▸ hidx
  unfold MetadataFetch.write
  dsimp only
  split
  · next hfalse =>
    obtain ⟨_, hget⟩ := List.getElem?_eq_some_iff.mp hfalse
    refine ⟨rfl, ?_⟩
    rw [List.count_set hlt, hget, H.remaining]
    rfl
  · next htrue =>
    rw [List.getElem?_eq_getElem hlt, Option.some_inj, Bool.not_eq_false] at htrue
    have hsame : f.haves.set idx true = f.haves := by
      conv => lhs; rw [← htrue]
      exact List.set_getElem_self hlt
    exact ⟨hsame.symm, by rw [hsame]; exact H.remaining⟩

theorem Filled.write (H : Filled m f) (hidx : idx < pieceCount m.length) :
    Filled m (f.write m.length idx ((m.drop (metadataBlockLen * idx)).take metadataBlockLen)) := by
  have hoff := mul_lt_of_lt_pieceCount hidx
  have hlen := length_block m idx
  have hfits : idx * metadataBlockLen +
      ((m.drop (idx * metadataBlockLen)).take metadataBlockLen).length ≤ f.blob.length := by
    rw [hlen, H.length]
    omega
  obtain ⟨hhaves, hremaining⟩ := haves_write H hidx
    ((m.drop (metadataBlockLen * idx)).take metadataBlockLen)
  refine ⟨?_, ?_, ?_, fun j hj hhave => ?_⟩
  · rw [blob_write f hidx, length_overwrite hfits, H.length]
  · rw [hhaves, List.length_set, H.length_haves]
  · rw [hremaining, hhaves]
  · rw [blob_write f hidx, getElem?_overwrite hfits]
    rw [hhaves] at hhave
    have hpos : 0 < metadataBlockLen := by decide
    by_cases hblock : j / metadataBlockLen = idx
    · have hle : idx * metadataBlockLen ≤ j := hblock ▸ Nat.div_mul_le_self j _
      have hlt : j < idx * metadataBlockLen + metadataBlockLen :=
        hblock ▸ Nat.lt_div_mul_add hpos
      rw [if_pos ⟨hle, by omega⟩, List.getElem?_take, if_pos (by omega), List.getElem?_drop,
        Nat.add_sub_cancel' hle]
    · rw [List.getElem?_set_ne (Ne.symm hblock)] at hhave
      rw [if_neg, H.bytes j hj hhave]
      rintro ⟨hle, hlt⟩
      refine hblock (Nat.div_eq_of_lt_le hle ?_)
      rw [Nat.succ_mul]
      omega

theorem toInt_ofNat_of_lt_pieceCount {size i : Nat} (hsize : size ≤ maxMetadataSize)
    (hi : i < pieceCount size) : (Int64.ofNat i).toInt = i := by
  have hlt := mul_lt_of_lt_pieceCount hi
  refine Int64.toInt_ofNat_of_lt ?_
  simp only [maxMetadataSize, metadataBlockLen] at hsize hlt
  omega

theorem receive_metadataReply (hm : m.length ≤ maxMetadataSize) {i : Nat}
    (hi : i < pieceCount m.length) (f : MetadataFetch) :
    f.receive m.length (metadataReply m (Int64.ofNat i)) =
      .ok (f.write m.length i ((m.drop (metadataBlockLen * i)).take metadataBlockLen)) := by
  have hint := toInt_ofNat_of_lt_pieceCount hm hi
  obtain ⟨payload, hreply, hparse⟩ := parse_metadataReply m (Int64.ofNat i)
  rw [hint, Int.toNat_natCast] at hparse
  rw [hreply, MetadataFetch.receive, if_neg (by decide), hparse]
  dsimp only
  rw [if_neg, hint, Int.toNat_natCast]
  rw [hint, Int.toNat_natCast]
  omega

theorem receive_unrelated {msg : PeerMessage} (h : Unrelated m.length msg) (f : MetadataFetch) :
    f.receive m.length msg = .ok f := by
  cases msg with
  | extended extId payload =>
    rw [MetadataFetch.receive]
    split
    · rfl
    · next hext =>
      obtain ⟨hreject, hdata⟩ := h hext
      split
      · next hparse => exact if_pos (hdata _ _ _ hparse)
      · next hparse => exact absurd hparse (hreject _)
      · rfl
  | _ => rfl

theorem not_unrelated_metadataReply (hm : m.length ≤ maxMetadataSize) {i : Nat}
    (hi : i < pieceCount m.length) : ¬Unrelated m.length (metadataReply m (Int64.ofNat i)) := by
  intro h
  obtain ⟨payload, hreply, hparse⟩ := parse_metadataReply m (Int64.ofNat i)
  rw [hreply] at h
  have hrange := (h (by decide)).2 _ _ _ hparse
  rw [toInt_ofNat_of_lt_pieceCount hm hi, Int.toNat_natCast] at hrange
  omega

/-- The loop ends with the blob when every piece is there or still comes. -/
theorem fetchLoop_eq {messages : List PeerMessage} (hm : m.length ≤ maxMetadataSize)
    (H : Filled m f)
    (hmessages : ∀ msg ∈ messages, Unrelated m.length msg ∨
      ∃ i < pieceCount m.length, msg = metadataReply m (Int64.ofNat i))
    (hall : ∀ i < pieceCount m.length,
      f.haves[i]? = some true ∨ metadataReply m (Int64.ofNat i) ∈ messages) :
    fetchLoop m.length messages f = .ok m := by
  induction messages generalizing f with
  | nil =>
    have hzero : f.remaining = 0 := by
      rw [H.remaining]
      refine List.count_eq_zero.mpr fun hfalse => ?_
      obtain ⟨i, hi⟩ := List.getElem?_of_mem hfalse
      obtain ⟨hlt, -⟩ := List.getElem?_eq_some_iff.mp hi
      rcases hall i (H.length_haves ▸ hlt) with h | h
      · rw [hi] at h
        cases h
      · cases h
    rw [fetchLoop, if_pos hzero, H.blob_eq hzero]
  | cons msg messages ih =>
    rw [fetchLoop]
    split
    · next hzero => rw [H.blob_eq hzero]
    rw [List.forall_mem_cons] at hmessages
    rcases hmessages.1 with hmsg | ⟨i, hi, rfl⟩
    · rw [receive_unrelated hmsg]
      refine ih H hmessages.2 fun i hi => (hall i hi).imp_right fun h => ?_
      refine (List.mem_cons.mp h).resolve_left ?_
      rintro rfl
      exact not_unrelated_metadataReply hm hi hmsg
    · rw [receive_metadataReply hm hi]
      refine ih (H.write hi) hmessages.2 fun k hk => ?_
      rw [(haves_write H hi _).1]
      by_cases hki : k = i
      · rw [hki, List.getElem?_set_self (H.length_haves ▸ hi)]
        exact .inl rfl
      · rw [List.getElem?_set_ne (Ne.symm hki)]
        refine (hall k hk).imp_right fun h => (List.mem_cons.mp h).resolve_left fun heq => hki ?_
        have hpiece := (PeerMessage.extended.inj heq).2
        have hparse := parse_dataPiece (Int64.ofNat k) (Int64.ofNat m.length)
          (length_block_lt m (metadataBlockLen * (Int64.ofNat k).toInt.toNat))
        rw [hpiece, parse_dataPiece _ _ (length_block_lt ..)] at hparse
        injection hparse with hparse
        injection hparse with hpiece
        have hint := congrArg Int64.toInt hpiece
        rw [toInt_ofNat_of_lt_pieceCount hm hi, toInt_ofNat_of_lt_pieceCount hm hk] at hint
        omega

/-- The seed replies to a request with the block of the piece exactly if the start of the block does
not overflow, or wraps to a start behind the end; and the replies, in any order and with any other
messages in between, give the fetcher the blob. -/
theorem metadata_exchange (m : Bytes) :
    (∀ (checks : Bool) (payload : Bytes) (p : Int64), m.length < 2 ^ 63 → 0 ≤ p.toInt →
      MetadataMessage.parse payload = some (.request p) →
      (answerMetadata checks (some m) payload =
          some (if metadataBlockLen * p.toInt.toNat < m.length then some (metadataReply m p)
            else none) ↔
        metadataBlockLen * p.toInt.toNat ≤ u64Max ∨
          checks = false ∧ m.length ≤ metadataBlockLen * p.toInt.toNat % (u64Max + 1))) ∧
    (∀ p : Int64, MetadataMessage.parse (requestPiece p) = some (.request p)) ∧
    (∀ p : Int64, ∃ payload, metadataReply m p = .extended 2 payload ∧
      MetadataMessage.parse payload = some (.data p (Int64.ofNat m.length)
        ((m.drop (metadataBlockLen * p.toInt.toNat)).take metadataBlockLen))) ∧
    ∀ messages : List PeerMessage, m ≠ [] → m.length ≤ maxMetadataSize →
      (∀ msg ∈ messages, Unrelated m.length msg ∨
        ∃ i < pieceCount m.length, msg = metadataReply m (Int64.ofNat i)) →
      (∀ i < pieceCount m.length, metadataReply m (Int64.ofNat i) ∈ messages) →
      fetchMetadata m.length messages = .ok m := by
  refine ⟨fun checks payload p hm h0 hparse => ?_, parse_requestPiece, parse_metadataReply m,
    fun messages hne hm hmessages hall => ?_⟩
  · unfold answerMetadata
    rw [hparse]
    exact answerRequest_iff hm h0
  · have hpieces : pieceCount m.length ≠ 0 :=
      Nat.ne_of_gt (Nat.zero_lt_of_lt (lt_pieceCount (List.length_pos_iff.mpr hne)))
    rw [fetchMetadata, if_neg hpieces]
    exact fetchLoop_eq hm (.init m) hmessages fun i hi => .inr (hall i hi)

/-- A blob of two blocks. The second one arrives first, and once more after the other. -/
theorem metadata_exchange_two :
    let m : Bytes := List.replicate 16385 7
    answerMetadata true (some m) (requestPiece 1) = some (some (metadataReply m 1)) ∧
      fetchMetadata m.length
        [metadataReply m 1, .keepAlive, metadataReply m 0, metadataReply m 1] = .ok m := by
  intro m
  have hlen : m.length = 16385 := List.length_replicate
  obtain ⟨hanswer, hparse, -, hfetch⟩ := metadata_exchange m
  have hreply := (hanswer true (requestPiece 1) 1 (by omega) (by decide) (hparse 1)).mpr
    (.inl (by decide))
  have hblock : metadataBlockLen * (1 : Int64).toInt.toNat < m.length := by
    rw [hlen]
    decide
  rw [if_pos hblock] at hreply
  have hcount : pieceCount m.length = 2 := by
    rw [hlen]
    decide
  refine ⟨hreply, hfetch _ (List.ne_nil_of_length_pos (by omega)) (by rw [hlen]; decide) ?_ ?_⟩
  · intro msg hmsg
    simp only [List.mem_cons, List.not_mem_nil, or_false] at hmsg
    rcases hmsg with rfl | rfl | rfl | rfl
    · exact .inr ⟨1, by omega, rfl⟩
    · exact .inl trivial
    · exact .inr ⟨0, by omega, rfl⟩
    · exact .inr ⟨1, by omega, rfl⟩
  · intro i hi
    obtain rfl | rfl : i = 0 ∨ i = 1 := by omega
    · exact List.mem_cons_of_mem _ (List.mem_cons_of_mem _ List.mem_cons_self)
    · exact List.mem_cons_self

/-- The piece `2 ^ 50` of a blob of one byte: a panic, or the first block under that number. -/
theorem metadata_exchange_overflow :
    answerMetadata true (some [7]) (requestPiece (2 ^ 50)) = none ∧
      answerMetadata false (some [7]) (requestPiece (2 ^ 50)) =
        some (some (.extended 2 (dataPiece (2 ^ 50) 1 [7]))) := by
  unfold answerMetadata
  rw [parse_requestPiece]
  exact ⟨by decide +kernel, by decide +kernel⟩

end Outpace.Swarm

import Outpace.Data.Except
import Outpace.Media.TsResyncPush
import Outpace.Wire.Chunker

/-!
# What a broadcast publishes

`push_bytes` and `store_outputs` of `broadcast_ingest.rs` with `consume` of the cursor, for a
producer that is not stopped and a store that takes what it is given. The bytes are resynchronised,
filled into payloads, signed and chunked; the chunker is set up anew for every piece, and the index
is kept outside of it. An ingest that has failed stays so, and its state is not kept.
-/

namespace Outpace.Engine

open Outpace.Wire Outpace.Media

/-- The geometry of a broadcast as `from_transport` accepts it, with the identity that signs. -/
structure BroadcastGeometry where
  pieceLength : Nat
  chunkLength : Nat
  auth : LiveSourceAuth
  chunk_pos : 0 < chunkLength
  chunk_dvd : chunkLength ∣ pieceLength
  piece_le : pieceLength ≤ u64Max
  signature_lt : auth.signatureLen < pieceLength
  length_sign : ∀ payload, (auth.sign payload).length = auth.signatureLen

namespace BroadcastGeometry

def payloadCapacity (g : BroadcastGeometry) : Nat := g.pieceLength - g.auth.signatureLen

def chunker (g : BroadcastGeometry) : SigningChunker :=
  .new g.pieceLength g.chunkLength 0 g.auth.signatureLen

/-- The chunks of one signed piece. -/
def signedPiece (g : BroadcastGeometry) (index : Nat) (payload : Bytes) : List OutChunk :=
  (blocks g.chunkLength (SigningChunker.sealed g.auth payload)).mapIdx fun i data =>
    ⟨index, i % 2 ^ 16, i * g.chunkLength, data⟩

/-- The index behind the full payloads of a stream. -/
def stop (g : BroadcastGeometry) (start : Nat) (stream : Bytes) : Nat :=
  start + stream.length / g.payloadCapacity

/-- The chunks of the signed pieces of a stream. -/
def signedPieces (g : BroadcastGeometry) (start : Nat) (stream : Bytes) : List OutChunk :=
  ((blocks g.payloadCapacity stream).mapIdx fun k => g.signedPiece (start + k)).flatten

end BroadcastGeometry

inductive IngestError where
  | pieceIndexExhausted
  | persistenceFailed

def cursorPersistInterval : Nat := 128

structure BroadcastCursor where
  next : Nat
  reserved : Nat

namespace BroadcastCursor

/-- The reservation with which `consume` makes room for a piece. -/
def extension (current piece : Nat) : Option Nat := do
  let n ← checkedAdd ((piece - current) / cursorPersistInterval) 1
  let n ← checkedMul n cursorPersistInterval
  checkedAdd current n

/-- The record of a reservation is saved before the piece is used; whether it is says `save`. No
reservation is saved twice, as a failed save poisons the cursor. -/
def consume (save : Nat → Bool) (c : BroadcastCursor) (piece : Nat) :
    Except IngestError BroadcastCursor := do
  let next ← okOr (checkedAdd piece 1) .pieceIndexExhausted
  if c.reserved ≤ piece then
    let reservation ← okOr (extension c.reserved piece) .pieceIndexExhausted
    if save reservation then .ok ⟨max c.next next, max c.reserved reservation⟩
    else .error .persistenceFailed
  else .ok ⟨max c.next next, c.reserved⟩

/-- The reservation of a cursor once the pieces below `stop` are used. -/
def reservedUpTo (reserved stop : Nat) : Nat :=
  reserved + (stop - reserved + (cursorPersistInterval - 1)) / cursorPersistInterval *
    cursorPersistInterval

theorem le_reservedUpTo (reserved stop : Nat) : stop ≤ reservedUpTo reserved stop := by
  simp only [reservedUpTo, cursorPersistInterval]
  omega

theorem reservedUpTo_of_le {reserved stop : Nat} (h : stop ≤ reserved) :
    reservedUpTo reserved stop = reserved := by
  simp only [reservedUpTo, cursorPersistInterval]
  omega

theorem reservedUpTo_mono {reserved stop stop' : Nat} (h : stop ≤ stop') :
    reservedUpTo reserved stop ≤ reservedUpTo reserved stop' := by
  simp only [reservedUpTo, cursorPersistInterval]
  omega

theorem reservedUpTo_reservedUpTo {reserved stop stop' : Nat} (h : stop ≤ stop') :
    reservedUpTo (reservedUpTo reserved stop) stop' = reservedUpTo reserved stop' := by
  simp only [reservedUpTo, cursorPersistInterval]
  omega

theorem extension_eq {current piece : Nat} (h : current ≤ piece)
    (hfit : reservedUpTo current (piece + 1) ≤ u64Max) :
    extension current piece = some (reservedUpTo current (piece + 1)) := by
  have heq : reservedUpTo current (piece + 1) =
      current + ((piece - current) / cursorPersistInterval + 1) * cursorPersistInterval := by
    simp only [reservedUpTo, cursorPersistInterval]
    omega
  rw [heq] at hfit ⊢
  have hmul : ((piece - current) / cursorPersistInterval + 1) * cursorPersistInterval ≤ u64Max :=
    Nat.le_trans (Nat.le_add_left ..) hfit
  have hblocks : (piece - current) / cursorPersistInterval + 1 ≤ u64Max :=
    Nat.le_trans (Nat.le_mul_of_pos_right _ (by decide)) hmul
  simp [extension, checkedAdd, checkedMul, hblocks, hmul, hfit]

theorem consume_eq {save : Nat → Bool} (hsave : ∀ reservation, save reservation = true)
    {c : BroadcastCursor} {piece : Nat} (hnext : c.next ≤ piece + 1)
    (hfit : reservedUpTo c.reserved (piece + 1) ≤ u64Max) :
    c.consume save piece = .ok ⟨piece + 1, reservedUpTo c.reserved (piece + 1)⟩ := by
  have hstop := le_reservedUpTo c.reserved (piece + 1)
  have hadd : checkedAdd piece 1 = some (piece + 1) := if_pos (Nat.le_trans hstop hfit)
  simp only [consume, hadd, okOr]
  show (if _ then _ else _) = _
  split
  · next hle =>
    simp only [extension_eq hle hfit, hsave, if_true]
    show Except.ok _ = _
    rw [Nat.max_eq_right hnext, Nat.max_eq_right (by omega)]
  · next hgt =>
    rw [Nat.max_eq_right hnext, reservedUpTo_of_le (by omega)]

end BroadcastCursor

structure BroadcastIngest where
  resync : TsResync
  chunker : SigningChunker
  start : Nat
  bufferedPayload : Nat
  cursor : BroadcastCursor
  /-- What the store was given. -/
  published : List OutChunk

namespace BroadcastIngest

def authorized (g : BroadcastGeometry) (cursor : BroadcastCursor) : BroadcastIngest :=
  ⟨.new, g.chunker, cursor.next, 0, cursor, []⟩

def address (start : Nat) (out : OutChunk) : Except IngestError OutChunk :=
  match (checkedAdd start out.piece).filter (· < u64Max) with
  | some piece => .ok { out with piece := piece }
  | none => .error .pieceIndexExhausted

/-- One output of the publication job. -/
def publish (save : Nat → Bool) (i : BroadcastIngest) (out : OutChunk) :
    Except IngestError BroadcastIngest := do
  let cursor ← i.cursor.consume save out.piece
  return { i with cursor := cursor, published := i.published ++ [out] }

def storeOutputs (save : Nat → Bool) (i : BroadcastIngest) (outputs : List OutChunk) :
    Except IngestError BroadcastIngest := do
  let outputs ← outputs.mapM (address i.start)
  outputs.foldlM (publish save) i

/-- The next piece gets a chunker of its own. -/
def rebase (g : BroadcastGeometry) (i : BroadcastIngest) : Except IngestError BroadcastIngest :=
  if i.bufferedPayload = g.payloadCapacity then
    match checkedAdd i.start 1 with
    | some next => .ok { i with start := next, bufferedPayload := 0, chunker := g.chunker }
    | none => .error .pieceIndexExhausted
  else .ok i

/-- One round of the inner loop of `push_bytes`. -/
def round (g : BroadcastGeometry) (save : Nat → Bool) (i : BroadcastIngest) (bytes : Bytes) :
    Except IngestError BroadcastIngest := do
  let (outputs, chunker) := i.chunker.push g.auth bytes
  let i ← storeOutputs save
    { i with chunker := chunker, bufferedPayload := i.bufferedPayload + bytes.length } outputs
  i.rebase g

def pushAligned (g : BroadcastGeometry) (save : Nat → Bool) :
    (fuel : Nat) → BroadcastIngest → Bytes → Except IngestError BroadcastIngest
  | 0, i, _ => .ok i
  | fuel + 1, i, remaining =>
    if remaining.isEmpty then .ok i
    else do
      let take := min remaining.length (g.payloadCapacity - i.bufferedPayload)
      let i ← i.round g save (remaining.take take)
      pushAligned g save fuel i (remaining.drop take)

def pushSlice (g : BroadcastGeometry) (save : Nat → Bool) (i : BroadcastIngest) (slice : Bytes) :
    Except IngestError BroadcastIngest :=
  let (aligned, resync) := i.resync.pushReport slice
  pushAligned g save aligned.bytes.length { i with resync := resync } aligned.bytes

/-- `bytes.chunks(64 * 1024)`. -/
def slices (bytes : Bytes) : List Bytes :=
  (blocks (64 * 1024) bytes ++ [rest (64 * 1024) bytes]).filter fun slice => !slice.isEmpty

def pushBytes (g : BroadcastGeometry) (save : Nat → Bool) (i : BroadcastIngest) (bytes : Bytes) :
    Except IngestError BroadcastIngest := (slices bytes).foldlM (pushSlice g save) i

end BroadcastIngest

namespace BroadcastGeometry
variable (g : BroadcastGeometry)

theorem capacity_pos : 0 < g.payloadCapacity := Nat.sub_pos_of_lt g.signature_lt

theorem length_sealed {payload : Bytes} (h : payload.length = g.payloadCapacity) :
    (SigningChunker.sealed g.auth payload).length = g.pieceLength := by
  have hsig := g.signature_lt
  rw [SigningChunker.sealed, List.length_append, g.length_sign, h, payloadCapacity]
  omega

/-- The chunks that a chunker of its own makes of a signed piece. -/
theorem push_sealed {payload : Bytes} (h : payload.length = g.payloadCapacity) :
    ((TsChunker.new g.pieceLength g.chunkLength 0).push
      (SigningChunker.sealed g.auth payload)).1 = g.signedPiece 0 payload := by
  have hlen := g.length_sealed h
  have hchunks := @TsChunker.chunks_eq g.pieceLength g.chunkLength 0 g.chunk_pos
    [SigningChunker.sealed g.auth payload] (by rw [List.flatten_singleton, hlen]; exact g.piece_le)
  rw [List.flatten_singleton, TsChunker.chunks, emits_cons, emits_nil, List.append_nil] at hchunks
  rw [hchunks, TsChunker.addressed, signedPiece, List.mapIdx_eq_mapIdx_iff]
  intro i hi
  have hlt : i * g.chunkLength < g.pieceLength := by
    rw [length_blocks, hlen] at hi
    have := le_of_lt_blocks (l := SigningChunker.sealed g.auth payload) (hlen ▸ hi)
    have := g.chunk_pos
    omega
  simp only [TsChunker.address, TsChunker.new, Nat.zero_add, Nat.mod_eq_of_lt hlt,
    Nat.div_eq_of_lt hlt, Nat.mul_div_cancel _ g.chunk_pos]
  rfl

theorem address_signedPiece {index : Nat} (h : index < u64Max) (payload : Bytes) :
    (g.signedPiece 0 payload).mapM (BroadcastIngest.address index) =
      .ok (g.signedPiece index payload) := by
  have haddress : ∀ out ∈ g.signedPiece 0 payload,
      BroadcastIngest.address index out = .ok { out with piece := index } := by
    intro out hout
    obtain ⟨i, hi, rfl⟩ := List.mem_mapIdx.mp hout
    simp [BroadcastIngest.address, checkedAdd, Nat.le_of_lt h, Option.filter, h]
  rw [mapM_eq_ok haddress, signedPiece, signedPiece, List.mapIdx_eq_zipIdx_map,
    List.mapIdx_eq_zipIdx_map, List.map_map]
  rfl

theorem signedPiece_ne_nil {payload : Bytes} (index : Nat)
    (h : payload.length = g.payloadCapacity) : g.signedPiece index payload ≠ [] := by
  have hpos : 0 < g.pieceLength := Nat.lt_of_le_of_lt (Nat.zero_le _) g.signature_lt
  rw [← List.length_pos_iff, signedPiece, List.length_mapIdx, length_blocks, g.length_sealed h]
  exact Nat.div_pos (Nat.le_of_dvd hpos g.chunk_dvd) g.chunk_pos

theorem signedPieces_append (start : Nat) (stream bytes : Bytes) :
    g.signedPieces start (stream ++ bytes) = g.signedPieces start stream ++
      g.signedPieces (g.stop start stream) (rest g.payloadCapacity stream ++ bytes) := by
  simp only [signedPieces, (blocks_append g.capacity_pos stream bytes).1, List.mapIdx_append,
    List.flatten_append, length_blocks, stop, ← Nat.add_assoc, Nat.add_right_comm start (_ / _)]

theorem stop_append (start : Nat) (stream bytes : Bytes) :
    g.stop start (stream ++ bytes) = g.stop start stream +
      (blocks g.payloadCapacity (rest g.payloadCapacity stream ++ bytes)).length := by
  rw [stop, ← length_blocks, (blocks_append g.capacity_pos stream bytes).1, List.length_append,
    length_blocks, stop, Nat.add_assoc]

end BroadcastGeometry

namespace BroadcastIngest
variable (g : BroadcastGeometry)

open BroadcastCursor (reservedUpTo)

/-- The ingest after a stream of aligned bytes. -/
def reached (start reserved : Nat) (resync : TsResync) (stream : Bytes) : BroadcastIngest where
  resync := resync
  chunker := { g.chunker with buf := rest g.payloadCapacity stream }
  start := g.stop start stream
  bufferedPayload := (rest g.payloadCapacity stream).length
  cursor := ⟨g.stop start stream, reservedUpTo reserved (g.stop start stream)⟩
  published := g.signedPieces start stream

/-- The last reservation for a stream is an index. -/
def Fits (start reserved : Nat) (stream : Bytes) : Prop :=
  reservedUpTo reserved (g.stop start stream) ≤ u64Max

theorem Fits.of_prefix {g : BroadcastGeometry} {start reserved : Nat} {stream stream' : Bytes}
    (h : Fits g start reserved stream') (hp : stream <+: stream') :
    Fits g start reserved stream := by
  refine Nat.le_trans (BroadcastCursor.reservedUpTo_mono ?_) h
  exact Nat.add_le_add_left (Nat.div_le_div_right hp.length_le) _

theorem bytes_prefix_run (s : Resynced) (slices : List Bytes) :
    s.bytes <+: (run Resynced.feed s slices).bytes :=
  run_invariant (I := fun s' : Resynced => s.bytes <+: s'.bytes)
    (fun _ _ h => h.trans (List.prefix_append ..)) List.prefix_rfl slices

variable {g} {save : Nat → Bool}

section
variable (hsave : ∀ reservation, save reservation = true)
include hsave

theorem foldlM_publish {i : BroadcastIngest} {piece : Nat} {outputs : List OutChunk}
    (hne : outputs ≠ []) (hpiece : ∀ out ∈ outputs, out.piece = piece)
    (hnext : i.cursor.next ≤ piece + 1)
    (hfit : reservedUpTo i.cursor.reserved (piece + 1) ≤ u64Max) :
    outputs.foldlM (publish save) i =
      .ok { i with
        cursor := ⟨piece + 1, reservedUpTo i.cursor.reserved (piece + 1)⟩
        published := i.published ++ outputs } := by
  induction outputs generalizing i with
  | nil => exact absurd rfl hne
  | cons out outputs ih =>
    obtain ⟨hout, hpiece⟩ := List.forall_mem_cons.mp hpiece
    have hagain : reservedUpTo (reservedUpTo i.cursor.reserved (piece + 1)) (piece + 1) = _ :=
      BroadcastCursor.reservedUpTo_reservedUpTo (Nat.le_refl _)
    rw [List.foldlM_cons, publish, hout, BroadcastCursor.consume_eq hsave hnext hfit]
    show outputs.foldlM (publish save) _ = _
    cases outputs with
    | nil => rfl
    | cons next outputs =>
      rw [ih (List.cons_ne_nil _ _) hpiece (Nat.le_refl _) (by rw [hagain]; exact hfit), hagain,
        List.append_assoc]
      rfl

theorem storeOutputs_signedPiece {i : BroadcastIngest} {payload : Bytes}
    (h : payload.length = g.payloadCapacity) (hnext : i.cursor.next = i.start)
    (hfit : reservedUpTo i.cursor.reserved (i.start + 1) ≤ u64Max) :
    storeOutputs save i (g.signedPiece 0 payload) =
      .ok { i with
        cursor := ⟨i.start + 1, reservedUpTo i.cursor.reserved (i.start + 1)⟩
        published := i.published ++ g.signedPiece i.start payload } := by
  have hlt := Nat.le_trans (BroadcastCursor.le_reservedUpTo _ _) hfit
  rw [storeOutputs, g.address_signedPiece hlt payload]
  refine foldlM_publish hsave (g.signedPiece_ne_nil _ h) (fun out hout => ?_) (by omega) hfit
  obtain ⟨_, _, rfl⟩ := List.mem_mapIdx.mp hout
  rfl

variable {start reserved : Nat} {resync : TsResync} {stream : Bytes}

theorem round_reached {bytes : Bytes}
    (hle : (rest g.payloadCapacity stream).length + bytes.length ≤ g.payloadCapacity)
    (hfit : Fits g start reserved (stream ++ bytes)) :
    (reached g start reserved resync stream).round g save bytes =
      .ok (reached g start reserved resync (stream ++ bytes)) := by
  have hpos := g.capacity_pos
  have hrest := (blocks_append hpos stream bytes).2
  have hstop := g.stop_append start stream bytes
  have hsigned := g.signedPieces_append start stream bytes
  simp only [Fits, round, reached, SigningChunker.push, hrest, hstop, hsigned] at *
  rw [show g.chunker.payloadCapacity = g.payloadCapacity from rfl, drain_eq hpos]
  generalize rest g.payloadCapacity stream = begun at *
  generalize g.stop start stream = index at *
  rw [← List.length_append] at hle ⊢
  generalize begun ++ bytes = payload at *
  obtain hlt | heq := Nat.lt_or_eq_of_le hle
  · -- the payload is not full
    rw [blocks_of_lt hlt, rest_of_lt hlt]
    simp [storeOutputs, rebase, hlt.ne, BroadcastGeometry.signedPieces, blocks_of_lt hlt]
  · have hone : blocks g.payloadCapacity payload = [payload] := by
      simpa using blocks_flatten hpos (List.forall_mem_singleton.mpr heq)
    have hnone : rest g.payloadCapacity payload = [] := by
      rw [rest, heq, Nat.div_self hpos, Nat.one_mul, ← heq, List.drop_length]
    rw [hone, List.length_singleton] at hfit
    have hnext : checkedAdd index 1 = some (index + 1) :=
      if_pos (Nat.le_trans (BroadcastCursor.le_reservedUpTo _ _) hfit)
    have hagain : reservedUpTo (reservedUpTo reserved index) (index + 1) = _ :=
      BroadcastCursor.reservedUpTo_reservedUpTo (Nat.le_succ _)
    have hpieces : g.signedPieces index payload = g.signedPiece index payload := by
      simp [BroadcastGeometry.signedPieces, hone]
    rw [hone, hnone, hpieces]
    simp only [List.foldl_cons, List.foldl_nil, SigningChunker.emit, List.nil_append,
      show g.chunker.chunker = .new g.pieceLength g.chunkLength 0 from rfl, g.push_sealed heq,
      List.length_singleton]
    rw [storeOutputs_signedPiece hsave heq rfl (hagain.symm ▸ hfit)]
    show rebase g _ = _
    simp only [rebase, heq, hnext, hagain, if_true]
    rfl

theorem pushAligned_reached {fuel : Nat} {bytes : Bytes} (hfuel : bytes.length ≤ fuel)
    (hfit : Fits g start reserved (stream ++ bytes)) :
    pushAligned g save fuel (reached g start reserved resync stream) bytes =
      .ok (reached g start reserved resync (stream ++ bytes)) := by
  induction fuel generalizing stream bytes with
  | zero =>
    obtain rfl := List.eq_nil_of_length_eq_zero (Nat.le_zero.mp hfuel)
    rw [List.append_nil]
    rfl
  | succ fuel ih =>
    rw [pushAligned]
    split
    · next hempty => rw [List.isEmpty_iff.mp hempty, List.append_nil]
    · next hne =>
      have hbytes : 0 < bytes.length := List.length_pos_iff.mpr (by simpa using hne)
      have hrest : (rest g.payloadCapacity stream).length < g.payloadCapacity := by
        rw [rest, List.length_drop, ← Nat.mod_eq_sub_div_mul]
        exact Nat.mod_lt _ g.capacity_pos
      generalize htake : min bytes.length (g.payloadCapacity -
        (reached g start reserved resync stream).bufferedPayload) = take
      change min bytes.length (_ - (rest g.payloadCapacity stream).length) = take at htake
      have hsplit : stream ++ bytes.take take ++ bytes.drop take = stream ++ bytes := by
        rw [List.append_assoc, List.take_append_drop]
      have hround : (reached g start reserved resync stream).round g save (bytes.take take) = _ :=
        round_reached hsave (by rw [List.length_take]; omega)
          (hfit.of_prefix (hsplit ▸ List.prefix_append ..))
      simp only [hround]
      rw [← hsplit]
      exact ih (by rw [List.length_drop]; omega) (hsplit ▸ hfit)

theorem foldlM_pushSlice (s : Resynced) {slices : List Bytes}
    (hfit : Fits g start reserved (run Resynced.feed s slices).bytes) :
    slices.foldlM (pushSlice g save) (reached g start reserved s.state s.bytes) =
      .ok (reached g start reserved (run Resynced.feed s slices).state
        (run Resynced.feed s slices).bytes) := by
  induction slices generalizing s with
  | nil => rfl
  | cons slice slices ih =>
    have hfit' : Fits g start reserved (s.feed slice).bytes :=
      hfit.of_prefix (bytes_prefix_run (s.feed slice) slices)
    have hslice : pushSlice g save (reached g start reserved s.state s.bytes) slice =
        .ok (reached g start reserved (s.feed slice).state (s.feed slice).bytes) :=
      pushAligned_reached hsave (Nat.le_refl _) hfit'
    rw [List.foldlM_cons, hslice]
    exact ih _ hfit

end

/-- The slices of all pushes are slices of the stream. -/
theorem foldlM_pushBytes (i : BroadcastIngest) (parts : List Bytes) :
    ∃ all : List Bytes, all.flatten = parts.flatten ∧
      parts.foldlM (pushBytes g save) i = all.foldlM (pushSlice g save) i := by
  refine ⟨parts.flatMap slices, ?_, ?_⟩
  · induction parts with
    | nil => rfl
    | cons bytes parts ih =>
      rw [List.flatMap_cons, List.flatten_append, ih, slices, List.flatten_filter_not_isEmpty,
        List.flatten_append, List.flatten_singleton, flatten_blocks_rest (by decide),
        List.flatten_cons]
  · induction parts generalizing i with
    | nil => rfl
    | cons bytes parts ih =>
      rw [List.foldlM_cons, List.flatMap_cons, List.foldlM_append]
      exact bind_congr ih

/-- However a producer cuts its bytes into pushes, the store gets the chunks of the signed pieces of
the resynchronised stream, each piece once and in order, and the cursor stands behind the last of
them, within a reservation that was saved. It takes that every save is made and that the last
reservation is an index. -/
theorem ingest_publishes_signed_pieces (g : BroadcastGeometry) (save : Nat → Bool)
    (start reserved : Nat) (parts : List Bytes)
    (hsave : ∀ reservation, save reservation = true) (hstart : start ≤ reserved)
    (hfit : reservedUpTo reserved
      (g.stop start (TsResync.new.pushReport parts.flatten).1.bytes) ≤ u64Max) :
    let stream := (TsResync.new.pushReport parts.flatten).1.bytes
    ∃ i, parts.foldlM (pushBytes g save) (authorized g ⟨start, reserved⟩) = .ok i ∧
      i.published = g.signedPieces start stream ∧
      i.cursor = ⟨g.stop start stream, reservedUpTo reserved (g.stop start stream)⟩ := by
  intro stream
  obtain ⟨all, hall, hparts⟩ := @foldlM_pushBytes g save (authorized g ⟨start, reserved⟩) parts
  have hrun := (Resynced.run_feed .start all (Nat.zero_le _)).trans
    (Prod.ext (Lossy.nil_append _) rfl)
  have hbytes : (run Resynced.feed .start all).bytes =
      (TsResync.new.pushReport all.flatten).1.bytes :=
    congrArg (fun r => r.1.out) (hrun.trans (pushReport_drive TsResync.new all.flatten).symm)
  rw [hall] at hbytes
  have hbegin : authorized g ⟨start, reserved⟩ = reached g start reserved .new [] := by
    simp [authorized, reached, rest, blocks, BroadcastGeometry.signedPieces,
      BroadcastGeometry.stop, BroadcastCursor.reservedUpTo_of_le hstart]
    rfl
  rw [← hbytes] at hfit
  have hfold := foldlM_pushSlice hsave .start hfit
  rw [hbytes] at hfold
  exact ⟨_, hparts.trans (hbegin ▸ hfold), rfl, rfl⟩

/-- Payloads of one packet, signed with their last bytes. -/
def sampleGeometry : BroadcastGeometry where
  pieceLength := 192
  chunkLength := 48
  auth := ⟨fun payload => (payload ++ [0, 0, 0, 0]).take 4, [], 4⟩
  chunk_pos := by decide
  chunk_dvd := by decide
  piece_le := by decide
  signature_lt := by decide
  length_sign _ := by simp

/-- Three packets in two pushes: the last one is not yet known to be one. The second piece needs
a new reservation. -/
theorem ingest_publishes_packets :
    let packet := 0x47 :: List.replicate 187 0
    ∃ i, [packet ++ packet ++ [0x47], packet.tail].foldlM (pushBytes sampleGeometry fun _ => true)
        (authorized sampleGeometry ⟨5, 6⟩) = .ok i ∧
      i.published.map (·.piece) = [5, 5, 5, 5, 6, 6, 6, 6] ∧ i.cursor.reserved = 134 := by
  intro packet
  obtain ⟨i, hi, hpublished, hcursor⟩ := ingest_publishes_signed_pieces sampleGeometry
    (fun _ => true) 5 6 [packet ++ packet ++ [0x47], packet.tail] (fun _ => rfl) (by decide)
    (by decide +kernel)
  exact ⟨i, hi, by rw [hpublished]; decide +kernel, by rw [hcursor]; decide +kernel⟩

end BroadcastIngest

end Outpace.Engine

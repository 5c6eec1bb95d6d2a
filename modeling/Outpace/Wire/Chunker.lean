import Outpace.Data.Blocks
import Outpace.Wire.Reassembly

/-!
# Source chunking

`ace-wire/src/chunker.rs` and `signing_chunker.rs`: the source cuts its byte stream into chunks
addressed by piece, chunk and offset, and a signing source first closes each piece with a signature
over its payload. Whatever the parts in which the stream arrives, the chunks are those of the whole
stream (`TsChunker.chunks_eq`), and a signing source chunks the stream of its sealed pieces
(`SigningChunker.chunks_eq`).

The byte counter `abs` and the piece index are 64-bit and wrap, the chunk index is cut to 16 bits.
A chunk length is positive, as the constructor requires: the loop of `push` does not end on zero.
-/

namespace Outpace.Wire

/-- One emitted chunk. -/
structure OutChunk where
  piece : Nat
  chunk : Nat
  /-- Byte offset within the piece. -/
  begin : Nat
  data : Bytes
  deriving DecidableEq

structure TsChunker where
  pieceLength : Nat
  chunkLength : Nat
  startPiece : Nat
  buf : Bytes
  abs : Nat

namespace TsChunker

def new (pieceLength chunkLength startPiece : Nat) : TsChunker :=
  ⟨pieceLength, chunkLength, startPiece, [], 0⟩

/-- The address of the chunk at an absolute offset. -/
def address (c : TsChunker) (abs : Nat) (data : Bytes) : OutChunk where
  piece := wrappingAdd c.startPiece (abs / c.pieceLength)
  chunk := abs % c.pieceLength / c.chunkLength % 2 ^ 16
  begin := abs % c.pieceLength
  data := data

def makeChunk (c : TsChunker) (data : Bytes) : OutChunk × TsChunker :=
  (c.address c.abs data, { c with abs := wrappingAdd c.abs data.length })

/-- One round of the loop of `push`. -/
def emit (s : List OutChunk × TsChunker) (data : Bytes) : List OutChunk × TsChunker :=
  (s.1 ++ [(s.2.makeChunk data).1], (s.2.makeChunk data).2)

def push (c : TsChunker) (bytes : Bytes) : List OutChunk × TsChunker :=
  let ((out, c'), buf) := drain c.chunkLength emit ([], c) (c.buf ++ bytes)
  (out, { c' with buf := buf })

/-- The chunks of a sequence of pushes. -/
def chunks (c : TsChunker) (parts : List Bytes) : List OutChunk :=
  emits (fun c part => (c.push part).2) (fun c part => (c.push part).1) c parts

/-- The chunker at an absolute offset. -/
def moved (c : TsChunker) (abs : Nat) : TsChunker := { c with abs := abs }

/-- The chunker after a stream. -/
def reached (c : TsChunker) (stream : Bytes) : TsChunker :=
  { c with
    abs := stream.length / c.chunkLength * c.chunkLength
    buf := rest c.chunkLength stream }

/-- The chunks of consecutive blocks from an absolute offset on. -/
def addressed (c : TsChunker) (abs : Nat) (bs : List Bytes) : List OutChunk :=
  bs.mapIdx fun i data => c.address (abs + i * c.chunkLength) data

variable {c : TsChunker}

theorem addressed_append (xs ys : List Bytes) (abs : Nat) :
    c.addressed abs (xs ++ ys) =
      c.addressed abs xs ++ c.addressed (abs + xs.length * c.chunkLength) ys := by
  rw [addressed, List.mapIdx_append]
  congr 1
  unfold addressed
  congr 1
  funext i data
  rw [Nat.add_mul, Nat.add_comm (i * _), Nat.add_assoc]

theorem foldl_emit {abs : Nat} {bs : List Bytes} (hlen : ∀ b ∈ bs, b.length = c.chunkLength)
    (hmax : abs + bs.length * c.chunkLength ≤ u64Max) (out : List OutChunk) :
    bs.foldl emit (out, c.moved abs) =
      (out ++ c.addressed abs bs, c.moved (abs + bs.length * c.chunkLength)) := by
  induction bs generalizing abs out with
  | nil => simp [addressed]
  | cons b bs ih =>
    obtain ⟨hb, hbs⟩ := List.forall_mem_cons.mp hlen
    rw [List.length_cons, Nat.succ_mul] at hmax
    have hstep : emit (out, c.moved abs) b =
        (out ++ [c.address abs b], c.moved (abs + c.chunkLength)) := by
      have hadd : wrappingAdd abs b.length = abs + c.chunkLength := by
        rw [hb, wrappingAdd_eq (by omega)]
      simp only [emit, makeChunk, moved, hadd]
      rfl
    have hsplit := addressed_append (c := c) [b] bs abs
    rw [List.length_singleton, Nat.one_mul] at hsplit
    have hone : c.addressed abs [b] = [c.address abs b] := by simp [addressed]
    rw [List.foldl_cons, hstep, ih hbs (by omega), List.append_assoc, ← hone, ← hsplit,
      List.length_cons, Nat.succ_mul, Nat.add_assoc, Nat.add_comm c.chunkLength]
    rfl

theorem push_eq (hpos : 0 < c.chunkLength) (bytes : Bytes) :
    c.push bytes =
      (((blocks c.chunkLength (c.buf ++ bytes)).foldl emit ([], c)).1,
        { ((blocks c.chunkLength (c.buf ++ bytes)).foldl emit ([], c)).2 with
          buf := rest c.chunkLength (c.buf ++ bytes) }) := by
  simp only [push, drain_eq hpos]

/-- One push, after some stream. -/
theorem push_reached (hpos : 0 < c.chunkLength) {stream bytes : Bytes}
    (hmax : (stream ++ bytes).length ≤ u64Max) :
    (c.reached stream).push bytes =
      (c.addressed (stream.length / c.chunkLength * c.chunkLength)
          (blocks c.chunkLength (rest c.chunkLength stream ++ bytes)),
        c.reached (stream ++ bytes)) := by
  obtain ⟨hblocks, hrest⟩ := blocks_append hpos stream bytes
  have hend : stream.length / c.chunkLength * c.chunkLength +
      (blocks c.chunkLength (rest c.chunkLength stream ++ bytes)).length * c.chunkLength =
        (stream ++ bytes).length / c.chunkLength * c.chunkLength := by
    rw [← Nat.add_mul, ← length_blocks c.chunkLength stream, ← List.length_append, ← hblocks,
      length_blocks]
  have hfold : (blocks c.chunkLength (rest c.chunkLength stream ++ bytes)).foldl emit
      ([], c.reached stream) = _ :=
    foldl_emit (c := c.reached stream) (fun b hb => length_of_mem_blocks hb)
      (Nat.le_trans (Nat.le_of_eq hend) (Nat.le_trans (Nat.div_mul_le_self ..) hmax)) []
  rw [push_eq (c := c.reached stream) hpos]
  show (((blocks c.chunkLength (rest c.chunkLength stream ++ bytes)).foldl emit
    ([], c.reached stream)).1, TsChunker.mk _ _ _ _ _) = _
  simp only [reached] at hfold ⊢
  rw [hfold, ← hrest, hend]
  rfl

theorem chunks_reached (hpos : 0 < c.chunkLength) (stream : Bytes) {parts : List Bytes}
    (hmax : (stream ++ parts.flatten).length ≤ u64Max) :
    c.addressed 0 (blocks c.chunkLength stream) ++ (c.reached stream).chunks parts =
      c.addressed 0 (blocks c.chunkLength (stream ++ parts.flatten)) := by
  induction parts generalizing stream with
  | nil => simp [chunks]
  | cons part parts ih =>
    rw [List.flatten_cons, ← List.append_assoc] at hmax
    have hpart : (stream ++ part).length ≤ u64Max := by
      rw [List.length_append] at hmax
      omega
    rw [chunks, emits_cons, push_reached hpos hpart, ← List.append_assoc, List.flatten_cons,
      ← List.append_assoc stream, ← ih _ hmax, (blocks_append hpos stream part).1, addressed_append,
      length_blocks, Nat.zero_add]
    rfl

/-- The chunks do not depend on how the stream is cut into pushes. -/
theorem chunks_eq {pieceLength chunkLength startPiece : Nat} (hpos : 0 < chunkLength)
    {parts : List Bytes} (hmax : parts.flatten.length ≤ u64Max) :
    (new pieceLength chunkLength startPiece).chunks parts =
      (new pieceLength chunkLength startPiece).addressed 0 (blocks chunkLength parts.flatten) := by
  have h := chunks_reached (c := new pieceLength chunkLength startPiece) hpos [] hmax
  have hnil : blocks chunkLength ([] : Bytes) = [] := by simp [blocks]
  have hstart : (new pieceLength chunkLength startPiece).reached [] =
      new pieceLength chunkLength startPiece := by
    simp [reached, new, rest]
  rw [hstart, show (new pieceLength chunkLength startPiece).chunkLength = chunkLength from rfl,
    hnil] at h
  exact h

end TsChunker

/-! ### Signing sources -/

/-- The RSA identity of a source: `sign`, `pubkey_der` and `signature_len` of `live_auth.rs`. -/
structure LiveSourceAuth where
  sign : Bytes → Bytes
  pubkeyDer : Bytes
  signatureLen : Nat

/-- A signature scheme of fixed length in which verification accepts what was signed. -/
structure LiveSourceAuth.Lawful (auth : LiveAuth) (source : LiveSourceAuth) : Prop where
  length_sign : ∀ payload, (source.sign payload).length = source.signatureLen
  verify_sign : ∀ payload, auth.verifyPiece source.pubkeyDer payload (source.sign payload) = true
  signatureLen_pubkeyDer :
    auth.signatureLenFromPubkeyDer source.pubkeyDer = some source.signatureLen

structure SigningChunker where
  payloadCapacity : Nat
  buf : Bytes
  chunker : TsChunker

namespace SigningChunker

/-- The constructor asserts that `sigLen` is less than `pieceLength`. -/
def new (pieceLength chunkLength startPiece sigLen : Nat) : SigningChunker :=
  ⟨pieceLength - sigLen, [], .new pieceLength chunkLength startPiece⟩

/-- A payload with its signature. -/
def sealed (source : LiveSourceAuth) (payload : Bytes) : Bytes := payload ++ source.sign payload

/-- One round of the loop of `push`. -/
def emit (source : LiveSourceAuth) (s : List OutChunk × TsChunker) (payload : Bytes) :
    List OutChunk × TsChunker :=
  let (out, chunker) := s.2.push (sealed source payload)
  (s.1 ++ out, chunker)

def push (source : LiveSourceAuth) (c : SigningChunker) (bytes : Bytes) :
    List OutChunk × SigningChunker :=
  let ((out, chunker), buf) :=
    drain c.payloadCapacity (emit source) ([], c.chunker) (c.buf ++ bytes)
  (out, { c with buf := buf, chunker := chunker })

/-- The chunks of a sequence of pushes. -/
def chunks (source : LiveSourceAuth) (c : SigningChunker) (parts : List Bytes) : List OutChunk :=
  emits (fun c part => (c.push source part).2) (fun c part => (c.push source part).1) c parts

variable {source : LiveSourceAuth}

theorem foldl_emit (payloads : List Bytes) (out : List OutChunk) (c : TsChunker) :
    payloads.foldl (emit source) (out, c) =
      (out ++ c.chunks (payloads.map (sealed source)),
        run (fun c part => (c.push part).2) c (payloads.map (sealed source))) := by
  induction payloads generalizing out c with
  | nil => simp [TsChunker.chunks]
  | cons payload payloads ih =>
    rw [List.foldl_cons, emit, ih, List.append_assoc]
    rfl

theorem chunks_append (c : TsChunker) (xs ys : List Bytes) :
    c.chunks (xs ++ ys) = c.chunks xs ++ (run (fun c part => (c.push part).2) c xs).chunks ys := by
  induction xs generalizing c with
  | nil => rfl
  | cons x xs ih =>
    rw [TsChunker.chunks, List.cons_append, emits_cons, ← TsChunker.chunks, ih, ← List.append_assoc]
    rfl

theorem chunks_from {capacity : Nat} (hpos : 0 < capacity) (before : Bytes) (chunker : TsChunker)
    (parts : List Bytes) :
    chunker.chunks ((blocks capacity before).map (sealed source)) ++
        chunks source ⟨capacity, rest capacity before,
          run (fun c part => (c.push part).2) chunker ((blocks capacity before).map (sealed source))⟩
          parts =
      chunker.chunks ((blocks capacity (before ++ parts.flatten)).map (sealed source)) := by
  induction parts generalizing before with
  | nil => simp [chunks]
  | cons part parts ih =>
    obtain ⟨hblocks, hrest⟩ := blocks_append hpos before part
    have hpush : push source ⟨capacity, rest capacity before,
        run (fun c part => (c.push part).2) chunker ((blocks capacity before).map (sealed source))⟩
        part =
        ((run (fun c part => (c.push part).2) chunker
            ((blocks capacity before).map (sealed source))).chunks
            ((blocks capacity (rest capacity before ++ part)).map (sealed source)),
          ⟨capacity, rest capacity (before ++ part), run (fun c part => (c.push part).2) chunker
            ((blocks capacity (before ++ part)).map (sealed source))⟩) := by
      simp only [push, drain_eq hpos, foldl_emit, List.nil_append, hblocks, hrest, List.map_append,
        run_append]
    rw [chunks, emits_cons, hpush, ← List.append_assoc, ← chunks_append, ← List.map_append,
      ← hblocks, List.flatten_cons, ← List.append_assoc before, ← ih]
    rfl

/-- A signing source chunks the stream of its sealed pieces. -/
theorem chunks_eq {pieceLength chunkLength startPiece sigLen : Nat} (hpos : sigLen < pieceLength)
    (parts : List Bytes) :
    chunks source (new pieceLength chunkLength startPiece sigLen) parts =
      (TsChunker.new pieceLength chunkLength startPiece).chunks
        ((blocks (pieceLength - sigLen) parts.flatten).map (sealed source)) := by
  have h := @chunks_from source _ (Nat.sub_pos_of_lt hpos) []
    (TsChunker.new pieceLength chunkLength startPiece) parts
  simpa [blocks, rest, TsChunker.chunks, new] using h

end SigningChunker

end Outpace.Wire

import Mathlib.Data.Finset.Sort
import Mathlib.Order.Interval.Finset.Nat
import Outpace.Data.Machine
import Outpace.Data.Buffer

/-!
# One video-on-demand piece

The piece-local part of `ace-swarm/src/vod.rs` and `vod/coordinator.rs`: the geometry of a download,
the assembly buffer of a piece, what a peer has told us about the pieces it holds, and the loop of
`assemble_piece` that requests the blocks of one piece and accepts what the peer answers. SHA-1 is
outside the source tree and a parameter.
-/

namespace Outpace.Swarm.Vod

abbrev Bytes := List UInt8

structure VodInfo where
  pieceLength : Nat
  chunkLength : Nat
  totalLength : Nat
  pieceHashes : List Bytes

namespace VodInfo

def pieceCount (info : VodInfo) : Nat := info.pieceHashes.length

/-- Length of a piece; the product wraps in 64 bits. -/
def pieceSize (info : VodInfo) (index : Nat) : Nat :=
  min (info.totalLength - index * info.pieceLength % 2 ^ 64) info.pieceLength

end VodInfo

def verifyPiece (sha1 : Bytes → Bytes) (expected bytes : Bytes) : Bool := sha1 bytes == expected

/-! ### Assembly buffer -/

/-- Bytes of a piece under assembly, with the offsets written so far and their number. -/
structure PieceBuffer where
  bytes : Bytes
  covered : Finset Nat
  coveredLen : Nat

namespace PieceBuffer

def new (pieceLen : Nat) : PieceBuffer := ⟨List.replicate pieceLen 0, ∅, 0⟩

/-- Add a block; the reply says whether it covered anything new. Empty and out-of-range blocks are
refused. -/
def addBlock (b : PieceBuffer) (start : Nat) (block : Bytes) : Option (Bool × PieceBuffer) :=
  if block.isEmpty then none
  else
    match checkedAdd start block.length with
    | none => none
    | some stop =>
      if b.bytes.length ≤ start ∨ b.bytes.length < stop then none
      else
        let coveredLen := b.coveredLen + (Finset.Ico start stop \ b.covered).card
        some (decide (b.coveredLen < coveredLen),
          ⟨overwrite b.bytes start block, b.covered ∪ Finset.Ico start stop, coveredLen⟩)

def covers (b : PieceBuffer) (start stop : Nat) : Bool :=
  decide (Finset.Ico start stop ⊆ b.covered)

def isComplete (b : PieceBuffer) : Bool := b.coveredLen == b.bytes.length

theorem addBlock_length {b b' : PieceBuffer} {start : Nat} {block : Bytes} {progress : Bool}
    (h : b.addBlock start block = some (progress, b')) : b'.bytes.length = b.bytes.length := by
  unfold addBlock at h
  split at h
  · cases h
  split at h
  · cases h
  next stop hstop =>
  obtain ⟨-, rfl⟩ := checkedAdd_eq_some.mp hstop
  split at h
  · cases h
  next hfits =>
  cases h
  exact length_overwrite (by omega)

end PieceBuffer

/-! ### What a peer has -/

/-- The peer messages the download reads. -/
inductive PeerMessage where
  | choke
  | unchoke
  | bitfield (bits : Bytes)
  | have (index : Nat)
  | piece (index start : Nat) (block : Bytes)
  | other

inductive Failure where
  | peer
  | hash
  deriving DecidableEq

structure Availability where
  unchoked : Bool
  bits : Option Bytes

namespace Availability

def default : Availability := ⟨false, none⟩

/-- The bit of a piece in a bitfield byte. -/
def mask (piece : Nat) : UInt8 := 0x80 >>> UInt8.ofNat (piece % 8)

/-- A peer that sent no bitfield is taken to have every piece. -/
def has (a : Availability) (piece : Nat) : Bool :=
  match a.bits with
  | none => true
  | some bits => (bits[piece / 8]?.getD 0) &&& mask piece != 0

/-- The bitfield has one bit for each piece and none behind the last. -/
def validBits (bits : Bytes) (count : Nat) : Bool :=
  bits.length == (count + 7) / 8 &&
    (count % 8 == 0 || bits.getLast?.all fun last => last &&& UInt8.ofNat (2 ^ (8 - count % 8) - 1) == 0)

def control (a : Availability) (message : PeerMessage) (count : Nat) :
    Except Failure Availability :=
  match message with
  | .choke => .ok { a with unchoked := false }
  | .unchoke => .ok { a with unchoked := true }
  | .bitfield bits =>
    if validBits bits count then .ok { a with bits := some bits } else .error .peer
  | .have index =>
    if count ≤ index then .error .peer
    else .ok { a with bits := a.bits.map fun bits => bits.modify (index / 8) (· ||| mask index) }
  | _ => .ok a

end Availability

/-! ### Assembling a piece -/

/-- Requests a worker keeps outstanding for its piece. -/
def maxRequests : Nat := 8

/-- The local variables of `assemble_piece`. -/
structure Assembly where
  buffer : PieceBuffer
  sent : Nat
  outstanding : List (Nat × Nat)

namespace Assembly

def new (pieceLen : Nat) : Assembly := ⟨.new pieceLen, 0, []⟩

/-- Request blocks in order while fewer than `maxRequests` are outstanding. -/
def fill (info : VodInfo) : (fuel : Nat) → Assembly → Assembly
  | 0, a => a
  | fuel + 1, a =>
    if a.outstanding.length < maxRequests ∧ a.sent < a.buffer.bytes.length then
      let length := min info.chunkLength (a.buffer.bytes.length - a.sent)
      fill info fuel
        { a with outstanding := a.outstanding ++ [(a.sent, a.sent + length)], sent := a.sent + length }
    else a

/-- The top of the loop: an unchoked peer is asked for more blocks, at most `maxRequests` at
once. -/
def request (info : VodInfo) (unchoked : Bool) (a : Assembly) : Assembly :=
  if unchoked then fill info maxRequests a else a

/-- What one message brings a fetch. -/
inductive Progress where
  | continued (a : Assembly) (availability : Availability)
  | finished (bytes : Bytes)
  | failed (failure : Failure)
  | panicked

/-- One turn of the loop of `assemble_piece` on a message. -/
def onMessage (sha1 : Bytes → Bytes) (info : VodInfo) (piece : Nat) (a : Assembly)
    (availability : Availability) (message : PeerMessage) : Progress :=
  let next (a : Assembly) (availability : Availability) : Progress :=
    .continued (a.request info availability.unchoked) availability
  let control : Progress :=
    match availability.control message info.pieceCount with
    | .ok availability => next a availability
    | .error failure => .failed failure
  match message with
  | .piece index start block =>
    if index = piece then
      match checkedAdd start block.length with
      | none => .failed .peer
      | some stop =>
        -- a block behind everything requested
        if a.sent < stop then .failed .peer
        else
          match a.buffer.addBlock start block with
          | none => .failed .peer
          | some (_, buffer) =>
            if buffer.isComplete then
              match info.pieceHashes[piece]? with
              | none => .panicked
              | some expected =>
                if verifyPiece sha1 expected buffer.bytes then .finished buffer.bytes
                else .failed .hash
            else
              next
                { a with
                  buffer := buffer
                  outstanding := a.outstanding.filter fun (start, stop) => !buffer.covers start stop }
                availability
    else control
  | _ => control

variable {info : VodInfo} {a : Assembly}

theorem fill_buffer (info : VodInfo) (fuel : Nat) (a : Assembly) :
    (fill info fuel a).buffer = a.buffer := by
  induction fuel generalizing a with
  | zero => rfl
  | succ fuel ih =>
    rw [fill]
    split
    · exact ih _
    · rfl

theorem request_buffer (info : VodInfo) (unchoked : Bool) (a : Assembly) :
    (a.request info unchoked).buffer = a.buffer := by
  unfold request
  split
  · exact fill_buffer ..
  · rfl

/-- The bytes are those of the piece: of its length and with its hash. -/
structure Verified (sha1 : Bytes → Bytes) (info : VodInfo) (piece : Nat) (bytes : Bytes) : Prop where
  length : bytes.length = info.pieceSize piece
  hash : info.pieceHashes[piece]? = some (sha1 bytes)

/-- A fetch keeps its buffer at the length of the piece, and finishes with verified bytes only. -/
theorem onMessage_spec (sha1 : Bytes → Bytes) {piece : Nat} (availability : Availability)
    (message : PeerMessage) (h : a.buffer.bytes.length = info.pieceSize piece) :
    (∀ a' availability', a.onMessage sha1 info piece availability message =
        .continued a' availability' → a'.buffer.bytes.length = info.pieceSize piece) ∧
      ∀ bytes, a.onMessage sha1 info piece availability message = .finished bytes →
        Verified sha1 info piece bytes := by
  have hcontrol : (∀ a' availability',
      (match availability.control message info.pieceCount with
        | .ok availability => Progress.continued (a.request info availability.unchoked) availability
        | .error failure => .failed failure) = .continued a' availability' →
        a'.buffer.bytes.length = info.pieceSize piece) ∧
      ∀ bytes, (match availability.control message info.pieceCount with
        | .ok availability => Progress.continued (a.request info availability.unchoked) availability
        | .error failure => .failed failure) ≠ .finished bytes := by
    constructor
    · intro a' availability' heq
      split at heq
      · cases heq
        rw [request_buffer, h]
      · cases heq
    · intro bytes heq
      split at heq <;> cases heq
  unfold onMessage
  dsimp only
  split
  · next index start block =>
    split
    · split
      · exact ⟨nofun, nofun⟩
      split
      · exact ⟨nofun, nofun⟩
      split
      · exact ⟨nofun, nofun⟩
      next buffer hadd =>
      have hlen := (PieceBuffer.addBlock_length hadd).trans h
      split
      · split
        · exact ⟨nofun, nofun⟩
        next expected hhash =>
        split
        · next hv =>
          refine ⟨nofun, fun bytes heq => ?_⟩
          cases heq
          exact ⟨hlen, by rw [hhash, ← beq_iff_eq.mp hv]⟩
        · exact ⟨nofun, nofun⟩
      · refine ⟨fun a' availability' heq => ?_, nofun⟩
        cases heq
        rw [request_buffer]
        exact hlen
    · exact ⟨hcontrol.1, fun bytes heq => absurd heq (hcontrol.2 bytes)⟩
  · exact ⟨hcontrol.1, fun bytes heq => absurd heq (hcontrol.2 bytes)⟩

end Assembly

end Outpace.Swarm.Vod

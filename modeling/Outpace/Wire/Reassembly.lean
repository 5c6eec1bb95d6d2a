import Mathlib.Data.Finset.Insert
import Mathlib.Data.Finset.Basic
import Outpace.Data.Machine
import Outpace.Data.OrderedMap
import Outpace.Data.Buffer

/-!
# Live piece reassembly

The pure reassembler of `ace-wire/src/reassembly.rs`. Peers deliver blocks of pieces; blocks are
written into partial pieces, a piece whose counted bytes reach `pieceLength` is authenticated and
becomes complete, and complete pieces leave in order from the emit cursor `nextEmit`.

Every operation that the source runs on `&mut self` returns its reply together with the state it
leaves, also when the reply is an error. RSA is outside the source tree: `LiveAuth` stands for the
two functions of `live_auth.rs` that call it.
-/

namespace Outpace.Wire

abbrev Bytes := List UInt8

/-- The 8-byte live piece header. -/
abbrev Header := Vector UInt8 8

def zeroHeader : Header := Vector.replicate 8 0

inductive WireError where
  | truncated
  | invalidProtection
  | signatureRejected
  | invalid (what : String)
  deriving DecidableEq, Repr

/-- The RSA functions of `live_auth.rs`: `verify_piece` and `signature_len_from_pubkey_der`. -/
structure LiveAuth where
  verifyPiece : (pubkeyDer payload signature : Bytes) → Bool
  signatureLenFromPubkeyDer : (pubkeyDer : Bytes) → Option Nat

/-- Split a wire piece into payload and trailing signature. -/
def splitPiece (piece : Bytes) (sigLen : Nat) : Option (Bytes × Bytes) :=
  if piece.length < sigLen then none else some (piece.splitAt (piece.length - sigLen))

structure LiveMetadata where
  header : Header
  chunkLength : Nat
  eligible : Bool
  deriving DecidableEq

inductive LiveAcceptance where
  | sourceVerified
  | unsignedAssemblyAccepted
  | unauthenticated
  deriving DecidableEq

structure LiveBlockOutcome where
  contributed : Bool
  completed : Bool
  deriving DecidableEq

structure CompletedLivePiece where
  wire : Bytes
  header : Header
  acceptance : LiveAcceptance
  deriving DecidableEq

structure ReadyPiece where
  index : Nat
  bytes : Bytes
  deriving DecidableEq

structure Complete where
  buf : Bytes
  live : Option LiveMetadata
  deriving DecidableEq

structure Partial where
  live : Option LiveMetadata
  buf : Bytes
  filledOffsets : Finset Nat
  filled : Nat
  deriving DecidableEq

structure PieceReassembler where
  pieceLength : Nat
  nextEmit : Nat
  pieceTrailer : Nat
  verifyPubkey : Option Bytes
  maxAhead : Nat
  partials : OrderedMap Nat Partial
  complete : OrderedMap Nat Complete

namespace Partial

/-- A piece nothing was written to yet. -/
def new (pieceLength : Nat) : Partial :=
  { live := none, buf := List.replicate pieceLength 0, filledOffsets := ∅, filled := 0 }

/-- Copy a block in at `start`. Its bytes count towards completion only the first time a block
starts there. -/
def write (p : Partial) (start : Nat) (block : Bytes) : Partial where
  live := none
  buf := overwrite p.buf start block
  filledOffsets := insert start p.filledOffsets
  filled := if start ∈ p.filledOffsets then p.filled else p.filled + block.length

end Partial

namespace PieceReassembler

def new (pieceLength startPiece : Nat) : PieceReassembler where
  pieceLength := pieceLength
  nextEmit := startPiece
  pieceTrailer := 0
  verifyPubkey := none
  maxAhead := u64Max
  partials := ∅
  complete := ∅

def withPieceTrailer (r : PieceReassembler) (sigLen : Nat) : PieceReassembler :=
  { r with pieceTrailer := min sigLen r.pieceLength }

def withSourcePubkey (auth : LiveAuth) (r : PieceReassembler) (pubkeyDer : Bytes) :
    PieceReassembler :=
  match auth.signatureLenFromPubkeyDer pubkeyDer with
  | some sigLen =>
    { r with pieceTrailer := min sigLen r.pieceLength, verifyPubkey := some pubkeyDer }
  | none => r

def withMaxPiecesAhead (r : PieceReassembler) (maxPiecesAhead : Nat) : PieceReassembler :=
  { r with maxAhead := maxPiecesAhead }

/-- The piece at `index` is behind the cursor or complete already: a block for it is a no-op. -/
def settled (r : PieceReassembler) (index : Nat) : Bool :=
  decide (index < r.nextEmit) || r.complete.contains index

/-- Whether the source key, if there is one, accepts an assembled wire piece. -/
def authenticate (auth : LiveAuth) (r : PieceReassembler) (buf : Bytes) : Except WireError Unit :=
  match r.verifyPubkey with
  | none => .ok ()
  | some pubkey =>
    match splitPiece buf r.pieceTrailer with
    | none => .error (.invalid "live-source piece trailer split failed")
    | some (payload, sig) =>
      if auth.verifyPiece pubkey payload sig then .ok () else .error .signatureRejected

/-- The partial piece at `index`, new if there is none, with an admitted block written to it. -/
def written (r : PieceReassembler) (index start : Nat) (block : Bytes) : Partial :=
  ((r.partials.get? index).getD (Partial.new r.pieceLength)).write start block

/-- Write an admitted block, and move the piece to the complete ones when its count is full and its
signature, if checked, verifies. -/
def store (auth : LiveAuth) (r : PieceReassembler) (index start : Nat) (block : Bytes) :
    Except WireError Bool × PieceReassembler :=
  let p := r.written index start block
  if r.pieceLength ≤ p.filled then
    -- the partial is gone before the signature is looked at
    let r' := { r with partials := r.partials.erase index }
    match authenticate auth r p.buf with
    | .error e => (.error e, r')
    | .ok () =>
      (.ok (!block.isEmpty), { r' with complete := r.complete.insert index ⟨p.buf, none⟩ })
  else
    (.ok (!block.isEmpty), { r with partials := r.partials.insert index p })

def addBlockWithContribution (auth : LiveAuth) (r : PieceReassembler) (index start : Nat)
    (block : Bytes) : Except WireError Bool × PieceReassembler :=
  if r.settled index then (.ok false, r)
  else if saturatingAdd r.nextEmit r.maxAhead ≤ index then
    (.error (.invalid "piece index too far ahead of emit cursor"), r)
  else
    match checkedAdd start block.length with
    | none => (.error (.invalid "block offset overflow"), r)
    | some stop =>
      if r.pieceLength < stop then (.error (.invalid "block exceeds piece length"), r)
      else store auth r index start block

def addBlock (auth : LiveAuth) (r : PieceReassembler) (index start : Nat) (block : Bytes) :
    Except WireError Unit × PieceReassembler :=
  let (reply, r') := addBlockWithContribution auth r index start block
  (reply.map fun _ => (), r')

/-- The chunk has the shape that makes a piece publishable. -/
def geometry (r : PieceReassembler) (chunk chunkLength : Nat) (block : Bytes) : Bool :=
  decide (0 < chunkLength ∧ 0 < r.pieceLength ∧ r.pieceLength % chunkLength = 0 ∧
    r.pieceLength / chunkLength ≤ 65535 ∧ chunk < r.pieceLength / chunkLength ∧
    block.length = chunkLength ∧ r.pieceLength ≤ u64Max)

/-- The publication metadata of the piece at `index` once this chunk is counted. -/
def chunkMetadata (r : PieceReassembler) (index chunk chunkLength : Nat) (header : Header)
    (block : Bytes) : LiveMetadata :=
  let prior := r.partials.get? index
  let metadata := (prior.bind (·.live)).getD ⟨header, chunkLength, prior.isNone⟩
  { metadata with
    eligible := metadata.eligible && (r.geometry chunk chunkLength block &&
      metadata.header == header && metadata.chunkLength == chunkLength) }

/-- Attach publication metadata to the piece at `index`, wherever it is held. -/
def setLive (r : PieceReassembler) (index : Nat) (metadata : LiveMetadata) : PieceReassembler :=
  if r.complete.contains index then
    { r with complete := r.complete.modify index fun c => { c with live := some metadata } }
  else
    { r with partials := r.partials.modify index fun p => { p with live := some metadata } }

def addLiveChunk (auth : LiveAuth) (r : PieceReassembler) (index chunk chunkLength : Nat)
    (header : Header) (block : Bytes) : Except WireError LiveBlockOutcome × PieceReassembler :=
  if r.settled index then (.ok ⟨false, false⟩, r)
  else
    match checkedMul chunk chunkLength with
    | none => (.error (.invalid "block offset overflow"), r)
    | some start =>
      match addBlockWithContribution auth r index start block with
      | (.error e, r') => (.error e, r')
      | (.ok contributed, r') =>
        (.ok ⟨contributed, r'.complete.contains index⟩,
          r'.setLive index (r.chunkMetadata index chunk chunkLength header block))

def completedLivePiece (r : PieceReassembler) (index : Nat) : Option CompletedLivePiece := do
  let done ← r.complete.get? index
  let metadata ← done.live.filter (·.eligible)
  let acceptance :=
    if r.verifyPubkey.isSome then .sourceVerified
    else if r.pieceTrailer = 0 then .unsignedAssemblyAccepted
    else .unauthenticated
  some ⟨done.buf, metadata.header, acceptance⟩

def discardPartial (r : PieceReassembler) (index : Nat) : PieceReassembler :=
  { r with partials := r.partials.erase index }

/-- The media bytes of a wire piece: everything before the trailer. -/
def media (r : PieceReassembler) (buf : Bytes) : Bytes := buf.take (buf.length - r.pieceTrailer)

def readyPiece (r : PieceReassembler) (index : Nat) : Option Bytes :=
  (r.complete.get? index).map fun done => r.media done.buf

/-- The consecutive complete payloads from `next` on, at most `fuel` of them. -/
def readyChunksFrom (r : PieceReassembler) : (fuel next : Nat) → List Bytes
  | 0, _ => []
  | fuel + 1, next =>
    match r.complete.get? next, checkedAdd next 1 with
    | some done, some next' => r.media done.buf :: r.readyChunksFrom fuel next'
    | _, _ => []

def readyChunks (r : PieceReassembler) : List Bytes := r.readyChunksFrom r.complete.size r.nextEmit

def takeReadyPiece (r : PieceReassembler) : Option ReadyPiece × PieceReassembler :=
  match checkedAdd r.nextEmit 1, r.complete.get? r.nextEmit with
  | some next, some done =>
    (some ⟨r.nextEmit, r.media done.buf⟩,
      { r with nextEmit := next, complete := r.complete.erase r.nextEmit })
  | _, _ => (none, r)

/-- The loop of `take_ready`: each round removes the complete piece at the cursor, so it runs at
most once for every complete piece. -/
def takeReadyLoop : (fuel : Nat) → PieceReassembler → List ReadyPiece × PieceReassembler
  | 0, r => ([], r)
  | fuel + 1, r =>
    match r.complete.get? r.nextEmit with
    | none => ([], r)
    | some done =>
      let (rest, r') := takeReadyLoop fuel
        { r with nextEmit := wrappingAdd r.nextEmit 1, complete := r.complete.erase r.nextEmit }
      (⟨r.nextEmit, r.media done.buf⟩ :: rest, r')

/-- The pieces that one `take_ready` call drains, in order. -/
def takeReadyPieces (r : PieceReassembler) : List ReadyPiece × PieceReassembler :=
  takeReadyLoop r.complete.size r

def takeReady (r : PieceReassembler) : Bytes × PieceReassembler :=
  ((r.takeReadyPieces.1.map (·.bytes)).flatten, r.takeReadyPieces.2)

def nextNeeded (r : PieceReassembler) : Nat := r.nextEmit

def skipTo (r : PieceReassembler) (piece : Nat) : PieceReassembler :=
  if piece ≤ r.nextEmit then r
  else
    { r with
      nextEmit := piece
      partials := r.partials.filter fun idx _ => decide (piece ≤ idx)
      complete := r.complete.filter fun idx _ => decide (piece ≤ idx) }

/-! ### What one block can do -/

/-- The block passes every check of `add_block_with_contribution` and is written. -/
structure Admitted (r : PieceReassembler) (index start : Nat) (block : Bytes) : Prop where
  unsettled : r.settled index = false
  ahead : index < saturatingAdd r.nextEmit r.maxAhead
  fits : start + block.length ≤ r.pieceLength

instance (r : PieceReassembler) (index start : Nat) (block : Bytes) :
    Decidable (r.Admitted index start block) :=
  decidable_of_iff (r.settled index = false ∧ index < saturatingAdd r.nextEmit r.maxAhead ∧
    start + block.length ≤ r.pieceLength)
    ⟨fun ⟨h, h', h''⟩ => ⟨h, h', h''⟩, fun ⟨h, h', h''⟩ => ⟨h, h', h''⟩⟩

/-- The ways a block can be answered, with the state each leaves. -/
inductive AddBlock (auth : LiveAuth) (r : PieceReassembler) (index start : Nat) (block : Bytes) :
    Except WireError Bool → PieceReassembler → Prop
  | settled : r.settled index = true → AddBlock auth r index start block (.ok false) r
  | rejected {why : String} : r.settled index = false →
    AddBlock auth r index start block (.error (.invalid why)) r
  | wrote : r.Admitted index start block →
    (r.written index start block).filled < r.pieceLength →
    AddBlock auth r index start block (.ok (!block.isEmpty))
      { r with partials := r.partials.insert index (r.written index start block) }
  | failed {e : WireError} : r.Admitted index start block →
    r.pieceLength ≤ (r.written index start block).filled →
    authenticate auth r (r.written index start block).buf = .error e →
    AddBlock auth r index start block (.error e)
      { r with partials := r.partials.erase index }
  | completed : r.Admitted index start block →
    r.pieceLength ≤ (r.written index start block).filled →
    authenticate auth r (r.written index start block).buf = .ok () →
    AddBlock auth r index start block (.ok (!block.isEmpty))
      { r with
        partials := r.partials.erase index
        complete := r.complete.insert index ⟨(r.written index start block).buf, none⟩ }

theorem addBlockWithContribution_spec (auth : LiveAuth) (r : PieceReassembler) (index start : Nat)
    (block : Bytes) :
    AddBlock auth r index start block (addBlockWithContribution auth r index start block).1
      (addBlockWithContribution auth r index start block).2 := by
  unfold addBlockWithContribution
  split
  · next h => exact .settled h
  next hs =>
  have hs : r.settled index = false := by simpa using hs
  split
  · exact .rejected hs
  next hahead =>
  split
  · exact .rejected hs
  next stop hstop =>
  obtain ⟨-, rfl⟩ := checkedAdd_eq_some.mp hstop
  split
  · exact .rejected hs
  next hfits =>
  have hadm : r.Admitted index start block := ⟨hs, by omega, by omega⟩
  by_cases hfull : r.pieceLength ≤ (r.written index start block).filled
  · cases hauth : authenticate auth r (r.written index start block).buf with
    | error e =>
      simp only [store, if_pos hfull, hauth]
      exact .failed hadm hfull hauth
    | ok =>
      simp only [store, if_pos hfull, hauth]
      exact .completed hadm hfull hauth
  · simp only [store, if_neg hfull]
    exact .wrote hadm (by omega)

/-- The ways a live chunk can be answered, with the state each leaves. -/
inductive AddLiveChunk (auth : LiveAuth) (r : PieceReassembler) (index chunk chunkLength : Nat)
    (header : Header) (block : Bytes) : Except WireError LiveBlockOutcome → PieceReassembler → Prop
  | settled : r.settled index = true →
    AddLiveChunk auth r index chunk chunkLength header block (.ok ⟨false, false⟩) r
  | overflow {why : String} : r.settled index = false →
    AddLiveChunk auth r index chunk chunkLength header block (.error (.invalid why)) r
  | failed {e : WireError} {r' : PieceReassembler} : r.settled index = false →
    AddBlock auth r index (chunk * chunkLength) block (.error e) r' →
    AddLiveChunk auth r index chunk chunkLength header block (.error e) r'
  | added {contributed : Bool} {r' : PieceReassembler} : r.settled index = false →
    AddBlock auth r index (chunk * chunkLength) block (.ok contributed) r' →
    AddLiveChunk auth r index chunk chunkLength header block
      (.ok ⟨contributed, r'.complete.contains index⟩)
      (r'.setLive index (r.chunkMetadata index chunk chunkLength header block))

theorem addLiveChunk_spec (auth : LiveAuth) (r : PieceReassembler) (index chunk chunkLength : Nat)
    (header : Header) (block : Bytes) :
    AddLiveChunk auth r index chunk chunkLength header block
      (addLiveChunk auth r index chunk chunkLength header block).1
      (addLiveChunk auth r index chunk chunkLength header block).2 := by
  unfold addLiveChunk
  split
  · next h => exact .settled h
  next hs =>
  have hs : r.settled index = false := by simpa using hs
  split
  · exact .overflow hs
  next start hstart =>
  obtain ⟨-, rfl⟩ := checkedMul_eq_some.mp hstart
  have hspec := addBlockWithContribution_spec auth r index (chunk * chunkLength) block
  split
  · next heq => rw [heq] at hspec; exact .failed hs hspec
  · next heq => rw [heq] at hspec; exact .added hs hspec

end PieceReassembler

end Outpace.Wire

import Outpace.Data.Blocks
import Outpace.Wire.Reassembly

/-!
# The piece store

`ace-swarm/src/store.rs`: piece data keyed by piece and chunk, bounded by a byte budget and, where
set, by an age. The store works on a `Backend`, which keeps the data and reports how many bytes an
insert replaced or an eviction freed; the memory backend is here. Instants and durations are
naturals, and a write takes its instant as an argument.

A write returns `none` where the source would take more off its byte count than there is.
-/

namespace Outpace.Swarm
open Wire (Bytes Header zeroHeader)

/-- Byte-accounting deltas of one insert. -/
structure Stored where
  added : Nat
  removed : Nat

inductive CompletePut where
  | published
  | alreadyPresent
  | notRetained
  deriving DecidableEq

/-- The one error of a whole-piece write. -/
inductive PutError where
  | invalidInput
  deriving DecidableEq

/-- The header that a piece keeps: a later nonzero header replaces a zero placeholder. -/
def upgradeHeader (stored header : Header) : Header :=
  if stored = zeroHeader ∧ header ≠ zeroHeader then header else stored

/-- The storage behind a store. A read may change the backend, which caches file handles. -/
class Backend (β : Type) where
  put : β → (piece chunk : Nat) → Header → Bytes → Stored × β
  get : β → (piece chunk : Nat) → Option Bytes × β
  servingChunk : β → (piece chunk : Nat) → Option (Bytes × Header) × β
  header : β → (piece : Nat) → Option Header
  hasPiece : β → (piece chunksPerPiece : Nat) → Bool
  havePieces : β → (chunksPerPiece : Nat) → List Nat
  window : β → Option (Nat × Nat)
  evictLowest : β → Option (Nat × β)
  /-- The byte count of a backend that keeps its own. -/
  retainedBytes : β → Option Nat
  /-- The number of pieces held, which bounds every eviction loop. -/
  pieceCount : β → Nat

structure PieceStore (β : Type) where
  pieceLength : Nat
  chunkLength : Nat
  maxBytes : Nat
  curBytes : Nat
  backend : β
  retention : Option Nat
  firstSeen : OrderedMap Nat Nat
  newestSeen : Option Nat

namespace PieceStore

/-- The settings that no operation changes. -/
structure SameSettings {β : Type} (s s' : PieceStore β) : Prop where
  pieceLength : s'.pieceLength = s.pieceLength
  chunkLength : s'.chunkLength = s.chunkLength
  maxBytes : s'.maxBytes = s.maxBytes
  retention : s'.retention = s.retention

theorem SameSettings.rfl {β : Type} {s : PieceStore β} : SameSettings s s :=
  ⟨.refl _, .refl _, .refl _, .refl _⟩

theorem SameSettings.trans {β : Type} {s₁ s₂ s₃ : PieceStore β} (h : SameSettings s₁ s₂)
    (h' : SameSettings s₂ s₃) : SameSettings s₁ s₃ :=
  ⟨h'.1.trans h.1, h'.2.trans h.2, h'.3.trans h.3, h'.4.trans h.4⟩

variable {β : Type} [Backend β]

/-- `chunks_per_piece`, cut to 16 bits. -/
def chunksPerPiece (s : PieceStore β) : Nat := s.pieceLength / s.chunkLength % 2 ^ 16

/-- A zero retention is no age bound. -/
def withRetention (s : PieceStore β) (retention : Nat) : PieceStore β :=
  { s with retention := if retention = 0 then none else some retention }

def evictLowestTracked (s : PieceStore β) : Option (Nat × PieceStore β) :=
  match Backend.evictLowest s.backend with
  | none => none
  | some (freed, backend) =>
    some (freed, { s with backend := backend, firstSeen := s.firstSeen.popFirst })

/-- The eviction loops: while the condition holds, evict the lowest piece, until there is none. -/
def evictWhile (cond : PieceStore β → Bool) : (fuel : Nat) → PieceStore β → Option (PieceStore β)
  | 0, s => some s
  | fuel + 1, s =>
    if cond s then
      match s.evictLowestTracked with
      | none => some s
      | some (freed, s') =>
        match checkedSub s'.curBytes freed with
        | none => none
        | some cur => evictWhile cond fuel { s' with curBytes := cur }
    else some s

def overBudget (s : PieceStore β) : Bool := decide (s.maxBytes < s.curBytes)

/-- The lowest piece is older than the retention, counted back from the newest insert. -/
def expired (retention newest : Nat) (s : PieceStore β) : Bool :=
  match s.firstSeen.first? with
  | some (_, seen) => decide (retention ≤ newest - seen)
  | none => false

/-- Evict down to the budget, then what is too old. -/
def evict (s : PieceStore β) : Option (PieceStore β) := do
  let s ← evictWhile overBudget (Backend.pieceCount s.backend + 1) s
  match s.retention, s.newestSeen with
  | some retention, some newest =>
    evictWhile (expired retention newest) (Backend.pieceCount s.backend + 1) s
  | _, _ => some s

/-- Note when a piece was first seen, if there is an age bound. -/
def noteSeen (s : PieceStore β) (now piece : Nat) : PieceStore β :=
  if s.retention.isSome then
    { s with
      firstSeen := if s.firstSeen.contains piece then s.firstSeen else s.firstSeen.insert piece now
      newestSeen := some (s.newestSeen.elim now (max · now)) }
  else s

/-- The byte count after an insert: the backend's own, or the deltas applied. -/
def countStored (s : PieceStore β) (stored : Stored) : Option Nat :=
  match Backend.retainedBytes s.backend with
  | some retained => some retained
  | none => (checkedSub s.curBytes stored.removed).map (· + stored.added)

def putChunkWithHeaderAt (s : PieceStore β) (now piece chunk : Nat) (header : Header)
    (data : Bytes) : Option (PieceStore β) :=
  if s.maxBytes = 0 then some s
  else if s.pieceLength / s.chunkLength ≤ chunk then some s
  else
    let (stored, backend) := Backend.put s.backend piece chunk header data
    let s := noteSeen { s with backend := backend } now piece
    (s.countStored stored).bind fun cur => evict { s with curBytes := cur }

theorem putChunkWithHeaderAt_of_skip {s : PieceStore β} {chunk : Nat}
    (h : s.maxBytes = 0 ∨ s.pieceLength / s.chunkLength ≤ chunk) (now piece : Nat)
    (header : Header) (data : Bytes) :
    s.putChunkWithHeaderAt now piece chunk header data = some s := by
  unfold putChunkWithHeaderAt
  rcases h with h | h
  · rw [if_pos h]
  · rw [if_pos h, ite_self]

def hasPiece (s : PieceStore β) (piece : Nat) : Bool :=
  Backend.hasPiece s.backend piece s.chunksPerPiece

def havePieces (s : PieceStore β) : List Nat := Backend.havePieces s.backend s.chunksPerPiece

def window (s : PieceStore β) : Option (Nat × Nat) := Backend.window s.backend

def chunk (s : PieceStore β) (piece chunk : Nat) : Option Bytes × PieceStore β :=
  let (data, backend) := Backend.get s.backend piece chunk
  (data, { s with backend := backend })

def servingChunk (s : PieceStore β) (piece chunk : Nat) :
    Option (Bytes × Header) × PieceStore β :=
  let (result, backend) := Backend.servingChunk s.backend piece chunk
  (result, { s with backend := backend })

/-- `MAX_BT_REQUEST_LEN`. -/
def maxBtRequestLen : Nat := 16 * 1024

/-- The loop of `shared_block`: the chunks of a range one after the other, each with a 16-bit index,
until one is missing. -/
def gather (s : PieceStore β) (piece : Nat) : (chunks : List Nat) → Bytes →
    Option Bytes × PieceStore β
  | [], bytes => (some bytes, s)
  | chunk :: chunks, bytes =>
    if 65535 < chunk then (none, s)
    else match s.servingChunk piece chunk with
      | (none, s) => (none, s)
      | (some (data, _), s) => gather s piece chunks (bytes ++ data)

/-- `shared_block`. -/
def block (s : PieceStore β) (piece start length : Nat) : Option Bytes × PieceStore β :=
  if length = 0 ∨ maxBtRequestLen < length then (none, s)
  else if s.pieceLength < start + length then (none, s)
  else
    let first := start / s.chunkLength
    let last := (start + length + s.chunkLength - 1) / s.chunkLength
    match s.gather piece (List.range' first (last - first)) [] with
    | (none, s) => (none, s)
    | (some bytes, s) =>
      let offset := start % s.chunkLength
      (if offset + length ≤ bytes.length then some ((bytes.drop offset).take length) else none, s)

/-- The checks of `begin_complete_admission`: a refused input, or a piece that is never retained. -/
def admitComplete (s : PieceStore β) (wireLen : Nat) : Option (Except PutError CompletePut) :=
  let length := s.pieceLength
  let chunk := s.chunkLength
  if length = 0 ∨ chunk = 0 ∨ length % chunk ≠ 0 ∨ 65535 < length / chunk ∨ length ≠ wireLen ∨
      2 ^ 32 ≤ chunk then some (.error .invalidInput)
  else if s.maxBytes < length then some (.ok .notRetained)
  else none

end PieceStore

/-! ### The memory backend -/

structure MemoryBackend where
  pieces : OrderedMap Nat (OrderedMap Nat Bytes)
  headers : OrderedMap Nat Header

namespace MemoryBackend

def new : MemoryBackend := ⟨∅, ∅⟩

/-- The chunks held of a piece. -/
def chunksOf (m : MemoryBackend) (piece : Nat) : OrderedMap Nat Bytes :=
  (m.pieces.get? piece).getD ∅

/-- The bytes of the chunks of a piece. -/
def size (chunks : OrderedMap Nat Bytes) : Nat := chunks.weight fun _ => List.length

def put (m : MemoryBackend) (piece chunk : Nat) (header : Header) (data : Bytes) :
    Stored × MemoryBackend :=
  let headers := m.headers.insert piece
    (((m.headers.get? piece).map fun stored => upgradeHeader stored header).getD header)
  let entry := m.chunksOf piece
  (⟨data.length, (entry.get? chunk).elim 0 List.length⟩,
    ⟨m.pieces.insert piece (entry.insert chunk data), headers⟩)

def get (m : MemoryBackend) (piece chunk : Nat) : Option Bytes := do
  let chunks ← m.pieces.get? piece
  chunks.get? chunk

def hasPiece (m : MemoryBackend) (piece chunksPerPiece : Nat) : Bool :=
  (m.pieces.get? piece).any fun chunks => decide (chunks.size % 2 ^ 16 = chunksPerPiece)

def havePieces (m : MemoryBackend) (chunksPerPiece : Nat) : List Nat :=
  m.pieces.keys.filter fun piece => m.hasPiece piece chunksPerPiece

def window (m : MemoryBackend) : Option (Nat × Nat) := do
  let first ← m.pieces.keys.head?
  let last ← m.pieces.keys.getLast?
  return (first, last)

def evictLowest (m : MemoryBackend) : Option (Nat × MemoryBackend) :=
  match m.pieces.first? with
  | none => none
  | some (lowest, chunks) => some (size chunks, ⟨m.pieces.erase lowest, m.headers.erase lowest⟩)

instance : Backend MemoryBackend where
  put := put
  get m piece chunk := (m.get piece chunk, m)
  servingChunk m piece chunk :=
    ((m.get piece chunk).map fun data => (data, (m.headers.get? piece).getD zeroHeader), m)
  header m piece := m.headers.get? piece
  hasPiece := hasPiece
  havePieces := havePieces
  window := window
  evictLowest := evictLowest
  retainedBytes _ := none
  pieceCount m := m.pieces.size

end MemoryBackend

/-- Piece and chunk lengths that the constructors accept: the source divides by the chunk length. -/
structure Geometry where
  pieceLength : Nat
  chunkLength : Nat
  pos : 0 < chunkLength

theorem four_pos : 0 < 4 := by decide

/-- `piece_length / chunk_length`, uncut. -/
def Geometry.chunkCount (g : Geometry) : Nat := g.pieceLength / g.chunkLength

abbrev MemoryStore := PieceStore MemoryBackend

namespace MemoryStore

/-- `PieceStore::new`. -/
def new (g : Geometry) (maxBytes : Nat) : MemoryStore where
  pieceLength := g.pieceLength
  chunkLength := g.chunkLength
  maxBytes := maxBytes
  curBytes := 0
  backend := .new
  retention := none
  firstSeen := ∅
  newestSeen := none

/-- The chunks of a wire piece, with their indices. -/
def wireChunks (chunkLength : Nat) (wire : Bytes) : OrderedMap Nat Bytes :=
  .ofEntries ((blocks chunkLength wire).mapIdx fun i data => (i % 2 ^ 16, data))

def putCompleteMemory (s : MemoryStore) (now piece : Nat) (header : Header) (wire : Bytes) :
    Option (CompletePut × MemoryStore) :=
  if s.backend.hasPiece piece s.chunksPerPiece then some (.alreadyPresent, s)
  else
    let removed := ((s.backend.pieces.get? piece).map MemoryBackend.size).getD 0
    let backend : MemoryBackend :=
      ⟨s.backend.pieces.insert piece (wireChunks s.chunkLength wire),
        s.backend.headers.insert piece header⟩
    ((checkedSub s.curBytes removed).map (· + s.pieceLength)).bind fun cur =>
      (PieceStore.noteSeen { s with backend := backend, curBytes := cur } now piece).evict.map
        fun s => (if s.hasPiece piece then .published else .notRetained, s)

/-- `shared_put_complete_piece`. -/
def putCompletePiece (s : MemoryStore) (now piece : Nat) (header : Header) (wire : Bytes) :
    Option (Except PutError CompletePut × MemoryStore) :=
  match s.admitComplete wire.length with
  | some reply => some (reply, s)
  | none => (s.putCompleteMemory now piece header wire).map fun (result, s) => (.ok result, s)

end MemoryStore

end Outpace.Swarm

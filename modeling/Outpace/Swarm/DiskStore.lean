import Outpace.Data.Buffer
import Outpace.Swarm.Store

/-!
# The disk backend

`ace-swarm/src/store/disk.rs`: one file per piece, in which the chunk `k` is at the offset
`k * chunk_length`, and an index of what is held. A single actor owns the files and works through
its commands one after the other, so a command is a function on the actor's state. The operating
system never fails on its own account; what it refuses is to open a file that is not there and to
write through a handle that was opened for reading, which is how a read opens it.

A handle always belongs to the file under the piece's name: the actor drops it when the file is
replaced or removed.
-/

namespace Outpace.Swarm
open Wire (Bytes Header)

structure PieceIndex where
  header : Header
  /-- The chunks held, with their lengths cut to 32 bits. -/
  present : OrderedMap Nat Nat

def PieceIndex.size (entry : PieceIndex) : Nat := entry.present.weight fun _ len => len

/-- The metadata that the actor shares. -/
structure DiskState where
  index : OrderedMap Nat PieceIndex
  curBytes : Nat
  firstSeen : OrderedMap Nat Nat

/-- How a cached handle was opened. -/
inductive Access where
  | readOnly
  | readWrite
  deriving DecidableEq

structure DiskBackend where
  chunkLength : Nat
  state : DiskState
  files : OrderedMap Nat Access
  lru : List Nat
  /-- The piece files in the cache directory. -/
  contents : OrderedMap Nat Bytes

/-- `MAX_OPEN_PIECES`. -/
def maxOpenPieces : Nat := 64

/-- Evict the lowest piece for as long as the condition holds of it. -/
def DiskState.evictWhile (cond : DiskState → Nat → Bool) :
    (fuel : Nat) → DiskState → List Nat × DiskState
  | 0, s => ([], s)
  | fuel + 1, s =>
    match s.index.first? with
    | none => ([], s)
    | some (lowest, entry) =>
      if cond s lowest then
        let (evicted, s') := evictWhile cond fuel
          { index := s.index.erase lowest
            curBytes := s.curBytes - entry.size
            firstSeen := s.firstSeen.erase lowest }
        (lowest :: evicted, s')
      else ([], s)

namespace DiskBackend

/-- A wiped cache directory. -/
def new (chunkLength : Nat) : DiskBackend := ⟨chunkLength, ⟨∅, 0, ∅⟩, ∅, [], ∅⟩

/-- Move a piece to the fresh end of the handle list. -/
def touch (lru : List Nat) (piece : Nat) : List Nat := lru.erase piece ++ [piece]

/-- Close the oldest handle if the cache is full. -/
def closeOldest (d : DiskBackend) : DiskBackend :=
  if d.files.size = maxOpenPieces then
    match d.lru with
    | [] => d
    | oldest :: lru => { d with files := d.files.erase oldest, lru := lru }
  else d

/-- The handle of a piece: the cached one as it was opened, or a new one. -/
def file (d : DiskBackend) (piece : Nat) (create : Bool) : Option (Access × DiskBackend) :=
  match d.files.get? piece with
  | some access => some (access, { d with lru := touch d.lru piece })
  | none =>
    if create = false ∧ d.contents.contains piece = false then none
    else
      let access := if create then Access.readWrite else .readOnly
      let contents :=
        if d.contents.contains piece then d.contents else d.contents.insert piece []
      let d := closeOldest d
      some (access, { d with
        files := d.files.insert piece access
        lru := touch d.lru piece
        contents := contents })

/-- The bytes of the file of a piece. -/
def fileOf (d : DiskBackend) (piece : Nat) : Bytes := (d.contents.get? piece).getD []

def remove (d : DiskBackend) (piece : Nat) : DiskBackend :=
  { d with
    files := d.files.erase piece
    lru := d.lru.erase piece
    contents := d.contents.erase piece }

/-- The index entry of a piece, new if there is none, with a chunk of some length. -/
def indexChunk (s : DiskState) (piece chunk : Nat) (header : Header) (len : Nat) : DiskState :=
  let entry := (s.index.get? piece).getD ⟨header, ∅⟩
  let removed := (entry.present.get? chunk).getD 0
  { s with
    index := s.index.insert piece
      ⟨upgradeHeader entry.header header, entry.present.insert chunk (len % 2 ^ 32)⟩
    curBytes := s.curBytes - removed + len }

/-- Remove the files of evicted pieces. -/
def removeAll (d : DiskBackend) (evicted : List Nat) : DiskBackend := evicted.foldl remove d

def overBudget (max : Nat) (s : DiskState) (_ : Nat) : Bool := decide (max < s.curBytes)

def put (d : DiskBackend) (piece chunk : Nat) (header : Header) (data : Bytes) (max : Nat) :
    Stored × DiskBackend :=
  let offset := chunk * d.chunkLength
  match d.file piece true with
  | none => (⟨0, 0⟩, d)
  | some (access, d) =>
    -- a write of nothing does not reach the file
    if data ≠ [] ∧ access = .readOnly then (⟨0, 0⟩, d)
    else
      let d := { d with contents := d.contents.insert piece (writeAt (d.fileOf piece) offset data) }
      let removed := ((d.state.index.get? piece).bind (·.present.get? chunk)).getD 0
      let state := indexChunk d.state piece chunk header data.length
      let (evicted, state) := state.evictWhile (overBudget max) state.index.size
      (⟨data.length, removed⟩, removeAll { d with state := state } evicted)

/-- The age check of `put_complete`. -/
def expired (retention : Option Nat) (now : Nat) (s : DiskState) (lowest : Nat) : Bool :=
  match retention, s.firstSeen.get? lowest with
  | some age, some seen => decide (age ≤ now - seen)
  | _, _ => false

def putComplete (d : DiskBackend) (now piece : Nat) (header : Header) (wire : Bytes) (max : Nat)
    (chunks : Nat) (retention : Option Nat) : CompletePut × DiskBackend :=
  if (d.state.index.get? piece).any (fun entry => decide (entry.present.size = chunks)) then
    (.alreadyPresent, d)
  else
    -- the temporary file takes the place of the piece's file
    let d := { d with
      contents := d.contents.insert piece wire
      files := d.files.erase piece
      lru := d.lru.filter (· ≠ piece) }
    let present := OrderedMap.ofEntries
      ((List.range chunks).map fun chunk => (chunk, d.chunkLength % 2 ^ 32))
    let removed := ((d.state.index.get? piece).map PieceIndex.size).getD 0
    let state : DiskState :=
      { index := d.state.index.insert piece ⟨header, present⟩
        curBytes := d.state.curBytes - removed + wire.length
        firstSeen :=
          if d.state.firstSeen.contains piece then d.state.firstSeen
          else d.state.firstSeen.insert piece now }
    let (evicted, state) := state.evictWhile
      (fun s lowest => overBudget max s lowest || expired retention now s lowest) state.index.size
    (if state.index.contains piece then .published else .notRetained,
      removeAll { d with state := state } evicted)

/-- A read through the handle of the piece. -/
def get (d : DiskBackend) (piece chunk : Nat) : Option (Bytes × Header) × DiskBackend :=
  match d.state.index.get? piece with
  | none => (none, d)
  | some entry =>
    match entry.present.get? chunk with
    | none => (none, d)
    | some len =>
      match d.file piece false with
      | none => (none, d)
      | some (_, d) =>
        ((readAt (d.fileOf piece) (chunk * d.chunkLength) len).map fun data =>
          (data, entry.header), d)

def hasPiece (d : DiskBackend) (piece chunks : Nat) : Bool :=
  (d.state.index.get? piece).any fun entry => decide (entry.present.size % 2 ^ 16 = chunks)

def havePieces (d : DiskBackend) (chunks : Nat) : List Nat :=
  (d.state.index.entries.filter fun e => decide (e.2.present.size % 2 ^ 16 = chunks)).map (·.1)

def window (d : DiskBackend) : Option (Nat × Nat) := do
  let first ← d.state.index.keys.head?
  let last ← d.state.index.keys.getLast?
  return (first, last)

def evictLowest (d : DiskBackend) : Option (Nat × DiskBackend) :=
  match d.state.index.first? with
  | none => none
  | some (piece, entry) =>
    let state : DiskState :=
      { index := d.state.index.erase piece
        curBytes := d.state.curBytes - entry.size
        firstSeen := d.state.firstSeen.erase piece }
    some (entry.size, remove { d with state := state } piece)

instance : Backend DiskBackend where
  put d piece chunk header data := d.put piece chunk header data u64Max
  get d piece chunk := ((d.get piece chunk).1.map (·.1), (d.get piece chunk).2)
  servingChunk := get
  header d piece := (d.state.index.get? piece).map (·.header)
  hasPiece := hasPiece
  havePieces := havePieces
  window := window
  evictLowest := evictLowest
  retainedBytes d := some d.state.curBytes
  pieceCount d := d.state.index.size

end DiskBackend

abbrev DiskStore := PieceStore DiskBackend

namespace DiskStore

/-- `PieceStore::new_disk`. -/
def new (g : Geometry) (maxBytes : Nat) : DiskStore where
  pieceLength := g.pieceLength
  chunkLength := g.chunkLength
  maxBytes := maxBytes
  curBytes := 0
  backend := .new g.chunkLength
  retention := none
  firstSeen := ∅
  newestSeen := none

/-- `shared_put_chunk_with_header`: the actor evicts on its own, and the store's count stays behind
until the next refresh. -/
def sharedPutChunk (s : DiskStore) (piece chunk : Nat) (header : Header) (data : Bytes) :
    DiskStore :=
  if s.maxBytes = 0 ∨ s.pieceLength / s.chunkLength ≤ chunk then s
  else { s with backend := (s.backend.put piece chunk header data s.maxBytes).2 }

/-- `shared_put_complete_piece`. -/
def putCompletePiece (s : DiskStore) (now piece : Nat) (header : Header) (wire : Bytes) :
    Except PutError CompletePut × DiskStore :=
  match s.admitComplete wire.length with
  | some reply => (reply, s)
  | none =>
    let (result, backend) := s.backend.putComplete now piece header wire s.maxBytes
      s.chunksPerPiece s.retention
    (.ok result, { s with backend := backend, curBytes := backend.state.curBytes })

end DiskStore

end Outpace.Swarm

import Outpace.Data.Run
import Outpace.Swarm.DiskShelf

/-!
# The two stores agree

An operation on a store is a read or a write, and the shelf says what it answers. A memory store
always answers as the shelf does (`MemoryStore.Holds.exec`); a disk store does so as long as its
chunk writes are clean (`DiskStore.Holds.exec`). On a run of such operations the two stores give the
same answers.
-/

namespace Outpace.Swarm
open Wire (Bytes Header zeroHeader)
open PieceStore (SameSettings)

namespace PieceStore

inductive Read where
  | chunk (piece chunk : Nat)
  | servingChunk (piece chunk : Nat)
  | block (piece start length : Nat)
  | hasPiece (piece : Nat)
  | havePieces
  | window

inductive Write where
  | putChunk (now piece chunk : Nat) (header : Header) (data : Bytes)
  | sharedPutChunk (now piece chunk : Nat) (header : Header) (data : Bytes)
  | putCompletePiece (now piece : Nat) (header : Header) (wire : Bytes)

inductive Op where
  | read (r : Read)
  | write (w : Write)

inductive Reply where
  | bytes (data : Option Bytes)
  | serving (result : Option (Bytes × Header))
  | holds (b : Bool)
  | pieces (l : List Nat)
  | window (w : Option (Nat × Nat))
  | done
  | complete (result : Except PutError CompletePut)
  deriving DecidableEq

/-- The writes that depend on the backend. -/
class SharedWrites (β : Type) [Backend β] where
  sharedPutChunk : PieceStore β → (now piece chunk : Nat) → Header → Bytes → Option (PieceStore β)
  putCompletePiece : PieceStore β → (now piece : Nat) → Header → Bytes →
    Option (Except PutError CompletePut × PieceStore β)

/-- `shared_put_chunk_with_header` on the memory backend is the plain write. -/
instance : SharedWrites MemoryBackend where
  sharedPutChunk := putChunkWithHeaderAt
  putCompletePiece := MemoryStore.putCompletePiece

instance : SharedWrites DiskBackend where
  sharedPutChunk st _ piece chunk header data := some (DiskStore.sharedPutChunk st piece chunk header data)
  putCompletePiece st now piece header wire := some (DiskStore.putCompletePiece st now piece header wire)

section
variable {β : Type} [Backend β]

def Read.exec (st : PieceStore β) : Read → Reply × PieceStore β
  | .chunk piece index => (st.chunk piece index).map .bytes id
  | .servingChunk piece index => (st.servingChunk piece index).map .serving id
  | .block piece start length => (st.block piece start length).map .bytes id
  | .hasPiece piece => (.holds (st.hasPiece piece), st)
  | .havePieces => (.pieces st.havePieces, st)
  | .window => (.window st.window, st)

variable [SharedWrites β]

def Write.exec (st : PieceStore β) : Write → Option (Reply × PieceStore β)
  | .putChunk now piece chunk header data =>
    (st.putChunkWithHeaderAt now piece chunk header data).map fun st => (.done, st)
  | .sharedPutChunk now piece chunk header data =>
    (SharedWrites.sharedPutChunk st now piece chunk header data).map fun st => (.done, st)
  | .putCompletePiece now piece header wire =>
    (SharedWrites.putCompletePiece st now piece header wire).map (.map .complete id)

def Op.exec (st : PieceStore β) : Op → Option (Reply × PieceStore β)
  | .read r => some (r.exec st)
  | .write w => w.exec st

/-- The answers to a sequence of operations. -/
def replies (st : PieceStore β) : List Op → Option (List Reply)
  | [] => some []
  | op :: ops => (op.exec st).bind fun (reply, st') => (replies st' ops).map (reply :: ·)

end

/-! ### What the shelf answers -/

def Read.onShelf (g : Geometry) (s : Shelf) : Read → Reply
  | .chunk piece index => .bytes ((s.get piece index).map (·.1))
  | .servingChunk piece index => .serving (s.get piece index)
  | .block piece start length => .bytes (s.block g.pieceLength g.chunkLength piece start length)
  | .hasPiece piece => .holds (s.hasPiece piece (g.chunkCount % 2 ^ 16))
  | .havePieces => .pieces (s.havePieces (g.chunkCount % 2 ^ 16))
  | .window => .window s.window

def chunkOnShelf (g : Geometry) (maxBytes : Nat) (s : Shelf) (piece chunk : Nat) (header : Header)
    (data : Bytes) : Shelf :=
  if maxBytes = 0 ∨ g.chunkCount ≤ chunk then s
  else (s.putChunk piece chunk header data).trimTo maxBytes

def completeOnShelf (g : Geometry) (maxBytes : Nat) (s : Shelf) (piece : Nat) (header : Header)
    (wire : Bytes) : Except PutError CompletePut × Shelf :=
  match (MemoryStore.new g maxBytes).admitComplete wire.length with
  | some reply => (reply, s)
  | none => (s.putComplete maxBytes g.chunkLength g.chunkCount piece header wire).map .ok id

def Write.onShelf (g : Geometry) (maxBytes : Nat) (s : Shelf) : Write → Reply × Shelf
  | .putChunk _ piece chunk header data | .sharedPutChunk _ piece chunk header data =>
    (.done, chunkOnShelf g maxBytes s piece chunk header data)
  | .putCompletePiece _ piece header wire =>
    (completeOnShelf g maxBytes s piece header wire).map .complete id

def Op.onShelf (g : Geometry) (maxBytes : Nat) (s : Shelf) : Op → Reply × Shelf
  | .read r => (r.onShelf g s, s)
  | .write w => w.onShelf g maxBytes s

/-- A store of this geometry and budget, without an age bound. -/
structure Settings {β : Type} (g : Geometry) (maxBytes : Nat) (st : PieceStore β) : Prop where
  pieceLength : st.pieceLength = g.pieceLength
  chunkLength : st.chunkLength = g.chunkLength
  maxBytes : st.maxBytes = maxBytes
  retention : st.retention = none

section
variable {β : Type} {g : Geometry} {maxBytes : Nat} {st st' : PieceStore β}

theorem Settings.same (S : Settings g maxBytes st) (h : SameSettings st st') :
    Settings g maxBytes st' :=
  ⟨h.1.trans S.1, h.2.trans S.2, h.3.trans S.3, h.4.trans S.4⟩

theorem Settings.backend (S : Settings g maxBytes st) (b : β) :
    Settings g maxBytes { st with backend := b } :=
  ⟨S.1, S.2, S.3, S.4⟩

theorem Settings.chunkCount (S : Settings g maxBytes st) :
    st.pieceLength / st.chunkLength = g.chunkCount := by
  rw [S.pieceLength, S.chunkLength, Geometry.chunkCount]

theorem Settings.admitComplete (S : Settings g maxBytes st) (n : Nat) :
    st.admitComplete n = (MemoryStore.new g maxBytes).admitComplete n := by
  obtain ⟨pieceLength, chunkLength, maxBytes⟩ := st
  obtain ⟨rfl, rfl, rfl, -⟩ := S
  rfl

theorem Settings.completeOnShelf (S : Settings g maxBytes st) (s : Shelf) (piece : Nat)
    (header : Header) (wire : Bytes) :
    completeOnShelf g maxBytes s piece header wire =
      match st.admitComplete wire.length with
      | some reply => (reply, s)
      | none => (s.putComplete maxBytes g.chunkLength g.chunkCount piece header wire).map .ok id := by
  rw [PieceStore.completeOnShelf, S.admitComplete]

/-- What an admitted piece says of the geometry. -/
theorem Settings.admitted (S : Settings g maxBytes st) {wire : Bytes}
    (h : st.admitComplete wire.length = none) :
    g.chunkCount = wire.length / g.chunkLength ∧ g.chunkLength ∣ wire.length ∧
      g.chunkCount ≤ 65535 ∧ g.chunkLength < 2 ^ 32 := by
  obtain ⟨hlen, -, hdvd, hmax, hchunk, -⟩ := MemoryStore.admitComplete_eq_none h
  rw [S.chunkLength] at hdvd hmax hchunk
  have hcount : g.chunkCount = wire.length / g.chunkLength := by
    rw [← S.chunkCount, hlen, S.chunkLength]
  exact ⟨hcount, hdvd, hcount ▸ hmax, hchunk⟩

theorem Settings.noteSeen (S : Settings g maxBytes st) (now piece : Nat) :
    st.noteSeen now piece = st := by
  rw [PieceStore.noteSeen, S.retention]
  rfl

variable [Backend β]

/-- A chunk write inside the geometry, without an age bound. -/
theorem Settings.putChunk_eq (S : Settings g maxBytes st) {chunk : Nat} (hbudget : maxBytes ≠ 0)
    (hchunk : ¬g.chunkCount ≤ chunk) (now piece : Nat) (header : Header) (data : Bytes) :
    st.putChunkWithHeaderAt now piece chunk header data =
      (countStored { st with backend := (Backend.put st.backend piece chunk header data).2 }
        (Backend.put st.backend piece chunk header data).1).bind fun cur => evict
          { st with
            backend := (Backend.put st.backend piece chunk header data).2
            curBytes := cur } := by
  rw [← S.maxBytes] at hbudget
  rw [← S.chunkCount] at hchunk
  unfold putChunkWithHeaderAt
  rw [if_neg hbudget, if_neg hchunk]
  simp only [(S.backend _).noteSeen]

variable {R : β → Shelf → Prop} {s : Shelf}

/-- Reads of a faithful backend are reads of the shelf. -/
theorem Settings.read (S : Settings g maxBytes st) (F : Faithful R) (h : R st.backend s)
    (r : Read) : ∃ b', r.exec st = (r.onShelf g s, { st with backend := b' }) ∧ R b' s := by
  have hper : st.chunksPerPiece = g.chunkCount % 2 ^ 16 := by
    rw [chunksPerPiece, S.chunkCount]
  cases r with
  | chunk piece chunk =>
    obtain ⟨b', heq, h'⟩ := F.chunk h piece chunk
    exact ⟨b', by rw [Read.exec, heq]; rfl, h'⟩
  | servingChunk piece chunk =>
    obtain ⟨b', heq, h'⟩ := F.serving h piece chunk
    exact ⟨b', by rw [Read.exec, heq]; rfl, h'⟩
  | block piece start length =>
    obtain ⟨b', heq, h'⟩ := F.block h piece start length
    refine ⟨b', ?_, h'⟩
    rw [Read.exec, heq, Read.onShelf, ← S.pieceLength, ← S.chunkLength]
    rfl
  | hasPiece piece =>
    have heq := F.hasPiece h piece st.chunksPerPiece
    rw [hper] at heq
    refine ⟨st.backend, ?_, h⟩
    rw [Read.exec, PieceStore.hasPiece, hper, heq]
    rfl
  | havePieces =>
    refine ⟨st.backend, ?_, h⟩
    rw [Read.exec, PieceStore.havePieces, hper, F.havePieces h]
    rfl
  | window =>
    refine ⟨st.backend, ?_, h⟩
    rw [Read.exec, PieceStore.window, F.window h]
    rfl

end

end PieceStore

/-! ### The memory store -/

/-- A memory store in balanced books that shows this shelf. -/
structure MemoryStore.Holds (g : Geometry) (maxBytes : Nat) (st : MemoryStore) (s : Shelf) :
    Prop where
  settings : st.Settings g maxBytes
  books : MemoryStore.Books st
  budget : st.curBytes ≤ st.maxBytes
  shelf : st.backend.shelf = s

namespace MemoryStore
variable {g : Geometry} {maxBytes : Nat} {st st' : MemoryStore} {s : Shelf}

theorem Holds.shows (H : Holds g maxBytes st s) : st.backend.Shows s := ⟨H.books.headers, H.shelf⟩

theorem Books.evict_trim (B : Books st) (hret : st.retention = none) {s : Shelf}
    (h : st.backend.Shows s) :
    ∃ st', st.evict = some st' ∧ Books st' ∧ SameSettings st st' ∧ st'.curBytes ≤ st'.maxBytes ∧
      st'.backend.shelf = s.trimTo st.maxBytes := by
  obtain ⟨st', hrun, B', hset, hle⟩ := B.evict
  have hcur : st.curBytes = s.total := by
    rw [B.cur, ← h.2, MemoryBackend.total_shelf]
  obtain ⟨st'', hrun', h', -⟩ := MemoryBackend.faithful.evict h hcur hret
  cases hrun.symm.trans hrun'
  exact ⟨st', hrun, B', hset, hle, h'.2⟩

theorem Holds.putChunk (H : Holds g maxBytes st s) (now piece chunk : Nat) (header : Header)
    (data : Bytes) :
    ∃ st', st.putChunkWithHeaderAt now piece chunk header data = some st' ∧
      Holds g maxBytes st' (PieceStore.chunkOnShelf g maxBytes s piece chunk header data) := by
  have S := H.settings
  unfold PieceStore.chunkOnShelf
  split
  · next hskip =>
    rw [← S.maxBytes, ← S.chunkCount] at hskip
    exact ⟨st, PieceStore.putChunkWithHeaderAt_of_skip hskip .., H⟩
  · next hgo =>
    rw [← S.maxBytes, ← S.chunkCount, not_or, Nat.not_le] at hgo
    obtain ⟨heq, B₁, hset₁, hback⟩ := H.books.putChunk_eq hgo.1 hgo.2 now piece header data
    have hshows : (st.entered now piece chunk header data).backend.Shows
        (s.putChunk piece chunk header data) := hback ▸ H.shows.put piece chunk header data
    obtain ⟨st', hrun, B', hset, hle, hshelf⟩ := B₁.evict_trim (hset₁.4.trans S.retention) hshows
    rw [hset₁.3, S.maxBytes] at hshelf
    exact ⟨st', heq.trans hrun, (S.same hset₁).same hset, B', hle, hshelf⟩

/-- A complete piece, without the cut of the count to 16 bits. -/
theorem Holds.hasPiece (H : Holds g maxBytes st s) (hcount : g.chunkCount ≤ 65535) (piece : Nat) :
    st.hasPiece piece =
      (s.get? piece).any fun slot => decide (slot.chunks.size = g.chunkCount) := by
  have hread : st.hasPiece piece = st.backend.hasPiece piece st.chunksPerPiece := rfl
  rw [hread, ← MemoryBackend.hasPiece_shelf, H.shelf, Shelf.hasPiece, PieceStore.chunksPerPiece,
    H.settings.chunkCount]
  cases hslot : s.get? piece with
  | none => rfl
  | some slot =>
    rw [← H.shelf, MemoryBackend.get?_shelf] at hslot
    obtain ⟨chunks, hchunks, rfl⟩ := Option.map_eq_some_iff.mp hslot
    have hsize := OrderedMap.size_le_of_lt (H.books.index piece chunks hchunks)
    rw [H.settings.chunkCount] at hsize
    simp only [Option.any_some]
    congr 1
    rw [Nat.mod_eq_of_lt (by omega), Nat.mod_eq_of_lt (by omega)]

theorem size_wireChunks_keys {chunkLength : Nat} {wire : Bytes}
    (hmax : wire.length / chunkLength ≤ 65535) :
    (wireChunks chunkLength wire).size = wire.length / chunkLength := by
  rw [OrderedMap.size, entries_wireChunks hmax, List.length_mapIdx, length_blocks]

/-- What the evictions leave of a whole piece is all of it or nothing. -/
theorem kept_or_gone (s : Shelf) (header : Header) (maxBytes : Nat) {wire : Bytes} {piece : Nat}
    (hcount : g.chunkCount = wire.length / g.chunkLength) (hmax : g.chunkCount ≤ 65535) :
    (OrderedMap.get? ((s.putPiece g.chunkLength piece header wire).trimTo maxBytes) piece).any
        (fun slot => decide (slot.chunks.size = g.chunkCount)) =
      OrderedMap.contains ((s.putPiece g.chunkLength piece header wire).trimTo maxBytes) piece := by
  rw [OrderedMap.contains]
  cases hslot : OrderedMap.get? ((s.putPiece g.chunkLength piece header wire).trimTo maxBytes)
    piece with
  | none => rfl
  | some slot =>
    have hnew := OrderedMap.get?_of_trim hslot
    rw [Shelf.putPiece, OrderedMap.get?_insert_self] at hnew
    cases hnew
    simp [size_wireChunks_keys (hcount ▸ hmax), hcount]

theorem Holds.putComplete (H : Holds g maxBytes st s) (now piece : Nat) (header : Header)
    (wire : Bytes) :
    ∃ st', st.putCompletePiece now piece header wire =
        some ((PieceStore.completeOnShelf g maxBytes s piece header wire).1, st') ∧
      Holds g maxBytes st' (PieceStore.completeOnShelf g maxBytes s piece header wire).2 := by
  have S := H.settings
  rw [S.completeOnShelf]
  cases hcheck : st.admitComplete wire.length with
  | some reply => exact ⟨st, putCompletePiece_of_refused hcheck .., H⟩
  | none =>
    obtain ⟨hcount, hdvd, hmax, -⟩ := S.admitted hcheck
    have hfull := H.hasPiece hmax piece
    unfold Shelf.putComplete
    rw [← hfull]
    cases hnew : st.hasPiece piece with
    | true => exact ⟨st, putCompletePiece_of_hasPiece hcheck hnew .., H⟩
    | false =>
      obtain ⟨st₁, heq, B₁, hset₁, hback⟩ := H.books.putCompletePiece_eq hcheck hnew now header
      rw [S.chunkLength] at hback
      have hshows : st₁.backend.Shows (s.putPiece g.chunkLength piece header wire) :=
        hback ▸ H.shows.insert piece header (wireChunks g.chunkLength wire)
      obtain ⟨st', hrun, B', hset, hle, hshelf⟩ := B₁.evict_trim (hset₁.4.trans S.retention) hshows
      rw [hset₁.3, S.maxBytes] at hshelf
      have H' : Holds g maxBytes st' _ := ⟨(S.same hset₁).same hset, B', hle, hshelf⟩
      refine ⟨st', ?_, H'⟩
      rw [heq, hrun, Option.map_some, H'.hasPiece hmax,
        kept_or_gone s header maxBytes hcount hmax]
      rfl

theorem Holds.exec (H : Holds g maxBytes st s) (op : PieceStore.Op) :
    ∃ st', op.exec st = some ((op.onShelf g maxBytes s).1, st') ∧
      Holds g maxBytes st' (op.onShelf g maxBytes s).2 := by
  cases op with
  | read r =>
    obtain ⟨b', heq, h'⟩ := H.settings.read MemoryBackend.faithful H.shows r
    obtain rfl := H.shows.unique h'
    exact ⟨st, congrArg some heq, H⟩
  | write w =>
    cases w with
    | putChunk now piece chunk header data =>
      obtain ⟨st', heq, H'⟩ := H.putChunk now piece chunk header data
      exact ⟨st', by rw [PieceStore.Op.exec, PieceStore.Write.exec, heq]; rfl, H'⟩
    | sharedPutChunk now piece chunk header data =>
      obtain ⟨st', heq, H'⟩ := H.putChunk now piece chunk header data
      exact ⟨st', congrArg (Option.map _) heq, H'⟩
    | putCompletePiece now piece header wire =>
      obtain ⟨st', heq, H'⟩ := H.putComplete now piece header wire
      exact ⟨st', congrArg (Option.map _) heq, H'⟩

theorem holds_new (g : Geometry) (maxBytes : Nat) : Holds g maxBytes (new g maxBytes) ∅ :=
  ⟨⟨rfl, rfl, rfl, rfl⟩, (books_start g maxBytes none).1, Nat.zero_le _, rfl⟩

end MemoryStore

/-! ### The disk store -/

/-- A disk store whose files and index hold this shelf. -/
structure DiskStore.Holds (g : Geometry) (maxBytes : Nat) (st : DiskStore) (s : Shelf) :
    Prop where
  settings : st.Settings g maxBytes
  represents : st.backend.Represents g.chunkLength s

/-- The chunk writes of a disk store that do what they do in memory. -/
def DiskStore.Clean (st : DiskStore) (piece chunk : Nat) (data : Bytes) : Prop :=
  st.maxBytes = 0 ∨ st.pieceLength / st.chunkLength ≤ chunk ∨ st.backend.Clean piece chunk data

/-- Reads and whole pieces are clean; a chunk write may not be. -/
def PieceStore.Op.Clean (st : DiskStore) : PieceStore.Op → Prop
  | .write (.putChunk _ piece chunk _ data) | .write (.sharedPutChunk _ piece chunk _ data) =>
    st.Clean piece chunk data
  | .write (.putCompletePiece ..) | .read _ => True

namespace DiskStore
variable {g : Geometry} {maxBytes : Nat} {st st' : DiskStore} {s : Shelf}

theorem Holds.sharedPutChunk (H : Holds g maxBytes st s) {piece chunk : Nat} {data : Bytes}
    (h : st.Clean piece chunk data) (header : Header) :
    Holds g maxBytes (st.sharedPutChunk piece chunk header data)
      (PieceStore.chunkOnShelf g maxBytes s piece chunk header data) := by
  have S := H.settings
  unfold DiskStore.sharedPutChunk PieceStore.chunkOnShelf
  rw [← S.chunkCount, ← S.maxBytes]
  split
  · exact S.maxBytes ▸ H
  · next hgo =>
    rw [not_or] at hgo
    have hclean : st.backend.Clean piece chunk data := (h.resolve_left hgo.1).resolve_left hgo.2
    exact ⟨⟨S.1, S.2, rfl, S.4⟩, H.represents.put hclean header st.maxBytes⟩

theorem Holds.putChunk (H : Holds g maxBytes st s) (hmax : maxBytes ≤ u64Max) {piece chunk : Nat}
    {data : Bytes} (h : st.Clean piece chunk data) (now : Nat) (header : Header) :
    ∃ st', st.putChunkWithHeaderAt now piece chunk header data = some st' ∧
      Holds g maxBytes st' (PieceStore.chunkOnShelf g maxBytes s piece chunk header data) := by
  have S := H.settings
  unfold PieceStore.chunkOnShelf
  split
  · next hskip =>
    rw [← S.maxBytes, ← S.chunkCount] at hskip
    exact ⟨st, PieceStore.putChunkWithHeaderAt_of_skip hskip .., H⟩
  · next hgo =>
    rw [not_or] at hgo
    rw [DiskStore.Clean, S.maxBytes, S.chunkCount] at h
    have hclean : st.backend.Clean piece chunk data := (h.resolve_left hgo.1).resolve_left hgo.2
    have hput := H.represents.put hclean header u64Max
    have S' := S.backend (st.backend.put piece chunk header data u64Max).2
    -- the backend evicts nothing on its own here, but the count that the store takes over is its
    obtain ⟨st', hrun, hrep, -, hset⟩ := @Faithful.evict DiskBackend _ _
      { st with
        backend := (st.backend.put piece chunk header data u64Max).2
        curBytes := (st.backend.put piece chunk header data u64Max).2.state.curBytes }
      _ (DiskBackend.faithful g.chunkLength) hput hput.count S.retention
    refine ⟨st', ?_, S'.same ⟨hset.1, hset.2, hset.3, hset.4⟩, ?_⟩
    · rw [S.putChunk_eq hgo.1 hgo.2, ← hrun]
      rfl
    · rw [show Shelf.trimTo (Shelf.trimTo (s.putChunk piece chunk header data) u64Max) _ = _ from
        OrderedMap.trim_trim (S.maxBytes ▸ hmax) _] at hrep
      exact S.maxBytes ▸ hrep

theorem Holds.putComplete (H : Holds g maxBytes st s) (now piece : Nat) (header : Header)
    (wire : Bytes) :
    (st.putCompletePiece now piece header wire).1 =
        (PieceStore.completeOnShelf g maxBytes s piece header wire).1 ∧
      Holds g maxBytes (st.putCompletePiece now piece header wire).2
        (PieceStore.completeOnShelf g maxBytes s piece header wire).2 := by
  have S := H.settings
  rw [S.completeOnShelf]
  unfold DiskStore.putCompletePiece
  cases hcheck : st.admitComplete wire.length with
  | some reply => exact ⟨rfl, H⟩
  | none =>
    obtain ⟨hcount, hdvd, hmax, hwidth⟩ := S.admitted hcheck
    have hper : st.chunksPerPiece = wire.length / g.chunkLength := by
      rw [PieceStore.chunksPerPiece, S.chunkCount, ← hcount, Nat.mod_eq_of_lt (by omega)]
    obtain ⟨hreply, hrep⟩ := H.represents.putComplete hdvd (hcount ▸ hmax) hwidth now piece maxBytes
      header
    simp only [hper, S.retention, S.maxBytes, hcount]
    exact ⟨congrArg Except.ok hreply, ⟨S.1, S.2, rfl, rfl⟩, hrep⟩

theorem Holds.exec (H : Holds g maxBytes st s) (hmax : maxBytes ≤ u64Max) {op : PieceStore.Op}
    (h : op.Clean st) :
    ∃ st', op.exec st = some ((op.onShelf g maxBytes s).1, st') ∧
      Holds g maxBytes st' (op.onShelf g maxBytes s).2 := by
  cases op with
  | read r =>
    obtain ⟨b', heq, h'⟩ := H.settings.read (DiskBackend.faithful g.chunkLength) H.represents r
    exact ⟨_, congrArg some heq, H.settings.backend b', h'⟩
  | write w =>
    cases w with
    | putChunk now piece chunk header data =>
      obtain ⟨st', heq, H'⟩ := H.putChunk hmax h now header
      exact ⟨st', by rw [PieceStore.Op.exec, PieceStore.Write.exec, heq]; rfl, H'⟩
    | sharedPutChunk now piece chunk header data =>
      exact ⟨_, rfl, H.sharedPutChunk h header⟩
    | putCompletePiece now piece header wire =>
      obtain ⟨hreply, H'⟩ := H.putComplete now piece header wire
      exact ⟨_, congrArg some (Prod.ext (congrArg PieceStore.Reply.complete hreply) rfl), H'⟩

theorem holds_new (g : Geometry) (maxBytes : Nat) : Holds g maxBytes (new g maxBytes) ∅ :=
  ⟨⟨rfl, rfl, rfl, rfl⟩, rfl, rfl, rfl, fun _ _ h => by cases h⟩

/-- The store after an operation. -/
def step (st : DiskStore) (op : PieceStore.Op) : DiskStore := ((op.exec st).map (·.2)).getD st

end DiskStore

/-- Two stores that hold the same shelf answer a sequence of operations alike. -/
theorem replies_eq {g : Geometry} {maxBytes : Nat} (hmax : maxBytes ≤ u64Max) {s : Shelf}
    {d : DiskStore} {m : MemoryStore} (hd : DiskStore.Holds g maxBytes d s)
    (hm : MemoryStore.Holds g maxBytes m s) {ops : List PieceStore.Op}
    (h : Meets DiskStore.step (fun st op => op.Clean st) d ops) :
    ∃ answers, d.replies ops = some answers ∧ m.replies ops = some answers := by
  induction ops generalizing d m s with
  | nil => exact ⟨[], rfl, rfl⟩
  | cons op ops ih =>
    obtain ⟨hclean, hrest⟩ := h
    obtain ⟨d', heq, hd'⟩ := hd.exec hmax hclean
    obtain ⟨m', heq', hm'⟩ := hm.exec op
    have hstep : DiskStore.step d op = d' := by rw [DiskStore.step, heq]; rfl
    rw [hstep] at hrest
    obtain ⟨answers, hrun, hrun'⟩ := ih hd' hm' hrest
    refine ⟨(op.onShelf g maxBytes s).1 :: answers, ?_, ?_⟩
    · rw [PieceStore.replies, heq, Option.bind_some]
      simp only [hrun, Option.map_some]
    · rw [PieceStore.replies, heq', Option.bind_some]
      simp only [hrun', Option.map_some]

/-- The disk store answers as the memory store does on every sequence of operations whose chunk
writes are clean in the disk store that they reach, and no operation panics. -/
theorem disk_answers_as_memory (g : Geometry) (maxBytes : UInt64) (ops : List PieceStore.Op)
    (h : Meets DiskStore.step (fun st op => op.Clean st) (DiskStore.new g maxBytes.toNat) ops) :
    ∃ answers, (DiskStore.new g maxBytes.toNat).replies ops = some answers ∧
      (MemoryStore.new g maxBytes.toNat).replies ops = some answers := by
  have hmax : maxBytes.toNat ≤ u64Max := Nat.le_sub_one_of_lt maxBytes.toNat_lt
  exact replies_eq hmax (DiskStore.holds_new g _) (MemoryStore.holds_new g _) h

instance (st : DiskStore) (op : PieceStore.Op) : Decidable (op.Clean st) :=
  match op with
  | .write (.putChunk _ piece chunk _ data) | .write (.sharedPutChunk _ piece chunk _ data) =>
    inferInstanceAs (Decidable (_ ∨ _ ∨ st.backend.Clean piece chunk data))
  | .write (.putCompletePiece ..) => inferInstanceAs (Decidable True)
  | .read _ => inferInstanceAs (Decidable True)

/-- Two chunks of four bytes per piece. -/
def twoChunks : Geometry := ⟨8, 4, four_pos⟩

/-- Plain and shared writes, an overwrite, an over-long last chunk, a whole piece, an eviction and
reads of all of it. -/
def cleanOps : List PieceStore.Op :=
  [.write (.putChunk 0 1 0 zeroHeader [1, 2, 3, 4]),
    .write (.sharedPutChunk 1 1 0 zeroHeader [5, 6, 7, 8]),
    .write (.sharedPutChunk 2 1 1 zeroHeader [9, 10, 11, 12, 13, 14]), .read (.chunk 1 1),
    .read (.block 1 2 4), .write (.putCompletePiece 3 2 zeroHeader [1, 2, 3, 4, 5, 6, 7, 8]),
    .read .window, .read (.servingChunk 2 1), .read (.hasPiece 1), .read .havePieces]

theorem disk_answers_as_memory_sample :
    ∃ answers, (DiskStore.new twoChunks 17).replies cleanOps = some answers ∧
      (MemoryStore.new twoChunks 17).replies cleanOps = some answers :=
  disk_answers_as_memory twoChunks 17 cleanOps (by decide +kernel)

/-- A chunk of five bytes runs into the next one, whose write then ends it with a byte of its own. -/
def longChunkOps : List PieceStore.Op :=
  [.write (.sharedPutChunk 0 0 0 zeroHeader [1, 2, 3, 4, 5]),
    .write (.sharedPutChunk 1 0 1 zeroHeader [6, 7, 8, 9]), .read (.chunk 0 0)]

/-- A read opens the file of a whole piece for reading, and a later write goes through that
handle. -/
def cachedHandleOps : List PieceStore.Op :=
  [.write (.putCompletePiece 0 0 zeroHeader [1, 2, 3, 4, 5, 6, 7, 8]), .read (.chunk 0 0),
    .write (.sharedPutChunk 1 0 0 zeroHeader [9, 9, 9, 9]), .read (.chunk 0 0)]

theorem disk_answers_differ :
    (DiskStore.new twoChunks 100).replies longChunkOps =
        some [.done, .done, .bytes (some [1, 2, 3, 4, 6])] ∧
      (MemoryStore.new twoChunks 100).replies longChunkOps =
        some [.done, .done, .bytes (some [1, 2, 3, 4, 5])] ∧
      (DiskStore.new twoChunks 100).replies cachedHandleOps =
        some [.complete (.ok .published), .bytes (some [1, 2, 3, 4]), .done,
          .bytes (some [1, 2, 3, 4])] ∧
      (MemoryStore.new twoChunks 100).replies cachedHandleOps =
        some [.complete (.ok .published), .bytes (some [1, 2, 3, 4]), .done,
          .bytes (some [9, 9, 9, 9])] := by
  decide +kernel

end Outpace.Swarm

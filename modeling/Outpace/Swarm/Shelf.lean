import Outpace.Swarm.StoreAccounting

/-!
# What a piece store is for

The abstract store: for each piece a header and chunks, and nothing else. A write puts a chunk or a
whole piece on the shelf and then drops the lowest pieces until the rest is within the budget; a
read looks at the shelf. `Faithful` says what a backend has to do to be such a shelf under a
representation relation; the generic parts of the store, its reads and its eviction loop, then do
what the shelf does.
-/

namespace Outpace.Swarm
open Wire (Bytes Header zeroHeader)
open PieceStore (SameSettings)

/-- A piece on the shelf. -/
structure Slot where
  header : Header
  chunks : OrderedMap Nat Bytes

abbrev Shelf := OrderedMap Nat Slot

namespace Shelf

def slotSize (_ : Nat) (slot : Slot) : Nat := MemoryBackend.size slot.chunks

/-- The bytes on the shelf. -/
def total (s : Shelf) : Nat := s.weight slotSize

/-- What is held of a piece once a chunk is added. -/
def slotWith (s : Shelf) (piece chunk : Nat) (header : Header) (data : Bytes) : Slot :=
  match s.get? piece with
  | none => ⟨header, (∅ : OrderedMap Nat Bytes).insert chunk data⟩
  | some slot => ⟨upgradeHeader slot.header header, slot.chunks.insert chunk data⟩

def putChunk (s : Shelf) (piece chunk : Nat) (header : Header) (data : Bytes) : Shelf :=
  s.insert piece (s.slotWith piece chunk header data)

/-- A whole piece takes the place of what is held of it. -/
def putPiece (s : Shelf) (chunkLength piece : Nat) (header : Header) (wire : Bytes) : Shelf :=
  s.insert piece ⟨header, MemoryStore.wireChunks chunkLength wire⟩

/-- Drop the lowest pieces until the rest is within the budget. -/
def trimTo (s : Shelf) (maxBytes : Nat) : Shelf := s.trim slotSize maxBytes

/-- A whole-piece write, unless the piece is complete. -/
def putComplete (s : Shelf) (maxBytes chunkLength chunks piece : Nat) (header : Header)
    (wire : Bytes) : CompletePut × Shelf :=
  if (s.get? piece).any fun slot => decide (slot.chunks.size = chunks) then (.alreadyPresent, s)
  else
    let s' := (s.putPiece chunkLength piece header wire).trimTo maxBytes
    (if s'.contains piece then .published else .notRetained, s')

def get (s : Shelf) (piece chunk : Nat) : Option (Bytes × Header) :=
  (s.get? piece).bind fun slot => (slot.chunks.get? chunk).map fun data => (data, slot.header)

def hasPiece (s : Shelf) (piece chunksPerPiece : Nat) : Bool :=
  (s.get? piece).any fun slot => decide (slot.chunks.size % 2 ^ 16 = chunksPerPiece)

def havePieces (s : Shelf) (chunksPerPiece : Nat) : List Nat :=
  s.keys.filter fun piece => s.hasPiece piece chunksPerPiece

def window (s : Shelf) : Option (Nat × Nat) :=
  s.keys.head?.bind fun first => s.keys.getLast?.map fun last => (first, last)

def gather (s : Shelf) (piece : Nat) : (chunks : List Nat) → Bytes → Option Bytes
  | [], bytes => some bytes
  | chunk :: chunks, bytes =>
    if 65535 < chunk then none
    else match s.get piece chunk with
      | none => none
      | some (data, _) => gather s piece chunks (bytes ++ data)

/-- The bytes of a block request, with the lengths of the geometry. -/
def block (s : Shelf) (pieceLength chunkLength piece start length : Nat) : Option Bytes :=
  if length = 0 ∨ PieceStore.maxBtRequestLen < length then none
  else if pieceLength < start + length then none
  else
    let first := start / chunkLength
    let last := (start + length + chunkLength - 1) / chunkLength
    match s.gather piece (List.range' first (last - first)) [] with
    | none => none
    | some bytes =>
      let offset := start % chunkLength
      if offset + length ≤ bytes.length then some ((bytes.drop offset).take length) else none

end Shelf

/-- A backend is a shelf under a representation relation: its reads are reads of the shelf, and it
evicts the lowest piece of the shelf. -/
structure Faithful {β : Type} [Backend β] (R : β → Shelf → Prop) : Prop where
  get : ∀ {b s}, R b s → ∀ piece chunk,
    ∃ b', Backend.get b piece chunk = ((s.get piece chunk).map (·.1), b') ∧ R b' s
  servingChunk : ∀ {b s}, R b s → ∀ piece chunk,
    ∃ b', Backend.servingChunk b piece chunk = (s.get piece chunk, b') ∧ R b' s
  hasPiece : ∀ {b s}, R b s → ∀ piece n, Backend.hasPiece b piece n = s.hasPiece piece n
  havePieces : ∀ {b s}, R b s → ∀ n, Backend.havePieces b n = s.havePieces n
  window : ∀ {b s}, R b s → Backend.window b = s.window
  evict_empty : ∀ {b s}, R b s → s.first? = none → Backend.evictLowest b = none
  evict_first : ∀ {b s piece slot}, R b s → s.first? = some (piece, slot) →
    ∃ b', Backend.evictLowest b = some (Shelf.slotSize piece slot, b') ∧ R b' (s.erase piece)
  pieceCount : ∀ {b s}, R b s → Backend.pieceCount b = s.size

namespace Faithful
variable {β : Type} [Backend β] {R : β → Shelf → Prop} {st : PieceStore β} {s : Shelf}

theorem chunk (F : Faithful R) (h : R st.backend s) (piece chunk : Nat) :
    ∃ b', st.chunk piece chunk = ((s.get piece chunk).map (·.1), { st with backend := b' }) ∧
      R b' s := by
  obtain ⟨b', heq, h'⟩ := F.get h piece chunk
  exact ⟨b', by simp only [PieceStore.chunk, heq], h'⟩

theorem serving (F : Faithful R) (h : R st.backend s) (piece chunk : Nat) :
    ∃ b', st.servingChunk piece chunk = (s.get piece chunk, { st with backend := b' }) ∧
      R b' s := by
  obtain ⟨b', heq, h'⟩ := F.servingChunk h piece chunk
  exact ⟨b', by simp only [PieceStore.servingChunk, heq], h'⟩

theorem gather (F : Faithful R) (h : R st.backend s) (piece : Nat) (chunks : List Nat)
    (bytes : Bytes) :
    ∃ b', st.gather piece chunks bytes =
      (s.gather piece chunks bytes, { st with backend := b' }) ∧ R b' s := by
  induction chunks generalizing st bytes with
  | nil => exact ⟨st.backend, rfl, h⟩
  | cons chunk chunks ih =>
    rw [PieceStore.gather, Shelf.gather]
    split
    · exact ⟨st.backend, rfl, h⟩
    obtain ⟨b', heq, h'⟩ := F.serving h piece chunk
    rw [heq]
    cases s.get piece chunk with
    | none => exact ⟨b', rfl, h'⟩
    | some result => exact @ih { st with backend := b' } h' (bytes ++ result.1)

theorem block (F : Faithful R) (h : R st.backend s) (piece start length : Nat) :
    ∃ b', st.block piece start length =
      (s.block st.pieceLength st.chunkLength piece start length, { st with backend := b' }) ∧
      R b' s := by
  unfold PieceStore.block Shelf.block
  split
  · exact ⟨st.backend, rfl, h⟩
  split
  · exact ⟨st.backend, rfl, h⟩
  dsimp only
  obtain ⟨b', heq, h'⟩ := F.gather h piece (List.range' (start / st.chunkLength)
    ((start + length + st.chunkLength - 1) / st.chunkLength - start / st.chunkLength)) []
  rw [heq]
  cases s.gather piece (List.range' (start / st.chunkLength)
    ((start + length + st.chunkLength - 1) / st.chunkLength - start / st.chunkLength)) [] with
  | none => exact ⟨b', rfl, h'⟩
  | some bytes => exact ⟨b', rfl, h'⟩

theorem evictLowestTracked (F : Faithful R) (h : R st.backend s) {piece : Nat} {slot : Slot}
    (hfirst : s.first? = some (piece, slot)) :
    ∃ st', st.evictLowestTracked = some (Shelf.slotSize piece slot, st') ∧
      R st'.backend (s.erase piece) ∧ st'.curBytes = st.curBytes ∧ SameSettings st st' := by
  obtain ⟨b', heq, h'⟩ := F.evict_first h hfirst
  simp only [PieceStore.evictLowestTracked, heq]
  exact ⟨_, rfl, h', rfl, rfl, rfl, rfl, rfl⟩

/-- The budget loop trims the shelf. -/
theorem evictWhile (F : Faithful R) {fuel : Nat} (h : R st.backend s)
    (hcur : st.curBytes = s.total) (hfuel : s.size < fuel) :
    ∃ st', PieceStore.evictWhile PieceStore.overBudget fuel st = some st' ∧
      R st'.backend (s.trimTo st.maxBytes) ∧ st'.curBytes = (s.trimTo st.maxBytes).total ∧
      SameSettings st st' := by
  induction fuel generalizing st s with
  | zero => cases hfuel
  | succ fuel ih =>
    rw [PieceStore.evictWhile]
    by_cases hover : st.maxBytes < st.curBytes
    · rw [if_pos (by simpa [PieceStore.overBudget] using hover)]
      cases hfirst : s.first? with
      | none =>
        have hempty : s.total = 0 := by rw [OrderedMap.first?_eq_none.mp hfirst]; rfl
        omega
      | some e =>
        obtain ⟨piece, slot⟩ := e
        obtain ⟨st', hev, h', hcur', hset⟩ := F.evictLowestTracked h hfirst
        have hget := OrderedMap.get?_of_first? hfirst
        have hweight := s.weight_erase (f := Shelf.slotSize) piece
        rw [hget, Option.elim_some] at hweight
        have hsize := OrderedMap.size_erase_lt hget
        unfold Shelf.total at hcur
        rw [hev]
        simp only [checkedSub_of_le (show Shelf.slotSize piece slot ≤ st'.curBytes by omega)]
        obtain ⟨st'', hrun, h'', hcur'', hset'⟩ := @ih
          { st' with curBytes := st'.curBytes - Shelf.slotSize piece slot } _ h'
          (show st'.curBytes - Shelf.slotSize piece slot =
            Shelf.total (s.erase piece) by unfold Shelf.total; omega) (by omega)
        have htrim : s.trimTo st.maxBytes = Shelf.trimTo (s.erase piece) st'.maxBytes := by
          rw [hset.maxBytes]
          exact OrderedMap.trim_of_lt hfirst (by omega)
        rw [htrim]
        exact ⟨st'', hrun, h'', hcur'', hset.trans ⟨hset'.1, hset'.2, hset'.3, hset'.4⟩⟩
    · rw [if_neg (by simpa [PieceStore.overBudget] using hover)]
      have htrim : s.trimTo st.maxBytes = s :=
        OrderedMap.trim_of_le (show s.total ≤ st.maxBytes by omega)
      rw [htrim]
      exact ⟨st, rfl, h, hcur, .rfl⟩

theorem evict (F : Faithful R) (h : R st.backend s) (hcur : st.curBytes = s.total)
    (hret : st.retention = none) :
    ∃ st', st.evict = some st' ∧ R st'.backend (s.trimTo st.maxBytes) ∧
      st'.curBytes = (s.trimTo st.maxBytes).total ∧ SameSettings st st' := by
  have hcount := F.pieceCount h
  obtain ⟨st', hrun, h', hcur', hset⟩ := F.evictWhile h hcur
    (show s.size < Backend.pieceCount st.backend + 1 by omega)
  refine ⟨st', ?_, h', hcur', hset⟩
  have hret' : st'.retention = none := hset.retention.trans hret
  simp only [PieceStore.evict, hrun, Option.bind_eq_bind, Option.bind_some, hret']

end Faithful

namespace MemoryBackend

def shelf (m : MemoryBackend) : Shelf :=
  m.pieces.mapVal fun piece chunks => ⟨(m.headers.get? piece).getD zeroHeader, chunks⟩

/-- Every piece has its header, and the shelf is this one. -/
def Shows (m : MemoryBackend) (s : Shelf) : Prop :=
  m.headers.contains = m.pieces.contains ∧ m.shelf = s

variable {m : MemoryBackend} {s : Shelf}

theorem get?_shelf (m : MemoryBackend) (piece : Nat) :
    m.shelf.get? piece = (m.pieces.get? piece).map fun chunks =>
      ⟨(m.headers.get? piece).getD zeroHeader, chunks⟩ :=
  OrderedMap.get?_mapVal ..

theorem keys_shelf (m : MemoryBackend) : m.shelf.keys = m.pieces.keys := OrderedMap.keys_mapVal ..

theorem first?_shelf {piece : Nat} {slot : Slot} (h : m.shelf.first? = some (piece, slot)) :
    m.pieces.first? = some (piece, slot.chunks) := by
  rw [shelf, OrderedMap.first?_mapVal] at h
  obtain ⟨e, he, heq⟩ := Option.map_eq_some_iff.mp h
  cases heq
  exact he

theorem total_shelf (m : MemoryBackend) : m.shelf.total = MemoryStore.heldBytes m :=
  OrderedMap.weight_mapVal ..

theorem get_shelf (m : MemoryBackend) (piece chunk : Nat) :
    m.shelf.get piece chunk =
      (m.get piece chunk).map fun data => (data, (m.headers.get? piece).getD zeroHeader) := by
  rw [Shelf.get, get?_shelf, get]
  cases m.pieces.get? piece <;> rfl

theorem hasPiece_shelf (m : MemoryBackend) (piece n : Nat) :
    m.shelf.hasPiece piece n = m.hasPiece piece n := by
  rw [Shelf.hasPiece, get?_shelf, hasPiece]
  cases m.pieces.get? piece <;> rfl

theorem shelf_evict {piece : Nat} (m : MemoryBackend) :
    (MemoryBackend.mk (m.pieces.erase piece) (m.headers.erase piece)).shelf =
      m.shelf.erase piece := by
  refine OrderedMap.ext_get? fun i => ?_
  rw [get?_shelf, OrderedMap.get?_erase, OrderedMap.get?_erase, OrderedMap.get?_erase, get?_shelf]
  split <;> rfl

theorem faithful : Faithful Shows where
  get := by
    rintro m _ ⟨hkeys, rfl⟩ piece chunk
    refine ⟨m, ?_, hkeys, rfl⟩
    rw [get_shelf, Option.map_map]
    exact Prod.ext Option.map_id'.symm rfl
  servingChunk := by
    rintro m _ ⟨hkeys, rfl⟩ piece chunk
    exact ⟨m, by rw [get_shelf]; rfl, hkeys, rfl⟩
  hasPiece := by
    rintro m _ ⟨-, rfl⟩ piece n
    exact (hasPiece_shelf m piece n).symm
  havePieces := by
    rintro m _ ⟨-, rfl⟩ n
    rw [Shelf.havePieces, keys_shelf]
    exact List.filter_congr fun piece _ => (hasPiece_shelf m piece n).symm
  window := by
    rintro m _ ⟨-, rfl⟩
    rw [Shelf.window, keys_shelf]
    show m.window = _
    unfold window
    cases m.pieces.keys.head? <;> cases m.pieces.keys.getLast? <;> rfl
  evict_empty := by
    rintro m _ ⟨-, rfl⟩ hfirst
    have hnone : m.pieces.first? = none := by
      rwa [shelf, OrderedMap.first?_mapVal, Option.map_eq_none_iff] at hfirst
    show m.evictLowest = none
    rw [evictLowest, hnone]
  evict_first := by
    rintro m _ piece slot ⟨hkeys, rfl⟩ hfirst
    refine ⟨⟨m.pieces.erase piece, m.headers.erase piece⟩, ?_, ?_, shelf_evict m⟩
    · show m.evictLowest = _
      rw [evictLowest, first?_shelf hfirst]
      rfl
    · rw [OrderedMap.contains_erase, OrderedMap.contains_erase, hkeys]
  pieceCount := by
    rintro m _ ⟨-, rfl⟩
    exact (OrderedMap.size_mapVal ..).symm

/-- The shelf says everything of the backend. -/
theorem Shows.unique {m' : MemoryBackend} (h : m.Shows s) (h' : m'.Shows s) : m' = m := by
  obtain ⟨hkeys, rfl⟩ := h
  obtain ⟨hkeys', hshelf⟩ := h'
  have hslot : ∀ i, m'.shelf.get? i = m.shelf.get? i := fun i => by rw [hshelf]
  have hpieces : m'.pieces = m.pieces := by
    refine OrderedMap.ext_get? fun i => ?_
    have hi := congrArg (Option.map Slot.chunks) (hslot i)
    simpa only [get?_shelf, Option.map_map, Function.comp_def, Option.map_id'] using hi
  have hheaders : m'.headers = m.headers := by
    refine OrderedMap.ext_get? fun i => ?_
    have hi := congrArg (Option.map Slot.header) (hslot i)
    have hk := congrFun hkeys i
    have hk' := congrFun hkeys' i
    rw [get?_shelf, get?_shelf, hpieces] at hi
    rw [hpieces] at hk'
    simp only [OrderedMap.contains] at hk hk'
    cases hp : m.pieces.get? i <;> cases hh : m.headers.get? i <;>
      cases hh' : m'.headers.get? i <;> simp_all
  cases m
  cases m'
  cases hpieces
  cases hheaders
  rfl

theorem Shows.insert (h : m.Shows s) (piece : Nat) (header : Header)
    (chunks : OrderedMap Nat Bytes) :
    (MemoryBackend.mk (m.pieces.insert piece chunks) (m.headers.insert piece header)).Shows
      (s.insert piece ⟨header, chunks⟩) := by
  obtain ⟨hkeys, rfl⟩ := h
  constructor
  · show (m.headers.insert piece header).contains = (m.pieces.insert piece chunks).contains
    rw [OrderedMap.contains_insert, OrderedMap.contains_insert, hkeys]
  · refine OrderedMap.ext_get? fun i => ?_
    rw [get?_shelf, OrderedMap.get?_insert]
    simp only [OrderedMap.get?_insert]
    split
    · rfl
    · exact (get?_shelf m i).symm

theorem slotWith_shelf (hkeys : m.headers.contains = m.pieces.contains) (piece chunk : Nat)
    (header : Header) (data : Bytes) :
    m.shelf.slotWith piece chunk header data =
      ⟨((m.headers.get? piece).map fun stored => upgradeHeader stored header).getD header,
        (m.chunksOf piece).insert chunk data⟩ := by
  have hk := congrFun hkeys piece
  rw [Shelf.slotWith, get?_shelf, chunksOf]
  simp only [OrderedMap.contains] at hk
  cases hp : m.pieces.get? piece <;> cases hh : m.headers.get? piece <;> simp [hp, hh] at hk ⊢

theorem Shows.put (h : m.Shows s) (piece chunk : Nat) (header : Header) (data : Bytes) :
    (m.put piece chunk header data).2.Shows (s.putChunk piece chunk header data) := by
  obtain ⟨hkeys, rfl⟩ := h
  rw [Shelf.putChunk, slotWith_shelf hkeys]
  exact Shows.insert ⟨hkeys, rfl⟩ ..

end MemoryBackend

end Outpace.Swarm

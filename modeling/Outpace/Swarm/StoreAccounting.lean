import Outpace.Swarm.Store

/-!
# Accounting of the memory store

`Books` is what a memory store keeps exact: its byte count, the geometry of the chunks it holds, and
the keys of its maps. A write enters a piece into the books (`Books.enter`), an eviction takes
the lowest piece out of them (`Books.evictLowest`), and the eviction loops leave them within the
budget (`Books.evict`). None of the subtractions of the source is of more than there is.
-/

namespace Outpace.Swarm.MemoryStore
open Wire (Bytes Header zeroHeader)
open PieceStore (SameSettings)

/-- The bytes held. -/
def heldBytes (m : MemoryBackend) : Nat := m.pieces.weight fun _ chunks => MemoryBackend.size chunks

structure Books (s : MemoryStore) : Prop where
  cur : s.curBytes = heldBytes s.backend
  index : s.backend.pieces.All fun _ chunks =>
    chunks.All fun k _ => k < s.pieceLength / s.chunkLength
  headers : s.backend.headers.contains = s.backend.pieces.contains
  seen : s.retention.isSome = true → s.firstSeen.contains = s.backend.pieces.contains

variable {s s' : MemoryStore} {wire : Bytes} {chunkLength : Nat}

/-! ### Evictions -/

/-- What one eviction takes out of the books. -/
theorem Books.evictLowest (B : Books s) {freed : Nat} (h : s.evictLowestTracked = some (freed, s')) :
    freed ≤ s'.curBytes ∧ Books { s' with curBytes := s'.curBytes - freed } ∧ SameSettings s s' ∧
      s'.backend.pieces.size < s.backend.pieces.size ∧ s'.curBytes = s.curBytes := by
  simp only [PieceStore.evictLowestTracked, Backend.evictLowest, MemoryBackend.evictLowest] at h
  split at h
  · cases h
  next freed' backend hev =>
  cases h
  split at hev
  · cases hev
  next lowest chunks hfirst =>
  cases hev
  have hget := OrderedMap.get?_of_first? hfirst
  have hweight := s.backend.pieces.weight_erase (f := fun _ chunks => MemoryBackend.size chunks) lowest
  rw [hget, Option.elim_some] at hweight
  have hcur : s.curBytes = heldBytes s.backend := B.cur
  unfold heldBytes at hcur
  refine ⟨by show MemoryBackend.size chunks ≤ s.curBytes; omega, ⟨?_, B.index.erase lowest, ?_, ?_⟩,
    ⟨rfl, rfl, rfl, rfl⟩, OrderedMap.size_erase_lt hget, rfl⟩
  · show s.curBytes - MemoryBackend.size chunks =
      (s.backend.pieces.erase lowest).weight fun _ chunks => MemoryBackend.size chunks
    omega
  · show (s.backend.headers.erase lowest).contains = (s.backend.pieces.erase lowest).contains
    rw [OrderedMap.contains_erase, OrderedMap.contains_erase, B.headers]
  · intro hret
    show s.firstSeen.popFirst.contains = (s.backend.pieces.erase lowest).contains
    have hseen := B.seen hret
    rw [OrderedMap.popFirst_eq hseen hfirst, OrderedMap.contains_erase, OrderedMap.contains_erase,
      hseen]

theorem evictLowestTracked_eq_none (h : s.evictLowestTracked = none) : s.backend.pieces = ∅ := by
  simp only [PieceStore.evictLowestTracked, Backend.evictLowest, MemoryBackend.evictLowest] at h
  split at h
  · next hev =>
    split at hev
    · next hfirst => exact OrderedMap.first?_eq_none.mp hfirst
    · cases hev
  · cases h

/-- An eviction loop ends, in balanced books, when its condition fails or nothing is left. -/
theorem Books.evictWhile (cond : MemoryStore → Bool) {fuel : Nat} (B : Books s)
    (hfuel : s.backend.pieces.size < fuel) :
    ∃ s', PieceStore.evictWhile cond fuel s = some s' ∧ Books s' ∧ SameSettings s s' ∧
      s'.curBytes ≤ s.curBytes ∧ (cond s' = false ∨ s'.curBytes = 0) := by
  induction fuel generalizing s with
  | zero => cases hfuel
  | succ fuel ih =>
    cases hcond : cond s with
    | false =>
      exact ⟨s, by simp [PieceStore.evictWhile, hcond], B, .rfl, Nat.le_refl _, .inl hcond⟩
    | true =>
      cases hev : s.evictLowestTracked with
      | none =>
        have hempty : s.curBytes = 0 := by
          rw [B.cur, heldBytes, evictLowestTracked_eq_none hev]
          rfl
        exact ⟨s, by simp [PieceStore.evictWhile, hcond, hev], B, .rfl, Nat.le_refl _, .inr hempty⟩
      | some out =>
        obtain ⟨freed, s₁⟩ := out
        obtain ⟨hle, B₁, hset, hsize, hcur⟩ := B.evictLowest hev
        obtain ⟨s', hrun, B', hset', hle', hend⟩ := ih B₁ (by
          show s₁.backend.pieces.size < fuel
          omega)
        refine ⟨s', ?_, B', ?_, ?_, hend⟩
        · simp only [PieceStore.evictWhile, hcond, hev, checkedSub_of_le hle, if_true]
          exact hrun
        · exact hset.trans ⟨hset'.1, hset'.2, hset'.3, hset'.4⟩
        · have : s'.curBytes ≤ s₁.curBytes - freed := hle'
          omega

/-- The evictions of a write leave the store within its budget. -/
theorem Books.evict (B : Books s) :
    ∃ s', s.evict = some s' ∧ Books s' ∧ SameSettings s s' ∧ s'.curBytes ≤ s'.maxBytes := by
  obtain ⟨s₁, hrun₁, B₁, hset₁, -, hend⟩ := B.evictWhile PieceStore.overBudget (Nat.lt_succ_self _)
  have hle₁ : s₁.curBytes ≤ s₁.maxBytes := by
    rcases hend with hend | hend
    · simpa [PieceStore.overBudget] using hend
    · omega
  simp only [PieceStore.evict, Backend.pieceCount, hrun₁, Option.bind_eq_bind, Option.bind_some]
  split
  · next retention newest _ _ =>
    obtain ⟨s₂, hrun₂, B₂, hset₂, hle₂, -⟩ :=
      B₁.evictWhile (PieceStore.expired retention newest) (Nat.lt_succ_self _)
    exact ⟨s₂, hrun₂, B₂, hset₁.trans hset₂, by rw [hset₂.maxBytes]; omega⟩
  · exact ⟨s₁, rfl, B₁, hset₁, hle₁⟩

/-! ### Writes -/

theorem noteSeen_curBytes (s : MemoryStore) (now piece cur : Nat) :
    { s.noteSeen now piece with curBytes := cur } =
      PieceStore.noteSeen { s with curBytes := cur } now piece := by
  unfold PieceStore.noteSeen
  split <;> rfl

theorem countStored_noteSeen (s : MemoryStore) (now piece : Nat) (stored : Stored) :
    (s.noteSeen now piece).countStored stored =
      (checkedSub s.curBytes stored.removed).map (· + stored.added) := by
  unfold PieceStore.noteSeen
  split <;> rfl

theorem backend_noteSeen (s : MemoryStore) (now piece : Nat) :
    (s.noteSeen now piece).backend = s.backend := by
  unfold PieceStore.noteSeen
  split <;> rfl

theorem sameSettings_noteSeen (s : MemoryStore) (now piece : Nat) :
    SameSettings s (s.noteSeen now piece) := by
  unfold PieceStore.noteSeen
  split <;> exact ⟨rfl, rfl, rfl, rfl⟩

/-- A piece with new contents is entered into the books. -/
theorem Books.enter (B : Books s) (now piece cur : Nat) (header : Header)
    (chunks : OrderedMap Nat Bytes) (hindex : chunks.All fun k _ => k < s.pieceLength / s.chunkLength)
    (hcur : cur + ((s.backend.pieces.get? piece).map MemoryBackend.size).getD 0 =
      s.curBytes + MemoryBackend.size chunks) :
    Books (PieceStore.noteSeen
      { s with
        backend := ⟨s.backend.pieces.insert piece chunks, s.backend.headers.insert piece header⟩
        curBytes := cur } now piece) := by
  have hheld : cur = heldBytes
      ⟨s.backend.pieces.insert piece chunks, s.backend.headers.insert piece header⟩ := by
    have hweight := s.backend.pieces.weight_insert
      (f := fun _ chunks => MemoryBackend.size chunks) piece chunks
    have hold : s.curBytes = heldBytes s.backend := B.cur
    unfold heldBytes at hold ⊢
    revert hweight hcur
    cases s.backend.pieces.get? piece <;>
      simp only [Option.elim_none, Option.elim_some, Option.map_none, Option.map_some,
        Option.getD_none, Option.getD_some] <;> omega
  have hheaders : (s.backend.headers.insert piece header).contains =
      (s.backend.pieces.insert piece chunks).contains := by
    rw [OrderedMap.contains_insert, OrderedMap.contains_insert, B.headers]
  unfold PieceStore.noteSeen
  split
  · next hret =>
    refine ⟨hheld, B.index.insert hindex, hheaders, fun _ => ?_⟩
    have hseen := B.seen hret
    show (if s.firstSeen.contains piece then s.firstSeen
      else s.firstSeen.insert piece now).contains = (s.backend.pieces.insert piece chunks).contains
    rw [OrderedMap.contains_insert, ← hseen]
    split
    · next hc => rw [← hc, Function.update_eq_self]
    · rw [OrderedMap.contains_insert]
  · next hret => exact ⟨hheld, B.index.insert hindex, hheaders, fun h => absurd h hret⟩

theorem size_chunksOf (m : MemoryBackend) (piece : Nat) :
    MemoryBackend.size (m.chunksOf piece) = ((m.pieces.get? piece).map MemoryBackend.size).getD 0 := by
  rw [MemoryBackend.chunksOf]
  cases m.pieces.get? piece <;> rfl

/-- The bytes of one piece are among those counted. -/
theorem Books.size_le (B : Books s) (piece : Nat) :
    ((s.backend.pieces.get? piece).map MemoryBackend.size).getD 0 ≤ s.curBytes := by
  have hweight :=
    s.backend.pieces.weight_erase (f := fun _ chunks => MemoryBackend.size chunks) piece
  have hold : s.curBytes = heldBytes s.backend := B.cur
  unfold heldBytes at hold
  revert hweight
  cases s.backend.pieces.get? piece <;>
    simp only [Option.elim_none, Option.elim_some, Option.map_none, Option.map_some,
      Option.getD_none, Option.getD_some] <;> omega

/-- The store with a chunk entered, before its evictions. -/
def entered (s : MemoryStore) (now piece chunk : Nat) (header : Header) (data : Bytes) : MemoryStore :=
  let (stored, backend) := s.backend.put piece chunk header data
  PieceStore.noteSeen
    { s with backend := backend, curBytes := s.curBytes - stored.removed + stored.added } now piece

/-- A chunk write inside the geometry enters the chunk and evicts. -/
theorem Books.putChunk_eq (B : Books s) {chunk : Nat} (hbudget : s.maxBytes ≠ 0)
    (hchunk : chunk < s.pieceLength / s.chunkLength) (now piece : Nat) (header : Header)
    (data : Bytes) :
    s.putChunkWithHeaderAt now piece chunk header data =
        (s.entered now piece chunk header data).evict ∧
      Books (s.entered now piece chunk header data) ∧
      SameSettings s (s.entered now piece chunk header data) ∧
      (s.entered now piece chunk header data).backend =
        (s.backend.put piece chunk header data).2 := by
  have hentry : (s.backend.chunksOf piece).All fun k _ => k < s.pieceLength / s.chunkLength := by
    rw [MemoryBackend.chunksOf]
    cases hget : s.backend.pieces.get? piece with
    | none => exact OrderedMap.All.empty
    | some chunks => exact B.index piece chunks hget
  have hsize := (s.backend.chunksOf piece).weight_insert (f := fun _ => List.length) chunk data
  have hremoved := (s.backend.chunksOf piece).weight_erase (f := fun _ => List.length) chunk
  have hheld := B.size_le piece
  rw [← size_chunksOf] at hheld
  unfold MemoryBackend.size at hheld
  have hsub : ((s.backend.chunksOf piece).get? chunk).elim 0 List.length ≤ s.curBytes := by omega
  have B₁ := B.enter now piece
    (s.curBytes - ((s.backend.chunksOf piece).get? chunk).elim 0 List.length + data.length)
    (((s.backend.headers.get? piece).map fun stored => upgradeHeader stored header).getD header)
    ((s.backend.chunksOf piece).insert chunk data) (hentry.insert hchunk) (by
      rw [← size_chunksOf]
      unfold MemoryBackend.size
      omega)
  refine ⟨?_, B₁, ?_, backend_noteSeen ..⟩
  · unfold PieceStore.putChunkWithHeaderAt
    rw [if_neg hbudget, if_neg (by omega)]
    show (PieceStore.countStored (PieceStore.noteSeen _ now piece) _).bind _ = _
    rw [countStored_noteSeen]
    show ((checkedSub s.curBytes _).map _).bind _ = _
    rw [checkedSub_of_le hsub, Option.map_some, Option.bind_some, noteSeen_curBytes]
    rfl
  · obtain ⟨h₁, h₂, h₃, h₄⟩ := sameSettings_noteSeen { s with
      backend := (s.backend.put piece chunk header data).2
      curBytes := s.curBytes - ((s.backend.chunksOf piece).get? chunk).elim 0 List.length +
        data.length } now piece
    exact ⟨h₁, h₂, h₃, h₄⟩

theorem Books.putChunk (B : Books s) (hle : s.curBytes ≤ s.maxBytes) (now piece chunk : Nat)
    (header : Header) (data : Bytes) :
    ∃ s', s.putChunkWithHeaderAt now piece chunk header data = some s' ∧ Books s' ∧
      SameSettings s s' ∧ s'.curBytes ≤ s'.maxBytes := by
  by_cases hskip : s.maxBytes = 0 ∨ s.pieceLength / s.chunkLength ≤ chunk
  · exact ⟨s, PieceStore.putChunkWithHeaderAt_of_skip hskip .., B, .rfl, hle⟩
  · obtain ⟨heq, B₁, hset, -⟩ := B.putChunk_eq (by omega) (show chunk < _ by omega) now
      piece header data
    obtain ⟨s', hrun, B', hset', hle'⟩ := B₁.evict
    exact ⟨s', heq.trans hrun, B', hset.trans hset', hle'⟩

theorem entries_wireChunks (hmax : wire.length / chunkLength ≤ 65535) :
    (wireChunks chunkLength wire).entries =
      (blocks chunkLength wire).mapIdx fun i data => (i % 2 ^ 16, data) := by
  refine OrderedMap.entries_ofEntries (List.pairwise_iff_getElem.mpr fun i j hi hj hij => ?_)
  simp only [List.length_mapIdx, length_blocks] at hi hj
  simp only [List.getElem_mapIdx]
  omega

theorem get?_wireChunks (hmax : wire.length / chunkLength ≤ 65535) (k : Nat) :
    (wireChunks chunkLength wire).get? k = (blocks chunkLength wire)[k]? := by
  ext data
  rw [OrderedMap.get?_eq_some, entries_wireChunks hmax, List.mem_mapIdx]
  simp only [Prod.mk.injEq, List.getElem?_eq_some_iff]
  constructor
  · rintro ⟨i, hi, hk, hdata⟩
    obtain rfl : i = k := by rw [length_blocks] at hi; omega
    exact ⟨hi, hdata⟩
  · rintro ⟨hk, hdata⟩
    exact ⟨k, hk, by rw [length_blocks] at hk; omega, hdata⟩

theorem foldr_add_const {γ : Type} {f : γ → Nat} {c : Nat} {l : List γ} (h : ∀ e ∈ l, f e = c) :
    l.foldr (fun e n => f e + n) 0 = l.length * c := by
  induction l with
  | nil => simp
  | cons e l ih =>
    obtain ⟨he, hl⟩ := List.forall_mem_cons.mp h
    rw [List.foldr_cons, ih hl, he, List.length_cons, Nat.succ_mul, Nat.add_comm]

theorem size_wireChunks (hdvd : chunkLength ∣ wire.length)
    (hmax : wire.length / chunkLength ≤ 65535) :
    MemoryBackend.size (wireChunks chunkLength wire) = wire.length := by
  rw [MemoryBackend.size, OrderedMap.weight, entries_wireChunks hmax,
    foldr_add_const (c := chunkLength), List.length_mapIdx, length_blocks,
    Nat.div_mul_cancel hdvd]
  intro e he
  obtain ⟨i, hi, rfl⟩ := List.mem_mapIdx.mp he
  exact length_of_mem_blocks (List.getElem_mem _)

theorem wireChunks_lt (hmax : wire.length / chunkLength ≤ 65535) :
    (wireChunks chunkLength wire).All fun k _ => k < wire.length / chunkLength := by
  intro k data h
  rw [get?_wireChunks hmax] at h
  obtain ⟨hk, -⟩ := List.getElem?_eq_some_iff.mp h
  rwa [length_blocks] at hk

theorem admitComplete_eq_none {β : Type} {s : PieceStore β} {wireLen : Nat}
    (h : s.admitComplete wireLen = none) :
    s.pieceLength = wireLen ∧ 0 < s.chunkLength ∧ s.chunkLength ∣ wireLen ∧
      wireLen / s.chunkLength ≤ 65535 ∧ s.chunkLength < 2 ^ 32 ∧ 0 < wireLen ∧
      wireLen ≤ s.maxBytes := by
  simp only [PieceStore.admitComplete] at h
  split at h
  · cases h
  next hbad =>
  split at h
  · cases h
  next hroom =>
  simp only [not_or, Decidable.not_not] at hbad
  obtain ⟨h₁, h₂, h₃, h₄, rfl, h₆⟩ := hbad
  exact ⟨rfl, by omega, Nat.dvd_of_mod_eq_zero h₃, by omega, by omega, by omega, by omega⟩

/-- An admitted piece that is not complete is entered, and then the store evicts. -/
theorem Books.putCompletePiece_eq (B : Books s) {piece : Nat}
    (hcheck : s.admitComplete wire.length = none) (hnew : s.hasPiece piece = false) (now : Nat)
    (header : Header) :
    ∃ s₁, s.putCompletePiece now piece header wire = s₁.evict.map (fun s' =>
        (.ok (if s'.hasPiece piece then .published else .notRetained), s')) ∧ Books s₁ ∧
      SameSettings s s₁ ∧ s₁.backend =
        ⟨s.backend.pieces.insert piece (wireChunks s.chunkLength wire),
          s.backend.headers.insert piece header⟩ := by
  obtain ⟨hlen, -, hdvd, hmax, -⟩ := admitComplete_eq_none hcheck
  have hsize := size_wireChunks hdvd hmax
  have hheld := B.size_le piece
  have B₁ := B.enter now piece
    (s.curBytes - ((s.backend.pieces.get? piece).map MemoryBackend.size).getD 0 + s.pieceLength)
    header (wireChunks s.chunkLength wire) (by rw [hlen]; exact wireChunks_lt hmax) (by omega)
  refine ⟨_, ?_, B₁, ?_, backend_noteSeen ..⟩
  · unfold MemoryStore.putCompletePiece putCompleteMemory
    have hnew' : s.backend.hasPiece piece s.chunksPerPiece = false := hnew
    simp only [hcheck, hnew', Bool.false_eq_true, if_false, checkedSub_of_le hheld,
      Option.map_some, Option.bind_some, Option.map_map]
    rfl
  · obtain ⟨h₁, h₂, h₃, h₄⟩ := sameSettings_noteSeen { s with
      backend := ⟨s.backend.pieces.insert piece (wireChunks s.chunkLength wire),
        s.backend.headers.insert piece header⟩
      curBytes := s.curBytes - ((s.backend.pieces.get? piece).map MemoryBackend.size).getD 0 +
        s.pieceLength } now piece
    exact ⟨h₁, h₂, h₃, h₄⟩

theorem putCompletePiece_of_refused {reply : Except PutError CompletePut}
    (h : s.admitComplete wire.length = some reply) (now piece : Nat) (header : Header) :
    s.putCompletePiece now piece header wire = some (reply, s) := by
  simp only [MemoryStore.putCompletePiece, h]

theorem putCompletePiece_of_hasPiece {piece : Nat} (hcheck : s.admitComplete wire.length = none)
    (h : s.hasPiece piece = true) (now : Nat) (header : Header) :
    s.putCompletePiece now piece header wire = some (.ok .alreadyPresent, s) := by
  have h' : s.backend.hasPiece piece s.chunksPerPiece = true := h
  simp only [MemoryStore.putCompletePiece, hcheck, putCompleteMemory, h', if_true, Option.map_some]

theorem Books.putCompletePiece (B : Books s) (hle : s.curBytes ≤ s.maxBytes) (now piece : Nat)
    (header : Header) (wire : Bytes) :
    ∃ reply s', s.putCompletePiece now piece header wire = some (reply, s') ∧ Books s' ∧
      SameSettings s s' ∧ s'.curBytes ≤ s'.maxBytes := by
  cases hcheck : s.admitComplete wire.length with
  | some reply => exact ⟨reply, s, putCompletePiece_of_refused hcheck .., B, .rfl, hle⟩
  | none =>
    cases hnew : s.hasPiece piece with
    | true => exact ⟨_, s, putCompletePiece_of_hasPiece hcheck hnew .., B, .rfl, hle⟩
    | false =>
      obtain ⟨s₁, heq, B₁, hset, -⟩ := B.putCompletePiece_eq hcheck hnew now header
      obtain ⟨s', hrun, B', hset', hle'⟩ := B₁.evict
      exact ⟨_, s', by rw [heq, hrun]; rfl, B', hset.trans hset', hle'⟩

/-! ### Runs -/

inductive Write where
  | putChunk (now piece chunk : Nat) (header : Header) (data : Bytes)
  | putCompletePiece (now piece : Nat) (header : Header) (wire : Bytes)

def Write.exec (s : MemoryStore) : Write → Option MemoryStore
  | .putChunk now piece chunk header data => s.putChunkWithHeaderAt now piece chunk header data
  | .putCompletePiece now piece header wire =>
    (s.putCompletePiece now piece header wire).map (·.2)

theorem Books.exec (B : Books s) (hle : s.curBytes ≤ s.maxBytes) (w : Write) :
    ∃ s', w.exec s = some s' ∧ Books s' ∧ SameSettings s s' ∧ s'.curBytes ≤ s'.maxBytes := by
  cases w with
  | putChunk now piece chunk header data => exact B.putChunk hle now piece chunk header data
  | putCompletePiece now piece header wire =>
    obtain ⟨reply, s', hrun, H⟩ := B.putCompletePiece hle now piece header wire
    exact ⟨s', by simp [Write.exec, hrun], H⟩

theorem Books.run (B : Books s) (hle : s.curBytes ≤ s.maxBytes) (writes : List Write) :
    ∃ s', writes.foldlM Write.exec s = some s' ∧ Books s' ∧ SameSettings s s' ∧
      s'.curBytes ≤ s'.maxBytes := by
  induction writes generalizing s with
  | nil => exact ⟨s, rfl, B, .rfl, hle⟩
  | cons w writes ih =>
    obtain ⟨s₁, hrun, B₁, hset, hle₁⟩ := B.exec hle w
    obtain ⟨s', hrun', B', hset', hle'⟩ := ih B₁ hle₁
    exact ⟨s', by rw [List.foldlM_cons, hrun]; exact hrun', B', hset.trans hset', hle'⟩

theorem Books.hasPiece_iff (B : Books s) (hmax : s.pieceLength / s.chunkLength ≤ 65535)
    (piece : Nat) :
    s.hasPiece piece = true ↔ ∃ chunks, s.backend.pieces.get? piece = some chunks ∧
      ∀ k < s.pieceLength / s.chunkLength, chunks.contains k = true := by
  simp only [PieceStore.hasPiece, Backend.hasPiece, MemoryBackend.hasPiece, Option.any_eq_true,
    decide_eq_true_iff]
  refine exists_congr fun chunks => and_congr_right fun hget => ?_
  have hindex := B.index piece chunks hget
  have hsize := OrderedMap.size_le_of_lt hindex
  rw [← OrderedMap.size_eq_iff_of_lt hindex, PieceStore.chunksPerPiece]
  omega

/-- A new store, with an age bound or without. -/
def start (g : Geometry) (maxBytes : Nat) (retention : Option Nat) : MemoryStore :=
  match retention with
  | none => new g maxBytes
  | some age => (new g maxBytes).withRetention age

theorem books_start (g : Geometry) (maxBytes : Nat) (retention : Option Nat) :
    Books (start g maxBytes retention) ∧ SameSettings
      { new g maxBytes with retention := (start g maxBytes retention).retention }
      (start g maxBytes retention) ∧ (start g maxBytes retention).curBytes = 0 := by
  cases retention with
  | none | some =>
    exact ⟨⟨rfl, OrderedMap.All.empty, rfl, fun _ => rfl⟩, ⟨rfl, rfl, rfl, rfl⟩, rfl⟩

/-- The accounting of the memory store is exact and bounded after every sequence of writes, and no
write takes more off the byte count than there is. -/
theorem accounting_exact_bounded (g : Geometry) (maxBytes : Nat) (retention : Option Nat)
    (hmax : g.chunkCount ≤ 65535) (writes : List Write) :
    ∃ s, writes.foldlM Write.exec (start g maxBytes retention) = some s ∧
      s.curBytes = heldBytes s.backend ∧ s.curBytes ≤ maxBytes ∧
      (∀ piece chunks chunk data, s.backend.pieces.get? piece = some chunks →
        chunks.get? chunk = some data → chunk < g.chunkCount) ∧
      (∀ piece, s.backend.headers.contains piece = s.backend.pieces.contains piece) ∧
      (s.retention.isSome = true →
        ∀ piece, s.firstSeen.contains piece = s.backend.pieces.contains piece) ∧
      ∀ piece, s.hasPiece piece = true ↔ ∃ chunks, s.backend.pieces.get? piece = some chunks ∧
        ∀ chunk < g.chunkCount, chunks.contains chunk = true := by
  obtain ⟨B₀, hset₀, hcur₀⟩ := books_start g maxBytes retention
  obtain ⟨s, hrun, B, hset, hle⟩ := B₀.run (hcur₀ ▸ Nat.zero_le _) writes
  have hset := hset₀.trans hset
  have hcount : s.pieceLength / s.chunkLength = g.chunkCount := by
    rw [hset.pieceLength, hset.chunkLength]
    rfl
  have hbudget : s.maxBytes = maxBytes := hset.maxBytes
  refine ⟨s, hrun, B.cur, hbudget ▸ hle, fun piece chunks chunk data hget hdata => ?_,
    congrFun B.headers, fun hret => congrFun (B.seen hret), fun piece => ?_⟩
  · exact hcount ▸ B.index piece chunks hget chunk data hdata
  · rw [B.hasPiece_iff (hcount ▸ hmax), hcount]

/-- Two chunks per piece and an age bound: an overwrite, an over-long and an empty chunk, a chunk
outside the geometry, a whole piece, and a write that evicts by age. -/
def sampleWrites : List Write :=
  [.putChunk 0 1 0 zeroHeader [1, 2, 3, 4], .putChunk 1 1 0 zeroHeader [5],
    .putChunk 2 1 7 zeroHeader [6], .putChunk 2 2 1 zeroHeader [1, 2, 3, 4, 5, 6, 7],
    .putChunk 3 3 1 zeroHeader [], .putCompletePiece 4 3 zeroHeader [1, 2, 3, 4, 5, 6, 7, 8],
    .putChunk 20 4 0 zeroHeader [9]]

theorem accounting_exact_bounded_sample :
    ∃ s, sampleWrites.foldlM Write.exec (start ⟨8, 4, by decide⟩ 12 (some 10)) = some s ∧
      s.curBytes = heldBytes s.backend ∧ s.curBytes ≤ 12 := by
  obtain ⟨s, hrun, hcur, hle, -⟩ :=
    accounting_exact_bounded ⟨8, 4, by decide⟩ 12 (some 10) (by decide) sampleWrites
  exact ⟨s, hrun, hcur, hle⟩

end Outpace.Swarm.MemoryStore

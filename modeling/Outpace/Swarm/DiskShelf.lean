import Outpace.Swarm.DiskStore
import Outpace.Swarm.Shelf

/-!
# The disk backend as a shelf

`Represents` reads a shelf off the actor's state: the index lists the chunks of each piece with
their lengths, and the file of the piece has the bytes of each chunk at its offset. Reads and
evictions keep to it without more (`faithful`), and so does a whole piece. A chunk write keeps to it
if it is `Clean`: if its length fits the index, its bytes fall on no other chunk of the piece, and
the handle at hand can be written through.
-/

namespace Outpace.Swarm.DiskBackend
open Wire (Bytes Header)

/-- The index entry of a piece on the shelf. -/
def entryOf (slot : Slot) : PieceIndex := ⟨slot.header, slot.chunks.mapVal fun _ => List.length⟩

/-- The file has the bytes of every chunk at its offset. -/
def FileHas (width : Nat) (file : Bytes) (chunks : OrderedMap Nat Bytes) : Prop :=
  ∀ chunk data, chunks.get? chunk = some data →
    readAt file (chunk * width) data.length = some data

structure Represents (width : Nat) (d : DiskBackend) (s : Shelf) : Prop where
  chunkLength : d.chunkLength = width
  index : d.state.index = s.mapVal fun _ => entryOf
  count : d.state.curBytes = s.total
  files : ∀ piece slot, s.get? piece = some slot →
    ∃ file, d.contents.get? piece = some file ∧ FileHas width file slot.chunks

variable {d d' : DiskBackend} {s : Shelf} {width piece : Nat} {data wire : Bytes} {slot : Slot}
  {access : Access}

theorem size_entryOf (piece : Nat) (slot : Slot) :
    (entryOf slot).size = Shelf.slotSize piece slot :=
  OrderedMap.weight_mapVal (fun _ => List.length) slot.chunks fun _ len => len

theorem Represents.get?_index (H : Represents width d s) (piece : Nat) :
    d.state.index.get? piece = (s.get? piece).map entryOf := by
  rw [H.index, OrderedMap.get?_mapVal]

/-! ### Handles -/

/-- Nothing but handles changes, and no file loses its bytes. -/
structure SameFiles (d d' : DiskBackend) : Prop where
  chunkLength : d'.chunkLength = d.chunkLength
  state : d'.state = d.state
  contents : ∀ piece file, d.contents.get? piece = some file → d'.contents.get? piece = some file

theorem Represents.sameFiles (H : Represents width d s) (h : SameFiles d d') :
    Represents width d' s where
  chunkLength := h.chunkLength.trans H.chunkLength
  index := h.state ▸ H.index
  count := h.state ▸ H.count
  files := by
    intro piece slot hslot
    obtain ⟨file, hfile, hhas⟩ := H.files piece slot hslot
    exact ⟨file, h.contents piece file hfile, hhas⟩

theorem sameFiles_closeOldest (d : DiskBackend) :
    SameFiles d d.closeOldest ∧ d.closeOldest.contents = d.contents := by
  unfold closeOldest
  split
  · split <;> exact ⟨⟨rfl, rfl, fun _ _ h => h⟩, rfl⟩
  · exact ⟨⟨rfl, rfl, fun _ _ h => h⟩, rfl⟩

theorem sameFiles_file {create : Bool} (h : d.file piece create = some (access, d')) :
    SameFiles d d' := by
  unfold file at h
  split at h
  · cases h
    exact ⟨rfl, rfl, fun _ _ h => h⟩
  · split at h
    · cases h
    · cases h
      obtain ⟨hsame, -⟩ := sameFiles_closeOldest d
      refine ⟨hsame.chunkLength, hsame.state, fun i file hfile => ?_⟩
      show (if d.contents.contains piece then d.contents
        else d.contents.insert piece []).get? i = some file
      split
      · exact hfile
      · next hnew =>
        rw [OrderedMap.get?_insert, if_neg]
        · exact hfile
        · rintro rfl
          exact hnew (OrderedMap.contains_iff.mpr ⟨file, hfile⟩)

/-- A file that is there can be opened. -/
theorem file_of_contains (piece : Nat) (create : Bool)
    (h : create = true ∨ d.contents.contains piece = true) :
    ∃ access d', d.file piece create = some (access, d') := by
  unfold file
  split
  · exact ⟨_, _, rfl⟩
  · rw [if_neg (by rintro ⟨rfl, hc⟩; simp [hc] at h)]
    exact ⟨_, _, rfl⟩

/-- A write gets a handle that was opened for reading only if that one is cached. -/
theorem readOnly_iff_cached (h : d.file piece true = some (access, d')) :
    access = .readOnly ↔ d.files.get? piece = some .readOnly := by
  unfold file at h
  split at h
  · next hcached =>
    cases h
    rw [hcached, Option.some_inj]
  · next hnew =>
    rw [if_neg (by simp)] at h
    cases h
    simp [hnew]

/-! ### Reads and evictions -/

theorem Represents.get (H : Represents width d s) (piece chunk : Nat) :
    (d.get piece chunk).1 = s.get piece chunk ∧ Represents width (d.get piece chunk).2 s := by
  unfold DiskBackend.get Shelf.get
  rw [H.get?_index]
  cases hslot : s.get? piece with
  | none => exact ⟨rfl, H⟩
  | some slot =>
    simp only [Option.map_some, Option.bind_some, entryOf, OrderedMap.get?_mapVal]
    cases hdata : slot.chunks.get? chunk with
    | none => exact ⟨rfl, H⟩
    | some data =>
      obtain ⟨file, hfile, hhas⟩ := H.files piece slot hslot
      obtain ⟨access, d', hopen⟩ := file_of_contains piece false
        (.inr (OrderedMap.contains_iff.mpr ⟨file, hfile⟩))
      have hsame := sameFiles_file hopen
      have H' := H.sameFiles hsame
      simp only [Option.map_some, hopen]
      refine ⟨?_, H'⟩
      rw [fileOf, hsame.contents piece file hfile, Option.getD_some, H'.chunkLength,
        hhas chunk data hdata, Option.map_some]

theorem Represents.remove (H : Represents width d s) (h : s.get? piece = none) :
    Represents width (d.remove piece) s where
  chunkLength := H.chunkLength
  index := H.index
  count := H.count
  files := by
    intro i slot hslot
    obtain ⟨file, hfile, hhas⟩ := H.files i slot hslot
    refine ⟨file, ?_, hhas⟩
    show (d.contents.erase piece).get? i = some file
    rw [OrderedMap.get?_erase_of_ne, hfile]
    rintro rfl
    rw [h] at hslot
    cases hslot

theorem Represents.erase (H : Represents width d s) (hslot : s.get? piece = some slot)
    (firstSeen : OrderedMap Nat Nat) :
    Represents width
      { d with state := ⟨d.state.index.erase piece,
          d.state.curBytes - Shelf.slotSize piece slot, firstSeen⟩ } (s.erase piece) := by
  refine ⟨H.chunkLength, ?_, ?_, fun i slot' hslot' => ?_⟩
  · show d.state.index.erase piece = _
    rw [H.index, OrderedMap.erase_mapVal]
  · have hweight := s.weight_erase (f := Shelf.slotSize) piece
    have hcount := H.count
    rw [hslot, Option.elim_some] at hweight
    show d.state.curBytes - Shelf.slotSize piece slot = Shelf.total (s.erase piece)
    unfold Shelf.total at hcount ⊢
    omega
  · rw [OrderedMap.get?_erase] at hslot'
    split at hslot'
    · cases hslot'
    · exact H.files i slot' hslot'

theorem Represents.first? (H : Represents width d s) :
    d.state.index.first? = s.first?.map fun e => (e.1, entryOf e.2) := by
  rw [H.index, OrderedMap.first?_mapVal]

theorem Represents.evictLowest (H : Represents width d s) (hfirst : s.first? = some (piece, slot)) :
    ∃ d', d.evictLowest = some (Shelf.slotSize piece slot, d') ∧
      Represents width d' (s.erase piece) := by
  unfold DiskBackend.evictLowest
  rw [H.first?, hfirst]
  simp only [Option.map_some, size_entryOf piece]
  exact ⟨_, rfl, (H.erase (OrderedMap.get?_of_first? hfirst) _).remove
    (OrderedMap.get?_erase_self ..)⟩

theorem faithful (width : Nat) : Faithful (Represents width) where
  get H piece chunk := by
    obtain ⟨heq, H'⟩ := H.get piece chunk
    exact ⟨_, Prod.ext (congrArg (Option.map (·.1)) heq) rfl, H'⟩
  servingChunk H piece chunk := by
    obtain ⟨heq, H'⟩ := H.get piece chunk
    exact ⟨_, Prod.ext heq rfl, H'⟩
  hasPiece := by
    intro d s H piece n
    show d.hasPiece piece n = s.hasPiece piece n
    rw [DiskBackend.hasPiece, Shelf.hasPiece, H.get?_index]
    cases s.get? piece with
    | none => rfl
    | some slot => simp [entryOf]
  havePieces := by
    intro d s H n
    show d.havePieces n = s.havePieces n
    rw [DiskBackend.havePieces, OrderedMap.keys_filter_entries d.state.index
      fun entry => decide (entry.present.size % 2 ^ 16 = n), H.index, OrderedMap.keys_mapVal]
    refine List.filter_congr fun piece _ => ?_
    rw [OrderedMap.get?_mapVal, Shelf.hasPiece]
    cases s.get? piece with
    | none => rfl
    | some slot => simp [entryOf]
  window := by
    intro d s H
    show d.window = s.window
    rw [DiskBackend.window, Shelf.window, H.index, OrderedMap.keys_mapVal]
    cases s.keys.head? <;> cases s.keys.getLast? <;> rfl
  evict_empty := by
    intro d s H hfirst
    show d.evictLowest = none
    rw [DiskBackend.evictLowest, H.first?, hfirst]
    rfl
  evict_first H hfirst := H.evictLowest hfirst
  pieceCount := by
    intro d s H
    show d.state.index.size = s.size
    rw [H.index, OrderedMap.size_mapVal]

theorem Represents.removeAll (H : Represents width d s) {evicted : List Nat}
    (h : ∀ piece ∈ evicted, s.get? piece = none) : Represents width (d.removeAll evicted) s := by
  induction evicted generalizing d with
  | nil => exact H
  | cons piece evicted ih =>
    obtain ⟨hpiece, hrest⟩ := List.forall_mem_cons.mp h
    exact ih (H.remove hpiece) hrest

/-- Whatever the condition, the eviction loop of the actor only takes pieces off the shelf. -/
theorem Represents.evictAny (H : Represents width d s) (cond : DiskState → Nat → Bool)
    (fuel : Nat) :
    ∃ s', Represents width { d with state := (d.state.evictWhile cond fuel).2 } s' ∧
      (∀ piece ∈ (d.state.evictWhile cond fuel).1, s'.get? piece = none) ∧
      ∀ piece slot, s'.get? piece = some slot → s.get? piece = some slot := by
  induction fuel generalizing d s with
  | zero => exact ⟨s, H, fun _ h => absurd h List.not_mem_nil, fun _ _ h => h⟩
  | succ fuel ih =>
    rw [DiskState.evictWhile, H.first?]
    cases hfirst : s.first? with
    | none => exact ⟨s, H, fun _ h => absurd h List.not_mem_nil, fun _ _ h => h⟩
    | some e =>
      obtain ⟨lowest, slot⟩ := e
      simp only [Option.map_some, size_entryOf lowest]
      split
      · obtain ⟨s', H', hgone, hkept⟩ :=
          ih (H.erase (OrderedMap.get?_of_first? hfirst) (d.state.firstSeen.erase lowest))
        refine ⟨s', H', List.forall_mem_cons.mpr ⟨?_, hgone⟩, fun piece slot' hslot' => ?_⟩
        · rw [Option.eq_none_iff_forall_ne_some]
          intro slot' hslot'
          have hstill := hkept lowest slot' hslot'
          rw [OrderedMap.get?_erase_self] at hstill
          cases hstill
        · exact (OrderedMap.get?_filter_eq_some.mp (hkept piece slot' hslot')).1
      · exact ⟨s, H, fun _ h => absurd h List.not_mem_nil, fun _ _ h => h⟩

/-- The budget loop of the actor trims the shelf; the files of what it evicts are no longer of
use. -/
theorem Represents.evictWhile (H : Represents width d s) (max : Nat) {fuel : Nat}
    (hfuel : s.size ≤ fuel) :
    Represents width { d with state := (d.state.evictWhile (overBudget max) fuel).2 }
        (s.trimTo max) ∧
      ∀ piece ∈ (d.state.evictWhile (overBudget max) fuel).1, (s.trimTo max).get? piece = none := by
  induction fuel generalizing d s with
  | zero =>
    have hnil : s = ∅ := OrderedMap.ext (List.length_eq_zero_iff.mp (Nat.le_zero.mp hfuel))
    subst hnil
    exact ⟨H, fun _ h => absurd h List.not_mem_nil⟩
  | succ fuel ih =>
    have hcount := H.count
    unfold Shelf.total at hcount
    rw [DiskState.evictWhile, H.first?]
    cases hfirst : s.first? with
    | none =>
      obtain rfl := OrderedMap.first?_eq_none.mp hfirst
      exact ⟨H, fun _ h => absurd h List.not_mem_nil⟩
    | some e =>
      obtain ⟨lowest, slot⟩ := e
      have hget := OrderedMap.get?_of_first? hfirst
      simp only [Option.map_some, size_entryOf lowest]
      by_cases hover : max < d.state.curBytes
      · rw [if_pos (by simpa [overBudget] using hover), Shelf.trimTo,
          OrderedMap.trim_of_lt hfirst (by omega)]
        have hsize := OrderedMap.size_erase_lt hget
        obtain ⟨H', hgone⟩ := ih (H.erase hget (d.state.firstSeen.erase lowest)) (by omega)
        refine ⟨H', List.forall_mem_cons.mpr ⟨?_, hgone⟩⟩
        rw [Option.eq_none_iff_forall_ne_some]
        intro slot' hslot'
        have hkept := OrderedMap.get?_of_trim hslot'
        rw [OrderedMap.get?_erase_self] at hkept
        cases hkept
      · rw [if_neg (by simpa [overBudget] using hover), Shelf.trimTo,
          OrderedMap.trim_of_le (by omega)]
        exact ⟨H, fun _ h => absurd h List.not_mem_nil⟩

/-! ### Writes -/

/-- A chunk write meets the bytes of another chunk of the piece. -/
def collides (d : DiskBackend) (piece chunk len : Nat) : Bool :=
  (d.state.index.get? piece).any fun entry => entry.present.entries.any fun (other, len') =>
    decide (other ≠ chunk ∧ 0 < len ∧ 0 < len' ∧
      chunk * d.chunkLength < other * d.chunkLength + len' ∧
      other * d.chunkLength < chunk * d.chunkLength + len)

/-- A chunk write that leaves the other chunks of the piece alone and reaches the file. -/
def Clean (d : DiskBackend) (piece chunk : Nat) (data : Bytes) : Prop :=
  data.length < 2 ^ 32 ∧ (data = [] ∨ d.files.get? piece ≠ some .readOnly) ∧
    d.collides piece chunk data.length = false

instance (d : DiskBackend) (piece chunk : Nat) (data : Bytes) :
    Decidable (d.Clean piece chunk data) :=
  inferInstanceAs (Decidable (_ ∧ _ ∧ _))

/-- A clean write goes through the handle at hand. -/
theorem Clean.not_lost {piece chunk : Nat} (h : d.Clean piece chunk data)
    (hopen : d.file piece true = some (access, d')) : ¬(data ≠ [] ∧ access = .readOnly) := by
  rintro ⟨hdata, haccess⟩
  exact h.2.1.elim hdata fun hwritable => hwritable ((readOnly_iff_cached hopen).mp haccess)

theorem apart_of_collides {piece chunk len : Nat} (h : d.collides piece chunk len = false)
    {entry : PieceIndex} (hentry : d.state.index.get? piece = some entry) {other len' : Nat}
    (hother : entry.present.get? other = some len') (hne : other ≠ chunk) :
    len = 0 ∨ len' = 0 ∨ chunk * d.chunkLength + len ≤ other * d.chunkLength ∨
      other * d.chunkLength + len' ≤ chunk * d.chunkLength := by
  rw [collides, hentry, Option.any_some, List.any_eq_false] at h
  have hfree := h _ (OrderedMap.get?_eq_some.mp hother)
  simp only [decide_eq_true_iff] at hfree
  omega

theorem Represents.disjoint (H : Represents width d s) {piece chunk len : Nat}
    (h : d.collides piece chunk len = false) (hslot : s.get? piece = some slot) {other : Nat}
    (hother : slot.chunks.get? other = some data) (hne : other ≠ chunk) :
    len = 0 ∨ data.length = 0 ∨ chunk * width + len ≤ other * width ∨
      other * width + data.length ≤ chunk * width := by
  have hentry : d.state.index.get? piece = some (entryOf slot) := by rw [H.get?_index, hslot]; rfl
  have hlen : (entryOf slot).present.get? other = some data.length := by
    rw [entryOf, OrderedMap.get?_mapVal, hother]
    rfl
  exact H.chunkLength ▸ apart_of_collides h hentry hlen hne

theorem Represents.fileHas_write (H : Represents width d s) {piece chunk : Nat}
    (h : d.collides piece chunk data.length = false) (header : Header) :
    FileHas width (writeAt (d.fileOf piece) (chunk * width) data)
      (s.slotWith piece chunk header data).chunks := by
  intro other data' hother
  unfold Shelf.slotWith at hother
  cases hslot : s.get? piece with
  | none =>
    simp only [hslot, OrderedMap.get?_insert] at hother
    split at hother
    · next heq =>
      cases hother
      rw [heq]
      exact readAt_writeAt_self ..
    · cases hother
  | some slot =>
    simp only [hslot, OrderedMap.get?_insert] at hother
    split at hother
    · next heq =>
      cases hother
      rw [heq]
      exact readAt_writeAt_self ..
    · next hne =>
      obtain ⟨file, hfile, hhas⟩ := H.files piece slot hslot
      have hdisj := H.disjoint h hslot hother hne
      rw [fileOf, hfile, Option.getD_some]
      refine readAt_writeAt_disjoint (hhas other data' hother) ?_
      rw [← List.length_eq_zero_iff]
      exact hdisj

theorem entryOf_slotWith (s : Shelf) (piece chunk : Nat) (header : Header) (data : Bytes) :
    entryOf (s.slotWith piece chunk header data) =
      let entry := ((s.get? piece).map entryOf).getD ⟨header, ∅⟩
      ⟨upgradeHeader entry.header header, entry.present.insert chunk data.length⟩ := by
  unfold Shelf.slotWith
  cases s.get? piece with
  | none =>
    have hsame : upgradeHeader header header = header := by
      unfold upgradeHeader
      split <;> rfl
    simp only [Option.map_none, Option.getD_none, hsame]
    exact congrArg _ (OrderedMap.insert_mapVal ..).symm
  | some slot => exact congrArg _ (OrderedMap.insert_mapVal ..).symm

/-- A piece with new contents, its file and its index entry. -/
theorem Represents.insert (H : Represents width d s) {piece cur : Nat} {file : Bytes}
    (hfile : FileHas width file slot.chunks)
    (hcur : cur + (s.get? piece).elim 0 (Shelf.slotSize piece) =
      d.state.curBytes + Shelf.slotSize piece slot) (firstSeen : OrderedMap Nat Nat)
    (files : OrderedMap Nat Access) (lru : List Nat) :
    Represents width
      ⟨d.chunkLength, ⟨d.state.index.insert piece (entryOf slot), cur, firstSeen⟩, files, lru,
        d.contents.insert piece file⟩ (s.insert piece slot) := by
  refine ⟨H.chunkLength, ?_, ?_, fun i slot' hslot' => ?_⟩
  · show d.state.index.insert piece (entryOf slot) = _
    rw [H.index, OrderedMap.insert_mapVal (fun _ => entryOf)]
  · have hweight := s.weight_insert (f := Shelf.slotSize) piece slot
    have hcount := H.count
    show cur = Shelf.total (s.insert piece slot)
    unfold Shelf.total at hcount ⊢
    omega
  · rw [OrderedMap.get?_insert] at hslot'
    show ∃ f, (d.contents.insert piece file).get? i = some f ∧ _
    rw [OrderedMap.get?_insert]
    split at hslot'
    · next hi =>
      cases hslot'
      exact ⟨file, if_pos hi, hfile⟩
    · next hi =>
      rw [if_neg hi]
      exact H.files i slot' hslot'

/-- The length that is held of a chunk. -/
def heldLength (s : Shelf) (piece chunk : Nat) : Nat :=
  ((s.get? piece).bind fun slot => slot.chunks.get? chunk).elim 0 List.length

/-- The bytes of a piece with one more chunk. -/
theorem slotSize_slotWith (s : Shelf) (piece chunk : Nat) (header : Header) (data : Bytes) :
    Shelf.slotSize piece (s.slotWith piece chunk header data) + heldLength s piece chunk =
      (s.get? piece).elim 0 (Shelf.slotSize piece) + data.length := by
  unfold Shelf.slotWith Shelf.slotSize MemoryBackend.size heldLength
  cases s.get? piece with
  | none => exact (∅ : OrderedMap Nat Bytes).weight_insert chunk data
  | some slot => exact slot.chunks.weight_insert chunk data

theorem heldLength_le (s : Shelf) (piece chunk : Nat) :
    heldLength s piece chunk ≤ (s.get? piece).elim 0 (Shelf.slotSize piece) := by
  unfold heldLength Shelf.slotSize MemoryBackend.size
  cases s.get? piece with
  | none => exact Nat.le_refl _
  | some slot =>
    have hweight := slot.chunks.weight_erase (f := fun _ => List.length) chunk
    exact Nat.le_of_add_left_le (Nat.le_of_eq hweight)

theorem Represents.indexChunk (H : Represents width d s) (piece chunk : Nat) (header : Header)
    (hlen : data.length < 2 ^ 32) :
    DiskBackend.indexChunk d.state piece chunk header data.length =
      ⟨d.state.index.insert piece (entryOf (s.slotWith piece chunk header data)),
        d.state.curBytes - heldLength s piece chunk + data.length, d.state.firstSeen⟩ := by
  have hold : ((((s.get? piece).map entryOf).getD ⟨header, ∅⟩).present.get? chunk).getD 0 =
      heldLength s piece chunk := by
    unfold heldLength
    cases s.get? piece with
    | none => rfl
    | some slot =>
      simp only [Option.map_some, Option.getD_some, entryOf, OrderedMap.get?_mapVal,
        Option.bind_some]
      cases slot.chunks.get? chunk <;> rfl
  simp only [DiskBackend.indexChunk, H.get?_index, hold, entryOf_slotWith, Nat.mod_eq_of_lt hlen]

theorem Represents.size_le (H : Represents width d s) (piece : Nat) :
    (s.get? piece).elim 0 (Shelf.slotSize piece) ≤ d.state.curBytes := by
  have hweight := s.weight_erase (f := Shelf.slotSize) piece
  have hcount := H.count
  unfold Shelf.total at hcount
  omega

theorem Represents.contains (H : Represents width d s) (piece : Nat) :
    d.state.index.contains piece = OrderedMap.contains s piece := by
  rw [OrderedMap.contains, H.get?_index, Option.isSome_map]
  rfl

theorem Represents.size_index (H : Represents width d s) : s.size ≤ d.state.index.size := by
  rw [H.index, OrderedMap.size_mapVal]

/-- Evictions after a write: the loop, and the files of what it took. -/
theorem Represents.settle (H : Represents width d s) (max : Nat) :
    Represents width
      (DiskBackend.removeAll
        { d with state := (d.state.evictWhile (overBudget max) d.state.index.size).2 }
        (d.state.evictWhile (overBudget max) d.state.index.size).1) (s.trimTo max) := by
  obtain ⟨H', hgone⟩ := H.evictWhile max H.size_index
  exact H'.removeAll hgone

theorem Represents.put (H : Represents width d s) {piece chunk : Nat} (h : d.Clean piece chunk data)
    (header : Header) (max : Nat) :
    Represents width (d.put piece chunk header data max).2
      ((s.putChunk piece chunk header data).trimTo max) := by
  obtain ⟨access, d', hopen⟩ := file_of_contains (d := d) piece true (.inl rfl)
  have haccess := h.not_lost hopen
  obtain ⟨hlen, -, hfree⟩ := h
  have hsame := sameFiles_file hopen
  have H' := H.sameFiles hsame
  have hfree' : d'.collides piece chunk data.length = false := by
    rwa [collides, hsame.state, hsame.chunkLength]
  have hsize := slotSize_slotWith s piece chunk header data
  have hheld := heldLength_le s piece chunk
  have hle := H'.size_le piece
  have hcur : d'.state.curBytes - heldLength s piece chunk + data.length +
      (s.get? piece).elim 0 (Shelf.slotSize piece) =
        d'.state.curBytes + Shelf.slotSize piece (s.slotWith piece chunk header data) := by omega
  have hwrite := H'.insert (H'.fileHas_write hfree' header) hcur d'.state.firstSeen d'.files d'.lru
  unfold DiskBackend.put
  simp only [hopen, if_neg haccess, H'.indexChunk piece chunk header hlen, H.chunkLength]
  exact hwrite.settle max

theorem fileHas_wire (hmax : wire.length / width ≤ 65535) :
    FileHas width wire (MemoryStore.wireChunks width wire) := by
  intro chunk data hdata
  rw [MemoryStore.get?_wireChunks hmax] at hdata
  have hlen := length_of_mem_blocks (List.mem_of_getElem? hdata)
  obtain ⟨hchunk, rfl⟩ := List.getElem?_eq_some_iff.mp hdata
  have hle := le_of_lt_blocks (show chunk < wire.length / width by rwa [length_blocks] at hchunk)
  rw [getElem_blocks] at hlen ⊢
  rw [readAt, hlen]
  split
  · next hzero => simp [hzero]
  · rfl

theorem entryOf_wire (hmax : wire.length / width ≤ 65535) (hwidth : width < 2 ^ 32)
    (header : Header) :
    entryOf ⟨header, MemoryStore.wireChunks width wire⟩ = ⟨header, OrderedMap.ofEntries
      ((List.range (wire.length / width)).map fun chunk => (chunk, width % 2 ^ 32))⟩ := by
  refine congrArg _ (OrderedMap.ext ?_)
  rw [OrderedMap.entries_ofEntries
    (List.pairwise_map.mpr (List.pairwise_lt_range.imp fun hlt => hlt))]
  show (MemoryStore.wireChunks width wire).entries.map _ = _
  rw [MemoryStore.entries_wireChunks hmax]
  refine List.ext_getElem (by simp) fun i hi hi' => ?_
  have hchunk : i < wire.length / width := by simpa using hi
  have hlen := length_of_mem_blocks (List.getElem_mem (l := blocks width wire) (n := i) (by simpa))
  simp only [List.getElem_map, List.getElem_mapIdx, List.getElem_range, hlen]
  rw [Nat.mod_eq_of_lt (by omega), Nat.mod_eq_of_lt hwidth]

/-- A whole piece takes the place of its file and its index entry. -/
theorem Represents.publish (H : Represents width d s) (hdvd : width ∣ wire.length)
    (hmax : wire.length / width ≤ 65535) (hwidth : width < 2 ^ 32) (piece : Nat) (header : Header)
    (firstSeen : OrderedMap Nat Nat) (files : OrderedMap Nat Access) (lru : List Nat) :
    Represents width
      ⟨d.chunkLength, ⟨d.state.index.insert piece ⟨header, OrderedMap.ofEntries
          ((List.range (wire.length / width)).map fun chunk => (chunk, d.chunkLength % 2 ^ 32))⟩,
        d.state.curBytes - ((d.state.index.get? piece).map PieceIndex.size).getD 0 + wire.length,
        firstSeen⟩, files, lru, d.contents.insert piece wire⟩
      (s.putPiece width piece header wire) := by
  have hremoved : ((d.state.index.get? piece).map PieceIndex.size).getD 0 =
      (s.get? piece).elim 0 (Shelf.slotSize piece) := by
    rw [H.get?_index]
    cases s.get? piece with
    | none => rfl
    | some slot => exact size_entryOf piece slot
  have hsize : Shelf.slotSize piece ⟨header, MemoryStore.wireChunks width wire⟩ = wire.length :=
    MemoryStore.size_wireChunks hdvd hmax
  have hle := H.size_le piece
  have hfile : FileHas width wire (Slot.mk header (MemoryStore.wireChunks width wire)).chunks :=
    fileHas_wire hmax
  have hcur : d.state.curBytes - (s.get? piece).elim 0 (Shelf.slotSize piece) + wire.length +
      (s.get? piece).elim 0 (Shelf.slotSize piece) = d.state.curBytes +
        Shelf.slotSize piece ⟨header, MemoryStore.wireChunks width wire⟩ := by omega
  have hwrite := H.insert hfile hcur firstSeen files lru
  rw [entryOf_wire hmax hwidth header, ← H.chunkLength] at hwrite
  rw [hremoved, ← H.chunkLength]
  exact hwrite

theorem Represents.putComplete (H : Represents width d s) (hdvd : width ∣ wire.length)
    (hmax : wire.length / width ≤ 65535) (hwidth : width < 2 ^ 32) (now piece max : Nat)
    (header : Header) :
    (d.putComplete now piece header wire max (wire.length / width) none).1 =
        (s.putComplete max width (wire.length / width) piece header wire).1 ∧
      Represents width (d.putComplete now piece header wire max (wire.length / width) none).2
        (s.putComplete max width (wire.length / width) piece header wire).2 := by
  have hfull : (d.state.index.get? piece).any
        (fun entry => decide (entry.present.size = wire.length / width)) =
      (s.get? piece).any fun slot => decide (slot.chunks.size = wire.length / width) := by
    rw [H.get?_index]
    cases s.get? piece with
    | none => rfl
    | some slot => simp [entryOf]
  have hcond : (fun (s : DiskState) lowest =>
      overBudget max s lowest || expired none now s lowest) = overBudget max := by
    funext s lowest
    exact Bool.or_false _
  unfold DiskBackend.putComplete Shelf.putComplete
  rw [hfull]
  split
  · exact ⟨rfl, H⟩
  have hwrite := H.publish hdvd hmax hwidth piece header
    (if d.state.firstSeen.contains piece then d.state.firstSeen
      else d.state.firstSeen.insert piece now) (d.files.erase piece) (d.lru.filter (· ≠ piece))
  simp only [hcond]
  refine ⟨?_, hwrite.settle max⟩
  have hkept := (hwrite.evictWhile max hwrite.size_index).1.contains piece
  simp only [hkept]

end Outpace.Swarm.DiskBackend

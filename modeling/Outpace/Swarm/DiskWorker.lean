import Outpace.Data.Run
import Outpace.Swarm.DiskShelf

/-!
# The disk worker

The actor of `ace-swarm/src/store/disk.rs` over whole runs of its commands. Its cache of handles
never holds more than `maxOpenPieces`, and they are those of its recency list (`Handles`). A chunk
that was written stays readable until it is overwritten, replaced or evicted (`Represents`), if no
write goes through a handle that a read has opened: such a handle stays in the cache, and a write
through it is lost.
-/

namespace Outpace.Swarm.DiskBackend
open Wire (Bytes Header zeroHeader)

/-- A whole piece as `begin_complete_admission` lets it through. -/
structure WirePiece (width : Nat) where
  bytes : Bytes
  pos : 0 < width
  dvd : width ∣ bytes.length
  chunks_le : bytes.length / width ≤ 65535
  fits : width < 2 ^ 32

/-- The commands of the actor; the variants of a command differ in how they reply. -/
inductive DiskCommand (width : Nat) where
  | put (piece chunk : Nat) (header : Header) (data : Bytes) (max : Nat)
  | get (piece chunk : Nat)
  | putComplete (now piece : Nat) (header : Header) (wire : WirePiece width) (max : Nat)
      (retention : Option Nat)
  | evict

def exec {width : Nat} (d : DiskBackend) : DiskCommand width → DiskBackend
  | .put piece chunk header data max => (d.put piece chunk header data max).2
  | .get piece chunk => (d.get piece chunk).2
  | .putComplete now piece header wire max retention =>
    (d.putComplete now piece header wire.bytes max (wire.bytes.length / width) retention).2
  | .evict => (d.evictLowest.map (·.2)).getD d

variable {d d' : DiskBackend} {width : Nat} {s : Shelf}

/-! ### Handles -/

/-- The open handles are those of the recency list, and there are not too many. -/
structure Handles (d : DiskBackend) : Prop where
  size : d.files.size ≤ maxOpenPieces
  nodup : d.lru.Nodup
  same : ∀ piece, piece ∈ d.lru ↔ d.files.contains piece = true

theorem handles_new (width : Nat) : Handles (new width) :=
  ⟨Nat.zero_le _, List.nodup_nil, fun _ => by simp [new, OrderedMap.contains]⟩

theorem Handles.of_eq (H : Handles d) (hfiles : d'.files = d.files) (hlru : d'.lru = d.lru) :
    Handles d' :=
  ⟨hfiles ▸ H.size, hlru ▸ H.nodup, fun piece => by rw [hfiles, hlru]; exact H.same piece⟩

theorem mem_touch {lru : List Nat} {piece other : Nat} :
    other ∈ touch lru piece ↔ other = piece ∨ other ∈ lru := by
  unfold touch
  rw [List.mem_append, List.mem_singleton]
  by_cases hother : other = piece
  · simp [hother]
  · simp [hother, List.mem_erase_of_ne hother]

theorem nodup_touch {lru : List Nat} (h : lru.Nodup) (piece : Nat) : (touch lru piece).Nodup := by
  refine List.nodup_append.mpr ⟨h.erase piece, List.nodup_singleton piece, fun a ha b hb heq => ?_⟩
  rw [List.mem_singleton.mp hb] at heq
  exact (h.mem_erase_iff.mp ha).1 heq

/-- A full cache loses its oldest handle. -/
theorem Handles.closeOldest (H : Handles d) :
    Handles d.closeOldest ∧ d.closeOldest.files.size < maxOpenPieces ∧
      ∀ piece, d.files.get? piece = none → d.closeOldest.files.get? piece = none := by
  have hsize := H.size
  unfold DiskBackend.closeOldest
  split
  · next hfull =>
    cases hlru : d.lru with
    | nil =>
      -- the cache is full, so the list is not empty
      have hnone : d.files = ∅ := by
        refine OrderedMap.ext_get? fun piece => OrderedMap.contains_eq_false.mp ?_
        rw [Bool.eq_false_iff, ne_eq, ← H.same, hlru]
        exact List.not_mem_nil
      rw [hnone] at hfull
      cases hfull
    | cons oldest lru =>
      have hnodup := List.nodup_cons.mp (hlru ▸ H.nodup)
      have hheld : d.files.contains oldest = true := (H.same oldest).mp (by rw [hlru]; simp)
      obtain ⟨access, haccess⟩ := OrderedMap.contains_iff.mp hheld
      have hless := OrderedMap.size_erase_lt haccess
      refine ⟨⟨by show (d.files.erase oldest).size ≤ _; omega, hnodup.2, fun piece => ?_⟩,
        by show (d.files.erase oldest).size < _; omega, fun piece hpiece => ?_⟩
      · show piece ∈ lru ↔ (d.files.erase oldest).contains piece = true
        rw [OrderedMap.contains_erase_iff, ← H.same, hlru, List.mem_cons]
        constructor
        · intro hmem
          exact ⟨fun heq => hnodup.1 (heq ▸ hmem), .inr hmem⟩
        · rintro ⟨hne, hmem⟩
          exact hmem.resolve_left hne
      · show (d.files.erase oldest).get? piece = none
        rw [OrderedMap.get?_erase]
        split
        · rfl
        · exact hpiece
  · exact ⟨H, by omega, fun _ h => h⟩

theorem Handles.file (H : Handles d) {piece : Nat} {create : Bool} {access : Access}
    (h : d.file piece create = some (access, d')) : Handles d' := by
  unfold DiskBackend.file at h
  split at h
  · next hcached =>
    cases h
    refine ⟨H.size, nodup_touch H.nodup piece, fun other => ?_⟩
    rw [mem_touch, H.same]
    refine or_iff_right_of_imp fun heq => ?_
    rw [heq]
    exact OrderedMap.contains_iff.mpr ⟨_, hcached⟩
  · next hnew =>
    split at h
    · cases h
    · cases h
      obtain ⟨H', hroom, hstill⟩ := H.closeOldest
      refine ⟨?_, nodup_touch H'.nodup piece, fun other => ?_⟩
      · have hsize := OrderedMap.size_insert d.closeOldest.files piece
          (if create then Access.readWrite else .readOnly)
        show (OrderedMap.insert ..).size ≤ _
        omega
      · rw [mem_touch, H'.same, OrderedMap.contains_insert_iff]

theorem Handles.remove (H : Handles d) (piece : Nat) : Handles (d.remove piece) := by
  refine ⟨Nat.le_trans (OrderedMap.size_filter_le ..) H.size, H.nodup.erase piece, fun other => ?_⟩
  show other ∈ d.lru.erase piece ↔ (d.files.erase piece).contains other = true
  rw [H.nodup.mem_erase_iff, OrderedMap.contains_erase_iff, H.same]

theorem Handles.removeAll (H : Handles d) (evicted : List Nat) : Handles (d.removeAll evicted) := by
  induction evicted generalizing d with
  | nil => exact H
  | cons piece evicted ih => exact ih (H.remove piece)

theorem Handles.put (H : Handles d) (piece chunk : Nat) (header : Header) (data : Bytes)
    (max : Nat) : Handles (d.put piece chunk header data max).2 := by
  simp only [DiskBackend.put]
  cases hopen : d.file piece true with
  | none => exact H
  | some out =>
    obtain ⟨access, d'⟩ := out
    have H' := H.file hopen
    simp only
    split
    · exact H'
    · refine Handles.removeAll ?_ _
      exact H'.of_eq rfl rfl

theorem Handles.get (H : Handles d) (piece chunk : Nat) : Handles (d.get piece chunk).2 := by
  unfold DiskBackend.get
  split
  · exact H
  split
  · exact H
  split
  · exact H
  · next hopen => exact H.file hopen

theorem Handles.putComplete (H : Handles d) (now piece : Nat) (header : Header) (wire : Bytes)
    (max chunks : Nat) (retention : Option Nat) :
    Handles (d.putComplete now piece header wire max chunks retention).2 := by
  unfold DiskBackend.putComplete
  split
  · exact H
  · refine Handles.removeAll ?_ _
    refine ⟨Nat.le_trans (OrderedMap.size_filter_le ..) H.size, H.nodup.filter _, fun other => ?_⟩
    show other ∈ d.lru.filter _ ↔ (d.files.erase piece).contains other = true
    rw [List.mem_filter, decide_eq_true_iff, OrderedMap.contains_erase_iff, H.same, and_comm]

theorem Handles.exec (H : Handles d) (command : DiskCommand width) : Handles (d.exec command) := by
  cases command with
  | put piece chunk header data max => exact H.put piece chunk header data max
  | get piece chunk => exact H.get piece chunk
  | putComplete now piece header wire max retention => exact H.putComplete ..
  | evict =>
    simp only [DiskBackend.exec, evictLowest]
    split
    · exact H
    · refine Handles.remove ?_ _
      exact H.of_eq rfl rfl

/-! ### What the chunks are -/

/-- A put, if the command is one, is clean. -/
def CleanPut (d : DiskBackend) : DiskCommand width → Prop
  | .put piece chunk _ data _ => d.Clean piece chunk data
  | _ => True

instance (d : DiskBackend) (command : DiskCommand width) : Decidable (d.CleanPut command) :=
  match command with
  | .put piece chunk _ data _ => inferInstanceAs (Decidable (d.Clean piece chunk data))
  | .get .. | .putComplete .. | .evict => inferInstanceAs (Decidable True)

/-- The command writes a chunk anew, by itself or with its piece. -/
def Overwrites (d : DiskBackend) (piece chunk : Nat) : DiskCommand width → Prop
  | .put piece' chunk' .. => piece' = piece ∧ chunk' = chunk
  | .putComplete now piece' header wire max retention =>
    piece' = piece ∧ (d.putComplete now piece' header wire.bytes max (wire.bytes.length / width)
      retention).1 ≠ .alreadyPresent
  | _ => False

instance (d : DiskBackend) (piece chunk : Nat) (command : DiskCommand width) :
    Decidable (d.Overwrites piece chunk command) :=
  match command with
  | .put .. | .putComplete .. => inferInstanceAs (Decidable (_ ∧ _))
  | .get .. | .evict => inferInstanceAs (Decidable False)

/-- The command leaves a chunk where it is: it does not write it anew, and its piece is not
evicted. -/
def Keeps (piece chunk : Nat) (d : DiskBackend) (command : DiskCommand width) : Prop :=
  ¬d.Overwrites piece chunk command ∧ (d.exec command).state.index.contains piece = true

instance (piece chunk : Nat) (d : DiskBackend) (command : DiskCommand width) :
    Decidable (Keeps piece chunk d command) :=
  inferInstanceAs (Decidable (_ ∧ _))

/-- The bytes of a chunk on the shelf. -/
def chunkOf (s : Shelf) (piece chunk : Nat) : Option Bytes :=
  (s.get? piece).bind (·.chunks.get? chunk)

theorem map_get_fst (s : Shelf) (piece chunk : Nat) :
    (s.get piece chunk).map (·.1) = chunkOf s piece chunk := by
  unfold Shelf.get chunkOf
  cases s.get? piece with
  | none => rfl
  | some slot => cases h : slot.chunks.get? chunk <;> simp [h]

theorem chunkOf_putChunk (s : Shelf) (piece chunk : Nat) (header : Header) (data : Bytes)
    (piece' chunk' : Nat) :
    chunkOf (s.putChunk piece chunk header data) piece' chunk' =
      if piece' = piece ∧ chunk' = chunk then some data else chunkOf s piece' chunk' := by
  unfold chunkOf Shelf.putChunk Shelf.slotWith
  rw [OrderedMap.get?_insert]
  by_cases hpiece : piece' = piece
  · subst hpiece
    cases hslot : s.get? piece' with
    | none | some => by_cases hchunk : chunk' = chunk <;> simp [OrderedMap.get?_insert, hchunk]
  · simp [hpiece]

/-- A shelf with nothing but what another has. -/
def Within (s' s : Shelf) : Prop :=
  ∀ piece slot, s'.get? piece = some slot → s.get? piece = some slot

theorem Within.chunkOf {s' : Shelf} (h : Within s' s) {piece : Nat}
    (hpiece : OrderedMap.contains s' piece = true) (chunk : Nat) :
    DiskBackend.chunkOf s' piece chunk = DiskBackend.chunkOf s piece chunk := by
  obtain ⟨slot, hslot⟩ := OrderedMap.contains_iff.mp hpiece
  rw [DiskBackend.chunkOf, DiskBackend.chunkOf, hslot, h piece slot hslot]

/-- Evictions after a write, whatever the condition. -/
theorem Represents.settleAny (H : Represents width d s) (cond : DiskState → Nat → Bool) :
    ∃ s', Represents width
        (DiskBackend.removeAll
          { d with state := (d.state.evictWhile cond d.state.index.size).2 }
          (d.state.evictWhile cond d.state.index.size).1) s' ∧ Within s' s := by
  obtain ⟨s', H', hgone, hwithin⟩ := H.evictAny cond d.state.index.size
  exact ⟨s', H'.removeAll hgone, hwithin⟩

/-- After a command the state is a shelf again, on which every chunk that the command leaves is
what it was. -/
theorem Represents.exec (H : Represents width d s) {command : DiskCommand width}
    (h : d.CleanPut command) :
    ∃ s', Represents width (d.exec command) s' ∧ ∀ piece chunk, Keeps piece chunk d command →
      chunkOf s' piece chunk = chunkOf s piece chunk := by
  cases command with
  | put piece chunk header data max =>
    have H' := H.put h header max
    refine ⟨_, H', fun piece' chunk' ⟨hother, hkept⟩ => ?_⟩
    have hwithin : Within ((s.putChunk piece chunk header data).trimTo max)
        (s.putChunk piece chunk header data) := fun _ _ => OrderedMap.get?_of_trim
    rw [hwithin.chunkOf (H'.contains piece' ▸ hkept), chunkOf_putChunk, if_neg]
    rintro ⟨rfl, rfl⟩
    exact hother ⟨rfl, rfl⟩
  | get piece chunk => exact ⟨s, (H.get piece chunk).2, fun _ _ _ => rfl⟩
  | putComplete now piece header wire max retention =>
    by_cases hfull : (d.state.index.get? piece).any
        (fun entry => decide (entry.present.size = wire.bytes.length / width))
    · refine ⟨s, ?_, fun _ _ _ => rfl⟩
      simp only [DiskBackend.exec, DiskBackend.putComplete, hfull, if_true]
      exact H
    have hwrite := H.publish wire.dvd wire.chunks_le wire.fits piece header
      (if d.state.firstSeen.contains piece then d.state.firstSeen
        else d.state.firstSeen.insert piece now) (d.files.erase piece) (d.lru.filter (· ≠ piece))
    obtain ⟨s', hsettled, hwithin⟩ := hwrite.settleAny fun s lowest =>
      overBudget max s lowest || expired retention now s lowest
    have H' : Represents width (d.exec (.putComplete now piece header wire max retention)) s' := by
      simp only [DiskBackend.exec, DiskBackend.putComplete, hfull]
      exact hsettled
    refine ⟨s', H', fun piece' chunk' ⟨hother, hkept⟩ => ?_⟩
    have hne : piece' ≠ piece := by
      rintro rfl
      refine hother ⟨rfl, ?_⟩
      rw [DiskBackend.putComplete, if_neg hfull]
      dsimp only
      generalize DiskState.evictWhile _ _ _ = out
      split
      · exact CompletePut.noConfusion
      · exact CompletePut.noConfusion
    rw [hwithin.chunkOf (H'.contains piece' ▸ hkept), chunkOf, Shelf.putPiece,
      OrderedMap.get?_insert, if_neg hne]
    rfl
  | evict =>
    simp only [DiskBackend.exec, Keeps]
    cases hfirst : s.first? with
    | none =>
      refine ⟨s, ?_, fun _ _ _ => rfl⟩
      rw [DiskBackend.evictLowest, H.first?, hfirst]
      exact H
    | some e =>
      obtain ⟨d', heq, H'⟩ := H.evictLowest hfirst
      rw [heq]
      refine ⟨_, H', fun piece chunk hkept => ?_⟩
      have hwithin : Within (s.erase e.1) s :=
        fun _ _ hslot => (OrderedMap.get?_filter_eq_some.mp hslot).1
      exact hwithin.chunkOf (H'.contains piece ▸ hkept.2) chunk

theorem represents_new (width : Nat) : Represents width (new width) ∅ :=
  ⟨rfl, rfl, rfl, fun _ _ h => by cases h⟩

/-- A put succeeds unless it has to go through a handle that was opened for reading. -/
theorem added_put (d : DiskBackend) (piece chunk : Nat) (header : Header) (data : Bytes)
    (max : Nat) :
    (d.put piece chunk header data max).1.added = data.length ↔
      data = [] ∨ d.files.get? piece ≠ some .readOnly := by
  obtain ⟨access, d', hopen⟩ := file_of_contains (d := d) piece true (.inl rfl)
  have haccess := readOnly_iff_cached hopen
  simp only [DiskBackend.put, hopen]
  by_cases hdata : data = []
  · simp [hdata]
  · by_cases hro : access = .readOnly
    · have hpos : 0 ≠ data.length := fun h => hdata (List.length_eq_zero_iff.mp h.symm)
      simp [hdata, hro, haccess.mp hro, hpos]
    · simp [hdata, hro, haccess.not.mp hro]

/-- A chunk that a clean put has written is read back by every get until it is written anew or its
piece is evicted. A put succeeds unless it goes through a handle that was opened for reading. The
open handles are always those of the recency list, `maxOpenPieces` at most. -/
theorem written_chunks_stay_readable (width : Nat) (before : List (DiskCommand width))
    (piece chunk : Nat) (header : Header) (data : Bytes) (max : Nat) :
    let d := run exec (new width) before
    Handles d ∧
    ((d.put piece chunk header data max).1.added = data.length ↔
      data = [] ∨ d.files.get? piece ≠ some .readOnly) ∧
    ∀ after : List (DiskCommand width),
      Meets exec CleanPut (new width) (before ++ .put piece chunk header data max :: after) →
      (d.put piece chunk header data max).2.state.index.contains piece = true →
      Meets exec (Keeps piece chunk) (d.put piece chunk header data max).2 after →
      ((run exec (d.put piece chunk header data max).2 after).get piece chunk).1.map (·.1) =
        some data := by
  intro d
  refine ⟨run_invariant (fun _ command H => H.exec command) (handles_new width) before,
    added_put d piece chunk header data max, fun after hclean hheld hkept => ?_⟩
  obtain ⟨hbefore, hput, hafter⟩ := (meets_append.mp hclean).imp_right meets_cons.mp
  obtain ⟨s, H⟩ := run_induction (I := fun d => ∃ s, Represents width d s)
    (fun _ _ ⟨_, H⟩ hput => let ⟨s', H', _⟩ := H.exec hput; ⟨s', H'⟩)
    ⟨∅, represents_new width⟩ hbefore
  have H' := H.put hput header max
  have hchunk : chunkOf ((s.putChunk piece chunk header data).trimTo max) piece chunk =
      some data := by
    have hwithin : Within ((s.putChunk piece chunk header data).trimTo max)
        (s.putChunk piece chunk header data) := fun _ _ => OrderedMap.get?_of_trim
    rw [hwithin.chunkOf (H'.contains piece ▸ hheld), chunkOf_putChunk, if_pos ⟨rfl, rfl⟩]
  obtain ⟨s', H', hchunk⟩ := run_induction
    (I := fun d => ∃ s, Represents width d s ∧ chunkOf s piece chunk = some data)
    (fun _ _ ⟨_, H, hchunk⟩ ⟨hput, hkeeps⟩ =>
      let ⟨s', H', hsame⟩ := H.exec hput
      ⟨s', H', (hsame piece chunk hkeeps).trans hchunk⟩)
    ⟨_, H', hchunk⟩ (hafter.and hkept)
  rw [(H'.get piece chunk).1, map_get_fst, hchunk]

/-- Two chunks of four bytes. -/
def wholePiece : WirePiece 4 :=
  ⟨[1, 2, 3, 4, 5, 6, 7, 8], four_pos, by decide, by decide, by decide⟩

/-- A chunk is overwritten, and then its piece is read, a whole piece arrives and the lowest piece
is evicted. -/
theorem written_chunks_stay_readable_sample :
    ((run exec (((new 4).exec (.put 2 0 zeroHeader [5, 5] 100 : DiskCommand 4)).put 2 0 zeroHeader
        [1, 2, 3, 4] 100).2 [.get 2 0, .putComplete 0 1 zeroHeader wholePiece 100 none,
          .get 1 1, .evict]).get 2 0).1.map (·.1) = some [1, 2, 3, 4] :=
  (written_chunks_stay_readable 4 [.put 2 0 zeroHeader [5, 5] 100] 2 0 zeroHeader [1, 2, 3, 4]
    100).2.2 [.get 2 0, .putComplete 0 1 zeroHeader wholePiece 100 none, .get 1 1, .evict]
    (by decide +kernel) (by decide +kernel) (by decide +kernel)

/-- A read opens the file of a whole piece for reading. The handle stays in the cache, and the put
that gets it is lost. -/
theorem put_through_read_handle_lost :
    let d := run exec (new 4) [.putComplete 0 0 zeroHeader wholePiece 100 none, .get 0 0]
    let out := d.put 0 0 zeroHeader [9, 9, 9, 9] 100
    out.1.added = 0 ∧ (out.2.get 0 0).1.map (·.1) = some [1, 2, 3, 4] := by
  decide +kernel

end Outpace.Swarm.DiskBackend

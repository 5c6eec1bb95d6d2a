import Outpace.Swarm.DiskWorker

/-!
# Failing writes of the disk worker

The commands of the actor when the operating system fails them. A whole piece is written to a file
of its own and renamed, so a failure there leaves nothing behind. A chunk is written in place: what
was written before the failure stays in the file of the piece. `Readable` holds in every state, so
that a get has the bytes of the file where the index puts the chunk (`answer`), and a failed put
changes no answer if and only if it wrote nothing new there (`Harmless`).
-/

namespace Outpace.Swarm
open Wire (Bytes Header zeroHeader)
open DiskBackend (WirePiece DiskCommand)

/-- Where a chunk write fails. -/
inductive PutFault where
  | opening
  /-- The write fails after some bytes. -/
  | writing (written : Nat)
  deriving DecidableEq

/-- Where the publication of a whole piece fails. -/
inductive PublishFault where
  | creating
  | writing (written : Nat)
  /-- The temporary file does not get the name of the piece. -/
  | moving
  deriving DecidableEq

namespace DiskBackend

/-- The chunks that the index lists for a piece, with their lengths. -/
def listed (d : DiskBackend) (piece : Nat) : List (Nat × Nat) :=
  ((d.state.index.get? piece).map (·.present.entries)).getD []

/-- The actor after a put that fails. -/
def failPut (d : DiskBackend) (piece chunk : Nat) (data : Bytes) : PutFault → DiskBackend
  | .opening => d
  | .writing written =>
    match d.file piece true with
    | none => d
    | some (access, d') =>
      -- no byte goes through a handle that was opened for reading
      let bytes := if access = .readOnly then [] else data.take written
      { d' with
        contents := d'.contents.insert piece
          (writeAt (d'.fileOf piece) (chunk * d.chunkLength) bytes) }

/-- The failure can happen: a cached handle is not opened again, and a write that fails has not
written everything. -/
def CanFailPut (d : DiskBackend) (piece : Nat) (data : Bytes) : PutFault → Prop
  | .opening => d.files.get? piece = none
  | .writing written => written < data.length

/-- What was written before the failure is outside the chunks of the index, or was there. -/
def Harmless (d : DiskBackend) (piece chunk : Nat) (data : Bytes) : PutFault → Prop
  | .opening => True
  | .writing written => d.files.get? piece = some .readOnly ∨
    ∀ e ∈ d.listed piece, ∀ i < written, e.1 * d.chunkLength ≤ chunk * d.chunkLength + i →
      chunk * d.chunkLength + i < e.1 * d.chunkLength + e.2 →
        (d.fileOf piece)[chunk * d.chunkLength + i]? = data[i]?

instance (d : DiskBackend) (piece : Nat) (data : Bytes) (fault : PutFault) :
    Decidable (d.CanFailPut piece data fault) :=
  match fault with
  | .opening => inferInstanceAs (Decidable (_ = _))
  | .writing _ => inferInstanceAs (Decidable (_ < _))

instance (d : DiskBackend) (piece chunk : Nat) (data : Bytes) (fault : PutFault) :
    Decidable (d.Harmless piece chunk data fault) :=
  match fault with
  | .opening => inferInstanceAs (Decidable True)
  | .writing _ => inferInstanceAs (Decidable (_ ∨ ∀ e ∈ d.listed piece, ∀ i < _, _ → _ → _ = _))

end DiskBackend

/-- The actor with the temporary files of whole pieces. -/
structure DiskWorker where
  backend : DiskBackend
  pending : OrderedMap Nat Bytes

/-- A command that the operating system fails. -/
inductive FailedCommand (width : Nat) where
  | put (piece chunk : Nat) (data : Bytes) (fault : PutFault)
  | putComplete (piece : Nat) (wire : WirePiece width) (fault : PublishFault)

inductive WorkerCommand (width : Nat) where
  | done (command : DiskCommand width)
  | failed (command : FailedCommand width)

namespace DiskWorker

def new (width : Nat) : DiskWorker := ⟨.new width, ∅⟩

/-- The temporary file of a piece before it is removed. -/
def leavePending (w : DiskWorker) (piece : Nat) (wire : Bytes) : PublishFault → DiskWorker
  | .creating => w
  | .writing written => { w with pending := w.pending.insert piece (wire.take written) }
  | .moving => { w with pending := w.pending.insert piece wire }

def fail {width : Nat} (w : DiskWorker) : FailedCommand width → DiskWorker
  | .put piece chunk data fault => { w with backend := w.backend.failPut piece chunk data fault }
  | .putComplete piece wire fault =>
    let w := w.leavePending piece wire.bytes fault
    { w with pending := w.pending.erase piece }

/-- The failure comes before the file of the piece is open for writing. -/
def Early {width : Nat} : FailedCommand width → Prop
  | .put _ _ _ (.writing _) => False
  | _ => True

def exec {width : Nat} (w : DiskWorker) : WorkerCommand width → DiskWorker
  | .done command => { w with backend := w.backend.exec command }
  | .failed command => w.fail command

/-- The failure can happen; a piece that is complete is not written. -/
def CanFail {width : Nat} (w : DiskWorker) : FailedCommand width → Prop
  | .put piece _ data fault => w.backend.CanFailPut piece data fault
  | .putComplete piece wire fault =>
    (w.backend.state.index.get? piece).all
      (fun entry => decide (entry.present.size ≠ wire.bytes.length / width)) = true ∧
    match fault with
    | .writing written => written < wire.bytes.length
    | _ => True

instance {width : Nat} (w : DiskWorker) (command : FailedCommand width) :
    Decidable (w.CanFail command) :=
  match command with
  | .put piece _ data fault => inferInstanceAs (Decidable (w.backend.CanFailPut piece data fault))
  | .putComplete _ _ (.writing _) => inferInstanceAs (Decidable (_ = _ ∧ _ < _))
  | .putComplete _ _ .creating | .putComplete _ _ .moving =>
    inferInstanceAs (Decidable (_ = _ ∧ True))

def Harmless {width : Nat} (w : DiskWorker) : FailedCommand width → Prop
  | .put piece chunk data fault => w.backend.Harmless piece chunk data fault
  | .putComplete .. => True

instance {width : Nat} (w : DiskWorker) (command : FailedCommand width) :
    Decidable (w.Harmless command) :=
  match command with
  | .put piece chunk data fault =>
    inferInstanceAs (Decidable (w.backend.Harmless piece chunk data fault))
  | .putComplete .. => inferInstanceAs (Decidable True)

end DiskWorker

namespace DiskBackend
variable {d d' : DiskBackend} {width piece : Nat} {file data : Bytes} {present : OrderedMap Nat Nat}

/-! ### Every chunk of the index can be read -/

/-- The file of a piece is as long as its index entry says. -/
def Holds (width : Nat) (file : Bytes) (present : OrderedMap Nat Nat) : Prop :=
  ∀ chunk len, present.get? chunk = some len → len = 0 ∨ chunk * width + len ≤ file.length

structure Readable (width : Nat) (d : DiskBackend) : Prop where
  chunkLength : d.chunkLength = width
  files : ∀ piece entry, d.state.index.get? piece = some entry →
    ∃ file, d.contents.get? piece = some file ∧ Holds width file entry.present

theorem readable_new (width : Nat) : Readable width (new width) :=
  ⟨rfl, fun _ _ h => by cases h⟩

theorem Readable.sameFiles (R : Readable width d) (h : SameFiles d d') : Readable width d' := by
  refine ⟨h.chunkLength.trans R.chunkLength, fun piece entry hentry => ?_⟩
  obtain ⟨file, hfile, hholds⟩ := R.files piece entry (h.state ▸ hentry)
  exact ⟨file, h.contents piece file hfile, hholds⟩

theorem Holds.writeAt (h : Holds width file present) (offset : Nat) (data : Bytes) :
    Holds width (writeAt file offset data) present :=
  fun chunk len hlen => (h chunk len hlen).imp_right fun hle =>
    Nat.le_trans hle (length_le_writeAt file offset data)

/-- A chunk that was just written can be listed. -/
theorem Holds.insert (h : Holds width file present) (chunk : Nat) (data : Bytes) :
    Holds width (Outpace.writeAt file (chunk * width) data)
      (present.insert chunk (data.length % 2 ^ 32)) := by
  intro chunk' len hlen
  rw [OrderedMap.get?_insert] at hlen
  split at hlen
  · next heq =>
    cases hlen
    rw [heq]
    by_cases hdata : data = []
    · exact .inl (by rw [hdata]; rfl)
    · have hend := end_le_writeAt file (chunk * width) hdata
      have hmod := Nat.mod_le data.length (2 ^ 32)
      exact .inr (by omega)
  · exact h.writeAt (chunk * width) data chunk' len hlen

/-- A piece with a file that holds its index entry. -/
theorem Readable.insert (R : Readable width d) {entry : PieceIndex}
    (h : Holds width file entry.present) {state : DiskState}
    (hstate : state.index = d.state.index.insert piece entry) (files : OrderedMap Nat Access)
    (lru : List Nat) :
    Readable width ⟨d.chunkLength, state, files, lru, d.contents.insert piece file⟩ := by
  refine ⟨R.chunkLength, fun piece' entry' hentry' => ?_⟩
  rw [hstate, OrderedMap.get?_insert] at hentry'
  show ∃ f, (d.contents.insert piece file).get? piece' = some f ∧ _
  rw [OrderedMap.get?_insert]
  split at hentry'
  · next heq =>
    cases hentry'
    exact ⟨file, if_pos heq, h⟩
  · next hne =>
    rw [if_neg hne]
    exact R.files piece' entry' hentry'

/-- A file that changes under its index entry. -/
theorem Readable.rewrite (R : Readable width d)
    (h : ∀ entry, d.state.index.get? piece = some entry → Holds width file entry.present) :
    Readable width { d with contents := d.contents.insert piece file } := by
  refine ⟨R.chunkLength, fun piece' entry' hentry' => ?_⟩
  show ∃ f, (d.contents.insert piece file).get? piece' = some f ∧ _
  rw [OrderedMap.get?_insert]
  split
  · next heq => exact ⟨file, rfl, h entry' (heq ▸ hentry')⟩
  · exact R.files piece' entry' hentry'

theorem Readable.fileOf (R : Readable width d) {entry : PieceIndex}
    (h : d.state.index.get? piece = some entry) : Holds width (d.fileOf piece) entry.present := by
  obtain ⟨file, hfile, hholds⟩ := R.files piece entry h
  rwa [DiskBackend.fileOf, hfile]

/-- The index entry of a piece before a chunk is added to it. -/
theorem Readable.entry (R : Readable width d) (piece : Nat) (header : Header) :
    Holds width (d.fileOf piece) ((d.state.index.get? piece).getD ⟨header, ∅⟩).present := by
  cases hentry : d.state.index.get? piece with
  | none => exact fun _ _ hlen => by cases hlen
  | some entry => exact R.fileOf hentry

theorem get?_evictWhile {cond : DiskState → Nat → Bool} {fuel : Nat} {s : DiskState}
    {entry : PieceIndex} (h : (s.evictWhile cond fuel).2.index.get? piece = some entry) :
    s.index.get? piece = some entry := by
  induction fuel generalizing s with
  | zero => exact h
  | succ fuel ih =>
    rw [DiskState.evictWhile] at h
    split at h
    · exact h
    · split at h
      · exact (OrderedMap.get?_filter_eq_some.mp (ih h)).1
      · exact h

theorem state_removeAll (d : DiskBackend) (evicted : List Nat) :
    (d.removeAll evicted).state = d.state ∧ (d.removeAll evicted).chunkLength = d.chunkLength := by
  induction evicted generalizing d with
  | nil => exact ⟨rfl, rfl⟩
  | cons piece evicted ih => exact ih (d.remove piece)

theorem get?_evicted {cond : DiskState → Nat → Bool} {fuel : Nat} {s : DiskState}
    (h : piece ∈ (s.evictWhile cond fuel).1) :
    (s.evictWhile cond fuel).2.index.get? piece = none := by
  induction fuel generalizing s with
  | zero => exact absurd h List.not_mem_nil
  | succ fuel ih =>
    rw [DiskState.evictWhile] at h ⊢
    split at h
    · exact absurd h List.not_mem_nil
    next lowest entry hfirst =>
    split at h
    · next hcond =>
      simp only [hcond, if_true]
      rcases List.mem_cons.mp h with rfl | h
      · rw [Option.eq_none_iff_forall_ne_some]
        intro entry' hentry'
        have hkept := get?_evictWhile hentry'
        rw [OrderedMap.get?_erase_self] at hkept
        cases hkept
      · exact ih h
    · exact absurd h List.not_mem_nil

theorem contents_removeAll {evicted : List Nat} (h : piece ∉ evicted) :
    (d.removeAll evicted).contents.get? piece = d.contents.get? piece := by
  induction evicted generalizing d with
  | nil => rfl
  | cons other evicted ih =>
    obtain ⟨hne, hrest⟩ := List.ne_and_not_mem_of_not_mem_cons h
    exact (ih hrest).trans (OrderedMap.get?_erase_of_ne _ hne)

section
variable {chunkLength : Nat} {state : DiskState} {files : OrderedMap Nat Access} {lru : List Nat}
  {contents : OrderedMap Nat Bytes} {cond : DiskState → Nat → Bool} {fuel : Nat}

/-- A piece that the evictions after a write leave has its index entry and its file. -/
theorem get?_settle {entry : PieceIndex}
    (h : (DiskBackend.removeAll ⟨chunkLength, (state.evictWhile cond fuel).2, files, lru, contents⟩
      (state.evictWhile cond fuel).1).state.index.get? piece = some entry) :
    state.index.get? piece = some entry ∧
      (DiskBackend.removeAll ⟨chunkLength, (state.evictWhile cond fuel).2, files, lru, contents⟩
        (state.evictWhile cond fuel).1).contents.get? piece = contents.get? piece := by
  rw [(state_removeAll ..).1] at h
  refine ⟨get?_evictWhile h, contents_removeAll fun hmem => ?_⟩
  rw [get?_evicted hmem] at h
  cases h

theorem Readable.settle (R : Readable width ⟨chunkLength, state, files, lru, contents⟩) :
    Readable width (DiskBackend.removeAll
      ⟨chunkLength, (state.evictWhile cond fuel).2, files, lru, contents⟩
      (state.evictWhile cond fuel).1) := by
  refine ⟨(state_removeAll ..).2.trans R.chunkLength, fun piece entry hentry => ?_⟩
  obtain ⟨hentry, hcontents⟩ := get?_settle hentry
  rw [hcontents]
  exact R.files piece entry hentry

end

/-- A piece that is no longer listed loses its file. -/
theorem Readable.drop (R : Readable width d) {state : DiskState}
    (hstate : state.index = d.state.index.erase piece) :
    Readable width (DiskBackend.remove { d with state := state } piece) := by
  refine ⟨R.chunkLength, fun other entry hentry => ?_⟩
  obtain ⟨hentry, hne⟩ := OrderedMap.get?_filter_eq_some.mp (hstate ▸ hentry)
  obtain ⟨file, hfile, hholds⟩ := R.files other entry hentry
  refine ⟨file, ?_, hholds⟩
  exact (OrderedMap.get?_erase_of_ne _ (by simpa using hne)).trans hfile

theorem Readable.put (R : Readable width d) (piece chunk : Nat) (header : Header) (data : Bytes)
    (max : Nat) : Readable width (d.put piece chunk header data max).2 := by
  simp only [DiskBackend.put]
  cases hopen : d.file piece true with
  | none => exact R
  | some out =>
    obtain ⟨access, d'⟩ := out
    have R' := R.sameFiles (sameFiles_file hopen)
    simp only
    split
    · exact R'
    · refine Readable.settle ?_
      rw [R.chunkLength]
      exact R'.insert ((R'.entry piece header).insert chunk data) rfl _ _

theorem holds_wire (wire : WirePiece width) (header : Header) {chunkLength : Nat}
    (h : chunkLength = width) :
    Holds width wire.bytes (PieceIndex.mk header (OrderedMap.ofEntries
      ((List.range (wire.bytes.length / width)).map fun chunk =>
        (chunk, chunkLength % 2 ^ 32)))).present := by
  subst h
  intro chunk len hlen
  rw [OrderedMap.get?_eq_some, OrderedMap.entries_ofEntries
    (List.pairwise_map.mpr (List.pairwise_lt_range.imp fun hlt => hlt))] at hlen
  obtain ⟨k, hk, heq⟩ := List.mem_map.mp hlen
  cases heq
  have hmod := Nat.mod_le chunkLength (2 ^ 32)
  have hle := le_of_lt_blocks (List.mem_range.mp hk)
  exact .inr (by omega)

theorem Readable.exec (R : Readable width d) (command : DiskCommand width) :
    Readable width (d.exec command) := by
  cases command with
  | put piece chunk header data max => exact R.put piece chunk header data max
  | get piece chunk =>
    simp only [DiskBackend.exec, DiskBackend.get]
    split
    · exact R
    split
    · exact R
    split
    · exact R
    · next hopen => exact R.sameFiles (sameFiles_file hopen)
  | putComplete now piece header wire max retention =>
    simp only [DiskBackend.exec, DiskBackend.putComplete]
    split
    · exact R
    · refine Readable.settle ?_
      exact R.insert (holds_wire wire header R.chunkLength) rfl _ _
  | evict =>
    simp only [DiskBackend.exec, DiskBackend.evictLowest]
    split
    · exact R
    · exact R.drop rfl

theorem Readable.failPut (R : Readable width d) (piece chunk : Nat) (data : Bytes)
    (fault : PutFault) : Readable width (d.failPut piece chunk data fault) := by
  cases fault with
  | opening => exact R
  | writing written =>
    simp only [DiskBackend.failPut]
    cases hopen : d.file piece true with
    | none => exact R
    | some out =>
      obtain ⟨access, d'⟩ := out
      have R' := R.sameFiles (sameFiles_file hopen)
      exact R'.rewrite fun entry hentry => (R'.fileOf hentry).writeAt _ _

/-! ### Answers -/

/-- What a get finds: the bytes of the file where the index puts the chunk. -/
def answer (d : DiskBackend) (piece chunk : Nat) : Option (Bytes × Header) :=
  (d.state.index.get? piece).bind fun entry => (entry.present.get? chunk).bind fun len =>
    (readAt (d.fileOf piece) (chunk * d.chunkLength) len).map fun data => (data, entry.header)

/-- The results of gets, one after the other. -/
def reads (d : DiskBackend) (gets : List (Nat × Nat)) : List (Option (Bytes × Header)) :=
  emits (fun d r => (d.get r.1 r.2).2) (fun d r => [(d.get r.1 r.2).1]) d gets

theorem SameFiles.refl (d : DiskBackend) : SameFiles d d := ⟨rfl, rfl, fun _ _ h => h⟩

theorem SameFiles.fileOf (h : SameFiles d d') (R : Readable width d) {entry : PieceIndex}
    (hentry : d.state.index.get? piece = some entry) : d'.fileOf piece = d.fileOf piece := by
  obtain ⟨file, hfile, -⟩ := R.files piece entry hentry
  rw [DiskBackend.fileOf, DiskBackend.fileOf, hfile, h.contents piece file hfile]

theorem SameFiles.answer (h : SameFiles d d') (R : Readable width d) (piece chunk : Nat) :
    d'.answer piece chunk = d.answer piece chunk := by
  unfold DiskBackend.answer
  rw [h.state]
  cases hentry : d.state.index.get? piece with
  | none => rfl
  | some entry => simp only [Option.bind_some, h.fileOf R hentry, h.chunkLength]

theorem Readable.get (R : Readable width d) (piece chunk : Nat) :
    (d.get piece chunk).1 = d.answer piece chunk ∧ SameFiles d (d.get piece chunk).2 := by
  unfold DiskBackend.get DiskBackend.answer
  cases hentry : d.state.index.get? piece with
  | none => exact ⟨rfl, .refl d⟩
  | some entry =>
    simp only [Option.bind_some]
    cases hlen : entry.present.get? chunk with
    | none => exact ⟨rfl, .refl d⟩
    | some len =>
      obtain ⟨file, hfile, -⟩ := R.files piece entry hentry
      obtain ⟨access, d', hopen⟩ := file_of_contains piece false
        (.inr (OrderedMap.contains_iff.mpr ⟨file, hfile⟩))
      have hsame := sameFiles_file hopen
      simp only [hopen, Option.bind_some, hsame.fileOf R hentry, hsame.chunkLength]
      exact ⟨trivial, hsame⟩

theorem Readable.reads (R : Readable width d) (gets : List (Nat × Nat)) :
    d.reads gets = gets.map fun r => d.answer r.1 r.2 := by
  induction gets generalizing d with
  | nil => rfl
  | cons r gets ih =>
    obtain ⟨hget, hsame⟩ := R.get r.1 r.2
    have hrest := ih (R.sameFiles hsame)
    rw [DiskBackend.reads] at hrest ⊢
    rw [emits_cons, hrest, hget, List.map_cons, List.singleton_append]
    simp only [hsame.answer R]

/-- Two states with one index, in which every listed chunk reads the same. -/
structure Alike (width : Nat) (d d' : DiskBackend) : Prop where
  left : Readable width d
  right : Readable width d'
  state : d'.state = d.state
  chunks : ∀ piece entry, d.state.index.get? piece = some entry →
    ∀ chunk len, entry.present.get? chunk = some len →
      readAt (d'.fileOf piece) (chunk * width) len = readAt (d.fileOf piece) (chunk * width) len

theorem Alike.answer (A : Alike width d d') (piece chunk : Nat) :
    d'.answer piece chunk = d.answer piece chunk := by
  unfold DiskBackend.answer
  rw [A.state, A.left.chunkLength, A.right.chunkLength]
  cases hentry : d.state.index.get? piece with
  | none => rfl
  | some entry =>
    simp only [Option.bind_some]
    cases hlen : entry.present.get? chunk with
    | none => rfl
    | some len => simp only [Option.bind_some, A.chunks piece entry hentry chunk len hlen]

/-- States that answer every get alike are alike. -/
theorem Alike.of_answer (R : Readable width d) (R' : Readable width d')
    (hstate : d'.state = d.state)
    (h : ∀ piece chunk, d'.answer piece chunk = d.answer piece chunk) : Alike width d d' := by
  refine ⟨R, R', hstate, fun piece entry hentry chunk len hlen => ?_⟩
  have hsame := h piece chunk
  simp only [DiskBackend.answer, hstate, hentry, Option.bind_some, hlen, R.chunkLength,
    R'.chunkLength] at hsame
  exact Option.map_injective (fun _ _ heq => (Prod.mk.inj heq).1) hsame

theorem Alike.refl (R : Readable width d) : Alike width d d := ⟨R, R, rfl, fun _ _ _ _ _ _ => rfl⟩

theorem Alike.sameFiles (A : Alike width d d') {e e' : DiskBackend} (h : SameFiles d e)
    (h' : SameFiles d' e') : Alike width e e' := by
  refine ⟨A.left.sameFiles h, A.right.sameFiles h', h'.state.trans (A.state.trans h.state.symm),
    fun piece entry hentry chunk len hlen => ?_⟩
  rw [h.state] at hentry
  rw [h.fileOf A.left hentry, h'.fileOf A.right (A.state ▸ hentry)]
  exact A.chunks piece entry hentry chunk len hlen

/-- Both states get the same index entry, with files that agree on it. -/
theorem Alike.insert (A : Alike width d d') {entry : PieceIndex} {file file' : Bytes}
    (hfile : Holds width file entry.present) (hfile' : Holds width file' entry.present)
    (h : ∀ chunk len, entry.present.get? chunk = some len →
      readAt file' (chunk * width) len = readAt file (chunk * width) len) {state : DiskState}
    (hstate : state.index = d.state.index.insert piece entry) {n : Nat} (hn : n = d'.chunkLength)
    (files files' : OrderedMap Nat Access) (lru lru' : List Nat) :
    Alike width ⟨d.chunkLength, state, files, lru, d.contents.insert piece file⟩
      ⟨n, state, files', lru', d'.contents.insert piece file'⟩ := by
  subst hn
  refine ⟨A.left.insert hfile hstate .., A.right.insert hfile' (A.state ▸ hstate) .., rfl,
    fun piece' entry' hentry' => ?_⟩
  simp only [DiskBackend.fileOf, OrderedMap.get?_insert]
  rw [hstate, OrderedMap.get?_insert] at hentry'
  split at hentry'
  · next heq =>
    cases hentry'
    simp only [if_pos heq, Option.getD_some]
    exact h
  · next hne =>
    simp only [if_neg hne]
    exact A.chunks piece' entry' hentry'

theorem Alike.settle {chunkLength chunkLength' : Nat} {state : DiskState}
    {files files' : OrderedMap Nat Access} {lru lru' : List Nat}
    {contents contents' : OrderedMap Nat Bytes} {cond : DiskState → Nat → Bool} {fuel : Nat}
    (A : Alike width ⟨chunkLength, state, files, lru, contents⟩
      ⟨chunkLength', state, files', lru', contents'⟩) :
    Alike width
      (DiskBackend.removeAll ⟨chunkLength, (state.evictWhile cond fuel).2, files, lru, contents⟩
        (state.evictWhile cond fuel).1)
      (DiskBackend.removeAll ⟨chunkLength', (state.evictWhile cond fuel).2, files', lru', contents'⟩
        (state.evictWhile cond fuel).1) := by
  have hstate := (state_removeAll
    ⟨chunkLength, (state.evictWhile cond fuel).2, files, lru, contents⟩
    (state.evictWhile cond fuel).1).1
  have hstate' := (state_removeAll
    ⟨chunkLength', (state.evictWhile cond fuel).2, files', lru', contents'⟩
    (state.evictWhile cond fuel).1).1
  refine ⟨A.left.settle, A.right.settle, hstate'.trans hstate.symm, fun piece entry hentry => ?_⟩
  obtain ⟨hold, hfile⟩ := get?_settle hentry
  obtain ⟨-, hfile'⟩ := get?_settle (hstate'.trans hstate.symm ▸ hentry)
  rw [DiskBackend.fileOf, DiskBackend.fileOf, hfile, hfile']
  exact A.chunks piece entry hold

theorem Alike.drop (A : Alike width d d') {state : DiskState}
    (hstate : state.index = d.state.index.erase piece) :
    Alike width (DiskBackend.remove { d with state := state } piece)
      (DiskBackend.remove { d' with state := state } piece) := by
  refine ⟨A.left.drop hstate, A.right.drop (A.state ▸ hstate), rfl, fun other entry hentry => ?_⟩
  obtain ⟨hentry, hne⟩ := OrderedMap.get?_filter_eq_some.mp (hstate ▸ hentry)
  have hother : other ≠ piece := by simpa using hne
  simp only [DiskBackend.fileOf, DiskBackend.remove, OrderedMap.get?_erase_of_ne _ hother]
  exact A.chunks other entry hentry

/-- A chunk write that meets no other chunk leaves what is read of the others. -/
theorem Readable.chunks_write (R : Readable width d) {piece chunk : Nat}
    (h : d.collides piece chunk data.length = false) {entry : PieceIndex}
    (hentry : d.state.index.get? piece = some entry) {other len : Nat}
    (hother : entry.present.get? other = some len) (hne : other ≠ chunk) :
    readAt (writeAt (d.fileOf piece) (chunk * width) data) (other * width) len =
      readAt (d.fileOf piece) (other * width) len := by
  obtain ⟨b, hb⟩ := exists_readAt (R.fileOf hentry other len hother)
  have hapart := apart_of_collides h hentry hother hne
  rw [R.chunkLength, List.length_eq_zero_iff] at hapart
  rw [hb]
  exact readAt_writeAt_disjoint hb hapart

/-- A chunk that is written to both files reads the same. -/
theorem Alike.put (A : Alike width d d') {piece chunk : Nat} (h : d.Clean piece chunk data)
    (h' : d'.Clean piece chunk data) (header : Header) (max : Nat) :
    Alike width (d.put piece chunk header data max).2 (d'.put piece chunk header data max).2 := by
  obtain ⟨access, e, hopen⟩ := file_of_contains (d := d) piece true (.inl rfl)
  obtain ⟨access', e', hopen'⟩ := file_of_contains (d := d') piece true (.inl rfl)
  have hsame := sameFiles_file hopen
  have B := A.sameFiles hsame (sameFiles_file hopen')
  have hfree : e.collides piece chunk data.length = false := by
    rw [collides, hsame.state, hsame.chunkLength]
    exact h.2.2
  have hfree' : e'.collides piece chunk data.length = false := by
    rw [collides, B.state, B.right.chunkLength, ← B.left.chunkLength]
    exact hfree
  simp only [DiskBackend.put, hopen, hopen', if_neg (h.not_lost hopen), if_neg (h'.not_lost hopen'),
    A.left.chunkLength, A.right.chunkLength, B.state]
  refine Alike.settle ?_
  have hholds := (B.left.entry piece header).insert chunk data
  have hholds' := (B.state ▸ B.right.entry piece header).insert chunk data
  refine B.insert hholds hholds' (fun other len hlen => ?_) rfl rfl ..
  rw [OrderedMap.get?_insert] at hlen
  split at hlen
  · next heq =>
    cases hlen
    rw [heq, Nat.mod_eq_of_lt h.1, readAt_writeAt_self, readAt_writeAt_self]
  · next hne =>
    cases hentry : e.state.index.get? piece with
    | none => rw [hentry] at hlen; cases hlen
    | some entry =>
      rw [hentry] at hlen
      rw [B.left.chunks_write hfree hentry hlen hne,
        B.right.chunks_write hfree' (B.state ▸ hentry) hlen hne]
      exact B.chunks piece entry hentry other len hlen

theorem Alike.exec (A : Alike width d d') {command : DiskCommand width} (h : d.CleanPut command)
    (h' : d'.CleanPut command) : Alike width (d.exec command) (d'.exec command) := by
  cases command with
  | put piece chunk header data max => exact A.put h h' header max
  | get piece chunk =>
    exact A.sameFiles (A.left.get piece chunk).2 (A.right.get piece chunk).2
  | putComplete now piece header wire max retention =>
    have hwidth := A.right.chunkLength.trans A.left.chunkLength.symm
    simp only [DiskBackend.exec, DiskBackend.putComplete, A.state, hwidth]
    split
    · exact A
    · refine Alike.settle ?_
      have hholds := holds_wire wire header A.left.chunkLength
      exact A.insert hholds hholds (fun _ _ _ => rfl) rfl hwidth.symm ..
  | evict =>
    simp only [DiskBackend.exec, DiskBackend.evictLowest, A.state]
    split
    · exact A
    · exact A.drop rfl

theorem Alike.run (A : Alike width d d') {commands : List (DiskCommand width)}
    (h : Meets DiskBackend.exec CleanPut d commands)
    (h' : Meets DiskBackend.exec CleanPut d' commands) :
    Alike width (Outpace.run DiskBackend.exec d commands)
      (Outpace.run DiskBackend.exec d' commands) := by
  induction commands generalizing d d' with
  | nil => exact A
  | cons command commands ih => exact ih (A.exec h.1 h'.1) h.2 h'.2

theorem Alike.reads (A : Alike width d d') (gets : List (Nat × Nat)) :
    d'.reads gets = d.reads gets := by
  rw [A.left.reads, A.right.reads]
  exact List.map_congr_left fun r _ => A.answer r.1 r.2

/-! ### Failures -/

theorem state_failPut (d : DiskBackend) (piece chunk : Nat) (data : Bytes) (fault : PutFault) :
    (d.failPut piece chunk data fault).state = d.state := by
  cases fault with
  | opening => rfl
  | writing written =>
    simp only [failPut]
    cases hopen : d.file piece true with
    | none => rfl
    | some out => exact (sameFiles_file hopen).state

/-- Bytes that end up in the file of a piece leave what is read of it if and only if they were
there, wherever a chunk is listed. -/
theorem Readable.alike_write_iff (R : Readable width d) {e : DiskBackend} (h : SameFiles d e)
    (piece offset : Nat) (bytes : Bytes) :
    Alike width d
        { e with contents := e.contents.insert piece (writeAt (e.fileOf piece) offset bytes) } ↔
      ∀ c ∈ d.listed piece, ∀ i < bytes.length, c.1 * width ≤ offset + i →
        offset + i < c.1 * width + c.2 → (d.fileOf piece)[offset + i]? = bytes[i]? := by
  have hlisted : ∀ {entry}, d.state.index.get? piece = some entry →
      d.listed piece = entry.present.entries := fun hentry => by rw [listed, hentry]; rfl
  constructor
  · rintro A ⟨chunk, len⟩ hmem
    cases hentry : d.state.index.get? piece with
    | none => rw [listed, hentry] at hmem; cases hmem
    | some entry =>
      rw [hlisted hentry, ← OrderedMap.get?_eq_some] at hmem
      obtain ⟨b, hb⟩ := exists_readAt (R.fileOf hentry chunk len hmem)
      have hsame := A.chunks piece entry hentry chunk len hmem
      rw [DiskBackend.fileOf, OrderedMap.get?_insert_self, Option.getD_some, h.fileOf R hentry, hb]
        at hsame
      exact (readAt_writeAt_eq_iff hb).mp hsame
  · intro hsame
    have R' := R.sameFiles h
    refine ⟨R, R'.rewrite fun entry hentry => (R'.fileOf hentry).writeAt _ _, h.state,
      fun piece' entry hentry chunk len hlen => ?_⟩
    by_cases hpiece : piece' = piece
    · subst hpiece
      obtain ⟨b, hb⟩ := exists_readAt (R.fileOf hentry chunk len hlen)
      rw [DiskBackend.fileOf, OrderedMap.get?_insert_self, Option.getD_some, h.fileOf R hentry, hb]
      exact (readAt_writeAt_eq_iff hb).mpr
        (hsame (chunk, len) (by rwa [hlisted hentry, ← OrderedMap.get?_eq_some]))
    · rw [DiskBackend.fileOf, OrderedMap.get?_insert_of_ne _ _ hpiece]
      exact congrArg (readAt · _ _) (h.fileOf R hentry)

theorem Readable.alike_failPut_iff (R : Readable width d) {piece chunk : Nat} {fault : PutFault}
    (hcan : d.CanFailPut piece data fault) :
    Alike width d (d.failPut piece chunk data fault) ↔ d.Harmless piece chunk data fault := by
  cases fault with
  | opening => exact iff_of_true (.refl R) trivial
  | writing written =>
    obtain ⟨access, e, hopen⟩ := file_of_contains (d := d) piece true (.inl rfl)
    have hwidth := R.chunkLength
    have hcached := readOnly_iff_cached hopen
    simp only [DiskBackend.failPut, hopen, Harmless, hwidth]
    rw [R.alike_write_iff (sameFiles_file hopen)]
    by_cases haccess : access = .readOnly
    · rw [if_pos haccess]
      refine iff_of_true (fun _ _ i hi => absurd hi (Nat.not_lt_zero i)) (.inl (hcached.mp haccess))
    · have hlen : (data.take written).length = written :=
        List.length_take_of_le (Nat.le_of_lt hcan)
      rw [if_neg haccess, hlen, or_iff_right (hcached.not.mp haccess)]
      refine forall₂_congr fun c _ => forall₂_congr fun i hi => ?_
      rw [List.getElem?_take, if_pos hi]

end DiskBackend

namespace DiskWorker
open DiskBackend
variable {w : DiskWorker} {width : Nat} {command : FailedCommand width}

/-- Between commands every chunk of the index can be read, and no temporary file is left. -/
structure Inv (width : Nat) (w : DiskWorker) : Prop where
  readable : Readable width w.backend
  pending : w.pending = ∅

theorem fail_putComplete (h : w.pending = ∅) (piece : Nat) (wire : WirePiece width)
    (fault : PublishFault) : w.fail (.putComplete piece wire fault) = w := by
  have herase : ∀ bytes, ((∅ : OrderedMap Nat Bytes).insert piece bytes).erase piece = ∅ := by
    intro bytes
    refine OrderedMap.ext_get? fun other => ?_
    rw [OrderedMap.get?_erase, OrderedMap.get?_insert]
    split <;> rfl
  obtain ⟨backend, pending⟩ := w
  cases h
  cases fault with
  | creating => rfl
  | writing | moving => exact congrArg (DiskWorker.mk backend) (herase _)

theorem Inv.exec (H : Inv width w) (command : WorkerCommand width) :
    Inv width (w.exec command) := by
  cases command with
  | done command => exact ⟨H.readable.exec command, H.pending⟩
  | failed command =>
    cases command with
    | put piece chunk data fault => exact ⟨H.readable.failPut piece chunk data fault, H.pending⟩
    | putComplete piece wire fault =>
      show Inv width (w.fail (.putComplete piece wire fault))
      rw [fail_putComplete H.pending]
      exact H

theorem Inv.alike_fail_iff (H : Inv width w) (hcan : w.CanFail command) :
    Alike width w.backend (w.fail command).backend ↔ w.Harmless command := by
  cases command with
  | put piece chunk data fault => exact H.readable.alike_failPut_iff hcan
  | putComplete piece wire fault =>
    rw [fail_putComplete H.pending]
    exact iff_of_true (.refl H.readable) trivial

theorem Inv.state_fail (H : Inv width w) (command : FailedCommand width) :
    (w.fail command).backend.state = w.backend.state := by
  cases command with
  | put piece chunk data fault => exact state_failPut ..
  | putComplete piece wire fault => rw [fail_putComplete H.pending]

theorem Inv.fail_of_early (H : Inv width w) (h : Early command) : w.fail command = w := by
  cases command with
  | put piece chunk data fault =>
    cases fault with
    | opening => rfl
    | writing written => exact h.elim
  | putComplete piece wire fault => exact fail_putComplete H.pending piece wire fault

/-- A command that fails leaves the index and the byte count, and a whole piece or a put that is not
opened leaves everything. Another put leaves its handle open, so what is said of it is said of later
commands that write cleanly with it and without it: it leaves the results of all gets among them if
and only if what was written before the failure is outside the chunks of the index, or was there.
The gets alone tell that much. -/
theorem failed_write_damages_nothing_iff (width : Nat) (before : List (WorkerCommand width))
    (command : FailedCommand width) :
    let w := run exec (new width) before
    w.CanFail command →
    (w.fail command).backend.state = w.backend.state ∧
    (Early command → w.fail command = w) ∧
    ((∀ after : List (DiskCommand width), Meets DiskBackend.exec CleanPut w.backend after →
        Meets DiskBackend.exec CleanPut (w.fail command).backend after →
        ∀ gets, (run DiskBackend.exec (w.fail command).backend after).reads gets =
          (run DiskBackend.exec w.backend after).reads gets) ↔ w.Harmless command) ∧
    ((∀ gets, (w.fail command).backend.reads gets = w.backend.reads gets) ↔
      w.Harmless command) := by
  intro w hcan
  have H : Inv width w :=
    run_invariant (fun _ command H => H.exec command) ⟨readable_new width, rfl⟩ before
  have H' : Readable width (w.fail command).backend := (H.exec (.failed command)).readable
  have hiff := H.alike_fail_iff hcan
  have hreads (h : ∀ gets, (w.fail command).backend.reads gets = w.backend.reads gets) :
      w.Harmless command := by
    refine hiff.mp (.of_answer H.readable H' (H.state_fail command) fun piece chunk => ?_)
    have hget := h [(piece, chunk)]
    rw [H.readable.reads, H'.reads] at hget
    exact List.singleton_inj.mp hget
  refine ⟨H.state_fail command, H.fail_of_early, ⟨fun h => hreads (h [] trivial trivial), ?_⟩,
    hreads, fun h => (hiff.mpr h).reads⟩
  exact fun h after hafter hafter' => ((hiff.mpr h).run hafter hafter').reads

/-- A worker that has one chunk. -/
def oneChunk : List (WorkerCommand 4) := [.done (.put 0 0 zeroHeader [1, 2, 3, 4] 100)]

/-- An overwrite fails after two bytes that were there, and a further chunk is written. -/
theorem failed_write_damages_nothing_sample :
    ∀ gets, (run DiskBackend.exec ((run exec (new 4) oneChunk).fail
        (.put 0 0 [1, 2, 7, 8] (.writing 2) : FailedCommand 4)).backend
        [(.put 0 1 zeroHeader [5, 6] 100 : DiskCommand 4)]).reads gets =
      (run DiskBackend.exec (run exec (new 4) oneChunk).backend
        [(.put 0 1 zeroHeader [5, 6] 100 : DiskCommand 4)]).reads gets :=
  (failed_write_damages_nothing_iff 4 oneChunk (.put 0 0 [1, 2, 7, 8] (.writing 2))
    (by decide +kernel)).2.2.1.mpr (by decide +kernel) [.put 0 1 zeroHeader [5, 6] 100]
      (by decide +kernel) (by decide +kernel)

/-- A read of a piece and then a chunk for it. -/
def readThenPut : List (DiskCommand 4) := [.get 0 0, .put 0 0 zeroHeader [7, 7, 7, 7] 100]

/-- An overwrite of a listed chunk fails after two of its bytes. And an overwrite that fails with
nothing written leaves a handle for writing, through which a chunk arrives that is lost without
it. -/
theorem failed_overwrite_tears_chunk :
    let w := run exec (new 4) oneChunk
    let command : FailedCommand 4 := .put 0 0 [9, 9, 9, 9] (.writing 2)
    w.CanFail command ∧ (w.backend.get 0 0).1.map (·.1) = some [1, 2, 3, 4] ∧
      ((w.fail command).backend.get 0 0).1.map (·.1) = some [9, 9, 3, 4] ∧
    let w := run exec (new 4) [.done (.putComplete 0 0 zeroHeader wholePiece 100 none)]
    let command : FailedCommand 4 := .put 0 0 [9, 9, 9, 9] (.writing 0)
    w.CanFail command ∧ w.Harmless command ∧
      ((run DiskBackend.exec w.backend readThenPut).get 0 0).1.map (·.1) = some [1, 2, 3, 4] ∧
      ((run DiskBackend.exec (w.fail command).backend readThenPut).get 0 0).1.map (·.1) =
        some [7, 7, 7, 7] := by
  decide +kernel

end DiskWorker
end Outpace.Swarm

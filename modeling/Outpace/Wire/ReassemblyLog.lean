import Mathlib.Data.Finset.Union
import Mathlib.Order.Interval.Finset.Nat
import Outpace.Wire.ReassemblyOrder

/-!
# What was delivered to each piece

The reassembler keeps a buffer, a set of block starts and a byte count for each partial piece. This
file keeps beside it the deliveries themselves: `Logged` is a reassembler together with, for each
piece, the blocks written since the piece was last discarded, newest first. `Tracks` reads the
reassembler's bookkeeping off that log: the starts are the starts of the log, the count is the bytes
of the first block at each start, each byte of the buffer is the byte of the newest block over it,
or zero where no block reached, and eligible publication metadata describes every block of the log.
-/

namespace Outpace.Wire

/-- What `add_live_chunk` was told about a block. -/
structure LiveTag where
  chunk : Nat
  chunkLength : Nat
  header : Header
  deriving DecidableEq

/-- A block written to a piece. -/
structure Delivery where
  start : Nat
  block : Bytes
  live : Option LiveTag
  deriving DecidableEq

namespace Delivery

/-- The byte offsets a block covers. -/
def span (d : Delivery) : Finset Nat := Finset.Ico d.start (d.start + d.block.length)

def byteAt (d : Delivery) (offset : Nat) : Option UInt8 :=
  if d.start ≤ offset then d.block[offset - d.start]? else none

variable {d : Delivery}

theorem byteAt_isSome {offset : Nat} : (d.byteAt offset).isSome ↔ offset ∈ d.span := by
  simp only [byteAt, span, Finset.mem_Ico]
  split
  · next h => simp only [isSome_getElem?]; omega
  · next h => simp [h]

end Delivery

namespace Log

def starts (log : List Delivery) : Finset Nat := (log.map (·.start)).toFinset

/-- The byte offsets that some block covers. -/
def covered : List Delivery → Finset Nat
  | [] => ∅
  | d :: log => d.span ∪ covered log

/-- The bytes of the first block at each start. -/
def counted : List Delivery → Nat
  | [] => 0
  | d :: log => if d.start ∈ starts log then counted log else counted log + d.block.length

/-- The byte that the newest block over an offset brought. -/
def byteAt (log : List Delivery) (offset : Nat) : Option UInt8 := log.findSome? (·.byteAt offset)

variable {log : List Delivery}

theorem mem_starts {n : Nat} : n ∈ starts log ↔ ∃ d ∈ log, d.start = n := by
  simp [starts]

theorem mem_covered {o : Nat} : o ∈ covered log ↔ ∃ d ∈ log, o ∈ d.span := by
  induction log with
  | nil => simp [covered]
  | cons d log ih => simp [covered, ih]

theorem byteAt_isSome {o : Nat} : (byteAt log o).isSome ↔ o ∈ covered log := by
  simp only [byteAt, List.findSome?_isSome_iff, Delivery.byteAt_isSome, mem_covered]

end Log

namespace PieceReassembler
open Log

/-- A buffer is what the blocks of a log leave in a piece of zeros. -/
structure Assembled (pieceLength : Nat) (log : List Delivery) (buf : Bytes) : Prop where
  length : buf.length = pieceLength
  fits : ∀ d ∈ log, d.start + d.block.length ≤ pieceLength
  byte : ∀ o < pieceLength, buf[o]? = some ((byteAt log o).getD 0)

theorem assembled_new (pieceLength : Nat) : Assembled pieceLength [] (Partial.new pieceLength).buf where
  length := by simp [Partial.new]
  fits := by simp
  byte := by
    intro o ho
    simp [Partial.new, byteAt, ho]

variable {pieceLength : Nat}

theorem Assembled.write {log : List Delivery} {p : Partial} (A : Assembled pieceLength log p.buf)
    (h : d.start + d.block.length ≤ pieceLength) :
    Assembled pieceLength (d :: log) (p.write d.start d.block).buf where
  length := by rw [Partial.write, length_overwrite (by rw [A.length]; exact h), A.length]
  fits := by
    intro d' hd'
    rcases List.mem_cons.mp hd' with rfl | hd'
    · exact h
    · exact A.fits d' hd'
  byte := by
    intro o ho
    rw [Partial.write, getElem?_overwrite (by rw [A.length]; exact h), byteAt,
      List.findSome?_cons]
    by_cases hcov : o ∈ d.span
    · obtain ⟨b, hb⟩ := Option.isSome_iff_exists.mp (Delivery.byteAt_isSome.mpr hcov)
      rw [if_pos (Finset.mem_Ico.mp hcov), hb]
      rw [Delivery.byteAt, if_pos (Finset.mem_Ico.mp hcov).1] at hb
      exact hb
    · have hb : d.byteAt o = none := by
        simpa using (not_congr Delivery.byteAt_isSome).mpr hcov
      rw [if_neg (fun hi => hcov (Finset.mem_Ico.mpr hi)), hb]
      exact A.byte o ho

/-! ### Logged runs -/

/-- The piece and the block of a block operation. -/
def Op.delivery? : Op → Option (Nat × Delivery)
  | .addBlock index start block | .addBlockWithContribution index start block =>
    some (index, ⟨start, block, none⟩)
  | .addLiveChunk index chunk chunkLength header block =>
    some (index, ⟨chunk * chunkLength, block, some ⟨chunk, chunkLength, header⟩⟩)
  | _ => none

/-- The log after a block was answered: a written block is noted, a refused signature discards the
piece, and any other answer leaves the log as it is. -/
def note (log : Nat → List Delivery) (settled : Bool) (index : Nat) (d : Delivery) :
    Option WireError → Nat → List Delivery
  | none => if settled then log else Function.update log index (d :: log index)
  | some .signatureRejected => Function.update log index []
  | some _ => log

/-- A reassembler with the deliveries to each piece since its last discard. -/
structure Logged where
  reasm : PieceReassembler
  log : Nat → List Delivery

namespace Logged

def record (auth : LiveAuth) (s : Logged) (op : Op) : Nat → List Delivery :=
  match op.delivery?, op with
  | some (index, d), op =>
    note s.log (s.reasm.settled index) index d (exec auth s.reasm op).1.error?
  -- a complete piece is not discarded
  | none, .discardPartial index =>
    if s.reasm.complete.contains index then s.log else Function.update s.log index []
  | none, _ => s.log

def step (auth : LiveAuth) (s : Logged) (op : Op) : Logged :=
  ⟨s.reasm.step auth op, s.record auth op⟩

def start (r : PieceReassembler) : Logged := ⟨r, fun _ => []⟩

theorem run_reasm (auth : LiveAuth) (s : Logged) (ops : List Op) :
    (run (step auth) s ops).reasm = run (PieceReassembler.step auth) s.reasm ops := by
  induction ops generalizing s with
  | nil => rfl
  | cons op ops ih => exact ih (step auth s op)

end Logged

/-- The block is a full chunk of the piece, sent with the chunk length and header of the
metadata. -/
structure FullChunk (pieceLength : Nat) (m : LiveMetadata) (d : Delivery) (chunk : Nat) : Prop where
  live : d.live = some ⟨chunk, m.chunkLength, m.header⟩
  start : d.start = chunk * m.chunkLength
  length : d.block.length = m.chunkLength
  pos : 0 < m.chunkLength
  dvd : m.chunkLength ∣ pieceLength
  lt : chunk < pieceLength / m.chunkLength

/-- Eligible metadata describes every block of the log. -/
def Coherent (pieceLength : Nat) (live : Option LiveMetadata) (log : List Delivery) : Prop :=
  ∀ m, live = some m → m.eligible = true → ∀ d ∈ log, ∃ chunk, FullChunk pieceLength m d chunk

theorem coherent_none {log : List Delivery} : Coherent pieceLength none log :=
  fun _ h => nomatch h

/-- What is held of one piece, partial or complete, is what its log says. -/
inductive Holds (pieceLength : Nat) : Option Partial → Option Complete → List Delivery → Prop
  | nothing : Holds pieceLength none none []
  | incomplete : Assembled pieceLength log p.buf → p.filledOffsets = starts log →
    p.filled = counted log → counted log < pieceLength → Coherent pieceLength p.live log →
    Holds pieceLength (some p) none log
  | complete : Assembled pieceLength log c.buf → pieceLength ≤ counted log → log ≠ [] →
    Coherent pieceLength c.live log → Holds pieceLength none (some c) log

/-- The piece that the next block is written to: the partial one, or a new one for an empty log. -/
theorem Holds.prior {p : Option Partial} {log : List Delivery} (h : Holds pieceLength p none log) :
    Assembled pieceLength log (p.getD (Partial.new pieceLength)).buf ∧
      (p.getD (Partial.new pieceLength)).filledOffsets = starts log ∧
      (p.getD (Partial.new pieceLength)).filled = counted log := by
  cases h with
  | nothing => exact ⟨assembled_new _, rfl, rfl⟩
  | incomplete hA ho hf => exact ⟨hA, ho, hf⟩

/-- The reassembler's bookkeeping from the cursor on is what the logs say. -/
def Tracks (r : PieceReassembler) (log : Nat → List Delivery) : Prop :=
  ∀ i, r.nextEmit ≤ i → Holds r.pieceLength (r.partials.get? i) (r.complete.get? i) (log i)

variable {auth : LiveAuth} {r r' : PieceReassembler} {log : Nat → List Delivery} {index : Nat}
  {block : Bytes} {header : Header}

theorem Unused.tracks (H : Unused r) : Tracks r fun _ => [] := by
  intro i _
  rw [H.partials, H.complete]
  exact .nothing

/-- A step that touches one piece has to answer for that piece only. -/
theorem Tracks.update (T : Tracks r log) {l : List Delivery} (hl : r'.pieceLength = r.pieceLength)
    (hn : r'.nextEmit = r.nextEmit) (hp : ∀ i, i ≠ index → r'.partials.get? i = r.partials.get? i)
    (hc : ∀ i, i ≠ index → r'.complete.get? i = r.complete.get? i)
    (hat : Holds r.pieceLength (r'.partials.get? index) (r'.complete.get? index) l) :
    Tracks r' (Function.update log index l) := by
  intro i hi
  rw [hl]
  by_cases hne : i = index
  · subst hne
    rwa [Function.update_self]
  · rw [hp i hne, hc i hne, Function.update_of_ne hne]
    exact T i (hn ▸ hi)

/-- The partial piece that an admitted block leaves is what the longer log says. -/
theorem Tracks.written (T : Tracks r log) (h : r.Admitted index d.start d.block) :
    let p := r.written index d.start d.block
    Assembled r.pieceLength (d :: log index) p.buf ∧ p.filledOffsets = starts (d :: log index) ∧
      p.filled = counted (d :: log index) := by
  have hat := T index h.window.1
  rw [h.incomplete] at hat
  obtain ⟨hA, ho, hf⟩ := hat.prior
  refine ⟨hA.write h.fits, ?_, ?_⟩
  · simp [PieceReassembler.written, Partial.write, ho, starts]
  · simp only [PieceReassembler.written, Partial.write, ho, hf, counted]

theorem Tracks.erase (T : Tracks r log) (index : Nat) (h : r.complete.get? index = none) :
    Tracks { r with partials := r.partials.erase index } (Function.update log index []) := by
  refine T.update rfl rfl (fun i hi => OrderedMap.get?_erase_of_ne _ hi) (fun _ _ => rfl) ?_
  rw [OrderedMap.get?_erase_self, h]
  exact .nothing

/-- One block keeps logs and bookkeeping in step. -/
theorem Tracks.addBlock (T : Tracks r log) (H : Inv auth r) {reply}
    (h : AddBlock auth r index d.start d.block reply r') :
    Tracks r' (note log (r.settled index) index d (errorOf reply)) := by
  cases h with
  | settled hs => simpa only [note, errorOf, hs, if_pos] using T
  | rejected => exact T
  | failed hadm _ hauth =>
    rw [H.authenticate_error (H.written_length hadm) hauth]
    exact T.erase index hadm.incomplete
  | wrote hadm hopen =>
    simp only [note, errorOf, hadm.unsettled, Bool.false_eq_true, if_false]
    obtain ⟨hA, ho, hf⟩ := T.written hadm
    refine T.update rfl rfl (fun i hi => OrderedMap.get?_insert_of_ne _ _ hi) (fun _ _ => rfl) ?_
    rw [OrderedMap.get?_insert_self, hadm.incomplete]
    exact .incomplete hA ho hf (hf ▸ hopen) coherent_none
  | completed hadm hfull =>
    simp only [note, errorOf, hadm.unsettled, Bool.false_eq_true, if_false]
    obtain ⟨hA, -, hf⟩ := T.written hadm
    refine T.update rfl rfl (fun i hi => OrderedMap.get?_erase_of_ne _ hi)
      (fun i hi => OrderedMap.get?_insert_of_ne _ _ hi) ?_
    rw [OrderedMap.get?_erase_self, OrderedMap.get?_insert_self]
    exact .complete hA (hf ▸ hfull) (List.cons_ne_nil _ _) coherent_none

theorem FullChunk.of_geometry {chunk chunkLength : Nat} {m : LiveMetadata}
    (hg : r.geometry chunk chunkLength block = true) (hh : m.header = header)
    (hc : m.chunkLength = chunkLength) :
    FullChunk r.pieceLength m ⟨chunk * chunkLength, block, some ⟨chunk, chunkLength, header⟩⟩
      chunk := by
  obtain ⟨hpos, -, hmod, -, hlt, hlen, -⟩ := of_decide_eq_true hg
  subst hh hc
  exact ⟨rfl, rfl, hlen, hpos, Nat.dvd_of_mod_eq_zero hmod, hlt⟩

/-- The metadata after a chunk describes that chunk and, if it is eligible, all before it. -/
theorem Tracks.coherent_chunkMetadata (T : Tracks r log) {index chunk chunkLength : Nat}
    (hn : r.nextEmit ≤ index) (hc : r.complete.get? index = none) :
    Coherent r.pieceLength (some (r.chunkMetadata index chunk chunkLength header block))
      (⟨chunk * chunkLength, block, some ⟨chunk, chunkLength, header⟩⟩ :: log index) := by
  rintro m ⟨⟩ he d hd
  have hat := T index hn
  rw [hc] at hat
  simp only [chunkMetadata, Bool.and_eq_true, beq_iff_eq] at he
  obtain ⟨hprior, ⟨hg, hh⟩, hcl⟩ := he
  rcases List.mem_cons.mp hd with rfl | hd
  · exact ⟨chunk, .of_geometry hg hh hcl⟩
  · generalize log index = l at hat hd
    generalize hp : r.partials.get? index = prior at *
    cases hat with
    | nothing => cases hd
    | @incomplete _ p _ _ _ _ hco =>
      cases hlive : p.live with
      | none => simp [hlive] at hprior
      | some m =>
        simp only [chunkMetadata, hp, Option.bind_some, hlive, Option.getD_some] at hprior ⊢
        obtain ⟨c, hfull⟩ := hco m hlive hprior d hd
        exact ⟨c, hfull.live, hfull.start, hfull.length, hfull.pos, hfull.dvd, hfull.lt⟩

theorem Tracks.setLive (T : Tracks r log) {m : LiveMetadata} (hn : r.nextEmit ≤ index)
    (hco : Coherent r.pieceLength (some m) (log index)) : Tracks (r.setLive index m) log := by
  have hat := T index hn
  rw [← Function.update_eq_self index log]
  unfold PieceReassembler.setLive
  split
  · next hc =>
    refine T.update rfl rfl (fun _ _ => rfl) (fun i hi => OrderedMap.get?_modify_of_ne _ _ hi) ?_
    rw [OrderedMap.get?_modify_self]
    revert hat
    generalize r.partials.get? index = p, r.complete.get? index = c, log index = l at *
    rintro (_ | ⟨hA, ho, hf, hlt, hco'⟩ | ⟨hA, hf, hne, -⟩)
    · exact .nothing
    · exact .incomplete hA ho hf hlt hco'
    · exact .complete hA hf hne hco
  · next hc =>
    refine T.update rfl rfl (fun i hi => OrderedMap.get?_modify_of_ne _ _ hi) (fun _ _ => rfl) ?_
    rw [OrderedMap.get?_modify_self]
    revert hat
    generalize r.partials.get? index = p, r.complete.get? index = c, log index = l at *
    rintro (_ | ⟨hA, ho, hf, hlt, -⟩ | ⟨hA, hf, hne, hco'⟩)
    · exact .nothing
    · exact .incomplete hA ho hf hlt hco
    · exact .complete hA hf hne hco'

theorem Tracks.addLiveChunk (T : Tracks r log) (H : Inv auth r) {index chunk chunkLength : Nat}
    {reply} (h : AddLiveChunk auth r index chunk chunkLength header block reply r') :
    Tracks r' (note log (r.settled index) index
      ⟨chunk * chunkLength, block, some ⟨chunk, chunkLength, header⟩⟩ (errorOf reply)) := by
  cases h with
  | settled hs => simpa only [note, errorOf, hs, if_pos] using T
  | overflow => exact T
  | failed _ h =>
    exact T.addBlock H (d := ⟨_, block, some ⟨chunk, chunkLength, header⟩⟩) h
  | added hs h =>
    have T' := T.addBlock H (d := ⟨_, block, some ⟨chunk, chunkLength, header⟩⟩) h
    have hs' := hs
    simp only [PieceReassembler.settled, Bool.or_eq_false_iff, decide_eq_false_iff_not] at hs'
    have hn : r.nextEmit ≤ index := Nat.le_of_not_lt hs'.1
    simp only [note, errorOf, hs, Bool.false_eq_true, if_false] at T' ⊢
    apply T'.setLive (by rwa [addBlock_nextEmit h])
    rw [Function.update_self, (sameLimits_addBlock h).pieceLength]
    exact T.coherent_chunkMetadata hn (OrderedMap.contains_eq_false.mp hs'.2)

/-! ### Drains and skips -/

/-- Moving the cursor on needs no new facts about the pieces that stay. -/
theorem Tracks.forward (T : Tracks r log) (hl : r'.pieceLength = r.pieceLength)
    (hn : r.nextEmit ≤ r'.nextEmit)
    (hp : ∀ i, r'.nextEmit ≤ i → r'.partials.get? i = r.partials.get? i)
    (hc : ∀ i, r'.nextEmit ≤ i → r'.complete.get? i = r.complete.get? i) : Tracks r' log := by
  intro i hi
  rw [hl, hp i hi, hc i hi]
  exact T i (hn.trans hi)

theorem Tracks.advance (T : Tracks r log) : Tracks r.advance log := by
  refine T.forward rfl (Nat.le_succ _) (fun _ _ => rfl) fun i hi => ?_
  exact OrderedMap.get?_erase_of_ne _ (by simp only [PieceReassembler.advance] at hi; omega)

theorem Tracks.skipTo (T : Tracks r log) (piece : Nat) : Tracks (r.skipTo piece) log := by
  unfold PieceReassembler.skipTo
  split
  · exact T
  next hlt =>
  exact T.forward rfl (Nat.le_of_not_le hlt)
    (fun i hi => OrderedMap.get?_filter_of_forall fun _ => decide_eq_true hi)
    (fun i hi => OrderedMap.get?_filter_of_forall fun _ => decide_eq_true hi)

theorem Tracks.takeReadyPiece (T : Tracks r log) (H : Inv auth r) :
    Tracks r.takeReadyPiece.2 log := by
  cases h : r.complete.get? r.nextEmit with
  | none => rw [takeReadyPiece_none h]; exact T
  | some done => rw [H.takeReadyPiece_some h]; exact T.advance

theorem Tracks.takeReadyLoop (fuel : Nat) (T : Tracks r log) (H : Inv auth r) :
    Tracks (takeReadyLoop fuel r).2 log := by
  induction fuel generalizing r with
  | zero => exact T
  | succ fuel ih =>
    cases h : r.complete.get? r.nextEmit with
    | none => simp only [PieceReassembler.takeReadyLoop, h]; exact T
    | some done => rw [H.takeReadyLoop_succ fuel h]; exact ih T.advance (H.advance h)

/-- What holds of a reassembler and its logs between two calls. -/
structure Logged.Inv (auth : LiveAuth) (s : Logged) : Prop where
  inv : PieceReassembler.Inv auth s.reasm
  tracks : Tracks s.reasm s.log

theorem Logged.Inv.step {s : Logged} (H : Logged.Inv auth s) (op : Op) :
    Logged.Inv auth (s.step auth op) := by
  refine ⟨H.inv.step op, ?_⟩
  obtain ⟨H, T⟩ := H
  cases op with
  | addBlock index start block =>
    have h := addBlockWithContribution_spec auth s.reasm index start block
    have T' := T.addBlock H (d := ⟨start, block, none⟩) h
    simp only [Logged.step, record, Op.delivery?, PieceReassembler.step, exec,
      PieceReassembler.addBlock, Prod.map]
    revert T'
    rcases addBlockWithContribution auth s.reasm index start block with ⟨_ | _, r'⟩ <;> exact id
  | addBlockWithContribution index start block =>
    have h := addBlockWithContribution_spec auth s.reasm index start block
    exact T.addBlock H (d := ⟨start, block, none⟩) h
  | addLiveChunk index chunk chunkLength header block =>
    exact T.addLiveChunk H (addLiveChunk_spec auth s.reasm index chunk chunkLength header block)
  | discardPartial index =>
    simp only [Logged.step, record, Op.delivery?]
    split
    · next hc =>
      -- a complete piece has no partial left to discard
      have hp : s.reasm.partials.get? index = none := by
        by_contra hp
        obtain ⟨p, hp⟩ := Option.ne_none_iff_exists'.mp hp
        rw [OrderedMap.contains_iff, H.partial_incomplete hp] at hc
        obtain ⟨_, ⟨⟩⟩ := hc
      have hsame : s.reasm.discardPartial index = s.reasm := by
        rw [discardPartial, OrderedMap.erase_of_get?_eq_none hp]
      simpa only [PieceReassembler.step, exec, hsame] using T
    · next hc => exact T.erase index (OrderedMap.contains_eq_false.mp (by simpa using hc))
  | readyPiece => exact T
  | takeReadyPiece => exact T.takeReadyPiece H
  | takeReady => exact T.takeReadyLoop _ H
  | skipTo piece => exact T.skipTo piece

theorem Logged.Inv.start (H : Unused r) : Logged.Inv auth (Logged.start r) := ⟨H.inv, H.tracks⟩

theorem Logged.run_pieceLength (auth : LiveAuth) (pieceLength startPiece : Nat)
    (builders : List Builder) (ops : List Op) :
    (run (Logged.step auth) (Logged.start (build auth pieceLength startPiece builders))
      ops).reasm.pieceLength = pieceLength := by
  have H : PieceReassembler.Inv auth (build auth pieceLength startPiece builders) :=
    (unused_build ..).inv
  rw [Logged.run_reasm]
  exact (H.sameLimits_run ops).pieceLength.trans (build_pieceLength ..)

/-! ### What one operation does to the log of a piece -/

/-- A log stays, is discarded, or gains the admitted block of the operation. -/
inductive Noted (r : PieceReassembler) (op : Op) (i : Nat) (log : List Delivery) :
    List Delivery → Prop
  | same : Noted r op i log log
  | discarded : Noted r op i log []
  | written : op.delivery? = some (i, d) → r.Admitted i d.start d.block →
    Noted r op i log (d :: log)

theorem AddBlock.admitted {index start : Nat} {contributed : Bool}
    (h : AddBlock auth r index start block (.ok contributed) r') (hs : r.settled index = false) :
    r.Admitted index start block := by
  cases h with
  | settled hs' => rw [hs] at hs'; cases hs'
  | wrote hadm | completed hadm => exact hadm

theorem noted_note {op : Op} {e : Option WireError} (hd : op.delivery? = some (index, d))
    (h : e = none → r.settled index = false → r.Admitted index d.start d.block) (i : Nat) :
    Noted r op i (log i) (note log (r.settled index) index d e i) := by
  unfold note
  split
  · split
    · exact .same
    · next hs =>
      by_cases hi : i = index
      · subst hi
        rw [Function.update_self]
        exact .written hd (h rfl (by simpa using hs))
      · rw [Function.update_of_ne hi]
        exact .same
  · by_cases hi : i = index
    · subst hi
      rw [Function.update_self]
      exact .discarded
    · rw [Function.update_of_ne hi]
      exact .same
  · exact .same

theorem Logged.noted_step (auth : LiveAuth) (s : Logged) (op : Op) (i : Nat) :
    Noted s.reasm op i (s.log i) ((s.step auth op).log i) := by
  cases op with
  | addBlock index start block | addBlockWithContribution index start block =>
    have h := addBlockWithContribution_spec auth s.reasm index start block
    refine noted_note (d := ⟨start, block, none⟩) rfl (fun he hs => ?_) i
    revert he h
    simp only [exec, PieceReassembler.addBlock, Prod.map]
    rcases addBlockWithContribution auth s.reasm index start block with ⟨_ | _, r'⟩
    · rintro - ⟨⟩
    · exact fun h _ => h.admitted hs
  | addLiveChunk index chunk chunkLength header block =>
    have h := addLiveChunk_spec auth s.reasm index chunk chunkLength header block
    refine noted_note (d := ⟨chunk * chunkLength, block, some ⟨chunk, chunkLength, header⟩⟩) rfl
      (fun he hs => ?_) i
    revert he h
    simp only [exec, Prod.map]
    rcases PieceReassembler.addLiveChunk auth s.reasm index chunk chunkLength header block with
      ⟨_ | _, r'⟩
    · rintro - ⟨⟩
    · rintro (h | h | h | ⟨-, h⟩) -
      · rw [hs] at h; cases h
      · exact h.admitted hs
  | discardPartial index =>
    simp only [Logged.step, record, Op.delivery?]
    split
    · exact .same
    · by_cases hi : i = index
      · subst hi
        rw [Function.update_self]
        exact .discarded
      · rw [Function.update_of_ne hi]
        exact .same
  | readyPiece | takeReadyPiece | takeReady | skipTo => exact .same

/-! ### What is drained was complete -/

theorem Inv.mem_takeReadyLoop (H : Inv auth r) (fuel : Nat) {piece : ReadyPiece}
    (h : piece ∈ (PieceReassembler.takeReadyLoop fuel r).1) :
    ∃ done, r.complete.get? piece.index = some done ∧ piece.bytes = r.media done.buf := by
  induction fuel generalizing r with
  | zero => cases h
  | succ fuel ih =>
    cases hdone : r.complete.get? r.nextEmit with
    | none => simp [PieceReassembler.takeReadyLoop, hdone] at h
    | some done =>
      rw [H.takeReadyLoop_succ fuel hdone] at h
      rcases List.mem_cons.mp h with rfl | h
      · exact ⟨done, hdone, rfl⟩
      · obtain ⟨done', hdone', hbytes⟩ := ih (H.advance hdone) h
        simp only [PieceReassembler.advance, OrderedMap.get?_erase] at hdone'
        split at hdone'
        · cases hdone'
        · exact ⟨done', hdone', hbytes⟩

theorem Inv.mem_drained (H : Inv auth r) {op : Op} {piece : ReadyPiece}
    (h : piece ∈ r.drained op) :
    ∃ done, r.complete.get? piece.index = some done ∧ piece.bytes = r.media done.buf := by
  cases op with
  | takeReadyPiece =>
    cases hdone : r.complete.get? r.nextEmit with
    | none => simp [drained, takeReadyPiece_none hdone] at h
    | some done =>
      simp only [drained, H.takeReadyPiece_some hdone, Option.toList_some,
        List.mem_singleton] at h
      exact ⟨done, h ▸ hdone, by rw [h]⟩
  | takeReady => exact H.mem_takeReadyLoop _ h
  | _ => cases h

end PieceReassembler

end Outpace.Wire

import Outpace.Data.Run
import Outpace.Wire.Reassembly

/-!
# Runs of the reassembler

The public operations of the reassembler as one input type, the builder calls that configure it, and
what a run puts out: the pieces it drains, in order, with a mark for each `skip_to` in between.
`PieceReassembler.Inv` is the invariant of every run: each piece held is inside the accept window,
its buffer has the full length, and each complete one passed the source key.
-/

namespace Outpace.Wire.PieceReassembler

/-- The builder calls of a new reassembler. -/
inductive Builder where
  | pieceTrailer (sigLen : Nat)
  | sourcePubkey (pubkeyDer : Bytes)
  | maxPiecesAhead (maxPiecesAhead : Nat)

def configure (auth : LiveAuth) (r : PieceReassembler) : Builder → PieceReassembler
  | .pieceTrailer sigLen => r.withPieceTrailer sigLen
  | .sourcePubkey pubkeyDer => r.withSourcePubkey auth pubkeyDer
  | .maxPiecesAhead maxPiecesAhead => r.withMaxPiecesAhead maxPiecesAhead

/-- A new reassembler after some builder calls. -/
def build (auth : LiveAuth) (pieceLength startPiece : Nat) (builders : List Builder) :
    PieceReassembler :=
  run (configure auth) (new pieceLength startPiece) builders

inductive Op where
  | addBlock (index start : Nat) (block : Bytes)
  | addBlockWithContribution (index start : Nat) (block : Bytes)
  | addLiveChunk (index chunk chunkLength : Nat) (header : Header) (block : Bytes)
  | discardPartial (index : Nat)
  | readyPiece (index : Nat)
  | takeReadyPiece
  | takeReady
  | skipTo (piece : Nat)

inductive Reply where
  | added (result : Except WireError Unit)
  | contribution (result : Except WireError Bool)
  | chunk (result : Except WireError LiveBlockOutcome)
  | payload (bytes : Option Bytes)
  | piece (ready : Option ReadyPiece)
  | media (bytes : Bytes)
  | done

def errorOf : Except WireError α → Option WireError
  | .error e => some e
  | .ok _ => none

/-- The error of a reply, if it is one. -/
def Reply.error? : Reply → Option WireError
  | .added result => errorOf result
  | .contribution result => errorOf result
  | .chunk result => errorOf result
  | _ => none

/-- The piece a block operation is about. -/
def Op.index? : Op → Option Nat
  | .addBlock index .. | .addBlockWithContribution index .. | .addLiveChunk index .. => some index
  | _ => none

def exec (auth : LiveAuth) (r : PieceReassembler) : Op → Reply × PieceReassembler
  | .addBlock index start block => (addBlock auth r index start block).map .added id
  | .addBlockWithContribution index start block =>
    (addBlockWithContribution auth r index start block).map .contribution id
  | .addLiveChunk index chunk chunkLength header block =>
    (addLiveChunk auth r index chunk chunkLength header block).map .chunk id
  | .discardPartial index => (.done, r.discardPartial index)
  | .readyPiece index => (.payload (r.readyPiece index), r)
  | .takeReadyPiece => r.takeReadyPiece.map .piece id
  | .takeReady => r.takeReady.map .media id
  | .skipTo piece => (.done, r.skipTo piece)

def step (auth : LiveAuth) (r : PieceReassembler) (op : Op) : PieceReassembler := (exec auth r op).2

/-- The pieces that an operation drains, in order. -/
def drained (r : PieceReassembler) : Op → List ReadyPiece
  | .takeReadyPiece => r.takeReadyPiece.1.toList
  | .takeReady => r.takeReadyPieces.1
  | _ => []

/-- What the consumer of a run sees. -/
inductive Event where
  | emitted (piece : ReadyPiece)
  | skipped

def Event.piece? : Event → Option ReadyPiece
  | .emitted piece => some piece
  | .skipped => none

def events (r : PieceReassembler) : Op → List Event
  | .skipTo _ => [.skipped]
  | op => (r.drained op).map .emitted

/-- The events of a run. -/
abbrev trace (auth : LiveAuth) (r : PieceReassembler) (ops : List Op) : List Event :=
  emits (step auth) events r ops

/-! ### The invariant -/

/-- What holds of the pieces held between two calls. -/
structure Inv (auth : LiveAuth) (r : PieceReassembler) : Prop where
  trailer_le : r.pieceTrailer ≤ r.pieceLength
  partial_window : ∀ {i p}, r.partials.get? i = some p →
    r.nextEmit ≤ i ∧ i < saturatingAdd r.nextEmit r.maxAhead
  partial_length : ∀ {i p}, r.partials.get? i = some p → p.buf.length = r.pieceLength
  partial_incomplete : ∀ {i p}, r.partials.get? i = some p → r.complete.get? i = none
  complete_window : ∀ {i c}, r.complete.get? i = some c →
    r.nextEmit ≤ i ∧ i < saturatingAdd r.nextEmit r.maxAhead
  complete_length : ∀ {i c}, r.complete.get? i = some c → c.buf.length = r.pieceLength
  authentic : ∀ {i c}, r.complete.get? i = some c → authenticate auth r c.buf = .ok ()

variable {auth : LiveAuth} {r r' : PieceReassembler} {block : Bytes} {index start : Nat}
  {done : Complete}

/-- Nothing is held yet, and the trailer fits into a piece. -/
structure Unused (r : PieceReassembler) : Prop where
  trailer_le : r.pieceTrailer ≤ r.pieceLength
  partials : r.partials = ∅
  complete : r.complete = ∅

theorem Unused.inv (H : Unused r) : Inv auth r := by
  obtain ⟨ht, hp, hc⟩ := H
  constructor <;> simp [hp, hc, ht]

theorem unused_configure (H : Unused r) (b : Builder) : Unused (configure auth r b) := by
  cases b with
  | pieceTrailer => exact ⟨Nat.min_le_right .., H.partials, H.complete⟩
  | sourcePubkey =>
    simp only [configure, withSourcePubkey]
    split
    · exact ⟨Nat.min_le_right .., H.partials, H.complete⟩
    · exact H
  | maxPiecesAhead => exact ⟨H.trailer_le, H.partials, H.complete⟩

theorem unused_build (auth : LiveAuth) (pieceLength startPiece : Nat) (builders : List Builder) :
    Unused (build auth pieceLength startPiece builders) := by
  have hnew : Unused (new pieceLength startPiece) := ⟨Nat.zero_le _, rfl, rfl⟩
  exact run_invariant (I := Unused) (fun _ b H => unused_configure H b) hnew builders

theorem build_pieceLength (auth : LiveAuth) (pieceLength startPiece : Nat)
    (builders : List Builder) :
    (build auth pieceLength startPiece builders).pieceLength = pieceLength := by
  have hstep : ∀ (r : PieceReassembler) b, r.pieceLength = pieceLength →
      (configure auth r b).pieceLength = pieceLength := by
    intro r b h
    cases b with
    | sourcePubkey =>
      simp only [configure, withSourcePubkey]
      split <;> exact h
    | _ => exact h
  exact run_invariant (I := fun r : PieceReassembler => r.pieceLength = pieceLength) hstep rfl builders

theorem Inv.written_length (H : Inv auth r) (h : r.Admitted index start block) :
    (r.written index start block).buf.length = r.pieceLength := by
  have hbuf : ((r.partials.get? index).getD (Partial.new r.pieceLength)).buf.length =
      r.pieceLength := by
    cases hp : r.partials.get? index with
    | none => simp [Partial.new]
    | some p => exact H.partial_length hp
  rw [written, Partial.write, length_overwrite (by rw [hbuf]; exact h.fits), hbuf]

theorem Admitted.incomplete (h : r.Admitted index start block) : r.complete.get? index = none := by
  have hs := h.unsettled
  simp only [settled, Bool.or_eq_false_iff] at hs
  exact OrderedMap.contains_eq_false.mp hs.2

theorem Admitted.window (h : r.Admitted index start block) :
    r.nextEmit ≤ index ∧ index < saturatingAdd r.nextEmit r.maxAhead := by
  have hs := h.unsettled
  simp only [settled, Bool.or_eq_false_iff, decide_eq_false_iff_not] at hs
  exact ⟨by omega, h.ahead⟩

theorem Inv.erasePartial (H : Inv auth r) (index : Nat) :
    Inv auth { r with partials := r.partials.erase index } := by
  have hget : ∀ {i p}, (r.partials.erase index).get? i = some p → r.partials.get? i = some p := by
    intro i p h
    rw [OrderedMap.get?_erase] at h
    split at h
    · cases h
    · exact h
  exact ⟨H.trailer_le, fun h => H.partial_window (hget h), fun h => H.partial_length (hget h),
    fun h => H.partial_incomplete (hget h), H.complete_window, H.complete_length, H.authentic⟩

theorem Inv.addBlock (H : Inv auth r) {reply} (h : AddBlock auth r index start block reply r') :
    Inv auth r' := by
  cases h with
  | settled | rejected => exact H
  | failed => exact H.erasePartial index
  | wrote hadm =>
    refine { H with
      partial_window := fun {i p} hp => ?_
      partial_length := fun {i p} hp => ?_
      partial_incomplete := fun {i p} hp => ?_ }
    all_goals
      rw [OrderedMap.get?_insert] at hp
      split at hp
    · next hi => subst hi; exact hadm.window
    · exact H.partial_window hp
    · cases hp; exact H.written_length hadm
    · exact H.partial_length hp
    · next hi => subst hi; exact hadm.incomplete
    · exact H.partial_incomplete hp
  | completed hadm _ hauth =>
    refine { H.erasePartial index with
      partial_incomplete := fun {i p} hp => ?_
      complete_window := fun {i c} hc => ?_
      complete_length := fun {i c} hc => ?_
      authentic := fun {i c} hc => ?_ }
    · have hi : i ≠ index := by
        rintro rfl
        rw [OrderedMap.get?_erase_self] at hp
        cases hp
      rw [OrderedMap.get?_insert_of_ne _ _ hi]
      exact (H.erasePartial index).partial_incomplete hp
    all_goals
      rw [OrderedMap.get?_insert] at hc
      split at hc
    · next hi => subst hi; exact hadm.window
    · exact H.complete_window hc
    · cases hc; exact H.written_length hadm
    · exact H.complete_length hc
    · cases hc; exact hauth
    · exact H.authentic hc

/-! Attaching metadata keeps the buffers. -/

@[simp] theorem setLive_nextEmit (i : Nat) (m : LiveMetadata) :
    (r.setLive i m).nextEmit = r.nextEmit := by unfold setLive; split <;> rfl

@[simp] theorem setLive_contains (r : PieceReassembler) (i : Nat) (m : LiveMetadata) :
    (r.setLive i m).complete.contains = r.complete.contains := by
  unfold setLive
  split
  · exact funext fun j => OrderedMap.contains_modify ..
  · rfl

theorem setLive_partial {i j : Nat} {m : LiveMetadata} {p : Partial}
    (h : (r.setLive i m).partials.get? j = some p) :
    ∃ p₀, r.partials.get? j = some p₀ ∧ p.buf = p₀.buf := by
  unfold setLive at h
  split at h
  · exact ⟨p, h, rfl⟩
  · simp only [OrderedMap.get?_modify] at h
    split at h
    · obtain ⟨p₀, hp₀, rfl⟩ := Option.map_eq_some_iff.mp h
      exact ⟨p₀, hp₀, rfl⟩
    · exact ⟨p, h, rfl⟩

theorem setLive_complete {i j : Nat} {m : LiveMetadata} {c : Complete}
    (h : (r.setLive i m).complete.get? j = some c) :
    ∃ c₀, r.complete.get? j = some c₀ ∧ c.buf = c₀.buf := by
  unfold setLive at h
  split at h
  · simp only [OrderedMap.get?_modify] at h
    split at h
    · obtain ⟨c₀, hc₀, rfl⟩ := Option.map_eq_some_iff.mp h
      exact ⟨c₀, hc₀, rfl⟩
    · exact ⟨c, h, rfl⟩
  · exact ⟨c, h, rfl⟩

/-- Attaching metadata changes none of the limits. -/
theorem setLive_limits (r : PieceReassembler) (i : Nat) (m : LiveMetadata) :
    (r.setLive i m).pieceLength = r.pieceLength ∧ (r.setLive i m).pieceTrailer = r.pieceTrailer ∧
      (r.setLive i m).maxAhead = r.maxAhead ∧ (r.setLive i m).verifyPubkey = r.verifyPubkey := by
  unfold setLive
  split <;> exact ⟨rfl, rfl, rfl, rfl⟩

theorem addBlock_nextEmit {reply} (h : AddBlock auth r index start block reply r') :
    r'.nextEmit = r.nextEmit := by
  cases h <;> rfl

theorem addLiveChunk_nextEmit {index chunk chunkLength : Nat} {header : Header} {reply}
    (h : AddLiveChunk auth r index chunk chunkLength header block reply r') :
    r'.nextEmit = r.nextEmit := by
  cases h with
  | settled | overflow => rfl
  | failed _ h => exact addBlock_nextEmit h
  | added _ h => rw [setLive_nextEmit, addBlock_nextEmit h]

theorem completedLivePiece_isSome {index : Nat} :
    (r.completedLivePiece index).isSome = true ↔
      ∃ done m, r.complete.get? index = some done ∧ done.live = some m ∧ m.eligible = true := by
  simp only [completedLivePiece]
  cases hc : r.complete.get? index with
  | none => simp
  | some done =>
    cases hm : done.live with
    | none => simp [hm]
    | some m => cases he : m.eligible <;> simp [hm, he, Option.filter]

/-- A complete piece is publishable as soon as its metadata are. -/
theorem completedLivePiece_setLive {i : Nat} (m : LiveMetadata)
    (h : r.complete.contains i = true) :
    ((r.setLive i m).completedLivePiece i).isSome = m.eligible := by
  obtain ⟨done, hdone⟩ := OrderedMap.contains_iff.mp h
  rw [Bool.eq_iff_iff, completedLivePiece_isSome, setLive, if_pos h]
  simp [OrderedMap.get?_modify_self, hdone]

theorem authenticate_congr {buf : Bytes} (hk : r'.verifyPubkey = r.verifyPubkey)
    (ht : r'.pieceTrailer = r.pieceTrailer) : authenticate auth r' buf = authenticate auth r buf := by
  simp only [authenticate, hk, ht]

theorem Inv.setLive (H : Inv auth r) (i : Nat) (m : LiveMetadata) : Inv auth (r.setLive i m) := by
  obtain ⟨hl, ht, ha, hk⟩ := setLive_limits r i m
  constructor
  · rw [hl, ht]; exact H.trailer_le
  · intro j p h
    obtain ⟨p₀, hp₀, -⟩ := setLive_partial h
    rw [setLive_nextEmit, ha]; exact H.partial_window hp₀
  · intro j p h
    obtain ⟨p₀, hp₀, hbuf⟩ := setLive_partial h
    rw [hbuf, hl]; exact H.partial_length hp₀
  · intro j p h
    obtain ⟨p₀, hp₀, -⟩ := setLive_partial h
    by_contra hc
    obtain ⟨c, hc⟩ := Option.ne_none_iff_exists'.mp hc
    obtain ⟨c₀, hc₀, -⟩ := setLive_complete hc
    rw [H.partial_incomplete hp₀] at hc₀
    cases hc₀
  · intro j c h
    obtain ⟨c₀, hc₀, -⟩ := setLive_complete h
    rw [setLive_nextEmit, ha]; exact H.complete_window hc₀
  · intro j c h
    obtain ⟨c₀, hc₀, hbuf⟩ := setLive_complete h
    rw [hbuf, hl]; exact H.complete_length hc₀
  · intro j c h
    obtain ⟨c₀, hc₀, hbuf⟩ := setLive_complete h
    rw [authenticate_congr hk ht, hbuf]; exact H.authentic hc₀

theorem Inv.addLiveChunk (H : Inv auth r) {index chunk chunkLength : Nat} {header : Header} {reply}
    (h : AddLiveChunk auth r index chunk chunkLength header block reply r') : Inv auth r' := by
  cases h with
  | settled | overflow => exact H
  | failed _ h => exact H.addBlock h
  | added _ h => exact (H.addBlock h).setLive ..

/-! ### Discards, drains and skips -/

/-- Drop the complete piece at the cursor and move the cursor past it. -/
def advance (r : PieceReassembler) : PieceReassembler :=
  { r with nextEmit := r.nextEmit + 1, complete := r.complete.erase r.nextEmit }

theorem Inv.advance (H : Inv auth r) (h : r.complete.get? r.nextEmit = some done) :
    Inv auth r.advance := by
  have hget : ∀ {i c}, r.advance.complete.get? i = some c →
      i ≠ r.nextEmit ∧ r.complete.get? i = some c := by
    intro i c hc
    simp only [PieceReassembler.advance, OrderedMap.get?_erase] at hc
    split at hc
    · cases hc
    · next hi => exact ⟨hi, hc⟩
  have hwindow : ∀ {i}, r.nextEmit ≤ i ∧ i < saturatingAdd r.nextEmit r.maxAhead →
      i ≠ r.nextEmit → r.advance.nextEmit ≤ i ∧ i < saturatingAdd r.advance.nextEmit r.maxAhead := by
    intro i hi hne
    have := saturatingAdd_mono (Nat.le_add_right r.nextEmit 1) (Nat.le_refl r.maxAhead)
    simp only [PieceReassembler.advance]
    omega
  constructor
  · exact H.trailer_le
  · intro i p hp
    apply hwindow (H.partial_window hp)
    rintro rfl
    rw [H.partial_incomplete hp] at h
    cases h
  · exact H.partial_length
  · intro i p hp
    by_contra hc
    obtain ⟨c, hc⟩ := Option.ne_none_iff_exists'.mp hc
    obtain ⟨-, hc⟩ := hget hc
    rw [H.partial_incomplete hp] at hc
    cases hc
  · intro i c hc
    obtain ⟨hne, hc⟩ := hget hc
    exact hwindow (H.complete_window hc) hne
  · intro i c hc
    exact H.complete_length (hget hc).2
  · intro i c hc
    exact H.authentic (hget hc).2

theorem Inv.skipTo (H : Inv auth r) (piece : Nat) : Inv auth (r.skipTo piece) := by
  unfold PieceReassembler.skipTo
  split
  · exact H
  next hlt =>
  have hwindow : ∀ {i}, r.nextEmit ≤ i ∧ i < saturatingAdd r.nextEmit r.maxAhead → piece ≤ i →
      piece ≤ i ∧ i < saturatingAdd piece r.maxAhead := by
    intro i hi hp
    have := saturatingAdd_mono (Nat.le_of_lt (Nat.lt_of_not_le hlt)) (Nat.le_refl r.maxAhead)
    omega
  constructor
  · exact H.trailer_le
  · intro i p hp
    obtain ⟨hp, hi⟩ := OrderedMap.get?_filter_eq_some.mp hp
    exact hwindow (H.partial_window hp) (of_decide_eq_true hi)
  · intro i p hp
    exact H.partial_length (OrderedMap.get?_filter_eq_some.mp hp).1
  · intro i p hp
    rw [OrderedMap.get?_filter, H.partial_incomplete (OrderedMap.get?_filter_eq_some.mp hp).1]
    rfl
  · intro i c hc
    obtain ⟨hc, hi⟩ := OrderedMap.get?_filter_eq_some.mp hc
    exact hwindow (H.complete_window hc) (of_decide_eq_true hi)
  · intro i c hc
    exact H.complete_length (OrderedMap.get?_filter_eq_some.mp hc).1
  · intro i c hc
    exact H.authentic (OrderedMap.get?_filter_eq_some.mp hc).1

/-- A complete piece at the cursor leaves room for the increment. -/
theorem Inv.succ_le (H : Inv auth r) {i : Nat} {c : Complete} (h : r.complete.get? i = some c) :
    i + 1 ≤ u64Max := by
  have := (H.complete_window h).2
  have := saturatingAdd_le_max r.nextEmit r.maxAhead
  omega

theorem Inv.takeReadyPiece_some (H : Inv auth r) (h : r.complete.get? r.nextEmit = some done) :
    r.takeReadyPiece = (some ⟨r.nextEmit, r.media done.buf⟩, r.advance) := by
  have hadd : checkedAdd r.nextEmit 1 = some (r.nextEmit + 1) :=
    checkedAdd_eq_some.mpr ⟨H.succ_le h, rfl⟩
  simp only [takeReadyPiece, hadd, h]
  rfl

theorem takeReadyPiece_none (h : r.complete.get? r.nextEmit = none) :
    r.takeReadyPiece = (none, r) := by
  unfold takeReadyPiece
  split
  · next h' => rw [h] at h'; cases h'
  · rfl

theorem Inv.takeReadyLoop_succ (H : Inv auth r) (fuel : Nat)
    (h : r.complete.get? r.nextEmit = some done) :
    takeReadyLoop (fuel + 1) r =
      (⟨r.nextEmit, r.media done.buf⟩ :: (takeReadyLoop fuel r.advance).1,
        (takeReadyLoop fuel r.advance).2) := by
  simp only [takeReadyLoop, h, wrappingAdd_eq (H.succ_le h)]
  rfl

end Outpace.Wire.PieceReassembler

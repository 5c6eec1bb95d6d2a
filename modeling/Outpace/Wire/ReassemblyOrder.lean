import Mathlib.Data.List.Chain
import Outpace.Wire.ReassemblyRuns

/-!
# Pieces leave in order, once, and authenticated

`InOrder n` is what a consumer at cursor `n` may see: the piece at the cursor, then the next one,
and after a skip any later cursor. Every run of the reassembler from a cursor produces such a trace
(`Inv.trace_inOrder`), each drained payload belongs to a wire piece that passed the source key
(`Inv.trace_authentic`), and a call that fails changes nothing but the partial whose signature was
refused (`Inv.exec_error`).
-/

namespace Outpace.Wire.PieceReassembler

variable {auth : LiveAuth} {r r' : PieceReassembler} {block : Bytes} {e : WireError}
  {index chunk chunkLength : Nat}

/-! ### Traces in order -/

/-- Events seen by a consumer whose cursor is at a piece. -/
inductive InOrder : Nat → List Event → Prop
  | nil : InOrder n []
  | emitted : piece.index = n → InOrder (n + 1) l → InOrder n (.emitted piece :: l)
  | skipped : n ≤ m → InOrder m l → InOrder n (.skipped :: l)

theorem InOrder.le_index {n : Nat} {l : List Event} (h : InOrder n l) :
    ∀ piece ∈ l.filterMap Event.piece?, n ≤ piece.index := by
  induction h with
  | nil => simp
  | emitted hi _ ih =>
    intro piece hp
    rcases List.mem_cons.mp hp with rfl | hp
    · exact Nat.le_of_eq hi.symm
    · exact Nat.le_of_succ_le (ih piece hp)
  | skipped hle _ ih => exact fun piece hp => hle.trans (ih piece hp)

theorem InOrder.pairwise {n : Nat} {l : List Event} (h : InOrder n l) :
    (l.filterMap Event.piece?).Pairwise fun a b => a.index < b.index := by
  induction h with
  | nil => exact .nil
  | emitted hi h ih => exact .cons (hi ▸ h.le_index) ih
  | skipped _ _ ih => exact ih

/-- Neighbouring emissions, with no skip between them, are of neighbouring pieces. -/
def Event.Adjacent : Event → Event → Prop
  | .emitted a, .emitted b => b.index = a.index + 1
  | _, _ => True

theorem InOrder.adjacent {n : Nat} {l : List Event} (h : InOrder n l) :
    l.IsChain Event.Adjacent := by
  induction h with
  | nil => exact .nil
  | emitted hi h ih =>
    refine List.isChain_cons.mpr ⟨fun e he => ?_, ih⟩
    cases h with
    | nil => cases he
    | emitted hi' => cases he; rw [Event.Adjacent, hi', hi]
    | skipped => cases he; trivial
  | skipped _ _ ih => exact List.isChain_cons.mpr ⟨fun e _ => by simp [Event.Adjacent], ih⟩

theorem InOrder.append {pieces : List ReadyPiece} {n : Nat} {l : List Event}
    (hp : pieces.map (·.index) = List.range' n pieces.length) (h : InOrder (n + pieces.length) l) :
    InOrder n (pieces.map .emitted ++ l) := by
  induction pieces generalizing n with
  | nil => simpa using h
  | cons piece pieces ih =>
    simp only [List.map_cons, List.length_cons, List.range'_succ, List.cons.injEq] at hp
    obtain ⟨rfl, hp⟩ := hp
    exact .emitted rfl (ih hp (by rwa [List.length_cons, ← Nat.add_assoc, Nat.add_right_comm] at h))

/-! ### What one operation drains -/

/-- The payload of a wire piece of full length that the source key, if there is one, accepts. -/
def Authentic (auth : LiveAuth) (r : PieceReassembler) (payload : Bytes) : Prop :=
  ∃ wire : Bytes, wire.length = r.pieceLength ∧ authenticate auth r wire = .ok () ∧
    r.media wire = payload

/-- The parts of the state no operation changes. -/
structure SameLimits (r r' : PieceReassembler) : Prop where
  pieceLength : r'.pieceLength = r.pieceLength
  pieceTrailer : r'.pieceTrailer = r.pieceTrailer
  verifyPubkey : r'.verifyPubkey = r.verifyPubkey
  maxAhead : r'.maxAhead = r.maxAhead

theorem SameLimits.rfl : SameLimits r r := ⟨.refl _, .refl _, .refl _, .refl _⟩

theorem SameLimits.trans {r₁ r₂ r₃ : PieceReassembler} (h : SameLimits r₁ r₂)
    (h' : SameLimits r₂ r₃) : SameLimits r₁ r₃ :=
  ⟨h'.1.trans h.1, h'.2.trans h.2, h'.3.trans h.3, h'.4.trans h.4⟩

theorem Authentic.of_sameLimits {payload : Bytes} (hl : SameLimits r r')
    (h : Authentic auth r' payload) : Authentic auth r payload := by
  obtain ⟨wire, hlen, hauth, rfl⟩ := h
  refine ⟨wire, hl.pieceLength ▸ hlen, ?_, ?_⟩
  · rwa [authenticate_congr hl.verifyPubkey hl.pieceTrailer] at hauth
  · simp only [media, hl.pieceTrailer]

theorem sameLimits_advance (r : PieceReassembler) : SameLimits r r.advance :=
  ⟨rfl, rfl, rfl, rfl⟩

theorem sameLimits_addBlock {index start : Nat} {reply}
    (h : AddBlock auth r index start block reply r') : SameLimits r r' := by
  cases h <;> exact ⟨.refl _, .refl _, .refl _, .refl _⟩

theorem sameLimits_setLive (r : PieceReassembler) (i : Nat) (m : LiveMetadata) :
    SameLimits r (r.setLive i m) := by
  unfold setLive
  split <;> exact ⟨.refl _, .refl _, .refl _, .refl _⟩

theorem sameLimits_addLiveChunk {header : Header} {reply}
    (h : AddLiveChunk auth r index chunk chunkLength header block reply r') : SameLimits r r' := by
  cases h with
  | settled | overflow => exact .rfl
  | failed _ h => exact sameLimits_addBlock h
  | added _ h => exact (sameLimits_addBlock h).trans (sameLimits_setLive ..)

/-- A drain from the cursor: consecutive authentic pieces, with the cursor left after the last. -/
structure Drain (auth : LiveAuth) (r : PieceReassembler) (pieces : List ReadyPiece)
    (r' : PieceReassembler) : Prop where
  inv : Inv auth r'
  limits : SameLimits r r'
  index : pieces.map (·.index) = List.range' r.nextEmit pieces.length
  cursor : r'.nextEmit = r.nextEmit + pieces.length
  fits : ∀ piece ∈ pieces, piece.index + 1 ≤ u64Max
  authentic : ∀ piece ∈ pieces, Authentic auth r piece.bytes

theorem Drain.nil (H : Inv auth r') (hl : SameLimits r r') (hn : r'.nextEmit = r.nextEmit) :
    Drain auth r [] r' :=
  ⟨H, hl, rfl, hn, by simp, by simp⟩

theorem Drain.cons (H : Inv auth r) {done : Complete} (h : r.complete.get? r.nextEmit = some done)
    {pieces : List ReadyPiece} (D : Drain auth r.advance pieces r') :
    Drain auth r (⟨r.nextEmit, r.media done.buf⟩ :: pieces) r' where
  inv := D.inv
  limits := (sameLimits_advance r).trans D.limits
  index := by
    simp only [List.map_cons, List.length_cons, List.range'_succ, D.index]
    rfl
  cursor := by
    rw [D.cursor, List.length_cons]
    simp only [advance]
    omega
  fits := by
    intro piece hp
    rcases List.mem_cons.mp hp with rfl | hp
    · exact H.succ_le h
    · exact D.fits piece hp
  authentic := by
    intro piece hp
    rcases List.mem_cons.mp hp with rfl | hp
    · exact ⟨done.buf, H.complete_length h, H.authentic h, rfl⟩
    · exact (D.authentic piece hp).of_sameLimits (sameLimits_advance r)

theorem Inv.drain_takeReadyPiece (H : Inv auth r) :
    Drain auth r r.takeReadyPiece.1.toList r.takeReadyPiece.2 := by
  cases h : r.complete.get? r.nextEmit with
  | none => rw [takeReadyPiece_none h]; exact .nil H .rfl rfl
  | some done =>
    rw [H.takeReadyPiece_some h]
    exact .cons H h (.nil (H.advance h) .rfl rfl)

theorem Inv.drain_takeReadyLoop (fuel : Nat) (H : Inv auth r) :
    Drain auth r (takeReadyLoop fuel r).1 (takeReadyLoop fuel r).2 := by
  induction fuel generalizing r with
  | zero => exact .nil H .rfl rfl
  | succ fuel ih =>
    cases h : r.complete.get? r.nextEmit with
    | none =>
      simp only [takeReadyLoop, h]
      exact .nil H .rfl rfl
    | some done =>
      rw [H.takeReadyLoop_succ fuel h]
      exact .cons H h (ih (H.advance h))

theorem Inv.drain_addBlock (H : Inv auth r) (index start : Nat) (block : Bytes) :
    Drain auth r [] (addBlockWithContribution auth r index start block).2 :=
  have h := addBlockWithContribution_spec auth r index start block
  .nil (H.addBlock h) (sameLimits_addBlock h) (addBlock_nextEmit h)

/-- Every operation but a skip drains consecutive authentic pieces from the cursor. -/
theorem Inv.drain_step (H : Inv auth r) {op : Op} (hop : ∀ piece, op ≠ .skipTo piece) :
    Drain auth r (r.drained op) (step auth r op) := by
  cases op with
  | addBlock index start block | addBlockWithContribution index start block =>
    exact H.drain_addBlock index start block
  | addLiveChunk index chunk chunkLength header block =>
    have h := addLiveChunk_spec auth r index chunk chunkLength header block
    exact .nil (H.addLiveChunk h) (sameLimits_addLiveChunk h) (addLiveChunk_nextEmit h)
  | discardPartial index => exact .nil (H.erasePartial index) ⟨rfl, rfl, rfl, rfl⟩ rfl
  | readyPiece => exact .nil H .rfl rfl
  | takeReadyPiece => exact H.drain_takeReadyPiece
  | takeReady => exact H.drain_takeReadyLoop _
  | skipTo piece => exact absurd rfl (hop piece)

theorem sameLimits_skipTo (r : PieceReassembler) (piece : Nat) : SameLimits r (r.skipTo piece) := by
  unfold skipTo
  split <;> exact ⟨.refl _, .refl _, .refl _, .refl _⟩

theorem nextEmit_le_skipTo (r : PieceReassembler) (piece : Nat) :
    r.nextEmit ≤ (r.skipTo piece).nextEmit := by
  unfold skipTo
  split
  · exact Nat.le_refl _
  · next h => exact Nat.le_of_not_le h

theorem Inv.step (H : Inv auth r) (op : Op) : Inv auth (step auth r op) := by
  by_cases hop : ∃ piece, op = .skipTo piece
  · obtain ⟨piece, rfl⟩ := hop
    exact H.skipTo piece
  · exact (H.drain_step fun piece h => hop ⟨piece, h⟩).inv

theorem Inv.sameLimits_step (H : Inv auth r) (op : Op) :
    SameLimits r (PieceReassembler.step auth r op) := by
  by_cases hop : ∃ piece, op = .skipTo piece
  · obtain ⟨piece, rfl⟩ := hop
    exact sameLimits_skipTo r piece
  · exact (H.drain_step fun piece h => hop ⟨piece, h⟩).limits

theorem events_of_ne_skipTo {op : Op} (hop : ∀ piece, op ≠ .skipTo piece) :
    r.events op = (r.drained op).map .emitted := by
  cases op with
  | skipTo piece => exact absurd rfl (hop piece)
  | _ => rfl

/-! ### Whole runs -/

theorem Inv.run (H : Inv auth r) (ops : List Op) :
    Inv auth (run (PieceReassembler.step auth) r ops) :=
  run_invariant (fun _ op H => H.step op) H ops

theorem Inv.sameLimits_run (H : Inv auth r) (ops : List Op) :
    SameLimits r (Outpace.run (PieceReassembler.step auth) r ops) := by
  induction ops generalizing r with
  | nil => exact .rfl
  | cons op ops ih => exact (H.sameLimits_step op).trans (ih (H.step op))

theorem Inv.trace_inOrder (H : Inv auth r) (ops : List Op) :
    InOrder r.nextEmit (trace auth r ops) := by
  induction ops generalizing r with
  | nil => exact .nil
  | cons op ops ih =>
    rw [trace, emits_cons]
    by_cases hop : ∃ piece, op = .skipTo piece
    · obtain ⟨piece, rfl⟩ := hop
      exact .skipped (nextEmit_le_skipTo r piece) (ih (H.skipTo piece))
    · have D := H.drain_step fun piece h => hop ⟨piece, h⟩
      rw [events_of_ne_skipTo fun piece h => hop ⟨piece, h⟩]
      exact .append D.index (D.cursor ▸ ih D.inv)

theorem Inv.trace_authentic (H : Inv auth r) (ops : List Op) :
    ∀ piece ∈ (trace auth r ops).filterMap Event.piece?,
      piece.index + 1 ≤ u64Max ∧ Authentic auth r piece.bytes := by
  induction ops generalizing r with
  | nil => simp
  | cons op ops ih =>
    intro piece hp
    rw [trace, emits_cons, List.filterMap_append, List.mem_append] at hp
    rcases hp with hp | hp
    · by_cases hop : ∃ piece, op = .skipTo piece
      · obtain ⟨target, rfl⟩ := hop
        simp [events, Event.piece?] at hp
      · have D := H.drain_step fun piece h => hop ⟨piece, h⟩
        rw [events_of_ne_skipTo fun piece h => hop ⟨piece, h⟩, List.filterMap_map] at hp
        have hp : piece ∈ r.drained op := by simpa [Function.comp_def, Event.piece?] using hp
        exact ⟨D.fits piece hp, D.authentic piece hp⟩
    · obtain ⟨hfits, hauth⟩ := ih (H.step op) piece hp
      exact ⟨hfits, hauth.of_sameLimits (H.sameLimits_step op)⟩

theorem authenticate_eq_ok {wire pubkey : Bytes} (h : authenticate auth r wire = .ok ())
    (hk : r.verifyPubkey = some pubkey) :
    ∃ payload sig : Bytes, splitPiece wire r.pieceTrailer = some (payload, sig) ∧
      auth.verifyPiece pubkey payload sig = true := by
  unfold authenticate at h
  rw [hk] at h
  cases hsplit : splitPiece wire r.pieceTrailer with
  | none => simp [hsplit] at h
  | some parts =>
    obtain ⟨payload, sig⟩ := parts
    refine ⟨payload, sig, rfl, ?_⟩
    by_contra hv
    simp [hsplit, hv] at h

theorem splitPiece_payload {wire payload sig : Bytes}
    (h : splitPiece wire r.pieceTrailer = some (payload, sig)) : payload = r.media wire := by
  unfold splitPiece at h
  split at h
  · cases h
  · rw [List.splitAt_eq] at h
    cases h
    rfl

/-- With a source key, an authentic payload is the signed part of a verified wire piece. -/
theorem Authentic.verified {payload pubkey : Bytes} (h : Authentic auth r payload)
    (hk : r.verifyPubkey = some pubkey) :
    ∃ wire sig : Bytes, wire.length = r.pieceLength ∧
      splitPiece wire r.pieceTrailer = some (payload, sig) ∧
      auth.verifyPiece pubkey payload sig = true := by
  obtain ⟨wire, hlen, hauth, rfl⟩ := h
  obtain ⟨payload, sig, hsplit, hv⟩ := authenticate_eq_ok hauth hk
  obtain rfl := splitPiece_payload hsplit
  exact ⟨wire, sig, hlen, hsplit, hv⟩

theorem Inv.readyPiece_authentic (H : Inv auth r) {i : Nat} {payload : Bytes}
    (h : r.readyPiece i = some payload) : Authentic auth r payload := by
  obtain ⟨done, hdone, rfl⟩ := Option.map_eq_some_iff.mp h
  exact ⟨done.buf, H.complete_length hdone, H.authentic hdone, rfl⟩

/-! ### Failed calls -/

/-- The trailer always fits, so only the signature can be refused. -/
theorem Inv.authenticate_error (H : Inv auth r) {buf : Bytes} (hbuf : buf.length = r.pieceLength)
    (h : authenticate auth r buf = .error e) : e = .signatureRejected := by
  have hfits := H.trailer_le
  unfold authenticate at h
  split at h
  · cases h
  · split at h
    · next hsplit =>
      rw [splitPiece, if_neg (by omega)] at hsplit
      cases hsplit
    · split at h
      · cases h
      · cases h; rfl

/-- What a failed call on a piece leaves: the state itself, or the state without the partial whose
signature was refused. -/
def FailedCall (r : PieceReassembler) (index : Nat) (e : WireError)
    (r' : PieceReassembler) : Prop :=
  (e ≠ .signatureRejected ∧ r' = r) ∨ (e = .signatureRejected ∧ r' = r.discardPartial index)

theorem Inv.addBlock_error (H : Inv auth r) {index start : Nat}
    (h : AddBlock auth r index start block (.error e) r') : FailedCall r index e r' := by
  cases h with
  | rejected => exact .inl ⟨by simp, rfl⟩
  | failed hadm _ hauth => exact .inr ⟨H.authenticate_error (H.written_length hadm) hauth, rfl⟩

theorem Inv.addLiveChunk_error (H : Inv auth r) {header : Header}
    (h : AddLiveChunk auth r index chunk chunkLength header block (.error e) r') :
    FailedCall r index e r' := by
  cases h with
  | overflow => exact .inl ⟨by simp, rfl⟩
  | failed _ h => exact H.addBlock_error h

theorem Inv.exec_error (H : Inv auth r) {op : Op} (h : (exec auth r op).1.error? = some e) :
    ∃ index, op.index? = some index ∧ FailedCall r index e (PieceReassembler.step auth r op) := by
  cases op with
  | addBlock index start block | addBlockWithContribution index start block =>
    have hspec := addBlockWithContribution_spec auth r index start block
    revert h hspec
    simp only [exec, PieceReassembler.addBlock, PieceReassembler.step, Prod.map]
    rcases addBlockWithContribution auth r index start block with ⟨_ | _, r'⟩
    · rintro ⟨⟩ hspec
      exact ⟨index, rfl, H.addBlock_error hspec⟩
    · rintro ⟨⟩
  | addLiveChunk index chunk chunkLength header block =>
    have hspec := addLiveChunk_spec auth r index chunk chunkLength header block
    revert h hspec
    simp only [exec, PieceReassembler.step, Prod.map]
    rcases PieceReassembler.addLiveChunk auth r index chunk chunkLength header block with ⟨_ | _, r'⟩
    · rintro ⟨⟩ hspec
      exact ⟨index, rfl, H.addLiveChunk_error hspec⟩
    · rintro ⟨⟩
  | _ => cases h

/-- Along every run of a configured reassembler: the drained pieces have strictly increasing
indices, neighbouring ones differ by one unless a skip came between; every piece held lies in the
accept window and the cursor can be incremented past every drained piece; with a source key, every
payload handed out is the signed part of a verified wire piece; and a failed call changes nothing
but the partial whose signature it refused. -/
theorem emits_in_order_once_authenticated (auth : LiveAuth) (pieceLength startPiece : Nat)
    (builders : List Builder) (ops : List Op) :
    let r₀ := build auth pieceLength startPiece builders
    let r := Outpace.run (PieceReassembler.step auth) r₀ ops
    let pieces := (trace auth r₀ ops).filterMap Event.piece?
    pieces.Pairwise (fun a b => a.index < b.index) ∧
      (trace auth r₀ ops).IsChain Event.Adjacent ∧
      (∀ i, r.partials.contains i ∨ r.complete.contains i →
        r.nextEmit ≤ i ∧ i < r.nextEmit + r.maxAhead ∧ i + 1 ≤ u64Max) ∧
      (∀ piece ∈ pieces, piece.index + 1 ≤ u64Max) ∧
      (∀ pubkey, r₀.verifyPubkey = some pubkey → ∀ payload,
        (∃ piece ∈ pieces, piece.bytes = payload) ∨ (∃ i, r.readyPiece i = some payload) →
        ∃ wire sig : Bytes, wire.length = pieceLength ∧
          splitPiece wire r₀.pieceTrailer = some (payload, sig) ∧
          auth.verifyPiece pubkey payload sig = true) ∧
      (∀ op e, (exec auth r op).1.error? = some e →
        ∃ index, op.index? = some index ∧ FailedCall r index e (PieceReassembler.step auth r op)) := by
  intro r₀ r pieces
  have H₀ : Inv auth r₀ := (unused_build auth pieceLength startPiece builders).inv
  have H : Inv auth r := H₀.run ops
  have hl : SameLimits r₀ r := H₀.sameLimits_run ops
  have hlen : r₀.pieceLength = pieceLength := build_pieceLength ..
  refine ⟨(H₀.trace_inOrder ops).pairwise, (H₀.trace_inOrder ops).adjacent, ?_, ?_, ?_, ?_⟩
  · have hmax := saturatingAdd_le_max r.nextEmit r.maxAhead
    have hadd := saturatingAdd_le_add r.nextEmit r.maxAhead
    rintro i (hi | hi) <;> obtain ⟨_, hi⟩ := OrderedMap.contains_iff.mp hi
    · have := H.partial_window hi; omega
    · have := H.complete_window hi; omega
  · exact fun piece hp => (H₀.trace_authentic ops piece hp).1
  · rintro pubkey hk payload (⟨piece, hp, rfl⟩ | ⟨i, hi⟩) <;> rw [← hlen]
    · exact (H₀.trace_authentic ops piece hp).2.verified hk
    · exact ((H.readyPiece_authentic hi).of_sameLimits hl).verified hk
  · exact fun op e he => H.exec_error he

end Outpace.Wire.PieceReassembler

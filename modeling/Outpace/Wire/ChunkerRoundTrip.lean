import Outpace.Wire.Chunker
import Outpace.Wire.ReassemblyCoverage

/-!
# Chunking and reassembly are inverse

The two sides meet at `StreamChunks`: the chunks of a wire stream are its slices at multiples of the
chunk length, each addressed to the piece it lies in. A receiver of such chunks, in any order and
with repetitions, holds slices of the stream only (`Receiving`), so a piece that it completes is a
piece of the stream, its signature is not refused, and nothing delivered is discarded. Once every
chunk has arrived, the whole pieces of the stream have been emitted in order.
-/

namespace Outpace.Wire.PieceReassembler
open Log

/-- A block of a piece as it stands in the stream, at a multiple of the chunk length. -/
structure Slice (wire : Bytes) (pieceLength chunkLength k start : Nat) (block : Bytes) : Prop where
  dvd : chunkLength ∣ start
  length : block.length = chunkLength
  fits : start + chunkLength ≤ pieceLength
  bytes : block = (wire.drop (k * pieceLength + start)).take chunkLength

/-- The chunks of a wire stream from a first piece on. -/
structure StreamChunks (wire : Bytes) (pieceLength chunkLength first : Nat) (chunks : List OutChunk) :
    Prop where
  slice : ∀ c ∈ chunks, ∃ k, c.piece = first + k ∧
    Slice wire pieceLength chunkLength k c.begin c.data
  all : ∀ k < wire.length / pieceLength, ∀ m < pieceLength / chunkLength,
    ∃ c ∈ chunks, c.piece = first + k ∧ c.begin = m * chunkLength

/-- The operation hands over the chunk. -/
def Op.carries (op : Op) (c : OutChunk) : Prop :=
  match op.delivery? with
  | some (index, d) => index = c.piece ∧ d.start = c.begin ∧ d.block = c.data
  | none => False

theorem Op.carries_iff (op : Op) (c : OutChunk) :
    (op.delivery?.any fun e => decide (e.1 = c.piece ∧ e.2.start = c.begin ∧ e.2.block = c.data)) =
      true ↔ op.carries c := by
  unfold Op.carries
  cases op.delivery? with
  | none => exact Bool.false_eq_true.to_iff
  | some e => exact decide_eq_true_iff

instance (op : Op) (c : OutChunk) : Decidable (op.carries c) :=
  decidable_of_iff _ (op.carries_iff c)

/-- A step of a receiver: it drains, or is handed a chunk within the look-ahead. -/
def Receives (chunks : List OutChunk) (r : PieceReassembler) (op : Op) : Prop :=
  match op with
  | .takeReady | .takeReadyPiece | .readyPiece _ => True
  | op => ∃ c ∈ chunks, op.carries c ∧ c.piece < saturatingAdd r.nextEmit r.maxAhead

instance (chunks : List OutChunk) (r : PieceReassembler) (op : Op) :
    Decidable (Receives chunks r op) := by
  unfold Receives; split <;> infer_instance

/-- Every chunk is handed over at least once, in any order, each time within the look-ahead, with
drains in between. -/
def DeliversAll (auth : LiveAuth) (r : PieceReassembler) (chunks : List OutChunk)
    (ops : List Op) : Prop :=
  Meets (step auth) (Receives chunks) r ops ∧ ∀ c ∈ chunks, ∃ op ∈ ops, op.carries c

instance (auth : LiveAuth) (r : PieceReassembler) (chunks : List OutChunk) (ops : List Op) :
    Decidable (DeliversAll auth r chunks ops) := by
  unfold DeliversAll; infer_instance

variable {auth : LiveAuth} {r r₀ : PieceReassembler} {wire block : Bytes}
  {pieceLength chunkLength i index : Nat} {s : Logged} {op : Op} {d : Delivery}

/-! ### A full log of slices is a piece of the stream -/

theorem Slice.byte {k start o : Nat} {b : UInt8}
    (h : Slice wire pieceLength chunkLength k start block) (hle : start ≤ o)
    (hb : block[o - start]? = some b) : wire[k * pieceLength + o]? = some b := by
  rw [h.bytes, List.getElem?_take] at hb
  split at hb
  · rw [List.getElem?_drop] at hb
    rw [← hb]
    congr 1
    omega
  · cases hb

theorem Assembled.eq_piece {log : List Delivery} {buf : Bytes} {k : Nat} (hpos : 0 < pieceLength)
    (A : Assembled pieceLength log buf)
    (hlog : ∀ d ∈ log, Slice wire pieceLength chunkLength k d.start d.block)
    (hfull : pieceLength ≤ counted log) :
    k < wire.length / pieceLength ∧ buf = (wire.drop (k * pieceLength)).take pieceLength := by
  have htidy : Tidy log := tidy_of_aligned fun d hd => ⟨(hlog d hd).dvd, (hlog d hd).length⟩
  have hcov := (A.counted_full_iff htidy).mp hfull
  have hbyte : ∀ o < pieceLength, buf[o]? = wire[k * pieceLength + o]? := by
    intro o ho
    have hsome : (buf[o]?).isSome := by rw [isSome_getElem?, A.length]; exact ho
    obtain ⟨b, hb⟩ := Option.isSome_iff_exists.mp hsome
    obtain ⟨_, d, _, heq, hd, -⟩ := List.findSome?_eq_some_iff.mp (A.byte_delivered hcov hb)
    have hmem : d ∈ log := by rw [heq]; simp
    rw [Delivery.byteAt] at hd
    split at hd
    · next hle => rw [hb, (hlog d hmem).byte hle hd]
    · cases hd
  constructor
  · -- the last byte of the piece is one of the stream
    have hlast := hbyte (pieceLength - 1) (by omega)
    have hlt : k * pieceLength + (pieceLength - 1) < wire.length := by
      by_contra hge
      rw [List.getElem?_eq_none (Nat.le_of_not_lt hge), List.getElem?_eq_none_iff,
        A.length] at hlast
      omega
    rw [Nat.lt_iff_add_one_le, Nat.le_div_iff_mul_le hpos, Nat.succ_mul]
    omega
  · refine List.ext_getElem? fun o => ?_
    rw [List.getElem?_take]
    split
    · next ho => rw [hbyte o ho, List.getElem?_drop]
    · next ho => exact List.getElem?_eq_none (by rw [A.length]; omega)

/-! ### Receivers -/

/-- The piece of the stream at an index. -/
def pieceAt (r₀ : PieceReassembler) (wire : Bytes) (i : Nat) : Bytes :=
  (wire.drop ((i - r₀.nextEmit) * r₀.pieceLength)).take r₀.pieceLength

/-- A receiver that was handed slices of the stream only. -/
structure Receiving (auth : LiveAuth) (r₀ : PieceReassembler) (wire : Bytes) (chunkLength : Nat)
    (s : Logged) : Prop where
  inv : Logged.Inv auth s
  limits : SameLimits r₀ s.reasm
  le_cursor : r₀.nextEmit ≤ s.reasm.nextEmit
  cursor_le : s.reasm.nextEmit ≤ r₀.nextEmit + wire.length / r₀.pieceLength
  slice : ∀ i, ∀ d ∈ s.log i, r₀.nextEmit ≤ i ∧
    Slice wire r₀.pieceLength chunkLength (i - r₀.nextEmit) d.start d.block

theorem Receiving.complete (R : Receiving auth r₀ wire chunkLength s) (hpos : 0 < r₀.pieceLength)
    {done : Complete} (h : s.reasm.complete.get? i = some done) :
    r₀.nextEmit ≤ i ∧ i < r₀.nextEmit + wire.length / r₀.pieceLength ∧
      done.buf = pieceAt r₀ wire i := by
  have hat := R.inv.tracks i (R.inv.inv.complete_window h).1
  rw [h, R.limits.pieceLength] at hat
  generalize s.reasm.partials.get? i = p at hat
  cases hat with
  | complete A hfull hne =>
    obtain ⟨d, hd⟩ := List.exists_mem_of_ne_nil _ hne
    have hle := (R.slice i d hd).1
    obtain ⟨hlt, hbuf⟩ := A.eq_piece hpos (fun d hd => (R.slice i d hd).2) hfull
    exact ⟨hle, by omega, hbuf⟩

/-- A drain emits pieces of the stream, and moves the cursor past them. -/
theorem Receiving.drained (R : Receiving auth r₀ wire chunkLength s) (hpos : 0 < r₀.pieceLength)
    (hop : ∀ piece, op ≠ .skipTo piece) :
    s.reasm.drained op =
        (List.range' s.reasm.nextEmit ((step auth s.reasm op).nextEmit - s.reasm.nextEmit)).map
          (fun i => ⟨i, r₀.media (pieceAt r₀ wire i)⟩) ∧
      s.reasm.nextEmit ≤ (step auth s.reasm op).nextEmit ∧
      (step auth s.reasm op).nextEmit ≤ r₀.nextEmit + wire.length / r₀.pieceLength := by
  have D := R.inv.inv.drain_step hop
  have hpiece : ∀ piece ∈ s.reasm.drained op,
      piece = ⟨piece.index, r₀.media (pieceAt r₀ wire piece.index)⟩ ∧
        piece.index < r₀.nextEmit + wire.length / r₀.pieceLength := by
    intro piece hp
    obtain ⟨done, hdone, hbytes⟩ := R.inv.inv.mem_drained hp
    obtain ⟨-, hlt, hbuf⟩ := R.complete hpos hdone
    refine ⟨?_, hlt⟩
    rw [← hbuf, media, ← R.limits.pieceTrailer]
    exact congrArg (ReadyPiece.mk piece.index) hbytes
  have hcursor := D.cursor
  refine ⟨?_, by omega, ?_⟩
  · rw [hcursor, Nat.add_sub_cancel_left, ← D.index, List.map_map]
    conv_lhs => rw [← List.map_id (s.reasm.drained op)]
    exact List.map_congr_left fun piece hp => (hpiece piece hp).1
  · rw [hcursor]
    rcases Nat.eq_zero_or_pos (s.reasm.drained op).length with hz | hz
    · rw [hz]; exact R.cursor_le
    · -- the last piece drained is one of the stream
      have hlast : s.reasm.nextEmit + ((s.reasm.drained op).length - 1) ∈
          (s.reasm.drained op).map (·.index) := by
        rw [D.index, List.mem_range']
        exact ⟨(s.reasm.drained op).length - 1, by omega, by omega⟩
      obtain ⟨piece, hp, hindex⟩ := List.mem_map.mp hlast
      have := (hpiece piece hp).2
      omega

/-! ### What is handed over is kept -/

/-- A block of the piece at that start was written, or the piece needs none any more. -/
def Kept (s : Logged) (i start : Nat) : Prop :=
  s.reasm.settled i = true ∨ ∃ d ∈ s.log i, d.start = start

theorem addBlockWithContribution_admitted {index start : Nat} (h : r.Admitted index start block)
    (hmax : start + block.length ≤ u64Max) :
    addBlockWithContribution auth r index start block = store auth r index start block := by
  have hahead := h.ahead
  have hfits := h.fits
  simp only [addBlockWithContribution, h.unsettled, Bool.false_eq_true, if_false,
    checkedAdd_eq_some.mpr ⟨hmax, rfl⟩]
  rw [if_neg (by omega), if_neg (by omega)]

theorem store_ok {index start : Nat}
    (h : r.pieceLength ≤ (r.written index start block).filled →
      authenticate auth r (r.written index start block).buf = .ok ()) :
    (store auth r index start block).1 = .ok (!block.isEmpty) := by
  by_cases hfull : r.pieceLength ≤ (r.written index start block).filled
  · simp only [store, if_pos hfull, h hfull]
  · simp only [store, if_neg hfull]

theorem exec_error?_eq_none (hd : op.delivery? = some (index, d))
    (hmax : d.start + d.block.length ≤ u64Max)
    (h : r.settled index = false → r.Admitted index d.start d.block ∧
      (r.pieceLength ≤ (r.written index d.start d.block).filled →
        authenticate auth r (r.written index d.start d.block).buf = .ok ())) :
    (exec auth r op).1.error? = none := by
  have hok : ∃ contributed,
      (addBlockWithContribution auth r index d.start d.block).1 = .ok contributed := by
    cases hs : r.settled index with
    | true => exact ⟨false, by simp [addBlockWithContribution, hs]⟩
    | false =>
      obtain ⟨hadm, hauth⟩ := h hs
      exact ⟨_, by rw [addBlockWithContribution_admitted hadm hmax, store_ok hauth]⟩
  obtain ⟨contributed, hok⟩ := hok
  cases op with
  | addBlock | addBlockWithContribution =>
    cases hd
    simp only [exec, addBlock, Prod.map, Reply.error?, hok]
    rfl
  | addLiveChunk index' chunk chunkLength header block =>
    cases hd
    simp only [exec, Prod.map, Reply.error?, addLiveChunk]
    split
    · rfl
    · rw [checkedMul_eq_some.mpr ⟨Nat.le_trans (Nat.le_add_right ..) hmax, rfl⟩]
      dsimp only
      split
      · next heq => rw [heq] at hok; cases hok
      · rfl
  | _ => cases hd

theorem Logged.step_log (hd : op.delivery? = some (index, d))
    (he : (exec auth s.reasm op).1.error? = none) :
    (s.step auth op).log =
      if s.reasm.settled index then s.log
      else Function.update s.log index (d :: s.log index) := by
  simp only [Logged.step, record, hd, he, note]

theorem settled_advance (h : r.settled i = true) : r.advance.settled i = true := by
  simp only [settled, advance, Bool.or_eq_true, decide_eq_true_eq] at h ⊢
  by_cases hi : i ≤ r.nextEmit
  · exact .inl (decide_eq_true (by omega))
  · rw [OrderedMap.contains, OrderedMap.get?_erase_of_ne _ (by omega)]
    exact h.imp (fun h => decide_eq_true (by omega)) id

theorem settled_addBlock {index start i : Nat} {reply} {r' : PieceReassembler}
    (h : AddBlock auth r index start block reply r') (hs : r.settled i = true) :
    r'.settled i = true := by
  cases h with
  | completed =>
    simp only [settled, Bool.or_eq_true] at hs ⊢
    refine hs.imp id fun hc => ?_
    rw [OrderedMap.contains, OrderedMap.get?_insert]
    split
    · rfl
    · exact hc
  | _ => exact hs

theorem settled_addLiveChunk {index chunk chunkLength i : Nat} {header : Header} {reply}
    {r' : PieceReassembler} (h : AddLiveChunk auth r index chunk chunkLength header block reply r')
    (hs : r.settled i = true) : r'.settled i = true := by
  cases h with
  | settled | overflow => exact hs
  | failed _ hadd => exact settled_addBlock hadd hs
  | added _ hadd =>
    have hs' := settled_addBlock hadd hs
    rwa [settled, setLive_nextEmit, setLive_contains]

theorem Inv.settled_takeReadyLoop (fuel : Nat) (H : Inv auth r) (h : r.settled i = true) :
    (takeReadyLoop fuel r).2.settled i = true := by
  induction fuel generalizing r with
  | zero => exact h
  | succ fuel ih =>
    cases hdone : r.complete.get? r.nextEmit with
    | none => simpa [takeReadyLoop, hdone] using h
    | some done =>
      rw [H.takeReadyLoop_succ fuel hdone]
      exact ih (H.advance hdone) (settled_advance h)

/-- A settled piece stays settled. -/
theorem Inv.settled_step (H : Inv auth r) (h : r.settled i = true)
    (hskip : ∀ piece, op ≠ .skipTo piece) : (PieceReassembler.step auth r op).settled i = true := by
  cases op with
  | addBlock index start block | addBlockWithContribution index start block =>
    exact settled_addBlock (addBlockWithContribution_spec auth r index start block) h
  | addLiveChunk index chunk chunkLength header block =>
    exact settled_addLiveChunk (addLiveChunk_spec auth r index chunk chunkLength header block) h
  | discardPartial | readyPiece => exact h
  | takeReadyPiece =>
    cases hdone : r.complete.get? r.nextEmit with
    | none => simpa [PieceReassembler.step, exec, takeReadyPiece_none hdone] using h
    | some done =>
      simp only [PieceReassembler.step, exec, H.takeReadyPiece_some hdone]
      exact settled_advance h
  | takeReady => exact H.settled_takeReadyLoop _ h
  | skipTo piece => exact absurd rfl (hskip piece)

/-! ### Runs of a receiver -/

variable {chunks : List OutChunk}

/-- What a receiving step is: it leaves the logs alone, or hands over a slice of the stream. -/
theorem receives_cases (hchunks : StreamChunks wire r₀.pieceLength chunkLength r₀.nextEmit chunks)
    (h : Receives chunks r op) :
    (op.delivery? = none ∧ ∀ s : Logged, (s.step auth op).log = s.log) ∨
      ∃ index d, op.delivery? = some (index, d) ∧ r₀.nextEmit ≤ index ∧
        index < saturatingAdd r.nextEmit r.maxAhead ∧
        Slice wire r₀.pieceLength chunkLength (index - r₀.nextEmit) d.start d.block := by
  cases op with
  | takeReady | takeReadyPiece | readyPiece => exact .inl ⟨rfl, fun _ => rfl⟩
  | addBlock | addBlockWithContribution | addLiveChunk =>
    obtain ⟨c, hc, ⟨hpiece, hstart, hblock⟩, hahead⟩ := h
    obtain ⟨k, hk, hslice⟩ := hchunks.slice c hc
    refine .inr ⟨_, _, rfl, by omega, by rwa [hpiece], ?_⟩
    rw [hpiece, hk, Nat.add_sub_cancel_left, hstart, hblock]
    exact hslice
  | discardPartial | skipTo =>
    obtain ⟨_, _, hfalse, _⟩ := h
    exact hfalse.elim

theorem Receives.ne_skipTo (h : Receives chunks r op) (piece : Nat) : op ≠ .skipTo piece := by
  rintro rfl
  obtain ⟨_, _, hfalse, _⟩ := h
  exact hfalse

/-- What a source of the pieces that a receiver waits for guarantees: its chunks are those of the
stream, and each whole piece of it passes the receiver's key. -/
structure Source (auth : LiveAuth) (r₀ : PieceReassembler) (wire : Bytes) (chunkLength : Nat)
    (chunks : List OutChunk) : Prop where
  pos : 0 < chunkLength
  dvd : chunkLength ∣ r₀.pieceLength
  piece_pos : 0 < r₀.pieceLength
  piece_le : r₀.pieceLength ≤ u64Max
  chunked : StreamChunks wire r₀.pieceLength chunkLength r₀.nextEmit chunks
  authentic : ∀ k < wire.length / r₀.pieceLength,
    authenticate auth r₀ ((wire.drop (k * r₀.pieceLength)).take r₀.pieceLength) = .ok ()

/-- A slice that is handed over is answered without an error. -/
theorem Receiving.error_none (R : Receiving auth r₀ wire chunkLength s)
    (S : Source auth r₀ wire chunkLength chunks) (hd : op.delivery? = some (index, d))
    (hahead : index < saturatingAdd s.reasm.nextEmit s.reasm.maxAhead)
    (hslice : Slice wire r₀.pieceLength chunkLength (index - r₀.nextEmit) d.start d.block) :
    (exec auth s.reasm op).1.error? = none := by
  have hmax := S.piece_le
  have hfits := hslice.fits
  rw [← hslice.length] at hfits
  refine exec_error?_eq_none hd (by omega) fun hs => ?_
  have hadm : s.reasm.Admitted index d.start d.block :=
    ⟨hs, hahead, by rw [R.limits.pieceLength]; exact hfits⟩
  refine ⟨hadm, fun hfull => ?_⟩
  -- the full buffer is a piece of the stream
  obtain ⟨A, -, hfilled⟩ := R.inv.tracks.written hadm
  rw [R.limits.pieceLength] at A hfull
  obtain ⟨hlt, hbuf⟩ := A.eq_piece S.piece_pos (List.forall_mem_cons.mpr
    ⟨hslice, fun d hd => (R.slice index d hd).2⟩) (hfilled ▸ hfull)
  rw [authenticate_congr R.limits.verifyPubkey R.limits.pieceTrailer, hbuf]
  exact S.authentic _ hlt

theorem Receiving.step (R : Receiving auth r₀ wire chunkLength s)
    (S : Source auth r₀ wire chunkLength chunks) (hop : Receives chunks s.reasm op) :
    Receiving auth r₀ wire chunkLength (s.step auth op) ∧
      (∀ i start, Kept s i start → Kept (s.step auth op) i start) ∧
      ∀ c, op.carries c → Kept (s.step auth op) c.piece c.begin := by
  have hsettled : ∀ {i}, s.reasm.settled i = true → (s.step auth op).reasm.settled i = true :=
    fun h => R.inv.inv.settled_step h hop.ne_skipTo
  obtain ⟨-, hge, hle⟩ := R.drained (S.piece_pos) hop.ne_skipTo
  have hlimits := R.limits.trans (R.inv.inv.sameLimits_step op)
  rcases receives_cases S.chunked hop with ⟨hnone, hlog⟩ | ⟨index, d, hd, hfirst, hahead, hslice⟩
  · refine ⟨⟨R.inv.step op, hlimits, Nat.le_trans R.le_cursor hge, hle, ?_⟩, ?_, ?_⟩
    · rw [hlog]; exact R.slice
    · rintro i start (h | h)
      · exact .inl (hsettled h)
      · exact .inr (by rwa [hlog])
    · intro c hc
      rw [Op.carries, hnone] at hc
      exact hc.elim
  · have herr := R.error_none S hd hahead hslice
    have hlog := Logged.step_log hd herr
    have hmem : ∀ i, ∀ d' ∈ (s.step auth op).log i, d' ∈ s.log i ∨ i = index ∧ d' = d := by
      intro i d' hd'
      rw [hlog] at hd'
      split at hd'
      · exact .inl hd'
      · by_cases hi : i = index
        · subst hi
          rw [Function.update_self] at hd'
          exact (List.mem_cons.mp hd').symm.imp id fun h => ⟨rfl, h⟩
        · rw [Function.update_of_ne hi] at hd'
          exact .inl hd'
    have hkeep : ∀ i, ∀ d' ∈ s.log i, d' ∈ (s.step auth op).log i := by
      intro i d' hd'
      rw [hlog]
      split
      · exact hd'
      · by_cases hi : i = index
        · subst hi
          rw [Function.update_self]
          exact List.mem_cons_of_mem _ hd'
        · rwa [Function.update_of_ne hi]
    refine ⟨⟨R.inv.step op, hlimits, Nat.le_trans R.le_cursor hge, hle, ?_⟩, ?_, ?_⟩
    · intro i d' hd'
      rcases hmem i d' hd' with h | ⟨rfl, rfl⟩
      · exact R.slice i d' h
      · exact ⟨hfirst, hslice⟩
    · rintro i start (h | ⟨d', hd', hstart⟩)
      · exact .inl (hsettled h)
      · exact .inr ⟨d', hkeep i d' hd', hstart⟩
    · intro c hc
      rw [Op.carries, hd] at hc
      obtain ⟨hpiece, hstart, -⟩ := hc
      rw [← hpiece]
      cases hs : s.reasm.settled index with
      | true => exact .inl (hsettled hs)
      | false =>
        refine .inr ⟨d, ?_, hstart⟩
        rw [hlog, hs, if_neg (by simp), Function.update_self]
        exact List.mem_cons_self

theorem range'_append_range' {a b c : Nat} (hab : a ≤ b) (hbc : b ≤ c) :
    List.range' a (b - a) ++ List.range' b (c - b) = List.range' a (c - a) := by
  conv_lhs => rw [show b = a + (b - a) by omega]
  rw [Nat.add_sub_cancel_left, List.range'_append_1]
  congr 1
  omega

theorem Receiving.run (R : Receiving auth r₀ wire chunkLength s)
    (S : Source auth r₀ wire chunkLength chunks) {ops : List Op}
    (hops : Meets (PieceReassembler.step auth) (Receives chunks) s.reasm ops) :
    let s' := Outpace.run (Logged.step auth) s ops
    Receiving auth r₀ wire chunkLength s' ∧
      (∀ i start, Kept s i start → Kept s' i start) ∧
      (∀ op ∈ ops, ∀ c, op.carries c → Kept s' c.piece c.begin) ∧
      s.reasm.nextEmit ≤ s'.reasm.nextEmit ∧
      emits (PieceReassembler.step auth) PieceReassembler.drained s.reasm ops =
        (List.range' s.reasm.nextEmit (s'.reasm.nextEmit - s.reasm.nextEmit)).map
          (fun i => ⟨i, r₀.media (pieceAt r₀ wire i)⟩) := by
  induction ops generalizing s with
  | nil => exact ⟨R, fun _ _ h => h, by simp, Nat.le_refl _, by simp⟩
  | cons op ops ih =>
    obtain ⟨hop, hrest⟩ := hops
    obtain ⟨R', hkeep, hcarry⟩ := R.step S hop
    obtain ⟨hdrained, hle, -⟩ := R.drained S.piece_pos hop.ne_skipTo
    obtain ⟨R'', hkeep', hcarry', hle', hemits⟩ := ih R' hrest
    refine ⟨R'', fun i start h => hkeep' i start (hkeep i start h), ?_, Nat.le_trans hle hle', ?_⟩
    · intro op' hop' c hc
      rcases List.mem_cons.mp hop' with rfl | hop'
      · exact hkeep' _ _ (hcarry c hc)
      · exact hcarry' op' hop' c hc
    · rw [emits_cons, hdrained]
      refine (congrArg _ hemits).trans ?_
      rw [← List.map_append]
      exact congrArg _ (range'_append_range' hle hle')

theorem Inv.takeReadyLoop_stops (fuel : Nat) (H : Inv auth r) (h : r.complete.size ≤ fuel) :
    (takeReadyLoop fuel r).2.complete.get? (takeReadyLoop fuel r).2.nextEmit = none := by
  induction fuel generalizing r with
  | zero =>
    by_contra hne
    obtain ⟨done, hdone⟩ := Option.ne_none_iff_exists'.mp hne
    have := OrderedMap.size_erase_lt hdone
    have : r.complete.size = 0 := Nat.le_zero.mp h
    simp only [takeReadyLoop] at *
    omega
  | succ fuel ih =>
    cases hdone : r.complete.get? r.nextEmit with
    | none => simp [takeReadyLoop, hdone]
    | some done =>
      have := OrderedMap.size_erase_lt hdone
      rw [H.takeReadyLoop_succ fuel hdone]
      exact ih (H.advance hdone) (show (r.complete.erase r.nextEmit).size ≤ fuel by omega)

theorem Receiving.contains_of_kept (R : Receiving auth r₀ wire chunkLength s)
    (S : Source auth r₀ wire chunkLength chunks) (hi : s.reasm.nextEmit ≤ i)
    (hkept : ∀ m < r₀.pieceLength / chunkLength, Kept s i (m * chunkLength)) :
    s.reasm.complete.contains i = true := by
  cases hs : s.reasm.settled i with
  | true =>
    simp only [settled, Bool.or_eq_true, decide_eq_true_eq] at hs
    exact hs.resolve_left (by omega)
  | false =>
    have hat := R.inv.tracks i hi
    rw [R.limits.pieceLength] at hat
    have htidy : Tidy (s.log i) :=
      tidy_of_aligned fun d hd => ⟨(R.slice i d hd).2.dvd, (R.slice i d hd).2.length⟩
    refine OrderedMap.contains_iff.mpr (hat.complete_of_covered htidy S.piece_pos fun o =>
      covered_of_chunks S.pos S.dvd fun m hm => ?_)
    rcases hkept m hm with h | ⟨d, hd, hstart⟩
    · rw [hs] at h; cases h
    · exact ⟨d, hd, hstart, (R.slice i d hd).2.length⟩

/-- A receiver that was handed every chunk of a stream has emitted its whole pieces, in order, once
it drains. -/
theorem Source.reassembles (S : Source auth r₀ wire chunkLength chunks) (hunused : Unused r₀)
    {ops : List Op} (hdelivers : DeliversAll auth r₀ chunks ops) :
    emits (step auth) drained r₀ (ops ++ [.takeReady]) =
      (blocks r₀.pieceLength wire).mapIdx fun k piece => ⟨r₀.nextEmit + k, r₀.media piece⟩ := by
  obtain ⟨hops, hall⟩ := hdelivers
  have R₀ : Receiving auth r₀ wire chunkLength (Logged.start r₀) :=
    ⟨.start hunused, .rfl, Nat.le_refl _, Nat.le_add_right .., fun i d hd => nomatch hd⟩
  have hops' : Meets (step auth) (Receives chunks) (Logged.start r₀).reasm (ops ++ [.takeReady]) :=
    meets_append.mpr ⟨hops, trivial, trivial⟩
  obtain ⟨R₁, -⟩ := R₀.run S hops
  obtain ⟨R, -, hcarry, -, hemits⟩ := R₀.run S hops'
  have hstop := R₁.inv.inv.takeReadyLoop_stops _ (Nat.le_refl _)
  have hlast : (run (Logged.step auth) (Logged.start r₀) (ops ++ [.takeReady])).reasm =
      (takeReadyPieces (run (Logged.step auth) (Logged.start r₀) ops).reasm).2 := by
    rw [run_append]; rfl
  rw [takeReadyPieces] at hlast
  rw [← hlast] at hstop
  generalize run (Logged.step auth) (Logged.start r₀) (ops ++ [.takeReady]) = s at *
  have hcursor : s.reasm.nextEmit = r₀.nextEmit + wire.length / r₀.pieceLength := by
    have hle := R.cursor_le
    have hge := R.le_cursor
    by_contra hne
    -- the piece at the cursor was handed over in full
    have hkept : ∀ m < r₀.pieceLength / chunkLength,
        Kept s s.reasm.nextEmit (m * chunkLength) := by
      intro m hm
      obtain ⟨c, hc, hpiece, hstart⟩ :=
        S.chunked.all (s.reasm.nextEmit - r₀.nextEmit) (by omega) m hm
      obtain ⟨op, hop, hcarries⟩ := hall c hc
      have := hcarry op (List.mem_append_left _ hop) c hcarries
      rwa [hpiece, hstart, Nat.add_sub_cancel' hge] at this
    have hcontains := R.contains_of_kept S (Nat.le_refl _) hkept
    rw [OrderedMap.contains, hstop] at hcontains
    cases hcontains
  have hstart : (Logged.start r₀).reasm = r₀ := rfl
  rw [hstart, hcursor, Nat.add_sub_cancel_left] at hemits
  rw [hemits]
  refine List.ext_getElem? fun k => ?_
  rw [List.getElem?_map, List.getElem?_mapIdx]
  by_cases hk : k < wire.length / r₀.pieceLength
  · rw [List.getElem?_range' hk, getElem?_blocks hk]
    simp [pieceAt]
  · rw [List.getElem?_eq_none (by simpa using hk), List.getElem?_eq_none (by simpa using hk)]
    rfl

/-! ### The chunks of a source -/

theorem slice_of_block {n : Nat} (hpos : 0 < pieceLength) (hdvd : chunkLength ∣ pieceLength)
    (hn : n < wire.length / chunkLength) :
    Slice wire pieceLength chunkLength (n * chunkLength / pieceLength)
      (n * chunkLength % pieceLength) ((wire.drop (n * chunkLength)).take chunkLength) := by
  have hlt := Nat.mod_lt (n * chunkLength) hpos
  have hstart : chunkLength ∣ n * chunkLength % pieceLength :=
    (Nat.dvd_mod_iff hdvd).mpr (Nat.dvd_mul_left ..)
  refine ⟨hstart, length_of_mem_blocks (mem_blocks.mpr ⟨n, hn, rfl⟩), ?_, ?_⟩
  · -- two multiples of the chunk length differ by at least one chunk
    obtain ⟨a, ha⟩ := hstart
    obtain ⟨b, hb⟩ := hdvd
    rw [ha] at hlt ⊢
    rw [hb] at hlt ⊢
    have hab : a < b := Nat.lt_of_mul_lt_mul_left hlt
    calc chunkLength * a + chunkLength = chunkLength * (a + 1) := (Nat.mul_succ ..).symm
      _ ≤ chunkLength * b := Nat.mul_le_mul_left _ hab
  · rw [Nat.div_add_mod']

/-- No index of a chunk wraps as long as all of them stay below the largest one. -/
theorem index_le {first n : Nat} (hle : chunkLength ≤ pieceLength) (hpos : 0 < pieceLength)
    (hfirst : first ≤ u64Max)
    (h : ∀ m ≤ n, wrappingAdd first (m * chunkLength / pieceLength) < u64Max) :
    first + n * chunkLength / pieceLength ≤ u64Max := by
  induction n with
  | zero => simpa using hfirst
  | succ n ih =>
    have hprev := ih fun m hm => h m (Nat.le_succ_of_le hm)
    have hlt := h n (Nat.le_succ n)
    rw [wrappingAdd_eq hprev] at hlt
    have hstep : (n + 1) * chunkLength / pieceLength ≤ n * chunkLength / pieceLength + 1 := by
      rw [← Nat.add_div_right _ hpos, Nat.succ_mul]
      exact Nat.div_le_div_right (by omega)
    omega

theorem mem_addressed {c : TsChunker} (out : OutChunk) (wire : Bytes) :
    out ∈ c.addressed 0 (blocks c.chunkLength wire) ↔
      ∃ n < wire.length / c.chunkLength, out =
        c.address (n * c.chunkLength) ((wire.drop (n * c.chunkLength)).take c.chunkLength) := by
  simp only [TsChunker.addressed, List.mem_mapIdx, Nat.zero_add, length_blocks, getElem_blocks,
    exists_prop, eq_comm]

/-- The chunks of a chunker are those of its stream, as long as none of them gets the largest
index. -/
theorem streamChunks_addressed {first : Nat} (hpos : 0 < chunkLength) (hpiece : 0 < pieceLength)
    (hdvd : chunkLength ∣ pieceLength) (hfirst : first ≤ u64Max)
    (hindex : ∀ out ∈ (TsChunker.new pieceLength chunkLength first).addressed 0
      (blocks chunkLength wire), out.piece < u64Max) :
    StreamChunks wire pieceLength chunkLength first
      ((TsChunker.new pieceLength chunkLength first).addressed 0 (blocks chunkLength wire)) := by
  have hmem := fun out => mem_addressed (c := .new pieceLength chunkLength first) out wire
  have hle : chunkLength ≤ pieceLength := Nat.le_of_dvd hpiece hdvd
  have hwrap : ∀ n < wire.length / chunkLength,
      wrappingAdd first (n * chunkLength / pieceLength) = first + n * chunkLength / pieceLength := by
    intro n hn
    refine wrappingAdd_eq (index_le hle hpiece hfirst fun m hm => ?_)
    exact hindex _ ((hmem _).mpr ⟨m, Nat.lt_of_le_of_lt hm hn, rfl⟩)
  constructor
  · intro out hout
    obtain ⟨n, hn, rfl⟩ := (hmem out).mp hout
    exact ⟨n * chunkLength / pieceLength, hwrap n hn, slice_of_block hpiece hdvd hn⟩
  · intro k hk m hm
    obtain ⟨q, hq⟩ := hdvd
    have hm : m < q := by rwa [hq, Nat.mul_div_cancel_left q hpos] at hm
    have hsum : (k * q + m) * chunkLength = m * chunkLength + pieceLength * k := by
      rw [hq, Nat.add_mul, Nat.mul_comm chunkLength q, Nat.mul_comm k q, Nat.mul_right_comm,
        Nat.add_comm]
    have hend : m * chunkLength + chunkLength ≤ pieceLength := by
      rw [← Nat.succ_mul, hq, Nat.mul_comm chunkLength]
      exact Nat.mul_le_mul_right _ hm
    have hlt : m * chunkLength < pieceLength := by omega
    have hn : k * q + m < wire.length / chunkLength := by
      have := le_of_lt_blocks hk
      rw [Nat.lt_iff_add_one_le, Nat.le_div_iff_mul_le hpos, Nat.succ_mul, hsum]
      lia
    refine ⟨_, (hmem _).mpr ⟨k * q + m, hn, rfl⟩, ?_, ?_⟩
    · show wrappingAdd first ((k * q + m) * chunkLength / pieceLength) = first + k
      rw [hwrap _ hn, hsum, Nat.add_mul_div_left _ _ hpiece, Nat.div_eq_of_lt hlt, Nat.zero_add]
    · show (k * q + m) * chunkLength % pieceLength = m * chunkLength
      rw [hsum, Nat.add_mul_mod_self_left, Nat.mod_eq_of_lt hlt]

/-- The largest index is always out of reach. -/
theorem DeliversAll.index_lt {ops : List Op} (h : DeliversAll auth r chunks ops) {c : OutChunk}
    (hc : c ∈ chunks) : c.piece < u64Max := by
  obtain ⟨hops, hall⟩ := h
  obtain ⟨op, hop, hcarries⟩ := hall c hc
  obtain ⟨r', hr'⟩ := hops.exists_of_mem hop
  have hmax := saturatingAdd_le_max r'.nextEmit r'.maxAhead
  cases op with
  | addBlock | addBlockWithContribution | addLiveChunk =>
    obtain ⟨c', -, hcarries', hlt⟩ := hr'
    have : c'.piece = c.piece := hcarries'.1.symm.trans hcarries.1
    omega
  | _ => exact hcarries.elim

/-- A receiver of the chunks that a chunker cuts from a wire stream emits the pieces of the
stream. -/
theorem reassembles_chunks (hpos : 0 < chunkLength) (hpiece : 0 < r₀.pieceLength)
    (hdvd : chunkLength ∣ r₀.pieceLength) (hmax : r₀.pieceLength ≤ u64Max)
    (hfirst : r₀.nextEmit ≤ u64Max) (hunused : Unused r₀) {parts : List Bytes}
    (hlen : parts.flatten.length ≤ u64Max)
    (hauth : ∀ piece ∈ blocks r₀.pieceLength parts.flatten, authenticate auth r₀ piece = .ok ())
    {ops : List Op} (h : DeliversAll auth r₀
      ((TsChunker.new r₀.pieceLength chunkLength r₀.nextEmit).chunks parts) ops) :
    emits (step auth) drained r₀ (ops ++ [.takeReady]) =
      (blocks r₀.pieceLength parts.flatten).mapIdx
        fun k piece => ⟨r₀.nextEmit + k, r₀.media piece⟩ := by
  rw [TsChunker.chunks_eq hpos hlen] at h
  refine Source.reassembles ⟨hpos, hdvd, hpiece, hmax,
    streamChunks_addressed hpos hpiece hdvd hfirst fun c hc => h.index_lt hc, fun k hk => ?_⟩
    hunused h
  exact hauth _ (mem_blocks.mpr ⟨k, hk, rfl⟩)

theorem splitPiece_sealed {source : LiveSourceAuth} (hsource : source.Lawful auth)
    (payload : Bytes) :
    splitPiece (SigningChunker.sealed source payload) source.signatureLen =
      some (payload, source.sign payload) := by
  have hlen : (SigningChunker.sealed source payload).length =
      payload.length + source.signatureLen := by
    rw [SigningChunker.sealed, List.length_append, hsource.length_sign]
  rw [splitPiece, hlen, if_neg (by omega), Nat.add_sub_cancel, List.splitAt_eq,
    SigningChunker.sealed, List.take_left' rfl, List.drop_left' rfl]

/-- Chunking and reassembly are inverse. Whatever the cuts into pushes and the order of delivery, a
receiver that starts at the same piece emits the whole pieces of the stream, in order; and with the
source's key it emits the media bytes of the full pieces of a signing source. -/
theorem chunking_reassembly_inverse (auth : LiveAuth)
    (pieceLength chunkLength startPiece maxAhead : Nat) (hpos : 0 < chunkLength)
    (hpiece : 0 < pieceLength) (hdvd : chunkLength ∣ pieceLength) (hmax : pieceLength ≤ u64Max)
    (hstart : startPiece ≤ u64Max) (parts : List Bytes) (ops : List Op) :
    (parts.flatten.length ≤ u64Max →
      DeliversAll auth ((new pieceLength startPiece).withMaxPiecesAhead maxAhead)
        ((TsChunker.new pieceLength chunkLength startPiece).chunks parts) ops →
      emits (step auth) drained ((new pieceLength startPiece).withMaxPiecesAhead maxAhead)
          (ops ++ [.takeReady]) =
        (blocks pieceLength parts.flatten).mapIdx fun k piece => ⟨startPiece + k, piece⟩) ∧
    ∀ source : LiveSourceAuth, source.Lawful auth → source.signatureLen < pieceLength →
      parts.flatten.length / (pieceLength - source.signatureLen) * pieceLength ≤ u64Max →
      DeliversAll auth (((new pieceLength startPiece).withSourcePubkey auth
          source.pubkeyDer).withMaxPiecesAhead maxAhead)
        (SigningChunker.chunks source
          (.new pieceLength chunkLength startPiece source.signatureLen) parts) ops →
      emits (step auth) drained (((new pieceLength startPiece).withSourcePubkey auth
          source.pubkeyDer).withMaxPiecesAhead maxAhead) (ops ++ [.takeReady]) =
        (blocks (pieceLength - source.signatureLen) parts.flatten).mapIdx
          fun k payload => ⟨startPiece + k, payload⟩ := by
  constructor
  · intro hlen h
    have hmedia : ∀ piece : Bytes,
        ((new pieceLength startPiece).withMaxPiecesAhead maxAhead).media piece = piece :=
      fun piece => List.take_length
    have hrun := @reassembles_chunks auth ((new pieceLength startPiece).withMaxPiecesAhead maxAhead)
      chunkLength hpos hpiece hdvd hmax hstart ⟨Nat.zero_le _, rfl, rfl⟩ _ hlen (fun _ _ => rfl) _ h
    simp only [hmedia] at hrun
    exact hrun
  · intro source hsource hsig hlen h
    have hr : (new pieceLength startPiece).withSourcePubkey auth source.pubkeyDer =
        { new pieceLength startPiece with
          pieceTrailer := source.signatureLen
          verifyPubkey := some source.pubkeyDer } := by
      rw [withSourcePubkey, hsource.signatureLen_pubkeyDer]
      simp only [new, Nat.min_eq_left (Nat.le_of_lt hsig)]
    rw [hr] at h ⊢
    rw [SigningChunker.chunks_eq hsig] at h
    have hsealed : ∀ b ∈ (blocks (pieceLength - source.signatureLen) parts.flatten).map
        (SigningChunker.sealed source), b.length = pieceLength := by
      simp only [List.mem_map, forall_exists_index, and_imp, forall_apply_eq_imp_iff₂]
      intro payload hpayload
      rw [SigningChunker.sealed, List.length_append, length_of_mem_blocks hpayload,
        hsource.length_sign]
      omega
    have hblocks := blocks_flatten hpiece hsealed
    have hrun := reassembles_chunks hpos hpiece hdvd hmax hstart
      ⟨Nat.le_of_lt hsig, rfl, rfl⟩ ?_ ?_ h
    · refine hrun.trans (List.ext_getElem? fun k => ?_)
      rw [show (withMaxPiecesAhead _ maxAhead).pieceLength = pieceLength from rfl, hblocks,
        List.getElem?_mapIdx, List.getElem?_mapIdx, List.getElem?_map]
      cases (blocks (pieceLength - source.signatureLen) parts.flatten)[k]? with
      | none => rfl
      | some payload =>
        exact congrArg (fun bytes => some (ReadyPiece.mk (startPiece + k) bytes))
          (splitPiece_payload (r := withMaxPiecesAhead _ maxAhead)
            (splitPiece_sealed hsource payload)).symm
    · rw [length_flatten_of_forall hsealed, List.length_map, length_blocks]
      exact hlen
    · intro piece hmem
      have hmem : piece ∈ blocks pieceLength ((blocks (pieceLength - source.signatureLen)
          parts.flatten).map (SigningChunker.sealed source)).flatten := hmem
      rw [hblocks] at hmem
      obtain ⟨payload, -, rfl⟩ := List.mem_map.mp hmem
      simp only [authenticate, withMaxPiecesAhead, splitPiece_sealed hsource,
        hsource.verify_sign, if_true]

/-! ### Sample deliveries -/

/-- Two pieces of two chunks and an odd byte: out of order, with repetitions and drains between. -/
def sampleOps : List Op :=
  [.addBlock 6 2 [7, 8], .addLiveChunk 5 1 2 zeroHeader [3, 4], .addBlock 5 2 [3, 4], .takeReady,
    .addBlock 5 0 [1, 2], .takeReadyPiece, .addBlock 6 0 [5, 6], .addBlock 5 0 [1, 2]]

/-- The PKCS#1 v1.5 signatures of two payloads under a 512-bit key. -/
def sampleSignatures : List (Bytes × Bytes) := [
  ([1, 2, 3, 4, 5, 6, 7, 8],
    [31, 136, 40, 125, 242, 104, 211, 133, 50, 91, 58, 19, 213, 100, 68, 142, 216, 133, 50, 118,
    197, 94, 92, 10, 254, 61, 121, 41, 104, 194, 222, 80, 253, 194, 121, 206, 245, 121, 222, 92,
    102, 16, 238, 125, 151, 102, 215, 30, 227, 42, 209, 31, 246, 64, 49, 212, 227, 101, 41, 39,
    27, 2, 186, 88]),
  ([9, 10, 11, 12, 13, 14, 15, 16],
    [189, 211, 35, 207, 69, 79, 219, 25, 222, 57, 189, 45, 221, 166, 54, 101, 31, 35, 253, 72,
    93, 93, 22, 106, 251, 70, 80, 239, 171, 30, 110, 107, 100, 158, 131, 56, 149, 95, 210, 45,
    201, 202, 161, 213, 206, 150, 102, 72, 15, 213, 142, 250, 171, 209, 151, 27, 64, 220, 192,
    115, 147, 38, 20, 193])]

def sampleSource : LiveSourceAuth where
  sign payload := (sampleSignatures.lookup payload).getD (List.replicate 64 0)
  pubkeyDer :=
    [48, 92, 48, 13, 6, 9, 42, 134, 72, 134, 247, 13, 1, 1, 1, 5, 0, 3, 75, 0, 48, 72, 2, 65, 0,
    242, 217, 90, 31, 204, 99, 1, 233, 255, 66, 71, 35, 112, 108, 23, 180, 117, 137, 85, 211,
    103, 209, 94, 25, 176, 137, 125, 239, 109, 21, 77, 80, 209, 160, 28, 56, 129, 126, 171, 173,
    129, 126, 40, 68, 177, 149, 105, 104, 160, 207, 61, 111, 249, 170, 55, 24, 153, 178, 152,
    132, 0, 31, 226, 3, 2, 3, 1, 0, 1]
  signatureLen := 64

/-- Verification under the sample key: PKCS#1 v1.5 accepts the one signature of a payload. -/
def sampleAuth : LiveAuth where
  verifyPiece pubkeyDer payload signature :=
    pubkeyDer == sampleSource.pubkeyDer && signature == sampleSource.sign payload
  signatureLenFromPubkeyDer pubkeyDer :=
    if pubkeyDer = sampleSource.pubkeyDer then some 64 else none

theorem sampleSource_lawful : sampleSource.Lawful sampleAuth where
  length_sign payload := by
    have hall : ∀ e ∈ sampleSignatures, e.2.length = 64 := by decide +kernel
    show ((sampleSignatures.lookup payload).getD (List.replicate 64 0)).length = 64
    cases h : sampleSignatures.lookup payload with
    | none => rw [Option.getD_none, List.length_replicate]
    | some sig =>
      obtain ⟨before, after, heq, -⟩ := List.lookup_eq_some_iff.mp h
      exact hall (payload, sig) (by rw [heq]; simp)
  verify_sign payload := by simp [sampleAuth]
  signatureLen_pubkeyDer := by decide +kernel

/-- The chunks of the two signed pieces, the second piece first. -/
def sampleSignedOps : List Op :=
  ((SigningChunker.chunks sampleSource (.new 72 24 5 64)
    [[1, 2, 3], [4, 5, 6, 7, 8, 9, 10, 11, 12, 13, 14], [15, 16, 17]]).map
      fun c => Op.addBlock c.piece c.begin c.data).reverse

theorem chunking_reassembly_inverse_sample :
    emits (step noKeys) drained ((new 4 5).withMaxPiecesAhead 2) (sampleOps ++ [.takeReady]) =
        [⟨5, [1, 2, 3, 4]⟩, ⟨6, [5, 6, 7, 8]⟩] ∧
      emits (step sampleAuth) drained
          (((new 72 5).withSourcePubkey sampleAuth sampleSource.pubkeyDer).withMaxPiecesAhead 2)
          (sampleSignedOps ++ [.takeReady]) =
        [⟨5, [1, 2, 3, 4, 5, 6, 7, 8]⟩, ⟨6, [9, 10, 11, 12, 13, 14, 15, 16]⟩] := by
  have hplain := (chunking_reassembly_inverse noKeys 4 2 5 2 (by decide) (by decide) (by decide)
    (by decide) (by decide) [[1, 2, 3], [4, 5, 6], [7, 8, 9]] sampleOps).1 (by decide)
    (by decide +kernel)
  have hsigned := (chunking_reassembly_inverse sampleAuth 72 24 5 2 (by decide) (by decide)
    (by decide) (by decide) (by decide)
    [[1, 2, 3], [4, 5, 6, 7, 8, 9, 10, 11, 12, 13, 14], [15, 16, 17]] sampleSignedOps).2
    sampleSource sampleSource_lawful (by decide) (by decide) (by decide +kernel)
  exact ⟨hplain, hsigned⟩

end Outpace.Wire.PieceReassembler

import Outpace.Wire.ReassemblyCoverage

/-!
# What is republished

`completed_live_piece` hands out a wire piece for republication only while its metadata is eligible.
Eligible metadata describes every block of the log, so the log is one of full, aligned chunks under
one header: it is tidy, the full count is full coverage, and the wire bytes are the newest block of
each chunk, one after the other.
-/

namespace Outpace.Wire

namespace Log

/-- The newest block that was sent as a chunk. -/
def newest (log : List Delivery) (chunk : Nat) : Option Bytes :=
  log.findSome? fun d => if d.live.map (·.chunk) = some chunk then some d.block else none

end Log

namespace PieceReassembler
open Log

variable {auth : LiveAuth} {r : PieceReassembler} {pieceLength chunk : Nat} {m : LiveMetadata}
  {log : List Delivery}

/-- Every block of the log is a full chunk under the metadata. -/
def Chunked (pieceLength : Nat) (m : LiveMetadata) (log : List Delivery) : Prop :=
  ∀ d ∈ log, ∃ chunk, FullChunk pieceLength m d chunk

theorem FullChunk.byteAt {d : Delivery} (h : FullChunk pieceLength m d chunk) (o : Nat) :
    d.byteAt o = if o / m.chunkLength = chunk then d.block[o % m.chunkLength]? else none := by
  have hpos := h.pos
  have hdiv := Nat.div_add_mod' o m.chunkLength
  have hmod := Nat.mod_lt o hpos
  unfold Delivery.byteAt
  rw [h.start]
  by_cases hchunk : o / m.chunkLength = chunk
  · subst hchunk
    rw [if_pos rfl, if_pos (by omega)]
    congr 1
    omega
  · rw [if_neg hchunk]
    split
    · next hle =>
      rw [List.getElem?_eq_none_iff, h.length]
      -- past the end of this chunk
      have hlt : chunk < o / m.chunkLength := by
        refine Nat.lt_of_le_of_ne ?_ (Ne.symm hchunk)
        exact (Nat.le_div_iff_mul_le hpos).mpr hle
      have := (Nat.le_div_iff_mul_le hpos).mp hlt
      rw [Nat.succ_mul] at this
      omega
    · rfl

theorem Chunked.byteAt (h : Chunked pieceLength m log) (o : Nat) :
    byteAt log o = (newest log (o / m.chunkLength)).bind (·[o % m.chunkLength]?) := by
  induction log with
  | nil => rfl
  | cons d log ih =>
    obtain ⟨⟨chunk, hd⟩, hlog⟩ := List.forall_mem_cons.mp h
    simp only [Log.byteAt, newest, List.findSome?_cons, hd.byteAt, hd.live, Option.map_some,
      Option.some.injEq]
    by_cases hc : o / m.chunkLength = chunk
    · have hlt : o % m.chunkLength < d.block.length := by
        rw [hd.length]; exact Nat.mod_lt o hd.pos
      simp [hc, List.getElem?_eq_getElem hlt]
    · rw [if_neg hc, if_neg (Ne.symm hc)]
      exact ih hlog

theorem Chunked.newest_length (h : Chunked pieceLength m log) {block : Bytes}
    (hb : newest log chunk = some block) : block.length = m.chunkLength := by
  obtain ⟨_, d, _, rfl, hd, -⟩ := List.findSome?_eq_some_iff.mp hb
  obtain ⟨c, hfull⟩ := h d (by simp)
  split at hd
  · cases hd; exact hfull.length
  · cases hd

theorem Chunked.tidy (h : Chunked pieceLength m log) : Tidy log := by
  refine tidy_of_aligned (n := m.chunkLength) fun d hd => ?_
  obtain ⟨chunk, hfull⟩ := h d hd
  exact ⟨⟨chunk, by rw [hfull.start, Nat.mul_comm]⟩, hfull.length⟩

/-- A covered piece has a block for each of its chunks. -/
theorem Chunked.exists_newest (h : Chunked pieceLength m log)
    (hcov : covered log = Finset.range pieceLength) (hlt : chunk * m.chunkLength < pieceLength)
    (hpos : 0 < m.chunkLength) : ∃ block, newest log chunk = some block := by
  have hsome := byteAt_isSome.mpr (hcov ▸ Finset.mem_range.mpr hlt)
  rw [h.byteAt, Nat.mul_div_cancel _ hpos] at hsome
  cases hn : newest log chunk with
  | none => simp [hn] at hsome
  | some block => exact ⟨block, rfl⟩

/-- The bytes of a covered piece are the newest blocks of its chunks, in order. -/
theorem Chunked.wire_eq {buf : Bytes} (h : Chunked pieceLength m log)
    (A : Assembled pieceLength log buf) (hcov : covered log = Finset.range pieceLength)
    (hpos : 0 < m.chunkLength) (hdvd : m.chunkLength ∣ pieceLength) :
    buf = (List.range (pieceLength / m.chunkLength)).flatMap
      fun k => (newest log k).getD [] := by
  have hlen : buf.length = pieceLength / m.chunkLength * m.chunkLength := by
    rw [A.length, Nat.div_mul_cancel hdvd]
  rw [eq_flatMap_range hlen]
  refine List.flatMap_congr fun k hk => ?_
  have hk : (k + 1) * m.chunkLength ≤ pieceLength :=
    (Nat.le_div_iff_mul_le hpos).mp (List.mem_range.mp hk)
  rw [Nat.succ_mul] at hk
  have hlt : k * m.chunkLength < pieceLength := by omega
  obtain ⟨block, hblock⟩ := h.exists_newest hcov hlt hpos
  have hblen := h.newest_length hblock
  rw [hblock, Option.getD_some]
  refine List.ext_getElem? fun j => ?_
  rw [List.getElem?_take, List.getElem?_drop]
  split
  · next hj =>
    -- byte `j` of chunk `k` is the byte at offset `k * chunkLength + j`
    have hdiv : (k * m.chunkLength + j) / m.chunkLength = k := by
      rw [Nat.mul_comm, Nat.mul_add_div hpos, Nat.div_eq_of_lt hj, Nat.add_zero]
    have hmod : (k * m.chunkLength + j) % m.chunkLength = j := by
      rw [Nat.mul_comm, Nat.mul_add_mod, Nat.mod_eq_of_lt hj]
    rw [A.byte _ (by omega), h.byteAt, hdiv, hmod, hblock, Option.bind_some,
      List.getElem?_eq_getElem (by omega), Option.getD_some]
  · next hj => rw [List.getElem?_eq_none (by omega)]

theorem completedLivePiece_eq_some {i : Nat} {piece : CompletedLivePiece}
    (h : r.completedLivePiece i = some piece) :
    ∃ done m, r.complete.get? i = some done ∧ done.live = some m ∧ m.eligible = true ∧
      piece.wire = done.buf ∧ piece.header = m.header ∧
      (piece.acceptance = .sourceVerified → ∃ pubkey, r.verifyPubkey = some pubkey) := by
  simp only [completedLivePiece, Option.bind_eq_bind, Option.bind_eq_some_iff,
    Option.filter_eq_some_iff, Option.some.injEq] at h
  obtain ⟨done, hdone, m, ⟨hm, he⟩, rfl⟩ := h
  refine ⟨done, m, hdone, hm, he, rfl, rfl, fun hacc => ?_⟩
  cases hk : r.verifyPubkey with
  | some pubkey => exact ⟨pubkey, rfl⟩
  | none =>
    simp only [hk, Option.isSome_none, Bool.false_eq_true, if_false] at hacc
    split at hacc <;> cases hacc

/-- Along every run, a piece offered for republication was delivered chunk by chunk since its last
discard, each chunk in full and all under the header it is offered with; its bytes are the newest
block of each chunk in chunk order; and it is marked as verified only if the source key verified
these bytes. -/
theorem completedLivePiece_coherent (auth : LiveAuth) (pieceLength startPiece : Nat)
    (builders : List Builder) (ops : List Op) :
    let s := run (Logged.step auth) (Logged.start (build auth pieceLength startPiece builders)) ops
    ∀ i piece, s.reasm.completedLivePiece i = some piece →
      ∃ chunkLength, 0 < chunkLength ∧ chunkLength ∣ pieceLength ∧
        (∀ d ∈ s.log i, ∃ k < pieceLength / chunkLength,
          d.live = some ⟨k, chunkLength, piece.header⟩ ∧ d.block.length = chunkLength) ∧
        (∀ k < pieceLength / chunkLength, ∃ d ∈ s.log i,
          d.live = some ⟨k, chunkLength, piece.header⟩ ∧ d.block.length = chunkLength) ∧
        piece.wire = (List.range (pieceLength / chunkLength)).flatMap
          (fun k => (newest (s.log i) k).getD []) ∧
        (piece.acceptance = .sourceVerified → ∃ pubkey payload sig,
          s.reasm.verifyPubkey = some pubkey ∧
          splitPiece piece.wire s.reasm.pieceTrailer = some (payload, sig) ∧
          auth.verifyPiece pubkey payload sig = true) := by
  intro s i piece hpiece
  have H : Logged.Inv auth s := run_invariant (I := Logged.Inv auth) (fun _ op H => H.step op)
    (Logged.Inv.start (unused_build ..)) ops
  have hlen : s.reasm.pieceLength = pieceLength := Logged.run_pieceLength ..
  obtain ⟨done, m, hdone, hm, he, hwire, hheader, hacc⟩ := completedLivePiece_eq_some hpiece
  have hat := H.tracks i (H.inv.complete_window hdone).1
  rw [hdone, hlen] at hat
  generalize s.reasm.partials.get? i = p at hat
  cases hat with
  | complete A hfull hne hco =>
    have hchunked : Chunked pieceLength m (s.log i) := hco m hm he
    have hcov := (A.counted_full_iff hchunked.tidy).mp hfull
    obtain ⟨d₀, hd₀⟩ := List.exists_mem_of_ne_nil _ hne
    obtain ⟨_, hfull₀⟩ := hchunked d₀ hd₀
    have hpos := hfull₀.pos
    have hdvd := hfull₀.dvd
    refine ⟨m.chunkLength, hpos, hdvd, fun d hd => ?_, fun k hk => ?_, ?_, fun hver => ?_⟩
    · obtain ⟨k, hd⟩ := hchunked d hd
      exact ⟨k, hd.lt, hheader ▸ hd.live, hd.length⟩
    · have hk' : k * m.chunkLength < pieceLength :=
        (Nat.mul_lt_mul_of_pos_right hk hpos).trans_eq (Nat.div_mul_cancel hdvd)
      obtain ⟨block, hblock⟩ := hchunked.exists_newest hcov hk' hpos
      obtain ⟨_, d, _, heq, hd, -⟩ := List.findSome?_eq_some_iff.mp hblock
      have hmem : d ∈ s.log i := by rw [heq]; simp
      obtain ⟨c, hc⟩ := hchunked d hmem
      refine ⟨d, hmem, ?_, hc.length⟩
      split at hd
      · next hlive =>
        rw [hc.live, Option.map_some, Option.some.injEq] at hlive
        rw [hc.live, hheader, ← hlive]
      · cases hd
    · rw [hwire]
      exact hchunked.wire_eq A hcov hpos hdvd
    · obtain ⟨pubkey, hk⟩ := hacc hver
      obtain ⟨payload, sig, hsplit, hv⟩ := authenticate_eq_ok (H.inv.authentic hdone) hk
      exact ⟨pubkey, payload, sig, hk, hwire ▸ hsplit, hv⟩

end PieceReassembler

end Outpace.Wire

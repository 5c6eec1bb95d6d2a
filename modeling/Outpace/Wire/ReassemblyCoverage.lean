import Mathlib.Order.Disjoint
import Mathlib.Data.Finset.Card
import Outpace.Wire.ReassemblyLog

/-!
# Completion and coverage

The reassembler decides completion by a byte count in which every block start counts once, with the
length of the first block seen there. The count is the number of bytes covered as long as the log is
`Tidy`: a block at a new start overlaps nothing written before, and a block at a used start covers
nothing new. Blocks that break this make a piece complete with a gap, or keep a covered piece open.
-/

namespace Outpace.Wire

namespace Log

/-- Counting the block adds exactly the bytes that it newly covers. -/
def Fits (log : List Delivery) (d : Delivery) : Prop :=
  if d.start ∈ starts log then d.span ⊆ covered log else Disjoint d.span (covered log)

instance (log : List Delivery) (d : Delivery) : Decidable (Fits log d) := by
  unfold Fits; infer_instance

/-- Every block fitted when it was written. -/
def Tidy : List Delivery → Prop
  | [] => True
  | d :: log => Fits log d ∧ Tidy log

variable {log : List Delivery}

theorem Tidy.counted_eq (h : Tidy log) : counted log = (covered log).card := by
  induction log with
  | nil => rfl
  | cons d log ih =>
    obtain ⟨hfits, htidy⟩ := h
    unfold Fits at hfits
    simp only [counted, covered]
    split
    · next hs =>
      rw [if_pos hs] at hfits
      rw [ih htidy, Finset.union_eq_right.mpr hfits]
    · next hs =>
      rw [if_neg hs] at hfits
      rw [ih htidy, Finset.card_union_of_disjoint hfits, Nat.add_comm]
      simp [Delivery.span]

/-- Full chunks of one length make a tidy log, whatever their order and repetitions. -/
theorem tidy_of_aligned {n : Nat} (h : ∀ d ∈ log, n ∣ d.start ∧ d.block.length = n) : Tidy log := by
  induction log with
  | nil => trivial
  | cons d log ih =>
    obtain ⟨⟨⟨k, hk⟩, hlen⟩, hlog⟩ := List.forall_mem_cons.mp h
    refine ⟨?_, ih hlog⟩
    unfold Fits
    split
    · next hs =>
      obtain ⟨d', hd', hstart⟩ := mem_starts.mp hs
      intro o ho
      refine mem_covered.mpr ⟨d', hd', ?_⟩
      simp only [Delivery.span, hstart, hlen, (hlog d' hd').2] at ho ⊢
      exact ho
    · next hs =>
      rw [Finset.disjoint_left]
      intro o ho hcov
      obtain ⟨d', hd', ho'⟩ := mem_covered.mp hcov
      obtain ⟨⟨k', hk'⟩, hlen'⟩ := hlog d' hd'
      simp only [Delivery.span, Finset.mem_Ico, hk, hk', hlen, hlen'] at ho ho'
      -- both blocks hold the chunk of `o`
      have hsame : k = k' := by
        have h₁ : o / n = k := Nat.div_eq_of_lt_le (by lia) (by lia)
        have h₂ : o / n = k' := Nat.div_eq_of_lt_le (by lia) (by lia)
        omega
      exact hs (mem_starts.mpr ⟨d', hd', by rw [hk', hk, hsame]⟩)

end Log

namespace PieceReassembler
open Log

variable {auth : LiveAuth} {r : PieceReassembler} {pieceLength : Nat} {s : Logged} {buf : Bytes}

theorem Assembled.covered_subset (A : Assembled pieceLength log buf) :
    covered log ⊆ Finset.range pieceLength := by
  intro o ho
  obtain ⟨d, hd, hspan⟩ := mem_covered.mp ho
  have := A.fits d hd
  simp only [Delivery.span, Finset.mem_Ico] at hspan
  exact Finset.mem_range.mpr (by omega)

/-- On a tidy log a full count is full coverage. -/
theorem Assembled.counted_full_iff (A : Assembled pieceLength log buf) (h : Tidy log) :
    pieceLength ≤ counted log ↔ covered log = Finset.range pieceLength := by
  rw [h.counted_eq]
  constructor
  · intro hle
    exact Finset.eq_of_subset_of_card_le A.covered_subset (by rwa [Finset.card_range])
  · intro heq
    rw [heq, Finset.card_range]

/-- A covered buffer holds delivered bytes only. -/
theorem Assembled.byte_delivered (A : Assembled pieceLength log buf)
    (h : covered log = Finset.range pieceLength) {o : Nat} {b : UInt8} (hb : buf[o]? = some b) :
    byteAt log o = some b := by
  obtain ⟨ho, -⟩ := List.getElem?_eq_some_iff.mp hb
  rw [A.length] at ho
  have hsome := byteAt_isSome.mpr (h ▸ Finset.mem_range.mpr ho)
  obtain ⟨b', hb'⟩ := Option.isSome_iff_exists.mp hsome
  rw [A.byte o ho, hb'] at hb
  rw [hb', ← hb]
  rfl

/-- The block of the operation, if it is written, fits the log of its piece. -/
def Undisturbed (s : Logged) (op : Op) : Prop :=
  match op.delivery? with
  | some (index, d) => s.reasm.Admitted index d.start d.block → Fits (s.log index) d
  | none => True

instance (s : Logged) (op : Op) : Decidable (Undisturbed s op) := by
  unfold Undisturbed; split <;> infer_instance

theorem tidy_step {op : Op} (h : ∀ i, Tidy (s.log i)) (hop : Undisturbed s op) (i : Nat) :
    Tidy ((s.step auth op).log i) := by
  have hnoted := Logged.noted_step auth s op i
  generalize (s.step auth op).log i = l at hnoted
  cases hnoted with
  | same => exact h i
  | discarded => trivial
  | written hd hadm =>
    rw [Undisturbed, hd] at hop
    exact ⟨hop hadm, h i⟩

/-- The state of a run whose blocks all fitted. -/
theorem tidy_run {ops : List Op} (H : Logged.Inv auth s) (ht : ∀ i, Tidy (s.log i))
    (h : Meets (Logged.step auth) Undisturbed s ops) :
    Logged.Inv auth (run (Logged.step auth) s ops) ∧
      ∀ i, Tidy ((run (Logged.step auth) s ops).log i) :=
  run_induction (I := fun s => Logged.Inv auth s ∧ ∀ i, Tidy (s.log i))
    (fun _ op hi hop => ⟨hi.1.step op, tidy_step hi.2 hop⟩) ⟨H, ht⟩ h

theorem Holds.complete_iff {p : Option Partial} {c : Option Complete}
    (h : Holds pieceLength p c log) (ht : Tidy log) (hheld : p.isSome ∨ c.isSome) :
    c.isSome ↔ covered log = Finset.range pieceLength := by
  cases h with
  | nothing => simp at hheld
  | incomplete A _ _ hlt => rw [← A.counted_full_iff ht]; simpa using hlt
  | complete A hle => rw [← A.counted_full_iff ht]; simpa using hle

theorem Holds.complete_of_covered {p : Option Partial} {c : Option Complete}
    (h : Holds pieceLength p c log) (ht : Tidy log) (hpos : 0 < pieceLength)
    (hcov : ∀ o < pieceLength, o ∈ covered log) : ∃ done, c = some done := by
  have hsub : Finset.range pieceLength ⊆ covered log :=
    fun o ho => hcov o (Finset.mem_range.mp ho)
  cases h with
  | nothing => cases hcov 0 hpos
  | incomplete A _ _ hlt =>
    have := (A.counted_full_iff ht).mpr (A.covered_subset.antisymm hsub)
    omega
  | @complete _ done => exact ⟨done, rfl⟩

theorem Logged.Inv.complete_iff (H : Logged.Inv auth s) {i : Nat} (ht : Tidy (s.log i))
    (hheld : s.reasm.partials.contains i ∨ s.reasm.complete.contains i) :
    s.reasm.complete.contains i ↔ covered (s.log i) = Finset.range s.reasm.pieceLength := by
  simp only [OrderedMap.contains_iff, ← Option.isSome_iff_exists] at hheld ⊢
  refine (H.tracks i ?_).complete_iff ht hheld
  rcases hheld with hp | hc
  · obtain ⟨p, hp⟩ := Option.isSome_iff_exists.mp hp
    exact (H.inv.partial_window hp).1
  · obtain ⟨c, hc⟩ := Option.isSome_iff_exists.mp hc
    exact (H.inv.complete_window hc).1

theorem Logged.Inv.drained_delivered (H : Logged.Inv auth s) (ht : ∀ i, Tidy (s.log i)) {op : Op}
    {piece : ReadyPiece} (hp : piece ∈ s.reasm.drained op) {o : Nat} {b : UInt8}
    (hb : piece.bytes[o]? = some b) : byteAt (s.log piece.index) o = some b := by
  obtain ⟨done, hdone, hbytes⟩ := H.inv.mem_drained hp
  have hat := H.tracks _ (H.inv.complete_window hdone).1
  rw [hdone] at hat
  generalize s.reasm.partials.get? piece.index = p at hat
  cases hat with
  | complete A hle =>
    apply A.byte_delivered ((A.counted_full_iff (ht _)).mp hle)
    rw [hbytes, media, List.getElem?_take] at hb
    split at hb
    · exact hb
    · cases hb

/-- A piece of which every chunk of some length was delivered in full is covered. -/
theorem covered_of_chunks {n : Nat} (hpos : 0 < n) (hdvd : n ∣ pieceLength)
    (h : ∀ k < pieceLength / n, ∃ d ∈ log, d.start = k * n ∧ d.block.length = n) {o : Nat}
    (ho : o < pieceLength) : o ∈ covered log := by
  obtain ⟨d, hd, hstart, hlen⟩ := h (o / n) (Nat.div_lt_div_of_lt_of_dvd hdvd ho)
  refine mem_covered.mpr ⟨d, hd, ?_⟩
  rw [Delivery.span, Finset.mem_Ico, hstart, hlen]
  have := Nat.div_add_mod' o n
  have := Nat.mod_lt o hpos
  omega

/-- In every run whose written blocks all fit the log of their piece: a piece held is complete
exactly when the blocks written since its last discard cover it, every byte of a drained piece was
brought by one of these blocks, and a piece whose chunks were all delivered in full is complete. -/
theorem complete_iff_covered (auth : LiveAuth) (pieceLength startPiece : Nat)
    (builders : List Builder) (ops : List Op)
    (hops : Meets (Logged.step auth) Undisturbed
      (Logged.start (build auth pieceLength startPiece builders)) ops) :
    let s := run (Logged.step auth) (Logged.start (build auth pieceLength startPiece builders)) ops
    (∀ i, s.reasm.partials.contains i ∨ s.reasm.complete.contains i →
      (s.reasm.complete.contains i ↔ covered (s.log i) = Finset.range pieceLength)) ∧
    (∀ op, ∀ piece ∈ s.reasm.drained op, ∀ o b, piece.bytes[o]? = some b →
      ∃ d ∈ s.log piece.index, d.byteAt o = some b) ∧
    (∀ i chunkLength, s.reasm.nextEmit ≤ i → 0 < pieceLength → 0 < chunkLength →
      chunkLength ∣ pieceLength →
      (∀ k < pieceLength / chunkLength,
        ∃ d ∈ s.log i, d.start = k * chunkLength ∧ d.block.length = chunkLength) →
      s.reasm.complete.contains i) := by
  intro s
  obtain ⟨H, ht⟩ : Logged.Inv auth s ∧ ∀ i, Tidy (s.log i) :=
    tidy_run (Logged.Inv.start (unused_build ..)) (fun _ => trivial) hops
  have hlen : s.reasm.pieceLength = pieceLength := Logged.run_pieceLength ..
  refine ⟨fun i hheld => hlen ▸ H.complete_iff (ht i) hheld, fun op piece hp o b hb => ?_,
    fun i n hi hpos hn hdvd hchunks => ?_⟩
  · have hbyte := H.drained_delivered ht hp hb
    obtain ⟨_, d, _, heq, hd, -⟩ := List.findSome?_eq_some_iff.mp hbyte
    exact ⟨d, by rw [heq]; simp, hd⟩
  · have hat := H.tracks i hi
    rw [hlen] at hat
    exact OrderedMap.contains_iff.mpr
      (hat.complete_of_covered (ht i) hpos fun o => covered_of_chunks hn hdvd hchunks)

/-- Authentication that knows no key. -/
def noKeys : LiveAuth := ⟨fun _ _ _ => false, fun _ => none⟩

/-- The chunks of a two-chunk piece, the second one twice, leave it complete and covered. -/
theorem complete_iff_covered_two_chunks :
    let ops : List Op := [.addLiveChunk 0 1 2 zeroHeader [3, 4], .addLiveChunk 0 1 2 zeroHeader [5, 6],
      .addLiveChunk 0 0 2 zeroHeader [1, 2]]
    let s := run (Logged.step noKeys) (Logged.start (build noKeys 4 0 [])) ops
    s.reasm.complete.contains 0 = true ∧ covered (s.log 0) = Finset.range 4 := by
  intro ops s
  have h := complete_iff_covered noKeys 4 0 [] ops (by decide)
  have hc : s.reasm.complete.contains 0 = true := by decide
  exact ⟨hc, (h.1 0 (.inr hc)).mp hc⟩

/-- A first chunk with a byte too many and a second one with a byte too few fill the count of a
piece whose last byte nobody sent; a short first chunk, later sent again in full, keeps a covered
piece open. -/
theorem complete_with_gap_and_covered_open :
    let gap := run (Logged.step noKeys) (Logged.start (build noKeys 4 0 []))
      [.addLiveChunk 0 0 2 zeroHeader [1, 2, 3], .addLiveChunk 0 1 2 zeroHeader [4]]
    let stuck := run (Logged.step noKeys) (Logged.start (build noKeys 4 0 []))
      [.addLiveChunk 0 0 2 zeroHeader [1], .addLiveChunk 0 0 2 zeroHeader [1, 2],
        .addLiveChunk 0 1 2 zeroHeader [3, 4]]
    (gap.reasm.complete.contains 0 = true ∧ 3 ∉ covered (gap.log 0) ∧
      gap.reasm.drained .takeReadyPiece = [⟨0, [1, 2, 4, 0]⟩]) ∧
    (stuck.reasm.complete.contains 0 = false ∧ covered (stuck.log 0) = Finset.range 4) := by
  decide

end PieceReassembler

end Outpace.Wire

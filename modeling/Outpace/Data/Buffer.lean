import Mathlib.Data.List.Basic
import Mathlib.Data.List.TakeDrop

/-!
# Buffers

`overwrite buf start block` replaces the elements of `buf` from `start` on by `block`. When the
block fits, the length is kept (`length_overwrite`) and each position holds the block's element
inside the written range and its old one outside (`getElem?_overwrite`). A buffer of a whole number
of chunks is the concatenation of these chunks (`eq_flatMap_range`). A file is a buffer that grows
under a write (`writeAt`), and `readAt_writeAt_eq_iff` says when a write leaves a read alone.
-/

namespace Outpace

universe u
variable {α : Type u}

def overwrite (buf : List α) (start : Nat) (block : List α) : List α :=
  buf.take start ++ block ++ buf.drop (start + block.length)

theorem length_overwrite {buf block : List α} {start : Nat}
    (h : start + block.length ≤ buf.length) :
    (overwrite buf start block).length = buf.length := by
  simp only [overwrite, List.length_append, List.length_take, List.length_drop]
  omega

theorem getElem?_overwrite {buf block : List α} {start : Nat}
    (h : start + block.length ≤ buf.length) (i : Nat) :
    (overwrite buf start block)[i]? =
      if start ≤ i ∧ i < start + block.length then block[i - start]? else buf[i]? := by
  have hlen : (buf.take start).length = start := by rw [List.length_take]; omega
  rw [overwrite, List.append_assoc]
  by_cases hi : i < start
  · rw [List.getElem?_append_left (by omega), List.getElem?_take, if_pos hi, if_neg (by omega)]
  · rw [List.getElem?_append_right (by omega), hlen]
    by_cases hi' : i < start + block.length
    · rw [List.getElem?_append_left (by omega), if_pos ⟨by omega, hi'⟩]
    · rw [List.getElem?_append_right (by omega), List.getElem?_drop, if_neg (by omega)]
      congr 1
      omega

/-! ### Files

A write past the end of a file fills the gap with zeros; a read wants all of its bytes.
-/

def writeAt (file : List UInt8) (offset : Nat) (data : List UInt8) : List UInt8 :=
  if data = [] then file
  else overwrite (file ++ List.replicate (offset + data.length - file.length) 0) offset data

def readAt (file : List UInt8) (offset len : Nat) : Option (List UInt8) :=
  if len = 0 then some []
  else if offset + len ≤ file.length then some ((file.drop offset).take len)
  else none

theorem readAt_eq_some {file b : List UInt8} {offset len : Nat} :
    readAt file offset len = some b ↔
      b.length = len ∧ ∀ i < len, file[offset + i]? = b[i]? := by
  constructor
  · intro h
    unfold readAt at h
    split at h
    · next hlen =>
      cases h
      exact ⟨hlen.symm, fun i hi => by omega⟩
    · split at h
      · next hle =>
        cases h
        refine ⟨by rw [List.length_take, List.length_drop]; omega, fun i hi => ?_⟩
        rw [List.getElem?_take, if_pos hi, List.getElem?_drop]
      · cases h
  · rintro ⟨rfl, hbytes⟩
    unfold readAt
    split
    · next hlen => rw [List.eq_nil_of_length_eq_zero hlen]
    · next hlen =>
      -- the last byte of the range is inside the file
      have hlast := hbytes (b.length - 1) (by omega)
      have hle : offset + b.length ≤ file.length := by
        by_contra hgt
        rw [List.getElem?_eq_none (by omega), eq_comm, List.getElem?_eq_none_iff] at hlast
        omega
      rw [if_pos hle]
      refine congrArg some (List.ext_getElem? fun i => ?_)
      rw [List.getElem?_take, List.getElem?_drop]
      split
      · next hi => exact hbytes i hi
      · next hi => exact (List.getElem?_eq_none (by omega)).symm

/-- A read gets its bytes if the file is long enough. -/
theorem exists_readAt {file : List UInt8} {offset len : Nat}
    (h : len = 0 ∨ offset + len ≤ file.length) : ∃ b, readAt file offset len = some b := by
  unfold readAt
  split
  · exact ⟨_, rfl⟩
  · next hlen => exact ⟨_, if_pos (h.resolve_left hlen)⟩

theorem length_le_writeAt (file : List UInt8) (offset : Nat) (data : List UInt8) :
    file.length ≤ (writeAt file offset data).length := by
  unfold writeAt
  split
  · exact Nat.le_refl _
  · rw [length_overwrite (by rw [List.length_append, List.length_replicate]; omega),
      List.length_append]
    exact Nat.le_add_right ..

theorem end_le_writeAt (file : List UInt8) (offset : Nat) {data : List UInt8} (h : data ≠ []) :
    offset + data.length ≤ (writeAt file offset data).length := by
  rw [writeAt, if_neg h,
    length_overwrite (by rw [List.length_append, List.length_replicate]; omega),
    List.length_append, List.length_replicate]
  omega

theorem getElem?_writeAt {file data : List UInt8} {offset i : Nat} (hdata : data ≠ [])
    (h : offset ≤ i ∧ i < offset + data.length ∨ i < file.length) :
    (writeAt file offset data)[i]? =
      if offset ≤ i ∧ i < offset + data.length then data[i - offset]? else file[i]? := by
  rw [writeAt, if_neg hdata, getElem?_overwrite (by
    rw [List.length_append, List.length_replicate]
    omega)]
  split
  · rfl
  · next hout => exact List.getElem?_append_left (h.resolve_left hout)

theorem readAt_writeAt_self (file : List UInt8) (offset : Nat) (data : List UInt8) :
    readAt (writeAt file offset data) offset data.length = some data := by
  by_cases hdata : data = []
  · simp [hdata, readAt]
  · refine readAt_eq_some.mpr ⟨rfl, fun i hi => ?_⟩
    rw [getElem?_writeAt hdata (.inl (by omega)), if_pos (by omega), Nat.add_sub_cancel_left]

/-- A write leaves what a read gets if and only if it writes the same bytes there. -/
theorem readAt_writeAt_eq_iff {file data b : List UInt8} {offset offset' len : Nat}
    (h : readAt file offset' len = some b) :
    readAt (writeAt file offset data) offset' len = some b ↔
      ∀ i < data.length, offset' ≤ offset + i → offset + i < offset' + len →
        file[offset + i]? = data[i]? := by
  obtain ⟨hlen, hbytes⟩ := readAt_eq_some.mp h
  have hin : ∀ j < len, offset' + j < file.length := by
    intro j hj
    by_contra hge
    have hbyte := hbytes j hj
    rw [List.getElem?_eq_none (by omega), eq_comm, List.getElem?_eq_none_iff] at hbyte
    omega
  by_cases hdata : data = []
  · rw [hdata, writeAt, if_pos rfl]
    exact ⟨fun _ i hi => absurd hi (Nat.not_lt_zero i), fun _ => h⟩
  rw [readAt_eq_some]
  constructor
  · rintro ⟨-, hnew⟩ i hi hle hlt
    have hold := hbytes (offset + i - offset') (by omega)
    have hbyte := hnew (offset + i - offset') (by omega)
    rw [Nat.add_sub_cancel' hle] at hold hbyte
    rw [getElem?_writeAt hdata (.inl (by omega)), if_pos (by omega), Nat.add_sub_cancel_left]
      at hbyte
    rw [hold, hbyte]
  · intro hsame
    refine ⟨hlen, fun j hj => ?_⟩
    rw [getElem?_writeAt hdata (.inr (hin j hj))]
    split
    · next hwritten =>
      have hbyte := hsame (offset' + j - offset) (by omega) (by omega) (by omega)
      rw [Nat.add_sub_cancel' hwritten.1] at hbyte
      rw [← hbyte]
      exact hbytes j hj
    · exact hbytes j hj

/-- A read of a range that a write does not touch is unchanged. -/
theorem readAt_writeAt_disjoint {file data b : List UInt8} {offset offset' len : Nat}
    (h : readAt file offset' len = some b)
    (hdisj : data = [] ∨ len = 0 ∨ offset + data.length ≤ offset' ∨ offset' + len ≤ offset) :
    readAt (writeAt file offset data) offset' len = some b := by
  refine (readAt_writeAt_eq_iff h).mpr fun i hi hle hlt => ?_
  rcases hdisj with rfl | hdisj | hdisj | hdisj
  · exact absurd hi (Nat.not_lt_zero i)
  · omega
  · omega
  · omega

/-- A list of `n * k` elements is the concatenation of its `n` runs of `k`. -/
theorem eq_flatMap_range {l : List α} {n k : Nat} (h : l.length = n * k) :
    l = (List.range n).flatMap fun i => (l.drop (i * k)).take k := by
  induction n generalizing l with
  | zero =>
    rw [Nat.zero_mul, List.length_eq_zero_iff] at h
    simp [h]
  | succ n ih =>
    have hinit : (l.take (n * k)).length = n * k := by
      rw [List.length_take, h, Nat.succ_mul]; omega
    have hlast : (l.drop (n * k)).take k = l.drop (n * k) := by
      rw [List.take_of_length_le]
      rw [List.length_drop, h, Nat.succ_mul]; omega
    rw [List.range_succ, List.flatMap_append, List.flatMap_singleton, hlast]
    conv_lhs => rw [← List.take_append_drop (n * k) l, ih hinit]
    congr 1
    refine List.flatMap_congr fun i hi => ?_
    have hi := List.mem_range.mp hi
    have hle : i * k + k ≤ n * k := by
      rw [← Nat.succ_mul]; exact Nat.mul_le_mul_right k hi
    rw [List.drop_take, List.take_take, Nat.min_eq_left (by omega)]

end Outpace

import Mathlib.Data.List.Range
import Outpace.Data.Run
import Outpace.Media.TsResync

/-!
# Resynchronisation of a stream in parts

`drive` is the filter as a recursion over the bytes that are left: put out the packet at the head,
skip to the next pair of sync bytes, or cut a tail without one. `push_report` is `drive` on the tail
and the new bytes (`pushReport_drive`), and `drive` on a stream is `drive` on its first part and
then on the tail that leaves with the rest (`drive_append`): the bytes a cut drops had their
neighbours already and were refused, so no later byte can make one of them a packet start.
-/

namespace Outpace.Media

open TsResync

variable {l l' buf data : List UInt8} {locked acquired : Bool} {i : Nat}

/-! ### Pairs of sync bytes -/

theorem isSync_lt (h : isSync l i = true) : i < l.length := by
  have h : l[i]? = some tsSync := by simpa [isSync] using h
  exact (List.getElem?_eq_some_iff.mp h).1

theorem isPair_lt (h : isPair l i = true) : i + tsPacketLen < l.length :=
  isSync_lt (Bool.and_eq_true _ _ ▸ h).2

theorem isSync_append (h : i < l.length) : isSync (l ++ l') i = isSync l i := by
  rw [isSync, isSync, List.getElem?_append_left h]

theorem isPair_append (h : i + tsPacketLen < l.length) : isPair (l ++ l') i = isPair l i := by
  rw [isPair, isPair, isSync_append (Nat.lt_of_le_of_lt (Nat.le_add_right ..) h), isSync_append h]

theorem isSync_drop (n i : Nat) : isSync (l.drop n) i = isSync l (n + i) := by
  rw [isSync, isSync, List.getElem?_drop]

theorem isPair_drop (n i : Nat) : isPair (l.drop n) i = isPair l (n + i) := by
  rw [isPair, isPair, isSync_drop, isSync_drop, Nat.add_assoc]

/-- The first pair behind the head. -/
def nextPair (l : List UInt8) : Option Nat :=
  (List.range l.length).find? fun j => decide (0 < j) && isPair l j

theorem nextPair_eq_some {j : Nat} :
    nextPair l = some j ↔ 0 < j ∧ isPair l j = true ∧ ∀ k, 0 < k → k < j → isPair l k = false := by
  rw [nextPair, List.find?_range_eq_some]
  constructor
  · rintro ⟨h, -, hmin⟩
    rw [Bool.and_eq_true, decide_eq_true_eq] at h
    refine ⟨h.1, h.2, fun k hk hkj => ?_⟩
    simpa [hk] using hmin k hkj
  · rintro ⟨hpos, hp, hmin⟩
    refine ⟨by simp [hpos, hp], List.mem_range.mpr (by have := isPair_lt hp; omega), ?_⟩
    intro k hkj
    by_cases hk : 0 < k
    · simp [hmin k hk hkj]
    · simp [hk]

theorem nextPair_eq_none : nextPair l = none ↔ ∀ k, 0 < k → isPair l k = false := by
  rw [nextPair, List.find?_range_eq_none]
  constructor
  · intro h k hk
    by_contra hp
    have hp : isPair l k = true := by simpa using hp
    have := isPair_lt hp
    simpa [hk, hp] using h k (by omega)
  · intro h k _
    by_cases hk : 0 < k
    · simp [h k hk]
    · simp [hk]

theorem nextPair_append {j : Nat} (h : nextPair l = some j) : nextPair (l ++ l') = some j := by
  obtain ⟨hpos, hp, hmin⟩ := nextPair_eq_some.mp h
  have hlt := isPair_lt hp
  refine nextPair_eq_some.mpr ⟨hpos, by rwa [isPair_append hlt], fun k hk hkj => ?_⟩
  rw [isPair_append (by omega)]
  exact hmin k hk hkj

/-! ### The filter as a recursion over the rest of the stream -/

/-- The head of the rest is taken as a packet. -/
def takesPacket (locked : Bool) (l : List UInt8) : Bool :=
  isSync l 0 && (locked || isSync l tsPacketLen)

/-- A loss counts only after the first lock. -/
def loss (acquired : Bool) (n : Nat) : Lossy UInt8 := if acquired then .lose n else .nil

theorem loss_append_loss (m n : Nat) :
    loss acquired m ++ loss acquired n = loss acquired (m + n) := by
  cases acquired with
  | true => exact Lossy.lose_append_lose m n
  | false => exact Lossy.nil_append _

def drive (locked acquired : Bool) (l : List UInt8) : Lossy UInt8 × TsResync :=
  if _hshort : l.length < 2 * tsPacketLen then (.nil, ⟨l, locked, acquired⟩)
  else if takesPacket locked l then
    let r := drive true true (l.drop tsPacketLen)
    (.emit (l.take tsPacketLen) ++ r.1, r.2)
  else
    match _hj : nextPair l with
    | some j =>
      let r := drive false acquired (l.drop j)
      (loss acquired j ++ r.1, r.2)
    | none =>
      let excess := l.length - maxUnsyncedTail
      (loss acquired excess, ⟨l.drop excess, false, acquired⟩)
termination_by l.length
decreasing_by
  · simp only [List.length_drop, tsPacketLen] at *; omega
  · have := (nextPair_eq_some.mp _hj).1
    simp only [List.length_drop, tsPacketLen] at *; omega

theorem drive_short (h : l.length < 2 * tsPacketLen) :
    drive locked acquired l = (.nil, ⟨l, locked, acquired⟩) := by
  rw [drive, dif_pos h]

theorem drive_packet (h : 2 * tsPacketLen ≤ l.length) (hp : takesPacket locked l = true) :
    drive locked acquired l = (.emit (l.take tsPacketLen) ++
      (drive true true (l.drop tsPacketLen)).1, (drive true true (l.drop tsPacketLen)).2) := by
  rw [drive, dif_neg (Nat.not_lt.mpr h), if_pos hp]

theorem drive_skip {j : Nat} (h : 2 * tsPacketLen ≤ l.length) (hp : takesPacket locked l = false)
    (hj : nextPair l = some j) :
    drive locked acquired l = (loss acquired j ++ (drive false acquired (l.drop j)).1,
      (drive false acquired (l.drop j)).2) := by
  rw [drive, dif_neg (Nat.not_lt.mpr h), if_neg (by simp [hp])]
  split
  · next h' => rw [hj] at h'; cases h'; rfl
  · next h' => rw [hj] at h'; cases h'

theorem drive_cut (h : 2 * tsPacketLen ≤ l.length) (hp : takesPacket locked l = false)
    (hj : nextPair l = none) :
    drive locked acquired l = (loss acquired (l.length - maxUnsyncedTail),
      ⟨l.drop (l.length - maxUnsyncedTail), false, acquired⟩) := by
  rw [drive, dif_neg (Nat.not_lt.mpr h), if_neg (by simp [hp])]
  split
  · next h' => rw [hj] at h'; cases h'
  · rfl

/-- Induction along the recursion of `drive`. -/
theorem drive_induction {P : Bool → Bool → List UInt8 → Prop}
    (short : ∀ {locked acquired l}, l.length < 2 * tsPacketLen → P locked acquired l)
    (packet : ∀ {locked acquired l}, 2 * tsPacketLen ≤ l.length → takesPacket locked l = true →
      P true true (l.drop tsPacketLen) → P locked acquired l)
    (skip : ∀ {locked acquired l j}, 2 * tsPacketLen ≤ l.length → takesPacket locked l = false →
      nextPair l = some j → P false acquired (l.drop j) → P locked acquired l)
    (cut : ∀ {locked acquired l}, 2 * tsPacketLen ≤ l.length → takesPacket locked l = false →
      nextPair l = none → P locked acquired l)
    (locked acquired : Bool) (l : List UInt8) : P locked acquired l := by
  induction hn : l.length using Nat.strongRecOn generalizing l locked acquired with
  | _ n ih =>
  subst hn
  have hpos := tsPacketLen_pos
  by_cases hshort : l.length < 2 * tsPacketLen
  · exact short hshort
  have hlong := Nat.le_of_not_lt hshort
  cases hp : takesPacket locked l with
  | true => exact packet hlong hp (ih _ (by rw [List.length_drop]; omega) _ _ _ rfl)
  | false =>
    cases hj : nextPair l with
    | some j =>
      have := (nextPair_eq_some.mp hj).1
      exact skip hlong hp hj (ih _ (by rw [List.length_drop]; omega) _ _ _ rfl)
    | none => exact cut hlong hp hj

/-! ### Splitting the stream -/

theorem takesPacket_append (h : 2 * tsPacketLen ≤ l.length) :
    takesPacket locked (l ++ l') = takesPacket locked l := by
  simp only [tsPacketLen] at h
  rw [takesPacket, takesPacket, isSync_append (by omega),
    isSync_append (by simp only [tsPacketLen]; omega)]

/-- A tail without a pair is refused whole: more bytes are scanned from behind the cut on, and what
was cut off is part of the next loss. -/
theorem drive_cut_append (h : 2 * tsPacketLen ≤ l.length) (hp : takesPacket locked l = false)
    (hj : nextPair l = none) (hne : l' ≠ []) :
    let t := l.drop (l.length - maxUnsyncedTail)
    drive locked acquired (l ++ l') =
      (loss acquired (l.length - maxUnsyncedTail) ++ (drive false acquired (t ++ l')).1,
        (drive false acquired (t ++ l')).2) := by
  intro t
  have hpos : 0 < l'.length := List.length_pos_iff.mpr hne
  have hcut : 0 < l.length - maxUnsyncedTail := by
    simp only [maxUnsyncedTail, tsPacketLen] at h ⊢; omega
  generalize hn : l.length - maxUnsyncedTail = n at *
  have hle : n ≤ l.length := by omega
  have ht : t ++ l' = (l ++ l').drop n := by rw [List.drop_append_of_le_length hle, ← hn]
  have hlong : 2 * tsPacketLen ≤ (t ++ l').length := by
    rw [ht, List.length_drop, List.length_append]
    simp only [maxUnsyncedTail, tsPacketLen] at h hn ⊢; omega
  have hwhole : takesPacket locked (l ++ l') = false := by rw [takesPacket_append h, hp]
  -- the first byte behind the cut had its neighbour and was refused
  have hhead : takesPacket false (t ++ l') = false := by
    have hpair : isPair l n = false := nextPair_eq_none.mp hj n hcut
    have hin : n + tsPacketLen < l.length := by
      simp only [maxUnsyncedTail, tsPacketLen] at h hn ⊢; omega
    have hpair : isPair (l ++ l') n = false := (isPair_append hin).trans hpair
    rw [isPair] at hpair
    rw [ht, takesPacket, isSync_drop, isSync_drop, Bool.false_or, Nat.add_zero, hpair]
  have hlong' : 2 * tsPacketLen ≤ (l ++ l').length := by
    rw [List.length_append]; omega
  -- no pair inside the part that was cut off, so the next one is the next one behind the cut
  have hold : ∀ k, 0 < k → k ≤ n → isPair (l ++ l') k = false := by
    intro k hk hkn
    rw [isPair_append (by simp only [maxUnsyncedTail, tsPacketLen] at h hn ⊢; omega)]
    exact nextPair_eq_none.mp hj k hk
  cases hnext : nextPair (l ++ l') with
  | some j =>
    obtain ⟨hjpos, hjp, hjmin⟩ := nextPair_eq_some.mp hnext
    have hnj : n < j := by
      by_contra hle'
      rw [hold j hjpos (by omega)] at hjp
      cases hjp
    have hnext' : nextPair (t ++ l') = some (j - n) := by
      refine nextPair_eq_some.mpr ⟨by omega, ?_, fun k hk hkj => ?_⟩
      · rw [ht, isPair_drop, Nat.add_sub_cancel' hnj.le]
        exact hjp
      · rw [ht, isPair_drop]
        exact hjmin _ (by omega) (by omega)
    rw [drive_skip hlong' hwhole hnext, drive_skip hlong hhead hnext', ← Lossy.append_assoc,
      loss_append_loss, ht, List.drop_drop, Nat.add_sub_cancel' hnj.le]
  | none =>
    have hnext' : nextPair (t ++ l') = none := by
      refine nextPair_eq_none.mpr fun k hk => ?_
      rw [ht, isPair_drop]
      exact nextPair_eq_none.mp hnext _ (by omega)
    have hlen : (l ++ l').length - maxUnsyncedTail = n + l'.length := by
      rw [List.length_append]; omega
    have hlen' : (t ++ l').length - maxUnsyncedTail = l'.length := by
      rw [ht, List.length_drop, List.length_append]
      omega
    rw [drive_cut hlong' hwhole hnext, drive_cut hlong hhead hnext', loss_append_loss, hlen, hlen',
      ht, List.drop_drop]

/-- Two parts of a stream, one after the other, are treated as the whole. -/
theorem drive_append (locked acquired : Bool) (l l' : List UInt8) :
    drive locked acquired (l ++ l') =
      let r := drive locked acquired l
      let r' := drive r.2.locked r.2.acquiredSync (r.2.buf ++ l')
      (r.1 ++ r'.1, r'.2) := by
  induction locked, acquired, l using drive_induction with
  | short hshort =>
    rw [drive_short hshort]
    exact Prod.ext (Lossy.nil_append _).symm rfl
  | @packet locked acquired l hlong hp ih =>
    have hlong' : 2 * tsPacketLen ≤ (l ++ l').length := by rw [List.length_append]; omega
    have hle : tsPacketLen ≤ l.length := by omega
    rw [drive_packet hlong hp, drive_packet hlong' (by rw [takesPacket_append hlong, hp]),
      List.drop_append_of_le_length hle, List.take_append_of_le_length hle, ih]
    simp only [Lossy.append_assoc]
  | @skip locked acquired l j hlong hp hj ih =>
    have hlong' : 2 * tsPacketLen ≤ (l ++ l').length := by rw [List.length_append]; omega
    have hlt := isPair_lt (nextPair_eq_some.mp hj).2.1
    rw [drive_skip hlong hp hj,
      drive_skip hlong' (by rw [takesPacket_append hlong, hp]) (nextPair_append hj),
      List.drop_append_of_le_length (by omega), ih]
    simp only [Lossy.append_assoc]
  | @cut locked acquired l hlong hp hj =>
    rw [drive_cut hlong hp hj]
    by_cases hne : l' = []
    · subst hne
      have htail : (l.drop (l.length - maxUnsyncedTail)).length < 2 * tsPacketLen := by
        have := maxUnsyncedTail_add_one
        rw [List.length_drop]; omega
      simp only [List.append_nil]
      rw [drive_cut hlong hp hj, drive_short htail, Lossy.append_nil]
    · rw [drive_cut_append hlong hp hj hne]

end Outpace.Media

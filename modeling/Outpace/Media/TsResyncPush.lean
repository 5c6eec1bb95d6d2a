import Mathlib.Algebra.GroupWithZero.Nat
import Outpace.Media.TsResyncStream

/-!
# Pushes refine the recursion over the stream

The index loop of `push_report` with its accumulated output is `drive` on the bytes from the index
on. From that, a stream pushed in any parts has the output, the losses and the final state of the
whole stream pushed at once.
-/

namespace Outpace.Media

open TsResync

variable {l l' buf data : List UInt8} {locked acquired : Bool}

/-! ### Reported losses -/

/-- The loss reported in front of an output offset. -/
def lostAt (boundaries : List TsResyncBoundary) (offset : Nat) : Nat :=
  ((boundaries.filter (·.outputOffset == offset)).map (·.discardedBytes)).sum

theorem lostAt_append (bs bs' : List TsResyncBoundary) (o : Nat) :
    lostAt (bs ++ bs') o = lostAt bs o + lostAt bs' o := by
  simp only [lostAt, List.filter_append, List.map_append, List.sum_append]

theorem lostAt_singleton (offset count o : Nat) :
    lostAt [⟨offset, count⟩] o = if o = offset then count else 0 := by
  by_cases h : o = offset
  · simp [lostAt, h]
  · simp [lostAt, h, Ne.symm h]

theorem lostAt_addLoss (bs : List TsResyncBoundary) (offset count o : Nat) :
    lostAt (addLoss bs offset count) o = lostAt bs o + if o = offset then count else 0 := by
  rcases List.eq_nil_or_concat bs with rfl | ⟨init, ⟨last, n⟩, rfl⟩
  · exact (lostAt_singleton ..).trans (Nat.zero_add _).symm
  · simp only [addLoss, List.concat_eq_append, List.getLast?_append, List.getLast?_singleton,
      Option.some_or, List.dropLast_concat]
    split
    · next h =>
      simp only [lostAt_append, lostAt_singleton, h]
      split <;> omega
    · simp only [lostAt_append, lostAt_singleton]

theorem addLoss_pos {bs : List TsResyncBoundary} {offset count : Nat}
    (h : ∀ b ∈ bs, 0 < b.discardedBytes) (hc : 0 < count) :
    ∀ b ∈ addLoss bs offset count, 0 < b.discardedBytes := by
  rcases List.eq_nil_or_concat bs with rfl | ⟨init, last, rfl⟩
  · simpa [addLoss] using hc
  · simp only [addLoss, List.concat_eq_append, List.getLast?_append, List.getLast?_singleton,
      Option.some_or, List.dropLast_concat] at h ⊢
    split
    · intro b hb
      rcases List.mem_append.mp hb with hb | hb
      · exact h b (List.mem_append_left _ hb)
      · rw [List.mem_singleton] at hb
        subst hb
        exact Nat.add_pos_right _ hc
    · intro b hb
      rcases List.mem_append.mp hb with hb | hb
      · exact h b hb
      · rw [List.mem_singleton] at hb
        subst hb
        exact hc

/-- Boundaries with positive counts and no loss anywhere are none. -/
theorem eq_nil_of_lostAt {bs : List TsResyncBoundary} (h : ∀ b ∈ bs, 0 < b.discardedBytes)
    (hlost : ∀ o, lostAt bs o = 0) : bs = [] := by
  cases bs with
  | nil => rfl
  | cons b bs =>
    have hb := h b List.mem_cons_self
    have hz := hlost b.outputOffset
    rw [← List.singleton_append, lostAt_append, lostAt_singleton, if_pos rfl] at hz
    omega

namespace Scan

/-- Output and losses so far. -/
def lossy (s : Scan) : Lossy UInt8 := ⟨s.out, lostAt s.boundaries⟩

theorem lossy_reportLoss (s : Scan) (n : Nat) :
    (s.reportLoss n).lossy = s.lossy ++ loss s.acquiredSync n := by
  unfold reportLoss
  split
  · next h =>
    rw [h]
    refine Lossy.ext (List.append_nil _).symm (funext fun o => ?_)
    simp only [lossy, lostAt_addLoss, Lossy.append_lost, loss, Lossy.lose, if_true]
    congr 1
    split
    · next ho => simp [ho]
    · split
      · rw [if_neg (by omega)]
      · rfl
  · next h => simp [loss, h]

theorem lossy_emit (s : Scan) :
    (s.emit buf).lossy = s.lossy ++ .emit ((buf.drop s.i).take tsPacketLen) := by
  refine Lossy.ext rfl (funext fun o => ?_)
  simp [lossy, emit, Lossy.append_lost, Lossy.emit]

@[simp] theorem reportLoss_locked (s : Scan) (n : Nat) : (s.reportLoss n).locked = s.locked := by
  unfold reportLoss; split <;> rfl

@[simp] theorem reportLoss_acquiredSync (s : Scan) (n : Nat) :
    (s.reportLoss n).acquiredSync = s.acquiredSync := by
  unfold reportLoss; split <;> rfl

/-! ### The loops -/

theorem findPair_spec (buf : List UInt8) (fuel j : Nat) (h : buf.length ≤ j + fuel) :
    j ≤ findPair buf fuel j ∧ (∀ k, j ≤ k → k < findPair buf fuel j → isPair buf k = false) ∧
      (findPair buf fuel j + tsPacketLen < buf.length → isPair buf (findPair buf fuel j) = true) := by
  induction fuel generalizing j with
  | zero => exact ⟨Nat.le_refl _, fun k hk hk' => absurd hk' (Nat.not_lt.mpr hk), fun hlt => by
      rw [findPair] at hlt; omega⟩
  | succ fuel ih =>
    rw [findPair]
    split
    · next hc =>
      obtain ⟨-, hj⟩ : _ ∧ isPair buf j = false := by simpa using hc
      obtain ⟨hle, hmin, hp⟩ := ih (j + 1) (by omega)
      refine ⟨by omega, fun k hk hk' => ?_, hp⟩
      rcases Nat.eq_or_lt_of_le hk with rfl | hk
      · exact hj
      · exact hmin k hk hk'
    · next hc =>
      refine ⟨Nat.le_refl _, fun k hk hk' => absurd hk' (Nat.not_lt.mpr hk), fun hlt => ?_⟩
      by_contra hp
      exact hc (by simpa [hlt] using hp)

/-- The inner loop finds the next pair behind the index, if there is one. -/
theorem nextPair_drop {i j : Nat} (h : findPair buf buf.length (i + 1) = j) :
    nextPair (buf.drop i) = if j + tsPacketLen < buf.length then some (j - i) else none := by
  obtain ⟨hle, hmin, hp⟩ := findPair_spec buf buf.length (i + 1) (by omega)
  rw [h] at hle hmin hp
  split
  · next hlt =>
    refine nextPair_eq_some.mpr ⟨by omega, ?_, fun k hk hkj => ?_⟩
    · rw [isPair_drop, Nat.add_sub_cancel' (by omega)]
      exact hp hlt
    · rw [isPair_drop]
      exact hmin _ (by omega) (by omega)
  · next hlt =>
    refine nextPair_eq_none.mpr fun k hk => ?_
    rw [isPair_drop]
    by_contra hpair
    have hlt' := isPair_lt (by simpa using hpair : isPair buf (i + k) = true)
    exact hpair (hmin (i + k) (by omega) (by omega))

/-- What is left of a scan after the loop: the excess of a long tail is cut. -/
def finish (buf : List UInt8) (s : Scan) : Scan × TsResync :=
  let tail := buf.drop s.i
  if maxUnsyncedTail < tail.length then
    (s.reportLoss (tail.length - maxUnsyncedTail),
      ⟨tail.drop (tail.length - maxUnsyncedTail), false, s.acquiredSync⟩)
  else (s, ⟨tail, s.locked, s.acquiredSync⟩)

/-- The loop and what follows it are `drive` on the bytes from the index on. -/
theorem finish_loop (buf : List UInt8) (fuel : Nat) (s : Scan) (h : buf.length ≤ s.i + fuel) :
    ((finish buf (loop buf fuel s)).1.lossy, (finish buf (loop buf fuel s)).2) =
      (s.lossy ++ (drive s.locked s.acquiredSync (buf.drop s.i)).1,
        (drive s.locked s.acquiredSync (buf.drop s.i)).2) := by
  induction fuel generalizing s with
  | zero =>
    have hnil : (buf.drop s.i).length = 0 := by rw [List.length_drop]; omega
    rw [loop, finish, if_neg (by omega),
      drive_short (by rw [hnil]; simp only [tsPacketLen]; omega), Lossy.append_nil]
  | succ fuel ih =>
    rw [loop]
    by_cases hlong : s.i + 2 * tsPacketLen ≤ buf.length
    · have hlen : 2 * tsPacketLen ≤ (buf.drop s.i).length := by rw [List.length_drop]; omega
      have htakes : takesPacket s.locked (buf.drop s.i) =
          (isSync buf s.i && (s.locked || isSync buf (s.i + tsPacketLen))) := by
        rw [takesPacket, isSync_drop, isSync_drop, Nat.add_zero]
      rw [if_pos hlong, ← htakes]
      cases hp : takesPacket s.locked (buf.drop s.i) with
      | true =>
        have hi : (s.emit buf).i = s.i + tsPacketLen := rfl
        rw [if_pos rfl, ih _ (by rw [hi]; simp only [tsPacketLen]; omega), drive_packet hlen hp,
          lossy_emit, Lossy.append_assoc, hi, List.drop_drop]
        rfl
      | false =>
        rw [if_neg Bool.false_ne_true]
        dsimp only
        generalize hj : findPair buf buf.length (s.i + 1) = j
        obtain ⟨hle, -⟩ := hj ▸ findPair_spec buf buf.length (s.i + 1) (by omega)
        have hnext := nextPair_drop hj
        split
        · next hlt =>
          rw [if_pos hlt] at hnext
          rw [ih _ (by dsimp only; omega), drive_skip hlen hp hnext, List.drop_drop,
            Nat.add_sub_cancel' (by omega), ← Lossy.append_assoc]
          have hl := lossy_reportLoss { s with locked := false } (j - s.i)
          simp only [lossy] at hl ⊢
          simp only [hl, reportLoss_locked, reportLoss_acquiredSync]
        · next hlt =>
          rw [if_neg hlt] at hnext
          have hcut : maxUnsyncedTail < (buf.drop s.i).length := by
            simp only [maxUnsyncedTail, tsPacketLen] at hlen ⊢; omega
          simp only [finish]
          rw [if_pos hcut, drive_cut hlen hp hnext, lossy_reportLoss]
          rfl
    · have hshort : (buf.drop s.i).length < 2 * tsPacketLen := by
        have := tsPacketLen_pos
        rw [List.length_drop]; omega
      have hkeep : ¬ maxUnsyncedTail < (buf.drop s.i).length := by
        have := maxUnsyncedTail_add_one
        omega
      rw [if_neg hlong, finish, if_neg hkeep, drive_short hshort, Lossy.append_nil]

/-! ### Positive counts -/

theorem reportLoss_pos {s : Scan} {n : Nat} (h : ∀ b ∈ s.boundaries, 0 < b.discardedBytes)
    (hn : 0 < n) : ∀ b ∈ (s.reportLoss n).boundaries, 0 < b.discardedBytes := by
  unfold reportLoss
  split
  · exact addLoss_pos h hn
  · exact h

theorem loop_pos (buf : List UInt8) (fuel : Nat) (s : Scan)
    (h : ∀ b ∈ s.boundaries, 0 < b.discardedBytes) :
    ∀ b ∈ (loop buf fuel s).boundaries, 0 < b.discardedBytes := by
  induction fuel generalizing s with
  | zero => exact h
  | succ fuel ih =>
    rw [loop]
    split
    · split
      · exact ih _ h
      · dsimp only
        split
        · refine ih _ (reportLoss_pos (s := { s with locked := false }) h ?_)
          have := (findPair_spec buf buf.length (s.i + 1) (by omega)).1
          omega
        · exact h
    · exact h

end Scan

/-! ### Pushes -/

/-- Output and losses of one push. -/
def TsResyncOutput.lossy (o : TsResyncOutput) : Lossy UInt8 := ⟨o.bytes, lostAt o.boundaries⟩

theorem pushReport_finish (r : TsResync) (data : List UInt8) :
    let s := Scan.loop (r.buf ++ data) (r.buf ++ data).length
      ⟨0, r.locked, r.acquiredSync, [], [], 0, []⟩
    (r.pushReport data).1.lossy = (s.finish (r.buf ++ data)).1.lossy ∧
      (r.pushReport data).1.boundaries = (s.finish (r.buf ++ data)).1.boundaries ∧
      (r.pushReport data).2 = (s.finish (r.buf ++ data)).2 := by
  unfold pushReport Scan.finish
  dsimp only
  split
  · exact ⟨rfl, rfl, by rw [Scan.reportLoss_acquiredSync]⟩
  · exact ⟨rfl, rfl, rfl⟩

/-- A push is the recursion on the tail and the new bytes. -/
theorem pushReport_drive (r : TsResync) (data : List UInt8) :
    ((r.pushReport data).1.lossy, (r.pushReport data).2) =
      drive r.locked r.acquiredSync (r.buf ++ data) := by
  obtain ⟨hlossy, -, hstate⟩ := pushReport_finish r data
  rw [hlossy, hstate, Scan.finish_loop _ _ _ (Nat.le_add_left _ _)]
  exact Prod.ext (Lossy.nil_append _) rfl

theorem pushReport_boundaries_pos (r : TsResync) (data : List UInt8) :
    ∀ b ∈ (r.pushReport data).1.boundaries, 0 < b.discardedBytes := by
  rw [(pushReport_finish r data).2.1]
  have hloop := Scan.loop_pos (r.buf ++ data) (r.buf ++ data).length
    ⟨0, r.locked, r.acquiredSync, [], [], 0, []⟩ (by simp)
  unfold Scan.finish
  dsimp only
  split
  · exact Scan.reportLoss_pos hloop (by omega)
  · exact hloop

/-- The tail that stays is short of two packets. -/
theorem drive_tail (locked acquired : Bool) (l : List UInt8) :
    (drive locked acquired l).2.buf.length ≤ maxUnsyncedTail := by
  have hsucc := maxUnsyncedTail_add_one
  induction locked, acquired, l using drive_induction with
  | short h =>
    rw [drive_short h]
    dsimp only
    omega
  | packet hlong hp ih => rw [drive_packet hlong hp]; exact ih
  | skip hlong hp hj ih => rw [drive_skip hlong hp hj]; exact ih
  | cut hlong hp hj =>
    rw [drive_cut hlong hp hj]
    dsimp only
    rw [List.length_drop]
    omega

/-- Whole packets, each starting with the sync byte. -/
def Packets (out : List UInt8) : Prop :=
  tsPacketLen ∣ out.length ∧ ∀ k, tsPacketLen * k < out.length → out[tsPacketLen * k]? = some tsSync

theorem Packets.cons {p out : List UInt8} (hlen : p.length = tsPacketLen) (hp : isSync p 0 = true)
    (h : Packets out) : Packets (p ++ out) := by
  refine ⟨by rw [List.length_append, hlen]; exact Nat.dvd_add (Nat.dvd_refl _) h.1, fun k hk => ?_⟩
  cases k with
  | zero =>
    have : 0 < p.length := hlen ▸ tsPacketLen_pos
    rw [Nat.mul_zero, List.getElem?_append_left this]
    simpa [isSync] using hp
  | succ k =>
    rw [Nat.mul_succ] at hk ⊢
    rw [List.length_append, hlen] at hk
    rw [List.getElem?_append_right (by omega), hlen, Nat.add_sub_cancel]
    exact h.2 k (by omega)

theorem loss_out (acquired : Bool) (n : Nat) : (loss acquired n).out = [] := by
  cases acquired <;> rfl

theorem packets_drive (locked acquired : Bool) (l : List UInt8) :
    Packets (drive locked acquired l).1.out := by
  have hnone : Packets [] := ⟨Nat.dvd_zero _, fun k hk => absurd hk (Nat.not_lt_zero _)⟩
  induction locked, acquired, l using drive_induction with
  | short h => rw [drive_short h]; exact hnone
  | @packet locked acquired l hlong hp ih =>
    have hlen : (l.take tsPacketLen).length = tsPacketLen := by rw [List.length_take]; omega
    have hsync : isSync (l.take tsPacketLen) 0 = true := by
      rw [takesPacket, Bool.and_eq_true] at hp
      rw [isSync, List.getElem?_take, if_pos tsPacketLen_pos]
      exact hp.1
    rw [drive_packet hlong hp]
    exact .cons hlen hsync ih
  | skip hlong hp hj ih =>
    rw [drive_skip hlong hp hj]
    dsimp only
    rw [Lossy.append_out, loss_out, List.nil_append]
    exact ih
  | cut hlong hp hj =>
    rw [drive_cut hlong hp hj]
    dsimp only
    rw [loss_out]
    exact hnone

/-- The sync byte at every packet boundary. -/
def Aligned (l : List UInt8) : Prop :=
  ∀ k, tsPacketLen * k < l.length → l[tsPacketLen * k]? = some tsSync

theorem Aligned.drive (h : Aligned l) (locked acquired : Bool) :
    (drive locked acquired l).1.out ++ (drive locked acquired l).2.buf = l ∧
      ∀ o, (drive locked acquired l).1.lost o = 0 := by
  have takes : ∀ {l : List UInt8} (locked : Bool), Aligned l → 2 * tsPacketLen ≤ l.length →
      takesPacket locked l = true := by
    intro l locked h hlong
    have hpos := tsPacketLen_pos
    have h₀ : isSync l 0 = true := by simpa [isSync] using h 0 (by omega)
    have h₁ : isSync l tsPacketLen = true := by simpa [isSync] using h 1 (by omega)
    simp [takesPacket, h₀, h₁]
  induction locked, acquired, l using drive_induction with
  | short hshort => rw [drive_short hshort]; exact ⟨rfl, fun _ => rfl⟩
  | @packet locked acquired l hlong hp ih =>
    have hrest : Aligned (l.drop tsPacketLen) := by
      intro k hk
      rw [List.length_drop] at hk
      rw [List.getElem?_drop, Nat.add_comm, ← Nat.mul_succ]
      exact h (k + 1) (by rw [Nat.mul_succ]; omega)
    obtain ⟨hout, hlost⟩ := ih hrest
    rw [drive_packet hlong hp]
    refine ⟨?_, fun o => ?_⟩
    · rw [Lossy.append_out, List.append_assoc, hout]
      exact List.take_append_drop _ _
    · rw [Lossy.append_lost]
      simp [Lossy.emit, hlost]
  | skip hlong hp | cut hlong hp => rw [takes _ h hlong] at hp; cases hp

/-! ### Streams pushed in parts -/

/-- A filter with what it has put out and reported so far, at offsets into the whole output. -/
structure Resynced where
  state : TsResync
  bytes : List UInt8
  boundaries : List TsResyncBoundary

namespace Resynced

def start : Resynced := ⟨new, [], []⟩

def feed (s : Resynced) (data : List UInt8) : Resynced where
  state := (s.state.pushReport data).2
  bytes := s.bytes ++ (s.state.pushReport data).1.bytes
  boundaries := s.boundaries ++ (s.state.pushReport data).1.boundaries.map fun b =>
    { b with outputOffset := s.bytes.length + b.outputOffset }

def lossy (s : Resynced) : Lossy UInt8 := ⟨s.bytes, lostAt s.boundaries⟩

theorem lostAt_shift (bs : List TsResyncBoundary) (n o : Nat) :
    lostAt (bs.map fun b => { b with outputOffset := n + b.outputOffset }) o =
      if n ≤ o then lostAt bs (o - n) else 0 := by
  induction bs with
  | nil => simp [lostAt]
  | cons b bs ih =>
    obtain ⟨offset, count⟩ := b
    rw [List.map_cons, ← List.singleton_append, lostAt_append, lostAt_singleton, ih,
      ← List.singleton_append (l := bs), lostAt_append, lostAt_singleton]
    by_cases h : n ≤ o
    · have ho : o = n + offset ↔ o - n = offset := by omega
      simp only [if_pos h, ho]
    · rw [if_neg h, if_neg h, if_neg (by omega)]

theorem lossy_feed (s : Resynced) (data : List UInt8) :
    (s.feed data).lossy = s.lossy ++ (s.state.pushReport data).1.lossy := by
  refine Lossy.ext rfl (funext fun o => ?_)
  rw [Lossy.append_lost]
  exact (lostAt_append ..).trans (congrArg _ (lostAt_shift ..))

theorem feed_pos {s : Resynced} (h : ∀ b ∈ s.boundaries, 0 < b.discardedBytes)
    (data : List UInt8) : ∀ b ∈ (s.feed data).boundaries, 0 < b.discardedBytes := by
  intro b hb
  rcases List.mem_append.mp hb with hb | hb
  · exact h b hb
  · obtain ⟨b', hb', rfl⟩ := List.mem_map.mp hb
    exact pushReport_boundaries_pos s.state data b' hb'

/-- A stream pushed in parts. -/
def after (parts : List (List UInt8)) : Resynced := run feed start parts

/-- Parts pushed one after the other act as their concatenation. -/
theorem run_feed (s : Resynced) (parts : List (List UInt8))
    (h : s.state.buf.length ≤ maxUnsyncedTail) :
    ((run feed s parts).lossy, (run feed s parts).state) =
      (s.lossy ++ (drive s.state.locked s.state.acquiredSync (s.state.buf ++ parts.flatten)).1,
        (drive s.state.locked s.state.acquiredSync (s.state.buf ++ parts.flatten)).2) := by
  induction parts generalizing s with
  | nil =>
    have := maxUnsyncedTail_add_one
    rw [List.flatten_nil, List.append_nil, drive_short (by omega), Lossy.append_nil]
    rfl
  | cons data parts ih =>
    have hdrive := pushReport_drive s.state data
    have hlossy : (s.state.pushReport data).1.lossy =
        (drive s.state.locked s.state.acquiredSync (s.state.buf ++ data)).1 := by rw [← hdrive]
    have hstate : (s.feed data).state =
        (drive s.state.locked s.state.acquiredSync (s.state.buf ++ data)).2 := by rw [← hdrive]; rfl
    rw [run_cons, ih _ (by rw [hstate]; exact drive_tail ..), lossy_feed, hlossy, hstate,
      List.flatten_cons, ← List.append_assoc,
      drive_append s.state.locked s.state.acquiredSync (s.state.buf ++ data), Lossy.append_assoc]

end Resynced

/-- However a stream is split into pushes, output, losses at every output offset and final state are
those of one push of the whole stream; the output is whole packets that start with the sync byte,
the tail is at most 375 bytes, and a stream with the sync byte at every packet boundary comes
through unchanged up to that tail and with no loss reported. -/
theorem resync_partition_independent (parts : List (List UInt8)) :
    ((Resynced.after parts).bytes = (TsResync.new.pushReport parts.flatten).1.bytes ∧
      (∀ o, lostAt (Resynced.after parts).boundaries o =
        lostAt (TsResync.new.pushReport parts.flatten).1.boundaries o) ∧
      (Resynced.after parts).state = (TsResync.new.pushReport parts.flatten).2) ∧
    (188 ∣ (Resynced.after parts).bytes.length ∧ ∀ k, 188 * k < (Resynced.after parts).bytes.length →
      (Resynced.after parts).bytes[188 * k]? = some 0x47) ∧
    (Resynced.after parts).state.buf.length ≤ 375 ∧
    ((∀ k, 188 * k < parts.flatten.length → parts.flatten[188 * k]? = some 0x47) →
      (Resynced.after parts).bytes ++ (Resynced.after parts).state.buf = parts.flatten ∧
        (Resynced.after parts).boundaries = []) := by
  set s := Resynced.after parts
  set whole := TsResync.new.pushReport parts.flatten
  have hrun : (s.lossy, s.state) = drive false false parts.flatten :=
    (Resynced.run_feed .start parts (Nat.zero_le _)).trans (Prod.ext (Lossy.nil_append _) rfl)
  have hwhole : (whole.1.lossy, whole.2) = drive false false parts.flatten :=
    pushReport_drive TsResync.new parts.flatten
  have hlossy : s.lossy = (drive false false parts.flatten).1 := congrArg Prod.fst hrun
  have hstate : s.state = (drive false false parts.flatten).2 := congrArg Prod.snd hrun
  have hsame : s.lossy = whole.1.lossy := hlossy.trans (congrArg Prod.fst hwhole).symm
  have hbytes : s.bytes = (drive false false parts.flatten).1.out := congrArg Lossy.out hlossy
  refine ⟨⟨congrArg Lossy.out hsame, fun o => congrFun (congrArg Lossy.lost hsame) o,
    hstate.trans (congrArg Prod.snd hwhole).symm⟩, ?_, ?_, fun haligned => ?_⟩
  · rw [hbytes]
    exact packets_drive ..
  · rw [hstate]
    exact drive_tail ..
  · obtain ⟨hout, hlost⟩ := Aligned.drive haligned false false
    refine ⟨by rw [hbytes, hstate, hout], eq_nil_of_lostAt ?_ fun o => ?_⟩
    · exact run_invariant (I := fun s : Resynced => ∀ b ∈ s.boundaries, 0 < b.discardedBytes)
        (fun _ data h => Resynced.feed_pos h data) (by simp [Resynced.start]) parts
    · exact (congrFun (congrArg Lossy.lost hlossy) o).trans (hlost o)

end Outpace.Media

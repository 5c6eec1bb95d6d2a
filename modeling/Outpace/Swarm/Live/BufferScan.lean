import Outpace.Data.Blocks
import Outpace.Media.PcrClock
import Outpace.Wire.ReassemblyDrain

/-!
# Scanning the buffer

`BufferScan` of `ace-swarm/src/live_session/pool_support.rs`: how much media lies ready in the
reassembler. A call of `advance` looks at a bounded number of packets and pieces and goes on where
the last one stopped. `Scanned` relates a position of the scan, `j` pieces and `k` packets into the
next one, to what one pass over `ready_chunks` would have seen up to there.

How a duration is computed from the clock or the bitrate is floating-point arithmetic, which is the
parameter `millis`.
-/

namespace Outpace.Swarm.Live

open Outpace.Wire Outpace.Media

/-- The milliseconds of a buffer, of its clock, its bytes and the bitrate. -/
abbrev Millis := SelectedPcrClock → Nat → Option Nat → Nat

structure BufferScan where
  anchor : Option Nat
  index : Nat
  offset : Nat
  bytes : Nat
  pieces : Nat
  clock : SelectedPcrClock
  complete : Option (Nat × Nat)

/-- The variables of a call, with the packets that it has shown to the clock. -/
structure ScanTurn where
  scan : BufferScan
  packets : Nat
  transitions : Nat
  shown : List Bytes

/-- A piece that the cursor can go past. -/
def readyAt (r : PieceReassembler) (index : Nat) : Option Bytes :=
  (checkedAdd index 1).bind fun _ => r.readyPiece index

namespace ScanTurn

/-- The inner loop, over the packets of a piece. -/
def observePackets (bytes : Bytes) : (fuel : Nat) → ScanTurn → ScanTurn
  | 0, t => t
  | fuel + 1, t =>
    if t.scan.offset + 188 ≤ bytes.length ∧ t.packets < 2048 then
      let packet := (bytes.drop t.scan.offset).take 188
      observePackets bytes fuel
        { t with
          scan :=
            { t.scan with
              clock := (t.scan.clock.observe (tsTiming packet)).2
              offset := t.scan.offset + 188 }
          packets := t.packets + 1
          shown := t.shown ++ [packet] }
    else t

/-- A piece is counted where its scan begins. -/
def countPiece (t : ScanTurn) (bytes : Bytes) : ScanTurn :=
  if t.scan.offset = 0 then
    { t with
      scan :=
        { t.scan with
          bytes := saturatingAdd t.scan.bytes bytes.length
          pieces := t.scan.pieces + 1 } }
  else t

/-- Go to the next piece once less than a packet is left of this one. -/
def leavePiece (t : ScanTurn) (bytes : Bytes) : ScanTurn :=
  if bytes.length < t.scan.offset + 188 then
    { t with
      transitions := t.transitions + 1
      scan := { t.scan with offset := 0, index := t.scan.index + 1 } }
  else t

/-- One round of the outer loop. -/
def visit (millis : Millis) (r : PieceReassembler) (bitrate : Option Nat) (t : ScanTurn) :
    ScanTurn :=
  match readyAt r t.scan.index with
  | none =>
    { t with
      scan :=
        { t.scan with
          complete := some (millis t.scan.clock t.scan.bytes bitrate, t.scan.pieces) } }
  | some bytes => (observePackets bytes 2048 (t.countPiece bytes)).leavePiece bytes

def goesOn (t : ScanTurn) : Bool :=
  t.scan.complete.isNone && decide (t.packets < 2048) && decide (t.transitions < 64)

/-- The outer loop. A round ends the scan, leaves a piece or uses up the packets. -/
def loop (millis : Millis) (r : PieceReassembler) (bitrate : Option Nat) :
    (fuel : Nat) → ScanTurn → ScanTurn
  | 0, t => t
  | fuel + 1, t => if t.goesOn then loop millis r bitrate fuel (t.visit millis r bitrate) else t

end ScanTurn

namespace BufferScan

def new : BufferScan := ⟨none, 0, 0, 0, 0, .new, none⟩

def result (s : BufferScan) (cursor : Nat) : Option (Nat × Nat) :=
  if s.anchor = some cursor then s.complete else none

/-- The scan for a cursor. -/
def anchored (s : BufferScan) (cursor : Nat) : BufferScan :=
  if s.anchor = some cursor then s else { new with anchor := some cursor, index := cursor }

/-- A call: the numbers that it returns, the packets shown to the clock, and the scan after it. -/
def advance (millis : Millis) (s : BufferScan) (r : PieceReassembler) (bitrate : Option Nat) :
    ScanTurn :=
  ScanTurn.loop millis r bitrate 66 ⟨s.anchored r.nextNeeded, 0, 0, []⟩

end BufferScan

/-! ### What is ready -/

section
variable {r : PieceReassembler}

theorem readyChunksFrom_succ (r : PieceReassembler) (fuel next : Nat) :
    r.readyChunksFrom (fuel + 1) next =
      match readyAt r next with
      | none => []
      | some bytes => bytes :: r.readyChunksFrom fuel (next + 1) := by
  simp only [PieceReassembler.readyChunksFrom, readyAt, PieceReassembler.readyPiece]
  cases hadd : checkedAdd next 1 with
  | none => cases r.complete.get? next <;> rfl
  | some next' =>
    obtain ⟨-, rfl⟩ := checkedAdd_eq_some.mp hadd
    cases r.complete.get? next <;> rfl

/-- The pieces from `next` on. -/
def heldFrom (r : PieceReassembler) (next : Nat) : OrderedMap Nat Complete :=
  r.complete.filter fun index _ => decide (next ≤ index)

theorem size_heldFrom_succ {next : Nat} {bytes : Bytes} (h : readyAt r next = some bytes) :
    (heldFrom r (next + 1)).size < (heldFrom r next).size := by
  obtain ⟨_, -, hpiece⟩ := Option.bind_eq_some_iff.mp h
  obtain ⟨done, hdone, -⟩ := Option.map_eq_some_iff.mp hpiece
  have hget : (heldFrom r next).get? next = some done :=
    OrderedMap.get?_filter_eq_some.mpr ⟨hdone, decide_eq_true le_rfl⟩
  have herase : heldFrom r (next + 1) = (heldFrom r next).erase next := by
    refine OrderedMap.ext_get? fun k => ?_
    rw [OrderedMap.get?_erase, heldFrom, heldFrom, OrderedMap.get?_filter, OrderedMap.get?_filter]
    split
    · next hk =>
      subst hk
      cases r.complete.get? k <;> simp
    · next hk =>
      have hiff : (next + 1 ≤ k) ↔ (next ≤ k) := by omega
      simp only [hiff]
  rw [herase]
  exact OrderedMap.size_erase_lt hget

theorem readyAt_eq {fuel next : Nat} (hfuel : (heldFrom r next).size ≤ fuel) {j : Nat}
    (hj : j ≤ (r.readyChunksFrom fuel next).length) :
    readyAt r (next + j) = (r.readyChunksFrom fuel next)[j]? := by
  induction fuel generalizing next j with
  | zero =>
    obtain rfl : j = 0 := Nat.le_zero.mp hj
    cases h : readyAt r next with
    | none => rfl
    | some bytes =>
      have := size_heldFrom_succ h
      omega
  | succ fuel ih =>
    rw [readyChunksFrom_succ] at hj ⊢
    cases h : readyAt r next with
    | none =>
      rw [h] at hj
      obtain rfl : j = 0 := Nat.le_zero.mp hj
      exact h
    | some bytes =>
      rw [h] at hj
      have hlt := size_heldFrom_succ h
      cases j with
      | zero => exact h
      | succ j =>
        simp only [List.length_cons, Nat.add_le_add_iff_right] at hj
        simp only [List.getElem?_cons_succ]
        rw [← ih (by omega) hj, Nat.add_right_comm, Nat.add_assoc]

/-- The scan finds the ready chunks one after the other, and nothing behind them. -/
theorem readyAt_nextNeeded {j : Nat} (hj : j ≤ r.readyChunks.length) :
    readyAt r (r.nextNeeded + j) = r.readyChunks[j]? :=
  readyAt_eq (OrderedMap.size_filter_le ..) hj

end

/-! ### The packets of a piece -/

/-- A clock that is shown some packets. -/
def showAll (c : SelectedPcrClock) (packets : List Bytes) : SelectedPcrClock :=
  run (fun c packet => (c.observe (tsTiming packet)).2) c packets

theorem showAll_append (c : SelectedPcrClock) (xs ys : List Bytes) :
    showAll c (xs ++ ys) = showAll (showAll c xs) ys := run_append

/-- A turn after `d` more packets of a piece, from the `k`-th on. -/
def ScanTurn.past (t : ScanTurn) (bytes : Bytes) (k d : Nat) : ScanTurn :=
  let packets := ((blocks 188 bytes).drop k).take d
  { t with
    scan := { t.scan with clock := showAll t.scan.clock packets, offset := 188 * (k + d) }
    packets := t.packets + d
    shown := t.shown ++ packets }

theorem past_zero {t : ScanTurn} {bytes : Bytes} {k : Nat} (h : t.scan.offset = 188 * k) :
    t.past bytes k 0 = t := by
  simp only [ScanTurn.past, List.take_zero, List.append_nil, Nat.add_zero, ← h]
  rfl

/-- The first of some packets. -/
theorem past_succ (t : ScanTurn) {bytes : Bytes} {k : Nat} (hk : k < bytes.length / 188) (d : Nat) :
    let packet := (bytes.drop (188 * k)).take 188
    t.past bytes k (d + 1) =
      ScanTurn.past
        { t with
          scan :=
            { t.scan with
              clock := (t.scan.clock.observe (tsTiming packet)).2
              offset := 188 * k + 188 }
          packets := t.packets + 1
          shown := t.shown ++ [packet] } bytes (k + 1) d := by
  intro packet
  have hlen : k < (blocks 188 bytes).length := by rwa [length_blocks]
  have hpackets : ((blocks 188 bytes).drop k).take (d + 1) =
      packet :: ((blocks 188 bytes).drop (k + 1)).take d := by
    rw [List.drop_eq_getElem_cons hlen, List.take_succ_cons, getElem_blocks hlen, Nat.mul_comm k]
  have hoffset : 188 * (k + (d + 1)) = 188 * (k + 1 + d) := by omega
  simp only [ScanTurn.past, hpackets, hoffset, showAll, run_cons, List.append_assoc,
    List.cons_append, List.nil_append, Nat.add_assoc, Nat.add_comm 1 d]

theorem observePackets_eq {bytes : Bytes} {fuel : Nat} {t : ScanTurn} {k : Nat}
    (hoffset : t.scan.offset = 188 * k) (hk : k ≤ bytes.length / 188)
    (hfuel : 2048 - t.packets ≤ fuel) :
    ScanTurn.observePackets bytes fuel t =
      t.past bytes k (min (2048 - t.packets) (bytes.length / 188 - k)) := by
  induction fuel generalizing t k with
  | zero =>
    have hzero : 2048 - t.packets = 0 := by omega
    rw [hzero, Nat.zero_min, past_zero hoffset]
    rfl
  | succ fuel ih =>
    unfold ScanTurn.observePackets
    split
    · next hcond =>
      obtain ⟨hfits, hbudget⟩ := hcond
      have hlt : k < bytes.length / 188 := by omega
      have hmin : min (2048 - t.packets) (bytes.length / 188 - k) =
          min (2048 - (t.packets + 1)) (bytes.length / 188 - (k + 1)) + 1 := by omega
      rw [hmin, past_succ t hlt]
      simp only [hoffset]
      exact ih (by simp only; omega) hlt (by simp only; omega)
    · next hcond =>
      have hmin : min (2048 - t.packets) (bytes.length / 188 - k) = 0 := by omega
      rw [hmin, past_zero hoffset]

/-! ### A position of the scan -/

/-- The bytes of some chunks, as the scan adds them up. -/
def totalBytes (chunks : List Bytes) : Nat := min (chunks.map List.length).sum u64Max

/-- The scan has passed `j` of the ready chunks, and `k` packets of the next one; `shown` is what
the clock has seen since the scan began. -/
structure Scanned (r : PieceReassembler) (s : BufferScan) (shown : List Bytes) (j k : Nat) :
    Prop where
  anchor : s.anchor = some r.nextNeeded
  index : s.index = r.nextNeeded + j
  offset : s.offset = 188 * k
  le : j ≤ r.readyChunks.length
  fits : k ≤ (r.readyChunks.getD j []).length / 188
  seen : shown = (r.readyChunks.take j).flatMap (blocks 188) ++
    (blocks 188 (r.readyChunks.getD j [])).take k
  pieces : s.pieces = j + min k 1
  bytes : s.bytes = totalBytes (r.readyChunks.take (j + min k 1))
  clock : s.clock = showAll .new shown

variable {r : PieceReassembler}

theorem scanned_anchored {s : BufferScan} (h : s.anchor ≠ some r.nextNeeded) :
    Scanned r (s.anchored r.nextNeeded) [] 0 0 := by
  rw [BufferScan.anchored, if_neg h]
  exact ⟨rfl, rfl, rfl, Nat.zero_le _, Nat.zero_le _, by simp, rfl, by simp [totalBytes]; rfl, rfl⟩

theorem totalBytes_append (chunks : List Bytes) (bytes : Bytes) :
    saturatingAdd (totalBytes chunks) bytes.length = totalBytes (chunks ++ [bytes]) := by
  simp only [totalBytes, saturatingAdd, List.map_append, List.sum_append, List.map_cons,
    List.map_nil, List.sum_cons, List.sum_nil]
  omega

/-- What a round does to a scan that is not complete. -/
inductive Visits (millis : Millis) (bitrate : Option Nat) (r : PieceReassembler)
    (before : List Bytes) (t : ScanTurn) (j k : Nat) : ScanTurn → Prop
  | finish {t' : ScanTurn} : j = r.readyChunks.length → k = 0 →
    t' = { t with
      scan :=
        { t.scan with
          complete := some (millis t.scan.clock t.scan.bytes bitrate, t.scan.pieces) } } →
    Visits millis bitrate r before t j k t'
  | leave {t' : ScanTurn} : Scanned r t'.scan (before ++ t'.shown) (j + 1) 0 →
    t'.scan.complete = none → t'.transitions = t.transitions + 1 → t'.packets ≤ 2048 →
    t'.packets = t.packets + (t'.shown.length - t.shown.length) →
    t.shown.length ≤ t'.shown.length → Visits millis bitrate r before t j k t'
  | pause {t' : ScanTurn} {k' : Nat} : Scanned r t'.scan (before ++ t'.shown) j k' →
    t'.scan.complete = none → t'.transitions = t.transitions → t'.packets = 2048 →
    t'.packets = t.packets + (t'.shown.length - t.shown.length) →
    t.shown.length < t'.shown.length → Visits millis bitrate r before t j k t'

section
variable {before : List Bytes} {t : ScanTurn} {j k : Nat} {bytes : Bytes}

/-- A piece that is being scanned has been counted. -/
theorem Scanned.countPiece (H : Scanned r t.scan (before ++ t.shown) j k)
    (hget : r.readyChunks[j]? = some bytes) :
    t.countPiece bytes =
      { t with
        scan :=
          { t.scan with
            bytes := totalBytes (r.readyChunks.take (j + 1))
            pieces := j + 1 } } := by
  have hpieces := H.pieces
  have hbytes := H.bytes
  unfold ScanTurn.countPiece
  split
  · next hzero =>
    obtain rfl : k = 0 := by
      have := H.offset
      omega
    rw [Nat.zero_min, Nat.add_zero] at hpieces hbytes
    rw [hpieces, hbytes, totalBytes_append, List.take_add_one, hget]
    rfl
  · next hpos =>
    have hone : min k 1 = 1 := by
      have := H.offset
      omega
    rw [hone] at hpieces hbytes
    rw [← hbytes, ← hpieces]

theorem Scanned.visit (millis : Millis) (bitrate : Option Nat)
    (H : Scanned r t.scan (before ++ t.shown) j k) (hcomplete : t.scan.complete = none)
    (hpackets : t.packets < 2048) :
    Visits millis bitrate r before t j k (t.visit millis r bitrate) := by
  have hready := readyAt_nextNeeded H.le
  rw [← H.index] at hready
  unfold ScanTurn.visit
  rw [hready]
  cases hget : r.readyChunks[j]? with
  | none =>
    have hj : j = r.readyChunks.length := le_antisymm H.le (List.getElem?_eq_none_iff.mp hget)
    have hk := H.fits
    rw [List.getD_eq_getElem?_getD, hget] at hk
    exact .finish hj (Nat.le_zero.mp hk) rfl
  | some bytes =>
    have hchunk : r.readyChunks.getD j [] = bytes := by
      rw [List.getD_eq_getElem?_getD, hget, Option.getD_some]
    have hfits := H.fits
    have hseen := H.seen
    rw [hchunk] at hfits hseen
    simp only [H.countPiece hget]
    rw [observePackets_eq (by exact H.offset) hfits (by simp only; omega)]
    simp only
    generalize hd : min (2048 - t.packets) (bytes.length / 188 - k) = d
    have hnext : before ++ (t.shown ++ ((blocks 188 bytes).drop k).take d) =
        (r.readyChunks.take j).flatMap (blocks 188) ++ (blocks 188 bytes).take (k + d) := by
      rw [← List.append_assoc, hseen, List.append_assoc, ← List.take_add]
    have hclock : showAll t.scan.clock (((blocks 188 bytes).drop k).take d) =
        showAll .new (before ++ (t.shown ++ ((blocks 188 bytes).drop k).take d)) := by
      rw [H.clock, ← List.append_assoc, showAll_append _ (before ++ t.shown)]
    have hlength : (((blocks 188 bytes).drop k).take d).length = d := by
      rw [List.length_take, List.length_drop, length_blocks]
      omega
    have hadded : t.packets + d = t.packets +
        ((t.shown ++ ((blocks 188 bytes).drop k).take d).length - t.shown.length) := by
      rw [List.length_append, hlength, Nat.add_sub_cancel_left]
    have hgrows : t.shown.length ≤ (t.shown ++ ((blocks 188 bytes).drop k).take d).length := by
      rw [List.length_append]
      omega
    unfold ScanTurn.leavePiece
    split
    · next hleft =>
      have hleft : bytes.length < 188 * (k + d) + 188 := hleft
      have hall : k + d = bytes.length / 188 := by omega
      have hwhole : (blocks 188 bytes).take (k + d) = blocks 188 bytes :=
        List.take_of_length_le (by rw [length_blocks, hall])
      have htake : r.readyChunks.take (j + 1) = r.readyChunks.take j ++ [bytes] := by
        rw [List.take_add_one, hget]
        rfl
      refine .leave ⟨H.anchor, ?_, rfl, ?_, Nat.zero_le _, ?_, rfl, rfl, hclock⟩ hcomplete rfl
        ?_ hadded hgrows
      · show t.scan.index + 1 = _
        rw [H.index, Nat.add_assoc]
      · exact Nat.succ_le_of_lt (List.getElem?_eq_some_iff.mp hget).1
      · show before ++ (t.shown ++ _) = _
        rw [hnext, hwhole, htake, List.flatMap_append, List.take_zero, List.append_nil,
          List.flatMap_cons, List.flatMap_nil, List.append_nil]
      · show t.packets + d ≤ 2048
        omega
    · next hmore =>
      have hmore : ¬bytes.length < 188 * (k + d) + 188 := hmore
      have hpos : min (k + d) 1 = 1 := by omega
      refine .pause (show Scanned r _ _ j (k + d) from
        ⟨H.anchor, H.index, rfl, H.le, ?_, ?_, ?_, ?_, hclock⟩) hcomplete rfl ?_ hadded ?_
      · rw [hchunk]
        omega
      · rw [hchunk]
        exact hnext
      · rw [hpos]
        rfl
      · rw [hpos]
        rfl
      · show t.packets + d = 2048
        omega
      · show t.shown.length < (t.shown ++ _).length
        rw [List.length_append, hlength]
        omega

end

/-- The packets of all ready chunks. -/
def readyPackets (r : PieceReassembler) : List Bytes := r.readyChunks.flatMap (blocks 188)

theorem Scanned.shown_prefix {s : BufferScan} {shown : List Bytes} {j k : Nat}
    (H : Scanned r s shown j k) : shown <+: readyPackets r := by
  rw [H.seen, readyPackets]
  conv_rhs => rw [← List.take_append_drop j r.readyChunks, List.flatMap_append]
  refine (List.prefix_append_right_inj _).mpr ?_
  cases hget : r.readyChunks[j]? with
  | none =>
    rw [List.getD_eq_getElem?_getD, hget, Option.getD_none, blocks_of_lt (by decide), List.take_nil]
    exact List.nil_prefix
  | some bytes =>
    obtain ⟨hj, hbytes⟩ := List.getElem?_eq_some_iff.mp hget
    rw [List.getD_eq_getElem?_getD, hget, Option.getD_some, List.drop_eq_getElem_cons hj, hbytes,
      List.flatMap_cons]
    exact (List.take_prefix _ _).trans (List.prefix_append _ _)

theorem Scanned.shown_eq {s : BufferScan} {shown : List Bytes}
    (H : Scanned r s shown r.readyChunks.length 0) : shown = readyPackets r := by
  rw [H.seen, List.take_length, List.take_zero, List.append_nil, readyPackets]

/-! ### A call -/

/-- The scan is on its way, or it is through; then its result was computed with one of the
bitrates. -/
inductive Position (millis : Millis) (bitrates : List (Option Nat)) (r : PieceReassembler)
    (s : BufferScan) (shown : List Bytes) : Prop
  | pending {j k : Nat} : Scanned r s shown j k → s.complete = none →
    Position millis bitrates r s shown
  | through {bitrate : Option Nat} : Scanned r s shown r.readyChunks.length 0 →
    bitrate ∈ bitrates →
    s.complete = some (millis s.clock s.bytes bitrate, r.readyChunks.length) →
    Position millis bitrates r s shown

theorem Position.anchor {millis : Millis} {bitrates : List (Option Nat)} {s : BufferScan}
    {shown : List Bytes} (P : Position millis bitrates r s shown) :
    s.anchor = some r.nextNeeded := by
  cases P with
  | pending H | through H => exact H.anchor

/-- A call under way, which began at the piece `first` after calls that have shown `before`. -/
structure Calling (millis : Millis) (bitrates : List (Option Nat)) (r : PieceReassembler)
    (before : List Bytes) (first : Nat) (t : ScanTurn) : Prop where
  position : Position millis bitrates r t.scan (before ++ t.shown)
  packets : t.packets = t.shown.length
  packets_le : t.packets ≤ 2048
  transitions_le : t.transitions ≤ 64
  index : t.scan.index = first + t.transitions

/-- How far a scan is: every round adds to it, or is the last one. -/
def work (t : ScanTurn) : Nat := t.shown.length + t.scan.index

section
variable {millis : Millis} {bitrates : List (Option Nat)} {bitrate : Option Nat}
  {before : List Bytes} {first : Nat} {t : ScanTurn}

theorem Calling.progress (C : Calling millis bitrates r before first t) (h : first < work t) :
    0 < t.packets + t.transitions := by
  have hindex := C.index
  have hpackets := C.packets
  unfold work at h
  omega

theorem goesOn_iff : t.goesOn = true ↔
    t.scan.complete = none ∧ t.packets < 2048 ∧ t.transitions < 64 := by
  simp [ScanTurn.goesOn, and_assoc]

theorem goesOn_of_complete (h : t.scan.complete ≠ none) : t.goesOn = false :=
  Bool.eq_false_iff.mpr fun hgo => h (goesOn_iff.mp hgo).1

theorem Calling.visit (C : Calling millis bitrates r before first t) (hbitrate : bitrate ∈ bitrates)
    (hgo : t.goesOn = true) :
    Calling millis bitrates r before first (t.visit millis r bitrate) ∧
      ((t.visit millis r bitrate).scan.complete ≠ none ∧
          work t ≤ work (t.visit millis r bitrate) ∨
        work t < work (t.visit millis r bitrate) ∧
          ((t.visit millis r bitrate).transitions = t.transitions + 1 ∨
            (t.visit millis r bitrate).packets = 2048)) := by
  obtain ⟨hcomplete, hpackets, htransitions⟩ := goesOn_iff.mp hgo
  obtain ⟨position, hshown, -, -, hfirst⟩ := C
  cases position with
  | through _ _ hdone =>
    rw [hcomplete] at hdone
    cases hdone
  | @pending j k H _ =>
    have V := H.visit millis bitrate hcomplete hpackets
    generalize t.visit millis r bitrate = t' at V
    cases V with
    | finish hj hk ht =>
      subst hj hk ht
      refine ⟨⟨.through ⟨H.1, H.2, H.3, H.4, H.5, H.6, H.7, H.8, H.9⟩ hbitrate ?_,
        hshown, by simp only; omega, by simp only; omega, hfirst⟩, .inl ⟨by simp, le_rfl⟩⟩
      rw [H.pieces]
      rfl
    | leave H' hcomplete' htransitions' hpackets' hadded hgrows =>
      have hindex := H.index
      have hindex' := H'.index
      refine ⟨⟨.pending H' hcomplete', by omega, hpackets', by omega, by omega⟩,
        .inr ⟨?_, .inl htransitions'⟩⟩
      unfold work
      omega
    | pause H' hcomplete' htransitions' hpackets' hadded hgrows =>
      have hindex := H.index
      have hindex' := H'.index
      refine ⟨⟨.pending H' hcomplete', by omega, by omega, by omega, by omega⟩,
        .inr ⟨?_, .inr hpackets'⟩⟩
      unfold work
      omega

theorem loop_of_stopped (h : t.goesOn = false) (fuel : Nat) :
    ScanTurn.loop millis r bitrate fuel t = t := by
  cases fuel with
  | zero => rfl
  | succ fuel => rw [ScanTurn.loop, if_neg (by rw [h]; decide)]

theorem Calling.loop (C : Calling millis bitrates r before first t) (hbitrate : bitrate ∈ bitrates)
    (fuel : Nat) :
    Calling millis bitrates r before first (ScanTurn.loop millis r bitrate fuel t) ∧
      work t ≤ work (ScanTurn.loop millis r bitrate fuel t) := by
  induction fuel generalizing t with
  | zero => exact ⟨C, le_rfl⟩
  | succ fuel ih =>
    unfold ScanTurn.loop
    split
    · next hgo =>
      obtain ⟨C', hwork⟩ := C.visit hbitrate hgo
      obtain ⟨C'', hle⟩ := ih C'
      exact ⟨C'', by omega⟩
    · exact ⟨C, le_rfl⟩

/-- The loop runs to its end. -/
theorem Calling.loop_stops (C : Calling millis bitrates r before first t)
    (hbitrate : bitrate ∈ bitrates) {fuel : Nat} (hfuel : 65 - t.transitions ≤ fuel) :
    (ScanTurn.loop millis r bitrate fuel t).goesOn = false := by
  induction fuel generalizing t with
  | zero =>
    have := C.transitions_le
    omega
  | succ fuel ih =>
    unfold ScanTurn.loop
    split
    · next hgo =>
      obtain ⟨C', hwork⟩ := C.visit hbitrate hgo
      have hstopped (h : (t.visit millis r bitrate).goesOn = false) :
          (ScanTurn.loop millis r bitrate fuel (t.visit millis r bitrate)).goesOn = false := by
        rw [loop_of_stopped h]
        exact h
      rcases hwork with ⟨hdone, -⟩ | ⟨-, hleft | hfull⟩
      · exact hstopped (goesOn_of_complete hdone)
      · exact ih C' (by omega)
      · refine hstopped (Bool.eq_false_iff.mpr fun hgo' => ?_)
        have := (goesOn_iff.mp hgo').2.1
        omega
    · next hgo => exact Bool.eq_false_iff.mpr hgo

end

namespace BufferScan

variable {millis : Millis} {bitrates : List (Option Nat)} {bitrate : Option Nat}
  {s : BufferScan} {shown : List Bytes}

/-- The scan after a call. -/
def after (millis : Millis) (r : PieceReassembler) (s : BufferScan) (bitrate : Option Nat) :
    BufferScan := (s.advance millis r bitrate).scan

/-- The packets that a call shows to the clock. -/
def shows (millis : Millis) (r : PieceReassembler) (s : BufferScan) (bitrate : Option Nat) :
    List Bytes := (s.advance millis r bitrate).shown

theorem anchored_of_eq {cursor : Nat} (h : s.anchor = some cursor) : s.anchored cursor = s :=
  if_pos h

theorem calling_start (P : Position millis bitrates r (s.anchored r.nextNeeded) shown) :
    Calling millis bitrates r shown (s.anchored r.nextNeeded).index
      ⟨s.anchored r.nextNeeded, 0, 0, []⟩ :=
  ⟨(List.append_nil shown).symm ▸ P, rfl, Nat.zero_le _, Nat.zero_le _, rfl⟩

theorem calling_advance (P : Position millis bitrates r (s.anchored r.nextNeeded) shown)
    (hbitrate : bitrate ∈ bitrates) :
    Calling millis bitrates r shown (s.anchored r.nextNeeded).index
      (s.advance millis r bitrate) :=
  ((calling_start P).loop hbitrate 66).1

/-- A call that finds the scan on its way brings it on. -/
theorem work_advance (P : Position millis bitrates r (s.anchored r.nextNeeded) shown)
    (hbitrate : bitrate ∈ bitrates) (hpending : (s.anchored r.nextNeeded).complete = none) :
    (s.advance millis r bitrate).scan.complete ≠ none ∨
      (s.anchored r.nextNeeded).index < work (s.advance millis r bitrate) := by
  have C := calling_start P
  have hgo : (ScanTurn.mk (s.anchored r.nextNeeded) 0 0 []).goesOn = true :=
    goesOn_iff.mpr ⟨hpending, Nat.zero_lt_succ _, Nat.zero_lt_succ _⟩
  obtain ⟨C', hwork⟩ := C.visit hbitrate hgo
  have hloop : s.advance millis r bitrate = ScanTurn.loop millis r bitrate 65
      (ScanTurn.visit millis r bitrate ⟨s.anchored r.nextNeeded, 0, 0, []⟩) := by
    rw [advance, ScanTurn.loop, if_pos hgo]
  have hstart : work ⟨s.anchored r.nextNeeded, 0, 0, []⟩ = (s.anchored r.nextNeeded).index :=
    Nat.zero_add _
  rw [hloop]
  rcases hwork with ⟨hdone, -⟩ | ⟨hlt, -⟩
  · left
    rw [loop_of_stopped (goesOn_of_complete hdone)]
    exact hdone
  · right
    have := (C'.loop hbitrate 65).2
    omega

theorem advance_of_complete (h : (s.anchored r.nextNeeded).complete ≠ none) :
    s.advance millis r bitrate = ⟨s.anchored r.nextNeeded, 0, 0, []⟩ :=
  loop_of_stopped (goesOn_of_complete h) 66

theorem run_of_complete (hanchor : s.anchor = some r.nextNeeded) (h : s.complete ≠ none)
    (calls : List (Option Nat)) : run (after millis r) s calls = s := by
  refine run_invariant (I := fun s' => s' = s) ?_ rfl calls
  rintro s' bitrate rfl
  have hsame := anchored_of_eq hanchor
  rw [after, advance_of_complete (hsame.symm ▸ h), hsame]

/-- Some calls, from the position of the first one. -/
theorem run_position (calls : List (Option Nat)) (hcalls : ∀ bitrate ∈ calls, bitrate ∈ bitrates)
    (P : Position millis bitrates r (s.anchored r.nextNeeded) shown) :
    Position millis bitrates r ((run (after millis r) s calls).anchored r.nextNeeded)
        (shown ++ emits (after millis r) (shows millis r) s calls) ∧
      (((run (after millis r) s calls).anchored r.nextNeeded).complete ≠ none ∨
        shown.length + (s.anchored r.nextNeeded).index + calls.length ≤
          (shown ++ emits (after millis r) (shows millis r) s calls).length +
            ((run (after millis r) s calls).anchored r.nextNeeded).index) := by
  induction calls generalizing s shown with
  | nil =>
    rw [emits_nil, List.append_nil, run_nil]
    exact ⟨P, .inr le_rfl⟩
  | cons bitrate calls ih =>
    obtain ⟨hbitrate, hcalls⟩ := List.forall_mem_cons.mp hcalls
    have C := calling_advance P hbitrate
    have hanchor : (s.after millis r bitrate).anchor = some r.nextNeeded := C.position.anchor
    have hanchored := anchored_of_eq hanchor
    have P' : Position millis bitrates r ((s.after millis r bitrate).anchored r.nextNeeded)
        (shown ++ s.shows millis r bitrate) := hanchored.symm ▸ C.position
    obtain ⟨hfinal, hwork⟩ := ih hcalls P'
    rw [run_cons, emits_cons, ← List.append_assoc]
    refine ⟨hfinal, ?_⟩
    by_cases hdone : (s.after millis r bitrate).complete = none
    · refine hwork.imp id fun hle => ?_
      have hpending : (s.anchored r.nextNeeded).complete = none := by
        by_contra hcomplete
        rw [after, advance_of_complete hcomplete] at hdone
        exact hcomplete hdone
      have hlt := (work_advance P hbitrate hpending).resolve_left (not_not.mpr hdone)
      have hsum : work (s.advance millis r bitrate) =
          (s.shows millis r bitrate).length + (s.after millis r bitrate).index := rfl
      rw [hanchored, List.length_append] at hle
      rw [List.length_cons]
      omega
    · left
      rw [run_of_complete hanchor hdone, hanchored]
      exact hdone

theorem result_eq (s : BufferScan) (cursor : Nat) :
    s.result cursor = (s.anchored cursor).complete := by
  unfold result anchored
  split <;> rfl

theorem anchored_of_complete {cursor : Nat} (h : (s.anchored cursor).complete ≠ none) :
    s.anchored cursor = s := by
  unfold anchored at *
  split
  · rfl
  · next hne =>
    rw [if_neg hne] at h
    exact absurd rfl h

theorem anchor_observePackets (bytes : Bytes) (fuel : Nat) (t : ScanTurn) :
    (ScanTurn.observePackets bytes fuel t).scan.anchor = t.scan.anchor := by
  induction fuel generalizing t with
  | zero => rfl
  | succ fuel ih =>
    unfold ScanTurn.observePackets
    split
    · exact ih _
    · rfl

theorem anchor_visit (t : ScanTurn) : (t.visit millis r bitrate).scan.anchor = t.scan.anchor := by
  unfold ScanTurn.visit
  split
  · rfl
  · next bytes _ =>
    unfold ScanTurn.leavePiece
    have hcount : (t.countPiece bytes).scan.anchor = t.scan.anchor := by
      unfold ScanTurn.countPiece
      split <;> rfl
    split
    · exact (anchor_observePackets ..).trans hcount
    · exact (anchor_observePackets ..).trans hcount

theorem anchor_loop (fuel : Nat) (t : ScanTurn) :
    (ScanTurn.loop millis r bitrate fuel t).scan.anchor = t.scan.anchor := by
  induction fuel generalizing t with
  | zero => rfl
  | succ fuel ih =>
    unfold ScanTurn.loop
    split
    · exact (ih _).trans (anchor_visit t)
    · rfl

/-- A call anchors the scan at the cursor, whatever it was about before. -/
theorem anchor_advance (s : BufferScan) :
    (s.advance millis r bitrate).scan.anchor = some r.nextNeeded := by
  refine (anchor_loop ..).trans ?_
  show (s.anchored r.nextNeeded).anchor = _
  unfold anchored
  split
  · next h => exact h
  · rfl

/-- Calls on a reassembler whose content does not change. Each one shows the clock at most 2048
packets and brings the scan on. The packets shown are a beginning of those of the ready chunks; once
there is a result, they are all of them, and pieces and bytes are those of the ready chunks. There
is a result after enough calls, and only for the cursor that it was computed for. -/
theorem scan_computes_ready_chunks (millis : Millis) (r : PieceReassembler) (s : BufferScan)
    (hfresh : s.anchor ≠ some r.nextNeeded) (calls : List (Option Nat)) :
    let s' := run (after millis r) s calls
    let shown := emits (after millis r) (shows millis r) s calls
    (∀ bitrate,
      let t := s'.advance millis r bitrate
      t.goesOn = false ∧ t.packets = t.shown.length ∧ t.packets ≤ 2048 ∧ t.transitions ≤ 64 ∧
        (s'.result r.nextNeeded = none →
          (t.scan.result r.nextNeeded).isSome ∨ 0 < t.packets + t.transitions)) ∧
    shown <+: readyPackets r ∧
    (∀ ms pieces, s'.result r.nextNeeded = some (ms, pieces) →
      shown = readyPackets r ∧ pieces = r.readyChunks.length ∧ s'.pieces = pieces ∧
        s'.bytes = totalBytes r.readyChunks ∧ s'.clock = showAll .new (readyPackets r) ∧
        ∃ bitrate ∈ calls, ms = millis s'.clock s'.bytes bitrate) ∧
    ((readyPackets r).length + r.readyChunks.length < calls.length →
      (s'.result r.nextNeeded).isSome) ∧
    ∀ (s : BufferScan) bitrate cursor,
      ((s.advance millis r bitrate).scan.result cursor).isSome → cursor = r.nextNeeded := by
  intro s' shown
  have hstart : (s.anchored r.nextNeeded).complete = none := by
    rw [anchored, if_neg hfresh]
    rfl
  have P₀ (bitrates : List (Option Nat)) :
      Position millis bitrates r (s.anchored r.nextNeeded) [] :=
    .pending (scanned_anchored hfresh) hstart
  obtain ⟨P, hwork⟩ := run_position calls (fun _ h => h) (P₀ calls)
  rw [List.nil_append] at P hwork
  refine ⟨fun bitrate => ?_, ?_, fun ms pieces hresult => ?_, fun hmany => ?_, ?_⟩
  · have P' := (run_position calls (fun _ h => List.mem_cons_of_mem bitrate h) (P₀ _)).1
    rw [List.nil_append] at P'
    have hmem : bitrate ∈ bitrate :: calls := List.mem_cons_self
    have C := calling_advance P' hmem
    refine ⟨(calling_start P').loop_stops hmem (show 65 - 0 ≤ 66 by decide), C.packets,
      C.packets_le, C.transitions_le, fun hnone => ?_⟩
    rw [result_eq] at hnone
    rcases work_advance P' hmem hnone with hdone | hlt
    · left
      rw [result_eq, anchored_of_eq (anchor_advance s'), Option.isSome_iff_ne_none]
      exact hdone
    · exact .inr (C.progress hlt)
  · cases P with
    | pending H | through H => exact H.shown_prefix
  · rw [result_eq] at hresult
    have hsame : s'.anchored r.nextNeeded = s' := anchored_of_complete (by rw [hresult]; simp)
    rw [hsame] at hresult
    rw [hsame] at P
    cases P with
    | pending H hnone =>
      rw [hresult] at hnone
      cases hnone
    | @through bitrate H hbitrate hdone =>
      cases hresult.symm.trans hdone
      have hshown := H.shown_eq
      refine ⟨hshown, rfl, H.pieces, ?_, ?_, bitrate, hbitrate, rfl⟩
      · rw [H.bytes, Nat.zero_min, Nat.add_zero, List.take_length]
      · rw [H.clock, hshown]
  · rw [result_eq, Option.isSome_iff_ne_none]
    refine hwork.elim id fun hle => ?_
    cases P with
    | through _ _ hdone => rw [hdone]; simp
    | pending H _ =>
      have hlength := H.shown_prefix.length_le
      have hindex := H.index
      have hj := H.le
      have hfirst : (s.anchored r.nextNeeded).index = r.nextNeeded :=
        (scanned_anchored hfresh).index
      rw [List.length_nil] at hle
      omega
  · intro s bitrate cursor hsome
    have hanchor : (s.advance millis r bitrate).scan.anchor = some r.nextNeeded := anchor_advance s
    unfold result at hsome
    split at hsome
    · next h => exact Option.some.inj (h.symm.trans hanchor)
    · cases hsome

/-- A buffer with 65 complete pieces of one packet each. -/
def sampleBuffer : PieceReassembler :=
  { PieceReassembler.new 188 0 with
    complete := (List.range 65).foldl (fun m i => m.insert i ⟨List.replicate 188 0, none⟩) ∅ }

/-- The first call stops after 64 pieces. -/
theorem scan_computes_ready_chunks_sample :
    let millis : Millis := fun _ bytes _ => bytes
    let calls := List.replicate 131 none
    (emits (after millis sampleBuffer) (shows millis sampleBuffer) .new [none]).length = 64 ∧
      (readyPackets sampleBuffer).length = 65 ∧
      emits (after millis sampleBuffer) (shows millis sampleBuffer) .new calls =
        readyPackets sampleBuffer := by
  intro millis calls
  have h := scan_computes_ready_chunks millis sampleBuffer .new (by decide +kernel) calls
  refine ⟨by decide +kernel, by decide +kernel, ?_⟩
  obtain ⟨⟨ms, pieces⟩, hresult⟩ := Option.isSome_iff_exists.mp (h.2.2.2.1 (by decide +kernel))
  exact (h.2.2.1 ms pieces hresult).1

end BufferScan

end Outpace.Swarm.Live

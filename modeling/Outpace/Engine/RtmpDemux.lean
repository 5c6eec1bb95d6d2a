import Outpace.Data.Blocks
import Outpace.Engine.RtmpTs
import Outpace.Media.PcrClock

/-!
# Demuxing the muxer's output

The payload of a packet, the units of a PID and the fields of a PES packet, as a receiver reads
them, and that this gives back what `RtmpTsMuxer` was given. `Written` is what is used of the
packets of one payload: they are on its PID, with consecutive counters, the first one alone starts
a unit, and their payloads make up the whole.
-/

namespace Outpace.Engine
open Media

/-! ### One packet -/

/-- What follows the header and the adaptation field. -/
def packetPayload (pkt : List UInt8) : List UInt8 :=
  match tsPayloadOffset pkt with
  | some off => pkt.drop off
  | none => []

/-- The continuity counter. -/
def counter (pkt : List UInt8) : Nat := (byteAt pkt 3 &&& 0x0f).toNat

theorem length_stuffingField (space : Nat) : (stuffingField space).length = space := by
  unfold stuffingField
  split
  · next h => exact h.symm
  · split
    · next h => exact h.symm
    · rw [List.length_append, List.length_replicate]
      show 2 + (space - 2) = space
      omega

section
variable (pid : Nat) (cc : UInt8) (payloadStart : Bool) {chunk : List UInt8}

theorem length_tsPacket (h : chunk.length ≤ 184) :
    (tsPacket pid cc payloadStart chunk).length = tsPacketLen := by
  have hbound : tsPacketLen = 188 := rfl
  rw [tsPacket, List.length_append, List.length_append, length_stuffingField]
  simp only [List.length_cons, List.length_nil]
  omega

theorem startByte_and : ∀ x : UInt8, ∀ start : Bool,
    ((if start then 0x40 else 0) ||| (x &&& 0x1f)) &&& 0x1F = x &&& 0x1f ∧
      (((if start then 0x40 else 0) ||| (x &&& 0x1f)) &&& 0x40 != 0) = start :=
  forall_byte (by decide +kernel)

variable {pid} in
theorem tsPid_tsPacket (hpid : pid < 8192) : tsPid (tsPacket pid cc payloadStart chunk) = pid := by
  show ((((if payloadStart then 0x40 else 0) ||| (UInt8.ofNat (pid / 256) &&& 0x1f)) &&& 0x1F).toNat
    * 256 + (UInt8.ofNat pid).toNat) = pid
  have hand : (UInt8.ofNat (pid / 256) &&& 0x1f).toNat = pid / 256 % 2 ^ 5 := by
    rw [UInt8.toNat_and, UInt8.toNat_ofNat', Nat.mod_eq_of_lt (by omega),
      ← Nat.and_two_pow_sub_one_eq_mod]
    rfl
  rw [(startByte_and _ _).1, hand, UInt8.toNat_ofNat']
  omega

variable (chunk) in
theorem tsPusi_tsPacket : tsPusi (tsPacket pid cc payloadStart chunk) = payloadStart :=
  (startByte_and _ _).2

theorem controlByte_and : ∀ x : UInt8, ∀ full : Bool,
    (((if full then 0x30 else 0x10) ||| (x &&& 0x0f)) &&& 0x0f = x &&& 0x0f ∧
      (((if full then 0x30 else 0x10) ||| (x &&& 0x0f)) >>> 4) &&& 0x03 = if full then 3 else 1) :=
  forall_byte (by decide +kernel)

variable (chunk) in
theorem byteAt_three : byteAt (tsPacket pid cc payloadStart chunk) 3 =
    (if decide (0 < 184 - chunk.length) then 0x30 else 0x10) ||| (cc &&& 0x0f) := by
  show ((if 0 < 184 - chunk.length then 0x30 else 0x10) ||| (cc &&& 0x0f) : UInt8) = _
  simp only [decide_eq_true_eq]

variable (chunk) in
theorem counter_tsPacket : counter (tsPacket pid cc payloadStart chunk) = (cc &&& 0x0f).toNat := by
  rw [counter, byteAt_three, (controlByte_and _ _).1]

variable (chunk) in
theorem tsAfc_tsPacket :
    tsAfc (tsPacket pid cc payloadStart chunk) = if 0 < 184 - chunk.length then 3 else 1 := by
  rw [tsAfc, byteAt_three, (controlByte_and _ _).2]
  simp only [decide_eq_true_eq]

variable (chunk) in
/-- The adaptation field that fills a packet up. -/
theorem byteAt_stuffing (hspace : 0 < 184 - chunk.length) :
    (byteAt (tsPacket pid cc payloadStart chunk) 4).toNat = 184 - chunk.length - 1 ∧
      (1 < 184 - chunk.length → byteAt (tsPacket pid cc payloadStart chunk) 5 = 0) := by
  have hmax : 184 - chunk.length ≤ 184 := Nat.sub_le ..
  rw [tsPacket]
  generalize 184 - chunk.length = space at *
  have hget (i : Nat) (hi : i < space) (a b c d : UInt8) :
      byteAt ([a, b, c, d] ++ stuffingField space ++ chunk) (4 + i) =
        byteAt (stuffingField space) i := by
    have hlen := length_stuffingField space
    unfold byteAt
    rw [List.getD_eq_getElem?_getD, List.getD_eq_getElem?_getD, List.append_assoc,
      List.getElem?_append_right (by simp), show 4 + i - [a, b, c, d].length = i by simp,
      List.getElem?_append_left (by omega)]
  constructor
  · rw [hget 0 hspace, stuffingField, if_neg (by omega)]
    split
    · next h => subst h; rfl
    · show (UInt8.ofNat (space - 1)).toNat = space - 1
      rw [UInt8.toNat_ofNat']
      omega
  · intro hone
    rw [hget 1 hone, stuffingField, if_neg (by omega), if_neg (by omega)]
    rfl

theorem tsPayloadOffset_tsPacket (hpos : 0 < chunk.length) (hmax : chunk.length ≤ 184) :
    tsPayloadOffset (tsPacket pid cc payloadStart chunk) = some (4 + (184 - chunk.length)) := by
  have hbound : tsPacketLen = 188 := rfl
  rw [tsPayloadOffset, tsAfc_tsPacket]
  by_cases hfull : 0 < 184 - chunk.length
  · simp only [hfull, if_true, (byteAt_stuffing pid cc payloadStart chunk hfull).1]
    rw [if_neg (by decide), Option.filter_some, if_pos (by simp; omega)]
    exact congrArg some (by omega)
  · rw [if_neg hfull, Nat.eq_zero_of_not_pos hfull]
    rfl

theorem packetPayload_tsPacket (hpos : 0 < chunk.length) (hmax : chunk.length ≤ 184) :
    packetPayload (tsPacket pid cc payloadStart chunk) = chunk := by
  rw [packetPayload, tsPayloadOffset_tsPacket pid cc payloadStart hpos hmax]
  refine List.drop_left' ?_
  rw [List.length_append, length_stuffingField]
  rfl

/-- The stuffing has no clock. -/
theorem tsTiming_tsPacket (chunk : List UInt8) :
    (tsTiming (tsPacket pid cc payloadStart chunk)).pcr = none ∧
      (tsTiming (tsPacket pid cc payloadStart chunk)).discontinuity = false := by
  by_cases hfull : 0 < 184 - chunk.length
  · obtain ⟨hlen, hflags⟩ := byteAt_stuffing pid cc payloadStart chunk hfull
    unfold tsTiming
    split
    · exact ⟨rfl, rfl⟩
    · simp only
      split
      · exact ⟨rfl, rfl⟩
      · next h =>
        rw [hflags (by omega)]
        exact ⟨rfl, rfl⟩
  · have hafc : byteAt (tsPacket pid cc payloadStart chunk) 3 &&& 0x20 = 0 := by
      have hlow : ∀ x : UInt8, ((0x10 : UInt8) ||| (x &&& 0x0f)) &&& 0x20 = 0 :=
        forall_byte (by decide +kernel)
      rw [byteAt_three, decide_eq_false hfull]
      exact hlow cc
    rw [tsTiming, if_pos (.inr hafc)]
    exact ⟨rfl, rfl⟩

end

/-! ### The packets of a payload -/

/-- A packet as the muxer writes it on a PID. -/
structure IsOutput (pid : Nat) (pkt : List UInt8) : Prop where
  length : pkt.length = tsPacketLen
  sync : byteAt pkt 0 = 0x47
  pid : tsPid pkt = pid
  timing : (tsTiming pkt).pcr = none ∧ (tsTiming pkt).discontinuity = false

/-- What is written of a payload from a counter on. -/
structure Written (pid : Nat) (cc : UInt8) (payloadStart : Bool) (payload : List UInt8)
    (w : List (List UInt8) × UInt8) : Prop where
  packets : ∀ pkt ∈ w.1, IsOutput pid pkt
  counters : w.1.map counter = (List.range' cc.toNat w.1.length).map (· % 16)
  next : w.2.toNat = (cc.toNat + w.1.length) % 16
  payload : w.1.flatMap packetPayload = payload
  first : ∀ pkt ∈ w.1.head?, tsPusi pkt = payloadStart
  rest : ∀ pkt ∈ w.1.tail, tsPusi pkt = false

theorem isOutput_tsPacket {pid : Nat} (hpid : pid < 8192) (cc : UInt8) (payloadStart : Bool)
    {chunk : List UInt8} (h : chunk.length ≤ 184) :
    IsOutput pid (tsPacket pid cc payloadStart chunk) :=
  ⟨length_tsPacket _ _ _ h, rfl, tsPid_tsPacket cc payloadStart hpid, tsTiming_tsPacket ..⟩

theorem succ_counter : ∀ cc : UInt8, cc.toNat < 16 →
    ((cc + 1) &&& 0x0f).toNat = (cc.toNat + 1) % 16 ∧ (cc &&& 0x0f).toNat = cc.toNat % 16 :=
  forall_byte (by decide +kernel)

theorem map_range'_mod (n k : Nat) :
    (List.range' (n % 16) k).map (· % 16) = (List.range' n k).map (· % 16) := by
  induction k generalizing n with
  | zero => rfl
  | succ k ih =>
    rw [List.range'_succ, List.range'_succ, List.map_cons, List.map_cons, Nat.mod_mod,
      ← ih (n % 16 + 1), ← ih (n + 1), Nat.mod_add_mod]

variable {payload : List UInt8}

theorem writeTsPayload_written {pid : Nat} (hpid : pid < 8192) {fuel : Nat} {cc : UInt8}
    (hcc : cc.toNat < 16) (payloadStart : Bool) (hfuel : payload.length ≤ fuel) :
    Written pid cc payloadStart payload (writeTsPayload pid fuel cc payloadStart payload) := by
  have hempty (cc : UInt8) (hcc : cc.toNat < 16) (start : Bool) :
      Written pid cc start [] ([], cc) :=
    ⟨by simp, rfl, (Nat.mod_eq_of_lt hcc).symm, rfl, by simp, by simp⟩
  induction fuel generalizing cc payloadStart payload with
  | zero =>
    obtain rfl := List.length_eq_zero_iff.mp (Nat.le_zero.mp hfuel)
    exact hempty cc hcc _
  | succ fuel ih =>
    unfold writeTsPayload
    split
    · next h => subst h; exact hempty cc hcc _
    next hne =>
    have hpos := List.length_pos_iff.mpr hne
    obtain ⟨hsucc, hmod⟩ := succ_counter cc hcc
    have htake : (payload.take 184).length ≤ 184 := List.length_take_le ..
    have W : Written pid ((cc + 1) &&& 0x0f) false (payload.drop 184)
        (writeTsPayload pid fuel ((cc + 1) &&& 0x0f) false (payload.drop 184)) :=
      ih (by rw [hsucc]; exact Nat.mod_lt _ (by decide)) false (by rw [List.length_drop]; omega)
    generalize writeTsPayload pid fuel ((cc + 1) &&& 0x0f) false (payload.drop 184) = w at W
    refine ⟨List.forall_mem_cons.mpr ⟨isOutput_tsPacket hpid cc payloadStart htake, W.packets⟩,
      ?_, ?_, ?_, ?_, ?_⟩
    · simp only [List.map_cons, List.length_cons, List.range'_succ]
      rw [counter_tsPacket, hmod, W.counters, hsucc, map_range'_mod]
    · simp only [List.length_cons]
      rw [W.next, hsucc, Nat.mod_add_mod, Nat.add_right_comm, Nat.add_assoc]
    · simp only [List.flatMap_cons]
      rw [packetPayload_tsPacket _ _ _ (by rw [List.length_take]; omega) htake, W.payload,
        List.take_append_drop]
    · intro pkt hpkt
      obtain rfl := Option.some.inj hpkt
      exact tsPusi_tsPacket ..
    · intro pkt hpkt
      simp only [List.tail_cons] at hpkt
      cases hw : w.1 with
      | nil => rw [hw] at hpkt; cases hpkt
      | cons p ps =>
        rw [hw] at hpkt
        rcases List.mem_cons.mp hpkt with rfl | hpkt
        · exact W.first _ (by rw [hw]; rfl)
        · exact W.rest _ (by rw [hw]; exact hpkt)

/-! ### Units -/

/-- A packet added to the units of its PID: it starts a unit, or goes on with the last one. -/
def addPacket (units : List (List UInt8)) (pkt : List UInt8) : List (List UInt8) :=
  if tsPusi pkt then units ++ [packetPayload pkt]
  else units.dropLast ++ (units.getLast?.map (· ++ packetPayload pkt)).toList

/-- The payload of the packets of a PID, split where a unit starts. -/
def units (pkts : List (List UInt8)) : List (List UInt8) := pkts.foldl addPacket []

variable {pkts : List (List UInt8)}

theorem foldl_addPacket (h : ∀ pkt ∈ pkts, tsPusi pkt = false) (us : List (List UInt8))
    (u : List UInt8) :
    pkts.foldl addPacket (us ++ [u]) = us ++ [u ++ pkts.flatMap packetPayload] := by
  induction pkts generalizing u with
  | nil => simp
  | cons pkt pkts ih =>
    obtain ⟨hpkt, h⟩ := List.forall_mem_cons.mp h
    have hadd : addPacket (us ++ [u]) pkt = us ++ [u ++ packetPayload pkt] := by
      rw [addPacket, hpkt]
      simp
    rw [List.foldl_cons, hadd, ih h, List.flatMap_cons, List.append_assoc]

variable {w : List (List UInt8) × UInt8}

theorem Written.units {pid : Nat} {cc : UInt8} (W : Written pid cc true payload w)
    (hne : payload ≠ []) (pkts : List (List UInt8)) :
    units (pkts ++ w.1) = units pkts ++ [payload] := by
  rw [Engine.units, List.foldl_append]
  show w.1.foldl addPacket (Engine.units pkts) = _
  have hpayload := W.payload
  cases hw : w.1 with
  | nil =>
    rw [hw] at hpayload
    exact absurd hpayload.symm hne
  | cons p ps =>
    have hfirst := W.first p (by rw [hw]; rfl)
    have hrest := W.rest
    rw [hw, List.tail_cons] at hrest
    rw [hw] at hpayload
    rw [List.foldl_cons, addPacket, if_pos hfirst, foldl_addPacket hrest, ← List.flatMap_cons,
      hpayload]

/-- The counters that a receiver has seen on a PID, and the muxer's counter for it. -/
structure Channel (pkts : List (List UInt8)) (cc : UInt8) : Prop where
  counters : pkts.map counter = (List.range pkts.length).map (· % 16)
  next : cc.toNat = pkts.length % 16

theorem Channel.write {cc : UInt8} (C : Channel pkts cc) {pid : Nat} {payloadStart : Bool}
    (W : Written pid cc payloadStart payload w) : Channel (pkts ++ w.1) w.2 := by
  refine ⟨?_, ?_⟩
  · rw [List.map_append, C.counters, W.counters, C.next, map_range'_mod, ← List.map_append,
      List.length_append, List.range_eq_range', List.range_eq_range', ← List.range'_append_1,
      Nat.zero_add]
  · rw [W.next, C.next, Nat.mod_add_mod, List.length_append]

theorem Channel.lt {cc : UInt8} (C : Channel pkts cc) : cc.toNat < 16 := by
  rw [C.next]
  exact Nat.mod_lt _ (by decide)

/-- The packets of a PID. -/
def onPid (pid : Nat) (packets : List (List UInt8)) : List (List UInt8) :=
  packets.filter (tsPid · = pid)

theorem Written.onPid_append {pid : Nat} {cc : UInt8} {payloadStart : Bool}
    (W : Written pid cc payloadStart payload w) (packets : List (List UInt8)) (q : Nat) :
    onPid q (packets ++ w.1) = onPid q packets ++ if q = pid then w.1 else [] := by
  rw [onPid, List.filter_append]
  refine congrArg (onPid q packets ++ ·) ?_
  split
  · next h =>
    refine List.filter_eq_self.mpr fun pkt hpkt => decide_eq_true ?_
    rw [h, (W.packets pkt hpkt).pid]
  · next h =>
    refine List.filter_eq_nil_iff.mpr fun pkt hpkt hq => h ?_
    rw [← of_decide_eq_true hq, (W.packets pkt hpkt).pid]

/-- The packets of all PIDs, and the counters for them. -/
structure Carries (cc : Nat → UInt8) (packets : List (List UInt8)) : Prop where
  output : ∀ pkt ∈ packets, IsOutput (tsPid pkt) pkt
  channel : ∀ pid, Channel (onPid pid packets) (cc pid)

theorem Carries.write {cc : Nat → UInt8} {packets : List (List UInt8)} (C : Carries cc packets)
    {pid : Nat} {payloadStart : Bool} (W : Written pid (cc pid) payloadStart payload w) :
    Carries (Function.update cc pid w.2) (packets ++ w.1) := by
  constructor
  · intro pkt hpkt
    rcases List.mem_append.mp hpkt with hpkt | hpkt
    · exact C.output pkt hpkt
    · have O := W.packets pkt hpkt
      exact ⟨O.length, O.sync, rfl, O.timing⟩
  · intro q
    rw [W.onPid_append]
    by_cases hq : q = pid
    · subst hq
      rw [if_pos rfl, Function.update_self]
      exact (C.channel q).write W
    · rw [if_neg hq, List.append_nil, Function.update_of_ne hq]
      exact C.channel q

/-! ### PES packets -/

structure PesPacket where
  streamId : UInt8
  dts : Nat
  pts : Nat
  payload : List UInt8
  deriving DecidableEq

/-- The 33 bits of a timestamp. -/
def decodeTimestamp (b : List UInt8) : Nat :=
  ((byteAt b 0 >>> 1) &&& 7).toNat * 2 ^ 30 + (byteAt b 1).toNat * 2 ^ 22 +
    (byteAt b 2 >>> 1).toNat * 2 ^ 15 + (byteAt b 3).toNat * 2 ^ 7 + (byteAt b 4 >>> 1).toNat

/-- A PES packet with a timestamp; without a second one, decoding and presentation coincide. -/
def readPes (unit : List UInt8) : Option PesPacket :=
  if unit.take 3 = [0, 0, 1] ∧ 9 ≤ unit.length then
    let pts := decodeTimestamp (unit.drop 9)
    some
      { streamId := byteAt unit 3
        dts := if byteAt unit 7 &&& 0x40 ≠ 0 then decodeTimestamp (unit.drop 14) else pts
        pts := pts
        payload := unit.drop (9 + (byteAt unit 8).toNat) }
  else none

theorem marked_shiftRight : ∀ x : UInt8, marked x 0x7f >>> 1 = x &&& 0x7f :=
  forall_byte (by decide +kernel)

theorem tagged_shiftRight : ∀ tag : UInt8, tag.toNat < 4 → ∀ x : UInt8,
    (((tag <<< 4) ||| marked x 0x07) >>> 1) &&& 7 = x &&& 0x07 :=
  forall_byte fun n hn h => forall_byte (by revert n; decide +kernel)

theorem toNat_ofNat_and (n k : Nat) (hk : k ≤ 8) (mask : UInt8) (hmask : mask.toNat = 2 ^ k - 1) :
    (UInt8.ofNat n &&& mask).toNat = n % 2 ^ k := by
  rw [UInt8.toNat_and, hmask, UInt8.toNat_ofNat', Nat.and_two_pow_sub_one_eq_mod,
    Nat.mod_mod_of_dvd _ (Nat.pow_dvd_pow 2 hk)]

theorem decodeTimestamp_tsTimestamp (tag : UInt8) (htag : tag.toNat < 4) (ts : Nat)
    (rest : List UInt8) : decodeTimestamp (tsTimestamp tag ts ++ rest) = ts % 2 ^ 33 := by
  show ((((tag <<< 4) ||| marked (.ofNat (ts % 2 ^ 33 / 2 ^ 30)) 0x07) >>> 1) &&& 7).toNat *
      2 ^ 30 +
    (UInt8.ofNat (ts % 2 ^ 33 / 2 ^ 22)).toNat * 2 ^ 22 +
    (marked (.ofNat (ts % 2 ^ 33 / 2 ^ 15)) 0x7f >>> 1).toNat * 2 ^ 15 +
    (UInt8.ofNat (ts % 2 ^ 33 / 2 ^ 7)).toNat * 2 ^ 7 +
    (marked (.ofNat (ts % 2 ^ 33)) 0x7f >>> 1).toNat = _
  rw [tagged_shiftRight tag htag, marked_shiftRight, marked_shiftRight,
    toNat_ofNat_and _ 3 (by decide) _ rfl, toNat_ofNat_and _ 7 (by decide) _ rfl,
    toNat_ofNat_and _ 7 (by decide) _ rfl, UInt8.toNat_ofNat', UInt8.toNat_ofNat']
  omega

/-- What is read behind the header of a PES packet. -/
theorem readPes_header (streamId flags len : UInt8) (rest : List UInt8) :
    readPes ([0x00, 0x00, 0x01, streamId, 0x00, 0x00, 0x80, flags, len] ++ rest) =
      some
        { streamId := streamId
          dts := if flags &&& 0x40 ≠ 0 then decodeTimestamp (rest.drop 5) else decodeTimestamp rest
          pts := decodeTimestamp rest
          payload := rest.drop len.toNat } := by
  have hdrop (n : Nat) : ([0x00, 0x00, 0x01, streamId, 0x00, 0x00, 0x80, flags, len] ++ rest).drop
      (9 + n) = rest.drop n := by
    rw [Nat.add_comm]
    rfl
  rw [readPes, if_pos ⟨rfl, by simp⟩, hdrop, hdrop 0, hdrop 5]
  rfl

theorem readPes_one (streamId : UInt8) (ts : Nat) (payload : List UInt8) :
    readPes ([0x00, 0x00, 0x01, streamId, 0x00, 0x00, 0x80] ++ ([0x80, 5] ++ tsTimestamp 0x02 ts) ++
      payload) = some ⟨streamId, ts % 2 ^ 33, ts % 2 ^ 33, payload⟩ := by
  have hread := readPes_header streamId 0x80 5 (tsTimestamp 0x02 ts ++ payload)
  rw [decodeTimestamp_tsTimestamp 0x02 (by decide)] at hread
  exact hread

theorem readPes_two (streamId : UInt8) (dts pts : Nat) (payload : List UInt8) :
    readPes ([0x00, 0x00, 0x01, streamId, 0x00, 0x00, 0x80] ++
      ([0xc0, 10] ++ tsTimestamp 0x03 pts ++ tsTimestamp 0x01 dts) ++ payload) =
        some ⟨streamId, dts % 2 ^ 33, pts % 2 ^ 33, payload⟩ := by
  have hread := readPes_header streamId 0xc0 10
    (tsTimestamp 0x03 pts ++ (tsTimestamp 0x01 dts ++ payload))
  have hsecond : (tsTimestamp 0x03 pts ++ (tsTimestamp 0x01 dts ++ payload)).drop 5 =
      tsTimestamp 0x01 dts ++ payload := rfl
  rw [hsecond, decodeTimestamp_tsTimestamp 0x03 (by decide),
    decodeTimestamp_tsTimestamp 0x01 (by decide)] at hread
  exact hread

/-- A PES packet is read back. -/
theorem readPes_pesPacket (streamId : UInt8) (dts : Nat) (pts : Option Nat)
    (payload : List UInt8) :
    readPes (pesPacket streamId dts pts payload) =
      some ⟨streamId, dts % 2 ^ 33, pts.getD dts % 2 ^ 33, payload⟩ := by
  unfold pesPacket
  cases pts with
  | none => exact readPes_one ..
  | some pts =>
    simp only [Option.getD_some]
    split
    · exact readPes_two ..
    · next h =>
      rw [not_not.mp h]
      exact readPes_one ..

end Outpace.Engine

import Outpace.Data.Blocks
import Outpace.Data.Machine
import Outpace.Media.VideoAccess

/-!
# The keyframe gate

`KeyframeGate` of `ace-media/src/mpegts.rs`: it holds a stream back until a video access point or
until it has looked at too many packets, and then hands it on. It resumes with the cached tables,
and after a loss with a packet that marks the discontinuity. A gate with a title takes the upstream
service table out of the stream and puts its own in at every access point.

`packet` is one round of the loop of `push_report`; what it puts out is a list of packets, those
made up by the gate first.
-/

namespace Outpace.Media

inductive GateResume where
  | accessPoint
  | scanBudget
  deriving DecidableEq

structure KeyframeGate where
  buf : List UInt8
  locked : Bool
  access : VideoAccessPointState
  scanned : Nat
  maxScanPackets : Nat
  filterSdt : Bool
  nextSdtCounter : UInt8
  markDiscontinuity : Bool
  deriving DecidableEq

structure KeyframeGateOutput where
  /-- Ranges of the buffer and the input together that were handed on, as start and end. -/
  forwarded : List (Nat × Nat)
  bytes : List UInt8
  withheldBytes : Nat
  resumed : Option GateResume
  deriving DecidableEq

/-! ### Packets made up by the gate -/

/-- Set the discontinuity indicator, if the packet has room for it. -/
def setDiscontinuityIndicator (pkt : List UInt8) : Option (List UInt8) :=
  if (tsAfc pkt = 0b10 ∨ tsAfc pkt = 0b11) ∧ 1 ≤ byteAt pkt 4 then
    some (pkt.set 5 (byteAt pkt 5 ||| 0x80))
  else none

/-- A packet without payload that marks a discontinuity. -/
def discontinuityPacket (pid : Nat) (continuityCounter : UInt8) : List UInt8 :=
  [tsSync, .ofNat (pid / 256) &&& 0x1f, .ofNat pid, 0x20 ||| continuityCounter, 183, 0x80] ++
    List.replicate (tsPacketLen - 6) 0xff

/-- A packet with another continuity counter. -/
def withCounter (pkt : List UInt8) (counter : UInt8) : List UInt8 :=
  pkt.set 3 ((byteAt pkt 3 &&& 0xf0) ||| counter)

/-- One table of the gate: a service table takes the next counter. -/
def appendTable (s : List (List UInt8) × UInt8) (pkt : List UInt8) : List (List UInt8) × UInt8 :=
  if tsPid pkt = sdtPid then (s.1 ++ [withCounter pkt s.2], (s.2 + 1) &&& 0x0f)
  else (s.1 ++ [pkt], s.2)

/-- `append_gate_tables`. -/
def gateTables (access : VideoAccessPointState) (nextSdtCounter : UInt8) :
    List (List UInt8) × UInt8 :=
  match access.tables with
  | none => ([], nextSdtCounter)
  | some tables => tables.foldl appendTable ([], nextSdtCounter)

/-- `append_resumed_packet`: a marker if one is due and the packet cannot carry it, and the
packet. -/
def resumedPacket (markDiscontinuity : Bool) (markerPid : Option Nat) (pkt : List UInt8) :
    List (List UInt8) × List UInt8 :=
  if !markDiscontinuity then ([], pkt)
  else
    let markerPid := markerPid.getD (tsPid pkt)
    if markerPid ≠ tsPid pkt then
      ([discontinuityPacket markerPid (byteAt pkt 3 &&& 0x0f)], pkt)
    else
      match setDiscontinuityIndicator pkt with
      | some resumed => ([], resumed)
      | none => ([discontinuityPacket (tsPid pkt) (byteAt pkt 3 &&& 0x0f)], pkt)

theorem tsPid_discontinuityPacket {pid : Nat} (h : pid < 8192) (counter : UInt8) :
    tsPid (discontinuityPacket pid counter) = pid := by
  show (UInt8.ofNat (pid / 256) &&& 0x1f &&& 0x1f).toNat * 256 + (UInt8.ofNat pid).toNat = pid
  have hlow : ∀ b : UInt8, (b &&& 0x1f &&& 0x1f).toNat = b.toNat % 32 := by
    intro b
    rw [UInt8.toNat_and, UInt8.toNat_and, Nat.and_assoc]
    exact Nat.and_two_pow_sub_one_eq_mod b.toNat 5
  rw [hlow, UInt8.toNat_ofNat', UInt8.toNat_ofNat']
  omega

theorem length_discontinuityPacket (pid : Nat) (counter : UInt8) :
    (discontinuityPacket pid counter).length = tsPacketLen := by
  simp only [discontinuityPacket, tsPacketLen, List.length_append, List.length_cons,
    List.length_nil, List.length_replicate]

theorem tsPid_withCounter (pkt : List UInt8) (counter : UInt8) :
    tsPid (withCounter pkt counter) = tsPid pkt := tsPid_set _ (by decide)

theorem length_withCounter (pkt : List UInt8) (counter : UInt8) :
    (withCounter pkt counter).length = pkt.length := List.length_set

/-- Marking a packet changes neither its length nor its PID. -/
theorem setDiscontinuityIndicator_eq_some {pkt resumed : List UInt8}
    (h : setDiscontinuityIndicator pkt = some resumed) :
    resumed.length = pkt.length ∧ tsPid resumed = tsPid pkt := by
  unfold setDiscontinuityIndicator at h
  split at h
  · cases h
    exact ⟨List.length_set, tsPid_set _ (by decide)⟩
  · cases h

/-- The resumed packet is the packet but for the mark, and a marker is on the marked PID. -/
theorem resumedPacket_spec (mark : Bool) {markerPid : Option Nat} (pkt : List UInt8)
    (h : ∀ v ∈ markerPid, v < 8192) :
    (resumedPacket mark markerPid pkt).2.length = pkt.length ∧
      tsPid (resumedPacket mark markerPid pkt).2 = tsPid pkt ∧
      ∀ m ∈ (resumedPacket mark markerPid pkt).1, mark = true ∧ m.length = tsPacketLen ∧
        tsPid m = markerPid.getD (tsPid pkt) := by
  have hlt : markerPid.getD (tsPid pkt) < 8192 := by
    cases markerPid with
    | none => exact tsPid_lt pkt
    | some v => exact h v rfl
  unfold resumedPacket
  cases mark with
  | false => simp
  | true =>
    simp only [Bool.not_true, Bool.false_eq_true, if_false]
    split
    · refine ⟨rfl, rfl, fun m hm => ?_⟩
      obtain rfl := List.mem_singleton.mp hm
      exact ⟨trivial, length_discontinuityPacket .., tsPid_discontinuityPacket hlt _⟩
    · next heq =>
      have heq : markerPid.getD (tsPid pkt) = tsPid pkt := Decidable.not_not.mp heq
      split
      · next resumed hset =>
        obtain ⟨hlen, hpid⟩ := setDiscontinuityIndicator_eq_some hset
        exact ⟨hlen, hpid, fun m hm => by cases hm⟩
      · refine ⟨rfl, rfl, fun m hm => ?_⟩
        obtain rfl := List.mem_singleton.mp hm
        exact ⟨trivial, length_discontinuityPacket ..,
          (tsPid_discontinuityPacket (tsPid_lt pkt) _).trans heq.symm⟩

namespace KeyframeGate

/-- `DEFAULT_MAX_SCAN_PACKETS`. -/
def defaultMaxScanPackets : Nat := 60000

def withMaxScanPackets (maxScanPackets : Nat) : KeyframeGate where
  buf := []
  locked := false
  access := .new
  scanned := 0
  maxScanPackets := maxScanPackets
  filterSdt := false
  nextSdtCounter := 0
  markDiscontinuity := false

def new : KeyframeGate := withMaxScanPackets defaultMaxScanPackets

def withServiceName (raw : Option (List Char)) : KeyframeGate :=
  let access := VideoAccessPointState.withServiceName raw
  { new with access := access, filterSdt := access.hasServiceName }

def reset (g : KeyframeGate) : KeyframeGate :=
  { g with
    buf := []
    locked := false
    scanned := 0
    access := g.access.reset
    markDiscontinuity := false }

def resetForDiscontinuity (g : KeyframeGate) : KeyframeGate :=
  { g.reset with markDiscontinuity := true }

def rearmForDiscontinuity (g : KeyframeGate) : KeyframeGate :=
  { g with buf := [], locked := false, scanned := 0, markDiscontinuity := true }

/-- What one round puts out. -/
structure PacketOutput where
  /-- Tables and markers. -/
  inserted : List (List UInt8)
  /-- The packet itself, if it is handed on, with its discontinuity indicator set if that is due. -/
  forwarded : Option (List UInt8)
  withheld : Bool
  resumed : Option GateResume

def PacketOutput.packets (o : PacketOutput) : List (List UInt8) :=
  o.inserted ++ o.forwarded.toList

/-- A packet that takes part in the gating, with what the access point state says of it. -/
def gated (g : KeyframeGate) (pkt : List UInt8) (accessPoint : Bool)
    (access : VideoAccessPointState) : PacketOutput × KeyframeGate :=
  if g.locked then
    let (tables, counter) :=
      if g.filterSdt && accessPoint then gateTables access g.nextSdtCounter
      else ([], g.nextSdtCounter)
    (⟨tables, some pkt, false, none⟩, { g with access := access, nextSdtCounter := counter })
  else
    let scanned := wrappingAdd g.scanned 1
    if accessPoint then
      let (tables, counter) := gateTables access g.nextSdtCounter
      let (markers, resumed) := resumedPacket g.markDiscontinuity none pkt
      (⟨tables ++ markers, some resumed, false, some .accessPoint⟩,
        { g with
          access := access
          scanned := scanned
          locked := true
          nextSdtCounter := counter
          markDiscontinuity := false })
    else if g.maxScanPackets ≤ scanned then
      let (markers, resumed) := resumedPacket g.markDiscontinuity access.videoPid pkt
      (⟨markers, some resumed, false, some .scanBudget⟩,
        { g with access := access, scanned := scanned, locked := true, markDiscontinuity := false })
    else (⟨[], none, true, none⟩, { g with access := access, scanned := scanned })

variable {g : KeyframeGate}

theorem gated_locked (hl : g.locked = true) (pkt : List UInt8) (accessPoint : Bool)
    (access : VideoAccessPointState) :
    g.gated pkt accessPoint access =
      let t := if g.filterSdt && accessPoint then gateTables access g.nextSdtCounter
        else ([], g.nextSdtCounter)
      (⟨t.1, some pkt, false, none⟩, { g with access := access, nextSdtCounter := t.2 }) := by
  rw [gated, if_pos hl]

theorem gated_accessPoint (hl : g.locked = false) (pkt : List UInt8)
    (access : VideoAccessPointState) :
    g.gated pkt true access =
      let t := gateTables access g.nextSdtCounter
      let r := resumedPacket g.markDiscontinuity none pkt
      (⟨t.1 ++ r.1, some r.2, false, some .accessPoint⟩,
        { g with
          access := access
          scanned := wrappingAdd g.scanned 1
          locked := true
          nextSdtCounter := t.2
          markDiscontinuity := false }) := by
  rw [gated, if_neg (by simp [hl])]
  rfl

theorem gated_scanBudget (hl : g.locked = false) (hs : g.maxScanPackets ≤ wrappingAdd g.scanned 1)
    (pkt : List UInt8) (access : VideoAccessPointState) :
    g.gated pkt false access =
      let r := resumedPacket g.markDiscontinuity access.videoPid pkt
      (⟨r.1, some r.2, false, some .scanBudget⟩,
        { g with
          access := access
          scanned := wrappingAdd g.scanned 1
          locked := true
          markDiscontinuity := false }) := by
  simp only [gated, hl, Bool.false_eq_true, if_false, if_pos hs]

theorem gated_withheld (hl : g.locked = false) (hs : ¬g.maxScanPackets ≤ wrappingAdd g.scanned 1)
    (pkt : List UInt8) (access : VideoAccessPointState) :
    g.gated pkt false access =
      (⟨[], none, true, none⟩,
        { g with access := access, scanned := wrappingAdd g.scanned 1 }) := by
  simp only [gated, hl, Bool.false_eq_true, if_false, if_neg hs]

/-- The packet is an upstream service table that the gate takes out. -/
def filters (g : KeyframeGate) (pkt : List UInt8) : Bool :=
  g.filterSdt && decide (tsPid pkt = sdtPid)

def packet (g : KeyframeGate) (pkt : List UInt8) : PacketOutput × KeyframeGate :=
  if g.filters pkt then
    (⟨[], none, false, none⟩,
      if g.locked then g else { g with scanned := saturatingAdd g.scanned 1 })
  else g.gated pkt (g.access.observe pkt).1 (g.access.observe pkt).2

/-- The local variables of `push_report`. -/
structure Scan where
  gate : KeyframeGate
  i : Nat
  forwarded : List (Nat × Nat)
  out : List UInt8
  withheldBytes : Nat
  resumed : Option GateResume

def Scan.step (s : Scan) (pkt : List UInt8) : Scan :=
  let (o, gate) := s.gate.packet pkt
  { gate := gate
    i := s.i + tsPacketLen
    forwarded := if o.forwarded.isSome then select s.forwarded s.i else s.forwarded
    out := s.out ++ o.packets.flatten
    withheldBytes := if o.withheld then s.withheldBytes + tsPacketLen else s.withheldBytes
    resumed := o.resumed.or s.resumed }

/-- The whole packets of the buffer go through the gate, and the rest stays in it. -/
def pushReport (g : KeyframeGate) (data : List UInt8) : KeyframeGateOutput × KeyframeGate :=
  let (s, buf) := drain tsPacketLen Scan.step ⟨{ g with buf := [] }, 0, [], [], 0, none⟩ (g.buf ++ data)
  (⟨s.forwarded, s.out, s.withheldBytes, s.resumed⟩, { s.gate with buf := buf })

def push (g : KeyframeGate) (data : List UInt8) : List UInt8 × KeyframeGate :=
  ((g.pushReport data).1.bytes, (g.pushReport data).2)

/-! ### A push as a run over packets -/

/-- The gate after a packet. -/
def packetStep (g : KeyframeGate) (pkt : List UInt8) : KeyframeGate := (g.packet pkt).2

/-- The packets that it puts out. -/
def packetOut (g : KeyframeGate) (pkt : List UInt8) : List (List UInt8) := (g.packet pkt).1.packets

theorem foldl_step (s : Scan) (pkts : List (List UInt8)) :
    (pkts.foldl Scan.step s).gate = run packetStep s.gate pkts ∧
      (pkts.foldl Scan.step s).out = s.out ++ (emits packetStep packetOut s.gate pkts).flatten := by
  induction pkts generalizing s with
  | nil => simp
  | cons pkt pkts ih =>
    obtain ⟨hgate, hout⟩ := ih (s.step pkt)
    refine ⟨hgate, hout.trans ?_⟩
    rw [emits_cons, List.flatten_append, ← List.append_assoc]
    rfl

/-- What a push puts out, and the gate after it. -/
theorem push_eq (g : KeyframeGate) (data : List UInt8) :
    g.push data =
      ((emits packetStep packetOut { g with buf := [] } (blocks tsPacketLen (g.buf ++ data))).flatten,
        { run packetStep { g with buf := [] } (blocks tsPacketLen (g.buf ++ data)) with
          buf := rest tsPacketLen (g.buf ++ data) }) := by
  obtain ⟨hgate, hout⟩ := foldl_step ⟨{ g with buf := [] }, 0, [], [], 0, none⟩
    (blocks tsPacketLen (g.buf ++ data))
  simp only [push, pushReport, drain_eq tsPacketLen_pos, hgate, hout, List.nil_append]

theorem buf_gated (g : KeyframeGate) (pkt : List UInt8) (accessPoint : Bool)
    (access : VideoAccessPointState) : (g.gated pkt accessPoint access).2.buf = g.buf := by
  unfold gated
  split
  · rfl
  · dsimp only
    split
    · rfl
    · split <;> rfl

theorem buf_packetStep (g : KeyframeGate) (pkt : List UInt8) : (g.packetStep pkt).buf = g.buf := by
  unfold packetStep packet
  split
  · dsimp only
    split <;> rfl
  · exact buf_gated ..

theorem buf_run (g : KeyframeGate) (pkts : List (List UInt8)) :
    (run packetStep g pkts).buf = g.buf :=
  run_invariant (I := fun g' => g'.buf = g.buf) (fun g' pkt h => (buf_packetStep g' pkt).trans h) rfl
    pkts

end KeyframeGate

end Outpace.Media

import Outpace.Data.Blocks
import Outpace.Data.Machine
import Outpace.Media.PcrClock

/-!
# The startup reservoir

`StartupReservoir` of `ace-engine/src/startup_buffer.rs`. While it collects, the reservoir queues
chunks and follows the program clock of the packets in them, which may lie across chunks. A packet
that resets the clock starts a new epoch: everything queued before its first byte is dropped.

`Collects r bytes` relates the reservoir to the bytes since it was last emptied: the clock has seen
their whole packets, the packet begun is what follows these, and the queue holds the bytes from the
last reset on. `push` keeps it, and never underflows or slices out of range.

A panic is `none`. How long the queue plays is a floating point estimate, which is a parameter.
-/

namespace Outpace.Engine
open Media

structure StartupBufferConfig where
  targetMs : Nat
  maxBytes : Nat
  timeoutMs : Nat

def StartupBufferConfig.target (config : StartupBufferConfig) : Nat := config.targetMs * 1000000

def StartupBufferConfig.timeout (config : StartupBufferConfig) : Nat := config.timeoutMs * 1000000

inductive ReleaseReason where
  | targetDuration
  | byteLimit
  | deadline
  | endOfStream
  | disabled
  deriving DecidableEq

inductive Phase where
  | collecting
  | draining (reason : ReleaseReason)
  | released
  deriving DecidableEq

/-- Times are in nanoseconds, and those of the clock in its ticks. -/
structure StartupReservoir where
  config : StartupBufferConfig
  bitrate : Option Nat
  queue : List (List UInt8)
  queuedBytes : Nat
  clock : SelectedPcrClock
  partialPacket : List UInt8
  firstCleanByte : Option Nat
  releaseClockDuration : Option Nat
  releaseBytes : Nat
  phase : Phase

namespace StartupReservoir

def new (config : StartupBufferConfig) (bitrate : Option Nat) : StartupReservoir where
  config := config
  bitrate := bitrate.filter (0 < ·)
  queue := []
  queuedBytes := 0
  clock := .new
  partialPacket := []
  firstCleanByte := none
  releaseClockDuration := none
  releaseBytes := 0
  phase := if config.targetMs = 0 then .draining .disabled else .collecting

/-- The clock after a packet, and whether the packet reset it. A packet that is out of step starts
the new clock. -/
def observeClock (clock : SelectedPcrClock) (timing : TsTiming) : Bool × SelectedPcrClock :=
  match clock.observe timing with
  | (.reset, clock) => (true, if timing.discontinuity then clock else (clock.observe timing).2)
  | (_, clock) => (false, clock)

def observeTiming (r : StartupReservoir) (timing : TsTiming) : Bool × StartupReservoir :=
  let (reset, clock) := observeClock r.clock timing
  if reset then
    (true, { r with
      clock := clock, firstCleanByte := none, releaseClockDuration := none, releaseBytes := 0 })
  else (false, { r with clock := clock })

/-- The start of a packet that ends after `consumed` bytes of a chunk, with the queue before it. -/
def packetStart (prior consumed : Nat) : Option Nat := checkedSub (prior + consumed) tsPacketLen

/-- Observe the whole packets of a chunk. -/
def observePackets (prior : Nat) : (packets : List (List UInt8)) → (consumed : Nat) → Option Nat →
    StartupReservoir → Option (Option Nat × StartupReservoir)
  | [], _, retain, r => some (retain, r)
  | packet :: packets, consumed, retain, r =>
    let consumed := consumed + tsPacketLen
    let (reset, r) := r.observeTiming (tsTiming packet)
    if reset then
      (packetStart prior consumed).bind fun start =>
        observePackets prior packets consumed (some start) r
    else observePackets prior packets consumed retain r

/-- Observe what follows the packet that an earlier chunk began. -/
def observeRest (r : StartupReservoir) (prior : Nat) (bytes : List UInt8) (consumed : Nat)
    (retain : Option Nat) : Option (Option Nat × StartupReservoir) :=
  (observePackets prior (blocks tsPacketLen (bytes.drop consumed)) consumed retain r).map
    fun (retain, r) =>
      (retain, { r with
        partialPacket := r.partialPacket ++ rest tsPacketLen (bytes.drop consumed) })

/-- Observe complete packets, and find the offset of the last one that reset the clock in the queue
and the chunk behind it. -/
def observeBytes (r : StartupReservoir) (bytes : List UInt8) :
    Option (Option Nat × StartupReservoir) :=
  let prior := r.queuedBytes
  if r.partialPacket = [] then r.observeRest prior bytes 0 none
  else
    (checkedSub tsPacketLen r.partialPacket.length).bind fun missing =>
    let fill := min missing bytes.length
    let packet := r.partialPacket ++ bytes.take fill
    if packet.length < tsPacketLen then some (none, { r with partialPacket := packet })
    else if packet.length ≠ tsPacketLen then none
    else
      let (reset, r) := observeTiming { r with partialPacket := [] } (tsTiming packet)
      if reset then
        (packetStart prior fill).bind fun start => r.observeRest prior bytes fill (some start)
      else r.observeRest prior bytes fill none

/-- The loop of `discard_prefix`. Without a chunk left it would go on forever. -/
def discardLoop : (queue : List (List UInt8)) → (queuedBytes discard : Nat) →
    Option (List (List UInt8) × Nat)
  | queue, queuedBytes, 0 => some (queue, queuedBytes)
  | [], _, _ + 1 => none
  | front :: queue, queuedBytes, discard + 1 =>
    if discard + 1 < front.length then
      (checkedSub queuedBytes (discard + 1)).map fun n => (front.drop (discard + 1) :: queue, n)
    else
      (checkedSub queuedBytes front.length).bind fun n =>
        discardLoop queue n (discard + 1 - front.length)

/-- Drop what is before an offset in the queue and the chunk behind it. -/
def discardPrefix (r : StartupReservoir) (retainFrom : Nat) (chunk : List UInt8) :
    Option (List UInt8 × StartupReservoir) :=
  if r.queuedBytes ≤ retainFrom then
    let start := retainFrom - r.queuedBytes
    if chunk.length < start then none
    else some (chunk.drop start, { r with queue := [], queuedBytes := 0 })
  else
    (discardLoop r.queue r.queuedBytes retainFrom).map fun (queue, n) =>
      (chunk, { r with queue := queue, queuedBytes := n })

/-- The gap in the stream: nothing from before it is of use. -/
def discontinuity (r : StartupReservoir) : StartupReservoir :=
  { r with
    queue := [], queuedBytes := 0, partialPacket := [], clock := .new, firstCleanByte := none }

section
variable (duration : StartupReservoir → Nat)

def readyReason (r : StartupReservoir) (now : Nat) : Option ReleaseReason :=
  match r.phase with
  | .draining reason => some reason
  | .collecting =>
    if r.config.target ≤ duration r then some .targetDuration
    else if r.firstCleanByte.any fun start => decide (r.config.timeout ≤ now - start) then
      some .deadline
    else none
  | .released => none

def deadline (r : StartupReservoir) : Option Nat :=
  if r.phase = .collecting then r.firstCleanByte.map (· + r.config.timeout) else none

def release (r : StartupReservoir) (reason : ReleaseReason) : StartupReservoir :=
  if r.phase ≠ .collecting then r
  else { r with
    releaseClockDuration := r.clock.elapsed
    releaseBytes := r.queuedBytes
    phase := .draining reason }

/-- The end of `push`: the chunk is queued, and may be what the release was waiting for. The clock
on the wall is read twice. -/
def enqueue (r : StartupReservoir) (now later : Nat) (chunk : List UInt8) : StartupReservoir :=
  let r := { r with firstCleanByte := some (r.firstCleanByte.getD now) }
  let crossesCap := r.config.maxBytes < saturatingAdd r.queuedBytes chunk.length
  let r := { r with queuedBytes := r.queuedBytes + chunk.length, queue := r.queue ++ [chunk] }
  match if crossesCap then some .byteLimit else r.readyReason duration later with
  | none => r
  | some reason => r.release reason

def push (r : StartupReservoir) (now later : Nat) (chunk : List UInt8) :
    Option StartupReservoir :=
  if r.phase ≠ .collecting then some r
  else
    let r := { r with firstCleanByte := some (r.firstCleanByte.getD now) }
    (r.observeBytes chunk).bind fun (retain, r) =>
    match retain with
    | none => some (r.enqueue duration now later chunk)
    | some retainFrom =>
      (r.discardPrefix retainFrom chunk).map fun (chunk, r) => r.enqueue duration now later chunk

end

def popFront (r : StartupReservoir) : Option (Option (List UInt8) × StartupReservoir) :=
  match r.queue with
  | [] => some (none, r)
  | chunk :: queue => (checkedSub r.queuedBytes chunk.length).map fun n =>
    (some chunk, { r with queue := queue, queuedBytes := n })

def finishDrain (r : StartupReservoir) : StartupReservoir :=
  if r.phase ≠ .collecting ∧ r.phase ≠ .released ∧ r.queue = [] then { r with phase := .released }
  else r

/-! ### Epochs -/

/-- The clock after some packets, their number, and the last of them that reset it. -/
structure Scan where
  clock : SelectedPcrClock
  seen : Nat
  lastReset : Option Nat

def Scan.packet (s : Scan) (packet : List UInt8) : Scan :=
  let (reset, clock) := observeClock s.clock (tsTiming packet)
  ⟨clock, s.seen + 1, if reset then some s.seen else s.lastReset⟩

/-- A clock that sees the whole packets of a stream. -/
def scan (bytes : List UInt8) : Scan :=
  (blocks tsPacketLen bytes).foldl Scan.packet ⟨.new, 0, none⟩

/-- The packet that starts the last epoch of a stream. -/
def epoch (bytes : List UInt8) : Nat := (scan bytes).lastReset.getD 0

theorem scan_append (bytes chunk : List UInt8) :
    scan (bytes ++ chunk) =
      (blocks tsPacketLen (rest tsPacketLen bytes ++ chunk)).foldl Scan.packet (scan bytes) := by
  rw [scan, (blocks_append tsPacketLen_pos bytes chunk).1, List.foldl_append]
  rfl

theorem seen_foldl (packets : List (List UInt8)) (s : Scan) :
    (packets.foldl Scan.packet s).seen = s.seen + packets.length := by
  induction packets generalizing s with
  | nil => rfl
  | cons packet packets ih =>
    rw [List.foldl_cons, ih, List.length_cons]
    show s.seen + 1 + packets.length = _
    omega

theorem seen_scan (bytes : List UInt8) : (scan bytes).seen = bytes.length / tsPacketLen := by
  rw [scan, seen_foldl, length_blocks, Nat.zero_add]

theorem lastReset_foldl {packets : List (List UInt8)} {s : Scan}
    (h : ∀ i, s.lastReset = some i → i < s.seen) {i : Nat}
    (hi : (packets.foldl Scan.packet s).lastReset = some i) :
    i < (packets.foldl Scan.packet s).seen := by
  induction packets generalizing s with
  | nil => exact h i hi
  | cons packet packets ih =>
    refine ih (fun j hj => ?_) hi
    show j < s.seen + 1
    simp only [Scan.packet] at hj
    split at hj
    · cases hj
      exact Nat.lt_succ_self _
    · exact Nat.lt_succ_of_lt (h j hj)

/-- The packet that starts the last epoch is whole. -/
theorem lastReset_lt {bytes : List UInt8} {i : Nat} (h : (scan bytes).lastReset = some i) :
    i * tsPacketLen + tsPacketLen ≤ bytes.length := by
  have hlt := lastReset_foldl (s := ⟨.new, 0, none⟩) (fun _ hj => by cases hj) h
  rw [seen_foldl, length_blocks, Nat.zero_add] at hlt
  exact le_of_lt_blocks hlt

theorem epoch_le (bytes : List UInt8) : epoch bytes * tsPacketLen ≤ bytes.length := by
  unfold epoch
  cases h : (scan bytes).lastReset with
  | none => simp
  | some i => exact Nat.le_of_add_right_le (lastReset_lt h)

/-- The reservoir has collected the bytes since it was last empty. -/
structure Collects (r : StartupReservoir) (bytes : List UInt8) : Prop where
  clock : r.clock = (scan bytes).clock
  partialPacket : r.partialPacket = rest tsPacketLen bytes
  queue : r.queue.flatten = bytes.drop (epoch bytes * tsPacketLen)
  count : r.queuedBytes = r.queue.flatten.length

variable {r r' : StartupReservoir} {bytes chunk : List UInt8}

/-- What observing packets leaves alone. -/
structure Kept (r r' : StartupReservoir) : Prop where
  queue : r'.queue = r.queue
  queuedBytes : r'.queuedBytes = r.queuedBytes
  phase : r'.phase = r.phase

theorem Kept.refl (r : StartupReservoir) : Kept r r := ⟨rfl, rfl, rfl⟩

theorem Kept.trans {r'' : StartupReservoir} (h : Kept r r') (h' : Kept r' r'') : Kept r r'' :=
  ⟨h'.queue.trans h.queue, h'.queuedBytes.trans h.queuedBytes, h'.phase.trans h.phase⟩

theorem observeTiming_spec {clock : SelectedPcrClock} (h : r.clock = clock) (timing : TsTiming) :
    (r.observeTiming timing).1 = (observeClock clock timing).1 ∧
      (r.observeTiming timing).2.clock = (observeClock clock timing).2 ∧
      (r.observeTiming timing).2.partialPacket = r.partialPacket ∧
      Kept r (r.observeTiming timing).2 := by
  subst h
  unfold observeTiming
  dsimp only
  split
  · next h => exact ⟨h.symm, rfl, rfl, rfl, rfl, rfl⟩
  · next h => exact ⟨(Bool.eq_false_iff.mpr h).symm, rfl, rfl, rfl, rfl, rfl⟩

/-- The offset to retain from is that of the last reset since the chunk began, counted from the
packet that the queue begins with. -/
def Retains (first : Nat) (before : Option Nat) : (retain after : Option Nat) → Prop
  | none, after => after = before
  | some start, after => ∃ i, after = some i ∧ start + first * tsPacketLen = i * tsPacketLen

theorem observePackets_spec {prior first consumed : Nat} {before retain : Option Nat} {s : Scan}
    (packets : List (List UInt8)) (hclock : r.clock = s.clock)
    (hpos : prior + consumed + first * tsPacketLen = s.seen * tsPacketLen)
    (hretain : Retains first before retain s.lastReset) :
    ∃ retain' r', observePackets prior packets consumed retain r = some (retain', r') ∧
      r'.clock = (packets.foldl Scan.packet s).clock ∧
      Retains first before retain' (packets.foldl Scan.packet s).lastReset ∧
      r'.partialPacket = r.partialPacket ∧ Kept r r' := by
  induction packets generalizing consumed retain r s with
  | nil => exact ⟨retain, r, rfl, hclock, hretain, rfl, .refl r⟩
  | cons packet packets ih =>
    obtain ⟨hreset, hclock', hpart, hkept⟩ := observeTiming_spec hclock (tsTiming packet)
    have hpos' : prior + (consumed + tsPacketLen) + first * tsPacketLen =
        (s.packet packet).seen * tsPacketLen := by
      show _ = (s.seen + 1) * tsPacketLen
      rw [Nat.succ_mul, ← hpos]
      omega
    have hlast : (s.packet packet).lastReset =
        if (observeClock s.clock (tsTiming packet)).1 then some s.seen else s.lastReset := rfl
    unfold observePackets
    dsimp only
    cases hr : (observeClock s.clock (tsTiming packet)).1 with
    | true =>
      have hstart : packetStart prior (consumed + tsPacketLen) = some (prior + consumed) := by
        rw [packetStart, checkedSub_of_le (by omega)]
        exact congrArg some (by omega)
      rw [hr] at hlast
      rw [if_pos (hreset.trans hr), hstart, Option.bind_some]
      obtain ⟨retain', r', heq, hclock, hretain, hpart', hkept'⟩ :=
        ih hclock' hpos' (show Retains first before (some (prior + consumed)) _ from
          ⟨s.seen, hlast, hpos⟩)
      exact ⟨retain', r', heq, hclock, hretain, hpart'.trans hpart, hkept.trans hkept'⟩
    | false =>
      rw [hr, if_neg Bool.false_ne_true] at hlast
      rw [if_neg (by rw [hreset, hr]; exact Bool.false_ne_true)]
      obtain ⟨retain', r', heq, hclock, hretain, hpart', hkept'⟩ :=
        ih hclock' hpos' (hlast.symm ▸ hretain)
      exact ⟨retain', r', heq, hclock, hretain, hpart'.trans hpart, hkept.trans hkept'⟩

/-- What a chunk behind some bytes has to be observed as. -/
structure Observed (bytes chunk : List UInt8) (r : StartupReservoir) (retain : Option Nat)
    (r' : StartupReservoir) : Prop where
  clock : r'.clock = (scan (bytes ++ chunk)).clock
  partialPacket : r'.partialPacket = rest tsPacketLen (bytes ++ chunk)
  retains : Retains (epoch bytes) (scan bytes).lastReset retain (scan (bytes ++ chunk)).lastReset
  kept : Kept r r'

/-- What follows the packet that an earlier chunk began, or the chunk itself if there is none. -/
theorem observeRest_spec {prior consumed : Nat} {retain : Option Nat} {s : Scan}
    (hclock : r.clock = s.clock) (hpart : r.partialPacket = [])
    (hpos : prior + consumed + epoch bytes * tsPacketLen = s.seen * tsPacketLen)
    (hretain : Retains (epoch bytes) (scan bytes).lastReset retain s.lastReset)
    (hscan : scan (bytes ++ chunk) =
      (blocks tsPacketLen (chunk.drop consumed)).foldl Scan.packet s)
    (hrest : rest tsPacketLen (bytes ++ chunk) = rest tsPacketLen (chunk.drop consumed)) :
    ∃ retain' r', r.observeRest prior chunk consumed retain = some (retain', r') ∧
      Observed bytes chunk r retain' r' := by
  obtain ⟨retain', r', heq, hclock', hretain', hpart', hkept⟩ :=
    observePackets_spec (blocks tsPacketLen (chunk.drop consumed)) hclock hpos hretain
  unfold observeRest
  rw [heq, Option.map_some]
  refine ⟨_, _, rfl, hclock'.trans (hscan ▸ rfl), ?_, hscan ▸ hretain', hkept.queue,
    hkept.queuedBytes, hkept.phase⟩
  show r'.partialPacket ++ _ = _
  rw [hpart', hpart, List.nil_append, hrest]

theorem length_rest_lt (bytes : List UInt8) : (rest tsPacketLen bytes).length < tsPacketLen := by
  rw [rest, List.length_drop, Nat.mul_comm, ← Nat.mod_eq_sub]
  exact Nat.mod_lt _ tsPacketLen_pos

/-- The bytes before a chunk are the packets seen and the packet begun. -/
theorem length_eq_seen (bytes : List UInt8) :
    bytes.length = (scan bytes).seen * tsPacketLen + (rest tsPacketLen bytes).length := by
  rw [seen_scan, rest, List.length_drop]
  have := Nat.div_mul_le_self bytes.length tsPacketLen
  omega

theorem Collects.queuedBytes (C : Collects r bytes) :
    r.queuedBytes + epoch bytes * tsPacketLen = bytes.length := by
  rw [C.count, C.queue, List.length_drop]
  have := epoch_le bytes
  omega

theorem epoch_le_seen (bytes : List UInt8) : epoch bytes ≤ (scan bytes).seen := by
  rw [seen_scan]
  exact (Nat.le_div_iff_mul_le tsPacketLen_pos).mpr (epoch_le bytes)

/-- The chunk completes the packet that an earlier one began. -/
theorem Collects.observeFirst (C : Collects r bytes) {packet : List UInt8} {fill : Nat}
    (hlen : r.partialPacket.length + fill = tsPacketLen)
    (hscan : scan (bytes ++ chunk) =
      (blocks tsPacketLen (chunk.drop fill)).foldl Scan.packet ((scan bytes).packet packet))
    (hrest : rest tsPacketLen (bytes ++ chunk) = rest tsPacketLen (chunk.drop fill)) :
    ∃ retain r',
      (if (observeTiming { r with partialPacket := [] } (tsTiming packet)).1 then
        (packetStart r.queuedBytes fill).bind fun start =>
          (observeTiming { r with partialPacket := [] } (tsTiming packet)).2.observeRest
            r.queuedBytes chunk fill (some start)
      else (observeTiming { r with partialPacket := [] } (tsTiming packet)).2.observeRest
        r.queuedBytes chunk fill none) = some (retain, r') ∧
      Observed bytes chunk r retain r' := by
  have hcount := C.queuedBytes
  have hbytes := length_eq_seen bytes
  have hle := epoch_le_seen bytes
  rw [← C.partialPacket] at hbytes
  have hbegun : ({ r with partialPacket := [] } : StartupReservoir).clock = (scan bytes).clock :=
    C.clock
  obtain ⟨hreset, hclock, hpart, hkept⟩ := observeTiming_spec hbegun (tsTiming packet)
  have hpos : r.queuedBytes + fill + epoch bytes * tsPacketLen =
      ((scan bytes).packet packet).seen * tsPacketLen := by
    show _ = ((scan bytes).seen + 1) * tsPacketLen
    rw [Nat.succ_mul]
    omega
  have hlast : ((scan bytes).packet packet).lastReset =
      if (observeClock (scan bytes).clock (tsTiming packet)).1 then some (scan bytes).seen
      else (scan bytes).lastReset := rfl
  have hobserve {start : Option Nat} (hretain : Retains (epoch bytes) (scan bytes).lastReset start
      ((scan bytes).packet packet).lastReset) :
      ∃ retain r', (observeTiming { r with partialPacket := [] } (tsTiming packet)).2.observeRest
        r.queuedBytes chunk fill start = some (retain, r') ∧ Observed bytes chunk r retain r' := by
    obtain ⟨retain, r', heq, O⟩ := observeRest_spec hclock hpart hpos hretain hscan hrest
    exact ⟨retain, r', heq, O.clock, O.partialPacket, O.retains,
      O.kept.queue.trans hkept.queue, O.kept.queuedBytes.trans hkept.queuedBytes,
      O.kept.phase.trans hkept.phase⟩
  rw [hreset]
  cases hr : (observeClock (scan bytes).clock (tsTiming packet)).1 with
  | true =>
    have hmul := Nat.mul_le_mul_right tsPacketLen hle
    have hstart : packetStart r.queuedBytes fill = some (r.queuedBytes + fill - tsPacketLen) :=
      checkedSub_of_le (by omega)
    rw [hr, if_pos rfl] at hlast
    rw [if_pos rfl, hstart, Option.bind_some]
    exact hobserve ⟨_, hlast, by omega⟩
  | false =>
    rw [hr, if_neg Bool.false_ne_true] at hlast
    rw [if_neg Bool.false_ne_true]
    exact hobserve hlast

theorem Collects.observeBytes (C : Collects r bytes) (chunk : List UInt8) :
    ∃ retain r', r.observeBytes chunk = some (retain, r') ∧ Observed bytes chunk r retain r' := by
  have hscan := scan_append bytes chunk
  have hrest := (blocks_append tsPacketLen_pos bytes chunk).2
  rw [← C.partialPacket] at hscan hrest
  unfold StartupReservoir.observeBytes
  by_cases hpart : r.partialPacket = []
  · have hcount := C.queuedBytes
    have hlen := length_eq_seen bytes
    rw [hpart, List.nil_append] at hscan hrest
    rw [← C.partialPacket, hpart, List.length_nil] at hlen
    simp only [hpart, if_true]
    exact observeRest_spec C.clock hpart (by omega) rfl (by rwa [List.drop_zero])
      (by rwa [List.drop_zero])
  have hlt : r.partialPacket.length < tsPacketLen := C.partialPacket ▸ length_rest_lt bytes
  simp only [hpart, if_false, checkedSub_of_le (Nat.le_of_lt hlt), Option.bind_some]
  by_cases hshort : (r.partialPacket ++ chunk).length < tsPacketLen
  · -- the chunk does not complete the packet
    have htake : chunk.take (min (tsPacketLen - r.partialPacket.length) chunk.length) = chunk := by
      rw [List.length_append] at hshort
      exact List.take_of_length_le (by omega)
    rw [blocks_of_lt hshort] at hscan
    rw [htake, if_pos hshort]
    refine ⟨none, _, rfl, ?_, ?_, ?_, rfl, rfl, rfl⟩
    · rw [hscan]
      exact C.clock
    · rw [hrest, rest_of_lt hshort]
    · rw [hscan]
      rfl
  have hle : tsPacketLen ≤ (r.partialPacket ++ chunk).length := Nat.le_of_not_lt hshort
  obtain ⟨hblocks, hrest'⟩ := blocks_complete hlt hle
  have hfill : min (tsPacketLen - r.partialPacket.length) chunk.length =
      tsPacketLen - r.partialPacket.length := by
    rw [List.length_append] at hle
    omega
  have hpacket : (r.partialPacket ++ chunk.take (tsPacketLen - r.partialPacket.length)).length =
      tsPacketLen := by
    rw [List.length_append] at hle
    rw [List.length_append, List.length_take]
    omega
  rw [hfill, if_neg (by omega), if_neg (by omega)]
  exact C.observeFirst (by omega) (by rw [hscan, hblocks, List.foldl_cons]) (hrest.trans hrest')

/-! ### Dropping what is before an epoch -/

theorem discardLoop_spec {queue : List (List UInt8)} {discard : Nat}
    (h : discard ≤ queue.flatten.length) :
    ∃ queue', discardLoop queue queue.flatten.length discard =
        some (queue', queue'.flatten.length) ∧
      queue'.flatten = queue.flatten.drop discard ∧ queue'.length ≤ queue.length := by
  induction queue generalizing discard with
  | nil =>
    obtain rfl := Nat.le_zero.mp h
    exact ⟨[], rfl, rfl, Nat.le_refl _⟩
  | cons front queue ih =>
    cases discard with
    | zero => exact ⟨front :: queue, rfl, rfl, Nat.le_refl _⟩
    | succ discard =>
      rw [List.flatten_cons, List.length_append] at h ⊢
      rw [discardLoop]
      split
      · next hlt =>
        refine ⟨front.drop (discard + 1) :: queue, ?_, ?_, Nat.le_refl _⟩
        · rw [checkedSub_of_le (by omega), Option.map_some, List.flatten_cons, List.length_append,
            List.length_drop, Nat.sub_add_comm (Nat.le_of_lt hlt)]
        · rw [List.flatten_cons, List.drop_append_of_le_length (Nat.le_of_lt hlt)]
      · next hge =>
        obtain ⟨queue', heq, hdrop, hlen⟩ :=
          ih (show discard + 1 - front.length ≤ queue.flatten.length by omega)
        refine ⟨queue', ?_, ?_, Nat.le_succ_of_le hlen⟩
        · rw [checkedSub_of_le (by omega), Option.bind_some, Nat.add_sub_cancel_left, heq]
        · have hfront : front.drop (discard + 1) = [] := List.drop_of_length_le (by omega)
          rw [hdrop, List.drop_append, hfront, List.nil_append]

/-- What is left of the queue and the chunk is what is behind the offset. -/
theorem discardPrefix_spec {retainFrom : Nat} (hcount : r.queuedBytes = r.queue.flatten.length)
    (h : retainFrom ≤ r.queuedBytes + chunk.length) :
    ∃ chunk' queue', r.discardPrefix retainFrom chunk =
        some (chunk', { r with queue := queue', queuedBytes := queue'.flatten.length }) ∧
      queue'.flatten ++ chunk' = (r.queue.flatten ++ chunk).drop retainFrom ∧
      queue'.length ≤ r.queue.length := by
  unfold discardPrefix
  split
  · next hle =>
    rw [if_neg (by omega)]
    refine ⟨_, [], rfl, ?_, Nat.zero_le _⟩
    have hqueue : r.queue.flatten.drop retainFrom = [] := List.drop_of_length_le (by omega)
    rw [List.drop_append, hqueue, ← hcount]
    rfl
  · next hgt =>
    rw [hcount] at hgt ⊢
    obtain ⟨queue', heq, hdrop, hlen⟩ :=
      discardLoop_spec (show retainFrom ≤ r.queue.flatten.length by omega)
    refine ⟨chunk, queue', by rw [heq]; rfl, ?_, hlen⟩
    rw [hdrop, List.drop_append_of_le_length (by omega)]

/-! ### Pushing a chunk -/

section
variable (duration : StartupReservoir → Nat) (now later : Nat)

/-- A chunk is queued, and what is left is a matter of the phase. -/
theorem enqueue_spec (r : StartupReservoir) (chunk : List UInt8) :
    (r.enqueue duration now later chunk).queue = r.queue ++ [chunk] ∧
      (r.enqueue duration now later chunk).queuedBytes = r.queuedBytes + chunk.length ∧
      (r.enqueue duration now later chunk).clock = r.clock ∧
      (r.enqueue duration now later chunk).partialPacket = r.partialPacket ∧
      (r.phase ≠ .released → (r.enqueue duration now later chunk).phase ≠ .released) := by
  unfold enqueue
  dsimp only
  split
  · exact ⟨rfl, rfl, rfl, rfl, id⟩
  · unfold release
    split
    · exact ⟨rfl, rfl, rfl, rfl, id⟩
    · exact ⟨rfl, rfl, rfl, rfl, fun _ => Phase.noConfusion⟩

/-- The rest of a chunk is queued behind what is left of the queue. -/
theorem Collects.enqueue (hclock : r.clock = (scan bytes).clock)
    (hpart : r.partialPacket = rest tsPacketLen bytes)
    (hcount : r.queuedBytes = r.queue.flatten.length)
    (hqueue : r.queue.flatten ++ chunk = bytes.drop (epoch bytes * tsPacketLen)) :
    Collects (r.enqueue duration now later chunk) bytes := by
  obtain ⟨hq, hn, hc, hp, -⟩ := r.enqueue_spec duration now later chunk
  have hflatten : (r.queue ++ [chunk]).flatten = r.queue.flatten ++ chunk := by simp
  refine ⟨hc.trans hclock, hp.trans hpart, ?_, ?_⟩
  · rw [hq, hflatten, hqueue]
  · rw [hn, hq, hflatten, List.length_append, hcount]

/-- A reservoir that collects takes every chunk. -/
theorem Collects.push (C : Collects r bytes) (hphase : r.phase = .collecting)
    (chunk : List UInt8) :
    ∃ r', r.push duration now later chunk = some r' ∧ Collects r' (bytes ++ chunk) ∧
      r'.phase ≠ .released ∧ r'.queue ≠ [] ∧ r'.queue.length ≤ r.queue.length + 1 := by
  have C₁ : Collects { r with firstCleanByte := some (r.firstCleanByte.getD now) } bytes :=
    ⟨C.clock, C.partialPacket, C.queue, C.count⟩
  obtain ⟨retain, r₁, hobserve, O⟩ := C₁.observeBytes chunk
  have hqueue : r₁.queue = r.queue := O.kept.queue
  have hn : r₁.queuedBytes = r.queuedBytes := O.kept.queuedBytes
  have hphase₁ : r₁.phase ≠ .released := by
    rw [show r₁.phase = r.phase from O.kept.phase, hphase]
    exact Phase.noConfusion
  have hcount : r₁.queuedBytes = r₁.queue.flatten.length := by rw [hn, hqueue, C.count]
  have hretains := O.retains
  unfold StartupReservoir.push
  rw [if_neg (not_not.mpr hphase)]
  simp only [hobserve, Option.bind_some]
  cases retain with
  | none =>
    have hsame : epoch (bytes ++ chunk) = epoch bytes := congrArg (·.getD 0) hretains
    obtain ⟨hq, -, -, -, hp⟩ := r₁.enqueue_spec duration now later chunk
    refine ⟨_, rfl, .enqueue duration now later O.clock O.partialPacket hcount ?_, hp hphase₁, ?_,
      ?_⟩
    · rw [hqueue, C.queue, hsame, List.drop_append_of_le_length (epoch_le bytes)]
    · rw [hq]
      exact List.append_ne_nil_of_right_ne_nil _ (List.cons_ne_nil _ _)
    · rw [hq, hqueue, List.length_append, List.length_singleton]
  | some start =>
    obtain ⟨i, hlast, hstart⟩ := hretains
    have hepoch : epoch (bytes ++ chunk) = i := by rw [epoch, hlast]; rfl
    have hle := lastReset_lt hlast
    have hlen := C.queuedBytes
    rw [List.length_append] at hle
    obtain ⟨chunk', queue', heq, hdrop, hshort⟩ := discardPrefix_spec hcount
      (show start ≤ r₁.queuedBytes + chunk.length by omega)
    simp only [heq, Option.map_some]
    obtain ⟨hq, -, -, -, hp⟩ := enqueue_spec duration now later
      { r₁ with queue := queue', queuedBytes := queue'.flatten.length } chunk'
    refine ⟨_, rfl, .enqueue duration now later O.clock O.partialPacket rfl ?_, hp hphase₁, ?_, ?_⟩
    · rw [hdrop, hqueue, C.queue, ← List.drop_append_of_le_length (epoch_le bytes), List.drop_drop,
        hepoch, ← hstart, Nat.add_comm]
    · rw [hq]
      exact List.append_ne_nil_of_right_ne_nil _ (List.cons_ne_nil _ _)
    · rw [hq, List.length_append, List.length_singleton]
      rw [hqueue] at hshort
      exact Nat.succ_le_succ hshort

end

end StartupReservoir

end Outpace.Engine

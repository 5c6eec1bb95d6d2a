import Mathlib.Algebra.GroupWithZero.Nat
import Mathlib.Data.List.Induction
import Outpace.Data.Run
import Outpace.Engine.StartupBuffer

/-!
# The startup buffer over a source

`StartupBufferedSource` of `ace-engine/src/startup_buffer.rs`. A turn is one pass of the loop in
`next`, with the time at which it happens; where `next` returns a chunk, the consumer asks for its
discontinuity, as the readers of a source do. A pull that the deadline interrupts leaves the chunk
with the inner source.

The chunks of the inner source are pulled while the reservoir collects or passed on once it is
released. `Inv` says that what was pulled is either in the queue or was drained from it, apart from
what is before the last epoch.
-/

namespace Outpace.Engine
open Media StartupReservoir

/-- A chunk of the inner source, and whether there is a gap before it. -/
structure InnerChunk where
  bytes : List UInt8
  flagged : Bool
  deriving DecidableEq

/-- When a turn happens, and whether the deadline passes before there is a chunk. -/
structure Tick where
  now : Nat
  later : Nat
  late : Bool

inductive SourceEvent where
  /-- The buffer pulled a chunk while it collects. -/
  | pulled (chunk : InnerChunk)
  /-- `next` returned a chunk of the queue, with its discontinuity. -/
  | drained (bytes : List UInt8) (discontinuity : Bool)
  /-- `next` returned a chunk of the inner source. -/
  | passed (bytes : List UInt8) (discontinuity : Bool)
  | ended

structure StartupBufferedSource where
  inner : List InnerChunk
  /-- What the inner source has to report about the chunk that it returned last. -/
  innerFlag : Bool
  reservoir : StartupReservoir
  pendingDiscontinuity : Bool
  releasedChunkDiscontinuity : Bool

namespace StartupBufferedSource

def new (config : StartupBufferConfig) (bitrate : Option Nat) (inner : List InnerChunk) :
    StartupBufferedSource :=
  ⟨inner, false, .new config bitrate, false, false⟩

/-- `next` of the inner source. -/
def innerNext (s : StartupBufferedSource) : Option InnerChunk × StartupBufferedSource :=
  match s.inner with
  | [] => (none, s)
  | chunk :: inner => (some chunk, { s with inner := inner, innerFlag := chunk.flagged })

/-- `take_discontinuity` of the inner source. -/
def innerTake (s : StartupBufferedSource) : Bool × StartupBufferedSource :=
  (s.innerFlag, { s with innerFlag := false })

def takeDiscontinuity (s : StartupBufferedSource) : Bool × StartupBufferedSource :=
  if s.reservoir.phase = .released then s.innerTake
  else (s.releasedChunkDiscontinuity, { s with releasedChunkDiscontinuity := false })

section
variable (duration : StartupReservoir → Nat)

def collectNext (s : StartupBufferedSource) (tick : Tick) :
    Option (StartupBufferedSource × List SourceEvent) :=
  if tick.late ∧ s.reservoir.deadline.isSome then
    some ({ s with reservoir := s.reservoir.release .deadline }, [])
  else match s.innerNext with
    | (none, s) => some ({ s with reservoir := s.reservoir.release .endOfStream }, [])
    | (some chunk, s) =>
      let (flagged, s) := s.innerTake
      let s := if flagged then
          { s with reservoir := s.reservoir.discontinuity, pendingDiscontinuity := true }
        else s
      (s.reservoir.push duration tick.now tick.later chunk.bytes).map fun reservoir =>
        ({ s with reservoir := reservoir }, [.pulled chunk])

/-- One pass of the loop in `next`. -/
def turn (s : StartupBufferedSource) (tick : Tick) :
    Option (StartupBufferedSource × List SourceEvent) :=
  match s.reservoir.phase with
  | .collecting => s.collectNext duration tick
  | .draining _ => s.reservoir.popFront.map fun
    | (some chunk, reservoir) =>
      let s := { s with
        reservoir := reservoir
        releasedChunkDiscontinuity := s.pendingDiscontinuity
        pendingDiscontinuity := false }
      let (flag, s) := s.takeDiscontinuity
      (s, [.drained chunk flag])
    | (none, reservoir) => ({ s with reservoir := reservoir.finishDrain }, [])
  | .released =>
    match s.innerNext with
    | (none, s) => some (s, [.ended])
    | (some chunk, s) =>
      let (flag, s) := s.takeDiscontinuity
      some (s, [.passed chunk.bytes flag])

/-- A source that has panicked takes no further turn. -/
def step (s : Option StartupBufferedSource) (tick : Tick) : Option StartupBufferedSource :=
  (s.bind (turn duration · tick)).map (·.1)

def events (s : Option StartupBufferedSource) (tick : Tick) : List SourceEvent :=
  ((s.bind (turn duration · tick)).map (·.2)).getD []

end

/-! ### What a run has done -/

def pulled (log : List SourceEvent) : List InnerChunk :=
  log.filterMap fun
    | .pulled chunk => some chunk
    | _ => none

def drained (log : List SourceEvent) : List InnerChunk :=
  log.filterMap fun
    | .drained bytes flag => some ⟨bytes, flag⟩
    | _ => none

def passed (log : List SourceEvent) : List InnerChunk :=
  log.filterMap fun
    | .passed bytes flag => some ⟨bytes, flag⟩
    | _ => none

/-- The chunks that `next` returned. -/
def outputs (log : List SourceEvent) : List InnerChunk :=
  log.filterMap fun
    | .drained bytes flag | .passed bytes flag => some ⟨bytes, flag⟩
    | _ => none

def bytesOf (chunks : List InnerChunk) : List UInt8 := chunks.flatMap (·.bytes)

/-- A gap was reported before one of the chunks. -/
def hasGap (chunks : List InnerChunk) : Bool := chunks.any (·.flagged)

/-- The start of the last flagged chunk. -/
def flagStart (chunks : List InnerChunk) : Nat :=
  (chunks.foldl (fun (position, start) chunk =>
    (position + chunk.bytes.length, if chunk.flagged then position else start)) (0, 0)).2

/-- The bytes since the last flagged chunk. -/
def sinceFlag (chunks : List InnerChunk) : List UInt8 := (bytesOf chunks).drop (flagStart chunks)

/-- Where the output begins: at the last flagged chunk, or at the last packet behind its start that
reset the clock. -/
def outputStart (chunks : List InnerChunk) : Nat :=
  flagStart chunks + epoch (sinceFlag chunks) * tsPacketLen

theorem pulled_append (xs ys : List SourceEvent) : pulled (xs ++ ys) = pulled xs ++ pulled ys :=
  List.filterMap_append

theorem drained_append (xs ys : List SourceEvent) :
    drained (xs ++ ys) = drained xs ++ drained ys :=
  List.filterMap_append

theorem passed_append (xs ys : List SourceEvent) : passed (xs ++ ys) = passed xs ++ passed ys :=
  List.filterMap_append

theorem outputs_append (xs ys : List SourceEvent) :
    outputs (xs ++ ys) = outputs xs ++ outputs ys :=
  List.filterMap_append

theorem bytesOf_append (xs ys : List InnerChunk) : bytesOf (xs ++ ys) = bytesOf xs ++ bytesOf ys :=
  List.flatMap_append

theorem bytesOf_singleton (chunk : InnerChunk) : bytesOf [chunk] = chunk.bytes :=
  List.flatMap_singleton ..

theorem foldl_position (chunks : List InnerChunk) (position start : Nat) :
    (chunks.foldl (fun (position, start) chunk =>
      (position + chunk.bytes.length, if chunk.flagged then position else start))
        (position, start)).1 = position + (bytesOf chunks).length := by
  induction chunks generalizing position start with
  | nil => rfl
  | cons chunk chunks ih =>
    have hbytes : (bytesOf (chunk :: chunks)).length =
        chunk.bytes.length + (bytesOf chunks).length := List.length_append
    rw [List.foldl_cons, ih, hbytes, Nat.add_assoc]

theorem flagStart_concat (chunks : List InnerChunk) (chunk : InnerChunk) :
    flagStart (chunks ++ [chunk]) =
      if chunk.flagged then (bytesOf chunks).length else flagStart chunks := by
  have hposition := foldl_position chunks 0 0
  rw [Nat.zero_add] at hposition
  rw [flagStart, List.foldl_append]
  show (if chunk.flagged then _ else _) = _
  rw [hposition]
  rfl

theorem flagStart_le (chunks : List InnerChunk) : flagStart chunks ≤ (bytesOf chunks).length := by
  induction chunks using List.reverseRecOn with
  | nil => exact Nat.zero_le _
  | append_singleton chunks chunk ih =>
    rw [flagStart_concat, bytesOf_append, List.length_append]
    split
    · exact Nat.le_add_right ..
    · exact Nat.le_add_right_of_le ih

theorem sinceFlag_concat (chunks : List InnerChunk) (chunk : InnerChunk) :
    sinceFlag (chunks ++ [chunk]) =
      if chunk.flagged then chunk.bytes else sinceFlag chunks ++ chunk.bytes := by
  rw [sinceFlag, flagStart_concat, bytesOf_append, bytesOf_singleton]
  split
  · rw [List.drop_left]
  · rw [List.drop_append_of_le_length (flagStart_le chunks)]
    rfl

theorem flagStart_of_unflagged {chunks : List InnerChunk} (h : ∀ c ∈ chunks, c.flagged = false) :
    flagStart chunks = 0 := by
  induction chunks using List.reverseRecOn with
  | nil => rfl
  | append_singleton chunks chunk ih =>
    rw [flagStart_concat, h chunk (by simp), if_neg Bool.false_ne_true]
    exact ih fun c hc => h c (List.mem_append_left _ hc)

/-- Where the output begins does not depend on how unflagged bytes are cut into chunks. -/
theorem outputStart_of_unflagged {xs ys : List InnerChunk} (hx : ∀ c ∈ xs, c.flagged = false)
    (hy : ∀ c ∈ ys, c.flagged = false) (h : bytesOf xs = bytesOf ys) :
    outputStart xs = outputStart ys := by
  rw [outputStart, outputStart, sinceFlag, sinceFlag, flagStart_of_unflagged hx,
    flagStart_of_unflagged hy, h]

theorem drop_outputStart (chunks : List InnerChunk) :
    (bytesOf chunks).drop (outputStart chunks) =
      (sinceFlag chunks).drop (epoch (sinceFlag chunks) * tsPacketLen) := by
  rw [outputStart, sinceFlag, List.drop_drop]

theorem outputStart_le (chunks : List InnerChunk) :
    outputStart chunks ≤ (bytesOf chunks).length := by
  have hepoch := epoch_le (sinceFlag chunks)
  have hflag := flagStart_le chunks
  rw [sinceFlag, List.length_drop] at hepoch
  rw [outputStart, sinceFlag]
  omega

/-- The flags of the drained chunks: the first one reports the gap. -/
def Reports (gap : Bool) (chunks : List InnerChunk) : Prop :=
  chunks.map (·.flagged) = (List.replicate chunks.length false).set 0 gap

variable {chunk : InnerChunk}

theorem Reports.concat {gap : Bool} {chunks : List InnerChunk} (h : Reports gap chunks)
    (hflag : chunk.flagged = (gap && chunks.isEmpty)) : Reports gap (chunks ++ [chunk]) := by
  unfold Reports at h ⊢
  cases chunks with
  | nil => simp [hflag]
  | cons first chunks =>
    have hfalse : chunk.flagged = false := by simpa using hflag
    rw [List.map_append, h, List.length_append]
    show gap :: (List.replicate chunks.length false ++ [chunk.flagged]) =
      gap :: List.replicate (chunks.length + 1) false
    rw [hfalse, List.replicate_succ']

/-! ### The invariant -/

structure Inv (all : List InnerChunk) (s : StartupBufferedSource) (log : List SourceEvent) :
    Prop where
  chunks : all = pulled log ++ passed log ++ s.inner
  order : outputs log = drained log ++ passed log
  count : s.reservoir.queuedBytes = s.reservoir.queue.flatten.length
  innerFlag : s.innerFlag = false
  /-- What was pulled was drained or is queued, from where the output begins. -/
  media : bytesOf (drained log) ++ s.reservoir.queue.flatten =
    (bytesOf (pulled log)).drop (outputStart (pulled log))
  flags : Reports (hasGap (pulled log)) (drained log)
  pending : s.pendingDiscontinuity = (hasGap (pulled log) && (drained log).isEmpty)
  queued : s.pendingDiscontinuity = true → s.reservoir.queue ≠ []
  collecting : s.reservoir.phase = .collecting →
    Collects s.reservoir (sinceFlag (pulled log)) ∧ drained log = []
  passing : s.reservoir.phase ≠ .released → passed log = []
  empty : s.reservoir.phase = .released → s.reservoir.queue = []

variable {all : List InnerChunk} {s : StartupBufferedSource} {log : List SourceEvent}

theorem inv_new (config : StartupBufferConfig) (bitrate : Option Nat) (inner : List InnerChunk) :
    Inv inner (new config bitrate inner) [] where
  chunks := rfl
  order := rfl
  count := rfl
  innerFlag := rfl
  media := rfl
  flags := rfl
  pending := rfl
  queued h := by cases h
  collecting _ := ⟨⟨rfl, rfl, rfl, rfl⟩, rfl⟩
  passing _ := rfl
  empty _ := rfl

/-- A release changes nothing but the phase. -/
theorem Inv.release (H : Inv all s log) (hphase : s.reservoir.phase = .collecting)
    (reason : ReleaseReason) :
    Inv all { s with reservoir := s.reservoir.release reason } log := by
  have hpassed := H.passing (hphase ▸ Phase.noConfusion)
  unfold StartupReservoir.release
  rw [if_neg (not_not.mpr hphase)]
  exact ⟨H.chunks, H.order, H.count, H.innerFlag, H.media, H.flags, H.pending, H.queued,
    fun h => (by cases h), fun _ => hpassed, fun h => (by cases h)⟩

/-- A reservoir that was just emptied. -/
theorem collects_discontinuity (r : StartupReservoir) : Collects r.discontinuity [] :=
  ⟨rfl, rfl, rfl, rfl⟩

section
variable (duration : StartupReservoir → Nat)

/-- A chunk is pulled and pushed. -/
theorem Inv.pull (H : Inv all s log) (hphase : s.reservoir.phase = .collecting)
    {inner : List InnerChunk} (hinner : s.inner = chunk :: inner) (now later : Nat) :
    ∃ r', (if chunk.flagged then s.reservoir.discontinuity else s.reservoir).push duration now later
        chunk.bytes = some r' ∧
      Inv all ⟨inner, false, r', chunk.flagged || s.pendingDiscontinuity,
        s.releasedChunkDiscontinuity⟩ (log ++ [.pulled chunk]) ∧
      r'.queue.length ≤ s.reservoir.queue.length + 1 := by
  obtain ⟨C, hdrained⟩ := H.collecting hphase
  have hpassed := H.passing (hphase ▸ Phase.noConfusion)
  have hpulled : pulled (log ++ [.pulled chunk]) = pulled log ++ [chunk] := pulled_append ..
  have hdrained' : drained (log ++ [.pulled chunk]) = [] := by rw [drained_append, hdrained]; rfl
  have hpassed' : passed (log ++ [.pulled chunk]) = [] := by rw [passed_append, hpassed]; rfl
  have houtputs : outputs (log ++ [.pulled chunk]) = [] := by
    rw [outputs_append, H.order, hdrained, hpassed]
    rfl
  have hgap : hasGap (pulled log ++ [chunk]) = (chunk.flagged || hasGap (pulled log)) := by
    rw [hasGap, List.any_append, Bool.or_comm, hasGap, List.any_cons, List.any_nil, Bool.or_false]
  have C₁ : Collects (if chunk.flagged then s.reservoir.discontinuity else s.reservoir)
      (if chunk.flagged then [] else sinceFlag (pulled log)) := by
    split
    · exact collects_discontinuity _
    · exact C
  have hphase₁ : (if chunk.flagged then s.reservoir.discontinuity else s.reservoir).phase =
      .collecting := by
    split
    · exact hphase
    · exact hphase
  have hsince : (if chunk.flagged then [] else sinceFlag (pulled log)) ++ chunk.bytes =
      sinceFlag (pulled log ++ [chunk]) := by
    rw [sinceFlag_concat]
    split <;> rfl
  obtain ⟨r', hpush, C', hphase', hqueue, hlen⟩ := C₁.push duration now later hphase₁ chunk.bytes
  rw [hsince] at C'
  refine ⟨r', hpush, ?_, Nat.le_trans hlen (Nat.succ_le_succ ?_)⟩
  · exact {
      chunks := by
        rw [hpulled, hpassed', H.chunks, hpassed, hinner]
        simp
      order := by rw [houtputs, hdrained', hpassed']; rfl
      count := C'.count
      innerFlag := rfl
      media := by
        rw [hdrained', hpulled, drop_outputStart]
        exact C'.queue
      flags := by rw [hdrained']; rfl
      pending := by
        rw [hpulled, hdrained', hgap, H.pending, hdrained]
        simp
      queued := fun _ => hqueue
      collecting := fun _ => ⟨hpulled ▸ C', hdrained'⟩
      passing := fun _ => hpassed'
      empty := fun h => absurd h hphase' }
  · split
    · exact Nat.zero_le _
    · exact Nat.le_refl _

/-- A bound for the turns until everything was returned. -/
def remaining (s : StartupBufferedSource) : Nat :=
  match s.reservoir.phase with
  | .collecting => 2 * s.inner.length + s.reservoir.queue.length + 2
  | .draining _ => s.reservoir.queue.length + s.inner.length + 1
  | .released => s.inner.length

theorem remaining_le (s : StartupBufferedSource) (h : s.reservoir.phase ≠ .released) :
    s.remaining ≤ 2 * s.inner.length + s.reservoir.queue.length + 2 := by
  unfold remaining
  split
  · exact Nat.le_refl _
  · omega
  · next hphase => exact absurd hphase h

theorem remaining_release (hphase : s.reservoir.phase = .collecting) (reason : ReleaseReason) :
    remaining { s with reservoir := s.reservoir.release reason } ≤ s.remaining - 1 := by
  have hbefore : s.remaining = 2 * s.inner.length + s.reservoir.queue.length + 2 := by
    rw [remaining, hphase]
  rw [StartupReservoir.release, if_neg (not_not.mpr hphase), hbefore]
  show s.reservoir.queue.length + s.inner.length + 1 ≤ _
  omega

theorem Inv.collectNext (H : Inv all s log) (hphase : s.reservoir.phase = .collecting)
    (tick : Tick) :
    ∃ s' es, s.collectNext duration tick = some (s', es) ∧ Inv all s' (log ++ es) ∧
      s'.remaining ≤ s.remaining - 1 := by
  unfold StartupBufferedSource.collectNext innerNext
  split
  · exact ⟨_, _, rfl, by rw [List.append_nil]; exact H.release hphase _, remaining_release hphase _⟩
  cases hinner : s.inner with
  | nil =>
    exact ⟨_, _, rfl, by rw [List.append_nil]; exact H.release hphase _, remaining_release hphase _⟩
  | cons chunk inner =>
    obtain ⟨r', hpush, H', hlen⟩ := H.pull duration hphase hinner tick.now tick.later
    have hremaining : remaining ⟨inner, false, r', chunk.flagged || s.pendingDiscontinuity,
        s.releasedChunkDiscontinuity⟩ ≤ s.remaining - 1 := by
      by_cases hreleased : r'.phase = .released
      · simp only [remaining, hreleased, hphase, hinner, List.length_cons]
        omega
      · refine Nat.le_trans (remaining_le _ hreleased) ?_
        simp only [remaining, hphase, hinner, List.length_cons]
        omega
    refine ⟨_, _, ?_, H', hremaining⟩
    simp only [innerTake]
    cases hflag : chunk.flagged with
    | false =>
      simp only [hflag, Bool.false_eq_true, if_false] at hpush ⊢
      rw [hpush]
      rfl
    | true =>
      simp only [hflag, if_true] at hpush ⊢
      rw [hpush]
      rfl

end

/-- A chunk is taken from the queue, with the gap that is still to be reported. -/
theorem Inv.drain (H : Inv all s log) {reason : ReleaseReason}
    (hphase : s.reservoir.phase = .draining reason) {chunk : List UInt8}
    {queue : List (List UInt8)} (hqueue : s.reservoir.queue = chunk :: queue) :
    Inv all ⟨s.inner, s.innerFlag, { s.reservoir with
        queue := queue, queuedBytes := s.reservoir.queuedBytes - chunk.length }, false, false⟩
      (log ++ [.drained chunk s.pendingDiscontinuity]) := by
  have hpassed := H.passing (hphase ▸ Phase.noConfusion)
  have hpulled : pulled (log ++ [.drained chunk s.pendingDiscontinuity]) = pulled log := by
    rw [pulled_append]
    exact List.append_nil _
  have hpassed' : passed (log ++ [.drained chunk s.pendingDiscontinuity]) = [] := by
    rw [passed_append, hpassed]
    rfl
  have hdrained : drained (log ++ [.drained chunk s.pendingDiscontinuity]) =
      drained log ++ [⟨chunk, s.pendingDiscontinuity⟩] := drained_append ..
  have hcount := H.count
  have hmedia := H.media
  rw [hqueue, List.flatten_cons] at hcount hmedia
  rw [List.length_append] at hcount
  exact {
    chunks := by rw [hpulled, hpassed', H.chunks, hpassed]
    order := by
      rw [outputs_append, H.order, hpassed, hpassed', hdrained, List.append_nil, List.append_nil]
      rfl
    count := by
      show s.reservoir.queuedBytes - chunk.length = queue.flatten.length
      omega
    innerFlag := H.innerFlag
    media := by
      rw [hdrained, hpulled, bytesOf_append, bytesOf_singleton, List.append_assoc, ← hmedia]
    flags := by
      rw [hdrained, hpulled]
      exact H.flags.concat H.pending
    pending := by
      rw [hdrained]
      simp
    queued := fun h => (by cases h)
    collecting := fun h => by rw [hphase] at h; cases h
    passing := fun _ => hpassed'
    empty := fun h => by rw [hphase] at h; cases h }

/-- The queue is empty, and the inner source is passed on from here. -/
theorem Inv.finish (H : Inv all s log) {reason : ReleaseReason}
    (hphase : s.reservoir.phase = .draining reason) (hqueue : s.reservoir.queue = []) :
    Inv all { s with reservoir := { s.reservoir with phase := .released } } log :=
  ⟨H.chunks, H.order, H.count, H.innerFlag, H.media, H.flags, H.pending, H.queued,
    fun h => (by cases h), fun _ => H.passing (hphase ▸ Phase.noConfusion), fun _ => hqueue⟩

/-- A chunk of the inner source is passed on with its own flag. -/
theorem Inv.pass (H : Inv all s log) (hphase : s.reservoir.phase = .released)
    {inner : List InnerChunk} (hinner : s.inner = chunk :: inner) :
    Inv all { s with inner := inner, innerFlag := false }
      (log ++ [.passed chunk.bytes chunk.flagged]) := by
  have hpulled : pulled (log ++ [.passed chunk.bytes chunk.flagged]) = pulled log := by
    rw [pulled_append]
    exact List.append_nil _
  have hdrained : drained (log ++ [.passed chunk.bytes chunk.flagged]) = drained log := by
    rw [drained_append]
    exact List.append_nil _
  have hpassed : passed (log ++ [.passed chunk.bytes chunk.flagged]) = passed log ++ [chunk] :=
    passed_append ..
  have hchunks := H.chunks
  rw [hinner] at hchunks
  exact {
    chunks := by rw [hpulled, hpassed, hchunks]; simp
    order := by
      rw [outputs_append, H.order, hdrained, hpassed, List.append_assoc]
      rfl
    count := H.count
    innerFlag := rfl
    media := by rw [hdrained, hpulled]; exact H.media
    flags := by rw [hdrained, hpulled]; exact H.flags
    pending := by rw [hdrained, hpulled]; exact H.pending
    queued := H.queued
    collecting := fun h => by rw [hphase] at h; cases h
    passing := fun h => absurd hphase h
    empty := H.empty }

/-- The inner source has ended. -/
theorem Inv.ended (H : Inv all s log) : Inv all s (log ++ [.ended]) := by
  have hpulled : pulled (log ++ [.ended]) = pulled log := by
    rw [pulled_append]
    exact List.append_nil _
  have hdrained : drained (log ++ [.ended]) = drained log := by
    rw [drained_append]
    exact List.append_nil _
  have hpassed : passed (log ++ [.ended]) = passed log := by
    rw [passed_append]
    exact List.append_nil _
  have houtputs : outputs (log ++ [.ended]) = outputs log := by
    rw [outputs_append]
    exact List.append_nil _
  refine ⟨?_, ?_, H.count, H.innerFlag, ?_, ?_, ?_, H.queued, ?_, ?_, H.empty⟩
  · rw [hpulled, hpassed, H.chunks]
  · rw [houtputs, hdrained, hpassed, H.order]
  · rw [hdrained, hpulled, H.media]
  · rw [hdrained, hpulled]
    exact H.flags
  · rw [hdrained, hpulled, H.pending]
  · rw [hdrained, hpulled]
    exact H.collecting
  · rw [hpassed]
    exact H.passing

variable (duration : StartupReservoir → Nat)

/-- Every turn goes through, keeps the invariant and comes closer to the end. -/
theorem Inv.turn (H : Inv all s log) (tick : Tick) :
    ∃ s' es, s.turn duration tick = some (s', es) ∧ Inv all s' (log ++ es) ∧
      s'.remaining ≤ s.remaining - 1 := by
  unfold StartupBufferedSource.turn
  cases hphase : s.reservoir.phase with
  | collecting => exact H.collectNext duration hphase tick
  | draining reason =>
    have hbefore : s.remaining = s.reservoir.queue.length + s.inner.length + 1 := by
      rw [remaining, hphase]
    dsimp only
    cases hqueue : s.reservoir.queue with
    | nil =>
      rw [popFront, hqueue]
      have hfinish : s.reservoir.finishDrain = { s.reservoir with phase := .released } := by
        rw [finishDrain, if_pos ⟨hphase ▸ Phase.noConfusion, hphase ▸ Phase.noConfusion, hqueue⟩]
      simp only [Option.map_some, hfinish]
      refine ⟨_, _, rfl, ?_, ?_⟩
      · rw [List.append_nil]
        exact H.finish hphase hqueue
      · show s.inner.length ≤ _
        omega
    | cons chunk queue =>
      have hcount := H.count
      rw [hqueue, List.flatten_cons, List.length_append] at hcount
      rw [popFront, hqueue]
      simp only [checkedSub_of_le (show chunk.length ≤ s.reservoir.queuedBytes by omega),
        Option.map_some, takeDiscontinuity, hphase, reduceCtorEq, if_false]
      refine ⟨_, _, rfl, hphase ▸ H.drain hphase hqueue, ?_⟩
      rw [hqueue, List.length_cons] at hbefore
      show queue.length + s.inner.length + 1 ≤ _
      omega
  | released =>
    have hbefore : s.remaining = s.inner.length := by rw [remaining, hphase]
    dsimp only
    cases hinner : s.inner with
    | nil =>
      rw [innerNext, hinner]
      exact ⟨_, _, rfl, H.ended, by rw [hbefore, hinner]; exact Nat.le_refl _⟩
    | cons chunk inner =>
      rw [innerNext, hinner]
      simp only [takeDiscontinuity, hphase, if_true, innerTake]
      refine ⟨_, _, rfl, H.pass hphase hinner, ?_⟩
      rw [hbefore, hinner]
      simp only [remaining, hphase, List.length_cons]
      omega

theorem Inv.run (H : Inv all s log) (ticks : List Tick) :
    ∃ s', Outpace.run (step duration) (some s) ticks = some s' ∧
      Inv all s' (log ++ emits (step duration) (events duration) (some s) ticks) ∧
      s'.remaining ≤ s.remaining - ticks.length := by
  induction ticks generalizing s log with
  | nil => exact ⟨s, rfl, by rwa [emits_nil, List.append_nil], Nat.le_refl _⟩
  | cons tick ticks ih =>
    obtain ⟨s₁, es, hturn, H₁, hless⟩ := H.turn duration tick
    obtain ⟨s', hrun, H', hless'⟩ := ih H₁
    have hstep : step duration (some s) tick = some s₁ := by
      rw [step, Option.bind_some, hturn]
      rfl
    have hevents : events duration (some s) tick = es := by
      rw [events, Option.bind_some, hturn]
      rfl
    refine ⟨s', by rw [run_cons, hstep, hrun], ?_, ?_⟩
    · rwa [emits_cons, hstep, hevents, ← List.append_assoc]
    · rw [List.length_cons]
      omega

/-- The output so far, the queue and what is still to come are the inner stream from where the
output begins. -/
theorem Inv.stream (H : Inv all s log) :
    bytesOf (outputs log) ++ s.reservoir.queue.flatten ++ bytesOf s.inner =
      (bytesOf all).drop (outputStart (pulled log)) := by
  have hall : bytesOf all = bytesOf (pulled log) ++ (bytesOf (passed log) ++ bytesOf s.inner) := by
    rw [H.chunks, bytesOf_append, bytesOf_append, List.append_assoc]
  rw [hall, List.drop_append_of_le_length (outputStart_le _), ← H.media, H.order, bytesOf_append]
  by_cases hreleased : s.reservoir.phase = .released
  · rw [H.empty hreleased]
    simp
  · rw [H.passing hreleased]
    simp [bytesOf]

/-- The startup buffer loses and reorders nothing. In every run, however the chunks are cut and
whenever the release comes, no turn panics and the count of the queue is right; the output is the
inner stream from the last flagged chunk or the last packet behind it that reset the clock, and
after enough turns it is all of it. The first chunk from the queue reports a gap if and only if one
was pulled with a gap, the others report none, and the chunks behind them what the inner source
reports. -/
theorem startup_buffer_loses_nothing (config : StartupBufferConfig) (bitrate : Option Nat)
    (inner : List InnerChunk) (ticks : List Tick) :
    let log := emits (step duration) (events duration) (some (new config bitrate inner)) ticks
    ∃ s, Outpace.run (step duration) (some (new config bitrate inner)) ticks = some s ∧
      s.reservoir.queuedBytes = (s.reservoir.queue.map List.length).sum ∧
      bytesOf (outputs log) ++ s.reservoir.queue.flatten ++ bytesOf s.inner =
        (bytesOf inner).drop (outputStart (pulled log)) ∧
      inner = pulled log ++ passed log ++ s.inner ∧
      outputs log = drained log ++ passed log ∧
      Reports (hasGap (pulled log)) (drained log) ∧
      (∀ other : List InnerChunk, (∀ c ∈ pulled log, c.flagged = false) →
        (∀ c ∈ other, c.flagged = false) → bytesOf other = bytesOf (pulled log) →
          outputStart other = outputStart (pulled log)) ∧
      (2 * inner.length + 2 ≤ ticks.length →
        bytesOf (outputs log) = (bytesOf inner).drop (outputStart (pulled log)) ∧
          (hasGap (pulled log) = true → drained log ≠ [])) := by
  intro log
  obtain ⟨s, hrun, H, hless⟩ := (inv_new config bitrate inner).run duration ticks
  rw [List.nil_append] at H
  refine ⟨s, hrun, H.count.trans List.length_flatten, H.stream, H.chunks, H.order, H.flags,
    fun other hpulled hother hbytes => outputStart_of_unflagged hother hpulled hbytes,
    fun hlong => ?_⟩
  have hstart : (new config bitrate inner).remaining ≤ 2 * inner.length + 2 := by
    unfold remaining
    split
    · exact Nat.le_refl _
    · show 0 + inner.length + 1 ≤ _
      omega
    · show inner.length ≤ _
      omega
  have hdone : s.remaining = 0 := by omega
  have hphase : s.reservoir.phase = .released ∧ s.inner = [] := by
    unfold remaining at hdone
    split at hdone
    · cases hdone
    · cases hdone
    · next hphase => exact ⟨hphase, List.length_eq_zero_iff.mp hdone⟩
  have hqueue := H.empty hphase.1
  refine ⟨?_, fun hgap hdrained => ?_⟩
  · have hstream := H.stream
    rw [hqueue, hphase.2] at hstream
    simpa [bytesOf] using hstream
  · refine H.queued ?_ hqueue
    rw [H.pending]
    show (hasGap (pulled log) && (drained log).isEmpty) = true
    rw [hgap, hdrained]
    rfl

end StartupBufferedSource

end Outpace.Engine

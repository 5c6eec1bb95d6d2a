import Outpace.Swarm.ActivePeers
import Outpace.Wire.Reassembly

/-!
# Continuity of a live session

The state of `live_session/continuity.rs` that outlives the peers of a session: the reassembler with
its cursor, which pieces still have to be published, the requests and their timers, and the output
that waits for the player. Times are naturals; a handler is given the time it reads.

What turns the bytes of a piece into output, resync and keyframe gate, is the parameter
`OutputStage`.
-/

namespace Outpace.Swarm.Live

open Outpace.Wire

structure LiveOutput where
  bytes : Bytes
  discontinuity : Bool
  deriving DecidableEq

/-- Resync and keyframe gate: new, armed after a skip, started over before any output, and fed with
the bytes of a piece. -/
structure OutputStage (ω : Type) where
  new : ω
  armOutputGate : ω → ω
  restart : ω → ω
  resyncOutput : ω → Bytes → List LiveOutput × ω

/-- A clock that stands still while output is held back. -/
structure OutputBudgetClock where
  epoch : Nat
  excluded : Nat
  activeSince : Option Nat
  deriving DecidableEq

namespace OutputBudgetClock

def new (epoch : Nat) : OutputBudgetClock := ⟨epoch, 0, none⟩

def now (clock : OutputBudgetClock) (real : Nat) : Nat :=
  let excluded := clock.excluded + (clock.activeSince.map (real - ·)).getD 0
  if excluded ≤ real then real - excluded else clock.epoch

def begin (clock : OutputBudgetClock) (real : Nat) : OutputBudgetClock :=
  { clock with activeSince := some (clock.activeSince.getD real) }

def finish (clock : OutputBudgetClock) (real : Nat) : OutputBudgetClock :=
  match clock.activeSince with
  | some start => { clock with activeSince := none, excluded := clock.excluded + (real - start) }
  | none => clock

end OutputBudgetClock

inductive CompletePut where
  | published
  | alreadyPresent
  | notRetained
  deriving DecidableEq

/-- The result of a publication is `none` if it failed. -/
inductive PublicationStatus where
  | needed
  | terminal (result : Option CompletePut)
  deriving DecidableEq

structure LiveRecoveryConfig where
  maxActiveUpstreams : Nat
  requestTimeout : Nat
  maxPieceAdvance : Nat
  maxReasmPiecesAhead : Nat

structure StreamInfo where
  pieceLength : Nat
  chunkLength : Nat
  sigLen : Nat
  sourcePubkey : Bytes

/-- Chunks per piece, in 16 bits. -/
def StreamInfo.chunksPerPiece (info : StreamInfo) : Nat :=
  info.pieceLength / info.chunkLength % 2 ^ 16

structure Continuity (ω : Type) where
  pendingOutput : List LiveOutput
  outputCeiling : Option Nat
  outputClock : OutputBudgetClock
  publication : OrderedMap Nat PublicationStatus
  liveRecovery : LiveRecoveryConfig
  reasm : PieceReassembler
  output : ω
  scheduler : Scheduler
  activePeers : ActivePeers
  receivedChunks : OrderedMap Nat (Finset Nat)
  requestedAt : OrderedMap Nat Nat
  nextNeededSince : Nat
  head : Nat
  startupDeadline : Option Nat
  requestFloor : Nat
  prefetch : Nat
  emitted : Nat

def prefetchStart (minPiece maxPiece prefetch : Nat) : Nat := max (maxPiece - prefetch) minPiece

namespace Continuity

variable {ω : Type} (stage : OutputStage ω) (c : Continuity ω)

def fresh (auth : LiveAuth) (info : StreamInfo) (minPiece maxPiece prefetch : Nat)
    (liveRecovery : LiveRecoveryConfig) (now : Nat) : Continuity ω :=
  let start := prefetchStart minPiece maxPiece prefetch
  { pendingOutput := []
    outputCeiling := none
    outputClock := .new now
    publication := ∅
    liveRecovery := liveRecovery
    reasm := (((PieceReassembler.new info.pieceLength start).withPieceTrailer info.sigLen)
      |>.withSourcePubkey auth info.sourcePubkey).withMaxPiecesAhead liveRecovery.maxReasmPiecesAhead
    output := stage.new
    scheduler := .new liveRecovery.maxPieceAdvance
    activePeers := .new
    receivedChunks := ∅
    requestedAt := ∅
    nextNeededSince := now
    head := maxPiece
    startupDeadline := none
    requestFloor := start
    prefetch := prefetch
    emitted := 0 }

def publicationHold : Bool :=
  c.publication.values.any fun
    | .needed => true
    | .terminal _ => false

def playbackHold : Bool := c.outputCeiling.isSome || c.publicationHold

def hasDeliveryWork : Bool :=
  c.outputCeiling.isSome || !c.pendingOutput.isEmpty || !c.reasm.readyChunks.isEmpty

def outputDemand : Bool :=
  !c.pendingOutput.isEmpty ||
    (c.startupDeadline.isNone && !c.publicationHold && !c.reasm.readyChunks.isEmpty)

/-- A peer with this window can serve the next piece, or waits with us at the live edge. -/
def windowCanResume (window : LivePosition) : Bool :=
  let needed : Int := min c.reasm.nextNeeded (2 ^ 63 - 1)
  let head : Int := min c.head (2 ^ 63 - 1)
  decide (needed ≤ window.maxPiece) || (decide (head < needed) && decide (head ≤ window.maxPiece))

/-- Forget the requests of a piece. -/
def settle (piece : Nat) : Continuity ω :=
  { c with
    receivedChunks := c.receivedChunks.erase piece
    scheduler := c.scheduler.onComplete piece
    activePeers := c.activePeers.completeEverywhere piece
    requestedAt := c.requestedAt.erase piece }

def releaseRejectedPiece (piece : Nat) : Continuity ω :=
  { c with
    reasm := c.reasm.discardPartial piece
    receivedChunks := c.receivedChunks.erase piece
    scheduler := c.scheduler.onDrop piece
    activePeers := c.activePeers.completeEverywhere piece
    requestedAt := c.requestedAt.erase piece }

/-- Count a chunk that was received; the reply says whether it was the last one. -/
def noteChunk (piece chunk chunksPerPiece : Nat) : Bool × Continuity ω :=
  let chunks := insert chunk ((c.receivedChunks.get? piece).getD ∅)
  if max chunksPerPiece 1 ≤ chunks.card then (true, c.settle piece)
  else (false, { c with receivedChunks := c.receivedChunks.insert piece chunks })

/-- The pieces whose timer ran out, once the timers behind the cursor are gone. -/
def timedOutRequests (now : Nat) : List Nat × Continuity ω :=
  let requestedAt := c.requestedAt.filter fun piece _ => decide (c.reasm.nextNeeded ≤ piece)
  ((requestedAt.filter fun _ sent => decide (c.liveRecovery.requestTimeout ≤ now - sent)).keys,
    { c with requestedAt := requestedAt })

/-- Move the cursor on, and drop everything behind it. -/
def skip (target now : Nat) (output : ω) : Continuity ω :=
  { c with
    reasm := c.reasm.skipTo target
    publication := c.publication.filter fun piece _ => decide (target ≤ piece)
    output := output
    activePeers := c.activePeers.pruneBelow target
    requestedAt := c.requestedAt.filter fun piece _ => decide (target ≤ piece)
    receivedChunks := c.receivedChunks.filter fun piece _ => decide (target ≤ piece)
    nextNeededSince := now }

def skipEvictedGap (now : Nat) : Option Nat × Continuity ω :=
  if c.playbackHold then (none, c)
  else
    let next := c.reasm.nextNeeded
    if now - c.nextNeededSince < c.liveRecovery.requestTimeout ||
        c.activePeers.anyUnchokedCovers next then (none, c)
    else
      match c.activePeers.lowestCoveredPiece with
      | none => (none, c)
      | some floor =>
        if floor ≤ next then (none, c)
        else (some floor, c.skip floor now (stage.armOutputGate c.output))

def skipFarBehindLive (now : Nat) : Option Nat × Continuity ω :=
  if c.playbackHold then (none, c)
  else
    let target := c.head - c.prefetch
    let c := { c with requestFloor := max c.requestFloor target }
    if c.head - c.reasm.nextNeeded ≤ c.prefetch then (none, c)
    else
      -- before the first output there is no stream to mark as discontinuous
      (some target, c.skip target now
        (if 0 < c.emitted then stage.armOutputGate c.output else stage.restart c.output))

/-- The requests of the last pool are gone with its peers. -/
def forgetPeers (maxPiece now : Nat) : Continuity ω :=
  let c :=
    { c with
      head := max c.head maxPiece
      scheduler := c.scheduler.clearInFlight
      activePeers := .new
      receivedChunks := ∅ }
  if c.hasDeliveryWork then c
  else { c with requestedAt := ∅, nextNeededSince := c.outputClock.now now }

def resumeAt (resume : Nat) : Continuity ω :=
  if c.reasm.nextNeeded < resume then
    { c with
      reasm := c.reasm.skipTo resume
      publication := c.publication.filter fun piece _ => decide (resume ≤ piece)
      output := stage.armOutputGate c.output }
  else c

/-- Go on with new peers from where the last pool ended, or where the window of the first one
begins. -/
def resumeWithPolicy (minPiece maxPiece now : Nat) : Continuity ω :=
  let c := c.forgetPeers maxPiece now
  let next := c.reasm.nextNeeded
  c.resumeAt stage (if c.playbackHold then next else max next minPiece)

end Continuity

end Outpace.Swarm.Live

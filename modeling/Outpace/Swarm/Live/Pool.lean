import Outpace.Data.Run
import Outpace.Swarm.Live.Continuity

/-!
# The live pool

The pool actor of `live_session/pool/actor.rs` with `pool_support.rs` and `publication.rs`, and the
drain between two pools. A step of the system is one effect of a handler: a cursor skip, a round of
requests, the receipt of a chunk, a poll of the publication, a peer that comes or goes. Handlers are
sequences of such steps (`Outpace.Swarm.Live.PoolHandlers`); here the steps come in any order.

A failed `expect` of the source stops the system, with the reason in `panicked`.
-/

namespace Outpace.Swarm.Live

open Outpace.Wire

/-- Capacity of a worker's command channel. -/
def commandSlots : Nat := 64

/-- A connected peer with the sending end of its worker's command channel. -/
structure PeerRuntime where
  addr : Nat
  minPiece : Nat
  maxPiece : Nat
  producedOutput : Bool
  queued : Nat
  closed : Bool
  deriving DecidableEq

namespace PeerRuntime

/-- Commands the channel takes now. -/
def capacity (p : PeerRuntime) : Nat := if p.closed then 0 else commandSlots - p.queued

/-- Queue a command. A full or closed channel refuses it, and the worker is aborted. -/
def trySend (p : PeerRuntime) : Bool × PeerRuntime :=
  if 0 < p.capacity then (true, { p with queued := p.queued + 1 }) else (false, { p with closed := true })

end PeerRuntime

/-- The one publication in progress. -/
inductive PublicationOperation where
  | acquiring (piece : Nat)
  | awaiting (piece : Nat)
  | refreshing (piece : Nat) (result : Option CompletePut)
  deriving DecidableEq

def PublicationOperation.piece : PublicationOperation → Nat
  | .acquiring piece | .awaiting piece | .refreshing piece _ => piece

/-- What the store answers when an operation is polled and ready: the admission failed, or it was
submitted and is done or has to be awaited; the awaited result; the lock for the refresh. -/
inductive StoreReply where
  | refused
  | submitted (receipt : Option (Option CompletePut))
  | result (result : Option CompletePut)
  | locked
  deriving DecidableEq

/-- The `expect`s of the publication code. -/
inductive Expect where
  | heldWire
  | heldAcceptedWire
  | retainedPublication
  deriving DecidableEq

/-- A pool runs, or its retained work is drained before the next one. -/
inductive Mode where
  | pool
  | draining
  deriving DecidableEq

structure Pool (ω : Type) where
  continuity : Continuity ω
  peers : OrderedMap Nat PeerRuntime
  nextPeerId : Nat
  publication : Option PublicationOperation
  outputReserved : Bool
  mode : Mode
  panicked : Option Expect

/-- What does not change during a session. -/
structure Session (ω : Type) where
  auth : LiveAuth
  info : StreamInfo
  stage : OutputStage ω

variable {ω : Type}

/-! ### Publication -/

def terminal (c : Continuity ω) (piece : Nat) (result : Option CompletePut) :
    Except Expect (Continuity ω) :=
  if c.publication.contains piece then
    .ok { c with publication := c.publication.insert piece (.terminal result) }
  else .error .retainedPublication

/-- Begin with the first piece that still has to be published. -/
def startOperation (op : Option PublicationOperation) (c : Continuity ω) :
    Except Expect (Option PublicationOperation) :=
  if op.isSome then .ok op
  else
    match c.publication.entries.find? fun e => e.2 == .needed with
    | none => .ok none
    | some (piece, _) =>
      if (c.reasm.completedLivePiece piece).isSome then .ok (some (.acquiring piece))
      else .error .heldWire

/-- Poll the operation with a reply of the store. A reply it does not wait for leaves it pending. -/
def pollOperation (op : Option PublicationOperation) (c : Continuity ω) (reply : StoreReply) :
    Except Expect (Option PublicationOperation × Continuity ω) :=
  match op, reply with
  | some (.acquiring piece), .refused => (terminal c piece none).map fun c => (none, c)
  | some (.acquiring piece), .submitted receipt =>
    if (c.reasm.completedLivePiece piece).isSome then
      match receipt with
      | none => .ok (some (.awaiting piece), c)
      | some result => (terminal c piece result).map fun c => (none, c)
    else .error .heldAcceptedWire
  | some (.awaiting piece), .result result => .ok (some (.refreshing piece result), c)
  | some (.refreshing piece result), .locked => (terminal c piece result).map fun c => (none, c)
  | op, _ => .ok (op, c)

namespace Pool

variable (env : Session ω) (s : Pool ω)

def startPublication : Pool ω :=
  match startOperation s.publication s.continuity with
  | .ok op => { s with publication := op }
  | .error e => { s with panicked := some e }

def pollPublication (reply : StoreReply) : Pool ω :=
  match pollOperation s.publication s.continuity reply with
  | .ok (op, c) => { s with publication := op, continuity := c }
  | .error e => { s with panicked := some e }

/-! ### Output -/

/-- The output stage has nothing left to hand on. -/
def idleOutput (c : Continuity ω) (now : Nat) : Continuity ω :=
  { c with outputCeiling := none, outputClock := c.outputClock.finish now }

def startOutput (now : Nat) : Pool ω :=
  if !s.outputReserved && s.continuity.outputDemand then
    let c := s.continuity
    { s with
      outputReserved := true
      continuity :=
        { c with
          outputCeiling := some (c.outputCeiling.getD
            (saturatingAdd c.reasm.nextNeeded c.liveRecovery.maxReasmPiecesAhead))
          outputClock := c.outputClock.begin now } }
  else s

/-- Hand the first pending output to the player, and credit the peers it came from. -/
def sendOutput (c : Continuity ω) (now : Nat) : Continuity ω :=
  match c.pendingOutput with
  | [] => c
  | output :: rest =>
    let c :=
      { c with
        pendingOutput := rest
        emitted := c.emitted + output.bytes.length
        nextNeededSince := c.outputClock.now now }
    if rest.isEmpty && c.reasm.readyChunks.isEmpty then idleOutput c now else c

/-- Take the piece at the cursor into the output stage. -/
def prepareOutput (c : Continuity ω) : Option (Continuity ω) :=
  match c.reasm.takeReadyPiece with
  | (none, _) => none
  | (some piece, reasm) =>
    let (segments, output) := env.stage.resyncOutput c.output piece.bytes
    some
      { c with
        reasm := reasm
        publication := c.publication.erase piece.index
        pendingOutput := segments
        output := output }

/-- The player has room. -/
def finishOutputStep (c : Continuity ω) (now : Nat) : Continuity ω :=
  if c.pendingOutput.isEmpty then
    if !c.outputDemand then idleOutput c now
    else
      match prepareOutput env c with
      | none => c
      | some c => if c.pendingOutput.isEmpty then idleOutput c now else sendOutput c now
  else sendOutput c now

def credit (peers : OrderedMap Nat PeerRuntime) (producers : List Nat) :
    OrderedMap Nat PeerRuntime :=
  peers.mapVal fun _ peer =>
    if producers.contains peer.addr then { peer with producedOutput := true } else peer

def finishOutput (now : Nat) (producers : List Nat) : Pool ω :=
  if s.outputReserved then
    { s with
      outputReserved := false
      continuity := finishOutputStep env s.continuity now
      peers := credit s.peers producers }
  else s

/-! ### Requests -/

/-- Send the requests of a round, or take them back; the reply is those sent. The channels that
close meanwhile refuse the pairs in `refused`, and a peer that refused one request gets no other. -/
def sendRequests (now : Nat) (refused : List (Nat × Nat)) :
    List PeerAssignment → List Nat → Pool ω → List PeerAssignment × Pool ω
  | [], _, s => ([], s)
  | ⟨id, piece⟩ :: rest, failed, s =>
    let c := s.continuity
    let cancelled : Continuity ω :=
      { c with
        activePeers := c.activePeers.cancelAssignment id piece
        scheduler := c.scheduler.onDrop piece }
    match s.peers.get? id with
    | some peer =>
      if !failed.contains id && peer.trySend.1 && !refused.contains (id, piece) then
        let (sent, s) := sendRequests now refused rest failed
          { s with
            peers := s.peers.insert id peer.trySend.2
            continuity :=
              { c with requestedAt := c.requestedAt.insert piece ((c.requestedAt.get? piece).getD now) } }
        (⟨id, piece⟩ :: sent, s)
      else
        sendRequests now refused rest (id :: failed)
          { s with
            peers := s.peers.insert id { peer with closed := true }
            continuity := cancelled }
    | none => sendRequests now refused rest failed { s with continuity := cancelled }

def queueSlots : OrderedMap Nat Nat := s.peers.mapVal fun _ peer => peer.capacity

/-- The assignments of a round, and the pool with all of them noted. -/
def assignments : List PeerAssignment × Pool ω :=
  let c := s.continuity
  let (out, activePeers, scheduler) :=
    c.activePeers.assignInner c.scheduler c.reasm.nextNeeded c.head (some s.queueSlots)
  (out, { s with continuity := { c with activePeers := activePeers, scheduler := scheduler } })

/-- One round of requests: assign what the channels can take, and send it. -/
def requestRound (now : Nat) (refused : List (Nat × Nat)) : List PeerAssignment × Pool ω :=
  sendRequests (s.continuity.outputClock.now now) refused s.assignments.1 [] s.assignments.2

/-- The pool may ask for pieces. -/
def mayRequest : Bool := !s.continuity.playbackHold && s.continuity.startupDeadline.isNone

def skipFarBehindLive (now : Nat) : Pool ω :=
  let c := s.continuity
  { s with continuity := (c.skipFarBehindLive env.stage (c.outputClock.now now)).2 }

def skipEvictedGap (now : Nat) : Pool ω :=
  let c := s.continuity
  { s with continuity := (c.skipEvictedGap env.stage (c.outputClock.now now)).2 }

/-- The pieces whose timer has run out. -/
def timedOut (now : Nat) : List Nat :=
  (s.continuity.timedOutRequests (s.continuity.outputClock.now now)).1

/-- Requeue the pieces whose timer has run out. Their old slots stay taken. -/
def requeueTimedOut (now : Nat) : Pool ω :=
  { s with
    continuity := (s.timedOut now).foldl (fun c piece =>
        { c with scheduler := c.scheduler.onDrop piece, requestedAt := c.requestedAt.erase piece })
      (s.continuity.timedOutRequests (s.continuity.outputClock.now now)).2 }

/-- Free the slots of timed out pieces that were not requested again. -/
def releaseUnserved (timedOut : List Nat) : Pool ω :=
  let c := s.continuity
  { s with
    continuity :=
      { c with
        activePeers := timedOut.foldl (fun activePeers piece =>
          if c.requestedAt.contains piece then activePeers
          else activePeers.completeEverywhere piece) c.activePeers } }

/-! ### Chunks -/

/-- A chunk that `on_piece` does not look at. -/
def ignores (piece : Nat) : Bool :=
  s.continuity.startupDeadline.isSome ||
    s.continuity.outputCeiling.any (fun ceiling => decide (ceiling ≤ piece)) ||
    decide (piece < s.continuity.reasm.nextNeeded)

/-- A whole piece that the source vouches for, or that nobody has to, has to be published. -/
def noteCompleted (c : Continuity ω) (piece : Nat) : Continuity ω :=
  match c.reasm.completedLivePiece piece with
  | some done =>
    if done.acceptance = .unauthenticated || c.publication.contains piece then c
    else { c with publication := c.publication.insert piece .needed }
  | none => c

/-- The request books after a chunk was stored. -/
def noteOutcome (c : Continuity ω) (piece chunk chunksPerPiece : Nat) (outcome : LiveBlockOutcome) :
    Continuity ω :=
  let c := if outcome.completed then noteCompleted c piece else c
  if outcome.contributed && !outcome.completed then (c.noteChunk piece chunk chunksPerPiece).2
  else if (c.reasm.completedLivePiece piece).isSome then c.settle piece
  else c

/-- A chunk arrives. -/
def receiveChunk (piece chunk : Nat) (header : Header) (data : Bytes) : Pool ω :=
  let c := s.continuity
  if s.ignores piece then s
  else
    match c.reasm.addLiveChunk env.auth piece chunk env.info.chunkLength header data with
    | (.error _, reasm) =>
      { s with continuity := { c with reasm := reasm }.releaseRejectedPiece piece }
    | (.ok outcome, reasm) =>
      { s with
        continuity := noteOutcome { c with reasm := reasm } piece chunk env.info.chunksPerPiece outcome }

/-! ### Peers -/

/-- A peer is gone; what it had in flight is requeued. -/
def dropPeerRuntime (id : Nat) : Pool ω :=
  if s.peers.contains id then
    let c := s.continuity
    let (pieces, activePeers) := c.activePeers.remove id
    { s with
      peers := s.peers.erase id
      continuity :=
        { c with
          activePeers := activePeers
          -- `on_drop` for each of them
          scheduler := { c.scheduler with requested := c.scheduler.requested \ pieces } } }
  else s

/-- A peer joins the pool. -/
def commitUpstreamPeer (id addr : Nat) (window : LivePosition) (unchoked : Bool) : Pool ω :=
  let c := s.continuity
  { s with
    nextPeerId := id + 1
    peers := s.peers.insert id ⟨addr, window.minPiece.toNat, window.maxPiece.toNat, false, 0, false⟩
    continuity :=
      { c with activePeers := (c.activePeers.insert id window).setUnchoked id unchoked } }

def updateRuntimeWindow (id maxPiece : Nat) : Pool ω :=
  match s.peers.get? id with
  | none => s
  | some peer =>
    let c := s.continuity
    let maxPiece := max peer.maxPiece maxPiece
    { s with
      peers := s.peers.insert id { peer with maxPiece := maxPiece }
      continuity := { c with activePeers := c.activePeers.updateWindow id peer.minPiece maxPiece } }

/-- Queue a message for a peer. -/
def sendPeerCommand (id : Nat) : Pool ω :=
  { s with peers := s.peers.modify id fun peer => peer.trySend.2 }

/-- The pool is over. Operation and reservation go with it, and so do the workers. -/
def endPool : Pool ω :=
  { s with mode := .draining, peers := ∅, publication := none, outputReserved := false }

/-- The next pool takes over once everything accepted is delivered. -/
def resume (minPiece maxPiece now : Nat) : Pool ω :=
  if s.continuity.hasDeliveryWork then s
  else
    { s with
      mode := .pool
      nextPeerId := 1
      publication := none
      outputReserved := false
      continuity := s.continuity.resumeWithPolicy env.stage minPiece maxPiece now }

end Pool

/-! ### The system -/

inductive Action where
  | requestRound (now : Nat) (refused : List (Nat × Nat))
  | skipFarBehindLive (now : Nat)
  | skipEvictedGap (now : Nat)
  | requeueTimedOut (now : Nat)
  | releaseUnserved (timedOut : List Nat)
  | receiveChunk (piece chunk : Nat) (header : Header) (data : Bytes)
  | startPublication
  | pollPublication (reply : StoreReply)
  | startOutput (now : Nat)
  | finishOutput (now : Nat) (producers : List Nat)
  | confirmStartup
  | raiseHead (piece : Nat)
  | setPeerUnchoked (id : Nat) (unchoked : Bool)
  | observeLiveWindow (id : Nat) (bounds : Option (Nat × Nat))
  | updateRuntimeWindow (id maxPiece : Nat)
  | sendPeerCommand (id : Nat)
  | takeCommand (id : Nat)
  | closeCommands (id : Nat)
  | dropPeerRuntime (id : Nat)
  | commitUpstreamPeer (id addr : Nat) (window : LivePosition) (unchoked : Bool)
  | endPool
  | resume (minPiece maxPiece now : Nat)

namespace Pool

variable (env : Session ω)

/-- The steps that a drain has too. -/
def stepShared (s : Pool ω) : Action → Pool ω
  | .startPublication => s.startPublication
  | .pollPublication reply => s.pollPublication reply
  | .startOutput now => s.startOutput now
  | .finishOutput now producers => s.finishOutput env now producers
  | .confirmStartup => { s with continuity := { s.continuity with startupDeadline := none } }
  | _ => s

def stepPool (s : Pool ω) : Action → Pool ω
  | .requestRound now refused => if s.mayRequest then (s.requestRound now refused).2 else s
  | .skipFarBehindLive now => s.skipFarBehindLive env now
  | .skipEvictedGap now => s.skipEvictedGap env now
  | .requeueTimedOut now => if s.continuity.playbackHold then s else s.requeueTimedOut now
  | .releaseUnserved timedOut => s.releaseUnserved timedOut
  | .receiveChunk piece chunk header data => s.receiveChunk env piece chunk header data
  | .raiseHead piece =>
    { s with continuity := { s.continuity with head := max s.continuity.head piece } }
  | .setPeerUnchoked id unchoked =>
    { s with
      continuity :=
        { s.continuity with activePeers := s.continuity.activePeers.setUnchoked id unchoked } }
  | .observeLiveWindow id bounds =>
    { s with
      continuity :=
        { s.continuity with activePeers := s.continuity.activePeers.observeWindow id bounds } }
  | .updateRuntimeWindow id maxPiece => s.updateRuntimeWindow id maxPiece
  | .sendPeerCommand id => s.sendPeerCommand id
  | .takeCommand id =>
    { s with peers := s.peers.modify id fun peer => { peer with queued := peer.queued - 1 } }
  | .closeCommands id => { s with peers := s.peers.modify id fun peer => { peer with closed := true } }
  | .dropPeerRuntime id => s.dropPeerRuntime id
  | .commitUpstreamPeer id addr window unchoked =>
    if s.nextPeerId ≤ id then s.commitUpstreamPeer id addr window unchoked else s
  | .endPool => s.endPool
  | a => s.stepShared env a

def stepDrain (s : Pool ω) : Action → Pool ω
  | .resume minPiece maxPiece now => s.resume env minPiece maxPiece now
  | a => s.stepShared env a

def step (s : Pool ω) (a : Action) : Pool ω :=
  if s.panicked.isSome then s
  else
    match s.mode with
    | .pool => s.stepPool env a
    | .draining => s.stepDrain env a

/-- A session begins at the window of its first peer; a lone peer has to be confirmed first. -/
def start (minPiece maxPiece prefetch : Nat) (liveRecovery : LiveRecoveryConfig) (now : Nat)
    (startupDeadline : Option Nat) : Pool ω where
  continuity :=
    { Continuity.fresh env.stage env.auth env.info minPiece maxPiece prefetch liveRecovery now with
      startupDeadline := startupDeadline }
  peers := ∅
  nextPeerId := 1
  publication := none
  outputReserved := false
  mode := .pool
  panicked := none

end Pool

end Outpace.Swarm.Live

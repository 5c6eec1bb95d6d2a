import Outpace.Swarm.Live.PoolLedger

/-!
# The handlers of the pool

What the pool actor does in one turn, as the list of steps it takes: the handlers of `actor.rs` and
`pool_support.rs`, the activation of peers in `pool.rs`, and the turns of the drain. What a handler
does next can depend on the state its first steps lead to; `Plan.seq` says how. Peer candidates,
discovery and statistics are outside the model; where they decide, the turn carries the answer.

Every run of turns is a run of steps, so what holds of every run of steps holds between turns.
-/

namespace Outpace.Swarm.Live

open Outpace.Wire

variable {ω : Type}

/-- The steps a handler takes from a state. -/
abbrev Plan (ω : Type) : Type := Pool ω → List Action

def Plan.seq (env : Session ω) (p q : Plan ω) : Plan ω := fun s =>
  p s ++ q (run (Pool.step env) s (p s))

/-- What `advance_pool_requests` is given by the clock and the command channels. -/
structure Advance where
  now : Nat
  later : Nat
  refused : List (Nat × Nat)

namespace Pool

variable (env : Session ω)

def advancePoolRequests (x : Advance) : Plan ω := fun s =>
  if s.continuity.playbackHold then []
  else [.skipFarBehindLive x.now, .requestRound x.later x.refused]

def onPiece (piece chunk : Nat) (header : Header) (data : Bytes) (now : Nat)
    (x : Advance) : Plan ω :=
  .seq env (fun _ => [.skipFarBehindLive now]) fun s =>
    if s.ignores piece then []
    else
      let receive := Action.receiveChunk piece chunk header data
      match (s.continuity.reasm.addLiveChunk env.auth piece chunk env.info.chunkLength header data).1 with
      | .error _ => Plan.seq env (fun _ => [receive]) (advancePoolRequests x) s
      | .ok _ => Plan.seq env (fun _ => [receive, .startPublication]) (advancePoolRequests x) s

/-- Skips, timers, and requests anew if any of them has changed something. -/
def retransmitStalledRequests (now : Nat) (first second : Advance) : Plan ω := fun s =>
  if s.continuity.playbackHold then []
  else
    Plan.seq env (fun _ => [.skipFarBehindLive now, .skipEvictedGap now]) (fun s' =>
      let timedOut := s'.timedOut now
      -- a skip always moves the cursor
      if s'.continuity.reasm.nextNeeded != s.continuity.reasm.nextNeeded || !timedOut.isEmpty then
        Plan.seq env (fun _ => [.requeueTimedOut now])
          (.seq env (advancePoolRequests first)
            (.seq env (fun _ => [.releaseUnserved timedOut]) fun s =>
              if timedOut.any fun piece => !s.continuity.requestedAt.contains piece then
                advancePoolRequests second s
              else [])) s'
      else [.requeueTimedOut now]) s

/-- A peer is lost, and with the last producer the sources whose window is behind the cursor. -/
def handlePoolPeerLoss (id : Nat) (isSource : Nat → Bool) (x : Advance) : Plan ω := fun s =>
  let lostProducer := (s.peers.get? id).any (·.producedOutput)
  Plan.seq env
    (fun s => if s.peers.contains id then
        Plan.seq env (fun _ => [.dropPeerRuntime id]) (advancePoolRequests x) s
      else [])
    (fun s => if lostProducer && !s.peers.values.any (·.producedOutput) then
        (s.peers.entries.filter fun e =>
          decide (e.2.maxPiece < s.continuity.reasm.nextNeeded) && isSource e.2.addr).map
          fun e => .dropPeerRuntime e.1
      else []) s

/-- A peer announces a piece; one that is news for the pool or for the peer's window is followed by
requests. -/
def advanceWindow (id maxPiece : Nat) (x : Advance) : Plan ω := fun s =>
  if decide (s.continuity.head < maxPiece) ||
      (s.peers.get? id).any (fun peer => decide (peer.maxPiece < maxPiece)) then
    Plan.seq env (fun _ => [.raiseHead maxPiece, .updateRuntimeWindow id maxPiece])
      (advancePoolRequests x) s
  else []

/-- The window of a new peer agrees with the head of a session that waits for confirmation. -/
def corroborates (s : Pool ω) (window : LivePosition) : Bool :=
  s.continuity.startupDeadline.isSome && decide (s.continuity.head ≤ window.maxPiece.toNat)

/-- A connected peer is offered. `crowded` is the veto of a less explored candidate. -/
def onRefill (addr : Nat) (window : LivePosition) (crowded : Bool) (now : Nat)
    (x : Advance) : Plan ω :=
  fun s =>
    let full := decide (s.continuity.liveRecovery.maxActiveUpstreams ≤ s.peers.size)
    if s.peers.values.any (fun peer => peer.addr == addr) ||
        !s.continuity.windowCanResume window || crowded then []
    else if s.corroborates window && full && window.maxPiece.toNat == s.continuity.head then
      Plan.seq env (fun _ => [.confirmStartup]) (advancePoolRequests x) s
    else if full && !s.corroborates window then []
    else [.raiseHead window.maxPiece.toNat, .skipFarBehindLive now]

/-- The first messages to a new peer are written. It may replace the peer that `onRefill` chose. -/
def finishActivation (id addr : Nat) (window : LivePosition) (unchoked : Bool)
    (replacement : Option Nat) (crowded : Bool) (x : Advance) : Plan ω := fun s =>
  let maxPiece := window.maxPiece.toNat
  let full := s.peers.size == s.continuity.liveRecovery.maxActiveUpstreams
  let replaced := replacement.bind s.peers.get?
  if !s.continuity.windowCanResume window ||
      s.peers.values.any (fun peer => peer.addr == addr) || crowded then []
  else if full && s.corroborates window && maxPiece == s.continuity.head &&
      replaced.any (fun peer => peer.maxPiece == maxPiece) then [.confirmStartup]
  else
    let valid := match replacement with
      | none => decide (s.peers.size < s.continuity.liveRecovery.maxActiveUpstreams)
      | some _ => full && s.corroborates window &&
          replaced.any (fun peer => decide (peer.maxPiece < maxPiece))
    if !valid then []
    else
      Plan.seq env (fun s => replacement.toList.map .dropPeerRuntime ++
        [.commitUpstreamPeer id addr window unchoked] ++
        if s.corroborates window then [.confirmStartup] else []) (advancePoolRequests x) s

/-- A publication is begun and polled, and output goes on if the player has room. -/
def serve (reply : Option StoreReply) (room : Option (List Nat)) (now : Nat) : List Action :=
  [.startPublication] ++
    (reply.toList.flatMap fun reply => [.pollPublication reply, .startPublication]) ++
    [.startOutput now] ++ room.toList.map fun producers => .finishOutput now producers

/-- A session does not wait for confirmation past its deadline. -/
def expires (s : Pool ω) (now : Nat) : Bool :=
  s.continuity.startupDeadline.any fun deadline => decide (deadline ≤ now)

/-- A round of the drain. It waits for the store or, if the store is not ready, for the player. -/
def drainRetained (reply : Option StoreReply) (room : Option (List Nat)) (now : Nat) : Plan ω :=
  fun s =>
  if s.continuity.hasDeliveryWork then
    (if s.expires now then [.confirmStartup] else []) ++ [.startPublication, .startOutput now] ++
      match reply with
      | some reply => [.pollPublication reply]
      | none => room.toList.map fun producers => .finishOutput now producers
  else []

end Pool

/-- What the actor is woken by, or does on its own. -/
inductive Turn where
  /-- The peers a pool begins with. -/
  | begin (upstreams : List (Nat × LivePosition × Bool)) (x : Advance)
  /-- The part of every turn of the loop that comes before waiting. -/
  | loop (reply : Option StoreReply) (room : Option (List Nat)) (now : Nat)
    (startup first second last : Advance)
  | publication (reply : StoreReply)
  | output (now : Nat) (producers : List Nat)
  | unchoke (id : Nat) (x : Advance)
  | choke (id : Nat)
  | have_ (id index : Nat) (x : Advance)
  /-- An extended or unknown message: the bounds that `observe_live_window` reads in it, and the
  piece that its window ends with. -/
  | window (id : Nat) (observed : Option (Option (Nat × Nat))) (maxPiece : Option Nat) (x : Advance)
  | piece (index chunk : Nat) (header : Header) (data : Bytes) (now : Nat) (x : Advance)
  | send (id : Nat)
  | lost (id : Nat) (isSource : Nat → Bool) (x : Advance)
  | refill (addr : Nat) (window : LivePosition) (crowded : Bool) (now : Nat) (x : Advance)
  | activation (id addr : Nat) (window : LivePosition) (unchoked : Bool) (replacement : Option Nat)
    (crowded : Bool) (x : Advance)
  /-- A worker takes a command from its channel, or is gone. -/
  | worker (id : Nat) (gone : Bool)
  | endPool
  | drain (reply : Option StoreReply) (room : Option (List Nat)) (now : Nat)
  | resume (minPiece maxPiece now : Nat)

/-- The steps of a turn. -/
def Pool.plan (env : Session ω) : Turn → Plan ω
  | .begin upstreams x =>
    .seq env (fun s => (upstreams.zipIdx s.nextPeerId).map fun u =>
      .commitUpstreamPeer u.2 u.1.1 u.1.2.1 u.1.2.2) fun s =>
        if s.peers.isEmpty then [] else advancePoolRequests x s
  | .loop reply room now startup first second last =>
    .seq env (fun _ => serve reply room now)
      (.seq env (fun s =>
          if s.expires now then
            Plan.seq env (fun _ => [.confirmStartup]) (advancePoolRequests startup) s
          else [])
        (.seq env (retransmitStalledRequests env now first second) (advancePoolRequests last)))
  | .publication reply => fun _ => [.pollPublication reply, .startPublication]
  | .output now producers => fun _ => [.finishOutput now producers]
  | .unchoke id x => .seq env (fun _ => [.setPeerUnchoked id true]) (advancePoolRequests x)
  | .choke id => fun _ => [.setPeerUnchoked id false]
  | .have_ id index x =>
    .seq env (fun _ => [.raiseHead index, .updateRuntimeWindow id index]) (advancePoolRequests x)
  | .window id observed maxPiece x =>
    .seq env (fun _ => observed.toList.map (.observeLiveWindow id)) fun s =>
      maxPiece.toList.flatMap fun maxPiece => advanceWindow env id maxPiece x s
  | .piece index chunk header data now x => onPiece env index chunk header data now x
  | .send id => fun _ => [.sendPeerCommand id]
  | .lost id isSource x => handlePoolPeerLoss env id isSource x
  | .refill addr window crowded now x => onRefill env addr window crowded now x
  | .activation id addr window unchoked replacement crowded x =>
    finishActivation env id addr window unchoked replacement crowded x
  | .worker id gone => fun _ => [if gone then .closeCommands id else .takeCommand id]
  | .endPool => fun _ => [.endPool]
  | .drain reply room now => drainRetained reply room now
  | .resume minPiece maxPiece now => fun _ => [.resume minPiece maxPiece now]

/-! ### Runs of turns -/

def Pool.turn (env : Session ω) (s : Pool ω) (t : Turn) : Pool ω :=
  run (Pool.step env) s (Pool.plan env t s)

def Traced.turn (env : Session ω) (t : Traced ω) (turn : Turn) : Traced ω :=
  run (Traced.step env) t (Pool.plan env turn t.pool)

/-- All the steps of a run of turns. -/
def Pool.plans (env : Session ω) (s : Pool ω) (turns : List Turn) : List Action :=
  emits (Pool.turn env) (fun s t => Pool.plan env t s) s turns

/-- A session of unsigned pieces with two chunks of a byte each, whose output is handed on as it
is. -/
def Session.plain : Session Unit where
  auth := ⟨fun _ _ _ => true, fun _ => none⟩
  info := ⟨2, 1, 0, []⟩
  stage := ⟨(), id, id, fun _ bytes => ([⟨bytes, false⟩], ())⟩

/-- It starts at piece 0, with requests that time out after 10. -/
def Pool.plain (maxPiece : Nat) : Pool Unit :=
  .start .plain 0 maxPiece 10 ⟨4, 10, 2, 8⟩ 0 none

/-- Requests at one time, none of them refused. -/
def Advance.on (now : Nat) : Advance := ⟨now, now, []⟩

end Outpace.Swarm.Live

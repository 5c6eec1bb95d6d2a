import Outpace.Data.Channel
import Outpace.Data.OrderedMap
import Outpace.Data.Run

/-!
# Events of the peer workers

The event side of the live pool: `peer_worker` of `live_session/peer.rs`,
`poll_closed_peer_event` of `pool_support.rs` and the part of `run_inner` in `pool/actor.rs` that
takes events and hands them to `on_peer_event`. Workers run beside the actor, so the actor's reads of
shared state (whether a worker is done, the capacity of the channel, its head) are steps of their
own with worker steps in between. What a message says, and which upstreams are admitted when, is
left open.
-/

namespace Outpace.Swarm.Live

inductive PeerEvent (μ : Type) where
  | message (peerId addr : Nat) (msg : μ)
  | lost (peerId addr : Nat)
  deriving DecidableEq

namespace PeerEvent
variable {μ : Type}

def peerId : PeerEvent μ → Nat
  | message id _ _ | lost id _ => id

def addr : PeerEvent μ → Nat
  | message _ addr _ | lost _ addr => addr

def isMessage : PeerEvent μ → Bool
  | message .. => true
  | lost .. => false

def isCurrent (e : PeerEvent μ) (peers : OrderedMap Nat Nat) : Bool :=
  (peers.get? e.peerId).any (· == e.addr)

theorem isCurrent_iff {e : PeerEvent μ} {peers : OrderedMap Nat Nat} :
    e.isCurrent peers = true ↔ peers.get? e.peerId = some e.addr := by
  rw [isCurrent, Option.any_eq_true]
  constructor
  · rintro ⟨addr, haddr, heq⟩
    rw [haddr, eq_of_beq heq]
  · exact fun h => ⟨_, h, BEq.rfl⟩

end PeerEvent

/-- Where a worker task is. -/
inductive WorkerPhase (μ : Type) where
  /-- In its loop; it may wait for a permit. -/
  | running
  /-- It has a permit for the event. -/
  | sending (event : PeerEvent μ)
  /-- It has returned or was cancelled, and its command receiver is gone. -/
  | returned
  /-- Its join handle says so. -/
  | finished

structure PeerWorker (μ : Type) where
  addr : Nat
  phase : WorkerPhase μ

/-- Where the actor is in its loop. -/
inductive LoopPc where
  /-- The pool admits its first upstreams. -/
  | admitting
  /-- Before `poll_closed_peer_event`. -/
  | top
  /-- Among the peers whose workers are looked at. -/
  | scanning (rest : List Nat)
  /-- At the `try_recv`. -/
  | receiving
  | selecting

structure PoolEvents (μ : Type) where
  events : Channel (PeerEvent μ)
  /-- All workers that were spawned. -/
  workers : OrderedMap Nat (PeerWorker μ)
  /-- The addresses of the peers in the pool. -/
  peers : OrderedMap Nat Nat
  /-- Peers with a finished worker: the address, and the events that may still be ahead. -/
  closedPeerEvents : OrderedMap Nat (Nat × Nat)
  nextPeerId : Nat
  activation : Option (Nat × Nat)
  pc : LoopPc
  /-- What the workers have queued so far. -/
  sent : List (PeerEvent μ)
  /-- What was handed to `on_peer_event`, with a mark where the loss was synthesized. -/
  handled : List (PeerEvent μ × Bool)

inductive EventAction (μ : Type) where
  /-- A worker gets a permit, for a message or for its loss. -/
  | reserve (id : Nat) (msg : Option μ)
  | publish (id : Nat)
  | stop (id : Nat)
  | finish (id : Nat)
  | refill (addr : Nat)
  /-- An activation ends, and its peer may take the place of another. -/
  | activate (accepted : Bool) (replacement : Option Nat)
  /-- The next step of the actor up to the select. On the loss of a producer it drops peers with a
  stale window as well. -/
  | poll (stale : List Nat)
  | recv (stale : List Nat)
  | wake

namespace PoolEvents
variable {μ : Type}

def start (capacity : Nat) : PoolEvents μ := ⟨.new capacity, ∅, ∅, ∅, 1, none, .admitting, [], []⟩

def setPhase (s : PoolEvents μ) (id : Nat) (w : PeerWorker μ) (phase : WorkerPhase μ) :
    PoolEvents μ :=
  { s with workers := s.workers.insert id { w with phase := phase } }

def reserve (s : PoolEvents μ) (id : Nat) (msg : Option μ) : PoolEvents μ :=
  match s.workers.get? id, s.events.reserve with
  | some ⟨addr, .running⟩, some events =>
    let event : PeerEvent μ := match msg with
      | some msg => .message id addr msg
      | none => .lost id addr
    { s with events := events }.setPhase id ⟨addr, .running⟩ (.sending event)
  | _, _ => s

/-- A worker that has sent its loss returns. -/
def publish (s : PoolEvents μ) (id : Nat) : PoolEvents μ :=
  match s.workers.get? id with
  | some ⟨addr, .sending event⟩ =>
    { s with events := s.events.publish event, sent := s.sent ++ [event] }.setPhase id
      ⟨addr, .sending event⟩ (if event.isMessage then .running else .returned)
  | _ => s

/-- A worker returns or is cancelled, at any await. -/
def stop (s : PoolEvents μ) (id : Nat) : PoolEvents μ :=
  match s.workers.get? id with
  | some ⟨addr, .running⟩ => s.setPhase id ⟨addr, .running⟩ .returned
  | some ⟨addr, .sending event⟩ =>
    { s with events := s.events.release }.setPhase id ⟨addr, .sending event⟩ .returned
  | _ => s

def finish (s : PoolEvents μ) (id : Nat) : PoolEvents μ :=
  match s.workers.get? id with
  | some ⟨addr, .returned⟩ => s.setPhase id ⟨addr, .returned⟩ .finished
  | _ => s

/-- `on_refill`, where it begins an activation. -/
def refill (s : PoolEvents μ) (addr : Nat) : PoolEvents μ :=
  if s.activation.isSome then s
  else { s with activation := some (s.nextPeerId, addr), nextPeerId := s.nextPeerId + 1 }

/-- `finish_activation`. -/
def activate (s : PoolEvents μ) (accepted : Bool) (replacement : Option Nat) : PoolEvents μ :=
  match s.activation with
  | none => s
  | some (id, addr) =>
    let s := { s with activation := none }
    if accepted then
      let peers := replacement.elim s.peers s.peers.erase
      { s with peers := peers.insert id addr, workers := s.workers.insert id ⟨addr, .running⟩ }
    else s

/-- An event reaches `on_wake`, and `on_peer_event` if it is current. -/
def handle (s : PoolEvents μ) (event : PeerEvent μ) (synthesized : Bool) (stale : List Nat) :
    PoolEvents μ :=
  if event.isCurrent s.peers then
    let peers :=
      if event.isMessage then s.peers
      else (s.peers.erase event.peerId).filter fun id _ => !stale.contains id
    { s with pc := .top, peers := peers, handled := s.handled ++ [(event, synthesized)] }
  else { s with pc := .top }

/-- An event was taken from the channel. -/
def tick (pending : OrderedMap Nat (Nat × Nat)) : OrderedMap Nat (Nat × Nat) :=
  pending.mapVal fun _ e => (e.1, e.2 - 1)

/-- Look at the worker of one peer. -/
def scan (s : PoolEvents μ) (id : Nat) : OrderedMap Nat (Nat × Nat) :=
  match s.peers.get? id, s.workers.get? id with
  | some addr, some ⟨_, .finished⟩ =>
    if s.closedPeerEvents.contains id then s.closedPeerEvents
    else s.closedPeerEvents.insert id (addr, s.events.capacity)
  | _, _ => s.closedPeerEvents

/-- `poll_closed_peer_event`, step by step. -/
def poll (s : PoolEvents μ) (stale : List Nat) : PoolEvents μ :=
  match s.pc with
  | .admitting => { s with pc := .top }
  | .top =>
    { s with
      closedPeerEvents := s.closedPeerEvents.filter fun id e => (s.peers.get? id).any (· == e.1)
      pc := .scanning s.peers.keys }
  | .scanning (id :: rest) => { s with closedPeerEvents := s.scan id, pc := .scanning rest }
  | .scanning [] =>
    let drained := s.events.drained
    match s.closedPeerEvents.entries.find? fun e => e.2.2 == 0 || drained with
    | some (id, addr, _) => s.handle (.lost id addr) true stale
    | none => { s with pc := if s.closedPeerEvents.isEmpty then .selecting else .receiving }
  | .receiving =>
    match s.events.tryRecv with
    | none => { s with pc := .selecting }
    | some (event, events) =>
      { s with events := events, closedPeerEvents := tick s.closedPeerEvents }.handle event false stale
  | .selecting => s

def step (s : PoolEvents μ) : EventAction μ → PoolEvents μ
  | .reserve id msg => s.reserve id msg
  | .publish id => s.publish id
  | .stop id => s.stop id
  | .finish id => s.finish id
  | .refill addr =>
    match s.pc with
    | .admitting => s.refill addr
    | .selecting => { s.refill addr with pc := .top }
    | _ => s
  | .activate accepted replacement =>
    match s.pc with
    | .admitting | .top => s.activate accepted replacement
    | .selecting => { s.activate accepted replacement with pc := .top }
    | _ => s
  | .poll stale => s.poll stale
  | .recv stale =>
    match s.pc with
    | .selecting =>
      if s.peers.isEmpty then s
      else match s.events.tryRecv with
        | none => s
        | some (event, events) =>
          { s with events := events, closedPeerEvents := tick s.closedPeerEvents }.handle event false
            stale
    | _ => s
  | .wake =>
    match s.pc with
    | .selecting => { s with pc := .top }
    | _ => s

end PoolEvents

end Outpace.Swarm.Live

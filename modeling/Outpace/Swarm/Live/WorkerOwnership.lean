import Mathlib.Data.List.MinMax
import Outpace.Data.OrderedMap
import Outpace.Data.Run

/-!
# Ownership of the peer workers

`WorkerOwnership` of `live_session/worker_ownership.rs` with everything that registers, retires,
joins or releases a worker: `commit_upstream_peer` and `follow_peer_pool_with_discovery` of
`pool.rs`, `drop_peer_runtime`, `handle_pool_peer_loss` and the shutdown functions of
`pool_support.rs`, and `on_refill`, `finish_activation`, `on_wake` and `run` of `pool/actor.rs`,
over the successive pools of a session. A step is what the session does between two awaits; what
it reads besides the workers (windows, candidates, the playback cursor) is left open.
-/

namespace Outpace

universe u

/-- `Vec::swap_remove`: the last element takes the place of the removed one. -/
def swapRemove {α : Type u} (l : List α) (i : Nat) : List α :=
  match l.getLast? with
  | none => []
  | some x => (l.set i x).dropLast

theorem swapRemove_perm {α : Type u} {l : List α} {i : Nat} {x : α} (h : l[i]? = some x) :
    l.Perm (x :: swapRemove l i) := by
  rcases List.eq_nil_or_concat' l with rfl | ⟨l, y, rfl⟩
  · cases h
  · obtain ⟨hi, hx⟩ := List.getElem?_eq_some_iff.mp h
    rw [List.length_append, List.length_singleton] at hi
    rw [swapRemove, List.getLast?_concat]
    rcases Nat.lt_or_eq_of_le (Nat.le_of_lt_succ hi) with hlt | rfl
    · rw [List.getElem_append_left hlt] at hx
      simp only [List.set_append_left _ _ hlt, List.dropLast_concat]
      calc (l ++ [y]).Perm (y :: l) := List.perm_append_singleton y l
        _ |>.Perm (y :: x :: l.eraseIdx i) :=
          .cons y (hx ▸ (List.getElem_cons_eraseIdx_perm hlt).symm)
        _ |>.Perm (x :: y :: l.eraseIdx i) := .swap ..
        _ |>.Perm (x :: l.set i y) := .cons x (List.set_perm_cons_eraseIdx hlt y).symm
    · rw [List.getElem_concat_length rfl] at hx
      simp only [List.set_append_right _ _ (Nat.le_refl _), Nat.sub_self, List.set_cons_zero,
        List.dropLast_concat, hx]
      exact List.perm_append_singleton x l

namespace Swarm.Live

/-- A peer runtime with the number of its worker's task. -/
structure WorkerRuntime where
  addr : Nat
  maxPiece : Nat
  producedOutput : Bool
  worker : Nat
  deriving DecidableEq

structure WorkerOwnership where
  /-- What the semaphore has left. -/
  slots : Nat
  /-- Permits given out so far; each has its number. -/
  issued : Nat
  active : OrderedMap Nat Nat
  retired : List (WorkerRuntime × Option Nat)

namespace WorkerOwnership

def new (capacity : Nat) : WorkerOwnership := ⟨capacity, 0, ∅, []⟩

/-- A poll of `acquire`. -/
def acquire (w : WorkerOwnership) : Option (Nat × WorkerOwnership) :=
  if 0 < w.slots then
    some (w.issued, { w with slots := w.slots - 1, issued := w.issued + 1 })
  else none

/-- A permit is dropped. -/
def restore (w : WorkerOwnership) : Option Nat → WorkerOwnership
  | some _ => { w with slots := w.slots + 1 }
  | none => w

/-- The result is `none` if the worker is registered already: an assertion. -/
def register (w : WorkerOwnership) (id permit : Nat) : Option WorkerOwnership :=
  if w.active.contains id then none else some { w with active := w.active.insert id permit }

/-- The result is `none` if the worker has no permit: an assertion. -/
def retire (w : WorkerOwnership) (id : Nat) (peer : WorkerRuntime) : Option WorkerOwnership :=
  match w.active.get? id with
  | none => none
  | some permit =>
    some { w with active := w.active.erase id, retired := w.retired ++ [(peer, some permit)] }

/-- The first retired worker whose task is seen to be done, and what is left. -/
def pollRetired (w : WorkerOwnership) (ready : WorkerRuntime → Bool) :
    Option (WorkerRuntime × WorkerOwnership) := do
  let i ← w.retired.findIdx? fun e => ready e.1
  let e ← w.retired[i]?
  some (e.1, { w with retired := swapRemove w.retired i }.restore e.2)

def releaseJoinedCurrent (w : WorkerOwnership) : WorkerOwnership :=
  { w with slots := w.slots + w.active.size, active := ∅ }

end WorkerOwnership

/-- A connected candidate with the end of its window. -/
structure ConnectedUpstream where
  addr : Nat
  maxPiece : Nat

/-- A write in progress; it waits for its permit first. -/
structure Activation where
  peerId : Nat
  upstream : ConnectedUpstream
  replacement : Option Nat
  permit : Option Nat

/-- A spawned task that was not joined. -/
structure WorkerTask where
  permit : Nat
  finished : Bool

/-- What follows `shutdown_current_workers`: the wake that found no sender, the stale teardown,
or `finish_retired`, after which the session is over or connects again. -/
inductive AfterStop where
  | noSender
  | stale
  | drain (gone : Bool)
  deriving DecidableEq

/-- Where the session is. -/
inductive PoolPhase where
  /-- Without a pool, connecting. -/
  | between
  /-- A pool admits its first upstreams; these are left. -/
  | opening (rest : List ConnectedUpstream)
  /-- Between two turns of the actor. -/
  | actor
  /-- At the join handles of the workers that were stopped. -/
  | stopping (rest : List (Nat × WorkerRuntime)) (after : AfterStop)
  /-- At the join handle of a retired worker. -/
  | finishing (popped : WorkerRuntime × Option Nat) (gone : Bool)
  | gone

/-- What a turn reads of the session besides its workers. -/
structure TurnContext where
  nextNeeded : Nat
  head : Nat
  /-- The startup deadline is set. -/
  starting : Bool
  /-- `window_can_resume` of the candidate's window. -/
  canResume : Bool
  /-- The candidate was explored more than the cohort. -/
  overExplored : Bool
  isSource : Nat → Bool
  hasDeliveryWork : Bool

structure WorkerSession where
  maxActiveUpstreams : Nat
  workers : WorkerOwnership
  peers : OrderedMap Nat WorkerRuntime
  activation : Option Activation
  nextPeerId : Nat
  phase : PoolPhase
  /-- The consumer has closed. -/
  closed : Bool
  tasks : OrderedMap Nat WorkerTask
  spawned : Nat

/-- Permits of a session. -/
def permitCapacity (maxActiveUpstreams maxParallelConnect : Nat) : Nat :=
  min (max (maxActiveUpstreams + maxParallelConnect) 1) (256 + 1024)

namespace WorkerSession

def start (maxActiveUpstreams maxParallelConnect : Nat) : WorkerSession where
  maxActiveUpstreams
  workers := .new (permitCapacity maxActiveUpstreams maxParallelConnect)
  peers := ∅
  activation := none
  nextPeerId := 1
  phase := .between
  closed := false
  tasks := ∅
  spawned := 0

variable (s : WorkerSession)

def dropPeerRuntime (peerId : Nat) : Option WorkerSession :=
  match s.peers.get? peerId with
  | none => some s
  | some peer =>
    (s.workers.retire peerId peer).map fun workers =>
      { s with peers := s.peers.erase peerId, workers }

def commitUpstreamPeer (peerId : Nat) (upstream : ConnectedUpstream) (permit : Nat)
    (replacing : Option Nat) : Option (WorkerRuntime × WorkerSession) := do
  let workers ← s.workers.register peerId permit
  let s := { s with workers }
  let s ← replacing.elim (some s) s.dropPeerRuntime
  let runtime := ⟨upstream.addr, upstream.maxPiece, false, s.spawned⟩
  some (runtime,
    { s with tasks := s.tasks.insert s.spawned ⟨permit, false⟩, spawned := s.spawned + 1 })

/-- The commit of an upstream and its insertion into the pool. -/
def admitUpstream (peerId : Nat) (upstream : ConnectedUpstream) (permit : Nat) (replacing : Option Nat) :
    Option WorkerSession :=
  (s.commitUpstreamPeer peerId upstream permit replacing).map fun r =>
    { r.2 with peers := r.2.peers.insert peerId r.1 }

def beginActivation (upstream : ConnectedUpstream) (replacement : Option Nat) : WorkerSession :=
  { s with
    nextPeerId := s.nextPeerId + 1
    activation := some ⟨s.nextPeerId, upstream, replacement, none⟩ }

/-- The loop of `follow_peer_pool_with_discovery` over its upstreams. -/
def admitNext (hasDeliveryWork : Bool) : List ConnectedUpstream → WorkerSession
  | upstream :: rest => { s.beginActivation upstream none with phase := .opening rest }
  | [] =>
    { s with phase := if s.peers.isEmpty && !hasDeliveryWork then .between else .actor }

/-- Start a pool with the upstreams that were connected. -/
def followPeerPool (upstreams : List ConnectedUpstream) (valid hasDeliveryWork : Bool) :
    WorkerSession :=
  if s.closed || !valid then { s with phase := .gone }
  else if upstreams.isEmpty then s
  else { s with peers := ∅, nextPeerId := 1 }.admitNext hasDeliveryWork upstreams

/-- Drop the write in progress with its permit. -/
def dropActivation : WorkerSession :=
  match s.activation with
  | none => s
  | some a => { s with activation := none, workers := s.workers.restore a.permit }

def shutdownCurrentWorkers (after : AfterStop) : WorkerSession :=
  { s with phase := .stopping s.peers.entries after, peers := ∅ }

def shutdownPeerPool (gone : Bool) : WorkerSession :=
  s.dropActivation.shutdownCurrentWorkers (.drain gone)

def finishRetired (gone : Bool) : WorkerSession :=
  match s.workers.retired.getLast? with
  | none => { s with phase := if gone then .gone else .between }
  | some e =>
    { s with
      workers := { s.workers with retired := s.workers.retired.dropLast }
      phase := .finishing e gone }

/-- The task can be joined. -/
def isFinished (r : WorkerRuntime) : Bool := (s.tasks.get? r.worker).any (·.finished)

def join (r : WorkerRuntime) : WorkerSession := { s with tasks := s.tasks.erase r.worker }

def handlePoolPeerLoss (peerId : Nat) (w : TurnContext) : Option WorkerSession := do
  let lostProducer := (s.peers.get? peerId).any (·.producedOutput)
  let s ← s.dropPeerRuntime peerId
  if lostProducer && !s.peers.values.any (·.producedOutput) then
    let staleSources := (s.peers.entries.filter fun e =>
      decide (e.2.maxPiece < w.nextNeeded) && w.isSource e.2.addr).map (·.1)
    staleSources.foldlM (fun s id => s.dropPeerRuntime id) s
  else some s

def onRefill (upstream : ConnectedUpstream) (w : TurnContext) : WorkerSession :=
  let full := decide (s.maxActiveUpstreams ≤ s.peers.size)
  let corroborates := w.starting && decide (w.head ≤ upstream.maxPiece)
  if s.activation.isSome || (full && !w.starting) then s
  else if s.peers.values.any (·.addr == upstream.addr) then s
  else if !w.canResume then s
  else if w.overExplored then s
  else if corroborates && full && upstream.maxPiece == w.head then s
  else if full then
    if !corroborates then s
    else s.beginActivation upstream ((s.peers.entries.argmin (·.2.maxPiece)).map (·.1))
  else s.beginActivation upstream none

/-- The checks of `finish_activation` on an upstream whose write is done. -/
def admits (upstream : ConnectedUpstream) (replacement : Option Nat) (w : TurnContext) : Bool :=
  let full := s.peers.size == s.maxActiveUpstreams
  let corroborates := w.starting && decide (w.head ≤ upstream.maxPiece)
  let eligible :=
    w.canResume && !s.peers.values.any (·.addr == upstream.addr) && !w.overExplored
  if !eligible then false
  else if full && corroborates && upstream.maxPiece == w.head &&
      (replacement.bind s.peers.get?).any (·.maxPiece == upstream.maxPiece) then
    false
  else match replacement with
    | none => decide (s.peers.size < s.maxActiveUpstreams)
    | some id =>
      full && corroborates && (s.peers.get? id).any fun p => decide (p.maxPiece < upstream.maxPiece)

/-- A write has ended, in the pool's first loop or in the actor. A write that still waits for its
permit cannot end. -/
def finishActivation (ok : Bool) (w : TurnContext) : Option WorkerSession :=
  match s.activation with
  | some ⟨peerId, upstream, replacement, some permit⟩ =>
    match s.phase with
    | .opening rest =>
      (if ok then { s with activation := none }.admitUpstream peerId upstream permit none
        else some s.dropActivation).map fun s => s.admitNext w.hasDeliveryWork rest
    | .actor =>
      if ok && !s.closed && s.admits upstream replacement w then
        { s with activation := none }.admitUpstream peerId upstream permit replacement
      else some s.dropActivation
    | _ => some s
  | _ => some s

end WorkerSession

inductive WorkerEvent where
  /-- Upstreams were connected; `valid` says whether geometry and configuration pass. -/
  | connected (upstreams : List ConnectedUpstream) (valid : Bool) (w : TurnContext)
  /-- The write job is polled while it waits for its permit. -/
  | acquire
  | written (ok : Bool) (w : TurnContext)
  | refill (upstream : ConnectedUpstream) (w : TurnContext)
  | window (peerId maxPiece : Nat)
  | produced (peerId : Nat)
  | lost (peerId addr : Nat) (w : TurnContext)
  /-- The event channel has no sender. -/
  | noSender
  /-- The output budget has expired. -/
  | stale
  /-- The actor ends, or the first loop finds the consumer gone. -/
  | ends (gone : Bool)
  /-- `poll_retired`: `seen` are the tasks that were done when they were polled. -/
  | cleanup (seen : Nat → Bool)
  /-- The awaited join handle is ready. -/
  | joined
  /-- All stopped workers are joined. -/
  | released (w : TurnContext)
  | taskEnds (task : Nat)
  | consumerCloses

namespace WorkerSession

variable (s : WorkerSession)

def onAcquire : WorkerSession :=
  match s.phase, s.activation with
  | .opening _, some ⟨id, upstream, replacement, none⟩
  | .actor, some ⟨id, upstream, replacement, none⟩ =>
    match s.workers.acquire with
    | none => s
    | some (permit, workers) =>
      { s with workers, activation := some ⟨id, upstream, replacement, some permit⟩ }
  | _, _ => s

def onLost (peerId addr : Nat) (w : TurnContext) : Option WorkerSession :=
  if (s.peers.get? peerId).any (·.addr == addr) then
    (s.handlePoolPeerLoss peerId w).map fun s =>
      if s.peers.isEmpty && !w.hasDeliveryWork then s.shutdownPeerPool false else s
  else some s

def onCleanup (seen : Nat → Bool) : WorkerSession :=
  match s.workers.pollRetired fun r => seen r.worker && s.isFinished r with
  | none => s
  | some (r, workers) => { s with workers }.join r

def onJoined : WorkerSession :=
  match s.phase with
  | .stopping (e :: rest) after =>
    if s.isFinished e.2 then { s.join e.2 with phase := .stopping rest after } else s
  | .finishing e gone =>
    if s.isFinished e.1 then
      { s.join e.1 with workers := s.workers.restore e.2 }.finishRetired gone
    else s
  | _ => s

def onReleased (w : TurnContext) : WorkerSession :=
  match s.phase with
  | .stopping [] after =>
    let s := { s with workers := s.workers.releaseJoinedCurrent }
    match after with
    | .noSender =>
      if w.hasDeliveryWork then { s with phase := .actor } else s.shutdownPeerPool false
    | .stale => s.shutdownPeerPool false
    | .drain gone => s.finishRetired gone
  | _ => s

/-- What only a turn of the actor does. -/
def inActor (turn : Option WorkerSession) : Option WorkerSession :=
  match s.phase with
  | .actor => turn
  | _ => some s

def onEnds (gone : Bool) : WorkerSession :=
  match s.phase with
  | .opening _ => if s.closed then s.shutdownPeerPool true else s
  | .actor => s.shutdownPeerPool gone
  | _ => s

/-- One step of a session; the result is `none` if an assertion fails. -/
def step : WorkerEvent → Option WorkerSession
  | .connected upstreams valid w =>
    match s.phase with
    | .between => some (s.followPeerPool upstreams valid w.hasDeliveryWork)
    | _ => some s
  | .acquire => some s.onAcquire
  | .written ok w => s.finishActivation ok w
  | .refill upstream w => s.inActor (some (s.onRefill upstream w))
  | .window id maxPiece =>
    some { s with
      peers := s.peers.modify id fun p => { p with maxPiece := max p.maxPiece maxPiece } }
  | .produced id =>
    some { s with peers := s.peers.modify id fun p => { p with producedOutput := true } }
  | .lost id addr w => s.inActor (s.onLost id addr w)
  | .noSender =>
    s.inActor (some (if s.peers.isEmpty then s else s.shutdownCurrentWorkers .noSender))
  | .stale => s.inActor (some (s.shutdownCurrentWorkers .stale))
  | .ends gone => some (s.onEnds gone)
  | .cleanup seen => s.inActor (some (s.onCleanup seen))
  | .joined => some s.onJoined
  | .released w => some (s.onReleased w)
  | .taskEnds task =>
    some { s with tasks := s.tasks.modify task fun t => { t with finished := true } }
  | .consumerCloses => some { s with closed := true }

/-- A run goes on while no assertion has failed. -/
def stepAll (s : Option WorkerSession) (event : WorkerEvent) : Option WorkerSession :=
  s.bind fun s => s.step event

end WorkerSession
end Swarm.Live
end Outpace

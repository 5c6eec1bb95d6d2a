import Outpace.Data.BigEndian
import Outpace.Data.Blocks
import Outpace.Data.Ipv4
import Outpace.Data.Run
import Outpace.Wire.Bencode

/-!
# The DHT lookup

`ace-swarm/src/dht.rs`: the messages of a `get_peers` lookup and the walk `dht_walk_owned`. The walk
is a loop of rounds; in a round it sends a batch of queries and then listens for datagrams until its
window closes or a bootstrap lookup comes in. Everything from outside is a `WalkMove`: the readings
of the clock, in nanoseconds and in no particular order, the results of the bootstrap lookups and of
the sends, and the datagrams. The callback for accepted responses is a function on its own state.
-/

namespace Outpace.Swarm.Dht
open Wire (Bytes Bencode)

/-! ### Messages -/

/-- The keys of KRPC dictionaries: `a`, `id`, `info_hash`, `nodes`, `q`, `r`, `t`, `token`,
`values` and `y`. -/
def aKey : Bytes := [97]
def idKey : Bytes := [105, 100]
def infoHashKey : Bytes := [105, 110, 102, 111, 95, 104, 97, 115, 104]
def nodesKey : Bytes := [110, 111, 100, 101, 115]
def qKey : Bytes := [113]
def rKey : Bytes := [114]
def tKey : Bytes := [116]
def tokenKey : Bytes := [116, 111, 107, 101, 110]
def valuesKey : Bytes := [118, 97, 108, 117, 101, 115]
def yKey : Bytes := [121]

/-- `get_peers`. -/
def getPeersName : Bytes := [103, 101, 116, 95, 112, 101, 101, 114, 115]

/-- `build_get_peers`. -/
def buildGetPeers (nodeId infohash txid : Bytes) : Bytes :=
  (Bencode.dict [(aKey, .dict [(idKey, .bytes nodeId), (infoHashKey, .bytes infohash)]),
    (qKey, .bytes getPeersName), (tKey, .bytes txid), (yKey, .bytes qKey)]).encode

structure GetPeersResponse where
  peers : List SocketAddrV4
  nodes : List (Bytes × SocketAddrV4)
  token : Option Bytes
  txid : Bytes
  deriving DecidableEq

/-- `compact_peer`: four bytes of address and a port that is not zero. -/
def compactPeer : Bytes → Option SocketAddrV4
  | [a, b, c, d, hi, lo] =>
    if ofBe16 hi lo = 0 then none else some ⟨⟨a, b, c, d⟩, ofBe16 hi lo⟩
  | _ => none

/-- The message type, `y`. -/
def messageType (v : Bencode) : Option Bytes := (v.get yKey).bind (·.asBytes)

/-- What a response has in its dictionary `r`. -/
def responseOf (v r : Bencode) : GetPeersResponse where
  peers :=
    match r.get valuesKey with
    | some (.list vals) => vals.filterMap fun e => e.asBytes.bind compactPeer
    | _ => []
  nodes :=
    match (r.get nodesKey).bind (·.asBytes) with
    | some nodes => (blocks 26 nodes).filterMap fun c =>
        (compactPeer (c.drop 20)).map fun addr => (c.take 20, addr)
    | none => []
  token := (r.get tokenKey).bind (·.asBytes)
  txid := ((v.get tKey).bind (·.asBytes)).getD []

/-- `parse_response`. -/
def parseResponse (buf : Bytes) : Option GetPeersResponse :=
  match Bencode.parse buf with
  | .error _ => none
  | .ok v =>
    if messageType v ≠ some rKey then none
    else
      match v.get rKey with
      | some (.dict d) => some (responseOf v (.dict d))
      | _ => none

/-- `is_krpc_error`: the message type is `e`. -/
def isKrpcError (buf : Bytes) : Bool :=
  match Bencode.parse buf with
  | .error _ => false
  | .ok v => messageType v == some [101]

/-- The distance between two ids, byte by byte. -/
def distance (id target : Bytes) : Bytes := List.zipWith (· ^^^ ·) id target

/-! ### The walk -/

structure DhtWalkMetrics where
  bootstrapSeeded : Nat := 0
  nodesQueried : Nat := 0
  validResponses : Nat := 0
  peersDiscovered : Nat := 0
  nodesDiscovered : Nat := 0
  malformedResponses : Nat := 0
  krpcErrors : Nat := 0
  uncorrelatedResponses : Nat := 0
  timeouts : Nat := 0
  frontierExhausted : Bool := false
  deriving DecidableEq

/-- What the walk is given. -/
structure WalkConfig (γ : Type) where
  infohash : Vector UInt8 20
  nodeId : Vector UInt8 20
  deadline : Nat
  onResponse : γ → SocketAddrV4 → GetPeersResponse → Bool × γ

/-- `INFLIGHT_TTL`, three seconds. -/
def inflightTtl : Nat := 3 * 10 ^ 9

/-- How long a round listens at most: 1.5 seconds. -/
def roundWindow : Nat := 15 * 10 ^ 8

/-- The end of a window, whether a datagram was received in it, and whether it counts as a round. -/
structure Window where
  closes : Nat
  receivedAny : Bool
  countRound : Bool
  deriving DecidableEq

inductive WalkPhase where
  /-- The head of the outer loop. -/
  | round
  /-- The frontier is empty and a bootstrap lookup is still out. -/
  | awaitLookup
  /-- The addresses of the batch that are still to be queried, and whether the batch was empty. -/
  | sending (todo : List SocketAddrV4) (emptyBatch : Bool)
  | listening (window : Window)
  | done
  deriving DecidableEq

structure Walk (γ : Type) where
  /-- The indices of the bootstrap lookups that are still out. -/
  lookups : List Nat
  frontier : OrderedMap Bytes SocketAddrV4
  queried : List SocketAddrV4
  /-- The open queries, by destination and transaction id, with their expiry. -/
  inflight : List ((SocketAddrV4 × Bytes) × Nat)
  nextTxid : UInt16
  interruptedWindow : Option Window
  metrics : DhtWalkMetrics
  collector : γ
  phase : WalkPhase

inductive WalkMove where
  /-- A turn of the outer loop: the clock at its head, the lookups that have come in, and the clock
  for the expiries. -/
  | round (now : Nat) (joined : List (Nat × Option SocketAddrV4)) (later : Nat)
  /-- A lookup comes in while the walk waits. -/
  | lookup (now i : Nat) (result : Option SocketAddrV4)
  /-- The next query of the batch is sent, or is not. -/
  | send (now : Nat) (ok : Bool)
  /-- The batch is through. -/
  | listen (now : Nat)
  /-- A datagram from an address, `none` for one that is not IPv4. -/
  | receive (now : Nat) (src : Option SocketAddrV4) (datagram : Bytes)
  /-- The time to wait is over, or receiving fails. -/
  | elapse

/-- What the walk does that others can see, and what it takes from others. -/
inductive WalkEvent where
  | bootstrap (i : Nat) (addr : SocketAddrV4)
  | query (addr : SocketAddrV4) (txid message : Bytes)
  | expire (addr : SocketAddrV4) (txid : Bytes)
  | accept (src : SocketAddrV4) (datagram : Bytes) (response : GetPeersResponse)

/-- The loop that removes the last node while there are more than 64. -/
def keepClosest (frontier : OrderedMap Bytes SocketAddrV4) : OrderedMap Bytes SocketAddrV4 where
  entries := frontier.entries.take 64
  sorted := frontier.sorted.sublist (List.take_sublist ..)

/-- The key of a bootstrap node in the frontier. -/
def bootstrapKey (i : Nat) : Bytes := List.replicate 19 0xff ++ [UInt8.ofNat i]

/-- `BTreeMap::entry(..).or_insert(..)` for a node of a response. -/
def addNode (infohash : Vector UInt8 20) (frontier : OrderedMap Bytes SocketAddrV4)
    (node : Bytes × SocketAddrV4) : OrderedMap Bytes SocketAddrV4 :=
  let key := distance node.1 infohash.toList
  if frontier.contains key then frontier else frontier.insert key node.2

namespace Walk
variable {γ : Type}

/-- The walk at its beginning, with lookups for so many bootstrap nodes. -/
def start (bootstraps : Nat) (collector : γ) : Walk γ where
  lookups := List.range bootstraps
  frontier := ∅
  queried := []
  inflight := []
  nextTxid := 0
  interruptedWindow := none
  metrics := {}
  collector := collector
  phase := .round

variable (s : Walk γ) (c : WalkConfig γ)

/-- `add_bootstrap`. -/
def addBootstrap (i : Nat) (addr : SocketAddrV4) : Walk γ :=
  { s with
    frontier := keepClosest (s.frontier.insert (bootstrapKey i) addr)
    metrics := { s.metrics with bootstrapSeeded := s.metrics.bootstrapSeeded + 1 } }

/-- A lookup that is out comes in, with an address or without one. -/
def join (i : Nat) (result : Option SocketAddrV4) : Walk γ × List WalkEvent :=
  if i ∈ s.lookups then
    let s := { s with lookups := s.lookups.erase i }
    match result with
    | some addr => (s.addBootstrap i addr, [.bootstrap i addr])
    | none => (s, [])
  else (s, [])

/-- The lookups that have come in when a round begins. -/
def joinAll : List (Nat × Option SocketAddrV4) → Walk γ → Walk γ × List WalkEvent
  | [], s => (s, [])
  | (i, result) :: joined, s =>
    let (s, out) := s.join i result
    let (s, out') := joinAll joined s
    (s, out ++ out')

/-- The addresses of the eight closest nodes that were not queried. -/
def batch : List SocketAddrV4 :=
  (s.frontier.values.filter fun addr => decide (addr ∉ s.queried)).take 8

/-- A turn of the outer loop up to its sends. -/
def beginRound (joined : List (Nat × Option SocketAddrV4)) (later : Nat) :
    Walk γ × List WalkEvent :=
  let (s, out) := joinAll joined s
  let expired := s.inflight.filter fun q => decide (q.2 ≤ later)
  let s := { s with inflight := s.inflight.filter fun q => decide (later < q.2) }
  let phase :=
    if s.batch = [] ∧ s.lookups ≠ [] ∧ s.inflight = [] ∧ s.interruptedWindow = none then
      .awaitLookup
    else if s.batch = [] ∧ s.lookups = [] ∧ s.interruptedWindow = none then .done
    else WalkPhase.sending s.batch s.batch.isEmpty
  let exhausted := decide (phase = .done) || s.metrics.frontierExhausted
  ({ s with phase := phase, metrics := { s.metrics with frontierExhausted := exhausted } },
    out ++ expired.map fun q => .expire q.1.1 q.1.2)

/-- One query of the batch. -/
def sendQuery (addr : SocketAddrV4) (todo : List SocketAddrV4) (emptyBatch : Bool) (now : Nat)
    (ok : Bool) : Walk γ × List WalkEvent :=
  let txid := be16 s.nextTxid
  let s := { s with
    queried := s.queried ++ [addr]
    nextTxid := s.nextTxid + 1
    phase := .sending todo emptyBatch }
  if ok then
    ({ s with
      metrics := { s.metrics with nodesQueried := s.metrics.nodesQueried + 1 }
      inflight := s.inflight.filter (fun q => decide (q.1 ≠ (addr, txid))) ++
        [((addr, txid), now + inflightTtl)] },
      [.query addr txid (buildGetPeers c.nodeId.toList c.infohash.toList txid)])
  else (s, [])

/-- The window of a round: the one that a lookup interrupted if there is nothing new to send. -/
def listen (emptyBatch : Bool) (now : Nat) : Walk γ :=
  let fresh : Window := ⟨min (now + roundWindow) c.deadline, false, !emptyBatch⟩
  let window := if emptyBatch then s.interruptedWindow.getD fresh else fresh
  { s with phase := .listening window, interruptedWindow := none }

/-- The end of a round. -/
def endRound (window : Window) : Walk γ :=
  let timeouts := s.metrics.timeouts + if window.countRound && !window.receivedAny then 1 else 0
  { s with phase := .round, metrics := { s.metrics with timeouts := timeouts } }

/-- A response to an open query. -/
def accept (src : SocketAddrV4) (response : GetPeersResponse) (window : Window) : Walk γ :=
  let (stop, collector) := c.onResponse s.collector src response
  { s with
    inflight := s.inflight.filter fun q => decide (q.1 ≠ (src, response.txid))
    metrics := { s.metrics with
      validResponses := s.metrics.validResponses + 1
      peersDiscovered := s.metrics.peersDiscovered + response.peers.length
      nodesDiscovered := s.metrics.nodesDiscovered + response.nodes.length }
    frontier := keepClosest (response.nodes.foldl (addNode c.infohash) s.frontier)
    collector := collector
    phase := if stop then .done else .listening window }

/-- A datagram, cut to the buffer of 2048 bytes. -/
def receive (src : Option SocketAddrV4) (datagram : Bytes) (window : Window) :
    Walk γ × List WalkEvent :=
  let window := { window with receivedAny := true }
  let s := { s with phase := .listening window }
  let buf := datagram.take 2048
  match src with
  | none => (s, [])
  | some src =>
    match parseResponse buf with
    | none =>
      let metrics :=
        if isKrpcError buf then { s.metrics with krpcErrors := s.metrics.krpcErrors + 1 }
        else { s.metrics with malformedResponses := s.metrics.malformedResponses + 1 }
      ({ s with metrics := metrics }, [])
    | some response =>
      if (src, response.txid) ∈ s.inflight.map (·.1) then
        (s.accept c src response window, [.accept src buf response])
      else
        ({ s with metrics := { s.metrics with
            uncorrelatedResponses := s.metrics.uncorrelatedResponses + 1 } }, [])

/-- What the walk does with a move, and what of it can be seen. -/
def exec : WalkMove → Walk γ × List WalkEvent
  | .round now joined later =>
    match s.phase with
    | .round =>
      if now < c.deadline then s.beginRound joined later else ({ s with phase := .done }, [])
    | _ => (s, [])
  | .lookup now i result =>
    match s.phase with
    | .awaitLookup =>
      if i ∈ s.lookups then ({ (s.join i result).1 with phase := .round }, (s.join i result).2)
      else (s, [])
    | .listening window =>
      if now < window.closes then
        if i ∈ s.lookups then
          ({ (s.join i result).1 with phase := .round, interruptedWindow := some window },
            (s.join i result).2)
        else (s, [])
      else (s.endRound window, [])
    | _ => (s, [])
  | .send now ok =>
    match s.phase with
    | .sending (addr :: todo) emptyBatch => s.sendQuery c addr todo emptyBatch now ok
    | _ => (s, [])
  | .listen now =>
    match s.phase with
    | .sending [] emptyBatch => (s.listen c emptyBatch now, [])
    | _ => (s, [])
  | .receive now src datagram =>
    match s.phase with
    | .listening window =>
      if now < window.closes then s.receive c src datagram window else (s.endRound window, [])
    | _ => (s, [])
  | .elapse =>
    match s.phase with
    | .awaitLookup => ({ s with phase := .done }, [])
    | .listening window => (s.endRound window, [])
    | _ => (s, [])

end Walk

def WalkConfig.step {γ : Type} (c : WalkConfig γ) (s : Walk γ) (move : WalkMove) : Walk γ :=
  (s.exec c move).1

def WalkConfig.events {γ : Type} (c : WalkConfig γ) (s : Walk γ) (move : WalkMove) :
    List WalkEvent :=
  (s.exec c move).2

/-! ### Collectors -/

/-- What is harvested of peers, with the state of the observer. -/
structure Harvest (ω : Type) where
  /-- The set of peers, in the order in which they came. -/
  peers : List SocketAddrV4
  observer : ω

/-- The loop of `collect_response_peers` over the peers of a response; `true` ends it early. -/
def collectPeers {ω : Type} (onPeer : ω → SocketAddrV4 → Bool × ω) :
    List SocketAddrV4 → Harvest ω → Bool × Harvest ω
  | [], h => (false, h)
  | peer :: rest, h =>
    if 1024 ≤ h.peers.length then (true, h)
    else if peer ∈ h.peers then collectPeers onPeer rest h
    else
      let h' : Harvest ω := ⟨h.peers ++ [peer], (onPeer h.observer peer).2⟩
      if (onPeer h.observer peer).1 then collectPeers onPeer rest h' else (true, h')

/-- `collect_response_peers`, the callback of `dht_get_peers_incremental`. -/
def collectResponsePeers {ω : Type} (target : Nat) (onPeer : ω → SocketAddrV4 → Bool × ω)
    (h : Harvest ω) (_ : SocketAddrV4) (response : GetPeersResponse) : Bool × Harvest ω :=
  match collectPeers onPeer response.peers h with
  | (true, h') => (true, h')
  | (false, h') => (decide (max target 1 ≤ h'.peers.length), h')

/-- The callback of `dht_announce_peer`: the nodes that gave a token. -/
def collectTokens (tokens : List (SocketAddrV4 × Bytes)) (src : SocketAddrV4)
    (response : GetPeersResponse) : Bool × List (SocketAddrV4 × Bytes) :=
  let tokens :=
    match response.token with
    | some token => tokens ++ [(src, token)]
    | none => tokens
  (decide (8 ≤ tokens.length), tokens)

end Outpace.Swarm.Dht

import Mathlib.Data.List.MinMax
import Mathlib.Data.Prod.Lex
import Mathlib.Order.BooleanAlgebra.Basic
import Outpace.Data.OrderedMap
import Outpace.Swarm.Vod.Piece

/-!
# The download coordinator

`download_with_network_policy` of `vod/coordinator.rs` and its worker tasks as one transition
system. The coordinator runs from one suspension point to the next in small steps; workers run
beside it, one step at a time, in any order. They meet in the command slot of a worker, the
completion channel, the availability a worker keeps of its peer, and the join of a finished task.
Workers share nothing with each other, so the availabilities that the coordinator reads one after
the other may be read at once.
-/

namespace Outpace.Swarm.Vod

/-- Pieces ahead of the cursor that may be in work. -/
def window : Nat := 4

/-- Attempts per piece and address. -/
def maxAttempts : Nat := 3

/-- Capacity of the completion channel. -/
def completionSlots : Nat := 4

structure Job where
  piece : Nat
  generation : Nat
  deriving DecidableEq

structure Completion where
  worker : Nat
  job : Job
  bytes : Bytes

structure Worker where
  address : Nat
  job : Option Job

structure Credit where
  attempts : List Nat
  owner : Option Nat
  bytes : Option Bytes

def Credit.new (peers : Nat) : Credit := ⟨List.replicate peers 0, none, none⟩

inductive VodError where
  | peerPolicyDenied
  | unrecoverable (piece : Nat)
  | consumerGone
  deriving DecidableEq

/-- How a worker task ended. -/
inductive TaskResult where
  | returned
  | failed (failure : Failure)
  | panicked
  deriving DecidableEq

/-- Where a worker task is: `run_worker` up to its loop, in its loop without a job, in
`fetch_piece`, waiting for room in the completion channel, or at its end. -/
inductive Phase where
  | connecting
  | idle
  | fetching (job : Job) (assembly : Assembly)
  | reporting (job : Job) (bytes : Bytes)
  | finished (result : TaskResult)

/-- A spawned worker task with its command slot and the availability it shares. -/
structure Task where
  availability : Availability
  command : Option Job
  phase : Phase

/-- Where the coordinator is in its loop. -/
inductive Pc where
  | top
  | sending (bytes : Bytes)
  | connecting
  | assigning (pieces : List Nat)
  | selecting
  | done (outcome : Except VodError Unit)

/-- The endpoints a download uses: the permitted ones, each once. -/
def usablePeers {α : Type} [DecidableEq α] (permits : α → Bool) (peers : List α) : List α :=
  peers.foldl (fun kept peer => if permits peer && !kept.contains peer then kept ++ [peer] else kept) []

/-- What a download is called with. Peers are addressed by their position among the usable ones. -/
structure Download where
  sha1 : Bytes → Bytes
  info : VodInfo
  first : Nat
  rangeEnd : Nat
  supplied : Nat
  peers : Nat
  concurrency : Nat

namespace Download

def new {α : Type} [DecidableEq α] (sha1 : Bytes → Bytes) (info : VodInfo) (permits : α → Bool)
    (peers : List α) (first rangeEnd concurrency : Nat) : Download :=
  ⟨sha1, info, first, rangeEnd, peers.length, (usablePeers permits peers).length, concurrency⟩

def stop (d : Download) : Nat := min d.rangeEnd d.info.pieceCount

def limit (d : Download) : Nat := max 1 (min d.concurrency 4)

abbrev Verified (d : Download) (piece : Nat) (bytes : Bytes) : Prop :=
  Assembly.Verified d.sha1 d.info piece bytes

end Download

structure Sys where
  pc : Pc
  cursor : Nat
  generation : Nat
  nextWorker : Nat
  roundRobin : Nat
  banned : List Bool
  credits : OrderedMap Nat Credit
  workers : OrderedMap Nat Worker
  tasks : OrderedMap Nat Task
  completions : List Completion
  notified : Bool
  consumerGone : Bool
  sent : List Bytes

namespace Sys

variable (d : Download)

/-- The pieces of the current window. -/
def frontier (s : Sys) : List Nat :=
  List.range' s.cursor (min d.stop (saturatingAdd s.cursor window) - s.cursor)

/-- Open a credit for a piece that has none. -/
def openCredit (credits : OrderedMap Nat Credit) (piece : Nat) : OrderedMap Nat Credit :=
  if credits.contains piece then credits else credits.insert piece (.new d.peers)

/-- The top of the loop, down to the first suspension or to the connect loop. -/
def top (s : Sys) : Sys :=
  if s.cursor = d.stop then { s with pc := .done (.ok ()) }
  else if s.consumerGone then { s with pc := .done (.error .consumerGone) }
  else
    match (s.credits.get? s.cursor).bind (·.bytes) with
    | some bytes =>
      { s with
        pc := .sending bytes
        credits := s.credits.modify s.cursor fun c => { c with bytes := none } }
    | none => { s with pc := .connecting, credits := (s.frontier d).foldl (openCredit d) s.credits }

/-- The least tried address with budget left that no worker uses. -/
def nextAddress (s : Sys) : Option Nat :=
  let attempts (address : Nat) : Nat :=
    (((s.credits.get? s.cursor).map (·.attempts)).getD [])[address]?.getD 0
  ((List.range d.peers).filter fun address =>
    !(s.banned[address]?.getD false) && decide (attempts address < maxAttempts) &&
      !s.workers.values.any fun w => w.address == address).argmin attempts

/-- One round of the connect loop: start a worker, or go on to the assignments. -/
def connect (s : Sys) : Sys :=
  match if s.workers.size < d.limit then s.nextAddress d else none with
  | some address =>
    { s with
      nextWorker := s.nextWorker + 1
      workers := s.workers.insert s.nextWorker ⟨address, none⟩
      tasks := s.tasks.insert s.nextWorker ⟨.default, none, .connecting⟩ }
  | none => { s with pc := .assigning s.credits.keys }

def attemptsAt (c : Credit) (w : Worker) : Nat := c.attempts[w.address]?.getD 0

/-- The worker may take the piece of this credit. -/
def eligible (s : Sys) (piece : Nat) (c : Credit) (id : Nat) (w : Worker) : Bool :=
  w.job.isNone && (s.tasks.get? id).any (fun t => t.availability.unchoked && t.availability.has piece) &&
    !(s.banned[w.address]?.getD false) && decide (attemptsAt c w < maxAttempts)

/-- The eligible worker with the fewest attempts at its address, from the round-robin mark on. -/
def nextOwner (s : Sys) (piece : Nat) (c : Credit) : Option (Nat × Worker) :=
  (s.workers.entries.filter fun e => s.eligible piece c e.1 e.2).argmin fun e =>
    toLex (attemptsAt c e.2, toLex (decide (e.1 < s.roundRobin), e.1))

/-- A command can be sent: the slot is free and the task still holds the receiver. -/
def accepts (s : Sys) (id : Nat) : Bool :=
  (s.tasks.get? id).any fun t => t.command.isNone && !(t.phase matches .finished _)

/-- Give a piece to a worker. -/
def dispatch (s : Sys) (piece id : Nat) (w : Worker) : Sys :=
  let job : Job := ⟨piece, s.generation + 1⟩
  if s.accepts id then
    { s with
      generation := s.generation + 1
      roundRobin := id + 1
      credits := s.credits.modify piece fun c =>
        { c with attempts := c.attempts.modify w.address (· + 1), owner := some id }
      workers := s.workers.modify id fun w => { w with job := some job }
      tasks := s.tasks.modify id fun t => { t with command := some job } }
  else { s with generation := s.generation + 1 }

/-- One round of the assignment loop. -/
def assignPiece (s : Sys) (piece : Nat) : Sys :=
  match s.credits.get? piece with
  | none => s
  | some c =>
    if c.owner.isSome || c.bytes.isSome then s
    else
      match s.nextOwner piece c with
      | some (id, w) => s.dispatch piece id w
      | none => s

def assigning (s : Sys) : List Nat → Sys
  | piece :: pieces => { s.assignPiece piece with pc := .assigning pieces }
  | [] =>
    if s.workers.isEmpty then { s with pc := .done (.error (.unrecoverable s.cursor)) }
    else if s.consumerGone then { s with pc := .done (.error .consumerGone) }
    else { s with pc := .selecting }

/-- A step of the coordinator that waits for nobody. -/
def coordinate (s : Sys) : Sys :=
  match s.pc with
  | .top => s.top d
  | .connecting => s.connect d
  | .assigning pieces => s.assigning pieces
  | _ => s

/-! ### Where the coordinator waits -/

/-- The consumer takes a chunk: it is sent, and the cursor moves on. -/
def consume (s : Sys) : Sys :=
  match s.pc with
  | .sending bytes =>
    if s.consumerGone then { s with pc := .done (.error .consumerGone) }
    else
      { s with
        pc := .top
        sent := s.sent ++ [bytes]
        credits := s.credits.erase s.cursor
        cursor := s.cursor + 1 }
  | _ => s

/-- The consumer drops the receiver; a coordinator that waits notices. -/
def closeConsumer (s : Sys) : Sys :=
  match s.pc with
  | .sending _ | .selecting =>
    { s with consumerGone := true, pc := .done (.error .consumerGone) }
  | _ => { s with consumerGone := true }

/-- The completion is for the job its worker has now. -/
def current (s : Sys) (c : Completion) : Bool :=
  (s.workers.get? c.worker).any fun w => w.job == some c.job

/-- A current completion whose credit still belongs to the worker is buffered. -/
def buffers (s : Sys) (c : Completion) : Bool :=
  s.current c && (s.credits.get? c.job.piece).any fun credit => credit.owner == some c.worker

/-- The coordinator takes a completion from the channel. -/
def receive (s : Sys) : Sys :=
  match s.pc, s.completions with
  | .selecting, c :: rest =>
    let s := { s with pc := .top, completions := rest }
    if s.current c then
      { s with
        credits := s.credits.modify c.job.piece fun credit =>
          if credit.owner = some c.worker then { credit with owner := none, bytes := some c.bytes }
          else credit
        workers := s.workers.modify c.worker fun w => { w with job := none } }
    else s
  | _, _ => s

/-- The books after a worker is gone: an owned credit is free again, and an idle worker cost its
address an attempt at the frontier. -/
def release (s : Sys) (id : Nat) (w : Worker) : OrderedMap Nat Credit :=
  match w.job with
  | some job =>
    s.credits.modify job.piece fun c => if c.owner = some id then { c with owner := none } else c
  | none => s.credits.modify s.cursor fun c => { c with attempts := c.attempts.modify w.address (· + 1) }

/-- The coordinator joins a finished task. -/
def join (s : Sys) (id : Nat) : Sys :=
  match s.pc, s.tasks.get? id with
  | .selecting, some ⟨_, _, .finished .panicked⟩ =>
    { s with pc := .done (.error (.unrecoverable s.cursor)), tasks := s.tasks.erase id }
  | .selecting, some ⟨_, _, .finished result⟩ =>
    let s := { s with pc := .top, tasks := s.tasks.erase id }
    match s.workers.get? id with
    | none => s
    | some w =>
      { s with
        workers := s.workers.erase id
        banned := if result = .failed .hash then s.banned.set w.address true else s.banned
        credits := s.release id w }
  | _, _ => s

/-- A notification wakes the coordinator. -/
def wake (s : Sys) : Sys :=
  match s.pc, s.notified with
  | .selecting, true => { s with pc := .top, notified := false }
  | _, _ => s

end Sys

/-! ### Worker steps -/

/-- What can happen to a worker task. -/
inductive WorkerEvent where
  | connected
  | takeCommand
  | commandsClosed
  | message (m : PeerMessage)
  | broken
  | report
  | panic

namespace Task

variable (d : Download)

def fail (t : Task) (failure : Failure) : Task :=
  { t with command := none, phase := .finished (.failed failure) }

/-- The task goes from its loop into `fetch_piece`. -/
def fetch (t : Task) (job : Job) : Task :=
  { t with
    command := none
    phase := .fetching job
      ((Assembly.new (d.info.pieceSize job.piece)).request d.info t.availability.unchoked) }

def onFetchMessage (t : Task) (job : Job) (assembly : Assembly) (m : PeerMessage) : Task :=
  match assembly.onMessage d.sha1 d.info job.piece t.availability m with
  | .continued assembly availability =>
    { t with availability := availability, phase := .fetching job assembly }
  | .finished bytes => { t with phase := .reporting job bytes }
  | .failed failure => t.fail failure
  | .panicked => { t with command := none, phase := .finished .panicked }

end Task

namespace Sys

variable (d : Download)

def setTask (s : Sys) (id : Nat) (t : Task) : Sys := { s with tasks := s.tasks.insert id t }

/-- One step of a running worker task. -/
def stepTask (s : Sys) (id : Nat) (t : Task) : WorkerEvent → Sys
  | .connected =>
    match t.phase with
    | .connecting => s.setTask id { t with phase := .idle }
    | _ => s
  | .takeCommand =>
    match t.phase, t.command with
    | .idle, some job => s.setTask id (t.fetch d job)
    | _, _ => s
  | .commandsClosed =>
    match t.phase, t.command with
    | .idle, none =>
      -- the sender goes with the worker's entry
      if s.workers.contains id then s else s.setTask id { t with phase := .finished .returned }
    | _, _ => s
  | .message m =>
    match t.phase with
    | .idle =>
      match t.availability.control m d.info.pieceCount with
      | .ok availability => { s.setTask id { t with availability := availability } with notified := true }
      | .error failure => s.setTask id (t.fail failure)
    | .fetching job assembly => s.setTask id (t.onFetchMessage d job assembly m)
    | _ => s
  | .broken =>
    -- a refused or lost connection, a failed write or a deadline
    match t.phase with
    | .finished _ | .reporting _ _ => s
    | _ => s.setTask id (t.fail .peer)
  | .report =>
    match t.phase with
    | .reporting job bytes =>
      if s.completions.length < completionSlots then
        { s.setTask id { t with phase := .idle } with
          completions := s.completions ++ [⟨id, job, bytes⟩] }
      else s
    | _ => s
  | .panic =>
    match t.phase with
    | .finished _ => s
    | _ => s.setTask id { t with command := none, phase := .finished .panicked }

def worker (s : Sys) (id : Nat) (e : WorkerEvent) : Sys :=
  match s.tasks.get? id with
  | some t => s.stepTask d id t e
  | none => s

end Sys

inductive Action where
  | coordinate
  | consume
  | closeConsumer
  | receive
  | join (id : Nat)
  | wake
  | worker (id : Nat) (e : WorkerEvent)

namespace Sys

variable (d : Download)

def step (s : Sys) : Action → Sys
  | .coordinate => s.coordinate d
  | .consume => s.consume
  | .closeConsumer => s.closeConsumer
  | .receive => s.receive
  | .join id => s.join id
  | .wake => s.wake
  | .worker id e => s.worker d id e

/-- The state before the loop. An empty range is done at once, and so is a download whose peers the
policy denied. -/
def start : Sys where
  pc :=
    if d.stop ≤ d.first then .done (.ok ())
    else if 0 < d.supplied ∧ d.peers = 0 then .done (.error .peerPolicyDenied)
    else .top
  cursor := d.first
  generation := 0
  nextWorker := 0
  roundRobin := 0
  banned := List.replicate d.peers false
  credits := ∅
  workers := ∅
  tasks := ∅
  completions := []
  notified := false
  consumerGone := false
  sent := []

end Sys

end Outpace.Swarm.Vod

import Mathlib.Data.Finset.Basic
import Mathlib.Algebra.BigOperators.Group.List.Basic
import Mathlib.Algebra.GroupWithZero.Nat
import Outpace.Data.Machine
import Outpace.Data.OrderedMap

/-!
# Piece request scheduling

The decision core of `ace-swarm/src/scheduler.rs`: which piece to request from which peer next.
`assign_inner` walks the pieces from the cursor on and gives each one not requested yet to the
covering unchoked peer with the most capacity left. The walk ends at a ceiling that starts at the
total capacity and, where queue slots are given, moves on past requested pieces up to the scan
ceiling.
-/

namespace Outpace.Swarm

/-- A peer as the scheduler sees it in one call. -/
structure PeerView where
  id : Nat
  minPiece : Nat
  maxPiece : Nat
  unchoked : Bool
  inFlight : Nat
  deriving DecidableEq

def PeerView.covers (p : PeerView) (piece : Nat) : Bool :=
  decide (p.minPiece ≤ piece ∧ piece ≤ p.maxPiece)

structure Scheduler where
  maxInFlight : Nat
  requested : Finset Nat
  deriving DecidableEq

/-- What is left of an unchoked peer's capacity and of its queue slots during a call. -/
structure Cap where
  peer : PeerView
  spare : Nat
  slots : Nat
  deriving DecidableEq

/-- The peer can take this piece now. -/
def Cap.available (c : Cap) (piece : Nat) : Bool :=
  decide (0 < c.spare) && decide (0 < c.slots) && c.peer.covers piece

/-- Charge one request to the peer. -/
def Cap.charge (c : Cap) : Cap := { c with spare := c.spare - 1, slots := c.slots - 1 }

/-- The available entry with the most capacity left, the last one of several, with what stands
before and after it. -/
def pick (piece : Nat) : List Cap → Option (List Cap × Cap × List Cap)
  | [] => none
  | c :: rest =>
    match pick piece rest with
    | some (before, best, after) =>
      if c.available piece && decide (best.spare < c.spare) then some ([], c, rest)
      else some (c :: before, best, after)
    | none => if c.available piece then some ([], c, rest) else none

/-- The local variables of the assignment loop. -/
structure Walk where
  piece : Nat
  ceiling : Nat
  caps : List Cap
  requested : Finset Nat
  out : List (Nat × Nat)

namespace Walk

/-- One round of the loop at a piece: a requested piece lets the ceiling move on, any other is given
to a peer if one can take it. -/
def visit (scanCeiling : Nat) (w : Walk) : Walk :=
  if w.piece ∈ w.requested then
    { w with piece := w.piece + 1, ceiling := min (saturatingAdd w.ceiling 1) scanCeiling }
  else
    match pick w.piece w.caps with
    | some (before, c, after) =>
      { w with
        piece := w.piece + 1
        caps := before ++ c.charge :: after
        requested := insert w.piece w.requested
        out := w.out ++ [(c.peer.id, w.piece)] }
    | none => { w with piece := w.piece + 1 }

/-- The loop. The ceiling never passes the scan ceiling, so there are at most
`scanCeiling + 1 - piece` rounds. -/
def loop (scanCeiling : Nat) : (fuel : Nat) → Walk → Walk
  | 0, w => w
  | fuel + 1, w => if w.piece ≤ w.ceiling then loop scanCeiling fuel (w.visit scanCeiling) else w

end Walk

namespace Scheduler

def new (maxInFlight : Nat) : Scheduler := ⟨max maxInFlight 1, ∅⟩

/-- Capacity of the unchoked peers. Without queue slots a peer's slots are its spare capacity. -/
def caps (s : Scheduler) (peers : List PeerView) (queueSlots : Option (OrderedMap Nat Nat)) :
    List Cap :=
  (peers.filter (·.unchoked)).map fun p =>
    let spare := s.maxInFlight - p.inFlight
    ⟨p, spare, match queueSlots with | some slots => (slots.get? p.id).getD 0 | none => spare⟩

/-- The `u64` sum of the spare capacities. -/
def totalSpare (caps : List Cap) : Nat := (caps.map (·.spare)).sum % 2 ^ 64

/-- How far behind the cursor the walk may get: with queue slots the policy horizon of an empty
batch, else the spare capacity. -/
def scanSlots (s : Scheduler) (caps : List Cap) (queueSlots : Option (OrderedMap Nat Nat)) : Nat :=
  match queueSlots with
  | some _ => caps.foldl (fun total _ => saturatingAdd total s.maxInFlight) 0
  | none => totalSpare caps

def scanCeiling (s : Scheduler) (nextNeeded head : Nat) (peers : List PeerView)
    (queueSlots : Option (OrderedMap Nat Nat)) : Nat :=
  min head (saturatingAdd nextNeeded (s.scanSlots (s.caps peers queueSlots) queueSlots))

/-- Where the walk of a call starts: at the cursor, with the requests behind it forgotten. -/
def walkStart (s : Scheduler) (nextNeeded head : Nat) (peers : List PeerView)
    (queueSlots : Option (OrderedMap Nat Nat)) : Walk where
  piece := nextNeeded
  ceiling := min head (saturatingAdd nextNeeded (totalSpare (s.caps peers queueSlots)))
  caps := s.caps peers queueSlots
  requested := s.requested.filter fun p => nextNeeded ≤ p
  out := []

def walk (s : Scheduler) (nextNeeded head : Nat) (peers : List PeerView)
    (queueSlots : Option (OrderedMap Nat Nat)) : Walk :=
  let scanCeiling := s.scanCeiling nextNeeded head peers queueSlots
  Walk.loop scanCeiling (scanCeiling + 1 - nextNeeded) (s.walkStart nextNeeded head peers queueSlots)

def assignInner (s : Scheduler) (nextNeeded head : Nat) (peers : List PeerView)
    (queueSlots : Option (OrderedMap Nat Nat)) : List (Nat × Nat) × Scheduler :=
  let w := s.walk nextNeeded head peers queueSlots
  (w.out, { s with requested := w.requested })

def onComplete (s : Scheduler) (piece : Nat) : Scheduler :=
  { s with requested := s.requested.erase piece }

def onDrop (s : Scheduler) (piece : Nat) : Scheduler :=
  { s with requested := s.requested.erase piece }

def clearInFlight (s : Scheduler) : Scheduler := { s with requested := ∅ }

end Scheduler

end Outpace.Swarm

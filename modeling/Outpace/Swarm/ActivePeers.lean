import Mathlib.Data.Finset.Card
import Mathlib.Data.Finset.Lattice.Basic
import Outpace.Data.Run
import Outpace.Swarm.SchedulerAssign

/-!
# Active peers

The per-peer side of `ace-swarm/src/scheduler.rs`: the advertised window, the choke state and the
pieces in flight of each connected peer. An assignment call builds the scheduler's view of the
peers, and notes each assignment in the in-flight set of its peer; the other operations add, change
and remove peers and take pieces out of the sets.
-/

namespace Outpace.Swarm

structure ActivePeer where
  observedBounds : Option (Nat × Nat)
  minPiece : Nat
  maxPiece : Nat
  unchoked : Bool
  inFlight : Finset Nat
  deriving DecidableEq

structure PeerAssignment where
  peerId : Nat
  piece : Nat
  deriving DecidableEq

/-- The pair the scheduler chose. -/
def PeerAssignment.pair (x : PeerAssignment) : Nat × Nat := (x.peerId, x.piece)

/-- The window part of a peer's `LivePosition`. -/
structure LivePosition where
  minPiece : Int
  maxPiece : Int

structure ActivePeers where
  peers : OrderedMap Nat ActivePeer

namespace ActivePeers

def new : ActivePeers := ⟨∅⟩

/-- Bounds count as observed only if they are in order. -/
def inOrder (bounds : Option (Nat × Nat)) : Option (Nat × Nat) :=
  bounds.filter fun (lo, hi) => decide (lo ≤ hi)

/-- A signed position as an unsigned one, if it is not negative. -/
def unsigned? (n : Int) : Option Nat := if 0 ≤ n then some n.toNat else none

def insert (a : ActivePeers) (id : Nat) (window : LivePosition) : ActivePeers :=
  ⟨a.peers.insert id
    { observedBounds := inOrder <|
        (unsigned? window.minPiece).bind fun lo => (unsigned? window.maxPiece).map fun hi => (lo, hi)
      minPiece := window.minPiece.toNat
      maxPiece := window.maxPiece.toNat
      unchoked := false
      inFlight := ∅ }⟩

def setUnchoked (a : ActivePeers) (id : Nat) (unchoked : Bool) : ActivePeers :=
  ⟨a.peers.modify id fun peer => { peer with unchoked := unchoked }⟩

def updateWindow (a : ActivePeers) (id minPiece maxPiece : Nat) : ActivePeers :=
  ⟨a.peers.modify id fun peer =>
    { peer with minPiece := minPiece, maxPiece := max maxPiece minPiece }⟩

def observeWindow (a : ActivePeers) (id : Nat) (bounds : Option (Nat × Nat)) : ActivePeers :=
  ⟨a.peers.modify id fun peer => { peer with observedBounds := inOrder bounds }⟩

def views (a : ActivePeers) : List PeerView :=
  a.peers.entries.map fun (id, peer) =>
    ⟨id, peer.minPiece, peer.maxPiece, peer.unchoked, peer.inFlight.card⟩

/-- Put a piece into the in-flight set of a peer. -/
def addInFlight (a : ActivePeers) (id piece : Nat) : ActivePeers :=
  ⟨a.peers.modify id fun peer => { peer with inFlight := Insert.insert piece peer.inFlight }⟩

/-- Note what the scheduler assigned, one pair after the other. A piece for a peer that is not there
is requeued. -/
def noteAssigned : List (Nat × Nat) → ActivePeers × Scheduler →
    List PeerAssignment × ActivePeers × Scheduler
  | [], (a, s) => ([], a, s)
  | (id, piece) :: rest, (a, s) =>
    if a.peers.contains id then
      let (out, state) := noteAssigned rest (a.addInFlight id piece, s)
      (⟨id, piece⟩ :: out, state)
    else noteAssigned rest (a, s.onDrop piece)

def assignInner (a : ActivePeers) (s : Scheduler) (nextNeeded head : Nat)
    (queueSlots : Option (OrderedMap Nat Nat)) : List PeerAssignment × ActivePeers × Scheduler :=
  let (assigned, s) := s.assignInner nextNeeded head a.views queueSlots
  noteAssigned assigned (a, s)

def cancelAssignment (a : ActivePeers) (id piece : Nat) : ActivePeers :=
  ⟨a.peers.modify id fun peer => { peer with inFlight := peer.inFlight.erase piece }⟩

/-- Remove a peer, and hand back the pieces it had in flight. -/
def remove (a : ActivePeers) (id : Nat) : Finset Nat × ActivePeers :=
  (((a.peers.get? id).map (·.inFlight)).getD ∅, ⟨a.peers.erase id⟩)

def inFlightCount (a : ActivePeers) (id : Nat) : Nat :=
  ((a.peers.get? id).map (·.inFlight.card)).getD 0

def completeEverywhere (a : ActivePeers) (piece : Nat) : ActivePeers :=
  ⟨a.peers.mapVal fun _ peer => { peer with inFlight := peer.inFlight.erase piece }⟩

def pruneBelow (a : ActivePeers) (floor : Nat) : ActivePeers :=
  ⟨a.peers.mapVal fun _ peer => { peer with inFlight := peer.inFlight.filter fun p => floor ≤ p }⟩

def anyUnchokedCovers (a : ActivePeers) (piece : Nat) : Bool :=
  a.peers.values.any fun p => p.unchoked && decide (p.minPiece ≤ piece ∧ piece ≤ p.maxPiece)

def lowestCoveredPiece (a : ActivePeers) : Option Nat :=
  ((a.peers.values.filter (·.unchoked)).map (·.minPiece)).min?

/-! ### The in-flight set of a peer -/

/-- The pieces in flight at a peer, none if it is not there. -/
def flight (a : ActivePeers) (id : Nat) : Finset Nat := ((a.peers.get? id).map (·.inFlight)).getD ∅

theorem card_flight (a : ActivePeers) (id : Nat) : (a.flight id).card = a.inFlightCount id := by
  simp only [flight, inFlightCount]
  cases a.peers.get? id <;> rfl

theorem flight_modify (a : ActivePeers) (id i : Nat) (f : ActivePeer → ActivePeer) :
    (⟨a.peers.modify id f⟩ : ActivePeers).flight i =
      if i = id then ((a.peers.get? i).map fun peer => (f peer).inFlight).getD ∅ else a.flight i := by
  simp only [flight, OrderedMap.get?_modify]
  split
  · rw [Option.map_map]; rfl
  · rfl

@[simp] theorem flight_setUnchoked (a : ActivePeers) (id i : Nat) (unchoked : Bool) :
    (a.setUnchoked id unchoked).flight i = a.flight i := by
  rw [setUnchoked, flight_modify]
  split <;> rfl

@[simp] theorem flight_updateWindow (a : ActivePeers) (id lo hi i : Nat) :
    (a.updateWindow id lo hi).flight i = a.flight i := by
  rw [updateWindow, flight_modify]
  split <;> rfl

@[simp] theorem flight_observeWindow (a : ActivePeers) (id i : Nat) (bounds : Option (Nat × Nat)) :
    (a.observeWindow id bounds).flight i = a.flight i := by
  rw [observeWindow, flight_modify]
  split <;> rfl

@[simp] theorem flight_insert (a : ActivePeers) (id i : Nat) (window : LivePosition) :
    (a.insert id window).flight i = if i = id then ∅ else a.flight i := by
  simp only [flight, insert, OrderedMap.get?_insert]
  split <;> rfl

@[simp] theorem flight_cancelAssignment (a : ActivePeers) (id piece i : Nat) :
    (a.cancelAssignment id piece).flight i =
      if i = id then (a.flight i).erase piece else a.flight i := by
  rw [cancelAssignment, flight_modify]
  split
  · simp only [flight]
    cases a.peers.get? i <;> rfl
  · rfl

@[simp] theorem flight_remove (a : ActivePeers) (id i : Nat) :
    (a.remove id).2.flight i = if i = id then ∅ else a.flight i := by
  simp only [flight, remove, OrderedMap.get?_erase]
  split <;> rfl

@[simp] theorem flight_completeEverywhere (a : ActivePeers) (piece i : Nat) :
    (a.completeEverywhere piece).flight i = (a.flight i).erase piece := by
  simp only [flight, completeEverywhere, OrderedMap.get?_mapVal]
  cases a.peers.get? i <;> rfl

@[simp] theorem flight_pruneBelow (a : ActivePeers) (floor i : Nat) :
    (a.pruneBelow floor).flight i = (a.flight i).filter fun p => floor ≤ p := by
  simp only [flight, pruneBelow, OrderedMap.get?_mapVal]
  cases a.peers.get? i <;> rfl

/-! ### What one assignment call does -/

variable {a : ActivePeers} {s : Scheduler} {nextNeeded head : Nat}
  {queueSlots : Option (OrderedMap Nat Nat)}

theorem nodup_views (a : ActivePeers) : (a.views.map (·.id)).Nodup := by
  have hids : a.views.map (·.id) = a.peers.keys := by
    simp only [views, List.map_map, OrderedMap.keys]
    rfl
  rw [hids]
  exact a.peers.keys_nodup

theorem mem_views {v : PeerView} :
    v ∈ a.views ↔ ∃ peer, a.peers.get? v.id = some peer ∧
      v = ⟨v.id, peer.minPiece, peer.maxPiece, peer.unchoked, peer.inFlight.card⟩ := by
  simp only [views, List.mem_map, Prod.exists]
  constructor
  · rintro ⟨id, peer, hmem, rfl⟩
    exact ⟨peer, OrderedMap.get?_eq_some.mpr hmem, rfl⟩
  · rintro ⟨peer, hget, hv⟩
    exact ⟨v.id, peer, OrderedMap.get?_eq_some.mp hget, hv.symm⟩

/-- The pieces that a list of assignments gives to a peer. -/
def given (out : List (Nat × Nat)) (id : Nat) : Finset Nat :=
  ((out.filter fun x => x.1 == id).map (·.2)).toFinset

theorem mem_given {out : List (Nat × Nat)} {id piece : Nat} :
    piece ∈ given out id ↔ (id, piece) ∈ out := by
  simp only [given, List.mem_toFinset, List.mem_map, List.mem_filter, beq_iff_eq, Prod.exists]
  constructor
  · rintro ⟨_, _, ⟨h, rfl⟩, rfl⟩
    exact h
  · exact fun h => ⟨id, piece, ⟨h, rfl⟩, rfl⟩

theorem card_given_le (out : List (Nat × Nat)) (id : Nat) : (given out id).card ≤ load out id :=
  (List.toFinset_card_le _).trans_eq (List.length_map _)

theorem get?_addInFlight (a : ActivePeers) (id piece i : Nat) :
    (a.addInFlight id piece).peers.get? i =
      (a.peers.get? i).map fun peer =>
        { peer with inFlight := given [(id, piece)] i ∪ peer.inFlight } := by
  simp only [addInFlight, OrderedMap.get?_modify]
  split
  · next h =>
    subst h
    simp [given]
  · next h => simp [given, Ne.symm h]

/-- With every peer there, noting the assignments only adds them to the in-flight sets. -/
theorem noteAssigned_spec (l : List (Nat × Nat)) (a : ActivePeers) (s : Scheduler)
    (h : ∀ x ∈ l, a.peers.contains x.1 = true) :
    (noteAssigned l (a, s)).1 = l.map (fun x => ⟨x.1, x.2⟩) ∧ (noteAssigned l (a, s)).2.2 = s ∧
      ∀ i, (noteAssigned l (a, s)).2.1.peers.get? i =
        (a.peers.get? i).map fun peer => { peer with inFlight := given l i ∪ peer.inFlight } := by
  induction l generalizing a with
  | nil => simp [noteAssigned, given]
  | cons x l ih =>
    obtain ⟨id, piece⟩ := x
    obtain ⟨hid, hrest⟩ := List.forall_mem_cons.mp h
    have hstep : ∀ x ∈ l, (a.addInFlight id piece).peers.contains x.1 = true := by
      intro x hx
      have hx := hrest x hx
      simp only [OrderedMap.contains, get?_addInFlight, Option.isSome_map] at hx ⊢
      exact hx
    obtain ⟨hout, hs, hpeers⟩ := ih (a.addInFlight id piece) hstep
    simp only [noteAssigned, if_pos hid]
    refine ⟨by rw [hout]; rfl, hs, fun i => ?_⟩
    rw [hpeers, get?_addInFlight, Option.map_map]
    refine congrFun (congrArg Option.map (funext fun peer => ?_)) _
    have hset : given ((id, piece) :: l) i = given l i ∪ given [(id, piece)] i := by
      ext p
      simp only [Finset.mem_union, mem_given, List.mem_cons, List.not_mem_nil, or_false]
      exact or_comm
    simp only [Function.comp, hset, Finset.union_assoc]

/-- The outcome of an assignment call, relative to the pairs the scheduler chose. -/
structure Assigned (a : ActivePeers) (s : Scheduler) (nextNeeded ceiling : Nat)
    (out : List (Nat × Nat)) (a' : ActivePeers) (s' : Scheduler) : Prop where
  range : ∀ x ∈ out, nextNeeded ≤ x.2 ∧ x.2 ≤ ceiling
  fresh : ∀ x ∈ out, x.2 ∉ s.requested
  serves : ∀ x ∈ out, ∃ peer, a.peers.get? x.1 = some peer ∧ peer.unchoked = true ∧
    peer.minPiece ≤ x.2 ∧ x.2 ≤ peer.maxPiece
  distinct : out.Pairwise fun x y => x.2 < y.2
  requested : ∀ p, p ∈ s'.requested ↔ (p ∈ s.requested ∧ nextNeeded ≤ p) ∨ ∃ x ∈ out, x.2 = p
  maxInFlight : s'.maxInFlight = s.maxInFlight
  peers : ∀ id, a'.peers.get? id =
    (a.peers.get? id).map fun peer => { peer with inFlight := given out id ∪ peer.inFlight }
  capacity : ∀ id peer, a.peers.get? id = some peer →
    peer.inFlight.card + load out id ≤ max peer.inFlight.card s.maxInFlight

theorem Assigned.flight {a a' : ActivePeers} {s s' : Scheduler} {ceiling : Nat}
    {out : List (Nat × Nat)} (A : Assigned a s nextNeeded ceiling out a' s') (id : Nat) :
    a'.flight id = given out id ∪ a.flight id := by
  simp only [ActivePeers.flight, A.peers]
  cases h : a.peers.get? id with
  | some peer => rfl
  | none =>
    -- nothing is given to a peer that is not there
    have hnone : given out id = ∅ := by
      refine Finset.eq_empty_of_forall_notMem fun piece hp => ?_
      obtain ⟨peer, hpeer, -⟩ := A.serves _ (mem_given.mp hp)
      rw [h] at hpeer
      cases hpeer
    rw [hnone]
    rfl

theorem assignInner_spec (a : ActivePeers) (s : Scheduler) (nextNeeded head : Nat)
    (queueSlots : Option (OrderedMap Nat Nat)) :
    (a.assignInner s nextNeeded head queueSlots).1 =
        (s.walk nextNeeded head a.views queueSlots).out.map (fun x => ⟨x.1, x.2⟩) ∧
      Assigned a s nextNeeded (s.scanCeiling nextNeeded head a.views queueSlots)
        (s.walk nextNeeded head a.views queueSlots).out
        (a.assignInner s nextNeeded head queueSlots).2.1
        (a.assignInner s nextNeeded head queueSlots).2.2 := by
  obtain ⟨W, -⟩ := s.walk_spec nextNeeded head queueSlots a.nodup_views
  have hserves : ∀ x ∈ (s.walk nextNeeded head a.views queueSlots).out,
      ∃ peer, a.peers.get? x.1 = some peer ∧ peer.unchoked = true ∧
        peer.minPiece ≤ x.2 ∧ x.2 ≤ peer.maxPiece := by
    intro x hx
    obtain ⟨v, hv, hid, hu, hcovers⟩ := Scheduler.serves_of_mem a.nodup_views hx
    obtain ⟨peer, hpeer, hview⟩ := mem_views.mp hv
    rw [hview] at hu hcovers
    exact ⟨peer, hid ▸ hpeer, hu, of_decide_eq_true hcovers⟩
  obtain ⟨hout, hs, hpeers⟩ := noteAssigned_spec (s.walk nextNeeded head a.views queueSlots).out a
    { s with requested := (s.walk nextNeeded head a.views queueSlots).requested } fun x hx => by
      obtain ⟨peer, hpeer, -⟩ := hserves x hx
      exact OrderedMap.contains_iff.mpr ⟨peer, hpeer⟩
  refine ⟨hout, fun x hx => ?_, fun x hx => ?_, hserves, W.increasing, fun p => ?_, ?_, hpeers,
    fun id peer hpeer => ?_⟩
  · obtain ⟨⟨hlow, -, hhigh⟩, -⟩ := W.assigned x hx
    exact ⟨hlow, hhigh⟩
  · obtain ⟨⟨hlow, -⟩, hnew, -⟩ := W.assigned x hx
    exact fun h => hnew (Finset.mem_filter.mpr ⟨h, hlow⟩)
  · rw [assignInner, Scheduler.assignInner, hs]
    exact (W.requested p).trans (or_congr Finset.mem_filter Iff.rfl)
  · rw [assignInner, Scheduler.assignInner, hs]
  · have hv : (⟨id, peer.minPiece, peer.maxPiece, peer.unchoked, peer.inFlight.card⟩ : PeerView) ∈
        a.views := mem_views.mpr ⟨peer, hpeer, rfl⟩
    have := (s.load_le nextNeeded head queueSlots a.nodup_views hv).1
    dsimp only at this
    omega

end ActivePeers

end Outpace.Swarm

import Outpace.Swarm.ActivePeers

/-!
# Runs of the request bookkeeping

Every public operation of the scheduler and of the active peers, in any order. No run brings a peer
above the in-flight cap.
-/

namespace Outpace.Swarm

/-- The scheduler and the active peers it is paired with. -/
structure Requests where
  peers : ActivePeers
  scheduler : Scheduler

namespace Requests

inductive Op where
  | insert (id : Nat) (window : LivePosition)
  | setUnchoked (id : Nat) (unchoked : Bool)
  | updateWindow (id minPiece maxPiece : Nat)
  | observeWindow (id : Nat) (bounds : Option (Nat × Nat))
  | assign (nextNeeded head : Nat) (queueSlots : Option (OrderedMap Nat Nat))
  | cancelAssignment (id piece : Nat)
  | remove (id : Nat)
  | completeEverywhere (piece : Nat)
  | pruneBelow (floor : Nat)
  | onComplete (piece : Nat)
  | onDrop (piece : Nat)
  | clearInFlight

def start (maxInFlight : Nat) : Requests := ⟨.new, .new maxInFlight⟩

def step (r : Requests) : Op → Requests
  | .insert id window => { r with peers := r.peers.insert id window }
  | .setUnchoked id unchoked => { r with peers := r.peers.setUnchoked id unchoked }
  | .updateWindow id minPiece maxPiece => { r with peers := r.peers.updateWindow id minPiece maxPiece }
  | .observeWindow id bounds => { r with peers := r.peers.observeWindow id bounds }
  | .assign nextNeeded head queueSlots =>
    let (_, peers, scheduler) := r.peers.assignInner r.scheduler nextNeeded head queueSlots
    ⟨peers, scheduler⟩
  | .cancelAssignment id piece => { r with peers := r.peers.cancelAssignment id piece }
  | .remove id => { r with peers := (r.peers.remove id).2 }
  | .completeEverywhere piece => { r with peers := r.peers.completeEverywhere piece }
  | .pruneBelow floor => { r with peers := r.peers.pruneBelow floor }
  | .onComplete piece => { r with scheduler := r.scheduler.onComplete piece }
  | .onDrop piece => { r with scheduler := r.scheduler.onDrop piece }
  | .clearInFlight => { r with scheduler := r.scheduler.clearInFlight }

/-- No peer has more pieces in flight than the cap. -/
def Capped (cap : Nat) (r : Requests) : Prop :=
  r.scheduler.maxInFlight = cap ∧ ∀ id, (r.peers.flight id).card ≤ cap

variable {r : Requests} {cap : Nat}

theorem Capped.of_subset {peers : ActivePeers} (H : Capped cap r)
    (h : ∀ id, peers.flight id ⊆ r.peers.flight id) : Capped cap { r with peers := peers } :=
  ⟨H.1, fun id => (Finset.card_le_card (h id)).trans (H.2 id)⟩

theorem Capped.assign (H : Capped cap r) (nextNeeded head : Nat)
    (queueSlots : Option (OrderedMap Nat Nat)) :
    Capped cap (r.step (.assign nextNeeded head queueSlots)) := by
  obtain ⟨-, A⟩ := r.peers.assignInner_spec r.scheduler nextNeeded head queueSlots
  refine ⟨A.maxInFlight.trans H.1, fun id => ?_⟩
  cases h : r.peers.peers.get? id with
  | none =>
    rw [step, ActivePeers.flight, A.peers, h]
    exact Nat.zero_le _
  | some peer =>
    have hcap := A.capacity id peer h
    have hgiven := ActivePeers.card_given_le
      (r.scheduler.walk nextNeeded head r.peers.views queueSlots).out id
    have hunion := Finset.card_union_le (ActivePeers.given
      (r.scheduler.walk nextNeeded head r.peers.views queueSlots).out id) (r.peers.flight id)
    have hold := H.2 id
    have hpeer : r.peers.flight id = peer.inFlight := by rw [ActivePeers.flight, h]; rfl
    have hmax := H.1
    rw [hpeer] at hold hunion
    rw [step, A.flight, hpeer]
    omega

theorem Capped.step (H : Capped cap r) (op : Op) : Capped cap (r.step op) := by
  cases op with
  | insert id window =>
    refine H.of_subset fun i => ?_
    rw [ActivePeers.flight_insert]
    split
    · exact Finset.empty_subset _
    · exact subset_rfl
  | setUnchoked => exact H.of_subset fun i => by rw [ActivePeers.flight_setUnchoked]
  | updateWindow => exact H.of_subset fun i => by rw [ActivePeers.flight_updateWindow]
  | observeWindow => exact H.of_subset fun i => by rw [ActivePeers.flight_observeWindow]
  | assign nextNeeded head queueSlots => exact H.assign nextNeeded head queueSlots
  | cancelAssignment id piece =>
    refine H.of_subset fun i => ?_
    rw [ActivePeers.flight_cancelAssignment]
    split
    · exact Finset.erase_subset ..
    · exact subset_rfl
  | remove id =>
    refine H.of_subset fun i => ?_
    rw [ActivePeers.flight_remove]
    split
    · exact Finset.empty_subset _
    · exact subset_rfl
  | completeEverywhere piece =>
    refine H.of_subset fun i => ?_
    rw [ActivePeers.flight_completeEverywhere]
    exact Finset.erase_subset ..
  | pruneBelow floor =>
    refine H.of_subset fun i => ?_
    rw [ActivePeers.flight_pruneBelow]
    exact Finset.filter_subset ..
  | onComplete | onDrop | clearInFlight => exact H

theorem capped_run (maxInFlight : Nat) (ops : List Op) :
    Capped (max maxInFlight 1) (run Requests.step (start maxInFlight) ops) := by
  have hstart : Capped (max maxInFlight 1) (start maxInFlight) := ⟨rfl, fun _ => Nat.zero_le _⟩
  exact run_invariant (I := Capped (max maxInFlight 1)) (fun _ op H => H.step op) hstart ops

/-- Taking a piece out of a set takes exactly its own request off the count. -/
theorem card_erase_add (set : Finset Nat) (piece : Nat) :
    (set.erase piece).card + (if piece ∈ set then 1 else 0) = set.card := by
  split
  · next h => exact Finset.card_erase_add_one h
  · next h => rw [Finset.erase_eq_of_notMem h, Nat.add_zero]

end Requests

/-- One assignment call is sound and maximal: the pieces are distinct, inside the scan, new, and go
to unchoked covering peers within their capacity and queue slots; a piece the walk visited and left
unrequested has no covering unchoked peer with capacity and a slot left; and the walk visits at
least the pieces up to the total spare capacity. Over every run of the bookkeeping operations the
in-flight count of a peer never exceeds the cap, and a completed or cancelled request takes exactly
itself off the count. -/
theorem assign_sound_and_maximal (s : Scheduler) (peers : List PeerView) (nextNeeded head : Nat)
    (queueSlots : Option (OrderedMap Nat Nat)) (hids : (peers.map (·.id)).Nodup)
    (hnext : nextNeeded ≤ u64Max) (hhead : head < u64Max) :
    let w := s.walk nextNeeded head peers queueSlots
    let out := (s.assignInner nextNeeded head peers queueSlots).1
    let s' := (s.assignInner nextNeeded head peers queueSlots).2
    (out.map (·.2)).Nodup ∧
    (∀ x ∈ out, nextNeeded ≤ x.2 ∧ x.2 ≤ min head (nextNeeded + s.scanLimit peers queueSlots) ∧
      x.2 ∉ s.requested ∧ ∃ v ∈ peers, v.id = x.1 ∧ v.unchoked = true ∧ v.covers x.2 = true) ∧
    (∀ v ∈ peers, v.inFlight + load out v.id ≤ max v.inFlight s.maxInFlight ∧
      ∀ slots, queueSlots = some slots → load out v.id ≤ (slots.get? v.id).getD 0) ∧
    (∀ p, nextNeeded ≤ p → p < w.piece → p ∉ s'.requested → ∀ v ∈ peers, v.unchoked = true →
      v.covers p = true → ¬ (v.inFlight + load out v.id < s.maxInFlight ∧
        ∀ slots, queueSlots = some slots → load out v.id < (slots.get? v.id).getD 0)) ∧
    (min head (saturatingAdd nextNeeded (Scheduler.totalSpare (s.caps peers queueSlots))) < w.piece ∧
      w.piece ≤ u64Max) ∧
    ∀ maxInFlight ops, let r := run Requests.step (.start maxInFlight) ops
      ∀ id, r.peers.inFlightCount id ≤ max maxInFlight 1 ∧
        ∀ piece, (r.peers.completeEverywhere piece).inFlightCount id +
            (if piece ∈ r.peers.flight id then 1 else 0) = r.peers.inFlightCount id ∧
          (r.peers.cancelAssignment id piece).inFlightCount id +
            (if piece ∈ r.peers.flight id then 1 else 0) = r.peers.inFlightCount id := by
  intro w out s'
  obtain ⟨W, hend⟩ := s.walk_spec nextNeeded head queueSlots hids
  refine ⟨?_, fun x hx => ?_, fun v hv => ?_, fun p hp hvisited hnot v hv hu hcovers hfree => ?_,
    ⟨W.le_ceiling.trans_lt hend, ?_⟩, ?_⟩
  · exact List.Pairwise.map _ (fun _ _ h => Nat.ne_of_lt h) W.increasing
  · obtain ⟨⟨hlow, -, hhigh⟩, hnew, -⟩ := W.assigned x hx
    exact ⟨hlow, hhigh.trans Scheduler.scanCeiling_le,
      fun h => hnew (Finset.mem_filter.mpr ⟨h, hlow⟩), Scheduler.serves_of_mem hids hx⟩
  · obtain ⟨hcap, hslots⟩ := s.load_le nextNeeded head queueSlots hids hv
    refine ⟨by simp only [out, Scheduler.assignInner]; omega, fun slots hs => ?_⟩
    subst hs
    exact hslots
  · have hslots := Scheduler.no_peer_left hids hp hvisited hnot hv hu hcovers hfree.1
    cases queueSlots with
    | some slots => exact absurd (hfree.2 slots rfl) (Nat.not_lt.mpr hslots)
    | none =>
      have := hfree.1
      simp only [Scheduler.slotsOf, out, Scheduler.assignInner] at hslots this
      omega
  · have hpiece := W.piece_le
    have hceiling : s.scanCeiling nextNeeded head peers queueSlots ≤ head := Nat.min_le_left ..
    simp only [Scheduler.walkStart] at hpiece
    exact hpiece.trans (by omega)
  · intro maxInFlight ops r id
    simp only [← ActivePeers.card_flight, ActivePeers.flight_completeEverywhere,
      ActivePeers.flight_cancelAssignment, if_true]
    exact ⟨(Requests.capped_run maxInFlight ops).2 id, fun piece =>
      ⟨Requests.card_erase_add _ piece, Requests.card_erase_add _ piece⟩⟩

/-- One peer with room for one more request, two pieces to fetch and a choked second peer. -/
theorem assign_sound_and_maximal_one_slot :
    let peers : List PeerView := [⟨1, 0, 10, true, 1⟩, ⟨2, 0, 10, false, 0⟩]
    ((Scheduler.new 2).assignInner 3 4 peers none).1 = [(1, 3)] ∧
      (((Scheduler.new 2).assignInner 3 4 peers none).1.map (·.2)).Nodup :=
  ⟨by decide, (assign_sound_and_maximal (.new 2) _ 3 4 none (by decide) (by decide) (by decide)).1⟩

end Outpace.Swarm

import Outpace.Swarm.Live.Release

/-!
# Complete pieces and the next round

The scheduler forgets a piece when it is complete, and only the cursor keeps later rounds from
asking for it. So a complete piece that waits for an earlier one is requested again as soon as a
peer has room for it.
-/

namespace Outpace.Swarm.Live

open Outpace.Wire

variable {ω : Type}

/-- A peer has capacity, a queue slot and the window for the piece. -/
def Pool.Servable (s : Pool ω) (p : Nat) : Prop :=
  ∃ c ∈ s.continuity.scheduler.caps s.continuity.activePeers.views (some s.queueSlots),
    c.available p = true

instance (s : Pool ω) (p : Nat) : Decidable (s.Servable p) :=
  inferInstanceAs (Decidable (∃ c ∈ s.continuity.scheduler.caps s.continuity.activePeers.views
    (some s.queueSlots), c.available p = true))

/-- A round of requests finds no complete piece that a peer could be asked for. -/
def Pool.SparesComplete (s : Pool ω) (a : Action) : Prop :=
  a.isRound = true → ∀ p ∈ s.continuity.reasm.complete.keys,
    s.continuity.reasm.nextEmit ≤ p → p ≤ s.continuity.head →
      p ∈ s.continuity.scheduler.requested ∨ ¬s.Servable p

instance (s : Pool ω) (a : Action) : Decidable (s.SparesComplete a) :=
  inferInstanceAs (Decidable (a.isRound = true → ∀ p ∈ s.continuity.reasm.complete.keys,
    s.continuity.reasm.nextEmit ≤ p → p ≤ s.continuity.head →
      p ∈ s.continuity.scheduler.requested ∨ ¬s.Servable p))

/-- A request goes out in a round only, for a piece that the scheduler has chosen. -/
theorem of_assigned {env : Session ω} {s : Pool ω} {a : Action} {id p sent : Nat}
    (h : Event.assigned id p sent ∈ s.events env a) :
    a.isRound = true ∧ p ≤ s.continuity.head ∧ s.Servable p := by
  unfold Pool.events at h
  split at h
  · cases h
  cases hmode : s.mode with
  | draining =>
    simp only [hmode] at h
    cases a with
    | resume =>
      simp only [Pool.drainEvents] at h
      split at h
      · simp at h
      · cases h
    | _ => cases h
  | pool =>
    simp only [hmode] at h
    cases a with
    | requestRound now refused =>
      simp only [Pool.poolEvents] at h
      split at h
      · rcases List.mem_append.mp h with h | h
        · obtain ⟨x, hx, heq⟩ := List.mem_map.mp h
          cases heq
          have hchosen := Scheduler.available_of_mem (ActivePeers.nodup_views _)
            (mem_walk_of_mem_requestRound hx)
          exact ⟨rfl, hchosen⟩
        · simp at h
      · cases h
    | skipFarBehindLive | skipEvictedGap => simp [Pool.poolEvents] at h
    | requeueTimedOut =>
      simp only [Pool.poolEvents] at h
      split at h
      · cases h
      · simp at h
    | receiveChunk =>
      simp only [Pool.poolEvents, completion] at h
      split at h
      · simp at h
      · cases h
    | _ => cases h

/-! ### Runs -/

/-- No complete piece was requested since it was complete. -/
def Quiet (l : Ledger) (h : History) : Prop := ∀ p, l.complete p = true → h.again p = ∅

section
variable {g : Ledger.Guard} {l l' : Ledger} {h h' : History} {events : List Event}

/-- Where no piece becomes complete and nothing is requested, nothing is to show. -/
theorem Quiet.shrink (H : Quiet l h) (S : Shrinks l l')
    (hagain : h'.again = h.again) : Quiet l' h' :=
  fun p hp => (congrFun hagain p).trans (H p (S.complete p hp))

theorem Quiet.finish (H : Quiet l h) (piece : Nat) :
    Quiet (l.finish piece) (h.after [.completed piece]) := by
  intro p hp
  by_cases hne : p = piece
  · rw [hne]
    exact Function.update_self ..
  · have hagain : (h.after [.completed piece]).again p = h.again p := Function.update_of_ne hne ..
    have hold : (l.finish piece).complete p = l.complete p := Function.update_of_ne hne ..
    rw [hagain]
    exact H p (hold ▸ hp)

theorem Quiet.step (H : Quiet l h) (hstep : Ledger.Step g l events l')
    (hspared : ∀ id p sent, .assigned id p sent ∈ events → l.complete p = false) :
    Quiet l' (h.after events) := by
  cases hstep with
  | same => exact H
  | skip hlt => exact H.shrink (.skip l hlt) rfl
  | take => exact H.shrink (.take l) rfl
  | @round now sent cancelled _ _ _ =>
    intro p hp
    have hp : l.complete p = true := hp
    have hunsent : p ∉ sent.map (·.2) := by
      intro hsent
      obtain ⟨x, hx, rfl⟩ := List.mem_map.mp hsent
      have hassigned := List.mem_map_of_mem (f := fun x => Event.assigned x.1 x.2 now) hx
      rw [hspared _ _ _ (List.mem_append_left _ hassigned)] at hp
      cases hp
    rw [History.after_append]
    exact (((h.after_assigned sent now).2.2 p).1 hunsent).2.trans (H p hp)
  | @requeue now pieces _ => exact H.shrink (.requeue l pieces) (h.after_timedOut pieces now).2.2.1
  | release => exact H.shrink (.release l _) rfl
  | drop => exact H.shrink (.drop l _) rfl
  | join => exact H.shrink (.join l _) rfl
  | settle => exact H.shrink (.settle l _) rfl
  | note => exact H
  | @completed piece => exact (H.finish piece).shrink (.settle _ piece) rfl
  | unpublishable => exact H.finish _
  | reset => exact H.shrink (.reset l) rfl
  | resetSkip hlt =>
    have hreset : Quiet l.reset h := H.shrink (.reset l) rfl
    exact hreset.shrink (.skip l.reset hlt) rfl

end

/-- What a round requests is not complete, if it finds no complete piece to ask for. -/
theorem Pool.SparesComplete.incomplete {env : Session ω} {s : Pool ω} {a : Action}
    (h : s.SparesComplete a) {id p sent : Nat} (hassigned : .assigned id p sent ∈ s.events env a) :
    s.ledger.complete p = false := by
  obtain ⟨hround, hhead, hservable⟩ := of_assigned hassigned
  obtain ⟨hahead, hnot⟩ := (step_ledger env s a).of_assigned hassigned
  cases hcomplete : s.ledger.complete p with
  | false => rfl
  | true =>
    have hkey := OrderedMap.mem_keys.mpr (OrderedMap.contains_iff.mp hcomplete)
    rcases h hround p hkey hahead hhead with hrequested | hunservable
    · exact absurd hrequested hnot
    · exact absurd hservable hunservable

/-- As long as no round of requests finds a complete piece that a peer could be asked for, a
complete piece is never requested again. -/
theorem complete_not_requested_again (env : Session ω) (minPiece maxPiece prefetch : Nat)
    (liveRecovery : LiveRecoveryConfig) (now : Nat) (startupDeadline : Option Nat)
    (actions : List Action)
    (hspares : Meets (Traced.step env) (fun t a => t.pool.SparesComplete a)
      (.start (Pool.start env minPiece maxPiece prefetch liveRecovery now startupDeadline)) actions) :
    let t := run (Traced.step env)
      (.start (Pool.start env minPiece maxPiece prefetch liveRecovery now startupDeadline)) actions
    ∀ piece, t.pool.continuity.reasm.complete.contains piece = true → t.history.again piece = ∅ := by
  intro t
  refine run_induction (I := fun t : Traced ω => Quiet t.pool.ledger t.history) (fun t a H hspare => ?_)
    (fun _ _ => rfl) hspares
  exact H.step (step_ledger env t.pool a) fun _ _ _ hassigned => hspare.incomplete hassigned

/-- Piece 1 is complete and published; the peer it came from is choked, and a second peer has no
window for it. -/
def sparedActions : List Action :=
  Pool.plans .plain (.plain 1) (twoChunks 0 0) ++
    [.pollPublication (.submitted (some (some .published))), .setPeerUnchoked 1 false,
      .commitUpstreamPeer 2 102 ⟨0, 0⟩ true, .requeueTimedOut 10, .requestRound 10 []]

def sparedTrace : Traced Unit := run (Traced.step .plain) (.start (.plain 1)) sparedActions

theorem complete_not_requested_again_sparedActions :
    sparedTrace.pool.continuity.reasm.complete.contains 1 = true ∧
      sparedTrace.history.last 0 = some ⟨2, 10, none⟩ ∧ sparedTrace.history.again 1 = ∅ := by
  have hspares : Meets (Traced.step .plain) (fun t a => t.pool.SparesComplete a) (.start (.plain 1))
      sparedActions := by decide +kernel
  have hcomplete : sparedTrace.pool.continuity.reasm.complete.contains 1 = true := by decide +kernel
  have hlast : sparedTrace.history.last 0 = some ⟨2, 10, none⟩ := by decide +kernel
  exact ⟨hcomplete, hlast, complete_not_requested_again .plain 0 1 10 ⟨4, 10, 2, 8⟩ 0 none
    sparedActions hspares 1 hcomplete⟩

/-- Piece 1 is complete, published and waits for piece 0; the next turn of the loop requests it
again from the peer that has sent it. -/
theorem waiting_piece_requested_again :
    let before := run (Traced.turn .plain) (.start (.plain 1))
      (twoChunks 0 0 ++ [.publication (.submitted (some (some .published)))])
    let after := before.turn .plain (.loop none none 3 (.on 3) (.on 3) (.on 3) (.on 3))
    before.pool.continuity.reasm.complete.contains 1 = true ∧
      before.pool.continuity.reasm.nextEmit = 0 ∧ before.history.again 1 = ∅ ∧
      after.pool.continuity.reasm.complete.contains 1 = true ∧
      after.history.again 1 = {1} ∧ 1 ∈ after.pool.continuity.activePeers.flight 1 := by
  decide +kernel

end Outpace.Swarm.Live

import Outpace.Swarm.Live.PoolHandlers

/-!
# Slots are released

Once a piece is complete, nothing is left in the books of the requests made for it before; nor of
any request for a piece that a skip left behind. This fails for a piece that completes without being
publishable: `on_piece` takes neither of its two ways to release the slots.
-/

namespace Outpace.Swarm.Live

open Outpace.Wire
open Ledger (Step)

variable {ω : Type}

/-- Whatever the books say about the piece comes from requests to the given peers. -/
structure Slots (l : Ledger) (peers : Finset Nat) (p : Nat) : Prop where
  flight : ∀ id, p ∈ l.flight id → id ∈ peers
  timer : l.timer p ≠ none → peers.Nonempty
  noted : l.noted p = false

structure Released (l : Ledger) (h : History) : Prop where
  complete : ∀ p, l.complete p = true →
    Slots l (h.again p) p ∧ (p ∈ l.requested → (h.again p).Nonempty)
  skipped : ∀ p, p < h.floor → Slots l ∅ p ∧ (h.pruned = true → p ∉ l.requested)
  floor_le : h.floor ≤ l.cursor

/-- The second ledger has no entry that the first one lacks. -/
structure Shrinks (l l' : Ledger) : Prop where
  flight : ∀ id, l'.flight id ⊆ l.flight id
  requested : l'.requested ⊆ l.requested
  timer : ∀ p, l'.timer p ≠ none → l.timer p ≠ none
  noted : ∀ p, l'.noted p = true → l.noted p = true
  complete : ∀ p, l'.complete p = true → l.complete p = true
  cursor : l.cursor ≤ l'.cursor

namespace Shrinks

variable (l : Ledger)

theorem refl : Shrinks l l :=
  ⟨fun _ => Finset.Subset.refl _, Finset.Subset.refl _, fun _ => id, fun _ => id, fun _ => id,
    Nat.le_refl _⟩

theorem skip {target : Nat} (hlt : l.cursor < target) : Shrinks l (l.skip target) where
  flight id := Finset.filter_subset ..
  requested := Finset.Subset.refl _
  timer p := by
    simp only [Ledger.skip]
    split
    · exact id
    · exact fun h => absurd rfl h
  noted p h := (Bool.and_eq_true_iff.mp h).2
  complete p h := (Bool.and_eq_true_iff.mp h).2
  cursor := Nat.le_of_lt hlt

theorem take : Shrinks l l.take where
  __ := refl l
  complete p := by
    simp only [Ledger.take, Function.update_apply]
    split
    · intro h
      cases h
    · exact id
  cursor := Nat.le_succ _

theorem requeue (pieces : List Nat) : Shrinks l (l.requeue pieces) where
  __ := refl l
  requested := Finset.sdiff_subset
  timer p := by
    simp only [Ledger.requeue]
    split
    · exact fun h => absurd rfl h
    · exact id

theorem release (pieces : Finset Nat) : Shrinks l (l.release pieces) where
  __ := refl l
  flight _ := Finset.sdiff_subset

theorem flight_cleared (flight : Nat → Finset Nat) (id i : Nat) :
    Function.update flight id ∅ i ⊆ flight i := fun _ hp => (Ledger.mem_flight_cleared.mp hp).2

theorem drop (id : Nat) : Shrinks l (l.drop id) where
  __ := refl l
  flight := flight_cleared l.flight id
  requested := Finset.sdiff_subset

theorem join (id : Nat) : Shrinks l (l.join id) where
  __ := refl l
  flight := flight_cleared l.flight id

theorem settle (piece : Nat) : Shrinks l (l.settle piece) where
  __ := refl l
  flight id := Finset.erase_subset ..
  requested := Finset.erase_subset ..
  timer p := by
    simp only [Ledger.settle, Function.update_apply]
    split
    · exact fun h => absurd rfl h
    · exact id
  noted p := by
    simp only [Ledger.settle, Function.update_apply]
    split
    · intro h
      cases h
    · exact id

theorem reset : Shrinks l l.reset where
  flight _ := Finset.empty_subset _
  requested := Finset.empty_subset _
  timer _ h := absurd rfl h
  noted _ := nofun
  complete _ := id
  cursor := Nat.le_refl _

end Shrinks

section
variable {g : Ledger.Guard} {l l' : Ledger} {h h' : History} {events : List Event}

theorem Slots.shrink {peers : Finset Nat} {p : Nat} (H : Slots l peers p) (S : Shrinks l l') :
    Slots l' peers p where
  flight id hp := H.flight id (S.flight id hp)
  timer htimer := H.timer (S.timer p htimer)
  noted := by
    cases hnoted : l'.noted p with
    | false => rfl
    | true => exact absurd (S.noted p hnoted) (H.noted ▸ Bool.false_ne_true)

namespace Released

theorem shrink (H : Released l h) (S : Shrinks l l') (hagain : h'.again = h.again)
    (hfloor : h'.floor = h.floor) (hpruned : h'.pruned = h.pruned) : Released l' h' where
  complete p hp := by
    obtain ⟨hslots, hrequested⟩ := H.complete p (S.complete p hp)
    rw [hagain]
    exact ⟨hslots.shrink S, fun hreq => hrequested (S.requested hreq)⟩
  skipped p hp := by
    rw [hfloor] at hp
    rw [hpruned]
    exact ⟨(H.skipped p hp).1.shrink S, fun h hreq => (H.skipped p hp).2 h (S.requested hreq)⟩
  floor_le := hfloor ▸ H.floor_le.trans S.cursor

/-- A skip leaves nothing behind but what is requested. -/
theorem skip (H : Released l h) {target : Nat} (hlt : l.cursor < target) :
    Released (l.skip target) (h.after [.skipped target]) where
  complete :=
    have H' : Released (l.skip target) h := H.shrink (.skip l hlt) rfl rfl rfl
    H'.complete
  skipped p hp := by
    have hp : ¬target ≤ p := Nat.not_le.mpr hp
    refine ⟨⟨fun id hid => absurd (Finset.mem_filter.mp hid).2 hp, fun htimer => ?_, ?_⟩, nofun⟩
    · exact absurd (if_neg hp) htimer
    · simp [Ledger.skip, hp]
  floor_le := Nat.le_refl _

theorem round (H : Released l h) {now : Nat} {sent cancelled : List (Nat × Nat)}
    (hfresh : ∀ x ∈ sent ++ cancelled, l.cursor ≤ x.2 ∧ x.2 ∉ l.requested) :
    Released (l.round now sent cancelled)
      (h.after (sent.map (fun x => .assigned x.1 x.2 now) ++ [.round])) := by
  rw [History.after_append]
  obtain ⟨hfloor, -, hrest⟩ := h.after_assigned sent now
  have hagain : ∀ {p : Nat}, p ∈ sent.map (·.2) →
      ((h.after (sent.map fun x => .assigned x.1 x.2 now)).again p).Nonempty := by
    intro p hp
    obtain ⟨x, hx, rfl⟩ := List.mem_map.mp hp
    exact ⟨x.1, (hrest x.2).2.2 x.1 hx⟩
  have hmono := fun p => (hrest p).2.1
  refine ⟨fun p hp => ?_, fun p hp => ?_, ?_⟩
  · obtain ⟨hslots, hrequested⟩ := H.complete p hp
    refine ⟨⟨fun id hid => ?_, fun htimer => ?_, hslots.noted⟩, fun hreq => ?_⟩
    · rcases Finset.mem_union.mp hid with hid | hid
      · exact hmono p (hslots.flight id (Finset.mem_sdiff.mp hid).1)
      · exact (hrest p).2.2 id (ActivePeers.mem_given.mp hid)
    · by_cases hsent : p ∈ sent.map (·.2)
      · exact hagain hsent
      · have hsame : (l.round now sent cancelled).timer p = l.timer p := if_neg hsent
        exact (hslots.timer (hsame ▸ htimer)).mono (hmono p)
    · rcases Finset.mem_union.mp hreq with hreq | hreq
      · exact (hrequested (Finset.mem_filter.mp hreq).1).mono (hmono p)
      · exact hagain (List.mem_toFinset.mp hreq)
  · have hp : p < h.floor := hfloor ▸ hp
    have hbehind : p < l.cursor := hp.trans_le H.floor_le
    have hunsent : p ∉ sent.map (·.2) := by
      intro hsent
      obtain ⟨x, hx, rfl⟩ := List.mem_map.mp hsent
      exact absurd (hfresh x (List.mem_append_left _ hx)).1 (Nat.not_le.mpr hbehind)
    obtain ⟨hslots, -⟩ := H.skipped p hp
    refine ⟨⟨fun id hid => ?_, fun htimer => ?_, hslots.noted⟩, fun _ hreq => ?_⟩
    · rcases Finset.mem_union.mp hid with hid | hid
      · exact hslots.flight id (Finset.mem_sdiff.mp hid).1
      · exact absurd (List.mem_map_of_mem (ActivePeers.mem_given.mp hid)) hunsent
    · have hsame : (l.round now sent cancelled).timer p = l.timer p := if_neg hunsent
      exact hslots.timer (hsame ▸ htimer)
    · rcases Finset.mem_union.mp hreq with hreq | hreq
      · exact absurd (Finset.mem_filter.mp hreq).2 (Nat.not_le.mpr hbehind)
      · exact hunsent (List.mem_toFinset.mp hreq)
  · exact hfloor.le.trans H.floor_le

theorem note (H : Released l h) {piece : Nat} (hahead : l.cursor ≤ piece)
    (hincomplete : l.complete piece = false) : Released (l.note piece) h := by
  have hslots : ∀ {p peers}, p ≠ piece → Slots l peers p → Slots (l.note piece) peers p :=
    fun hne S => ⟨S.flight, S.timer, (Function.update_of_ne hne ..).trans S.noted⟩
  refine ⟨fun p hp => ?_, fun p hp => ?_, H.floor_le⟩
  · have hdone : l.complete p = true := hp
    have hne : p ≠ piece := by
      rintro rfl
      rw [hincomplete] at hdone
      cases hdone
    exact ⟨hslots hne (H.complete p hp).1, (H.complete p hp).2⟩
  · have hne : p ≠ piece := by have := H.floor_le; omega
    exact ⟨hslots hne (H.skipped p hp).1, (H.skipped p hp).2⟩

theorem completed (H : Released l h) {piece : Nat} :
    Released ((l.finish piece).settle piece) (h.after [.completed piece]) := by
  have S := Shrinks.settle l piece
  refine ⟨fun p hp => ?_, fun p hp => ?_, H.floor_le⟩
  · by_cases hne : p = piece
    · subst hne
      refine ⟨⟨fun id hid => ?_, fun htimer => ?_, ?_⟩, fun hreq => ?_⟩
      · exact absurd rfl (Finset.mem_erase.mp hid).1
      · exact absurd (Function.update_self ..) htimer
      · exact Function.update_self ..
      · exact absurd rfl (Finset.mem_erase.mp hreq).1
    · have hp : l.complete p = true := (Function.update_of_ne hne ..).symm.trans hp
      have hagain : (h.after [.completed piece]).again p = h.again p := Function.update_of_ne hne ..
      obtain ⟨hslots, hrequested⟩ := H.complete p hp
      have hslots := hslots.shrink S
      rw [hagain]
      exact ⟨⟨hslots.flight, hslots.timer, hslots.noted⟩, fun hreq => hrequested (S.requested hreq)⟩
  · have hslots := (H.skipped p hp).1.shrink S
    exact ⟨⟨hslots.flight, hslots.timer, hslots.noted⟩,
      fun hpruned hreq => (H.skipped p hp).2 hpruned (S.requested hreq)⟩

theorem step (H : Released l h) (hstep : Step g l events l') (hg : g.publishable) :
    Released l' (h.after events) := by
  cases hstep with
  | same => exact H
  | skip hlt => exact H.skip hlt
  | take => exact H.shrink (.take l) rfl rfl rfl
  | round _ hfresh _ => exact H.round hfresh
  | @requeue now pieces _ =>
    obtain ⟨hfloor, hpruned, hagain, -⟩ := h.after_timedOut pieces now
    exact H.shrink (.requeue l pieces) hagain hfloor hpruned
  | release => exact H.shrink (.release l _) rfl rfl rfl
  | drop => exact H.shrink (.drop l _) rfl rfl rfl
  | join => exact H.shrink (.join l _) rfl rfl rfl
  | settle => exact H.shrink (.settle l _) rfl rfl rfl
  | note hahead hincomplete => exact H.note hahead hincomplete
  | completed => exact H.completed
  | unpublishable hnot => exact absurd hg hnot
  | reset => exact H.shrink (.reset l) rfl rfl rfl
  | resetSkip hlt =>
    have hreset : Released l.reset h := H.shrink (.reset l) rfl rfl rfl
    exact hreset.skip hlt

end Released

end

/-! ### Runs -/

theorem complete_start (env : Session ω) (minPiece maxPiece prefetch : Nat)
    (liveRecovery : LiveRecoveryConfig) (now : Nat) (startupDeadline : Option Nat) :
    (Pool.start env minPiece maxPiece prefetch liveRecovery now
      startupDeadline).continuity.reasm.complete = ∅ := by
  simp only [Pool.start, Continuity.fresh, PieceReassembler.withSourcePubkey]
  split
  · rfl
  · rfl

theorem released_start (env : Session ω) (minPiece maxPiece prefetch : Nat)
    (liveRecovery : LiveRecoveryConfig) (now : Nat) (startupDeadline : Option Nat) :
    Released (Pool.start env minPiece maxPiece prefetch liveRecovery now startupDeadline).ledger
      .start where
  complete p hp := by
    simp [Pool.ledger, Continuity.ledger, complete_start, OrderedMap.contains] at hp
  skipped p hp := absurd hp (Nat.not_lt_zero p)
  floor_le := Nat.zero_le _

theorem released_run {env : Session ω} {t : Traced ω} {actions : List Action}
    (h : Released t.pool.ledger t.history)
    (hmeets : Meets (Traced.step env) (fun t a => t.pool.CompletesPublishable env a) t actions) :
    let t' := run (Traced.step env) t actions
    Released t'.pool.ledger t'.history :=
  Traced.run_ledger (fun _ _ hpublishable _ _ hstep H => H.step hstep hpublishable) h hmeets

/-- If every piece that completes is publishable, then whatever the books say about a complete piece
comes from requests made after it was complete, and they say nothing about a piece behind the last
skip; only the scheduler may keep such a piece until the next round. -/
theorem slots_released (env : Session ω) (minPiece maxPiece prefetch : Nat)
    (liveRecovery : LiveRecoveryConfig) (now : Nat) (startupDeadline : Option Nat)
    (actions : List Action)
    (hpublishable : Meets (Traced.step env) (fun t a => t.pool.CompletesPublishable env a)
      (.start (Pool.start env minPiece maxPiece prefetch liveRecovery now startupDeadline)) actions) :
    let t := run (Traced.step env)
      (.start (Pool.start env minPiece maxPiece prefetch liveRecovery now startupDeadline)) actions
    let c := t.pool.continuity
    (∀ piece, c.reasm.complete.contains piece = true →
      (∀ id, piece ∈ c.activePeers.flight id → id ∈ t.history.again piece) ∧
      (piece ∈ c.scheduler.requested → (t.history.again piece).Nonempty) ∧
      (c.requestedAt.get? piece ≠ none → (t.history.again piece).Nonempty) ∧
      c.receivedChunks.contains piece = false) ∧
    t.history.floor ≤ c.reasm.nextEmit ∧
    ∀ piece < t.history.floor,
      (∀ id, piece ∉ c.activePeers.flight id) ∧
      (t.history.pruned = true → piece ∉ c.scheduler.requested) ∧
      c.requestedAt.get? piece = none ∧ c.receivedChunks.contains piece = false := by
  intro t c
  have H : Released t.pool.ledger t.history := released_run (released_start ..) hpublishable
  refine ⟨fun piece hp => ?_, H.floor_le, fun piece hp => ?_⟩
  · obtain ⟨hslots, hrequested⟩ := H.complete piece hp
    exact ⟨hslots.flight, hrequested, hslots.timer, hslots.noted⟩
  · obtain ⟨hslots, hrequested⟩ := H.skipped piece hp
    refine ⟨fun id hid => Finset.notMem_empty id (hslots.flight id hid), hrequested, ?_, hslots.noted⟩
    by_contra htimer
    exact Finset.not_nonempty_empty (hslots.timer htimer)

/-- Pieces 0 and 1 are requested from peer 1, and the two chunks of piece 1 arrive with these
headers. -/
def twoChunks (first second : UInt8) : List Turn :=
  [.begin [(101, ⟨0, 1⟩, true)] (.on 0),
    .piece 1 0 (.replicate 8 first) [7] 1 (.on 1),
    .piece 1 1 (.replicate 8 second) [8] 2 (.on 2)]

def agreeingActions : List Action := Pool.plans .plain (.plain 1) (twoChunks 0 0)

def agreeingTrace : Traced Unit := run (Traced.step .plain) (.start (.plain 1)) agreeingActions

theorem slots_released_agreeingTrace :
    agreeingTrace.pool.continuity.reasm.complete.contains 1 = true ∧
      (∀ id, 1 ∈ agreeingTrace.pool.continuity.activePeers.flight id →
        id ∈ agreeingTrace.history.again 1) ∧
      agreeingTrace.history.again 1 = ∅ ∧
      agreeingTrace.pool.continuity.receivedChunks.contains 1 = false := by
  have hpublishable : Meets (Traced.step .plain) (fun t a => t.pool.CompletesPublishable .plain a)
      (.start (.plain 1)) agreeingActions := by decide +kernel
  have hcomplete : agreeingTrace.pool.continuity.reasm.complete.contains 1 = true := by decide +kernel
  have hagain : agreeingTrace.history.again 1 = ∅ := by decide +kernel
  have hreleased := (slots_released .plain 0 1 10 ⟨4, 10, 2, 8⟩ 0 none agreeingActions
    hpublishable).1 1 hcomplete
  exact ⟨hcomplete, hreleased.1, hagain, hreleased.2.2.2⟩

/-- With headers that differ, piece 1 is complete and was not requested again, but all the books of
its request are as if it were still on its way. -/
theorem unpublishable_piece_keeps_slots :
    let t := run (Traced.turn .plain) (.start (.plain 1)) (twoChunks 0 1)
    let c := t.pool.continuity
    c.reasm.complete.contains 1 = true ∧ t.history.again 1 = ∅ ∧
      1 ∈ c.activePeers.flight 1 ∧ 1 ∈ c.scheduler.requested ∧
      c.requestedAt.get? 1 = some 0 ∧ c.receivedChunks.contains 1 = true := by
  decide +kernel

end Outpace.Swarm.Live

import Outpace.Swarm.Live.PoolHandlers

/-!
# One request at a time

A piece that was last requested from a peer, and is still in flight there, is not requested again
before its timer has run out. The one thing that breaks this is the drop of a peer:
`drop_peer_runtime` requeues everything the peer has in flight, and after a timeout that includes
pieces which are by now requested from another peer.
-/

namespace Outpace.Swarm.Live

open Outpace.Wire
open Ledger (Step)

variable {ω : Type} {t : Traced ω}

/-- The last request of the piece is in flight. -/
structure Outstanding (l : Ledger) (h : History) (p : Nat) (r : Request) : Prop where
  last : h.last p = some r
  ahead : l.cursor ≤ p
  held : p ∈ l.flight r.peer

/-- How the last request of a piece came to be in flight after a step: it is new, or it was there
before and is still requested unless a peer was dropped, or its timer has just run out. -/
inductive Since (g : Ledger.Guard) (l : Ledger) (h : History) (l' : Ledger) (p : Nat) (r : Request) : Prop
  | new : g.rounds → l.cursor ≤ p → p ∉ l.requested → p ∈ l'.requested → r.expired = none →
    l'.timer p = some ((l.timer p).getD r.sent) → Since g l h l' p r
  | kept : Outstanding l h p r → l'.timer p = l.timer p →
    (p ∈ l.requested → p ∈ l'.requested ∨ ∃ id, g.drops id ∧ p ∈ l.flight id ∧ r.peer ≠ id) →
    Since g l h l' p r
  | expired {r₀ : Request} {now sent : Nat} : Outstanding l h p r₀ →
    r = { r₀ with expired := some (r₀.expired.getD now) } → l.timer p = some sent →
    l.timeout ≤ now - sent → Since g l h l' p r

section
variable {g : Ledger.Guard} {l l' : Ledger} {h : History} {events : List Event} {p : Nat} {r : Request}

theorem Since.round {now : Nat} {sent cancelled : List (Nat × Nat)} (hrounds : g.rounds)
    (hfresh : ∀ x ∈ sent ++ cancelled, l.cursor ≤ x.2 ∧ x.2 ∉ l.requested)
    (hnodup : ((sent ++ cancelled).map (·.2)).Nodup)
    (O : Outstanding (l.round now sent cancelled)
      (h.after (sent.map (fun x => .assigned x.1 x.2 now) ++ [.round])) p r) :
    Since g l h (l.round now sent cancelled) p r := by
  obtain ⟨hlast, hahead, hheld⟩ := O
  rw [History.after_append] at hlast
  have hlast : (h.after (sent.map fun x => .assigned x.1 x.2 now)).last p = some r := hlast
  by_cases hp : p ∈ sent.map (·.2)
  · obtain ⟨x, hx, rfl⟩ := List.mem_map.mp hp
    rw [List.map_append, List.nodup_append] at hnodup
    rw [h.last_after_assigned now hnodup.1 hx, Option.some.injEq] at hlast
    subst hlast
    exact .new hrounds hahead (hfresh x (List.mem_append_left _ hx)).2
      (Finset.mem_union_right _ (List.mem_toFinset.mpr hp)) rfl (if_pos hp)
  · rw [(((h.after_assigned sent now).2.2 p).1 hp).1] at hlast
    have hold : p ∈ l.flight r.peer := by
      rcases Finset.mem_union.mp hheld with hold | hnew
      · exact (Finset.mem_sdiff.mp hold).1
      · exact absurd (List.mem_map_of_mem (ActivePeers.mem_given.mp hnew)) hp
    exact .kept ⟨hlast, hahead, hold⟩ (if_neg hp) fun hreq =>
      .inl (Finset.mem_union_left _ (Finset.mem_filter.mpr ⟨hreq, hahead⟩))

theorem Since.requeue {now : Nat} {pieces : List Nat}
    (hages : ∀ p ∈ pieces, ∃ sent, l.timer p = some sent ∧ l.timeout ≤ now - sent)
    (O : Outstanding (l.requeue pieces) (h.after (pieces.map (.timedOut · now))) p r) :
    Since g l h (l.requeue pieces) p r := by
  obtain ⟨hlast, hahead, hheld⟩ := O
  rw [(h.after_timedOut pieces now).2.2.2 p] at hlast
  by_cases hp : p ∈ pieces
  · rw [if_pos hp, Option.map_eq_some_iff] at hlast
    obtain ⟨r₀, hlast, rfl⟩ := hlast
    obtain ⟨sent, hsent, hage⟩ := hages p hp
    exact .expired ⟨hlast, hahead, hheld⟩ rfl hsent hage
  · rw [if_neg hp] at hlast
    have hnot : ¬(p ∈ pieces ∨ p < l.cursor) := by
      rintro (h | h)
      · exact hp h
      · exact absurd hahead (Nat.not_le.mpr h)
    exact .kept ⟨hlast, hahead, hheld⟩ (if_neg hnot) fun hreq =>
      .inl (Finset.mem_sdiff.mpr ⟨hreq, fun hmem => hp (List.mem_toFinset.mp hmem)⟩)

theorem Since.skip {target : Nat} (hlt : l.cursor < target)
    (O : Outstanding (l.skip target) (h.after [.skipped target]) p r) :
    Since g l h (l.skip target) p r := by
  obtain ⟨hlast, hahead, hheld⟩ := O
  have hahead : target ≤ p := hahead
  exact .kept ⟨hlast, by omega, (Finset.mem_filter.mp hheld).1⟩ (if_pos hahead) .inl

theorem Since.settle {piece : Nat} (O : Outstanding (l.settle piece) h p r) :
    Since g l h (l.settle piece) p r := by
  obtain ⟨hlast, hahead, hheld⟩ := O
  obtain ⟨hne, hheld⟩ := Finset.mem_erase.mp hheld
  exact .kept ⟨hlast, hahead, hheld⟩ (Function.update_of_ne hne ..) fun hreq =>
    .inl (Finset.mem_erase.mpr ⟨hne, hreq⟩)

theorem Since.drop {id : Nat} (hdrop : g.drops id) (O : Outstanding (l.drop id) h p r) :
    Since g l h (l.drop id) p r := by
  obtain ⟨hlast, hahead, hheld⟩ := O
  obtain ⟨hne, hheld⟩ := Ledger.mem_flight_cleared.mp hheld
  refine .kept ⟨hlast, hahead, hheld⟩ rfl fun hreq => ?_
  by_cases hp : p ∈ l.flight id
  · exact .inr ⟨id, hdrop, hp, hne⟩
  · exact .inl (Finset.mem_sdiff.mpr ⟨hreq, hp⟩)

theorem Ledger.Step.since (H : Step g l events l') (O : Outstanding l' (h.after events) p r) :
    Since g l h l' p r := by
  cases H with
  | same => exact .kept O rfl .inl
  | skip hlt => exact .skip hlt O
  | take => exact .kept ⟨O.last, Nat.le_of_succ_le O.ahead, O.held⟩ rfl .inl
  | round hrounds hfresh hnodup => exact .round hrounds hfresh hnodup O
  | requeue hages => exact .requeue hages O
  | release => exact .kept ⟨O.last, O.ahead, (Finset.mem_sdiff.mp O.held).1⟩ rfl .inl
  | drop hdrop => exact .drop hdrop O
  | join =>
    exact .kept ⟨O.last, O.ahead, (Ledger.mem_flight_cleared.mp O.held).2⟩ rfl .inl
  | settle => exact .settle O
  | note => exact .kept ⟨O.last, O.ahead, O.held⟩ rfl .inl
  | @completed piece =>
    have hsame : Since g (l.finish piece) h ((l.finish piece).settle piece) p r :=
      .settle ⟨O.last, O.ahead, O.held⟩
    cases hsame with
    | new h₁ h₂ h₃ h₄ h₅ h₆ => exact .new h₁ h₂ h₃ h₄ h₅ h₆
    | kept h₁ h₂ h₃ => exact .kept ⟨h₁.last, h₁.ahead, h₁.held⟩ h₂ h₃
    | expired h₁ h₂ h₃ h₄ => exact .expired ⟨h₁.last, h₁.ahead, h₁.held⟩ h₂ h₃ h₄
  | unpublishable => exact .kept ⟨O.last, O.ahead, O.held⟩ rfl .inl
  | reset => exact absurd O.held (Finset.notMem_empty p)
  | resetSkip =>
    have hheld := O.held
    simp [Ledger.skip, Ledger.reset] at hheld

end

/-! ### The two invariants -/

/-- A request that is in flight and has not timed out is booked. -/
def Single (l : Ledger) (h : History) : Prop :=
  ∀ p r, Outstanding l h p r → r.expired = none → p ∈ l.requested

/-- Nothing the peer has in flight waits, not timed out, at another peer that got it later. -/
def Spares (l : Ledger) (h : History) (id : Nat) : Prop :=
  ∀ p ∈ l.flight id, ∀ r ∈ h.last p,
    r.expired = none → l.cursor ≤ p → p ∈ l.flight r.peer → r.peer = id

theorem Single.step {g : Ledger.Guard} {l l' : Ledger} {h : History} {events : List Event}
    (H : Single l h) (hstep : Step g l events l') (hspares : ∀ id, g.drops id → Spares l h id) :
    Single l' (h.after events) := by
  intro p r O hexpired
  cases hstep.since O with
  | new _ _ _ hrequested => exact hrequested
  | kept O _ hkept =>
    rcases hkept (H p r O hexpired) with hrequested | ⟨id, hdrop, hp, hne⟩
    · exact hrequested
    · exact absurd (hspares id hdrop p hp r O.last hexpired O.ahead O.held) hne
  | expired _ hr => rw [hr] at hexpired; cases hexpired

/-- The timer of a request that is in flight started with it, and one that timed out had its
time. -/
def Timed (l : Ledger) (h : History) : Prop :=
  ∀ p r, Outstanding l h p r → (r.expired = none → l.timer p = some r.sent) ∧
    ∀ now, r.expired = some now → l.timeout ≤ now - r.sent

/-- No timer runs for a piece that is not requested. -/
def FreshTimers (l : Ledger) : Prop := ∀ p, l.cursor ≤ p → p ∉ l.requested → l.timer p = none

theorem Ledger.Step.timeout_eq {g : Ledger.Guard} {l l' : Ledger} {events : List Event}
    (h : Step g l events l') : l'.timeout = l.timeout := by
  cases h with
  | _ => rfl

theorem Timed.step {g : Ledger.Guard} {l l' : Ledger} {h : History} {events : List Event}
    (H : Timed l h) (hstep : Step g l events l') (hfresh : g.rounds → FreshTimers l) :
    Timed l' (h.after events) := by
  intro p r O
  rw [hstep.timeout_eq]
  cases hstep.since O with
  | new hrounds hahead hnot _ hexpired htimer =>
    rw [hfresh hrounds p hahead hnot, Option.getD_none] at htimer
    exact ⟨fun _ => htimer, fun now h => nomatch hexpired.symm.trans h⟩
  | kept O htimer _ =>
    rw [htimer]
    exact H p r O
  | @expired r₀ now sent O₀ hr hsent hage =>
    subst hr
    refine ⟨nofun, fun now' hnow => ?_⟩
    cases hexpired : r₀.expired with
    | none =>
      have htimer := (H p r₀ O₀).1 hexpired
      rw [hsent, Option.some.injEq] at htimer
      simp only [hexpired, Option.getD_none, Option.some.injEq] at hnow
      rwa [← hnow, ← htimer]
    | some now₀ =>
      simp only [hexpired, Option.getD_some, Option.some.injEq] at hnow
      exact hnow ▸ (H p r₀ O₀).2 now₀ hexpired

/-! ### Runs -/

/-- A peer is dropped only if nothing it has in flight waits at another peer that got it later. -/
def DropsSpare (t : Traced ω) (a : Action) : Prop :=
  ∀ id ∈ a.drops?, Spares t.pool.ledger t.history id

instance (l : Ledger) (h : History) (id : Nat) : Decidable (Spares l h id) :=
  inferInstanceAs (Decidable (∀ p ∈ l.flight id, ∀ r ∈ h.last p, r.expired = none → l.cursor ≤ p →
    p ∈ l.flight r.peer → r.peer = id))

instance (t : Traced ω) (a : Action) : Decidable (DropsSpare t a) :=
  inferInstanceAs (Decidable (∀ id ∈ a.drops?, Spares t.pool.ledger t.history id))

/-- A round of requests finds no timer of an earlier request running. -/
def RoundsFresh (t : Traced ω) (a : Action) : Prop :=
  a.isRound = true → ∀ p ∈ t.pool.continuity.requestedAt.keys,
    t.pool.continuity.reasm.nextEmit ≤ p → p ∈ t.pool.continuity.scheduler.requested

instance (t : Traced ω) (a : Action) : Decidable (RoundsFresh t a) :=
  inferInstanceAs (Decidable (a.isRound = true → ∀ p ∈ t.pool.continuity.requestedAt.keys,
    t.pool.continuity.reasm.nextEmit ≤ p → p ∈ t.pool.continuity.scheduler.requested))

theorem RoundsFresh.freshTimers {a : Action} (h : RoundsFresh t a) (ha : a.isRound = true) :
    FreshTimers t.pool.ledger := by
  intro p hp hnot
  by_contra htimer
  obtain ⟨sent, hsent⟩ := Option.ne_none_iff_exists'.mp htimer
  exact hnot (h ha p (OrderedMap.mem_keys.mpr ⟨sent, hsent⟩) hp)

theorem single_run {env : Session ω} {actions : List Action} (h : Single t.pool.ledger t.history)
    (hmeets : Meets (Traced.step env) DropsSpare t actions) :
    let t' := run (Traced.step env) t actions
    Single t'.pool.ledger t'.history := by
  apply Traced.run_ledger _ h hmeets
  intro t a hspare events l' hstep H
  exact H.step hstep hspare

theorem timed_run {env : Session ω} {actions : List Action} (h : Timed t.pool.ledger t.history)
    (hmeets : Meets (Traced.step env) RoundsFresh t actions) :
    let t' := run (Traced.step env) t actions
    Timed t'.pool.ledger t'.history := by
  apply Traced.run_ledger _ h hmeets
  intro t a hfresh events l' hstep H
  exact H.step hstep hfresh.freshTimers

/-- If no drop of a peer touches a piece that waits at another peer, a piece that was last requested
from a peer and is still in flight there is requested again only after its timer has run out. If
moreover no round meets the timer of an earlier request, it had its full time there. -/
theorem requested_again_only_after_timeout (env : Session ω) (minPiece maxPiece prefetch : Nat)
    (liveRecovery : LiveRecoveryConfig) (now : Nat) (startupDeadline : Option Nat)
    (actions : List Action) (a : Action)
    (hspare : Meets (Traced.step env) DropsSpare
      (.start (Pool.start env minPiece maxPiece prefetch liveRecovery now startupDeadline)) actions) :
    let t₀ : Traced ω :=
      .start (Pool.start env minPiece maxPiece prefetch liveRecovery now startupDeadline)
    let t := run (Traced.step env) t₀ actions
    ∀ id piece sent, Event.assigned id piece sent ∈ t.pool.events env a →
      ∀ r, t.history.last piece = some r → piece ∈ t.pool.continuity.activePeers.flight r.peer →
        r.expired.isSome = true ∧
        (Meets (Traced.step env) RoundsFresh t₀ actions →
          ∃ expired, r.expired = some expired ∧
            t.pool.continuity.liveRecovery.requestTimeout ≤ expired - r.sent) := by
  intro t₀ t id piece sent hassigned r hlast hheld
  have hsingle : Single t.pool.ledger t.history := single_run (fun p r O => nomatch O.last) hspare
  obtain ⟨hahead, hnot⟩ := (step_ledger env t.pool a).of_assigned hassigned
  have O : Outstanding t.pool.ledger t.history piece r := ⟨hlast, hahead, hheld⟩
  have hexpired : r.expired.isSome = true := by
    cases hr : r.expired with
    | none => exact absurd (hsingle piece r O hr) hnot
    | some => rfl
  refine ⟨hexpired, fun hfresh => ?_⟩
  obtain ⟨expired, hexpired⟩ := Option.isSome_iff_exists.mp hexpired
  have htimed : Timed t.pool.ledger t.history := timed_run (fun p r O => nomatch O.last) hfresh
  exact ⟨expired, hexpired, (htimed piece r O).2 expired hexpired⟩

/-- Two peers share the requests, and the timer of the first one runs out. -/
def retryActions : List Action :=
  [.commitUpstreamPeer 1 101 ⟨0, 0⟩ true, .commitUpstreamPeer 2 102 ⟨0, 0⟩ true, .requestRound 0 [],
    .commitUpstreamPeer 3 103 ⟨0, 0⟩ false, .dropPeerRuntime 3, .requeueTimedOut 10]

def retried : Traced Unit := run (Traced.step .plain) (.start (.plain 0)) retryActions

theorem requested_again_after_retryActions :
    Event.assigned 1 0 10 ∈ retried.pool.events .plain (.requestRound 10 []) ∧
      retried.history.last 0 = some ⟨2, 0, some 10⟩ ∧
      ∃ expired, some 10 = some expired ∧
        retried.pool.continuity.liveRecovery.requestTimeout ≤ expired - 0 := by
  have hspare : Meets (Traced.step .plain) DropsSpare (.start (.plain 0)) retryActions := by
    decide +kernel
  have hfresh : Meets (Traced.step .plain) RoundsFresh (.start (.plain 0)) retryActions := by
    decide +kernel
  have hassigned : Event.assigned 1 0 10 ∈ retried.pool.events .plain (.requestRound 10 []) := by
    decide +kernel
  have hlast : retried.history.last 0 = some ⟨2, 0, some 10⟩ := by decide +kernel
  have hheld : 0 ∈ retried.pool.continuity.activePeers.flight 2 := by decide +kernel
  have htimed := requested_again_only_after_timeout .plain 0 0 10 ⟨4, 10, 2, 8⟩ 0 none
    retryActions (.requestRound 10 []) hspare 1 0 10 hassigned _ hlast hheld
  exact ⟨hassigned, hlast, htimed.2 hfresh⟩

/-- Piece 0 is requested from peer 2, times out, and is requested from peer 1; then peer 3 joins. -/
def timedOutTurns : List Turn :=
  [.begin [(101, ⟨0, 0⟩, true), (102, ⟨0, 0⟩, true)] (.on 0),
    .loop none none 10 (.on 10) (.on 10) (.on 10) (.on 10),
    .activation 3 103 ⟨0, 0⟩ true none false (.on 11)]

/-- When peer 2 is lost, piece 0 is requested from peer 3, although peer 1 has it in flight and its
request has not timed out. -/
theorem dropped_peer_doubles_request :
    let before := run (Traced.turn .plain) (.start (.plain 0)) timedOutTurns
    let after := before.turn .plain (.lost 2 (fun _ => false) (.on 12))
    before.history.last 0 = some ⟨1, 10, none⟩ ∧
      0 ∈ before.pool.continuity.activePeers.flight 1 ∧
      after.history.last 0 = some ⟨3, 12, none⟩ ∧
      0 ∈ after.pool.continuity.activePeers.flight 1 ∧
      0 ∈ after.pool.continuity.activePeers.flight 3 := by
  decide +kernel

end Outpace.Swarm.Live

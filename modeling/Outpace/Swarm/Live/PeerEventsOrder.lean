import Outpace.Swarm.Live.PeerEvents

/-!
# A peer is lost after its data

In every interleaving of workers and actor: a loss that the actor synthesizes comes after all
messages that the worker has queued, and after a loss nothing of the peer is handled any more. The
synthesized loss waits until the channel is empty, or until as many events were taken from it as it
can hold since the worker was found finished.
-/

namespace Outpace.Swarm.Live

namespace PeerEvent
variable {μ : Type}

/-- The events of one peer, in order. -/
def ofPeer (id : Nat) (events : List (PeerEvent μ)) : List (PeerEvent μ) :=
  events.filter fun e => e.peerId == id

/-- The messages of one peer, in order. -/
def messagesOf (id : Nat) (events : List (PeerEvent μ)) : List (PeerEvent μ) :=
  (ofPeer id events).filter isMessage

theorem ofPeer_append (id : Nat) (l l' : List (PeerEvent μ)) :
    ofPeer id (l ++ l') = ofPeer id l ++ ofPeer id l' := List.filter_append ..

theorem ofPeer_cons (id : Nat) (e : PeerEvent μ) (l : List (PeerEvent μ)) :
    ofPeer id (e :: l) = ofPeer id [e] ++ ofPeer id l := List.filter_append [e] l

theorem ofPeer_of_forall_ne {id : Nat} {l : List (PeerEvent μ)} (h : ∀ e ∈ l, e.peerId ≠ id) :
    ofPeer id l = [] :=
  List.filter_eq_nil_iff.mpr fun e he heq => h e he (eq_of_beq heq)

theorem ofPeer_singleton_ne {id : Nat} {e : PeerEvent μ} (h : e.peerId ≠ id) : ofPeer id [e] = [] :=
  ofPeer_of_forall_ne (List.forall_mem_singleton.mpr h)

theorem messagesOf_append (id : Nat) (l l' : List (PeerEvent μ)) :
    messagesOf id (l ++ l') = messagesOf id l ++ messagesOf id l' := by
  rw [messagesOf, ofPeer_append, List.filter_append]
  rfl

theorem messagesOf_singleton_ne {id : Nat} {e : PeerEvent μ}
    (h : e.peerId ≠ id ∨ e.isMessage = false) : messagesOf id [e] = [] := by
  rcases h with h | h
  · rw [messagesOf, ofPeer_singleton_ne h, List.filter_nil]
  · refine List.filter_eq_nil_iff.mpr fun x hx => ?_
    obtain rfl := List.mem_singleton.mp (List.mem_of_mem_filter hx)
    rw [h]
    decide

end PeerEvent

open PeerEvent

namespace PeerWorker
variable {μ : Type}

/-- The permits that the worker holds. -/
def holds (w : PeerWorker μ) : Nat :=
  match w.phase with
  | .sending _ => 1
  | _ => 0

end PeerWorker

namespace PoolEvents
variable {μ : Type} {s : PoolEvents μ}

def Finished (s : PoolEvents μ) (id : Nat) : Prop :=
  ∃ w, s.workers.get? id = some w ∧ w.phase = .finished

/-- The worker has queued nothing that is further back than so many events, and queues nothing
more. -/
structure Ending (s : PoolEvents μ) (id remaining : Nat) : Prop where
  finished : s.Finished id
  ahead : ∀ e ∈ s.events.queue.drop remaining, e.peerId ≠ id

/-- The workers and the channel. -/
structure Wired (s : PoolEvents μ) : Prop where
  balanced : s.events.Balanced (s.workers.weight fun _ => PeerWorker.holds)
  fresh : s.workers.All fun id _ => id < s.nextPeerId
  activating : ∀ id addr, s.activation = some (id, addr) →
    id < s.nextPeerId ∧ s.workers.get? id = none
  sending : s.workers.All fun id w => ∀ e, w.phase = .sending e → e.peerId = id ∧ e.addr = w.addr
  peers : s.peers.All fun id addr => ∃ w, s.workers.get? id = some w ∧ w.addr = addr
  sent : ∀ e ∈ s.sent, ∃ w, s.workers.get? e.peerId = some w ∧ w.addr = e.addr
  queued : ∀ e ∈ s.events.queue, e ∈ s.sent
  handled : ∀ d ∈ s.handled, ∃ w, s.workers.get? d.1.peerId = some w

/-- What was handled of the peers. -/
structure Ordered (s : PoolEvents μ) : Prop where
  /-- What is handled and what is queued of a peer in the pool is what its worker has sent. -/
  ledger : s.peers.All fun id _ =>
    ofPeer id (s.handled.map (·.1)) ++ ofPeer id s.events.queue = ofPeer id s.sent
  closed : s.closedPeerEvents.All fun id e => s.Ending id e.2
  gone : ∀ d ∈ s.handled, d.1.isMessage = false → s.peers.get? d.1.peerId = none
  order : s.handled.Pairwise fun d e => d.1.isMessage = false → e.1.peerId ≠ d.1.peerId
  complete : ∀ d ∈ s.handled, d.2 = true → d.1.isMessage = false ∧ s.Finished d.1.peerId ∧
    messagesOf d.1.peerId (s.handled.map (·.1)) = messagesOf d.1.peerId s.sent

/-! ### Steps of the workers -/

theorem wired_start (capacity : Nat) : (start capacity : PoolEvents μ).Wired where
  balanced := Channel.balanced_new capacity
  fresh := OrderedMap.All.empty
  activating := fun _ _ h => (by cases h)
  sending := OrderedMap.All.empty
  peers := OrderedMap.All.empty
  sent := fun _ h => (by cases h)
  queued := fun _ h => (by cases h)
  handled := fun _ h => (by cases h)

theorem ordered_start (capacity : Nat) : (start capacity : PoolEvents μ).Ordered where
  ledger := OrderedMap.All.empty
  closed := OrderedMap.All.empty
  gone := fun _ h => (by cases h)
  order := .nil
  complete := fun _ h => (by cases h)

/-- A worker goes from one phase to the next, with what it queues. -/
structure Works (s s' : PoolEvents μ) (new : List (PeerEvent μ)) : Prop where
  peers : s'.peers = s.peers
  closed : s'.closedPeerEvents = s.closedPeerEvents
  handled : s'.handled = s.handled
  queue : s'.events.queue = s.events.queue ++ new
  sent : s'.sent = s.sent ++ new
  finished : ∀ id, s.Finished id → s'.Finished id
  unfinished : ∀ e ∈ new, ¬s.Finished e.peerId

variable {s' : PoolEvents μ} {new : List (PeerEvent μ)}

theorem Ordered.works (H : s.Ordered) (W : Works s s' new) : s'.Ordered where
  ledger := by
    intro id addr hid
    rw [W.peers] at hid
    rw [W.handled, W.queue, W.sent, ofPeer_append, ofPeer_append, ← List.append_assoc,
      H.ledger id addr hid]
  closed := by
    intro id e hid
    rw [W.closed] at hid
    have hending := H.closed id e hid
    refine ⟨W.finished id hending.finished, fun x hx => ?_⟩
    rw [W.queue, List.drop_append, List.mem_append] at hx
    rcases hx with hx | hx
    · exact hending.ahead x hx
    · rintro rfl
      exact W.unfinished x (List.mem_of_mem_drop hx) hending.finished
  gone := by
    rw [W.handled, W.peers]
    exact H.gone
  order := by
    rw [W.handled]
    exact H.order
  complete := by
    intro d hd hsynth
    rw [W.handled] at hd ⊢
    obtain ⟨hlost, hfinished, hmessages⟩ := H.complete d hd hsynth
    have hnew : messagesOf d.1.peerId new = [] := by
      rw [messagesOf, ofPeer_of_forall_ne fun e he heq => W.unfinished e he (heq ▸ hfinished),
        List.filter_nil]
    exact ⟨hlost, W.finished _ hfinished, by rw [hmessages, W.sent, messagesOf_append, hnew,
      List.append_nil]⟩

section
variable {id : Nat} {w : PeerWorker μ} {phase : WorkerPhase μ} {events : Channel (PeerEvent μ)}

theorem finished_setPhase (hw : s.workers.get? id = some w) (hphase : w.phase ≠ .finished) {j : Nat}
    (h : s.Finished j) : (s.setPhase id w phase).Finished j := by
  obtain ⟨w', hw', hfinished⟩ := h
  refine ⟨w', ?_, hfinished⟩
  rw [setPhase, OrderedMap.get?_insert_of_ne]
  · exact hw'
  · rintro rfl
    cases hw.symm.trans hw'
    exact hphase hfinished

theorem weight_setPhase (hw : s.workers.get? id = some w) :
    (s.setPhase id w phase).workers.weight (fun _ => PeerWorker.holds) + w.holds =
      s.workers.weight (fun _ => PeerWorker.holds) + (PeerWorker.mk w.addr phase).holds := by
  have hweight := s.workers.weight_insert (f := fun _ => PeerWorker.holds) id { w with phase := phase }
  rw [hw] at hweight
  exact hweight

/-- Workers stay with their addresses. -/
theorem get?_setPhase (hw : s.workers.get? id = some w) {j addr : Nat}
    (h : ∃ w', s.workers.get? j = some w' ∧ w'.addr = addr) :
    ∃ w', (s.setPhase id w phase).workers.get? j = some w' ∧ w'.addr = addr := by
  obtain ⟨w', hw', haddr⟩ := h
  rw [setPhase, OrderedMap.get?_insert]
  split
  · next heq =>
    subst heq
    cases hw.symm.trans hw'
    exact ⟨_, rfl, haddr⟩
  · exact ⟨w', hw', haddr⟩

variable (s id w phase events) in
/-- A worker that has not finished may go to this phase with this channel. -/
structure Moves : Prop where
  worker : s.workers.get? id = some w
  unfinished : w.phase ≠ .finished
  balanced : events.Balanced (s.workers.weight (fun _ => PeerWorker.holds) +
    (PeerWorker.mk w.addr phase).holds - w.holds)
  sending : ∀ e, phase = .sending e → e.peerId = id ∧ e.addr = w.addr

/-- The channel and the sent events change with the phase of a worker. -/
theorem Wired.setPhase (H : s.Wired) (M : Moves s id w phase events) {sent : List (PeerEvent μ)}
    (hsent : ∀ e ∈ sent, e ∈ s.sent ∨ e.peerId = id ∧ e.addr = w.addr)
    (hqueued : ∀ e ∈ events.queue, e ∈ sent) :
    ({ s with events := events, sent := sent }.setPhase id w phase).Wired := by
  have hw := M.worker
  refine ⟨?_, H.fresh.insert (H.fresh id w hw), fun j addr hj => ?_, H.sending.insert M.sending,
    H.peers.mono fun j addr h => get?_setPhase hw h, fun e he => ?_, hqueued, fun d hd => ?_⟩
  · have hweight := @weight_setPhase μ s id w phase hw
    show events.Balanced ((s.setPhase id w phase).workers.weight fun _ => PeerWorker.holds)
    rw [Nat.eq_sub_of_add_eq hweight]
    exact M.balanced
  · obtain ⟨hlt, hnone⟩ := H.activating j addr hj
    refine ⟨hlt, ?_⟩
    show (s.workers.insert id _).get? j = none
    rw [OrderedMap.get?_insert_of_ne, hnone]
    rintro rfl
    cases hw.symm.trans hnone
  · rcases hsent e he with hold | ⟨rfl, haddr⟩
    · exact get?_setPhase hw (H.sent e hold)
    · exact ⟨{ w with phase := phase }, OrderedMap.get?_insert_self .., haddr.symm⟩
  · obtain ⟨w', hw'⟩ := H.handled d hd
    obtain ⟨w'', hw'', -⟩ := @get?_setPhase μ s id w phase hw _ _ ⟨w', hw', rfl⟩
    exact ⟨w'', hw''⟩

/-- A worker step keeps both. -/
theorem Wired.worker (H : s.Wired) (O : s.Ordered) (M : Moves s id w phase events)
    (new : List (PeerEvent μ))
    (hnew : ∀ e ∈ new, e.peerId = id ∧ e.addr = w.addr)
    (hqueue : events.queue = s.events.queue ++ new) :
    let s' := { s with events := events, sent := s.sent ++ new }.setPhase id w phase
    s'.Wired ∧ s'.Ordered := by
  intro s'
  refine ⟨H.setPhase M (fun e he => ?_) (fun e he => ?_),
    O.works ⟨rfl, rfl, rfl, hqueue, rfl, fun j hj => ?_, fun e he => ?_⟩⟩
  · exact (List.mem_append.mp he).imp_right (hnew e)
  · rw [hqueue, List.mem_append] at he
    exact List.mem_append.mpr (he.imp_left (H.queued e))
  · exact @finished_setPhase μ s id w phase M.worker M.unfinished j hj
  · rintro ⟨w', hw', hfinished⟩
    rw [(hnew e he).1] at hw'
    cases M.worker.symm.trans hw'
    exact M.unfinished hfinished

/-- A worker that queues nothing. -/
theorem Wired.move (H : s.Wired) (O : s.Ordered) (M : Moves s id w phase events)
    (hqueue : events.queue = s.events.queue) :
    let s' := { s with events := events }.setPhase id w phase
    s'.Wired ∧ s'.Ordered := by
  have hstep := H.worker O M [] (fun _ h => (by cases h))
    (hqueue.trans (List.append_nil _).symm)
  rwa [List.append_nil] at hstep

theorem Wired.reserve (H : s.Wired) (O : s.Ordered) (id : Nat) (msg : Option μ) :
    (s.reserve id msg).Wired ∧ (s.reserve id msg).Ordered := by
  unfold PoolEvents.reserve
  split
  · next addr events hw hreserve =>
    refine H.move O ⟨hw, nofun, H.balanced.reserve hreserve, fun e he => ?_⟩
      (Channel.reserve_eq_some hreserve).2.1
    cases he
    cases msg <;> exact ⟨rfl, rfl⟩
  · exact ⟨H, O⟩

/-- A permit that a worker holds is one of those that are held. -/
theorem Wired.held (H : s.Wired) {addr : Nat} {event : PeerEvent μ}
    (hw : s.workers.get? id = some ⟨addr, .sending event⟩) :
    s.events.Balanced (s.workers.weight (fun _ => PeerWorker.holds) - 1 + 1) := by
  have hweight := s.workers.weight_erase (f := fun _ => PeerWorker.holds) id
  rw [hw] at hweight
  rw [Nat.sub_add_cancel (hweight ▸ Nat.le_add_left ..)]
  exact H.balanced

theorem Wired.publish (H : s.Wired) (O : s.Ordered) (id : Nat) :
    (s.publish id).Wired ∧ (s.publish id).Ordered := by
  unfold PoolEvents.publish
  split
  · next addr event hw =>
    have hphase : ∀ phase : WorkerPhase μ,
        phase = (if event.isMessage then .running else .returned) →
          (PeerWorker.mk addr phase).holds = 0 := by
      rintro _ rfl
      split <;> rfl
    refine H.worker O ⟨hw, nofun, ?_, fun e he => ?_⟩ [event]
      (List.forall_mem_singleton.mpr (H.sending id _ hw event rfl)) rfl
    · show (s.events.publish event).Balanced (_ + (PeerWorker.mk addr _).holds - 1)
      rw [hphase _ rfl]
      exact (H.held hw).publish event
    · split at he <;> cases he
  · exact ⟨H, O⟩

theorem Wired.stop (H : s.Wired) (O : s.Ordered) (id : Nat) :
    (s.stop id).Wired ∧ (s.stop id).Ordered := by
  unfold PoolEvents.stop
  split
  · next addr hw =>
    exact H.move O ⟨hw, nofun, H.balanced, nofun⟩ rfl
  · next addr event hw =>
    exact H.move O ⟨hw, nofun, (H.held hw).release, nofun⟩ rfl
  · exact ⟨H, O⟩

theorem Wired.finish (H : s.Wired) (O : s.Ordered) (id : Nat) :
    (s.finish id).Wired ∧ (s.finish id).Ordered := by
  unfold PoolEvents.finish
  split
  · next addr hw =>
    exact H.move O ⟨hw, nofun, H.balanced, nofun⟩ rfl
  · exact ⟨H, O⟩

end

/-! ### Steps of the actor -/

theorem Wired.atPc (H : s.Wired) (O : s.Ordered) (pc : LoopPc) :
    { s with pc := pc }.Wired ∧ { s with pc := pc }.Ordered :=
  ⟨⟨H.1, H.2, H.3, H.4, H.5, H.6, H.7, H.8⟩, ⟨O.1, O.2.mono fun _ _ h => ⟨h.1, h.2⟩, O.3, O.4, O.5⟩⟩

theorem Wired.refill (H : s.Wired) (O : s.Ordered) (addr : Nat) :
    (s.refill addr).Wired ∧ (s.refill addr).Ordered := by
  unfold PoolEvents.refill
  split
  · exact ⟨H, O⟩
  refine ⟨⟨H.balanced, H.fresh.mono fun _ _ h => Nat.lt_succ_of_lt h, fun id addr' h => ?_,
    H.sending, H.peers, H.sent, H.queued, H.handled⟩,
    ⟨O.1, O.2.mono fun _ _ h => ⟨h.1, h.2⟩, O.3, O.4, O.5⟩⟩
  cases h
  refine ⟨Nat.lt_succ_self _, Option.eq_none_iff_forall_ne_some.mpr fun w hw => ?_⟩
  exact absurd (H.fresh _ w hw) (Nat.lt_irrefl _)

theorem Wired.activate (H : s.Wired) (O : s.Ordered) (accepted : Bool) (replacement : Option Nat) :
    (s.activate accepted replacement).Wired ∧ (s.activate accepted replacement).Ordered := by
  unfold PoolEvents.activate
  split
  · exact ⟨H, O⟩
  next id addr hactivation =>
  obtain ⟨hlt, hnew⟩ := H.activating id addr hactivation
  split
  · have hsub : ∀ j a, (replacement.elim s.peers s.peers.erase).get? j = some a →
        s.peers.get? j = some a := by
      intro j a hj
      cases replacement with
      | none => exact hj
      | some old =>
        rw [Option.elim_some, OrderedMap.get?_erase] at hj
        split at hj
        · cases hj
        · exact hj
    have hkeep {j a : Nat} (h : ∃ w, s.workers.get? j = some w ∧ w.addr = a) :
        ∃ w, (s.workers.insert id (⟨addr, .running⟩ : PeerWorker μ)).get? j = some w ∧
          w.addr = a := by
      obtain ⟨w, hw, ha⟩ := h
      refine ⟨w, ?_, ha⟩
      rw [OrderedMap.get?_insert_of_ne, hw]
      rintro rfl
      cases hnew.symm.trans hw
    have hweight := s.workers.weight_insert (f := fun _ => PeerWorker.holds) id ⟨addr, .running⟩
    rw [hnew] at hweight
    -- nothing is known of the new id so far
    have hunknown : ∀ e : PeerEvent μ, (∃ w, s.workers.get? e.peerId = some w) → e.peerId ≠ id := by
      rintro e ⟨w, hw⟩ rfl
      cases hnew.symm.trans hw
    have hsent : ofPeer id s.sent = [] := ofPeer_of_forall_ne fun e he =>
      hunknown e ((H.sent e he).imp fun _ h => h.1)
    have hqueue : ofPeer id s.events.queue = [] := ofPeer_of_forall_ne fun e he =>
      hunknown e ((H.sent e (H.queued e he)).imp fun _ h => h.1)
    have hhandled : ofPeer id (s.handled.map (·.1)) = [] := ofPeer_of_forall_ne fun e he => by
      obtain ⟨d, hd, rfl⟩ := List.mem_map.mp he
      exact hunknown d.1 (H.handled d hd)
    have hfinished {j : Nat} (h : s.Finished j) :
        ∃ w, (s.workers.insert id (⟨addr, .running⟩ : PeerWorker μ)).get? j = some w ∧
          w.phase = .finished := by
      obtain ⟨w, hw, hphase⟩ := h
      refine ⟨w, ?_, hphase⟩
      rw [OrderedMap.get?_insert_of_ne, hw]
      rintro rfl
      cases hnew.symm.trans hw
    refine ⟨⟨?_, H.fresh.insert hlt, fun _ _ h => (by cases h),
      H.sending.insert fun _ h => (by cases h), ?_, fun e he => hkeep (H.sent e he), H.queued,
      fun d hd => ?_⟩, ⟨?_, O.closed.mono fun j e h => ⟨hfinished h.finished, h.ahead⟩, ?_, O.order,
      fun d hd hsynth => ?_⟩⟩
    · have hsame : (s.workers.insert id (⟨addr, .running⟩ : PeerWorker μ)).weight
          (fun _ => PeerWorker.holds) = s.workers.weight fun _ => PeerWorker.holds := hweight
      show s.events.Balanced ((s.workers.insert id _).weight _)
      rw [hsame]
      exact H.balanced
    · refine OrderedMap.All.insert (fun j a hj => hkeep (H.peers j a (hsub j a hj))) ?_
      exact ⟨⟨addr, .running⟩, OrderedMap.get?_insert_self .., rfl⟩
    · obtain ⟨w, hw⟩ := H.handled d hd
      obtain ⟨w', hw', -⟩ := hkeep ⟨w, hw, rfl⟩
      exact ⟨w', hw'⟩
    · refine OrderedMap.All.insert (fun j a hj => O.ledger j a (hsub j a hj)) ?_
      show ofPeer id (s.handled.map (·.1)) ++ ofPeer id s.events.queue = ofPeer id s.sent
      rw [hsent, hqueue, hhandled, List.append_nil]
    · intro d hd hlost
      have hne : d.1.peerId ≠ id := hunknown d.1 (H.handled d hd)
      show ((replacement.elim s.peers s.peers.erase).insert id addr).get? d.1.peerId = none
      rw [OrderedMap.get?_insert_of_ne _ _ hne]
      refine Option.eq_none_iff_forall_ne_some.mpr fun a ha => ?_
      cases (O.gone d hd hlost).symm.trans (hsub _ a ha)
    · obtain ⟨hlost, hfin, hmessages⟩ := O.complete d hd hsynth
      exact ⟨hlost, hfinished hfin, hmessages⟩
  · exact ⟨⟨H.1, H.2, fun _ _ h => (by cases h), H.4, H.5, H.6, H.7, H.8⟩,
      ⟨O.1, O.2.mono fun _ _ h => ⟨h.1, h.2⟩, O.3, O.4, O.5⟩⟩

section
variable {events : Channel (PeerEvent μ)} {closed : OrderedMap Nat (Nat × Nat)} {event : PeerEvent μ}

theorem Wired.taken (H : s.Wired)
    (hbalanced : events.Balanced (s.workers.weight fun _ => PeerWorker.holds))
    (hqueued : ∀ e ∈ events.queue, e ∈ s.events.queue) :
    { s with events := events, closedPeerEvents := closed }.Wired :=
  ⟨hbalanced, H.fresh, H.activating, H.sending, H.peers, H.sent,
    fun e he => H.queued e (hqueued e he), H.handled⟩

theorem get?_peers_handle {synthesized : Bool} {stale : List Nat} {id addr : Nat}
    (h : (s.handle event synthesized stale).peers.get? id = some addr) :
    s.peers.get? id = some addr := by
  unfold handle at h
  split at h
  · dsimp only at h
    split at h
    · exact h
    · have hid := (OrderedMap.get?_filter_eq_some.mp h).1
      rw [OrderedMap.get?_erase] at hid
      split at hid
      · cases hid
      · exact hid
  · exact h

theorem Wired.handle (H : s.Wired) (hworker : ∃ w, s.workers.get? event.peerId = some w)
    (synthesized : Bool) (stale : List Nat) : (s.handle event synthesized stale).Wired := by
  have hpeers : (s.handle event synthesized stale).peers.All fun id addr =>
      ∃ w, s.workers.get? id = some w ∧ w.addr = addr :=
    fun id addr h => H.peers id addr (get?_peers_handle h)
  unfold PoolEvents.handle at hpeers ⊢
  split at hpeers
  · next hcurrent =>
    rw [if_pos hcurrent]
    refine ⟨H.balanced, H.fresh, H.activating, H.sending, hpeers, H.sent, H.queued, fun d hd => ?_⟩
    rcases List.mem_append.mp hd with hd | hd
    · exact H.handled d hd
    · cases List.mem_singleton.mp hd
      exact hworker
  · next hcurrent =>
    rw [if_neg hcurrent]
    exact ⟨H.1, H.2, H.3, H.4, H.5, H.6, H.7, H.8⟩

/-- An event that is current is handled. Peers other than one that is lost with it keep their
ledgers. -/
theorem Ordered.handle (O : s.Ordered) (hcurrent : event.isCurrent s.peers = true)
    (hledger : s.peers.All fun id _ => (event.isMessage = false → id ≠ event.peerId) →
      ofPeer id (s.handled.map (·.1)) ++ ofPeer id [event] ++ ofPeer id events.queue =
        ofPeer id s.sent)
    (hclosed : closed.All fun id e =>
      s.Finished id ∧ ∀ x ∈ events.queue.drop e.2, x.peerId ≠ id)
    {synthesized : Bool} (stale : List Nat)
    (hsynth : synthesized = true → event.isMessage = false ∧ s.Finished event.peerId ∧
      messagesOf event.peerId (s.handled.map (·.1)) = messagesOf event.peerId s.sent) :
    ({ s with events := events, closedPeerEvents := closed }.handle event synthesized stale).Ordered := by
  set s' := { s with events := events, closedPeerEvents := closed }.handle event synthesized stale
    with hs'
  have hpeer := PeerEvent.isCurrent_iff.mp hcurrent
  have hsub {id addr : Nat} (h : s'.peers.get? id = some addr) : s.peers.get? id = some addr :=
    @get?_peers_handle μ { s with events := events, closedPeerEvents := closed } event _ _ _ _ h
  rw [PoolEvents.handle, if_pos hcurrent] at hs'
  have hlost (h : event.isMessage = false) : s'.peers.get? event.peerId = none := by
    have hpeers : s'.peers =
        (s.peers.erase event.peerId).filter fun id _ => !stale.contains id := by
      rw [hs']
      exact if_neg (by rw [h]; decide)
    rw [hpeers, OrderedMap.get?_filter, OrderedMap.get?_erase_self]
    rfl
  -- a peer with a loss is not in the pool, so the event is of another
  have hother {d : PeerEvent μ × Bool} (hd : d ∈ s.handled) (h : d.1.isMessage = false) :
      event.peerId ≠ d.1.peerId := by
    intro heq
    have hgone := O.gone d hd h
    rw [← heq, hpeer] at hgone
    cases hgone
  have hhandled : s'.handled = s.handled ++ [(event, synthesized)] := by rw [hs']
  have hmap : s'.handled.map (·.1) = s.handled.map (·.1) ++ [event] := by
    rw [hhandled, List.map_append, List.map_singleton]
  refine ⟨fun id addr hid => ?_, ?_, fun d hd h => ?_, ?_, fun d hd h => ?_⟩
  · show ofPeer id (s'.handled.map (·.1)) ++ ofPeer id s'.events.queue = ofPeer id s'.sent
    rw [hmap, ofPeer_append, hs']
    refine hledger id addr (hsub hid) fun h => ?_
    rintro rfl
    cases (hlost h).symm.trans hid
  · rw [hs']
    exact hclosed.mono fun _ _ h => ⟨h.1, h.2⟩
  · rw [hhandled] at hd
    rcases List.mem_append.mp hd with hd | hd
    · refine Option.eq_none_iff_forall_ne_some.mpr fun addr haddr => ?_
      cases (O.gone d hd h).symm.trans (hsub haddr)
    · cases List.mem_singleton.mp hd
      exact hlost h
  · rw [hhandled]
    refine List.pairwise_append.mpr ⟨O.order, List.pairwise_singleton .., fun d hd e he h => ?_⟩
    cases List.mem_singleton.mp he
    exact hother hd h
  · have hcomplete : d.1.isMessage = false ∧ s.Finished d.1.peerId ∧
        messagesOf d.1.peerId (s'.handled.map (·.1)) = messagesOf d.1.peerId s.sent := by
      rw [hmap, messagesOf_append]
      rw [hhandled] at hd
      rcases List.mem_append.mp hd with hd | hd
      · obtain ⟨hmsg, hfinished, hmessages⟩ := O.complete d hd h
        refine ⟨hmsg, hfinished, ?_⟩
        rw [hmessages, messagesOf_singleton_ne (.inl (hother hd hmsg)), List.append_nil]
      · cases List.mem_singleton.mp hd
        obtain ⟨hmsg, hfinished, hmessages⟩ := hsynth h
        refine ⟨hmsg, hfinished, ?_⟩
        rw [hmessages, messagesOf_singleton_ne (.inr hmsg), List.append_nil]
    rw [hs'] at hcomplete ⊢
    exact hcomplete

/-- The oldest event is taken from the channel. -/
theorem Wired.receive (H : s.Wired) (O : s.Ordered) (h : s.events.tryRecv = some (event, events))
    (stale : List Nat) :
    let s' := { s with events := events, closedPeerEvents := tick s.closedPeerEvents }.handle event
      false stale
    s'.Wired ∧ s'.Ordered := by
  obtain ⟨-, hqueue, -⟩ := Channel.tryRecv_eq_some h
  obtain ⟨w, hw, haddr⟩ := H.sent event (H.queued event (hqueue ▸ List.mem_cons_self))
  have htaken := @Wired.taken μ s events (tick s.closedPeerEvents) H (H.balanced.tryRecv h)
    fun e he => hqueue ▸ List.mem_cons_of_mem _ he
  have hledger : s.peers.All fun id _ =>
      ofPeer id (s.handled.map (·.1)) ++ ofPeer id [event] ++ ofPeer id events.queue =
        ofPeer id s.sent := by
    intro id addr hid
    rw [← O.ledger id addr hid, hqueue, ofPeer_cons id event events.queue, List.append_assoc]
  have hclosed : (tick s.closedPeerEvents).All fun id e =>
      s.Finished id ∧ ∀ x ∈ events.queue.drop e.2, x.peerId ≠ id := by
    intro id e hid
    rw [tick, OrderedMap.get?_mapVal, Option.map_eq_some_iff] at hid
    obtain ⟨e, he, rfl⟩ := hid
    obtain ⟨hfinished, hahead⟩ := O.closed id e he
    refine ⟨hfinished, fun x hx => hahead x ?_⟩
    rw [hqueue]
    cases hr : e.2 with
    | zero =>
      rw [hr] at hx
      exact List.mem_cons_of_mem _ hx
    | succ r =>
      rw [hr] at hx
      exact hx
  refine ⟨htaken.handle ⟨w, hw⟩ false stale, ?_⟩
  by_cases hcurrent : event.isCurrent s.peers = true
  · exact O.handle hcurrent (hledger.mono fun _ _ h _ => h) hclosed stale fun h => by cases h
  · have hnone : s.peers.get? event.peerId = none := by
      refine Option.eq_none_iff_forall_ne_some.mpr fun addr hpeer => hcurrent ?_
      obtain ⟨w', hw', rfl⟩ := H.peers _ _ hpeer
      cases hw.symm.trans hw'
      rw [PeerEvent.isCurrent_iff, hpeer, haddr]
    rw [PoolEvents.handle, if_neg hcurrent]
    refine ⟨fun id addr hid => ?_, hclosed.mono fun _ _ h => ⟨h.1, h.2⟩, O.gone, O.order, O.complete⟩
    have hne : event.peerId ≠ id := by
      rintro rfl
      cases hnone.symm.trans hid
    show ofPeer id (s.handled.map (·.1)) ++ ofPeer id events.queue = ofPeer id s.sent
    rw [← hledger id addr hid, ofPeer_singleton_ne hne, List.append_nil]

/-- A loss is synthesized when nothing of the peer can be in the channel. -/
theorem Wired.synthesize (H : s.Wired) (O : s.Ordered) {id addr remaining : Nat}
    (hid : s.closedPeerEvents.get? id = some (addr, remaining))
    (h : remaining = 0 ∨ s.events.drained = true) (stale : List Nat) :
    (s.handle (.lost id addr) true stale).Wired ∧ (s.handle (.lost id addr) true stale).Ordered := by
  obtain ⟨hfinished, hahead⟩ := O.closed id _ hid
  obtain ⟨w, hw, -⟩ := hfinished
  refine ⟨@Wired.handle μ s (.lost id addr) H ⟨w, hw⟩ true stale, ?_⟩
  have hqueue : ofPeer id s.events.queue = [] := by
    rcases h with rfl | h
    · exact ofPeer_of_forall_ne hahead
    · rw [H.balanced.queue_of_drained h]
      rfl
  by_cases hcurrent : (PeerEvent.lost id addr : PeerEvent μ).isCurrent s.peers = true
  · have hledger : ofPeer id (s.handled.map (·.1)) ++ ofPeer id s.events.queue = ofPeer id s.sent :=
      O.ledger id addr (PeerEvent.isCurrent_iff.mp hcurrent)
    rw [hqueue, List.append_nil] at hledger
    refine @Ordered.handle μ s s.events s.closedPeerEvents _ O hcurrent (fun j a hj hne => ?_)
      (O.closed.mono fun _ _ h => ⟨h.1, h.2⟩) true stale fun _ => ⟨rfl, O.closed id _ hid |>.1, ?_⟩
    · rw [ofPeer_singleton_ne (hne rfl).symm, List.append_nil]
      exact O.ledger j a hj
    · show messagesOf id (s.handled.map (·.1)) = messagesOf id s.sent
      rw [messagesOf, hledger]
      rfl
  · rw [PoolEvents.handle, if_neg hcurrent]
    exact ⟨O.1, O.2.mono fun _ _ h => ⟨h.1, h.2⟩, O.3, O.4, O.5⟩

end

theorem Wired.closing (H : s.Wired) (O : s.Ordered) {closed : OrderedMap Nat (Nat × Nat)}
    (h : closed.All fun id e => s.Ending id e.2) (pc : LoopPc) :
    { s with closedPeerEvents := closed, pc := pc }.Wired ∧
      { s with closedPeerEvents := closed, pc := pc }.Ordered :=
  ⟨⟨H.1, H.2, H.3, H.4, H.5, H.6, H.7, H.8⟩, ⟨O.1, h.mono fun _ _ h => ⟨h.1, h.2⟩, O.3, O.4, O.5⟩⟩

/-- A worker that is found finished has at most the capacity of the channel ahead. -/
theorem Wired.scan (H : s.Wired) (O : s.Ordered) (id : Nat) :
    (s.scan id).All fun id e => s.Ending id e.2 := by
  unfold PoolEvents.scan
  split
  · next addr _ _ hw =>
    split
    · exact O.closed
    refine O.closed.insert ⟨⟨_, hw, rfl⟩, fun e he => ?_⟩
    rw [List.drop_eq_nil_of_le H.balanced.length_le] at he
    cases he
  · exact O.closed

theorem Wired.poll (H : s.Wired) (O : s.Ordered) (stale : List Nat) :
    (s.poll stale).Wired ∧ (s.poll stale).Ordered := by
  unfold PoolEvents.poll
  split
  · exact H.atPc O .top
  · exact H.closing O (fun id e h => O.closed id e (OrderedMap.get?_filter_eq_some.mp h).1) _
  · exact H.closing O (H.scan O _) _
  · dsimp only
    split
    · next id addr remaining hfind =>
      refine H.synthesize O (OrderedMap.get?_eq_some.mpr (List.mem_of_find?_eq_some hfind)) ?_ stale
      simpa using List.find?_some hfind
    · exact H.atPc O _
  · split
    · exact H.atPc O .selecting
    · next event events hrecv => exact H.receive O hrecv stale
  · exact ⟨H, O⟩

theorem Wired.step (H : s.Wired) (O : s.Ordered) (a : EventAction μ) :
    (s.step a).Wired ∧ (s.step a).Ordered := by
  cases a with
  | reserve id msg => exact H.reserve O id msg
  | publish id => exact H.publish O id
  | stop id => exact H.stop O id
  | finish id => exact H.finish O id
  | refill addr =>
    obtain ⟨H', O'⟩ := H.refill O addr
    rw [PoolEvents.step]
    split
    · exact ⟨H', O'⟩
    · exact H'.atPc O' .top
    · exact ⟨H, O⟩
  | activate accepted replacement =>
    obtain ⟨H', O'⟩ := H.activate O accepted replacement
    rw [PoolEvents.step]
    split
    · exact ⟨H', O'⟩
    · exact ⟨H', O'⟩
    · exact H'.atPc O' .top
    · exact ⟨H, O⟩
  | poll stale => exact H.poll O stale
  | recv stale =>
    rw [PoolEvents.step]
    split
    · split
      · exact ⟨H, O⟩
      split
      · exact ⟨H, O⟩
      · next event events hrecv => exact H.receive O hrecv stale
    · exact ⟨H, O⟩
  | wake =>
    rw [PoolEvents.step]
    split
    · exact H.atPc O .top
    · exact ⟨H, O⟩

theorem wired_run (capacity : Nat) (actions : List (EventAction μ)) :
    (run PoolEvents.step (start capacity) actions).Wired ∧
      (run PoolEvents.step (start capacity) actions).Ordered :=
  run_invariant (I := fun s : PoolEvents μ => s.Wired ∧ s.Ordered)
    (fun _ a h => h.1.step h.2 a) ⟨wired_start capacity, ordered_start capacity⟩ actions

/-- When a peer is lost, by a synthesized event, all messages that its worker ever queues have been
handled. A peer is lost at most once, and nothing of it is handled afterwards. -/
theorem lost_after_messages (capacity : Nat) (actions : List (EventAction μ))
    (pre post : List (PeerEvent μ × Bool)) (event : PeerEvent μ) (synthesized : Bool)
    (h : (run PoolEvents.step (start capacity) actions).handled =
      pre ++ (event, synthesized) :: post)
    (hlost : event.isMessage = false) :
    (synthesized = true → messagesOf event.peerId (pre.map (·.1)) =
      messagesOf event.peerId (run PoolEvents.step (start capacity) actions).sent) ∧
    (∀ d ∈ pre, d.1.peerId = event.peerId → d.1.isMessage = true) ∧
    ∀ d ∈ post, d.1.peerId ≠ event.peerId := by
  have O := (wired_run capacity actions).2
  have horder := O.order
  rw [h] at horder
  obtain ⟨-, htail, hacross⟩ := List.pairwise_append.mp horder
  have hpost : ∀ d ∈ post, d.1.peerId ≠ event.peerId := fun d hd =>
    (List.pairwise_cons.mp htail).1 d hd hlost
  refine ⟨fun hsynth => ?_, fun d hd heq => ?_, hpost⟩
  · obtain ⟨-, -, hmessages⟩ := O.complete (event, synthesized) (h ▸ by simp) hsynth
    have hnone : messagesOf event.peerId (post.map (·.1)) = [] := by
      rw [messagesOf, ofPeer_of_forall_ne, List.filter_nil]
      intro e he
      obtain ⟨d, hd, rfl⟩ := List.mem_map.mp he
      exact hpost d hd
    rw [← hmessages, h, List.map_append, List.map_cons, messagesOf_append,
      ← List.singleton_append, messagesOf_append, hnone, messagesOf_singleton_ne (.inr hlost),
      List.append_nil, List.append_nil]
  · cases hmsg : d.1.isMessage with
    | true => rfl
    | false => exact absurd heq.symm (hacross d hd _ List.mem_cons_self hmsg)

/-- A worker queues a message and ends; the actor finds it finished with the message still ahead. -/
def sampleActions : List (EventAction Nat) :=
  [.refill 7, .activate true none, .poll [], .reserve 1 (some 42), .publish 1, .stop 1, .finish 1] ++
    List.replicate 7 (.poll [])

theorem lost_after_messages_sample :
    (run PoolEvents.step (start 2) sampleActions).handled =
      [(.message 1 7 42, false)] ++ (.lost 1 7, true) :: [] ∧
    messagesOf 1 [.message 1 7 42] =
      messagesOf 1 (run PoolEvents.step (start 2) sampleActions).sent :=
  ⟨by decide +kernel,
    (lost_after_messages 2 sampleActions [(.message 1 7 42, false)] [] (.lost 1 7) true
      (by decide +kernel) rfl).1 rfl⟩

end PoolEvents

end Outpace.Swarm.Live

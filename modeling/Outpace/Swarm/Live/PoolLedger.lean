import Outpace.Swarm.Live.Ledger
import Outpace.Swarm.Live.Pool
import Outpace.Wire.ReassemblyRuns

/-!
# The pool keeps a ledger

The books of a pool are a ledger, and every step of the pool is a step of the ledger. What follows
from the ledger's rules alone holds of the pool.
-/

namespace Outpace.Swarm.Live

open Outpace.Wire

variable {ω : Type} {l : Ledger} {peers : OrderedMap Nat PeerRuntime}
  {rest sent : List PeerAssignment} {cancelled : List (Nat × Nat)}

def Continuity.ledger (c : Continuity ω) : Ledger where
  timeout := c.liveRecovery.requestTimeout
  cursor := c.reasm.nextEmit
  requested := c.scheduler.requested
  flight := c.activePeers.flight
  timer := c.requestedAt.get?
  noted := c.receivedChunks.contains
  complete := c.reasm.complete.contains

def Pool.ledger (s : Pool ω) : Ledger := s.continuity.ledger

/-! ### When a piece is publishable -/

/-- The chunk is stored and is the last one its piece needs. -/
def Completes (r : PieceReassembler) (index chunk chunkLength : Nat) (block : Bytes) : Prop :=
  r.Admitted index (chunk * chunkLength) block ∧
    r.pieceLength ≤ (r.written index (chunk * chunkLength) block).filled

instance (r : PieceReassembler) (index chunk chunkLength : Nat) (block : Bytes) :
    Decidable (Completes r index chunk chunkLength block) := inferInstanceAs (Decidable (_ ∧ _))

/-- The chunk has its shape, and what was stored of the piece before agrees with it. -/
def publishable (r : PieceReassembler) (index chunk chunkLength : Nat) (header : Header)
    (block : Bytes) : Bool :=
  r.geometry chunk chunkLength block &&
    (r.partials.get? index).all fun p =>
      p.live.any fun m => m.eligible && m.header == header && m.chunkLength == chunkLength

theorem eligible_of_publishable {r : PieceReassembler} {index chunk chunkLength : Nat}
    {header : Header} {block : Bytes}
    (h : publishable r index chunk chunkLength header block = true) :
    (r.chunkMetadata index chunk chunkLength header block).eligible = true := by
  simp only [publishable, Bool.and_eq_true] at h
  obtain ⟨hgeometry, hprior⟩ := h
  cases hp : r.partials.get? index with
  | none => simp [PieceReassembler.chunkMetadata, hp, hgeometry]
  | some p =>
    rw [hp, Option.all_some, Option.any_eq_true] at hprior
    obtain ⟨m, hm, hagrees⟩ := hprior
    simp only [Bool.and_eq_true, beq_iff_eq] at hagrees
    simp [PieceReassembler.chunkMetadata, hp, hm, hgeometry, hagrees]

/-! ### Events -/

/-- The piece is complete now and was not before. -/
def completion (l l' : Ledger) (piece : Nat) : List Event :=
  if !l.complete piece && l'.complete piece then [.completed piece] else []

theorem completion_of_eq {l l' : Ledger} {piece : Nat} (h : l'.complete piece = l.complete piece) :
    completion l l' piece = [] := by
  rw [completion, h, Bool.not_and_self, if_neg Bool.false_ne_true]

structure Chunk where
  piece : Nat
  chunk : Nat
  header : Header
  data : Bytes

/-- The chunk that arrives in a step. -/
def Action.chunk? : Action → Option Chunk
  | .receiveChunk piece chunk header data => some ⟨piece, chunk, header, data⟩
  | _ => none

/-- The peer that a step drops. -/
def Action.drops? : Action → Option Nat
  | .dropPeerRuntime id => some id
  | _ => none

def Action.isRound : Action → Bool
  | .requestRound _ _ => true
  | _ => false

namespace Pool

variable (env : Session ω) (s : Pool ω)

/-- What a running pool does in a step, as far as requests are concerned. -/
def poolEvents : Action → List Event
  | .requestRound now refused =>
    if s.mayRequest then
      (s.requestRound now refused).1.map
        (fun x => .assigned x.peerId x.piece (s.continuity.outputClock.now now)) ++ [.round]
    else []
  | .skipFarBehindLive now =>
    (s.continuity.skipFarBehindLive env.stage (s.continuity.outputClock.now now)).1.toList.map .skipped
  | .skipEvictedGap now =>
    (s.continuity.skipEvictedGap env.stage (s.continuity.outputClock.now now)).1.toList.map .skipped
  | .requeueTimedOut now =>
    if s.continuity.playbackHold then []
    else (s.timedOut now).map (.timedOut · (s.continuity.outputClock.now now))
  | .receiveChunk piece chunk header data =>
    completion s.ledger (s.receiveChunk env piece chunk header data).ledger piece
  | _ => []

/-- A new pool may begin behind a gap. -/
def drainEvents : Action → List Event
  | .resume minPiece maxPiece now =>
    let s' := s.resume env minPiece maxPiece now
    if s.ledger.cursor < s'.ledger.cursor then [.skipped s'.ledger.cursor] else []
  | _ => []

def events (a : Action) : List Event :=
  if s.panicked.isSome then []
  else
    match s.mode with
    | .pool => s.poolEvents env a
    | .draining => s.drainEvents env a

/-- If the chunk of the step is the last one of its piece, the piece can be published. -/
def CompletesPublishable (a : Action) : Prop :=
  ∀ x ∈ a.chunk?, Completes s.continuity.reasm x.piece x.chunk env.info.chunkLength x.data →
    publishable s.continuity.reasm x.piece x.chunk env.info.chunkLength x.header x.data = true

instance (a : Action) : Decidable (s.CompletesPublishable env a) :=
  inferInstanceAs (Decidable (∀ x ∈ a.chunk?,
    Completes s.continuity.reasm x.piece x.chunk env.info.chunkLength x.data →
      publishable s.continuity.reasm x.piece x.chunk env.info.chunkLength x.header x.data = true))

def guard (a : Action) : Ledger.Guard where
  publishable := s.CompletesPublishable env a
  drops id := a.drops? = some id
  rounds := a.isRound = true

end Pool

/-! ### Skips and output -/

open Ledger (Step)

namespace Continuity

variable {c : Continuity ω} {stage : OutputStage ω}

theorem ledger_skip {target : Nat} (h : c.reasm.nextEmit < target) (now : Nat) (output : ω) :
    (c.skip target now output).ledger = c.ledger.skip target := by
  have hskip : ¬target ≤ c.reasm.nextEmit := by omega
  ext1
  · rfl
  · simp [ledger, skip, Ledger.skip, PieceReassembler.skipTo, hskip]
  · rfl
  · exact funext fun id => ActivePeers.flight_pruneBelow ..
  · exact funext fun p => OrderedMap.get?_filter_key ..
  · exact funext fun p => OrderedMap.contains_filter_key ..
  · refine funext fun p => ?_
    simp only [ledger, skip, Ledger.skip, PieceReassembler.skipTo, if_neg hskip]
    exact OrderedMap.contains_filter_key ..

/-- A skip goes forward, and only without anything to hold it. -/
theorem skipEvictedGap_spec (stage : OutputStage ω) (c : Continuity ω) (now : Nat) :
    ((c.skipEvictedGap stage now).1 = none ∧ (c.skipEvictedGap stage now).2 = c) ∨
      ∃ target output, c.playbackHold = false ∧ c.reasm.nextEmit < target ∧
        (c.skipEvictedGap stage now).1 = some target ∧
        (c.skipEvictedGap stage now).2 = c.skip target now output := by
  unfold skipEvictedGap
  split
  · exact .inl ⟨rfl, rfl⟩
  next hhold =>
  dsimp only
  split
  · exact .inl ⟨rfl, rfl⟩
  split
  · exact .inl ⟨rfl, rfl⟩
  split
  · exact .inl ⟨rfl, rfl⟩
  · next floor _ hfloor =>
    exact .inr ⟨floor, _, by simpa using hhold, Nat.lt_of_not_le hfloor, rfl, rfl⟩

theorem skipFarBehindLive_spec (stage : OutputStage ω) (c : Continuity ω) (now : Nat) :
    ((c.skipFarBehindLive stage now).1 = none ∧
      ∃ floor, (c.skipFarBehindLive stage now).2 = { c with requestFloor := floor }) ∨
      ∃ target floor output, c.playbackHold = false ∧ c.reasm.nextEmit < target ∧
        (c.skipFarBehindLive stage now).1 = some target ∧
        (c.skipFarBehindLive stage now).2 =
          { c with requestFloor := floor }.skip target now output := by
  unfold skipFarBehindLive
  split
  · exact .inl ⟨rfl, c.requestFloor, rfl⟩
  next hhold =>
  dsimp only
  split
  · exact .inl ⟨rfl, _, rfl⟩
  · next hfar =>
    simp only [PieceReassembler.nextNeeded] at hfar
    exact .inr ⟨_, _, _, by simpa using hhold, by omega, rfl, rfl⟩

end Continuity

/-- The one way the output stage touches the reassembler. -/
theorem prepareOutput_spec {env : Session ω} {c c' : Continuity ω}
    (h : Pool.prepareOutput env c = some c') :
    ∃ done, c.reasm.complete.get? c.reasm.nextEmit = some done ∧
      ∃ pendingOutput output, c' =
        { c with
          reasm :=
            { c.reasm with
              nextEmit := c.reasm.nextEmit + 1
              complete := c.reasm.complete.erase c.reasm.nextEmit }
          publication := c.publication.erase c.reasm.nextEmit
          pendingOutput := pendingOutput
          output := output } := by
  unfold Pool.prepareOutput PieceReassembler.takeReadyPiece at h
  cases hnext : checkedAdd c.reasm.nextEmit 1 with
  | none => simp [hnext] at h
  | some next =>
    cases hdone : c.reasm.complete.get? c.reasm.nextEmit with
    | none => simp [hnext, hdone] at h
    | some done =>
      obtain ⟨-, rfl⟩ := checkedAdd_eq_some.mp hnext
      simp only [hnext, hdone, Option.some.injEq] at h
      exact ⟨done, rfl, _, _, h.symm⟩

theorem ledger_prepareOutput {env : Session ω} {c c' : Continuity ω}
    (h : Pool.prepareOutput env c = some c') : c'.ledger = c.ledger.take := by
  obtain ⟨done, -, pendingOutput, output, rfl⟩ := prepareOutput_spec h
  ext1
  · rfl
  · rfl
  · rfl
  · rfl
  · rfl
  · rfl
  · funext p
    simp only [Continuity.ledger, Ledger.take, OrderedMap.contains, OrderedMap.get?_erase,
      Function.update_apply]
    split <;> rfl

/-- What the output stage does besides is outside the ledger. -/
theorem ledger_sendOutput (c : Continuity ω) (now : Nat) :
    (Pool.sendOutput c now).ledger = c.ledger := by
  unfold Pool.sendOutput
  split
  · rfl
  · dsimp only
    split
    · rfl
    · rfl

theorem finishOutputStep_ledger (env : Session ω) (g : Ledger.Guard) (c : Continuity ω)
    (now : Nat) :
    Step g c.ledger [] (Pool.finishOutputStep env c now).ledger := by
  unfold Pool.finishOutputStep
  split
  · split
    · exact .same
    split
    · exact .same
    · next c' hc' =>
      have hledger : (if c'.pendingOutput.isEmpty = true then Pool.idleOutput c' now
          else Pool.sendOutput c' now).ledger = c.ledger.take := by
        rw [← ledger_prepareOutput hc']
        split
        · rfl
        · exact ledger_sendOutput c' now
      rw [hledger]
      exact .take
  · rw [ledger_sendOutput]
    exact .same

/-! ### Rounds of requests -/

/-- What sending a round leaves: the requests that were sent have a timer, the others are taken out
of the books. -/
structure Sending (now : Nat) (out : List PeerAssignment) (s : Pool ω) (sent : List PeerAssignment)
    (cancelled : List (Nat × Nat)) (s' : Pool ω) : Prop where
  perm : (sent.map PeerAssignment.pair ++ cancelled).Perm (out.map PeerAssignment.pair)
  frame : ∃ peers activePeers scheduler requestedAt, s' =
    { s with
      peers := peers
      continuity :=
        { s.continuity with
          activePeers := activePeers
          scheduler := scheduler
          requestedAt := requestedAt } }
  requested : s'.ledger.requested = s.ledger.requested \ (cancelled.map (·.2)).toFinset
  flight : ∀ id, s'.ledger.flight id = s.ledger.flight id \ ActivePeers.given cancelled id
  timer : ∀ p, s'.ledger.timer p =
    if p ∈ sent.map (·.piece) then some ((s.ledger.timer p).getD now) else s.ledger.timer p

theorem Sending.nil (now : Nat) (s : Pool ω) : Sending now [] s [] [] s where
  perm := .nil
  frame := ⟨_, _, _, _, rfl⟩
  requested := by simp
  flight id := by simp [ActivePeers.given]
  timer p := by simp

theorem Sending.cancel {now id piece : Nat} {s s' : Pool ω}
    (H : Sending now rest
      { s with
        peers := peers
        continuity :=
          { s.continuity with
            activePeers := s.continuity.activePeers.cancelAssignment id piece
            scheduler := s.continuity.scheduler.onDrop piece } } sent cancelled s') :
    Sending now (⟨id, piece⟩ :: rest) s sent ((id, piece) :: cancelled) s' where
  perm := List.perm_middle.trans (.cons _ H.perm)
  frame := by
    obtain ⟨peers, activePeers, scheduler, requestedAt, rfl⟩ := H.frame
    exact ⟨_, _, _, _, rfl⟩
  requested := by
    rw [H.requested]
    ext p
    simp [Pool.ledger, Continuity.ledger, Scheduler.onDrop]
    tauto
  flight i := by
    rw [H.flight]
    ext p
    simp only [Pool.ledger, Continuity.ledger, ActivePeers.flight_cancelAssignment, Finset.mem_sdiff,
      ActivePeers.mem_given, List.mem_cons, Prod.mk.injEq]
    split
    · simp only [Finset.mem_erase]
      tauto
    · tauto
  timer := H.timer

theorem Sending.send {now id piece : Nat} {s s' : Pool ω}
    (H : Sending now rest
      { s with
        peers := peers
        continuity :=
          { s.continuity with
            requestedAt := s.continuity.requestedAt.insert piece
              ((s.continuity.requestedAt.get? piece).getD now) } } sent cancelled s') :
    Sending now (⟨id, piece⟩ :: rest) s (⟨id, piece⟩ :: sent) cancelled s' where
  perm := .cons _ H.perm
  frame := by
    obtain ⟨peers, activePeers, scheduler, requestedAt, rfl⟩ := H.frame
    exact ⟨_, _, _, _, rfl⟩
  requested := H.requested
  flight := H.flight
  timer p := by
    rw [H.timer]
    simp only [Pool.ledger, Continuity.ledger, OrderedMap.get?_insert, List.map_cons, List.mem_cons]
    by_cases hp : p = piece
    · subst hp
      by_cases hm : p ∈ sent.map (·.piece) <;> simp [hm]
    · simp [hp]

theorem sendRequests_spec (now : Nat) (refused : List (Nat × Nat)) (out : List PeerAssignment)
    (failed : List Nat) (s : Pool ω) :
    ∃ cancelled, Sending now out s (Pool.sendRequests now refused out failed s).1 cancelled
      (Pool.sendRequests now refused out failed s).2 := by
  induction out generalizing failed s with
  | nil => exact ⟨[], .nil now s⟩
  | cons x rest ih =>
    obtain ⟨id, piece⟩ := x
    unfold Pool.sendRequests
    dsimp only
    split
    · next peer hpeer =>
      split
      · obtain ⟨cancelled, H⟩ := ih failed
          { s with
            peers := s.peers.insert id peer.trySend.2
            continuity :=
              { s.continuity with
                requestedAt := s.continuity.requestedAt.insert piece
                  ((s.continuity.requestedAt.get? piece).getD now) } }
        exact ⟨cancelled, H.send⟩
      · obtain ⟨cancelled, H⟩ := ih (id :: failed)
          { s with
            peers := s.peers.insert id { peer with closed := true }
            continuity :=
              { s.continuity with
                activePeers := s.continuity.activePeers.cancelAssignment id piece
                scheduler := s.continuity.scheduler.onDrop piece } }
        exact ⟨(id, piece) :: cancelled, H.cancel⟩
    · obtain ⟨cancelled, H⟩ := ih failed
        { s with
          continuity :=
            { s.continuity with
              activePeers := s.continuity.activePeers.cancelAssignment id piece
              scheduler := s.continuity.scheduler.onDrop piece } }
      exact ⟨(id, piece) :: cancelled, H.cancel⟩

/-- What a round does, in terms of the scheduler's choice. -/
theorem requestRound_spec (s : Pool ω) (now : Nat) (refused : List (Nat × Nat)) :
    ∃ ceiling activePeers scheduler cancelled,
      let out := s.continuity.scheduler.walk s.continuity.reasm.nextNeeded s.continuity.head
        s.continuity.activePeers.views (some s.queueSlots) |>.out
      let s' : Pool ω :=
        { s with
          continuity := { s.continuity with activePeers := activePeers, scheduler := scheduler } }
      s.continuity.activePeers.Assigned s.continuity.scheduler s.continuity.reasm.nextNeeded ceiling
        out activePeers scheduler ∧
      Sending (s.continuity.outputClock.now now) (out.map fun x => ⟨x.1, x.2⟩) s'
        (s.requestRound now refused).1 cancelled (s.requestRound now refused).2 := by
  obtain ⟨hout, A⟩ := s.continuity.activePeers.assignInner_spec s.continuity.scheduler
    s.continuity.reasm.nextNeeded s.continuity.head (some s.queueSlots)
  obtain ⟨cancelled, H⟩ := sendRequests_spec (s.continuity.outputClock.now now) refused
    s.assignments.1 [] s.assignments.2
  refine ⟨_, _, _, cancelled, A, ?_⟩
  have hassigned : s.assignments.1 = _ := hout
  rw [hassigned] at H
  unfold Pool.requestRound
  rw [hassigned]
  exact H

theorem map_pair (out : List (Nat × Nat)) :
    (out.map fun x => (⟨x.1, x.2⟩ : PeerAssignment)).map PeerAssignment.pair = out := by
  rw [List.map_map]
  exact List.map_id out

/-- What a round sends is among what the scheduler chose. -/
theorem mem_walk_of_mem_requestRound {s : Pool ω} {now : Nat} {refused : List (Nat × Nat)}
    {x : PeerAssignment} (hx : x ∈ (s.requestRound now refused).1) :
    x.pair ∈ (s.continuity.scheduler.walk s.continuity.reasm.nextNeeded s.continuity.head
      s.continuity.activePeers.views (some s.queueSlots)).out := by
  obtain ⟨_, _, _, _, -, H⟩ := requestRound_spec s now refused
  have hperm := H.perm
  rw [map_pair] at hperm
  exact hperm.subset (List.mem_append_left _ (List.mem_map_of_mem hx))

theorem requestRound_ledger (s : Pool ω) (now : Nat) (refused : List (Nat × Nat)) (g : Ledger.Guard)
    (hg : g.rounds) :
    Step g s.ledger
      ((s.requestRound now refused).1.map
        (fun x => .assigned x.peerId x.piece (s.continuity.outputClock.now now)) ++ [.round])
      (s.requestRound now refused).2.ledger := by
  obtain ⟨ceiling, activePeers, scheduler, cancelled, A, H⟩ := requestRound_spec s now refused
  set out := (s.continuity.scheduler.walk s.continuity.reasm.nextNeeded s.continuity.head
    s.continuity.activePeers.views (some s.queueSlots)).out with hout
  set sent := (s.requestRound now refused).1.map PeerAssignment.pair with hsent
  have hperm : (sent ++ cancelled).Perm out := by
    have := H.perm
    rwa [map_pair] at this
  have hmem : ∀ x, x ∈ out ↔ x ∈ sent ∨ x ∈ cancelled := fun x =>
    hperm.symm.mem_iff.trans List.mem_append
  have hnodup : ((sent ++ cancelled).map (·.2)).Nodup := by
    apply (hperm.map _).nodup_iff.mpr
    exact List.Pairwise.map _ (fun _ _ h => Nat.ne_of_lt h) A.distinct
  have hpieces : (s.requestRound now refused).1.map (·.piece) = sent.map (·.2) := by
    rw [hsent, List.map_map]
    rfl
  have hevents : ((s.requestRound now refused).1.map
      fun x => Event.assigned x.peerId x.piece (s.continuity.outputClock.now now)) =
      sent.map fun x => .assigned x.1 x.2 (s.continuity.outputClock.now now) := by
    rw [hsent, List.map_map]
    rfl
  -- a piece is chosen once, so it is sent or cancelled but not both
  have hdisjoint : ∀ p, p ∈ sent.map (·.2) → p ∉ cancelled.map (·.2) := by
    rw [List.map_append] at hnodup
    exact fun p hp hp' => (List.nodup_append.mp hnodup).2.2 p hp p hp' rfl
  have hledger : (s.requestRound now refused).2.ledger =
      s.ledger.round (s.continuity.outputClock.now now) sent cancelled := by
    obtain ⟨peers, activePeers', scheduler', requestedAt', hframe⟩ := H.frame
    ext1
    · rw [hframe]
      rfl
    · rw [hframe]
      rfl
    · ext p
      rw [H.requested]
      simp only [Pool.ledger, Continuity.ledger, Ledger.round, Finset.mem_sdiff, Finset.mem_union,
        List.mem_toFinset, A.requested]
      constructor
      · rintro ⟨hold | ⟨x, hx, rfl⟩, hnot⟩
        · exact .inl (Finset.mem_filter.mpr hold)
        · rcases (hmem x).mp hx with hx | hx
          · exact .inr (List.mem_map_of_mem hx)
          · exact absurd (List.mem_map_of_mem hx) hnot
      · rintro (hold | hp)
        · have hold := Finset.mem_filter.mp hold
          refine ⟨.inl hold, fun hp => ?_⟩
          obtain ⟨x, hx, rfl⟩ := List.mem_map.mp hp
          exact A.fresh x ((hmem x).mpr (.inr hx)) hold.1
        · refine ⟨.inr ?_, hdisjoint p hp⟩
          obtain ⟨x, hx, rfl⟩ := List.mem_map.mp hp
          exact ⟨x, (hmem x).mpr (.inl hx), rfl⟩
    · funext id
      rw [H.flight]
      ext p
      simp only [Pool.ledger, Continuity.ledger, Ledger.round, A.flight, Finset.mem_sdiff,
        Finset.mem_union, ActivePeers.mem_given, hmem]
      have hboth : (id, p) ∈ sent → (id, p) ∉ cancelled := fun h h' =>
        hdisjoint p (List.mem_map_of_mem h) (List.mem_map_of_mem h')
      tauto
    · funext p
      rw [H.timer, hpieces]
      rfl
    · rw [hframe]
      rfl
    · rw [hframe]
      rfl
  rw [hledger, hevents]
  refine .round hg (fun x hx => ?_) hnodup
  have hx := hperm.mem_iff.mp hx
  exact ⟨(A.range x hx).1, A.fresh x hx⟩

/-! ### Timers -/

theorem ledger_requeue (pieces : List Nat) (c : Continuity ω) :
    (pieces.foldl (fun c piece =>
      { c with scheduler := c.scheduler.onDrop piece, requestedAt := c.requestedAt.erase piece })
      c).ledger =
      { c.ledger with
        requested := c.ledger.requested \ pieces.toFinset
        timer := fun p => if p ∈ pieces then none else c.ledger.timer p } := by
  induction pieces generalizing c with
  | nil => simp
  | cons piece pieces ih =>
    rw [List.foldl_cons, ih]
    ext1
    · rfl
    · rfl
    · ext p
      simp [Continuity.ledger, Scheduler.onDrop]
      tauto
    · rfl
    · funext p
      simp only [Continuity.ledger, OrderedMap.get?_erase, List.mem_cons]
      by_cases hp : p = piece <;> simp [hp]
    · rfl
    · rfl

theorem mem_timedOut {s : Pool ω} {now p : Nat} : p ∈ s.timedOut now ↔
    s.ledger.cursor ≤ p ∧ ∃ sent, s.ledger.timer p = some sent ∧
      s.continuity.liveRecovery.requestTimeout ≤ s.continuity.outputClock.now now - sent := by
  simp only [Pool.timedOut, Continuity.timedOutRequests, OrderedMap.mem_keys,
    OrderedMap.get?_filter_eq_some, OrderedMap.get?_filter_key, decide_eq_true_eq]
  constructor
  · rintro ⟨sent, hget, hage⟩
    split at hget
    · next hle => exact ⟨hle, sent, hget, hage⟩
    · cases hget
  · rintro ⟨hle, sent, hget, hage⟩
    exact ⟨sent, (if_pos hle).trans hget, hage⟩

theorem requeueTimedOut_ledger (s : Pool ω) (now : Nat) (g : Ledger.Guard) :
    Step g s.ledger ((s.timedOut now).map (.timedOut · (s.continuity.outputClock.now now)))
      (s.requeueTimedOut now).ledger := by
  have hledger : (s.requeueTimedOut now).ledger = s.ledger.requeue (s.timedOut now) := by
    apply (ledger_requeue _ _).trans
    ext1
    · rfl
    · rfl
    · rfl
    · rfl
    · funext p
      have hfilter : (s.continuity.timedOutRequests (s.continuity.outputClock.now now)).2.ledger.timer p =
          if s.ledger.cursor ≤ p then s.ledger.timer p else none := OrderedMap.get?_filter_key ..
      simp only [hfilter, Ledger.requeue]
      by_cases hp : p ∈ s.timedOut now
      · simp [hp]
      · by_cases hle : s.ledger.cursor ≤ p
        · simp [hp, hle, Nat.not_lt.mpr hle]
        · simp [hle, Nat.lt_of_not_le hle]
    · rfl
    · rfl
  rw [hledger]
  refine .requeue fun p hp => ?_
  obtain ⟨-, sent, hget, hage⟩ := mem_timedOut.mp hp
  exact ⟨sent, hget, hage⟩

theorem flight_release (timers : OrderedMap Nat Nat) (pieces : List Nat) (a : ActivePeers)
    (id : Nat) :
    (pieces.foldl (fun a piece => if timers.contains piece then a else a.completeEverywhere piece)
      a).flight id = a.flight id \ (pieces.filter fun p => !timers.contains p).toFinset := by
  induction pieces generalizing a with
  | nil => simp
  | cons piece pieces ih =>
    rw [List.foldl_cons, ih]
    ext p
    by_cases hpiece : timers.contains piece = true
    · simp [hpiece]
    · simp [hpiece]
      tauto

theorem releaseUnserved_ledger (s : Pool ω) (pieces : List Nat) (g : Ledger.Guard) :
    Step g s.ledger [] (s.releaseUnserved pieces).ledger := by
  have hledger : (s.releaseUnserved pieces).ledger = s.ledger.release
      (pieces.filter fun p => !s.continuity.requestedAt.contains p).toFinset := by
    ext1
    · rfl
    · rfl
    · rfl
    · exact funext fun id => flight_release ..
    · rfl
    · rfl
    · rfl
  rw [hledger]
  exact .release

/-! ### Peers -/

theorem dropPeerRuntime_ledger (s : Pool ω) (id : Nat) (g : Ledger.Guard) (hg : g.drops id) :
    Step g s.ledger [] (s.dropPeerRuntime id).ledger := by
  by_cases hid : s.peers.contains id = true
  · have hledger : (s.dropPeerRuntime id).ledger = s.ledger.drop id := by
      rw [Pool.dropPeerRuntime, if_pos hid]
      ext1
      · rfl
      · rfl
      · rfl
      · funext i
        apply (ActivePeers.flight_remove ..).trans
        simp only [Ledger.drop, Function.update_apply]
        rfl
      · rfl
      · rfl
      · rfl
    rw [hledger]
    exact .drop hg
  · rw [Pool.dropPeerRuntime, if_neg hid]
    exact .same

theorem commitUpstreamPeer_ledger (s : Pool ω) (id addr : Nat) (window : LivePosition)
    (unchoked : Bool) (g : Ledger.Guard) :
    Step g s.ledger [] (s.commitUpstreamPeer id addr window unchoked).ledger := by
  have hledger : (s.commitUpstreamPeer id addr window unchoked).ledger = s.ledger.join id := by
    ext1
    · rfl
    · rfl
    · rfl
    · funext i
      simp only [Pool.ledger, Continuity.ledger, Pool.commitUpstreamPeer,
        ActivePeers.flight_setUnchoked, ActivePeers.flight_insert, Ledger.join, Function.update_apply]
    · rfl
    · rfl
    · rfl
  rw [hledger]
  exact .join

namespace Continuity

variable (c : Continuity ω) (piece : Nat)

theorem ledger_settle : (c.settle piece).ledger = c.ledger.settle piece := by
  ext1
  · rfl
  · rfl
  · rfl
  · exact funext fun id => ActivePeers.flight_completeEverywhere ..
  · exact OrderedMap.get?_erase_update ..
  · exact OrderedMap.contains_erase ..
  · rfl

theorem ledger_releaseRejectedPiece :
    (c.releaseRejectedPiece piece).ledger = c.ledger.settle piece := by
  ext1
  · rfl
  · rfl
  · rfl
  · exact funext fun id => ActivePeers.flight_completeEverywhere ..
  · exact OrderedMap.get?_erase_update ..
  · exact OrderedMap.contains_erase ..
  · rfl

/-- Noting a chunk ends the requests of the piece, or remembers the chunk. -/
theorem ledger_noteChunk (chunk chunksPerPiece : Nat) :
    (c.noteChunk piece chunk chunksPerPiece).2.ledger = c.ledger.settle piece ∨
      (c.noteChunk piece chunk chunksPerPiece).2.ledger = c.ledger.note piece := by
  unfold noteChunk
  dsimp only
  split
  · exact .inl (c.ledger_settle piece)
  · refine .inr ?_
    ext1
    · rfl
    · rfl
    · rfl
    · rfl
    · rfl
    · exact OrderedMap.contains_insert ..
    · rfl

end Continuity

theorem noteCompleted_frame (c : Continuity ω) (piece : Nat) :
    ∃ publication, Pool.noteCompleted c piece = { c with publication := publication } := by
  unfold Pool.noteCompleted
  split
  · split
    · exact ⟨_, rfl⟩
    · exact ⟨_, rfl⟩
  · exact ⟨_, rfl⟩

/-- What noting the outcome of a chunk leaves alone. -/
theorem noteOutcome_frame (c : Continuity ω) (piece chunk chunksPerPiece : Nat)
    (outcome : LiveBlockOutcome) :
    ∃ receivedChunks scheduler activePeers requestedAt,
      Pool.noteOutcome c piece chunk chunksPerPiece outcome =
        { if outcome.completed then Pool.noteCompleted c piece else c with
          receivedChunks := receivedChunks
          scheduler := scheduler
          activePeers := activePeers
          requestedAt := requestedAt } := by
  unfold Pool.noteOutcome
  dsimp only
  generalize (if outcome.completed = true then Pool.noteCompleted c piece else c) = c₁
  split
  · unfold Continuity.noteChunk
    dsimp only
    split
    · exact ⟨_, _, _, _, rfl⟩
    · exact ⟨_, _, _, _, rfl⟩
  · split
    · exact ⟨_, _, _, _, rfl⟩
    · exact ⟨_, _, _, _, rfl⟩

theorem noteOutcome_reasm (c : Continuity ω) (piece chunk chunksPerPiece : Nat)
    (outcome : LiveBlockOutcome) :
    (Pool.noteOutcome c piece chunk chunksPerPiece outcome).reasm = c.reasm := by
  obtain ⟨_, _, _, _, hframe⟩ := noteOutcome_frame c piece chunk chunksPerPiece outcome
  obtain ⟨publication, hcompleted⟩ := noteCompleted_frame c piece
  rw [hframe, hcompleted]
  split
  · rfl
  · rfl

/-- The request books after a chunk that did not complete its piece. -/
theorem noteOutcome_pending {c : Continuity ω} {piece : Nat} (chunk chunksPerPiece : Nat)
    (contributed : Bool) (hl : c.ledger = l) (hcursor : l.cursor ≤ piece)
    (hcontributed : contributed = true → l.complete piece = false) (g : Ledger.Guard) :
    let c' := Pool.noteOutcome c piece chunk chunksPerPiece ⟨contributed, false⟩
    Step g l (completion l c'.ledger piece) c'.ledger := by
  intro c'
  subst hl
  have hcomplete : c'.ledger.complete piece = c.ledger.complete piece :=
    congrArg (·.complete.contains piece) (noteOutcome_reasm ..)
  rw [completion_of_eq hcomplete]
  cases contributed with
  | true =>
    have hnote : c'.ledger = (c.noteChunk piece chunk chunksPerPiece).2.ledger := rfl
    rcases c.ledger_noteChunk piece chunk chunksPerPiece with h | h
    · rw [hnote, h]
      exact .settle
    · rw [hnote, h]
      exact .note hcursor (hcontributed rfl)
  | false =>
    have hsettle : c'.ledger =
        if (c.reasm.completedLivePiece piece).isSome then (c.settle piece).ledger else c.ledger := by
      rw [← apply_ite Continuity.ledger]
      rfl
    rw [hsettle]
    split
    · rw [c.ledger_settle piece]
      exact .settle
    · exact .same

/-- The request books after the last chunk of a piece. -/
theorem noteOutcome_completed {c : Continuity ω} {piece : Nat} (chunk chunksPerPiece : Nat)
    (contributed : Bool) (hl : c.ledger = l.finish piece) (hcursor : l.cursor ≤ piece)
    (hnew : l.complete piece = false) {g : Ledger.Guard}
    (hg : g.publishable → (c.reasm.completedLivePiece piece).isSome = true) :
    let c' := Pool.noteOutcome c piece chunk chunksPerPiece ⟨contributed, true⟩
    Step g l (completion l c'.ledger piece) c'.ledger := by
  intro c'
  have hcomplete : c'.ledger.complete = (l.finish piece).complete := by
    rw [← hl]
    exact congrArg (·.complete.contains) (noteOutcome_reasm ..)
  have hevent : completion l c'.ledger piece = [.completed piece] := by
    simp [completion, hcomplete, hnew, Ledger.finish]
  have hledger : c'.ledger =
      if (c.reasm.completedLivePiece piece).isSome then c.ledger.settle piece else c.ledger := by
    obtain ⟨publication, hframe⟩ := noteCompleted_frame c piece
    simp only [c', Pool.noteOutcome, if_true, hframe, Bool.not_true, Bool.and_false,
      Bool.false_eq_true, if_false]
    split
    · exact Continuity.ledger_settle ..
    · rfl
  rw [hevent, hledger]
  split
  · rw [hl]
    exact .completed hcursor
  · next hnot =>
    rw [hl]
    exact .unpublishable (fun h => hnot (hg h)) hcursor

theorem receiveChunk_of_not_ignores (env : Session ω) {s : Pool ω} {piece : Nat} (chunk : Nat)
    (header : Header) (data : Bytes) (h : ¬s.ignores piece = true) :
    s.receiveChunk env piece chunk header data =
      match s.continuity.reasm.addLiveChunk env.auth piece chunk env.info.chunkLength header data with
      | (.error _, reasm) =>
        { s with continuity := { s.continuity with reasm := reasm }.releaseRejectedPiece piece }
      | (.ok outcome, reasm) =>
        { s with
          continuity := Pool.noteOutcome { s.continuity with reasm := reasm } piece chunk
            env.info.chunksPerPiece outcome } := by
  simp only [Pool.receiveChunk]
  exact if_neg h

theorem receiveChunk_ledger (env : Session ω) (s : Pool ω) (piece chunk : Nat) (header : Header)
    (data : Bytes) (g : Ledger.Guard)
    (hg : g.publishable → s.CompletesPublishable env (.receiveChunk piece chunk header data)) :
    let s' := s.receiveChunk env piece chunk header data
    Step g s.ledger (completion s.ledger s'.ledger piece) s'.ledger := by
  intro s'
  by_cases hignored : s.ignores piece = true
  · have hsame : s' = s := by
      simp only [s', Pool.receiveChunk]
      exact if_pos hignored
    rw [hsame, completion_of_eq rfl]
    exact .same
  have hcursor : s.ledger.cursor ≤ piece := by
    simp only [Pool.ignores, Bool.or_eq_true, not_or, decide_eq_true_eq, Nat.not_lt] at hignored
    exact hignored.2
  have hspec := PieceReassembler.addLiveChunk_spec env.auth s.continuity.reasm piece chunk
    env.info.chunkLength header data
  have hreceive : s' = _ := receiveChunk_of_not_ignores env chunk header data hignored
  clear_value s'
  generalize hadd : s.continuity.reasm.addLiveChunk env.auth piece chunk env.info.chunkLength header
    data = result at hspec hreceive
  obtain ⟨reply, r'⟩ := result
  dsimp only at hspec hreceive
  subst hreceive
  have hreject : ∀ {r' : PieceReassembler}, ({ s.continuity with reasm := r' } : Continuity ω).ledger =
      s.ledger →
      let l' := ({ s.continuity with reasm := r' }.releaseRejectedPiece piece).ledger
      Step g s.ledger (completion s.ledger l' piece) l' := by
    intro r' heq l'
    have hl' : l' = s.ledger.settle piece := by
      rw [← heq]
      exact Continuity.ledger_releaseRejectedPiece ..
    have hnone : completion s.ledger (s.ledger.settle piece) piece = [] := completion_of_eq rfl
    rw [hl', hnone]
    exact .settle
  cases hspec with
  | settled =>
    apply noteOutcome_pending (c := s.continuity) chunk env.info.chunksPerPiece false rfl hcursor
    intro h
    cases h
  | overflow => exact hreject rfl
  | failed _ hblock =>
    cases hblock with
    | rejected => exact hreject rfl
    | failed => exact hreject rfl
  | added hs hblock =>
    have hincomplete : s.continuity.reasm.complete.contains piece = false := by
      simp only [PieceReassembler.settled, Bool.or_eq_false_iff] at hs
      exact hs.2
    cases hblock with
    | settled h =>
      rw [hs] at h
      cases h
    | wrote =>
      simp only [hincomplete]
      refine noteOutcome_pending chunk _ _ ?_ hcursor (fun _ => hincomplete) g
      ext1
      · rfl
      · exact PieceReassembler.setLive_nextEmit ..
      · rfl
      · rfl
      · rfl
      · rfl
      · exact PieceReassembler.setLive_contains ..
    | completed hadm hfull =>
      have hnow : (s.continuity.reasm.complete.insert piece
          ⟨(s.continuity.reasm.written piece (chunk * env.info.chunkLength) data).buf, none⟩).contains
          piece = true := by rw [OrderedMap.contains_insert, Function.update_self]
      simp only [hnow]
      refine noteOutcome_completed chunk _ _ ?_ hcursor hincomplete fun hp => ?_
      · ext1
        · rfl
        · exact PieceReassembler.setLive_nextEmit ..
        · rfl
        · rfl
        · rfl
        · rfl
        · exact (PieceReassembler.setLive_contains ..).trans (OrderedMap.contains_insert ..)
      · exact (PieceReassembler.completedLivePiece_setLive _ hnow).trans
          (eligible_of_publishable (hg hp _ rfl ⟨hadm, hfull⟩))

/-! ### Every step -/

/-- Polling the store touches nothing but the publication. -/
theorem pollOperation_frame {op op' : Option PublicationOperation} {c c' : Continuity ω}
    {reply : StoreReply} (h : pollOperation op c reply = .ok (op', c')) :
    ∃ publication, c' = { c with publication := publication } := by
  have hterminal : ∀ {piece : Nat} {result : Option CompletePut},
      (terminal c piece result).map (fun c => ((none : Option PublicationOperation), c)) =
        .ok (op', c') → ∃ publication, c' = { c with publication := publication } := by
    intro piece result h
    unfold terminal at h
    split at h
    · simp only [Except.map, Except.ok.injEq, Prod.mk.injEq] at h
      exact ⟨_, h.2.symm⟩
    · cases h
  unfold pollOperation at h
  split at h
  · exact hterminal h
  · split at h
    · split at h
      · cases h
        exact ⟨_, rfl⟩
      · exact hterminal h
    · cases h
  · cases h
    exact ⟨_, rfl⟩
  · exact hterminal h
  · cases h
    exact ⟨_, rfl⟩

theorem stepShared_ledger (env : Session ω) (s : Pool ω) (a : Action) (g : Ledger.Guard) :
    Step g s.ledger [] (s.stepShared env a).ledger := by
  cases a with
  | startPublication =>
    simp only [Pool.stepShared, Pool.startPublication]
    split
    · exact .same
    · exact .same
  | pollPublication reply =>
    simp only [Pool.stepShared, Pool.pollPublication]
    split
    · next op c hpoll =>
      obtain ⟨publication, rfl⟩ := pollOperation_frame hpoll
      exact .same
    · exact .same
  | startOutput now =>
    simp only [Pool.stepShared, Pool.startOutput]
    split
    · exact .same
    · exact .same
  | finishOutput now producers =>
    simp only [Pool.stepShared, Pool.finishOutput]
    split
    · exact finishOutputStep_ledger env g s.continuity now
    · exact .same
  | _ => exact .same

theorem skipFarBehindLive_ledger (env : Session ω) (s : Pool ω) (now : Nat) (g : Ledger.Guard) :
    Step g s.ledger (s.poolEvents env (.skipFarBehindLive now)) (s.skipFarBehindLive env now).ledger := by
  simp only [Pool.poolEvents, Pool.skipFarBehindLive]
  obtain ⟨hnone, floor, heq⟩ | ⟨target, floor, output, -, hlt, hsome, heq⟩ :=
    s.continuity.skipFarBehindLive_spec env.stage (s.continuity.outputClock.now now)
  · rw [hnone, heq]
    exact .same
  · rw [hsome, heq]
    exact .of_eq (Continuity.ledger_skip hlt (s.continuity.outputClock.now now) output) (.skip hlt)

theorem skipEvictedGap_ledger (env : Session ω) (s : Pool ω) (now : Nat) (g : Ledger.Guard) :
    Step g s.ledger (s.poolEvents env (.skipEvictedGap now)) (s.skipEvictedGap env now).ledger := by
  simp only [Pool.poolEvents, Pool.skipEvictedGap]
  obtain ⟨hnone, heq⟩ | ⟨target, output, -, hlt, hsome, heq⟩ :=
    s.continuity.skipEvictedGap_spec env.stage (s.continuity.outputClock.now now)
  · rw [hnone, heq]
    exact .same
  · rw [hsome, heq]
    exact .of_eq (Continuity.ledger_skip hlt (s.continuity.outputClock.now now) output) (.skip hlt)

theorem forgetPeers_spec {c : Continuity ω} (maxPiece now : Nat)
    (hidle : c.hasDeliveryWork = false) :
    let c' := c.forgetPeers maxPiece now
    c'.ledger = c.ledger.reset ∧ c'.reasm = c.reasm ∧ c'.publication = c.publication ∧
      c'.playbackHold = c.playbackHold ∧ c'.pendingOutput = c.pendingOutput := by
  intro c'
  have hwork : Continuity.hasDeliveryWork
      { c with
        head := max c.head maxPiece
        scheduler := c.scheduler.clearInFlight
        activePeers := .new
        receivedChunks := ∅ } = false := hidle
  simp only [c', Continuity.forgetPeers, hwork]
  exact ⟨rfl, rfl, rfl, rfl, rfl⟩

theorem resumeAt_spec (stage : OutputStage ω) {c : Continuity ω} (h : c.ledger = l.reset)
    {target : Nat} (hlt : c.reasm.nextEmit < target) : let c' := c.resumeAt stage target
    c'.ledger = l.reset.skip target ∧ c'.reasm = c.reasm.skipTo target ∧
      c'.publication = c.publication.filter fun piece _ => decide (target ≤ piece) := by
  intro c'
  have hc' : c' =
      { c with
        reasm := c.reasm.skipTo target
        publication := c.publication.filter fun piece _ => decide (target ≤ piece)
        output := stage.armOutputGate c.output } := if_pos hlt
  have hskip : ¬target ≤ c.reasm.nextEmit := Nat.not_le.mpr hlt
  have hreasm : c.reasm.skipTo target =
      { c.reasm with
        nextEmit := target
        partials := c.reasm.partials.filter fun idx _ => decide (target ≤ idx)
        complete := c.reasm.complete.filter fun idx _ => decide (target ≤ idx) } := if_neg hskip
  refine ⟨?_, by rw [hc'], by rw [hc']⟩
  rw [hc', hreasm]
  have htimeout := congrArg Ledger.timeout h
  have hrequested := congrArg Ledger.requested h
  have hflight := congrArg Ledger.flight h
  have htimer := congrArg Ledger.timer h
  have hnoted := congrArg Ledger.noted h
  ext1
  · exact htimeout
  · rfl
  · exact hrequested
  · exact hflight.trans (funext fun id => (Finset.filter_empty _).symm)
  · exact htimer.trans (funext fun p => (ite_self _).symm)
  · exact hnoted.trans (funext fun p => (Bool.and_false _).symm)
  · rw [← h]
    exact funext fun p => OrderedMap.contains_filter_key ..

/-- What a new pool finds: no requests, and the cursor where it was or behind a gap. -/
theorem resumeWithPolicy_spec (stage : OutputStage ω) {c : Continuity ω}
    (minPiece maxPiece now : Nat) (hidle : c.hasDeliveryWork = false) :
    let c' := c.resumeWithPolicy stage minPiece maxPiece now
    (c'.ledger = c.ledger.reset ∧ c'.reasm = c.reasm ∧ c'.publication = c.publication ∧
        c'.pendingOutput = c.pendingOutput) ∨
      ∃ target, c.playbackHold = false ∧ c.reasm.nextEmit < target ∧
        c'.ledger = c.ledger.reset.skip target ∧ c'.reasm = c.reasm.skipTo target ∧
        c'.publication = c.publication.filter fun piece _ => decide (target ≤ piece) := by
  obtain ⟨hledger, hreasm, hpublication, hhold, hpending⟩ := forgetPeers_spec maxPiece now hidle
  unfold Continuity.resumeWithPolicy
  dsimp only
  generalize htarget : (if (c.forgetPeers maxPiece now).playbackHold = true then
    (c.forgetPeers maxPiece now).reasm.nextNeeded
    else max (c.forgetPeers maxPiece now).reasm.nextNeeded minPiece) = target
  by_cases hlt : (c.forgetPeers maxPiece now).reasm.nextEmit < target
  · obtain ⟨hl', hr', hp'⟩ := resumeAt_spec stage hledger hlt
    rw [hreasm] at hlt hr'
    rw [hpublication] at hp'
    refine .inr ⟨target, ?_, hlt, hl', hr', hp'⟩
    rw [← hhold, ← Bool.not_eq_true]
    intro hheld
    rw [if_pos hheld, hreasm] at htarget
    exact absurd (htarget ▸ hlt) (Nat.lt_irrefl _)
  · have hsame : (c.forgetPeers maxPiece now).resumeAt stage target = c.forgetPeers maxPiece now :=
      if_neg hlt
    rw [hsame]
    exact .inl ⟨hledger, hreasm, hpublication, hpending⟩

theorem resume_ledger (env : Session ω) (s : Pool ω) (minPiece maxPiece now : Nat)
    (g : Ledger.Guard) :
    Step g s.ledger (s.drainEvents env (.resume minPiece maxPiece now))
      (s.resume env minPiece maxPiece now).ledger := by
  simp only [Pool.drainEvents]
  by_cases hwork : s.continuity.hasDeliveryWork = true
  · have hsame : s.resume env minPiece maxPiece now = s := if_pos hwork
    rw [hsame, if_neg (Nat.lt_irrefl _)]
    exact .same
  have hledger : (s.resume env minPiece maxPiece now).ledger =
      (s.continuity.resumeWithPolicy env.stage minPiece maxPiece now).ledger := by
    rw [Pool.resume, if_neg hwork]
    rfl
  rw [hledger]
  obtain ⟨heq, -⟩ | ⟨target, -, hlt, heq, -⟩ := resumeWithPolicy_spec env.stage minPiece maxPiece now
    (Bool.not_eq_true _ ▸ hwork)
  · have hcursor : ¬s.ledger.cursor < s.continuity.ledger.reset.cursor := Nat.lt_irrefl _
    rw [heq, if_neg hcursor]
    exact .reset
  · have hcursor : s.ledger.cursor < (s.continuity.ledger.reset.skip target).cursor := hlt
    rw [heq, if_pos hcursor]
    exact .resetSkip hlt

theorem ledger_of_flight {c : Continuity ω} {activePeers : ActivePeers}
    (h : ∀ id, activePeers.flight id = c.activePeers.flight id) :
    ({ c with activePeers := activePeers } : Continuity ω).ledger = c.ledger := by
  ext1
  · rfl
  · rfl
  · rfl
  · exact funext h
  · rfl
  · rfl
  · rfl

theorem stepPool_ledger (env : Session ω) (s : Pool ω) (a : Action) :
    Step (s.guard env a) s.ledger (s.poolEvents env a) (s.stepPool env a).ledger := by
  cases a with
  | requestRound now refused =>
    simp only [Pool.stepPool, Pool.poolEvents]
    split
    · exact requestRound_ledger s now refused _ rfl
    · exact .same
  | skipFarBehindLive now => exact skipFarBehindLive_ledger env s now _
  | skipEvictedGap now => exact skipEvictedGap_ledger env s now _
  | requeueTimedOut now =>
    simp only [Pool.stepPool, Pool.poolEvents]
    split
    · exact .same
    · exact requeueTimedOut_ledger s now _
  | releaseUnserved pieces => exact releaseUnserved_ledger s pieces _
  | receiveChunk piece chunk header data =>
    exact receiveChunk_ledger env s piece chunk header data _ id
  | setPeerUnchoked id unchoked =>
    have heq := ledger_of_flight (c := s.continuity)
      fun i => ActivePeers.flight_setUnchoked s.continuity.activePeers id i unchoked
    exact .of_eq heq .same
  | observeLiveWindow id bounds =>
    have heq := ledger_of_flight (c := s.continuity)
      fun i => ActivePeers.flight_observeWindow s.continuity.activePeers id i bounds
    exact .of_eq heq .same
  | updateRuntimeWindow id maxPiece =>
    simp only [Pool.stepPool, Pool.updateRuntimeWindow]
    split
    · exact .same
    · next peer _ =>
      have heq := ledger_of_flight (c := s.continuity) fun i =>
        ActivePeers.flight_updateWindow s.continuity.activePeers id peer.minPiece
          (max peer.maxPiece maxPiece) i
      exact .of_eq heq .same
  | dropPeerRuntime id => exact dropPeerRuntime_ledger s id _ rfl
  | commitUpstreamPeer id addr window unchoked =>
    simp only [Pool.stepPool, Pool.poolEvents]
    split
    · exact commitUpstreamPeer_ledger s id addr window unchoked _
    · exact .same
  | startPublication | pollPublication | startOutput | finishOutput | confirmStartup | resume =>
    exact stepShared_ledger env s _ _
  | raiseHead | sendPeerCommand | takeCommand | closeCommands | endPool => exact .same

/-- Every step of the pool is a step of its ledger. -/
theorem step_ledger (env : Session ω) (s : Pool ω) (a : Action) :
    Step (s.guard env a) s.ledger (s.events env a) (s.step env a).ledger := by
  unfold Pool.step Pool.events
  split
  · exact .same
  cases s.mode with
  | pool => exact stepPool_ledger env s a
  | draining =>
    cases a with
    | resume minPiece maxPiece now => exact resume_ledger env s minPiece maxPiece now _
    | _ => exact stepShared_ledger env s _ _

/-! ### Runs with their history -/

structure Traced (ω : Type) where
  pool : Pool ω
  history : History

namespace Traced

def start (s : Pool ω) : Traced ω := ⟨s, .start⟩

def step (env : Session ω) (t : Traced ω) (a : Action) : Traced ω :=
  ⟨t.pool.step env a, t.history.after (t.pool.events env a)⟩

/-- The run rule for a fact about ledger and history: it is enough that the ledger's steps keep
it. -/
theorem run_ledger {env : Session ω} {cond : Traced ω → Action → Prop} {I : Ledger → History → Prop}
    (hstep : ∀ t a, cond t a → ∀ {events l'}, Step (t.pool.guard env a) t.pool.ledger events l' →
      I t.pool.ledger t.history → I l' (t.history.after events))
    {t : Traced ω} (h : I t.pool.ledger t.history) {actions : List Action}
    (hmeets : Meets (step env) cond t actions) :
    I (run (step env) t actions).pool.ledger (run (step env) t actions).history :=
  run_induction (I := fun t => I t.pool.ledger t.history)
    (fun t a hI hcond => hstep t a hcond (step_ledger env t.pool a) hI) h hmeets

end Traced

end Outpace.Swarm.Live

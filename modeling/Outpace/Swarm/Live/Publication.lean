import Outpace.Swarm.Live.PoolHandlers

/-!
# Publication

A piece that has to be published is whole and stays whole until it is: nothing moves the cursor
meanwhile. So the `expect`s of the publication code never fail.
-/

namespace Outpace.Swarm.Live

open Outpace.Wire

variable {ω : Type} {c : Continuity ω}

/-- The piece still has to be published. -/
def Continuity.Needs (c : Continuity ω) (piece : Nat) : Prop :=
  c.publication.get? piece = some .needed

/-- The reassembler holds the piece, with metadata that agree. -/
def Continuity.Whole (c : Continuity ω) (piece : Nat) : Prop :=
  (c.reasm.completedLivePiece piece).isSome = true

theorem Continuity.publicationHold_iff : c.publicationHold = true ↔ ∃ piece, c.Needs piece := by
  simp only [publicationHold, List.any_eq_true, OrderedMap.mem_values, Needs]
  constructor
  · rintro ⟨status, ⟨piece, hpiece⟩, hstatus⟩
    cases status with
    | needed => exact ⟨piece, hpiece⟩
    | terminal => cases hstatus
  · rintro ⟨piece, hpiece⟩
    exact ⟨.needed, ⟨piece, hpiece⟩, rfl⟩

theorem Continuity.not_needs (h : c.publicationHold = false) (piece : Nat) :
    ¬c.Needs piece := fun hp => by
  rw [publicationHold_iff.mpr ⟨piece, hp⟩] at h
  cases h

theorem Continuity.publicationHold_of_playbackHold (h : c.playbackHold = false) :
    c.publicationHold = false := by
  simp only [playbackHold, Bool.or_eq_false_iff] at h
  exact h.2

/-- A step that lets nothing leave: the cursor stays, whole pieces stay whole, and no output is
added. -/
structure HeldBack (c c' : Continuity ω) : Prop where
  cursor : c'.reasm.nextEmit = c.reasm.nextEmit
  whole : ∀ piece, c.Whole piece → c'.Whole piece
  pending : c'.pendingOutput <:+ c.pendingOutput

theorem HeldBack.of_reasm {c c' : Continuity ω} (hreasm : c'.reasm = c.reasm)
    (hpending : c'.pendingOutput <:+ c.pendingOutput) : HeldBack c c' where
  cursor := by rw [hreasm]
  whole piece h := by rwa [Continuity.Whole, hreasm]
  pending := hpending

/-! ### What a step does about publications -/

/-- A step keeps everything back and at most adds a whole piece to those that have to be published,
or moves on while there is none, or is about the operation itself. -/
inductive PublicationStep (s s' : Pool ω) : Prop
  | held : HeldBack s.continuity s'.continuity →
    (∀ piece, s'.continuity.Needs piece → s.continuity.Needs piece ∨ s'.continuity.Whole piece) →
    (∀ piece, s.continuity.Needs piece → s'.continuity.Needs piece) →
    (∀ op, s'.publication = some op → s.publication = some op) → s'.panicked = s.panicked →
    PublicationStep s s'
  | moved : s.continuity.publicationHold = false → (∀ piece, ¬s'.continuity.Needs piece) →
    (∀ op, s'.publication = some op → s.publication = some op) → s'.panicked = s.panicked →
    PublicationStep s s'
  | started : s' = s.startPublication → PublicationStep s s'
  | polled {reply : StoreReply} : s' = s.pollPublication reply → PublicationStep s s'

namespace PublicationStep

variable {s s' : Pool ω}

theorem frame (hreasm : s'.continuity.reasm = s.continuity.reasm)
    (hpublication : s'.continuity.publication = s.continuity.publication)
    (hpending : s'.continuity.pendingOutput <:+ s.continuity.pendingOutput)
    (hop : ∀ op, s'.publication = some op → s.publication = some op)
    (hpanicked : s'.panicked = s.panicked) : PublicationStep s s' := by
  refine .held (.of_reasm hreasm hpending) (fun piece h => .inl ?_) (fun piece h => ?_) hop hpanicked
  · rwa [Continuity.Needs, ← hpublication]
  · rwa [Continuity.Needs, hpublication]

theorem unchanged (hreasm : s'.continuity.reasm = s.continuity.reasm)
    (hpublication : s'.continuity.publication = s.continuity.publication)
    (hpending : s'.continuity.pendingOutput = s.continuity.pendingOutput)
    (hop : s'.publication = s.publication) (hpanicked : s'.panicked = s.panicked) :
    PublicationStep s s' := by
  apply frame hreasm hpublication (by rw [hpending]) _ hpanicked
  intro op h
  rwa [← hop]

theorem refl (s : Pool ω) : PublicationStep s s := .unchanged rfl rfl rfl rfl rfl

/-- The cursor goes forward only while no publication is needed; the entries behind it go. -/
theorem skipped {c' : Continuity ω} {target : Nat} (hhold : s.continuity.playbackHold = false)
    (h : c'.publication = s.continuity.publication.filter fun piece _ => decide (target ≤ piece)) :
    PublicationStep s { s with continuity := c' } := by
  have hhold := Continuity.publicationHold_of_playbackHold hhold
  refine .moved hhold (fun piece hp => ?_) (fun _ h => h) rfl
  rw [Continuity.Needs, h, OrderedMap.get?_filter_eq_some] at hp
  exact Continuity.not_needs hhold piece hp.1

end PublicationStep

/-! ### Output -/

theorem sendOutput_frame (c : Continuity ω) (now : Nat) :
    (Pool.sendOutput c now).reasm = c.reasm ∧ (Pool.sendOutput c now).publication = c.publication ∧
      (Pool.sendOutput c now).pendingOutput <:+ c.pendingOutput := by
  unfold Pool.sendOutput
  split
  · exact ⟨rfl, rfl, List.suffix_refl _⟩
  · next output rest hpending =>
    rw [hpending]
    dsimp only
    split
    · exact ⟨rfl, rfl, List.suffix_cons ..⟩
    · exact ⟨rfl, rfl, List.suffix_cons ..⟩

theorem finishOutput_publication (env : Session ω) (s : Pool ω) (now : Nat) (producers : List Nat) :
    PublicationStep s (s.finishOutput env now producers) := by
  unfold Pool.finishOutput
  split
  case isFalse => exact .refl s
  simp only [Pool.finishOutputStep]
  split
  case isFalse =>
    obtain ⟨hreasm, hpublication, hpending⟩ := sendOutput_frame s.continuity now
    exact .frame hreasm hpublication hpending (fun _ h => h) rfl
  next hempty =>
  split
  · exact .unchanged rfl rfl rfl rfl rfl
  next hdemand =>
  split
  · exact .unchanged rfl rfl rfl rfl rfl
  next c' hc' =>
  -- with nothing pending, demand is a ready piece and no publication to wait for
  have hhold : s.continuity.publicationHold = false := by
    simp only [Continuity.outputDemand, hempty, Bool.not_true, Bool.false_or, Bool.not_eq_true',
      Bool.not_eq_false, Bool.and_eq_true] at hdemand
    exact hdemand.1.2
  obtain ⟨done, -, pendingOutput, output, hprepared⟩ := prepareOutput_spec hc'
  have hneeds : ∀ piece, ¬c'.Needs piece := fun piece hp => by
    rw [hprepared, Continuity.Needs, OrderedMap.get?_erase] at hp
    split at hp
    · cases hp
    · exact Continuity.not_needs hhold piece hp
  refine .moved hhold (fun piece hp => hneeds piece ?_) (fun _ h => h) rfl
  dsimp only at hp
  split at hp
  · exact hp
  · rwa [Continuity.Needs, (sendOutput_frame c' now).2.1] at hp

/-! ### Chunks -/

/-- A chunk never touches a piece that is complete. -/
theorem addLiveChunk_keeps {auth : LiveAuth} {r r' : PieceReassembler} {i chunk chunkLength : Nat}
    {header : Header} {block : Bytes} {reply : Except WireError LiveBlockOutcome}
    (h : r.AddLiveChunk auth i chunk chunkLength header block reply r') {p : Nat} {done : Complete}
    (hdone : r.complete.get? p = some done) : r'.complete.get? p = some done := by
  cases h with
  | settled => exact hdone
  | overflow => exact hdone
  | failed _ hblock =>
    cases hblock with
    | rejected => exact hdone
    | failed => exact hdone
  | @added contributed r₁ hs hblock =>
    have hincomplete : r.complete.get? i = none := by
      simp only [PieceReassembler.settled, Bool.or_eq_false_iff] at hs
      exact OrderedMap.contains_eq_false.mp hs.2
    have hp : p ≠ i := by
      rintro rfl
      rw [hincomplete] at hdone
      cases hdone
    have hkept : r₁.complete.get? p = some done := by
      cases hblock with
      | settled => exact hdone
      | wrote => exact hdone
      | completed => exact (OrderedMap.get?_insert_of_ne _ _ hp).trans hdone
    unfold PieceReassembler.setLive
    split
    · exact (OrderedMap.get?_modify_of_ne _ _ hp).trans hkept
    · exact hkept

theorem HeldBack.of_complete {c c' : Continuity ω} (hcursor : c'.reasm.nextEmit = c.reasm.nextEmit)
    (hcomplete : ∀ p done, c.reasm.complete.get? p = some done → c'.reasm.complete.get? p = some done)
    (hpending : c'.pendingOutput = c.pendingOutput) : HeldBack c c' where
  cursor := hcursor
  whole piece h := by
    obtain ⟨done, m, hdone, hm⟩ := PieceReassembler.completedLivePiece_isSome.mp h
    exact PieceReassembler.completedLivePiece_isSome.mpr ⟨done, m, hcomplete piece done hdone, hm⟩
  pending := by rw [hpending]

/-- Only a whole piece is added to those that have to be published, and none is taken away. -/
theorem noteCompleted_needs (c : Continuity ω) (piece p : Nat) :
    ((Pool.noteCompleted c piece).Needs p → c.Needs p ∨ c.Whole p) ∧
      (c.Needs p → (Pool.noteCompleted c piece).Needs p) := by
  unfold Pool.noteCompleted
  split
  case h_2 => exact ⟨.inl, id⟩
  next done hdone =>
  split
  case isTrue => exact ⟨.inl, id⟩
  next hnew =>
  simp only [Bool.or_eq_true, not_or, Bool.not_eq_true, OrderedMap.contains_eq_false] at hnew
  simp only [Continuity.Needs, OrderedMap.get?_insert]
  by_cases hp : p = piece
  · subst hp
    refine ⟨fun _ => .inr (Option.isSome_of_eq_some hdone), fun h => ?_⟩
    rw [hnew.2] at h
    cases h
  · simp only [if_neg hp]
    exact ⟨.inl, id⟩

theorem receiveChunk_publication (env : Session ω) (s : Pool ω) (piece chunk : Nat)
    (header : Header) (data : Bytes) :
    PublicationStep s (s.receiveChunk env piece chunk header data) := by
  have hspec := PieceReassembler.addLiveChunk_spec env.auth s.continuity.reasm piece chunk
    env.info.chunkLength header data
  simp only [Pool.receiveChunk]
  split
  · exact .refl s
  generalize s.continuity.reasm.addLiveChunk env.auth piece chunk env.info.chunkLength header data =
    result at hspec
  obtain ⟨reply, r'⟩ := result
  have hcursor : r'.nextEmit = s.continuity.reasm.nextEmit :=
    PieceReassembler.addLiveChunk_nextEmit hspec
  have hcomplete : ∀ p done, s.continuity.reasm.complete.get? p = some done →
      r'.complete.get? p = some done := fun _ _ => addLiveChunk_keeps hspec
  cases reply with
  | error =>
    exact .held (.of_complete hcursor hcomplete rfl) (fun _ => .inl) (fun _ h => h)
      (fun _ h => h) rfl
  | ok outcome =>
    dsimp only
    obtain ⟨_, _, _, _, hframe⟩ := noteOutcome_frame { s.continuity with reasm := r' } piece chunk
      env.info.chunksPerPiece outcome
    obtain ⟨publication, hnoted⟩ := noteCompleted_frame { s.continuity with reasm := r' } piece
    have hneeds := noteCompleted_needs { s.continuity with reasm := r' } piece
    rw [hframe]
    split
    · rw [hnoted] at hneeds ⊢
      exact .held (.of_complete hcursor hcomplete rfl) (fun p => (hneeds p).1)
        (fun p => (hneeds p).2) (fun _ h => h) rfl
    · exact .held (.of_complete hcursor hcomplete rfl) (fun _ => .inl) (fun _ h => h)
        (fun _ h => h) rfl

/-! ### Every step -/

theorem foldl_requeue_frame (pieces : List Nat) (c : Continuity ω) :
    ∃ scheduler requestedAt, pieces.foldl (fun c piece =>
      { c with scheduler := c.scheduler.onDrop piece, requestedAt := c.requestedAt.erase piece }) c =
        { c with scheduler := scheduler, requestedAt := requestedAt } := by
  induction pieces generalizing c with
  | nil => exact ⟨_, _, rfl⟩
  | cons piece pieces ih =>
    obtain ⟨scheduler, requestedAt, h⟩ := ih
      { c with scheduler := c.scheduler.onDrop piece, requestedAt := c.requestedAt.erase piece }
    exact ⟨scheduler, requestedAt, h⟩

theorem stepShared_publication (env : Session ω) (s : Pool ω) (a : Action) :
    PublicationStep s (s.stepShared env a) := by
  cases a with
  | startPublication => exact .started rfl
  | pollPublication reply => exact .polled rfl
  | startOutput now =>
    simp only [Pool.stepShared, Pool.startOutput]
    split
    · exact .unchanged rfl rfl rfl rfl rfl
    · exact .refl s
  | finishOutput now producers => exact finishOutput_publication env s now producers
  | confirmStartup => exact .unchanged rfl rfl rfl rfl rfl
  | _ => exact .refl s

theorem stepPool_publication (env : Session ω) (s : Pool ω) (a : Action) :
    PublicationStep s (s.stepPool env a) := by
  cases a with
  | requestRound now refused =>
    simp only [Pool.stepPool]
    split
    · obtain ⟨_, _, _, _, -, H⟩ := requestRound_spec s now refused
      obtain ⟨_, _, _, _, hframe⟩ := H.frame
      rw [hframe]
      exact .unchanged rfl rfl rfl rfl rfl
    · exact .refl s
  | skipFarBehindLive now =>
    simp only [Pool.stepPool, Pool.skipFarBehindLive]
    obtain ⟨-, floor, heq⟩ | ⟨target, floor, output, hhold, -, -, heq⟩ :=
      s.continuity.skipFarBehindLive_spec env.stage (s.continuity.outputClock.now now)
    · rw [heq]
      exact .unchanged rfl rfl rfl rfl rfl
    · rw [heq]
      exact .skipped hhold rfl
  | skipEvictedGap now =>
    simp only [Pool.stepPool, Pool.skipEvictedGap]
    obtain ⟨-, heq⟩ | ⟨target, output, hhold, -, -, heq⟩ :=
      s.continuity.skipEvictedGap_spec env.stage (s.continuity.outputClock.now now)
    · rw [heq]
      exact .refl s
    · rw [heq]
      exact .skipped hhold rfl
  | requeueTimedOut now =>
    simp only [Pool.stepPool, Pool.requeueTimedOut]
    split
    · exact .refl s
    · obtain ⟨_, _, heq⟩ := foldl_requeue_frame (s.timedOut now)
        (s.continuity.timedOutRequests (s.continuity.outputClock.now now)).2
      rw [heq]
      exact .unchanged rfl rfl rfl rfl rfl
  | receiveChunk piece chunk header data =>
    exact receiveChunk_publication env s piece chunk header data
  | updateRuntimeWindow id maxPiece =>
    simp only [Pool.stepPool, Pool.updateRuntimeWindow]
    split
    · exact .refl s
    · exact .unchanged rfl rfl rfl rfl rfl
  | dropPeerRuntime id =>
    simp only [Pool.stepPool, Pool.dropPeerRuntime]
    split
    · exact .unchanged rfl rfl rfl rfl rfl
    · exact .refl s
  | commitUpstreamPeer id addr window unchoked =>
    simp only [Pool.stepPool]
    split
    · exact .unchanged rfl rfl rfl rfl rfl
    · exact .refl s
  | endPool => exact .frame rfl rfl (List.suffix_refl _) (fun _ h => (by cases h)) rfl
  | startPublication => exact stepShared_publication env s .startPublication
  | pollPublication reply => exact stepShared_publication env s (.pollPublication reply)
  | startOutput now => exact stepShared_publication env s (.startOutput now)
  | finishOutput now producers => exact stepShared_publication env s (.finishOutput now producers)
  | confirmStartup => exact stepShared_publication env s .confirmStartup
  | releaseUnserved | raiseHead | setPeerUnchoked | observeLiveWindow | sendPeerCommand
  | takeCommand | closeCommands | resume => exact .unchanged rfl rfl rfl rfl rfl

theorem resume_publication (env : Session ω) (s : Pool ω) (minPiece maxPiece now : Nat) :
    PublicationStep s (s.resume env minPiece maxPiece now) := by
  unfold Pool.resume
  split
  · exact .refl s
  next hwork =>
  obtain ⟨-, hreasm, hpublication, hpending⟩ | ⟨target, hhold, -, -, -, hpublication⟩ :=
    resumeWithPolicy_spec env.stage minPiece maxPiece now (Bool.not_eq_true _ ▸ hwork)
  · exact .frame hreasm hpublication (hpending ▸ List.suffix_refl _) (fun _ h => (by cases h)) rfl
  · refine .moved (Continuity.publicationHold_of_playbackHold hhold) (fun piece hp => ?_) nofun rfl
    rw [Continuity.Needs, hpublication, OrderedMap.get?_filter_eq_some] at hp
    exact Continuity.not_needs (Continuity.publicationHold_of_playbackHold hhold) piece hp.1

theorem step_publication (env : Session ω) (s : Pool ω) (a : Action) :
    PublicationStep s (s.step env a) := by
  unfold Pool.step
  split
  · exact .refl s
  split
  · exact stepPool_publication env s a
  · unfold Pool.stepDrain
    split
    · exact resume_publication env s ..
    · exact stepShared_publication env s a

/-! ### The invariant -/

/-- What has to be published is whole, the operation is about such a piece, and no `expect` has
failed. -/
structure Pool.Consistent (s : Pool ω) : Prop where
  whole : ∀ piece, s.continuity.Needs piece → s.continuity.Whole piece
  active : ∀ op, s.publication = some op → s.continuity.Needs op.piece
  calm : s.panicked = none

theorem startOperation_spec (op : Option PublicationOperation)
    (hwhole : ∀ piece, c.Needs piece → c.Whole piece) :
    ∃ op', startOperation op c = .ok op' ∧
      (op' = op ∨ op' = none ∨ ∃ piece, op' = some (.acquiring piece) ∧ c.Needs piece) := by
  unfold startOperation
  split
  · exact ⟨op, rfl, .inl rfl⟩
  split
  · exact ⟨none, rfl, .inr (.inl rfl)⟩
  next piece status hfind =>
  have hneeds : c.Needs piece := by
    have hmem := OrderedMap.mem_entries_iff.mp (List.mem_of_find?_eq_some hfind)
    have hstatus : status = .needed := by simpa using List.find?_some hfind
    rwa [hstatus] at hmem
  exact ⟨some (.acquiring piece), if_pos (hwhole piece hneeds), .inr (.inr ⟨piece, rfl, hneeds⟩)⟩

/-- With the piece of the operation still needed and whole, a poll ends the operation and with it
the need, or carries it on. -/
theorem pollOperation_spec {op : Option PublicationOperation} (reply : StoreReply)
    (hactive : ∀ o, op = some o → c.Needs o.piece) (hwhole : ∀ piece, c.Needs piece → c.Whole piece) :
    ∃ op' c', pollOperation op c reply = .ok (op', c') ∧
      ((c' = c ∧ op'.map (·.piece) = op.map (·.piece)) ∨
        ∃ piece result, op' = none ∧
          c' = { c with publication := c.publication.insert piece (.terminal result) }) := by
  have hterminal : ∀ {piece : Nat} (result : Option CompletePut), c.Needs piece →
      (terminal c piece result).map (fun c => ((none : Option PublicationOperation), c)) =
        .ok (none, { c with publication := c.publication.insert piece (.terminal result) }) := by
    intro piece result hneeds
    have hcontains : c.publication.contains piece = true := OrderedMap.contains_iff.mpr ⟨_, hneeds⟩
    rw [terminal, if_pos hcontains]
    rfl
  unfold pollOperation
  split
  · exact ⟨_, _, hterminal none (hactive _ rfl), .inr ⟨_, _, rfl, rfl⟩⟩
  · next piece receipt =>
    have hheld : (c.reasm.completedLivePiece piece).isSome = true := hwhole piece (hactive _ rfl)
    rw [if_pos hheld]
    split
    · exact ⟨_, _, rfl, .inl ⟨rfl, rfl⟩⟩
    · exact ⟨_, _, hterminal _ (hactive _ rfl), .inr ⟨_, _, rfl, rfl⟩⟩
  · exact ⟨_, _, rfl, .inl ⟨rfl, rfl⟩⟩
  · exact ⟨_, _, hterminal _ (hactive _ rfl), .inr ⟨_, _, rfl, rfl⟩⟩
  · exact ⟨_, _, rfl, .inl ⟨rfl, rfl⟩⟩

namespace Pool.Consistent

variable {s s' : Pool ω}

theorem startPublication (H : s.Consistent) : s.startPublication.Consistent := by
  obtain ⟨op, hop, hcase⟩ := startOperation_spec s.publication H.whole
  unfold Pool.startPublication
  rw [hop]
  refine ⟨H.whole, fun o ho => ?_, H.calm⟩
  obtain rfl | rfl | ⟨piece, rfl, hneeds⟩ := hcase
  · exact H.active o ho
  · cases ho
  · cases ho
    exact hneeds

theorem pollPublication (H : s.Consistent) (reply : StoreReply) :
    (s.pollPublication reply).Consistent := by
  obtain ⟨op, c, hpoll, hcase⟩ := pollOperation_spec reply H.active H.whole
  unfold Pool.pollPublication
  rw [hpoll]
  obtain ⟨rfl, hsame⟩ | ⟨piece, result, rfl, rfl⟩ := hcase
  · refine ⟨H.whole, fun o ho => ?_, H.calm⟩
    have ho : op = some o := ho
    rw [ho, Option.map_some, eq_comm, Option.map_eq_some_iff] at hsame
    obtain ⟨o', ho', hpiece⟩ := hsame
    exact hpiece ▸ H.active o' ho'
  · refine ⟨fun p hp => H.whole p ?_, nofun, H.calm⟩
    simp only [Continuity.Needs, OrderedMap.get?_insert] at hp
    split at hp
    · cases hp
    · exact hp

theorem step (H : s.Consistent) (h : PublicationStep s s') : s'.Consistent := by
  cases h with
  | held hback hadded hkept hop hpanicked =>
    refine ⟨fun piece hp => ?_, fun op ho => hkept _ (H.active op (hop op ho)),
      hpanicked.trans H.calm⟩
    rcases hadded piece hp with hp | hp
    · exact hback.whole piece (H.whole piece hp)
    · exact hp
  | moved hhold hneeds hop hpanicked =>
    refine ⟨fun piece hp => absurd hp (hneeds piece), fun op ho => ?_, hpanicked.trans H.calm⟩
    exact absurd (H.active op (hop op ho)) (Continuity.not_needs hhold _)
  | started heq => exact heq ▸ H.startPublication
  | polled heq => exact heq ▸ H.pollPublication _

end Pool.Consistent

/-- While a publication is needed, a step keeps everything back. -/
theorem heldBack_of_needs {s s' : Pool ω} (h : PublicationStep s s') {piece : Nat}
    (hneeds : s.continuity.Needs piece) : HeldBack s.continuity s'.continuity := by
  cases h with
  | held hback => exact hback
  | moved hhold => exact absurd hneeds (Continuity.not_needs hhold piece)
  | started heq =>
    subst heq
    unfold Pool.startPublication
    split
    · exact .of_reasm rfl (List.suffix_refl _)
    · exact .of_reasm rfl (List.suffix_refl _)
  | polled heq =>
    subst heq
    unfold Pool.pollPublication
    split
    · next hpoll =>
      obtain ⟨publication, rfl⟩ := pollOperation_frame hpoll
      exact .of_reasm rfl (List.suffix_refl _)
    · exact .of_reasm rfl (List.suffix_refl _)

theorem consistent_start (env : Session ω) (minPiece maxPiece prefetch : Nat)
    (liveRecovery : LiveRecoveryConfig) (now : Nat) (startupDeadline : Option Nat) :
    (Pool.start env minPiece maxPiece prefetch liveRecovery now startupDeadline).Consistent where
  whole piece h := by cases h
  active := nofun
  calm := rfl

theorem consistent_run (env : Session ω) (minPiece maxPiece prefetch : Nat)
    (liveRecovery : LiveRecoveryConfig) (now : Nat) (startupDeadline : Option Nat)
    (actions : List Action) :
    (run (Pool.step env)
      (Pool.start env minPiece maxPiece prefetch liveRecovery now startupDeadline)
      actions).Consistent :=
  run_invariant (fun s a (H : s.Consistent) => H.step (step_publication env s a))
    (consistent_start ..) actions

/-- In every state a session reaches, a piece that has to be published is whole and the publication
in progress is of such a piece, so no `expect` has failed; and while there is one, no step takes a
piece from the cursor or adds to what waits for the player. -/
theorem publication_consistent (env : Session ω) (minPiece maxPiece prefetch : Nat)
    (liveRecovery : LiveRecoveryConfig) (now : Nat) (startupDeadline : Option Nat)
    (actions : List Action) :
    let s := run (Pool.step env)
      (Pool.start env minPiece maxPiece prefetch liveRecovery now startupDeadline) actions
    (∀ piece, s.continuity.publication.get? piece = some .needed →
      (s.continuity.reasm.completedLivePiece piece).isSome = true) ∧
    (∀ op, s.publication = some op → s.continuity.publication.get? op.piece = some .needed) ∧
    s.panicked = none ∧
    ∀ piece, s.continuity.publication.get? piece = some .needed → ∀ a,
      (s.step env a).continuity.reasm.nextEmit = s.continuity.reasm.nextEmit ∧
        (s.step env a).continuity.pendingOutput <:+ s.continuity.pendingOutput := by
  intro s
  have H : s.Consistent := consistent_run ..
  refine ⟨H.whole, H.active, H.calm, fun piece hneeds a => ?_⟩
  have hback := heldBack_of_needs (step_publication env s a) hneeds
  exact ⟨hback.cursor, hback.pending⟩

end Outpace.Swarm.Live

import Outpace.Wire.ReassemblyOrder

/-!
# Three ways to drain

The complete pieces at the cursor can be looked at (`ready_chunks`), taken all at once
(`take_ready`) or one by one (`take_ready_piece`). The three differ at the last index only, which no
piece that is held has: a block at it is always too far ahead of the cursor.
-/

namespace Outpace.Wire.PieceReassembler

/-- The pieces of one call of `take_ready_piece` after another, up to the one that returns nothing,
and the state after that. -/
inductive Takes : PieceReassembler → List ReadyPiece → PieceReassembler → Prop
  | stop {r r' : PieceReassembler} : r.takeReadyPiece = (none, r') → Takes r [] r'
  | more {r r₁ r' : PieceReassembler} {piece : ReadyPiece} {pieces : List ReadyPiece} :
    r.takeReadyPiece = (some piece, r₁) → Takes r₁ pieces r' → Takes r (piece :: pieces) r'

variable {auth : LiveAuth} {r r' : PieceReassembler}

/-- The next of the ready chunks. -/
theorem Inv.readyChunksFrom_succ (H : Inv auth r) {fuel next : Nat} {done : Complete}
    (h : r.complete.get? next = some done) :
    r.readyChunksFrom (fuel + 1) next = r.media done.buf :: r.readyChunksFrom fuel (next + 1) := by
  have hlt := (H.complete_window h).2
  have hmax := saturatingAdd_le_max r.nextEmit r.maxAhead
  have hadd : checkedAdd next 1 = some (next + 1) := checkedAdd_eq_some.mpr ⟨by omega, rfl⟩
  simp only [readyChunksFrom, h, hadd]

/-- The ready chunks depend on the pieces from the first one on. -/
theorem readyChunksFrom_advance (r : PieceReassembler) (fuel : Nat) {next : Nat}
    (h : r.nextEmit < next) :
    r.advance.readyChunksFrom fuel next = r.readyChunksFrom fuel next := by
  induction fuel generalizing next with
  | zero => rfl
  | succ fuel ih =>
    have hget : r.advance.complete.get? next = r.complete.get? next :=
      OrderedMap.get?_erase_of_ne _ (Nat.ne_of_gt h)
    simp only [readyChunksFrom, hget]
    cases r.complete.get? next with
    | none => rfl
    | some done =>
      cases hadd : checkedAdd next 1 with
      | none => rfl
      | some next' =>
        obtain ⟨-, rfl⟩ := checkedAdd_eq_some.mp hadd
        exact congrArg (r.media done.buf :: ·) (ih (Nat.lt_succ_of_lt h))

theorem Inv.takeReadyLoop_bytes (H : Inv auth r) (fuel : Nat) :
    (takeReadyLoop fuel r).1.map (·.bytes) = r.readyChunksFrom fuel r.nextEmit := by
  induction fuel generalizing r with
  | zero => rfl
  | succ fuel ih =>
    cases h : r.complete.get? r.nextEmit with
    | none => simp [takeReadyLoop, readyChunksFrom, h]
    | some done =>
      rw [H.takeReadyLoop_succ fuel h, H.readyChunksFrom_succ h, List.map_cons, ih (H.advance h)]
      exact congrArg (r.media done.buf :: ·) (r.readyChunksFrom_advance fuel (Nat.lt_succ_self _))

/-- The loop takes the pieces one by one until there is none. -/
theorem Inv.takes_takeReadyLoop (H : Inv auth r) {fuel : Nat} (h : r.complete.size ≤ fuel) :
    Takes r (takeReadyLoop fuel r).1 (takeReadyLoop fuel r).2 := by
  induction fuel generalizing r with
  | zero =>
    refine .stop (takeReadyPiece_none ?_)
    by_contra hne
    obtain ⟨done, hdone⟩ := Option.ne_none_iff_exists'.mp hne
    have := OrderedMap.size_erase_lt hdone
    omega
  | succ fuel ih =>
    cases hdone : r.complete.get? r.nextEmit with
    | none =>
      simp only [takeReadyLoop, hdone]
      exact .stop (takeReadyPiece_none hdone)
    | some done =>
      have := OrderedMap.size_erase_lt hdone
      rw [H.takeReadyLoop_succ fuel hdone]
      exact .more (H.takeReadyPiece_some hdone)
        (ih (H.advance hdone) (show (r.complete.erase r.nextEmit).size ≤ fuel by omega))

theorem Takes.unique {pieces pieces' : List ReadyPiece} {r₁ r₂ : PieceReassembler}
    (h : Takes r pieces r₁) (h' : Takes r pieces' r₂) : pieces = pieces' ∧ r₁ = r₂ := by
  induction h generalizing pieces' r₂ with
  | stop hnone =>
    cases h' with
    | stop hnone' =>
      cases hnone.symm.trans hnone'
      exact ⟨rfl, rfl⟩
    | more hsome => cases hnone.symm.trans hsome
  | more hsome _ ih =>
    cases h' with
    | stop hnone => cases hsome.symm.trans hnone
    | more hsome' h' =>
      cases hsome.symm.trans hsome'
      obtain ⟨rfl, rfl⟩ := ih h'
      exact ⟨rfl, rfl⟩

/-- The call that returns nothing changes nothing, so the next one returns nothing either. -/
theorem Takes.stopped {pieces : List ReadyPiece} (h : Takes r pieces r') :
    r'.takeReadyPiece = (none, r') := by
  induction h with
  | @stop r r' hnone =>
    have hsame : r' = r := by
      unfold takeReadyPiece at hnone
      split at hnone
      · cases hnone
      · exact (Prod.mk.inj hnone).2.symm
    rw [← hsame] at hnone
    exact hnone
  | more _ _ ih => exact ih

/-- In every state that a run reaches, taking everything gives the ready chunks in one piece, and
the pieces taken one by one until there is none; both ways of taking leave the same state. -/
theorem ready_drains_agree (auth : LiveAuth) (pieceLength startPiece : Nat)
    (builders : List Builder) (ops : List Op) :
    let r := run (step auth) (build auth pieceLength startPiece builders) ops
    r.takeReady.1 = r.readyChunks.flatten ∧ (∃ pieces r', Takes r pieces r') ∧
      ∀ pieces r', Takes r pieces r' →
        r.takeReady.1 = (pieces.map (·.bytes)).flatten ∧ r.takeReady.2 = r' ∧
          r'.takeReadyPiece = (none, r') := by
  intro r
  have H : Inv auth r := (unused_build auth pieceLength startPiece builders).inv.run ops
  have htakes : Takes r r.takeReadyPieces.1 r.takeReady.2 := H.takes_takeReadyLoop le_rfl
  refine ⟨congrArg List.flatten (H.takeReadyLoop_bytes _), ⟨_, _, htakes⟩, fun pieces r' h => ?_⟩
  obtain ⟨hpieces, hstate⟩ := htakes.unique h
  exact ⟨congrArg (fun ps => (ps.map (·.bytes)).flatten) hpieces, hstate, h.stopped⟩

end Outpace.Wire.PieceReassembler

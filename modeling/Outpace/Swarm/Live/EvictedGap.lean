import Outpace.Swarm.Live.Continuity

/-!
# Skipping a gap

`skip_evicted_gap` of `ace-swarm/src/live_session/continuity.rs` moves a stuck cursor to the lowest
minimum of the windows of the unchoked peers. This is the next available piece unless such a minimum
belongs to a window without pieces above the cursor: one that lies entirely below it, or one that
ends before it begins.
-/

namespace Outpace.Swarm

/-- A window with pieces, all of them above the cursor. -/
def ActivePeer.Above (next : Nat) (p : ActivePeer) : Prop :=
  next < p.minPiece ∧ p.minPiece ≤ p.maxPiece

instance (next : Nat) (p : ActivePeer) : Decidable (p.Above next) :=
  inferInstanceAs (Decidable (_ ∧ _))

namespace ActivePeers

/-- The peers that may be asked. -/
def unchoked (a : ActivePeers) : List ActivePeer := a.peers.values.filter (·.unchoked)

variable {piece : Nat}

theorem anyUnchokedCovers_iff {a : ActivePeers} :
    a.anyUnchokedCovers piece = true ↔
      ∃ p ∈ a.unchoked, p.minPiece ≤ piece ∧ piece ≤ p.maxPiece := by
  simp only [anyUnchokedCovers, List.any_eq_true, Bool.and_eq_true, decide_eq_true_eq, unchoked,
    List.mem_filter, and_assoc]

theorem lowestCoveredPiece_eq_some {a : ActivePeers} {floor : Nat} :
    a.lowestCoveredPiece = some floor ↔
      (∃ p ∈ a.unchoked, p.minPiece = floor) ∧ ∀ p ∈ a.unchoked, floor ≤ p.minPiece := by
  rw [lowestCoveredPiece, List.min?_eq_some_iff, List.mem_map, List.forall_mem_map]
  rfl

theorem lowestCoveredPiece_eq_none {a : ActivePeers} :
    a.lowestCoveredPiece = none ↔ a.unchoked = [] := by
  rw [lowestCoveredPiece, List.min?_eq_none_iff, List.map_eq_nil_iff]
  rfl

variable {a : ActivePeers} {next : Nat}

/-- The pieces above the cursor that can be had are in the windows above it. -/
theorem covers_above_iff (hnext : a.anyUnchokedCovers next = false) (hpiece : next < piece) :
    a.anyUnchokedCovers piece = true ↔
      ∃ p ∈ a.unchoked, p.Above next ∧ p.minPiece ≤ piece ∧ piece ≤ p.maxPiece := by
  have hgap (p : ActivePeer) (hp : p ∈ a.unchoked) : ¬(p.minPiece ≤ next ∧ next ≤ p.maxPiece) :=
    fun h => Bool.eq_false_iff.mp hnext (anyUnchokedCovers_iff.mpr ⟨p, hp, h⟩)
  rw [anyUnchokedCovers_iff]
  constructor
  · rintro ⟨p, hp, hmin, hmax⟩
    have := hgap p hp
    exact ⟨p, hp, ⟨by omega, by omega⟩, hmin, hmax⟩
  · rintro ⟨p, hp, -, h⟩
    exact ⟨p, hp, h⟩

/-- The next piece above the cursor that can be had. -/
def NextAvailable (a : ActivePeers) (next piece : Nat) : Prop :=
  next < piece ∧ a.anyUnchokedCovers piece = true ∧
    ∀ k, next < k → k < piece → a.anyUnchokedCovers k = false

/-- It is the lowest minimum of the windows above the cursor. -/
theorem nextAvailable_iff (hnext : a.anyUnchokedCovers next = false) :
    a.NextAvailable next piece ↔ ∃ p ∈ a.unchoked, p.Above next ∧ p.minPiece = piece ∧
      ∀ p' ∈ a.unchoked, p'.Above next → piece ≤ p'.minPiece := by
  constructor
  · rintro ⟨hlt, hcovers, hleast⟩
    obtain ⟨p, hp, habove, hmin, hmax⟩ := (covers_above_iff hnext hlt).mp hcovers
    have hlowest (p' : ActivePeer) (hp' : p' ∈ a.unchoked) (habove' : p'.Above next) :
        piece ≤ p'.minPiece := by
      refine Nat.le_of_not_lt fun h => ?_
      have := hleast p'.minPiece habove'.1 h
      rw [Bool.eq_false_iff, ne_eq, anyUnchokedCovers_iff] at this
      exact this ⟨p', hp', le_rfl, habove'.2⟩
    exact ⟨p, hp, habove, le_antisymm hmin (hlowest p hp habove), hlowest⟩
  · rintro ⟨p, hp, habove, rfl, hlowest⟩
    refine ⟨habove.1, anyUnchokedCovers_iff.mpr ⟨p, hp, le_rfl, habove.2⟩, fun k hk hlt => ?_⟩
    rw [Bool.eq_false_iff, ne_eq, covers_above_iff hnext hk]
    rintro ⟨p', hp', habove', hmin, -⟩
    have := hlowest p' hp' habove'
    omega

theorem exists_nextAvailable (hlt : next < piece) (h : a.anyUnchokedCovers piece = true) :
    ∃ piece, a.NextAvailable next piece := by
  have hex : ∃ piece, next < piece ∧ a.anyUnchokedCovers piece = true := ⟨piece, hlt, h⟩
  refine ⟨Nat.find hex, (Nat.find_spec hex).1, (Nat.find_spec hex).2, fun k hk hlt => ?_⟩
  exact Bool.eq_false_iff.mpr fun hcovers => Nat.find_min hex hlt ⟨hk, hcovers⟩

/-- What makes the lowest minimum the right place to go to: it belongs to a window above the cursor;
or there is no such window, and a window without pieces holds the cursor back. -/
def LowestAbove (a : ActivePeers) (next : Nat) : Prop :=
  (∃ p ∈ a.unchoked, p.Above next ∧ ∀ p' ∈ a.unchoked, p.minPiece ≤ p'.minPiece) ∨
    ((∀ p ∈ a.unchoked, ¬p.Above next) ∧
      (a.unchoked = [] ∨ ∃ p ∈ a.unchoked, p.minPiece ≤ next))

instance (a : ActivePeers) (next : Nat) : Decidable (a.LowestAbove next) :=
  inferInstanceAs (Decidable (_ ∨ _))

end ActivePeers

namespace Live.Continuity

variable {ω : Type} (stage : OutputStage ω) {c : Continuity ω} {now : Nat}

/-- The cursor is stuck: playback is not held, the time is over, and nobody has the next piece. -/
structure Stuck (c : Continuity ω) (now : Nat) : Prop where
  free : c.playbackHold = false
  late : c.liveRecovery.requestTimeout ≤ now - c.nextNeededSince
  gone : c.activePeers.anyUnchokedCovers c.reasm.nextNeeded = false

theorem skipEvictedGap_of_stuck (h : c.Stuck now) :
    c.skipEvictedGap stage now =
      match c.activePeers.lowestCoveredPiece with
      | none => (none, c)
      | some floor =>
        if floor ≤ c.reasm.nextNeeded then (none, c)
        else (some floor, c.skip floor now (stage.armOutputGate c.output)) := by
  have hlate : ¬now - c.nextNeededSince < c.liveRecovery.requestTimeout := Nat.not_lt.mpr h.late
  simp only [skipEvictedGap, h.free, h.gone, hlate, decide_false, Bool.or_self]
  rfl

theorem nextNeeded_skip {target : Nat} (h : c.reasm.nextNeeded < target) (output : ω) :
    (c.skip target now output).reasm.nextNeeded = target := by
  show (c.reasm.skipTo target).nextEmit = target
  have hlt : ¬target ≤ c.reasm.nextEmit := Nat.not_le.mpr h
  rw [Wire.PieceReassembler.skipTo, if_neg hlt]

/-- A skip goes to the next piece that can be had, and there is none without such a piece. -/
def SkipsToAvailable (c : Continuity ω) (now : Nat) : Prop :=
  (∀ piece, c.activePeers.NextAvailable c.reasm.nextNeeded piece →
    (c.skipEvictedGap stage now).1 = some piece ∧
      (c.skipEvictedGap stage now).2.reasm.nextNeeded = piece) ∧
  ((∀ piece, c.reasm.nextNeeded < piece → c.activePeers.anyUnchokedCovers piece = false) →
    c.skipEvictedGap stage now = (none, c))

/-- A skip of a stuck cursor. -/
theorem skipEvictedGap_eq_some (h : c.Stuck now) {floor : Nat}
    (hfloor : c.activePeers.lowestCoveredPiece = some floor) (hlt : c.reasm.nextNeeded < floor) :
    (c.skipEvictedGap stage now).1 = some floor ∧
      (c.skipEvictedGap stage now).2.reasm.nextNeeded = floor := by
  simp only [c.skipEvictedGap_of_stuck stage h, hfloor, if_neg (Nat.not_le.mpr hlt)]
  exact ⟨trivial, nextNeeded_skip hlt _⟩

theorem skipEvictedGap_eq_none (h : c.Stuck now)
    (hfloor : ∀ floor, c.activePeers.lowestCoveredPiece = some floor →
      floor ≤ c.reasm.nextNeeded) : c.skipEvictedGap stage now = (none, c) := by
  rw [c.skipEvictedGap_of_stuck stage h]
  cases hlowest : c.activePeers.lowestCoveredPiece with
  | none => rfl
  | some floor => exact if_pos (hfloor floor hlowest)

theorem lowest_of_skip (h : c.Stuck now) {floor : Nat}
    (hskip : (c.skipEvictedGap stage now).1 = some floor) :
    c.activePeers.lowestCoveredPiece = some floor := by
  rw [c.skipEvictedGap_of_stuck stage h] at hskip
  cases hlowest : c.activePeers.lowestCoveredPiece with
  | none => rw [hlowest] at hskip; cases hskip
  | some floor' =>
    simp only [hlowest] at hskip
    split at hskip
    · cases hskip
    · exact hskip

/-- A stuck cursor goes to the next piece that an unchoked peer has, and stays if there is none, if
and only if the lowest minimum belongs to a window above the cursor, or there is no such window and
a window holds the cursor back. In any case it passes over no piece that can be had. -/
theorem skips_to_available_iff (stage : OutputStage ω) (c : Continuity ω) (now : Nat)
    (h : c.Stuck now) :
    (c.SkipsToAvailable stage now ↔ c.activePeers.LowestAbove c.reasm.nextNeeded) ∧
      ∀ floor, (c.skipEvictedGap stage now).1 = some floor →
        ∀ piece, c.reasm.nextNeeded < piece → piece < floor →
          c.activePeers.anyUnchokedCovers piece = false := by
  refine ⟨⟨fun S => ?_, ?_⟩, fun floor hskip piece hpiece hlt => ?_⟩
  · by_cases habove : ∃ p ∈ c.activePeers.unchoked, p.Above c.reasm.nextNeeded
    · obtain ⟨p, hp, habove⟩ := habove
      obtain ⟨piece, hnext⟩ := ActivePeers.exists_nextAvailable habove.1
        (ActivePeers.anyUnchokedCovers_iff.mpr ⟨p, hp, le_rfl, habove.2⟩)
      obtain ⟨q, hq, hqabove, rfl, -⟩ := (ActivePeers.nextAvailable_iff h.gone).mp hnext
      have hlowest := lowest_of_skip stage h (S.1 _ hnext).1
      exact .inl ⟨q, hq, hqabove, (ActivePeers.lowestCoveredPiece_eq_some.mp hlowest).2⟩
    · have hnone (p : ActivePeer) (hp : p ∈ c.activePeers.unchoked) :
          ¬p.Above c.reasm.nextNeeded := fun h => habove ⟨p, hp, h⟩
      refine .inr ⟨hnone, ?_⟩
      have hstay := S.2 fun piece hpiece => by
        rw [Bool.eq_false_iff, ne_eq, ActivePeers.covers_above_iff h.gone hpiece]
        rintro ⟨p, hp, hpabove, -⟩
        exact hnone p hp hpabove
      cases hlowest : c.activePeers.lowestCoveredPiece with
      | none => exact .inl (ActivePeers.lowestCoveredPiece_eq_none.mp hlowest)
      | some floor =>
        obtain ⟨⟨p, hp, rfl⟩, -⟩ := ActivePeers.lowestCoveredPiece_eq_some.mp hlowest
        refine .inr ⟨p, hp, Nat.le_of_not_lt fun hlt => ?_⟩
        have := (skipEvictedGap_eq_some stage h hlowest hlt).1
        rw [hstay] at this
        cases this
  · rintro (⟨p, hp, habove, hlowest⟩ | ⟨hnone, hheld⟩)
    · have hfloor : c.activePeers.lowestCoveredPiece = some p.minPiece :=
        ActivePeers.lowestCoveredPiece_eq_some.mpr ⟨⟨p, hp, rfl⟩, hlowest⟩
      refine ⟨fun piece hnext => ?_, fun hfalse => ?_⟩
      · obtain ⟨q, hq, hqabove, rfl, hleast⟩ := (ActivePeers.nextAvailable_iff h.gone).mp hnext
        rw [le_antisymm (hleast p hp habove) (hlowest q hq)]
        exact skipEvictedGap_eq_some stage h hfloor habove.1
      · have := hfalse p.minPiece habove.1
        rw [Bool.eq_false_iff, ne_eq, ActivePeers.anyUnchokedCovers_iff] at this
        exact absurd ⟨p, hp, le_rfl, habove.2⟩ this
    · refine ⟨fun piece hnext => ?_, fun _ => ?_⟩
      · obtain ⟨q, hq, hqabove, -⟩ := (ActivePeers.nextAvailable_iff h.gone).mp hnext
        exact absurd hqabove (hnone q hq)
      · refine skipEvictedGap_eq_none stage h fun floor hfloor => ?_
        obtain ⟨⟨p, hp, -⟩, hleast⟩ := ActivePeers.lowestCoveredPiece_eq_some.mp hfloor
        rcases hheld with hempty | ⟨q, hq, hle⟩
        · rw [hempty] at hp
          cases hp
        · exact (hleast q hq).trans hle
  · have hleast := (ActivePeers.lowestCoveredPiece_eq_some.mp (lowest_of_skip stage h hskip)).2
    rw [Bool.eq_false_iff, ne_eq, ActivePeers.anyUnchokedCovers_iff]
    rintro ⟨p, hp, hmin, -⟩
    have := hleast p hp
    omega

def gapStage : OutputStage Unit := ⟨(), id, id, fun _ _ => ([], ())⟩

/-- A session at piece 10 with two unchoked peers, whose second one has the pieces from 20 on. -/
def gapSession (first : LivePosition) : Continuity Unit :=
  let c := fresh gapStage ⟨fun _ _ _ => true, fun _ => none⟩ ⟨4, 2, 0, []⟩ 10 10 0 ⟨2, 10, 4, 16⟩ 0
  { c with
    activePeers := (((ActivePeers.new.insert 1 first).insert 2 ⟨20, 30⟩).setUnchoked 1 true)
      |>.setUnchoked 2 true }

theorem stuck_gapSession {first : LivePosition}
    (h : (gapSession first).activePeers.anyUnchokedCovers 10 = false) :
    (gapSession first).Stuck 10 := ⟨rfl, le_rfl, h⟩

/-- A window below the cursor keeps it where it is, and one that ends before it begins takes it to a
piece that nobody has. -/
theorem gap_not_skipped :
    ((gapSession ⟨0, 5⟩).Stuck 10 ∧ (gapSession ⟨0, 5⟩).activePeers.NextAvailable 10 20 ∧
      ((gapSession ⟨0, 5⟩).skipEvictedGap gapStage 10).1 = none) ∧
    ((gapSession ⟨15, 12⟩).Stuck 10 ∧ (gapSession ⟨15, 12⟩).activePeers.NextAvailable 10 20 ∧
      ((gapSession ⟨15, 12⟩).skipEvictedGap gapStage 10).1 = some 15 ∧
      (gapSession ⟨15, 12⟩).activePeers.anyUnchokedCovers 15 = false) := by
  refine ⟨⟨stuck_gapSession (by decide), ?_, by decide⟩, stuck_gapSession (by decide), ?_,
    by decide, by decide⟩
  · exact (ActivePeers.nextAvailable_iff (by decide)).mpr (by decide)
  · exact (ActivePeers.nextAvailable_iff (by decide)).mpr (by decide)

theorem skips_to_available_sample :
    (gapSession ⟨25, 30⟩).Stuck 10 ∧ (gapSession ⟨25, 30⟩).SkipsToAvailable gapStage 10 ∧
      ((gapSession ⟨25, 30⟩).skipEvictedGap gapStage 10).1 = some 20 := by
  have hstuck : (gapSession ⟨25, 30⟩).Stuck 10 := stuck_gapSession (by decide)
  exact ⟨hstuck, (skips_to_available_iff gapStage _ 10 hstuck).1.mpr (by decide), by decide⟩

end Live.Continuity

end Outpace.Swarm

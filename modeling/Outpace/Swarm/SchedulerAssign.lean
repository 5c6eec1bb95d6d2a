import Mathlib.Data.Finset.Union
import Mathlib.Data.List.Pairwise
import Mathlib.Tactic.Linarith
import Outpace.Swarm.Scheduler

/-!
# One assignment call

`Walked` is the invariant of the assignment loop, relative to the walk it started from: the capacity
left of every peer is what it was less the requests charged to it, the pieces given out are new and
inside the scan, and a piece passed over has no peer left that could take it.
-/

namespace Outpace.Swarm

variable {piece scanCeiling : Nat} {caps : List Cap} {c : Cap}

/-! ### Picking a peer -/

theorem pick_eq_none : pick piece caps = none ↔ ∀ c ∈ caps, c.available piece = false := by
  induction caps with
  | nil => simp [pick]
  | cons c rest ih =>
    rw [pick]
    cases h : pick piece rest with
    | some found =>
      have hsome : ¬ ∀ c ∈ rest, c.available piece = false := by rw [← ih, h]; simp
      simp only [List.forall_mem_cons]
      constructor
      · intro h'
        split at h' <;> cases h'
      · exact fun h' => absurd h'.2 hsome
    | none =>
      have hrest := ih.mp h
      simp only [List.forall_mem_cons]
      constructor
      · intro h'
        split at h'
        · cases h'
        · next hc => exact ⟨by simpa using hc, hrest⟩
      · rintro ⟨hc, -⟩
        rw [if_neg (by simp [hc])]

/-- The entry picked is available, and no available entry has more capacity left. -/
structure Picked (piece : Nat) (caps before : List Cap) (c : Cap) (after : List Cap) : Prop where
  eq : caps = before ++ c :: after
  available : c.available piece = true
  most : ∀ c' ∈ caps, c'.available piece = true → c'.spare ≤ c.spare

theorem pick_spec {before after : List Cap} (h : pick piece caps = some (before, c, after)) :
    Picked piece caps before c after := by
  induction caps generalizing before c after with
  | nil => cases h
  | cons c₀ rest ih =>
    rw [pick] at h
    cases hrest : pick piece rest with
    | none =>
      simp only [hrest] at h
      split at h
      · next hc =>
        cases h
        refine ⟨rfl, hc, fun c' hc' havail => ?_⟩
        rcases List.mem_cons.mp hc' with rfl | hc'
        · exact Nat.le_refl _
        · rw [pick_eq_none.mp hrest c' hc'] at havail
          cases havail
      · cases h
    | some found =>
      obtain ⟨before', best, after'⟩ := found
      have P := ih hrest
      simp only [hrest] at h
      split at h
      · next hc =>
        cases h
        rw [Bool.and_eq_true, decide_eq_true_eq] at hc
        refine ⟨rfl, hc.1, fun c' hc' havail => ?_⟩
        rcases List.mem_cons.mp hc' with rfl | hc'
        · exact Nat.le_refl _
        · exact (P.most c' hc' havail).trans hc.2.le
      · next hc =>
        cases h
        refine ⟨by rw [P.eq]; rfl, P.available, fun c' hc' havail => ?_⟩
        rcases List.mem_cons.mp hc' with rfl | hc'
        · by_contra hlt
          exact hc (by simp [havail, Nat.lt_of_not_le hlt])
        · exact P.most c' hc' havail

theorem Cap.available_pos (h : c.available piece = true) :
    0 < c.spare ∧ 0 < c.slots ∧ c.peer.covers piece = true := by
  simpa [Cap.available, and_assoc] using h

theorem Cap.available_of_charge (h : c.charge.available piece = true) :
    c.available piece = true := by
  obtain ⟨hspare, hslots, hcovers⟩ := Cap.available_pos h
  simp only [Cap.charge] at hspare hslots hcovers
  simp only [Cap.available, hcovers, Bool.and_true, Bool.and_eq_true, decide_eq_true_eq]
  omega

/-! ### The invariant of the walk -/

/-- The requests that a list of assignments charges to a peer. -/
def load (out : List (Nat × Nat)) (id : Nat) : Nat := (out.filter fun a => a.1 == id).length

@[simp] theorem load_nil (id : Nat) : load [] id = 0 := rfl

theorem load_append_self (out : List (Nat × Nat)) (id piece : Nat) :
    load (out ++ [(id, piece)]) id = load out id + 1 := by simp [load]

theorem load_append_of_ne {out : List (Nat × Nat)} {id id' piece : Nat} (h : id ≠ id') :
    load (out ++ [(id, piece)]) id' = load out id' := by simp [load, h]

/-- What is left of a peer's capacity after some assignments. -/
def Cap.after (out : List (Nat × Nat)) (c : Cap) : Cap :=
  { c with spare := c.spare - load out c.peer.id, slots := c.slots - load out c.peer.id }

/-- What the walk has done so far, relative to where it started. -/
structure Walked (scanCeiling : Nat) (start w : Walk) : Prop where
  le_piece : start.piece ≤ w.piece
  piece_le : w.piece ≤ max start.piece (scanCeiling + 1)
  ceiling_le : w.ceiling ≤ scanCeiling
  le_ceiling : start.ceiling ≤ w.ceiling
  caps : w.caps = start.caps.map (Cap.after w.out)
  room : ∀ c ∈ start.caps, load w.out c.peer.id ≤ c.spare ∧ load w.out c.peer.id ≤ c.slots
  requested : ∀ p, p ∈ w.requested ↔ p ∈ start.requested ∨ ∃ a ∈ w.out, a.2 = p
  increasing : w.out.Pairwise fun a b => a.2 < b.2
  assigned : ∀ a ∈ w.out, (start.piece ≤ a.2 ∧ a.2 < w.piece ∧ a.2 ≤ scanCeiling) ∧
    a.2 ∉ start.requested ∧ ∃ c ∈ start.caps, c.peer.id = a.1 ∧ c.peer.covers a.2 = true
  maximal : ∀ p, start.piece ≤ p → p < w.piece → p ∉ w.requested →
    ∀ c ∈ w.caps, c.available p = false

theorem Walked.refl {w : Walk} (h : w.ceiling ≤ scanCeiling) (ho : w.out = []) :
    Walked scanCeiling w w := by
  refine ⟨Nat.le_refl _, Nat.le_max_left .., h, Nat.le_refl _, ?_, ?_, ?_, ?_, ?_, ?_⟩
  · rw [ho]
    exact (List.map_id' _).symm
  · simp [ho]
  · simp [ho]
  · simp [ho]
  · simp [ho]
  · intro p hp hp'
    omega

/-- Charging one more request to a peer changes its own entry only, as ids are distinct. -/
theorem map_after_charge {start before after : List Cap} {out : List (Nat × Nat)}
    (hnodup : (start.map (·.peer.id)).Nodup)
    (heq : start.map (Cap.after out) = before ++ c :: after)
    (hroom : ∀ c ∈ start, load out c.peer.id ≤ c.spare ∧ load out c.peer.id ≤ c.slots)
    (hspare : 0 < c.spare) (hslots : 0 < c.slots) (piece : Nat) :
    start.map (Cap.after (out ++ [(c.peer.id, piece)])) = before ++ c.charge :: after ∧
      (∃ c₀ ∈ start, c₀.peer = c.peer) ∧
      ∀ c' ∈ start, load (out ++ [(c.peer.id, piece)]) c'.peer.id ≤ c'.spare ∧
        load (out ++ [(c.peer.id, piece)]) c'.peer.id ≤ c'.slots := by
  obtain ⟨before₀, rest, rfl, hbefore, hrest⟩ := List.map_eq_append_iff.mp heq
  obtain ⟨c₀, after₀, rfl, rfl, hafter⟩ := List.map_eq_cons_iff.mp hrest
  have hother : ∀ c' ∈ before₀ ++ after₀, c₀.peer.id ≠ c'.peer.id := by
    intro c' hc' hid
    rw [List.map_append, List.map_cons, List.nodup_middle, ← List.map_append,
      List.nodup_cons] at hnodup
    exact hnodup.1 (List.mem_map.mpr ⟨c', hc', hid.symm⟩)
  have hsame : ∀ l : List Cap, (∀ c' ∈ l, c' ∈ before₀ ++ after₀) →
      l.map (Cap.after (out ++ [(c₀.peer.id, piece)])) = l.map (Cap.after out) := by
    intro l hl
    refine List.map_congr_left fun c' hc' => ?_
    simp only [Cap.after, load_append_of_ne (hother c' (hl c' hc'))]
  simp only [Cap.after] at hspare hslots
  refine ⟨?_, ⟨c₀, by simp, rfl⟩, fun c' hc' => ?_⟩
  · rw [List.map_append, List.map_cons]
    rw [show (Cap.after out c₀).peer = c₀.peer from rfl, hsame before₀ (fun _ h => by simp [h]),
      hsame after₀ (fun _ h => by simp [h]), hbefore, hafter]
    congr 2
    simp only [Cap.after, Cap.charge, load_append_self, Nat.sub_sub]
  · have hold := hroom c' hc'
    by_cases hid : c₀.peer.id = c'.peer.id
    · have hcc : c' = c₀ := by
        rcases List.mem_append.mp hc' with h | h
        · exact absurd hid (hother c' (List.mem_append_left _ h))
        · rcases List.mem_cons.mp h with rfl | h
          · rfl
          · exact absurd hid (hother c' (List.mem_append_right _ h))
      subst hcc
      rw [show (Cap.after out c').peer = c'.peer from rfl, load_append_self]
      omega
    · rw [show (Cap.after out c₀).peer = c₀.peer from rfl, load_append_of_ne hid]
      exact hold

theorem Walked.visit {start w : Walk} (W : Walked scanCeiling start w)
    (hnodup : (start.caps.map (·.peer.id)).Nodup) (hmax : scanCeiling ≤ u64Max)
    (hpiece : w.piece ≤ w.ceiling) : Walked scanCeiling start (w.visit scanCeiling) := by
  have hceiling := W.ceiling_le
  have hle := W.le_piece
  unfold Walk.visit
  split
  · next hreq =>
    refine ⟨by dsimp only; omega, by dsimp only; omega, Nat.min_le_right .., ?_, W.caps, W.room,
      W.requested, W.increasing, fun a ha => ?_, fun p hp hp' hnot => ?_⟩
    · have := W.le_ceiling
      simp only [saturatingAdd]
      omega
    · obtain ⟨hrange, hrest⟩ := W.assigned a ha
      exact ⟨by dsimp only; omega, hrest⟩
    · have hne : p ≠ w.piece := by rintro rfl; exact hnot hreq
      exact W.maximal p hp (by dsimp only at hp'; omega) hnot
  · next hreq =>
    split
    · next before c after hpick =>
      have P := pick_spec hpick
      obtain ⟨hspare, hslots, hcovers⟩ := Cap.available_pos P.available
      obtain ⟨hcaps, ⟨c₀, hc₀, hpeer⟩, hroom⟩ :=
        map_after_charge hnodup (W.caps ▸ P.eq) W.room hspare hslots w.piece
      refine ⟨by dsimp only; omega, by dsimp only; omega, hceiling, W.le_ceiling, hcaps.symm,
        hroom, fun p => ?_, ?_, fun a ha => ?_, fun p hp hp' hnot c' hc' => ?_⟩
      · simp only [Finset.mem_insert, W.requested, List.mem_append, List.mem_singleton]
        constructor
        · rintro (rfl | hp | ⟨a, ha, rfl⟩)
          · exact .inr ⟨_, .inr rfl, rfl⟩
          · exact .inl hp
          · exact .inr ⟨a, .inl ha, rfl⟩
        · rintro (hp | ⟨a, ha | rfl, rfl⟩)
          · exact .inr (.inl hp)
          · exact .inr (.inr ⟨a, ha, rfl⟩)
          · exact .inl rfl
      · refine List.pairwise_append.mpr ⟨W.increasing, List.pairwise_singleton _ _, ?_⟩
        intro a ha b hb
        rw [List.mem_singleton] at hb
        subst hb
        exact (W.assigned a ha).1.2.1
      · rcases List.mem_append.mp ha with ha | ha
        · obtain ⟨hrange, hrest⟩ := W.assigned a ha
          exact ⟨by dsimp only; omega, hrest⟩
        · rw [List.mem_singleton] at ha
          subst ha
          refine ⟨by dsimp only; omega, fun h => hreq ((W.requested _).mpr (.inl h)), c₀, hc₀, ?_, ?_⟩
          · rw [hpeer]
          · rw [hpeer]; exact hcovers
      · -- a piece passed over before stays without a peer, as capacity only shrinks
        have hp'' : p < w.piece := by
          have : p ≠ w.piece := by rintro rfl; exact hnot (Finset.mem_insert_self _ _)
          dsimp only at hp'
          omega
        have hold := W.maximal p hp hp'' fun h => hnot (Finset.mem_insert_of_mem h)
        rw [P.eq] at hold
        rcases List.mem_append.mp hc' with h | h
        · exact hold c' (List.mem_append_left _ h)
        · rcases List.mem_cons.mp h with rfl | h
          · by_contra hav
            have := Cap.available_of_charge (by simpa using hav)
            rw [hold c (by simp)] at this
            cases this
          · exact hold c' (by simp [h])
    · next hpick =>
      refine ⟨by dsimp only; omega, by dsimp only; omega, hceiling, W.le_ceiling, W.caps, W.room,
        W.requested, W.increasing, fun a ha => ?_, fun p hp hp' hnot => ?_⟩
      · obtain ⟨hrange, hrest⟩ := W.assigned a ha
        exact ⟨by dsimp only; omega, hrest⟩
      · by_cases hpw : p = w.piece
        · subst hpw
          exact pick_eq_none.mp hpick
        · exact W.maximal p hp (by dsimp only at hp'; omega) hnot

/-- The loop ends past its ceiling, with the invariant. -/
theorem Walked.loop {start w : Walk} (fuel : Nat) (W : Walked scanCeiling start w)
    (hnodup : (start.caps.map (·.peer.id)).Nodup) (hmax : scanCeiling ≤ u64Max)
    (hfuel : scanCeiling + 1 ≤ w.piece + fuel) :
    Walked scanCeiling start (Walk.loop scanCeiling fuel w) ∧
      (Walk.loop scanCeiling fuel w).ceiling < (Walk.loop scanCeiling fuel w).piece := by
  induction fuel generalizing w with
  | zero =>
    have := W.ceiling_le
    exact ⟨W, by rw [Walk.loop]; omega⟩
  | succ fuel ih =>
    rw [Walk.loop]
    split
    · next hpiece =>
      have hstep : (w.visit scanCeiling).piece = w.piece + 1 := by
        unfold Walk.visit
        split
        · rfl
        · split <;> rfl
      exact ih (W.visit hnodup hmax hpiece) (by rw [hstep]; omega)
    · next hpiece => exact ⟨W, Nat.lt_of_not_le hpiece⟩

namespace Scheduler

variable {s : Scheduler} {nextNeeded head : Nat} {peers : List PeerView}
  {queueSlots : Option (OrderedMap Nat Nat)}

/-! ### The scan limit -/

/-- The policy horizon with queue slots, the spare capacity without. -/
def scanLimit (s : Scheduler) (peers : List PeerView) (queueSlots : Option (OrderedMap Nat Nat)) :
    Nat :=
  match queueSlots with
  | some _ => s.maxInFlight * (peers.filter (·.unchoked)).length
  | none => ((peers.filter (·.unchoked)).map fun p => s.maxInFlight - p.inFlight).sum

theorem foldl_saturatingAdd (caps : List Cap) (n total : Nat) (h : total ≤ u64Max) :
    caps.foldl (fun total _ => saturatingAdd total n) total =
      min (total + n * caps.length) u64Max := by
  induction caps generalizing total with
  | nil => simp [h]
  | cons c caps ih =>
    rw [List.foldl_cons, ih _ (saturatingAdd_le_max ..), List.length_cons, Nat.mul_succ]
    simp only [saturatingAdd]
    omega

theorem map_spare_caps :
    (s.caps peers queueSlots).map (·.spare) =
      (peers.filter (·.unchoked)).map fun p => s.maxInFlight - p.inFlight := by
  simp only [caps, List.map_map]
  rfl

theorem sum_spare_le (s : Scheduler) (peers : List PeerView)
    (queueSlots : Option (OrderedMap Nat Nat)) :
    ((s.caps peers queueSlots).map (·.spare)).sum ≤
      s.maxInFlight * (peers.filter (·.unchoked)).length := by
  rw [map_spare_caps]
  generalize peers.filter (·.unchoked) = l
  induction l with
  | nil => simp
  | cons p l ih =>
    rw [List.map_cons, List.sum_cons, List.length_cons, Nat.mul_succ]
    omega

theorem scanSlots_le (s : Scheduler) (peers : List PeerView)
    (queueSlots : Option (OrderedMap Nat Nat)) :
    s.scanSlots (s.caps peers queueSlots) queueSlots ≤ s.scanLimit peers queueSlots := by
  cases queueSlots with
  | some slots =>
    rw [scanSlots, foldl_saturatingAdd _ _ _ (Nat.zero_le _), scanLimit, Nat.zero_add]
    simp [caps]
  | none =>
    rw [scanSlots, totalSpare, scanLimit, map_spare_caps]
    exact Nat.mod_le ..

theorem totalSpare_le_scanSlots (s : Scheduler) (peers : List PeerView)
    (queueSlots : Option (OrderedMap Nat Nat)) :
    totalSpare (s.caps peers queueSlots) ≤ s.scanSlots (s.caps peers queueSlots) queueSlots := by
  cases queueSlots with
  | some slots =>
    rw [scanSlots, foldl_saturatingAdd _ _ _ (Nat.zero_le _), totalSpare, Nat.zero_add]
    have hsum := sum_spare_le s peers (some slots)
    have hmod : ((s.caps peers (some slots)).map (·.spare)).sum % 2 ^ 64 ≤ u64Max :=
      Nat.le_of_lt_succ (Nat.mod_lt _ (by decide))
    have hlen : (s.caps peers (some slots)).length = (peers.filter (·.unchoked)).length := by
      simp [caps]
    rw [hlen]
    exact le_min ((Nat.mod_le ..).trans hsum) hmod
  | none => exact Nat.le_refl _

theorem scanCeiling_le :
    s.scanCeiling nextNeeded head peers queueSlots ≤
      min head (nextNeeded + s.scanLimit peers queueSlots) := by
  have := saturatingAdd_le_add nextNeeded (s.scanSlots (s.caps peers queueSlots) queueSlots)
  have := scanSlots_le s peers queueSlots
  unfold scanCeiling
  omega

/-! ### The walk of a call -/

theorem nodup_caps (h : (peers.map (·.id)).Nodup) :
    ((s.caps peers queueSlots).map (·.peer.id)).Nodup := by
  have hids : (s.caps peers queueSlots).map (·.peer.id) = (peers.filter (·.unchoked)).map (·.id) := by
    simp only [caps, List.map_map]
    rfl
  rw [hids]
  exact h.sublist (List.filter_sublist.map _)

theorem walk_spec (s : Scheduler) (nextNeeded head : Nat) (queueSlots : Option (OrderedMap Nat Nat))
    (h : (peers.map (·.id)).Nodup) :
    Walked (s.scanCeiling nextNeeded head peers queueSlots)
      (s.walkStart nextNeeded head peers queueSlots) (s.walk nextNeeded head peers queueSlots) ∧
    (s.walk nextNeeded head peers queueSlots).ceiling <
      (s.walk nextNeeded head peers queueSlots).piece := by
  have hceiling : (s.walkStart nextNeeded head peers queueSlots).ceiling ≤
      s.scanCeiling nextNeeded head peers queueSlots := by
    have := saturatingAdd_mono (Nat.le_refl nextNeeded)
      (totalSpare_le_scanSlots s peers queueSlots)
    simp only [walkStart, scanCeiling]
    omega
  have hmax : s.scanCeiling nextNeeded head peers queueSlots ≤ u64Max :=
    (Nat.min_le_right ..).trans (saturatingAdd_le_max ..)
  apply (Walked.refl hceiling rfl).loop _ (nodup_caps h) hmax
  simp only [walkStart]
  omega

/-- The queue slots of a peer in a call. -/
def slotsOf (s : Scheduler) (queueSlots : Option (OrderedMap Nat Nat)) (v : PeerView) : Nat :=
  match queueSlots with
  | some slots => (slots.get? v.id).getD 0
  | none => s.maxInFlight - v.inFlight

theorem mem_caps :
    c ∈ s.caps peers queueSlots ↔ ∃ v ∈ peers, v.unchoked = true ∧
      c = ⟨v, s.maxInFlight - v.inFlight, s.slotsOf queueSlots v⟩ := by
  simp only [caps, List.mem_map, List.mem_filter]
  constructor
  · rintro ⟨v, ⟨hv, hu⟩, rfl⟩
    exact ⟨v, hv, hu, rfl⟩
  · rintro ⟨v, hv, hu, rfl⟩
    exact ⟨v, ⟨hv, hu⟩, rfl⟩

/-- An assignment goes to an unchoked peer of the call whose window covers the piece. -/
theorem serves_of_mem (h : (peers.map (·.id)).Nodup) {x : Nat × Nat}
    (hx : x ∈ (s.walk nextNeeded head peers queueSlots).out) :
    ∃ v ∈ peers, v.id = x.1 ∧ v.unchoked = true ∧ v.covers x.2 = true := by
  obtain ⟨-, -, c, hc, hid, hcovers⟩ := (s.walk_spec nextNeeded head queueSlots h).1.assigned x hx
  obtain ⟨v, hv, hu, rfl⟩ := mem_caps.mp hc
  exact ⟨v, hv, hid, hu, hcovers⟩

/-- An assignment is of a piece up to the head, and some peer could take it before the call. -/
theorem available_of_mem (h : (peers.map (·.id)).Nodup) {x : Nat × Nat}
    (hx : x ∈ (s.walk nextNeeded head peers queueSlots).out) :
    x.2 ≤ head ∧ ∃ c ∈ s.caps peers queueSlots, c.available x.2 = true := by
  obtain ⟨W, -⟩ := s.walk_spec nextNeeded head queueSlots h
  obtain ⟨⟨-, -, hle⟩, -, c, hc, hid, hcovers⟩ := W.assigned x hx
  have hload : 0 < load (s.walk nextNeeded head peers queueSlots).out c.peer.id :=
    List.length_pos_of_mem (List.mem_filter.mpr ⟨hx, by simp [hid]⟩)
  obtain ⟨hspare, hslots⟩ := W.room c hc
  refine ⟨hle.trans (Nat.min_le_left ..), c, hc, ?_⟩
  simp only [Cap.available, hcovers, Bool.and_true, Bool.and_eq_true, decide_eq_true_eq]
  exact ⟨hload.trans_le hspare, hload.trans_le hslots⟩

/-- No peer gets more requests than it has capacity and slots for. -/
theorem load_le (s : Scheduler) (nextNeeded head : Nat) (queueSlots : Option (OrderedMap Nat Nat))
    (h : (peers.map (·.id)).Nodup) {v : PeerView} (hv : v ∈ peers) :
    load (s.walk nextNeeded head peers queueSlots).out v.id ≤ s.maxInFlight - v.inFlight ∧
      load (s.walk nextNeeded head peers queueSlots).out v.id ≤ s.slotsOf queueSlots v := by
  by_cases hu : v.unchoked = true
  · exact (s.walk_spec nextNeeded head queueSlots h).1.room _ (mem_caps.mpr ⟨v, hv, hu, rfl⟩)
  · -- a choked peer is given nothing
    have hzero : load (s.walk nextNeeded head peers queueSlots).out v.id = 0 := by
      rw [load, List.length_eq_zero_iff, List.filter_eq_nil_iff]
      intro x hx hid
      obtain ⟨v', hv', hid', hu', -⟩ := serves_of_mem h hx
      have hsame : v'.id = v.id := hid'.trans (by simpa using hid)
      exact hu (List.inj_on_of_nodup_map h hv' hv hsame ▸ hu')
    omega

/-- A piece passed over and not requested has no peer left that could take it. -/
theorem no_peer_left (h : (peers.map (·.id)).Nodup) {p : Nat} (hp : nextNeeded ≤ p)
    (hvisited : p < (s.walk nextNeeded head peers queueSlots).piece)
    (hnot : p ∉ (s.walk nextNeeded head peers queueSlots).requested) {v : PeerView} (hv : v ∈ peers)
    (hu : v.unchoked = true) (hcovers : v.covers p = true)
    (hspare : v.inFlight + load (s.walk nextNeeded head peers queueSlots).out v.id < s.maxInFlight) :
    s.slotsOf queueSlots v ≤ load (s.walk nextNeeded head peers queueSlots).out v.id := by
  have W := (s.walk_spec nextNeeded head queueSlots h).1
  by_contra hslots
  have hmem : Cap.after (s.walk nextNeeded head peers queueSlots).out
      ⟨v, s.maxInFlight - v.inFlight, s.slotsOf queueSlots v⟩ ∈
        (s.walk nextNeeded head peers queueSlots).caps := by
    rw [W.caps]
    exact List.mem_map_of_mem (mem_caps.mpr ⟨v, hv, hu, rfl⟩)
  have hfree : (Cap.after (s.walk nextNeeded head peers queueSlots).out
      ⟨v, s.maxInFlight - v.inFlight, s.slotsOf queueSlots v⟩).available p = true := by
    have hroom : 0 < s.maxInFlight - v.inFlight -
        load (s.walk nextNeeded head peers queueSlots).out v.id := by omega
    have hslot : 0 < s.slotsOf queueSlots v -
        load (s.walk nextNeeded head peers queueSlots).out v.id := by omega
    simp [Cap.available, Cap.after, hcovers, hroom, hslot]
  rw [W.maximal p hp hvisited hnot _ hmem] at hfree
  cases hfree

end Scheduler

end Outpace.Swarm

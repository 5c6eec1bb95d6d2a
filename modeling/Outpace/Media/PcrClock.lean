import Outpace.Data.Cyclic
import Outpace.Data.Run
import Outpace.Media.TsPacket

/-!
# The program clock of a transport stream

`ts_timing` and `SelectedPcrClock` of `ace-media/src/mpegts.rs`: the clock follows the first PID
that carries a PCR, and starts over at a discontinuity or at a PCR that runs back by more than half
its range. Times are in ticks of 90 kHz.
-/

namespace Outpace.Media

/-- `PCR_MODULUS`. -/
def pcrModulus : Nat := 2 ^ 33

structure TsTiming where
  pid : Nat
  pcr : Option Nat
  discontinuity : Bool
  deriving DecidableEq

/-- The 33 bits of the PCR base. -/
def pcrBase (pkt : List UInt8) : Nat :=
  (byteAt pkt 6).toNat <<< 25 ||| (byteAt pkt 7).toNat <<< 17 ||| (byteAt pkt 8).toNat <<< 9 |||
    (byteAt pkt 9).toNat <<< 1 ||| (byteAt pkt 10).toNat >>> 7

def tsTiming (pkt : List UInt8) : TsTiming :=
  if byteAt pkt 0 ≠ 0x47 ∨ byteAt pkt 3 &&& 0x20 = 0 then ⟨0, none, false⟩
  else
    let adaptationLen := (byteAt pkt 4).toNat
    if adaptationLen = 0 ∨ 183 < adaptationLen then ⟨tsPid pkt, none, false⟩
    else
      let flags := byteAt pkt 5
      { pid := tsPid pkt
        pcr := if flags &&& 0x10 ≠ 0 ∧ 7 ≤ adaptationLen then some (pcrBase pkt) else none
        discontinuity := flags &&& 0x80 != 0 }

/-- The way from one PCR to another, if it is not more than half around. -/
def pcrDelta (start stop : Nat) : Option Nat := halfForward pcrModulus start stop

inductive ClockObservation where
  | ignored
  | advanced (ticks : Nat)
  | reset
  deriving DecidableEq

structure SelectedPcrClock where
  pid : Option Nat
  start : Option Nat
  last : Option Nat
  deriving DecidableEq

namespace SelectedPcrClock

def new : SelectedPcrClock := ⟨none, none, none⟩

def elapsed (c : SelectedPcrClock) : Option Nat := do pcrDelta (← c.start) (← c.last)

def observe (c : SelectedPcrClock) (timing : TsTiming) : ClockObservation × SelectedPcrClock :=
  if timing.discontinuity then (.reset, new)
  else match timing.pcr with
    | none => (.ignored, c)
    | some pcr =>
      if c.pid.any (· ≠ timing.pid) then (.ignored, c)
      else if c.last.any fun last => (pcrDelta last pcr).isNone then (.reset, new)
      else
        let c : SelectedPcrClock := ⟨some timing.pid, some (c.start.getD pcr), some pcr⟩
        (.advanced (c.elapsed.getD 0), c)

/-- What an observation can be. -/
inductive Observes (c : SelectedPcrClock) (timing : TsTiming) :
    ClockObservation × SelectedPcrClock → Prop
  | gap : timing.discontinuity = true → Observes c timing (.reset, new)
  | silent : timing.discontinuity = false → timing.pcr = none → Observes c timing (.ignored, c)
  | other {pcr : Nat} : timing.discontinuity = false → timing.pcr = some pcr →
    c.pid.any (· ≠ timing.pid) = true → Observes c timing (.ignored, c)
  | back {pcr : Nat} : timing.discontinuity = false → timing.pcr = some pcr →
    c.pid.any (· ≠ timing.pid) = false →
    (c.last.any fun last => (pcrDelta last pcr).isNone) = true → Observes c timing (.reset, new)
  | accept {pcr : Nat} : timing.discontinuity = false → timing.pcr = some pcr →
    c.pid.any (· ≠ timing.pid) = false →
    (c.last.any fun last => (pcrDelta last pcr).isNone) = false →
    Observes c timing (.advanced
      (elapsed ⟨some timing.pid, some (c.start.getD pcr), some pcr⟩ |>.getD 0),
      ⟨some timing.pid, some (c.start.getD pcr), some pcr⟩)

theorem observes (c : SelectedPcrClock) (timing : TsTiming) :
    Observes c timing (c.observe timing) := by
  unfold observe
  split
  · next hgap => exact .gap hgap
  next hgap =>
  have hgap := Bool.eq_false_iff.mpr hgap
  split
  · next hpcr => exact .silent hgap hpcr
  next pcr hpcr =>
  split
  · next hpid => exact .other hgap hpcr hpid
  next hpid =>
  have hpid := Bool.eq_false_iff.mpr hpid
  split
  · next hback => exact .back hgap hpcr hpid hback
  · next hback => exact .accept hgap hpcr hpid (Bool.eq_false_iff.mpr hback)

/-! ### What the clock measures -/

/-- A clock with the PCRs that it has accepted since it was last reset, each with its PID. -/
def watch (w : SelectedPcrClock × List (Nat × Nat)) (timing : TsTiming) :
    SelectedPcrClock × List (Nat × Nat) :=
  match w.1.observe timing with
  | (.reset, c) => (c, [])
  | (.advanced _, c) => (c, w.2 ++ timing.pcr.toList.map (timing.pid, ·))
  | (.ignored, c) => (c, w.2)

/-- The PCR, if there is one, has 33 bits. -/
def InRange (timing : TsTiming) : Prop := ∀ pcr, timing.pcr = some pcr → pcr < pcrModulus

/-- The clock runs from the first accepted PCR to the last one. -/
structure Follows (c : SelectedPcrClock) (accepted : List (Nat × Nat)) : Prop where
  start : c.start = (accepted.map (·.2)).head?
  last : c.last = (accepted.map (·.2)).getLast?
  pid : c.pid = accepted.getLast?.map (·.1)
  same : ∀ e ∈ accepted, c.pid = some e.1
  range : ∀ pcr ∈ accepted.map (·.2), pcr < pcrModulus

theorem follows_new : Follows new [] :=
  ⟨rfl, rfl, rfl, fun _ h => absurd h List.not_mem_nil, fun _ h => absurd h List.not_mem_nil⟩

variable {c : SelectedPcrClock} {accepted : List (Nat × Nat)} {timing : TsTiming}

theorem Follows.accept (F : Follows c accepted) {pcr : Nat}
    (hpid : c.pid.any (· ≠ timing.pid) = false) (hpcr : pcr < pcrModulus) :
    Follows ⟨some timing.pid, some (c.start.getD pcr), some pcr⟩
      (accepted ++ [(timing.pid, pcr)]) := by
  refine ⟨?_, ?_, ?_, fun e he => ?_, fun p hp => ?_⟩
  · rw [F.start, List.map_append]
    cases accepted <;> rfl
  · simp
  · simp
  · rcases List.mem_append.mp he with he | he
    · rw [F.same e he] at hpid
      exact congrArg some (by simpa using hpid : e.1 = timing.pid).symm
    · rw [List.mem_singleton.mp he]
  · rw [List.map_append, List.mem_append] at hp
    rcases hp with hp | hp
    · exact F.range p hp
    · rw [List.mem_singleton.mp hp]
      exact hpcr

theorem Follows.watch (F : Follows c accepted) (h : InRange timing) :
    Follows (watch (c, accepted) timing).1 (watch (c, accepted) timing).2 := by
  have O := c.observes timing
  unfold SelectedPcrClock.watch
  generalize c.observe timing = out at O
  cases O with
  | gap => exact follows_new
  | silent => exact F
  | other => exact F
  | back => exact follows_new
  | accept _ hpcr hpid _ =>
    rw [hpcr]
    exact F.accept hpid (h _ hpcr)

/-- The ticks along the accepted PCRs. -/
def ticks (accepted : List (Nat × Nat)) : Nat := travelled pcrModulus (accepted.map (·.2))

-- stated for any function: the modulus of a clock must not be counted up
theorem bind_of_some {f : Nat → Nat → Option Nat} {x y : Option Nat} {a b : Nat} (hx : x = some a)
    (hy : y = some b) : (do f (← x) (← y)) = f a b := by
  subst hx hy
  rfl

/-- What is elapsed is the way through the accepted PCRs, up to whole rounds. -/
theorem Follows.elapsed (F : Follows c accepted) (hne : accepted ≠ []) :
    c.elapsed = if pcrModulus / 2 < ticks accepted % pcrModulus then none
      else some (ticks accepted % pcrModulus) := by
  obtain ⟨start, hstart⟩ : ∃ start, (accepted.map (·.2)).head? = some start :=
    Option.isSome_iff_exists.mp (by simpa using hne)
  obtain ⟨last, hlast⟩ : ∃ last, (accepted.map (·.2)).getLast? = some last :=
    Option.isSome_iff_exists.mp (by simpa using hne)
  have hforward : forward pcrModulus start last = ticks accepted % pcrModulus :=
    forward_eq_travelled F.range hstart hlast
  have helapsed : c.elapsed = halfForward pcrModulus start last :=
    bind_of_some (F.start.trans hstart) (F.last.trans hlast)
  rw [helapsed]
  split
  · next hlt => exact halfForward_of_lt (hforward ▸ hlt)
  · next hle => rw [halfForward_of_le (hforward ▸ Nat.not_lt.mp hle), hforward]

theorem Follows.pid_eq (F : Follows c accepted) {pid last : Nat}
    (h : accepted.getLast? = some (pid, last)) : c.pid = some pid ∧ c.last = some last := by
  refine ⟨by rw [F.pid, h]; rfl, ?_⟩
  rw [F.last, List.getLast?_map, h]
  rfl

/-- A PCR that is accepted or makes a step back is on the PID that is followed. -/
theorem Follows.getLast? (F : Follows c accepted) {last : Nat} (hlast : c.last = some last)
    (hpid : c.pid.any (· ≠ timing.pid) = false) :
    accepted.getLast? = some (timing.pid, last) := by
  rw [F.last, List.getLast?_map] at hlast
  cases he : accepted.getLast? with
  | none => rw [he] at hlast; cases hlast
  | some e =>
    rw [he] at hlast
    rw [F.same e (List.mem_of_getLast? he)] at hpid
    have heq : e.1 = timing.pid := by simpa using hpid
    have hpcr : e.2 = last := Option.some.inj hlast
    rw [← heq, ← hpcr]

theorem Follows.back_iff (F : Follows c accepted) {pcr last : Nat} (hpcr : pcr < pcrModulus)
    (hlast : accepted.getLast? = some (timing.pid, last)) :
    (pcrDelta last pcr).isNone = true ↔
      0 < forward pcrModulus pcr last ∧ forward pcrModulus pcr last < pcrModulus / 2 := by
  have hrange := F.range last (List.mem_map.mpr ⟨_, List.mem_of_getLast? hlast, rfl⟩)
  exact isNone_halfForward_iff hrange hpcr (by decide)

/-- A reset is a discontinuity, or less than half a round back on the PID that is followed. -/
theorem Follows.reset_iff (F : Follows c accepted) (h : InRange timing) :
    (c.observe timing).1 = .reset ↔ timing.discontinuity = true ∨
      ∃ pcr last, timing.pcr = some pcr ∧ accepted.getLast? = some (timing.pid, last) ∧
        0 < forward pcrModulus pcr last ∧ forward pcrModulus pcr last < pcrModulus / 2 := by
  have O := c.observes timing
  generalize c.observe timing = out at O
  cases O with
  | gap hgap => exact iff_of_true rfl (.inl hgap)
  | silent hgap hnone =>
    refine iff_of_false ClockObservation.noConfusion ?_
    rintro (hgap' | ⟨pcr, last, hpcr, -⟩)
    · rw [hgap] at hgap'; cases hgap'
    · rw [hnone] at hpcr; cases hpcr
  | other hgap _ hpid =>
    refine iff_of_false ClockObservation.noConfusion ?_
    rintro (hgap' | ⟨pcr, last, -, hlast, -⟩)
    · rw [hgap] at hgap'; cases hgap'
    · rw [(F.pid_eq hlast).1] at hpid
      simp at hpid
  | back _ hpcr hpid hback =>
    refine iff_of_true rfl (.inr ?_)
    cases hlast : c.last with
    | none => rw [hlast] at hback; cases hback
    | some last =>
      have hget := F.getLast? hlast hpid
      rw [hlast, Option.any_some] at hback
      exact ⟨_, last, hpcr, hget, (F.back_iff (h _ hpcr) hget).mp hback⟩
  | accept hgap hpcr hpid hback =>
    refine iff_of_false ClockObservation.noConfusion ?_
    rintro (hgap' | ⟨pcr, last, hpcr', hlast, hstep⟩)
    · rw [hgap] at hgap'; cases hgap'
    · rw [hpcr] at hpcr'
      cases hpcr'
      rw [(F.pid_eq hlast).2, Option.any_some] at hback
      exact absurd ((F.back_iff (h _ hpcr) hlast).mpr hstep) (Bool.eq_false_iff.mp hback)

theorem Follows.run {timings : List TsTiming} (h : ∀ timing ∈ timings, InRange timing) :
    Follows (Outpace.run SelectedPcrClock.watch (new, []) timings).1
      (Outpace.run SelectedPcrClock.watch (new, []) timings).2 := by
  refine run_induction (I := fun w : SelectedPcrClock × List (Nat × Nat) => Follows w.1 w.2)
    (fun w timing F hrange => F.watch hrange) follows_new (Meets.of_forall fun timing hmem _ => ?_)
  exact h timing hmem

/-- The ticks only grow until the clock is reset. -/
theorem ticks_le_watch (c : SelectedPcrClock) (accepted : List (Nat × Nat)) (timing : TsTiming)
    (h : (c.observe timing).1 ≠ .reset) :
    ticks accepted ≤ ticks (watch (c, accepted) timing).2 := by
  have O := c.observes timing
  unfold watch
  generalize c.observe timing = out at O h
  cases O with
  | gap => exact absurd rfl h
  | silent => exact Nat.le_refl _
  | other => exact Nat.le_refl _
  | back => exact absurd rfl h
  | accept _ hpcr =>
    rw [hpcr, ticks, ticks, Option.toList_some, List.map_singleton, List.map_append,
      List.map_singleton, travelled_concat]
    exact Nat.le_add_right ..

/-- A clock that has seen any packets since its last reset, of which `accepted` moved it. As long
as these are not more than half a round apart in all, it measures the sum of the ways forward, which
only grows and is positive once one of them is; and it is reset exactly by a discontinuity or a step
back of less than half a round. -/
theorem pcr_clock_measures (timings : List TsTiming) (next : TsTiming)
    (h : ∀ timing ∈ timings, InRange timing) (hnext : InRange next) :
    let w := Outpace.run watch (new, []) timings
    (∀ e ∈ w.2, w.1.pid = some e.1) ∧
    (w.2 ≠ [] → ticks w.2 ≤ pcrModulus / 2 → w.1.elapsed = some (ticks w.2)) ∧
    (w.2 ≠ [] → pcrModulus / 2 < ticks w.2 % pcrModulus → w.1.elapsed = none) ∧
    ((w.1.observe next).1 ≠ .reset → ticks w.2 ≤ ticks (watch w next).2) ∧
    (∀ xs ys start stop, w.2.map (·.2) = xs ++ start :: stop :: ys →
      0 < forward pcrModulus start stop → 0 < ticks w.2) ∧
    ((w.1.observe next).1 = .reset ↔ next.discontinuity = true ∨
      ∃ pcr last, next.pcr = some pcr ∧ w.2.getLast? = some (next.pid, last) ∧
        0 < forward pcrModulus pcr last ∧ forward pcrModulus pcr last < pcrModulus / 2) := by
  intro w
  have F : Follows w.1 w.2 := .run h
  refine ⟨F.same, fun hne hle => ?_, fun hne hlt => ?_, ticks_le_watch w.1 w.2 next,
    fun xs ys start stop heq hpos => ?_, F.reset_iff hnext⟩
  · have hround : ticks w.2 % pcrModulus = ticks w.2 :=
      Nat.mod_eq_of_lt (Nat.lt_of_le_of_lt hle (by decide))
    rw [F.elapsed hne, hround, if_neg (Nat.not_lt.mpr hle)]
  · rw [F.elapsed hne, if_pos hlt]
  · rw [ticks, heq]
    exact travelled_pos hpos

/-- A clock that runs over the end of its range, with a packet of another PID in between. -/
def wrappingTimings : List TsTiming :=
  [⟨256, some (2 ^ 33 - 10), false⟩, ⟨257, some 7, false⟩, ⟨256, some 20, false⟩]

theorem pcr_clock_measures_wrapping :
    (Outpace.run watch (new, []) wrappingTimings).1.elapsed = some 30 :=
  (pcr_clock_measures wrappingTimings ⟨256, none, false⟩
    (fun timing hmem pcr hpcr => by
      simp only [wrappingTimings, List.mem_cons, List.not_mem_nil, or_false] at hmem
      rcases hmem with rfl | rfl | rfl <;> cases hpcr <;> decide)
    (fun _ hpcr => by cases hpcr)).2.1 (by decide) (by decide)

/-- Two steps forward that are more than half a round in all. -/
theorem pcr_clock_loses_track :
    let w := Outpace.run watch (new, [])
      [⟨256, some 0, false⟩, ⟨256, some (2 ^ 32), false⟩, ⟨256, some (2 ^ 32 + 1), false⟩]
    w.2.map (·.2) = [0, 2 ^ 32, 2 ^ 32 + 1] ∧ ticks w.2 = 2 ^ 32 + 1 ∧ w.1.elapsed = none := by
  decide

end SelectedPcrClock

end Outpace.Media

import Mathlib.Data.List.TakeWhile
import Outpace.Data.Run

/-!
# The recovery budget of the audio normaliser

`RecoveryWindow` decides whether a worker may start another generation. It keeps only the times that
can still count; here its verdicts are read off the whole history of a worker.
-/

namespace Outpace.Engine

/-- The one failure of a recovery. -/
inductive HlsFailure where
  | recoveryLimit

inductive RecoveryReason where
  | source
  | lag
  | layout
  | transport
  deriving DecidableEq

/-- Sixty seconds, in nanoseconds. -/
def recoverySpan : Nat := 60 * 1000000000

structure RecoveryWindow where
  invalidations : List Nat := []
  generation : Nat := 1
  pairedMarker : Bool := false

namespace RecoveryWindow

def expired (now t : Nat) : Bool := recoverySpan ≤ now - t

/-- The invalidations left when the expired ones are popped off the front. -/
def recent (w : RecoveryWindow) (now : Nat) : List Nat := w.invalidations.dropWhile (expired now)

def invalidate (w : RecoveryWindow) (now : Nat) (reason : RecoveryReason) :
    RecoveryWindow × Except HlsFailure Nat :=
  if reason = .transport ∧ w.pairedMarker = true then (w, .ok w.generation)
  else if (w.recent now).length = 3 then
    ({ w with invalidations := w.recent now }, .error .recoveryLimit)
  else
    (⟨w.recent now ++ [now], w.generation + 1, reason = .source⟩, .ok (w.generation + 1))

def opening (w : RecoveryWindow) : RecoveryWindow := { w with pairedMarker := false }

end RecoveryWindow

/-- What a worker does with its window, each request some time after the one before. -/
inductive RecoveryEvent where
  | invalidate (elapsed : Nat) (reason : RecoveryReason)
  | opening

/-- What the history of a worker tells: an invalidation that was counted, or an opening. -/
inductive RecoveryMark where
  | counted (time : Nat) (reason : RecoveryReason)
  | opened

/-- The monotonic clock and the window. -/
structure Recovery where
  now : Nat := 0
  window : RecoveryWindow := {}

namespace Recovery

def step (s : Recovery) : RecoveryEvent → Recovery
  | .invalidate elapsed reason =>
    ⟨s.now + elapsed, (s.window.invalidate (s.now + elapsed) reason).1⟩
  | .opening => { s with window := s.window.opening }

def marks (s : Recovery) : RecoveryEvent → List RecoveryMark
  | .invalidate elapsed reason =>
    if (s.window.invalidate (s.now + elapsed) reason).1.generation = s.window.generation then []
    else [.counted (s.now + elapsed) reason]
  | .opening => [.opened]

end Recovery

namespace RecoveryMark

def time? : RecoveryMark → Option Nat
  | counted time _ => some time
  | opened => none

/-- The times of the counted invalidations. -/
def times (log : List RecoveryMark) : List Nat := log.filterMap time?

/-- The last thing that happened is a counted loss of the source. -/
def endsInSource (log : List RecoveryMark) : Bool :=
  match log.getLast? with
  | some (.counted _ .source) => true
  | _ => false

theorem endsInSource_counted (log : List RecoveryMark) (t : Nat) (reason : RecoveryReason) :
    endsInSource (log ++ [.counted t reason]) = decide (reason = .source) := by
  cases reason <;> simp [endsInSource]

end RecoveryMark

/-- The window of a worker that counted `times`: it holds the last ones, and what it dropped has
expired. -/
structure Recalls (s : Recovery) (times : List Nat) : Prop where
  generation : s.window.generation = times.length + 1
  sorted : times.Pairwise (· ≤ ·)
  past : ∀ t ∈ times, t ≤ s.now
  kept : ∃ old, times = old ++ s.window.invalidations ∧ ∀ t ∈ old, t + recoverySpan ≤ s.now
  bounded : s.window.invalidations.length ≤ 3
  spaced : ∀ i a b, times[i]? = some a → times[i + 3]? = some b → a + recoverySpan ≤ b

namespace Recalls

variable {s : Recovery} {times : List Nat}

theorem init : Recalls {} [] :=
  ⟨rfl, .nil, by simp, ⟨[], rfl, by simp⟩, Nat.zero_le 3, by simp⟩

/-- After the pops the window holds exactly the counted times that have not expired. -/
theorem recent_eq (h : Recalls s times) (elapsed : Nat) :
    ∃ old, times = old ++ s.window.recent (s.now + elapsed) ∧
      (∀ t ∈ old, t + recoverySpan ≤ s.now + elapsed) ∧
      ∀ t ∈ s.window.recent (s.now + elapsed), s.now + elapsed < t + recoverySpan := by
  obtain ⟨old, rfl, hold⟩ := h.kept
  have hspan : 0 < recoverySpan := by decide
  refine ⟨old ++ s.window.invalidations.takeWhile (RecoveryWindow.expired (s.now + elapsed)),
    ?_, ?_, ?_⟩
  · rw [List.append_assoc, RecoveryWindow.recent, List.takeWhile_append_dropWhile]
  · intro t ht
    rcases List.mem_append.mp ht with ht | ht
    · exact Nat.le_add_right_of_le (hold t ht)
    · have hexpired : RecoveryWindow.expired (s.now + elapsed) t = true := List.mem_takeWhile_imp ht
      have := of_decide_eq_true hexpired
      omega
  · -- the first that stays has not expired, and the others are not older
    have hdrop : (s.window.recent (s.now + elapsed)).Pairwise (· ≤ ·) :=
      (List.pairwise_append.mp h.sorted).2.1.sublist (List.dropWhile_sublist _)
    have hhead := List.head?_dropWhile_not (RecoveryWindow.expired (s.now + elapsed))
      s.window.invalidations
    rw [← RecoveryWindow.recent] at hhead
    generalize s.window.recent (s.now + elapsed) = recent at *
    cases recent with
    | nil => simp
    | cons first rest =>
      have hfirst := of_decide_eq_false hhead
      intro t ht
      have : first ≤ t := by
        rcases List.mem_cons.mp ht with rfl | ht
        · exact Nat.le_refl t
        · exact List.rel_of_pairwise_cons hdrop ht
      omega

theorem length_recent (h : Recalls s times) (elapsed : Nat) :
    (s.window.recent (s.now + elapsed)).length =
      times.countP fun t => s.now + elapsed < t + recoverySpan := by
  obtain ⟨old, hlog, hold, hrecent⟩ := h.recent_eq elapsed
  rw [hlog, List.countP_append, List.countP_eq_zero.mpr, List.countP_eq_length.mpr, Nat.zero_add]
  · simpa using hrecent
  · simpa using hold

theorem length_recent_le (h : Recalls s times) (now : Nat) : (s.window.recent now).length ≤ 3 :=
  Nat.le_trans (List.dropWhile_sublist _).length_le h.bounded

/-- A refused request only pops. -/
theorem popped (h : Recalls s times) (elapsed : Nat) :
    Recalls ⟨s.now + elapsed, { s.window with invalidations := s.window.recent (s.now + elapsed) }⟩
      times := by
  obtain ⟨old, hlog, hold, -⟩ := h.recent_eq elapsed
  exact { h with
    past := fun t ht => Nat.le_add_right_of_le (h.past t ht)
    kept := ⟨old, hlog, hold⟩
    bounded := h.length_recent_le _ }

theorem waited (h : Recalls s times) (elapsed : Nat) :
    Recalls ⟨s.now + elapsed, s.window⟩ times := by
  obtain ⟨old, hlog, hold⟩ := h.kept
  exact { h with
    past := fun t ht => Nat.le_add_right_of_le (h.past t ht)
    kept := ⟨old, hlog, fun t ht => Nat.le_add_right_of_le (hold t ht)⟩ }

theorem counted (h : Recalls s times) (elapsed : Nat) (paired : Bool)
    (hlen : (s.window.recent (s.now + elapsed)).length < 3) :
    Recalls ⟨s.now + elapsed, s.window.recent (s.now + elapsed) ++ [s.now + elapsed],
      s.window.generation + 1, paired⟩ (times ++ [s.now + elapsed]) := by
  obtain ⟨old, hlog, hold, -⟩ := h.recent_eq elapsed
  have hpast t (ht : t ∈ times) : t ≤ s.now + elapsed := Nat.le_add_right_of_le (h.past t ht)
  refine ⟨?_, ?_, ?_, ⟨old, ?_, hold⟩, ?_, ?_⟩
  · rw [h.generation, List.length_append]
    rfl
  · exact List.pairwise_append.mpr ⟨h.sorted, List.pairwise_singleton _ _, by simpa using hpast⟩
  · intro t ht
    rcases List.mem_append.mp ht with ht | ht
    · exact hpast t ht
    · exact Nat.le_of_eq (List.mem_singleton.mp ht)
  · rw [hlog, List.append_assoc]
  · rw [List.length_append]
    exact hlen
  · -- a fourth time closes a row only if the first of the row has left the window
    intro i a b ha hb
    have hlength := congrArg List.length hlog
    rw [List.length_append] at hlength
    obtain hlt | hge := Nat.lt_or_ge (i + 3) times.length
    · rw [List.getElem?_append_left (by omega)] at ha hb
      exact h.spaced i a b ha hb
    · have hi := (List.getElem?_eq_some_iff.mp hb).1
      rw [List.length_append, List.length_singleton] at hi
      rw [List.getElem?_append_right hge, show i + 3 - times.length = 0 by omega] at hb
      rw [List.getElem?_append_left (by omega), hlog, List.getElem?_append_left (by omega)] at ha
      obtain rfl := Option.some.inj hb
      exact hold a (List.mem_of_getElem? ha)

end Recalls

open RecoveryMark in
theorem recalls_step (s : Recovery) (log : List RecoveryMark) (e : RecoveryEvent)
    (h : Recalls s (times log) ∧ s.window.pairedMarker = endsInSource log) :
    Recalls (s.step e) (times (log ++ s.marks e)) ∧
      (s.step e).window.pairedMarker = endsInSource (log ++ s.marks e) := by
  obtain ⟨h, hpaired⟩ := h
  have htimes : times (log ++ s.marks e) = times log ++ times (s.marks e) := List.filterMap_append
  rw [htimes]
  cases e with
  | opening =>
    refine ⟨?_, by simp [Recovery.step, Recovery.marks, endsInSource, RecoveryWindow.opening]⟩
    exact (List.append_nil (times log)).symm ▸ { h with }
  | invalidate elapsed reason =>
    have hle := h.length_recent_le (s.now + elapsed)
    simp only [Recovery.step, Recovery.marks, RecoveryWindow.invalidate]
    split
    · simpa [times] using ⟨h.waited elapsed, hpaired⟩
    · split
      · simpa [times] using ⟨h.popped elapsed, hpaired⟩
      · simpa [times, time?, endsInSource_counted] using h.counted elapsed _ (by omega)

open RecoveryMark in
/-- A worker's request is answered by its whole history: a transport error right after a counted
loss of the source starts nothing, three counted invalidations in the last sixty seconds refuse any
other request, and every other request opens the next generation. So no four counted invalidations
of a worker lie within sixty seconds. -/
theorem recovery_answers_history (events : List RecoveryEvent) (elapsed : Nat)
    (reason : RecoveryReason) :
    let s := run Recovery.step {} events
    let log := emits Recovery.step Recovery.marks {} events
    (s.window.invalidate (s.now + elapsed) reason).2 =
        (if reason = .transport ∧ endsInSource log = true then .ok ((times log).length + 1)
        else if 3 ≤ (times log).countP (fun t => s.now + elapsed < t + recoverySpan) then
          .error .recoveryLimit
        else .ok ((times log).length + 2)) ∧
      ∀ i a b, (times log)[i]? = some a → (times log)[i + 3]? = some b → a + recoverySpan ≤ b := by
  intro s log
  have hinit : Recalls {} (times []) ∧ ({} : Recovery).window.pairedMarker = endsInSource [] :=
    ⟨.init, rfl⟩
  obtain ⟨h, hpaired⟩ : Recalls s (times log) ∧ s.window.pairedMarker = endsInSource log :=
    run_emits_invariant recalls_step hinit events
  have hle := h.length_recent_le (s.now + elapsed)
  refine ⟨?_, h.spaced⟩
  rw [← hpaired, ← h.length_recent, ← h.generation, RecoveryWindow.invalidate]
  split
  · rfl
  · simp only [show 3 ≤ _ ↔ _ = 3 from ⟨fun h => hle.antisymm h, fun h => h.ge⟩]
    split <;> simp [h.generation]

end Outpace.Engine

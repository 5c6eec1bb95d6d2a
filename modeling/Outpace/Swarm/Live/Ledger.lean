import Mathlib.Data.Finset.SDiff
import Mathlib.Data.Finset.Filter
import Mathlib.Logic.Function.Basic
import Mathlib.Data.List.Nodup
import Outpace.Swarm.ActivePeers

/-!
# The request ledger

What a live session knows about its requests, as functions of piece and peer: what is requested,
what each peer has in flight, the timers, the pieces with chunks noted, and the complete pieces.
`Step` says what can happen to these books and which events go with it, and `History` is what the
events so far tell about a piece. The invariants are about ledger and history only.
-/

namespace Outpace.Swarm.Live

@[ext] structure Ledger where
  /-- The age at which a timer runs out. -/
  timeout : Nat
  cursor : Nat
  requested : Finset Nat
  flight : Nat → Finset Nat
  timer : Nat → Option Nat
  noted : Nat → Bool
  complete : Nat → Bool

inductive Event where
  /-- A request for the piece went to the peer. -/
  | assigned (id piece sent : Nat)
  /-- A round of assignments is over. -/
  | round
  | timedOut (piece now : Nat)
  | completed (piece : Nat)
  | skipped (target : Nat)
  deriving DecidableEq

namespace Ledger

variable (l : Ledger)

/-- Everything behind the target goes, except for what is requested. -/
def skip (target : Nat) : Ledger :=
  { l with
    cursor := target
    flight := fun id => (l.flight id).filter fun p => target ≤ p
    timer := fun p => if target ≤ p then l.timer p else none
    noted := fun p => decide (target ≤ p) && l.noted p
    complete := fun p => decide (target ≤ p) && l.complete p }

/-- The complete piece at the cursor leaves. -/
def take : Ledger :=
  { l with cursor := l.cursor + 1, complete := Function.update l.complete l.cursor false }

/-- A round gives pieces to peers, and takes some of them back. -/
def round (now : Nat) (sent cancelled : List (Nat × Nat)) : Ledger :=
  { l with
    requested := (l.requested.filter fun p => l.cursor ≤ p) ∪ (sent.map (·.2)).toFinset
    flight := fun id => (l.flight id \ ActivePeers.given cancelled id) ∪ ActivePeers.given sent id
    timer := fun p => if p ∈ sent.map (·.2) then some ((l.timer p).getD now) else l.timer p }

/-- Timers that ran out, and those behind the cursor, are gone. -/
def requeue (pieces : List Nat) : Ledger :=
  { l with
    requested := l.requested \ pieces.toFinset
    timer := fun p => if p ∈ pieces ∨ p < l.cursor then none else l.timer p }

def release (pieces : Finset Nat) : Ledger := { l with flight := fun id => l.flight id \ pieces }

def drop (id : Nat) : Ledger :=
  { l with requested := l.requested \ l.flight id, flight := Function.update l.flight id ∅ }

def join (id : Nat) : Ledger := { l with flight := Function.update l.flight id ∅ }

/-- The requests of a piece are done. -/
def settle (piece : Nat) : Ledger :=
  { l with
    requested := l.requested.erase piece
    flight := fun id => (l.flight id).erase piece
    timer := Function.update l.timer piece none
    noted := Function.update l.noted piece false }

def note (piece : Nat) : Ledger := { l with noted := Function.update l.noted piece true }

def finish (piece : Nat) : Ledger := { l with complete := Function.update l.complete piece true }

/-- New peers take over. -/
def reset : Ledger :=
  { l with
    requested := ∅
    flight := fun _ => ∅
    timer := fun _ => none
    noted := fun _ => false }

theorem mem_flight_cleared {flight : Nat → Finset Nat} {id i p : Nat} :
    p ∈ Function.update flight id ∅ i ↔ i ≠ id ∧ p ∈ flight i := by
  rw [Function.update_apply]
  split
  · next h => simp [h]
  · next h => simp [h]

/-- What is known about a step from outside: whether a piece that completes is publishable, which
peer may go, and whether it may be a round. -/
structure Guard where
  publishable : Prop
  drops : Nat → Prop
  rounds : Prop

/-- What a step can do to the books. A piece that completes without being publishable keeps its
requests. -/
inductive Step (g : Guard) (l : Ledger) : List Event → Ledger → Prop
  | same : Step g l [] l
  | skip {target : Nat} : l.cursor < target →
    Step g l [.skipped target] (l.skip target)
  | take : Step g l [] l.take
  | round {now : Nat} {sent cancelled : List (Nat × Nat)} : g.rounds →
    (∀ x ∈ sent ++ cancelled, l.cursor ≤ x.2 ∧ x.2 ∉ l.requested) →
    ((sent ++ cancelled).map (·.2)).Nodup →
    Step g l (sent.map (fun x => .assigned x.1 x.2 now) ++ [.round])
      (l.round now sent cancelled)
  | requeue {now : Nat} {pieces : List Nat} :
    (∀ p ∈ pieces, ∃ sent, l.timer p = some sent ∧ l.timeout ≤ now - sent) →
    Step g l (pieces.map (.timedOut · now)) (l.requeue pieces)
  | release {pieces : Finset Nat} : Step g l [] (l.release pieces)
  | drop {id : Nat} : g.drops id → Step g l [] (l.drop id)
  | join {id : Nat} : Step g l [] (l.join id)
  | settle {piece : Nat} : Step g l [] (l.settle piece)
  | note {piece : Nat} : l.cursor ≤ piece → l.complete piece = false →
    Step g l [] (l.note piece)
  | completed {piece : Nat} : l.cursor ≤ piece →
    Step g l [.completed piece] ((l.finish piece).settle piece)
  | unpublishable {piece : Nat} : ¬g.publishable → l.cursor ≤ piece →
    Step g l [.completed piece] (l.finish piece)
  | reset : Step g l [] l.reset
  | resetSkip {target : Nat} : l.cursor < target →
    Step g l [.skipped target] (l.reset.skip target)

/-- A piece is requested only if it is not booked. -/
theorem Step.of_assigned {g : Guard} {l l' : Ledger} {events : List Event} (h : Step g l events l')
    {id p sent : Nat} (hmem : .assigned id p sent ∈ events) : l.cursor ≤ p ∧ p ∉ l.requested := by
  cases h with
  | round _ hfresh _ =>
    rcases List.mem_append.mp hmem with hmem | hmem
    · obtain ⟨x, hx, heq⟩ := List.mem_map.mp hmem
      cases heq
      exact hfresh x (List.mem_append_left _ hx)
    · simp at hmem
  | requeue => simp at hmem
  | _ => simp at hmem

theorem Step.of_eq {g : Guard} {l l₁ l' : Ledger} {events : List Event} (h : l' = l₁)
    (H : Step g l events l₁) : Step g l events l' := h ▸ H

end Ledger

/-! ### What the events tell -/

/-- The last request of a piece, with the time its timer ran out. -/
structure Request where
  peer : Nat
  sent : Nat
  expired : Option Nat
  deriving DecidableEq

/-- The last request of each piece, the peers each piece was requested from since it was complete,
the last target of a skip, and whether a round of assignments came after it. -/
structure History where
  last : Nat → Option Request
  again : Nat → Finset Nat
  floor : Nat
  pruned : Bool

namespace History

def start : History := ⟨fun _ => none, fun _ => ∅, 0, true⟩

def note (h : History) : Event → History
  | .assigned id piece sent =>
    { h with
      last := Function.update h.last piece (some ⟨id, sent, none⟩)
      again := Function.update h.again piece (insert id (h.again piece)) }
  | .round => { h with pruned := true }
  | .timedOut piece now =>
    { h with
      last := Function.update h.last piece
        ((h.last piece).map fun r => { r with expired := some (r.expired.getD now) }) }
  | .completed piece => { h with again := Function.update h.again piece ∅ }
  | .skipped target => { h with floor := target, pruned := false }

def after (h : History) (events : List Event) : History := events.foldl note h

variable (h : History)

theorem after_append (xs ys : List Event) : h.after (xs ++ ys) = (h.after xs).after ys :=
  List.foldl_append

/-- Requests leave skips and rounds alone. -/
theorem after_assigned (sent : List (Nat × Nat)) (now : Nat) :
    let h' := h.after (sent.map fun x => .assigned x.1 x.2 now)
    h'.floor = h.floor ∧ h'.pruned = h.pruned ∧
      ∀ p, (p ∉ sent.map (·.2) → h'.last p = h.last p ∧ h'.again p = h.again p) ∧
        h.again p ⊆ h'.again p ∧ ∀ id, (id, p) ∈ sent → id ∈ h'.again p := by
  induction sent generalizing h with
  | nil => simp [after]
  | cons x sent ih =>
    obtain ⟨hfloor, hpruned, hrest⟩ := ih (h.note (.assigned x.1 x.2 now))
    refine ⟨hfloor, hpruned, fun p => ?_⟩
    obtain ⟨hlast, hmono, hnew⟩ := hrest p
    refine ⟨fun hp => ?_, fun i hi => hmono ?_, fun id hid => ?_⟩
    · rw [List.map_cons, List.mem_cons, not_or] at hp
      obtain ⟨hlast, hagain⟩ := hlast hp.2
      exact ⟨hlast.trans (Function.update_of_ne hp.1 ..), hagain.trans (Function.update_of_ne hp.1 ..)⟩
    · simp only [note, Function.update_apply]
      split
      · next heq => exact Finset.mem_insert_of_mem (heq ▸ hi)
      · exact hi
    · rcases List.mem_cons.mp hid with rfl | hid
      · apply hmono
        simp [note]
      · exact hnew id hid

theorem last_after_assigned {sent : List (Nat × Nat)} (now : Nat) (hnd : (sent.map (·.2)).Nodup)
    {id p : Nat} (hmem : (id, p) ∈ sent) :
    (h.after (sent.map fun x => .assigned x.1 x.2 now)).last p = some ⟨id, now, none⟩ := by
  induction sent generalizing h with
  | nil => cases hmem
  | cons x sent ih =>
    rw [List.map_cons, List.nodup_cons] at hnd
    rcases List.mem_cons.mp hmem with rfl | hmem
    · have hlast := ((after_assigned (h.note (.assigned id p now)) sent now).2.2 p).1 hnd.1
      exact hlast.1.trans (by simp [note])
    · exact ih (h.note (.assigned x.1 x.2 now)) hnd.2 hmem

/-- A timer that runs out marks the last request of its piece. -/
theorem after_timedOut (pieces : List Nat) (now : Nat) :
    let h' := h.after (pieces.map (.timedOut · now))
    h'.floor = h.floor ∧ h'.pruned = h.pruned ∧ h'.again = h.again ∧
      ∀ p, h'.last p = if p ∈ pieces
        then (h.last p).map fun r => { r with expired := some (r.expired.getD now) } else h.last p := by
  induction pieces generalizing h with
  | nil => simp [after]
  | cons q pieces ih =>
    obtain ⟨hfloor, hpruned, hagain, hlast⟩ := ih (h.note (.timedOut q now))
    refine ⟨hfloor, hpruned, hagain, fun p => (hlast p).trans ?_⟩
    simp only [note, Function.update_apply, List.mem_cons]
    by_cases hq : p = q
    · subst hq
      by_cases hp : p ∈ pieces
      · cases h.last p <;> simp [hp]
      · simp [hp]
    · simp [hq]

end History

end Outpace.Swarm.Live

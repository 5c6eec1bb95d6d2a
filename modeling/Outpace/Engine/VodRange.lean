import Mathlib.Algebra.GroupWithZero.Nat
import Outpace.Swarm.Vod.CoordinatorBooks

/-!
# Range reads of a video on demand

`VodSource` of `ace-engine/src/ace_provider/vod.rs`, and the source that `open_range` returns: read
to its end, it gives out the range of what is in its queue.
-/

namespace Outpace.Engine
open Swarm Swarm.Vod

/-! ### The source -/

/-- What a source has still to give out. The pieces from the store come first and then those of the
channel, in one queue. -/
structure VodSource where
  queue : List Bytes
  /-- The sender of the channel is gone. -/
  closed : Bool
  skip : Nat
  remaining : Nat
  emitLen : Nat

namespace VodSource

/-- The loop of `next`: a chunk, the end, or nothing as long as the channel is empty. -/
def pull (closed : Bool) : (queue : List Bytes) → (skip remaining : Nat) →
    Option (Option Bytes) × List Bytes × Nat × Nat
  | [], skip, remaining => (if remaining = 0 ∨ closed then some none else none, [], skip, remaining)
  | chunk :: queue, skip, remaining =>
    if remaining = 0 then (some none, chunk :: queue, skip, remaining)
    else if 0 < skip ∧ chunk.length ≤ skip then pull closed queue (skip - chunk.length) remaining
    else
      let chunk := (chunk.drop skip).take remaining
      (some (some chunk), queue, 0, remaining - chunk.length)

def next (s : VodSource) : Option (Option Bytes) × VodSource :=
  let (result, queue, skip, remaining) := pull s.closed s.queue s.skip s.remaining
  (result, { s with queue := queue, skip := skip, remaining := remaining })

/-- What the queue still has for the consumer. -/
def rest (s : VodSource) : Bytes := (s.queue.flatten.drop s.skip).take s.remaining

theorem pull_spec (closed : Bool) (queue : List Bytes) (skip remaining : Nat) :
    ∃ taken, queue.flatten = taken ++ (pull closed queue skip remaining).2.1.flatten ∧
      ((pull closed queue skip remaining).1.bind id).getD [] = (taken.drop skip).take remaining ∧
      (pull closed queue skip remaining).2.2.1 = skip - taken.length ∧
      (pull closed queue skip remaining).2.2.2 =
        remaining - ((taken.drop skip).take remaining).length := by
  induction queue generalizing skip with
  | nil =>
    rw [pull]
    refine ⟨[], rfl, ?_, rfl, by simp⟩
    split <;> simp
  | cons chunk queue ih =>
    rw [pull]
    split
    · next hdone => exact ⟨[], rfl, by simp [hdone], rfl, by simp⟩
    split
    · next hskip =>
      obtain ⟨taken, hqueue, hout, hskip', hremaining⟩ := ih (skip - chunk.length)
      have hdrop : (chunk ++ taken).drop skip = taken.drop (skip - chunk.length) := by
        rw [List.drop_append, List.drop_of_length_le hskip.2, List.nil_append]
      refine ⟨chunk ++ taken, ?_, ?_, ?_, ?_⟩
      · rw [List.flatten_cons, hqueue, List.append_assoc]
      · rw [hout, hdrop]
      · rw [hskip', List.length_append]
        omega
      · rw [hremaining, hdrop]
    · next hskip =>
      refine ⟨chunk, rfl, rfl, ?_, rfl⟩
      show 0 = skip - chunk.length
      omega

/-- A pull that gives nothing has nothing more to give, and one that gives a chunk has used up an
entry of the queue. -/
theorem pull_cases (closed : Bool) (queue : List Bytes) (skip remaining : Nat) :
    (∃ chunk, (pull closed queue skip remaining).1 = some (some chunk) ∧
      (pull closed queue skip remaining).2.1.length < queue.length) ∨
    (pull closed queue skip remaining).1.bind id = none ∧
      (queue.flatten.drop skip).take remaining = [] := by
  induction queue generalizing skip with
  | nil =>
    rw [pull]
    refine .inr ⟨?_, by simp⟩
    split <;> rfl
  | cons chunk queue ih =>
    rw [pull]
    split
    · next hdone => exact .inr ⟨rfl, by simp [hdone]⟩
    split
    · next hskip =>
      rcases ih (skip - chunk.length) with ⟨chunk', hout, hlt⟩ | ⟨hout, hrest⟩
      · exact .inl ⟨chunk', hout, by rw [List.length_cons]; omega⟩
      · refine .inr ⟨hout, ?_⟩
        rw [List.flatten_cons, List.drop_append, List.drop_of_length_le hskip.2, List.nil_append]
        exact hrest
    · exact .inl ⟨_, rfl, Nat.lt_succ_self _⟩

/-- What calls of `next` give until the end, at most so many of them. -/
def collect : (calls : Nat) → VodSource → Bytes
  | 0, _ => []
  | calls + 1, s =>
    match s.next with
    | (some (some chunk), s) => chunk ++ collect calls s
    | _ => []

theorem collect_eq_rest {s : VodSource} {calls : Nat} (h : s.queue.length ≤ calls) :
    s.collect calls = s.rest := by
  induction calls generalizing s with
  | zero =>
    have hnil : s.queue = [] := List.eq_nil_of_length_eq_zero (Nat.le_zero.mp h)
    simp [collect, rest, hnil]
  | succ calls ih =>
    obtain ⟨taken, hqueue, hout, hskip, hremaining⟩ :=
      pull_spec s.closed s.queue s.skip s.remaining
    rcases pull_cases s.closed s.queue s.skip s.remaining with ⟨chunk, hchunk, hlt⟩ | ⟨hnone, hrest⟩
    · have hnext : s.next = (some (some chunk), s.next.2) := Prod.ext hchunk rfl
      have hshort : s.next.2.queue.length ≤ calls :=
        Nat.le_of_lt_succ (Nat.lt_of_lt_of_le hlt h)
      rw [hchunk] at hout
      rw [collect, hnext]
      simp only [ih hshort]
      show chunk ++ ((pull s.closed s.queue s.skip s.remaining).2.1.flatten.drop _).take _ = _
      rw [rest, hqueue, List.drop_append, List.take_append, ← hout]
      show chunk ++ (List.drop (pull s.closed s.queue s.skip s.remaining).2.2.1 _).take
        (pull s.closed s.queue s.skip s.remaining).2.2.2 = chunk ++ _
      rw [hskip, hremaining, List.length_take]
      congr 2
      omega
    · rw [collect, rest, hrest]
      split
      · next chunk s' heq =>
        have hsome : (pull s.closed s.queue s.skip s.remaining).1 = some (some chunk) :=
          congrArg Prod.fst heq
        rw [hsome] at hnone
        cases hnone
      · rfl

/-- The source that `open_range` returns. -/
def openRange (info : VodInfo) (start stop : Nat) (queue : List Bytes) (closed : Bool) :
    VodSource where
  queue := queue
  closed := closed
  skip := start - start / info.pieceLength * info.pieceLength
  remaining := stop - start + 1
  emitLen := stop - start + 1

end VodSource

end Outpace.Engine

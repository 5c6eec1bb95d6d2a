import Mathlib.Data.List.Basic

/-!
# The first occurrence of a pattern

`windows(n).position(..)` over a list, for a pattern that is not empty.
-/

namespace Outpace

universe u
variable {α : Type u} [DecidableEq α] {pat l : List α}

def findSub? (pat : List α) : List α → Option Nat
  | [] => none
  | a :: l => if (a :: l).take pat.length = pat then some 0 else (findSub? pat l).map (· + 1)

/-- The pattern occurs in the list. -/
def containsSub (pat l : List α) : Bool := (findSub? pat l).isSome

theorem findSub?_eq_some {k : Nat} (h : findSub? pat l = some k) :
    l = l.take k ++ pat ++ l.drop (k + pat.length) := by
  induction l generalizing k with
  | nil => cases h
  | cons a l ih =>
    unfold findSub? at h
    split at h
    · next hpat =>
      cases h
      have hsplit := List.take_append_drop pat.length (a :: l)
      rw [hpat] at hsplit
      rw [Nat.zero_add, List.take_zero, List.nil_append, hsplit]
    · obtain ⟨k, hk, rfl⟩ := Option.map_eq_some_iff.mp h
      rw [List.take_succ_cons, Nat.add_right_comm, List.drop_succ_cons, List.cons_append,
        List.cons_append, ← ih hk]

/-! ### Patterns of two -/

variable {a b : α}

/-- The pattern does not occur before its first occurrence. -/
theorem findSub?_take {k : Nat} (h : findSub? [a, b] l = some k) :
    findSub? [a, b] (l.take k) = none := by
  induction l generalizing k with
  | nil => cases h
  | cons c l ih =>
    unfold findSub? at h
    split at h
    · cases h
      rfl
    · next hpat =>
      obtain ⟨k, hk, rfl⟩ := Option.map_eq_some_iff.mp h
      rw [List.take_succ_cons, findSub?, ih hk, if_neg]
      · rfl
      · intro hshort
        refine hpat ?_
        rw [← List.take_succ_cons, List.take_take, Nat.min_def] at hshort
        split at hshort
        · exact hshort
        · next hk1 =>
          have hlen := congrArg List.length hshort
          rw [List.length_take, List.length_cons, List.length_cons, List.length_cons,
            List.length_nil] at hlen
          simp only [List.length_cons, List.length_nil] at hk1
          omega

theorem findSub?_append (hab : a ≠ b) (h : findSub? [a, b] l = none) (rest : List α) :
    findSub? [a, b] (l ++ a :: b :: rest) = some l.length := by
  induction l with
  | nil => exact if_pos rfl
  | cons c l ih =>
    unfold findSub? at h
    split at h
    · cases h
    · next hpat =>
      rw [List.cons_append, findSub?, ih (Option.map_eq_none_iff.mp h), if_neg]
      · rfl
      · intro hlong
        cases l with
        | nil =>
          injection hlong with _ htail
          injection htail with hhead
          exact hab hhead
        | cons d l => exact hpat hlong

end Outpace

import Mathlib.Data.List.Basic

/-!
# Output with losses

What a lossy filter makes of a stream: the elements it puts out, and how many it lost in front of
each output offset. Outputs of consecutive parts of a stream are appended, with the losses of the
later part moved behind the output of the earlier one; neighbouring losses add up.
-/

namespace Outpace

universe u

@[ext] structure Lossy (α : Type u) where
  out : List α
  lost : Nat → Nat

namespace Lossy

variable {α : Type u}

def nil : Lossy α := ⟨[], fun _ => 0⟩

/-- Elements put out with no loss. -/
def emit (l : List α) : Lossy α := ⟨l, fun _ => 0⟩

/-- A loss in front of whatever comes next. -/
def lose (n : Nat) : Lossy α := ⟨[], fun o => if o = 0 then n else 0⟩

def append (a b : Lossy α) : Lossy α where
  out := a.out ++ b.out
  lost o := a.lost o + if a.out.length ≤ o then b.lost (o - a.out.length) else 0

instance : Append (Lossy α) := ⟨append⟩

theorem append_out (a b : Lossy α) : (a ++ b).out = a.out ++ b.out := rfl

theorem append_lost (a b : Lossy α) (o : Nat) :
    (a ++ b).lost o = a.lost o + if a.out.length ≤ o then b.lost (o - a.out.length) else 0 := rfl

@[simp] theorem nil_append (a : Lossy α) : nil ++ a = a := by
  ext <;> simp [append_out, append_lost, nil]

@[simp] theorem append_nil (a : Lossy α) : a ++ nil = a := by
  ext <;> simp [append_out, append_lost, nil]

theorem append_assoc (a b c : Lossy α) : a ++ b ++ c = a ++ (b ++ c) := by
  ext o
  · simp only [append_out, List.append_assoc]
  · simp only [append_lost, append_out, List.length_append, Nat.add_assoc]
    congr 1
    by_cases h : a.out.length ≤ o
    · have hc : a.out.length + b.out.length ≤ o ↔ b.out.length ≤ o - a.out.length := by omega
      simp only [h, if_true, hc, Nat.sub_sub]
    · rw [if_neg h, if_neg h, if_neg (by omega)]

theorem lose_append_lose (m n : Nat) : (lose m ++ lose n : Lossy α) = lose (m + n) := by
  ext o
  · rfl
  · simp only [append_lost, lose, List.length_nil, Nat.zero_le, if_true, Nat.sub_zero]
    split <;> omega

end Lossy

end Outpace

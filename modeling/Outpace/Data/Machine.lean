import Mathlib.Algebra.Group.Nat.Defs
import Mathlib.Data.Nat.Basic

/-!
# Machine arithmetic on naturals

Unsigned 64-bit values are naturals; the operations that can leave the range say what happens
there.
-/

namespace Outpace

/-- The largest 64-bit value. -/
def u64Max : Nat := 2 ^ 64 - 1

def checkedAdd (a b : Nat) : Option Nat := if a + b ≤ u64Max then some (a + b) else none

def checkedMul (a b : Nat) : Option Nat := if a * b ≤ u64Max then some (a * b) else none

def checkedSub (a b : Nat) : Option Nat := if b ≤ a then some (a - b) else none

def saturatingAdd (a b : Nat) : Nat := min (a + b) u64Max

def wrappingAdd (a b : Nat) : Nat := (a + b) % (u64Max + 1)

/-- What `+` and `*` make of a result on words of 64 bits; a `usize` is taken to be one. Where the
build has overflow checks, an overflow is a panic, and else it wraps. -/
def word (checks : Bool) (n : Nat) : Option Nat :=
  if n ≤ u64Max then some n else if checks then none else some (n % (u64Max + 1))

theorem word_of_le {checks : Bool} {n : Nat} (h : n ≤ u64Max) : word checks n = some n := if_pos h

theorem checkedAdd_eq_some {a b c : Nat} :
    checkedAdd a b = some c ↔ a + b ≤ u64Max ∧ a + b = c := by
  unfold checkedAdd
  split <;> simp [*]

theorem checkedMul_eq_some {a b c : Nat} :
    checkedMul a b = some c ↔ a * b ≤ u64Max ∧ a * b = c := by
  unfold checkedMul
  split <;> simp [*]

theorem checkedSub_of_le {a b : Nat} (h : b ≤ a) : checkedSub a b = some (a - b) := if_pos h

theorem saturatingAdd_le_add (a b : Nat) : saturatingAdd a b ≤ a + b := Nat.min_le_left ..

theorem saturatingAdd_le_max (a b : Nat) : saturatingAdd a b ≤ u64Max := Nat.min_le_right ..

theorem saturatingAdd_mono {a a' b b' : Nat} (ha : a ≤ a') (hb : b ≤ b') :
    saturatingAdd a b ≤ saturatingAdd a' b' := by
  unfold saturatingAdd
  omega

theorem wrappingAdd_eq {a b : Nat} (h : a + b ≤ u64Max) : wrappingAdd a b = a + b :=
  Nat.mod_eq_of_lt (Nat.lt_succ_of_le h)

end Outpace

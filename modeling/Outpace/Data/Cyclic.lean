import Mathlib.Data.Nat.ModEq

/-!
# Counters that wrap around

Readings of a counter modulo `m`. From one reading to another it is `forward`, less than a round;
`travelled` adds this up along a list of readings. From the first reading to the last one it is as
far as along all of them, up to whole rounds (`forward_eq_travelled`).
-/

namespace Outpace

/-- The way forward from one reading to another. -/
def forward (m start stop : Nat) : Nat := (stop + m - start) % m

/-- The way forward, if it is not more than half a round. -/
def halfForward (m start stop : Nat) : Option Nat :=
  let delta := forward m start stop
  if delta ≤ m / 2 then some delta else none

/-- The way forward along some readings. -/
def travelled (m : Nat) : List Nat → Nat
  | start :: stop :: readings => forward m start stop + travelled m (stop :: readings)
  | _ => 0

variable {m start stop : Nat}

theorem travelled_concat (readings : List Nat) (reading : Nat) :
    travelled m (readings ++ [reading]) =
      travelled m readings + readings.getLast?.elim 0 (forward m · reading) := by
  induction readings with
  | nil => simp [travelled]
  | cons start readings ih =>
    cases readings with
    | nil => simp [travelled]
    | cons stop readings =>
      rw [List.getLast?_cons_cons, List.cons_append, List.cons_append, travelled,
        ← List.cons_append, ih, travelled, Nat.add_assoc]

/-- One step forward is enough. -/
theorem travelled_pos {xs ys : List Nat} (h : 0 < forward m start stop) :
    0 < travelled m (xs ++ start :: stop :: ys) := by
  induction xs with
  | nil => exact Nat.lt_add_right _ h
  | cons x xs ih =>
    have hle : travelled m (xs ++ start :: stop :: ys) ≤
        travelled m (x :: (xs ++ start :: stop :: ys)) := by
      cases xs with
      | nil => exact Nat.le_add_left ..
      | cons x' xs => exact Nat.le_add_left ..
    exact Nat.lt_of_lt_of_le ih hle

theorem add_forward {start : Nat} (h : start ≤ m) (stop : Nat) :
    start + forward m start stop ≡ stop [MOD m] := by
  have hadd : start + (stop + m - start) = stop + m :=
    Nat.add_sub_cancel' (Nat.le_add_left_of_le h)
  calc start + forward m start stop
      ≡ start + (stop + m - start) [MOD m] := (Nat.mod_modEq ..).add_left start
    _ = stop + m := hadd
    _ ≡ stop [MOD m] := Nat.add_mod_right ..

theorem add_travelled {readings : List Nat} (h : ∀ reading ∈ readings, reading < m)
    {start last : Nat} (hstart : readings.head? = some start)
    (hlast : readings.getLast? = some last) : start + travelled m readings ≡ last [MOD m] := by
  induction readings generalizing start with
  | nil => cases hstart
  | cons first readings ih =>
    cases hstart
    cases readings with
    | nil =>
      cases hlast
      exact Nat.ModEq.refl _
    | cons stop readings =>
      have hnext := ih (fun reading hmem => h reading (List.mem_cons_of_mem _ hmem)) rfl
        (List.getLast?_cons_cons ▸ hlast)
      have hstep := add_forward (Nat.le_of_lt (h first List.mem_cons_self)) stop
      rw [travelled, ← Nat.add_assoc]
      exact (hstep.add_right _).trans hnext

theorem forward_eq_travelled {readings : List Nat} (h : ∀ reading ∈ readings, reading < m)
    {start last : Nat} (hstart : readings.head? = some start)
    (hlast : readings.getLast? = some last) : forward m start last = travelled m readings % m := by
  have hlt := h start (List.mem_of_mem_head? hstart)
  have heq : start + forward m start last ≡ start + travelled m readings [MOD m] :=
    (add_forward (Nat.le_of_lt hlt) last).trans (add_travelled h hstart hlast).symm
  have hless : forward m start last < m := Nat.mod_lt _ (Nat.zero_lt_of_lt hlt)
  rw [← Nat.mod_eq_of_lt hless]
  exact Nat.ModEq.add_left_cancel' start heq

/-- More than half a round forward is less than half a round back. -/
theorem half_lt_forward_iff (hstart : start < m) (hstop : stop < m) (heven : m % 2 = 0) :
    m / 2 < forward m start stop ↔ 0 < forward m stop start ∧ forward m stop start < m / 2 := by
  unfold forward
  by_cases hle : start ≤ stop
  · rw [show stop + m - start = stop - start + m by omega, Nat.add_mod_right,
      Nat.mod_eq_of_lt (show stop - start < m by omega)]
    by_cases heq : start = stop
    · rw [heq, Nat.add_sub_cancel_left, Nat.mod_self]
      omega
    · rw [Nat.mod_eq_of_lt (show start + m - stop < m by omega)]
      omega
  · rw [show start + m - stop = start - stop + m by omega, Nat.add_mod_right,
      Nat.mod_eq_of_lt (show start - stop < m by omega),
      Nat.mod_eq_of_lt (show stop + m - start < m by omega)]
    omega

theorem halfForward_of_le (h : forward m start stop ≤ m / 2) :
    halfForward m start stop = some (forward m start stop) := if_pos h

theorem halfForward_of_lt (h : m / 2 < forward m start stop) :
    halfForward m start stop = none := if_neg (Nat.not_le.mpr h)

theorem isNone_halfForward_iff (hstart : start < m) (hstop : stop < m) (heven : m % 2 = 0) :
    (halfForward m start stop).isNone = true ↔
      0 < forward m stop start ∧ forward m stop start < m / 2 := by
  rw [← half_lt_forward_iff hstart hstop heven]
  constructor
  · intro hnone
    by_contra hle
    rw [halfForward_of_le (Nat.not_lt.mp hle)] at hnone
    cases hnone
  · intro hlt
    rw [halfForward_of_lt hlt]
    rfl

end Outpace

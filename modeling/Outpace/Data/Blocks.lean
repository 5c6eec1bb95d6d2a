import Mathlib.Data.List.Basic
import Mathlib.Data.List.TakeDrop
import Outpace.Data.Run

/-!
# Streams cut into blocks

A loop that takes `n` elements off the front of a buffer for as long as there are that many, and
folds them into a state. It processes the whole blocks of the buffer and leaves the rest
(`drain_eq`), so a consumer that appends each part of a stream to its buffer and runs the loop sees
the blocks of the stream, however the stream is cut into parts (`blocks_append`).
-/

namespace Outpace

universe u v
variable {α : Type u} {σ : Type v} {l : List α} {n : Nat}

def drainLoop (n : Nat) (f : σ → List α → σ) : (fuel : Nat) → σ → List α → σ × List α
  | 0, s, buf => (s, buf)
  | fuel + 1, s, buf =>
    if n ≤ buf.length then drainLoop n f fuel (f s (buf.take n)) (buf.drop n) else (s, buf)

/-- Fold the whole blocks of a buffer, and keep what is left of it. -/
def drain (n : Nat) (f : σ → List α → σ) (s : σ) (buf : List α) : σ × List α :=
  drainLoop n f buf.length s buf

/-- The whole blocks of a list. -/
def blocks (n : Nat) (l : List α) : List (List α) :=
  (List.range (l.length / n)).map fun i => (l.drop (i * n)).take n

/-- What follows the whole blocks. -/
def rest (n : Nat) (l : List α) : List α := l.drop (l.length / n * n)

@[simp] theorem length_blocks (n : Nat) (l : List α) : (blocks n l).length = l.length / n := by
  simp [blocks]

theorem mem_blocks {l b : List α} :
    b ∈ blocks n l ↔ ∃ i < l.length / n, (l.drop (i * n)).take n = b := by
  simp [blocks]

theorem getElem_blocks {i : Nat} (h : i < (blocks n l).length) :
    (blocks n l)[i] = (l.drop (i * n)).take n := by
  simp [blocks]

theorem getElem?_blocks {i : Nat} (h : i < l.length / n) :
    (blocks n l)[i]? = some ((l.drop (i * n)).take n) := by
  simp [blocks, h]

theorem le_of_lt_blocks {i : Nat} (h : i < l.length / n) : i * n + n ≤ l.length := by
  calc i * n + n = (i + 1) * n := (Nat.succ_mul i n).symm
    _ ≤ l.length / n * n := Nat.mul_le_mul_right n h
    _ ≤ l.length := Nat.div_mul_le_self ..

theorem length_of_mem_blocks {l b : List α} (h : b ∈ blocks n l) : b.length = n := by
  obtain ⟨i, hi, rfl⟩ := mem_blocks.mp h
  have := le_of_lt_blocks hi
  rw [List.length_take, List.length_drop]
  omega

theorem blocks_of_lt (h : l.length < n) : blocks n l = [] := by
  simp [blocks, Nat.div_eq_of_lt h]

theorem rest_of_lt (h : l.length < n) : rest n l = l := by
  simp [rest, Nat.div_eq_of_lt h]

theorem blocks_of_le (hn : 0 < n) (h : n ≤ l.length) :
    blocks n l = l.take n :: blocks n (l.drop n) := by
  have hdiv : l.length / n = (l.length - n) / n + 1 := Nat.div_eq_sub_div hn h
  rw [blocks, hdiv, List.range_succ_eq_map, List.map_cons, List.map_map, blocks, List.length_drop,
    Nat.zero_mul, List.drop_zero]
  congr 1
  refine List.map_congr_left fun i _ => ?_
  show (l.drop ((i + 1) * n)).take n = ((l.drop n).drop (i * n)).take n
  rw [List.drop_drop, Nat.succ_mul, Nat.add_comm]

theorem rest_of_le (hn : 0 < n) (h : n ≤ l.length) : rest n l = rest n (l.drop n) := by
  have hdiv : l.length / n = (l.length - n) / n + 1 := Nat.div_eq_sub_div hn h
  rw [rest, rest, List.drop_drop, List.length_drop, hdiv, Nat.succ_mul, Nat.add_comm]

theorem drainLoop_eq (hn : 0 < n) (f : σ → List α → σ) {fuel : Nat} {s : σ} {buf : List α}
    (h : buf.length ≤ fuel) :
    drainLoop n f fuel s buf = ((blocks n buf).foldl f s, rest n buf) := by
  induction fuel generalizing s buf with
  | zero =>
    have hlt : buf.length < n := by omega
    rw [drainLoop, blocks_of_lt hlt, rest_of_lt hlt]
    rfl
  | succ fuel ih =>
    rw [drainLoop]
    split
    · next hle =>
      rw [ih (by rw [List.length_drop]; omega), blocks_of_le hn hle, rest_of_le hn hle]
      rfl
    · next hlt =>
      have hlt : buf.length < n := by omega
      rw [blocks_of_lt hlt, rest_of_lt hlt]
      rfl

theorem drain_eq (hn : 0 < n) (f : σ → List α → σ) (s : σ) (buf : List α) :
    drain n f s buf = ((blocks n buf).foldl f s, rest n buf) :=
  drainLoop_eq hn f (Nat.le_refl _)

theorem blocks_append (hn : 0 < n) (xs ys : List α) :
    blocks n (xs ++ ys) = blocks n xs ++ blocks n (rest n xs ++ ys) ∧
      rest n (xs ++ ys) = rest n (rest n xs ++ ys) := by
  induction h : xs.length using Nat.strongRecOn generalizing xs with
  | _ k ih =>
    by_cases hlt : xs.length < n
    · simp [blocks_of_lt hlt, rest_of_lt hlt]
    · have hle : n ≤ xs.length := by omega
      have hle' : n ≤ (xs ++ ys).length := by rw [List.length_append]; omega
      obtain ⟨hb, hr⟩ := ih (xs.drop n).length (by rw [List.length_drop]; omega) (xs.drop n) rfl
      rw [blocks_of_le hn hle', blocks_of_le hn hle, rest_of_le hn hle', rest_of_le hn hle,
        List.take_append_of_le_length hle, List.drop_append_of_le_length hle, hb, hr]
      exact ⟨rfl, rfl⟩

/-- A block that is begun in one part is completed by the next one. -/
theorem blocks_complete {begun ys : List α} (h : begun.length < n) (hle : n ≤ (begun ++ ys).length) :
    blocks n (begun ++ ys) = (begun ++ ys.take (n - begun.length)) ::
        blocks n (ys.drop (n - begun.length)) ∧
      rest n (begun ++ ys) = rest n (ys.drop (n - begun.length)) := by
  have hn : 0 < n := Nat.zero_lt_of_lt h
  rw [blocks_of_le hn hle, rest_of_le hn hle, List.take_append, List.drop_append,
    List.take_of_length_le (Nat.le_of_lt h), List.drop_of_length_le (Nat.le_of_lt h),
    List.nil_append]
  exact ⟨rfl, rfl⟩

theorem blocks_flatten (hn : 0 < n) {bs : List (List α)} (h : ∀ b ∈ bs, b.length = n) :
    blocks n bs.flatten = bs := by
  induction bs with
  | nil => simp [blocks]
  | cons b bs ih =>
    obtain ⟨hb, hbs⟩ := List.forall_mem_cons.mp h
    rw [List.flatten_cons, blocks_of_le hn (by rw [List.length_append]; omega), List.take_left' hb,
      List.drop_left' hb, ih hbs]

theorem length_flatten_of_forall {bs : List (List α)} (h : ∀ b ∈ bs, b.length = n) :
    bs.flatten.length = bs.length * n := by
  induction bs with
  | nil => simp
  | cons b bs ih =>
    obtain ⟨hb, hbs⟩ := List.forall_mem_cons.mp h
    rw [List.flatten_cons, List.length_append, hb, ih hbs, List.length_cons, Nat.succ_mul,
      Nat.add_comm]

/-- A list is its whole blocks and what follows them. -/
theorem flatten_blocks_rest (hn : 0 < n) (l : List α) : (blocks n l).flatten ++ rest n l = l := by
  induction h : l.length using Nat.strongRecOn generalizing l with
  | _ k ih =>
    by_cases hlt : l.length < n
    · rw [blocks_of_lt hlt, rest_of_lt hlt]
      rfl
    · have hle : n ≤ l.length := Nat.le_of_not_lt hlt
      rw [blocks_of_le hn hle, rest_of_le hn hle, List.flatten_cons, List.append_assoc,
        ih (l.drop n).length (by rw [List.length_drop]; omega) _ rfl, List.take_append_drop]

end Outpace

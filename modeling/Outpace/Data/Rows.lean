import Mathlib.Data.List.Induction
import Mathlib.Data.List.Perm.Subperm
import Outpace.Data.OrderedMap

/-!
# Rows of a map

A map with a list for every key, read as the table of its rows, and the table read back into the
map row by row (`OrderedMap.collect_rows`). Texts with a mark behind every piece are split back
into the pieces.
-/

namespace Outpace

theorem splitOn_flatMap_append {α : Type} [DecidableEq α] {x : α} (ls : List (List α))
    (h : ∀ l ∈ ls, x ∉ l) : (ls.flatMap (· ++ [x])).splitOn x = ls ++ [[]] := by
  have hjoin : ls.flatMap (· ++ [x]) = [x].intercalate (ls ++ [[]]) := by
    induction ls with
    | nil => rfl
    | cons l ls ih =>
      rw [List.flatMap_cons, ih fun l hl => h l (List.mem_cons_of_mem _ hl)]
      cases ls with
      | nil => simp [List.intercalate]
      | cons l' ls => simp [List.intercalate]
  rw [hjoin]
  refine List.splitOn_intercalate x (fun l hl => ?_) (by simp)
  rcases List.mem_append.mp hl with hl | hl
  · exact h l hl
  · rw [List.mem_singleton.mp hl]
    exact List.not_mem_nil

theorem mem_intercalate_singleton {α : Type} {x b : α} {ls : List (List α)}
    (h : b ∈ [x].intercalate ls) : b = x ∨ ∃ l ∈ ls, b ∈ l := by
  obtain ⟨l, hl, hb⟩ := List.mem_flatten.mp h
  induction ls with
  | nil => cases hl
  | cons l' ls ih =>
    cases ls with
    | nil => exact .inr ⟨l, hl, hb⟩
    | cons l'' ls =>
      simp only [List.intersperse_cons_cons, List.mem_cons] at hl
      rcases hl with rfl | rfl | hl
      · exact .inr ⟨l, List.mem_cons_self, hb⟩
      · exact .inl (List.mem_singleton.mp hb)
      · rcases ih (List.mem_flatten.mpr ⟨l, hl, hb⟩) hl with heq | ⟨l, hl, hb⟩
        · exact .inl heq
        · exact .inr ⟨l, List.mem_cons_of_mem _ hl, hb⟩

namespace OrderedMap

variable {α β : Type} [LinearOrder α]

/-- A row behind the others of its key. -/
def push (m : OrderedMap α (List β)) (k : α) (row : β) : OrderedMap α (List β) :=
  m.insert k ((m.get? k).getD [] ++ [row])

/-- The rows, key by key. -/
def rows (m : OrderedMap α (List β)) : List (α × β) :=
  m.entries.flatMap fun e => e.2.map (e.1, ·)

/-- A table read row by row. -/
def collect (table : List (α × β)) : OrderedMap α (List β) :=
  table.foldl (fun (m : OrderedMap α (List β)) e => m.push e.1 e.2) ∅

/-- The rows of one key in a table. -/
def rowsAt (k : α) (table : List (α × β)) : List β :=
  table.filterMap fun e => if e.1 = k then some e.2 else none

theorem rowsAt_append (k : α) (table table' : List (α × β)) :
    rowsAt k (table ++ table') = rowsAt k table ++ rowsAt k table' := List.filterMap_append

theorem length_rows (m : OrderedMap α (List β)) : m.rows.length = m.weight fun _ l => l.length := by
  unfold rows weight
  induction m.entries with
  | nil => rfl
  | cons e l ih => rw [List.flatMap_cons, List.length_append, List.length_map, ih, List.foldr_cons]

theorem rowsAt_map (k k' : α) (l : List β) :
    rowsAt k (l.map (k', ·)) = if k' = k then l else [] := by
  unfold rowsAt
  rw [List.filterMap_map]
  split
  · next h => simp [h]
  · next h => simp [h]

theorem rowsAt_rows (m : OrderedMap α (List β)) (k : α) : rowsAt k m.rows = (m.get? k).getD [] := by
  obtain ⟨entries, hsorted⟩ := m
  unfold rows get?
  dsimp only
  induction entries with
  | nil => rfl
  | cons e l ih =>
    obtain ⟨hlt, hl⟩ := List.pairwise_cons.mp hsorted
    rw [List.flatMap_cons, rowsAt_append, rowsAt_map, ih hl, List.find?_cons]
    by_cases h : e.1 = k
    · -- the key does not come again
      have hnone : l.find? (fun d => d.1 == k) = none :=
        List.find?_eq_none.mpr fun d hd => by simpa [← h] using (hlt d hd).ne'
      rw [if_pos h, hnone, beq_iff_eq.mpr h]
      simp
    · rw [if_neg h, beq_eq_false_iff_ne.mpr h]
      rfl

theorem get?_push (m : OrderedMap α (List β)) (k k' : α) (row : β) :
    (m.push k row).get? k' = if k' = k then some ((m.get? k).getD [] ++ [row]) else m.get? k' :=
  get?_insert ..

theorem collect_append_singleton (table : List (α × β)) (e : α × β) :
    collect (table ++ [e]) = (collect table).push e.1 e.2 := List.foldl_append

theorem get?_collect (table : List (α × β)) (k : α) :
    (collect table).get? k = if rowsAt k table = [] then none else some (rowsAt k table) := by
  induction table using List.reverseRecOn with
  | nil => rfl
  | append_singleton table e ih =>
    rw [collect_append_singleton, get?_push, rowsAt_append]
    by_cases h : k = e.1
    · subst h
      have hone : rowsAt e.1 [e] = [e.2] := by simp [rowsAt]
      have hne : rowsAt e.1 table ++ [e.2] ≠ [] := by simp
      rw [if_pos rfl, ih, hone, if_neg hne]
      split
      · next hnil => rw [hnil]; rfl
      · rfl
    · have hnone : rowsAt k [e] = [] := by simp [rowsAt, Ne.symm h]
      rw [if_neg h, ih, hnone, List.append_nil]

theorem getD_collect (table : List (α × β)) (k : α) :
    ((collect table).get? k).getD [] = rowsAt k table := by
  rw [get?_collect]
  split
  · next h => exact h.symm
  · rfl

theorem contains_collect (table : List (α × β)) (k : α) :
    (collect table).contains k = true ↔ rowsAt k table ≠ [] := by
  rw [contains, get?_collect]
  split
  · next h => exact ⟨fun h => (by cases h), fun hne => absurd h hne⟩
  · next h => exact ⟨fun _ => h, fun _ => rfl⟩

/-- The rows read back into a map. -/
theorem collect_rows {m : OrderedMap α (List β)} (h : m.All fun _ l => l ≠ []) :
    collect m.rows = m := by
  refine ext_get? fun k => ?_
  rw [get?_collect, rowsAt_rows]
  cases hk : m.get? k with
  | none => rfl
  | some l => exact if_neg (h k l hk)

theorem size_le_of_contains {γ : Type} {m : OrderedMap α β} {m' : OrderedMap α γ}
    (h : ∀ k, m.contains k = true → m'.contains k = true) : m.size ≤ m'.size := by
  have hkeys : m.keys.Subperm m'.keys := (keys_nodup m).subperm fun k hk => by
    obtain ⟨v, hv⟩ := mem_keys.mp hk
    obtain ⟨v', hv'⟩ := contains_iff.mp (h k (contains_iff.mpr ⟨v, hv⟩))
    exact mem_keys.mpr ⟨v', hv'⟩
  simpa [keys, size] using hkeys.length_le

end OrderedMap

end Outpace

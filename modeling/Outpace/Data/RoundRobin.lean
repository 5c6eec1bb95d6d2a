import Mathlib.Order.Basic
import Mathlib.Order.Defs.LinearOrder
import Outpace.Data.OrderedMap

/-!
# Turns in cyclic order

The keys of a map take turns: the next one is the least key after the one that had the last turn, or
the least of all. The keys may change between the turns. `Arc p q c` says that the turn has passed
`p` and not yet come to `q`; as long as `q` is there, the turn cannot leave the arc except to `q`
(`Next.arc`).
-/

namespace Outpace

variable {α β : Type} [LinearOrder α]

/-- The turn goes from `c` to `n`. -/
structure Next (S : α → Prop) (c n : α) : Prop where
  mem : S n
  least : (c < n ∧ ∀ k, S k → c < k → n ≤ k) ∨ ((∀ k, S k → k ≤ c) ∧ ∀ k, S k → n ≤ k)

/-- From `p` on, and before `q`. -/
def Arc (p q c : α) : Prop := (p ≤ c ∧ c < q) ∨ (q < p ∧ (p ≤ c ∨ c < q))

theorem arc_self {p q : α} (h : p ≠ q) : Arc p q p := by
  rcases lt_or_gt_of_ne h with h | h
  · exact .inl ⟨le_rfl, h⟩
  · exact .inr ⟨h, .inl le_rfl⟩

theorem arc_or {p q : α} (h : p ≠ q) (c : α) : Arc p q c ∨ Arc q p c := by
  unfold Arc
  grind

theorem not_arc_of_arc {p q c : α} (h : Arc p q c) : ¬Arc q p c := by
  unfold Arc at *
  grind

/-- Before `q` had its turn, nobody outside the arc has one. -/
theorem Next.arc {S : α → Prop} {p q c n : α} (hn : Next S c n) (hq : S q)
    (hc : Arc p q c) : n = q ∨ (Arc p q n ∧ n ≠ p) := by
  unfold Arc at *
  obtain ⟨-, ⟨hlt, hleast⟩ | ⟨hmax, hleast⟩⟩ := hn
  · have := hleast q hq
    grind
  · have := hmax q hq
    have := hleast q hq
    grind

/-- `P` turns of `p` and `Q` turns of `q`, since a turn of `p`: there are no fewer of `q`, and more
once the turn has come to `q`. -/
structure Ahead (p q c : α) (P Q : Nat) : Prop where
  before : Arc p q c → P ≤ Q
  after : Arc q p c → P < Q

section
variable {S : α → Prop} {p q c n : α} {P Q : Nat}

theorem ahead_self (h : p ≠ q) : Ahead p q p 0 0 :=
  ⟨fun _ => le_rfl, fun harc => absurd harc (not_arc_of_arc (arc_self h))⟩

theorem Ahead.next (h : Ahead p q c P Q) (hn : Next S c n) (hq : S q) (hpq : p ≠ q) :
    Ahead p q n (P + if n = p then 1 else 0) (Q + if n = q then 1 else 0) := by
  rcases arc_or hpq c with harc | harc
  · have hle := h.before harc
    rcases hn.arc hq harc with rfl | ⟨hnarc, hnp⟩
    · rw [if_neg hpq.symm, if_pos rfl]
      exact ⟨fun _ => by omega, fun _ => by omega⟩
    · rw [if_neg hnp]
      exact ⟨fun _ => by omega, fun hback => absurd hback (not_arc_of_arc hnarc)⟩
  · have hlt := h.after harc
    by_cases hnp : n = p
    · subst hnp
      rw [if_pos rfl]
      exact ⟨fun _ => by omega, fun hback => absurd hback (not_arc_of_arc (arc_self hpq))⟩
    · rw [if_neg hnp]
      exact ⟨fun _ => by omega, fun _ => by omega⟩

/-- The turn comes back to `p` from beyond `q`. -/
theorem Next.back (hn : Next S c p) (hq : S q) (hpq : p ≠ q) : Arc q p c := by
  refine (arc_or hpq c).resolve_left fun harc => ?_
  rcases hn.arc hq harc with h | ⟨-, h⟩
  · exact hpq h
  · exact h rfl

end

namespace OrderedMap

/-- The key whose turn is next. -/
def nextAfter (m : OrderedMap α β) (c : α) : Option α :=
  ((m.entries.find? fun e => c < e.1).or m.entries.head?).map (·.1)

theorem nextAfter_next {m : OrderedMap α β} {c n : α} (h : m.nextAfter c = some n) :
    Next (fun k => m.contains k = true) c n := by
  have hmem {k : α} (hk : m.contains k = true) : ∃ v, (k, v) ∈ m.entries := by
    obtain ⟨v, hv⟩ := contains_iff.mp hk
    exact ⟨v, get?_eq_some.mp hv⟩
  have hcontains {e : α × β} (he : e ∈ m.entries) : m.contains e.1 = true :=
    contains_iff.mpr ⟨e.2, mem_entries_iff.mp he⟩
  unfold nextAfter at h
  cases hfind : m.entries.find? fun e => c < e.1 with
  | some e =>
    rw [hfind] at h
    obtain rfl : e.1 = n := Option.some.inj h
    obtain ⟨hlt, before, after, hsplit, hbefore⟩ := List.find?_eq_some_iff_append.mp hfind
    refine ⟨hcontains (List.mem_of_find?_eq_some hfind),
      .inl ⟨of_decide_eq_true hlt, fun k hk hck => ?_⟩⟩
    obtain ⟨v, hv⟩ := hmem hk
    have hsorted := m.sorted
    rw [hsplit] at hv hsorted
    rcases List.mem_append.mp hv with hv | hv
    · have := hbefore _ hv
      simp [hck] at this
    · rcases List.mem_cons.mp hv with rfl | hv
      · exact le_rfl
      · exact le_of_lt ((List.pairwise_cons.mp (List.pairwise_append.mp hsorted).2.1).1 _ hv)
  | none =>
    rw [hfind, Option.none_or] at h
    obtain ⟨e, he, rfl⟩ := Option.map_eq_some_iff.mp h
    refine ⟨hcontains (List.mem_of_mem_head? he), .inr ⟨fun k hk => ?_, fun k hk => ?_⟩⟩
    · obtain ⟨v, hv⟩ := hmem hk
      have := List.find?_eq_none.mp hfind _ hv
      simpa using this
    · obtain ⟨v, hv⟩ := contains_iff.mp hk
      exact first?_le he hv

theorem nextAfter_eq_none {m : OrderedMap α β} {c : α} : m.nextAfter c = none ↔ m = ∅ := by
  rw [nextAfter, Option.map_eq_none_iff, Option.or_eq_none_iff, ← first?_eq_none, first?]
  refine and_iff_right_of_imp fun h => ?_
  rw [List.head?_eq_none_iff.mp h]
  rfl

end OrderedMap

end Outpace

import Mathlib.Logic.Function.Basic
import Mathlib.Order.Lattice
import Mathlib.Data.List.Basic
import Mathlib.Data.List.Pairwise
import Mathlib.Data.List.Perm.Basic

/-!
# Finite maps with ordered iteration

A map is its list of entries in strictly increasing key order, so two maps with the same lookups
are equal (`OrderedMap.ext_get?`) and iteration visits the keys in order. Every operation is a
filter or a map of the entry list; the lookup lemmas are all derived from
`OrderedMap.get?_eq_some`, which reads a lookup as membership of an entry.
-/

namespace Outpace

/-- A finite map, stored as its entries in strictly increasing key order. -/
@[ext] structure OrderedMap (α β : Type) [LinearOrder α] where
  entries : List (α × β)
  sorted : entries.Pairwise fun x y => x.1 < y.1

namespace OrderedMap
variable {α β γ : Type} [LinearOrder α] {k : α} {v : β}

def empty : OrderedMap α β := ⟨[], .nil⟩

instance : EmptyCollection (OrderedMap α β) := ⟨empty⟩

def get? (m : OrderedMap α β) (k : α) : Option β :=
  (m.entries.find? fun e => e.1 == k).map (·.2)

def contains (m : OrderedMap α β) (k : α) : Bool := (m.get? k).isSome

def keys (m : OrderedMap α β) : List α := m.entries.map (·.1)

def values (m : OrderedMap α β) : List β := m.entries.map (·.2)

def size (m : OrderedMap α β) : Nat := m.entries.length

def isEmpty (m : OrderedMap α β) : Bool := m.entries.isEmpty

/-- The entry of the lowest key. -/
def first? (m : OrderedMap α β) : Option (α × β) := m.entries.head?

/-- Bind `k` to `v`, replacing an earlier binding. -/
def insert (m : OrderedMap α β) (k : α) (v : β) : OrderedMap α β where
  entries := m.entries.filter (·.1 < k) ++ (k, v) :: m.entries.filter (k < ·.1)
  sorted := by
    refine List.pairwise_append.mpr
      ⟨m.sorted.filter _, List.pairwise_cons.mpr ⟨?_, m.sorted.filter _⟩, ?_⟩
    · intro e he
      simpa using (List.mem_filter.mp he).2
    · intro e he f hf
      have hek : e.1 < k := by simpa using (List.mem_filter.mp he).2
      rcases List.mem_cons.mp hf with rfl | hf
      · exact hek
      · exact hek.trans (by simpa using (List.mem_filter.mp hf).2)

/-- Keep the entries that `p` accepts. -/
def filter (m : OrderedMap α β) (p : α → β → Bool) : OrderedMap α β where
  entries := m.entries.filter fun e => p e.1 e.2
  sorted := m.sorted.filter _

def erase (m : OrderedMap α β) (k : α) : OrderedMap α β := m.filter fun k' _ => k' != k

/-- Drop the entry of the lowest key. -/
def popFirst (m : OrderedMap α β) : OrderedMap α β :=
  match m.first? with
  | none => m
  | some (k, _) => m.erase k

/-- The map of a list of bindings, the last one of a key counting. -/
def ofEntries (l : List (α × β)) : OrderedMap α β := l.foldl (fun m e => m.insert e.1 e.2) ∅

/-- Rewrite every value in place. -/
def mapVal (m : OrderedMap α β) (f : α → β → γ) : OrderedMap α γ where
  entries := m.entries.map fun e => (e.1, f e.1 e.2)
  sorted := m.sorted.map _ fun _ _ h => h

/-- Rewrite the value at `k`, if there is one. -/
def modify (m : OrderedMap α β) (k : α) (f : β → β) : OrderedMap α β :=
  m.mapVal fun k' v => if k' = k then f v else v

/-! ### Lookups as membership -/

theorem get?_eq_some {m : OrderedMap α β} : m.get? k = some v ↔ (k, v) ∈ m.entries := by
  obtain ⟨l, hl⟩ := m
  simp only [get?]
  induction l with
  | nil => simp
  | cons e l ih =>
    obtain ⟨hlt, hl'⟩ := List.pairwise_cons.mp hl
    by_cases he : e.1 = k
    · subst he
      simp only [List.find?_cons, beq_self_eq_true, Option.map_some, Option.some.injEq,
        List.mem_cons]
      constructor
      · rintro rfl; exact .inl rfl
      · rintro (h | h)
        · rw [← h]
        · exact absurd (hlt _ h) (lt_irrefl _)
    · have hek : (e.1 == k) = false := by simpa using he
      simp only [List.find?_cons, hek, List.mem_cons]
      rw [ih hl']
      constructor
      · exact .inr
      · rintro (h | h)
        · exact absurd (by rw [← h]) he
        · exact h

theorem mem_entries_iff {m : OrderedMap α β} {e : α × β} :
    e ∈ m.entries ↔ m.get? e.1 = some e.2 := get?_eq_some.symm

/-- Two maps with the same lookups are equal: their entry lists are permutations of each other,
both sorted. -/
theorem ext_get? {m m' : OrderedMap α β} (h : ∀ k, m.get? k = m'.get? k) : m = m' := by
  have hmem : ∀ e, e ∈ m.entries ↔ e ∈ m'.entries := fun e => by
    rw [mem_entries_iff, mem_entries_iff, h]
  have hnd (n : OrderedMap α β) : n.entries.Nodup := n.sorted.imp fun hlt he => by
    rw [he] at hlt; exact lt_irrefl _ hlt
  have hperm := (List.perm_ext_iff_of_nodup (hnd m) (hnd m')).mpr hmem
  exact OrderedMap.ext (hperm.eq_of_pairwise (fun a b _ _ hab hba => absurd hab (lt_asymm hba))
    m.sorted m'.sorted)

theorem contains_iff {m : OrderedMap α β} : m.contains k = true ↔ ∃ v, m.get? k = some v := by
  simp [contains, Option.isSome_iff_exists]

theorem contains_eq_false {m : OrderedMap α β} : m.contains k = false ↔ m.get? k = none := by
  simp [contains]

theorem mem_keys {m : OrderedMap α β} : k ∈ m.keys ↔ ∃ v, m.get? k = some v := by
  simp only [keys, List.mem_map, Prod.exists, get?_eq_some]
  constructor
  · rintro ⟨k', v, h, rfl⟩; exact ⟨v, h⟩
  · rintro ⟨v, h⟩; exact ⟨k, v, h, rfl⟩

theorem mem_values {m : OrderedMap α β} : v ∈ m.values ↔ ∃ k, m.get? k = some v := by
  simp [values, get?_eq_some]

theorem keys_nodup (m : OrderedMap α β) : m.keys.Nodup :=
  (List.pairwise_map.mpr m.sorted).imp ne_of_lt

/-! ### Lookups through the operations -/

@[simp] theorem entries_empty : (∅ : OrderedMap α β).entries = [] := rfl

@[simp] theorem get?_empty (k : α) : (∅ : OrderedMap α β).get? k = none := rfl

/-- A key above all others goes to the end. -/
theorem entries_insert_last {m : OrderedMap α β} (v : β) (h : ∀ e ∈ m.entries, e.1 < k) :
    (m.insert k v).entries = m.entries ++ [(k, v)] := by
  have hlt : m.entries.filter (·.1 < k) = m.entries :=
    List.filter_eq_self.mpr fun e he => by simpa using h e he
  have hgt : m.entries.filter (k < ·.1) = [] :=
    List.filter_eq_nil_iff.mpr fun e he => by simpa using (h e he).le
  simp only [insert, hlt, hgt]

theorem get?_insert (m : OrderedMap α β) (k k' : α) (v : β) :
    (m.insert k v).get? k' = if k' = k then some v else m.get? k' := by
  ext w
  rw [get?_eq_some]
  simp only [insert, List.mem_append, List.mem_filter, decide_eq_true_eq, List.mem_cons,
    Prod.mk.injEq]
  split
  · next h => subst h; simp [eq_comm]
  · next h =>
    rw [get?_eq_some]
    simp only [h, false_and, false_or]
    constructor
    · rintro (⟨h, _⟩ | ⟨h, _⟩) <;> exact h
    · intro hm
      rcases lt_or_gt_of_ne h with hlt | hgt
      · exact .inl ⟨hm, hlt⟩
      · exact .inr ⟨hm, hgt⟩

@[simp] theorem get?_insert_self (m : OrderedMap α β) (k : α) (v : β) :
    (m.insert k v).get? k = some v := by rw [get?_insert, if_pos rfl]

theorem get?_insert_of_ne (m : OrderedMap α β) {k k' : α} (v : β) (h : k' ≠ k) :
    (m.insert k v).get? k' = m.get? k' := by rw [get?_insert, if_neg h]

/-- Bind many keys to one value. -/
theorem get?_foldl_insert_const (keys : List α) (m : OrderedMap α β) (v : β) (k : α) :
    (keys.foldl (fun m key => m.insert key v) m).get? k = if k ∈ keys then some v else m.get? k := by
  induction keys generalizing m with
  | nil => rw [List.foldl_nil, if_neg List.not_mem_nil]
  | cons key keys ih =>
    rw [List.foldl_cons, ih, get?_insert]
    by_cases hk : k ∈ keys
    · rw [if_pos hk, if_pos (List.mem_cons_of_mem _ hk)]
    · rw [if_neg hk]
      exact if_congr (by simp [hk]) rfl rfl

theorem get?_filter (m : OrderedMap α β) (p : α → β → Bool) (k : α) :
    (m.filter p).get? k = (m.get? k).filter (p k) := by
  ext v
  rw [get?_eq_some, Option.filter_eq_some_iff, get?_eq_some]
  simp [filter]

theorem get?_filter_eq_some {m : OrderedMap α β} {p : α → β → Bool} :
    (m.filter p).get? k = some v ↔ m.get? k = some v ∧ p k v = true := by
  rw [get?_filter, Option.filter_eq_some_iff]

theorem get?_filter_of_forall {m : OrderedMap α β} {p : α → β → Bool} (h : ∀ v, p k v = true) :
    (m.filter p).get? k = m.get? k := by
  rw [get?_filter]
  cases m.get? k <;> simp [h]

theorem get?_erase (m : OrderedMap α β) (k k' : α) :
    (m.erase k).get? k' = if k' = k then none else m.get? k' := by
  rw [erase, get?_filter]
  split
  · next h => subst h; cases m.get? k' <;> simp
  · next h => cases m.get? k' <;> simp [h]

@[simp] theorem get?_erase_self (m : OrderedMap α β) (k : α) : (m.erase k).get? k = none := by
  rw [get?_erase, if_pos rfl]

theorem get?_erase_of_ne (m : OrderedMap α β) {k k' : α} (h : k' ≠ k) :
    (m.erase k).get? k' = m.get? k' := by rw [get?_erase, if_neg h]

theorem erase_of_get?_eq_none {m : OrderedMap α β} (h : m.get? k = none) : m.erase k = m := by
  refine ext_get? fun k' => ?_
  rw [get?_erase]
  split
  · next hk => rw [hk, h]
  · rfl

theorem size_erase_lt {m : OrderedMap α β} (h : m.get? k = some v) : (m.erase k).size < m.size := by
  refine List.length_filter_lt_length_iff_exists.mpr ⟨(k, v), get?_eq_some.mp h, ?_⟩
  simp

@[simp] theorem get?_mapVal (m : OrderedMap α β) (f : α → β → γ) (k : α) :
    (m.mapVal f).get? k = (m.get? k).map (f k) := by
  ext w
  rw [get?_eq_some, Option.map_eq_some_iff]
  simp only [mapVal, List.mem_map, Prod.mk.injEq, Prod.exists, get?_eq_some]
  constructor
  · rintro ⟨k', v, h, rfl, rfl⟩; exact ⟨v, h, rfl⟩
  · rintro ⟨v, h, rfl⟩; exact ⟨k, v, h, rfl, rfl⟩

theorem get?_modify (m : OrderedMap α β) (k k' : α) (f : β → β) :
    (m.modify k f).get? k' = if k' = k then (m.get? k').map f else m.get? k' := by
  rw [modify, get?_mapVal]
  split <;> simp [*]

@[simp] theorem get?_modify_self (m : OrderedMap α β) (k : α) (f : β → β) :
    (m.modify k f).get? k = (m.get? k).map f := by rw [get?_modify, if_pos rfl]

theorem get?_modify_of_ne (m : OrderedMap α β) {k k' : α} (f : β → β) (h : k' ≠ k) :
    (m.modify k f).get? k' = m.get? k' := by rw [get?_modify, if_neg h]

theorem get?_filter_key (m : OrderedMap α β) (p : α → Prop) [DecidablePred p] (k : α) :
    (m.filter fun k _ => decide (p k)).get? k = if p k then m.get? k else none := by
  rw [get?_filter]
  split
  · next h => cases m.get? k <;> simp [h]
  · next h => cases m.get? k <;> simp [h]

theorem get?_erase_update (m : OrderedMap α β) (k : α) :
    (m.erase k).get? = Function.update m.get? k none := by
  funext k'
  rw [get?_erase, Function.update_apply]

/-! ### Which keys there are -/

theorem contains_modify (m : OrderedMap α β) (k k' : α) (f : β → β) :
    (m.modify k f).contains k' = m.contains k' := by
  rw [contains, contains, get?_modify]
  split
  · exact Option.isSome_map
  · rfl

theorem contains_filter_key (m : OrderedMap α β) (p : α → Prop) [DecidablePred p] (k : α) :
    (m.filter fun k _ => decide (p k)).contains k = (decide (p k) && m.contains k) := by
  rw [contains, contains, get?_filter_key]
  split
  · next h => simp [h]
  · next h => simp [h]

theorem contains_erase (m : OrderedMap α β) (k : α) :
    (m.erase k).contains = Function.update m.contains k false := by
  funext k'
  simp only [contains, get?_erase, Function.update_apply]
  split <;> rfl

theorem contains_erase_iff {m : OrderedMap α β} {k k' : α} :
    (m.erase k).contains k' = true ↔ k' ≠ k ∧ m.contains k' = true := by
  rw [contains_erase, Function.update_apply]
  split
  · next h => simp [h]
  · next h => simp [h]

theorem contains_insert_iff {m : OrderedMap α β} {k k' : α} :
    (m.insert k v).contains k' = true ↔ k' = k ∨ m.contains k' = true := by
  simp only [contains, get?_insert]
  split
  · next h => simp [h]
  · next h => simp [h]

theorem contains_insert (m : OrderedMap α β) (k : α) (v : β) :
    (m.insert k v).contains = Function.update m.contains k true := by
  funext k'
  simp only [contains, get?_insert, Function.update_apply]
  split <;> rfl

/-! ### The lowest key -/

theorem contains_insert_of_contains {m : OrderedMap α β} (h : m.contains k = true) (v : β) :
    (m.insert k v).contains = m.contains := by
  rw [contains_insert, ← h, Function.update_eq_self]

theorem get?_of_first? {m : OrderedMap α β} (h : m.first? = some (k, v)) : m.get? k = some v :=
  get?_eq_some.mpr (List.mem_of_mem_head? h)

theorem first?_eq_none {m : OrderedMap α β} : m.first? = none ↔ m = ∅ := by
  rw [first?, List.head?_eq_none_iff]
  exact ⟨fun h => OrderedMap.ext h, fun h => h ▸ rfl⟩

theorem first?_le {m : OrderedMap α β} {k k' : α} {v v' : β} (hfirst : m.first? = some (k, v))
    (hget : m.get? k' = some v') : k ≤ k' := by
  have hmem := get?_eq_some.mp hget
  have hsorted := m.sorted
  unfold first? at hfirst
  cases hentries : m.entries with
  | nil =>
    rw [hentries] at hfirst
    cases hfirst
  | cons e es =>
    rw [hentries] at hfirst hmem hsorted
    cases hfirst
    rcases List.mem_cons.mp hmem with heq | hmem
    · cases heq
      exact le_refl _
    · exact le_of_lt ((List.pairwise_cons.mp hsorted).1 _ hmem)

/-- The keys in order depend on the set of keys only. -/
theorem keys_eq_of_contains {m : OrderedMap α β} {m' : OrderedMap α γ}
    (h : m.contains = m'.contains) : m.keys = m'.keys := by
  have hmap : m.mapVal (fun _ _ => ()) = m'.mapVal fun _ _ => () := by
    refine ext_get? fun k => ?_
    have hk := congrFun h k
    simp only [contains] at hk
    rw [get?_mapVal, get?_mapVal]
    cases hm : m.get? k <;> cases hm' : m'.get? k <;> simp [hm, hm'] at hk ⊢
  have hkeys : ∀ {δ : Type} (n : OrderedMap α δ), (n.mapVal fun _ _ => ()).keys = n.keys :=
    fun n => by simp [keys, mapVal]
  rw [← hkeys m, ← hkeys m', hmap]

theorem popFirst_eq {m : OrderedMap α β} {m' : OrderedMap α γ} (h : m'.contains = m.contains)
    (hk : m.first? = some (k, v)) : m'.popFirst = m'.erase k := by
  have hhead : ∀ {δ : Type} (n : OrderedMap α δ), n.keys.head? = n.first?.map (·.1) :=
    fun n => by simp [keys, first?]
  have hkeys := congrArg List.head? (keys_eq_of_contains h)
  rw [hhead, hhead, hk, Option.map_some] at hkeys
  obtain ⟨e, he, rfl⟩ := Option.map_eq_some_iff.mp hkeys
  simp only [popFirst, he]

theorem entries_foldl_insert {l : List (α × β)} {m : OrderedMap α β}
    (h : (m.entries ++ l).Pairwise fun x y => x.1 < y.1) :
    (l.foldl (fun m e => m.insert e.1 e.2) m).entries = m.entries ++ l := by
  induction l generalizing m with
  | nil => simp
  | cons e l ih =>
    have hlast : (m.insert e.1 e.2).entries = m.entries ++ [e] :=
      entries_insert_last e.2 fun d hd =>
        (List.pairwise_append.mp h).2.2 d hd e List.mem_cons_self
    rw [List.foldl_cons, ih (by rw [hlast]; simpa using h), hlast]
    simp

theorem entries_ofEntries {l : List (α × β)} (h : l.Pairwise fun x y => x.1 < y.1) :
    (ofEntries l).entries = l :=
  entries_foldl_insert h

/-! ### A part of every value -/

/-- An optional part of the values, as a function of the key. -/
def look (m : OrderedMap α β) (g : β → Option γ) (k : α) : Option γ := (m.get? k).bind g

variable {g : β → Option γ}

theorem look_of_get? {m : OrderedMap α β} (h : m.get? k = some v) :
    m.look g k = g v := by rw [look, h]; rfl

theorem look_eq_some {m : OrderedMap α β} {x : γ} :
    m.look g k = some x ↔ ∃ v, m.get? k = some v ∧ g v = some x := Option.bind_eq_some_iff

theorem look_insert (m : OrderedMap α β) (k : α) (v : β) :
    (m.insert k v).look g = Function.update (m.look g) k (g v) := by
  funext k'
  simp only [look, get?_insert, Function.update_apply]
  split <;> rfl

theorem look_erase (m : OrderedMap α β) (k : α) :
    (m.erase k).look g = Function.update (m.look g) k none := by
  funext k'
  simp only [look, get?_erase, Function.update_apply]
  split <;> rfl

theorem look_modify {m : OrderedMap α β} (h : m.get? k = some v) (f : β → β) :
    (m.modify k f).look g = Function.update (m.look g) k (g (f v)) := by
  funext k'
  simp only [look, get?_modify, Function.update_apply]
  split
  · next hk => rw [hk, h]; rfl
  · rfl

theorem look_modify_of_forall (m : OrderedMap α β) (k : α) {f : β → β} (h : ∀ v, g (f v) = g v) :
    (m.modify k f).look g = m.look g := by
  funext k'
  simp only [look, get?_modify]
  split
  · cases m.get? k' with
    | none => rfl
    | some v => exact h v
  · rfl

/-! ### The total weight of the entries -/

def weight (f : α → β → Nat) (m : OrderedMap α β) : Nat :=
  m.entries.foldr (fun e n => f e.1 e.2 + n) 0

variable {f : α → β → Nat} {bound : Nat}

theorem foldr_add_append (w : γ → Nat) (l l' : List γ) :
    (l ++ l').foldr (fun e n => w e + n) 0 =
      l.foldr (fun e n => w e + n) 0 + l'.foldr (fun e n => w e + n) 0 := by
  induction l with
  | nil => simp
  | cons e l ih => simp only [List.cons_append, List.foldr_cons, ih, Nat.add_assoc]

/-- The entries below, at and above a key weigh as much as all of them together. -/
theorem weight_split (m : OrderedMap α β) (k : α) :
    m.weight f =
      (m.entries.filter (·.1 < k)).foldr (fun e n => f e.1 e.2 + n) 0 +
        (m.get? k).elim 0 (f k) +
        (m.entries.filter (k < ·.1)).foldr (fun e n => f e.1 e.2 + n) 0 := by
  obtain ⟨l, hl⟩ := m
  simp only [weight, get?]
  induction l with
  | nil => rfl
  | cons e l ih =>
    obtain ⟨hlt, hl'⟩ := List.pairwise_cons.mp hl
    rw [List.foldr_cons, ih hl', List.find?_cons]
    rcases lt_trichotomy e.1 k with h | h | h
    · have hek : (e.1 == k) = false := by simpa using h.ne
      rw [List.filter_cons_of_pos (by simpa using h), hek,
        List.filter_cons_of_neg (by simpa using h.le), List.foldr_cons]
      simp only [Nat.add_assoc]
    · subst h
      -- The key is the first entry, so nothing is below it and it does not occur again.
      have hbelow : l.filter (·.1 < e.1) = [] :=
        List.filter_eq_nil_iff.mpr fun d hd => by simpa using (hlt d hd).le
      have hfind : l.find? (fun d => d.1 == e.1) = none :=
        List.find?_eq_none.mpr fun d hd => by simpa using (hlt d hd).ne'
      simp [hbelow, hfind]
    · have hek : (e.1 == k) = false := by simpa using h.ne'
      have hbelow : l.filter (·.1 < k) = [] :=
        List.filter_eq_nil_iff.mpr fun d hd => by simpa using (h.trans (hlt d hd)).le
      have hfind : l.find? (fun d => d.1 == k) = none :=
        List.find?_eq_none.mpr fun d hd => by simpa using (h.trans (hlt d hd)).ne'
      rw [List.filter_cons_of_neg (by simpa using h.le), hbelow, hek, hfind,
        List.filter_cons_of_pos (by simpa using h), List.foldr_cons]
      simp

theorem weight_insert (m : OrderedMap α β) (k : α) (v : β) :
    (m.insert k v).weight f + (m.get? k).elim 0 (f k) = m.weight f + f k v := by
  rw [m.weight_split k]
  simp only [weight, insert, foldr_add_append (fun e : α × β => f e.1 e.2), List.foldr_cons]
  omega

theorem weight_erase (m : OrderedMap α β) (k : α) :
    (m.erase k).weight f + (m.get? k).elim 0 (f k) = m.weight f := by
  have hentries : ∀ p : α × β → Bool, (∀ e, p e = true → e.1 ≠ k) →
      (m.erase k).entries.filter p = m.entries.filter p := fun p hp => by
    simp only [erase, filter, List.filter_filter]
    refine List.filter_congr fun e _ => ?_
    by_cases h : p e = true
    · simp [h, hp e h]
    · simp [h]
  rw [m.weight_split k, (m.erase k).weight_split k, get?_erase_self,
    hentries _ fun e he => (show e.1 < k by simpa using he).ne,
    hentries _ fun e he => (show k < e.1 by simpa using he).ne']
  simp only [Option.elim_none]
  omega

theorem weight_mono {f' : α → β → Nat} (h : ∀ k v, f k v ≤ f' k v) (m : OrderedMap α β) :
    m.weight f ≤ m.weight f' := by
  unfold weight
  induction m.entries with
  | nil => exact le_rfl
  | cons e l ih => exact Nat.add_le_add (h _ _) ih

theorem weight_filter_le (p : α → β → Bool) (m : OrderedMap α β) :
    (m.filter p).weight f ≤ m.weight f := by
  unfold weight
  show (m.entries.filter fun e => p e.1 e.2).foldr _ 0 ≤ _
  induction m.entries with
  | nil => exact le_rfl
  | cons e l ih =>
    rw [List.filter_cons]
    split
    · exact Nat.add_le_add_left ih _
    · exact ih.trans (Nat.le_add_left _ _)

theorem size_eq_weight (m : OrderedMap α β) : m.size = m.weight fun _ _ => 1 := by
  unfold size weight
  induction m.entries with
  | nil => rfl
  | cons e l ih => rw [List.length_cons, List.foldr_cons, ih, Nat.add_comm]

theorem size_insert (m : OrderedMap α β) (k : α) (v : β) :
    (m.insert k v).size + (if m.contains k then 1 else 0) = m.size + 1 := by
  have h := m.weight_insert (f := fun _ _ => 1) k v
  rw [size_eq_weight, size_eq_weight, ← h, contains]
  cases m.get? k with
  | none => rfl
  | some _ => rfl

theorem size_erase {m : OrderedMap α β} (h : m.get? k = some v) :
    (m.erase k).size + 1 = m.size := by
  have heq := m.weight_erase (f := fun _ _ => 1) k
  rwa [h, ← size_eq_weight, ← size_eq_weight] at heq

theorem size_filter_le (m : OrderedMap α β) (p : α → β → Bool) : (m.filter p).size ≤ m.size :=
  List.length_filter_le ..

/-! ### Trimming to a weight

Entries are dropped from the lowest key on, until the rest weighs no more than a bound.
-/

def trimLoop (f : α → β → Nat) (bound : Nat) : (fuel : Nat) → OrderedMap α β → OrderedMap α β
  | 0, m => m
  | fuel + 1, m =>
    match m.first? with
    | none => m
    | some (k, _) => if bound < m.weight f then trimLoop f bound fuel (m.erase k) else m

def trim (f : α → β → Nat) (bound : Nat) (m : OrderedMap α β) : OrderedMap α β :=
  trimLoop f bound m.size m

theorem trimLoop_eq_trim {bound fuel : Nat} {m : OrderedMap α β} (h : m.size ≤ fuel) :
    trimLoop f bound fuel m = m.trim f bound := by
  have hmore : ∀ (n : Nat) (m : OrderedMap α β), m.size ≤ n →
      trimLoop f bound (n + 1) m = trimLoop f bound n m := by
    intro n
    induction n with
    | zero =>
      intro m hm
      have hnone : m.first? = none := by
        rw [first?, List.head?_eq_none_iff]
        exact List.eq_nil_of_length_eq_zero (Nat.le_zero.mp hm)
      simp only [trimLoop, hnone]
    | succ n ih =>
      intro m hm
      rw [trimLoop, trimLoop]
      split
      · rfl
      next k v hk =>
      split
      · exact ih _ (by have := size_erase_lt (get?_of_first? hk); omega)
      · rfl
  induction fuel with
  | zero => rw [trim, Nat.le_zero.mp h]
  | succ fuel ih =>
    rcases Nat.lt_or_ge fuel m.size with hlt | hle
    · rw [trim, Nat.le_antisymm h hlt]
    · rw [hmore fuel m hle, ih hle]

theorem trim_of_le {m : OrderedMap α β} (h : m.weight f ≤ bound) : m.trim f bound = m := by
  rw [← trimLoop_eq_trim (Nat.le_succ m.size), trimLoop]
  split
  · rfl
  · rw [if_neg (by omega)]

/-- One round of the trimming. -/
theorem trim_of_lt {m : OrderedMap α β} (hk : m.first? = some (k, v)) (h : bound < m.weight f) :
    m.trim f bound = (m.erase k).trim f bound := by
  have hlt := size_erase_lt (get?_of_first? hk)
  rw [← trimLoop_eq_trim (Nat.le_succ m.size), trimLoop, hk]
  simp only [if_pos h]
  exact trimLoop_eq_trim (by omega)

/-- The induction along a trimming. -/
theorem trim_induction (bound : Nat) {C : OrderedMap α β → Prop}
    (hempty : C ∅) (hle : ∀ m, m.weight f ≤ bound → C m)
    (hlt : ∀ m k v, m.first? = some (k, v) → bound < m.weight f → C (m.erase k) → C m)
    (m : OrderedMap α β) : C m := by
  induction h : m.size using Nat.strongRecOn generalizing m with
  | _ n ih =>
    by_cases hw : m.weight f ≤ bound
    · exact hle m hw
    cases hk : m.first? with
    | none => exact first?_eq_none.mp hk ▸ hempty
    | some e =>
      obtain ⟨k, v⟩ := e
      have hsize := size_erase_lt (get?_of_first? hk)
      exact hlt m k v hk (by omega) (ih _ (h ▸ hsize) _ rfl)

/-- Trimming to a bound and then to a tighter one is trimming to the tighter one. -/
theorem trim_trim {bound bound' : Nat} (hb : bound ≤ bound') (m : OrderedMap α β) :
    (m.trim f bound').trim f bound = m.trim f bound := by
  refine trim_induction (f := f) bound'
    (C := fun m => (m.trim f bound').trim f bound = m.trim f bound) rfl (fun m hle => ?_)
    (fun m k v hk hlt ih => ?_) m
  · rw [trim_of_le hle]
  · rw [trim_of_lt hk hlt, ih, trim_of_lt hk (by omega : bound < m.weight f)]

theorem get?_of_trim {m : OrderedMap α β} (h : (m.trim f bound).get? k = some v) :
    m.get? k = some v := by
  refine trim_induction (f := f) bound
    (C := fun m => (m.trim f bound).get? k = some v → m.get? k = some v) (fun h => h)
    (fun m hle h => ?_) (fun m k' v' hk hlt ih h => ?_) m h
  · rwa [trim_of_le hle] at h
  · rw [trim_of_lt hk hlt] at h
    have hget := ih h
    rw [get?_erase] at hget
    split at hget
    · cases hget
    · exact hget

/-! ### Rewriting every value -/

section MapVal
variable (g : α → β → γ) (m : OrderedMap α β)

@[simp] theorem keys_mapVal : (m.mapVal g).keys = m.keys := by simp [keys, mapVal]

@[simp] theorem size_mapVal : (m.mapVal g).size = m.size := by simp [size, mapVal]

theorem first?_mapVal : (m.mapVal g).first? = m.first?.map fun e => (e.1, g e.1 e.2) := by
  simp [first?, mapVal]

theorem weight_mapVal (f : α → γ → Nat) :
    (m.mapVal g).weight f = m.weight fun k v => f k (g k v) := by
  simp [weight, mapVal, List.foldr_map]

theorem erase_mapVal (k : α) : (m.mapVal g).erase k = (m.erase k).mapVal g := by
  refine ext_get? fun k' => ?_
  rw [get?_erase, get?_mapVal, get?_mapVal, get?_erase]
  split <;> rfl

theorem insert_mapVal (k : α) (v : β) :
    (m.mapVal g).insert k (g k v) = (m.insert k v).mapVal g := by
  refine ext_get? fun k' => ?_
  rw [get?_insert, get?_mapVal, get?_mapVal, get?_insert]
  split
  · next h => rw [h]; rfl
  · rfl

end MapVal

/-- The keys of the entries that pass a test. -/
theorem keys_filter_entries (m : OrderedMap α β) (p : β → Bool) :
    (m.entries.filter fun e => p e.2).map (·.1) = m.keys.filter fun k => (m.get? k).any p := by
  rw [keys, List.filter_map]
  refine congrArg _ (List.filter_congr fun e he => ?_)
  simp [get?_eq_some.mpr he]

/-! ### A property of every entry -/

def All (m : OrderedMap α β) (P : α → β → Prop) : Prop := ∀ k v, m.get? k = some v → P k v

variable {P Q : α → β → Prop} {m : OrderedMap α β}

theorem All.empty : (∅ : OrderedMap α β).All P := nofun

theorem All.mono (H : m.All P) (h : ∀ k v, P k v → Q k v) : m.All Q :=
  fun k v hk => h k v (H k v hk)

theorem All.insert (H : m.All P) (h : P k v) : (m.insert k v).All P := by
  intro k' v' hk
  rw [get?_insert] at hk
  split at hk
  · next heq =>
    subst heq
    exact Option.some.inj hk ▸ h
  · exact H k' v' hk

theorem All.erase (H : m.All P) (k : α) : (m.erase k).All P := by
  intro k' v' hk
  rw [get?_erase] at hk
  split at hk
  · cases hk
  · exact H k' v' hk

theorem All.modify (H : m.All P) {f : β → β} (h : ∀ v, m.get? k = some v → P k (f v)) :
    (m.modify k f).All P := by
  intro k' v' hk
  rw [get?_modify] at hk
  split at hk
  · next heq =>
    subst heq
    obtain ⟨v, hv, rfl⟩ := Option.map_eq_some_iff.mp hk
    exact h v hv
  · exact H k' v' hk

/-! ### Maps from a range of numbers -/

theorem size_le_of_lt {m : OrderedMap Nat β} {n : Nat} (h : m.All fun k _ => k < n) :
    m.size ≤ n := by
  have hsub : m.keys ⊆ List.range n := fun k hk => by
    obtain ⟨v, hv⟩ := mem_keys.mp hk
    exact List.mem_range.mpr (h k v hv)
  simpa [keys, size] using (List.subperm_of_subset m.keys_nodup hsub).length_le

theorem weight_eq_zero {f : α → β → Nat} {m : OrderedMap α β} (h : m.All fun k v => f k v = 0) :
    m.weight f = 0 := by
  have hall : ∀ e ∈ m.entries, f e.1 e.2 = 0 := fun e he => h e.1 e.2 (mem_entries_iff.mp he)
  unfold weight
  generalize m.entries = l at hall
  induction l with
  | nil => rfl
  | cons e l ih =>
    rw [List.foldr_cons, hall e (List.mem_cons_self ..),
      ih fun e he => hall e (List.mem_cons_of_mem _ he)]

/-- A map from numbers below `n` has `n` entries when it has all of them. -/
theorem size_eq_iff_of_lt {m : OrderedMap Nat β} {n : Nat} (h : m.All fun k _ => k < n) :
    m.size = n ↔ ∀ k < n, m.contains k = true := by
  have hsub : m.keys ⊆ List.range n := fun k hk => by
    obtain ⟨v, hv⟩ := mem_keys.mp hk
    exact List.mem_range.mpr (h k v hv)
  have hlen : m.keys.length = m.size := by simp [keys, size]
  constructor
  · intro hn k hk
    have hperm := (List.subperm_of_subset m.keys_nodup hsub).perm_of_length_le
      (by rw [List.length_range, hlen, hn])
    exact contains_iff.mpr (mem_keys.mp (hperm.mem_iff.mpr (List.mem_range.mpr hk)))
  · intro hall
    refine Nat.le_antisymm (size_le_of_lt h) ?_
    have hsub' : List.range n ⊆ m.keys := fun k hk =>
      mem_keys.mpr (contains_iff.mp (hall k (List.mem_range.mp hk)))
    simpa [hlen] using (List.subperm_of_subset List.nodup_range hsub').length_le

end OrderedMap

end Outpace

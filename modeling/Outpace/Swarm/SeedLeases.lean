import Mathlib.Data.List.Count
import Outpace.Swarm.SeedRegistry

/-!
# Leases of the seed registry

The producers of an entry are the references of the live leases to its generation (`Booked`). A
generation is given out once, so a new entry under a used key starts without references, and what
is left of the old leases names another generation.
-/

namespace Outpace.Swarm

variable {κ σ : Type}

namespace SeedEntry

@[simp] theorem generation_insertStore (e : SeedEntry κ σ) (candidate : σ) :
    (e.insertStore candidate).generation = e.generation := rfl

@[simp] theorem producers_insertStore (e : SeedEntry κ σ) (candidate : σ) :
    (e.insertStore candidate).producers = e.producers := rfl

@[simp] theorem generation_addProducer (e : SeedEntry κ σ) :
    e.addProducer.generation = e.generation := rfl

@[simp] theorem producers_addProducer (e : SeedEntry κ σ) :
    e.addProducer.producers = e.producers + 1 := rfl

variable [LinearOrder κ]

@[simp] theorem generation_requireCanonical (e : SeedEntry κ σ) (canonical : κ) :
    (e.requireCanonical canonical).generation = e.generation := by
  unfold requireCanonical
  split <;> rfl

@[simp] theorem producers_requireCanonical (e : SeedEntry κ σ) (canonical : κ) :
    (e.requireCanonical canonical).producers = e.producers := by
  unfold requireCanonical
  split <;> rfl

@[simp] theorem generation_addAlias (e : SeedEntry κ σ) (key : κ) :
    (e.addAlias key).generation = e.generation := by
  unfold addAlias
  split <;> rfl

@[simp] theorem producers_addAlias (e : SeedEntry κ σ) (key : κ) :
    (e.addAlias key).producers = e.producers := by
  unfold addAlias
  split <;> rfl

@[simp] theorem generation_associateBroadcast (e : SeedEntry κ σ) (canonical other : κ) :
    (e.associateBroadcast canonical other).generation = e.generation := by
  simp [associateBroadcast]

@[simp] theorem producers_associateBroadcast (e : SeedEntry κ σ) (canonical other : κ) :
    (e.associateBroadcast canonical other).producers = e.producers := by
  simp [associateBroadcast]

@[simp] theorem generation_ownBroadcast (e : SeedEntry κ σ) (infohash contentId : κ) :
    (e.ownBroadcast infohash contentId).generation = e.generation := by
  simp [ownBroadcast]

@[simp] theorem producers_ownBroadcast (e : SeedEntry κ σ) (infohash contentId : κ) :
    (e.ownBroadcast infohash contentId).producers = e.producers + 1 := by
  simp [ownBroadcast]

end SeedEntry

variable [LinearOrder κ] {keys : List (κ × Nat)} {ref : κ × Nat}

namespace SeedRegistry

variable {r : SeedRegistry κ σ} {refs refs' : List (κ × Nat)} {key canonical : κ} {now : Nat}
  {f : SeedEntry κ σ → SeedEntry κ σ} {e : SeedEntry κ σ}

/-- The registry against the references that are out. -/
structure Booked (r : SeedRegistry κ σ) (refs : List (κ × Nat)) : Prop where
  count : ∀ key e, r.stores.get? key = some e → e.producers = refs.count (key, e.generation)
  entries : ∀ key e, r.stores.get? key = some e → e.generation < r.nextGeneration
  refs : ∀ ref ∈ refs, ref.2 < r.nextGeneration

theorem Booked.new : Booked (.new : SeedRegistry κ σ) [] :=
  ⟨fun _ _ h => (by cases h), fun _ _ h => (by cases h), fun _ h => (by cases h)⟩

theorem Booked.perm (B : r.Booked refs) (h : refs.Perm refs') : r.Booked refs' :=
  ⟨fun key e he => (B.count key e he).trans (h.count_eq _), B.entries,
    fun ref href => B.refs ref (h.mem_iff.mpr href)⟩

theorem entry_of_get? (h : r.stores.get? key = some e) : r.entry key canonical now = e := by
  rw [entry, h]
  rfl

theorem entry_of_none (h : r.stores.get? key = none) :
    r.entry key canonical now = .new canonical r.nextGeneration now := by
  rw [entry, h]
  rfl

/-- The entry of a key is booked, be it a new one. -/
theorem Booked.entry_producers (B : r.Booked refs) (key canonical : κ) (now : Nat) :
    (r.entry key canonical now).producers =
      refs.count (key, (r.entry key canonical now).generation) := by
  cases h : r.stores.get? key with
  | some e =>
    rw [entry_of_get? h]
    exact B.count key e h
  | none =>
    rw [entry_of_none h]
    refine (List.count_eq_zero.mpr fun hmem => ?_).symm
    exact Nat.lt_irrefl _ (B.refs _ hmem)

theorem le_nextGeneration_upsert : r.nextGeneration ≤ (r.upsert key canonical now f).nextGeneration := by
  show r.nextGeneration ≤ if r.stores.contains key then r.nextGeneration else r.nextGeneration + 1
  split <;> omega

theorem Booked.entry_generation_lt (B : r.Booked refs) (key canonical : κ) (now : Nat)
    (f : SeedEntry κ σ → SeedEntry κ σ) :
    (r.entry key canonical now).generation < (r.upsert key canonical now f).nextGeneration := by
  cases h : r.stores.get? key with
  | some e =>
    rw [entry_of_get? h]
    exact Nat.lt_of_lt_of_le (B.entries key e h) le_nextGeneration_upsert
  | none =>
    have hc : r.stores.contains key = false := OrderedMap.contains_eq_false.mpr h
    rw [entry_of_none h]
    show r.nextGeneration < if r.stores.contains key = true then _ else _
    rw [hc]
    exact Nat.lt_succ_self _

theorem get?_upsert_self :
    (r.upsert key canonical now f).stores.get? key = some (f (r.entry key canonical now)) :=
  OrderedMap.get?_insert_self ..

theorem get?_upsert_of_ne {key' : κ} (h : key' ≠ key) :
    (r.upsert key canonical now f).stores.get? key' = r.stores.get? key' :=
  OrderedMap.get?_insert_of_ne _ _ h

/-- An update that takes `n` producers on, with as many references to the entry. -/
theorem Booked.upsert (B : r.Booked refs) {n : Nat} (hgen : ∀ e, (f e).generation = e.generation)
    (hprod : ∀ e, (f e).producers = e.producers + n) :
    (r.upsert key canonical now f).Booked
      (refs ++ List.replicate n (key, (r.entry key canonical now).generation)) where
  count key' e' h := by
    by_cases hk : key' = key
    · subst hk
      obtain rfl := Option.some.inj (get?_upsert_self.symm.trans h)
      rw [hprod, hgen, List.count_append, List.count_replicate_self,
        B.entry_producers key' canonical now]
    · rw [get?_upsert_of_ne hk] at h
      have hne : ((key, (r.entry key canonical now).generation) == (key', e'.generation)) = false :=
        beq_eq_false_iff_ne.mpr fun heq => hk (Prod.mk.inj heq).1.symm
      rw [B.count key' e' h, List.count_append, List.count_replicate, hne]
      simp
  entries key' e' h := by
    by_cases hk : key' = key
    · subst hk
      obtain rfl := Option.some.inj (get?_upsert_self.symm.trans h)
      rw [hgen]
      exact B.entry_generation_lt ..
    · rw [get?_upsert_of_ne hk] at h
      exact Nat.lt_of_lt_of_le (B.entries key' e' h) le_nextGeneration_upsert
  refs ref href := by
    rcases List.mem_append.mp href with href | href
    · exact Nat.lt_of_lt_of_le (B.refs ref href) le_nextGeneration_upsert
    · obtain rfl := List.eq_of_mem_replicate href
      exact B.entry_generation_lt ..

theorem Booked.upsert_keep (B : r.Booked refs) (hgen : ∀ e, (f e).generation = e.generation)
    (hprod : ∀ e, (f e).producers = e.producers) :
    (r.upsert key canonical now f).Booked refs := by
  have h : (r.upsert key canonical now f).Booked _ := B.upsert (n := 0) hgen hprod
  rwa [List.replicate_zero, List.append_nil] at h

/-- A map with the same keys, generations and producers keeps the same books. -/
theorem Booked.mapVal (B : r.Booked refs) {g : κ → SeedEntry κ σ → SeedEntry κ σ}
    {domains : List (AdmissionState κ)} (hgen : ∀ k e, (g k e).generation = e.generation)
    (hprod : ∀ k e, (g k e).producers = e.producers) :
    { r with stores := r.stores.mapVal g, admissionDomains := domains }.Booked refs where
  count key e h := by
    obtain ⟨e', he', rfl⟩ := Option.map_eq_some_iff.mp ((OrderedMap.get?_mapVal ..).symm.trans h)
    rw [hprod, hgen]
    exact B.count key e' he'
  entries key e h := by
    obtain ⟨e', he', rfl⟩ := Option.map_eq_some_iff.mp ((OrderedMap.get?_mapVal ..).symm.trans h)
    rw [hgen]
    exact B.entries key e' he'
  refs := B.refs

theorem Booked.retainLiveAliases (B : r.Booked refs) (canonical : κ) :
    (r.retainLiveAliases canonical).Booked refs := by
  unfold SeedRegistry.retainLiveAliases
  split
  · exact B
  · dsimp only
    split
    · exact B.mapVal (fun _ e => by split <;> rfl) (fun _ e => by split <;> rfl)
    · exact ⟨B.count, B.entries, B.refs⟩

theorem Booked.register (B : r.Booked refs) (infohash : κ) (store : σ) (now : Nat) :
    (r.register infohash store now).Booked refs :=
  B.upsert_keep (by simp) (by simp)

theorem Booked.registerMetadata (B : r.Booked refs) (key : κ) (metadata : List UInt8) (now : Nat) :
    (r.registerMetadata key metadata now).Booked refs :=
  B.upsert_keep (by simp) (by simp)

theorem Booked.publish (B : r.Booked refs) (infohash : κ) (candidate : σ) (now : Nat) :
    (r.publish infohash candidate now).2.Booked refs := by
  show (r.upsert infohash infohash now fun e =>
    (e.requireCanonical infohash).insertStore candidate).Booked refs
  exact B.upsert_keep (by simp) (by simp)

theorem Booked.lookup (B : r.Booked refs) (infohash : κ) (now : Nat) :
    (r.lookup infohash now).2.Booked refs := by
  unfold SeedRegistry.lookup
  split
  · next e he =>
    refine ⟨fun key e' h => ?_, fun key e' h => ?_, B.refs⟩
    all_goals
      rw [OrderedMap.get?_insert] at h
      split at h
    · next hk =>
      subst hk
      obtain rfl := Option.some.inj h
      simpa using B.count _ e he
    · exact B.count key e' h
    · next hk =>
      subst hk
      obtain rfl := Option.some.inj h
      simpa using B.entries _ e he
    · exact B.entries key e' h
  · exact B

theorem Booked.leaseStore (B : r.Booked refs) (infohash : κ) (candidate : σ) (now : Nat) :
    (r.leaseStore infohash candidate now).2.Booked
      (refs ++ (r.leaseStore infohash candidate now).1) := by
  show (r.upsert infohash infohash now fun e =>
    ((e.requireCanonical infohash).insertStore candidate).addProducer).Booked (refs ++ [_])
  exact B.upsert (n := 1) (by simp) (by simp)

theorem Booked.leaseBroadcast (B : r.Booked refs) (infohash contentId : κ) (metadata : List UInt8)
    (candidate : σ) (now : Nat) :
    (r.leaseBroadcast infohash contentId metadata candidate now).2.Booked
      (refs ++ (r.leaseBroadcast infohash contentId metadata candidate now).1) := by
  refine Booked.retainLiveAliases ?_ infohash
  have h : (r.upsert infohash infohash now fun e =>
      (e.ownBroadcast infohash contentId).insertStore candidate).Booked _ :=
    B.upsert (n := 1) (by simp) (by simp)
  have h' : (SeedRegistry.upsert _ contentId infohash now fun e =>
      { e.ownBroadcast infohash contentId with metadata := some metadata }).Booked _ :=
    h.upsert (n := 1) (by simp) (by simp)
  rwa [List.append_assoc] at h'

theorem Booked.remove (B : r.Booked refs) (key : κ) : (r.remove key).Booked refs := by
  have hsub : ∀ key' e, (r.remove key).stores.get? key' = some e → r.stores.get? key' = some e := by
    intro key' e h
    rw [SeedRegistry.remove, OrderedMap.get?_erase] at h
    split at h
    · cases h
    · exact h
  exact ⟨fun key' e h => B.count key' e (hsub key' e h),
    fun key' e h => B.entries key' e (hsub key' e h), B.refs⟩

theorem Booked.reap (B : r.Booked refs) (now ttl : Nat) : (r.reap now ttl).Booked refs := by
  have hsub : ∀ key e, (r.reap now ttl).stores.get? key = some e → r.stores.get? key = some e :=
    fun key e h => (OrderedMap.get?_filter_eq_some.mp h).1
  exact ⟨fun key e h => B.count key e (hsub key e h), fun key e h => B.entries key e (hsub key e h),
    B.refs⟩

/-! ### Dropping a lease -/

theorem dropKey_of_ne (h : ∀ e, r.stores.get? ref.1 = some e → e.generation ≠ ref.2) :
    r.dropKey ref = r := by
  unfold dropKey
  split
  · next e he => exact if_neg (h e he)
  · rfl

theorem dropKey_of_le_one {e : SeedEntry κ σ} (h : r.stores.get? key = some e)
    (hp : e.producers ≤ 1) : r.dropKey (key, e.generation) = { r with stores := r.stores.erase key } := by
  rw [dropKey, h]
  dsimp only
  rw [if_pos rfl, if_pos (by omega)]

theorem dropKey_of_one_lt {e : SeedEntry κ σ} (h : r.stores.get? key = some e)
    (hp : 1 < e.producers) :
    r.dropKey (key, e.generation) =
      { r with stores := r.stores.insert key { e with producers := e.producers - 1 } } := by
  rw [dropKey, h]
  dsimp only
  rw [if_pos rfl, if_neg (by omega)]

/-- A key other than the one dropped keeps its entry. -/
theorem get?_dropKey_of_ne (hk : key ≠ ref.1) :
    (r.dropKey ref).stores.get? key = r.stores.get? key := by
  unfold dropKey
  split
  · split
    · split
      · exact OrderedMap.get?_erase_of_ne _ hk
      · exact OrderedMap.get?_insert_of_ne _ _ hk
    · rfl
  · rfl

theorem count_cons_ref (h : key ≠ ref.1 ∨ e.generation ≠ ref.2) :
    (ref :: refs).count (key, e.generation) = refs.count (key, e.generation) := by
  refine List.count_cons_of_ne fun heq => ?_
  rw [heq] at h
  rcases h with h | h <;> exact h rfl

theorem Booked.dropKey (B : r.Booked (ref :: refs)) : (r.dropKey ref).Booked refs := by
  have hrefs : ∀ ref' ∈ refs, ref'.2 < r.nextGeneration :=
    fun ref' h => B.refs ref' (List.mem_cons_of_mem _ h)
  by_cases hmatch : ∃ e, r.stores.get? ref.1 = some e ∧ e.generation = ref.2
  · obtain ⟨e, he, hgen⟩ := hmatch
    obtain ⟨key, gen⟩ := ref
    cases hgen
    have hcount := B.count key e he
    rw [List.count_cons_self] at hcount
    by_cases hp : e.producers ≤ 1
    · rw [dropKey_of_le_one he hp]
      refine ⟨fun key' e' h => ?_, fun key' e' h => ?_, hrefs⟩
      all_goals
        rw [OrderedMap.get?_erase] at h
        split at h
        · cases h
      · next hk => rw [B.count key' e' h, count_cons_ref (.inl hk)]
      · exact B.entries key' e' h
    · rw [dropKey_of_one_lt he (Nat.lt_of_not_le hp)]
      refine ⟨fun key' e' h => ?_, fun key' e' h => ?_, hrefs⟩
      all_goals
        rw [OrderedMap.get?_insert] at h
        split at h
      · next hk =>
        subst hk
        obtain rfl := Option.some.inj h
        exact Nat.sub_eq_of_eq_add hcount
      · next hk => rw [B.count key' e' h, count_cons_ref (.inl hk)]
      · next hk =>
        subst hk
        obtain rfl := Option.some.inj h
        exact B.entries _ e he
      · exact B.entries key' e' h
  · rw [dropKey_of_ne fun e he hgen => hmatch ⟨e, he, hgen⟩]
    refine ⟨fun key e he => ?_, B.entries, hrefs⟩
    have hne : key ≠ ref.1 ∨ e.generation ≠ ref.2 := by
      by_cases hk : key = ref.1
      · exact .inr fun hgen => hmatch ⟨e, hk ▸ he, hgen⟩
      · exact .inl hk
    rw [B.count key e he, count_cons_ref hne]

theorem Booked.dropLease (B : r.Booked (keys ++ refs)) : (r.dropLease keys).Booked refs := by
  induction keys generalizing r with
  | nil => exact B
  | cons ref keys ih => exact ih B.dropKey

/-- The drop of a key with a subtraction that fails where it would saturate. -/
def dropKeyChecked (r : SeedRegistry κ σ) (ref : κ × Nat) : Option (SeedRegistry κ σ) :=
  match r.stores.get? ref.1 with
  | some e => if e.generation = ref.2 ∧ e.producers = 0 then none else some (r.dropKey ref)
  | none => some (r.dropKey ref)

def dropLeaseChecked (r : SeedRegistry κ σ) (keys : List (κ × Nat)) : Option (SeedRegistry κ σ) :=
  keys.foldlM dropKeyChecked r

theorem Booked.dropKeyChecked (B : r.Booked (ref :: refs)) :
    r.dropKeyChecked ref = some (r.dropKey ref) := by
  unfold SeedRegistry.dropKeyChecked
  split
  · next e he =>
    refine if_neg ?_
    rintro ⟨hgen, hzero⟩
    have hcount := B.count ref.1 e he
    rw [hgen, List.count_cons_self] at hcount
    omega
  · rfl

/-- No producer count is taken below zero. -/
theorem Booked.dropLeaseChecked (B : r.Booked (keys ++ refs)) :
    r.dropLeaseChecked keys = some (r.dropLease keys) := by
  induction keys generalizing r with
  | nil => rfl
  | cons ref keys ih =>
    rw [SeedRegistry.dropLeaseChecked, List.foldlM_cons, Booked.dropKeyChecked B]
    exact ih B.dropKey

/-- The entry of another generation, or of another key, stays as it is. -/
theorem get?_dropLease_of_not_mem (h : r.stores.get? key = some e)
    (hnot : (key, e.generation) ∉ keys) : (r.dropLease keys).stores.get? key = some e := by
  induction keys generalizing r with
  | nil => exact h
  | cons ref keys ih =>
    rw [List.mem_cons, not_or] at hnot
    obtain ⟨hne, hnot⟩ := hnot
    refine ih ?_ hnot
    by_cases hk : key = ref.1
    · have hgen : e.generation ≠ ref.2 := fun hgen => hne (Prod.ext hk hgen)
      rw [dropKey_of_ne]
      · exact h
      · intro e' he'
        rw [← hk, h] at he'
        exact Option.some.inj he' ▸ hgen
    · rw [get?_dropKey_of_ne hk]
      exact h

/-- An entry with references left stays. -/
theorem Booked.get?_dropLease (B : r.Booked (keys ++ refs)) (h : r.stores.get? key = some e)
    (hlive : 0 < refs.count (key, e.generation)) :
    ∃ e', (r.dropLease keys).stores.get? key = some e' ∧ e'.generation = e.generation := by
  induction keys generalizing r e with
  | nil => exact ⟨e, h, rfl⟩
  | cons ref keys ih =>
    by_cases href : ref = (key, e.generation)
    · subst href
      have hcount := B.count key e h
      rw [List.cons_append, List.count_cons_self, List.count_append] at hcount
      have hdrop := dropKey_of_one_lt h (by omega)
      obtain ⟨e', he', hgen⟩ := @ih _ { e with producers := e.producers - 1 } B.dropKey
        (by rw [hdrop]; exact OrderedMap.get?_insert_self ..) hlive
      exact ⟨e', he', hgen⟩
    · have hsame : (r.dropLease [ref]).stores.get? key = some e :=
        get?_dropLease_of_not_mem h fun hmem => href (List.mem_singleton.mp hmem).symm
      exact ih B.dropKey hsame hlive

/-- An entry of this generation, if it is there, has a producer. -/
def Held (r : SeedRegistry κ σ) (key : κ) (generation : Nat) : Prop :=
  ∀ e, r.stores.get? key = some e → e.generation = generation → 0 < e.producers

theorem held_dropKey {generation : Nat} (h : ref = (key, generation) ∨ r.Held key generation) :
    (r.dropKey ref).Held key generation := by
  intro e' he' hgen'
  by_cases hk : key = ref.1
  · subst hk
    by_cases hmatch : ∃ e, r.stores.get? ref.1 = some e ∧ e.generation = ref.2
    · obtain ⟨e, he, hgen⟩ := hmatch
      obtain ⟨key, gen⟩ := ref
      cases hgen
      by_cases hp : e.producers ≤ 1
      · rw [dropKey_of_le_one he hp, OrderedMap.get?_erase_self] at he'
        cases he'
      · rw [dropKey_of_one_lt he (Nat.lt_of_not_le hp), OrderedMap.get?_insert_self] at he'
        obtain rfl := Option.some.inj he'
        exact Nat.sub_pos_of_lt (Nat.lt_of_not_le hp)
    · rw [dropKey_of_ne fun e he hgen => hmatch ⟨e, he, hgen⟩] at he'
      rcases h with h | h
      · exact absurd ⟨e', he', hgen'.trans (congrArg Prod.snd h).symm⟩ hmatch
      · exact h e' he' hgen'
  · rw [get?_dropKey_of_ne hk] at he'
    rcases h with h | h
    · exact absurd (congrArg Prod.fst h).symm hk
    · exact h e' he' hgen'

theorem held_dropLease {generation : Nat} (h : (key, generation) ∈ keys ∨ r.Held key generation) :
    (r.dropLease keys).Held key generation := by
  induction keys generalizing r with
  | nil => exact h.resolve_left List.not_mem_nil
  | cons ref keys ih =>
    refine ih ?_
    rcases h with h | h
    · rcases List.mem_cons.mp h with h | h
      · exact .inr (held_dropKey (.inl h.symm))
      · exact .inl h
    · exact .inr (held_dropKey (.inr h))

/-- What a drop leaves of a key was there before. -/
theorem get?_of_dropLease {e' : SeedEntry κ σ} (h : (r.dropLease keys).stores.get? key = some e') :
    ∃ e, r.stores.get? key = some e ∧ e'.generation = e.generation := by
  induction keys generalizing r with
  | nil => exact ⟨e', h, rfl⟩
  | cons ref keys ih =>
    obtain ⟨e, he, hgen⟩ := ih h
    by_cases hk : key = ref.1
    · subst hk
      unfold dropKey at he
      split at he
      · next e₀ he₀ =>
        split at he
        · split at he
          · rw [OrderedMap.get?_erase_self] at he
            cases he
          · rw [OrderedMap.get?_insert_self] at he
            obtain rfl := Option.some.inj he
            exact ⟨e₀, he₀, hgen⟩
        · exact ⟨e, he, hgen⟩
      · exact ⟨e, he, hgen⟩
    · rw [get?_dropKey_of_ne hk] at he
      exact ⟨e, he, hgen⟩

/-- The last references to an entry take it with them. -/
theorem Booked.get?_dropLease_last (B : r.Booked (keys ++ refs)) (h : r.stores.get? key = some e)
    (hmem : (key, e.generation) ∈ keys) (hlast : refs.count (key, e.generation) = 0) :
    (r.dropLease keys).stores.get? key = none := by
  refine Option.eq_none_iff_forall_ne_some.mpr fun e' he' => ?_
  obtain ⟨e₀, he₀, hgen⟩ := get?_of_dropLease he'
  obtain rfl := Option.some.inj (h.symm.trans he₀)
  have hpos : 0 < e'.producers := held_dropLease (.inl hmem) e' he' hgen
  have hcount := B.dropLease.count key e' he'
  rw [hgen, hlast] at hcount
  omega

/-! ### Entries stay -/

/-- Every entry is still there, with its generation. -/
def Grows (r r' : SeedRegistry κ σ) : Prop :=
  ∀ key e, r.stores.get? key = some e →
    ∃ e', r'.stores.get? key = some e' ∧ e'.generation = e.generation

theorem Grows.refl (r : SeedRegistry κ σ) : Grows r r := fun _ e h => ⟨e, h, rfl⟩

theorem Grows.trans {r r' r'' : SeedRegistry κ σ} (h : Grows r r') (h' : Grows r' r'') :
    Grows r r'' := by
  intro key e he
  obtain ⟨e', he', hgen⟩ := h key e he
  obtain ⟨e'', he'', hgen'⟩ := h' key e' he'
  exact ⟨e'', he'', hgen'.trans hgen⟩

theorem grows_upsert (hgen : ∀ e, (f e).generation = e.generation) :
    Grows r (r.upsert key canonical now f) := by
  intro key' e he
  by_cases hk : key' = key
  · subst hk
    refine ⟨_, get?_upsert_self, ?_⟩
    rw [hgen, entry_of_get? he]
  · exact ⟨e, (get?_upsert_of_ne hk).trans he, rfl⟩

theorem grows_lookup (r : SeedRegistry κ σ) (infohash : κ) (now : Nat) :
    Grows r (r.lookup infohash now).2 := by
  unfold lookup
  split
  · next e he =>
    intro key e' he'
    by_cases hk : key = infohash
    · subst hk
      obtain rfl := Option.some.inj (he.symm.trans he')
      exact ⟨_, OrderedMap.get?_insert_self .., by simp⟩
    · exact ⟨e', (OrderedMap.get?_insert_of_ne _ _ hk).trans he', rfl⟩
  · exact .refl r

theorem grows_retainLiveAliases (r : SeedRegistry κ σ) (canonical : κ) :
    Grows r (r.retainLiveAliases canonical) := by
  unfold retainLiveAliases
  split
  · exact .refl r
  · dsimp only
    split
    · intro key e he
      refine ⟨_, by rw [OrderedMap.get?_mapVal, he]; rfl, ?_⟩
      dsimp only
      split <;> rfl
    · exact .refl r

theorem grows_leaseBroadcast (r : SeedRegistry κ σ) (infohash contentId : κ)
    (metadata : List UInt8) (candidate : σ) (now : Nat) :
    Grows r (r.leaseBroadcast infohash contentId metadata candidate now).2 := by
  have hstore : Grows r (r.upsert infohash infohash now fun e =>
      (e.ownBroadcast infohash contentId).insertStore candidate) :=
    grows_upsert fun e => by simp
  exact (hstore.trans (grows_upsert fun e => by simp)).trans (grows_retainLiveAliases _ infohash)

end SeedRegistry

namespace Seeding

variable {s : Seeding κ σ}

/-- The references of the live leases. -/
def refs (s : Seeding κ σ) : List (κ × Nat) := s.leases.flatten

/-- How many live references there are to a generation of a key. -/
def liveRefs (s : Seeding κ σ) (key : κ) (generation : Nat) : Nat := s.refs.count (key, generation)

def entry (s : Seeding κ σ) (key : κ) : Option (SeedEntry κ σ) := s.registry.stores.get? key

def Booked (s : Seeding κ σ) : Prop := s.registry.Booked s.refs

theorem perm_refs {i : Nat} {lease : List (κ × Nat)} (h : s.leases[i]? = some lease) :
    s.refs.Perm (lease ++ (s.leases.eraseIdx i).flatten) := by
  obtain ⟨hi, rfl⟩ := List.getElem?_eq_some_iff.mp h
  exact (List.getElem_cons_eraseIdx_perm hi).symm.flatten

theorem Booked.rendezvous (B : s.Booked) (key : κ) : (s.rendezvous key).2.Booked := by
  unfold Seeding.rendezvous
  split
  · exact B
  · exact ⟨B.count, B.entries, B.refs⟩

theorem Booked.finish (B : s.Booked) (key : κ) (purpose : Purpose κ) (store : σ) (now : Nat) :
    (s.finish key purpose store now).Booked := by
  cases purpose with
  | get => exact B
  | lease =>
    have h := SeedRegistry.Booked.leaseStore B key store now
    show SeedRegistry.Booked _ (s.leases ++ [_]).flatten
    rwa [List.flatten_append, List.flatten_singleton]
  | broadcast contentId metadata =>
    have h := SeedRegistry.Booked.leaseBroadcast B key contentId metadata store now
    show SeedRegistry.Booked _ (s.leases ++ [_]).flatten
    rwa [List.flatten_append, List.flatten_singleton]

theorem Booked.advance (B : s.Booked) (i now : Nat) (made : σ) : (s.advance i now made).2.Booked := by
  unfold Seeding.advance
  split
  · next key purpose _ =>
    have h := SeedRegistry.Booked.lookup B key now
    dsimp only
    split <;> exact h
  · next key purpose _ => exact B.rendezvous key
  · split <;> exact B
  · exact B
  · next key purpose store _ => exact SeedRegistry.Booked.publish B key store now
  · exact ⟨B.count, B.entries, B.refs⟩
  · next key purpose store _ => exact B.finish key purpose store now
  · exact B
  · exact B

theorem step_dropLease {i : Nat} {lease : List (κ × Nat)} (h : s.leases[i]? = some lease) :
    s.step (.dropLease i) =
      { s with registry := s.registry.dropLease lease, leases := s.leases.eraseIdx i } := by
  unfold step exec
  dsimp only
  rw [h]

theorem step_dropLease_of_none {i : Nat} (h : s.leases[i]? = none) :
    s.step (.dropLease i) = s := by
  unfold step exec
  dsimp only
  rw [h]

theorem Booked.step (B : s.Booked) (op : SeedOp κ σ) : (s.step op).Booked := by
  cases op with
  | call key purpose => exact B
  | advance i now made => exact B.advance i now made
  | register infohash store now => exact SeedRegistry.Booked.register B infohash store now
  | registerMetadata key metadata now => exact SeedRegistry.Booked.registerMetadata B key metadata now
  | remove key => exact SeedRegistry.Booked.remove B key
  | reap now ttl => exact SeedRegistry.Booked.reap B now ttl
  | dropLease i =>
    cases hi : s.leases[i]? with
    | some lease =>
      rw [step_dropLease hi]
      exact (SeedRegistry.Booked.perm B (perm_refs hi)).dropLease
    | none =>
      rw [step_dropLease_of_none hi]
      exact B

theorem booked_run (ops : List (SeedOp κ σ)) : (run step (new : Seeding κ σ) ops).Booked :=
  run_invariant (I := Booked) (s := new) (fun _ op B => B.step op) SeedRegistry.Booked.new ops

theorem grows_advance (s : Seeding κ σ) (i now : Nat) (made : σ) :
    s.registry.Grows (s.advance i now made).2.registry := by
  unfold advance
  split
  · next key purpose _ =>
    have h := SeedRegistry.grows_lookup s.registry key now
    dsimp only
    split <;> exact h
  · next key purpose _ =>
    show s.registry.Grows (s.rendezvous key).2.registry
    unfold rendezvous
    split <;> exact SeedRegistry.Grows.refl s.registry
  · split <;> exact SeedRegistry.Grows.refl s.registry
  · exact SeedRegistry.Grows.refl _
  · exact SeedRegistry.grows_upsert fun e => by simp
  · exact SeedRegistry.Grows.refl _
  · next key purpose store _ =>
    cases purpose with
    | get => exact SeedRegistry.Grows.refl _
    | lease => exact SeedRegistry.grows_upsert fun e => by simp
    | broadcast contentId metadata =>
      exact SeedRegistry.grows_leaseBroadcast s.registry key contentId metadata store now
  · exact SeedRegistry.Grows.refl _
  · exact SeedRegistry.Grows.refl _

/-- A step other than the removal of its key keeps an entry that has a reference afterwards. -/
theorem Booked.entry_step (B : s.Booked) {key : κ} {e : SeedEntry κ σ} {op : SeedOp κ σ}
    (h : s.entry key = some e) (hlive : 0 < (s.step op).liveRefs key e.generation)
    (hop : op ≠ .remove key) :
    ∃ e', (s.step op).entry key = some e' ∧ e'.generation = e.generation := by
  cases op with
  | call key purpose => exact ⟨e, h, rfl⟩
  | advance i now made => exact grows_advance s i now made key e h
  | register | registerMetadata => exact SeedRegistry.grows_upsert (fun e => by simp) key e h
  | remove key' =>
    have hne : key ≠ key' := fun heq => hop (heq ▸ rfl)
    exact ⟨e, (OrderedMap.get?_erase_of_ne _ hne).trans h, rfl⟩
  | reap now ttl =>
    have hcount : e.producers = s.liveRefs key e.generation := B.count key e h
    have hlive : 0 < s.liveRefs key e.generation := hlive
    refine ⟨e, OrderedMap.get?_filter_eq_some.mpr ⟨h, ?_⟩, rfl⟩
    simp [SeedRegistry.reapable, show e.producers ≠ 0 by omega]
  | dropLease i =>
    cases hi : s.leases[i]? with
    | some lease =>
      rw [step_dropLease hi] at hlive ⊢
      exact (SeedRegistry.Booked.perm B (perm_refs hi)).get?_dropLease h hlive
    | none =>
      rw [step_dropLease_of_none hi]
      exact ⟨e, h, rfl⟩

/-- In every state that calls, leases and their drops can lead to, in any interleaving: the
producers of an entry are the live references to its generation, and no drop takes them below zero;
a step other than the removal of its key keeps an entry with live references; the drop of the last
of them removes it, a drop of other references leaves it as it is, and reaping leaves entries of a
broadcast and entries with live references. -/
theorem seed_entries_follow_leases (ops : List (SeedOp κ σ)) (key : κ) (e : SeedEntry κ σ)
    (h : (run step new ops).entry key = some e) :
    let s : Seeding κ σ := run step new ops
    e.producers = s.liveRefs key e.generation ∧
      (∀ op : SeedOp κ σ, op ≠ .remove key → 0 < (s.step op).liveRefs key e.generation →
        ∃ e', (s.step op).entry key = some e' ∧ e'.generation = e.generation) ∧
      (∀ i lease, s.leases[i]? = some lease →
        s.registry.dropLeaseChecked lease = some (s.step (.dropLease i)).registry ∧
        ((key, e.generation) ∈ lease → (s.step (.dropLease i)).liveRefs key e.generation = 0 →
          (s.step (.dropLease i)).entry key = none) ∧
        ((key, e.generation) ∉ lease → (s.step (.dropLease i)).entry key = some e)) ∧
      ∀ now ttl, e.kind = .broadcast ∨ 0 < s.liveRefs key e.generation →
        (s.step (.reap now ttl)).entry key = some e := by
  intro s
  have B : s.Booked := booked_run ops
  have hcount : e.producers = s.liveRefs key e.generation := B.count key e h
  refine ⟨hcount, fun op hop hlive => B.entry_step h hlive hop, fun i lease hi => ?_,
    fun now ttl hkeep => ?_⟩
  · have B' := SeedRegistry.Booked.perm B (perm_refs hi)
    rw [step_dropLease hi]
    exact ⟨B'.dropLeaseChecked, fun hmem hlast => B'.get?_dropLease_last h hmem hlast,
      fun hnot => SeedRegistry.get?_dropLease_of_not_mem h hnot⟩
  · refine OrderedMap.get?_filter_eq_some.mpr ⟨h, ?_⟩
    rcases hkeep with hkind | hlive
    · simp [SeedRegistry.reapable, hkind]
    · simp [SeedRegistry.reapable, show e.producers ≠ 0 by omega]

/-- A lease on a new store, and after its entry was removed another one, while the first lives. -/
def leaseOps : List (SeedOp Nat Nat) :=
  .call 7 .lease :: List.replicate 7 (.advance 0 100 5) ++ [.remove 7, .call 7 .lease] ++
    List.replicate 7 (.advance 1 200 6)

/-- The second entry. -/
def leasedEntry : SeedEntry Nat Nat where
  store := some 6
  metadata := none
  producers := 1
  kind := .leech
  generation := 2
  lastActive := 200
  canonical := some 7
  admissionAliases := []

/-- The second entry stays when the first lease goes, and goes with its own. -/
theorem seed_entries_follow_leases_sample :
    let s := run step new leaseOps
    s.leases = [[(7, 1)], [(7, 2)]] ∧ s.entry 7 = some leasedEntry ∧ s.liveRefs 7 2 = 1 ∧
      (s.step (.reap 1000 10)).entry 7 = some leasedEntry ∧
      (s.step (.dropLease 0)).entry 7 = some leasedEntry ∧
      (s.step (.dropLease 1)).entry 7 = none := by
  intro s
  have h : s.entry 7 = some leasedEntry := by decide +kernel
  obtain ⟨hcount, -, hdrop, hreap⟩ := seed_entries_follow_leases leaseOps 7 leasedEntry h
  obtain ⟨-, -, hother⟩ := hdrop 0 [(7, 1)] (by decide +kernel)
  obtain ⟨-, hlast, -⟩ := hdrop 1 [(7, 2)] (by decide +kernel)
  exact ⟨by decide +kernel, h, hcount.symm, hreap 1000 10 (.inr (by decide +kernel)),
    hother (by decide), hlast (by decide) (by decide +kernel)⟩

end Seeding

end Outpace.Swarm

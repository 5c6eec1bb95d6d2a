import Outpace.Swarm.SeedLeases

/-!
# Creation of a seed store

Calls of `get_or_create` that overlap, while no entry is removed. Whatever their interleaving, they
all return the store that was published first (`calls_return_one_store`).

The factory is to run once. The callers of a key meet at one rendezvous, but each of them removes it
from the map when it is done. A caller that missed the store before it was published and asks for
the rendezvous after it was removed makes a new one, and runs its factory for a store that is thrown
away (`factory_runs_twice`). With a rendezvous made only while there is no store the factory runs
once (`factory_runs_once`).
-/

namespace Outpace.Swarm

variable {κ σ : Type}

namespace SeedEntry

theorem store_insertStore {e : SeedEntry κ σ} {candidate store : σ} (h : e.store = some store) :
    (e.insertStore candidate).store = some store := by
  rw [insertStore, h]
  rfl

variable [LinearOrder κ]

@[simp] theorem store_requireCanonical (e : SeedEntry κ σ) (canonical : κ) :
    (e.requireCanonical canonical).store = e.store := by
  unfold requireCanonical
  split <;> rfl

@[simp] theorem store_addAlias (e : SeedEntry κ σ) (key : κ) : (e.addAlias key).store = e.store := by
  unfold addAlias
  split <;> rfl

@[simp] theorem store_ownBroadcast (e : SeedEntry κ σ) (infohash contentId : κ) :
    (e.ownBroadcast infohash contentId).store = e.store := by
  show (((e.requireCanonical infohash).addAlias infohash).addAlias contentId).store = e.store
  simp

end SeedEntry

variable [LinearOrder κ] {f : SeedEntry κ σ → SeedEntry κ σ} {p purpose : Purpose κ} {key' : κ}
  {candidate : σ} {callers : List (Caller κ σ)}

namespace SeedRegistry

variable {r : SeedRegistry κ σ} {key : κ} {now : Nat} {store : σ}

/-- The store of a key. -/
def storeOf (r : SeedRegistry κ σ) (key : κ) : Option σ := (r.stores.get? key).bind (·.store)

theorem entry_store {canonical : κ} : (r.entry key canonical now).store = r.storeOf key := by
  rw [storeOf]
  cases h : r.stores.get? key with
  | some e => rw [entry_of_get? h]; rfl
  | none => rw [entry_of_none h]; rfl

theorem storeOf_upsert_self {canonical : κ} :
    (r.upsert key canonical now f).storeOf key = (f (r.entry key canonical now)).store := by
  rw [storeOf, get?_upsert_self]
  rfl

theorem storeOf_upsert_of_ne {key' canonical : κ} (h : key ≠ key') :
    (r.upsert key' canonical now f).storeOf key = r.storeOf key := by
  rw [storeOf, get?_upsert_of_ne h]
  rfl

/-- An update that keeps the store of an entry keeps all stores that there are. -/
theorem storeOf_upsert {key' canonical : κ} (hf : ∀ e st, e.store = some st → (f e).store = some st)
    (h : r.storeOf key = some store) :
    (r.upsert key' canonical now f).storeOf key = some store := by
  by_cases hk : key = key'
  · subst hk
    rw [storeOf_upsert_self]
    exact hf _ _ (entry_store.trans h)
  · rw [storeOf_upsert_of_ne hk]
    exact h

theorem lookup_fst (r : SeedRegistry κ σ) (key : κ) (now : Nat) :
    (r.lookup key now).1 = r.storeOf key := by
  unfold lookup storeOf
  cases r.stores.get? key <;> rfl

@[simp] theorem storeOf_lookup (r : SeedRegistry κ σ) (key key' : κ) (now : Nat) :
    (r.lookup key' now).2.storeOf key = r.storeOf key := by
  unfold lookup
  split
  · next e he =>
    rw [storeOf, storeOf]
    by_cases hk : key = key'
    · subst hk
      rw [he, OrderedMap.get?_insert_self]
      simp
    · rw [OrderedMap.get?_insert_of_ne _ _ hk]
  · rfl

@[simp] theorem creating_lookup (r : SeedRegistry κ σ) (key : κ) (now : Nat) :
    (r.lookup key now).2.creating = r.creating := by
  unfold lookup
  split <;> rfl

@[simp] theorem storeOf_retainLiveAliases (r : SeedRegistry κ σ) (key canonical : κ) :
    (r.retainLiveAliases canonical).storeOf key = r.storeOf key := by
  unfold retainLiveAliases
  split
  · rfl
  · dsimp only
    split
    · rw [storeOf, storeOf, OrderedMap.get?_mapVal]
      cases r.stores.get? key with
      | none => rfl
      | some e =>
        simp only [Option.map_some, Option.bind_some]
        split <;> rfl
    · rfl

@[simp] theorem creating_retainLiveAliases (r : SeedRegistry κ σ) (canonical : κ) :
    (r.retainLiveAliases canonical).creating = r.creating := by
  unfold retainLiveAliases
  split <;> rfl

/-- What is published is what is returned, and a store that was there before stays. -/
theorem storeOf_publish_self (r : SeedRegistry κ σ) (key : κ) (candidate : σ) (now : Nat) :
    (r.publish key candidate now).2.storeOf key = some (r.publish key candidate now).1 := by
  show (r.upsert key key now _).storeOf key = _
  rw [storeOf_upsert_self, SeedEntry.insertStore, SeedEntry.store_requireCanonical]
  rfl

theorem storeOf_publish (key' : κ) (candidate : σ) (h : r.storeOf key = some store) :
    (r.publish key' candidate now).2.storeOf key = some store :=
  storeOf_upsert
    (fun _ _ he => SeedEntry.store_insertStore ((SeedEntry.store_requireCanonical ..).trans he)) h

end SeedRegistry

namespace Seeding

variable {s : Seeding κ σ} {key : κ} {store : σ} {now : Nat}

theorem storeOf_finish (h : s.registry.storeOf key = some store) :
    (s.finish key' purpose candidate now).registry.storeOf key = some store := by
  cases purpose with
  | get => exact h
  | lease =>
    exact SeedRegistry.storeOf_upsert (fun _ _ he =>
      SeedEntry.store_insertStore ((SeedEntry.store_requireCanonical ..).trans he)) h
  | broadcast contentId metadata =>
    refine (SeedRegistry.storeOf_retainLiveAliases ..).trans ?_
    refine SeedRegistry.storeOf_upsert (fun _ _ he => (SeedEntry.store_ownBroadcast ..).trans he) ?_
    exact SeedRegistry.storeOf_upsert (fun _ _ he =>
      SeedEntry.store_insertStore ((SeedEntry.store_ownBroadcast ..).trans he)) h

@[simp] theorem creating_finish {key : κ} :
    (s.finish key purpose candidate now).registry.creating = s.registry.creating := by
  cases purpose with
  | get => rfl
  | lease => rfl
  | broadcast contentId metadata => exact SeedRegistry.creating_retainLiveAliases ..

@[simp] theorem callers_finish {key : κ} :
    (s.finish key purpose candidate now).callers = s.callers := by
  cases purpose <;> rfl

@[simp] theorem callers_rendezvous (key : κ) : (s.rendezvous key).2.callers = s.callers := by
  unfold rendezvous
  split <;> rfl

@[simp] theorem storeOf_rendezvous (key key' : κ) :
    (s.rendezvous key').2.registry.storeOf key = s.registry.storeOf key := by
  unfold rendezvous
  split <;> rfl

/-! ### One store -/

/-- The key as its callers see it: what was returned or published is the store. -/
structure Published (key : κ) (s : Seeding κ σ) (log : List (SeedEvent κ σ)) : Prop where
  returned : ∀ st, .returned key st ∈ log → s.registry.storeOf key = some st
  published : ∀ p st, .published key p st ∈ s.callers → s.registry.storeOf key = some st

variable {s' : Seeding κ σ} {log new : List (SeedEvent κ σ)}

theorem Published.next (P : Published key s log)
    (hmono : ∀ st, s.registry.storeOf key = some st → s'.registry.storeOf key = some st)
    (hcallers : ∀ p st, .published key p st ∈ s'.callers →
      .published key p st ∈ s.callers ∨ s'.registry.storeOf key = some st)
    (hnew : ∀ st, .returned key st ∈ new → s'.registry.storeOf key = some st) :
    Published key s' (log ++ new) where
  returned st h := by
    rcases List.mem_append.mp h with h | h
    · exact hmono st (P.returned st h)
    · exact hnew st h
  published p st h := by
    rcases hcallers p st h with h | h
    · exact hmono st (P.published p st h)
    · exact h

omit [LinearOrder κ] in
/-- A caller that has not just published leaves the published ones. -/
theorem published_set {i : Nat} {c : Caller κ σ} (h : .published key p store ∈ callers.set i c)
    (hc : c ≠ .published key p store) : .published key p store ∈ callers :=
  (List.mem_or_eq_of_mem_set h).resolve_right hc.symm

theorem Published.advance (P : Published key s log) (i now : Nat) (made : σ) :
    Published key (s.advance i now made).2 (log ++ (s.advance i now made).1) := by
  unfold Seeding.advance
  split
  · next key' purpose _ =>
    have hst : (s.registry.lookup key' now).1 = s.registry.storeOf key' := SeedRegistry.lookup_fst ..
    dsimp only
    split
    · next st hlookup =>
      refine P.next (by simp [setCaller]) (fun p st' h => .inl (published_set h (by simp))) ?_
      intro st' h
      obtain ⟨rfl, rfl⟩ : key = key' ∧ st' = st := by simpa using h
      simpa [setCaller] using hst.symm.trans hlookup
    · exact P.next (by simp [setCaller]) (fun p st' h => .inl (published_set h (by simp))) (by simp)
  · next key' purpose _ =>
    refine P.next (by simp [setCaller]) (fun p st' h => .inl ?_) (by simp)
    have h : .published key p st' ∈ (s.rendezvous key').2.callers.set i _ := h
    rw [callers_rendezvous] at h
    exact published_set h (by simp)
  · next key' purpose cell _ =>
    split
    · exact P.next (by simp [setCaller]) (fun p st' h => .inl (published_set h (by simp))) (by simp)
    · exact P.next (by simp [setCaller]) (fun p st' h => .inl (published_set h (by simp))) (by simp)
    · exact P.next (fun _ h => h) (fun _ _ h => .inl h) (by simp)
  · exact P.next (by simp [setCaller]) (fun p st' h => .inl (published_set h (by simp))) (by simp)
  · next key' purpose st _ =>
    refine P.next (fun st' h => SeedRegistry.storeOf_publish key' st h) (fun p st' h => ?_) (by simp)
    rcases List.mem_or_eq_of_mem_set h with h | h
    · exact .inl h
    · obtain ⟨rfl, -, rfl⟩ := Caller.published.inj h
      exact .inr (SeedRegistry.storeOf_publish_self ..)
  · next key' purpose st hi =>
    refine P.next (fun _ h => h) (fun p st' h => .inl (published_set h (by simp))) ?_
    intro st' h
    obtain ⟨rfl, rfl⟩ : key = key' ∧ st' = st := by simpa using h
    exact P.published purpose st' (List.mem_of_getElem? hi)
  · next key' purpose st _ =>
    refine P.next (fun st' h => storeOf_finish h) (fun p st' h => .inl ?_) (by simp)
    have h : .published key p st' ∈ (s.finish key' purpose st now).callers.set i .done := h
    rw [callers_finish] at h
    exact published_set h (by simp)
  · exact P.next (fun _ h => h) (fun _ _ h => .inl h) (by simp)
  · exact P.next (fun _ h => h) (fun _ _ h => .inl h) (by simp)

/-- A call of `get_or_create`, or the next lock hold of one. -/
def creates : SeedOp κ σ → Bool
  | .call _ _ => true
  | .advance _ _ _ => true
  | _ => false

theorem Published.step (P : Published key s log) {op : SeedOp κ σ} (hop : creates op = true) :
    Published key (s.step op) (log ++ s.events op) := by
  cases op with
  | call key' purpose =>
    refine P.next (fun _ h => h) (fun p st h => .inl ?_) (by simp [events, exec])
    have h : .published key p st ∈ s.callers ++ [.start key' purpose] := h
    simpa using h
  | advance i now made => exact P.advance i now made
  | _ => cases hop

/-- A registry on which no call is in progress. -/
def idle (r : SeedRegistry κ σ) (leases : List (List (κ × Nat))) : Seeding κ σ :=
  ⟨{ r with creating := ∅ }, [], [], leases⟩

theorem Published.idle (key : κ) (r : SeedRegistry κ σ) (leases : List (List (κ × Nat))) :
    Published key (idle r leases) [] :=
  ⟨fun _ h => (by cases h), fun _ _ h => (by cases h)⟩

/-- However calls of `get_or_create` interleave, those for one key return one store. -/
theorem calls_return_one_store {r : SeedRegistry κ σ} {leases : List (List (κ × Nat))}
    {ops : List (SeedOp κ σ)} (hops : Meets step (fun _ op => creates op = true) (idle r leases) ops)
    {st st' : σ} (h : .returned key st ∈ emits step events (idle r leases) ops)
    (h' : .returned key st' ∈ emits step events (idle r leases) ops) : st = st' := by
  have P := run_emits_induction (I := Published key) (fun _ _ _ P hop => P.step hop)
    (Published.idle key r leases) hops
  exact Option.some.inj ((P.returned st h).symm.trans (P.returned st' h'))

/-! ### One run of the factory -/

/-- The rendezvous that a call for this key holds. -/
def cellOf (key : κ) : Caller κ σ → Option Nat
  | .waiting key' _ cell => if key' = key then some cell else none
  | .making key' _ cell => if key' = key then some cell else none
  | _ => none

def isMade (key : κ) : SeedEvent κ σ → Bool
  | .made key' => decide (key' = key)
  | .returned _ _ => false

/-- How often the factory was run for a key. -/
def made (key : κ) (log : List (SeedEvent κ σ)) : Nat := log.countP (isMade key)

/-- The rendezvous of a key that is in the map, or that a call for the key holds. -/
def Holds (key : κ) (s : Seeding κ σ) (cell : Nat) : Prop :=
  s.registry.creating.get? key = some cell ∨ ∃ caller ∈ s.callers, cellOf key caller = some cell

/-- There is one rendezvous at a time, and as long as there is no store it is in the map; the
factory was run if it is not empty. -/
structure Once (key : κ) (s : Seeding κ σ) (n : Nat) : Prop where
  le : n ≤ 1
  one : ∀ c c', Holds key s c → Holds key s c' → c = c'
  bound : ∀ c, Holds key s c → c < s.cells.length
  anchored : s.registry.storeOf key = none → ∀ caller ∈ s.callers, ∀ c, cellOf key caller = some c →
    s.registry.creating.get? key = some c
  kept : s.registry.storeOf key = none → n ≠ 0 → s.registry.creating.get? key ≠ none
  empty : ∀ c, Holds key s c → s.cells[c]? = some .empty → n = 0

variable {n : Nat}

/-- A step that makes no rendezvous for the key and does not run its factory. -/
theorem Once.next (O : Once key s n)
    (hstore : s'.registry.storeOf key = none → s.registry.storeOf key = none)
    (hcreating : s'.registry.creating.get? key = s.registry.creating.get? key ∨
      s'.registry.creating.get? key = none ∧ s'.registry.storeOf key ≠ none)
    (hcallers : ∀ caller ∈ s'.callers, ∀ c, cellOf key caller = some c →
      (∃ caller' ∈ s.callers, cellOf key caller' = some c) ∨
        s.registry.creating.get? key = some c ∧ s'.registry.creating.get? key = some c)
    (hcells : ∀ c < s.cells.length, s'.cells[c]? = some .empty → s.cells[c]? = some .empty)
    (hlen : s.cells.length ≤ s'.cells.length) : Once key s' n := by
  have hholds : ∀ c, Holds key s' c → Holds key s c := by
    rintro c (h | ⟨caller, hmem, hc⟩)
    · rcases hcreating with heq | ⟨hnone, -⟩
      · exact .inl (heq ▸ h)
      · rw [hnone] at h
        cases h
    · rcases hcallers caller hmem c hc with h | h
      · exact .inr h
      · exact .inl h.1
  refine ⟨O.le, fun c c' h h' => O.one c c' (hholds c h) (hholds c' h'),
    fun c h => Nat.lt_of_lt_of_le (O.bound c (hholds c h)) hlen, ?_, ?_,
    fun c h he => O.empty c (hholds c h) (hcells c (O.bound c (hholds c h)) he)⟩
  · intro hnone caller hmem c hc
    rcases hcreating with heq | ⟨-, hne⟩
    · rcases hcallers caller hmem c hc with ⟨caller', hmem', hc'⟩ | h
      · rw [heq]
        exact O.anchored (hstore hnone) caller' hmem' c hc'
      · exact h.2
    · exact absurd hnone hne
  · intro hnone hn
    rcases hcreating with heq | ⟨-, hne⟩
    · rw [heq]
      exact O.kept (hstore hnone) hn
    · exact absurd hnone hne

/-- A caller without a rendezvous for the key. -/
theorem cellOf_set {i c : Nat} {b caller : Caller κ σ} (hb : cellOf key b = none)
    (h : caller ∈ callers.set i b) (hc : cellOf key caller = some c) :
    ∃ caller' ∈ callers, cellOf key caller' = some c := by
  rcases List.mem_or_eq_of_mem_set h with h | rfl
  · exact ⟨caller, h, hc⟩
  · rw [hb] at hc
    cases hc

/-- The factory is run on the one rendezvous, which was empty. -/
theorem Once.make (O : Once key s' 0) (hheld : ∀ c, Holds key s' c → s'.cells[c]? ≠ some .empty)
    (hkept : s'.registry.storeOf key = none → s'.registry.creating.get? key ≠ none) :
    Once key s' 1 :=
  ⟨Nat.le_refl _, O.one, O.bound, O.anchored, fun h _ => hkept h,
    fun c h he => absurd he (hheld c h)⟩

theorem Once.rendezvous (O : Once key s n) {i : Nat}
    (htimely : key' = key → s.registry.creating.get? key = none → s.registry.storeOf key = none) :
    Once key ((s.rendezvous key').2.setCaller i (.waiting key' p (s.rendezvous key').1)) n := by
  have hcell : ∀ c, cellOf key (.waiting key' p c : Caller κ σ) = if key' = key then some c else none :=
    fun c => rfl
  cases hcreating : s.registry.creating.get? key' with
  | some cell =>
    have hr : s.rendezvous key' = (cell, s) := by rw [Seeding.rendezvous, hcreating]
    rw [hr]
    refine O.next (fun h => h) (.inl rfl) ?_ (fun _ _ h => h) (Nat.le_refl _)
    intro caller hmem c hc
    rcases List.mem_or_eq_of_mem_set hmem with hmem | rfl
    · exact .inl ⟨caller, hmem, hc⟩
    · rw [hcell] at hc
      split at hc
      · next hk =>
        obtain rfl := Option.some.inj hc
        exact .inr ⟨hk ▸ hcreating, hk ▸ hcreating⟩
      · cases hc
  | none =>
    have hr : s.rendezvous key' = (s.cells.length,
        { s with
          registry := { s.registry with creating := s.registry.creating.insert key' s.cells.length }
          cells := s.cells ++ [.empty] }) := by
      rw [Seeding.rendezvous, hcreating]
    rw [hr]
    by_cases hk : key' = key
    · subst hk
      have hnone := htimely rfl hcreating
      have hfree : ∀ c, ¬Holds key' s c := by
        rintro c (h | ⟨caller, hmem, hc⟩)
        · rw [hcreating] at h
          cases h
        · have h := O.anchored hnone caller hmem c hc
          rw [hcreating] at h
          cases h
      have hn : n = 0 := Decidable.by_contra fun hn => O.kept hnone hn hcreating
      have hnew : ∀ c, Holds key' (setCaller { s with
          registry := { s.registry with creating := s.registry.creating.insert key' s.cells.length }
          cells := s.cells ++ [.empty] } i (.waiting key' p s.cells.length)) c → c = s.cells.length := by
        rintro c (h | ⟨caller, hmem, hc⟩)
        · exact (Option.some.inj ((OrderedMap.get?_insert_self ..).symm.trans h)).symm
        · rcases List.mem_or_eq_of_mem_set hmem with hmem | rfl
          · exact absurd (.inr ⟨caller, hmem, hc⟩) (hfree c)
          · rw [hcell, if_pos rfl] at hc
            exact (Option.some.inj hc).symm
      refine ⟨O.le, fun c c' h h' => (hnew c h).trans (hnew c' h').symm, fun c h => ?_, ?_, ?_,
        fun _ _ _ => hn⟩
      · rw [hnew c h]
        simp [setCaller]
      · intro _ caller hmem c hc
        rw [hnew c (.inr ⟨caller, hmem, hc⟩)]
        exact OrderedMap.get?_insert_self ..
      · exact fun _ h => absurd hn h
    · refine O.next (fun h => h) (.inl (OrderedMap.get?_insert_of_ne _ _ (Ne.symm hk))) ?_ ?_ ?_
      · intro caller hmem c hc
        exact .inl (cellOf_set ((hcell _).trans (if_neg hk)) hmem hc)
      · intro c hlt h
        rwa [setCaller, List.getElem?_append_left hlt] at h
      · simp [setCaller]

theorem set_ne_empty {cells : List (Rendezvous σ)} {cell c : Nat} {b : Rendezvous σ}
    (hb : b ≠ .empty) (h : (cells.set cell b)[c]? = some .empty) : cells[c]? = some .empty := by
  rw [List.getElem?_set] at h
  split at h
  · split at h
    · exact absurd (Option.some.inj h) hb
    · cases h
  · exact h

theorem cellOf_eq_some {cell c : Nat} (h : cellOf key (.making key' p cell : Caller κ σ) = some c) :
    key' = key ∧ cell = c := by
  have h : (if key' = key then some cell else none) = some c := h
  split at h
  · next hk => exact ⟨hk, Option.some.inj h⟩
  · cases h

/-- The factory starts; if it is that of the key, this is the first run. -/
theorem Once.start (O : Once key s n) {i cell : Nat}
    (hi : s.callers[i]? = some (.waiting key' p cell)) (hcell : s.cells[cell]? = some .empty) :
    Once key ({ s with cells := s.cells.set cell .running }.setCaller i (.making key' p cell))
      (n + made key [(.made key' : SeedEvent κ σ)]) := by
  have hmem : Caller.waiting key' p cell ∈ s.callers := List.mem_of_getElem? hi
  have hnext : Once key
      ({ s with cells := s.cells.set cell .running }.setCaller i (.making key' p cell)) n := by
    refine O.next (fun h => h) (.inl rfl) (fun caller hm c hc => .inl ?_)
      (fun _ _ h => set_ne_empty (by simp) h) (by simp [setCaller])
    rcases List.mem_or_eq_of_mem_set hm with hm | rfl
    · exact ⟨caller, hm, hc⟩
    · obtain ⟨rfl, rfl⟩ := cellOf_eq_some hc
      exact ⟨_, hmem, if_pos rfl⟩
  by_cases hk : key' = key
  · subst hk
    have hheld : cellOf key' (.waiting key' p cell : Caller κ σ) = some cell := if_pos rfl
    obtain rfl := O.empty cell (.inr ⟨_, hmem, hheld⟩) hcell
    have hmade : made key' [(.made key' : SeedEvent κ σ)] = 1 := by simp [made, isMade]
    rw [hmade]
    refine hnext.make (fun c h => ?_) (fun hnone hcreating => ?_)
    · have hmaking : Caller.making key' p cell ∈ s.callers.set i (.making key' p cell) :=
        List.mem_set (List.getElem?_eq_some_iff.mp hi).1 _
      obtain rfl : c = cell := hnext.one c cell h (.inr ⟨_, hmaking, if_pos rfl⟩)
      simp [setCaller, (List.getElem?_eq_some_iff.mp hcell).1]
    · have hanchor := O.anchored hnone _ hmem cell hheld
      exact absurd (hcreating.symm.trans hanchor) (by simp)
  · have hmade : made key [(.made key' : SeedEvent κ σ)] = 0 := by simp [made, isMade, hk]
    rw [hmade]
    exact hnext

/-- The key of a call whose next lock hold takes the rendezvous. -/
def missed (s : Seeding κ σ) : SeedOp κ σ → Option κ
  | .advance i _ _ =>
    match s.callers[i]? with
    | some (.missed key _) => some key
    | _ => none
  | _ => none

theorem missed_eq {i : Nat} (hi : s.callers[i]? = some (.missed key' p)) (now : Nat) (st : σ) :
    s.missed (.advance i now st) = some key' := by
  rw [missed, hi]

/-- A step that takes stores that there are along takes none away. -/
theorem storeOf_eq_none (h : ∀ st, s.registry.storeOf key = some st →
    s'.registry.storeOf key = some st) (hnone : s'.registry.storeOf key = none) :
    s.registry.storeOf key = none := by
  cases hs : s.registry.storeOf key with
  | none => rfl
  | some st => exact absurd (hnone.symm.trans (h st hs)) (by simp)

theorem Once.advance (O : Once key s n) (P : Published key s log) (i now : Nat) (st : σ)
    (htimely : s.missed (.advance i now st) = some key → s.registry.creating.get? key = none →
      s.registry.storeOf key = none) :
    Once key (s.advance i now st).2 (n + made key (s.advance i now st).1) := by
  unfold Seeding.advance
  split
  · next key' purpose hi =>
    dsimp only
    split
    all_goals
      exact O.next (by simp [setCaller]) (by simp [setCaller])
        (fun caller hmem c hc => .inl (cellOf_set rfl hmem hc)) (fun _ _ h => h) (Nat.le_refl _)
  · next key' purpose hi =>
    exact O.rendezvous fun hk => htimely (hk ▸ missed_eq hi now st)
  · next key' purpose cell hi =>
    split
    · next hcell => exact O.start hi hcell
    · exact O.next (fun h => h) (.inl rfl)
        (fun caller hmem c hc => .inl (cellOf_set rfl hmem hc)) (fun _ _ h => h) (Nat.le_refl _)
    · exact O
  · exact O.next (fun h => h) (.inl rfl) (fun caller hmem c hc => .inl (cellOf_set rfl hmem hc))
      (fun _ _ h => set_ne_empty (by simp) h) (by simp [setCaller])
  · next key' purpose candidate hi =>
    exact O.next (storeOf_eq_none fun _ h => SeedRegistry.storeOf_publish key' candidate h) (.inl rfl)
      (fun caller hmem c hc => .inl (cellOf_set rfl hmem hc)) (fun _ _ h => h) (Nat.le_refl _)
  · next key' purpose candidate hi =>
    refine O.next (fun h => h) ?_ (fun caller hmem c hc => .inl (cellOf_set rfl hmem hc))
      (fun _ _ h => h) (Nat.le_refl _)
    by_cases hk : key' = key
    · subst hk
      have hs := P.published purpose candidate (List.mem_of_getElem? hi)
      exact .inr ⟨OrderedMap.get?_erase_self .., fun h => absurd (hs.symm.trans h) (by simp)⟩
    · exact .inl (OrderedMap.get?_erase_of_ne _ (Ne.symm hk))
  · next key' purpose candidate hi =>
    refine O.next (storeOf_eq_none fun _ h => storeOf_finish h) (.inl (by simp [setCaller]))
      (fun caller hmem c hc => .inl ?_) (fun c _ h => ?_) ?_
    · have hmem : caller ∈ (s.finish key' purpose candidate now).callers.set i .done := hmem
      rw [callers_finish] at hmem
      exact cellOf_set rfl hmem hc
    · cases purpose <;> exact h
    · cases purpose <;> exact Nat.le_refl _
  · exact O
  · exact O

/-- A new rendezvous for the key is made only while the key has no store. -/
def Timely (key : κ) (s : Seeding κ σ) (op : SeedOp κ σ) : Prop :=
  creates op = true ∧
    (s.missed op = some key → s.registry.creating.get? key = none → s.registry.storeOf key = none)

instance decidableTimely (key : κ) (s : Seeding κ σ) (op : SeedOp κ σ) :
    Decidable (Timely key s op) :=
  inferInstanceAs (Decidable (_ ∧ (_ → _ → _)))

theorem Once.step (O : Once key s n) (P : Published key s log) {op : SeedOp κ σ}
    (hop : Timely key s op) : Once key (s.step op) (n + made key (s.events op)) := by
  obtain ⟨hcreates, htimely⟩ := hop
  cases op with
  | call key' purpose =>
    refine O.next (fun h => h) (.inl rfl) (fun caller hmem c hc => .inl ?_) (fun _ _ h => h)
      (Nat.le_refl _)
    have hmem : caller ∈ s.callers ++ [.start key' purpose] := hmem
    rcases List.mem_append.mp hmem with hmem | hmem
    · exact ⟨caller, hmem, hc⟩
    · obtain rfl := List.mem_singleton.mp hmem
      cases hc
  | advance i now st => exact O.advance P i now st htimely
  | _ => cases hcreates

theorem Once.idle (key : κ) (r : SeedRegistry κ σ) (leases : List (List (κ × Nat))) :
    Once key (idle r leases) 0 := by
  have hfree : ∀ c, ¬Holds key (Seeding.idle r leases) c := by
    rintro c (h | ⟨caller, hmem, -⟩)
    · cases h
    · cases hmem
  exact ⟨Nat.zero_le _, fun c _ h => absurd h (hfree c), fun c h => absurd h (hfree c),
    fun _ _ hmem => (by cases hmem), fun _ h => absurd rfl h, fun _ _ _ => rfl⟩

/-- In every interleaving of calls in which a new rendezvous is made only while there is no store,
the factory of a key runs at most once and all calls for the key return one store. -/
theorem factory_runs_once (key : κ) (r : SeedRegistry κ σ) (leases : List (List (κ × Nat)))
    (ops : List (SeedOp κ σ)) (hops : Meets step (Timely key) (idle r leases) ops) :
    made key (emits step events (idle r leases) ops) ≤ 1 ∧
      ∀ st st', .returned key st ∈ emits step events (idle r leases) ops →
        .returned key st' ∈ emits step events (idle r leases) ops → st = st' := by
  have H := run_emits_induction (I := fun s log => Published key s log ∧ Once key s (made key log))
    (fun s log op H hop => ⟨H.1.step hop.1, by
      rw [made, List.countP_append]
      exact H.2.step H.1 hop⟩)
    ⟨Published.idle key r leases, Once.idle key r leases⟩ hops
  have hcalls := hops.mono fun s op hop => hop.1
  exact ⟨H.2.le, fun st st' h h' => calls_return_one_store hcalls h h'⟩

/-- Two calls that meet at the rendezvous: the second finds it before the first is done. -/
def meetingOps : List (SeedOp Nat Nat) :=
  [.call 7 .get, .call 7 .get, .advance 0 0 0, .advance 1 0 0, .advance 0 0 0, .advance 1 0 0,
    .advance 0 0 0, .advance 0 0 5, .advance 1 0 0, .advance 0 0 0, .advance 0 0 0, .advance 1 0 0,
    .advance 1 0 0]

theorem factory_runs_once_sample :
    Meets step (Timely 7) (idle .new []) meetingOps ∧
      made 7 (emits step events (idle .new []) meetingOps) ≤ 1 ∧
      .returned 7 5 ∈ emits step events (idle .new []) meetingOps := by
  have h : Meets step (Timely 7) (idle .new []) meetingOps := by decide +kernel
  exact ⟨h, (factory_runs_once 7 .new [] meetingOps h).1, by decide +kernel⟩

/-- Two calls of which the second missed the store before the first published it, and takes the
rendezvous after the first removed it. -/
def racingOps : List (SeedOp Nat Nat) :=
  [.call 7 .get, .call 7 .get, .advance 0 0 0, .advance 1 0 0] ++
    [.advance 0 0 0, .advance 0 0 0, .advance 0 0 5, .advance 0 0 0, .advance 0 0 0] ++
    [.advance 1 0 0, .advance 1 0 0, .advance 1 0 6, .advance 1 0 0, .advance 1 0 0]

theorem factory_runs_twice :
    emits step events (idle .new []) racingOps =
      [.made 7, .returned 7 5, .made 7, .returned 7 5] := by
  decide +kernel

/-- What a call has returned is from then on the store that the registry has for the key and that
every other call returns, also where the factory is run twice. -/
theorem returned_store_stays (key : κ) (r : SeedRegistry κ σ) (leases : List (List (κ × Nat)))
    (ops later : List (SeedOp κ σ))
    (hops : Meets step (fun _ op => creates op = true) (idle r leases) (ops ++ later)) (st : σ)
    (h : .returned key st ∈ emits step events (idle r leases) ops) :
    (run step (idle r leases) (ops ++ later)).registry.storeOf key = some st ∧
      ∀ st', .returned key st' ∈ emits step events (run step (idle r leases) ops) later →
        st' = st := by
  have P := run_emits_induction (I := Published key) (fun _ _ _ P hop => P.step hop)
    (Published.idle key r leases) hops
  rw [List.nil_append, emits_append] at P
  have hst := P.returned st (List.mem_append_left _ h)
  exact ⟨hst, fun st' h' =>
    Option.some.inj ((P.returned st' (List.mem_append_right _ h')).symm.trans hst)⟩

/-- The second call, which made a store of its own, returns that of the first. -/
theorem returned_store_stays_racing :
    let s := run step (idle .new []) (racingOps.take 9)
    .returned 7 5 ∈ emits step events s (racingOps.drop 9) ∧
      ∀ st', .returned 7 st' ∈ emits step events s (racingOps.drop 9) → st' = 5 :=
  ⟨by decide +kernel, (returned_store_stays 7 .new [] (racingOps.take 9) (racingOps.drop 9)
    (by decide +kernel) 5 (by decide +kernel)).2⟩

end Seeding

end Outpace.Swarm

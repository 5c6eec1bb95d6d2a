import Outpace.Data.Machine
import Outpace.Swarm.SeedRegistry

/-!
# Inbound admission

`admit_inbound`, `InboundPermit` and `retain_live_aliases` of `ace-swarm/src/listen.rs` over the
registry of `SeedRegistry`. A domain is the accounting of one listener; it is reached from the
admissions of the listener, from its permits and from the broadcast registrations, which bind new
aliases of a stream with live permits. The loop of a registration takes the lock of one domain after
the other, so each visit is a step. The lock of the registry keeps everything but permit drops out of
that loop; here anything may come in between, which only adds runs. A domain that nobody holds any
more has no permits, so that a visit passes over it, and it stays in the list here. The coordinator
that an admission hands out is left out.
-/

namespace Outpace.Swarm
variable {κ σ : Type} [LinearOrder κ] {key c : κ}

namespace AdmissionState

def empty : AdmissionState κ := ⟨∅, ∅⟩

/-- An alias is bound to another stream. -/
def conflicts (st : AdmissionState κ) (canonical : κ) (aliases : List κ) : Bool :=
  aliases.any fun key => (st.bindings.get? key).any (· ≠ canonical)

def bind (st : AdmissionState κ) (canonical : κ) (aliases : List κ) : AdmissionState κ :=
  { st with bindings := aliases.foldl (fun m key => m.insert key canonical) st.bindings }

/-- What `admit_inbound` does under the lock of the domain. -/
def reserve (st : AdmissionState κ) (maxPerStream : Nat) (canonical : κ) (aliases : List κ) :
    Option (AdmissionState κ) :=
  if st.conflicts canonical aliases then none
  else
    let count := (st.counts.get? canonical).getD 0
    if maxPerStream ≠ 0 ∧ maxPerStream ≤ count then none
    else
      (checkedAdd count 1).map fun next =>
        { (st.bind canonical aliases) with counts := st.counts.insert canonical next }

/-- The drop of a permit. -/
def release (st : AdmissionState κ) (canonical : κ) : AdmissionState κ :=
  match st.counts.get? canonical with
  | some count =>
    if count - 1 = 0 then
      { counts := st.counts.erase canonical
        bindings := st.bindings.filter fun _ bound => bound ≠ canonical }
    else { st with counts := st.counts.insert canonical (count - 1) }
  | none => st

end AdmissionState

/-- The domain of an `InboundAdmission`. -/
structure InboundDomain (κ : Type) [LinearOrder κ] where
  maxPerStream : Nat
  state : AdmissionState κ

/-- The loop of `retain_live_aliases`: what it binds, and the domains it has not visited. -/
structure AliasLoop (κ : Type) where
  canonical : κ
  aliases : List κ
  domains : List Nat

structure Inbound (κ σ : Type) [LinearOrder κ] where
  /-- The registry with its calls and leases, without its list of domains. -/
  seeding : Seeding κ σ
  domains : List (InboundDomain κ)
  /-- `admission_domains`. -/
  admissionDomains : List Nat
  /-- The live permits: their domain and their stream. -/
  permits : List (Nat × κ)
  loops : List (AliasLoop κ)

inductive InboundOp (κ σ : Type) where
  /-- A new domain with its limit. -/
  | domain (maxPerStream : Nat)
  /-- Any call on the registry. -/
  | seed (op : SeedOp κ σ)
  /-- A broadcast registration visits its next domain. -/
  | visit (loop : Nat)
  | connect (domain : Nat) (key : κ) (now : Nat)
  | dropPermit (domain : Nat) (canonical : κ)

namespace Inbound

def new : Inbound κ σ := ⟨.new, [], [], [], []⟩

def setState (s : Inbound κ σ) (d : Nat) (state : AdmissionState κ) : Inbound κ σ :=
  { s with domains := s.domains.modify d fun dom => { dom with state } }

/-- What an alias is bound to in a domain. -/
def binding (s : Inbound κ σ) (d : Nat) (key : κ) : Option κ :=
  s.domains[d]?.bind fun dom => dom.state.bindings.get? key

/-- The stream of the broadcast that a call on the registry registers. -/
def registers (s : Seeding κ σ) : SeedOp κ σ → Option κ
  | .advance i _ _ =>
    match s.callers[i]? with
    | some (.created key (.broadcast ..) _) => some key
    | _ => none
  | _ => none

def seed (s : Inbound κ σ) (op : SeedOp κ σ) : Inbound κ σ :=
  let seeding := s.seeding.step op
  let loops :=
    match registers s.seeding op with
    | some canonical =>
      match SeedRegistry.canonicalAliases seeding.registry.stores canonical with
      | some aliases => [⟨canonical, aliases, s.admissionDomains⟩]
      | none => []
    | none => []
  { s with seeding, loops := s.loops ++ loops }

/-- One round of a loop. A conflict makes the entries of the stream inconsistent and ends it. -/
def visitDomain (s : Inbound κ σ) (i : Nat) (loop : AliasLoop κ) (d : Nat) (rest : List Nat) :
    Inbound κ σ :=
  let s' := { s with loops := s.loops.set i { loop with domains := rest } }
  match s.domains[d]? with
  | none => s'
  | some dom =>
    if !dom.state.counts.contains loop.canonical then s'
    else if dom.state.conflicts loop.canonical loop.aliases then
      { s with
        loops := s.loops.eraseIdx i
        seeding := { s.seeding with registry := { s.seeding.registry with
          stores := s.seeding.registry.stores.mapVal fun _ e =>
            if e.canonical = some loop.canonical then { e with canonical := none } else e } } }
    else s'.setState d (dom.state.bind loop.canonical loop.aliases)

def visit (s : Inbound κ σ) (i : Nat) : Inbound κ σ :=
  match s.loops[i]? with
  | none => s
  | some loop =>
    match loop.domains with
    | [] => { s with loops := s.loops.eraseIdx i }
    | d :: rest => s.visitDomain i loop d rest

/-- `admit_inbound`: the stream of the permit, and the state with it. -/
def admitInbound (s : Inbound κ σ) (d : Nat) (key : κ) (now : Nat) : Option (κ × Inbound κ σ) :=
  let stores := s.seeding.registry.stores
  (stores.get? key).bind fun entry =>
  if entry.store.isNone ∧ entry.metadata.isNone then none
  else
    entry.canonical.bind fun canonical =>
    (SeedRegistry.canonicalAliases stores canonical).bind fun aliases =>
    s.domains[d]?.bind fun dom =>
    (dom.state.reserve dom.maxPerStream canonical aliases).map fun state =>
      (canonical,
        { s.setState d state with
          seeding := { s.seeding with registry := { s.seeding.registry with
            stores := stores.insert key { entry with lastActive := now } } }
          admissionDomains :=
            if d ∈ s.admissionDomains then s.admissionDomains else s.admissionDomains ++ [d]
          permits := (d, canonical) :: s.permits })

def dropPermit (s : Inbound κ σ) (d : Nat) (canonical : κ) : Inbound κ σ :=
  if (d, canonical) ∈ s.permits then
    match s.domains[d]? with
    | some dom =>
      { s.setState d (dom.state.release canonical) with permits := s.permits.erase (d, canonical) }
    | none => s
  else s

def step (s : Inbound κ σ) : InboundOp κ σ → Inbound κ σ
  | .domain maxPerStream => { s with domains := s.domains ++ [⟨maxPerStream, .empty⟩] }
  | .seed op => s.seed op
  | .visit i => s.visit i
  | .connect d key now => ((s.admitInbound d key now).map (·.2)).getD s
  | .dropPermit d canonical => s.dropPermit d canonical

end Inbound

namespace AdmissionState
variable {st : AdmissionState κ} {canonical : κ} {aliases : List κ}

theorem get?_bind (st : AdmissionState κ) (canonical : κ) (aliases : List κ) (key : κ) :
    (st.bind canonical aliases).bindings.get? key =
      if key ∈ aliases then some canonical else st.bindings.get? key :=
  OrderedMap.get?_foldl_insert_const ..

theorem eq_of_not_conflicts (h : st.conflicts canonical aliases = false) {key bound : κ}
    (hkey : key ∈ aliases) (hbound : st.bindings.get? key = some bound) : bound = canonical := by
  have hany := List.any_eq_false.mp h key hkey
  rw [hbound] at hany
  simpa using hany

/-- Binding aliases of which none is bound elsewhere moves no binding. -/
theorem get?_bind_of_bound (h : st.conflicts canonical aliases = false) {key bound : κ}
    (hbound : st.bindings.get? key = some bound) :
    (st.bind canonical aliases).bindings.get? key = some bound := by
  rw [get?_bind]
  split
  · next hkey => rw [eq_of_not_conflicts h hkey hbound]
  · exact hbound

theorem reserve_eq_some {maxPerStream : Nat} {st' : AdmissionState κ}
    (h : st.reserve maxPerStream canonical aliases = some st') :
    st.conflicts canonical aliases = false ∧
      (maxPerStream ≠ 0 → (st.counts.get? canonical).getD 0 < maxPerStream) ∧
      st' = { (st.bind canonical aliases) with
        counts := st.counts.insert canonical ((st.counts.get? canonical).getD 0 + 1) } := by
  unfold reserve at h
  dsimp only at h
  split at h
  · cases h
  next hconf =>
  split at h
  · cases h
  next hlimit =>
  obtain ⟨next, hnext, rfl⟩ := Option.map_eq_some_iff.mp h
  obtain ⟨-, rfl⟩ := checkedAdd_eq_some.mp hnext
  refine ⟨Bool.eq_false_iff.mpr hconf, fun hmax => ?_, rfl⟩
  exact Nat.lt_of_not_le fun hle => hlimit ⟨hmax, hle⟩

end AdmissionState

/-- The accounting of a domain is that of its live permits. -/
structure InboundDomain.Booked (permits : List (Nat × κ)) (d : Nat) (dom : InboundDomain κ) :
    Prop where
  counts : ∀ c, dom.state.counts.get? c =
    if permits.count (d, c) = 0 then none else some (permits.count (d, c))
  limit : dom.maxPerStream ≠ 0 → ∀ c, permits.count (d, c) ≤ dom.maxPerStream
  bound : ∀ key c, dom.state.bindings.get? key = some c → (d, c) ∈ permits

namespace InboundDomain
variable {permits : List (Nat × κ)} {d : Nat} {dom : InboundDomain κ} {canonical : κ}

theorem Booked.getD_counts (H : dom.Booked permits d) (c : κ) :
    (dom.state.counts.get? c).getD 0 = permits.count (d, c) := by
  rw [H.counts]
  split
  · next h => exact h.symm
  · rfl

theorem Booked.mem_of_contains (H : dom.Booked permits d) {c : κ}
    (h : dom.state.counts.contains c = true) : (d, c) ∈ permits := by
  obtain ⟨n, hn⟩ := OrderedMap.contains_iff.mp h
  rw [H.counts] at hn
  split at hn
  · cases hn
  · next hne => exact List.count_pos_iff.mp (Nat.pos_of_ne_zero hne)

theorem Booked.bind (H : dom.Booked permits d) (h : (d, canonical) ∈ permits) (aliases : List κ) :
    ({ dom with state := dom.state.bind canonical aliases } : InboundDomain κ).Booked permits d where
  counts := H.counts
  limit := H.limit
  bound key c hc := by
    have hc : (dom.state.bind canonical aliases).bindings.get? key = some c := hc
    rw [AdmissionState.get?_bind] at hc
    split at hc
    · cases hc
      exact h
    · exact H.bound key c hc

theorem Booked.reserve (H : dom.Booked permits d) {aliases : List κ} {st : AdmissionState κ}
    (h : dom.state.reserve dom.maxPerStream canonical aliases = some st) :
    ({ dom with state := st } : InboundDomain κ).Booked ((d, canonical) :: permits) d := by
  obtain ⟨-, hlimit, rfl⟩ := AdmissionState.reserve_eq_some h
  rw [H.getD_counts] at hlimit
  refine ⟨fun c => ?_, fun hmax c => ?_, fun key c hc => ?_⟩
  · show (dom.state.counts.insert canonical _).get? c = _
    rw [OrderedMap.get?_insert, H.getD_counts]
    split
    · next hc =>
      rw [hc, List.count_cons_self]
      exact (if_neg (Nat.succ_ne_zero _)).symm
    · next hc =>
      rw [List.count_cons_of_ne (fun heq => hc (Prod.ext_iff.mp heq).2.symm)]
      exact H.counts c
  · by_cases hc : c = canonical
    · rw [hc, List.count_cons_self]
      exact hlimit hmax
    · rw [List.count_cons_of_ne (fun heq => hc (Prod.ext_iff.mp heq).2.symm)]
      exact H.limit hmax c
  · have hc : (dom.state.bind canonical aliases).bindings.get? key = some c := hc
    rw [AdmissionState.get?_bind] at hc
    split at hc
    · cases hc
      exact List.mem_cons_self
    · exact List.mem_cons_of_mem _ (H.bound key c hc)

theorem Booked.release (H : dom.Booked permits d) (h : (d, canonical) ∈ permits) :
    ({ dom with state := dom.state.release canonical } : InboundDomain κ).Booked
      (permits.erase (d, canonical)) d := by
  have hpos : 0 < permits.count (d, canonical) := List.count_pos_iff.mpr h
  have hcount : dom.state.counts.get? canonical = some (permits.count (d, canonical)) := by
    rw [H.counts, if_neg (Nat.ne_of_gt hpos)]
  have hother : ∀ c, c ≠ canonical →
      (permits.erase (d, canonical)).count (d, c) = permits.count (d, c) := fun c hc =>
    List.count_erase_of_ne fun heq => hc (Prod.ext_iff.mp heq).2
  have hself : (permits.erase (d, canonical)).count (d, canonical) =
      permits.count (d, canonical) - 1 := List.count_erase_self
  refine ⟨fun c => ?_, fun hmax c => (List.erase_sublist.count_le _).trans (H.limit hmax c),
    fun key c hc => ?_⟩
  · show (dom.state.release canonical).counts.get? c = _
    unfold AdmissionState.release
    rw [hcount]
    dsimp only
    by_cases hc : c = canonical
    · rw [hc, hself]
      split
      · exact OrderedMap.get?_erase_self ..
      · exact OrderedMap.get?_insert_self ..
    · rw [hother c hc, ← H.counts c]
      split
      · exact OrderedMap.get?_erase_of_ne _ hc
      · exact OrderedMap.get?_insert_of_ne _ _ hc
  · have hc : (dom.state.release canonical).bindings.get? key = some c := hc
    unfold AdmissionState.release at hc
    rw [hcount] at hc
    dsimp only at hc
    split at hc
    · obtain ⟨hbound, hne⟩ := OrderedMap.get?_filter_eq_some.mp hc
      have hne : c ≠ canonical := by simpa using hne
      refine (List.mem_erase_of_ne fun heq => hne (Prod.ext_iff.mp heq).2).mpr ?_
      exact H.bound key c hbound
    · next hleft =>
      have hmem := H.bound key c hc
      by_cases heq : c = canonical
      · rw [heq]
        exact List.count_pos_iff.mp (hself ▸ Nat.pos_of_ne_zero hleft)
      · exact (List.mem_erase_of_ne fun h => heq (Prod.ext_iff.mp h).2).mpr hmem

/-- The accounting of a domain reads its own permits only. -/
theorem Booked.congr {permits' : List (Nat × κ)} (H : dom.Booked permits d)
    (h : ∀ c, permits'.count (d, c) = permits.count (d, c)) : dom.Booked permits' d where
  counts c := by rw [h, H.counts]
  limit hmax c := by
    rw [h]
    exact H.limit hmax c
  bound key c hc := by
    rw [← List.count_pos_iff, h, List.count_pos_iff]
    exact H.bound key c hc

end InboundDomain

namespace Inbound
variable {s : Inbound κ σ} {d : Nat} {dom : InboundDomain κ}

structure Accounted (s : Inbound κ σ) : Prop where
  booked : ∀ (d : Nat) (dom : InboundDomain κ), s.domains[d]? = some dom → dom.Booked s.permits d
  domains : ∀ p ∈ s.permits, p.1 < s.domains.length

theorem getElem?_setState (s : Inbound κ σ) (d j : Nat) (st : AdmissionState κ) :
    (s.setState d st).domains[j]? =
      if d = j then s.domains[j]?.map fun dom => { dom with state := st } else s.domains[j]? := by
  show (s.domains.modify d _)[j]? = _
  rw [List.getElem?_modify]
  split
  · rfl
  · exact Option.map_id'

/-- A change of one domain and of its permits. -/
theorem Accounted.setState (H : s.Accounted) {st : AdmissionState κ} {permits : List (Nat × κ)}
    (hdom : s.domains[d]? = some dom)
    (hbooked : ({ dom with state := st } : InboundDomain κ).Booked permits d)
    (hother : ∀ j, j ≠ d → ∀ c, permits.count (j, c) = s.permits.count (j, c))
    {s' : Inbound κ σ} (hdomains : s'.domains = (s.setState d st).domains)
    (hpermits : s'.permits = permits) : s'.Accounted := by
  refine ⟨fun j dom' hj => ?_, fun p hp => ?_⟩
  · rw [hdomains, getElem?_setState] at hj
    rw [hpermits]
    split at hj
    · next heq =>
      subst heq
      rw [hdom] at hj
      cases hj
      exact hbooked
    · next hne => exact (H.booked j dom' hj).congr (hother j (Ne.symm hne))
  · have hlen : s'.domains.length = s.domains.length := by
      rw [hdomains]
      exact List.length_modify ..
    rw [hlen]
    rw [hpermits] at hp
    by_cases hpd : p.1 = d
    · rw [hpd]
      exact (List.getElem?_eq_some_iff.mp hdom).1
    · refine H.domains p (List.count_pos_iff.mp ?_)
      rw [← hother p.1 hpd p.2]
      exact List.count_pos_iff.mpr hp

theorem admitInbound_eq_some {now : Nat} {s' : Inbound κ σ}
    (h : s.admitInbound d key now = some (c, s')) :
    ∃ aliases dom st, key ∈ aliases ∧ s.domains[d]? = some dom ∧
      dom.state.reserve dom.maxPerStream c aliases = some st ∧
      s'.domains = (s.setState d st).domains ∧ s'.permits = (d, c) :: s.permits := by
  unfold admitInbound at h
  dsimp only at h
  obtain ⟨entry, hentry, h⟩ := Option.bind_eq_some_iff.mp h
  split at h
  · cases h
  obtain ⟨canonical, hcanonical, h⟩ := Option.bind_eq_some_iff.mp h
  obtain ⟨aliases, haliases, h⟩ := Option.bind_eq_some_iff.mp h
  obtain ⟨dom, hdom, h⟩ := Option.bind_eq_some_iff.mp h
  obtain ⟨st, hst, heq⟩ := Option.map_eq_some_iff.mp h
  cases heq
  refine ⟨aliases, dom, st, ?_, hdom, hst, rfl, rfl⟩
  -- the key is an alias of the stream of its entry
  unfold SeedRegistry.canonicalAliases at haliases
  dsimp only at haliases
  split at haliases
  · cases haliases
  · cases haliases
    refine List.mem_cons_of_mem _ (List.mem_flatMap.mpr ⟨(key, entry), ?_, ?_⟩)
    · exact OrderedMap.get?_eq_some.mp hentry
    · rw [if_pos hcanonical]
      exact List.mem_cons_self

theorem dropPermit_cases (s : Inbound κ σ) (d : Nat) (c : κ) :
    s.dropPermit d c = s ∨ ∃ dom, (d, c) ∈ s.permits ∧ s.domains[d]? = some dom ∧
      (s.dropPermit d c).domains = (s.setState d (dom.state.release c)).domains ∧
      (s.dropPermit d c).permits = s.permits.erase (d, c) := by
  unfold dropPermit
  split
  · next hmem =>
    cases hdom : s.domains[d]? with
    | none => exact .inl rfl
    | some dom => exact .inr ⟨dom, hmem, rfl, rfl, rfl⟩
  · exact .inl rfl

/-- A visit changes at most the bindings of one domain, which has permits of the stream and no alias
bound to another one. -/
theorem visit_cases (s : Inbound κ σ) (i : Nat) :
    (s.visit i).permits = s.permits ∧ ((s.visit i).domains = s.domains ∨
      ∃ d dom canonical aliases, s.domains[d]? = some dom ∧
        dom.state.counts.contains canonical = true ∧
        dom.state.conflicts canonical aliases = false ∧
        (s.visit i).domains = (s.setState d (dom.state.bind canonical aliases)).domains) := by
  unfold visit
  split
  · exact ⟨rfl, .inl rfl⟩
  next loop _ =>
  split
  · exact ⟨rfl, .inl rfl⟩
  next d rest _ =>
  unfold visitDomain
  dsimp only
  cases hdom : s.domains[d]? with
  | none => exact ⟨rfl, .inl rfl⟩
  | some dom =>
    dsimp only
    split
    · exact ⟨rfl, .inl rfl⟩
    next hlive =>
    split
    · exact ⟨rfl, .inl rfl⟩
    next hconf =>
    refine ⟨rfl, .inr ⟨d, dom, loop.canonical, loop.aliases, hdom, ?_, Bool.eq_false_iff.mpr hconf,
      rfl⟩⟩
    simpa using hlive

theorem Accounted.step (H : s.Accounted) (op : InboundOp κ σ) : (s.step op).Accounted := by
  cases op with
  | domain maxPerStream =>
    refine ⟨fun j dom hj => ?_, fun p hp => ?_⟩
    · have hj : (s.domains ++ [(⟨maxPerStream, .empty⟩ : InboundDomain κ)])[j]? = some dom := hj
      rw [List.getElem?_append] at hj
      split at hj
      · exact H.booked j dom hj
      · next hlt =>
        -- the new domain has no permits
        obtain ⟨hidx, hget⟩ := List.getElem?_eq_some_iff.mp hj
        have hnone : ∀ c, s.permits.count (j, c) = 0 := fun c =>
          List.count_eq_zero_of_not_mem fun hmem => hlt (H.domains _ hmem)
        obtain rfl : dom = ⟨maxPerStream, .empty⟩ := by
          rw [← hget]
          exact List.mem_singleton.mp (List.getElem_mem hidx)
        refine ⟨fun c => ?_, fun _ c => ?_, fun key c hc => (by cases hc)⟩
        · show _ = if s.permits.count (j, c) = 0 then none else _
          rw [if_pos (hnone c)]
          rfl
        · show s.permits.count (j, c) ≤ _
          rw [hnone c]
          exact Nat.zero_le _
    · show p.1 < (s.domains ++ [_]).length
      rw [List.length_append]
      exact Nat.lt_add_right _ (H.domains p hp)
  | seed op => exact ⟨H.booked, H.domains⟩
  | visit i =>
    obtain ⟨hpermits, hdomains | ⟨d, dom, canonical, aliases, hdom, hlive, -, hdomains⟩⟩ :=
      visit_cases s i
    · refine ⟨fun d dom hd => ?_, fun p hp => ?_⟩
      · rw [Inbound.step, hdomains] at hd
        rw [Inbound.step, hpermits]
        exact H.booked d dom hd
      · rw [Inbound.step, hdomains]
        rw [Inbound.step, hpermits] at hp
        exact H.domains p hp
    · have B := H.booked d dom hdom
      exact H.setState hdom (B.bind (B.mem_of_contains hlive) aliases) (fun _ _ _ => rfl) hdomains
        hpermits
  | connect d key now =>
    rw [Inbound.step]
    cases hadmitted : s.admitInbound d key now with
    | none => exact H
    | some r =>
      obtain ⟨c, s'⟩ := r
      obtain ⟨aliases, dom, st, -, hdom, hst, hdomains, hpermits⟩ := admitInbound_eq_some hadmitted
      refine H.setState hdom ((H.booked d dom hdom).reserve hst) (fun j hj c' => ?_) hdomains hpermits
      exact List.count_cons_of_ne fun heq => hj (Prod.ext_iff.mp heq).1.symm
  | dropPermit d c =>
    obtain heq | ⟨dom, hmem, hdom, hdomains, hpermits⟩ := dropPermit_cases s d c
    · rw [Inbound.step, heq]
      exact H
    · refine H.setState hdom ((H.booked d dom hdom).release hmem) (fun j hj c' => ?_) hdomains hpermits
      exact List.count_erase_of_ne fun heq => hj (Prod.ext_iff.mp heq).1

theorem binding_eq_some :
    s.binding d key = some c ↔ ∃ dom, s.domains[d]? = some dom ∧
      dom.state.bindings.get? key = some c := Option.bind_eq_some_iff

theorem binding_setState {j : Nat} {st : AdmissionState κ} {s' : Inbound κ σ}
    (hdomains : s'.domains = (s.setState j st).domains) (h : s.binding d key = some c)
    (hst : j = d → st.bindings.get? key = some c) : s'.binding d key = some c := by
  obtain ⟨dom, hdom, hbound⟩ := binding_eq_some.mp h
  rw [binding_eq_some, hdomains]
  simp only [getElem?_setState, hdom]
  split
  · next heq => exact ⟨_, rfl, hst heq⟩
  · exact ⟨dom, rfl, hbound⟩

/-- A step that leaves a permit of the stream alive moves none of its aliases. -/
theorem binding_step (H : s.Accounted) (op : InboundOp κ σ) (h : s.binding d key = some c)
    (hlive : (d, c) ∈ (s.step op).permits) : (s.step op).binding d key = some c := by
  obtain ⟨dom, hdom, hbound⟩ := binding_eq_some.mp h
  cases op with
  | domain maxPerStream =>
    refine binding_eq_some.mpr ⟨dom, ?_, hbound⟩
    show (s.domains ++ [_])[d]? = some dom
    rw [List.getElem?_append_left (List.getElem?_eq_some_iff.mp hdom).1, hdom]
  | seed op => exact h
  | visit i =>
    obtain ⟨-, hdomains | ⟨j, dom', canonical, aliases, hdom', -, hconf, hdomains⟩⟩ := visit_cases s i
    · rw [Inbound.step, binding, hdomains]
      exact h
    · refine binding_setState hdomains h fun heq => ?_
      rw [heq, hdom] at hdom'
      cases hdom'
      exact AdmissionState.get?_bind_of_bound hconf hbound
  | connect j key' now =>
    rw [Inbound.step]
    cases hadmitted : s.admitInbound j key' now with
    | none => exact h
    | some r =>
      obtain ⟨c', s'⟩ := r
      obtain ⟨aliases, dom', st, -, hdom', hst, hdomains, -⟩ := admitInbound_eq_some hadmitted
      refine binding_setState hdomains h fun heq => ?_
      rw [heq, hdom] at hdom'
      cases hdom'
      obtain ⟨hconf, -, rfl⟩ := AdmissionState.reserve_eq_some hst
      exact AdmissionState.get?_bind_of_bound hconf hbound
  | dropPermit j c' =>
    have hlive : (d, c) ∈ (s.dropPermit j c').permits := hlive
    obtain heq | ⟨dom', hmem, hdom', hdomains, hpermits⟩ := dropPermit_cases s j c'
    · rw [Inbound.step, heq]
      exact h
    · refine binding_setState hdomains h fun heq => ?_
      subst heq
      rw [hdom] at hdom'
      cases hdom'
      have hcount : dom.state.counts.get? c' = some (s.permits.count (j, c')) := by
        rw [(H.booked j dom hdom).counts, if_neg (Nat.ne_of_gt (List.count_pos_iff.mpr hmem))]
      unfold AdmissionState.release
      rw [hcount]
      dsimp only
      split
      · next hlast =>
        -- the last permit of a stream takes only its own aliases along
        refine OrderedMap.get?_filter_eq_some.mpr ⟨hbound, decide_eq_true fun hc => ?_⟩
        rw [hpermits, hc, ← List.count_pos_iff, List.count_erase_self, hlast] at hlive
        cases hlive
      · exact hbound

/-- The counts are those of the live permits and within the limit; only streams with live permits
have aliases; an alias stays with its stream while a permit of the stream is alive; and a permit for
a bound key is one of the stream that the key is bound to. -/
theorem admission_limits_hold (ops : List (InboundOp κ σ)) :
    let s := run step new ops
    (∀ (d : Nat) (dom : InboundDomain κ), s.domains[d]? = some dom →
      (∀ c, dom.state.counts.get? c =
        if s.permits.count (d, c) = 0 then none else some (s.permits.count (d, c))) ∧
      (dom.maxPerStream ≠ 0 → ∀ c, s.permits.count (d, c) ≤ dom.maxPerStream) ∧
      ∀ key c, dom.state.bindings.get? key = some c → (d, c) ∈ s.permits) ∧
    (∀ (more : List (InboundOp κ σ)) (d : Nat) (key c : κ), s.binding d key = some c →
      Meets step (fun s op => (d, c) ∈ (s.step op).permits) s more →
      (run step s more).binding d key = some c) ∧
    ∀ (d : Nat) (key c c' : κ) (now : Nat) (s' : Inbound κ σ), s.binding d key = some c →
      s.admitInbound d key now = some (c', s') → c' = c ∧ s'.permits = (d, c) :: s.permits := by
  intro s
  have H : s.Accounted := run_invariant (I := Accounted) (fun s op H => H.step op)
    ⟨fun _ _ h => (by cases h), fun _ h => (by cases h)⟩ ops
  refine ⟨fun d dom hdom => ?_, fun more d key c hbound hlive => ?_,
    fun d key c c' now s' hbound hadmitted => ?_⟩
  · have B := H.booked d dom hdom
    exact ⟨B.counts, B.limit, B.bound⟩
  · exact (run_induction (I := fun s => s.Accounted ∧ s.binding d key = some c)
      (fun s op hs hlive => ⟨hs.1.step op, binding_step hs.1 op hs.2 hlive⟩) ⟨H, hbound⟩ hlive).2
  · obtain ⟨aliases, dom, st, hkey, hdom, hst, -, hpermits⟩ := admitInbound_eq_some hadmitted
    obtain ⟨dom', hdom', hget⟩ := binding_eq_some.mp hbound
    rw [hdom] at hdom'
    cases hdom'
    have hc := AdmissionState.eq_of_not_conflicts (AdmissionState.reserve_eq_some hst).1 hkey hget
    exact ⟨hc.symm, by rw [hpermits, hc]⟩

/-- A broadcast of the stream 5 with the content id 7 is registered, and one connection admitted. -/
def oneConnection : List (InboundOp Nat Nat) :=
  [.domain 2, .seed (.call 5 (.broadcast 7 [1]))] ++
    List.replicate 7 (.seed (.advance 0 0 9)) ++ [.visit 0, .connect 0 5 0]

/-- The broadcast goes, and its content id comes back as a stream of its own. -/
def recreated : List (InboundOp Nat Nat) :=
  [.seed (.dropLease 0), .seed (.registerMetadata 7 [1] 0), .connect 0 7 0]

theorem admission_limits_hold_one :
    (run step (run step new oneConnection) recreated).binding 0 7 = some 5 ∧
      ((run step new oneConnection).admitInbound 0 7 0).isSome = true ∧
      (∀ c s', (run step new oneConnection).admitInbound 0 7 0 = some (c, s') → c = 5) ∧
      (run step new oneConnection).permits.count (0, 5) ≤ 2 := by
  obtain ⟨hdomains, hstay, hadmitted⟩ := admission_limits_hold oneConnection
  have hbound : (run step new oneConnection).binding 0 7 = some 5 := by decide +kernel
  refine ⟨hstay recreated 0 7 5 hbound (by decide +kernel), by decide +kernel,
    fun c s' h => (hadmitted 0 7 5 c 0 s' hbound h).1, ?_⟩
  have hdom : (run step new oneConnection).domains.length = 1 := by decide +kernel
  have hmax : (run step new oneConnection).domains.map (·.maxPerStream) = [2] := by decide +kernel
  obtain ⟨dom, hdom⟩ := List.length_eq_one_iff.mp hdom
  rw [hdom] at hmax
  have hlimit : dom.maxPerStream = 2 := by
    injection hmax
  have hget : (run step new oneConnection).domains[0]? = some dom := by
    rw [hdom]
    rfl
  exact hlimit ▸ (hdomains 0 dom hget).2.1 (by rw [hlimit]; decide) 5

end Inbound

end Outpace.Swarm

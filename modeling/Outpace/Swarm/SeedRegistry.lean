import Outpace.Data.OrderedMap
import Outpace.Data.Run

/-!
# The seed registry

`SeedRegistry` of `ace-swarm/src/listen.rs`: which store and which metadata are served under a key,
and for how long. An entry counts the leases on it and carries the generation it was made with; a
lease names the entry by key and generation. Keys are ordered so that the map has an iteration
order, which no result depends on. Stores are handles, times are in milliseconds, and every call is
given the time it reads.

`get_or_create` holds the lock of the map twice and that of the rendezvous map twice, and runs the
factory between them without a lock. A `Caller` is the place it has come to, so any interleaving of
calls is a run of `Seeding.step`.
-/

namespace Outpace.Swarm

inductive OwnerKind where
  | leech
  | broadcast
  deriving DecidableEq

structure SeedEntry (κ σ : Type) where
  store : Option σ
  metadata : Option (List UInt8)
  producers : Nat
  kind : OwnerKind
  generation : Nat
  lastActive : Nat
  /-- None for an inconsistent association. -/
  canonical : Option κ
  admissionAliases : List κ
  deriving DecidableEq

/-- What an admission domain holds: the connections of each canonical stream, and which stream an
alias is bound to. -/
structure AdmissionState (κ : Type) [LinearOrder κ] where
  counts : OrderedMap κ Nat
  bindings : OrderedMap κ κ

structure SeedRegistry (κ σ : Type) [LinearOrder κ] where
  stores : OrderedMap κ (SeedEntry κ σ)
  /-- The domains that are still alive. -/
  admissionDomains : List (AdmissionState κ)
  /-- The rendezvous of each key, by its number. -/
  creating : OrderedMap κ Nat
  /-- The counter of the process. -/
  nextGeneration : Nat

variable {κ σ : Type} [LinearOrder κ]

namespace SeedEntry

/-- The entry that `or_insert_with` makes. -/
def new (canonical : κ) (generation now : Nat) : SeedEntry κ σ where
  store := none
  metadata := none
  producers := 0
  kind := .leech
  generation := generation
  lastActive := now
  canonical := some canonical
  admissionAliases := []

def requireCanonical (e : SeedEntry κ σ) (canonical : κ) : SeedEntry κ σ :=
  if e.canonical ≠ some canonical then { e with canonical := none } else e

def addAlias (e : SeedEntry κ σ) (key : κ) : SeedEntry κ σ :=
  if e.admissionAliases.contains key then e
  else { e with admissionAliases := e.admissionAliases ++ [key] }

def associateBroadcast (e : SeedEntry κ σ) (canonical other : κ) : SeedEntry κ σ :=
  ((e.requireCanonical canonical).addAlias canonical).addAlias other

/-- `entry.store.get_or_insert_with`. -/
def insertStore (e : SeedEntry κ σ) (candidate : σ) : SeedEntry κ σ :=
  { e with store := some (e.store.getD candidate) }

def addProducer (e : SeedEntry κ σ) : SeedEntry κ σ := { e with producers := e.producers + 1 }

/-- What `lease_broadcast` does to both entries. -/
def ownBroadcast (e : SeedEntry κ σ) (infohash contentId : κ) : SeedEntry κ σ :=
  { (e.associateBroadcast infohash contentId).addProducer with kind := .broadcast }

end SeedEntry

namespace SeedRegistry

def new : SeedRegistry κ σ := ⟨∅, [], ∅, 1⟩

/-- The entry of a key, or the one that is made for it. -/
def entry (r : SeedRegistry κ σ) (key canonical : κ) (now : Nat) : SeedEntry κ σ :=
  (r.stores.get? key).getD (.new canonical r.nextGeneration now)

/-- `map.entry(key).or_insert_with(..)` and an update of that entry. -/
def upsert (r : SeedRegistry κ σ) (key canonical : κ) (now : Nat)
    (f : SeedEntry κ σ → SeedEntry κ σ) : SeedRegistry κ σ :=
  { r with
    stores := r.stores.insert key (f (r.entry key canonical now))
    nextGeneration := if r.stores.contains key then r.nextGeneration else r.nextGeneration + 1 }

def register (r : SeedRegistry κ σ) (infohash : κ) (store : σ) (now : Nat) : SeedRegistry κ σ :=
  r.upsert infohash infohash now fun e => { e.requireCanonical infohash with store := some store }

def registerMetadata (r : SeedRegistry κ σ) (key : κ) (metadata : List UInt8) (now : Nat) :
    SeedRegistry κ σ :=
  r.upsert key key now fun e => { e.requireCanonical key with metadata := some metadata }

/-- The first lock hold of `get_or_create`. -/
def lookup (r : SeedRegistry κ σ) (infohash : κ) (now : Nat) : Option σ × SeedRegistry κ σ :=
  match r.stores.get? infohash with
  | some e =>
    (e.store,
      { r with
        stores := r.stores.insert infohash { e.requireCanonical infohash with lastActive := now } })
  | none => (none, r)

/-- The one that publishes the store. -/
def publish (r : SeedRegistry κ σ) (infohash : κ) (candidate : σ) (now : Nat) :
    σ × SeedRegistry κ σ :=
  ((r.entry infohash infohash now).store.getD candidate,
    r.upsert infohash infohash now fun e => (e.requireCanonical infohash).insertStore candidate)

/-- What `lease_store` does after `get_or_create`. -/
def leaseStore (r : SeedRegistry κ σ) (infohash : κ) (candidate : σ) (now : Nat) :
    List (κ × Nat) × SeedRegistry κ σ :=
  ([(infohash, (r.entry infohash infohash now).generation)],
    r.upsert infohash infohash now fun e =>
      ((e.requireCanonical infohash).insertStore candidate).addProducer)

/-- The keys bound to a stream, unless one of them belongs to another stream. -/
def canonicalAliases (stores : OrderedMap κ (SeedEntry κ σ)) (canonical : κ) : Option (List κ) :=
  let aliases := canonical :: stores.entries.flatMap fun e =>
    if e.2.canonical = some canonical then e.1 :: e.2.admissionAliases else []
  if aliases.any fun key => (stores.get? key).any fun e => e.canonical ≠ some canonical then none
  else some aliases

/-- The loop over the domains: whether one of them has an alias bound to another stream. -/
def bindAliases (canonical : κ) (aliases : List κ) :
    List (AdmissionState κ) → List (AdmissionState κ) × Bool
  | [] => ([], false)
  | state :: domains =>
    if !state.counts.contains canonical then
      let (domains, conflict) := bindAliases canonical aliases domains
      (state :: domains, conflict)
    else if aliases.any fun key => (state.bindings.get? key).any (· ≠ canonical) then
      (state :: domains, true)
    else
      let (domains, conflict) := bindAliases canonical aliases domains
      ({ state with bindings := aliases.foldl (fun m key => m.insert key canonical) state.bindings }
        :: domains, conflict)

def retainLiveAliases (r : SeedRegistry κ σ) (canonical : κ) : SeedRegistry κ σ :=
  match canonicalAliases r.stores canonical with
  | none => r
  | some aliases =>
    let (domains, conflict) := bindAliases canonical aliases r.admissionDomains
    { r with
      admissionDomains := domains
      stores :=
        if conflict then
          r.stores.mapVal fun _ e =>
            if e.canonical = some canonical then { e with canonical := none } else e
        else r.stores }

/-- What `lease_broadcast` does after `get_or_create`. The two keys may be the same. -/
def leaseBroadcast (r : SeedRegistry κ σ) (infohash contentId : κ) (metadata : List UInt8)
    (candidate : σ) (now : Nat) : List (κ × Nat) × SeedRegistry κ σ :=
  let r' := r.upsert infohash infohash now fun e =>
    (e.ownBroadcast infohash contentId).insertStore candidate
  let r'' := r'.upsert contentId infohash now fun e =>
    { e.ownBroadcast infohash contentId with metadata := some metadata }
  ([(infohash, (r.entry infohash infohash now).generation),
    (contentId, (r'.entry contentId infohash now).generation)],
    r''.retainLiveAliases infohash)

def remove (r : SeedRegistry κ σ) (key : κ) : SeedRegistry κ σ :=
  { r with stores := r.stores.erase key }

/-- The entry is idle and nobody's. -/
def reapable (now ttl : Nat) (e : SeedEntry κ σ) : Bool :=
  decide (e.kind ≠ .broadcast ∧ e.producers = 0 ∧ ttl ≤ now - e.lastActive)

def reap (r : SeedRegistry κ σ) (now ttl : Nat) : SeedRegistry κ σ :=
  { r with stores := r.stores.filter fun _ e => !reapable now ttl e }

/-- One key of a lease that is dropped. -/
def dropKey (r : SeedRegistry κ σ) (ref : κ × Nat) : SeedRegistry κ σ :=
  match r.stores.get? ref.1 with
  | some e =>
    if e.generation = ref.2 then
      -- The subtraction saturates in the source as it does here.
      if e.producers - 1 = 0 then { r with stores := r.stores.erase ref.1 }
      else { r with stores := r.stores.insert ref.1 { e with producers := e.producers - 1 } }
    else r
  | none => r

/-- The drop of a lease, under one lock hold. -/
def dropLease (r : SeedRegistry κ σ) (keys : List (κ × Nat)) : SeedRegistry κ σ :=
  keys.foldl dropKey r

end SeedRegistry

/-! ### Calls in progress -/

/-- What a `get_or_create` is for. -/
inductive Purpose (κ : Type) where
  | get
  | lease
  | broadcast (contentId : κ) (metadata : List UInt8)
  deriving DecidableEq

/-- A `OnceLock`. -/
inductive Rendezvous (σ : Type) where
  | empty
  | running
  | ready (store : σ)
  deriving DecidableEq

/-- How far a call has come. -/
inductive Caller (κ σ : Type) where
  | start (key : κ) (purpose : Purpose κ)
  /-- There was no store. -/
  | missed (key : κ) (purpose : Purpose κ)
  | waiting (key : κ) (purpose : Purpose κ) (cell : Nat)
  /-- Runs the factory. -/
  | making (key : κ) (purpose : Purpose κ) (cell : Nat)
  | candidate (key : κ) (purpose : Purpose κ) (store : σ)
  /-- The rendezvous is still to be removed. -/
  | published (key : κ) (purpose : Purpose κ) (store : σ)
  /-- `get_or_create` has returned. -/
  | created (key : κ) (purpose : Purpose κ) (store : σ)
  | done
  deriving DecidableEq

inductive SeedEvent (κ σ : Type) where
  /-- The factory is run for a key. -/
  | made (key : κ)
  /-- A `get_or_create` returns. -/
  | returned (key : κ) (store : σ)
  deriving DecidableEq

/-- A registry with the calls in progress and the live leases. -/
structure Seeding (κ σ : Type) [LinearOrder κ] where
  registry : SeedRegistry κ σ
  cells : List (Rendezvous σ)
  callers : List (Caller κ σ)
  leases : List (List (κ × Nat))

inductive SeedOp (κ σ : Type) where
  | call (key : κ) (purpose : Purpose κ)
  /-- The next lock hold of a caller; `made` is what the factory returns, should that be next. -/
  | advance (caller now : Nat) (made : σ)
  | register (infohash : κ) (store : σ) (now : Nat)
  | registerMetadata (key : κ) (metadata : List UInt8) (now : Nat)
  | remove (key : κ)
  | reap (now ttl : Nat)
  | dropLease (lease : Nat)
  deriving DecidableEq

namespace Seeding

def new : Seeding κ σ := ⟨.new, [], [], []⟩

def setCaller (s : Seeding κ σ) (i : Nat) (c : Caller κ σ) : Seeding κ σ :=
  { s with callers := s.callers.set i c }

/-- The rendezvous of a key, a new one if there is none. -/
def rendezvous (s : Seeding κ σ) (key : κ) : Nat × Seeding κ σ :=
  match s.registry.creating.get? key with
  | some cell => (cell, s)
  | none =>
    (s.cells.length,
      { s with
        registry := { s.registry with creating := s.registry.creating.insert key s.cells.length }
        cells := s.cells ++ [.empty] })

/-- What follows `get_or_create` in the calls that take a lease. -/
def finish (s : Seeding κ σ) (key : κ) (purpose : Purpose κ) (store : σ) (now : Nat) :
    Seeding κ σ :=
  match purpose with
  | .get => s
  | .lease =>
    let (lease, r) := s.registry.leaseStore key store now
    { s with registry := r, leases := s.leases ++ [lease] }
  | .broadcast contentId metadata =>
    let (lease, r) := s.registry.leaseBroadcast key contentId metadata store now
    { s with registry := r, leases := s.leases ++ [lease] }

def advance (s : Seeding κ σ) (i now : Nat) (made : σ) : List (SeedEvent κ σ) × Seeding κ σ :=
  match s.callers[i]? with
  | some (.start key purpose) =>
    let (store, r) := s.registry.lookup key now
    match store with
    | some store =>
      ([.returned key store], { s with registry := r }.setCaller i (.created key purpose store))
    | none => ([], { s with registry := r }.setCaller i (.missed key purpose))
  | some (.missed key purpose) =>
    let (cell, s) := s.rendezvous key
    ([], s.setCaller i (.waiting key purpose cell))
  | some (.waiting key purpose cell) =>
    match s.cells[cell]? with
    | some .empty =>
      ([.made key],
        { s with cells := s.cells.set cell .running }.setCaller i (.making key purpose cell))
    | some (.ready store) => ([], s.setCaller i (.candidate key purpose store))
    | _ => ([], s)
  | some (.making key purpose cell) =>
    ([], { s with cells := s.cells.set cell (.ready made) }.setCaller i (.candidate key purpose made))
  | some (.candidate key purpose store) =>
    let (store, r) := s.registry.publish key store now
    ([], { s with registry := r }.setCaller i (.published key purpose store))
  | some (.published key purpose store) =>
    ([.returned key store],
      { s with registry := { s.registry with creating := s.registry.creating.erase key } }.setCaller i
        (.created key purpose store))
  | some (.created key purpose store) => ([], (s.finish key purpose store now).setCaller i .done)
  | some .done => ([], s)
  | none => ([], s)

def exec (s : Seeding κ σ) : SeedOp κ σ → List (SeedEvent κ σ) × Seeding κ σ
  | .call key purpose => ([], { s with callers := s.callers ++ [.start key purpose] })
  | .advance i now made => s.advance i now made
  | .register infohash store now => ([], { s with registry := s.registry.register infohash store now })
  | .registerMetadata key metadata now =>
    ([], { s with registry := s.registry.registerMetadata key metadata now })
  | .remove key => ([], { s with registry := s.registry.remove key })
  | .reap now ttl => ([], { s with registry := s.registry.reap now ttl })
  | .dropLease i =>
    match s.leases[i]? with
    | some lease =>
      ([], { s with registry := s.registry.dropLease lease, leases := s.leases.eraseIdx i })
    | none => ([], s)

def step (s : Seeding κ σ) (op : SeedOp κ σ) : Seeding κ σ := (s.exec op).2

def events (s : Seeding κ σ) (op : SeedOp κ σ) : List (SeedEvent κ σ) := (s.exec op).1

end Seeding

end Outpace.Swarm

import Outpace.Swarm.Live.WorkerOwnership

/-!
# Worker permits over the runs of a session

Every worker task that was not joined has its permit, under the id of its peer or beside its retired
runtime, and the permits add up to the capacity of the semaphore.
-/

namespace Outpace.Swarm.Live

namespace PoolPhase

/-- The stopped workers that are still to be joined. -/
def stopped : PoolPhase → List (Nat × WorkerRuntime)
  | .stopping rest _ => rest
  | _ => []

/-- The retired worker that is being joined. -/
def popped : PoolPhase → List (WorkerRuntime × Option Nat)
  | .finishing e _ => [e]
  | _ => []

def isStopping : PoolPhase → Bool
  | .stopping .. => true
  | _ => false

/-- A pool with its peers. -/
def isOpen : PoolPhase → Bool
  | .opening _ | .actor => true
  | _ => false

/-- A write may be in progress. -/
def mayActivate : PoolPhase → Bool
  | .opening _ | .actor | .stopping _ .noSender | .stopping _ .stale => true
  | _ => false

theorem stopped_of_isStopping {p : PoolPhase} (h : p.isStopping = false) : p.stopped = [] := by
  cases p with
  | stopping => cases h
  | _ => rfl

theorem isStopping_of_isOpen {p : PoolPhase} (h : p.isOpen = true) : p.isStopping = false := by
  cases p with
  | stopping => cases h
  | _ => rfl

theorem popped_of_isOpen {p : PoolPhase} (h : p.isOpen = true) : p.popped = [] := by
  cases p with
  | finishing => cases h
  | _ => rfl

end PoolPhase

def permitCount : Option Nat → Nat
  | some _ => 1
  | none => 0

theorem WorkerOwnership.slots_restore (w : WorkerOwnership) (p : Option Nat) :
    (w.restore p).slots = w.slots + permitCount p := by
  cases p <;> rfl

@[simp] theorem WorkerOwnership.active_restore (w : WorkerOwnership) (p : Option Nat) :
    (w.restore p).active = w.active := by
  cases p <;> rfl

@[simp] theorem WorkerOwnership.retired_restore (w : WorkerOwnership) (p : Option Nat) :
    (w.restore p).retired = w.retired := by
  cases p <;> rfl

namespace WorkerSession

/-- Runtimes that left the pool and were not joined, with their permits. -/
def leaving (s : WorkerSession) : List (WorkerRuntime × Option Nat) :=
  s.workers.retired ++ s.phase.popped

/-- Permits of writes in progress. -/
def prepared (s : WorkerSession) : Nat := s.activation.elim 0 fun a => permitCount a.permit

/-- The worker of a peer, or of a peer that was stopped or has left, has the permit. -/
def Keeps (s : WorkerSession) (task permit : Nat) : Prop :=
  (∃ id r, s.peers.get? id = some r ∧ r.worker = task ∧ s.workers.active.get? id = some permit) ∨
  (∃ e ∈ s.phase.stopped, e.2.worker = task ∧ s.workers.active.get? e.1 = some permit) ∨
  ∃ e ∈ s.leaving, e.1.worker = task ∧ e.2 = some permit

/-- Who is registered: the peers, or the workers that were stopped, and a worker `joining` that the
step which runs has still to put into the pool. -/
structure Registered (phase : PoolPhase) (pool : OrderedMap Nat WorkerRuntime)
    (active : OrderedMap Nat Nat) (joining : Option (Nat × Nat)) : Prop where
  peers : ∀ id, pool.contains id = true → active.contains id = true
  stopped : ∀ e ∈ phase.stopped, active.contains e.1 = true
  distinct : (phase.stopped.map (·.1)).Nodup
  owned : phase.isStopping = false → ∀ id, active.contains id = true →
    pool.contains id = true ∨ ∃ p, joining = some (id, p)
  quiet : phase.isOpen = false → pool = ∅
  joins : ∀ id p, joining = some (id, p) → active.get? id = some p ∧ pool.get? id = none

/-- The write in progress is for a new id. -/
structure Writes (phase : PoolPhase) (activation : Option Activation) (active : OrderedMap Nat Nat)
    (nextPeerId : Nat) : Prop where
  idle : phase.mayActivate = false → activation = none
  below : ∀ id, active.contains id = true → id < nextPeerId
  pending : ∀ a, activation = some a → a.peerId < nextPeerId ∧ active.contains a.peerId = false

/-- The books of the session, with the permits that the step which runs has in hand. -/
structure Owned (capacity hand : Nat) (joining : Option (Nat × Nat)) (s : WorkerSession) : Prop
    extends Registered s.phase s.peers s.workers.active joining,
      Writes s.phase s.activation s.workers.active s.nextPeerId where
  permits : ∀ e ∈ s.leaving, e.2.isSome = true
  kept : ∀ t w, s.tasks.get? t = some w → s.Keeps t w.permit
  fresh : ∀ t w, s.tasks.get? t = some w → t < s.spawned
  books : s.workers.slots + s.workers.active.size + s.leaving.length + s.prepared + hand = capacity

variable {capacity hand : Nat} {joining : Option (Nat × Nat)} {s s' : WorkerSession}
  {r : WorkerRuntime} {after : AfterStop}

theorem Owned.start (maxActiveUpstreams maxParallelConnect : Nat) :
    (start maxActiveUpstreams maxParallelConnect).Owned
      (permitCapacity maxActiveUpstreams maxParallelConnect) 0 none where
  peers _ h := by cases h
  stopped _ h := by cases h
  distinct := .nil
  owned _ _ h := by cases h
  quiet _ := rfl
  idle _ := rfl
  below _ h := by cases h
  pending _ h := by cases h
  joins _ _ h := by cases h
  permits _ h := by cases h
  kept _ _ h := by cases h
  fresh _ _ h := by cases h
  books := rfl

/-! ### The permit of a write -/

theorem Owned.takeActivation (H : s.Owned capacity 0 joining) {a : Activation}
    (ha : s.activation = some a) :
    { s with activation := none }.Owned capacity (permitCount a.permit) joining where
  toRegistered := H.toRegistered
  idle _ := rfl
  below := H.below
  pending _ h := by cases h
  permits := H.permits
  kept := H.kept
  fresh := H.fresh
  books := by
    have hbooks := H.books
    rw [prepared, ha] at hbooks
    exact hbooks

theorem Owned.restore {p : Option Nat} (H : s.Owned capacity (permitCount p) joining) :
    { s with workers := s.workers.restore p }.Owned capacity 0 joining where
  toRegistered := by simpa using H.toRegistered
  toWrites := by simpa using H.toWrites
  permits := by simpa [leaving] using H.permits
  kept := by simpa [Keeps, leaving] using H.kept
  fresh := H.fresh
  books := by
    have hbooks := H.books
    simp only [leaving, prepared, WorkerOwnership.slots_restore, WorkerOwnership.active_restore,
      WorkerOwnership.retired_restore] at hbooks ⊢
    omega

theorem Owned.dropActivation (H : s.Owned capacity 0 joining) :
    s.dropActivation.Owned capacity 0 joining ∧ s.dropActivation.activation = none ∧
      s.dropActivation.phase = s.phase := by
  rw [WorkerSession.dropActivation]
  split
  · next ha => exact ⟨H, ha, rfl⟩
  · next a ha => exact ⟨(H.takeActivation ha).restore, rfl, rfl⟩

/-! ### Retiring and admitting a worker -/

/-- A peer in the pool has a permit, and the pool is open. -/
theorem Owned.active_of_peer (H : s.Owned capacity hand joining) {id : Nat}
    (hr : s.peers.get? id = some r) :
    s.phase.isOpen = true ∧ ∃ p, s.workers.active.get? id = some p := by
  refine ⟨?_, OrderedMap.contains_iff.mp (H.peers id (OrderedMap.contains_iff.mpr ⟨r, hr⟩))⟩
  cases hopen : s.phase.isOpen with
  | true => rfl
  | false =>
    rw [H.quiet hopen] at hr
    cases hr

/-- The frame of `drop_peer_runtime`. -/
structure Retires (s s' : WorkerSession) : Prop where
  phase : s'.phase = s.phase
  activation : s'.activation = s.activation

theorem Retires.refl : s.Retires s := ⟨rfl, rfl⟩

theorem Retires.trans {s'' : WorkerSession} (h : s.Retires s') (h' : s'.Retires s'') :
    s.Retires s'' where
  phase := h'.phase.trans h.phase
  activation := h'.activation.trans h.activation

/-- A peer goes from the pool to the retired ones, with its permit. -/
theorem Owned.retire (H : s.Owned capacity hand joining) {id permit : Nat} {peer : WorkerRuntime}
    (hpeer : s.peers.get? id = some peer) (hpermit : s.workers.active.get? id = some permit)
    (hpeers : s'.peers = s.peers.erase id)
    (hslots : s'.workers.slots = s.workers.slots)
    (hactive : s'.workers.active = s.workers.active.erase id)
    (hretired : s'.workers.retired = s.workers.retired ++ [(peer, some permit)])
    (hphase : s'.phase = s.phase) (hactivation : s'.activation = s.activation)
    (hnext : s'.nextPeerId = s.nextPeerId) (htasks : s'.tasks = s.tasks)
    (hspawned : s'.spawned = s.spawned) : s'.Owned capacity hand joining := by
  have hopen := (H.active_of_peer hpeer).1
  have hstopped : s'.phase.stopped = [] :=
    hphase ▸ PoolPhase.stopped_of_isStopping (PoolPhase.isStopping_of_isOpen hopen)
  have hleaving : s'.leaving = s.leaving ++ [(peer, some permit)] := by
    rw [leaving, leaving, hretired, hphase, PoolPhase.popped_of_isOpen hopen, List.append_nil,
      List.append_nil]
  refine ⟨⟨?_, ?_, ?_, ?_, ?_, ?_⟩, ⟨?_, ?_, ?_⟩, ?_, ?_, ?_, ?_⟩
  · intro k hk
    rw [hpeers, OrderedMap.contains_erase_iff] at hk
    rw [hactive, OrderedMap.contains_erase_iff]
    exact ⟨hk.1, H.peers k hk.2⟩
  · rw [hstopped]
    exact fun _ h => (by cases h)
  · rw [hstopped]
    exact .nil
  · intro hstopping k hk
    rw [hactive, OrderedMap.contains_erase_iff] at hk
    rw [hpeers, OrderedMap.contains_erase_iff]
    exact (H.owned (hphase ▸ hstopping) k hk.2).imp_left fun h => ⟨hk.1, h⟩
  · intro hclosed
    rw [hphase, hopen] at hclosed
    cases hclosed
  · intro k p hj
    obtain ⟨hk, hnone⟩ := H.joins k p hj
    have hne : k ≠ id := fun heq => by
      rw [heq, hpeer] at hnone
      cases hnone
    rw [hactive, hpeers, OrderedMap.get?_erase_of_ne _ hne, OrderedMap.get?_erase_of_ne _ hne]
    exact ⟨hk, hnone⟩
  · rw [hphase, hactivation]
    exact H.idle
  · intro k hk
    rw [hactive, OrderedMap.contains_erase_iff] at hk
    exact hnext ▸ H.below k hk.2
  · intro a ha
    obtain ⟨hlt, hnone⟩ := H.pending a (hactivation ▸ ha)
    refine ⟨hnext ▸ hlt, Bool.eq_false_iff.mpr fun h => ?_⟩
    rw [hactive, OrderedMap.contains_erase_iff, hnone] at h
    cases h.2
  · intro e he
    rw [hleaving] at he
    rcases List.mem_append.mp he with he | he
    · exact H.permits e he
    · rw [List.mem_singleton.mp he]
      rfl
  · intro t w hw
    rw [Keeps, hstopped, hleaving, hactive, hpeers]
    rcases H.kept t w (htasks ▸ hw) with ⟨k, r, hk, ht, hp⟩ | ⟨e, he, -⟩ | ⟨e, he, hkept⟩
    · by_cases heq : k = id
      · rw [heq, hpeer] at hk
        rw [heq, hpermit] at hp
        refine .inr (.inr ⟨_, List.mem_append_right _ (List.mem_singleton_self _), ?_, hp⟩)
        rw [Option.some.inj hk]
        exact ht
      · refine .inl ⟨k, r, ?_, ht, ?_⟩
        · rw [OrderedMap.get?_erase_of_ne _ heq, hk]
        · rw [OrderedMap.get?_erase_of_ne _ heq, hp]
    · rw [← hphase, hstopped] at he
      cases he
    · exact .inr (.inr ⟨e, List.mem_append_left _ he, hkept⟩)
  · rw [htasks, hspawned]
    exact H.fresh
  · have hbooks := H.books
    have hsize := OrderedMap.size_erase hpermit
    rw [prepared, hactivation, ← prepared, hslots, hactive, hleaving, List.length_append,
      List.length_singleton]
    omega

theorem Owned.dropPeerRuntime (H : s.Owned capacity hand joining) (id : Nat) :
    ∃ s', s.dropPeerRuntime id = some s' ∧ s'.Owned capacity hand joining ∧ s.Retires s' := by
  rw [WorkerSession.dropPeerRuntime]
  cases hpeer : s.peers.get? id with
  | none => exact ⟨s, rfl, H, .refl⟩
  | some peer =>
    obtain ⟨permit, hpermit⟩ := (H.active_of_peer hpeer).2
    simp only [WorkerOwnership.retire, hpermit, Option.map_some]
    exact ⟨_, rfl, H.retire hpeer hpermit rfl rfl rfl rfl rfl rfl rfl rfl rfl, rfl, rfl⟩

/-- The permit in hand is registered. -/
theorem Owned.register (H : s.Owned capacity 1 none) {id : Nat} (permit : Nat)
    (hactivation : s.activation = none) (hid : id < s.nextPeerId)
    (hnew : s.workers.active.contains id = false) :
    ∃ workers, s.workers.register id permit = some workers ∧
      { s with workers }.Owned capacity 0 (some (id, permit)) := by
  have hne : ∀ {k}, s.workers.active.contains k = true → k ≠ id := fun hk heq => by
    rw [heq, hnew] at hk
    cases hk
  have hget : ∀ {k p}, s.workers.active.get? k = some p →
      (s.workers.active.insert id permit).get? k = some p := fun {k p} hk => by
    rwa [OrderedMap.get?_insert_of_ne _ _ (hne (OrderedMap.contains_iff.mpr ⟨p, hk⟩))]
  refine ⟨_, by rw [WorkerOwnership.register, hnew, if_neg Bool.false_ne_true], ?_⟩
  exact {
    peers := fun k hk => OrderedMap.contains_insert_iff.mpr (.inr (H.peers k hk))
    stopped := fun e he => OrderedMap.contains_insert_iff.mpr (.inr (H.stopped e he))
    distinct := H.distinct
    owned := fun hstopping k hk => by
      rcases OrderedMap.contains_insert_iff.mp hk with rfl | hk
      · exact .inr ⟨permit, rfl⟩
      · exact (H.owned hstopping k hk).imp_right fun ⟨p, hp⟩ => (by cases hp)
    quiet := H.quiet
    idle := H.idle
    below := fun k hk => by
      rcases OrderedMap.contains_insert_iff.mp hk with rfl | hk
      · exact hid
      · exact H.below k hk
    pending := fun a ha => by
      rw [hactivation] at ha
      cases ha
    joins := fun k p hj => by
      cases hj
      refine ⟨OrderedMap.get?_insert_self .., OrderedMap.contains_eq_false.mp ?_⟩
      exact Bool.eq_false_iff.mpr fun hk => hne (H.peers id hk) rfl
    permits := H.permits
    kept := fun t w hw => by
      rcases H.kept t w hw with ⟨k, r, hk, ht, hp⟩ | ⟨e, he, ht, hp⟩ | h
      · exact .inl ⟨k, r, hk, ht, hget hp⟩
      · exact .inr (.inl ⟨e, he, ht, hget hp⟩)
      · exact .inr (.inr h)
    fresh := H.fresh
    books := by
      have hbooks := H.books
      have hsize := s.workers.active.size_insert id permit
      rw [hnew, if_neg Bool.false_ne_true] at hsize
      show s.workers.slots + (s.workers.active.insert id permit).size + s.leaving.length +
        s.prepared + 0 = capacity
      omega }

/-- The task of the registered worker is spawned, and its peer is in the pool. -/
theorem Owned.spawn {id permit : Nat} (H : s.Owned capacity 0 (some (id, permit)))
    (hopen : s.phase.isOpen = true) {runtime : WorkerRuntime}
    (hruntime : runtime.worker = s.spawned) (hpeers : s'.peers = s.peers.insert id runtime)
    (hworkers : s'.workers = s.workers)
    (hphase : s'.phase = s.phase) (hactivation : s'.activation = s.activation)
    (hnext : s'.nextPeerId = s.nextPeerId)
    (htasks : s'.tasks = s.tasks.insert s.spawned ⟨permit, false⟩)
    (hspawned : s'.spawned = s.spawned + 1) : s'.Owned capacity 0 none := by
  obtain ⟨hpermit, hnone⟩ := H.joins id permit rfl
  have hleaving : s'.leaving = s.leaving := by rw [leaving, leaving, hworkers, hphase]
  refine ⟨⟨?_, ?_, ?_, ?_, ?_, ?_⟩, ⟨?_, ?_, ?_⟩, ?_, ?_, ?_, ?_⟩
  · intro k hk
    rw [hpeers, OrderedMap.contains_insert_iff] at hk
    rw [hworkers]
    rcases hk with rfl | hk
    · exact OrderedMap.contains_iff.mpr ⟨permit, hpermit⟩
    · exact H.peers k hk
  · rw [hphase, hworkers]
    exact H.stopped
  · rw [hphase]
    exact H.distinct
  · intro hstopping k hk
    rw [hpeers, OrderedMap.contains_insert_iff]
    rcases H.owned (hphase ▸ hstopping) k (hworkers ▸ hk) with h | ⟨p, hp⟩
    · exact .inl (.inr h)
    · cases hp
      exact .inl (.inl rfl)
  · intro hclosed
    rw [hphase, hopen] at hclosed
    cases hclosed
  · intro _ _ hj
    cases hj
  · rw [hphase, hactivation]
    exact H.idle
  · rw [hworkers, hnext]
    exact H.below
  · rw [hworkers, hnext, hactivation]
    exact H.pending
  · rw [hleaving]
    exact H.permits
  · intro t w hw
    rw [Keeps, hpeers, hworkers, hphase, hleaving]
    rw [htasks, OrderedMap.get?_insert] at hw
    split at hw
    · next ht =>
      cases hw
      exact .inl ⟨id, runtime, OrderedMap.get?_insert_self .., hruntime.trans ht.symm, hpermit⟩
    · refine (H.kept t w hw).imp_left fun ⟨k, r, hk, ht, hp⟩ => ⟨k, r, ?_, ht, hp⟩
      have hne : k ≠ id := fun heq => by
        rw [heq, hnone] at hk
        cases hk
      rw [OrderedMap.get?_insert_of_ne _ _ hne, hk]
  · intro t w hw
    rw [htasks, OrderedMap.get?_insert] at hw
    rw [hspawned]
    split at hw
    · next ht => exact ht ▸ Nat.lt_succ_self _
    · exact Nat.lt_succ_of_lt (H.fresh t w hw)
  · rw [hworkers, hleaving, prepared, hactivation, ← prepared]
    exact H.books

theorem Owned.admitUpstream (H : s.Owned capacity 1 none) {id : Nat} (permit : Nat)
    (hopen : s.phase.isOpen = true) (hactivation : s.activation = none) (hid : id < s.nextPeerId)
    (hnew : s.workers.active.contains id = false) (upstream : ConnectedUpstream)
    (replacing : Option Nat) :
    ∃ s', s.admitUpstream id upstream permit replacing = some s' ∧ s'.Owned capacity 0 none ∧
      s'.phase = s.phase ∧ s'.activation = none := by
  obtain ⟨workers, hregister, H⟩ := H.register permit hactivation hid hnew
  have hdrop : ∃ s', replacing.elim (some { s with workers })
      { s with workers }.dropPeerRuntime = some s' ∧
        s'.Owned capacity 0 (some (id, permit)) ∧ { s with workers }.Retires s' := by
    cases replacing with
    | none => exact ⟨_, rfl, H, .refl⟩
    | some old => exact H.dropPeerRuntime old
  obtain ⟨s', hs', H, hframe⟩ := hdrop
  simp only [WorkerSession.admitUpstream, commitUpstreamPeer, hregister, Option.bind_eq_bind,
    Option.bind_some, hs', Option.map_some]
  refine ⟨_, rfl, ?_, hframe.phase, hframe.activation.trans hactivation⟩
  exact H.spawn (hframe.phase ▸ hopen) rfl rfl rfl rfl rfl rfl rfl rfl

/-! ### Phases -/

/-- The session goes to a phase in which no worker is being joined. -/
theorem Owned.setPhase (H : s.Owned capacity 0 none) (hstopped : s.phase.stopped = [])
    (hpopped : s.phase.popped = [])
    (howned : s.phase.isStopping = false ∨ s.workers.active = ∅) {p : PoolPhase}
    (hphase : p.isStopping = false) (hphase' : p.popped = [])
    (hquiet : p.isOpen = false → s.peers = ∅)
    (hidle : p.mayActivate = false → s.activation = none) :
    { s with phase := p }.Owned capacity 0 none := by
  have hnone := PoolPhase.stopped_of_isStopping hphase
  have hleaving : { s with phase := p }.leaving = s.leaving := by
    simp only [leaving, hphase', hpopped]
  exact {
    peers := H.peers
    stopped := hnone ▸ fun _ h => (by cases h)
    distinct := hnone ▸ .nil
    owned := fun _ id hid => by
      rcases howned with h | h
      · exact H.owned h id hid
      · have hid' : s.workers.active.contains id = true := hid
        rw [h] at hid'
        cases hid'
    quiet := hquiet
    idle := hidle
    below := H.below
    pending := H.pending
    joins := H.joins
    permits := hleaving ▸ H.permits
    kept := fun t w hw => by
      rw [Keeps, hleaving]
      rcases H.kept t w hw with h | ⟨e, he, -⟩ | h
      · exact .inl h
      · rw [hstopped] at he
        cases he
      · exact .inr (.inr h)
    fresh := H.fresh
    books := hleaving ▸ H.books }

theorem Owned.beginActivation (H : s.Owned capacity 0 none) (hnone : s.activation = none)
    (hmay : s.phase.mayActivate = true) (upstream : ConnectedUpstream) (replacement : Option Nat) :
    (s.beginActivation upstream replacement).Owned capacity 0 none where
  toRegistered := H.toRegistered
  idle h := by
    rw [WorkerSession.beginActivation, hmay] at h
    cases h
  below id hid := Nat.lt_succ_of_lt (H.below id hid)
  pending a ha := by
    cases ha
    exact ⟨Nat.lt_succ_self _, Bool.eq_false_iff.mpr fun h => Nat.lt_irrefl _ (H.below _ h)⟩
  permits := H.permits
  kept := H.kept
  fresh := H.fresh
  books := by
    have hbooks := H.books
    rw [prepared, hnone] at hbooks
    exact hbooks

theorem Owned.admitNext (H : s.Owned capacity 0 none) (hopen : s.phase.isOpen = true)
    (hnone : s.activation = none) (hasDeliveryWork : Bool) (rest : List ConnectedUpstream) :
    (s.admitNext hasDeliveryWork rest).Owned capacity 0 none := by
  have hstopping := PoolPhase.isStopping_of_isOpen hopen
  have hset {p : PoolPhase} (h : p.isStopping = false) (h' : p.popped = [])
      (hquiet : p.isOpen = false → s.peers = ∅) : { s with phase := p }.Owned capacity 0 none :=
    H.setPhase (PoolPhase.stopped_of_isStopping hstopping) (PoolPhase.popped_of_isOpen hopen)
      (.inl hstopping) h h' hquiet fun _ => hnone
  cases rest with
  | cons upstream rest =>
    have H' := hset (p := .opening rest) rfl rfl fun h => (by cases h)
    exact H'.beginActivation hnone rfl upstream none
  | nil =>
    rw [WorkerSession.admitNext]
    split
    · next h =>
      refine hset rfl rfl fun _ => ?_
      have hempty := (Bool.and_eq_true_iff.mp h).1
      exact OrderedMap.ext (List.isEmpty_iff.mp hempty)
    · exact hset rfl rfl fun h => (by cases h)

/-- The peers of an open pool are stopped; a drain follows only without a write in progress. -/
theorem Owned.shutdownCurrentWorkers (H : s.Owned capacity 0 none) (hstopped : s.phase.stopped = [])
    (hpopped : s.phase.popped = []) (hafter : ∀ gone, after = .drain gone → s.activation = none) :
    (s.shutdownCurrentWorkers after).Owned capacity 0 none := by
  have hleaving : (s.shutdownCurrentWorkers after).leaving = s.leaving := by
    rw [leaving, leaving, hpopped]
    rfl
  have hentry {e : Nat × WorkerRuntime} : e ∈ (s.shutdownCurrentWorkers after).phase.stopped ↔
      s.peers.get? e.1 = some e.2 := OrderedMap.mem_entries_iff
  exact {
    peers := fun _ h => (by cases h)
    stopped := fun e he => H.peers e.1 (OrderedMap.contains_iff.mpr ⟨e.2, hentry.mp he⟩)
    distinct := s.peers.keys_nodup
    owned := fun h => (by cases h)
    quiet := fun _ => rfl
    idle := fun h => by
      cases after with
      | drain gone => exact hafter gone rfl
      | noSender => cases h
      | stale => cases h
    below := H.below
    pending := H.pending
    joins := fun _ _ h => (by cases h)
    permits := hleaving ▸ H.permits
    kept := fun t w hw => by
      rw [Keeps, hleaving]
      rcases H.kept t w hw with ⟨id, r, hr, ht, hp⟩ | ⟨e, he, -⟩ | h
      · exact .inr (.inl ⟨(id, r), hentry.mpr hr, ht, hp⟩)
      · rw [hstopped] at he
        cases he
      · exact .inr (.inr h)
    fresh := H.fresh
    books := hleaving ▸ H.books }

theorem Owned.shutdownPeerPool (H : s.Owned capacity 0 none) (hstopped : s.phase.stopped = [])
    (hpopped : s.phase.popped = []) (gone : Bool) :
    (s.shutdownPeerPool gone).Owned capacity 0 none := by
  obtain ⟨H', hnone, hphase⟩ := H.dropActivation
  exact H'.shutdownCurrentWorkers (hphase ▸ hstopped) (hphase ▸ hpopped) fun _ _ => hnone

theorem Owned.releaseJoinedCurrent (H : s.Owned capacity 0 none)
    (hphase : s.phase = .stopping [] after) :
    { s with workers := s.workers.releaseJoinedCurrent }.Owned capacity 0 none := by
  have hpeers : s.peers = ∅ := H.quiet (by rw [hphase]; rfl)
  exact {
    peers := fun id hid => by
      have hid' : s.peers.contains id = true := hid
      rw [hpeers] at hid'
      cases hid'
    stopped := fun e he => by
      have he' : e ∈ s.phase.stopped := he
      rw [hphase] at he'
      cases he'
    distinct := H.distinct
    owned := fun _ _ h => (by cases h)
    quiet := H.quiet
    idle := H.idle
    below := fun _ h => (by cases h)
    pending := fun a ha => ⟨(H.pending a ha).1, rfl⟩
    joins := fun _ _ h => (by cases h)
    permits := H.permits
    kept := fun t w hw => by
      rcases H.kept t w hw with ⟨id, r, hr, -⟩ | ⟨e, he, -⟩ | h
      · rw [hpeers] at hr
        cases hr
      · rw [hphase] at he
        cases he
      · exact .inr (.inr h)
    fresh := H.fresh
    books := by
      have hbooks := H.books
      show s.workers.slots + s.workers.active.size + 0 + s.leaving.length + s.prepared + 0 =
        capacity
      omega }

theorem Owned.finishRetired (H : s.Owned capacity 0 none) (hstopped : s.phase.stopped = [])
    (hpopped : s.phase.popped = [])
    (howned : s.phase.isStopping = false ∨ s.workers.active = ∅) (hpeers : s.peers = ∅)
    (hnone : s.activation = none) (gone : Bool) : (s.finishRetired gone).Owned capacity 0 none := by
  have hset {p : PoolPhase} (h : p.isStopping = false) (h' : p.popped = []) :
      { s with phase := p }.Owned capacity 0 none :=
    H.setPhase hstopped hpopped howned h h' (fun _ => hpeers) fun _ => hnone
  rw [WorkerSession.finishRetired]
  split
  · cases gone with
    | true => exact hset rfl rfl
    | false => exact hset rfl rfl
  · next e he =>
    have H' := hset (p := .between) rfl rfl
    have hleaving : s.workers.retired.dropLast ++ [e] = { s with phase := .between }.leaving :=
      (List.dropLast_append_getLast? e he).trans (List.append_nil _).symm
    have hmem {x : WorkerRuntime × Option Nat} : x ∈ s.workers.retired.dropLast ++ [e] ↔
        x ∈ { s with phase := .between }.leaving := by rw [hleaving]
    exact {
      toRegistered := ⟨H'.peers, H'.stopped, H'.distinct, H'.owned, H'.quiet, H'.joins⟩
      toWrites := ⟨H'.idle, H'.below, H'.pending⟩
      permits := fun e he => H'.permits e (hmem.mp he)
      kept := fun t w hw => (H'.kept t w hw).imp_right fun h => h.imp_right fun ⟨e, he, h⟩ =>
        ⟨e, hmem.mpr he, h⟩
      fresh := H'.fresh
      books := by
        have hbooks := H'.books
        rw [← hleaving] at hbooks
        exact hbooks }

/-! ### Joining -/

/-- A joined task is forgotten. -/
theorem Owned.task_of_join (H : s.Owned capacity hand joining) {t : Nat} {w : WorkerTask}
    (hw : (s.join r).tasks.get? t = some w) :
    t ≠ r.worker ∧ s.tasks.get? t = some w ∧ s.Keeps t w.permit ∧ t < s.spawned := by
  have hw' : (s.tasks.erase r.worker).get? t = some w := hw
  rw [OrderedMap.get?_erase] at hw'
  split at hw'
  · cases hw'
  · next hne => exact ⟨hne, hw', H.kept t w hw', H.fresh t w hw'⟩

/-- A worker that had left is joined, and its permit is back. -/
theorem Owned.joinLeft (H : s.Owned capacity 0 none) {e : WorkerRuntime × Option Nat}
    (hleaving : s.leaving.Perm (e :: s'.leaving)) (hpeers : s'.peers = s.peers)
    (hslots : s'.workers.slots = s.workers.slots + permitCount e.2)
    (hactive : s'.workers.active = s.workers.active)
    (hstopped : s'.phase.stopped = s.phase.stopped)
    (hstopping : s'.phase.isStopping = s.phase.isStopping)
    (hopen : s'.phase.isOpen = s.phase.isOpen)
    (hmay : s'.phase.mayActivate = s.phase.mayActivate) (hactivation : s'.activation = s.activation)
    (hnext : s'.nextPeerId = s.nextPeerId) (htasks : s'.tasks = (s.join e.1).tasks)
    (hspawned : s'.spawned = s.spawned) : s'.Owned capacity 0 none := by
  have hpermit : permitCount e.2 = 1 := by
    obtain ⟨p, hp⟩ := Option.isSome_iff_exists.mp
      (H.permits e (hleaving.mem_iff.mpr List.mem_cons_self))
    rw [hp]
    rfl
  refine ⟨⟨?_, ?_, ?_, ?_, ?_, ?_⟩, ⟨?_, ?_, ?_⟩, ?_, ?_, ?_, ?_⟩
  · rw [hpeers, hactive]
    exact H.peers
  · rw [hstopped, hactive]
    exact H.stopped
  · rw [hstopped]
    exact H.distinct
  · rw [hstopping, hactive, hpeers]
    exact H.owned
  · rw [hopen, hpeers]
    exact H.quiet
  · intro _ _ hj
    cases hj
  · rw [hmay, hactivation]
    exact H.idle
  · rw [hactive, hnext]
    exact H.below
  · rw [hactive, hnext, hactivation]
    exact H.pending
  · exact fun x hx => H.permits x (hleaving.mem_iff.mpr (List.mem_cons_of_mem _ hx))
  · intro t w hw
    obtain ⟨hne, -, hkept, -⟩ := H.task_of_join (htasks ▸ hw)
    rw [Keeps, hpeers, hactive, hstopped]
    refine hkept.imp_right fun h => h.imp_right fun ⟨x, hx, ht, hp⟩ => ?_
    rcases List.mem_cons.mp (hleaving.mem_iff.mp hx) with rfl | hx
    · exact absurd ht.symm hne
    · exact ⟨x, hx, ht, hp⟩
  · intro t w hw
    rw [hspawned]
    exact (H.task_of_join (htasks ▸ hw)).2.2.2
  · have hbooks := H.books
    have hlength := hleaving.length_eq
    rw [List.length_cons] at hlength
    rw [prepared, hactivation, ← prepared, hactive, hslots]
    omega

/-- A stopped worker is joined; its permit is released with the others. -/
theorem Owned.joinStopped (H : s.Owned capacity 0 none) {e : Nat × WorkerRuntime}
    {rest : List (Nat × WorkerRuntime)} (hphase : s.phase = .stopping (e :: rest) after) :
    { s.join e.2 with phase := .stopping rest after }.Owned capacity 0 none := by
  have hmem {x : Nat × WorkerRuntime} (hx : x ∈ rest) : x ∈ s.phase.stopped := by
    rw [hphase]
    exact List.mem_cons_of_mem _ hx
  have hpopped : s.phase.popped = [] := by rw [hphase]; rfl
  have hleaving : { s.join e.2 with phase := .stopping rest after }.leaving = s.leaving := by
    rw [leaving, leaving, hpopped]
    rfl
  exact {
    peers := H.peers
    stopped := fun x hx => H.stopped x (hmem hx)
    distinct := by
      have hdistinct := H.distinct
      rw [hphase] at hdistinct
      exact (List.nodup_cons.mp hdistinct).2
    owned := fun h => (by cases h)
    quiet := fun _ => H.quiet (by rw [hphase]; rfl)
    idle := fun h => H.idle (by
      rw [hphase]
      cases after with
      | drain => rfl
      | noSender => cases h
      | stale => cases h)
    below := H.below
    pending := H.pending
    joins := H.joins
    permits := hleaving ▸ H.permits
    kept := fun t w hw => by
      obtain ⟨hne, -, hkept, -⟩ := H.task_of_join hw
      rw [Keeps, hleaving]
      refine hkept.imp_right fun h => h.imp_left fun ⟨x, hx, ht, hp⟩ => ?_
      rw [hphase] at hx
      rcases List.mem_cons.mp hx with rfl | hx
      · exact absurd ht.symm hne
      · exact ⟨x, hx, ht, hp⟩
    fresh := fun t w hw => (H.task_of_join hw).2.2.2
    books := hleaving ▸ H.books }

theorem WorkerOwnership.pollRetired_eq_some {w w' : WorkerOwnership} {ready : WorkerRuntime → Bool}
    (h : w.pollRetired ready = some (r, w')) :
    ∃ p, w.retired.Perm ((r, p) :: w'.retired) ∧ w'.active = w.active ∧
      w'.slots = w.slots + permitCount p := by
  obtain ⟨i, -, h⟩ := Option.bind_eq_some_iff.mp h
  obtain ⟨e, he, h⟩ := Option.bind_eq_some_iff.mp h
  cases h
  refine ⟨e.2, ?_, WorkerOwnership.active_restore .., WorkerOwnership.slots_restore ..⟩
  rw [WorkerOwnership.retired_restore]
  exact swapRemove_perm he

theorem Owned.onCleanup (H : s.Owned capacity 0 none) (seen : Nat → Bool) :
    (s.onCleanup seen).Owned capacity 0 none := by
  rw [WorkerSession.onCleanup]
  split
  · exact H
  · next r workers hpoll =>
    obtain ⟨p, hperm, hactive, hslots⟩ := WorkerOwnership.pollRetired_eq_some hpoll
    exact H.joinLeft (e := (r, p)) (hperm.append_right _) rfl hslots hactive rfl rfl rfl rfl rfl rfl
      rfl rfl

theorem Owned.onJoined (H : s.Owned capacity 0 none) : s.onJoined.Owned capacity 0 none := by
  rw [WorkerSession.onJoined]
  split
  · next e rest after hphase =>
    split
    · exact H.joinStopped hphase
    · exact H
  · next e gone hphase =>
    split
    · -- The retired worker has left the session before the next one is popped.
      have hidle : s.activation = none := H.idle (by rw [hphase]; rfl)
      have hpeers : s.peers = ∅ := H.quiet (by rw [hphase]; rfl)
      have H' : { s.join e.1 with
          workers := s.workers.restore e.2, phase := .between }.Owned capacity 0 none := by
        refine H.joinLeft (e := e) ?_ rfl (WorkerOwnership.slots_restore ..)
          (WorkerOwnership.active_restore ..) ?_ ?_ ?_ ?_ rfl rfl rfl rfl
        · rw [leaving, leaving, hphase, WorkerOwnership.retired_restore]
          show (s.workers.retired ++ [e]).Perm (e :: (s.workers.retired ++ []))
          rw [List.append_nil]
          exact List.perm_append_singleton ..
        all_goals
          rw [hphase]
          rfl
      have H'' := H'.finishRetired rfl rfl (.inl rfl) hpeers hidle gone
      rw [WorkerSession.finishRetired] at H'' ⊢
      exact H''
    · exact H
  · exact H

theorem Owned.onReleased (H : s.Owned capacity 0 none) (w : TurnContext) :
    (s.onReleased w).Owned capacity 0 none := by
  rw [WorkerSession.onReleased]
  split
  · next after hphase =>
    have H' := H.releaseJoinedCurrent hphase
    have hpeers : s.peers = ∅ := H.quiet (by rw [hphase]; rfl)
    have hstopped : s.phase.stopped = [] := by rw [hphase]; rfl
    have hpopped : s.phase.popped = [] := by rw [hphase]; rfl
    cases after with
    | noSender =>
      dsimp only
      split
      · exact H'.setPhase hstopped hpopped (.inr rfl) rfl rfl (fun h => by cases h)
          fun h => (by cases h)
      · exact H'.shutdownPeerPool hstopped hpopped false
    | stale => exact H'.shutdownPeerPool hstopped hpopped false
    | drain gone =>
      have hidle : s.activation = none := H.idle (by rw [hphase]; rfl)
      exact H'.finishRetired hstopped hpopped (.inr rfl) hpeers hidle gone
  · exact H

/-! ### Steps of a pool -/

/-- The write in progress gets its permit. -/
theorem Owned.acquire (H : s.Owned capacity 0 none) {a : Activation} (ha : s.activation = some a)
    (hwaits : a.permit = none) {permit : Nat} {workers : WorkerOwnership}
    (hacquire : s.workers.acquire = some (permit, workers)) :
    { s with workers, activation := some { a with permit := some permit } }.Owned
      capacity 0 none := by
  rw [WorkerOwnership.acquire] at hacquire
  split at hacquire
  · next hslots =>
    cases hacquire
    exact {
      toRegistered := H.toRegistered
      idle := fun h => by
        rw [H.idle h] at ha
        cases ha
      below := H.below
      pending := fun _ hb => by
        cases hb
        exact H.pending a ha
      permits := H.permits
      kept := H.kept
      fresh := H.fresh
      books := by
        have hbooks := H.books
        rw [prepared, ha] at hbooks
        simp only [Option.elim_some, hwaits, permitCount] at hbooks
        show s.workers.slots - 1 + s.workers.active.size + s.leaving.length + 1 + 0 = capacity
        omega }
  · cases hacquire

theorem Owned.onAcquire (H : s.Owned capacity 0 none) : s.onAcquire.Owned capacity 0 none := by
  rw [WorkerSession.onAcquire]
  split
  · next ha =>
    split
    · exact H
    · next hacquire => exact H.acquire ha rfl hacquire
  · next ha =>
    split
    · exact H
    · next hacquire => exact H.acquire ha rfl hacquire
  · exact H

theorem Owned.finishActivation (H : s.Owned capacity 0 none) (ok : Bool) (w : TurnContext) :
    ∃ s', s.finishActivation ok w = some s' ∧ s'.Owned capacity 0 none := by
  rw [WorkerSession.finishActivation]
  split
  · next id upstream replacement permit ha =>
    obtain ⟨hid, hnew⟩ := H.pending _ ha
    have Htaken := H.takeActivation ha
    obtain ⟨Hfailed, hnone, hfailed⟩ := H.dropActivation
    split
    · next rest hphase =>
      have hopen : s.phase.isOpen = true := by rw [hphase]; rfl
      cases ok with
      | true =>
        obtain ⟨s', hs', H', hphase', hnone⟩ :=
          Htaken.admitUpstream permit hopen rfl hid hnew upstream none
        refine ⟨_, by rw [if_pos rfl, hs', Option.map_some], ?_⟩
        exact H'.admitNext (hphase' ▸ hopen) hnone w.hasDeliveryWork rest
      | false =>
        refine ⟨_, by rw [if_neg Bool.false_ne_true, Option.map_some], ?_⟩
        exact Hfailed.admitNext (hfailed ▸ hopen) hnone w.hasDeliveryWork rest
    · next hphase =>
      have hopen : s.phase.isOpen = true := by rw [hphase]; rfl
      split
      · obtain ⟨s', hs', H', -⟩ :=
          Htaken.admitUpstream permit hopen rfl hid hnew upstream replacement
        exact ⟨s', hs', H'⟩
      · exact ⟨_, rfl, Hfailed⟩
    · exact ⟨s, rfl, H⟩
  · exact ⟨s, rfl, H⟩

theorem Owned.followPeerPool (H : s.Owned capacity 0 none) (hphase : s.phase = .between)
    (upstreams : List ConnectedUpstream) (valid hasDeliveryWork : Bool) :
    (s.followPeerPool upstreams valid hasDeliveryWork).Owned capacity 0 none := by
  have hpeers : s.peers = ∅ := H.quiet (by rw [hphase]; rfl)
  have hnone : s.activation = none := H.idle (by rw [hphase]; rfl)
  have hstopped : s.phase.stopped = [] := by rw [hphase]; rfl
  have hpopped : s.phase.popped = [] := by rw [hphase]; rfl
  have hstopping : s.phase.isStopping = false := by rw [hphase]; rfl
  -- The ids restart: no worker of an earlier pool is registered.
  have hactive : ∀ id, s.workers.active.contains id = false := fun id => by
    refine Bool.eq_false_iff.mpr fun h => ?_
    rcases H.owned hstopping id h with h | ⟨p, hp⟩
    · rw [hpeers] at h
      cases h
    · cases hp
  rw [WorkerSession.followPeerPool]
  split
  · exact H.setPhase hstopped hpopped (.inl hstopping) rfl rfl (fun _ => hpeers) fun _ => hnone
  · split
    · exact H
    · next hne =>
      have hfresh : { s with peers := ∅, nextPeerId := 1 }.Owned capacity 0 none :=
        { peers := fun _ h => (by cases h)
          stopped := H.stopped
          distinct := H.distinct
          owned := fun _ id hid => by
            have hid' : s.workers.active.contains id = true := hid
            rw [hactive] at hid'
            cases hid'
          quiet := fun _ => rfl
          idle := H.idle
          below := fun id hid => by
            have hid' : s.workers.active.contains id = true := hid
            rw [hactive] at hid'
            cases hid'
          pending := fun a ha => by
            have ha' : s.activation = some a := ha
            rw [hnone] at ha'
            cases ha'
          joins := fun _ _ h => (by cases h)
          permits := H.permits
          kept := fun t w hw => by
            have hkept := H.kept t w hw
            rw [Keeps, hpeers] at hkept
            exact hkept
          fresh := H.fresh
          books := H.books }
      cases upstreams with
      | nil => exact absurd rfl hne
      | cons upstream rest =>
        have H' := hfresh.setPhase (p := .opening rest) hstopped hpopped (.inl hstopping) rfl rfl
          (fun h => by cases h) fun h => (by cases h)
        exact H'.beginActivation hnone rfl upstream none

theorem Owned.onRefill (H : s.Owned capacity 0 none) (hphase : s.phase = .actor)
    (upstream : ConnectedUpstream) (w : TurnContext) :
    (s.onRefill upstream w).Owned capacity 0 none := by
  have hmay : s.phase.mayActivate = true := by rw [hphase]; rfl
  simp only [WorkerSession.onRefill]
  split
  · exact H
  · next hbusy =>
    have hnone : s.activation = none := by
      cases hactivation : s.activation with
      | none => rfl
      | some a => simp [hactivation] at hbusy
    split_ifs
    all_goals first | exact H | exact H.beginActivation hnone hmay upstream _

theorem Owned.handlePoolPeerLoss (H : s.Owned capacity 0 none) (id : Nat) (w : TurnContext) :
    ∃ s', s.handlePoolPeerLoss id w = some s' ∧ s'.Owned capacity 0 none ∧ s.Retires s' := by
  have hfold : ∀ (ids : List Nat) {s : WorkerSession}, s.Owned capacity 0 none →
      ∃ s', ids.foldlM (fun s id => s.dropPeerRuntime id) s = some s' ∧
        s'.Owned capacity 0 none ∧ s.Retires s' := by
    intro ids
    induction ids with
    | nil => exact fun H => ⟨_, rfl, H, .refl⟩
    | cons id ids ih =>
      intro s H
      obtain ⟨s', hs', H', hframe⟩ := H.dropPeerRuntime id
      obtain ⟨s'', hs'', H'', hframe'⟩ := ih H'
      refine ⟨s'', ?_, H'', hframe.trans hframe'⟩
      rw [List.foldlM_cons, hs']
      exact hs''
  obtain ⟨s', hs', H', hframe⟩ := H.dropPeerRuntime id
  rw [WorkerSession.handlePoolPeerLoss, hs', Option.bind_eq_bind, Option.bind_some]
  split
  · obtain ⟨s'', hs'', H'', hframe'⟩ := hfold _ H'
    exact ⟨s'', hs'', H'', hframe.trans hframe'⟩
  · exact ⟨s', rfl, H', hframe⟩

theorem Owned.onLost (H : s.Owned capacity 0 none) (hphase : s.phase = .actor) (id addr : Nat)
    (w : TurnContext) : ∃ s', s.onLost id addr w = some s' ∧ s'.Owned capacity 0 none := by
  rw [WorkerSession.onLost]
  split
  · obtain ⟨s', hs', H', hframe⟩ := H.handlePoolPeerLoss id w
    rw [hs', Option.map_some]
    refine ⟨_, rfl, ?_⟩
    split
    · refine H'.shutdownPeerPool ?_ ?_ false
      all_goals
        rw [hframe.phase, hphase]
        rfl
    · exact H'
  · exact ⟨s, rfl, H⟩

theorem Owned.modifyPeer (H : s.Owned capacity 0 none) (id : Nat)
    {f : WorkerRuntime → WorkerRuntime} (hf : ∀ r, (f r).worker = r.worker) :
    { s with peers := s.peers.modify id f }.Owned capacity 0 none where
  peers k hk := H.peers k (by rwa [← OrderedMap.contains_modify])
  stopped := H.stopped
  distinct := H.distinct
  owned hstopping k hk := by
    rw [OrderedMap.contains_modify]
    exact H.owned hstopping k hk
  quiet h := by
    rw [H.quiet h]
    rfl
  idle := H.idle
  below := H.below
  pending := H.pending
  joins _ _ h := by cases h
  permits := H.permits
  kept t w hw := by
    refine (H.kept t w hw).imp_left fun ⟨k, r, hr, ht, hp⟩ => ?_
    by_cases hk : k = id
    · subst hk
      exact ⟨k, f r, by rw [OrderedMap.get?_modify_self, hr]; rfl, (hf r).trans ht, hp⟩
    · exact ⟨k, r, by rw [OrderedMap.get?_modify_of_ne _ _ hk, hr], ht, hp⟩
  fresh := H.fresh
  books := H.books

theorem Owned.taskEnds (H : s.Owned capacity 0 none) (task : Nat) :
    { s with tasks := s.tasks.modify task fun t => { t with finished := true } }.Owned
      capacity 0 none := by
  have hold {t : Nat} {w : WorkerTask}
      (hw : (s.tasks.modify task fun t => { t with finished := true }).get? t = some w) :
      ∃ w', s.tasks.get? t = some w' ∧ w'.permit = w.permit := by
    rw [OrderedMap.get?_modify] at hw
    split at hw
    · obtain ⟨w', hw', rfl⟩ := Option.map_eq_some_iff.mp hw
      exact ⟨w', hw', rfl⟩
    · exact ⟨w, hw, rfl⟩
  exact {
    toRegistered := H.toRegistered
    toWrites := H.toWrites
    permits := H.permits
    kept := fun t w hw => by
      obtain ⟨w', hw', hpermit⟩ := hold hw
      exact hpermit ▸ H.kept t w' hw'
    fresh := fun t w hw => by
      obtain ⟨w', hw', -⟩ := hold hw
      exact H.fresh t w' hw'
    books := H.books }

theorem Owned.inActor (H : s.Owned capacity 0 none) {turn : Option WorkerSession}
    (hturn : s.phase = .actor → ∃ s', turn = some s' ∧ s'.Owned capacity 0 none) :
    ∃ s', s.inActor turn = some s' ∧ s'.Owned capacity 0 none := by
  rw [WorkerSession.inActor]
  split
  · next hphase => exact hturn hphase
  · exact ⟨s, rfl, H⟩

theorem Owned.onEnds (H : s.Owned capacity 0 none) (gone : Bool) :
    (s.onEnds gone).Owned capacity 0 none := by
  rw [WorkerSession.onEnds]
  split
  · next rest hphase =>
    split
    · exact H.shutdownPeerPool (by rw [hphase]; rfl) (by rw [hphase]; rfl) true
    · exact H
  · next hphase => exact H.shutdownPeerPool (by rw [hphase]; rfl) (by rw [hphase]; rfl) gone
  · exact H

/-- No assertion fails in a step, and the books stay in order. -/
theorem Owned.step (H : s.Owned capacity 0 none) (event : WorkerEvent) :
    ∃ s', s.step event = some s' ∧ s'.Owned capacity 0 none := by
  cases event with
  | connected upstreams valid w =>
    rw [WorkerSession.step]
    split
    · next hphase => exact ⟨_, rfl, H.followPeerPool hphase upstreams valid w.hasDeliveryWork⟩
    · exact ⟨s, rfl, H⟩
  | acquire => exact ⟨_, rfl, H.onAcquire⟩
  | written ok w => exact H.finishActivation ok w
  | refill upstream w =>
    exact H.inActor fun hphase => ⟨_, rfl, H.onRefill hphase upstream w⟩
  | window id | produced id => exact ⟨_, rfl, H.modifyPeer id fun _ => rfl⟩
  | lost id addr w => exact H.inActor fun hphase => H.onLost hphase id addr w
  | noSender =>
    refine H.inActor fun hphase => ⟨_, rfl, ?_⟩
    split
    · exact H
    · exact H.shutdownCurrentWorkers (by rw [hphase]; rfl) (by rw [hphase]; rfl)
        fun _ h => (by cases h)
  | stale =>
    refine H.inActor fun hphase => ⟨_, rfl, ?_⟩
    exact H.shutdownCurrentWorkers (by rw [hphase]; rfl) (by rw [hphase]; rfl)
      fun _ h => (by cases h)
  | ends gone => exact ⟨_, rfl, H.onEnds gone⟩
  | cleanup seen => exact H.inActor fun _ => ⟨_, rfl, H.onCleanup seen⟩
  | joined => exact ⟨_, rfl, H.onJoined⟩
  | released w => exact ⟨_, rfl, H.onReleased w⟩
  | taskEnds task => exact ⟨_, rfl, H.taskEnds task⟩
  | consumerCloses =>
    exact ⟨_, rfl, ⟨H.toRegistered, H.toWrites, H.permits, H.kept, H.fresh, H.books⟩⟩

theorem Owned.run (H : s.Owned capacity 0 none) (events : List WorkerEvent) :
    ∃ s', run stepAll (some s) events = some s' ∧ s'.Owned capacity 0 none := by
  refine run_invariant (I := fun o => ∃ s', o = some s' ∧ s'.Owned capacity 0 none) ?_ ⟨s, rfl, H⟩
    events
  rintro _ event ⟨s', rfl, H'⟩
  exact H'.step event

/-! ### What the books say -/

/-- The peers and the stopped workers each have a permit of their own. -/
theorem Owned.size_active (H : s.Owned capacity hand joining) :
    s.peers.size + s.phase.stopped.length ≤ s.workers.active.size := by
  have hsub {ids : List Nat} (hnodup : ids.Nodup)
      (h : ∀ id ∈ ids, s.workers.active.contains id = true) :
      ids.length ≤ s.workers.active.size := by
    have hkeys : ids ⊆ s.workers.active.keys := fun id hid =>
      OrderedMap.mem_keys.mpr (OrderedMap.contains_iff.mp (h id hid))
    simpa [OrderedMap.keys, OrderedMap.size] using (List.subperm_of_subset hnodup hkeys).length_le
  cases hstopping : s.phase.isStopping with
  | false =>
    rw [PoolPhase.stopped_of_isStopping hstopping]
    have h := hsub s.peers.keys_nodup fun id hid =>
      H.peers id (OrderedMap.contains_iff.mpr (OrderedMap.mem_keys.mp hid))
    simpa [OrderedMap.keys, OrderedMap.size] using h
  | true =>
    have hpeers : s.peers = ∅ := H.quiet (by
      cases hphase : s.phase with
      | stopping => rfl
      | _ => rw [hphase] at hstopping; cases hstopping)
    rw [hpeers]
    have h := hsub H.distinct fun id hid => by
      obtain ⟨e, he, rfl⟩ := List.mem_map.mp hid
      exact H.stopped e he
    rw [List.length_map] at h
    exact (Nat.zero_add _).trans_le h

/-- Each task that was not joined is the worker of a runtime that the session has. -/
theorem Owned.size_tasks (H : s.Owned capacity hand joining) :
    s.tasks.size ≤ s.peers.size + s.phase.stopped.length + s.leaving.length := by
  have hsub : s.tasks.keys ⊆ s.peers.values.map (·.worker) ++
      s.phase.stopped.map (·.2.worker) ++ s.leaving.map (·.1.worker) := fun t ht => by
    obtain ⟨w, hw⟩ := OrderedMap.mem_keys.mp ht
    rw [List.mem_append, List.mem_append]
    rcases H.kept t w hw with ⟨id, r, hr, ht, -⟩ | ⟨e, he, ht, -⟩ | ⟨e, he, ht, -⟩
    · exact .inl (.inl (List.mem_map.mpr ⟨r, OrderedMap.mem_values.mpr ⟨id, hr⟩, ht⟩))
    · exact .inl (.inr (List.mem_map.mpr ⟨e, he, ht⟩))
    · exact .inr (List.mem_map.mpr ⟨e, he, ht⟩)
  simpa [OrderedMap.keys, OrderedMap.values, OrderedMap.size, Nat.add_assoc] using
    (List.subperm_of_subset s.tasks.keys_nodup hsub).length_le

/-- Between the turns of every run, over all its pools, no assertion has failed and the registered
permits are those of the peers; at every point a task that was not joined has its permit, and these
tasks and the prepared writes are no more than the capacity. -/
theorem worker_permits_match (maxActiveUpstreams maxParallelConnect : Nat)
    (events : List WorkerEvent) :
    ∃ s, run stepAll (some (start maxActiveUpstreams maxParallelConnect)) events = some s ∧
      (s.phase.isStopping = false →
        ∀ id, s.workers.active.contains id = true ↔ s.peers.contains id = true) ∧
      (∀ t w, s.tasks.get? t = some w → s.Keeps t w.permit) ∧
      s.tasks.size + s.prepared ≤ permitCapacity maxActiveUpstreams maxParallelConnect := by
  obtain ⟨s, hs, H⟩ := (Owned.start maxActiveUpstreams maxParallelConnect).run events
  refine ⟨s, hs, fun hstopping id => ⟨fun hid => ?_, H.peers id⟩, H.kept, ?_⟩
  · rcases H.owned hstopping id hid with h | ⟨p, hp⟩
    · exact h
    · cases hp
  · have hbooks := H.books
    have hactive := H.size_active
    have htasks := H.size_tasks
    omega

end WorkerSession
end Outpace.Swarm.Live

import Mathlib.Data.List.Nodup
import Outpace.Data.Machine
import Outpace.Data.OrderedMap
import Outpace.Data.Run

/-!
# The serve coordinator

`Choker` and `ServeCoordinator` of `ace-swarm/src/seed.rs`. A call changes the state under one hold
of the lock and recomputes the signals under another; in between other calls may run. Whoever
recomputes last does so after the last change, so the signals agree with the policy whenever no call
is in progress. The counters of ids and ticks are words that wrap (with overflow checks a tick after
the last one panics), and `usize` has 64 bits, so that its cast keeps a tick.
-/

namespace Outpace.Swarm

structure Choker where
  maxUnchoked : Nat

/-- `Choker::choose`. -/
def Choker.choose (c : Choker) (interested : List Nat) (tick : UInt64) : List Nat :=
  let out := interested.take c.maxUnchoked
  let rest := interested.drop out.length
  if h : 0 < rest.length then out ++ [rest.get ⟨tick.toNat % rest.length, Nat.mod_lt _ h⟩] else out

/-- A `watch::Sender<bool>`: its value, and whether the connection still has the receiver. -/
structure WatchSender where
  value : Bool
  receiver : Bool
  deriving DecidableEq

/-- A send without a receiver fails and leaves the value. -/
def WatchSender.send (tx : WatchSender) (value : Bool) : WatchSender :=
  if tx.receiver then { tx with value := value } else tx

structure CoordState where
  interested : List Nat := []
  senders : OrderedMap Nat WatchSender := ∅
  tick : UInt64 := 0

namespace CoordState

/-- What `join` does with an id, under the lock. -/
def join (st : CoordState) (id : Nat) : CoordState :=
  { st with senders := st.senders.insert id ⟨false, true⟩ }

/-- `set_interested`, up to the recompute. -/
def setInterested (st : CoordState) (peer : Nat) (interested : Bool) : CoordState :=
  if interested then
    if peer ∈ st.interested then st else { st with interested := st.interested ++ [peer] }
  else { st with interested := st.interested.erase peer }

/-- `leave`, up to the recompute. -/
def leave (st : CoordState) (peer : Nat) : CoordState :=
  { st with senders := st.senders.erase peer, interested := st.interested.erase peer }

/-- `rechoke`, up to the recompute. -/
def rechoke (st : CoordState) : CoordState := { st with tick := st.tick + 1 }

def recompute (choker : Choker) (st : CoordState) : CoordState :=
  let chosen := choker.choose st.interested st.tick
  { st with
    senders := st.senders.mapVal fun id tx =>
      let want := chosen.contains id
      if tx.value ≠ want then tx.send want else tx }

/-- A whole `rechoke` with nothing in between. -/
def rechokeCall (choker : Choker) (st : CoordState) : CoordState := st.rechoke.recompute choker

/-- The peers whose signal is on. -/
def unchoked (st : CoordState) : List Nat :=
  (st.senders.entries.filter fun e => e.2.value).map (·.1)

end CoordState

/-- What a call in progress still has to do. -/
inductive PendingCall where
  /-- `join` has its id and has not registered it. -/
  | insert (id : Nat)
  | recompute
  deriving DecidableEq

/-- The coordinator and the calls in progress, on any number of threads. -/
structure ServeCoordinator where
  choker : Choker
  nextId : UInt64 := 1
  state : CoordState := {}
  inProgress : List PendingCall := []

inductive ServeStep where
  | takeId
  | insert (id : Nat)
  | setInterested (peer : Nat) (interested : Bool)
  | leave (peer : Nat)
  | rechoke
  | recompute
  /-- The connection drops its receiver. -/
  | dropReceiver (peer : Nat)
  deriving DecidableEq

namespace ServeCoordinator

def new (maxUnchoked : Nat) : ServeCoordinator := { choker := ⟨maxUnchoked⟩ }

/-- A change of the state that is to be followed by a recompute. -/
def change (s : ServeCoordinator) (state : CoordState) : ServeCoordinator :=
  { s with state, inProgress := .recompute :: s.inProgress }

def step (s : ServeCoordinator) : ServeStep → ServeCoordinator
  | .takeId =>
    { s with nextId := s.nextId + 1, inProgress := .insert s.nextId.toNat :: s.inProgress }
  | .insert id =>
    if .insert id ∈ s.inProgress then
      { s with state := s.state.join id, inProgress := s.inProgress.erase (.insert id) }
    else s
  | .setInterested peer interested => s.change (s.state.setInterested peer interested)
  | .leave peer => s.change (s.state.leave peer)
  | .rechoke => s.change s.state.rechoke
  | .recompute =>
    if .recompute ∈ s.inProgress then
      { s with state := s.state.recompute s.choker, inProgress := s.inProgress.erase .recompute }
    else s
  | .dropReceiver peer =>
    { s with
      state := { s.state with
        senders := s.state.senders.modify peer fun tx => { tx with receiver := false } } }

/-- Interest is reported for joined peers only, and ids are not used up. -/
def Orderly (s : ServeCoordinator) : ServeStep → Prop
  | .takeId => s.nextId.toNat + 1 ≤ u64Max
  | .setInterested peer _ => s.state.senders.contains peer = true
  | _ => True

end ServeCoordinator

namespace Choker
variable (c : Choker) (interested : List Nat) (tick : UInt64)

theorem drop_length_take : interested.drop (interested.take c.maxUnchoked).length =
    interested.drop c.maxUnchoked := by
  rw [List.length_take]
  by_cases h : c.maxUnchoked ≤ interested.length
  · rw [Nat.min_eq_left h]
  · rw [Nat.min_eq_right (Nat.le_of_not_le h), List.drop_length,
      List.drop_eq_nil_of_le (Nat.le_of_not_le h)]

/-- The first peers, and the one whose turn it is among the others. -/
theorem choose_eq : c.choose interested tick = interested.take c.maxUnchoked ++
    ((interested.drop c.maxUnchoked)[tick.toNat %
      (interested.drop c.maxUnchoked).length]?).toList := by
  rw [← drop_length_take]
  unfold choose
  dsimp only
  split
  · next h =>
    rw [List.getElem?_eq_getElem (Nat.mod_lt tick.toNat h)]
    rfl
  · next h =>
    rw [List.length_eq_zero_iff.mp (Nat.eq_zero_of_not_pos h)]
    exact (List.append_nil _).symm

theorem choose_sublist : (c.choose interested tick).Sublist interested := by
  have hrest : ∀ (l : List Nat) (i : Nat), (l[i]?).toList.Sublist l := by
    intro l i
    cases h : l[i]? with
    | none => exact List.nil_sublist l
    | some x => exact List.singleton_sublist.mpr (List.mem_of_getElem? h)
  rw [choose_eq]
  conv => rhs; rw [← List.take_append_drop c.maxUnchoked interested]
  exact (List.Sublist.refl _).append (hrest _ _)

theorem length_choose :
    (c.choose interested tick).length = min interested.length (c.maxUnchoked + 1) := by
  rw [choose_eq, List.length_append, List.length_take]
  cases h : (interested.drop c.maxUnchoked)[tick.toNat %
      (interested.drop c.maxUnchoked).length]? with
  | none =>
    have hlen := List.getElem?_eq_none_iff.mp h
    have hmod := Nat.mod_lt tick.toNat (y := (interested.drop c.maxUnchoked).length)
    rw [List.length_drop] at hlen hmod
    simp only [Option.toList_none, List.length_nil]
    omega
  | some x =>
    obtain ⟨hlt, -⟩ := List.getElem?_eq_some_iff.mp h
    rw [List.length_drop] at hlt
    simp only [Option.toList_some, List.length_singleton]
    omega

/-- Any `n` ticks in a row give every residue modulo `n`. -/
theorem exists_tick (tick : Nat) {n j : Nat} (hj : j < n) : ∃ i < n, (tick + i) % n = j := by
  have hn : 0 < n := Nat.zero_lt_of_lt hj
  refine ⟨(j + (n - tick % n)) % n, Nat.mod_lt _ hn, ?_⟩
  have hlt := Nat.mod_lt tick hn
  calc (tick + (j + (n - tick % n)) % n) % n
      = (tick % n + (j + (n - tick % n))) % n := by rw [Nat.add_mod_mod, Nat.mod_add_mod]
    _ = (j + n) % n := by congr 1; omega
    _ = j := by rw [Nat.add_mod_right, Nat.mod_eq_of_lt hj]

theorem exists_choose {peer : Nat} (h : peer ∈ interested.drop c.maxUnchoked) (n : Nat) :
    ∃ i < (interested.drop c.maxUnchoked).length,
      ∀ tick : UInt64, tick.toNat = n + i → peer ∈ c.choose interested tick := by
  obtain ⟨j, hj⟩ := List.getElem?_of_mem h
  obtain ⟨hlt, -⟩ := List.getElem?_eq_some_iff.mp hj
  obtain ⟨i, hi, hmod⟩ := exists_tick n hlt
  refine ⟨i, hi, fun tick htick => ?_⟩
  rw [choose_eq, htick, hmod, hj]
  exact List.mem_append_right _ (List.mem_singleton.mpr rfl)

end Choker

namespace CoordState
variable {st : CoordState} {choker : Choker} {peer : Nat} {tx : WatchSender}

/-- The signals of all peers that can be told are as the policy wants them. -/
def Matched (choker : Choker) (st : CoordState) : Prop :=
  st.senders.All fun id tx => tx.receiver = true →
    (tx.value = true ↔ id ∈ choker.choose st.interested st.tick)

/-- The interested list: joined peers, once each. -/
structure Listed (st : CoordState) : Prop where
  nodup : st.interested.Nodup
  joined : ∀ peer ∈ st.interested, st.senders.contains peer = true

theorem Listed.setInterested (H : st.Listed) (h : st.senders.contains peer = true)
    (interested : Bool) : (st.setInterested peer interested).Listed := by
  unfold CoordState.setInterested
  split
  · split
    · exact H
    · next hnew =>
      refine ⟨List.nodup_append.mpr ⟨H.nodup, List.nodup_singleton _, ?_⟩, fun p hp => ?_⟩
      · rintro p hp q hq rfl
        exact hnew (List.mem_singleton.mp hq ▸ hp)
      · rcases List.mem_append.mp hp with hp | hp
        · exact H.joined p hp
        · rw [List.mem_singleton.mp hp]
          exact h
  · exact ⟨H.nodup.erase peer, fun p hp => H.joined p (List.mem_of_mem_erase hp)⟩

theorem Listed.leave (H : st.Listed) (peer : Nat) : (st.leave peer).Listed := by
  refine ⟨H.nodup.erase peer, fun p hp => ?_⟩
  obtain ⟨hne, hp⟩ := (H.nodup.mem_erase_iff).mp hp
  show (st.senders.erase peer).contains p = true
  rw [OrderedMap.contains_erase, Function.update_of_ne hne]
  exact H.joined p hp

theorem Listed.join (H : st.Listed) (id : Nat) : (st.join id).Listed := by
  refine ⟨H.nodup, fun p hp => ?_⟩
  show (st.senders.insert id ⟨false, true⟩).contains p = true
  rw [OrderedMap.contains_insert, Function.update_apply]
  split
  · rfl
  · exact H.joined p hp

theorem contains_recompute (id : Nat) :
    (st.recompute choker).senders.contains id = st.senders.contains id := by
  simp [recompute, OrderedMap.contains]

theorem get?_recompute {id : Nat} (h : st.senders.get? id = some tx) (hrx : tx.receiver = true) :
    (st.recompute choker).senders.get? id =
      some { tx with value := (choker.choose st.interested st.tick).contains id } := by
  rw [recompute, OrderedMap.get?_mapVal, h, Option.map_some]
  dsimp only
  congr 1
  split
  · exact if_pos hrx
  · next hsame =>
    rw [← not_not.mp hsame]

theorem receiver_recompute {id : Nat} (h : (st.recompute choker).senders.get? id = some tx) :
    ∃ tx', st.senders.get? id = some tx' ∧ tx'.receiver = tx.receiver := by
  rw [recompute, OrderedMap.get?_mapVal] at h
  obtain ⟨tx', htx, rfl⟩ := Option.map_eq_some_iff.mp h
  refine ⟨tx', htx, ?_⟩
  dsimp only
  split
  · unfold WatchSender.send
    split
    · rfl
    · rfl
  · rfl

/-- A recompute sets the signals right, whatever they were. -/
theorem matched_recompute (choker : Choker) (st : CoordState) :
    Matched choker (st.recompute choker) := by
  intro id tx h hrx
  obtain ⟨tx', htx, hsame⟩ := receiver_recompute h
  rw [get?_recompute htx (hsame.trans hrx)] at h
  cases h
  exact List.contains_iff_mem

/-- A new peer starts choked, and it is not chosen before it is interested. -/
theorem Matched.join (M : Matched choker st) (H : st.Listed) {id : Nat}
    (hnew : st.senders.contains id = false) : Matched choker (st.join id) := by
  refine OrderedMap.All.insert M fun _ => ⟨fun h => (by cases h), fun h => ?_⟩
  have hjoined := H.joined id ((choker.choose_sublist _ _).subset h)
  rw [hnew] at hjoined
  cases hjoined

theorem mem_unchoked : peer ∈ st.unchoked ↔ ∃ tx, st.senders.get? peer = some tx ∧ tx.value = true := by
  simp only [unchoked, List.mem_map, List.mem_filter, OrderedMap.mem_entries_iff, Prod.exists,
    exists_and_right, exists_eq_right]

theorem nodup_unchoked (st : CoordState) : st.unchoked.Nodup :=
  st.senders.keys_nodup.sublist (List.filter_sublist.map _)

theorem length_unchoked (M : Matched choker st) (H : st.Listed)
    (hrx : st.senders.All fun _ tx => tx.receiver = true) :
    st.unchoked.length = min st.interested.length (choker.maxUnchoked + 1) := by
  have hsub := choker.choose_sublist st.interested st.tick
  rw [← choker.length_choose st.interested st.tick]
  refine ((List.perm_ext_iff_of_nodup st.nodup_unchoked (H.nodup.sublist hsub)).mpr fun p => ?_).length_eq
  rw [mem_unchoked]
  constructor
  · rintro ⟨tx, htx, hon⟩
    exact (M p tx htx (hrx p tx htx)).mp hon
  · intro hp
    obtain ⟨tx, htx⟩ := OrderedMap.contains_iff.mp (H.joined p (hsub.subset hp))
    exact ⟨tx, htx, (M p tx htx (hrx p tx htx)).mpr hp⟩

theorem mem_unchoked_rechokeCall (htx : st.senders.get? peer = some tx) (hrx : tx.receiver = true)
    (h : peer ∈ choker.choose st.interested (st.tick + 1)) :
    peer ∈ (st.rechokeCall choker).unchoked := by
  have hrechoke : st.rechoke.senders.get? peer = some tx := htx
  exact mem_unchoked.mpr ⟨_, get?_recompute hrechoke hrx, List.contains_iff_mem.mpr h⟩

theorem toNat_succ {n : UInt64} (h : n.toNat + 1 ≤ u64Max) : (n + 1).toNat = n.toNat + 1 := by
  rw [UInt64.toNat_add]
  exact Nat.mod_eq_of_lt (Nat.lt_of_le_of_lt h (by decide))

/-- With the interest fixed, a peer beyond the first ones gets its turn within one round, if the
ticks do not wrap in it. -/
theorem exists_rechoke (h : peer ∈ st.interested.drop choker.maxUnchoked)
    (htx : st.senders.get? peer = some tx) (hrx : tx.receiver = true)
    (hmax : st.tick.toNat + (st.interested.drop choker.maxUnchoked).length ≤ u64Max) :
    ∃ i < (st.interested.drop choker.maxUnchoked).length,
      peer ∈ ((rechokeCall choker)^[i + 1] st).unchoked := by
  have hcalls : ∀ i, st.tick.toNat + i ≤ u64Max →
      ((rechokeCall choker)^[i] st).interested = st.interested ∧
      ((rechokeCall choker)^[i] st).tick.toNat = st.tick.toNat + i ∧
      ∃ tx, ((rechokeCall choker)^[i] st).senders.get? peer = some tx ∧ tx.receiver = true := by
    intro i hi
    induction i with
    | zero => exact ⟨rfl, rfl, tx, htx, hrx⟩
    | succ i ih =>
      obtain ⟨hint, htick, tx, htx, hrx⟩ := ih (Nat.le_of_succ_le hi)
      rw [Function.iterate_succ_apply']
      refine ⟨hint, ?_, _, get?_recompute htx hrx, hrx⟩
      exact (toNat_succ (by omega)).trans (congrArg (· + 1) htick)
  obtain ⟨i, hi, hchosen⟩ := choker.exists_choose st.interested h (st.tick.toNat + 1)
  obtain ⟨hint, htick, tx, htx, hrx⟩ := hcalls i (by omega)
  refine ⟨i, hi, ?_⟩
  rw [Function.iterate_succ_apply']
  refine mem_unchoked_rechokeCall htx hrx ?_
  rw [hint]
  exact hchosen _ ((toNat_succ (by omega)).trans (by omega))

end CoordState

namespace ServeCoordinator
variable {s : ServeCoordinator}

structure Good (s : ServeCoordinator) : Prop where
  listed : s.state.Listed
  /-- The signals are right, or somebody is still to set them. -/
  matched : .recompute ∈ s.inProgress ∨ s.state.Matched s.choker
  joined_lt : ∀ id, s.state.senders.contains id = true → id < s.nextId.toNat
  inserts : ∀ id, .insert id ∈ s.inProgress →
    id < s.nextId.toNat ∧ s.state.senders.contains id = false
  once : ∀ id, s.inProgress.count (.insert id) ≤ 1

theorem Good.new (maxUnchoked : Nat) : (new maxUnchoked).Good where
  listed := ⟨List.nodup_nil, fun _ h => (by cases h)⟩
  matched := .inr .empty
  joined_lt _ h := by cases h
  inserts _ h := by cases h
  once _ := Nat.zero_le _

/-- A change that adds no peer leaves its recompute to be done. -/
theorem Good.change (H : s.Good) {state : CoordState} (hlisted : state.Listed)
    (hjoined : ∀ id, state.senders.contains id = true → s.state.senders.contains id = true) :
    (s.change state).Good where
  listed := hlisted
  matched := .inl List.mem_cons_self
  joined_lt id h := H.joined_lt id (hjoined id h)
  inserts id h := by
    rcases List.mem_cons.mp h with h | h
    · cases h
    · obtain ⟨hlt, hnew⟩ := H.inserts id h
      refine ⟨hlt, Bool.eq_false_iff.mpr fun h => ?_⟩
      rw [hjoined id h] at hnew
      cases hnew
  once id := by
    rw [ServeCoordinator.change, List.count_cons_of_ne (by intro h; cases h)]
    exact H.once id

theorem Good.takeId (H : s.Good) (hmax : s.nextId.toNat + 1 ≤ u64Max) :
    (s.step .takeId).Good where
  listed := H.listed
  matched := H.matched.imp_left (List.mem_cons_of_mem _)
  joined_lt id h := by
    show id < (s.nextId + 1).toNat
    rw [CoordState.toNat_succ hmax]
    exact Nat.lt_succ_of_lt (H.joined_lt id h)
  inserts id h := by
    show id < (s.nextId + 1).toNat ∧ _
    rw [CoordState.toNat_succ hmax]
    rcases List.mem_cons.mp h with h | h
    · cases h
      refine ⟨Nat.lt_succ_self _, Bool.eq_false_iff.mpr fun h => ?_⟩
      exact Nat.lt_irrefl _ (H.joined_lt _ h)
    · exact ⟨Nat.lt_succ_of_lt (H.inserts id h).1, (H.inserts id h).2⟩
  once id := by
    show (PendingCall.insert s.nextId.toNat :: s.inProgress).count (.insert id) ≤ 1
    rw [List.count_cons]
    split
    · next heq =>
      obtain rfl : s.nextId.toNat = id := by injection beq_iff_eq.mp heq
      rw [List.count_eq_zero_of_not_mem fun h => Nat.lt_irrefl _ (H.inserts _ h).1]
    · exact H.once id

theorem Good.insert (H : s.Good) {id : Nat} (hid : .insert id ∈ s.inProgress) :
    ({ s with state := s.state.join id, inProgress := s.inProgress.erase (.insert id) } :
      ServeCoordinator).Good where
  listed := H.listed.join id
  matched := by
    refine H.matched.imp (fun h => ?_) fun M => M.join H.listed (H.inserts id hid).2
    exact (List.mem_erase_of_ne (by intro h; cases h)).mpr h
  joined_lt p h := by
    have hp : (s.state.senders.insert id ⟨false, true⟩).contains p = true := h
    rw [OrderedMap.contains_insert, Function.update_apply] at hp
    split at hp
    · next heq => exact heq ▸ (H.inserts id hid).1
    · exact H.joined_lt p hp
  inserts p h := by
    have hne : p ≠ id := by
      rintro rfl
      have hcount := List.count_pos_iff.mpr h
      rw [List.count_erase_self] at hcount
      have := H.once p
      omega
    obtain ⟨hlt, hnew⟩ := H.inserts p (List.mem_of_mem_erase h)
    refine ⟨hlt, ?_⟩
    show (s.state.senders.insert id ⟨false, true⟩).contains p = false
    rw [OrderedMap.contains_insert, Function.update_of_ne hne]
    exact hnew
  once p := (List.erase_sublist.count_le _).trans (H.once p)

theorem Good.recompute (H : s.Good) :
    ({ s with
      state := s.state.recompute s.choker
      inProgress := s.inProgress.erase .recompute } : ServeCoordinator).Good where
  listed := ⟨H.listed.nodup, fun p hp => by
    show (s.state.recompute s.choker).senders.contains p = true
    rw [CoordState.contains_recompute]
    exact H.listed.joined p hp⟩
  matched := .inr (CoordState.matched_recompute _ _)
  joined_lt p h := H.joined_lt p (by rwa [← CoordState.contains_recompute])
  inserts p h := by
    obtain ⟨hlt, hnew⟩ := H.inserts p (List.mem_of_mem_erase h)
    exact ⟨hlt, by rwa [CoordState.contains_recompute]⟩
  once p := (List.erase_sublist.count_le _).trans (H.once p)

theorem Good.dropReceiver (H : s.Good) (peer : Nat) : (s.step (.dropReceiver peer)).Good := by
  have hcontains : ∀ p, (s.step (.dropReceiver peer)).state.senders.contains p =
      s.state.senders.contains p := fun p => OrderedMap.contains_modify ..
  refine ⟨⟨H.listed.nodup, fun p hp => ?_⟩, H.matched.imp_right fun M => ?_, fun p h => ?_,
    fun p h => ?_, H.once⟩
  · rw [hcontains]
    exact H.listed.joined p hp
  · exact OrderedMap.All.modify M fun _ _ hrx => (by cases hrx)
  · exact H.joined_lt p (by rwa [← hcontains])
  · rw [hcontains]
    exact H.inserts p h

theorem Good.step (H : s.Good) (a : ServeStep) (h : s.Orderly a) : (s.step a).Good := by
  cases a with
  | takeId => exact H.takeId h
  | insert id =>
    unfold ServeCoordinator.step
    dsimp only
    split
    · next hid => exact H.insert hid
    · exact H
  | setInterested peer interested =>
    refine H.change (H.listed.setInterested h interested) fun id hid => ?_
    unfold CoordState.setInterested at hid
    split at hid
    · split at hid
      · exact hid
      · exact hid
    · exact hid
  | leave peer =>
    refine H.change (H.listed.leave peer) fun id hid => ?_
    have hid : (s.state.senders.erase peer).contains id = true := hid
    rw [OrderedMap.contains_erase, Function.update_apply] at hid
    split at hid
    · cases hid
    · exact hid
  | rechoke => exact H.change ⟨H.listed.nodup, H.listed.joined⟩ fun _ h => h
  | recompute =>
    unfold ServeCoordinator.step
    dsimp only
    split
    · exact H.recompute
    · exact H
  | dropReceiver peer => exact H.dropReceiver peer

/-- Receivers that nobody drops are there. -/
theorem receivers_step (a : ServeStep) (H : s.state.senders.All fun _ tx => tx.receiver = true)
    (h : ∀ peer, a ≠ .dropReceiver peer) :
    (s.step a).state.senders.All fun _ tx => tx.receiver = true := by
  cases a with
  | takeId => exact H
  | insert id =>
    unfold step
    dsimp only
    split
    · exact OrderedMap.All.insert H rfl
    · exact H
  | setInterested peer interested =>
    show (s.state.setInterested peer interested).senders.All _
    unfold CoordState.setInterested
    split
    · split
      · exact H
      · exact H
    · exact H
  | leave peer => exact OrderedMap.All.erase H peer
  | rechoke => exact H
  | recompute =>
    unfold step
    dsimp only
    split
    · intro id tx htx
      obtain ⟨tx', htx', hsame⟩ := CoordState.receiver_recompute htx
      exact hsame ▸ H id tx' htx'
    · exact H
  | dropReceiver peer => exact absurd rfl (h peer)

theorem choker_step (s : ServeCoordinator) (a : ServeStep) : (s.step a).choker = s.choker := by
  cases a with
  | insert id | recompute =>
    unfold step
    dsimp only
    split
    · rfl
    · rfl
  | _ => rfl

theorem choker_run (steps : List ServeStep) (s : ServeCoordinator) :
    (run step s steps).choker = s.choker :=
  run_invariant (I := fun s' => s'.choker = s.choker) (fun s' a h => (choker_step s' a).trans h) rfl
    steps

/-- Whenever no call is in progress, the signals agree with the policy; and every peer beyond the
first ones is unchoked within one round of rechokes whose ticks do not wrap. -/
theorem signals_match_policy (maxUnchoked : Nat) (steps : List ServeStep)
    (h : Meets step Orderly (new maxUnchoked) steps) :
    let s := run step (new maxUnchoked) steps
    (s.inProgress = [] →
      (∀ peer tx, s.state.senders.get? peer = some tx → tx.receiver = true →
        (tx.value = true ↔ peer ∈ (Choker.mk maxUnchoked).choose s.state.interested s.state.tick)) ∧
      s.state.interested.Nodup ∧
      (∀ peer ∈ s.state.interested, s.state.senders.contains peer = true) ∧
      ((∀ peer tx, s.state.senders.get? peer = some tx → tx.receiver = true) →
        s.state.unchoked.length = min s.state.interested.length (maxUnchoked + 1))) ∧
    ((∀ peer, .dropReceiver peer ∉ steps) →
      ∀ peer tx, s.state.senders.get? peer = some tx → tx.receiver = true) ∧
    ∀ (st : CoordState) (peer : Nat) (tx : WatchSender), peer ∈ st.interested.drop maxUnchoked →
      st.senders.get? peer = some tx → tx.receiver = true →
      st.tick.toNat + (st.interested.drop maxUnchoked).length ≤ u64Max →
      ∃ i < (st.interested.drop maxUnchoked).length,
        peer ∈ ((CoordState.rechokeCall ⟨maxUnchoked⟩)^[i + 1] st).unchoked := by
  intro s
  have H : s.Good := run_induction (I := Good) (fun s a H h => H.step a h) (.new maxUnchoked) h
  have hchoker : s.choker = ⟨maxUnchoked⟩ := choker_run steps (new maxUnchoked)
  refine ⟨fun hquiet => ?_, fun hkept => ?_, fun st peer tx hpeer htx hrx hmax => ?_⟩
  · have M : s.state.Matched ⟨maxUnchoked⟩ := by
      rcases H.matched with hpending | M
      · rw [hquiet] at hpending
        cases hpending
      · exact hchoker ▸ M
    exact ⟨M, H.listed.nodup, H.listed.joined, CoordState.length_unchoked M H.listed⟩
  · have hm : Meets step (fun _ a => ∀ peer, a ≠ .dropReceiver peer) (new maxUnchoked) steps :=
      .of_forall fun a ha _ peer heq => hkept peer (heq ▸ ha)
    exact run_induction (I := fun s => s.state.senders.All fun _ tx => tx.receiver = true)
      (fun s a H h => receivers_step a H h) .empty hm
  · exact CoordState.exists_rechoke hpeer htx hrx hmax

/-- Two peers join and become interested at once, each recomputing for both. -/
def twoPeers : List ServeStep :=
  [.takeId, .takeId, .insert 2, .insert 1, .setInterested 2 true, .setInterested 1 true, .recompute,
    .recompute]

theorem signals_match_policy_two :
    (run step (new 1) twoPeers).state.unchoked.length = 2 ∧
      ∃ i < 1, 1 ∈ ((CoordState.rechokeCall ⟨1⟩)^[i + 1]
        (run step (new 1) twoPeers).state).unchoked := by
  have h : Meets step Orderly (new 1) twoPeers := by
    refine ⟨?_, ?_, trivial, trivial, ?_, ?_, trivial, trivial, trivial⟩
    · show _ ≤ _
      decide +kernel
    · show _ ≤ _
      decide +kernel
    · show OrderedMap.contains _ _ = true
      decide +kernel
    · show OrderedMap.contains _ _ = true
      decide +kernel
  obtain ⟨hquiet, hkept, hturn⟩ := signals_match_policy 1 twoPeers h
  have hrx := hkept fun peer => by simp [twoPeers]
  refine ⟨(hquiet (by decide +kernel)).2.2.2 hrx, ?_⟩
  exact hturn (run step (new 1) twoPeers).state 1 ⟨true, true⟩ (by decide +kernel)
    (by decide +kernel) rfl (by decide +kernel)

/-- Three interested peers, two ticks before the last one. -/
def lastTicks : CoordState :=
  [1, 2, 3].foldl (fun st id => (st.join id).setInterested id true) { tick := 18446744073709551613 }

/-- The ticks wrap to zero, and three rechokes choose the third peer, the first and the first. -/
theorem wrapped_tick_skips_peer :
    2 ∈ lastTicks.interested.drop 0 ∧ lastTicks.senders.get? 2 = some ⟨false, true⟩ ∧
      ∀ i < (lastTicks.interested.drop 0).length,
        2 ∉ ((CoordState.rechokeCall ⟨0⟩)^[i + 1] lastTicks).unchoked := by
  decide +kernel

end ServeCoordinator

end Outpace.Swarm

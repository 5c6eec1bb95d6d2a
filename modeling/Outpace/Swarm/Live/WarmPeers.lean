import Mathlib.Data.List.MinMax
import Outpace.Data.Hex
import Outpace.Data.Ipv4
import Outpace.Data.Run

/-!
# Warm peers

The cache of `ace-swarm/src/live_session/warm_peers.rs`: for each infohash the peers that were
productive lately, with limits on the infohashes, on the peers and source peers of each and on all
rows. An insertion reads the clock; here the time is part of the operation, and no order of times is
assumed.
-/

namespace Outpace.Swarm.Live.WarmPeers

abbrev Infohash := { bytes : List UInt8 // bytes.length = 20 }

structure Entry where
  addr : SocketAddrV4
  source : Bool
  atTime : UInt64
  deriving DecidableEq

abbrev Entries := OrderedMap Infohash (List Entry)

def ttl : Nat := 300

def maxInfohashes : Nat := 256

def maxRows : Nat := 3000

def maxPeers : Nat := 16

def maxSources : Nat := 8

/-- Ranges of addresses that are not for public peers. -/
def isReserved (ip : Ipv4Addr) : Bool :=
  -- private, loopback, link-local
  ip.a == 10 || (ip.a == 172 && 16 ≤ ip.b && ip.b ≤ 31) || (ip.a == 192 && ip.b == 168) ||
  ip.a == 127 || (ip.a == 169 && ip.b == 254) ||
  -- documentation
  (ip.a == 192 && ip.b == 0 && ip.c == 2) || (ip.a == 198 && ip.b == 51 && ip.c == 100) ||
  (ip.a == 203 && ip.b == 0 && ip.c == 113) ||
  -- unspecified, broadcast and multicast
  ip == ⟨0, 0, 0, 0⟩ || ip == ⟨255, 255, 255, 255⟩ || (224 ≤ ip.a && ip.a ≤ 239) ||
  ip.a == 0 || 240 ≤ ip.a || (ip.a == 100 && 64 ≤ ip.b && ip.b ≤ 127) ||
  (ip.a == 198 && 18 ≤ ip.b && ip.b ≤ 19)

def endpointAllowed (addr : SocketAddrV4) (allowLoopback : Bool) : Bool :=
  addr.port != 0 && ((allowLoopback && addr.ip.a == 127) || !isReserved addr.ip)

/-- It is neither from the future nor too old. -/
def Entry.fresh (entry : Entry) (time : UInt64) : Bool :=
  decide (entry.atTime.toNat ≤ time.toNat ∧ time.toNat - entry.atTime.toNat ≤ ttl)

def prune (entries : Entries) (time : UInt64) : Entries :=
  (entries.mapVal fun _ peers => peers.filter (·.fresh time)).filter fun _ peers => !peers.isEmpty

/-- The infohash whose latest row is the oldest. -/
def oldestInfohash (entries : Entries) : Option Infohash :=
  (entries.entries.argmin fun e => ((e.2.map (·.atTime.toNat)).max?.getD 0)).map (·.1)

/-- The place of the oldest row. -/
def oldestRow (entries : Entries) : Option (Infohash × Nat) :=
  ((entries.entries.flatMap fun e =>
    e.2.zipIdx.map fun r => (e.1, r.2, r.1.atTime.toNat)).argmin (·.2.2)).map fun r => (r.1, r.2.1)

def rowCount (entries : Entries) : Nat := (entries.values.map List.length).sum

def removeOldestInfohash (entries : Entries) : Entries :=
  match oldestInfohash entries with
  | some old => entries.erase old
  | none => entries

def removeOldestRow (entries : Entries) : Entries :=
  match oldestRow entries with
  | some (old, index) =>
    let peers := ((entries.get? old).getD []).eraseIdx index
    if peers.isEmpty then entries.erase old else entries.insert old peers
  | none => entries

/-- The peers without the oldest of those that satisfy `p`. -/
def removeOldest (p : Entry → Bool) (peers : List Entry) : List Entry :=
  match (peers.zipIdx.filter fun r => p r.1).argmin fun r => r.1.atTime.toNat with
  | some (_, index) => peers.eraseIdx index
  | none => peers

/-- A row goes behind the peers of its infohash. -/
def pushRow (peers : List Entry) (entry : Entry) : List Entry :=
  let peers := peers.eraseP (·.addr == entry.addr)
  let peers :=
    if entry.source && decide (maxSources ≤ peers.countP (·.source)) then
      removeOldest (·.source) peers
    else peers
  let peers := if maxPeers ≤ peers.length then removeOldest (fun _ => true) peers else peers
  peers ++ [entry]

def insert (entries : Entries) (now : UInt64) (hash : Infohash) (entry : Entry) : Entries :=
  let entries := prune entries now
  let previous := ((entries.get? hash).getD []).find? (·.addr == entry.addr)
  if previous.any fun old => decide (entry.atTime < old.atTime) then entries
  else
    let entry := { entry with source := entry.source || previous.any (·.source) }
    let entries :=
      if !entries.contains hash && decide (maxInfohashes ≤ entries.size) then
        removeOldestInfohash entries
      else entries
    let entries :=
      if previous.isNone && decide (maxRows ≤ rowCount entries) then removeOldestRow entries
      else entries
    OrderedMap.insert entries hash (pushRow ((entries.get? hash).getD []) entry)

inductive Op where
  | insert (now : UInt64) (hash : Infohash) (entry : Entry)
  | prune (time : UInt64)

def step (entries : Entries) : Op → Entries
  | .insert now hash entry => insert entries now hash entry
  | .prune time => prune entries time

/-! ### One infohash -/

/-- The limits on the peers of an infohash. -/
structure Bounded (peers : List Entry) : Prop where
  length : peers.length ≤ maxPeers
  sources : peers.countP (·.source) ≤ maxSources
  nodup : (peers.map (·.addr)).Nodup

variable {peers peers' : List Entry} {entry : Entry}

theorem Bounded.sublist (H : Bounded peers) (h : peers'.Sublist peers) : Bounded peers' :=
  ⟨h.length_le.trans H.length, h.countP_le.trans H.sources, H.nodup.sublist (h.map _)⟩

theorem countP_eraseIdx {α : Type} (p : α → Bool) {l : List α} {i : Nat} {x : α}
    (h : l[i]? = some x) (hx : p x = true) : (l.eraseIdx i).countP p < l.countP p := by
  induction l generalizing i with
  | nil => cases h
  | cons y l ih =>
    cases i with
    | zero =>
      cases h
      rw [List.eraseIdx_cons_zero, List.countP_cons_of_pos hx]
      exact Nat.lt_succ_self _
    | succ i =>
      rw [List.eraseIdx_cons_succ, List.countP_cons, List.countP_cons]
      exact Nat.add_lt_add_right (ih h) _

theorem removeOldest_sublist (p : Entry → Bool) (peers : List Entry) :
    (removeOldest p peers).Sublist peers := by
  unfold removeOldest
  split
  · exact List.eraseIdx_sublist ..
  · exact .refl _

theorem countP_removeOldest {p : Entry → Bool} (h : 0 < peers.countP p) :
    (removeOldest p peers).countP p < peers.countP p := by
  unfold removeOldest
  split
  · next row index hmin =>
    obtain ⟨hmem, hp⟩ := List.mem_filter.mp (List.argmin_mem hmin)
    exact countP_eraseIdx p (List.mem_zipIdx_iff_getElem?.mp hmem) hp
  · next hnone =>
    obtain ⟨row, hrow, hp⟩ := List.countP_pos_iff.mp h
    obtain ⟨i, hi⟩ := List.getElem?_of_mem hrow
    have hmem : (row, i) ∈ peers.zipIdx.filter fun r => p r.1 :=
      List.mem_filter.mpr ⟨List.mem_zipIdx_iff_getElem?.mpr hi, hp⟩
    rw [List.argmin_eq_none.mp hnone] at hmem
    cases hmem

/-- What a pushed row is put behind. -/
theorem pushRow_spec (H : Bounded peers) (entry : Entry) :
    ∃ kept : List Entry, pushRow peers entry = kept ++ [entry] ∧
      kept.Sublist (peers.eraseP (·.addr == entry.addr)) ∧ kept.length < maxPeers ∧
      (entry.source = true → kept.countP (·.source) < maxSources) := by
  generalize hp₁ : peers.eraseP (·.addr == entry.addr) = p₁
  have H₁ : Bounded p₁ := H.sublist (hp₁ ▸ List.eraseP_sublist)
  generalize hp₂ : (if entry.source && decide (maxSources ≤ p₁.countP (·.source)) then
    removeOldest (·.source) p₁ else p₁) = p₂
  have h₂ : p₂.Sublist p₁ ∧ (entry.source = true → p₂.countP (·.source) < maxSources) := by
    rw [← hp₂]
    split
    · next hfull =>
      have hle := of_decide_eq_true (Bool.and_eq_true_iff.mp hfull).2
      have hlt : 0 < p₁.countP (·.source) := Nat.lt_of_lt_of_le (by decide) hle
      exact ⟨removeOldest_sublist .., fun _ => (countP_removeOldest hlt).trans_le H₁.sources⟩
    · next hroom =>
      refine ⟨.refl _, fun hsource => Nat.lt_of_not_le fun hle => hroom ?_⟩
      rw [hsource, decide_eq_true hle]
      rfl
  generalize hp₃ : (if maxPeers ≤ p₂.length then removeOldest (fun _ => true) p₂ else p₂) = p₃
  have h₃ : p₃.Sublist p₂ ∧ p₃.length < maxPeers := by
    rw [← hp₃]
    split
    · next hfull =>
      have hlt : 0 < p₂.countP fun _ => true := by
        rw [List.countP_true]
        exact Nat.lt_of_lt_of_le (by decide) hfull
      have hcount := countP_removeOldest hlt
      rw [List.countP_true] at hcount
      exact ⟨removeOldest_sublist .., hcount.trans_le (h₂.1.length_le.trans H₁.length)⟩
    · next hroom => exact ⟨.refl _, Nat.lt_of_not_le hroom⟩
  refine ⟨p₃, ?_, h₃.1.trans h₂.1, h₃.2, fun hsource => h₃.1.countP_le.trans_lt (h₂.2 hsource)⟩
  rw [← hp₃, ← hp₂, ← hp₁]
  rfl

/-- The address of the pushed row is not among the others. -/
theorem not_mem_eraseP (H : Bounded peers) (addr : SocketAddrV4) :
    addr ∉ (peers.eraseP (·.addr == addr)).map (·.addr) := by
  have hnodup := H.nodup
  clear H
  induction peers with
  | nil => exact List.not_mem_nil
  | cons row peers ih =>
    obtain ⟨hrow, hpeers⟩ := List.nodup_cons.mp hnodup
    rw [List.eraseP_cons]
    by_cases h : row.addr = addr
    · rw [beq_iff_eq.mpr h]
      exact h ▸ hrow
    · rw [beq_eq_false_iff_ne.mpr h]
      intro hmem
      rcases List.mem_cons.mp hmem with heq | hmem
      · exact h heq.symm
      · exact ih hpeers hmem

theorem Bounded.pushRow (H : Bounded peers) (entry : Entry) : Bounded (pushRow peers entry) := by
  obtain ⟨kept, heq, hsub, hlen, hsource⟩ := pushRow_spec H entry
  have hkept : Bounded kept := H.sublist (hsub.trans List.eraseP_sublist)
  rw [heq]
  refine ⟨?_, ?_, ?_⟩
  · rw [List.length_append]
    exact hlen
  · rw [List.countP_append, List.countP_singleton]
    split
    · next h => exact hsource h
    · exact hkept.sources
  · rw [List.map_append, List.nodup_append]
    refine ⟨hkept.nodup, List.nodup_singleton _, fun a ha b hb hab => ?_⟩
    rw [hab, List.mem_singleton.mp hb] at ha
    exact not_mem_eraseP H entry.addr ((hsub.map _).mem ha)

theorem length_pushRow_le (H : Bounded peers) (entry : Entry) :
    (pushRow peers entry).length ≤ peers.length + 1 := by
  obtain ⟨kept, heq, hsub, -, -⟩ := pushRow_spec H entry
  rw [heq, List.length_append]
  exact Nat.add_le_add_right (hsub.trans List.eraseP_sublist).length_le _

/-- A refresh takes no other row. -/
theorem length_pushRow_of_mem (H : Bounded peers) {old : Entry} (hold : old ∈ peers)
    (haddr : old.addr = entry.addr) : (pushRow peers entry).length ≤ peers.length := by
  obtain ⟨kept, heq, hsub, -, -⟩ := pushRow_spec H entry
  have herase := List.length_eraseP_of_mem (p := fun row => row.addr == entry.addr) hold
    (beq_iff_eq.mpr haddr)
  have hpos := List.length_pos_of_mem hold
  have hle := hsub.length_le
  rw [heq, List.length_append, List.length_singleton]
  omega

theorem mem_pushRow (H : Bounded peers) {row : Entry} (h : row ∈ pushRow peers entry) :
    row = entry ∨ row ∈ peers := by
  obtain ⟨kept, heq, hsub, -, -⟩ := pushRow_spec H entry
  rw [heq] at h
  rcases List.mem_append.mp h with h | h
  · exact .inr ((hsub.trans List.eraseP_sublist).mem h)
  · exact .inl (List.mem_singleton.mp h)

/-! ### The whole cache -/

/-- The limits of the cache. -/
structure Limits (entries : Entries) : Prop where
  infohashes : entries.size ≤ maxInfohashes
  rows : rowCount entries ≤ maxRows
  peers : entries.All fun _ peers => peers ≠ [] ∧ Bounded peers

/-- Rows are gone, and with their last row infohashes. -/
structure Thins (entries entries' : Entries) : Prop where
  size : entries'.size ≤ entries.size
  rows : rowCount entries' ≤ rowCount entries
  peers : entries'.All fun hash peers' =>
    peers' ≠ [] ∧ ∃ peers, entries.get? hash = some peers ∧ peers'.Sublist peers

variable {entries entries' entries'' : Entries} {hash : Infohash}

theorem Limits.thin (H : Limits entries) (T : Thins entries entries') : Limits entries' where
  infohashes := T.size.trans H.infohashes
  rows := T.rows.trans H.rows
  peers hash peers' h := by
    obtain ⟨hne, peers, hpeers, hsub⟩ := T.peers hash peers' h
    exact ⟨hne, (H.peers hash peers hpeers).2.sublist hsub⟩

theorem Limits.bounded (H : Limits entries) (hash : Infohash) :
    Bounded ((entries.get? hash).getD []) := by
  cases hget : entries.get? hash with
  | none => exact ⟨Nat.zero_le _, Nat.zero_le _, .nil⟩
  | some peers => exact (H.peers hash peers hget).2

theorem Thins.refl (h : entries.All fun _ peers => peers ≠ []) : Thins entries entries :=
  ⟨le_rfl, le_rfl, fun hash peers hp => ⟨h hash peers hp, peers, hp, .refl _⟩⟩

theorem Thins.trans (h : Thins entries entries') (h' : Thins entries' entries'') :
    Thins entries entries'' where
  size := h'.size.trans h.size
  rows := h'.rows.trans h.rows
  peers hash peers'' hp := by
    obtain ⟨hne, peers', hpeers', hsub'⟩ := h'.peers hash peers'' hp
    obtain ⟨-, peers, hpeers, hsub⟩ := h.peers hash peers' hpeers'
    exact ⟨hne, peers, hpeers, hsub'.trans hsub⟩

theorem rowCount_eq (entries : Entries) : rowCount entries = entries.weight fun _ l => l.length := by
  unfold rowCount OrderedMap.values OrderedMap.weight
  induction entries.entries with
  | nil => rfl
  | cons e l ih => rw [List.map_cons, List.map_cons, List.sum_cons, ih, List.foldr_cons]

theorem get?_prune {time : UInt64} {peers' : List Entry} :
    (prune entries time).get? hash = some peers' ↔
      ∃ peers, entries.get? hash = some peers ∧ peers.filter (·.fresh time) = peers' ∧ peers' ≠ [] := by
  rw [prune, OrderedMap.get?_filter_eq_some, OrderedMap.get?_mapVal]
  constructor
  · rintro ⟨hget, hne⟩
    obtain ⟨peers, hpeers, heq⟩ := Option.map_eq_some_iff.mp hget
    exact ⟨peers, hpeers, heq, by simpa using hne⟩
  · rintro ⟨peers, hpeers, heq, hne⟩
    exact ⟨Option.map_eq_some_iff.mpr ⟨peers, hpeers, heq⟩, by simpa using hne⟩

theorem thins_prune (entries : Entries) (time : UInt64) : Thins entries (prune entries time) where
  size := (OrderedMap.size_filter_le ..).trans_eq (OrderedMap.size_mapVal ..)
  rows := by
    rw [rowCount_eq, rowCount_eq]
    refine (OrderedMap.weight_filter_le ..).trans ?_
    rw [OrderedMap.weight_mapVal]
    exact OrderedMap.weight_mono (fun _ _ => List.length_filter_le ..) _
  peers hash peers' h := by
    obtain ⟨peers, hpeers, rfl, hne⟩ := get?_prune.mp h
    exact ⟨hne, peers, hpeers, List.filter_sublist ..⟩

theorem thins_erase (h : entries.All fun _ peers => peers ≠ []) (hash : Infohash) :
    Thins entries (entries.erase hash) where
  size := OrderedMap.size_filter_le ..
  rows := by
    rw [rowCount_eq, rowCount_eq]
    exact OrderedMap.weight_filter_le ..
  peers k peers hk := by
    rw [OrderedMap.get?_erase] at hk
    split at hk
    · cases hk
    · exact ⟨h k peers hk, peers, hk, .refl _⟩

theorem oldestInfohash_spec (h : 0 < entries.size) :
    ∃ hash peers, oldestInfohash entries = some hash ∧ entries.get? hash = some peers := by
  unfold oldestInfohash
  cases hmin : entries.entries.argmin fun e => ((e.2.map (·.atTime.toNat)).max?.getD 0) with
  | none =>
    rw [OrderedMap.size, List.argmin_eq_none.mp hmin] at h
    exact absurd h (Nat.lt_irrefl 0)
  | some e => exact ⟨e.1, e.2, rfl, OrderedMap.mem_entries_iff.mp (List.argmin_mem hmin)⟩

/-- An infohash is removed. -/
theorem removeOldestInfohash_spec (hne : entries.All fun _ peers => peers ≠ [])
    (h : 0 < entries.size) : Thins entries (removeOldestInfohash entries) ∧
      (removeOldestInfohash entries).size < entries.size := by
  obtain ⟨hash, peers, heq, hget⟩ := oldestInfohash_spec h
  rw [removeOldestInfohash, heq]
  exact ⟨thins_erase hne hash, OrderedMap.size_erase_lt hget⟩

theorem oldestRow_spec (h : 0 < rowCount entries) : ∃ hash index peers,
    oldestRow entries = some (hash, index) ∧ entries.get? hash = some peers ∧
      index < peers.length := by
  unfold oldestRow
  generalize hrows : (entries.entries.flatMap fun e =>
    e.2.zipIdx.map fun r => (e.1, r.2, r.1.atTime.toNat)) = rows
  cases hmin : rows.argmin (·.2.2) with
  | none =>
    have hnil := List.argmin_eq_none.mp hmin
    rw [← hrows, List.flatMap_eq_nil_iff] at hnil
    have hzero : rowCount entries = 0 := by
      rw [rowCount_eq]
      refine OrderedMap.weight_eq_zero fun k peers hk => ?_
      simpa using hnil (k, peers) (OrderedMap.mem_entries_iff.mpr hk)
    omega
  | some row =>
    have hmem := List.argmin_mem hmin
    rw [← hrows] at hmem
    obtain ⟨e, he, hrow⟩ := List.mem_flatMap.mp hmem
    obtain ⟨r, hr, rfl⟩ := List.mem_map.mp hrow
    refine ⟨e.1, r.2, e.2, rfl, OrderedMap.mem_entries_iff.mp he, ?_⟩
    exact (List.getElem?_eq_some_iff.mp (List.mem_zipIdx_iff_getElem?.mp hr)).1

/-- A row is removed. -/
theorem removeOldestRow_spec (hne : entries.All fun _ peers => peers ≠ [])
    (h : 0 < rowCount entries) : Thins entries (removeOldestRow entries) ∧
      rowCount (removeOldestRow entries) < rowCount entries ∧
      ((removeOldestRow entries).contains = entries.contains ∨
        (removeOldestRow entries).size < entries.size) := by
  obtain ⟨hash, index, peers, heq, hget, hlt⟩ := oldestRow_spec h
  have hpeers := hne hash peers hget
  have hlen : (peers.eraseIdx index).length < peers.length := by
    rw [List.length_eraseIdx_of_lt hlt]
    omega
  rw [removeOldestRow, heq]
  dsimp only
  rw [hget, Option.getD_some]
  split
  · have hweight := entries.weight_erase (f := fun _ l => l.length) hash
    rw [hget, Option.elim_some] at hweight
    refine ⟨thins_erase hne hash, ?_, .inr (OrderedMap.size_erase_lt hget)⟩
    rw [rowCount_eq, rowCount_eq]
    omega
  · next hsome =>
    have hweight := entries.weight_insert (f := fun _ l => l.length) hash (peers.eraseIdx index)
    rw [hget, Option.elim_some] at hweight
    have hrows : rowCount (entries.insert hash (peers.eraseIdx index)) < rowCount entries := by
      rw [rowCount_eq, rowCount_eq]
      omega
    have hcontains := OrderedMap.contains_iff.mpr ⟨peers, hget⟩
    refine ⟨⟨?_, hrows.le, fun k peers' hk => ?_⟩, hrows, .inl ?_⟩
    · have hsize := OrderedMap.size_insert entries hash (peers.eraseIdx index)
      rw [if_pos hcontains] at hsize
      exact (Nat.succ.inj hsize).le
    · rw [OrderedMap.get?_insert] at hk
      split at hk
      · next heq =>
        cases hk
        exact ⟨by simpa using hsome, peers, heq ▸ hget, List.eraseIdx_sublist ..⟩
      · exact ⟨hne k peers' hk, peers', hk, .refl _⟩
    · exact OrderedMap.contains_insert_of_contains hcontains _

/-- An insertion prunes; it may stop there, and else it makes room and pushes the row, which is a
source if the row it replaces was one. -/
theorem insert_spec (H : Limits entries) (now : UInt64) (hash : Infohash) (entry : Entry) :
    Thins entries (insert entries now hash entry) ∨
      ∃ entries' entry', Thins (prune entries now) entries' ∧ entry'.addr = entry.addr ∧
        insert entries now hash entry =
          entries'.insert hash (pushRow ((entries'.get? hash).getD []) entry') ∧
        (∀ old ∈ ((prune entries now).get? hash).getD [], old.addr = entry.addr → old.source = true →
          entry'.source = true) ∧
        (entries'.contains hash = true ∨ entries'.size < maxInfohashes) ∧
        (rowCount entries' < maxRows ∨
          ∃ old ∈ (entries'.get? hash).getD [], old.addr = entry.addr) := by
  have hthin := thins_prune entries now
  have H₀ := H.thin hthin
  have hne₀ : (prune entries now).All fun _ peers => peers ≠ [] := H₀.peers.mono fun _ _ h => h.1
  unfold insert
  dsimp only
  generalize prune entries now = e₀ at *
  cases hprev : ((e₀.get? hash).getD []).find? (·.addr == entry.addr) with
  | some old =>
    -- a refresh: the infohash is there and no row is added
    have hold := List.mem_of_find?_eq_some hprev
    have haddr : old.addr = entry.addr := by simpa using List.find?_some hprev
    have hcontains : e₀.contains hash = true := by
      cases hget : e₀.get? hash with
      | none =>
        rw [hget] at hold
        cases hold
      | some peers => exact OrderedMap.contains_iff.mpr ⟨peers, hget⟩
    split
    · exact .inl hthin
    · refine .inr ⟨e₀, { entry with source := entry.source || old.source }, .refl hne₀, rfl, ?_,
        fun old' hold' haddr' hsource => ?_, .inl hcontains, .inr ⟨old, hold, haddr⟩⟩
      · rw [hcontains]
        rfl
      · obtain ⟨peers, hpeers⟩ := OrderedMap.contains_iff.mp hcontains
        rw [hpeers] at hold hold'
        have heq : old' = old :=
          List.inj_on_of_nodup_map (H₀.peers hash peers hpeers).2.nodup hold' hold
            (haddr'.trans haddr.symm)
        show (entry.source || old.source) = true
        rw [← heq, hsource, Bool.or_true]
  | none =>
    have hnone := List.find?_eq_none.mp hprev
    rw [Option.any_none, if_neg Bool.false_ne_true]
    generalize he₁ : (if !e₀.contains hash && decide (maxInfohashes ≤ e₀.size) then
      removeOldestInfohash e₀ else e₀) = e₁
    have h₁ : Thins e₀ e₁ ∧ (e₁.contains hash = true ∨ e₁.size < maxInfohashes) := by
      rw [← he₁]
      split
      · next hfull =>
        have hle := of_decide_eq_true (Bool.and_eq_true_iff.mp hfull).2
        obtain ⟨hthin₁, hlt⟩ := removeOldestInfohash_spec hne₀ (Nat.lt_of_lt_of_le (by decide) hle)
        exact ⟨hthin₁, .inr (hlt.trans_le H₀.infohashes)⟩
      · next hroom =>
        refine ⟨.refl hne₀, ?_⟩
        by_cases hc : e₀.contains hash = true
        · exact .inl hc
        · refine .inr (Nat.lt_of_not_le fun hle => hroom ?_)
          rw [Bool.eq_false_iff.mpr hc, decide_eq_true hle]
          rfl
    have H₁ := H₀.thin h₁.1
    have hne₁ : e₁.All fun _ peers => peers ≠ [] := H₁.peers.mono fun _ _ h => h.1
    generalize he₂ : (if Option.isNone (none : Option Entry) && decide (maxRows ≤ rowCount e₁) then
      removeOldestRow e₁ else e₁) = e₂
    have h₂ : Thins e₁ e₂ ∧ (e₂.contains hash = true ∨ e₂.size < maxInfohashes) ∧
        rowCount e₂ < maxRows := by
      rw [← he₂]
      split
      · next hfull =>
        have hle := of_decide_eq_true (Bool.and_eq_true_iff.mp hfull).2
        obtain ⟨hthin₂, hlt, hkeys⟩ := removeOldestRow_spec hne₁ (Nat.lt_of_lt_of_le (by decide) hle)
        refine ⟨hthin₂, ?_, hlt.trans_le H₁.rows⟩
        rcases hkeys with hkeys | hkeys
        · rw [hkeys]
          exact h₁.2.imp_right hthin₂.size.trans_lt
        · exact .inr (hkeys.trans_le H₁.infohashes)
      · next hroom => exact ⟨.refl hne₁, h₁.2, Nat.lt_of_not_le fun hle => hroom (decide_eq_true hle)⟩
    refine .inr ⟨e₂, { entry with source := entry.source || false }, h₁.1.trans h₂.1, rfl, rfl,
      fun old hold haddr => ?_, h₂.2.1, .inl h₂.2.2⟩
    exact absurd (beq_iff_eq.mpr haddr) (hnone old hold)

theorem Limits.insert (H : Limits entries) (now : UInt64) (hash : Infohash) (entry : Entry) :
    Limits (insert entries now hash entry) := by
  obtain hthin | ⟨e, entry', hthin, haddr, heq, -, hroom, hrows⟩ := insert_spec H now hash entry
  · exact H.thin hthin
  have He := (H.thin (thins_prune entries now)).thin hthin
  have hbounded := He.bounded hash
  rw [heq]
  refine ⟨?_, ?_, He.peers.insert ⟨?_, hbounded.pushRow entry'⟩⟩
  · have hsize := OrderedMap.size_insert e hash (pushRow ((e.get? hash).getD []) entry')
    have hle := He.infohashes
    rcases hroom with hroom | hroom
    · rw [if_pos hroom] at hsize
      omega
    · omega
  · have hweight := e.weight_insert (f := fun _ l => l.length) hash
      (pushRow ((e.get? hash).getD []) entry')
    have hlen : (e.get? hash).elim 0 (fun l => l.length) = ((e.get? hash).getD []).length := by
      cases e.get? hash with
      | none => rfl
      | some peers => rfl
    have hle := He.rows
    rw [rowCount_eq] at hrows hle ⊢
    rw [hlen] at hweight
    rcases hrows with hrows | ⟨old, hold, hold'⟩
    · have hpush := length_pushRow_le hbounded entry'
      omega
    · have hpush := length_pushRow_of_mem hbounded hold (hold'.trans haddr.symm)
      omega
  · obtain ⟨kept, hkept, -⟩ := pushRow_spec hbounded entry'
    rw [hkept]
    exact List.append_ne_nil_of_right_ne_nil _ (List.cons_ne_nil _ _)

theorem Limits.step (H : Limits entries) (op : Op) : Limits (step entries op) := by
  cases op with
  | insert now hash entry => exact H.insert now hash entry
  | prune time => exact H.thin (thins_prune entries time)

theorem Limits.empty : Limits ∅ := ⟨Nat.zero_le _, Nat.zero_le _, .empty⟩

theorem limits_run (ops : List Op) : Limits (run step ∅ ops) :=
  run_invariant (I := Limits) (fun _ op H => H.step op) .empty ops

/-! ### Source flags -/

/-- The time at which an operation prunes. -/
def Op.time : Op → UInt64
  | .insert now _ _ => now
  | .prune time => time

/-- A row is what it was, or the inserted one. -/
theorem mem_step (H : Limits entries) {op : Op} {peers' : List Entry} {row' : Entry}
    (hget : (step entries op).get? hash = some peers') (hrow' : row' ∈ peers') :
    (∃ peers, entries.get? hash = some peers ∧ row' ∈ peers) ∨
      ∃ now entry, op = .insert now hash entry ∧ row'.addr = entry.addr ∧
        ∀ old ∈ ((prune entries now).get? hash).getD [], old.addr = entry.addr →
          old.source = true → row'.source = true := by
  have hthin : ∀ {e : Entries}, Thins entries e → e.get? hash = some peers' →
      ∃ peers, entries.get? hash = some peers ∧ row' ∈ peers := by
    intro e T he
    obtain ⟨-, peers, hpeers, hsub⟩ := T.peers hash peers' he
    exact ⟨peers, hpeers, hsub.mem hrow'⟩
  cases op with
  | prune time => exact .inl (hthin (thins_prune entries time) hget)
  | insert now k entry =>
    obtain T | ⟨e, entry', T, haddr, heq, hsource, -, -⟩ := insert_spec H now k entry
    · exact .inl (hthin T hget)
    · have T' := (thins_prune entries now).trans T
      have hget : (insert entries now k entry).get? hash = some peers' := hget
      rw [heq, OrderedMap.get?_insert] at hget
      split at hget
      · next hk =>
        subst hk
        have hbounded := (H.thin T').bounded hash
        cases hget
        rcases mem_pushRow hbounded hrow' with rfl | hmem
        · exact .inr ⟨now, entry, rfl, haddr, hsource⟩
        · cases hpeers : e.get? hash with
          | none =>
            rw [hpeers] at hmem
            cases hmem
          | some peers =>
            rw [hpeers] at hmem
            obtain ⟨-, peers₀, hpeers₀, hsub⟩ := T'.peers hash peers hpeers
            exact .inl ⟨peers₀, hpeers₀, hsub.mem hmem⟩
      · exact .inl (hthin T' hget)

/-- A source that is not too old stays a source while it stays. -/
theorem source_step (H : Limits entries) {op : Op} {peers peers' : List Entry} {row row' : Entry}
    (hpeers : entries.get? hash = some peers) (hrow : row ∈ peers) (hsource : row.source = true)
    (hfresh : row.fresh op.time = true) (hpeers' : (step entries op).get? hash = some peers')
    (hrow' : row' ∈ peers') (haddr : row'.addr = row.addr) : row'.source = true := by
  rcases mem_step H hpeers' hrow' with ⟨peers₀, hget, hmem⟩ | ⟨now, entry, rfl, haddr', hkeep⟩
  · rw [hpeers] at hget
    cases hget
    rw [List.inj_on_of_nodup_map (H.peers hash peers hpeers).2.nodup hmem hrow haddr, hsource]
  · have hpruned : row ∈ peers.filter (·.fresh now) := List.mem_filter.mpr ⟨hrow, hfresh⟩
    have hget : (prune entries now).get? hash = some (peers.filter (·.fresh now)) :=
      get?_prune.mpr ⟨peers, hpeers, rfl, List.ne_nil_of_mem hpruned⟩
    refine hkeep row ?_ (haddr.symm.trans haddr') hsource
    rw [hget]
    exact hpruned

end Outpace.Swarm.Live.WarmPeers

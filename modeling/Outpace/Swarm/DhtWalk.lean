import Outpace.Data.Exchange
import Outpace.Swarm.Dht

/-!
# What a DHT walk takes from others

A walk asks for peers, and takes a response only as the answer to a query of its own that is still
open (`Exchange.Outstanding`). Its frontier and what its callback collects are made of such
responses; any other datagram changes nothing but the metrics and the note that something was
received, which only the metrics depend on.
-/

namespace Outpace.Swarm.Dht
open Wire (Bytes)

abbrev QueryKey := SocketAddrV4 × Bytes

/-- An event as a part of an exchange with a node. -/
def WalkEvent.exchange : WalkEvent → Option (Exchange QueryKey)
  | .query addr txid _ => some (.ask (addr, txid))
  | .expire addr txid => some (.lapse (addr, txid))
  | .accept src _ response => some (.answer (src, response.txid))
  | .bootstrap .. => none

def exchanges (log : List WalkEvent) : List (Exchange QueryKey) := log.filterMap (·.exchange)

/-- The queries sent. -/
def queries (log : List WalkEvent) : List QueryKey := (exchanges log).filterMap Exchange.asked

def WalkEvent.accepted : WalkEvent → Option (SocketAddrV4 × GetPeersResponse)
  | .accept src _ response => some (src, response)
  | _ => none

variable {γ ω : Type} {c : WalkConfig γ} {init : γ} {s s' : Walk γ} {log : List WalkEvent}
  {f : OrderedMap Bytes SocketAddrV4} {addr : SocketAddrV4} {datagram : Bytes}
  {onPeer : ω → SocketAddrV4 → Bool × ω} {P : Bytes → SocketAddrV4 → Prop}
  {response : GetPeersResponse}

/-- What the callback makes of the accepted responses. -/
def collect (c : WalkConfig γ) (init : γ) (log : List WalkEvent) : γ :=
  (log.filterMap (·.accepted)).foldl (fun g r => (c.onResponse g r.1 r.2).2) init

/-- A node of the frontier is from a lookup or from an accepted response. -/
def Known (c : WalkConfig γ) (log : List WalkEvent) (key : Bytes) (addr : SocketAddrV4) : Prop :=
  (∃ i, .bootstrap i addr ∈ log ∧ key = bootstrapKey i) ∨
    ∃ src datagram response id, .accept src datagram response ∈ log ∧ (id, addr) ∈ response.nodes ∧
      key = distance id c.infohash.toList

structure Inv (c : WalkConfig γ) (init : γ) (s : Walk γ) (log : List WalkEvent) : Prop where
  table : Exchange.Outstanding (s.inflight.map (·.1)) (exchanges log)
  keys : (s.inflight.map (·.1)).Nodup
  genuine : ∀ src datagram response, .accept src datagram response ∈ log →
    parseResponse datagram = some response
  collected : s.collector = collect c init log
  known : s.frontier.All (Known c log)
  small : s.frontier.size ≤ 64
  once : (queries log).Nodup
  queried : ∀ key ∈ queries log, key.1 ∈ s.queried
  /-- What was sent to the addresses of a batch has one of its last few transaction ids. -/
  batch : ∀ todo emptyBatch, s.phase = .sending todo emptyBatch →
    ∃ sent, sent + todo.length ≤ 8 ∧ ∀ addr ∈ todo, ∀ txid, (addr, txid) ∈ queries log →
      ∃ j < sent, txid = be16 (s.nextTxid - 1 - UInt16.ofNat j)

theorem exchanges_append (log log' : List WalkEvent) :
    exchanges (log ++ log') = exchanges log ++ exchanges log' := List.filterMap_append

theorem queries_append (log log' : List WalkEvent) :
    queries (log ++ log') = queries log ++ queries log' := by
  rw [queries, exchanges_append, List.filterMap_append]
  rfl

theorem collect_append (log log' : List WalkEvent) :
    collect c init (log ++ log') = collect c (collect c init log) log' := by
  rw [collect, List.filterMap_append, List.foldl_append]
  rfl

theorem Known.append {key : Bytes} (h : Known c log key addr) (log' : List WalkEvent) :
    Known c (log ++ log') key addr := by
  rcases h with ⟨i, hi, hkey⟩ | ⟨src, datagram, response, id, hmem, hnode, hkey⟩
  · exact .inl ⟨i, List.mem_append_left _ hi, hkey⟩
  · exact .inr ⟨src, datagram, response, id, List.mem_append_left _ hmem, hnode, hkey⟩

/-! ### The frontier -/

theorem get?_keepClosest {key : Bytes} (h : (keepClosest f).get? key = some addr) :
    f.get? key = some addr :=
  OrderedMap.get?_eq_some.mpr (List.mem_of_mem_take (OrderedMap.get?_eq_some.mp h))

theorem size_keepClosest (f : OrderedMap Bytes SocketAddrV4) : (keepClosest f).size ≤ 64 :=
  List.length_take_le ..

theorem all_keepClosest (h : f.All P) : (keepClosest f).All P :=
  fun key addr hget => h key addr (get?_keepClosest hget)

theorem all_addNodes {infohash : Vector UInt8 20} (h : f.All P)
    {nodes : List (Bytes × SocketAddrV4)}
    (hnodes : ∀ node ∈ nodes, P (distance node.1 infohash.toList) node.2) :
    (nodes.foldl (addNode infohash) f).All P := by
  induction nodes generalizing f with
  | nil => exact h
  | cons node nodes ih =>
    obtain ⟨hnode, hrest⟩ := List.forall_mem_cons.mp hnodes
    refine ih ?_ hrest
    simp only [addNode]
    split
    · exact h
    · exact h.insert hnode

/-! ### The steps -/

/-- Nothing is sent or received, and no batch begins. -/
theorem Inv.quiet (H : Inv c init s log) (hinflight : s'.inflight = s.inflight)
    (hcollector : s'.collector = s.collector) (hfrontier : s'.frontier = s.frontier)
    (hqueried : s'.queried = s.queried)
    (hphase : ∀ todo emptyBatch, s'.phase ≠ .sending todo emptyBatch) : Inv c init s' log where
  table := hinflight ▸ H.table
  keys := hinflight ▸ H.keys
  genuine := H.genuine
  collected := hcollector ▸ H.collected
  known := hfrontier ▸ H.known
  small := hfrontier ▸ H.small
  once := H.once
  queried := hqueried ▸ H.queried
  batch todo emptyBatch h := absurd h (hphase todo emptyBatch)

/-- The walk without its phase. -/
theorem Inv.awake (H : Inv c init s log) : Inv c init { s with phase := .round } log :=
  H.quiet rfl rfl rfl rfl fun _ _ h => (by cases h)

theorem queries_bootstrap (i : Nat) (addr : SocketAddrV4) : queries [.bootstrap i addr] = [] := rfl

theorem Inv.addBootstrap (H : Inv c init s log) (hphase : s.phase = .round) (i : Nat)
    (addr : SocketAddrV4) : Inv c init (s.addBootstrap i addr) (log ++ [.bootstrap i addr]) where
  table := by
    rw [exchanges_append, show exchanges [.bootstrap i addr] = [] from rfl, List.append_nil]
    exact H.table
  keys := H.keys
  genuine src datagram response hmem := by
    rcases List.mem_append.mp hmem with hmem | hmem
    · exact H.genuine src datagram response hmem
    · cases List.mem_singleton.mp hmem
  collected := by
    rw [collect_append]
    exact H.collected
  known := by
    refine all_keepClosest (OrderedMap.All.insert (H.known.mono fun _ _ h => h.append _) ?_)
    exact .inl ⟨i, List.mem_append_right _ List.mem_cons_self, rfl⟩
  small := size_keepClosest _
  once := by
    rw [queries_append, queries_bootstrap, List.append_nil]
    exact H.once
  queried key hkey := by
    rw [queries_append, queries_bootstrap, List.append_nil] at hkey
    exact H.queried key hkey
  batch todo emptyBatch h := by cases hphase.symm.trans h

theorem Inv.join (H : Inv c init s log) (hphase : s.phase = .round) (i : Nat)
    (result : Option SocketAddrV4) :
    Inv c init (s.join i result).1 (log ++ (s.join i result).2) ∧
      (s.join i result).1.phase = .round := by
  have hquiet : Inv c init { s with lookups := s.lookups.erase i } log :=
    H.quiet rfl rfl rfl rfl fun _ _ h => (by cases hphase.symm.trans h)
  unfold Walk.join
  split
  · cases result with
    | none => exact ⟨by simpa using hquiet, hphase⟩
    | some addr => exact ⟨hquiet.addBootstrap hphase i addr, hphase⟩
  · exact ⟨by simpa using H, hphase⟩

theorem join_phase (s : Walk γ) (phase : WalkPhase) (i : Nat) (result : Option SocketAddrV4) :
    Walk.join { s with phase := phase } i result =
      ({ (s.join i result).1 with phase := phase }, (s.join i result).2) := by
  unfold Walk.join
  split
  · cases result <;> rfl
  · rfl

theorem Inv.joinAll (H : Inv c init s log) (hphase : s.phase = .round)
    (joined : List (Nat × Option SocketAddrV4)) :
    Inv c init (Walk.joinAll joined s).1 (log ++ (Walk.joinAll joined s).2) ∧
      (Walk.joinAll joined s).1.phase = .round := by
  induction joined generalizing s log with
  | nil => exact ⟨by simpa [Walk.joinAll] using H, hphase⟩
  | cons j joined ih =>
    obtain ⟨i, result⟩ := j
    obtain ⟨H', hphase'⟩ := H.join hphase i result
    obtain ⟨H'', hphase''⟩ := ih H' hphase'
    refine ⟨?_, hphase''⟩
    simp only [Walk.joinAll]
    rw [← List.append_assoc]
    exact H''

theorem be16_injective {x y : UInt16} (h : be16 x = be16 y) : x = y := by
  have hx := x.toNat_lt
  have hy := y.toNat_lt
  simp only [be16, List.cons.injEq, and_true, ← UInt8.toNat_inj, UInt8.toNat_ofNat'] at h
  rw [← UInt16.toNat_inj]
  omega

/-- The next transaction id is not among the last few. -/
theorem nextTxid_fresh (txid : UInt16) {j : Nat} (hj : j < 8) :
    be16 txid ≠ be16 (txid - 1 - UInt16.ofNat j) := by
  intro h
  have h := congrArg UInt16.toNat (be16_injective h)
  have htxid := txid.toNat_lt
  simp only [UInt16.toNat_sub, UInt16.toNat_one, UInt16.toNat_ofNat'] at h
  omega

theorem exchanges_expire (gone : List (QueryKey × Nat)) :
    exchanges (gone.map fun q => .expire q.1.1 q.1.2) = (gone.map (·.1)).map .lapse := by
  unfold exchanges
  rw [List.filterMap_map, List.map_map]
  exact congrFun List.filterMap_eq_map gone

theorem queries_expire (gone : List (QueryKey × Nat)) :
    queries (gone.map fun q => .expire q.1.1 q.1.2) = [] := by
  rw [queries, exchanges_expire, List.filterMap_map]
  exact List.filterMap_eq_nil_iff.mpr fun _ _ => rfl

theorem accepted_expire (gone : List (QueryKey × Nat)) :
    (gone.map fun q => WalkEvent.expire q.1.1 q.1.2).filterMap (·.accepted) = [] := by
  rw [List.filterMap_map]
  exact List.filterMap_eq_nil_iff.mpr fun _ _ => rfl

theorem mem_accepted {src : SocketAddrV4} {out : List WalkEvent}
    (h : WalkEvent.accept src datagram response ∈ out) :
    (src, response) ∈ out.filterMap (·.accepted) :=
  List.mem_filterMap.mpr ⟨_, h, rfl⟩

/-- A key with an entry that stays is not the key of one that goes. -/
theorem nodup_filter_disjoint {l : List (QueryKey × Nat)} (h : (l.map (·.1)).Nodup)
    {p q : QueryKey × Nat → Bool} (hpq : ∀ e, p e = true → q e = false) :
    ∀ k ∈ (l.filter p).map (·.1), k ∈ l.map (·.1) ∧ k ∉ (l.filter q).map (·.1) := by
  intro k hk
  obtain ⟨e, he, rfl⟩ := List.mem_map.mp hk
  obtain ⟨hmem, hp⟩ := List.mem_filter.mp he
  refine ⟨List.mem_map_of_mem hmem, fun hgone => ?_⟩
  obtain ⟨e', he', heq⟩ := List.mem_map.mp hgone
  obtain ⟨hmem', hq⟩ := List.mem_filter.mp he'
  cases List.inj_on_of_nodup_map h hmem' hmem heq
  rw [hpq e hp] at hq
  cases hq

theorem nodup_keys_filter {l : List (QueryKey × Nat)} (h : (l.map (·.1)).Nodup)
    (p : QueryKey × Nat → Bool) : ((l.filter p).map (·.1)).Nodup :=
  h.sublist (List.filter_sublist.map _)

/-- Queries that expire, when a round begins. -/
theorem Inv.expire (H : Inv c init s log) (later : Nat)
    (hinflight : s'.inflight = s.inflight.filter fun q => decide (later < q.2))
    (hcollector : s'.collector = s.collector) (hfrontier : s'.frontier = s.frontier)
    (hqueried : s'.queried = s.queried)
    (hbatch : ∀ todo emptyBatch, s'.phase = .sending todo emptyBatch →
      todo.length ≤ 8 ∧ ∀ addr ∈ todo, addr ∉ s.queried) :
    Inv c init s' (log ++ (s.inflight.filter fun q => decide (q.2 ≤ later)).map fun q =>
      .expire q.1.1 q.1.2) where
  table := by
    rw [exchanges_append, exchanges_expire, hinflight]
    refine H.table.lapses (nodup_filter_disjoint H.keys fun e he => ?_)
    have := of_decide_eq_true he
    exact decide_eq_false (by omega)
  keys := hinflight ▸ nodup_keys_filter H.keys _
  genuine src datagram response hmem := by
    rcases List.mem_append.mp hmem with hmem | hmem
    · exact H.genuine src datagram response hmem
    · have hnone := mem_accepted hmem
      rw [accepted_expire] at hnone
      cases hnone
  collected := by
    rw [collect_append, collect, accepted_expire, hcollector]
    exact H.collected
  known := hfrontier ▸ H.known.mono fun _ _ h => h.append _
  small := hfrontier ▸ H.small
  once := by
    rw [queries_append, queries_expire, List.append_nil]
    exact H.once
  queried key hkey := by
    rw [queries_append, queries_expire, List.append_nil] at hkey
    exact hqueried ▸ H.queried key hkey
  batch todo emptyBatch h := by
    obtain ⟨hlen, hfresh⟩ := hbatch todo emptyBatch h
    refine ⟨0, by omega, fun addr haddr txid hquery => ?_⟩
    rw [queries_append, queries_expire, List.append_nil] at hquery
    exact absurd (H.queried _ hquery) (hfresh addr haddr)

theorem Inv.beginRound (H : Inv c init s log) (hphase : s.phase = .round)
    (joined : List (Nat × Option SocketAddrV4)) (later : Nat) :
    Inv c init (s.beginRound joined later).1 (log ++ (s.beginRound joined later).2) := by
  obtain ⟨H', -⟩ := H.joinAll hphase joined
  simp only [Walk.beginRound]
  rw [← List.append_assoc]
  refine H'.expire later rfl rfl rfl rfl fun todo emptyBatch h => ?_
  -- only the last branch sends
  have hbatch : todo = Walk.batch { (Walk.joinAll joined s).1 with
      inflight := (Walk.joinAll joined s).1.inflight.filter fun q => decide (later < q.2) } := by
    simp only at h
    split at h
    · cases h
    split at h
    · cases h
    · cases h
      rfl
  subst hbatch
  refine ⟨List.length_take_le .., fun addr haddr => ?_⟩
  exact of_decide_eq_true (List.mem_filter.mp (List.mem_of_mem_take haddr)).2

theorem Inv.sendQuery (H : Inv c init s log) {todo : List SocketAddrV4} {emptyBatch : Bool}
    (hphase : s.phase = .sending (addr :: todo) emptyBatch) (now : Nat) (ok : Bool) :
    Inv c init (s.sendQuery c addr todo emptyBatch now ok).1
      (log ++ (s.sendQuery c addr todo emptyBatch now ok).2) := by
  obtain ⟨sent, hsent, htxids⟩ := H.batch _ _ hphase
  rw [List.length_cons] at hsent
  have hshift : ∀ j, s.nextTxid - 1 - UInt16.ofNat j =
      s.nextTxid + 1 - 1 - UInt16.ofNat (j + 1) := by
    intro j
    rw [← UInt16.toNat_inj]
    simp only [UInt16.toNat_sub, UInt16.toNat_add, UInt16.toNat_one, UInt16.toNat_ofNat']
    omega
  have holder : ∀ a ∈ todo, ∀ txid, (a, txid) ∈ queries log →
      ∃ j < sent + 1, txid = be16 (s.nextTxid + 1 - 1 - UInt16.ofNat j) := by
    intro a ha txid hquery
    obtain ⟨j, hj, rfl⟩ := htxids a (List.mem_cons_of_mem _ ha) txid hquery
    exact ⟨j + 1, by omega, by rw [hshift]⟩
  unfold Walk.sendQuery
  cases ok with
  | false =>
    simp only [Bool.false_eq_true, if_false, List.append_nil]
    refine ⟨H.table, H.keys, H.genuine, H.collected, H.known, H.small, H.once,
      fun key hkey => List.mem_append_left _ (H.queried key hkey), fun todo' emptyBatch' h => ?_⟩
    cases h
    exact ⟨sent + 1, by omega, holder⟩
  | true =>
    simp only [if_true]
    have hnew : (addr, be16 s.nextTxid) ∉ queries log := by
      intro hquery
      obtain ⟨j, hj, heq⟩ := htxids addr List.mem_cons_self _ hquery
      exact nextTxid_fresh s.nextTxid (by omega) heq
    have hqueries : queries (log ++ [.query addr (be16 s.nextTxid)
        (buildGetPeers c.nodeId.toList c.infohash.toList (be16 s.nextTxid))]) =
        queries log ++ [(addr, be16 s.nextTxid)] := queries_append ..
    refine ⟨?_, ?_, fun src datagram response hmem => ?_, ?_,
      H.known.mono fun _ _ h => h.append _, H.small, ?_, fun key hkey => ?_,
      fun todo' emptyBatch' h => ?_⟩
    · rw [exchanges_append]
      refine H.table.ask fun key hkey => ?_
      rw [List.map_append] at hkey
      rcases List.mem_append.mp hkey with hkey | hkey
      · obtain ⟨q, hq, rfl⟩ := List.mem_map.mp hkey
        exact .inr (List.mem_map_of_mem (List.mem_filter.mp hq).1)
      · exact .inl (List.mem_singleton.mp hkey)
    · rw [List.map_append]
      refine List.nodup_append.mpr ⟨nodup_keys_filter H.keys _, List.nodup_singleton _, ?_⟩
      intro key hkey key' hkey'
      obtain ⟨q, hq, rfl⟩ := List.mem_map.mp hkey
      rw [List.mem_singleton.mp hkey']
      exact of_decide_eq_true (List.mem_filter.mp hq).2
    · rcases List.mem_append.mp hmem with hmem | hmem
      · exact H.genuine src datagram response hmem
      · cases List.mem_singleton.mp hmem
    · rw [collect_append]
      exact H.collected
    · rw [hqueries]
      refine List.nodup_append.mpr ⟨H.once, List.nodup_singleton _, ?_⟩
      intro key hkey key' hkey' heq
      rw [List.mem_singleton.mp hkey'] at heq
      exact hnew (heq ▸ hkey)
    · rw [hqueries] at hkey
      rcases List.mem_append.mp hkey with hkey | hkey
      · exact List.mem_append_left _ (H.queried key hkey)
      · rw [List.mem_singleton.mp hkey]
        exact List.mem_append_right _ List.mem_cons_self
    · cases h
      refine ⟨sent + 1, by omega, fun a ha txid hquery => ?_⟩
      rw [hqueries] at hquery
      rcases List.mem_append.mp hquery with hquery | hquery
      · exact holder a ha txid hquery
      · obtain ⟨-, rfl⟩ := Prod.mk.inj (List.mem_singleton.mp hquery)
        refine ⟨0, Nat.succ_pos _, ?_⟩
        rw [UInt16.add_sub_cancel]
        exact congrArg be16 (UInt16.sub_zero _).symm

theorem Inv.accept (H : Inv c init s log) {src : SocketAddrV4}
    (hparse : parseResponse datagram = some response)
    (hopen : (src, response.txid) ∈ s.inflight.map (·.1)) (window : Window) :
    Inv c init (s.accept c src response window) (log ++ [.accept src datagram response]) where
  table := by
    rw [exchanges_append]
    refine H.table.answer hopen fun key hkey => ?_
    obtain ⟨q, hq, rfl⟩ := List.mem_map.mp hkey
    obtain ⟨hmem, hne⟩ := List.mem_filter.mp hq
    exact ⟨List.mem_map_of_mem hmem, of_decide_eq_true hne⟩
  keys := nodup_keys_filter H.keys _
  genuine src' datagram' response' hmem := by
    rcases List.mem_append.mp hmem with hmem | hmem
    · exact H.genuine src' datagram' response' hmem
    · cases List.mem_singleton.mp hmem
      exact hparse
  collected := by
    rw [collect_append, ← H.collected]
    rfl
  known := by
    have hold : s.frontier.All (Known c (log ++ [.accept src datagram response])) :=
      H.known.mono fun _ _ h => h.append _
    refine all_keepClosest (all_addNodes hold fun node hnode => ?_)
    exact .inr ⟨src, datagram, response, node.1, List.mem_append_right _ List.mem_cons_self, hnode,
      rfl⟩
  small := size_keepClosest _
  once := by
    rw [queries_append, show queries [.accept src datagram response] = [] from rfl, List.append_nil]
    exact H.once
  queried key hkey := by
    rw [queries_append, show queries [.accept src datagram response] = [] from rfl,
      List.append_nil] at hkey
    exact H.queried key hkey
  batch todo emptyBatch h := by
    simp only [Walk.accept] at h
    split at h <;> cases h

theorem Inv.receive (H : Inv c init s log) (src : Option SocketAddrV4) (datagram : Bytes)
    (window : Window) :
    Inv c init (s.receive c src datagram window).1
      (log ++ (s.receive c src datagram window).2) := by
  have hquiet : Inv c init
      { s with phase := .listening { window with receivedAny := true } } log :=
    H.quiet rfl rfl rfl rfl fun _ _ h => (by cases h)
  unfold Walk.receive
  cases src with
  | none => simpa using hquiet
  | some src =>
    cases hparse : parseResponse (datagram.take 2048) with
    | none =>
      simp only [hparse, List.append_nil]
      exact hquiet.quiet rfl rfl rfl rfl fun _ _ h => (by cases h)
    | some response =>
      simp only [hparse]
      split
      · next hopen => exact hquiet.accept hparse hopen _
      · simp only [List.append_nil]
        exact hquiet.quiet rfl rfl rfl rfl fun _ _ h => (by cases h)

theorem Inv.endRound (H : Inv c init s log) (window : Window) :
    Inv c init (s.endRound window) log :=
  H.quiet rfl rfl rfl rfl fun _ _ h => (by cases h)

/-- Every move keeps the invariant. -/
theorem Inv.step (H : Inv c init s log) (move : WalkMove) :
    Inv c init (c.step s move) (log ++ c.events s move) := by
  unfold WalkConfig.step WalkConfig.events
  have hstay : Inv c init s (log ++ []) := by
    rw [List.append_nil]
    exact H
  have hdone : Inv c init { s with phase := .done } (log ++ []) := by
    rw [List.append_nil]
    exact H.quiet rfl rfl rfl rfl fun _ _ h => (by cases h)
  have hend (window : Window) : Inv c init (s.endRound window) (log ++ []) := by
    rw [List.append_nil]
    exact H.endRound window
  have hjoin (i : Nat) (result : Option SocketAddrV4) (interrupted : Option Window) : Inv c init
      { (s.join i result).1 with phase := .round, interruptedWindow := interrupted }
      (log ++ (s.join i result).2) := by
    have H' := (H.awake.join rfl i result).1
    rw [join_phase] at H'
    exact H'.quiet rfl rfl rfl rfl fun _ _ h => (by cases h)
  cases move with
  | round now joined later =>
    simp only [Walk.exec]
    split
    · next hphase =>
      split
      · exact H.beginRound hphase joined later
      · exact hdone
    · exact hstay
  | lookup now i result =>
    simp only [Walk.exec]
    split
    · split
      · exact hjoin i result _
      · exact hstay
    · split
      · split
        · exact hjoin i result _
        · exact hstay
      · exact hend _
    · exact hstay
  | send now ok =>
    simp only [Walk.exec]
    split
    · next hphase => exact H.sendQuery hphase now ok
    · exact hstay
  | listen now =>
    simp only [Walk.exec]
    split
    · rw [List.append_nil]
      exact H.quiet rfl rfl rfl rfl fun _ _ h => (by cases h)
    · exact hstay
  | receive now src datagram =>
    simp only [Walk.exec]
    split
    · split
      · exact H.receive src datagram _
      · exact hend _
    · exact hstay
  | elapse =>
    simp only [Walk.exec]
    split
    · exact hdone
    · exact hend _
    · exact hstay

theorem inv_start (c : WalkConfig γ) (bootstraps : Nat) (init : γ) :
    Inv c init (Walk.start bootstraps init) [] where
  table := .nil
  keys := .nil
  genuine _ _ _ h := by cases h
  collected := rfl
  known := OrderedMap.All.empty
  small := Nat.zero_le _
  once := .nil
  queried _ h := by cases h
  batch _ _ h := by cases h

theorem Inv.run (c : WalkConfig γ) (bootstraps : Nat) (init : γ) (moves : List WalkMove) :
    Inv c init (run c.step (Walk.start bootstraps init) moves)
      (emits c.step c.events (Walk.start bootstraps init) moves) := by
  have H := run_emits_invariant (fun _ _ move H => H.step move) (inv_start c bootstraps init) moves
  rwa [List.nil_append] at H

/-! ### Datagrams that are not answers -/

def Window.core (window : Window) : Window := { window with receivedAny := false }

def WalkPhase.core : WalkPhase → WalkPhase
  | .listening window => .listening window.core
  | phase => phase

/-- The walks differ by their diagnostics at most: the metrics, and the note that a datagram was
received. -/
structure SameCore (s s' : Walk γ) : Prop where
  lookups : s.lookups = s'.lookups
  frontier : s.frontier = s'.frontier
  queried : s.queried = s'.queried
  inflight : s.inflight = s'.inflight
  nextTxid : s.nextTxid = s'.nextTxid
  interrupted : s.interruptedWindow.map Window.core = s'.interruptedWindow.map Window.core
  collector : s.collector = s'.collector
  phase : s.phase.core = s'.phase.core

/-- Phases with one core are equal, or both listen. -/
theorem core_eq_cases {p p' : WalkPhase} (h : p.core = p'.core) :
    p = p' ∧ (∀ window, p ≠ .listening window) ∨
      ∃ w w', p = .listening w ∧ p' = .listening w' ∧ w.core = w'.core := by
  cases p with
  | listening w =>
    cases p' with
    | listening w' => exact .inr ⟨w, w', rfl, rfl, WalkPhase.listening.inj h⟩
    | round | awaitLookup | sending | done => cases h
  | round | awaitLookup | sending | done =>
    cases p' with
    | listening w' => cases h
    | round | awaitLookup | sending | done => exact .inl ⟨h, fun _ h => (by cases h)⟩

theorem SameCore.join (h : SameCore s s') (i : Nat) (result : Option SocketAddrV4) :
    SameCore (s.join i result).1 (s'.join i result).1 ∧
      (s.join i result).2 = (s'.join i result).2 := by
  unfold Walk.join
  rw [← h.lookups]
  split
  · cases result with
    | none =>
      exact ⟨⟨rfl, h.frontier, h.queried, h.inflight, h.nextTxid, h.interrupted, h.collector,
        h.phase⟩, rfl⟩
    | some addr =>
      refine ⟨⟨rfl, ?_, h.queried, h.inflight, h.nextTxid, h.interrupted, h.collector, h.phase⟩,
        rfl⟩
      show keepClosest (s.frontier.insert _ addr) = keepClosest (s'.frontier.insert _ addr)
      rw [h.frontier]
  · exact ⟨h, rfl⟩

theorem SameCore.joinAll (h : SameCore s s') (joined : List (Nat × Option SocketAddrV4)) :
    SameCore (Walk.joinAll joined s).1 (Walk.joinAll joined s').1 ∧
      (Walk.joinAll joined s).2 = (Walk.joinAll joined s').2 := by
  induction joined generalizing s s' with
  | nil => exact ⟨h, rfl⟩
  | cons j joined ih =>
    obtain ⟨h₁, hout⟩ := h.join j.1 j.2
    obtain ⟨h₂, hout'⟩ := ih h₁
    simp only [Walk.joinAll, hout, hout']
    exact ⟨h₂, trivial⟩

theorem SameCore.beginRound (h : SameCore s s') (joined : List (Nat × Option SocketAddrV4))
    (later : Nat) :
    SameCore (s.beginRound joined later).1 (s'.beginRound joined later).1 ∧
      (s.beginRound joined later).2 = (s'.beginRound joined later).2 := by
  obtain ⟨h₁, hout⟩ := h.joinAll joined
  have hnone : ((Walk.joinAll joined s).1.interruptedWindow = none) =
      ((Walk.joinAll joined s').1.interruptedWindow = none) := by
    rw [← Option.map_eq_none_iff (f := Window.core), h₁.interrupted, Option.map_eq_none_iff]
  simp only [Walk.beginRound, Walk.batch, hout, h₁.lookups, h₁.frontier, h₁.queried, h₁.inflight,
    hnone]
  exact ⟨⟨rfl, rfl, rfl, rfl, h₁.nextTxid, h₁.interrupted, h₁.collector, rfl⟩, trivial⟩

theorem SameCore.sendQuery (h : SameCore s s') (addr : SocketAddrV4) (todo : List SocketAddrV4)
    (emptyBatch : Bool) (now : Nat) (ok : Bool) :
    SameCore (s.sendQuery c addr todo emptyBatch now ok).1
        (s'.sendQuery c addr todo emptyBatch now ok).1 ∧
      (s.sendQuery c addr todo emptyBatch now ok).2 =
        (s'.sendQuery c addr todo emptyBatch now ok).2 := by
  simp only [Walk.sendQuery, h.queried, h.nextTxid, h.inflight]
  split
  all_goals
    exact ⟨⟨h.lookups, h.frontier, rfl, rfl, rfl, h.interrupted, h.collector, rfl⟩, rfl⟩

theorem SameCore.listen (h : SameCore s s') (emptyBatch : Bool) (now : Nat) :
    SameCore (s.listen c emptyBatch now) (s'.listen c emptyBatch now) := by
  refine ⟨h.lookups, h.frontier, h.queried, h.inflight, h.nextTxid, rfl, h.collector, ?_⟩
  have hcases := h.interrupted
  simp only [Walk.listen]
  split
  · cases hw : s.interruptedWindow with
    | none =>
      rw [hw] at hcases
      rw [Option.map_eq_none_iff.mp hcases.symm]
    | some w =>
      rw [hw] at hcases
      obtain ⟨w', hw', hcore⟩ := Option.map_eq_some_iff.mp hcases.symm
      rw [hw']
      exact congrArg WalkPhase.listening hcore.symm
  · rfl

theorem SameCore.endRound (h : SameCore s s') (w w' : Window) :
    SameCore (s.endRound w) (s'.endRound w') :=
  ⟨h.lookups, h.frontier, h.queried, h.inflight, h.nextTxid, h.interrupted, h.collector, rfl⟩

theorem SameCore.accept (h : SameCore s s') (src : SocketAddrV4) (response : GetPeersResponse)
    {w w' : Window} (hw : w.core = w'.core) :
    SameCore (s.accept c src response w) (s'.accept c src response w') := by
  simp only [Walk.accept, h.inflight, h.frontier, h.collector]
  refine ⟨h.lookups, rfl, h.queried, rfl, h.nextTxid, h.interrupted, rfl, ?_⟩
  simp only
  split
  · rfl
  · exact congrArg WalkPhase.listening hw

theorem SameCore.receive (h : SameCore s s') (src : Option SocketAddrV4) (datagram : Bytes)
    {w w' : Window} (hw : w.core = w'.core) :
    SameCore (s.receive c src datagram w).1 (s'.receive c src datagram w').1 ∧
      (s.receive c src datagram w).2 = (s'.receive c src datagram w').2 := by
  have hheard : Window.core { w with receivedAny := true } =
      Window.core { w' with receivedAny := true } := hw
  have hquiet (metrics metrics' : DhtWalkMetrics) : SameCore
      { s with phase := .listening { w with receivedAny := true }, metrics := metrics }
      { s' with phase := .listening { w' with receivedAny := true }, metrics := metrics' } :=
    ⟨h.lookups, h.frontier, h.queried, h.inflight, h.nextTxid, h.interrupted, h.collector,
      congrArg WalkPhase.listening hheard⟩
  unfold Walk.receive
  cases src with
  | none => exact ⟨hquiet _ _, rfl⟩
  | some src =>
    cases hparse : parseResponse (datagram.take 2048) with
    | none =>
      simp only [hparse]
      exact ⟨hquiet _ _, trivial⟩
    | some response =>
      by_cases hopen : (src, response.txid) ∈ s.inflight.map (·.1)
      · have hopen' : (src, response.txid) ∈ s'.inflight.map (·.1) := h.inflight ▸ hopen
        simp only [hparse, if_pos hopen, if_pos hopen']
        exact ⟨(hquiet _ _).accept src response hheard, trivial⟩
      · have hopen' : (src, response.txid) ∉ s'.inflight.map (·.1) := h.inflight ▸ hopen
        simp only [hparse, if_neg hopen, if_neg hopen']
        exact ⟨hquiet _ _, trivial⟩

/-- The diagnostics have no influence on anything else. -/
theorem SameCore.exec (h : SameCore s s') (move : WalkMove) :
    SameCore (s.exec c move).1 (s'.exec c move).1 ∧ (s.exec c move).2 = (s'.exec c move).2 := by
  rcases core_eq_cases h.phase with ⟨hphase, hquiet⟩ | ⟨w, w', hphase, hphase', hw⟩
  · have hdone : SameCore { s with phase := .done } { s' with phase := .done } :=
      ⟨h.lookups, h.frontier, h.queried, h.inflight, h.nextTxid, h.interrupted, h.collector, rfl⟩
    cases move with
    | round now joined later =>
      simp only [Walk.exec, ← hphase]
      split
      · split
        · exact h.beginRound joined later
        · exact ⟨hdone, rfl⟩
      · exact ⟨h, rfl⟩
    | lookup now i result =>
      simp only [Walk.exec, ← hphase, ← h.lookups]
      split
      · split
        · obtain ⟨h', hout⟩ := h.join i result
          exact ⟨⟨h'.lookups, h'.frontier, h'.queried, h'.inflight, h'.nextTxid, h'.interrupted,
            h'.collector, rfl⟩, hout⟩
        · exact ⟨h, rfl⟩
      · next window hlisten => exact absurd hlisten (hquiet window)
      · exact ⟨h, rfl⟩
    | send now ok =>
      simp only [Walk.exec, ← hphase]
      split
      · exact h.sendQuery _ _ _ now ok
      · exact ⟨h, rfl⟩
    | listen now =>
      simp only [Walk.exec, ← hphase]
      split
      · exact ⟨h.listen _ now, rfl⟩
      · exact ⟨h, rfl⟩
    | receive now src datagram =>
      simp only [Walk.exec, ← hphase]
      exact ⟨h, trivial⟩
    | elapse =>
      simp only [Walk.exec, ← hphase]
      split
      · exact ⟨hdone, rfl⟩
      · next window hlisten => exact absurd hlisten (hquiet window)
      · exact ⟨h, rfl⟩
  · have hcloses : w.core.closes = w'.core.closes := by rw [hw]
    change w.closes = w'.closes at hcloses
    cases move with
    | round | send | listen =>
      simp only [Walk.exec, hphase, hphase']
      exact ⟨h, trivial⟩
    | elapse =>
      simp only [Walk.exec, hphase, hphase']
      exact ⟨h.endRound w w', trivial⟩
    | lookup now i result =>
      simp only [Walk.exec, hphase, hphase', hcloses, h.lookups]
      split
      · split
        · obtain ⟨h', hout⟩ := h.join i result
          exact ⟨⟨h'.lookups, h'.frontier, h'.queried, h'.inflight, h'.nextTxid,
            congrArg some hw, h'.collector, rfl⟩, hout⟩
        · exact ⟨h, rfl⟩
      · exact ⟨h.endRound w w', rfl⟩
    | receive now src datagram =>
      simp only [Walk.exec, hphase, hphase', hcloses]
      split
      · exact h.receive src datagram hw
      · exact ⟨h.endRound w w', rfl⟩

/-- A datagram that is not accepted leaves everything but the diagnostics. -/
theorem sameCore_receive {src : Option SocketAddrV4} {window : Window}
    (hphase : s.phase = .listening window) (h : (s.receive c src datagram window).2 = []) :
    SameCore s (s.receive c src datagram window).1 := by
  have hquiet (metrics : DhtWalkMetrics) : SameCore s
      { s with phase := .listening { window with receivedAny := true }, metrics := metrics } :=
    ⟨rfl, rfl, rfl, rfl, rfl, rfl, rfl, by rw [hphase]; rfl⟩
  unfold Walk.receive at h ⊢
  cases src with
  | none => exact hquiet _
  | some src =>
    cases hparse : parseResponse (datagram.take 2048) with
    | none =>
      simp only [hparse]
      exact hquiet _
    | some response =>
      simp only [hparse] at h ⊢
      split
      · next hopen =>
        rw [if_pos hopen] at h
        cases h
      · exact hquiet _

/-! ### What is collected -/

/-- The loop over the peers of a response keeps what is harvested, adds peers of the response, and
stays within its bound. -/
theorem collectPeers_spec {h : Harvest ω} (hnodup : h.peers.Nodup) (hlen : h.peers.length ≤ 1024)
    (peers : List SocketAddrV4) :
    (collectPeers onPeer peers h).2.peers.Nodup ∧
      (collectPeers onPeer peers h).2.peers.length ≤ 1024 ∧
      ∀ peer ∈ (collectPeers onPeer peers h).2.peers, peer ∈ h.peers ∨ peer ∈ peers := by
  induction peers generalizing h with
  | nil => exact ⟨hnodup, hlen, fun peer hpeer => .inl hpeer⟩
  | cons p rest ih =>
    unfold collectPeers
    split
    · exact ⟨hnodup, hlen, fun peer hpeer => .inl hpeer⟩
    next hroom =>
    split
    · obtain ⟨h₁, h₂, h₃⟩ := ih hnodup hlen
      exact ⟨h₁, h₂, fun peer hpeer => (h₃ peer hpeer).imp id (List.mem_cons_of_mem _)⟩
    next hnew =>
    have hnodup' : (h.peers ++ [p]).Nodup :=
      List.nodup_append.mpr ⟨hnodup, List.nodup_singleton p, fun a ha b hb heq =>
        hnew (List.mem_singleton.mp hb ▸ heq ▸ ha)⟩
    have hlen' : (h.peers ++ [p]).length ≤ 1024 := by
      rw [List.length_append]
      exact Nat.lt_of_not_le hroom
    have hmem : ∀ peer ∈ h.peers ++ [p], peer ∈ h.peers ∨ peer ∈ p :: rest := by
      intro peer hpeer
      rcases List.mem_append.mp hpeer with hpeer | hpeer
      · exact .inl hpeer
      · exact .inr (List.mem_singleton.mp hpeer ▸ List.mem_cons_self)
    simp only
    split
    · obtain ⟨h₁, h₂, h₃⟩ := ih (h := ⟨h.peers ++ [p], (onPeer h.observer p).2⟩) hnodup' hlen'
      refine ⟨h₁, h₂, fun peer hpeer => ?_⟩
      rcases h₃ peer hpeer with hpeer | hpeer
      · exact hmem peer hpeer
      · exact .inr (List.mem_cons_of_mem _ hpeer)
    · exact ⟨hnodup', hlen', hmem⟩

theorem collectResponsePeers_harvest (target : Nat) (onPeer : ω → SocketAddrV4 → Bool × ω)
    (h : Harvest ω) (src : SocketAddrV4) (response : GetPeersResponse) :
    (collectResponsePeers target onPeer h src response).2 =
      (collectPeers onPeer response.peers h).2 := by
  unfold collectResponsePeers
  split <;> next heq => rw [heq]

/-- A fact that the callback keeps for each accepted response holds of what it has collected. -/
theorem collect_induction {P : γ → List WalkEvent → Prop} (hinit : P init [])
    (hstep : ∀ g log e, P g log → P (collect c g [e]) (log ++ [e])) (log : List WalkEvent) :
    P (collect c init log) log := by
  induction log using List.reverseRecOn with
  | nil => exact hinit
  | append_singleton log e ih =>
    rw [collect_append]
    exact hstep _ log e ih

/-- The harvest is a set of at most 1024 peers, each from an accepted response. -/
def Harvested {ω : Type} (h : Harvest ω) (log : List WalkEvent) : Prop :=
  h.peers.Nodup ∧ h.peers.length ≤ 1024 ∧ ∀ peer ∈ h.peers,
    ∃ src datagram response, .accept src datagram response ∈ log ∧ peer ∈ response.peers

theorem harvested {c : WalkConfig (Harvest ω)} {target : Nat}
    (hc : c.onResponse = collectResponsePeers target onPeer) (observer : ω) (log : List WalkEvent) :
    Harvested (collect c ⟨[], observer⟩ log) log := by
  have hinit : Harvested (⟨[], observer⟩ : Harvest ω) [] :=
    ⟨List.nodup_nil, Nat.zero_le _, fun _ h => (by cases h)⟩
  refine collect_induction hinit (fun h log e H => ?_) log
  have hweaken : Harvested h (log ++ [e]) := by
    refine ⟨H.1, H.2.1, fun peer hpeer => ?_⟩
    obtain ⟨src, datagram, response, hmem, hp⟩ := H.2.2 peer hpeer
    exact ⟨src, datagram, response, List.mem_append_left _ hmem, hp⟩
  cases e with
  | bootstrap | query | expire => exact hweaken
  | accept src datagram response =>
    have heq : collect c h [.accept src datagram response] =
        (collectPeers onPeer response.peers h).2 := by
      rw [← collectResponsePeers_harvest target onPeer h src, ← hc]
      rfl
    rw [heq]
    obtain ⟨h₁, h₂, h₃⟩ := collectPeers_spec hweaken.1 hweaken.2.1 response.peers
    refine ⟨h₁, h₂, fun peer hpeer => ?_⟩
    rcases h₃ peer hpeer with hpeer | hpeer
    · exact hweaken.2.2 peer hpeer
    · exact ⟨src, datagram, response, List.mem_append_right _ List.mem_cons_self, hpeer⟩

/-- The tokens, with their nodes, are from accepted responses of these nodes. -/
def Granted (tokens : List (SocketAddrV4 × Bytes)) (log : List WalkEvent) : Prop :=
  ∀ token ∈ tokens, ∃ datagram response,
    .accept token.1 datagram response ∈ log ∧ response.token = some token.2

theorem granted {c : WalkConfig (List (SocketAddrV4 × Bytes))}
    (hc : c.onResponse = collectTokens) (log : List WalkEvent) :
    Granted (collect c [] log) log := by
  have hinit : Granted [] [] := fun _ h => (by cases h)
  refine collect_induction hinit (fun tokens log e H => ?_) log
  have hweaken : Granted tokens (log ++ [e]) := by
    intro token htoken
    obtain ⟨datagram, response, hmem, heq⟩ := H token htoken
    exact ⟨datagram, response, List.mem_append_left _ hmem, heq⟩
  cases e with
  | bootstrap | query | expire => exact hweaken
  | accept src datagram response =>
    have heq : collect c tokens [.accept src datagram response] =
        (collectTokens tokens src response).2 := by
      rw [← hc]
      rfl
    rw [heq]
    intro token htoken
    simp only [collectTokens] at htoken
    split at htoken
    · next t ht =>
      rcases List.mem_append.mp htoken with htoken | htoken
      · exact hweaken token htoken
      · rw [List.mem_singleton.mp htoken]
        exact ⟨datagram, response, List.mem_append_right _ List.mem_cons_self, ht⟩
    · exact hweaken token htoken

/-! ### The walk -/

/-- What is true of a walk and of the log of what it did. -/
structure Correlated (c : WalkConfig γ) (init : γ) (s : Walk γ) (log : List WalkEvent) : Prop where
  /-- An accepted response is well formed and answers a query to its sender that is open. -/
  answers : ∀ before src datagram response after,
    log = before ++ .accept src datagram response :: after →
      parseResponse datagram = some response ∧
        Exchange.Open (exchanges before) (src, response.txid)
  /-- No query is answered twice. -/
  once : ((exchanges log).filterMap Exchange.answered).Nodup
  /-- What the callback has is made of the accepted responses. -/
  collected : s.collector = collect c init log
  /-- The nodes are from lookups or accepted responses. -/
  nodes : s.frontier.All (Known c log)
  small : s.frontier.size ≤ 64
  /-- A datagram that is not accepted changes nothing but the diagnostics. -/
  rejected : ∀ now src datagram window, s.phase = .listening window → now < window.closes →
    c.events s (.receive now src datagram) = [] → SameCore s (c.step s (.receive now src datagram))

theorem Inv.correlated (H : Inv c init s log) : Correlated c init s log where
  answers before src datagram response after heq := by
    refine ⟨H.genuine src datagram response (by rw [heq]; simp), ?_⟩
    refine H.table.sound (exchanges before) (src, response.txid) (exchanges after) ?_
    rw [heq, exchanges_append]
    rfl
  once := H.table.sound.nodup_answered H.once
  collected := H.collected
  nodes := H.known
  small := H.small
  rejected now src datagram window hphase hnow hnone := by
    simp only [WalkConfig.events, WalkConfig.step, Walk.exec, hphase, if_pos hnow] at hnone ⊢
    exact sameCore_receive hphase hnone

/-- In every run a walk takes peers, tokens and nodes only from answers to its own open queries.
Nothing else of a datagram matters: walks that differ by their diagnostics go on in the same way.
What is harvested of peers is a set of at most 1024. -/
theorem walk_accepts_own_answers (bootstraps : Nat) (moves : List WalkMove) :
    (∀ (γ : Type) (c : WalkConfig γ) (init : γ),
      Correlated c init (run c.step (Walk.start bootstraps init) moves)
        (emits c.step c.events (Walk.start bootstraps init) moves) ∧
      ∀ (s s' : Walk γ) (move : WalkMove), SameCore s s' →
        SameCore (c.step s move) (c.step s' move) ∧ c.events s move = c.events s' move) ∧
    (∀ (ω : Type) (c : WalkConfig (Harvest ω)) (target : Nat)
      (onPeer : ω → SocketAddrV4 → Bool × ω) (observer : ω),
      c.onResponse = collectResponsePeers target onPeer →
      Harvested (run c.step (Walk.start bootstraps ⟨[], observer⟩) moves).collector
        (emits c.step c.events (Walk.start bootstraps ⟨[], observer⟩) moves)) ∧
    ∀ c : WalkConfig (List (SocketAddrV4 × Bytes)), c.onResponse = collectTokens →
      Granted (run c.step (Walk.start bootstraps []) moves).collector
        (emits c.step c.events (Walk.start bootstraps []) moves) := by
  refine ⟨fun γ c init => ⟨(Inv.run c bootstraps init moves).correlated, fun s s' move h =>
    h.exec move⟩, fun ω c target onPeer observer hc => ?_, fun c hc => ?_⟩
  · rw [(Inv.run c bootstraps _ moves).collected]
    exact harvested hc observer _
  · rw [(Inv.run c bootstraps _ moves).collected]
    exact granted hc _

end Outpace.Swarm.Dht

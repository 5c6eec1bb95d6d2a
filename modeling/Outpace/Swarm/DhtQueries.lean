import Outpace.Swarm.DhtWalk

/-!
# Whom a DHT walk queries

A batch is taken from the frontier, which is ordered by node id, and the addresses already queried
are left out when the batch is made. One address under several ids is therefore queried once for
each of them that is in the batch; a walk in whose frontier no address waits under two ids queries
every address at most once.
-/

namespace Outpace.Swarm.Dht
open Wire (Bytes)

variable {γ : Type} {c : WalkConfig γ} {s s' : Walk γ} {log : List WalkEvent}
  {joined : List (Nat × Option SocketAddrV4)}

def WalkEvent.queriedAddr : WalkEvent → Option SocketAddrV4
  | .query addr _ _ => some addr
  | _ => none

/-- The addresses that are sent a query, one for each query. -/
def queriedAddrs (log : List WalkEvent) : List SocketAddrV4 := log.filterMap (·.queriedAddr)

/-- When a round begins, no address that was not queried is in the frontier twice. -/
def OneEntryEach (s : Walk γ) : WalkMove → Prop
  | .round _ joined _ =>
    ∀ e ∈ (Walk.joinAll joined s).1.frontier.entries,
      ∀ e' ∈ (Walk.joinAll joined s).1.frontier.entries, e.2 = e'.2 → e.2 ∉ s.queried → e = e'
  | _ => True

instance (s : Walk γ) (move : WalkMove) : Decidable (OneEntryEach s move) :=
  match move with
  | .round _ _ _ => inferInstanceAs (Decidable (∀ e ∈ _, ∀ e' ∈ _, _ → _ → e = e'))
  | .lookup .. | .send .. | .listen _ | .receive .. | .elapse => inferInstanceAs (Decidable True)

/-- Every address was queried at most once, and those of the batch were not queried. -/
structure Distinct (s : Walk γ) (log : List WalkEvent) : Prop where
  once : (queriedAddrs log).Nodup
  queried : queriedAddrs log ⊆ s.queried
  batch : ∀ todo emptyBatch, s.phase = .sending todo emptyBatch →
    todo.Nodup ∧ ∀ addr ∈ todo, addr ∉ s.queried

theorem queriedAddrs_append (log log' : List WalkEvent) :
    queriedAddrs (log ++ log') = queriedAddrs log ++ queriedAddrs log' := List.filterMap_append

/-- No query is sent. -/
theorem Distinct.quiet (H : Distinct s log) {out : List WalkEvent} (hout : queriedAddrs out = [])
    (hqueried : s'.queried = s.queried)
    (hbatch : ∀ todo emptyBatch, s'.phase = .sending todo emptyBatch →
      todo.Nodup ∧ ∀ addr ∈ todo, addr ∉ s.queried) : Distinct s' (log ++ out) := by
  have heq : queriedAddrs (log ++ out) = queriedAddrs log := by
    rw [queriedAddrs_append, hout, List.append_nil]
  refine ⟨heq ▸ H.once, ?_, fun todo emptyBatch h => hqueried ▸ hbatch todo emptyBatch h⟩
  rw [heq, hqueried]
  exact H.queried

theorem join_quiet (s : Walk γ) (i : Nat) (result : Option SocketAddrV4) :
    (s.join i result).1.queried = s.queried ∧ queriedAddrs (s.join i result).2 = [] := by
  unfold Walk.join
  split
  · cases result <;> exact ⟨rfl, rfl⟩
  · exact ⟨rfl, rfl⟩

theorem joinAll_quiet (s : Walk γ) (joined : List (Nat × Option SocketAddrV4)) :
    (Walk.joinAll joined s).1.queried = s.queried ∧
      queriedAddrs (Walk.joinAll joined s).2 = [] := by
  induction joined generalizing s with
  | nil => exact ⟨rfl, rfl⟩
  | cons j joined ih =>
    obtain ⟨hqueried, hout⟩ := join_quiet s j.1 j.2
    obtain ⟨hqueried', hout'⟩ := ih (s.join j.1 j.2).1
    refine ⟨hqueried'.trans hqueried, ?_⟩
    simp only [Walk.joinAll]
    rw [queriedAddrs_append, hout, hout']
    rfl

theorem queriedAddrs_expire (gone : List (QueryKey × Nat)) :
    queriedAddrs (gone.map fun q => .expire q.1.1 q.1.2) = [] := by
  rw [queriedAddrs, List.filterMap_map]
  exact List.filterMap_eq_nil_iff.mpr fun _ _ => rfl

theorem nodup_batch {now later : Nat} (h : OneEntryEach s (.round now joined later)) :
    (Walk.joinAll joined s).1.batch.Nodup := by
  refine List.Nodup.sublist (List.take_sublist ..) ?_
  rw [OrderedMap.values, List.filter_map]
  refine List.Nodup.map_on (fun e he e' he' heq => ?_) ?_
  · obtain ⟨hmem, hfresh⟩ := List.mem_filter.mp he
    have hfresh : e.2 ∉ (Walk.joinAll joined s).1.queried := of_decide_eq_true hfresh
    rw [(joinAll_quiet s joined).1] at hfresh
    exact h e hmem e' (List.mem_filter.mp he').1 heq hfresh
  · exact (List.Nodup.of_map _ (OrderedMap.keys_nodup _)).sublist List.filter_sublist

theorem Distinct.beginRound (H : Distinct s log) {now later : Nat}
    (hone : OneEntryEach s (.round now joined later)) :
    Distinct (s.beginRound joined later).1 (log ++ (s.beginRound joined later).2) := by
  obtain ⟨hqueried, hout⟩ := joinAll_quiet s joined
  refine H.quiet ?_ hqueried fun todo emptyBatch h => ?_
  · simp only [Walk.beginRound]
    rw [queriedAddrs_append, hout, queriedAddrs_expire]
    rfl
  · simp only [Walk.beginRound] at h
    split at h
    · cases h
    split at h
    · cases h
    · cases h
      refine ⟨nodup_batch hone, fun addr haddr => ?_⟩
      rw [← hqueried]
      exact of_decide_eq_true (List.mem_filter.mp (List.mem_of_mem_take haddr)).2

theorem Distinct.sendQuery (H : Distinct s log) {addr : SocketAddrV4} {todo : List SocketAddrV4}
    {emptyBatch : Bool} (hphase : s.phase = .sending (addr :: todo) emptyBatch) (now : Nat)
    (ok : Bool) :
    Distinct (s.sendQuery c addr todo emptyBatch now ok).1
      (log ++ (s.sendQuery c addr todo emptyBatch now ok).2) := by
  obtain ⟨hnodup, hfresh⟩ := H.batch _ _ hphase
  obtain ⟨hnotin, hnodup⟩ := List.nodup_cons.mp hnodup
  have hrest : ∀ a ∈ todo, a ∉ s.queried ++ [addr] := by
    intro a ha hmem
    rcases List.mem_append.mp hmem with hmem | hmem
    · exact hfresh a (List.mem_cons_of_mem _ ha) hmem
    · exact hnotin (List.mem_singleton.mp hmem ▸ ha)
  unfold Walk.sendQuery
  cases ok with
  | false =>
    simp only [Bool.false_eq_true, if_false, List.append_nil]
    refine ⟨H.once, fun a ha => List.mem_append_left _ (H.queried ha), fun todo' _ h => ?_⟩
    cases h
    exact ⟨hnodup, hrest⟩
  | true =>
    simp only [if_true]
    refine ⟨?_, ?_, fun todo' _ h => ?_⟩
    · rw [queriedAddrs_append]
      refine List.nodup_append.mpr ⟨H.once, List.nodup_singleton addr, fun a ha b hb heq => ?_⟩
      have hb : b = addr := List.mem_singleton.mp hb
      exact hfresh addr List.mem_cons_self (hb ▸ heq ▸ H.queried ha)
    · rw [queriedAddrs_append]
      intro a ha
      rcases List.mem_append.mp ha with ha | ha
      · exact List.mem_append_left _ (H.queried ha)
      · exact List.mem_append_right _ ha
    · cases h
      exact ⟨hnodup, hrest⟩

theorem receive_quiet (s : Walk γ) (src : Option SocketAddrV4) (datagram : Bytes)
    (window : Window) :
    (s.receive c src datagram window).1.queried = s.queried ∧
      queriedAddrs (s.receive c src datagram window).2 = [] ∧
      ∀ todo emptyBatch, (s.receive c src datagram window).1.phase ≠ .sending todo emptyBatch := by
  unfold Walk.receive
  cases src with
  | none => exact ⟨rfl, rfl, fun _ _ h => (by cases h)⟩
  | some src =>
    cases hparse : parseResponse (datagram.take 2048) with
    | none =>
      simp only [hparse]
      exact ⟨trivial, rfl, fun _ _ h => (by cases h)⟩
    | some response =>
      simp only [hparse]
      split
      · refine ⟨rfl, rfl, fun _ _ h => ?_⟩
        simp only [Walk.accept] at h
        split at h <;> cases h
      · exact ⟨rfl, rfl, fun _ _ h => (by cases h)⟩

theorem Distinct.step (H : Distinct s log) {move : WalkMove} (hone : OneEntryEach s move) :
    Distinct (c.step s move) (log ++ c.events s move) := by
  unfold WalkConfig.step WalkConfig.events
  have hstay : Distinct s (log ++ []) := H.quiet rfl rfl H.batch
  have hend (window : Window) : Distinct (s.endRound window) (log ++ []) :=
    H.quiet rfl rfl fun _ _ h => (by cases h)
  have hjoin (i : Nat) (result : Option SocketAddrV4) (interrupted : Option Window) : Distinct
      { (s.join i result).1 with phase := .round, interruptedWindow := interrupted }
      (log ++ (s.join i result).2) :=
    H.quiet (join_quiet s i result).2 (join_quiet s i result).1 fun _ _ h => (by cases h)
  cases move with
  | round now joined later =>
    simp only [Walk.exec]
    split
    · split
      · exact H.beginRound hone
      · exact H.quiet rfl rfl fun _ _ h => (by cases h)
    · exact hstay
  | lookup now i result =>
    simp only [Walk.exec]
    split
    · split
      · exact hjoin i result _
      · exact hstay
    · split
      · split
        · exact hjoin i result _
        · exact hstay
      · exact hend _
    · exact hstay
  | send now ok =>
    simp only [Walk.exec]
    split
    · next hphase => exact H.sendQuery hphase now ok
    · exact hstay
  | listen now =>
    simp only [Walk.exec]
    split
    · exact H.quiet rfl rfl fun _ _ h => (by cases h)
    · exact hstay
  | receive now src datagram =>
    simp only [Walk.exec]
    split
    · split
      · obtain ⟨hqueried, hout, hphase⟩ := receive_quiet (c := c) s src datagram _
        exact H.quiet hout hqueried fun todo emptyBatch h => absurd h (hphase todo emptyBatch)
      · exact hend _
    · exact hstay
  | elapse =>
    simp only [Walk.exec]
    split
    · exact H.quiet rfl rfl fun _ _ h => (by cases h)
    · exact hend _
    · exact hstay

/-- A walk in whose frontier no address waits twice queries every address at most once. -/
theorem queries_each_address_once (c : WalkConfig γ) (bootstraps : Nat) (init : γ)
    (moves : List WalkMove)
    (h : Meets c.step OneEntryEach (Walk.start bootstraps init) moves) :
    (queriedAddrs (emits c.step c.events (Walk.start bootstraps init) moves)).Nodup := by
  have hstart : Distinct (Walk.start bootstraps init) [] :=
    ⟨List.nodup_nil, List.nil_subset _, fun _ _ h => (by cases h)⟩
  have H := run_emits_induction (fun _ _ _ H hone => H.step hone) hstart h
  rw [List.nil_append] at H
  exact H.once

def sampleConfig : WalkConfig (List (SocketAddrV4 × Bytes)) where
  infohash := Vector.replicate 20 0
  nodeId := Vector.replicate 20 7
  deadline := 10 ^ 10
  onResponse := collectTokens

def router : SocketAddrV4 := ⟨⟨10, 0, 0, 1⟩, 6881⟩
def victim : SocketAddrV4 := ⟨⟨10, 0, 0, 9⟩, 80⟩
def bystander : SocketAddrV4 := ⟨⟨10, 0, 0, 8⟩, 80⟩

/-- A compact node. -/
def compactNode (id : UInt8) (addr : SocketAddrV4) : Bytes :=
  List.replicate 20 id ++ [addr.ip.a, addr.ip.b, addr.ip.c, addr.ip.d] ++ be16 addr.port

/-- The router's answer to the first query. -/
def routerAnswer (nodes : List (UInt8 × SocketAddrV4)) : Bytes :=
  let compact := nodes.flatMap fun n => compactNode n.1 n.2
  (Wire.Bencode.dict [(rKey, .dict [(nodesKey, .bytes compact)]),
    (tKey, .bytes (be16 0)), (yKey, .bytes rKey)]).encode

/-- Two rounds: one query to the router, and two to the nodes of its answer. -/
def twoRounds (nodes : List (UInt8 × SocketAddrV4)) : List WalkMove :=
  [.round 0 [(0, some router)] 0, .send 0 true, .listen 0,
    .receive 1 (some router) (routerAnswer nodes), .elapse, .round 2 [] 2, .send 2 true,
    .send 2 true]

theorem queries_each_address_once_sample :
    queriedAddrs (emits sampleConfig.step sampleConfig.events (Walk.start 1 [])
      (twoRounds [(1, victim), (2, bystander)])) = [router, victim, bystander] ∧
    (queriedAddrs (emits sampleConfig.step sampleConfig.events (Walk.start 1 [])
      (twoRounds [(1, victim), (2, bystander)]))).Nodup :=
  ⟨by decide +kernel, queries_each_address_once _ _ _ _ (by decide +kernel)⟩

/-- One address under two ids. -/
theorem queries_address_twice :
    queriedAddrs (emits sampleConfig.step sampleConfig.events (Walk.start 1 [])
      (twoRounds [(1, victim), (2, victim)])) = [router, victim, victim] := by
  decide +kernel

end Outpace.Swarm.Dht

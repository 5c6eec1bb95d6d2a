import Outpace.Data.RoundRobin
import Outpace.Data.Run

/-!
# Requests of downloading peers

`Queues` of `ace-swarm/src/live_session/pool/actor/reciprocal.rs`: each peer of a live session has a
bounded queue of chunks that it asks for, and the peers take turns in the order of their ids.

What a peer asks for leaves its queue in the order in which it was accepted (`Balanced`), and the
turns are fair: this is the general argument of `Outpace.Data.RoundRobin`, with the cursor as the
peer that had the last turn.
-/

namespace Outpace.Swarm.Live

structure ChunkRequest where
  piece : UInt32
  chunk : UInt16
  deriving DecidableEq

structure Queues where
  waiting : OrderedMap Nat (List ChunkRequest)
  cursor : Nat

namespace Queues

def default : Queues := ⟨∅, 0⟩

/-- What a peer waits for. -/
def waitingOf (q : Queues) (peer : Nat) : List ChunkRequest := (q.waiting.get? peer).getD []

def push (q : Queues) (peer : Nat) (request : ChunkRequest) : Queues :=
  let queue := q.waitingOf peer
  { q with
    waiting := q.waiting.insert peer (if queue.length < 64 then queue ++ [request] else queue) }

def retainCurrent (q : Queues) (current : Nat → Bool) : Queues :=
  { q with waiting := q.waiting.filter fun id _ => current id }

def pop (q : Queues) : Option (Nat × ChunkRequest) × Queues :=
  match q.waiting.nextAfter q.cursor with
  | none => (none, q)
  | some id =>
    match q.waiting.get? id with
    | none => (none, q)
    | some [] => (none, q)
    | some (request :: queue) =>
      (some (id, request),
        ⟨if queue.isEmpty then q.waiting.erase id else q.waiting.insert id queue, id⟩)

/-! ### Runs -/

inductive Op where
  | push (peer : Nat) (request : ChunkRequest)
  | retainCurrent (current : Nat → Bool)
  | pop

def step (q : Queues) : Op → Queues
  | .push peer request => q.push peer request
  | .retainCurrent current => q.retainCurrent current
  | .pop => q.pop.2

/-- The peer of a pop. -/
def turns (q : Queues) : Op → List Nat
  | .pop => q.pop.1.toList.map (·.1)
  | _ => []

inductive QueueEvent where
  | accepted (peer : Nat) (request : ChunkRequest)
  | refused (peer : Nat) (request : ChunkRequest)
  | popped (peer : Nat) (request : ChunkRequest)
  | dropped (peer : Nat) (request : ChunkRequest)

/-- What becomes of the requests. A request is refused if its peer has 64 of them. -/
def events (q : Queues) : Op → List QueueEvent
  | .push peer request =>
    if (q.waitingOf peer).length < 64 then [.accepted peer request] else [.refused peer request]
  | .retainCurrent current =>
    q.waiting.entries.flatMap fun e => if current e.1 then [] else e.2.map (.dropped e.1)
  | .pop => q.pop.1.toList.map fun e => .popped e.1 e.2

/-- The requests of a peer that were accepted. -/
def accepted (peer : Nat) (log : List QueueEvent) : List ChunkRequest :=
  log.filterMap fun
    | .accepted p request => if p = peer then some request else none
    | _ => none

/-- The requests of a peer that were popped or dropped. -/
def left (peer : Nat) (log : List QueueEvent) : List ChunkRequest :=
  log.filterMap fun
    | .popped p request => if p = peer then some request else none
    | .dropped p request => if p = peer then some request else none
    | _ => none

/-- The operation gives no peer a queue. -/
def AddsNone (q : Queues) (op : Op) : Prop :=
  ∀ peer request, op = .push peer request → q.waitingOf peer ≠ []

/-! ### One operation -/

/-- Every queue has something in it, and not more than its bound. -/
def Filled (q : Queues) : Prop := q.waiting.All fun _ queue => queue ≠ [] ∧ queue.length ≤ 64

variable {peer : Nat}

theorem waitingOf_of_get? {q : Queues} {queue : List ChunkRequest}
    (h : q.waiting.get? peer = some queue) : q.waitingOf peer = queue := by
  rw [waitingOf, h, Option.getD_some]

theorem contains_of_waitingOf {q : Queues} (h : q.waitingOf peer ≠ []) :
    q.waiting.contains peer = true := by
  rw [OrderedMap.contains_iff]
  cases hget : q.waiting.get? peer with
  | none => exact absurd (by rw [waitingOf, hget]; rfl) h
  | some queue => exact ⟨queue, rfl⟩

theorem Filled.waitingOf_ne_nil {q : Queues} (H : q.Filled) (h : q.waiting.contains peer = true) :
    q.waitingOf peer ≠ [] := by
  obtain ⟨queue, hget⟩ := OrderedMap.contains_iff.mp h
  rw [waitingOf_of_get? hget]
  exact (H peer queue hget).1

/-- What a pop can do. -/
inductive Pops (q : Queues) : Option (Nat × ChunkRequest) × Queues → Prop
  | idle : q.waiting = ∅ → Pops q (none, q)
  | blocked {id : Nat} : q.waiting.contains id = true → q.waitingOf id = [] → Pops q (none, q)
  | turn {id : Nat} {request : ChunkRequest} {queue : List ChunkRequest} {q' : Queues} :
    Next (fun k => q.waiting.contains k = true) q.cursor id →
    q.waiting.get? id = some (request :: queue) → q'.cursor = id →
    (∀ k, q'.waiting.get? k =
      if k = id then (if queue = [] then none else some queue) else q.waiting.get? k) →
    Pops q (some (id, request), q')

theorem pops (q : Queues) : Pops q q.pop := by
  unfold pop
  cases hnext : q.waiting.nextAfter q.cursor with
  | none => exact .idle (OrderedMap.nextAfter_eq_none.mp hnext)
  | some id =>
    have hn := OrderedMap.nextAfter_next hnext
    obtain ⟨queue, hget⟩ := OrderedMap.contains_iff.mp hn.mem
    simp only [hget]
    cases queue with
    | nil => exact .blocked hn.mem (waitingOf_of_get? hget)
    | cons request queue =>
      refine .turn hn hget rfl fun k => ?_
      cases queue with
      | nil => exact OrderedMap.get?_erase ..
      | cons next queue => exact OrderedMap.get?_insert ..

theorem waitingOf_push (q : Queues) (peer : Nat) (request : ChunkRequest) (k : Nat) :
    (q.push peer request).waitingOf k =
      if k = peer then
        (if (q.waitingOf peer).length < 64 then q.waitingOf peer ++ [request] else q.waitingOf peer)
      else q.waitingOf k := by
  rw [waitingOf, push, OrderedMap.get?_insert]
  split <;> rfl

theorem waitingOf_retainCurrent (q : Queues) (current : Nat → Bool) (k : Nat) :
    (q.retainCurrent current).waitingOf k = if current k then q.waitingOf k else [] := by
  rw [waitingOf, retainCurrent, OrderedMap.get?_filter, waitingOf]
  cases q.waiting.get? k <;> cases current k <;> rfl

theorem waitingOf_turn {q q' : Queues} {id : Nat} {queue : List ChunkRequest}
    (h : ∀ k, q'.waiting.get? k =
      if k = id then (if queue = [] then none else some queue) else q.waiting.get? k) (k : Nat) :
    q'.waitingOf k = if k = id then queue else q.waitingOf k := by
  rw [waitingOf, h]
  split
  · by_cases hqueue : queue = []
    · rw [if_pos hqueue, hqueue]
      rfl
    · rw [if_neg hqueue]
      rfl
  · rfl

theorem Filled.step {q : Queues} (H : q.Filled) (op : Op) : (q.step op).Filled := by
  cases op with
  | push peer request =>
    refine OrderedMap.All.insert H ?_
    have hle : (q.waitingOf peer).length ≤ 64 := by
      cases hget : q.waiting.get? peer with
      | none => rw [waitingOf, hget]; exact Nat.zero_le _
      | some queue => rw [waitingOf_of_get? hget]; exact (H peer queue hget).2
    split
    · next hlt => exact ⟨by simp, by rw [List.length_append]; exact hlt⟩
    · next hge =>
      exact ⟨fun hnil => hge (by rw [hnil]; decide), hle⟩
  | retainCurrent current =>
    intro k queue hget
    exact H k queue (OrderedMap.get?_filter_eq_some.mp hget).1
  | pop =>
    have P := q.pops
    show q.pop.2.Filled
    generalize q.pop = r at P
    cases P with
    | idle | blocked => exact H
    | @turn id request queue q' hn hget hcursor hwaiting =>
      intro k queue' hget'
      rw [hwaiting k] at hget'
      split at hget'
      · split at hget'
        · cases hget'
        · next hne =>
          cases hget'
          have hlen := (H id _ hget).2
          rw [List.length_cons] at hlen
          exact ⟨hne, by omega⟩
      · exact H k queue' hget'

theorem filled_default : default.Filled := OrderedMap.All.empty

/-- A pop finds something if anything waits. -/
theorem Filled.pop_eq_none_iff {q : Queues} (H : q.Filled) :
    q.pop.1 = none ↔ ∀ peer, q.waitingOf peer = [] := by
  have P := q.pops
  generalize q.pop = r at P
  cases P with
  | idle hempty =>
    refine iff_of_true rfl fun peer => ?_
    rw [waitingOf, hempty]
    rfl
  | blocked hcontains hnil => exact absurd hnil (H.waitingOf_ne_nil hcontains)
  | @turn id request queue q' hn hget hcursor hwaiting =>
    refine iff_of_false (by simp) fun hall => ?_
    have := hall id
    rw [waitingOf_of_get? hget] at this
    cases this

/-! ### In order -/

/-- What was accepted of a peer has left in this order, or waits. -/
def Balanced (q : Queues) (log : List QueueEvent) : Prop :=
  ∀ peer, accepted peer log = left peer log ++ q.waitingOf peer

theorem accepted_append (peer : Nat) (log log' : List QueueEvent) :
    accepted peer (log ++ log') = accepted peer log ++ accepted peer log' := List.filterMap_append

theorem left_append (peer : Nat) (log log' : List QueueEvent) :
    left peer (log ++ log') = left peer log ++ left peer log' := List.filterMap_append

theorem left_dropped (peer id : Nat) (queue : List ChunkRequest) :
    accepted peer (queue.map (.dropped id)) = [] ∧
      left peer (queue.map (.dropped id)) = if id = peer then queue else [] := by
  simp only [accepted, left, List.filterMap_map]
  by_cases hid : id = peer <;> simp [hid]

/-- The requests that a retain drops. -/
theorem dropped_requests (q : Queues) (current : Nat → Bool) (peer : Nat) :
    accepted peer (q.events (.retainCurrent current)) = [] ∧
      left peer (q.events (.retainCurrent current)) =
        if current peer then [] else q.waitingOf peer := by
  obtain ⟨⟨entries, hsorted⟩, cursor⟩ := q
  simp only [events, waitingOf, OrderedMap.get?]
  induction entries with
  | nil => exact ⟨rfl, (ite_self _).symm⟩
  | cons e entries ih =>
    obtain ⟨hfirst, hsorted⟩ := List.pairwise_cons.mp hsorted
    obtain ⟨haccepted, hleft⟩ := ih hsorted
    obtain ⟨hnone, hown⟩ := left_dropped peer e.1 e.2
    rw [List.flatMap_cons, accepted_append, left_append, haccepted, hleft, List.find?_cons]
    by_cases he : e.1 = peer
    · -- the later keys are other peers
      subst he
      have hlater : (entries.find? fun e' => e'.1 == e.1) = none := by
        refine List.find?_eq_none.mpr fun e' he' => ?_
        have := hfirst e' he'
        simp only [beq_iff_eq]
        omega
      rw [if_pos rfl] at hown
      rw [hlater, beq_self_eq_true]
      cases current e.1
      · rw [if_neg (by decide), hnone, hown]
        exact ⟨rfl, List.append_nil _⟩
      · exact ⟨rfl, rfl⟩
    · rw [if_neg he] at hown
      rw [beq_false_of_ne he]
      cases current e.1
      · rw [if_neg (by decide), hnone, hown]
        exact ⟨rfl, rfl⟩
      · exact ⟨rfl, rfl⟩

theorem Balanced.step {q : Queues} {log : List QueueEvent} (B : Balanced q log) (op : Op) :
    Balanced (q.step op) (log ++ q.events op) := by
  intro peer
  rw [accepted_append, left_append, B peer]
  cases op with
  | push p request =>
    rw [Queues.step, waitingOf_push, events]
    by_cases hp : p = peer
    · subst hp
      rw [if_pos rfl]
      split <;> simp [accepted, left]
    · rw [if_neg (Ne.symm hp)]
      split <;> simp [accepted, left, hp]
  | retainCurrent current =>
    obtain ⟨haccepted, hleft⟩ := q.dropped_requests current peer
    rw [haccepted, hleft, Queues.step, waitingOf_retainCurrent]
    cases current peer <;> simp
  | pop =>
    have P := q.pops
    show left peer log ++ q.waitingOf peer ++
      accepted peer (q.pop.1.toList.map fun e => .popped e.1 e.2) = _ ++
      left peer (q.pop.1.toList.map fun e => .popped e.1 e.2) ++ q.pop.2.waitingOf peer
    generalize q.pop = r at P
    cases P with
    | idle | blocked => simp [accepted, left]
    | @turn id request queue q' hn hget hcursor hwaiting =>
      rw [waitingOf_turn hwaiting]
      by_cases hid : peer = id
      · subst hid
        simp [accepted, left, waitingOf_of_get? hget]
      · simp [accepted, left, hid, Ne.symm hid]

/-! ### In turn -/

/-- The turn that an operation takes. -/
theorem turns_step (q : Queues) (op : Op) :
    (q.turns op = [] ∧ (q.step op).cursor = q.cursor) ∨
      ∃ id, q.turns op = [id] ∧ (q.step op).cursor = id ∧
        Next (fun k => q.waiting.contains k = true) q.cursor id := by
  cases op with
  | push peer request => exact .inl ⟨rfl, rfl⟩
  | retainCurrent current => exact .inl ⟨rfl, rfl⟩
  | pop =>
    have P := q.pops
    show (q.pop.1.toList.map (·.1) = [] ∧ q.pop.2.cursor = q.cursor) ∨
      ∃ id, q.pop.1.toList.map (·.1) = [id] ∧ q.pop.2.cursor = id ∧ _
    generalize q.pop = r at P
    cases P with
    | idle | blocked => exact .inl ⟨rfl, rfl⟩
    | @turn id request queue q' hn hget hcursor hwaiting => exact .inr ⟨id, rfl, hcursor, hn⟩

/-- A peer without a queue gets one by a push only. -/
theorem waitingOf_step_eq_nil {q : Queues} {op : Op} (hadds : q.AddsNone op)
    (h : q.waitingOf peer = []) : (q.step op).waitingOf peer = [] := by
  cases op with
  | push p request =>
    have hp : peer ≠ p := by
      rintro rfl
      exact hadds peer request rfl h
    rw [step, waitingOf_push, if_neg hp, h]
  | retainCurrent current => rw [step, waitingOf_retainCurrent, h, ite_self]
  | pop =>
    have P := q.pops
    show q.pop.2.waitingOf peer = []
    generalize q.pop = r at P
    cases P with
    | idle | blocked => exact h
    | @turn id request queue q' hn hget hcursor hwaiting =>
      have hid : peer ≠ id := by
        rintro rfl
        rw [waitingOf_of_get? hget] at h
        cases h
      rw [waitingOf_turn hwaiting, if_neg hid, h]

/-- If nobody is added, a peer that waits at the end has waited all the time. -/
theorem meets_waiting {q : Queues} {ops : List Op} (hadds : Meets step AddsNone q ops)
    (h : (run step q ops).waitingOf peer ≠ []) :
    Meets step (fun q _ => q.waitingOf peer ≠ []) q ops := by
  induction ops generalizing q with
  | nil => trivial
  | cons op ops ih =>
    refine ⟨fun hnil => h ?_, ih hadds.2 h⟩
    exact run_induction (I := fun q => waitingOf q peer = [])
      (fun _ _ h hadds => waitingOf_step_eq_nil hadds h) hnil hadds

theorem count_append_ite (p n : Nat) (log : List Nat) :
    (log ++ [n]).count p = log.count p + if n = p then 1 else 0 := by
  rw [List.count_append, List.count_singleton]
  simp only [beq_iff_eq]

section
variable {p r : Nat} {q : Queues} {ops : List Op}

theorem run_ahead {P R : Nat} (hpr : p ≠ r) (h : Ahead p r q.cursor P R)
    (hwaits : Meets step (fun q _ => q.waitingOf r ≠ []) q ops) :
    Ahead p r (run step q ops).cursor (P + (emits step turns q ops).count p)
      (R + (emits step turns q ops).count r) := by
  let I (q : Queues) (log : List Nat) := Ahead p r q.cursor (P + log.count p) (R + log.count r)
  refine @run_emits_induction _ _ _ step _ turns q ops I (fun q log op H hwait => ?_) [] h hwaits
  show Ahead _ _ _ _ _
  rcases q.turns_step op with ⟨hturns, hcursor⟩ | ⟨id, hturns, hcursor, hn⟩
  · rw [hturns, hcursor, List.append_nil]
    exact H
  · rw [hturns, hcursor, count_append_ite, count_append_ite, ← Nat.add_assoc, ← Nat.add_assoc]
    exact H.next hn (contains_of_waitingOf hwait) hpr

/-- The turn of a peer that has a request. -/
theorem next_of_pop {request : ChunkRequest} (h : q.pop.1 = some (p, request)) :
    q.pop.2.cursor = p ∧ q.waitingOf p ≠ [] ∧
      Next (fun k => q.waiting.contains k = true) q.cursor p := by
  have P := q.pops
  generalize q.pop = result at P h
  cases P with
  | idle | blocked => cases h
  | @turn id request queue q' hn hget hcursor hwaiting =>
    cases h
    exact ⟨hcursor, by rw [waitingOf_of_get? hget]; simp, hn⟩

end

/-- After any operations, what was accepted of a peer has left its queue in this order or waits in
it, no stored queue is empty or longer than 64, and a pop finds a request whenever there is one.
Between two pops of a peer, every other peer that waits all the time has more turns than the peer
itself has in between, and exactly one more if no peer is added; so between two turns one after the
other it has exactly one. -/
theorem requests_served_in_turn (ops : List Op) :
    let q := run step default ops
    let log := emits step events default ops
    (∀ peer, accepted peer log = left peer log ++ q.waitingOf peer) ∧
    (∀ peer queue, q.waiting.get? peer = some queue → queue ≠ [] ∧ queue.length ≤ 64) ∧
    (q.pop.1 = none ↔ ∀ peer, q.waitingOf peer = []) ∧
    ∀ p request between request',
      let served := emits step turns q.pop.2 between
      let q' := run step q.pop.2 between
      q.pop.1 = some (p, request) → q'.pop.1 = some (p, request') →
      ∀ r, r ≠ p → Meets step (fun q _ => q.waitingOf r ≠ []) q.pop.2 between →
        q'.waitingOf r ≠ [] →
        served.count p < served.count r ∧
          (Meets step AddsNone q.pop.2 between → served.count r = served.count p + 1) := by
  intro q log
  have H : q.Filled := run_invariant (I := Filled) (fun _ op H => H.step op) filled_default ops
  have B : Balanced q log := @run_emits_invariant _ _ _ step events default Balanced
    (fun _ _ op B => B.step op) [] (fun _ => rfl) ops
  refine ⟨B, H, H.pop_eq_none_iff, ?_⟩
  intro p request between request' served q' hpop hpop' r hr hwaits hend
  obtain ⟨hcursor, -, -⟩ := next_of_pop hpop
  obtain ⟨-, hwaiting, hn⟩ := next_of_pop hpop'
  have harc := hn.back (contains_of_waitingOf hend) (Ne.symm hr)
  have hstart : Ahead p r q.pop.2.cursor 0 0 := by
    rw [hcursor]
    exact ahead_self (Ne.symm hr)
  have hlt : 0 + served.count p < 0 + served.count r :=
    (run_ahead (Ne.symm hr) hstart hwaits).after harc
  refine ⟨by omega, fun hadds => ?_⟩
  -- the peer itself waits as well, and is one turn ahead of the other at the start
  have hback : Ahead r p q.pop.2.cursor 0 1 := ⟨fun _ => Nat.zero_le _, fun _ => Nat.zero_lt_one⟩
  have hle : 0 + served.count r ≤ 1 + served.count p :=
    (run_ahead hr hback (meets_waiting hadds hwaiting)).before harc
  omega

end Queues

end Outpace.Swarm.Live

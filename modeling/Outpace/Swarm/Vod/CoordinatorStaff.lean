import Outpace.Swarm.Vod.CoordinatorRetries

/-!
# Workers of a download

Who works for a download: every running task has its worker, an address has one worker at a time, and
an address whose worker ended with a hash mismatch has no worker again.
-/

namespace Outpace.Swarm.Vod

def Phase.result? : Phase → Option TaskResult
  | .finished result => some result
  | _ => none

namespace Sys

/-- The address of a worker that was not joined. -/
def addressOf (s : Sys) (id : Nat) : Option Nat := (s.workers.get? id).map (·.address)

/-- How a worker that was not joined ended. -/
def ended (s : Sys) (id : Nat) : Option TaskResult := s.tasks.look (·.phase.result?) id

/-- What a step does to the workers: it keeps them, it starts one, or it joins one that ended. -/
inductive Staffing (d : Download) (s s' : Sys) : List (Nat × Nat) → Prop
  | kept : s'.addressOf = s.addressOf → s'.tasks.contains = s.tasks.contains →
    (∀ id result, s.ended id = some result → s'.ended id = some result) →
    s'.banned = s.banned → Staffing d s s' []
  | started {address : Nat} : s.nextAddress d = some address →
    s'.addressOf = Function.update s.addressOf s.nextWorker (some address) →
    s'.tasks.contains = Function.update s.tasks.contains s.nextWorker true →
    s'.ended = Function.update s.ended s.nextWorker none →
    s'.banned = s.banned → Staffing d s s' [(s.cursor, address)]
  | joined {id : Nat} {result : TaskResult} : s.ended id = some result →
    s'.addressOf = Function.update s.addressOf id none ∨
      s'.addressOf = s.addressOf ∧ (result = .panicked ∨ s.addressOf id = none) →
    s'.tasks.contains = Function.update s.tasks.contains id false →
    s'.ended = Function.update s.ended id none →
    (∀ a : Nat, s.banned[a]? = some true → s'.banned[a]? = some true) →
    (∀ a, a < s.banned.length → result = .failed .hash → s.addressOf id = some a →
      s'.banned[a]? = some true) → Staffing d s s' []

variable {d : Download} {s s' : Sys} {log : List (Nat × Nat)} {id address : Nat}

theorem addressOf_modify {f : Worker → Worker} (h : s'.workers = s.workers.modify id f)
    (hf : ∀ w, (f w).address = w.address) : s'.addressOf = s.addressOf := by
  funext k
  unfold addressOf
  rw [h, OrderedMap.get?_modify]
  split
  · rw [Option.map_map]
    exact congrArg (Option.map · _) (funext hf)
  · rfl

theorem addressOf_insert {w : Worker} (h : s'.workers = s.workers.insert id w) :
    s'.addressOf = Function.update s.addressOf id (some w.address) := by
  funext k
  unfold addressOf
  rw [h, OrderedMap.get?_insert, Function.update_apply]
  split
  · rfl
  · rfl

theorem addressOf_erase (h : s'.workers = s.workers.erase id) :
    s'.addressOf = Function.update s.addressOf id none := by
  funext k
  unfold addressOf
  rw [h, OrderedMap.get?_erase, Function.update_apply]
  split
  · rfl
  · rfl

theorem Staffing.quiet (hworkers : s'.workers = s.workers) (htasks : s'.tasks = s.tasks)
    (hbanned : s'.banned = s.banned) : Staffing d s s' [] := by
  refine .kept ?_ (by rw [htasks]) (fun id result h => ?_) hbanned
  · unfold addressOf
    rw [hworkers]
  · unfold ended
    rw [htasks]
    exact h

/-- A job goes to a worker. -/
theorem Staffing.modified {f : Worker → Worker} {g : Task → Task}
    (hworkers : s'.workers = s.workers.modify id f) (htasks : s'.tasks = s.tasks.modify id g)
    (hbanned : s'.banned = s.banned) (hf : ∀ w, (f w).address = w.address)
    (hg : ∀ t, (g t).phase = t.phase) : Staffing d s s' [] := by
  refine .kept (addressOf_modify hworkers hf) (funext fun k => ?_) (fun k result h => ?_) hbanned
  · rw [htasks, OrderedMap.contains_modify]
  · unfold ended
    rw [htasks]
    have hsame := OrderedMap.look_modify_of_forall (g := fun t : Task => t.phase.result?) s.tasks id
      fun t => congrArg Phase.result? (hg t)
    exact (congrFun hsame k).trans h

theorem staffing_coordinate (s : Sys) :
    Staffing d s (s.coordinate d) (s.started d .coordinate) := by
  unfold Sys.coordinate started
  cases hpc : s.pc with
  | top =>
    show Staffing d s (s.top d) []
    unfold Sys.top
    repeat' split
    all_goals exact .quiet rfl rfl rfl
  | connecting =>
    show Staffing d s (s.connect d) _
    unfold Sys.connect
    split
    · next address h =>
      rw [h]
      refine .started ?_ ?_ (OrderedMap.contains_insert ..) (OrderedMap.look_insert ..) rfl
      · split at h
        · exact h
        · cases h
      · exact addressOf_insert (w := ⟨address, none⟩) rfl
    · next h =>
      rw [h]
      exact .quiet rfl rfl rfl
  | assigning pieces =>
    show Staffing d s (s.assigning pieces) []
    cases pieces with
    | nil =>
      rw [Sys.assigning]
      repeat' split
      all_goals exact .quiet rfl rfl rfl
    | cons piece pieces =>
      show Staffing d s { s.assignPiece piece with pc := .assigning pieces } []
      obtain heq | ⟨c, id, w, -, -, -, -, -, heq⟩ := assignPiece_spec s piece
      · rw [heq]
        exact .quiet rfl rfl rfl
      · rw [heq, Sys.dispatch]
        dsimp only
        split
        · exact .modified (f := fun w => { w with job := some ⟨piece, s.generation + 1⟩ })
            (g := fun t => { t with command := some ⟨piece, s.generation + 1⟩ })
            rfl rfl rfl (fun _ => rfl) fun _ => rfl
        · exact .quiet rfl rfl rfl
  | sending => exact .quiet rfl rfl rfl
  | selecting => exact .quiet rfl rfl rfl
  | done => exact .quiet rfl rfl rfl

theorem staffing_join (s : Sys) (id : Nat) : Staffing d s (s.join id) [] := by
  unfold Sys.join
  split
  · next ht =>
    have hended : s.ended id = some .panicked := OrderedMap.look_of_get? ht
    exact .joined hended (.inr ⟨rfl, .inl rfl⟩) (OrderedMap.contains_erase ..)
      (OrderedMap.look_erase ..) (fun _ h => h) fun _ _ h => (by cases h)
  · next result _ _ ht =>
    have hended : s.ended id = some result := OrderedMap.look_of_get? ht
    dsimp only
    split
    · next hw =>
      have hnone : s.addressOf id = none := by rw [addressOf, hw]; rfl
      exact .joined hended (.inr ⟨rfl, .inr hnone⟩) (OrderedMap.contains_erase ..)
        (OrderedMap.look_erase ..) (fun _ h => h) fun _ _ _ h => (by rw [hnone] at h; cases h)
    · next w hw =>
      refine .joined hended (.inl (addressOf_erase rfl)) (OrderedMap.contains_erase ..)
        (OrderedMap.look_erase ..) (fun a h => ?_) fun a ha hresult haddress => ?_
      · dsimp only
        split
        · rw [List.getElem?_set]
          split
          · next heq => rw [if_pos (heq ▸ (List.getElem?_eq_some_iff.mp h).1)]
          · exact h
        · exact h
      · have hwa : w.address = a := by
          rw [addressOf, hw] at haddress
          exact Option.some.inj haddress
        dsimp only
        rw [if_pos hresult, hwa, List.getElem?_set_self ha]
  · exact .quiet rfl rfl rfl

/-- A worker that ended does nothing any more. -/
theorem stepTask_finished {t : Task} {result : TaskResult} (h : t.phase = .finished result)
    (s : Sys) (id : Nat) (e : WorkerEvent) : s.stepTask d id t e = s := by
  cases e <;> rw [stepTask, h]

theorem staffing_worker (s : Sys) (id : Nat) (e : WorkerEvent) (R : s.Roster d) :
    Staffing d s (s.worker d id e) [] := by
  unfold Sys.worker
  split
  · next t ht =>
    have hkept : ∀ {s' : Sys} {t' : Task}, s'.workers = s.workers → s'.banned = s.banned →
        s'.tasks = s.tasks.insert id t' → s.stepTask d id t e = s' → Staffing d s s' [] := by
      intro s' t' hworkers hbanned htasks hs'
      cases hresult : t.phase.result? with
      | some result =>
        have hphase : t.phase = .finished result := by
          cases hp : t.phase <;> rw [hp] at hresult <;> cases hresult
          rfl
        rw [← hs', stepTask_finished hphase]
        exact .quiet rfl rfl rfl
      | none =>
        refine .kept ?_ ?_ (fun k result h => ?_) hbanned
        · unfold addressOf
          rw [hworkers]
        · rw [htasks, OrderedMap.contains_insert]
          exact Function.update_eq_self_iff.mpr (OrderedMap.contains_iff.mpr ⟨t, ht⟩).symm
        · unfold ended
          rw [htasks, OrderedMap.look_insert, Function.update_apply]
          split
          · next hk =>
            subst hk
            rw [ended, OrderedMap.look_of_get? ht, hresult] at h
            cases h
          · exact h
    generalize hs' : s.stepTask d id t e = s'
    cases hs' ▸ stepTask_spec (s := s) (R.wf _ _ ht) id e with
    | same => exact .quiet rfl rfl rfl
    | moved | reported => exact hkept rfl rfl rfl hs'
  · exact .quiet rfl rfl rfl

theorem staffing_step (R : s.Roster d) (a : Action) : Staffing d s (s.step d a) (s.started d a) := by
  cases a with
  | coordinate => exact staffing_coordinate s
  | consume =>
    show Staffing d s s.consume []
    unfold Sys.consume
    repeat' split
    all_goals exact .quiet rfl rfl rfl
  | closeConsumer =>
    show Staffing d s s.closeConsumer []
    unfold Sys.closeConsumer
    split
    all_goals exact .quiet rfl rfl rfl
  | receive =>
    show Staffing d s s.receive []
    unfold Sys.receive
    split
    · next c _ _ _ =>
      dsimp only
      split
      · refine .kept ?_ rfl (fun _ _ h => h) rfl
        exact addressOf_modify (f := fun w => { w with job := none }) rfl fun _ => rfl
      · exact .quiet rfl rfl rfl
    · exact .quiet rfl rfl rfl
  | join id => exact staffing_join s id
  | wake =>
    show Staffing d s s.wake []
    unfold Sys.wake
    split
    all_goals exact .quiet rfl rfl rfl
  | worker id e => exact staffing_worker s id e R

/-- Every task has its worker. -/
def Manned (s : Sys) : Prop :=
  ∀ id, s.tasks.contains id = true → ∃ address, s.addressOf id = some address

theorem Manned.step (H : s.Manned) (h : Staffing d s s' log) : s'.Manned := by
  intro id hid
  cases h with
  | kept haddress htasks _ _ =>
    rw [haddress]
    exact H id (htasks ▸ hid)
  | started _ haddress htasks _ _ =>
    rw [htasks, Function.update_apply] at hid
    rw [haddress, Function.update_apply]
    split at hid
    · next heq => exact ⟨_, if_pos heq⟩
    · next hne =>
      rw [if_neg hne]
      exact H id hid
  | joined _ haddress htasks _ _ _ =>
    rw [htasks, Function.update_apply] at hid
    split at hid
    · cases hid
    · next hne =>
      obtain haddress | ⟨haddress, -⟩ := haddress
      · rw [haddress, Function.update_of_ne hne]
        exact H id hid
      · rw [haddress]
        exact H id hid

/-- A worker of the address ended with a hash mismatch, and the coordinator has seen it or will. -/
def Mismatched (s : Sys) (address : Nat) : Prop :=
  s.banned[address]? = some true ∨
    ∃ id, s.ended id = some (.failed .hash) ∧ s.addressOf id = some address

theorem Mismatched.not_next (H : s.Mismatched address) : s.nextAddress d ≠ some address := by
  intro h
  obtain ⟨-, hbanned, -, hworkers⟩ := nextAddress_spec h
  obtain hb | ⟨id, -, haddress⟩ := H
  · rw [hb] at hbanned
    cases hbanned
  · obtain ⟨w, hw, hwa⟩ := Option.map_eq_some_iff.mp haddress
    exact hworkers id w hw hwa

theorem Mismatched.step (H : s.Mismatched address) (R : s.Roster d) (h : Staffing d s s' log) :
    s'.Mismatched address ∧ ∀ e ∈ log, e.2 ≠ address := by
  cases h with
  | kept haddress _ hended hbanned =>
    refine ⟨?_, fun e he => (by cases he)⟩
    rcases H with hb | ⟨id, hid, hida⟩
    · exact .inl (hbanned ▸ hb)
    · exact .inr ⟨id, hended id _ hid, haddress ▸ hida⟩
  | started hnext haddress _ hended hbanned =>
    refine ⟨?_, fun e he heq => ?_⟩
    · rcases H with hb | ⟨id, hid, hida⟩
      · exact .inl (hbanned ▸ hb)
      · have hne : id ≠ s.nextWorker := by
          rintro rfl
          obtain ⟨t, ht, -⟩ := OrderedMap.look_eq_some.mp hid
          rw [R.fresh.2] at ht
          cases ht
        refine .inr ⟨id, ?_, ?_⟩
        · rw [hended, Function.update_of_ne hne, hid]
        · rw [haddress, Function.update_of_ne hne, hida]
    · cases List.mem_singleton.mp he
      cases heq
      exact H.not_next hnext
  | @joined id' result hresult haddress _ hended hkept hset =>
    refine ⟨?_, fun e he => (by cases he)⟩
    rcases H with hb | ⟨id, hid, hida⟩
    · exact .inl (hkept address hb)
    · by_cases heq : id = id'
      · subst heq
        have hlt : address < s.banned.length := by
          obtain ⟨w, hw, rfl⟩ := Option.map_eq_some_iff.mp hida
          rw [R.banned]
          exact (R.workers _ _ hw).2
        have hhash : result = .failed .hash := Option.some.inj (hresult.symm.trans hid)
        exact .inl (hset address hlt hhash hida)
      · refine .inr ⟨id, ?_, ?_⟩
        · rw [hended, Function.update_of_ne heq, hid]
        · rcases haddress with haddress | ⟨haddress, -⟩
          · rw [haddress, Function.update_of_ne heq, hida]
          · rw [haddress, hida]

theorem manned_run (d : Download) (actions : List Action) :
    (run (step d) (start d) actions).Manned := by
  have h : (run (step d) (start d) actions).Manned ∧
      ∃ completions, (run (step d) (start d) actions).Inv d completions :=
    run_invariant (I := fun (s : Sys) => s.Manned ∧ ∃ completions, s.Inv d completions)
      (fun s a ⟨H, _, I⟩ => ⟨H.step (staffing_step I.roster a), _, I.step a⟩)
      ⟨fun id hid => (by cases hid), [], .start d⟩ actions
  exact h.1

/-- No worker is started for an address that had a hash mismatch. -/
theorem Mismatched.run {completions : List Completion} (H : s.Mismatched address)
    (I : s.Inv d completions) (actions : List Action) :
    ∀ e ∈ emits (Sys.step d) (started d) s actions, e.2 ≠ address :=
  forall_emits (I := fun (s : Sys) => s.Mismatched address ∧ ∃ completions, s.Inv d completions)
    (fun _ a ⟨H, _, I⟩ => ⟨(H.step I.roster (staffing_step I.roster a)).1, _, I.step a⟩)
    (fun _ a ⟨H, _, I⟩ => (H.step I.roster (staffing_step I.roster a)).2) ⟨H, completions, I⟩

theorem Retries.addressOf_inj (H : s.Retries d log) {id id' address : Nat}
    (h : s.addressOf id = some address) (h' : s.addressOf id' = some address) : id = id' := by
  obtain ⟨w, hw, hwa⟩ := Option.map_eq_some_iff.mp h
  obtain ⟨w', hw', hwa'⟩ := Option.map_eq_some_iff.mp h'
  exact H.addresses id id' w w' hw hw' (hwa.trans hwa'.symm)

end Sys

theorem usablePeers_nodup {α : Type} [DecidableEq α] (permits : α → Bool) (peers : List α) :
    (usablePeers permits peers).Nodup := by
  have hfold : ∀ kept : List α, kept.Nodup → (peers.foldl (fun kept peer =>
      if permits peer && !kept.contains peer then kept ++ [peer] else kept) kept).Nodup := by
    induction peers with
    | nil => exact fun _ h => h
    | cons peer peers ih =>
      intro kept h
      rw [List.foldl_cons]
      refine ih _ ?_
      split
      · next hnew =>
        have hmem : peer ∉ kept := by
          simpa using (Bool.and_eq_true_iff.mp hnew).2
        exact List.nodup_append.mpr ⟨h, List.nodup_singleton _, fun x hx y hy hxy =>
          hmem (List.mem_singleton.mp hy ▸ hxy ▸ hx)⟩
      · exact h
  exact hfold [] .nil

open Sys in
/-- The workers of a download, under every schedule. Addresses are the positions of the usable peers,
which are distinct. While the cursor stays at one piece no address gets more than
`maxAttempts * window + 1` workers, so a download starts a bounded number of them. A counter of
attempts is past the limit only for the piece at the cursor and only by one: a worker that the
cursor's move left idle at a piece its address has no attempts for costs one attempt more when it
dies. An address has one worker at a time, and none after one that ended with a hash mismatch. -/
theorem retries_bounded {α : Type} [DecidableEq α] (sha1 : Bytes → Bytes) (info : VodInfo)
    (permits : α → Bool) (peers : List α) (first rangeEnd concurrency : Nat)
    (hrange : rangeEnd ≤ u64Max) (actions : List Action) :
    let d := Download.new sha1 info permits peers first rangeEnd concurrency
    let usable := usablePeers permits peers
    let s := run (step d) (start d) actions
    let log := emits (step d) (started d) (start d) actions
    usable.Nodup ∧ (∀ e ∈ log, e.2 < usable.length) ∧
    (∀ piece address, log.count (piece, address) ≤ maxAttempts * window + 1) ∧
    log.length = s.nextWorker ∧
    s.nextWorker ≤
      (maxAttempts * window + 1) * ((min rangeEnd info.pieceCount - first) * usable.length) ∧
    (∀ piece c (address n : Nat), s.credits.get? piece = some c → c.attempts[address]? = some n →
      n ≤ maxAttempts + 1 ∧ (piece ≠ s.cursor → n ≤ maxAttempts)) ∧
    (∀ id, s.tasks.contains id = true → ∃ address, s.addressOf id = some address) ∧
    (∀ id id' address, s.addressOf id = some address → s.addressOf id' = some address → id = id') ∧
    ∀ before after, actions = before ++ after → ∀ id address,
      (run (step d) (start d) before).ended id = some (.failed .hash) →
      (run (step d) (start d) before).addressOf id = some address →
      ∀ e ∈ emits (step d) (started d) (run (step d) (start d) before) after, e.2 ≠ address := by
  intro d usable s log
  have H : s.Retries d log := retries_run d hrange actions
  refine ⟨usablePeers_nodup permits peers, fun e he => (H.logged e he).2.2.2,
    fun piece address => H.counts _, H.total, ?_, fun piece c address n hc hn => ?_, manned_run d actions,
    fun id id' address h h' => H.addressOf_inj h h', fun before after _ id address hend haddress => ?_⟩
  · rw [← H.total]
    exact length_le_of_count (fun e he => ⟨(H.logged e he).1, (H.logged e he).2.2.1, (H.logged e he).2.2.2⟩)
      H.counts
  · have hattempts : s.attempts piece address = n := by
      rw [attempts, attemptsOf_of_get? hc, hn]
      rfl
    rcases H.bounded piece address with h | ⟨hcursor, h, -⟩
    · exact ⟨by omega, fun _ => by omega⟩
    · exact ⟨by omega, fun hne => absurd hcursor hne⟩
  · exact Mismatched.run (.inr ⟨id, hend, haddress⟩) (inv_run d before) after

/-- Two pieces of a byte each. -/
def twoBytes : VodInfo := ⟨1, 1, 2, [[], []]⟩

def twoBytesDownload : Download :=
  Download.new (fun _ => []) twoBytes (fun _ => true) [10, 20] 0 2 2

/-- The coordinator goes once around its loop with two workers, and a worker breaks with the piece
that it got there. -/
def lostFetch (id : Nat) : List Action :=
  [.worker id .connected, .worker id (.message .unchoke), .wake] ++
    List.replicate 5 .coordinate ++ [.worker id .broken, .join id]

/-- Worker 1 gets piece 0. The other address fails three times at piece 1, and its fourth worker is
still idle when piece 0 is there and the cursor moves to piece 1. -/
def idleBehindCursor : List Action :=
  List.replicate 7 .coordinate ++
    [.worker 1 .connected, .worker 1 (.message .unchoke), .wake] ++ List.replicate 5 .coordinate ++
    lostFetch 0 ++ List.replicate 6 .coordinate ++ lostFetch 2 ++ List.replicate 6 .coordinate ++
    lostFetch 3 ++ List.replicate 6 .coordinate ++
    [.worker 1 .takeCommand, .worker 1 (.message (.piece 0 0 [7])), .worker 1 .report, .receive,
      .coordinate, .consume] ++ List.replicate 4 .coordinate ++ [.worker 4 .broken, .join 4]

open Sys in
theorem attempts_past_limit :
    (run (step twoBytesDownload) (start twoBytesDownload) idleBehindCursor).attempts 1 0 =
      maxAttempts + 1 := by
  decide +kernel

open Sys in
theorem retries_bounded_four :
    let log := emits (step twoBytesDownload) (started twoBytesDownload) (start twoBytesDownload)
      idleBehindCursor
    log.count (0, 0) = 4 ∧ log.count (0, 0) ≤ maxAttempts * window + 1 :=
  ⟨by decide +kernel, (retries_bounded (fun _ => []) twoBytes (fun _ => true) [10, 20] 0 2 2
    (by decide) idleBehindCursor).2.2.1 0 0⟩

end Outpace.Swarm.Vod

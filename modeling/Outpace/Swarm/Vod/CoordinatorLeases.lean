import Outpace.Data.Leases
import Outpace.Swarm.Vod.Coordinator

/-!
# Pieces are leased

The coordinator's owners and jobs, the jobs its worker tasks hold and the completions on their way
are leases: each step of the system is an operation of the lease protocol, or none. So at every
moment a piece is worked on by one worker at most, and it is the one the coordinator has for it.
-/

namespace Outpace.Swarm.Vod

/-- The job of a task in its loop. -/
def Phase.job? : Phase → Option Job
  | .fetching job _ | .reporting job _ => some job
  | _ => none

/-- The job that a task still has to report on. -/
def Task.held (t : Task) : Option Job := t.command.or t.phase.job?

/-- What holds of a task between two steps. -/
structure Task.WF (d : Download) (t : Task) : Prop where
  exclusive : t.phase.job?.isSome → t.command = none
  finished : ∀ result, t.phase = .finished result → t.command = none
  fetching : ∀ job assembly, t.phase = .fetching job assembly →
    assembly.buffer.bytes.length = d.info.pieceSize job.piece
  reporting : ∀ job bytes, t.phase = .reporting job bytes → d.Verified job.piece bytes

namespace Sys

variable {d : Download} {s : Sys} {id : Nat} {t : Task} {w : Worker}

def leases (s : Sys) : Leases Nat Nat Job where
  owner := s.credits.look (·.owner)
  job := s.workers.look (·.job)
  held := s.tasks.look Task.held
  reports := s.completions.map fun c => (c.worker, c.job)
  stamp := s.generation

abbrev Leased (s : Sys) : Prop := s.leases.Inv Job.piece Job.generation

theorem leased_of_eq {l : Leases Nat Nat Job} (H : l.Inv Job.piece Job.generation)
    (h : s.leases = l) : Leased s := by
  rw [Leased, h]
  exact H

theorem held_of_get? (h : s.tasks.get? id = some t) :
    s.leases.held id = t.held := OrderedMap.look_of_get? h

theorem job_of_get? (h : s.workers.get? id = some w) :
    s.leases.job id = w.job := OrderedMap.look_of_get? h

theorem owner_of_get? {piece : Nat} {c : Credit} (h : s.credits.get? piece = some c) :
    s.leases.owner piece = c.owner := OrderedMap.look_of_get? h

/-! ### Worker steps -/

/-- What a step of a worker task can do: change the task without taking up a job, or report. -/
inductive TaskStep (d : Download) (s : Sys) (id : Nat) (t : Task) : Sys → Prop
  | same : TaskStep d s id t s
  | moved {t' : Task} (notified : Bool) : t'.WF d → t'.held = none ∨ t'.held = t.held →
    TaskStep d s id t { s with tasks := s.tasks.insert id t', notified := notified }
  | reported {job : Job} {bytes : Bytes} : t.phase = .reporting job bytes →
    TaskStep d s id t
      { s with
        tasks := s.tasks.insert id { t with phase := .idle }
        completions := s.completions ++ [⟨id, job, bytes⟩] }

theorem wf_finished (t : Task) (result : TaskResult) :
    Task.WF d { t with command := none, phase := .finished result } :=
  ⟨nofun, fun _ _ => rfl, nofun, nofun⟩

theorem wf_onFetchMessage {job : Job} {assembly : Assembly} (W : t.WF d)
    (h : t.phase = .fetching job assembly) (m : PeerMessage) :
    (t.onFetchMessage d job assembly m).WF d ∧
      ((t.onFetchMessage d job assembly m).held = none ∨
        (t.onFetchMessage d job assembly m).held = t.held) := by
  have hcommand : t.command = none := W.exclusive (by rw [h]; rfl)
  have hheld : t.held = some job := by rw [Task.held, hcommand, h]; rfl
  obtain ⟨hcontinued, hfinished⟩ :=
    Assembly.onMessage_spec d.sha1 t.availability m (W.fetching job assembly h)
  unfold Task.onFetchMessage
  split
  · next assembly' availability' heq =>
    refine ⟨⟨fun _ => hcommand, nofun, ?_, nofun⟩, .inr ?_⟩
    · rintro _ _ ⟨⟩
      exact hcontinued _ _ heq
    · rw [hheld, Task.held, hcommand]
      rfl
  · next bytes heq =>
    refine ⟨⟨fun _ => hcommand, nofun, nofun, ?_⟩, .inr ?_⟩
    · rintro _ _ ⟨⟩
      exact hfinished _ heq
    · rw [hheld, Task.held, hcommand]
      rfl
  · exact ⟨wf_finished t _, .inl rfl⟩
  · exact ⟨wf_finished t _, .inl rfl⟩

theorem stepTask_spec (W : t.WF d) (id : Nat) (e : WorkerEvent) :
    TaskStep d s id t (s.stepTask d id t e) := by
  cases e with
  | connected =>
    simp only [stepTask]
    split
    · next h =>
      refine .moved s.notified ⟨nofun, nofun, nofun, nofun⟩ (.inr ?_)
      rw [Task.held, Task.held, h]
      rfl
    · exact .same
  | takeCommand =>
    simp only [stepTask]
    split
    · next job hphase hcommand =>
      refine .moved s.notified ⟨fun _ => rfl, nofun, ?_, nofun⟩ (.inr ?_)
      · rintro _ _ ⟨⟩
        rw [Assembly.request_buffer]
        exact List.length_replicate
      · rw [Task.held, Task.held, hcommand]
        rfl
    · exact .same
  | commandsClosed =>
    simp only [stepTask]
    split
    · next hphase hcommand =>
      split
      · exact .same
      · refine .moved s.notified ⟨nofun, fun _ _ => hcommand, nofun, nofun⟩ (.inl ?_)
        rw [Task.held, hcommand]
        rfl
    · exact .same
  | message m =>
    simp only [stepTask]
    split
    · next hphase =>
      split
      · refine .moved true ⟨?_, ?_, ?_, ?_⟩ (.inr rfl)
        all_goals simp only [hphase, Phase.job?]
        all_goals nofun
      · exact .moved s.notified (wf_finished t _) (.inl rfl)
    · next job assembly hphase =>
      obtain ⟨hwf, hheld⟩ := wf_onFetchMessage W hphase m
      exact .moved s.notified hwf hheld
    · exact .same
  | broken =>
    simp only [stepTask]
    split
    · exact .same
    · exact .same
    · exact .moved s.notified (wf_finished t _) (.inl rfl)
  | report =>
    simp only [stepTask]
    split
    · next job bytes hphase =>
      split
      · exact .reported hphase
      · exact .same
    · exact .same
  | panic =>
    simp only [stepTask]
    split
    · exact .same
    · exact .moved s.notified (wf_finished t _) (.inl rfl)

/-- Changing a task without taking up a job keeps the leases, or loses one. -/
theorem Leased.setTask (H : Leased s) {t t' : Task} {notified : Bool}
    (ht : s.tasks.get? id = some t) (h : t'.held = none ∨ t'.held = t.held) :
    Leased { s with tasks := s.tasks.insert id t', notified := notified } := by
  rcases h with h | h
  · apply leased_of_eq (H.lose id)
    simp only [leases, Leases.lose, OrderedMap.look_insert, h]
  · apply leased_of_eq H
    rw [← held_of_get? ht] at h
    simp only [leases, OrderedMap.look_insert, h, Function.update_eq_self]

theorem Leased.report (H : Leased s) {job : Job} {bytes : Bytes} (W : t.WF d)
    (ht : s.tasks.get? id = some t) (h : t.phase = .reporting job bytes) :
    Leased
      { s with
        tasks := s.tasks.insert id { t with phase := .idle }
        completions := s.completions ++ [⟨id, job, bytes⟩] } := by
  have hcommand : t.command = none := W.exclusive (by rw [h]; rfl)
  have hheld : s.leases.held id = some job := by
    rw [held_of_get? ht, Task.held, hcommand, h]
    rfl
  have hidle : Task.held { t with phase := .idle } = none := by rw [Task.held, hcommand]; rfl
  apply leased_of_eq (Leases.Inv.report H hheld)
  simp only [leases, Leases.report, Leases.lose, OrderedMap.look_insert, hidle, List.map_append,
    List.map_cons, List.map_nil]

/-! ### Coordinator steps -/

theorem leases_openCredits (credits : OrderedMap Nat Credit) (pieces : List Nat) :
    (pieces.foldl (openCredit d) credits).look (·.owner) = credits.look (·.owner) := by
  induction pieces generalizing credits with
  | nil => rfl
  | cons piece pieces ih =>
    rw [List.foldl_cons, ih]
    unfold openCredit
    split
    · rfl
    · next h =>
      have hnone : credits.look (·.owner) piece = none := by
        rw [OrderedMap.look, OrderedMap.contains_eq_false.mp (by simpa using h)]
        rfl
      rw [OrderedMap.look_insert, Credit.new, ← hnone, Function.update_eq_self]

theorem Leased.top (H : Leased s) (d : Download) : Leased (s.top d) := by
  unfold Sys.top
  split
  · exact H
  split
  · exact H
  split
  · apply leased_of_eq H
    simp only [leases]
    rw [OrderedMap.look_modify_of_forall]
    exact fun _ => rfl
  · apply leased_of_eq H
    simp only [leases, leases_openCredits]

/-- Worker numbers are used once. -/
def Fresh (s : Sys) : Prop := s.workers.get? s.nextWorker = none ∧ s.tasks.get? s.nextWorker = none

theorem Leased.connect (H : Leased s) (hf : Fresh s) (d : Download) : Leased (s.connect d) := by
  unfold Sys.connect
  split
  · apply leased_of_eq H
    have hjob : s.workers.look (·.job) s.nextWorker = none := by rw [OrderedMap.look, hf.1]; rfl
    have hheld : s.tasks.look Task.held s.nextWorker = none := by rw [OrderedMap.look, hf.2]; rfl
    have hnew : Task.held ⟨.default, none, .connecting⟩ = none := rfl
    simp only [leases, OrderedMap.look_insert, hnew]
    rw [← hheld, Function.update_eq_self, hheld, ← hjob, Function.update_eq_self]
  · exact H

/-- A piece goes to a worker only if nobody has it, and the worker has nothing else. -/
theorem assignPiece_spec (s : Sys) (piece : Nat) :
    s.assignPiece piece = s ∨ ∃ c id w, s.credits.get? piece = some c ∧ c.owner = none ∧
      c.bytes = none ∧ s.workers.get? id = some w ∧ w.job = none ∧
      s.assignPiece piece = s.dispatch piece id w := by
  unfold Sys.assignPiece
  split
  · exact .inl rfl
  next c hc =>
  split
  · exact .inl rfl
  next hfree =>
  simp only [Bool.or_eq_true, not_or, Bool.not_eq_true, Option.isSome_eq_false_iff,
    Option.isNone_iff_eq_none] at hfree
  split
  · next id w hnext =>
    obtain ⟨hmem, he⟩ := List.mem_filter.mp (List.argmin_mem (Option.mem_def.mpr hnext))
    simp only [eligible, Bool.and_eq_true, Option.isNone_iff_eq_none] at he
    exact .inr ⟨c, id, w, hc, hfree.1, hfree.2, OrderedMap.get?_eq_some.mpr hmem, he.1.1.1, rfl⟩
  · exact .inl rfl

theorem Leased.dispatch (H : Leased s) {piece id : Nat} {c : Credit}
    (hc : s.credits.get? piece = some c) (hfree : c.owner = none) (hw : s.workers.get? id = some w)
    (hidle : w.job = none) : Leased (s.dispatch piece id w) := by
  unfold Sys.dispatch
  dsimp only
  split
  · next hacc =>
    obtain ⟨t, ht, hempty⟩ := (Option.any_eq_true _ _).mp hacc
    simp only [Bool.and_eq_true, Option.isNone_iff_eq_none] at hempty
    have hgrant := Leases.Inv.grant (j := ⟨piece, s.generation + 1⟩) (w := id) H
      ((owner_of_get? hc).trans hfree) ((job_of_get? hw).trans hidle) rfl
    apply leased_of_eq hgrant
    simp only [leases, Leases.grant, OrderedMap.look_modify hc, OrderedMap.look_modify hw,
      OrderedMap.look_modify ht]
    rfl
  · exact H.tick

theorem Leased.assignPiece (H : Leased s) (piece : Nat) : Leased (s.assignPiece piece) := by
  obtain heq | ⟨c, id, w, hc, hfree, -, hw, hidle, heq⟩ := s.assignPiece_spec piece
  · rw [heq]
    exact H
  · rw [heq]
    exact H.dispatch hc hfree hw hidle

theorem Leased.assigning (H : Leased s) (pieces : List Nat) : Leased (s.assigning pieces) := by
  cases pieces with
  | cons piece pieces => exact H.assignPiece piece
  | nil =>
    rw [Sys.assigning]
    split
    · exact H
    split
    · exact H
    · exact H

theorem Leased.coordinate (H : Leased s) (hf : Fresh s) (d : Download) :
    Leased (s.coordinate d) := by
  unfold Sys.coordinate
  split
  · exact H.top d
  · exact H.connect hf d
  · exact H.assigning _
  · exact H

/-- The credit at the cursor belongs to nobody while its bytes are sent. -/
theorem Leased.consume (H : Leased s)
    (h : ∀ bytes, s.pc = .sending bytes → s.leases.owner s.cursor = none) : Leased s.consume := by
  unfold Sys.consume
  split
  · next bytes hpc =>
    split
    · exact H
    · apply leased_of_eq H
      have howner : s.credits.look (·.owner) s.cursor = none := h bytes hpc
      simp only [leases, OrderedMap.look_erase]
      rw [← howner, Function.update_eq_self]
  · exact H

theorem Leased.closeConsumer (H : Leased s) : Leased s.closeConsumer := by
  unfold Sys.closeConsumer
  split <;> exact H

/-- The worker of a current completion does not hold the job any more. -/
theorem Leased.not_held (H : Leased s) {c : Completion} (hmem : c ∈ s.completions)
    (hw : s.workers.get? c.worker = some w) (hjob : w.job = some c.job) :
    s.leases.held c.worker = none := by
  cases hheld : s.leases.held c.worker with
  | none => rfl
  | some j =>
    have hj : j = c.job := by
      have := H.held hheld
      rw [job_of_get? hw, hjob] at this
      exact (Option.some.inj this).symm
    subst hj
    exact absurd hheld (H.reported (List.mem_map_of_mem hmem))

theorem current_eq_true {c : Completion} :
    s.current c = true ↔ ∃ w, s.workers.get? c.worker = some w ∧ w.job = some c.job := by
  simp [current, Option.any_eq_true]

theorem Leased.receive (H : Leased s) : Leased s.receive := by
  unfold Sys.receive
  split
  · next c rest hpc hqueue =>
    dsimp only
    split
    · next hcur =>
      obtain ⟨w, hw, hjob⟩ := current_eq_true.mp hcur
      have hmem : c ∈ s.completions := by rw [hqueue]; exact List.mem_cons_self
      have hfree := H.not_held hmem hw hjob
      have hj : s.leases.job c.worker = some c.job := (job_of_get? hw).trans hjob
      obtain ⟨credit, hcredit, howner⟩ := OrderedMap.look_eq_some.mp (H.leased hj)
      apply leased_of_eq ((H.finish hj hfree).discard)
      simp only [leases, Leases.finish, Leases.discard, hqueue, OrderedMap.look_modify hw,
        OrderedMap.look_modify hcredit, howner, if_true, List.map_cons, List.tail_cons]
    · apply leased_of_eq H.discard
      simp only [leases, Leases.discard, hqueue, List.map_cons, List.tail_cons]
  · exact H

/-- A finished task has no job left to report on. -/
theorem held_finished (W : t.WF d) (ht : s.tasks.get? id = some t) {result : TaskResult}
    (hdone : t.phase = .finished result) : s.leases.held id = none := by
  rw [held_of_get? ht, Task.held, W.finished result hdone, hdone]
  rfl

theorem look_erase_task (hheld : s.leases.held id = none) :
    (s.tasks.erase id).look Task.held = s.tasks.look Task.held := by
  rw [OrderedMap.look_erase, ← hheld]
  exact Function.update_eq_self ..

theorem Leased.release (H : Leased s) (hheld : s.leases.held id = none)
    (hw : s.workers.get? id = some w) {pc : Pc} {banned : List Bool} :
    Leased
      { s with
        pc := pc
        banned := banned
        tasks := s.tasks.erase id
        workers := s.workers.erase id
        credits := s.release id w } := by
  unfold Sys.release
  cases hjob : w.job with
  | some job =>
    have hj : s.leases.job id = some job := (job_of_get? hw).trans hjob
    obtain ⟨credit, hcredit, howner⟩ := OrderedMap.look_eq_some.mp (H.leased hj)
    apply leased_of_eq (H.finish hj hheld)
    simp only [leases, Leases.finish, look_erase_task hheld, OrderedMap.look_erase,
      OrderedMap.look_modify hcredit, howner, if_true]
  | none =>
    have hj : s.workers.look (·.job) id = none := (job_of_get? hw).trans hjob
    apply leased_of_eq H
    simp only [leases, look_erase_task hheld, OrderedMap.look_erase]
    rw [← hj, Function.update_eq_self, OrderedMap.look_modify_of_forall]
    exact fun _ => rfl

theorem Leased.join (H : Leased s) (W : s.tasks.All fun _ t => t.WF d) (id : Nat) :
    Leased (s.join id) := by
  unfold Sys.join
  split
  · next ht =>
    apply leased_of_eq H
    simp only [leases, look_erase_task (held_finished (W _ _ ht) ht rfl)]
  · next ht =>
    have hheld := held_finished (W _ _ ht) ht rfl
    dsimp only
    split
    · apply leased_of_eq H
      simp only [leases, look_erase_task hheld]
    · next hw => exact H.release hheld hw
  · exact H

theorem Leased.wake (H : Leased s) : Leased s.wake := by
  unfold Sys.wake
  split
  · exact H
  · exact H

theorem Leased.worker (H : Leased s) (W : s.tasks.All fun _ t => t.WF d) (id : Nat)
    (e : WorkerEvent) : Leased (s.worker d id e) := by
  unfold Sys.worker
  split
  · next t ht =>
    generalize hs' : s.stepTask d id t e = s'
    cases hs' ▸ stepTask_spec (s := s) (W _ _ ht) id e with
    | same => exact H
    | moved _ _ hheld => exact H.setTask ht hheld
    | reported hphase => exact H.report (W _ _ ht) ht hphase
  · exact H

end Sys

end Outpace.Swarm.Vod

import Outpace.Swarm.Vod.CoordinatorBooks

/-!
# What a download delivers

The chunks of a download are the pieces of its range in order, verified, each once and each from a
completion that was current when the coordinator took it. A worker that is gone stays gone, so what
it reported before or reports after is not taken any more.
-/

namespace Outpace.Swarm.Vod

namespace Sys

variable {d : Download} {s : Sys} {id : Nat}

/-- The worker was started and removed. -/
def Retired (s : Sys) (id : Nat) : Prop := id < s.nextWorker ∧ s.workers.get? id = none

theorem Retired.modify (h : s.Retired id) (k : Nat) (f : Worker → Worker) :
    (s.workers.modify k f).get? id = none := by
  rw [OrderedMap.get?_modify, h.2]
  exact ite_self _

theorem Retired.connect (h : s.Retired id) : (s.connect d).Retired id := by
  unfold Sys.connect
  split
  · refine ⟨Nat.lt_succ_of_lt h.1, ?_⟩
    exact (OrderedMap.get?_insert_of_ne _ _ (Nat.ne_of_lt h.1)).trans h.2
  · exact h

theorem Retired.assigning (h : s.Retired id) (pieces : List Nat) :
    (s.assigning pieces).Retired id := by
  cases pieces with
  | cons piece pieces =>
    obtain heq | ⟨c, owner, w, -, -, -, -, -, heq⟩ := s.assignPiece_spec piece
    · rw [Sys.assigning, heq]
      exact h
    · rw [Sys.assigning, heq]
      unfold Sys.dispatch
      dsimp only
      split
      · exact ⟨h.1, h.modify ..⟩
      · exact h
  | nil =>
    rw [Sys.assigning]
    split
    · exact h
    split
    · exact h
    · exact h

theorem Retired.receive (h : s.Retired id) : s.receive.Retired id := by
  unfold Sys.receive
  split
  · dsimp only
    split
    · exact ⟨h.1, h.modify ..⟩
    · exact h
  · exact h

theorem Retired.join (h : s.Retired id) (k : Nat) : (s.join k).Retired id := by
  unfold Sys.join
  split
  · exact h
  · dsimp only
    split
    · exact h
    · refine ⟨h.1, ?_⟩
      rw [OrderedMap.get?_erase, h.2]
      exact ite_self _
  · exact h

/-- A worker that is gone stays gone. -/
theorem Retired.step (h : s.Retired id) (R : s.Roster d) (a : Action) :
    (s.step d a).Retired id := by
  cases a with
  | coordinate =>
    simp only [Sys.step, Sys.coordinate]
    split
    · unfold Sys.top
      split
      · exact h
      split
      · exact h
      split
      · exact h
      · exact h
    · exact h.connect
    · exact h.assigning _
    · exact h
  | consume =>
    simp only [Sys.step, Sys.consume]
    split
    · split
      · exact h
      · exact h
    · exact h
  | closeConsumer =>
    simp only [Sys.step, Sys.closeConsumer]
    split
    · exact h
    · exact h
    · exact h
  | receive => exact h.receive
  | join k => exact h.join k
  | wake =>
    simp only [Sys.step, Sys.wake]
    split
    · exact h
    · exact h
  | worker k e =>
    simp only [Sys.step, Sys.worker]
    split
    · next t ht =>
      generalize hs' : s.stepTask d k t e = s'
      cases hs' ▸ stepTask_spec (s := s) (R.wf _ _ ht) k e with
      | same => exact h
      | moved => exact h
      | reported => exact h
    · exact h

theorem Retired.not_accepted (h : s.Retired id) {a : Action} {c : Completion}
    (hc : c ∈ s.accepted a) : c.worker ≠ id := by
  rintro rfl
  unfold accepted at hc
  split at hc
  · split at hc
    · split at hc
      · next c' _ _ _ hbuffers =>
        obtain rfl : c = c' := List.mem_singleton.mp hc
        obtain ⟨w, hw, -⟩ := current_eq_true.mp (Bool.and_eq_true_iff.mp hbuffers).1
        rw [h.2] at hw
        cases hw
      · cases hc
    · cases hc
  · cases hc

/-- Nothing from a worker that is gone is accepted. -/
theorem Retired.run (h : s.Retired id) {log : List Completion} (H : Inv d s log)
    (actions : List Action) : ∀ c ∈ emits (Sys.step d) accepted s actions, c.worker ≠ id :=
  forall_emits (I := fun s => s.Retired id ∧ ∃ log, Inv d s log)
    (fun _ a I => ⟨I.1.step I.2.choose_spec.roster a, _, I.2.choose_spec.step a⟩)
    (fun _ _ I _ hc => I.1.not_accepted hc) ⟨h, log, H⟩

end Sys

open Sys in
/-- A download of the pieces from `first` to `rangeEnd`, under every schedule: what was sent is the
verified pieces of the range from its first on; the outcome is `Ok` only with all of them sent that
have a hash; a piece has one owner and a worker one job, down to the jobs in the tasks; no credit is
outside the window; and everything sent was accepted from a worker that was not gone by then. -/
theorem download_delivers {α : Type} [DecidableEq α] (sha1 : Bytes → Bytes) (info : VodInfo)
    (permits : α → Bool) (peers : List α) (first rangeEnd concurrency : Nat)
    (actions : List Action) :
    let d := Download.new sha1 info permits peers first rangeEnd concurrency
    let stop := min rangeEnd info.pieceCount
    let s := run (step d) (start d) actions
    (∀ i chunk, s.sent[i]? = some chunk →
      first + i < stop ∧ chunk.length = info.pieceSize (first + i) ∧
      info.pieceHashes[first + i]? = some (sha1 chunk) ∧
      ∃ c ∈ emits (step d) accepted (start d) actions, c.job.piece = first + i ∧ c.bytes = chunk) ∧
    (s.pc = .done (.ok ()) → s.sent.length = stop - first) ∧
    (∀ piece c id, s.credits.get? piece = some c → c.owner = some id →
      ∃ w job, s.workers.get? id = some w ∧ w.job = some job ∧ job.piece = piece) ∧
    (∀ id w job, s.workers.get? id = some w → w.job = some job →
      ∃ c, s.credits.get? job.piece = some c ∧ c.owner = some id) ∧
    (∀ id t job, s.tasks.get? id = some t → t.command = some job ∨ t.phase.job? = some job →
      ∃ w, s.workers.get? id = some w ∧ w.job = some job) ∧
    (∀ piece c, s.credits.get? piece = some c →
      first + s.sent.length ≤ piece ∧ piece < stop ∧ piece < first + s.sent.length + window) ∧
    ∀ before after, actions = before ++ after → ∀ id, (run (step d) (start d) before).Retired id →
      ∀ c ∈ emits (step d) accepted (run (step d) (start d) before) after, c.worker ≠ id := by
  intro d stop s
  obtain ⟨L, R, B⟩ := inv_run d actions
  refine ⟨fun i chunk h => ?_, fun h => ?_, fun piece c id hc ho => ?_, fun id w job hw hj => ?_,
    fun id t job ht hj => ?_, fun piece c hc => ?_, fun before after _ id h => ?_⟩
  · obtain ⟨hlt, hsourced⟩ := B.sent i chunk h
    exact ⟨hlt, hsourced.verified.length, hsourced.verified.hash, hsourced.reported⟩
  · have hstage := B.stage
    rw [h] at hstage
    exact hstage
  · obtain ⟨job, hjob, hpiece⟩ := L.owned ((owner_of_get? hc).trans ho)
    obtain ⟨w, hw, hwjob⟩ := OrderedMap.look_eq_some.mp hjob
    exact ⟨w, job, hw, hwjob, hpiece⟩
  · exact OrderedMap.look_eq_some.mp (L.leased ((job_of_get? hw).trans hj))
  · have hheld : t.held = some job := by
      rcases hj with hj | hj
      · rw [Task.held, hj]
        rfl
      · rw [Task.held, (R.wf _ _ ht).exclusive (by rw [hj]; rfl), hj]
        rfl
    exact OrderedMap.look_eq_some.mp (L.held ((held_of_get? ht).trans hheld))
  · have hok := B.credits _ _ hc
    have hahead := hok.ahead
    have hwin := hok.inWindow
    have hsat := saturatingAdd_le_add s.cursor window
    rw [B.cursor] at hahead
    refine ⟨hahead, hwin.trans_le (Nat.min_le_left ..), ?_⟩
    have hcursor : s.cursor = first + s.sent.length := B.cursor
    rw [← hcursor]
    exact (hwin.trans_le (Nat.min_le_right ..)).trans_le hsat
  · exact h.run (inv_run d before) after

open Sys in
/-- The end of the range is cut to the number of hashes: with one hash, the fourth piece is
downloaded with success and nothing sent. -/
theorem download_behind_hashes :
    let d := Download.new (fun _ => []) ⟨16384, 16384, 16384, [[]]⟩ (fun _ => true) [10] 3 4 1
    (start d).pc = .done (.ok ()) ∧ (start d).sent.length ≠ d.rangeEnd - d.first :=
  ⟨rfl, by decide⟩

end Outpace.Swarm.Vod

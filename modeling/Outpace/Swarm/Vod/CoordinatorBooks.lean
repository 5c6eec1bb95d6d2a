import Outpace.Data.Run
import Outpace.Swarm.Vod.CoordinatorLeases

/-!
# The coordinator's books

What the credits, the cursor and the chunks sent have to do with each other, whatever the workers
do. `Roster` is about workers, tasks and completions on their way; `Books` is about what the
coordinator keeps for itself. The log is the completions it has accepted so far.
-/

namespace Outpace.Swarm.Vod

/-- The bytes are those of the piece and came with one of the completions. -/
structure Sourced (d : Download) (log : List Completion) (piece : Nat) (bytes : Bytes) : Prop where
  verified : d.Verified piece bytes
  reported : ∃ c ∈ log, c.job.piece = piece ∧ c.bytes = bytes

/-- A credit of the window at the cursor. Buffered bytes are whole, and nobody works on them. -/
structure Credit.Ok (d : Download) (log : List Completion) (cursor piece : Nat) (c : Credit) :
    Prop where
  ahead : cursor ≤ piece
  inWindow : piece < min d.stop (saturatingAdd cursor window)
  attempts : c.attempts.length = d.peers
  buffered : ∀ bytes, c.bytes = some bytes → c.owner = none ∧ Sourced d log piece bytes

variable {d : Download} {log : List Completion} {cursor piece : Nat} {c : Credit}

theorem Sourced.append {bytes : Bytes} (h : Sourced d log piece bytes) (more : List Completion) :
    Sourced d (log ++ more) piece bytes := by
  obtain ⟨c, hmem, hc⟩ := h.reported
  exact ⟨h.verified, c, List.mem_append_left _ hmem, hc⟩

namespace Credit.Ok

theorem append (h : c.Ok d log cursor piece) (more : List Completion) :
    c.Ok d (log ++ more) cursor piece :=
  { h with
    buffered := fun bytes hb => ⟨(h.buffered bytes hb).1, (h.buffered bytes hb).2.append more⟩ }

/-- The window moves on with the cursor. -/
theorem advance (h : c.Ok d log cursor piece) (hne : piece ≠ cursor) :
    c.Ok d log (cursor + 1) piece := by
  have hmono : saturatingAdd cursor window ≤ saturatingAdd (cursor + 1) window :=
    saturatingAdd_mono (Nat.le_succ _) le_rfl
  have hahead := h.ahead
  have hwin := h.inWindow
  exact { h with ahead := by omega, inWindow := by omega }

/-- Attempts are counted in place. -/
theorem attempt (h : c.Ok d log cursor piece) (address : Nat) :
    Credit.Ok d log cursor piece { c with attempts := c.attempts.modify address (· + 1) } :=
  { h with attempts := by rw [List.length_modify]; exact h.attempts }

end Credit.Ok

namespace Sys

/-- Workers, tasks and completions: numbers are given out once, addresses are those of peers, tasks
are well formed, and what was reported is whole. -/
structure Roster (d : Download) (s : Sys) : Prop where
  workers : s.workers.All fun id w => id < s.nextWorker ∧ w.address < d.peers
  tasks : s.tasks.All fun id t => id < s.nextWorker ∧ t.WF d
  banned : s.banned.length = d.peers
  completions : ∀ c ∈ s.completions, d.Verified c.job.piece c.bytes

/-- What holds where the coordinator is in its loop. -/
def Stage (d : Download) (log : List Completion) (s : Sys) : Pc → Prop
  | .top => s.cursor ≤ d.stop
  | .sending bytes => s.cursor < d.stop ∧ Sourced d log s.cursor bytes ∧ s.leases.owner s.cursor = none
  | .connecting | .assigning _ | .selecting =>
    s.cursor < d.stop ∧ (d.rangeEnd ≤ u64Max → s.credits.contains s.cursor = true)
  | .done (.ok ()) => s.sent.length = d.stop - d.first
  | .done (.error _) => True

structure Books (d : Download) (log : List Completion) (s : Sys) : Prop where
  credits : s.credits.All (Credit.Ok d log s.cursor)
  cursor : s.cursor = d.first + s.sent.length
  sent : ∀ i bytes, s.sent[i]? = some bytes →
    d.first + i < d.stop ∧ Sourced d log (d.first + i) bytes
  stage : s.Stage d log s.pc

variable {s : Sys}

theorem Roster.fresh (R : Roster d s) : s.Fresh := by
  refine ⟨Option.eq_none_iff_forall_ne_some.mpr fun w hw => ?_,
    Option.eq_none_iff_forall_ne_some.mpr fun t ht => ?_⟩
  · exact absurd (R.workers _ _ hw).1 (Nat.lt_irrefl _)
  · exact absurd (R.tasks _ _ ht).1 (Nat.lt_irrefl _)

theorem Roster.wf (R : Roster d s) : s.tasks.All fun _ t => t.WF d := R.tasks.mono fun _ _ h => h.2

theorem Stage.append {pc : Pc} (h : s.Stage d log pc) (more : List Completion) :
    s.Stage d (log ++ more) pc := by
  match pc with
  | .top | .connecting | .assigning _ | .selecting | .done (.ok ()) | .done (.error _) => exact h
  | .sending _ => exact ⟨h.1, h.2.1.append more, h.2.2⟩

theorem Books.append (B : Books d log s) (more : List Completion) : Books d (log ++ more) s where
  credits := B.credits.mono fun _ _ h => h.append more
  cursor := B.cursor
  sent i bytes h := ⟨(B.sent i bytes h).1, (B.sent i bytes h).2.append more⟩
  stage := B.stage.append more

/-! ### Workers and tasks -/

theorem nextAddress_lt {address : Nat} (h : s.nextAddress d = some address) :
    address < d.peers := by
  have hmem := List.mem_of_mem_filter (List.argmin_mem (Option.mem_def.mpr h))
  exact List.mem_range.mp hmem

theorem Roster.connect (R : Roster d s) : Roster d (s.connect d) := by
  unfold Sys.connect
  split
  · next address h =>
    have haddress : address < d.peers := by
      split at h
      · exact nextAddress_lt h
      · cases h
    refine { R with workers := ?_, tasks := ?_ }
    · exact (R.workers.mono fun _ _ h => ⟨Nat.lt_succ_of_lt h.1, h.2⟩).insert
        ⟨Nat.lt_succ_self _, haddress⟩
    · exact (R.tasks.mono fun _ _ h => ⟨Nat.lt_succ_of_lt h.1, h.2⟩).insert
        ⟨Nat.lt_succ_self _, nofun, nofun, nofun, nofun⟩
  · exact { R with }

/-- A task without a job can take a command. -/
theorem wf_command {t : Task} (W : t.WF d) (hidle : t.held = none)
    (hrunning : ∀ result, t.phase ≠ .finished result) (job : Job) :
    Task.WF d { t with command := some job } := by
  obtain ⟨hcommand, hphase⟩ : t.command = none ∧ t.phase.job? = none := by
    simpa [Task.held, Option.or_eq_none_iff] using hidle
  refine ⟨fun h => ?_, fun result h => absurd h (hrunning result), W.fetching, W.reporting⟩
  rw [hphase] at h
  cases h

theorem Roster.dispatch (R : Roster d s) (H : s.Leased) {id : Nat} {w : Worker}
    (hw : s.workers.get? id = some w) (hidle : w.job = none) (piece : Nat) :
    Roster d (s.dispatch piece id w) := by
  unfold Sys.dispatch
  dsimp only
  split
  · next hacc =>
    refine { R with workers := ?_, tasks := ?_ }
    · exact R.workers.modify fun v hv => ⟨(R.workers _ _ hv).1, (R.workers _ _ hv).2⟩
    · refine R.tasks.modify fun t ht => ⟨(R.tasks _ _ ht).1, ?_⟩
      have hheld : t.held = none := by
        rw [← held_of_get? ht]
        refine Option.eq_none_iff_forall_ne_some.mpr fun j hj => ?_
        have hjob := H.held hj
        rw [job_of_get? hw, hidle] at hjob
        cases hjob
      refine wf_command (R.tasks _ _ ht).2 hheld (fun result hphase => ?_) _
      simp [accepts, ht, hphase] at hacc
  · exact { R with }

theorem Roster.assignPiece (R : Roster d s) (H : s.Leased) (piece : Nat) :
    Roster d (s.assignPiece piece) := by
  obtain heq | ⟨c, id, w, -, -, -, hw, hidle, heq⟩ := s.assignPiece_spec piece
  · rw [heq]
    exact R
  · rw [heq]
    exact R.dispatch H hw hidle piece

theorem Roster.coordinate (R : Roster d s) (H : s.Leased) : Roster d (s.coordinate d) := by
  unfold Sys.coordinate
  split
  · unfold Sys.top
    split
    · exact { R with }
    split
    · exact { R with }
    split
    · exact { R with }
    · exact { R with }
  · exact R.connect
  · next pieces _ =>
    cases pieces with
    | cons piece pieces => exact { R.assignPiece H piece with }
    | nil =>
      rw [Sys.assigning]
      split
      · exact { R with }
      split
      · exact { R with }
      · exact { R with }
  · exact R

theorem Roster.receive (R : Roster d s) : Roster d s.receive := by
  unfold Sys.receive
  split
  · next c rest _ hqueue =>
    have hrest : ∀ k ∈ rest, d.Verified k.job.piece k.bytes := fun k hk =>
      R.completions k (hqueue ▸ List.mem_cons_of_mem c hk)
    dsimp only
    split
    · refine { R with workers := ?_, completions := hrest }
      exact R.workers.modify fun w hw => ⟨(R.workers _ _ hw).1, (R.workers _ _ hw).2⟩
    · exact { R with completions := hrest }
  · exact R

theorem Roster.consume (R : Roster d s) : Roster d s.consume := by
  unfold Sys.consume
  split
  · split
    · exact { R with }
    · exact { R with }
  · exact R

theorem Roster.closeConsumer (R : Roster d s) : Roster d s.closeConsumer := by
  unfold Sys.closeConsumer
  split
  · exact { R with }
  · exact { R with }
  · exact { R with }

theorem Roster.wake (R : Roster d s) : Roster d s.wake := by
  unfold Sys.wake
  split
  · exact { R with }
  · exact R

theorem Roster.join (R : Roster d s) (id : Nat) : Roster d (s.join id) := by
  unfold Sys.join
  split
  · exact { R with tasks := R.tasks.erase id }
  · dsimp only
    split
    · exact { R with tasks := R.tasks.erase id }
    · refine { R with tasks := R.tasks.erase id, workers := R.workers.erase id, banned := ?_ }
      dsimp only
      split
      · rw [List.length_set]
        exact R.banned
      · exact R.banned
  · exact R

theorem Roster.worker (R : Roster d s) (id : Nat) (e : WorkerEvent) :
    Roster d (s.worker d id e) := by
  unfold Sys.worker
  split
  · next t ht =>
    obtain ⟨hid, hwf⟩ := R.tasks _ _ ht
    generalize hs' : s.stepTask d id t e = s'
    cases hs' ▸ stepTask_spec (s := s) hwf id e with
    | same => exact R
    | moved _ hwf' _ => exact { R with tasks := R.tasks.insert ⟨hid, hwf'⟩ }
    | @reported job bytes hphase =>
      refine { R with
        tasks := R.tasks.insert ⟨hid, nofun, nofun, nofun, nofun⟩
        completions := fun c hc => ?_ }
      rcases List.mem_append.mp hc with hc | hc
      · exact R.completions c hc
      · rw [List.mem_singleton] at hc
        subst hc
        exact hwf.reporting job bytes hphase
  · exact R

/-! ### Credits, cursor and output -/

/-- What the coordinator accepts in a step. -/
def accepted (s : Sys) : Action → List Completion
  | .receive =>
    match s.pc, s.completions with
    | .selecting, c :: _ => if s.buffers c then [c] else []
    | _, _ => []
  | _ => []

theorem openCredits_spec {credits : OrderedMap Nat Credit} {P : Nat → Credit → Prop}
    (H : credits.All P) (pieces : List Nat) (h : ∀ piece ∈ pieces, P piece (.new d.peers)) :
    (pieces.foldl (openCredit d) credits).All P ∧
      ∀ piece, piece ∈ pieces ∨ credits.contains piece = true →
        (pieces.foldl (openCredit d) credits).contains piece = true := by
  induction pieces generalizing credits with
  | nil => exact ⟨H, fun piece hp => hp.resolve_left List.not_mem_nil⟩
  | cons piece pieces ih =>
    rw [List.foldl_cons]
    have hopen : (openCredit d credits piece).All P := by
      unfold openCredit
      split
      · exact H
      · exact H.insert (h piece List.mem_cons_self)
    have hcontains : ∀ k, k = piece ∨ credits.contains k = true →
        (openCredit d credits piece).contains k = true := by
      intro k hk
      unfold openCredit
      split
      · next hmem => exact hk.elim (fun heq => heq ▸ hmem) id
      · rw [OrderedMap.contains, OrderedMap.get?_insert]
        split
        · rfl
        · next hne => exact hk.resolve_left hne
    obtain ⟨hall, hkeys⟩ := ih hopen fun k hk => h k (List.mem_cons_of_mem _ hk)
    refine ⟨hall, fun k hk => ?_⟩
    rcases hk with hk | hk
    · rcases List.mem_cons.mp hk with hk | hk
      · exact hkeys k (.inr (hcontains k (.inl hk)))
      · exact hkeys k (.inl hk)
    · exact hkeys k (.inr (hcontains k (.inr hk)))

theorem mem_frontier {piece : Nat} : piece ∈ s.frontier d ↔
    s.cursor ≤ piece ∧ piece < min d.stop (saturatingAdd s.cursor window) := by
  rw [frontier, List.mem_range'_1]
  omega

/-- The cursor is in its own window. -/
theorem cursor_mem_frontier (h : s.cursor < d.stop) (hd : d.rangeEnd ≤ u64Max) :
    s.cursor ∈ s.frontier d := by
  have hstop : d.stop ≤ u64Max := (Nat.min_le_left ..).trans hd
  have hwindow : 0 < window := by decide
  rw [mem_frontier, saturatingAdd]
  omega

theorem Books.top (B : Books d log s) (hpc : s.pc = .top) : Books d log (s.top d) := by
  have hle : s.cursor ≤ d.stop := by simpa only [Stage, hpc] using B.stage
  unfold Sys.top
  split
  · next hstop =>
    refine { B with stage := ?_ }
    have := B.cursor
    show s.sent.length = _
    omega
  next hne =>
  have hlt : s.cursor < d.stop := Nat.lt_of_le_of_ne hle hne
  split
  · exact { B with stage := trivial }
  split
  · next bytes hbytes =>
    obtain ⟨c, hc, hcb⟩ := Option.bind_eq_some_iff.mp hbytes
    have hok := B.credits _ _ hc
    obtain ⟨howner, hsourced⟩ := hok.buffered bytes hcb
    refine { B with credits := B.credits.modify fun v hv => ?_, stage := ⟨hlt, hsourced, ?_⟩ }
    · exact { B.credits _ _ hv with buffered := nofun }
    · have hsame := OrderedMap.look_modify_of_forall (g := Credit.owner) s.credits s.cursor
        (f := fun c => { c with bytes := none }) fun _ => rfl
      exact (congrFun hsame s.cursor).trans ((owner_of_get? hc).trans howner)
  · obtain ⟨hall, hkeys⟩ := openCredits_spec (d := d) B.credits (s.frontier d)
      fun piece hp => ⟨(mem_frontier.mp hp).1, (mem_frontier.mp hp).2, List.length_replicate, nofun⟩
    exact { B with
      credits := hall
      stage := ⟨hlt, fun hd => hkeys _ (.inl (cursor_mem_frontier hlt hd))⟩ }

theorem Books.connect (B : Books d log s) (hpc : s.pc = .connecting) :
    Books d log (s.connect d) := by
  have hstage := B.stage
  rw [hpc] at hstage
  unfold Sys.connect
  split
  · exact { B with stage := by rw [hpc]; exact hstage }
  · exact { B with stage := hstage }

theorem Books.dispatch (B : Books d log s) {pieces : List Nat} (hpc : s.pc = .assigning pieces)
    {piece : Nat} (id : Nat) (w : Worker) {c : Credit} (hc : s.credits.get? piece = some c)
    (hbytes : c.bytes = none) : Books d log (s.dispatch piece id w) := by
  have hstage := B.stage
  rw [hpc] at hstage
  unfold Sys.dispatch
  dsimp only
  split
  · refine { B with credits := B.credits.modify fun v hv => ?_, stage := ?_ }
    · obtain rfl : c = v := Option.some.inj (hc.symm.trans hv)
      refine { (B.credits _ _ hc).attempt w.address with buffered := fun bytes h => ?_ }
      exact absurd (hbytes.symm.trans h) nofun
    · rw [hpc]
      exact ⟨hstage.1, fun hd => (OrderedMap.contains_modify ..).trans (hstage.2 hd)⟩
  · exact { B with }

theorem Books.assigning (B : Books d log s) {pieces : List Nat} (hpc : s.pc = .assigning pieces) :
    Books d log (s.assigning pieces) := by
  have hstage := B.stage
  rw [hpc] at hstage
  cases pieces with
  | cons piece pieces =>
    obtain heq | ⟨c, id, w, hc, -, hbytes, -, -, heq⟩ := s.assignPiece_spec piece
    · rw [Sys.assigning, heq]
      exact { B with stage := hstage }
    · rw [Sys.assigning, heq]
      have B' := B.dispatch hpc id w hc hbytes
      have hpc' : (s.dispatch piece id w).pc = .assigning (piece :: pieces) := by
        unfold Sys.dispatch
        dsimp only
        split
        · exact hpc
        · exact hpc
      have hstage' := B'.stage
      rw [hpc'] at hstage'
      exact { B' with stage := hstage' }
  | nil =>
    rw [Sys.assigning]
    split
    · exact { B with stage := trivial }
    split
    · exact { B with stage := trivial }
    · exact { B with stage := hstage }

theorem Books.coordinate (B : Books d log s) : Books d log (s.coordinate d) := by
  unfold Sys.coordinate
  split
  · next hpc => exact B.top hpc
  · next hpc => exact B.connect hpc
  · next hpc => exact B.assigning hpc
  · exact B

theorem Books.consume (B : Books d log s) : Books d log s.consume := by
  unfold Sys.consume
  split
  · next bytes hpc =>
    have hstage := B.stage
    rw [hpc] at hstage
    obtain ⟨hlt, hsourced, -⟩ := hstage
    split
    · exact { B with stage := trivial }
    refine ⟨fun piece c hc => ?_, ?_, fun i chunk hchunk => ?_, hlt⟩
    · simp only [OrderedMap.get?_erase] at hc
      split at hc
      · cases hc
      · next hne => exact (B.credits _ _ hc).advance hne
    · simp only [B.cursor, List.length_append, List.length_singleton, Nat.add_assoc]
    · simp only [List.getElem?_append] at hchunk
      split at hchunk
      · exact B.sent i chunk hchunk
      · next hge =>
        rw [List.getElem?_singleton, Option.ite_none_right_eq_some] at hchunk
        obtain ⟨hi, ⟨⟩⟩ := hchunk
        obtain rfl : i = s.sent.length := by omega
        rw [← B.cursor]
        exact ⟨hlt, hsourced⟩
  · exact B

theorem Books.closeConsumer (B : Books d log s) : Books d log s.closeConsumer := by
  unfold Sys.closeConsumer
  split
  · exact { B with stage := trivial }
  · exact { B with stage := trivial }
  · exact { B with }

/-- Only what is accepted enters the books. -/
theorem Books.receive (B : Books d log s) (R : Roster d s) :
    Books d (log ++ s.accepted .receive) s.receive := by
  unfold Sys.receive
  split
  · next c rest hpc hqueue =>
    have hstage := B.stage
    rw [hpc] at hstage
    have hle := Nat.le_of_lt hstage.1
    have haccepted : s.accepted .receive = if s.buffers c then [c] else [] := by
      simp only [accepted, hpc, hqueue]
    dsimp only
    split
    · next hcur =>
      have B' := B.append (s.accepted .receive)
      refine { B' with credits := B'.credits.modify fun v hv => ?_, stage := hle }
      split
      · next howner =>
        refine { B'.credits _ _ hv with buffered := ?_ }
        rintro _ ⟨⟩
        have hcurrent : s.current c = true := hcur
        have hbuffers : s.buffers c = true := by simp [buffers, hcurrent, hv, howner]
        refine ⟨rfl, R.completions c (hqueue ▸ List.mem_cons_self), c, ?_, rfl, rfl⟩
        rw [haccepted, if_pos hbuffers]
        exact List.mem_append_right _ List.mem_cons_self
      · exact B'.credits _ _ hv
    · exact { B.append _ with stage := hle }
  · exact B.append _

theorem Books.release (B : Books d log s) (id : Nat) (w : Worker) :
    (s.release id w).All (Credit.Ok d log s.cursor) := by
  unfold Sys.release
  split
  · refine B.credits.modify fun v hv => ?_
    split
    · exact { B.credits _ _ hv with
        buffered := fun bytes h => ⟨rfl, ((B.credits _ _ hv).buffered bytes h).2⟩ }
    · exact B.credits _ _ hv
  · exact B.credits.modify fun v hv => (B.credits _ _ hv).attempt w.address

theorem Books.join (B : Books d log s) (id : Nat) : Books d log (s.join id) := by
  unfold Sys.join
  split
  · exact { B with stage := trivial }
  · next hpc _ =>
    have hstage := B.stage
    rw [hpc] at hstage
    have hle := Nat.le_of_lt hstage.1
    dsimp only
    split
    · exact { B with stage := hle }
    · exact { B with credits := B.release id _, stage := hle }
  · exact B

theorem Books.wake (B : Books d log s) : Books d log s.wake := by
  unfold Sys.wake
  split
  · next hpc _ =>
    have hstage := B.stage
    rw [hpc] at hstage
    exact { B with stage := Nat.le_of_lt hstage.1 }
  · exact B

theorem Books.worker (B : Books d log s) (R : Roster d s) (id : Nat) (e : WorkerEvent) :
    Books d log (s.worker d id e) := by
  unfold Sys.worker
  split
  · next t ht =>
    generalize hs' : s.stepTask d id t e = s'
    cases hs' ▸ stepTask_spec (s := s) (R.wf _ _ ht) id e with
    | same => exact B
    | moved => exact { B with }
    | reported => exact { B with }
  · exact B

/-! ### The invariant of the system -/

structure Inv (d : Download) (s : Sys) (log : List Completion) : Prop where
  leased : s.Leased
  roster : s.Roster d
  books : s.Books d log

theorem Inv.start (d : Download) : Inv d (start d) [] where
  leased := ⟨nofun, nofun, nofun, nofun, nofun, nofun⟩
  roster := ⟨.empty, .empty, List.length_replicate, nofun⟩
  books := by
    refine ⟨.empty, rfl, nofun, ?_⟩
    show Stage d [] (Sys.start d) (if _ then _ else _)
    split
    · next h =>
      show 0 = d.stop - d.first
      omega
    split
    · trivial
    · next h _ => exact Nat.le_of_not_le h

theorem Inv.step (H : Inv d s log) (a : Action) : Inv d (s.step d a) (log ++ s.accepted a) := by
  obtain ⟨L, R, B⟩ := H
  cases a with
  | receive => exact ⟨L.receive, R.receive, B.receive R⟩
  | coordinate => exact ⟨L.coordinate R.fresh d, R.coordinate L, B.coordinate.append _⟩
  | consume =>
    have howner : ∀ bytes, s.pc = .sending bytes → s.leases.owner s.cursor = none := by
      intro bytes hpc
      have hstage := B.stage
      rw [hpc] at hstage
      exact hstage.2.2
    exact ⟨L.consume howner, R.consume, B.consume.append _⟩
  | closeConsumer => exact ⟨L.closeConsumer, R.closeConsumer, B.closeConsumer.append _⟩
  | join id => exact ⟨L.join R.wf id, R.join id, (B.join id).append _⟩
  | wake => exact ⟨L.wake, R.wake, B.wake.append _⟩
  | worker id e => exact ⟨L.worker R.wf id e, R.worker id e, (B.worker R id e).append _⟩

/-- In every run, whatever its schedule. -/
theorem inv_run (d : Download) (actions : List Action) :
    Inv d (run (step d) (start d) actions) (emits (step d) accepted (start d) actions) :=
  run_emits_invariant (I := Inv d) (fun _ _ a H => H.step a) (Inv.start d) actions

end Sys

end Outpace.Swarm.Vod

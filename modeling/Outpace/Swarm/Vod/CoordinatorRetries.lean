import Mathlib.Algebra.Order.BigOperators.Ring.Finset
import Mathlib.Data.Finset.Prod
import Mathlib.Order.Interval.Finset.Nat
import Outpace.Swarm.Vod.CoordinatorBooks

/-!
# Retries of a download

How many workers a download starts. While the cursor stays, every worker of an address that ends has
used up an attempt of the window: one that had a job when the job was given to it, and an idle one at
the frontier when it is joined. The exception is an idle worker from before the cursor came to a
piece that its address has no attempts left for; it takes the counter one past the limit, and no
worker of that address follows it.
-/

namespace Outpace.Swarm.Vod

/-- The attempts at a piece from an address. -/
def attemptsOf (credits : OrderedMap Nat Credit) (piece address : Nat) : Nat :=
  (credits.get? piece).elim 0 fun c => c.attempts[address]?.getD 0

section
variable {credits : OrderedMap Nat Credit} {piece address : Nat} {c : Credit}

theorem attemptsOf_of_get? (h : credits.get? piece = some c) (address : Nat) :
    attemptsOf credits piece address = c.attempts[address]?.getD 0 := by
  rw [attemptsOf, h]
  rfl

variable {f : Credit → Credit}

/-- A change of credits that leaves the attempts alone. -/
theorem attemptsOf_modify_of_forall (hf : ∀ c, (f c).attempts = c.attempts) (k piece address : Nat) :
    attemptsOf (credits.modify k f) piece address = attemptsOf credits piece address := by
  unfold attemptsOf
  rw [OrderedMap.get?_modify]
  split
  · cases credits.get? piece with
    | none => rfl
    | some c =>
      show (f c).attempts[address]?.getD 0 = _
      rw [hf]
      rfl
  · rfl

/-- Another attempt. -/
theorem attemptsOf_attempt (h : credits.get? piece = some c)
    (haddress : address < c.attempts.length)
    (hf : (f c).attempts = c.attempts.modify address (· + 1)) (k a : Nat) :
    attemptsOf (credits.modify piece f) k a =
      attemptsOf credits k a + if k = piece ∧ a = address then 1 else 0 := by
  unfold attemptsOf
  rw [OrderedMap.get?_modify]
  by_cases hk : k = piece
  · subst hk
    rw [if_pos rfl, h]
    show (f c).attempts[a]?.getD 0 = c.attempts[a]?.getD 0 + _
    rw [hf, List.getElem?_modify]
    by_cases ha : a = address
    · subst ha
      rw [if_pos ⟨rfl, rfl⟩, List.getElem?_eq_getElem haddress]
      simp
    · simp only [ha, Ne.symm ha, and_false, if_false]
      cases c.attempts[a]? with
      | none => rfl
      | some n => rfl
  · rw [if_neg hk, if_neg (fun h => hk h.1)]
    rfl

/-- What new credits do not change. -/
theorem foldl_openCredit {α : Type} {view : OrderedMap Nat Credit → α} (d : Download)
    (h : ∀ credits k, credits.get? k = none → view (credits.insert k (.new d.peers)) = view credits)
    (pieces : List Nat) : view (pieces.foldl (Sys.openCredit d) credits) = view credits := by
  induction pieces generalizing credits with
  | nil => rfl
  | cons k pieces ih =>
    rw [List.foldl_cons, ih]
    unfold Sys.openCredit
    split
    · rfl
    · next hk => exact h credits k (OrderedMap.contains_eq_false.mp (Bool.eq_false_iff.mpr hk))

theorem attemptsOf_openCredits (d : Download) (pieces : List Nat) (piece address : Nat) :
    attemptsOf (pieces.foldl (Sys.openCredit d) credits) piece address =
      attemptsOf credits piece address := by
  refine @foldl_openCredit _ _ (attemptsOf · piece address) d (fun credits k hk => ?_) pieces
  unfold attemptsOf
  rw [OrderedMap.get?_insert]
  split
  · next heq =>
    rw [heq, hk]
    show (List.replicate d.peers 0)[address]?.getD 0 = 0
    rw [List.getElem?_replicate]
    split <;> rfl
  · rfl

theorem bytes_openCredits (d : Download) (pieces : List Nat) (piece : Nat) :
    (pieces.foldl (Sys.openCredit d) credits).look (·.bytes) piece = credits.look (·.bytes) piece := by
  refine @foldl_openCredit _ _ (OrderedMap.look · (·.bytes) piece) d (fun credits k hk => ?_) pieces
  unfold OrderedMap.look
  rw [OrderedMap.get?_insert]
  split
  · next heq =>
    rw [heq, hk]
    rfl
  · rfl

end

def Pc.running : Pc → Bool
  | .sending _ | .done _ => false
  | _ => true

/-- Past the top of the loop, where the piece at the cursor was not there. -/
def Pc.waiting : Pc → Bool
  | .connecting | .assigning _ | .selecting => true
  | _ => false

namespace Sys

def attempts (s : Sys) (piece address : Nat) : Nat := attemptsOf s.credits piece address

/-- The attempts of an address in the window, none counted past the limit. -/
def spent (s : Sys) (address : Nat) : Nat :=
  ((List.range window).map fun i => min maxAttempts (s.attempts (s.cursor + i) address)).sum

/-- The loop runs, and the piece at the cursor has not come. -/
def Open (s : Sys) : Prop := s.pc.running = true ∧ s.credits.look (·.bytes) s.cursor = none

def IdleAt (s : Sys) (address : Nat) : Prop :=
  ∃ id w, s.workers.get? id = some w ∧ w.address = address ∧ w.job = none

/-- The cursor and the address of the worker that a step starts. -/
def started (d : Download) (s : Sys) : Action → List (Nat × Nat)
  | .coordinate =>
    match s.pc with
    | .connecting =>
      ((if s.workers.size < d.limit then s.nextAddress d else none).map fun a => (s.cursor, a)).toList
    | _ => []
  | _ => []

/-- The books on retries. The log is the workers that were started. -/
structure Retries (d : Download) (s : Sys) (log : List (Nat × Nat)) : Prop where
  logged : ∀ e ∈ log, d.first ≤ e.1 ∧ e.1 ≤ s.cursor ∧ e.1 < d.stop ∧ e.2 < d.peers
  total : log.length = s.nextWorker
  addresses : ∀ id id' w w', s.workers.get? id = some w → s.workers.get? id' = some w' →
    w.address = w'.address → id = id'
  settled : s.pc.waiting = true → s.credits.look (·.bytes) s.cursor = none
  /-- The workers started at this cursor are paid for, except for an idle one. -/
  budget : ∀ a, log.count (s.cursor, a) ≤ s.spent a ∨
    s.IdleAt a ∧ log.count (s.cursor, a) ≤ s.spent a + 1
  /-- A worker that does without attempts at the frontier is from an earlier cursor. -/
  old : ∀ id w, s.workers.get? id = some w → (∀ job, w.job = some job → job.piece ≠ s.cursor) →
    s.Open → maxAttempts ≤ s.attempts s.cursor w.address → log.count (s.cursor, w.address) = 0
  bounded : ∀ piece a, s.attempts piece a ≤ maxAttempts ∨
    piece = s.cursor ∧ s.attempts piece a = maxAttempts + 1 ∧
      ∀ id w, s.workers.get? id = some w → w.address ≠ a
  counts : ∀ e, log.count e ≤ maxAttempts * window + 1

variable {d : Download} {s s' : Sys} {log : List (Nat × Nat)} {completions : List Completion}
  {w : Worker} {id : Nat}

theorem spent_le (s : Sys) (a : Nat) : s.spent a ≤ maxAttempts * window := by
  have h := List.sum_le_card_nsmul ((List.range window).map fun i =>
    min maxAttempts (s.attempts (s.cursor + i) a)) maxAttempts (by
      intro n hn
      obtain ⟨i, -, rfl⟩ := List.mem_map.mp hn
      exact Nat.min_le_left ..)
  rw [List.length_map, List.length_range] at h
  exact h.trans (by decide)

theorem spent_congr (hcursor : s'.cursor = s.cursor) {a : Nat}
    (h : ∀ piece, s'.attempts piece a = s.attempts piece a) : s'.spent a = s.spent a := by
  simp only [spent, hcursor, h]

/-- An attempt in the window is spent if it is not past the limit. -/
theorem spent_lt (hcursor : s'.cursor = s.cursor) {piece a : Nat}
    (h : ∀ k, s'.attempts k a = s.attempts k a + if k = piece then 1 else 0)
    (hahead : s.cursor ≤ piece) (hwindow : piece < s.cursor + window)
    (hlimit : s.attempts piece a < maxAttempts) : s.spent a < s'.spent a := by
  unfold spent
  rw [hcursor]
  refine List.sum_lt_sum _ _ (fun i _ => ?_) ⟨piece - s.cursor, List.mem_range.mpr (by omega), ?_⟩
  · rw [h]
    omega
  · rw [h, Nat.add_sub_cancel' hahead, if_pos rfl]
    omega

/-- A step that starts no worker and changes neither cursor nor attempts nor workers. -/
theorem Retries.quiet (H : s.Retries d log) (hcursor : s'.cursor = s.cursor)
    (hattempts : ∀ piece a, s'.attempts piece a = s.attempts piece a)
    (hworkers : s'.workers = s.workers) (hnext : s'.nextWorker = s.nextWorker)
    (hopen : s'.Open → s.Open)
    (hsettled : s'.pc.waiting = true → s'.credits.look (·.bytes) s'.cursor = none) :
    s'.Retries d log where
  logged := by
    rw [hcursor]
    exact H.logged
  total := H.total.trans hnext.symm
  addresses := by
    rw [hworkers]
    exact H.addresses
  settled := hsettled
  budget a := by
    rw [hcursor, spent_congr hcursor fun piece => hattempts piece a]
    simp only [IdleAt, hworkers]
    exact H.budget a
  old id w hw hjob ho hmax := by
    rw [hworkers] at hw
    rw [hcursor] at hjob hmax ⊢
    exact H.old id w hw hjob (hopen ho) (by rwa [hattempts] at hmax)
  bounded piece a := by
    rw [hcursor, hattempts]
    simp only [hworkers]
    exact H.bounded piece a
  counts := H.counts

/-- A loop that has ended starts no worker. -/
theorem Retries.done (H : s.Retries d log) (result : Except VodError Unit) (gone : Bool)
    (tasks : OrderedMap Nat Task) :
    { s with pc := .done result, consumerGone := gone, tasks := tasks }.Retries d log :=
  H.quiet rfl (fun _ _ => rfl) rfl rfl (fun h => (by cases h.1)) fun h => (by cases h)

/-! ### The loop -/

theorem Retries.top (H : s.Retries d log) (hpc : s.pc = .top) : (s.top d).Retries d log := by
  have hrunning : s.pc.running = true := by
    rw [hpc]
    rfl
  unfold Sys.top
  split
  · exact H.done ..
  split
  · exact H.done ..
  split
  · exact H.quiet rfl
      (attemptsOf_modify_of_forall (f := fun c => { c with bytes := none }) (fun _ => rfl) s.cursor)
      rfl rfl (fun h => (by cases h.1)) fun h => (by cases h)
  · next hnone =>
    have hbytes : ((s.frontier d).foldl (openCredit d) s.credits).look (·.bytes) s.cursor = none := by
      rw [bytes_openCredits]
      exact hnone
    exact H.quiet rfl (fun _ _ => attemptsOf_openCredits ..) rfl rfl (fun _ => ⟨hrunning, hnone⟩)
      fun _ => hbytes

/-- A worker is started for an address with attempts left that no worker has. -/
theorem nextAddress_spec {address : Nat} (h : s.nextAddress d = some address) :
    address < d.peers ∧ s.banned[address]?.getD false = false ∧
      s.attempts s.cursor address < maxAttempts ∧
      ∀ id w, s.workers.get? id = some w → w.address ≠ address := by
  obtain ⟨hmem, hcond⟩ := List.mem_filter.mp (List.argmin_mem (Option.mem_def.mpr h))
  simp only [Bool.and_eq_true, Bool.not_eq_true', decide_eq_true_eq] at hcond
  obtain ⟨⟨hbanned, hattempts⟩, hnone⟩ := hcond
  refine ⟨List.mem_range.mp hmem, hbanned, ?_, fun id w hw heq => ?_⟩
  · unfold attempts attemptsOf
    cases hc : s.credits.get? s.cursor with
    | none => exact Nat.succ_pos 2
    | some c =>
      rw [hc] at hattempts
      exact hattempts
  · have hany := List.any_eq_false.mp hnone w (OrderedMap.mem_values.mpr ⟨id, hw⟩)
    exact hany (beq_iff_eq.mpr heq)

theorem count_start (log : List (Nat × Nat)) (e e' : Nat × Nat) :
    (log ++ [e']).count e = log.count e + if e = e' then 1 else 0 := by
  rw [List.count_append, List.count_singleton]
  congr 1
  exact if_congr (by rw [beq_iff_eq, eq_comm]) rfl rfl

/-- A new worker, idle and not paid for. -/
theorem Retries.start (H : s.Retries d log) {address : Nat}
    (hfresh : s.workers.get? s.nextWorker = none) (hpeer : address < d.peers)
    (hlimit : s.attempts s.cursor address < maxAttempts)
    (hfree : ∀ id w, s.workers.get? id = some w → w.address ≠ address) (hfirst : d.first ≤ s.cursor)
    (hstop : s.cursor < d.stop) (hpc : s'.pc = s.pc) (hcursor : s'.cursor = s.cursor)
    (hcredits : s'.credits = s.credits) (hnext : s'.nextWorker = s.nextWorker + 1)
    (hworkers : s'.workers = s.workers.insert s.nextWorker ⟨address, none⟩) :
    s'.Retries d (log ++ [(s.cursor, address)]) := by
  have hattempts : ∀ piece a, s'.attempts piece a = s.attempts piece a := fun piece a => by
    rw [attempts, attempts, hcredits]
  have hget : ∀ id w, s'.workers.get? id = some w →
      id = s.nextWorker ∧ w = ⟨address, none⟩ ∨ s.workers.get? id = some w := by
    intro id w hw
    rw [hworkers, OrderedMap.get?_insert] at hw
    split at hw
    · next heq => exact .inl ⟨heq, (Option.some.inj hw).symm⟩
    · exact .inr hw
  have hkeep : ∀ id w, s.workers.get? id = some w → s'.workers.get? id = some w := by
    intro id w hw
    rw [hworkers, OrderedMap.get?_insert_of_ne _ _ (fun heq => ?_), hw]
    rw [heq, hfresh] at hw
    cases hw
  have hpaid : log.count (s.cursor, address) ≤ s.spent address := by
    refine (H.budget address).resolve_right fun ⟨⟨id, w, hw, heq, _⟩, _⟩ => ?_
    exact hfree id w hw heq
  refine ⟨fun e he => ?_, ?_, fun id id' w w' hw hw' heq => ?_, ?_, fun a => ?_,
    fun id w hw hjob ho hmax => ?_, fun piece a => ?_, fun e => ?_⟩
  · rw [hcursor]
    rcases List.mem_append.mp he with he | he
    · exact H.logged e he
    · rw [List.mem_singleton.mp he]
      exact ⟨hfirst, Nat.le_refl _, hstop, hpeer⟩
  · rw [List.length_append, H.total, hnext]
    rfl
  · rcases hget id w hw with ⟨rfl, rfl⟩ | hw
    · rcases hget id' w' hw' with ⟨rfl, rfl⟩ | hw'
      · rfl
      · exact absurd heq.symm (hfree id' w' hw')
    · rcases hget id' w' hw' with ⟨rfl, rfl⟩ | hw'
      · exact absurd heq (hfree id w hw)
      · exact H.addresses id id' w w' hw hw' heq
  · rw [hpc, hcredits, hcursor]
    exact H.settled
  · rw [hcursor, count_start, spent_congr hcursor fun piece => hattempts piece a]
    by_cases ha : a = address
    · subst ha
      rw [if_pos rfl]
      refine .inr ⟨⟨s.nextWorker, ⟨a, none⟩, ?_, rfl, rfl⟩, Nat.succ_le_succ hpaid⟩
      rw [hworkers]
      exact OrderedMap.get?_insert_self ..
    · rw [if_neg (fun heq => ha (Prod.ext_iff.mp heq).2)]
      refine (H.budget a).imp_right fun ⟨⟨id, w, hw, haddr, hjob⟩, hle⟩ => ⟨?_, hle⟩
      exact ⟨id, w, hkeep id w hw, haddr, hjob⟩
  · rw [hcursor] at hjob hmax ⊢
    rw [hattempts] at hmax
    rcases hget id w hw with ⟨rfl, rfl⟩ | hw
    · exact absurd hlimit (Nat.not_lt.mpr hmax)
    · rw [count_start, if_neg (fun heq => hfree id w hw (Prod.ext_iff.mp heq).2)]
      rw [Open, hpc, hcredits, hcursor] at ho
      exact H.old id w hw hjob ho hmax
  · rw [hattempts, hcursor]
    refine (H.bounded piece a).imp_right fun ⟨hpiece, hover, hnone⟩ => ⟨hpiece, hover, ?_⟩
    intro id w hw
    rcases hget id w hw with ⟨rfl, rfl⟩ | hw
    · rintro rfl
      rw [hpiece] at hover
      exact absurd hover (Nat.ne_of_lt (Nat.lt_succ_of_lt hlimit))
    · exact hnone id w hw
  · rw [count_start]
    split
    · next heq =>
      rw [heq]
      exact Nat.succ_le_succ (hpaid.trans (s.spent_le address))
    · exact H.counts e

theorem Retries.connect (H : s.Retries d log) (R : s.Roster d) (B : s.Books d completions)
    (hpc : s.pc = .connecting) : (s.connect d).Retries d (log ++ s.started d .coordinate) := by
  have hstage := B.stage
  have hcursor := B.cursor
  rw [hpc] at hstage
  unfold Sys.connect started
  rw [hpc]
  split
  · next address hnext =>
    have haddress : s.nextAddress d = some address := by
      split at hnext
      · exact hnext
      · cases hnext
    obtain ⟨hpeer, -, hlimit, hfree⟩ := nextAddress_spec haddress
    rw [hnext]
    exact H.start R.fresh.1 hpeer hlimit hfree (by omega) hstage.1 hpc.symm rfl rfl rfl rfl
  · next hnext =>
    rw [hnext]
    show Retries d _ (log ++ [])
    rw [List.append_nil]
    have hsettled := H.settled (by rw [hpc]; rfl)
    exact H.quiet rfl (fun _ _ => rfl) rfl rfl (fun h => ⟨by rw [hpc]; rfl, h.2⟩) fun _ => hsettled

theorem nextOwner_spec {piece id : Nat} {c : Credit} (h : s.nextOwner piece c = some (id, w)) :
    s.workers.get? id = some w ∧ w.job = none ∧ c.attempts[w.address]?.getD 0 < maxAttempts := by
  obtain ⟨hmem, he⟩ := List.mem_filter.mp (List.argmin_mem (Option.mem_def.mpr h))
  simp only [eligible, Bool.and_eq_true, Option.isNone_iff_eq_none, decide_eq_true_eq] at he
  exact ⟨OrderedMap.get?_eq_some.mpr hmem, he.1.1.1, he.2⟩

/-- A step that changes one worker, its attempts and nothing of the others. -/
theorem Retries.change (H : s.Retries d log) (hw : s.workers.get? id = some w)
    (hcursor : s'.cursor = s.cursor) (hnext : s'.nextWorker = s.nextWorker)
    (hopen : s'.Open → s.Open)
    (hsettled : s'.pc.waiting = true → s'.credits.look (·.bytes) s'.cursor = none)
    (hsame : ∀ id', id' ≠ id → s'.workers.get? id' = s.workers.get? id')
    (hself : ∀ w', s'.workers.get? id = some w' → w'.address = w.address)
    (hattempts : ∀ k a, a ≠ w.address → s'.attempts k a = s.attempts k a)
    (hbudget : log.count (s.cursor, w.address) ≤ s'.spent w.address)
    (hold : ∀ w', s'.workers.get? id = some w' →
      (∀ job, w'.job = some job → job.piece ≠ s.cursor) → s'.Open →
      maxAttempts ≤ s'.attempts s.cursor w.address → log.count (s.cursor, w.address) = 0)
    (hbounded : ∀ k, s'.attempts k w.address ≤ maxAttempts ∨
      k = s.cursor ∧ s'.attempts k w.address = maxAttempts + 1 ∧ s'.workers.get? id = none) :
    s'.Retries d log := by
  have hother : ∀ i v, i ≠ id → s'.workers.get? i = some v →
      s.workers.get? i = some v ∧ v.address ≠ w.address := by
    intro i v hne hv
    rw [hsame i hne] at hv
    exact ⟨hv, fun heq => hne (H.addresses i id v w hv hw heq)⟩
  refine ⟨?_, H.total.trans hnext.symm, fun i i' v v' hv hv' heq => ?_, hsettled, fun a => ?_,
    fun i v hv hjob ho hmax => ?_, fun k a => ?_, H.counts⟩
  · rw [hcursor]
    exact H.logged
  · by_cases hi : i = id
    · by_cases hi' : i' = id
      · rw [hi, hi']
      · rw [hi] at hv
        exact absurd (heq.symm.trans (hself v hv)) (hother i' v' hi' hv').2
    · by_cases hi' : i' = id
      · rw [hi'] at hv'
        exact absurd (heq.trans (hself v' hv')) (hother i v hi hv).2
      · exact H.addresses i i' v v' (hother i v hi hv).1 (hother i' v' hi' hv').1 heq
  · rw [hcursor]
    by_cases ha : a = w.address
    · rw [ha]
      exact .inl hbudget
    · rw [spent_congr hcursor fun k => hattempts k a ha]
      refine (H.budget a).imp_right fun ⟨⟨i, v, hv, haddr, hnone⟩, hle⟩ =>
        ⟨⟨i, v, (hsame i fun heq => ?_).trans hv, haddr, hnone⟩, hle⟩
      rw [heq, hw] at hv
      cases hv
      exact ha haddr.symm
  · rw [hcursor] at hjob hmax ⊢
    by_cases hi : i = id
    · rw [hi] at hv
      rw [hself v hv] at hmax ⊢
      exact hold v hv hjob ho hmax
    · obtain ⟨hv, haddr⟩ := hother i v hi hv
      rw [hattempts _ _ haddr] at hmax
      exact H.old i v hv hjob (hopen ho) hmax
  · rw [hcursor]
    by_cases ha : a = w.address
    · rw [ha]
      refine (hbounded k).imp_right fun ⟨hpiece, hover, hnone⟩ => ⟨hpiece, hover, fun i v hv => ?_⟩
      refine (hother i v (fun heq => ?_) hv).2
      rw [heq, hnone] at hv
      cases hv
    · rw [hattempts k a ha]
      refine (H.bounded k a).imp_right fun ⟨hpiece, hover, hnone⟩ =>
        ⟨hpiece, hover, fun i v hv => ?_⟩
      by_cases hi : i = id
      · rw [hi] at hv
        rw [hself v hv]
        exact Ne.symm ha
      · exact hnone i v (hother i v hi hv).1

/-- The start of a worker that has a job is paid for. -/
theorem Retries.paid (H : s.Retries d log) {job : Job} (hw : s.workers.get? id = some w)
    (hjob : w.job = some job) : log.count (s.cursor, w.address) ≤ s.spent w.address := by
  refine (H.budget w.address).resolve_right fun ⟨⟨i, v, hv, haddr, hnone⟩, _⟩ => ?_
  obtain rfl := H.addresses i id v w hv hw haddr
  rw [hw] at hv
  cases hv
  rw [hjob] at hnone
  cases hnone

/-- No attempt of a worker's address is past the limit. -/
theorem Retries.limited (H : s.Retries d log) (hw : s.workers.get? id = some w) (k : Nat) :
    s.attempts k w.address ≤ maxAttempts :=
  (H.bounded k w.address).resolve_right fun h => h.2.2 id w hw rfl

/-- A worker is given a piece and pays for it. -/
theorem Retries.assign (H : s.Retries d log) {piece id : Nat} (job : Job)
    (hw : s.workers.get? id = some w) (hidle : w.job = none) (hjob : job.piece = piece)
    (hahead : s.cursor ≤ piece) (hwindow : piece < s.cursor + window)
    (hlimit : s.attempts piece w.address < maxAttempts) (hpc : s'.pc = s.pc)
    (hcursor : s'.cursor = s.cursor) (hnext : s'.nextWorker = s.nextWorker)
    (hattempts : ∀ k a, s'.attempts k a =
      s.attempts k a + if k = piece ∧ a = w.address then 1 else 0)
    (hbytes : s'.credits.look (·.bytes) = s.credits.look (·.bytes))
    (hworkers : s'.workers = s.workers.modify id fun w => { w with job := some job }) :
    s'.Retries d log := by
  have hopen : s'.Open → s.Open := by
    rw [Open, Open, hpc, hbytes, hcursor]
    exact fun h => h
  have hself : s'.workers.get? id = some { w with job := some job } := by
    rw [hworkers, OrderedMap.get?_modify_self, hw]
    rfl
  refine H.change hw hcursor hnext hopen ?_ (fun id' hne => ?_) (fun w' hw' => ?_)
    (fun k a ha => ?_) ?_ (fun w' hw' hjob' ho hmax => ?_) fun k => .inl ?_
  · rw [hpc, hbytes, hcursor]
    exact H.settled
  · rw [hworkers, OrderedMap.get?_modify_of_ne _ _ hne]
  · cases hself.symm.trans hw'
    rfl
  · rw [hattempts, if_neg (fun h => ha h.2)]
    rfl
  · have hlt : s.spent w.address < s'.spent w.address := by
      refine spent_lt hcursor (fun k => ?_) hahead hwindow hlimit
      rw [hattempts]
      simp only [and_true]
    have := H.budget w.address
    omega
  · cases hself.symm.trans hw'
    have hpiece : piece ≠ s.cursor := hjob ▸ hjob' job rfl
    rw [hattempts, if_neg (fun h => hpiece h.1.symm)] at hmax
    exact H.old id w hw (fun j hj => (by rw [hidle] at hj; cases hj)) (hopen ho) hmax
  · have hle := H.limited hw k
    rw [hattempts]
    split
    · next h =>
      rw [h.1]
      exact hlimit
    · exact hle

theorem look_bytes_modify {credits : OrderedMap Nat Credit} (hf : ∀ c, (f c).bytes = c.bytes)
    (k : Nat) : (credits.modify k f).look (·.bytes) = credits.look (·.bytes) :=
  OrderedMap.look_modify_of_forall _ _ hf

theorem Retries.assignPiece (H : s.Retries d log) (R : s.Roster d) (B : s.Books d completions)
    (piece : Nat) : (s.assignPiece piece).Retries d log := by
  unfold Sys.assignPiece
  split
  · exact H
  next c hc =>
  split
  · exact H
  split
  · next id w hnext =>
    obtain ⟨hw, hidle, hlimit⟩ := nextOwner_spec hnext
    have hok := B.credits _ _ hc
    have hsat := saturatingAdd_le_add s.cursor window
    have hin := hok.inWindow
    have hwindow : piece < s.cursor + window := by omega
    unfold Sys.dispatch
    dsimp only
    split
    · refine H.assign ⟨piece, s.generation + 1⟩ hw hidle rfl hok.ahead hwindow ?_ rfl rfl rfl
        (fun k a => ?_) ?_ rfl
      · rw [attempts, attemptsOf_of_get? hc]
        exact hlimit
      · refine attemptsOf_attempt hc ?_ rfl k a
        rw [hok.attempts]
        exact (R.workers _ _ hw).2
      · exact look_bytes_modify
          (f := fun c => { c with attempts := c.attempts.modify w.address (· + 1), owner := some id })
          (fun _ => rfl) piece
    · exact H.quiet rfl (fun _ _ => rfl) rfl rfl (fun h => h) H.settled
  · exact H

theorem Retries.assigning (H : s.Retries d log) (R : s.Roster d) (B : s.Books d completions)
    {pieces : List Nat} (hpc : s.pc = .assigning pieces) : (s.assigning pieces).Retries d log := by
  have hrunning : s.pc.running = true := by rw [hpc]; rfl
  have hsettled := H.settled (by rw [hpc]; rfl)
  cases pieces with
  | cons piece pieces =>
    have H' := H.assignPiece R B piece
    have hpc' : (s.assignPiece piece).pc = s.pc := by
      obtain heq | ⟨c, id, w, -, -, -, -, -, heq⟩ := assignPiece_spec s piece
      · rw [heq]
      · rw [heq, Sys.dispatch]
        split
        · rfl
        · rfl
    have hwaiting : (s.assignPiece piece).pc.waiting = true := by rw [hpc', hpc]; rfl
    exact H'.quiet rfl (fun _ _ => rfl) rfl rfl (fun h => ⟨by rw [hpc']; exact hrunning, h.2⟩)
      fun _ => H'.settled hwaiting
  | nil =>
    rw [Sys.assigning]
    split
    · exact H.done ..
    split
    · exact H.done ..
    · exact H.quiet rfl (fun _ _ => rfl) rfl rfl (fun h => ⟨hrunning, h.2⟩) fun _ => hsettled

theorem Retries.coordinate (H : s.Retries d log) (R : s.Roster d) (B : s.Books d completions) :
    (s.coordinate d).Retries d (log ++ s.started d .coordinate) := by
  have hnone : s.pc ≠ .connecting → s.started d .coordinate = [] := by
    intro hne
    rw [started]
    split
    · next hpc => exact absurd hpc hne
    · rfl
  unfold Sys.coordinate
  split
  · next hpc =>
    rw [hnone (by rw [hpc]; intro h; cases h), List.append_nil]
    exact H.top hpc
  · next hpc => exact H.connect R B hpc
  · next pieces hpc =>
    rw [hnone (by rw [hpc]; intro h; cases h), List.append_nil]
    exact H.assigning R B hpc
  · next hne _ =>
    rw [hnone hne, List.append_nil]
    exact H

/-! ### Consumer and workers -/

theorem Retries.consume (H : s.Retries d log) : s.consume.Retries d log := by
  unfold Sys.consume
  split
  · split
    · exact H.done ..
    · -- nothing was started at the new cursor yet
      have hzero : ∀ a, log.count (s.cursor + 1, a) = 0 := fun a =>
        List.count_eq_zero_of_not_mem fun hmem => Nat.not_succ_le_self _ (H.logged _ hmem).2.1
      refine ⟨fun e he => ?_, H.total, H.addresses, fun h => (by cases h), fun a => .inl ?_,
        fun id w _ _ _ _ => hzero _, fun piece a => .inl ?_, H.counts⟩
      · obtain ⟨hfirst, hle, hstop, hpeer⟩ := H.logged e he
        exact ⟨hfirst, Nat.le_succ_of_le hle, hstop, hpeer⟩
      · show log.count (s.cursor + 1, a) ≤ _
        rw [hzero]
        exact Nat.zero_le _
      · show attemptsOf (s.credits.erase s.cursor) piece a ≤ maxAttempts
        unfold attemptsOf
        rw [OrderedMap.get?_erase]
        split
        · exact Nat.zero_le _
        · next hne => exact (H.bounded piece a).resolve_right fun h => hne h.1
  · exact H

theorem Retries.closeConsumer (H : s.Retries d log) : s.closeConsumer.Retries d log := by
  unfold Sys.closeConsumer
  split
  · exact H.done ..
  · exact H.done ..
  · exact H.quiet rfl (fun _ _ => rfl) rfl rfl (fun h => h) H.settled

theorem Retries.wake (H : s.Retries d log) : s.wake.Retries d log := by
  unfold Sys.wake
  split
  · next hpc _ =>
    exact H.quiet rfl (fun _ _ => rfl) rfl rfl (fun h => ⟨by rw [hpc]; rfl, h.2⟩) fun h => (by cases h)
  · exact H

theorem Retries.worker (H : s.Retries d log) (R : s.Roster d) (id : Nat) (e : WorkerEvent) :
    (s.worker d id e).Retries d log := by
  unfold Sys.worker
  split
  · next t ht =>
    generalize hs' : s.stepTask d id t e = s'
    cases hs' ▸ stepTask_spec (s := s) (R.wf _ _ ht) id e with
    | same => exact H
    | moved | reported => exact H.quiet rfl (fun _ _ => rfl) rfl rfl (fun h => h) H.settled
  · exact H

/-- A worker is through with its job. -/
theorem Retries.complete (H : s.Retries d log) {job : Job} (hw : s.workers.get? id = some w)
    (hjob : w.job = some job) (hopen : s'.Open → s.Open ∧ job.piece ≠ s.cursor)
    (hwaiting : s'.pc.waiting = false) (hcursor : s'.cursor = s.cursor)
    (hnext : s'.nextWorker = s.nextWorker) (hattempts : ∀ k a, s'.attempts k a = s.attempts k a)
    (hworkers : s'.workers = s.workers.modify id fun w => { w with job := none }) :
    s'.Retries d log := by
  refine H.change hw hcursor hnext (fun ho => (hopen ho).1)
    (fun h => (by rw [hwaiting] at h; cases h)) (fun id' hne => ?_) (fun w' hw' => ?_)
    (fun k a _ => hattempts k a) ?_ (fun w' _ _ ho hmax => ?_) fun k => .inl ?_
  · rw [hworkers, OrderedMap.get?_modify_of_ne _ _ hne]
  · rw [hworkers, OrderedMap.get?_modify_self, hw] at hw'
    cases hw'
    rfl
  · rw [spent_congr hcursor fun k => hattempts k w.address]
    exact H.paid hw hjob
  · obtain ⟨ho, hpiece⟩ := hopen ho
    rw [hattempts] at hmax
    refine H.old id w hw (fun j hj => ?_) ho hmax
    rw [hjob] at hj
    cases hj
    exact hpiece
  · rw [hattempts]
    exact H.limited hw k

/-- A worker is gone. An idle one pays at the frontier, unless it is from an earlier cursor. -/
theorem Retries.retire (H : s.Retries d log) (hw : s.workers.get? id = some w) (hopen : s.Open)
    (hwaiting : s'.pc.waiting = false) (hcursor : s'.cursor = s.cursor)
    (hnext : s'.nextWorker = s.nextWorker)
    (hattempts : ∀ k a, s'.attempts k a =
      s.attempts k a + if w.job = none ∧ k = s.cursor ∧ a = w.address then 1 else 0)
    (hworkers : s'.workers = s.workers.erase id) : s'.Retries d log := by
  have hgone : s'.workers.get? id = none := by rw [hworkers, OrderedMap.get?_erase_self]
  refine H.change hw hcursor hnext (fun _ => hopen) (fun h => (by rw [hwaiting] at h; cases h))
    (fun id' hne => ?_) (fun w' hw' => ?_) (fun k a ha => ?_) ?_ (fun w' hw' => ?_) fun k => ?_
  · rw [hworkers, OrderedMap.get?_erase_of_ne _ hne]
  · rw [hgone] at hw'
    cases hw'
  · rw [hattempts, if_neg (fun h => ha h.2.2)]
    rfl
  · cases hjob : w.job with
    | some job =>
      rw [spent_congr hcursor fun k => by rw [hattempts, if_neg (by simp [hjob])]; rfl]
      exact H.paid hw hjob
    | none =>
      by_cases hlimit : s.attempts s.cursor w.address < maxAttempts
      · have hlt : s.spent w.address < s'.spent w.address := by
          refine spent_lt hcursor (fun k => ?_) (Nat.le_refl s.cursor) (by
            have : 0 < window := by decide
            omega) hlimit
          rw [hattempts]
          simp only [hjob, true_and, and_true]
        have := H.budget w.address
        omega
      · rw [H.old id w hw (fun j hj => (by rw [hjob] at hj; cases hj)) hopen (Nat.not_lt.mp hlimit)]
        exact Nat.zero_le _
  · rw [hgone] at hw'
    cases hw'
  · have hle := H.limited hw k
    rw [hattempts]
    split
    · next hcond =>
      by_cases hlimit : s.attempts k w.address < maxAttempts
      · exact .inl hlimit
      · exact .inr ⟨hcond.2.1, by omega, hgone⟩
    · exact .inl hle

theorem Retries.receive (H : s.Retries d log) (L : s.Leased) : s.receive.Retries d log := by
  unfold Sys.receive
  split
  · next c rest hpc _ =>
    have hrunning : s.pc.running = true := by rw [hpc]; rfl
    have hsettled := H.settled (by rw [hpc]; rfl)
    dsimp only
    split
    · next hcur =>
      obtain ⟨w, hw, hjob⟩ := current_eq_true.mp hcur
      obtain ⟨credit, hcredit, howner⟩ := OrderedMap.look_eq_some.mp
        (L.leased ((job_of_get? hw).trans hjob))
      refine H.complete hw hjob (fun ho => ⟨⟨hrunning, hsettled⟩, fun heq => ?_⟩) rfl rfl rfl
        (fun k a => attemptsOf_modify_of_forall (fun credit => ?_) c.job.piece k a) rfl
      · -- the piece at the cursor has come
        have hbytes := ho.2
        rw [← heq] at hbytes
        have hnone : (some c.bytes : Option Bytes) = none := by
          rw [← hbytes]
          show _ = OrderedMap.look _ _ _
          rw [OrderedMap.look, OrderedMap.get?_modify_self, hcredit, Option.map_some, if_pos howner]
          rfl
        cases hnone
      · split
        · rfl
        · rfl
    · exact H.quiet rfl (fun _ _ => rfl) rfl rfl (fun h => ⟨hrunning, h.2⟩) fun h => (by cases h)
  · exact H

theorem Retries.join (H : s.Retries d log) (R : s.Roster d) (B : s.Books d completions)
    (hd : d.rangeEnd ≤ u64Max) (id : Nat) : (s.join id).Retries d log := by
  unfold Sys.join
  split
  · exact H.done ..
  · next hpc ht =>
    have hopen : s.Open := ⟨by rw [hpc]; rfl, H.settled (by rw [hpc]; rfl)⟩
    have hstage := B.stage
    rw [hpc] at hstage
    dsimp only
    split
    · exact H.quiet rfl (fun _ _ => rfl) rfl rfl (fun _ => hopen) fun h => (by cases h)
    · next w hw =>
      refine H.retire hw hopen rfl rfl rfl (fun k a => ?_) rfl
      show attemptsOf (release _ id w) k a = _
      unfold Sys.release
      cases hjob : w.job with
      | some job =>
        rw [if_neg (fun h => (by cases h.1))]
        exact attemptsOf_modify_of_forall (fun c => by split <;> rfl) ..
      | none =>
        obtain ⟨c, hc⟩ := OrderedMap.contains_iff.mp (hstage.2 hd)
        have hlt : w.address < c.attempts.length := by
          rw [(B.credits _ _ hc).attempts]
          exact (R.workers _ _ hw).2
        rw [attemptsOf_attempt hc hlt rfl]
        simp only [true_and]
        rfl
  · exact H

theorem Retries.init (d : Download) : (Sys.start d).Retries d [] where
  logged _ h := by cases h
  total := rfl
  addresses _ _ _ _ h := by cases h
  settled _ := rfl
  budget _ := .inl (Nat.zero_le _)
  old _ _ h := by cases h
  bounded _ _ := .inl (Nat.zero_le _)
  counts _ := Nat.zero_le _

theorem Retries.step (H : s.Retries d log) (I : s.Inv d completions) (hd : d.rangeEnd ≤ u64Max)
    (a : Action) : (s.step d a).Retries d (log ++ s.started d a) := by
  obtain ⟨L, R, B⟩ := I
  cases a with
  | coordinate => exact H.coordinate R B
  | consume => exact (List.append_nil log).symm ▸ H.consume
  | closeConsumer => exact (List.append_nil log).symm ▸ H.closeConsumer
  | receive => exact (List.append_nil log).symm ▸ H.receive L
  | join id => exact (List.append_nil log).symm ▸ H.join R B hd id
  | wake => exact (List.append_nil log).symm ▸ H.wake
  | worker id e => exact (List.append_nil log).symm ▸ H.worker R id e

theorem retries_run (d : Download) (hd : d.rangeEnd ≤ u64Max) (actions : List Action) :
    (run (step d) (start d) actions).Retries d (emits (step d) (started d) (start d) actions) := by
  have h : (run (step d) (start d) actions).Retries d
        ([] ++ emits (step d) (started d) (start d) actions) ∧
      ∃ completions, (run (step d) (start d) actions).Inv d completions :=
    run_emits_invariant (I := fun (s : Sys) log => s.Retries d log ∧ ∃ completions, s.Inv d completions)
      (fun s log a H => ⟨H.1.step H.2.choose_spec hd a, _, H.2.choose_spec.step a⟩)
      ⟨.init d, [], .start d⟩ actions
  exact h.1

/-- As many elements as there are places for them. -/
theorem length_le_of_count {log : List (Nat × Nat)} {first stop peers k : Nat}
    (hmem : ∀ e ∈ log, first ≤ e.1 ∧ e.1 < stop ∧ e.2 < peers) (hcount : ∀ e, log.count e ≤ k) :
    log.length ≤ k * ((stop - first) * peers) := by
  have hsub : log.toFinset ⊆ Finset.Ico first stop ×ˢ Finset.range peers := by
    intro e he
    obtain ⟨hfirst, hstop, hpeer⟩ := hmem e (List.mem_toFinset.mp he)
    exact Finset.mem_product.mpr ⟨Finset.mem_Ico.mpr ⟨hfirst, hstop⟩, Finset.mem_range.mpr hpeer⟩
  have hcard : log.toFinset.card ≤ (stop - first) * peers := by
    refine (Finset.card_le_card hsub).trans_eq ?_
    rw [Finset.card_product, Nat.card_Ico, Finset.card_range]
  have hsum : ∑ e ∈ log.toFinset, log.count e = log.length := by
    convert List.sum_toFinset_count_eq_length log
  calc log.length = ∑ e ∈ log.toFinset, log.count e := hsum.symm
    _ ≤ log.toFinset.card • k := Finset.sum_le_card_nsmul _ _ _ fun e _ => hcount e
    _ = k * log.toFinset.card := by rw [nsmul_eq_mul, Nat.cast_id, Nat.mul_comm]
    _ ≤ k * ((stop - first) * peers) := Nat.mul_le_mul_left k hcard

end Sys

end Outpace.Swarm.Vod

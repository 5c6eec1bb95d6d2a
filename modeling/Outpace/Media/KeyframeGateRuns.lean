import Outpace.Media.KeyframeGate

/-!
# Runs of a keyframe gate

A run is a sequence of pushes and resets. How the bytes between two resets are cut into pushes does
not matter (`output_joined`), and a locked gate without a title hands its input on
(`untitled_output`).

A gate with a title keeps upstream service tables out and numbers its own ones through all resets.
The one other packet on their PID that it can put out is a discontinuity marker: on the scan budget
it marks the video PID that it learned, and a PMT may name PID `0x11` as that (`marksServicePid`).
-/

namespace Outpace.Media.KeyframeGate

inductive Op where
  | push (data : List UInt8)
  | reset
  | resetForDiscontinuity
  | rearmForDiscontinuity
  deriving DecidableEq

def Op.exec (g : KeyframeGate) : Op → List UInt8 × KeyframeGate
  | .push data => g.push data
  | .reset => ([], g.reset)
  | .resetForDiscontinuity => ([], g.resetForDiscontinuity)
  | .rearmForDiscontinuity => ([], g.rearmForDiscontinuity)

def step (g : KeyframeGate) (op : Op) : KeyframeGate := (op.exec g).2

/-- The concatenated output of a run. -/
def output (g : KeyframeGate) (ops : List Op) : List UInt8 :=
  emits step (fun g op => (op.exec g).1) g ops

/-- The same run with one push between two resets. -/
def joined : List Op → List Op
  | [] => []
  | .push data :: ops =>
    match joined ops with
    | .push data' :: ops' => .push (data ++ data') :: ops'
    | ops' => .push data :: ops'
  | op :: ops => op :: joined ops

/-! ### How the stream is cut -/

/-- A push of two parts is two pushes. -/
theorem push_append (g : KeyframeGate) (xs ys : List UInt8) :
    g.push (xs ++ ys) =
      ((g.push xs).1 ++ ((g.push xs).2.push ys).1, ((g.push xs).2.push ys).2) := by
  obtain ⟨hblocks, hrest⟩ := blocks_append tsPacketLen_pos (g.buf ++ xs) ys
  have hbuf : { run packetStep { g with buf := [] } (blocks tsPacketLen (g.buf ++ xs)) with buf := [] } =
      run packetStep { g with buf := [] } (blocks tsPacketLen (g.buf ++ xs)) := by
    have h := buf_run { g with buf := [] } (blocks tsPacketLen (g.buf ++ xs))
    generalize run packetStep { g with buf := [] } (blocks tsPacketLen (g.buf ++ xs)) = g' at h ⊢
    cases g'
    cases h
    rfl
  simp only [push_eq, ← List.append_assoc, hblocks, hrest, emits_append, run_append, hbuf,
    List.flatten_append]

theorem output_cons (g : KeyframeGate) (op : Op) (ops : List Op) :
    g.output (op :: ops) = (op.exec g).1 ++ (g.step op).output ops := rfl

theorem output_push_push (g : KeyframeGate) (xs ys : List UInt8) (ops : List Op) :
    g.output (.push xs :: .push ys :: ops) = g.output (.push (xs ++ ys) :: ops) := by
  simp only [output_cons, step, Op.exec, push_append g xs ys, List.append_assoc]

theorem output_joined (g : KeyframeGate) (ops : List Op) : g.output (joined ops) = g.output ops := by
  induction ops generalizing g with
  | nil => rfl
  | cons op ops ih =>
    have hkeep : g.output (op :: joined ops) = g.output (op :: ops) := by
      rw [output_cons, output_cons, ih]
    cases op with
    | push data =>
      rw [← hkeep, joined]
      split
      · next data' ops' hj => rw [hj, output_push_push]
      · rfl
    | reset => exact hkeep
    | resetForDiscontinuity => exact hkeep
    | rearmForDiscontinuity => exact hkeep

/-! ### A gate without a title -/

/-- A locked gate without a title hands every packet on as it is. -/
theorem untitled_packet {g : KeyframeGate} (hf : g.filterSdt = false) (hl : g.locked = true)
    (pkt : List UInt8) :
    g.packetOut pkt = [pkt] ∧ (g.packetStep pkt).filterSdt = false ∧
      (g.packetStep pkt).locked = true := by
  have hpass : g.filters pkt = false := by simp [filters, hf]
  simp [packetOut, packetStep, packet, hpass, gated, hl, hf, PacketOutput.packets]

theorem untitled_run {g : KeyframeGate} (hf : g.filterSdt = false) (hl : g.locked = true)
    (pkts : List (List UInt8)) :
    emits packetStep packetOut g pkts = pkts ∧ (run packetStep g pkts).filterSdt = false ∧
      (run packetStep g pkts).locked = true := by
  induction pkts generalizing g with
  | nil => exact ⟨rfl, hf, hl⟩
  | cons pkt pkts ih =>
    obtain ⟨hout, hf', hl'⟩ := untitled_packet hf hl pkt
    obtain ⟨hrest, H⟩ := ih hf' hl'
    exact ⟨by rw [emits_cons, hout, hrest]; rfl, H⟩

theorem untitled_output {g : KeyframeGate} (hf : g.filterSdt = false) (hl : g.locked = true)
    (parts : List (List UInt8)) :
    g.output (parts.map .push) ++ (run step g (parts.map .push)).buf = g.buf ++ parts.flatten := by
  induction parts generalizing g with
  | nil => simp [output]
  | cons part parts ih =>
    obtain ⟨hout, hf', hl'⟩ := untitled_run (g := { g with buf := [] }) hf hl
      (blocks tsPacketLen (g.buf ++ part))
    have hpush := push_eq g part
    have h := @ih (g.step (.push part)) (by simp only [step, Op.exec, hpush]; exact hf')
      (by simp only [step, Op.exec, hpush]; exact hl')
    rw [List.map_cons, output_cons, run_cons, List.append_assoc, h]
    simp only [step, Op.exec, hpush, hout]
    rw [← List.append_assoc, flatten_blocks_rest tsPacketLen_pos, List.flatten_cons,
      List.append_assoc]

/-! ### A gate with a title -/

/-- The access point state of a gate with this title: what it caches is not on the PID of the
service table. -/
structure Tables (name : List Char) (a : VideoAccessPointState) : Prop where
  name : a.serviceName = some name
  identity : a.preserveTransportIdentity = false
  pat : ∀ pat, a.cachedPat = some pat → pat.length = tsPacketLen ∧ tsPid pat ≠ sdtPid
  pmt : ∀ pmt, a.cachedPmt = some pmt → pmt.length = tsPacketLen ∧ tsPid pmt ≠ sdtPid
  video : ∀ v ∈ a.videoPid, v < 8192

variable {name : List Char} {a : VideoAccessPointState}

theorem Tables.reset (T : Tables name a) : Tables name a.reset :=
  ⟨T.name, T.identity, fun _ h => (by cases h), fun _ h => (by cases h),
    fun _ h => (by cases h)⟩

theorem Tables.learnPat (T : Tables name a) {pkt : List UInt8} (hlen : pkt.length = tsPacketLen)
    (hpid : tsPid pkt ≠ sdtPid) (mapping : Option (Nat × Nat)) :
    Tables name (a.learnPat pkt mapping) := by
  have hpat : ∀ pat, some pkt = some pat → pat.length = tsPacketLen ∧ tsPid pat ≠ sdtPid := by
    rintro pat ⟨⟩
    exact ⟨hlen, hpid⟩
  unfold VideoAccessPointState.learnPat
  dsimp only
  split
  · exact ⟨T.name, T.identity, hpat, fun _ h => (by cases h), fun _ h => (by cases h)⟩
  · exact ⟨T.name, T.identity, hpat, T.pmt, T.video⟩

theorem Tables.learn (T : Tables name a) {pkt : List UInt8} (hlen : pkt.length = tsPacketLen)
    (hpid : tsPid pkt ≠ sdtPid) : Tables name (a.learn pkt) := by
  unfold VideoAccessPointState.learn
  dsimp only
  split
  · split
    · exact T.learnPat hlen hpid _
    · exact T
  · split
    · split
      · next video hvideo =>
        refine ⟨T.name, T.identity, T.pat, ?_, fun v hv => ?_⟩
        · rintro pmt ⟨⟩
          exact ⟨hlen, hpid⟩
        · obtain ⟨w, hw, rfl⟩ := Option.map_eq_some_iff.mp hv
          exact parsePmtVideo_lt hvideo w hw
      · exact T
    · exact T

theorem Tables.observe (T : Tables name a) {pkt : List UInt8} (hlen : pkt.length = tsPacketLen)
    (hpid : tsPid pkt ≠ sdtPid) : Tables name (a.observe pkt).2 := by
  unfold VideoAccessPointState.observe
  split
  · exact T
  · exact T.learn hlen hpid

/-- The gate's own packet for a program. -/
def ownSdt (name : List Char) (counter : UInt8) (program : Nat) : List UInt8 :=
  withCounter (buildSdt program name) counter

/-- Packets of a gate: whole ones, and on the PID of the service table only its own, numbered from
`counter` up to `counter'`. -/
def Numbered (name : List Char) (counter counter' : UInt8) (pkts : List (List UInt8)) : Prop :=
  (∀ p ∈ pkts, p.length = tsPacketLen) ∧
    (pkts.filter (fun p => tsPid p = sdtPid) = [] ∧ counter' = counter ∨
      ∃ program, pkts.filter (fun p => tsPid p = sdtPid) = [ownSdt name counter program] ∧
        counter' = (counter + 1) &&& 0x0f)

section
variable {counter counter' : UInt8} {pkts pkts' : List (List UInt8)}

theorem filter_other (h : ∀ p ∈ pkts, p.length = tsPacketLen ∧ tsPid p ≠ sdtPid) :
    pkts.filter (fun p => tsPid p = sdtPid) = [] :=
  List.filter_eq_nil_iff.mpr fun p hp => by simpa using (h p hp).2

theorem Numbered.of_other (h : ∀ p ∈ pkts, p.length = tsPacketLen ∧ tsPid p ≠ sdtPid) :
    Numbered name counter counter pkts :=
  ⟨fun p hp => (h p hp).1, .inl ⟨filter_other h, rfl⟩⟩

theorem Numbered.append_other (H : Numbered name counter counter' pkts)
    (h : ∀ p ∈ pkts', p.length = tsPacketLen ∧ tsPid p ≠ sdtPid) :
    Numbered name counter counter' (pkts ++ pkts') := by
  refine ⟨fun p hp => (List.mem_append.mp hp).elim (H.1 p) fun hp => (h p hp).1, ?_⟩
  rw [List.filter_append, filter_other h, List.append_nil]
  exact H.2

theorem Numbered.other_append (H : Numbered name counter counter' pkts')
    (h : ∀ p ∈ pkts, p.length = tsPacketLen ∧ tsPid p ≠ sdtPid) :
    Numbered name counter counter' (pkts ++ pkts') := by
  refine ⟨fun p hp => (List.mem_append.mp hp).elim (fun hp => (h p hp).1) (H.1 p), ?_⟩
  rw [List.filter_append, filter_other h, List.nil_append]
  exact H.2

end

/-- The tables that the gate puts in. -/
theorem Tables.gateTables (T : Tables name a) (hname : (encodeUtf8 name).length ≤ maxServiceNameBytes)
    (counter : UInt8) :
    Numbered name counter (gateTables a counter).2 (gateTables a counter).1 := by
  unfold Media.gateTables VideoAccessPointState.tables
  cases hpat : a.cachedPat with
  | none => exact .of_other fun p hp => by cases hp
  | some pat =>
    cases hpmt : a.cachedPmt with
    | none => exact .of_other fun p hp => by cases hp
    | some pmt =>
      obtain ⟨hpatlen, hpatpid⟩ := T.pat pat hpat
      obtain ⟨hpmtlen, hpmtpid⟩ := T.pmt pmt hpmt
      have hboth : ∀ p ∈ [pat, pmt], p.length = tsPacketLen ∧ tsPid p ≠ sdtPid := by
        simp [hpatlen, hpatpid, hpmtlen, hpmtpid]
      simp only [T.name]
      cases a.programNumber with
      | none =>
        simp only [List.foldl_cons, List.foldl_nil, appendTable, if_neg hpatpid, if_neg hpmtpid]
        exact .of_other hboth
      | some program =>
        have hsdt : tsPid (buildSdt program name) = sdtPid := tsPid_buildSdt program name
        simp only [VideoAccessPointState.sdt, T.identity, Bool.false_eq_true, if_false,
          Option.map_some, List.foldl_cons, List.foldl_nil, appendTable, if_neg hpatpid,
          if_neg hpmtpid, if_pos hsdt]
        have hown : Numbered name counter ((counter + 1) &&& 0x0f)
            [ownSdt name counter program] := by
          refine ⟨fun p hp => ?_, .inr ⟨program, ?_, rfl⟩⟩
          · obtain rfl := List.mem_singleton.mp hp
            exact (length_withCounter ..).trans (length_buildSdt hname program)
          · have : tsPid (ownSdt name counter program) = sdtPid := (tsPid_withCounter ..).trans hsdt
            simp [this]
        exact hown.other_append hboth

/-- On the scan budget the gate marks a video PID that it took from a PMT and that is the one of the
service table. -/
def marksServicePid (g : KeyframeGate) (pkt : List UInt8) : Bool :=
  !g.filters pkt && !g.locked && !(g.access.observe pkt).1 &&
    decide (g.maxScanPackets ≤ wrappingAdd g.scanned 1) && g.markDiscontinuity &&
    decide ((g.access.observe pkt).2.videoPid = some sdtPid)

/-- A gate with this title. -/
structure Titled (name : List Char) (g : KeyframeGate) : Prop where
  filterSdt : g.filterSdt = true
  fits : (encodeUtf8 name).length ≤ maxServiceNameBytes
  tables : Tables name g.access

variable {g : KeyframeGate} {pkt : List UInt8}

/-- A packet that takes part in the gating. -/
theorem Titled.gated (T : Titled name g) (hlen : pkt.length = tsPacketLen)
    (hpid : tsPid pkt ≠ sdtPid) {accessPoint : Bool} {access : VideoAccessPointState}
    (T' : Tables name access)
    (hmark : g.locked = false → accessPoint = false →
      g.maxScanPackets ≤ wrappingAdd g.scanned 1 → g.markDiscontinuity = true →
        access.videoPid ≠ some sdtPid) :
    Titled name (g.gated pkt accessPoint access).2 ∧
      Numbered name g.nextSdtCounter (g.gated pkt accessPoint access).2.nextSdtCounter
        (g.gated pkt accessPoint access).1.packets ∧
      ∀ p ∈ (g.gated pkt accessPoint access).1.forwarded, tsPid p ≠ sdtPid := by
  have htables := T'.gateTables T.fits g.nextSdtCounter
  have hself : ∀ p ∈ [pkt], p.length = tsPacketLen ∧ tsPid p ≠ sdtPid := by simp [hlen, hpid]
  cases hl : g.locked with
  | true =>
    rw [gated_locked hl]
    refine ⟨⟨T.filterSdt, T.fits, T'⟩, ?_, fun p hp => by cases hp; exact hpid⟩
    dsimp only
    split
    · exact htables.append_other hself
    · exact .of_other hself
  | false =>
    cases accessPoint with
    | true =>
      obtain ⟨hrlen, hrpid, hmarkers⟩ :=
        @resumedPacket_spec g.markDiscontinuity none pkt fun v hv => by cases hv
      rw [gated_accessPoint hl]
      refine ⟨⟨T.filterSdt, T.fits, T'⟩, ?_, fun p hp => by cases hp; exact hrpid.trans_ne hpid⟩
      show Numbered name _ _ ((gateTables access g.nextSdtCounter).1 ++ _ ++ [_])
      rw [List.append_assoc]
      refine htables.append_other fun p hp => ?_
      rcases List.mem_append.mp hp with hp | hp
      · obtain ⟨-, hplen, hppid⟩ := hmarkers p hp
        exact ⟨hplen, hppid.trans_ne hpid⟩
      · obtain rfl := List.mem_singleton.mp hp
        exact ⟨hrlen.trans hlen, hrpid.trans_ne hpid⟩
    | false =>
      by_cases hs : g.maxScanPackets ≤ wrappingAdd g.scanned 1
      · obtain ⟨hrlen, hrpid, hmarkers⟩ :=
          resumedPacket_spec g.markDiscontinuity pkt T'.video
        rw [gated_scanBudget hl hs]
        refine ⟨⟨T.filterSdt, T.fits, T'⟩, .of_other fun p hp => ?_,
          fun p hp => by cases hp; exact hrpid.trans_ne hpid⟩
        rcases List.mem_append.mp hp with hp | hp
        · obtain ⟨hm, hplen, hppid⟩ := hmarkers p hp
          refine ⟨hplen, hppid.trans_ne ?_⟩
          have hvideo := hmark hl rfl hs hm
          cases hv : access.videoPid with
          | none => exact hpid
          | some v => exact fun h => hvideo (hv.trans (congrArg some h))
        · obtain rfl := List.mem_singleton.mp hp
          exact ⟨hrlen.trans hlen, hrpid.trans_ne hpid⟩
      · rw [gated_withheld hl hs]
        exact ⟨⟨T.filterSdt, T.fits, T'⟩, .of_other fun p hp => (by cases hp),
          fun p hp => (by cases hp)⟩

/-- One round of a gate with a title. -/
theorem Titled.packet (T : Titled name g) (hlen : pkt.length = tsPacketLen)
    (hmark : g.marksServicePid pkt = false) :
    Titled name (g.packetStep pkt) ∧
      Numbered name g.nextSdtCounter (g.packetStep pkt).nextSdtCounter (g.packetOut pkt) ∧
      ∀ p ∈ (g.packet pkt).1.forwarded, tsPid p ≠ sdtPid := by
  unfold packetStep packetOut KeyframeGate.packet
  by_cases hfilter : g.filters pkt = true
  · have hsame : Numbered name g.nextSdtCounter g.nextSdtCounter [] :=
      .of_other fun p hp => by cases hp
    rw [if_pos hfilter]
    dsimp only
    split
    · exact ⟨T, hsame, fun p hp => by cases hp⟩
    · exact ⟨⟨T.filterSdt, T.fits, T.tables⟩, hsame, fun p hp => by cases hp⟩
  · rw [Bool.not_eq_true] at hfilter
    have hpid : tsPid pkt ≠ sdtPid := by
      rw [filters, T.filterSdt] at hfilter
      simpa using hfilter
    rw [if_neg (by simp [hfilter])]
    refine T.gated hlen hpid (T.tables.observe hlen hpid) fun hl hap hs hm hvideo => ?_
    simp [marksServicePid, hfilter, hl, hap, hs, hm, hvideo] at hmark

/-! ### Runs of a gate with a title -/

/-- The packets of a run so far: whole ones, and on the PID of the service table the gate's own,
numbered from zero. -/
structure Owns (name : List Char) (g : KeyframeGate) (log : List (List UInt8)) : Prop where
  titled : Titled name g
  whole : ∀ p ∈ log, p.length = tsPacketLen
  numbered : ∃ programs : List Nat,
    log.filter (fun p => tsPid p = sdtPid) =
      programs.mapIdx (fun k program => ownSdt name (.ofNat (k % 16)) program) ∧
    g.nextSdtCounter = .ofNat (programs.length % 16)

theorem next_counter (n : Nat) :
    (UInt8.ofNat (n % 16) + 1) &&& 0x0f = UInt8.ofNat ((n + 1) % 16) := by
  have hall : ∀ k < 16, (UInt8.ofNat k + 1) &&& 0x0f = UInt8.ofNat ((k + 1) % 16) := by decide
  rw [hall _ (Nat.mod_lt n (by decide)), Nat.mod_add_mod]

theorem Owns.append {log pkts : List (List UInt8)} (O : Owns name g log) {g' : KeyframeGate}
    (T : Titled name g') (H : Numbered name g.nextSdtCounter g'.nextSdtCounter pkts) :
    Owns name g' (log ++ pkts) := by
  obtain ⟨programs, hlog, hcounter⟩ := O.numbered
  refine ⟨T, fun p hp => (List.mem_append.mp hp).elim (O.whole p) (H.1 p), ?_⟩
  rw [List.filter_append, hlog]
  rcases H.2 with ⟨hnone, hsame⟩ | ⟨program, hone, hnext⟩
  · exact ⟨programs, by rw [hnone, List.append_nil], hsame.trans hcounter⟩
  · refine ⟨programs ++ [program], ?_, ?_⟩
    · rw [hone, List.mapIdx_append, List.mapIdx_singleton, hcounter, Nat.zero_add]
    · rw [hnext, hcounter, next_counter, List.length_append]
      rfl

theorem Owns.packets {log pkts : List (List UInt8)} (O : Owns name g log)
    (hpkts : ∀ p ∈ pkts, p.length = tsPacketLen)
    (h : Meets packetStep (fun g p => g.marksServicePid p = false) g pkts) :
    Owns name (run packetStep g pkts) (log ++ emits packetStep packetOut g pkts) ∧
      ∀ p ∈ emits packetStep (fun g p => (g.packet p).1.forwarded.toList) g pkts,
        tsPid p ≠ sdtPid := by
  induction pkts generalizing g log with
  | nil => exact ⟨by simpa using O, fun p hp => by cases hp⟩
  | cons pkt pkts ih =>
    obtain ⟨hlen, hrest⟩ := List.forall_mem_cons.mp hpkts
    obtain ⟨T, H, hforward⟩ := O.titled.packet hlen h.1
    obtain ⟨O', hforward'⟩ := ih (O.append T H) hrest h.2
    rw [run_cons, emits_cons, ← List.append_assoc]
    refine ⟨O', fun p hp => ?_⟩
    rcases List.mem_append.mp hp with hp | hp
    · exact hforward p (Option.mem_toList.mp hp)
    · exact hforward' p hp

/-- The packets that an operation puts out. -/
def Op.packets (g : KeyframeGate) : Op → List (List UInt8)
  | .push data =>
    emits packetStep packetOut { g with buf := [] } (blocks tsPacketLen (g.buf ++ data))
  | _ => []

/-- The packets among them that come from the input. -/
def Op.forwarded (g : KeyframeGate) : Op → List (List UInt8)
  | .push data =>
    emits packetStep (fun g p => (g.packet p).1.forwarded.toList) { g with buf := [] }
      (blocks tsPacketLen (g.buf ++ data))
  | _ => []

/-- No packet of the operation makes the gate mark the PID of the service table. -/
def Op.Spares (g : KeyframeGate) : Op → Prop
  | .push data =>
    Meets packetStep (fun g p => g.marksServicePid p = false) { g with buf := [] }
      (blocks tsPacketLen (g.buf ++ data))
  | _ => True

instance (g : KeyframeGate) (op : Op) : Decidable (op.Spares g) :=
  match op with
  | .push _ => decidableMeets ..
  | .reset => inferInstanceAs (Decidable True)
  | .resetForDiscontinuity => inferInstanceAs (Decidable True)
  | .rearmForDiscontinuity => inferInstanceAs (Decidable True)

theorem exec_packets (g : KeyframeGate) (op : Op) : (op.exec g).1 = (op.packets g).flatten := by
  cases op with
  | push data => rw [Op.exec, push_eq]; rfl
  | reset => rfl
  | resetForDiscontinuity => rfl
  | rearmForDiscontinuity => rfl

theorem output_packets (g : KeyframeGate) (ops : List Op) :
    g.output ops = (emits step (fun g op => op.packets g) g ops).flatten := by
  induction ops generalizing g with
  | nil => rfl
  | cons op ops ih => rw [output_cons, ih, exec_packets, emits_cons, List.flatten_append]

theorem Owns.op {log : List (List UInt8)} (O : Owns name g log) {op : Op} (h : op.Spares g) :
    Owns name (g.step op) (log ++ op.packets g) ∧ ∀ p ∈ op.forwarded g, tsPid p ≠ sdtPid := by
  have T := O.titled
  have hnone : Numbered name g.nextSdtCounter g.nextSdtCounter [] :=
    .of_other fun p hp => by cases hp
  cases op with
  | push data =>
    have O₀ : Owns name { g with buf := [] } log :=
      ⟨⟨T.filterSdt, T.fits, T.tables⟩, O.whole, O.numbered⟩
    obtain ⟨O', hforward⟩ := O₀.packets (fun p hp => length_of_mem_blocks hp) h
    refine ⟨⟨?_, O'.whole, ?_⟩, hforward⟩
    · rw [step, Op.exec, push_eq]
      exact ⟨O'.titled.filterSdt, O'.titled.fits, O'.titled.tables⟩
    · rw [step, Op.exec, push_eq]
      exact O'.numbered
  | reset => exact ⟨O.append ⟨T.filterSdt, T.fits, T.tables.reset⟩ hnone, fun p hp => by cases hp⟩
  | resetForDiscontinuity =>
    exact ⟨O.append ⟨T.filterSdt, T.fits, T.tables.reset⟩ hnone, fun p hp => by cases hp⟩
  | rearmForDiscontinuity =>
    exact ⟨O.append ⟨T.filterSdt, T.fits, T.tables⟩ hnone, fun p hp => by cases hp⟩

theorem Owns.ops {log : List (List UInt8)} (O : Owns name g log) {ops : List Op}
    (h : Meets step (fun g op => op.Spares g) g ops) :
    Owns name (run step g ops) (log ++ emits step (fun g op => op.packets g) g ops) ∧
      ∀ p ∈ emits step (fun g op => op.forwarded g) g ops, tsPid p ≠ sdtPid := by
  induction ops generalizing g log with
  | nil => exact ⟨by simpa using O, fun p hp => by cases hp⟩
  | cons op ops ih =>
    obtain ⟨O₁, hforward⟩ := O.op h.1
    obtain ⟨O', hforward'⟩ := ih O₁ h.2
    rw [run_cons, emits_cons, ← List.append_assoc]
    refine ⟨O', fun p hp => ?_⟩
    rcases List.mem_append.mp hp with hp | hp
    · exact hforward p hp
    · exact hforward' p hp

theorem owns_withServiceName {raw : List Char} (h : sanitizeServiceName raw = some name) :
    Owns name (withServiceName (some raw)) [] := by
  have hname : (withServiceName (some raw)).access.serviceName = some name := h
  refine ⟨⟨?_, sanitizeServiceName_le h, ⟨hname, rfl, ?_, ?_, ?_⟩⟩, ?_, [], rfl, rfl⟩
  · show (withServiceName (some raw)).access.serviceName.isSome = true
    rw [hname]
    rfl
  · exact fun _ h => by cases h
  · exact fun _ h => by cases h
  · exact fun _ h => by cases h
  · exact fun _ h => by cases h

/-- A gate with a title owns the service table: cutting the bytes between two resets into pushes
changes nothing, and as long as it marks no loss on the PID of the service table, the packets on that
PID are its own ones, numbered through all resets, and none that it hands on from its input. A gate
without a title hands its input on once it is locked. -/
theorem titled_gate_owns_service_table (raw : List Char)
    (hname : sanitizeServiceName raw = some name) (ops : List Op) :
    ((withServiceName (some raw)).output ops = (withServiceName (some raw)).output (joined ops)) ∧
      (Meets step (fun g op => op.Spares g) (withServiceName (some raw)) ops →
        (tsPacketLen ∣ ((withServiceName (some raw)).output ops).length ∧
          ∃ programs : List Nat,
            (blocks tsPacketLen ((withServiceName (some raw)).output ops)).filter
                (fun p => tsPid p = sdtPid) =
              programs.mapIdx fun k program =>
                withCounter (buildSdt program name) (.ofNat (k % 16))) ∧
        ∀ p ∈ emits step (fun g op => op.forwarded g) (withServiceName (some raw)) ops,
          tsPid p ≠ sdtPid) ∧
      ∀ (g : KeyframeGate) (parts : List (List UInt8)), g.filterSdt = false → g.locked = true →
        g.output (parts.map .push) ++ (run step g (parts.map .push)).buf =
          g.buf ++ parts.flatten := by
  refine ⟨(output_joined _ ops).symm, fun h => ?_,
    fun g parts hf hl => untitled_output hf hl parts⟩
  obtain ⟨O, hforward⟩ := (owns_withServiceName hname).ops h
  rw [List.nil_append] at O
  obtain ⟨programs, hnumbered, -⟩ := O.numbered
  refine ⟨⟨?_, programs, ?_⟩, hforward⟩
  · rw [output_packets, length_flatten_of_forall O.whole]
    exact Nat.dvd_mul_left ..
  · rw [output_packets, blocks_flatten tsPacketLen_pos O.whole]
    exact hnumbered

/-! ### A PMT that names the PID of the service table -/

/-- A packet that begins with these bytes. -/
def padded (head : List UInt8) : List UInt8 :=
  head ++ List.replicate (tsPacketLen - head.length) 0xff

theorem length_padded {head : List UInt8} (h : head.length ≤ tsPacketLen) :
    (padded head).length = tsPacketLen := by
  rw [padded, List.length_append, List.length_replicate]
  omega

/-- Program 1 has its PMT on PID `0x100`. -/
def patPacket : List UInt8 :=
  padded [0x47, 0x40, 0x00, 0x10, 0x00, 0x00, 0xb0, 0x0d, 0x00, 0x01, 0xc1, 0x00, 0x00, 0x00, 0x01,
    0xe1, 0x00, 0xe8, 0xf9, 0x5e, 0x7d]

/-- An H.264 stream on PID `0x101`. -/
def pmtPacket : List UInt8 :=
  padded [0x47, 0x41, 0x00, 0x10, 0x00, 0x02, 0xb0, 0x12, 0x00, 0x01, 0xc1, 0x00, 0x00, 0xe1, 0x01,
    0xf0, 0x00, 0x1b, 0xe1, 0x01, 0xf0, 0x00, 0x4f, 0xc4, 0x3d, 0x1b]

/-- An H.264 stream on PID `0x11`. -/
def servicePmtPacket : List UInt8 :=
  padded [0x47, 0x41, 0x00, 0x10, 0x00, 0x02, 0xb0, 0x12, 0x00, 0x01, 0xc1, 0x00, 0x00, 0xe0, 0x11,
    0xf0, 0x00, 0x1b, 0xe0, 0x11, 0xf0, 0x00, 0xd1, 0xfb, 0x62, 0x71]

/-- A video packet with the random access indicator. -/
def keyPacket : List UInt8 := padded [0x47, 0x41, 0x01, 0x30, 0x01, 0x40]

/-- An upstream packet on the PID of the service table. -/
def upstreamSdt : List UInt8 := padded [0x47, 0x40, 0x11, 0x15, 0x00]

def nullPacket : List UInt8 := padded [0x47, 0x1f, 0xff, 0x10]

/-- Two locks with a rearm in between, cut inside packets. -/
def titledOps : List Op :=
  let bytes := patPacket ++ pmtPacket ++ upstreamSdt ++ keyPacket ++ upstreamSdt ++ nullPacket
  [.push (bytes.take 100), .push (bytes.drop 100), .rearmForDiscontinuity, .push keyPacket, .reset,
    .push (bytes.take 800)]

theorem titled_gate_owns_service_table_sample :
    sanitizeServiceName ['T'] = some ['T'] ∧
      ∃ programs : List Nat,
        (blocks tsPacketLen ((withServiceName (some ['T'])).output titledOps)).filter
            (fun p => tsPid p = sdtPid) =
          programs.mapIdx fun k program =>
            withCounter (buildSdt program ['T']) (.ofNat (k % 16)) :=
  ⟨by decide +kernel, ((titled_gate_owns_service_table ['T'] (by decide +kernel) titledOps).2.1
    (by decide +kernel)).1.2⟩

/-- Packets that teach an unlocked gate nothing only use up its scan budget. -/
theorem scan_idle {g : KeyframeGate} {pkt : List UInt8} (hl : g.locked = false)
    (hf : g.filters pkt = false) (ho : g.access.observe pkt = (false, g.access)) {k : Nat}
    (hmax : g.maxScanPackets ≤ u64Max) (hk : g.scanned + k < g.maxScanPackets) :
    run packetStep g (List.replicate k pkt) = { g with scanned := g.scanned + k } ∧
      emits packetStep packetOut g (List.replicate k pkt) = [] := by
  induction k generalizing g with
  | zero => exact ⟨rfl, rfl⟩
  | succ k ih =>
    have hwrap : wrappingAdd g.scanned 1 = g.scanned + 1 := wrappingAdd_eq (by omega)
    have hgated := gated_withheld hl (by omega) pkt g.access
    rw [hwrap] at hgated
    have hpacket : g.packet pkt =
        (⟨[], none, true, none⟩, { g with scanned := g.scanned + 1 }) := by
      rw [KeyframeGate.packet, if_neg (by simp [hf]), ho, hgated]
    have hstep : g.packetStep pkt = { g with scanned := g.scanned + 1 } := by
      rw [packetStep, hpacket]
    obtain ⟨hrun, hout⟩ := @ih { g with scanned := g.scanned + 1 } hl hf ho hmax
      (by show g.scanned + 1 + k < g.maxScanPackets; omega)
    rw [List.replicate_succ, run_cons, emits_cons, hstep, hrun, hout, packetOut, hpacket]
    exact ⟨by simp only [Nat.add_assoc, Nat.add_comm 1 k], rfl⟩

/-- A gate with a title after a reset for a discontinuity and the two tables. -/
def learnedGate : KeyframeGate :=
  run packetStep (withServiceName (some ['T'])).resetForDiscontinuity [patPacket, servicePmtPacket]

/-- The stream names PID `0x11` as its video and has no access point within the scan budget. -/
def markedOps : List Op :=
  [.resetForDiscontinuity,
    .push ([patPacket, servicePmtPacket] ++ List.replicate 59998 nullPacket).flatten]

theorem output_markedOps :
    blocks tsPacketLen ((withServiceName (some ['T'])).output markedOps) =
      [discontinuityPacket sdtPid 0, nullPacket] := by
  have hlen : ∀ p ∈ [patPacket, servicePmtPacket] ++ List.replicate 59998 nullPacket,
      p.length = tsPacketLen := by
    intro p hp
    simp only [List.mem_append, List.mem_cons, List.not_mem_nil, or_false, List.mem_replicate] at hp
    rcases hp with (rfl | rfl) | ⟨-, rfl⟩
    · exact length_padded (by decide)
    · exact length_padded (by decide)
    · exact length_padded (by decide)
  have hfirst : emits packetStep packetOut (withServiceName (some ['T'])).resetForDiscontinuity
      [patPacket, servicePmtPacket] = [] := by decide +kernel
  have hidle := @scan_idle learnedGate nullPacket (by decide +kernel) (by decide +kernel)
    (by decide +kernel) 59997 (by decide +kernel) (by decide +kernel)
  have hlast : packetOut { learnedGate with scanned := learnedGate.scanned + 59997 } nullPacket =
      [discontinuityPacket sdtPid 0, nullPacket] := by decide +kernel
  have hsplit : List.replicate 59998 nullPacket =
      List.replicate 59997 nullPacket ++ [nullPacket] := List.replicate_succ'
  have hout : (emits packetStep packetOut (withServiceName (some ['T'])).resetForDiscontinuity
      ([patPacket, servicePmtPacket] ++ List.replicate 59998 nullPacket)) =
        [discontinuityPacket sdtPid 0, nullPacket] := by
    rw [hsplit, emits_append, emits_append, hfirst, ← learnedGate, hidle.1, hidle.2, emits_cons,
      emits_nil, hlast]
    rfl
  have hpush : (withServiceName (some ['T'])).output markedOps =
      [discontinuityPacket sdtPid 0, nullPacket].flatten := by
    rw [output_packets, ← hout]
    show ([] ++ (emits packetStep packetOut _ (blocks tsPacketLen ([] ++ _)) ++ [])).flatten = _
    rw [List.nil_append, List.nil_append, List.append_nil, blocks_flatten tsPacketLen_pos hlen]
    rfl
  rw [hpush, blocks_flatten tsPacketLen_pos fun p hp => ?_]
  rcases List.mem_pair.mp hp with rfl | rfl
  · exact length_discontinuityPacket ..
  · exact length_padded (by decide)

theorem scan_budget_marks_service_pid :
    sanitizeServiceName ['T'] = some ['T'] ∧
      discontinuityPacket sdtPid 0 ∈
        blocks tsPacketLen ((withServiceName (some ['T'])).output markedOps) ∧
      tsPid (discontinuityPacket sdtPid 0) = sdtPid ∧
      ∀ program counter, discontinuityPacket sdtPid 0 ≠ withCounter (buildSdt program ['T']) counter := by
  refine ⟨by decide +kernel, ?_, by decide +kernel, fun program counter heq => ?_⟩
  · rw [output_markedOps]
    exact List.mem_cons_self
  · have hbyte := congrArg (byteAt · 1) heq
    simp only [withCounter, byteAt_set_of_ne _ (show 3 ≠ 1 by decide)] at hbyte
    have hsdt : byteAt (buildSdt program ['T']) 1 = 0x40 := by
      simp only [byteAt, buildSdt, buildSdtWithTransport, List.cons_append, List.getD_cons_succ,
        List.getD_cons_zero]
      rfl
    rw [hsdt] at hbyte
    exact absurd hbyte (by decide +kernel)

end Outpace.Media.KeyframeGate

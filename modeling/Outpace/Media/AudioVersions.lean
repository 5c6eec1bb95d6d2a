import Outpace.Media.AudioRewrite

/-!
# Versions of the forwarded PMTs

A receiver takes notice of a new PMT by its version. A rewritten table gets a version of its own:
the source's plus one at first, and one more with every change. A table that is passed through has
the source's version, also where it is passed through because it is not understood. So two different
tables in a row can have one version where the selection goes from the one to the other, and only
there (`pmt_versions_differ_iff`).
-/

namespace Outpace.Media

/-- The table that packets carry: the bytes behind the pointer field, as many as its length says. -/
def tableOf (packets : List (List UInt8)) : List UInt8 :=
  let bytes := packets.flatMap fun packet => ((payload packet).map (packet.drop ·)).getD []
  let s := bytes.drop (1 + (byteAt bytes 0).toNat)
  s.take (3 + lengthAt s 1)

theorem byteAt_drop (l : List UInt8) (n i : Nat) : byteAt (l.drop n) i = byteAt l (n + i) := by
  simp only [byteAt, List.getD_eq_getElem?_getD, List.getElem?_drop]

theorem IsSection.tableOf_eq {packet s : List UInt8} {id : UInt8} {min : Nat}
    {program : Option Nat} {off : Nat} (h : IsSection packet id min program off s) :
    tableOf [packet] = s := by
  have hbytes : ([packet].flatMap fun packet =>
      ((payload packet).map (packet.drop ·)).getD []) = packet.drop off := by
    simp [h.offset]
  have hlength : lengthAt (packet.drop (off + 1)) 1 = lengthAt packet (off + 2) := by
    rw [lengthAt, lengthAt, byteAt_drop, byteAt_drop]
  have hzero : (0 : UInt8).toNat = 0 := rfl
  simp only [tableOf]
  rw [hbytes, byteAt_drop, Nat.add_zero, h.pointer, hzero, Nat.add_zero, List.drop_drop, hlength,
    h.bytes, List.drop_take]
  congr 1
  omega

/-- A section without its version and checksum. -/
def tableContent (s : List UInt8) : List UInt8 := clearVersion (s.take (s.length - 4))

theorem set_of_byteAt {s : List UInt8} {i : Nat} (hi : i < s.length) {b : UInt8}
    (h : byteAt s i = b) : s.set i b = s := by
  rw [← h, byteAt, List.getD_eq_getElem?_getD, List.getElem?_eq_getElem hi, Option.getD_some,
    List.set_getElem_self]

namespace ReadPmt

variable {packet s : List UInt8} {program : Option Nat} {p : ParsedPmt} {v : UInt8}

theorem sectionVersion_rewritten (h : ReadPmt packet program s p) (hv : v.toNat < 32) :
    sectionVersion (versioned p.effective v) = v := by
  rw [sectionVersion, h.byteAt_versioned (by omega), if_pos rfl, withVersion_shiftRight hv]

theorem tableContent_rewritten (h : ReadPmt packet program s p) (hv : v.toNat < 32) :
    tableContent (versioned p.effective v) = p.effective := by
  have hhead := h.length_head
  have hsix : 6 ≤ p.head.length := by omega
  have htake : (versioned p.effective v).take ((versioned p.effective v).length - 4) =
      p.effective.set 5 (byteAt p.effective 5 ||| v <<< 1) := by
    rw [versioned, List.length_append, length_be32, Nat.add_sub_cancel, List.take_left]
  rw [tableContent, htake, ParsedPmt.set_version hsix, ParsedPmt.effective_eq hsix, clearVersion,
    List.set_append_left _ _ (by rw [ParsedPmt.length_rewriteHead]; omega),
    byteAt_of_prefix (by rw [ParsedPmt.length_rewriteHead]; omega),
    ParsedPmt.byteAt_rewriteHead hsix, if_pos rfl, withVersion_and hv]
  congr 1
  rw [rewriteHead, rewriteHead, List.set_set, withVersion]
  exact congrArg _ UInt8.or_zero.symm

/-- Without a selection the table stays as it is. -/
theorem effective_of_none (h : ReadPmt packet program s p) (hsel : selectedPid p.entries = none) :
    p.effective = tableContent s := by
  obtain ⟨off, hs⟩ := h.accepted
  have hhead := h.length_head
  have hsize := h.length_section
  obtain ⟨hhigh, hlow, -⟩ := hs.high_eq h.length
  have hlength := hs.length_eq
  obtain ⟨hkept, -⟩ := keptEntries_of_none hsel
  have hlen : p.keptLength = s.length - 3 := by
    have hbytes := congrArg List.length h.parsed.bytes
    rw [List.length_take, List.length_append] at hbytes
    rw [ParsedPmt.keptLength, hkept]
    omega
  have hbyte {i : Nat} (hi : i < 12) : byteAt p.head i = byteAt packet (off + 1 + i) := by
    rw [h.parsed.head, byteAt_take_of_lt (by omega), hs.byteAt_eq (by omega)]
  have h₁ : p.head.set 1 (0xb0 ||| (.ofNat (p.keptLength / 256) &&& (15 : UInt8))) = p.head := by
    refine set_of_byteAt (by omega) ?_
    rw [hbyte (by omega), show p.keptLength / 256 = 0 by omega]
    exact hhigh
  have h₂ : p.head.set 2 (.ofNat p.keptLength) = p.head := by
    refine set_of_byteAt (by omega) ?_
    rw [hbyte (by omega), show off + 1 + 2 = off + 3 by omega, show p.keptLength =
      (byteAt packet (off + 3)).toNat by omega, UInt8.ofNat_toNat]
  rw [ParsedPmt.effective_eq (by omega), rewriteHead, h₁, h₂, hkept, tableContent, h.parsed.bytes,
    clearVersion, List.set_append_left _ _ (by omega), byteAt_of_prefix (by omega), withVersion]
  congr 2
  exact UInt8.or_zero

end ReadPmt

namespace LiveAudioSelection

variable {a : LiveAudioSelection} {packet s : List UInt8} {p : ParsedPmt}

/-! ### Forwarded tables -/

/-- A packet on the PID of the PMT, with what is forwarded for it. -/
def pmtPackets (a : LiveAudioSelection) (packet : List UInt8) : List (List UInt8 × List UInt8) :=
  if tsPid packet ≠ 0 ∧ a.onPmt packet = true then
    (a.observe packet).1.packet.toList.map (packet, ·)
  else []

/-- The table of the source in packets that are forwarded. -/
def sourceTable (a : LiveAudioSelection) (packets : List (List UInt8)) : List UInt8 :=
  tableOf ((emits step pmtPackets a packets).map (·.1))

/-- The table as it is forwarded. -/
def forwardedTable (a : LiveAudioSelection) (packets : List (List UInt8)) : List UInt8 :=
  tableOf ((emits step pmtPackets a packets).map (·.2))

/-- A packet with a PMT that is understood. -/
structure Reads (a : LiveAudioSelection) (packet s : List UInt8) (p : ParsedPmt) : Prop where
  length : packet.length = tsPacketLen
  pid : tsPid packet ≠ 0
  onPmt : a.onPmt packet = true
  accepted : psiSection packet 2 13 (a.mapping.map (·.1)) = .ok s
  parsed : parsePmt s (a.mapping.map (·.1)) = .ok p

/-- A packet that keeps the program and has no PMT that is understood. -/
def Unread (a : LiveAudioSelection) (packet : List UInt8) : Prop :=
  (a.observe packet).2.mapping = a.mapping ∧
    (tsPid packet ≠ 0 → a.onPmt packet = true → ∀ s p,
      psiSection packet 2 13 (a.mapping.map (·.1)) = .ok s →
      parsePmt s (a.mapping.map (·.1)) ≠ .ok p)

/-- Packets with a PMT that is forwarded, and what is read of it where it has an ADTS stream. One
that is not understood can take several packets, with others in between. -/
inductive Pmt (a : LiveAudioSelection) : (packets : List (List UInt8)) → Option ParsedPmt → Prop
  | selecting {packet s : List UInt8} {p : ParsedPmt} : Reads a packet s p →
    selectedPid p.entries ≠ none → Pmt a [packet] (some p)
  | plain {packet s : List UInt8} {p : ParsedPmt} : Reads a packet s p →
    selectedPid p.entries = none → Pmt a [packet] none
  | strange {packets : List (List UInt8)} : Meets step Unread a packets →
    emits step pmtPackets a packets ≠ [] → Pmt a packets none

/-- The selection after a forwarded table. -/
inductive Forwarded (a : LiveAudioSelection) (s c : List UInt8) (a' : LiveAudioSelection) :
    Option ParsedPmt → Prop
  | rewritten {p : ParsedPmt} : tableContent c = p.effective →
    sectionVersion c = a.nextVersion p.effective (sectionVersion s) (removedPids p.entries) →
    a'.effective = some (tableContent c) → a'.version = sectionVersion c →
    Forwarded a s c a' (some p)
  | passed : c = s → a'.effective = some (tableContent c) → a'.version = sectionVersion c →
    Forwarded a s c a' none
  | strange : c = s → a'.effective = none → Forwarded a s c a' none

theorem noteScrambling_of_section {id : UInt8} {min : Nat} {program : Option Nat}
    (h : psiSection packet id min program = .ok s) : a.noteScrambling packet = a := by
  obtain ⟨off, h⟩ := psiSection_eq_ok.mp h
  exact if_neg (not_not.mpr h.header.2.2)

theorem nextVersion_lt (hv : a.version.toNat < 32) (effective : List UInt8) (upstream : UInt8)
    (removed : List Nat) : (a.nextVersion effective upstream removed).toNat < 32 := by
  have hand (x : UInt8) : (x &&& 31).toNat < 32 := by
    rw [UInt8.toNat_and]
    exact Nat.lt_succ_of_le Nat.and_le_right
  unfold nextVersion
  split
  · exact hv
  · split <;> exact hand _

theorem sectionVersion_lt (s : List UInt8) : (sectionVersion s).toNat < 32 := by
  rw [sectionVersion, UInt8.toNat_and]
  exact Nat.lt_succ_of_le Nat.and_le_right

theorem takePmt_version_lt (hv : a.version.toNat < 32) (packet s : List UInt8) (p : ParsedPmt) :
    (a.takePmt packet s p).2.version.toNat < 32 := by
  show (if _ then _ else _ : UInt8).toNat < 32
  split
  · exact nextVersion_lt hv ..
  · exact sectionVersion_lt s

theorem takePmt_rewrites (a : LiveAudioSelection) (packet s : List UInt8) {p : ParsedPmt}
    (hsel : selectedPid p.entries ≠ none) :
    let a' := (a.takePmt packet s p).2
    a'.version = a.nextVersion p.effective (sectionVersion s) (removedPids p.entries) ∧
      a'.pmt = some (sectionPacket packet (versioned p.effective a'.version)) := by
  obtain ⟨pid, hpid⟩ := Option.ne_none_iff_exists'.mp hsel
  simp only [takePmt, hpid, Option.isSome_some, if_true, and_self]

theorem takePmt_passes (a : LiveAudioSelection) (packet s : List UInt8) {p : ParsedPmt}
    (hsel : selectedPid p.entries = none) :
    let a' := (a.takePmt packet s p).2
    a'.version = sectionVersion s ∧ a'.pmt = some packet := by
  simp [takePmt, hsel]

namespace Reads

theorem read (R : Reads a packet s p) : ReadPmt packet (a.mapping.map (·.1)) s p :=
  ⟨R.length, psiSection_eq_ok.mp R.accepted, parsePmt_eq_ok.mp R.parsed⟩

theorem observe (R : Reads a packet s p) :
    a.observe packet = LiveAudioSelection.passed ((a.takePmt packet s p).2.pmt.getD packet)
      (a.takePmt packet s p) := by
  have hok : a.updatePmt packet = .ok (a.takePmt packet s p) :=
    bind_eq_ok.mpr ⟨s, R.accepted, bind_eq_ok.mpr ⟨p, R.parsed, rfl⟩⟩
  rw [LiveAudioSelection.observe, noteScrambling_of_section R.accepted, if_neg R.pid,
    if_pos R.onPmt, observePmt, hok]

/-- The table that comes in, and the packet that goes out. -/
theorem tables (R : Reads a packet s p) : sourceTable a [packet] = s ∧
    forwardedTable a [packet] = tableOf [(a.takePmt packet s p).2.pmt.getD packet] := by
  have hpair : emits step pmtPackets a [packet] =
      [(packet, (a.takePmt packet s p).2.pmt.getD packet)] := by
    rw [emits_cons, pmtPackets, if_pos ⟨R.pid, R.onPmt⟩, R.observe]
    rfl
  obtain ⟨off, hs⟩ := R.read.accepted
  rw [sourceTable, forwardedTable, hpair]
  exact ⟨hs.tableOf_eq, rfl⟩

theorem rewritten (R : Reads a packet s p) (hsel : selectedPid p.entries ≠ none)
    (hv : a.version.toNat < 32) :
    Forwarded a (sourceTable a [packet]) (forwardedTable a [packet]) (a.observe packet).2
      (some p) := by
  have hlt := takePmt_version_lt hv packet s p
  obtain ⟨hversion, hpacket⟩ := a.takePmt_rewrites packet s hsel
  obtain ⟨hs, hc⟩ := R.tables
  have hcontent := R.read.tableContent_rewritten hlt
  have hsection := R.read.sectionVersion_rewritten hlt
  rw [hpacket, Option.getD_some, (R.read.isSection_rewritten hlt).tableOf_eq] at hc
  rw [hs, hc, R.observe]
  exact .rewritten hcontent (hsection.trans hversion) (congrArg some hcontent.symm) hsection.symm

theorem passed (R : Reads a packet s p) (hsel : selectedPid p.entries = none) :
    Forwarded a (sourceTable a [packet]) (forwardedTable a [packet]) (a.observe packet).2 none := by
  obtain ⟨hversion, hpacket⟩ := a.takePmt_passes packet s hsel
  obtain ⟨hs, hc⟩ := R.tables
  obtain ⟨off, hsection⟩ := R.read.accepted
  rw [hpacket, Option.getD_some, hsection.tableOf_eq] at hc
  rw [hs, hc, R.observe]
  exact .passed rfl (congrArg some (R.read.effective_of_none hsel)) hversion

end Reads

/-! ### Packets without a table that is understood -/

theorem noteScrambling_eq (a : LiveAudioSelection) (packet : List UInt8) :
    (a.noteScrambling packet).mapping = a.mapping ∧
      (a.noteScrambling packet).effective = a.effective ∧
      (a.noteScrambling packet).version = a.version := by
  unfold noteScrambling
  split <;> exact ⟨rfl, rfl, rfl⟩

/-- What is known of the last table, if it was not given up. -/
def Remembers (a a' : LiveAudioSelection) : Prop :=
  a'.mapping = a.mapping ∧ a'.version = a.version ∧
    (a'.effective = a.effective ∨ a'.effective = none)

theorem remap_remembers (a : LiveAudioSelection) (program : Nat × Nat) (transportStreamId : Nat) :
    (a.remap program transportStreamId).2.version = a.version ∧
      ((a.remap program transportStreamId).2.effective = a.effective ∨
        (a.remap program transportStreamId).2.effective = none) := by
  unfold remap
  split
  · exact ⟨rfl, .inr rfl⟩
  · exact ⟨rfl, .inl rfl⟩

/-- What is not understood is forwarded as it is, and makes the selection forget its table. -/
structure Passing (a a' : LiveAudioSelection) (log : List (List UInt8 × List UInt8)) : Prop where
  remembers : Remembers a a'
  same : ∀ e ∈ log, e.1 = e.2
  forgets : log ≠ [] → a'.effective = none

theorem Unread.passing (h : Unread a packet) :
    Passing a (a.observe packet).2 (a.pmtPackets packet) := by
  obtain ⟨hmapping, hread⟩ := h
  obtain ⟨hm, heff, hver⟩ := a.noteScrambling_eq packet
  have hpmt := (a.noteScrambling_fields packet).2.2
  have O := a.observe_observes packet
  have hremembers (h : (a.observe packet).2.version = (a.noteScrambling packet).version ∧
      ((a.observe packet).2.effective = (a.noteScrambling packet).effective ∨
        (a.observe packet).2.effective = none)) : Remembers a (a.observe packet).2 :=
    ⟨hmapping, by rwa [heff, hver] at h⟩
  unfold pmtPackets
  rw [← hm, ← hpmt] at hread
  rw [← hpmt]
  generalize a.noteScrambling packet = a₀ at *
  generalize a.observe packet = r at *
  have hquiet (h : ¬(tsPid packet ≠ 0 ∧ a₀.onPmt packet = true)) (hr : Remembers a r.2) :
      Passing a r.2 (if tsPid packet ≠ 0 ∧ a₀.onPmt packet = true then
        r.1.packet.toList.map (packet, ·) else []) := by
    rw [if_neg h]
    exact ⟨hr, fun e he => (by cases he), fun h => absurd rfl h⟩
  cases O with
  | program hpid => exact hquiet (fun h => h.1 hpid) (hremembers (remap_remembers ..))
  | forget hpid => exact hquiet (fun h => h.1 hpid) (hremembers ⟨rfl, .inr rfl⟩)
  | early hpid => exact hquiet (fun h => h.1 hpid) (hremembers ⟨rfl, .inl rfl⟩)
  | pmt hpid hon hs hp => exact absurd hp (hread hpid hon _ _ hs)
  | strange hpid hon =>
    refine ⟨hremembers ⟨rfl, .inr rfl⟩, fun e he => ?_, fun _ => rfl⟩
    rw [if_pos ⟨hpid, hon⟩] at he
    rw [List.mem_singleton.mp he]
  | kept _ hon | other _ hon =>
    exact hquiet (fun h => absurd h.2 (by rw [hon]; decide)) (hremembers ⟨rfl, .inl rfl⟩)
  | dropped =>
    refine ⟨hremembers ⟨rfl, .inl rfl⟩, fun e he => ?_, fun h => absurd (ite_self _) h⟩
    split at he <;> cases he

theorem Remembers.trans {a' a'' : LiveAudioSelection} (h : Remembers a a') (h' : Remembers a' a'') :
    Remembers a a'' := by
  refine ⟨h'.1.trans h.1, h'.2.1.trans h.2.1, ?_⟩
  rcases h'.2.2 with heq | hnone
  · rw [heq]
    exact h.2.2
  · exact .inr hnone

theorem Passing.step {a' : LiveAudioSelection} {log : List (List UInt8 × List UInt8)}
    (H : Passing a a' log) (h : Unread a' packet) :
    Passing a (a'.observe packet).2 (log ++ a'.pmtPackets packet) := by
  have H' := h.passing
  refine ⟨H.remembers.trans H'.remembers, List.forall_mem_append.mpr ⟨H.same, H'.same⟩,
    fun hne => ?_⟩
  by_cases hout : a'.pmtPackets packet = []
  · rw [hout, List.append_nil] at hne
    rcases H'.remembers.2.2 with heq | hnone
    · exact heq.trans (H.forgets hne)
    · exact hnone
  · exact H'.forgets hout

theorem passing_run {packets : List (List UInt8)} (h : Meets step Unread a packets) :
    Passing a (run step a packets) (emits step pmtPackets a packets) := by
  have hstart : Passing a a [] :=
    ⟨⟨rfl, rfl, .inl rfl⟩, fun _ he => (by cases he), fun h => absurd rfl h⟩
  have H := run_emits_induction (fun _ _ _ H h => H.step h) hstart h
  rw [List.nil_append] at H
  exact H

theorem version_lt_observe (hv : a.version.toNat < 32) (packet : List UInt8) :
    (a.observe packet).2.version.toNat < 32 := by
  rw [← (a.noteScrambling_eq packet).2.2] at hv
  have O := a.observe_observes packet
  generalize a.noteScrambling packet = a₀ at *
  generalize a.observe packet = r at *
  cases O with
  | @program s program =>
    show (a₀.remap program (word s 3)).2.version.toNat < 32
    rwa [(remap_remembers ..).1]
  | pmt => exact takePmt_version_lt hv ..
  | forget | strange | early | kept | other | dropped => exact hv

theorem version_lt_after (packets : List (List UInt8)) : (after packets).version.toNat < 32 :=
  run_invariant (I := fun a : LiveAudioSelection => a.version.toNat < 32)
    (fun _ packet hv => version_lt_observe hv packet) (by decide) packets

theorem Pmt.forwarded {packets : List (List UInt8)} {read : Option ParsedPmt}
    (h : Pmt a packets read) (hv : a.version.toNat < 32) :
    Forwarded a (sourceTable a packets) (forwardedTable a packets) (run step a packets) read := by
  cases h with
  | selecting R hsel => exact R.rewritten hsel hv
  | plain R hsel => exact R.passed hsel
  | strange hunread hsome =>
    have H := passing_run hunread
    refine .strange ?_ (H.forgets hsome)
    rw [forwardedTable, sourceTable, List.map_congr_left fun e he => (H.same e he).symm]

/-! ### Two tables in a row -/

/-- A packet that keeps the program and forwards nothing on the PID of the PMT. -/
def Quiet (a : LiveAudioSelection) (packet : List UInt8) : Prop :=
  Unread a packet ∧ a.pmtPackets packet = []

/-- The second of two tables has the version of the first and other content. Either it is passed
through after a rewritten one, with the version that this one was given, or it is rewritten after
the selection forgot its table, and its version starts from the source's anew. -/
def Clash (first : Option ParsedPmt) (a : LiveAudioSelection) (c₁ s₂ : List UInt8) :
    (second : Option ParsedPmt) → Prop
  | none => first.isSome = true ∧ tableContent c₁ ≠ tableContent s₂ ∧
    sectionVersion c₁ = sectionVersion s₂
  | some p => a.effective = none ∧ tableContent c₁ ≠ p.effective ∧ sectionVersion c₁ =
    (sectionVersion s₂ + if (removedPids p.entries).isEmpty then 0 else 1) &&& 31

theorem succ_version_ne : ∀ v : UInt8, v.toNat < 32 → (v + 1) &&& 31 ≠ v :=
  forall_byte (by decide +kernel)

theorem versions_differ_iff {a₁ a₂ a₃ : LiveAudioSelection} {s₁ c₁ s₂ c₂ : List UInt8}
    {read₁ read₂ : Option ParsedPmt} (h₁ : Forwarded a s₁ c₁ a₁ read₁) (hr : Remembers a₁ a₂)
    (h₂ : Forwarded a₂ s₂ c₂ a₃ read₂)
    (hsource : tableContent s₁ ≠ tableContent s₂ → sectionVersion s₁ ≠ sectionVersion s₂) :
    (tableContent c₁ ≠ tableContent c₂ → sectionVersion c₁ ≠ sectionVersion c₂) ↔
      ¬Clash read₁ a₂ c₁ s₂ read₂ := by
  cases h₂ with
  | passed heq | strange heq =>
    subst heq
    cases h₁ with
    | rewritten => simp [Clash]
    | passed heq₁ | strange heq₁ =>
      subst heq₁
      simpa [Clash] using hsource
  | @rewritten p hcontent hnext =>
    rw [hcontent]
    cases heff : a₂.effective with
    | none =>
      rw [hnext, nextVersion, heff]
      simp [Clash, heff]
    | some effective =>
      -- the last table is known, and its version is the base of the next
      have hlast : a₂.effective = some (tableContent c₁) ∧ a₂.version = sectionVersion c₁ := by
        have hkept : a₂.effective = a₁.effective := by
          rcases hr.2.2 with h | h
          · exact h
          · rw [heff] at h
            cases h
        rw [hkept, hr.2.1]
        cases h₁ with
        | rewritten _ _ heff₁ hver₁ => exact ⟨heff₁, hver₁⟩
        | passed _ heff₁ hver₁ => exact ⟨heff₁, hver₁⟩
        | strange _ hnone => rw [hkept, hnone] at heff; cases heff
      refine iff_of_true (fun hne => ?_) (by simp [Clash, heff])
      rw [hnext, nextVersion, hlast.1, if_neg (fun h => hne (Option.some.inj h)), hlast.2]
      exact (succ_version_ne _ (sectionVersion_lt c₁)).symm

/-- Two PMTs in a row that are forwarded for one program, with nothing forwarded in between: if the
source gives different tables different versions, the forwarded tables have different versions if
they differ, unless their versions clash. -/
theorem pmt_versions_differ_iff (packets first between second : List (List UInt8))
    (read₁ read₂ : Option ParsedPmt) (h₁ : Pmt (after packets) first read₁)
    (hquiet : Meets step Quiet (after (packets ++ first)) between)
    (h₂ : Pmt (after (packets ++ first ++ between)) second read₂) :
    let s₁ := sourceTable (after packets) first
    let c₁ := forwardedTable (after packets) first
    let s₂ := sourceTable (after (packets ++ first ++ between)) second
    let c₂ := forwardedTable (after (packets ++ first ++ between)) second
    (tableContent s₁ ≠ tableContent s₂ → sectionVersion s₁ ≠ sectionVersion s₂) →
    ((tableContent c₁ ≠ tableContent c₂ → sectionVersion c₁ ≠ sectionVersion c₂) ↔
      ¬Clash read₁ (after (packets ++ first ++ between)) c₁ s₂ read₂) := by
  intro s₁ c₁ s₂ c₂ hsource
  have F₁ := h₁.forwarded (version_lt_after packets)
  have F₂ := h₂.forwarded (version_lt_after _)
  have hfirst : after (packets ++ first) = run step (after packets) first := run_append
  have hbetween : after (packets ++ first ++ between) =
    run step (after (packets ++ first)) between := run_append
  rw [← hfirst] at F₁
  have hr := (passing_run (hquiet.mono fun _ _ h => h.1)).remembers
  rw [← hbetween] at hr
  exact versions_differ_iff F₁ hr F₂ hsource

/-- What is read of a table with further streams behind the video. -/
def sampleRead (version : UInt8) (entries : List StreamEntry) : ParsedPmt :=
  ⟨(setLength (samplePmtBody version (entries.flatMap (·.bytes)))).take 12,
    ⟨[0x1b, 0xe1, 1, 0xf0, 0], 257, none⟩ :: entries, false⟩

def sampleEntries : List StreamEntry :=
  [⟨sampleAac, 258, some .adtsAac⟩, ⟨sampleMpeg, 259, some .mpegAudio⟩]

/-- The first table is rewritten without its MPEG audio. -/
theorem reads_samplePmt : Reads (after [samplePat]) samplePmt
    (tableSection (samplePmtBody 0 (sampleAac ++ sampleMpeg))) (sampleRead 0 sampleEntries) :=
  ⟨by decide +kernel, by decide +kernel, by decide +kernel, by decide +kernel, by decide +kernel⟩

/-- A second table without ADTS audio is passed through. -/
theorem reads_mpeg (version : UInt8) (hv : version = 1 ∨ version = 2) :
    Reads (after ([samplePat] ++ [samplePmt] ++ []))
      (tablePacket 256 (samplePmtBody version sampleMpeg))
      (tableSection (samplePmtBody version sampleMpeg))
      (sampleRead version [⟨sampleMpeg, 259, some .mpegAudio⟩]) := by
  rcases hv with rfl | rfl
  all_goals
    exact ⟨by decide +kernel, by decide +kernel, by decide +kernel, by decide +kernel,
      by decide +kernel⟩

theorem pmt_versions_differ_sample :
    sectionVersion (forwardedTable (after [samplePat]) [samplePmt]) ≠
      sectionVersion (forwardedTable (after ([samplePat] ++ [samplePmt] ++ []))
        [tablePacket 256 (samplePmtBody 2 sampleMpeg)]) :=
  (pmt_versions_differ_iff [samplePat] [samplePmt] [] _ _ none
    (.selecting reads_samplePmt (by decide +kernel)) trivial
    (.plain (reads_mpeg 2 (.inr rfl)) (by decide +kernel)) (fun _ => by decide +kernel)).mpr
    (by unfold Clash; decide +kernel) (by decide +kernel)

/-- The source's version 1 is that of the table without ADTS audio and of the rewritten table before
it, which was made of the source's version 0. -/
theorem pmt_versions_clash :
    let a := after ([samplePat] ++ [samplePmt] ++ [])
    let second := [tablePacket 256 (samplePmtBody 1 sampleMpeg)]
    Pmt (after [samplePat]) [samplePmt] (some (sampleRead 0 sampleEntries)) ∧ Pmt a second none ∧
    sectionVersion (sourceTable (after [samplePat]) [samplePmt]) ≠
      sectionVersion (sourceTable a second) ∧
    tableContent (forwardedTable (after [samplePat]) [samplePmt]) ≠
      tableContent (forwardedTable a second) ∧
    sectionVersion (forwardedTable (after [samplePat]) [samplePmt]) =
      sectionVersion (forwardedTable a second) :=
  ⟨.selecting reads_samplePmt (by decide +kernel),
    .plain (reads_mpeg 1 (.inl rfl)) (by decide +kernel), by decide +kernel⟩

/-! ### Selecting again -/

theorem removedPids_kept (entries : List StreamEntry) : removedPids (keptEntries entries) = [] := by
  rw [removedPids, selectedPid_kept]
  refine List.map_eq_nil_iff.mpr (List.filter_eq_nil_iff.mpr fun e he hremoved => ?_)
  obtain ⟨hmem, hkept⟩ := List.mem_filter.mp he
  have : e.pid ∈ removedPids entries := List.mem_map_of_mem (List.mem_filter.mpr ⟨hmem, hremoved⟩)
  simp [this] at hkept

/-- A PMT with an ADTS stream is forwarded as a PMT of the program, with its clock and the streams
that stay. A selection finds the same stream in it, and nothing to remove. -/
theorem rewritten_pmt_is_settled (packets : List (List UInt8)) (packet s : List UInt8)
    (p : ParsedPmt) (R : Reads (after packets) packet s p) (hsel : selectedPid p.entries ≠ none) :
    let program := (after packets).mapping.map (·.1)
    ∃ out c p', ((after packets).observe packet).1.packet = some out ∧
      psiSection out 2 13 program = .ok c ∧ parsePmt c program = .ok p' ∧ pidAt c 8 = pidAt s 8 ∧
      p'.entries = keptEntries p.entries ∧ selectedPid p'.entries = selectedPid p.entries ∧
      removedPids p'.entries = [] := by
  intro program
  have hlt := takePmt_version_lt (version_lt_after packets) packet s p
  obtain ⟨-, hpacket⟩ := (after packets).takePmt_rewrites packet s hsel
  obtain ⟨conflicting, hof⟩ := R.read.parsed_rewritten
  refine ⟨_, _, _, ?_, psiSection_eq_ok.mpr ⟨4, R.read.isSection_rewritten hlt⟩,
    parsePmt_eq_ok.mpr hof, ?_, rfl, selectedPid_kept _, removedPids_kept _⟩
  · rw [R.observe, hpacket]
    rfl
  · rw [pidAt, R.read.byteAt_versioned (by omega), R.read.byteAt_versioned (by omega)]
    rfl

theorem rewritten_pmt_is_settled_sample :
    ∃ out c p', ((after [samplePat]).observe samplePmt).1.packet = some out ∧
      psiSection out 2 13 ((after [samplePat]).mapping.map (·.1)) = .ok c ∧
      parsePmt c ((after [samplePat]).mapping.map (·.1)) = .ok p' ∧
      removedPids p'.entries = [] := by
  obtain ⟨out, c, p', hout, hc, hp', -, -, -, h⟩ := rewritten_pmt_is_settled [samplePat] samplePmt
    _ _ reads_samplePmt (by decide +kernel)
  exact ⟨out, c, p', hout, hc, hp', h⟩

end LiveAudioSelection

end Outpace.Media

import Outpace.Media.Audio

/-!
# Clock packets of a removed stream

A removed audio stream may carry the program clock. Its packets with a PCR or a discontinuity are
then kept without their payload. The adaptation field is stretched over the whole packet, and with
it what the flags of the field announce: the timing of the packet is kept unless its field is too
short for the PCR that it announces.
-/

namespace Outpace.Media
open LiveAudioSelection

/-! ### The stripped packet -/

theorem byteAt_take {pkt : List UInt8} {n i : Nat} (h : i < n) (tail : List UInt8)
    (hn : n ≤ pkt.length) : byteAt (pkt.take n ++ tail) i = byteAt pkt i := by
  unfold byteAt
  rw [List.getD_eq_getElem?_getD, List.getD_eq_getElem?_getD,
    List.getElem?_append_left (by rw [List.length_take]; omega), List.getElem?_take_of_lt h]

section
variable {packet : List UInt8}

theorem byteAt_stripPayload {i : Nat} (hlen : 5 + (byteAt packet 4).toNat ≤ packet.length)
    (hi : i < 5 + (byteAt packet 4).toNat) :
    byteAt (stripPayload packet) i =
      if 4 = i then 183 else if 3 = i then 0x20 else if 1 = i then byteAt packet 1 &&& 0xbf
      else byteAt packet i := by
  unfold stripPayload
  simp only
  rw [byteAt_take hi _ (by simpa using hlen), byteAt_set (by simp; omega),
    byteAt_set (by simp; omega), byteAt_set (by omega)]

theorem and_bf_and_1f (x : UInt8) : (x &&& 0xbf) &&& 0x1F = x &&& 0x1F := by
  rw [UInt8.and_assoc]
  rfl

theorem and_bf_and_40 (x : UInt8) : (x &&& 0xbf) &&& 0x40 = 0 := by
  rw [UInt8.and_assoc]
  exact UInt8.and_zero

theorem tsPid_stripPayload (hlen : 5 + (byteAt packet 4).toNat ≤ packet.length) :
    tsPid (stripPayload packet) = tsPid packet := by
  rw [tsPid, tsPid, byteAt_stripPayload hlen (by omega), byteAt_stripPayload hlen (by omega)]
  show ((byteAt packet 1 &&& 0xbf) &&& 0x1F).toNat * 256 + _ = _
  rw [and_bf_and_1f]
  rfl

theorem payload_stripPayload (hlen : 5 + (byteAt packet 4).toNat ≤ packet.length) :
    payload (stripPayload packet) = none := by
  have h₃ : byteAt (stripPayload packet) 3 = 0x20 := byteAt_stripPayload hlen (by omega)
  rw [payload, h₃, if_neg (by decide), if_neg (by decide)]

theorem tsPusi_stripPayload (hlen : 5 + (byteAt packet 4).toNat ≤ packet.length) :
    tsPusi (stripPayload packet) = false := by
  rw [tsPusi, byteAt_stripPayload hlen (by omega)]
  show ((byteAt packet 1 &&& 0xbf) &&& 0x40 != 0) = false
  rw [and_bf_and_40]
  rfl

theorem pcrBase_stripPayload (hlen : 5 + (byteAt packet 4).toNat ≤ packet.length)
    (h : 7 ≤ (byteAt packet 4).toNat) : pcrBase (stripPayload packet) = pcrBase packet := by
  unfold pcrBase
  rw [byteAt_stripPayload hlen (by omega), byteAt_stripPayload hlen (by omega),
    byteAt_stripPayload hlen (by omega), byteAt_stripPayload hlen (by omega),
    byteAt_stripPayload hlen (by omega)]
  rfl

/-- A field that announces a PCR and has no room for it. -/
def ShortPcr (packet : List UInt8) : Prop :=
  byteAt packet 5 &&& 0x10 ≠ 0 ∧ (byteAt packet 4).toNat < 7

instance : Decidable (ShortPcr packet) := inferInstanceAs (Decidable (_ ∧ _))

theorem tsTiming_stripPayload (hlen : 5 + (byteAt packet 4).toNat ≤ packet.length)
    (hsync : byteAt packet 0 = 0x47) (hpos : 0 < (byteAt packet 4).toNat) :
    tsTiming (stripPayload packet) =
      { pid := tsPid packet
        pcr := if byteAt packet 5 &&& 0x10 ≠ 0 then some (pcrBase (stripPayload packet)) else none
        discontinuity := byteAt packet 5 &&& 0x80 != 0 } := by
  have h₀ : byteAt (stripPayload packet) 0 = 0x47 :=
    (byteAt_stripPayload hlen (by omega)).trans hsync
  have h₃ : byteAt (stripPayload packet) 3 = 0x20 := byteAt_stripPayload hlen (by omega)
  have h₄ : byteAt (stripPayload packet) 4 = 183 := byteAt_stripPayload hlen (by omega)
  have h₅ : byteAt (stripPayload packet) 5 = byteAt packet 5 := byteAt_stripPayload hlen (by omega)
  rw [tsTiming, h₀, h₃, h₄, h₅, tsPid_stripPayload hlen, if_neg (by decide)]
  simp only
  rw [if_neg (by decide), show (183 : UInt8).toNat = 183 from rfl]
  simp

/-- The timing of a packet with an adaptation field. -/
theorem tsTiming_eq (hsync : byteAt packet 0 = 0x47) (hafc : byteAt packet 3 &&& 0x20 ≠ 0)
    (hpos : 0 < (byteAt packet 4).toNat) (hmax : (byteAt packet 4).toNat ≤ 183) :
    tsTiming packet =
      { pid := tsPid packet
        pcr := if byteAt packet 5 &&& 0x10 ≠ 0 ∧ 7 ≤ (byteAt packet 4).toNat then
          some (pcrBase packet) else none
        discontinuity := byteAt packet 5 &&& 0x80 != 0 } := by
  rw [tsTiming, if_neg (by simp [hsync, hafc])]
  simp only
  rw [if_neg (by omega)]

theorem tsTiming_stripPayload_iff (hlen : 5 + (byteAt packet 4).toNat ≤ packet.length)
    (hsync : byteAt packet 0 = 0x47) (hafc : byteAt packet 3 &&& 0x20 ≠ 0)
    (hpos : 0 < (byteAt packet 4).toNat) (hmax : (byteAt packet 4).toNat ≤ 183) :
    tsTiming (stripPayload packet) = tsTiming packet ↔ ¬ShortPcr packet := by
  rw [tsTiming_stripPayload hlen hsync hpos, tsTiming_eq hsync hafc hpos hmax, TsTiming.mk.injEq]
  unfold ShortPcr
  by_cases hflag : byteAt packet 5 &&& 0x10 ≠ 0 <;> by_cases hroom : 7 ≤ (byteAt packet 4).toNat
  · simp [hflag, hroom, pcrBase_stripPayload hlen hroom]
  · simp [hflag, hroom]
  · simp [hflag]
  · simp [hflag]

end

namespace LiveAudioSelection

/-- A program comes from a PAT, and a removed stream from a PMT of it. -/
structure Tabled (a : LiveAudioSelection) : Prop where
  pat : a.mapping.isSome → a.pat.isSome
  mapping : a.removed ≠ [] → a.mapping.isSome

theorem tabled_default : Tabled default := ⟨fun h => (by cases h), fun h => absurd rfl h⟩

variable {a : LiveAudioSelection} {packet : List UInt8}

theorem Tabled.noteScrambling (h : Tabled a) (packet : List UInt8) :
    Tabled (a.noteScrambling packet) := by
  unfold LiveAudioSelection.noteScrambling
  split
  · exact ⟨h.pat, h.mapping⟩
  · exact h

theorem Tabled.takePat (h : Tabled a) (packet s : List UInt8) (program : Nat × Nat) :
    Tabled (a.takePat packet s program).2 := by
  refine ⟨fun _ => rfl, ?_⟩
  show (a.remap program (word s 3)).2.removed ≠ [] → (a.remap program (word s 3)).2.mapping.isSome
  unfold remap
  split
  · exact fun _ => rfl
  · exact h.mapping

theorem Tabled.observe (h : Tabled a) (packet : List UInt8) : Tabled (a.observe packet).2 := by
  have h := h.noteScrambling packet
  have O := a.observe_observes packet
  generalize a.noteScrambling packet = a₀ at h O
  generalize a.observe packet = r at O
  cases O with
  | program => exact h.takePat ..
  | forget => exact ⟨fun h => (by cases h), fun h => absurd rfl h⟩
  | pmt _ hpmt =>
    refine ⟨h.pat, fun _ => ?_⟩
    have hany := (Bool.and_eq_true_iff.mp hpmt).1
    exact Option.isSome_of_any hany
  | strange => exact ⟨h.pat, fun h => absurd rfl h⟩
  | early | kept | other | dropped => exact h

/-- The selection with a packet, as a step. -/
abbrev step (a : LiveAudioSelection) (packet : List UInt8) : LiveAudioSelection :=
  (a.observe packet).2

/-- The selection after a list of packets. -/
def after (packets : List (List UInt8)) : LiveAudioSelection := run step default packets

theorem tabled_after (packets : List (List UInt8)) : Tabled (after packets) :=
  run_invariant (fun _ packet h => h.observe packet) tabled_default packets

/-! ### The kept packet -/

/-- What is asked of a packet that stands for a packet of the clock. -/
structure KeepsTiming (packet out : List UInt8) : Prop where
  pid : tsPid out = tsPid packet
  timing : tsTiming out = tsTiming packet
  silent : payload out = none
  middle : tsPusi out = false

/-- Whether a packet is read as a table. -/
def readsTable (a : LiveAudioSelection) (packet : List UInt8) : Bool :=
  tsPid packet = 0 || a.onPmt packet

theorem payload_of_onPmt (h : a.onPmt packet = true) : payload packet ≠ none :=
  Option.isSome_iff_ne_none.mp (Bool.and_eq_true_iff.mp h).2

theorem noteScrambling_fields (a : LiveAudioSelection) (packet : List UInt8) :
    (a.noteScrambling packet).removed = a.removed ∧ (a.noteScrambling packet).pcr = a.pcr ∧
      (a.noteScrambling packet).onPmt packet = a.onPmt packet := by
  unfold noteScrambling
  split <;> exact ⟨rfl, rfl, rfl⟩

theorem and_0f_or_10 : ∀ x : UInt8, ((x &&& 0x0f) ||| 0x10) &&& 0x30 = 0x10 :=
  forall_byte (by decide +kernel)

theorem payload_sectionPacket (hlen : 3 ≤ packet.length) (out : List UInt8) :
    payload (sectionPacket packet out) = some 4 := by
  have h₃ : byteAt (sectionPacket packet out) 3 = (byteAt packet 3 &&& 0x0f) ||| 0x10 := by
    have htake : (packet.take 3).length = 3 := by rw [List.length_take]; omega
    simp only [sectionPacket, byteAt, List.getD_eq_getElem?_getD, List.append_assoc]
    rw [List.getElem?_append_right (by omega), htake]
    rfl
  rw [payload, h₃, if_pos (and_0f_or_10 _)]

theorem sync_of_timing (h : (tsTiming packet).pcr.isSome ∨ (tsTiming packet).discontinuity) :
    byteAt packet 0 = 0x47 := by
  unfold tsTiming at h
  split at h
  · rcases h with h | h <;> cases h
  · next hsync => exact not_not.mp fun hne => hsync (.inl hne)

theorem keepsTiming_iff {out : List UInt8} (hlen : packet.length = tsPacketLen) (h : Tabled a)
    (hremoved : tsPid packet ∈ a.removed) (hout : (a.observe packet).1.packet = some out) :
    KeepsTiming packet out ↔ a.readsTable packet = false ∧ ¬ShortPcr packet := by
  have hT := h.noteScrambling packet
  obtain ⟨hr, -, hp⟩ := a.noteScrambling_fields packet
  have hbound : tsPacketLen = 188 := rfl
  -- a packet that is read as a table still has its payload
  have htable (hread : a.readsTable packet = true) {out : List UInt8} (hpay : payload out ≠ none) :
      KeepsTiming packet out ↔ a.readsTable packet = false ∧ ¬ShortPcr packet :=
    iff_of_false (fun K => hpay K.silent) fun h => absurd (hread.symm.trans h.1) (by decide)
  have O := a.observe_observes packet
  unfold readsTable at *
  rw [← hr] at hremoved
  rw [← hp] at htable ⊢
  generalize a.noteScrambling packet = a₀ at *
  generalize a.observe packet = r at O hout
  cases O with
  | program hpid hs =>
    obtain rfl := Option.some.inj hout
    obtain ⟨off, hs⟩ := psiSection_eq_ok.mp hs
    exact htable (by simp [hpid]) (by rw [hs.offset]; exact Option.some_ne_none _)
  | forget hpid hpay =>
    obtain rfl := Option.some.inj hout
    exact htable (by simp [hpid]) hpay
  | early hpid hpat =>
    have := hT.pat (hT.mapping (List.ne_nil_of_mem hremoved))
    rw [hpat] at this
    cases this
  | pmt hpid hpmt hs hparse =>
    obtain rfl := Option.some.inj hout
    refine htable (by simp [hpmt]) ?_
    show payload (if _ then _ else _) ≠ none
    split
    · rw [payload_sectionPacket (by omega)]
      exact Option.some_ne_none _
    · exact payload_of_onPmt hpmt
  | strange hpid hpmt =>
    obtain rfl := Option.some.inj hout
    exact htable (by simp [hpmt]) (payload_of_onPmt hpmt)
  | kept hpid hpmt _ _ htiming hafc hpos hmax =>
    obtain rfl := Option.some.inj hout
    have hfits : 5 + (byteAt packet 4).toNat ≤ packet.length := by omega
    rw [and_iff_right (by simp [hpid, hpmt]),
      ← tsTiming_stripPayload_iff hfits (sync_of_timing htiming) hafc hpos hmax]
    exact ⟨fun K => K.timing, fun heq => ⟨tsPid_stripPayload hfits, heq,
      payload_stripPayload hfits, tsPusi_stripPayload hfits⟩⟩
  | other _ _ hnot => exact absurd hremoved hnot
  | dropped => cases hout

/-- In every run, a packet of a removed stream that is kept for its clock keeps its timing, without
payload, unless it is read as a table or announces a PCR that its adaptation field has no room
for. -/
theorem clock_packet_keeps_timing_iff (packets : List (List UInt8)) (packet out : List UInt8)
    (hlen : packet.length = tsPacketLen) (hremoved : tsPid packet ∈ (after packets).removed)
    (hout : ((after packets).observe packet).1.packet = some out) :
    KeepsTiming packet out ↔ (after packets).readsTable packet = false ∧ ¬ShortPcr packet :=
  keepsTiming_iff hlen (tabled_after packets) hremoved hout

/-- A section with its length and checksum. -/
def tableSection (body : List UInt8) : List UInt8 :=
  setLength body ++ be32 (mpegCrc32 (setLength body))

/-- A packet with a table on a PID. -/
def tablePacket (pid : Nat) (body : List UInt8) : List UInt8 :=
  sectionPacket [0x47, .ofNat (0x40 + pid / 256), .ofNat pid, 0] (tableSection body)

/-- A PAT with the program 1 and its PMT on PID 256. -/
def samplePat : List UInt8 := tablePacket 0 [0, 0, 0, 0, 1, 0xc1, 0, 0, 0, 1, 0xe1, 0]

/-- A PMT of the program with a version: the clock on PID 259, video, and further streams. -/
def samplePmtBody (version : UInt8) (streams : List UInt8) : List UInt8 :=
  [2, 0, 0, 0, 1, 0xc1 + 2 * version, 0, 0, 0xe1, 3, 0xf0, 0, 0x1b, 0xe1, 1, 0xf0, 0] ++ streams

/-- ADTS audio on PID 258. -/
def sampleAac : List UInt8 := [0x0f, 0xe1, 2, 0xf0, 0]

/-- MPEG audio on PID 259. -/
def sampleMpeg : List UInt8 := [0x03, 0xe1, 3, 0xf0, 0]

/-- Video, ADTS audio and MPEG audio, which carries the clock. -/
def samplePmt : List UInt8 := tablePacket 256 (samplePmtBody 0 (sampleAac ++ sampleMpeg))

/-- A packet of the MPEG audio with an adaptation field. -/
def sampleClock (field : List UInt8) : List UInt8 :=
  [0x47, 0x41, 3, 0x30, .ofNat field.length] ++ field ++ List.replicate (183 - field.length) 7

theorem clock_packet_keeps_timing_sample :
    KeepsTiming (sampleClock [0x10, 0, 0, 0, 9, 0, 0])
      (stripPayload (sampleClock [0x10, 0, 0, 0, 9, 0, 0])) :=
  (clock_packet_keeps_timing_iff [samplePat, samplePmt] _ _ (by decide +kernel) (by decide +kernel)
    (by decide +kernel)).mpr (by decide +kernel)

/-- A packet without PCR gets one: its field has room for the flags only. -/
theorem stripped_packet_gains_pcr :
    let packet := sampleClock [0x90]
    packet.length = tsPacketLen ∧ tsPid packet ∈ (after [samplePat, samplePmt]).removed ∧
      (after [samplePat, samplePmt]).pcr = some (tsPid packet) ∧
      ((after [samplePat, samplePmt]).observe packet).1.packet = some (stripPayload packet) ∧
      (tsTiming packet).pcr = none ∧
      (tsTiming (stripPayload packet)).pcr = some (2 ^ 33 - 1) := by
  decide +kernel

end LiveAudioSelection

end Outpace.Media

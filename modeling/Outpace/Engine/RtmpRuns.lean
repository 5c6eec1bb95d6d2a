import Outpace.Engine.RtmpDemux
import Outpace.Media.Audio

/-!
# Broadcasts through the muxer

Any sequence of frames and configurations pushed into `RtmpTsMuxer`, against what a receiver reads
of its output. `muxedFrame` says what a frame is for: the PES packet that the receiver has to find,
given the configurations that came before it.

The output carries no clock. The PMT names the video PID for it, but no packet has a PCR, so nothing
that measures time by the PCR gets anywhere.
-/

namespace Outpace.Engine
open Media

variable {AudioSpecificConfig : Type}

inductive RtmpInput (AudioSpecificConfig : Type) where
  | video (frame : H264Data) (timestampMs : UInt32)
  | audio (frame : AacData AudioSpecificConfig) (timestampMs : UInt32)

namespace RtmpTsMuxer

def push (media : RtmpMedia AudioSpecificConfig) (m : RtmpTsMuxer AudioSpecificConfig) :
    RtmpInput AudioSpecificConfig → List (List UInt8) × RtmpTsMuxer AudioSpecificConfig
  | .video frame timestampMs => m.pushVideo media frame timestampMs
  | .audio frame timestampMs => m.pushAudio media frame timestampMs

def step (media : RtmpMedia AudioSpecificConfig) (m : RtmpTsMuxer AudioSpecificConfig)
    (input : RtmpInput AudioSpecificConfig) : RtmpTsMuxer AudioSpecificConfig :=
  (m.push media input).2

/-- The packets of a whole broadcast. -/
def output (media : RtmpMedia AudioSpecificConfig) (inputs : List (RtmpInput AudioSpecificConfig)) :
    List (List UInt8) :=
  emits (step media) (fun m input => (m.push media input).1) new inputs

/-- The counter of a PID. -/
def cc (m : RtmpTsMuxer AudioSpecificConfig) (pid : Nat) : UInt8 :=
  if pid = patPid then m.patCc
  else if pid = pmtPid then m.pmtCc
  else if pid = videoPid then m.videoCc
  else if pid = audioPid then m.audioCc
  else 0

end RtmpTsMuxer

/-! ### What a receiver should find -/

/-- The configurations pushed last. -/
structure RtmpConfigs (AudioSpecificConfig : Type) where
  video : Option AvcConfig
  audio : Option AudioSpecificConfig

namespace RtmpConfigs

def none : RtmpConfigs AudioSpecificConfig := ⟨Option.none, Option.none⟩

def step (c : RtmpConfigs AudioSpecificConfig) :
    RtmpInput AudioSpecificConfig → RtmpConfigs AudioSpecificConfig
  | .video (.sequenceHeader config) _ => { c with video := some config }
  | .audio (.sequenceHeader config) _ => { c with audio := some config }
  | _ => c

end RtmpConfigs

/-- The NAL units of a frame's access unit: a delimiter, on a keyframe the parameter sets, and the
units of the frame. -/
def frameUnits (media : RtmpMedia AudioSpecificConfig) (config : AvcConfig) (keyframe : Bool)
    (nalus : List UInt8) : List (List UInt8) :=
  [[0x09, 0xf0]] ++ (if keyframe then config.sps ++ config.pps else []) ++
    media.nalus nalus config.naluLengthSize

/-- The PES packet of a frame and its PID: in Annex B every NAL unit stands behind a start code, and
an audio frame stands behind its ADTS header. There is none before the stream's configuration. -/
def muxedFrame (media : RtmpMedia AudioSpecificConfig) (c : RtmpConfigs AudioSpecificConfig) :
    RtmpInput AudioSpecificConfig → List (Nat × PesPacket)
  | .video (.frame keyframe compositionTime nalus) timestampMs =>
    c.video.toList.map fun config => (videoPid,
      { streamId := videoStreamId
        dts := 90 * timestampMs.toNat % 2 ^ 33
        pts := 90 * min (2 ^ 32 - 1) (timestampMs.toNat + (max compositionTime 0).toNat) % 2 ^ 33
        payload := (frameUnits media config keyframe nalus).flatMap ([0, 0, 0, 1] ++ ·) })
  | .audio (.frame data) timestampMs =>
    c.audio.toList.map fun config => (audioPid,
      { streamId := audioStreamId
        dts := 90 * timestampMs.toNat % 2 ^ 33
        pts := 90 * timestampMs.toNat % 2 ^ 33
        payload := media.adtsHeader config data.length ++ data })
  | _ => []

def muxedFrames (media : RtmpMedia AudioSpecificConfig)
    (inputs : List (RtmpInput AudioSpecificConfig)) : List (Nat × PesPacket) :=
  emits RtmpConfigs.step (muxedFrame media) RtmpConfigs.none inputs

/-- The PES packets that a receiver reads on a PID. -/
def demux (pid : Nat) (packets : List (List UInt8)) : List (Option PesPacket) :=
  (units (onPid pid packets)).map readPes

/-! ### The tables -/

def patPacket : List UInt8 := tsPacket patPid 0 true patSection
def pmtPacket : List UInt8 := tsPacket pmtPid 0 true pmtSection

theorem psiSection_patPacket : psiSection patPacket 0x00 9 none = .ok (patSection.drop 1) := by
  decide +kernel

theorem psiSection_pmtPacket : psiSection pmtPacket 0x02 13 (some 1) = .ok (pmtSection.drop 1) := by
  decide +kernel

theorem writeTsPayload_short (pid : Nat) {fuel : Nat} (hfuel : 0 < fuel) (cc : UInt8)
    (payloadStart : Bool) {payload : List UInt8} (hne : payload ≠ [])
    (hlen : payload.length ≤ 184) :
    (writeTsPayload pid fuel cc payloadStart payload).1 =
      [tsPacket pid cc payloadStart payload] := by
  obtain ⟨fuel, rfl⟩ := Nat.exists_eq_succ_of_ne_zero hfuel.ne'
  rw [writeTsPayload, if_neg hne, List.take_of_length_le hlen, List.drop_eq_nil_of_le hlen]
  cases fuel <;> rfl

/-! ### One write -/

/-- What the muxer has written so far, and the frames that it was for. -/
structure Muxed (m : RtmpTsMuxer AudioSpecificConfig) (packets : List (List UInt8))
    (frames : List (Nat × PesPacket)) : Prop where
  carries : Carries m.cc packets
  read : ∀ pid, pid ≠ patPid → pid ≠ pmtPid →
    demux pid packets = (frames.filter (·.1 = pid)).map (some ·.2)
  begun : m.wroteTables = true → frames ≠ [] ∧ ∃ rest, packets = patPacket :: pmtPacket :: rest
  fresh : m.wroteTables = false → frames = [] ∧ packets = []

theorem muxed_new : Muxed (RtmpTsMuxer.new : RtmpTsMuxer AudioSpecificConfig) [] [] := by
  refine ⟨⟨by simp, fun pid => ⟨rfl, ?_⟩⟩, fun _ _ _ => rfl, fun h => (by cases h),
    fun _ => ⟨rfl, rfl⟩⟩
  unfold RtmpTsMuxer.cc
  split_ifs <;> rfl

variable {m : RtmpTsMuxer AudioSpecificConfig} {packets : List (List UInt8)}
  {frames : List (Nat × PesPacket)} {c : RtmpConfigs AudioSpecificConfig} {pid : Nat}

theorem demux_write {cc : UInt8} {unit : List UInt8} {w : List (List UInt8) × UInt8}
    (W : Written pid cc true unit w) (hne : unit ≠ []) (q : Nat) :
    demux q (packets ++ w.1) = demux q packets ++ if q = pid then [readPes unit] else [] := by
  rw [demux, W.onPid_append]
  split
  · rw [W.units hne, List.map_append]
    rfl
  · rw [List.append_nil, List.append_nil]
    rfl

theorem Carries.writePayload (C : Carries m.cc packets) (hpid : pid < 8192) {payload : List UInt8}
    {fuel : Nat} (hfuel : payload.length ≤ fuel) :
    Written pid (m.cc pid) true payload (writeTsPayload pid fuel (m.cc pid) true payload) :=
  writeTsPayload_written hpid (C.channel pid).lt true hfuel

section
open RtmpTsMuxer

theorem cc_writeTables (m : RtmpTsMuxer AudioSpecificConfig) (pat pmt : UInt8) :
    cc { m with patCc := pat, pmtCc := pmt } =
      Function.update (Function.update m.cc patPid pat) pmtPid pmt := by
  funext pid
  simp only [cc, Function.update_apply, patPid, pmtPid, videoPid, audioPid]
  grind

theorem cc_video (m : RtmpTsMuxer AudioSpecificConfig) (c : UInt8) :
    cc { m with videoCc := c } = Function.update m.cc videoPid c := by
  funext pid
  simp only [cc, Function.update_apply, patPid, pmtPid, videoPid, audioPid]
  grind

theorem cc_audio (m : RtmpTsMuxer AudioSpecificConfig) (c : UInt8) :
    cc { m with audioCc := c } = Function.update m.cc audioPid c := by
  funext pid
  simp only [cc, Function.update_apply, patPid, pmtPid, videoPid, audioPid]
  grind

end

/-- The tables in front of the first frame. -/
theorem writeTables_carries (C : Carries m.cc []) :
    Carries m.writeTables.2.cc m.writeTables.1 ∧ m.writeTables.1 = [patPacket, pmtPacket] := by
  have hzero (pid : Nat) : m.cc pid = 0 := UInt8.toNat_inj.mp (C.channel pid).next
  have Wpat := C.writePayload (by decide : patPid < 8192) (le_refl patSection.length)
  have C₁ := C.write Wpat
  rw [List.nil_append] at C₁
  have hpmt : Function.update m.cc patPid
      (writeTsPayload patPid patSection.length (m.cc patPid) true patSection).2 pmtPid =
        m.cc pmtPid := Function.update_of_ne (by decide) _ _
  have Wpmt : Written pmtPid _ true pmtSection
      (writeTsPayload pmtPid pmtSection.length (m.cc pmtPid) true pmtSection) :=
    C.writePayload (by decide) (le_refl _)
  rw [← hpmt] at Wpmt
  have C₂ := C₁.write Wpmt
  rw [hpmt] at C₂
  constructor
  · exact cc_writeTables m _ _ ▸ C₂
  · show (writeTsPayload patPid patSection.length (m.cc patPid) true patSection).1 ++
      (writeTsPayload pmtPid pmtSection.length (m.cc pmtPid) true pmtSection).1 = _
    rw [hzero, hzero, writeTsPayload_short _ (by decide) _ _ (by decide) (by decide),
      writeTsPayload_short _ (by decide) _ _ (by decide) (by decide)]
    rfl

/-- The state and the packets that a frame is appended to: the tables are out. -/
def RtmpTsMuxer.opened (m : RtmpTsMuxer AudioSpecificConfig) :
    List (List UInt8) × RtmpTsMuxer AudioSpecificConfig :=
  let tables := if m.wroteTables then ([], m) else m.writeTables
  (tables.1, { tables.2 with wroteTables := true })

theorem Muxed.opened (M : Muxed m packets frames) :
    Carries m.opened.2.cc (packets ++ m.opened.1) ∧
      (∀ pid, pid ≠ patPid → pid ≠ pmtPid →
        demux pid (packets ++ m.opened.1) = (frames.filter (·.1 = pid)).map (some ·.2)) ∧
      ∃ rest, packets ++ m.opened.1 = patPacket :: pmtPacket :: rest := by
  cases hw : m.wroteTables with
  | true =>
    have hopened : m.opened = ([], m) := by
      rw [RtmpTsMuxer.opened, if_pos hw]
      exact congrArg (Prod.mk []) (hw ▸ rfl)
    rw [hopened, List.append_nil]
    exact ⟨M.carries, M.read, (M.begun hw).2⟩
  | false =>
    obtain ⟨rfl, rfl⟩ := M.fresh hw
    obtain ⟨C, htables⟩ := writeTables_carries M.carries
    have hopened : m.opened = (m.writeTables.1, { m.writeTables.2 with wroteTables := true }) := by
      rw [RtmpTsMuxer.opened, if_neg (by rw [hw]; decide)]
    rw [hopened, List.nil_append]
    refine ⟨C, fun pid hpat hpmt => ?_, [], htables⟩
    have hnone : onPid pid [patPacket, pmtPacket] = [] := by
      refine List.filter_eq_nil_iff.mpr fun pkt hpkt hpid => ?_
      have hpid := of_decide_eq_true hpid
      rcases List.mem_cons.mp hpkt with rfl | hpkt
      · exact hpat (hpid.symm.trans (tsPid_tsPacket 0 true (by decide)))
      · obtain rfl := List.mem_singleton.mp hpkt
        exact hpmt (hpid.symm.trans (tsPid_tsPacket 0 true (by decide)))
    rw [demux, htables, hnone]
    rfl

theorem pesPacket_ne_nil (streamId : UInt8) (dts : Nat) (pts : Option Nat) (payload : List UInt8) :
    pesPacket streamId dts pts payload ≠ [] := by
  simp [pesPacket]

theorem packetizePes_eq (m : RtmpTsMuxer AudioSpecificConfig)
    (hpid : pid = videoPid ∨ pid = audioPid) (streamId : UInt8) (dts : Nat) (pts : Option Nat)
    (payload : List UInt8) : let unit := pesPacket streamId dts pts payload
    let w := writeTsPayload pid unit.length (m.opened.2.cc pid) true unit
    (m.packetizePes pid streamId dts pts payload).1 = m.opened.1 ++ w.1 ∧
      (m.packetizePes pid streamId dts pts payload).2.cc =
        Function.update m.opened.2.cc pid w.2 ∧
      (m.packetizePes pid streamId dts pts payload).2.wroteTables = true := by
  rcases hpid with rfl | rfl
  · exact ⟨rfl, cc_video .., rfl⟩
  · exact ⟨rfl, cc_audio .., rfl⟩

/-- A frame's packets. -/
theorem Muxed.packetizePes (M : Muxed m packets frames) (hpid : pid = videoPid ∨ pid = audioPid)
    (streamId : UInt8) (dts : Nat) (pts : Option Nat) (payload : List UInt8) :
    Muxed (m.packetizePes pid streamId dts pts payload).2
      (packets ++ (m.packetizePes pid streamId dts pts payload).1)
      (frames ++ [(pid, ⟨streamId, dts % 2 ^ 33, pts.getD dts % 2 ^ 33, payload⟩)]) := by
  obtain ⟨C, hread, rest, hfirst⟩ := M.opened
  obtain ⟨hout, hcc, hwrote⟩ := packetizePes_eq m hpid streamId dts pts payload
  have hlt : pid < 8192 := by rcases hpid with rfl | rfl <;> decide
  have W := C.writePayload hlt (le_refl (pesPacket streamId dts pts payload).length)
  rw [hout, ← List.append_assoc]
  refine ⟨hcc ▸ C.write W, fun q hpat hpmt => ?_, fun _ => ⟨by simp, ?_⟩, fun h => ?_⟩
  · rw [demux_write W (pesPacket_ne_nil _ _ _ _), hread q hpat hpmt, readPes_pesPacket,
      List.filter_append, List.map_append]
    refine congrArg (_ ++ ·) ?_
    by_cases hq : q = pid
    · subst hq
      simp
    · simp [hq, Ne.symm hq]
  · rw [hfirst]
    exact ⟨_, rfl⟩
  · rw [hwrote] at h
    cases h

/-! ### A whole broadcast -/

theorem toNat_ptsMs (timestampMs : UInt32) (compositionTime : Int) :
    (RtmpTsMuxer.ptsMs timestampMs compositionTime).toNat =
      min (2 ^ 32 - 1) (timestampMs.toNat + (max compositionTime 0).toNat) := by
  have hmax : (max compositionTime 0).toNat = compositionTime.toNat := by omega
  rw [RtmpTsMuxer.ptsMs, UInt32.toNat_ofNat', hmax]
  exact Nat.mod_eq_of_lt (by omega)

theorem accessUnit_eq (media : RtmpMedia AudioSpecificConfig) (config : AvcConfig)
    (keyframe : Bool) (nalus : List UInt8) :
    RtmpTsMuxer.accessUnit media config keyframe nalus =
      (frameUnits media config keyframe nalus).flatMap ([0, 0, 0, 1] ++ ·) := by
  rw [frameUnits, List.flatMap_append, List.flatMap_append, List.flatMap_singleton]
  cases keyframe with
  | false => rfl
  | true =>
    rw [if_pos rfl, List.flatMap_append]
    rfl

/-- The muxer has the configurations pushed last. -/
structure Configured (m : RtmpTsMuxer AudioSpecificConfig) (c : RtmpConfigs AudioSpecificConfig) :
    Prop where
  video : m.videoConfig = c.video
  audio : m.audioConfig = c.audio

theorem configured_push (media : RtmpMedia AudioSpecificConfig) (h : Configured m c)
    (input : RtmpInput AudioSpecificConfig) : Configured (m.push media input).2 (c.step input) := by
  have hpes (pid : Nat) (streamId : UInt8) (dts : Nat) (pts : Option Nat) (payload : List UInt8) :
      Configured (m.packetizePes pid streamId dts pts payload).2 c := by
    unfold RtmpTsMuxer.packetizePes
    cases m.wroteTables <;> by_cases hpid : pid = videoPid <;> simp only [hpid] <;> exact ⟨h.1, h.2⟩
  rcases input with ⟨config | ⟨keyframe, compositionTime, nalus⟩ | _, timestampMs⟩ |
    ⟨config | data, timestampMs⟩
  · exact ⟨rfl, h.2⟩
  · show Configured (m.pushVideo media _ _).2 c
    unfold RtmpTsMuxer.pushVideo
    cases m.videoConfig with
    | none => exact h
    | some config => exact hpes ..
  · exact h
  · exact ⟨h.1, rfl⟩
  · show Configured (m.pushAudio media _ _).2 c
    unfold RtmpTsMuxer.pushAudio
    cases m.audioConfig with
    | none => exact h
    | some config => exact hpes ..

theorem Muxed.push (media : RtmpMedia AudioSpecificConfig) (M : Muxed m packets frames)
    (h : Configured m c) (input : RtmpInput AudioSpecificConfig) :
    Muxed (m.push media input).2 (packets ++ (m.push media input).1)
      (frames ++ muxedFrame media c input) := by
  have hquiet : Muxed m (packets ++ []) (frames ++ []) := by
    rw [List.append_nil, List.append_nil]
    exact M
  rcases input with ⟨config | ⟨keyframe, compositionTime, nalus⟩ | _, timestampMs⟩ |
    ⟨config | data, timestampMs⟩
  · exact ⟨hquiet.1, hquiet.2, hquiet.3, hquiet.4⟩
  · cases hconfig : m.videoConfig with
    | none =>
      simp only [RtmpTsMuxer.push, RtmpTsMuxer.pushVideo, muxedFrame, ← h.video, hconfig]
      exact hquiet
    | some config =>
      have hframe :
          muxedFrame media c (.video (.frame keyframe compositionTime nalus) timestampMs) =
          [(videoPid, ⟨videoStreamId, pts90 timestampMs % 2 ^ 33,
            pts90 (RtmpTsMuxer.ptsMs timestampMs compositionTime) % 2 ^ 33,
            RtmpTsMuxer.accessUnit media config keyframe nalus⟩)] := by
        rw [muxedFrame, ← h.video, hconfig, pts90, pts90, toNat_ptsMs, Nat.mul_comm _ 90,
          Nat.mul_comm _ 90, accessUnit_eq]
        rfl
      simp only [RtmpTsMuxer.push, RtmpTsMuxer.pushVideo, hconfig, hframe]
      exact M.packetizePes (.inl rfl) ..
  · exact hquiet
  · exact ⟨hquiet.1, hquiet.2, hquiet.3, hquiet.4⟩
  · cases hconfig : m.audioConfig with
    | none =>
      simp only [RtmpTsMuxer.push, RtmpTsMuxer.pushAudio, muxedFrame, ← h.audio, hconfig]
      exact hquiet
    | some config =>
      have hframe : muxedFrame media c (.audio (.frame data) timestampMs) =
          [(audioPid, ⟨audioStreamId, pts90 timestampMs % 2 ^ 33, pts90 timestampMs % 2 ^ 33,
            RtmpTsMuxer.adtsFrame media config data⟩)] := by
        rw [muxedFrame, ← h.audio, hconfig, pts90, Nat.mul_comm _ 90]
        rfl
      simp only [RtmpTsMuxer.push, RtmpTsMuxer.pushAudio, hconfig, hframe]
      exact M.packetizePes (.inr rfl) ..

theorem run_muxed (media : RtmpMedia AudioSpecificConfig) (M : Muxed m packets frames)
    (h : Configured m c) (inputs : List (RtmpInput AudioSpecificConfig)) :
    Muxed (run (RtmpTsMuxer.step media) m inputs)
      (packets ++ emits (RtmpTsMuxer.step media) (fun m input => (m.push media input).1) m inputs)
      (frames ++ emits RtmpConfigs.step (muxedFrame media) c inputs) := by
  induction inputs generalizing m packets frames c with
  | nil =>
    rw [emits_nil, emits_nil, List.append_nil, List.append_nil]
    exact M
  | cons input inputs ih =>
    rw [run_cons, emits_cons, emits_cons, ← List.append_assoc, ← List.append_assoc]
    exact ih (M.push media h input) (configured_push media h input)

theorem muxed_output (media : RtmpMedia AudioSpecificConfig)
    (inputs : List (RtmpInput AudioSpecificConfig)) :
    Muxed (run (RtmpTsMuxer.step media) .new inputs) (RtmpTsMuxer.output media inputs)
      (muxedFrames media inputs) := by
  have M := run_muxed media (c := .none) muxed_new ⟨rfl, rfl⟩ inputs
  rw [List.nil_append, List.nil_append] at M
  exact M

/-- The output is demuxed back to the frames that were pushed. It consists of whole packets, the
tables come first and pass their own check, the counters of every PID run through, and the units of
the video and the audio PID are the PES packets of the frames in order. -/
theorem rtmp_output_demuxes (media : RtmpMedia AudioSpecificConfig)
    (inputs : List (RtmpInput AudioSpecificConfig)) :
    let packets := RtmpTsMuxer.output media inputs
    let frames := muxedFrames media inputs
    (blocks tsPacketLen packets.flatten = packets ∧
      packets.flatten.length = packets.length * tsPacketLen ∧
      ∀ pkt ∈ packets, pkt.length = tsPacketLen ∧ byteAt pkt 0 = 0x47) ∧
    (frames = [] → packets = []) ∧
    (frames ≠ [] → ∃ pat pmt rest, packets = pat :: pmt :: rest ∧
      tsPid pat = patPid ∧ psiSection pat 0x00 9 none = .ok (patSection.drop 1) ∧
      tsPid pmt = pmtPid ∧ psiSection pmt 0x02 13 (some 1) = .ok (pmtSection.drop 1)) ∧
    (∀ pid, (onPid pid packets).map counter =
      (List.range (onPid pid packets).length).map (· % 16)) ∧
    ∀ pid, pid ≠ patPid → pid ≠ pmtPid →
      demux pid packets = (frames.filter (·.1 = pid)).map (some ·.2) := by
  have M := muxed_output media inputs
  have hlen (pkt : List UInt8) (hpkt : pkt ∈ RtmpTsMuxer.output media inputs) :=
    (M.carries.output pkt hpkt).length
  refine ⟨⟨blocks_flatten (by decide) hlen, length_flatten_of_forall hlen, fun pkt hpkt =>
    ⟨hlen pkt hpkt, (M.carries.output pkt hpkt).sync⟩⟩, fun hnone => ?_, fun hsome => ?_,
    fun pid => (M.carries.channel pid).counters, M.read⟩
  · cases hw : (run (RtmpTsMuxer.step media) .new inputs).wroteTables with
    | true => exact absurd hnone (M.begun hw).1
    | false => exact (M.fresh hw).2
  · cases hw : (run (RtmpTsMuxer.step media) .new inputs).wroteTables with
    | true =>
      obtain ⟨rest, hrest⟩ := (M.begun hw).2
      exact ⟨_, _, rest, hrest, tsPid_tsPacket 0 true (by decide), psiSection_patPacket,
        tsPid_tsPacket 0 true (by decide), psiSection_pmtPacket⟩
    | false => exact absurd (M.fresh hw).1 hsome

/-! ### The clock of a broadcast -/

/-- The PID that the PMT names for the PCR. -/
def declaredPcrPid : Nat := pidAt (pmtSection.drop 1) 8

/-- A clock that observes some packets. -/
def watched (packets : List (List UInt8)) : SelectedPcrClock :=
  run (fun c pkt => (c.observe (tsTiming pkt)).2) .new packets

/-- The timestamps of the video frames that are muxed. -/
def videoTimes (inputs : List (RtmpInput AudioSpecificConfig)) : List Nat :=
  emits RtmpConfigs.step (fun c input =>
    match input with
    | .video (.frame ..) timestampMs => c.video.toList.map fun _ => timestampMs.toNat
    | _ => []) RtmpConfigs.none inputs

/-- At least two times, increasing, over less than 2^32 ticks. -/
def Paced (times : List Nat) : Prop :=
  2 ≤ times.length ∧ times.Pairwise (· < ·) ∧ 90 * (times.getLastD 0 - times.headD 0) < 2 ^ 32

instance (times : List Nat) : Decidable (Paced times) := inferInstanceAs (Decidable (_ ∧ _))

/-- A clock that sees only output of the muxer never starts. -/
theorem watched_eq_new {packets : List (List UInt8)} {cc : Nat → UInt8} (C : Carries cc packets)
    {seen : List (List UInt8)} (hseen : ∀ pkt ∈ seen, pkt ∈ packets) :
    watched seen = .new := by
  have hmeets : Meets (fun c pkt => (SelectedPcrClock.observe c (tsTiming pkt)).2)
      (fun _ pkt => pkt ∈ packets) .new seen := .of_forall fun pkt hpkt _ => hseen pkt hpkt
  refine run_induction (I := fun c => c = SelectedPcrClock.new) ?_ rfl hmeets
  rintro c pkt rfl hpkt
  obtain ⟨hpcr, hgap⟩ := (C.output pkt hpkt).timing
  rw [SelectedPcrClock.observe, hgap, hpcr]
  rfl

/-- No broadcast makes the clock run, neither on the PID that the PMT names nor over the whole
output. -/
theorem rtmp_clock_runs_iff (media : RtmpMedia AudioSpecificConfig)
    (inputs : List (RtmpInput AudioSpecificConfig)) :
    let packets := RtmpTsMuxer.output media inputs
    ((∃ ticks, 0 < ticks ∧ (watched (onPid declaredPcrPid packets)).elapsed = some ticks) ↔ False) ∧
      ((∃ ticks, 0 < ticks ∧ (watched packets).elapsed = some ticks) ↔ False) := by
  have C := (muxed_output media inputs).carries
  have hnew : SelectedPcrClock.new.elapsed = none := rfl
  refine ⟨iff_of_false ?_ not_false, iff_of_false ?_ not_false⟩
  · have hmem (pkt : List UInt8)
        (hpkt : pkt ∈ onPid declaredPcrPid (RtmpTsMuxer.output media inputs)) :
        pkt ∈ RtmpTsMuxer.output media inputs := (List.mem_filter.mp hpkt).1
    rw [watched_eq_new C hmem, hnew]
    rintro ⟨ticks, -, h⟩
    cases h
  · rw [watched_eq_new C fun pkt hpkt => hpkt, hnew]
    rintro ⟨ticks, -, h⟩
    cases h

/-- One parameter set each, and a keyframe every two seconds. -/
def sampleBroadcast : List (RtmpInput Unit) :=
  [.video (.sequenceHeader ⟨4, [[0x67]], [[0x68]]⟩) 0, .video (.frame true 0 [0, 0, 0, 1, 0x65]) 0,
    .video (.frame true 0 [0, 0, 0, 1, 0x65]) 2000, .video (.frame true 0 [0, 0, 0, 1, 0x65]) 4000]

/-- The NAL units with four bytes of length; there is no audio. -/
def sampleMedia : RtmpMedia Unit := ⟨fun bytes _ => [bytes.drop 4], fun _ _ => []⟩

theorem paced_broadcast_without_clock :
    videoTimes sampleBroadcast = [0, 2000, 4000] ∧ Paced (videoTimes sampleBroadcast) ∧
      declaredPcrPid = videoPid ∧
      (onPid declaredPcrPid (RtmpTsMuxer.output sampleMedia sampleBroadcast)).length = 3 ∧
      (watched (onPid declaredPcrPid (RtmpTsMuxer.output sampleMedia sampleBroadcast))).elapsed =
        none := by
  decide +kernel

end Outpace.Engine

import Outpace.Media.PsiSection

/-!
# From RTMP to a transport stream

`RtmpTsMuxer` of `ace-engine/src/rtmp_ts.rs`. A frame becomes one PES packet, which is cut into
transport packets; the last one is filled up with an adaptation field. The tables go in front of the
first frame. What is written is a list of packets, in the order in which their bytes are appended.

The codec's own formats belong to another library: how the NAL units of a frame are told apart, and
the ADTS header of an audio configuration.
-/

namespace Outpace.Engine
open Media

def patPid : Nat := 0x0000
def pmtPid : Nat := 0x1000
def videoPid : Nat := 0x0100
def audioPid : Nat := 0x0101
def videoStreamId : UInt8 := 0xe0
def audioStreamId : UInt8 := 0xc0

structure AvcConfig where
  naluLengthSize : Nat
  sps : List (List UInt8)
  pps : List (List UInt8)

/-- `NaluIterator` and `generate_adts_header`. -/
structure RtmpMedia (AudioSpecificConfig : Type) where
  nalus : List UInt8 → Nat → List (List UInt8)
  adtsHeader : AudioSpecificConfig → Nat → List UInt8

inductive H264Data where
  | sequenceHeader (config : AvcConfig)
  | frame (keyframe : Bool) (compositionTime : Int) (nalus : List UInt8)
  | endOfSequence

inductive AacData (AudioSpecificConfig : Type) where
  | sequenceHeader (config : AudioSpecificConfig)
  | frame (data : List UInt8)

structure RtmpTsMuxer (AudioSpecificConfig : Type) where
  videoConfig : Option AvcConfig
  audioConfig : Option AudioSpecificConfig
  patCc : UInt8
  pmtCc : UInt8
  videoCc : UInt8
  audioCc : UInt8
  wroteTables : Bool

/-! ### PES packets -/

/-- `push_annex_b_nalu`. -/
def annexBNalu (nalu : List UInt8) : List UInt8 := [0x00, 0x00, 0x00, 0x01] ++ nalu

def pts90 (ms : UInt32) : Nat := ms.toNat * 90

/-- Some bits with a marker behind them. -/
def marked (bits mask : UInt8) : UInt8 := ((bits &&& mask) <<< 1) ||| 1

/-- `write_ts_timestamp`: five bytes with marker bits. The first argument is the `prefix`. -/
def tsTimestamp (tag : UInt8) (ts : Nat) : List UInt8 :=
  let ts := ts % 2 ^ 33
  [(tag <<< 4) ||| marked (.ofNat (ts / 2 ^ 30)) 0x07, .ofNat (ts / 2 ^ 22),
    marked (.ofNat (ts / 2 ^ 15)) 0x7f, .ofNat (ts / 2 ^ 7), marked (.ofNat ts) 0x7f]

def pesPacket (streamId : UInt8) (dts : Nat) (pts : Option Nat) (payload : List UInt8) :
    List UInt8 :=
  [0x00, 0x00, 0x01, streamId, 0x00, 0x00, 0x80] ++
    (match pts with
      | some pts =>
        if pts ≠ dts then [0xc0, 10] ++ tsTimestamp 0x03 pts ++ tsTimestamp 0x01 dts
        else [0x80, 5] ++ tsTimestamp 0x02 pts
      | none => [0x80, 5] ++ tsTimestamp 0x02 dts) ++
    payload

/-! ### Transport packets -/

/-- The adaptation field that takes up the space left. -/
def stuffingField (space : Nat) : List UInt8 :=
  if space = 0 then []
  else if space = 1 then [0]
  else [.ofNat (space - 1), 0x00] ++ List.replicate (space - 2) 0xff

/-- One packet, with up to 184 bytes of payload. -/
def tsPacket (pid : Nat) (cc : UInt8) (payloadStart : Bool) (chunk : List UInt8) : List UInt8 :=
  let space := 184 - chunk.length
  [0x47, (if payloadStart then 0x40 else 0) ||| (.ofNat (pid / 256) &&& 0x1f), .ofNat pid,
    (if 0 < space then 0x30 else 0x10) ||| (cc &&& 0x0f)] ++ stuffingField space ++ chunk

/-- The packets of a payload, and the counter after them. Every packet takes a byte at least. -/
def writeTsPayload (pid : Nat) :
    (fuel : Nat) → (cc : UInt8) → (payloadStart : Bool) → List UInt8 → List (List UInt8) × UInt8
  | 0, cc, _, _ => ([], cc)
  | fuel + 1, cc, payloadStart, payload =>
    if payload = [] then ([], cc)
    else
      let r := writeTsPayload pid fuel ((cc + 1) &&& 0x0f) false (payload.drop 184)
      (tsPacket pid cc payloadStart (payload.take 184) :: r.1, r.2)

/-- `pat_section`, with its pointer field. -/
def patSection : List UInt8 :=
  let body : List UInt8 := [0x00, 0xb0, 0x0d, 0x00, 0x01, 0xc1, 0x00, 0x00, 0x00, 0x01,
    0xf0 ||| (.ofNat (pmtPid / 256) &&& 0x1f), .ofNat pmtPid]
  0x00 :: (body ++ be32 (mpegCrc32 body))

/-- `pmt_section`, with its pointer field. -/
def pmtSection : List UInt8 :=
  let sectionLen := 9 + 5 + 5 + 4
  let body : List UInt8 := [0x02, 0xb0 ||| (.ofNat (sectionLen / 256) &&& 0x0f), .ofNat sectionLen,
    0x00, 0x01, 0xc1, 0x00, 0x00,
    0xe0 ||| (.ofNat (videoPid / 256) &&& 0x1f), .ofNat videoPid, 0xf0, 0x00,
    0x1b, 0xe0 ||| (.ofNat (videoPid / 256) &&& 0x1f), .ofNat videoPid, 0xf0, 0x00,
    0x0f, 0xe0 ||| (.ofNat (audioPid / 256) &&& 0x1f), .ofNat audioPid, 0xf0, 0x00]
  0x00 :: (body ++ be32 (mpegCrc32 body))

namespace RtmpTsMuxer

variable {AudioSpecificConfig : Type}

def new : RtmpTsMuxer AudioSpecificConfig := ⟨none, none, 0, 0, 0, 0, false⟩

def writeTables (m : RtmpTsMuxer AudioSpecificConfig) :
    List (List UInt8) × RtmpTsMuxer AudioSpecificConfig :=
  let pat := writeTsPayload patPid patSection.length m.patCc true patSection
  let pmt := writeTsPayload pmtPid pmtSection.length m.pmtCc true pmtSection
  (pat.1 ++ pmt.1, { m with patCc := pat.2, pmtCc := pmt.2 })

def packetizePes (m : RtmpTsMuxer AudioSpecificConfig) (pid : Nat) (streamId : UInt8) (dts : Nat)
    (pts : Option Nat) (payload : List UInt8) :
    List (List UInt8) × RtmpTsMuxer AudioSpecificConfig :=
  let tables := if m.wroteTables then ([], m) else m.writeTables
  let m := { tables.2 with wroteTables := true }
  let pes := pesPacket streamId dts pts payload
  let written := writeTsPayload pid pes.length (if pid = videoPid then m.videoCc else m.audioCc)
    true pes
  (tables.1 ++ written.1,
    if pid = videoPid then { m with videoCc := written.2 } else { m with audioCc := written.2 })

/-- The access unit of a frame: a delimiter, on a keyframe the parameter sets, and the NAL units. -/
def accessUnit (media : RtmpMedia AudioSpecificConfig) (config : AvcConfig) (keyframe : Bool)
    (nalus : List UInt8) : List UInt8 :=
  [0x00, 0x00, 0x00, 0x01, 0x09, 0xf0] ++
    (if keyframe then config.sps.flatMap annexBNalu ++ config.pps.flatMap annexBNalu else []) ++
    (media.nalus nalus config.naluLengthSize).flatMap annexBNalu

/-- `saturating_add` of the composition time, where it is positive. -/
def ptsMs (timestampMs : UInt32) (compositionTime : Int) : UInt32 :=
  .ofNat (min (2 ^ 32 - 1) (timestampMs.toNat + compositionTime.toNat))

def pushVideo (media : RtmpMedia AudioSpecificConfig) (m : RtmpTsMuxer AudioSpecificConfig)
    (frame : H264Data) (timestampMs : UInt32) :
    List (List UInt8) × RtmpTsMuxer AudioSpecificConfig :=
  match frame with
  | .sequenceHeader config => ([], { m with videoConfig := some config })
  | .frame keyframe compositionTime nalus =>
    match m.videoConfig with
    | none => ([], m)
    | some config =>
      m.packetizePes videoPid videoStreamId (pts90 timestampMs)
        (some (pts90 (ptsMs timestampMs compositionTime))) (accessUnit media config keyframe nalus)
  | .endOfSequence => ([], m)

/-- An audio frame with its header. -/
def adtsFrame (media : RtmpMedia AudioSpecificConfig) (config : AudioSpecificConfig)
    (data : List UInt8) : List UInt8 := media.adtsHeader config data.length ++ data

def pushAudio (media : RtmpMedia AudioSpecificConfig) (m : RtmpTsMuxer AudioSpecificConfig)
    (frame : AacData AudioSpecificConfig) (timestampMs : UInt32) :
    List (List UInt8) × RtmpTsMuxer AudioSpecificConfig :=
  match frame with
  | .sequenceHeader config => ([], { m with audioConfig := some config })
  | .frame data =>
    match m.audioConfig with
    | none => ([], m)
    | some config =>
      m.packetizePes audioPid audioStreamId (pts90 timestampMs) none (adtsFrame media config data)

end RtmpTsMuxer

end Outpace.Engine

import Outpace.Data.Crc32
import Outpace.Data.Utf8
import Outpace.Media.TsPacket

/-!
# Video access points and service tables

`VideoAccessPointState` of `ace-media/src/mpegts.rs`: it learns the video PID of a stream from its
PAT and PMT, keeps the last of both, and says of a packet whether a decoder may start there, by the
random access indicator or by what the packet itself has of a PES packet. With a title it also makes
up a service description table.
-/

namespace Outpace.Media

/-! ### Access points -/

def tsRandomAccessIndicator (pkt : List UInt8) : Bool :=
  tsAfc pkt &&& 0b10 != 0 && decide (1 ≤ (byteAt pkt 4).toNat) && byteAt pkt 5 &&& 0x40 != 0

/-- A field of some length, and what follows it. -/
def takeField (n : Nat) (data : List UInt8) : Option (List UInt8 × List UInt8) :=
  if n ≤ data.length then some (data.take n, data.drop n) else none

/-- A timestamp field with its marker bits. -/
def timestamp (field : List UInt8) (tag : UInt8) : Bool :=
  byteAt field 0 >>> 4 == tag && byteAt field 0 &&& 1 == 1 && byteAt field 2 &&& 1 == 1 &&
    byteAt field 4 &&& 1 == 1

/-- Pass a field that has to satisfy a check. -/
def checkField (n : Nat) (ok : List UInt8 → Bool) (data : List UInt8) : Option (List UInt8) :=
  (takeField n data).bind fun (field, data) => if ok field then some data else none

/-- The second extension field of the optional header. -/
def extensionFieldValid (data : List UInt8) : Option (List UInt8) := do
  let (length, data) ← takeField 1 data
  if byteAt length 0 &&& 0x80 = 0 then none
  else do
    let (extra, data) ← takeField (byteAt length 0 &&& 0x7f).toNat data
    let (selector, extra) ← takeField 1 extra
    let selector := byteAt selector 0
    let extra ←
      if selector &&& 0x80 = 0 then some extra
      else if selector &&& 0x7e ≠ 0x7e then none
      else if selector &&& 1 = 0 then checkField 5 (timestamp · 0xf) extra
      else some extra
    if extra.all (· == 0xff) then some data else none

/-- The extension of the optional header. -/
def extensionValid (data : List UInt8) : Option (List UInt8) := do
  let (extension, data) ← takeField 1 data
  let extension := byteAt extension 0
  if extension &&& 0x0e ≠ 0x0e then none
  else do
    let data ← if extension &&& 0x80 ≠ 0 then checkField 16 (fun _ => true) data else some data
    let data ←
      if extension &&& 0x40 ≠ 0 then
        (takeField 1 data).bind fun (len, data) =>
          checkField (byteAt len 0).toNat (fun _ => true) data
      else some data
    let data ←
      if extension &&& 0x20 ≠ 0 then
        checkField 2 (fun f => byteAt f 0 &&& 0x80 != 0 && byteAt f 1 &&& 0x80 != 0) data
      else some data
    let data ←
      if extension &&& 0x10 ≠ 0 then checkField 2 (fun f => byteAt f 0 &&& 0xc0 == 0x40) data
      else some data
    if extension &&& 1 ≠ 0 then extensionFieldValid data else some data

/-- The envelope of the optional PES header: the fields that the flags announce, then stuffing. -/
def mpeg2PesOptionalHeaderValid (flags : UInt8) (data : List UInt8) : Bool :=
  Option.isSome <| do
    let data ←
      if flags >>> 6 = 0 then some data
      else if flags >>> 6 = 1 then none
      else if flags >>> 6 = 2 then checkField 5 (timestamp · 2) data
      else (checkField 5 (timestamp · 3) data).bind (checkField 5 (timestamp · 1))
    let data ←
      if flags &&& 0x20 ≠ 0 then
        checkField 6 (fun f => byteAt f 0 &&& 4 != 0 && byteAt f 2 &&& 4 != 0 &&
          byteAt f 4 &&& 4 != 0 && byteAt f 5 &&& 1 != 0) data
      else some data
    let data ←
      if flags &&& 0x10 ≠ 0 then
        checkField 3 (fun f => byteAt f 0 &&& 0x80 != 0 && byteAt f 2 &&& 1 != 0) data
      else some data
    let data ←
      if flags &&& 8 ≠ 0 then
        checkField 1 (fun f => decide (byteAt f 0 >>> 5 ≤ 4) &&
          (byteAt f 0 >>> 5 != 2 || byteAt f 0 &&& 7 == 7)) data
      else some data
    let data ← if flags &&& 4 ≠ 0 then checkField 1 (fun f => byteAt f 0 &&& 0x80 != 0) data
      else some data
    let data ← if flags &&& 2 ≠ 0 then checkField 2 (fun _ => true) data else some data
    let data ← if flags &&& 1 ≠ 0 then extensionValid data else some data
    if data.all (· == 0xff) then some () else none

/-- The elementary bytes behind a complete video PES header in the payload. -/
def videoPesElementaryPayload (payload : List UInt8) : Option (List UInt8) :=
  if payload.length < 9 ∨ payload.take 3 ≠ [0, 0, 1] ∨
      ¬(0xe0 ≤ byteAt payload 3 ∧ byteAt payload 3 ≤ 0xef) ∨
      byteAt payload 6 &&& 0xc0 ≠ 0x80 then none
  else
    let declaredLength := word payload 4
    let stop := if declaredLength = 0 then payload.length else min (6 + declaredLength) payload.length
    let start := 9 + (byteAt payload 8).toNat
    if stop < start ∨
        !mpeg2PesOptionalHeaderValid (byteAt payload 7) ((payload.take start).drop 9) then none
    else some ((payload.take stop).drop start)

/-- The first complete picture header says whether the picture is intra coded. -/
def mpeg2HasIPicture : List UInt8 → Bool
  | [] => false
  | b :: rest =>
    let elementary := b :: rest
    if elementary.take 4 = [0, 0, 1, 0] then
      decide (8 ≤ elementary.length) && (byteAt elementary 5 >>> 3) &&& 7 == 1
    else mpeg2HasIPicture rest

/-- A start code followed by a keyframe NAL of the codec. -/
def hasKeyframeNal (codec : VideoCodec) : List UInt8 → Bool
  | a :: b :: c :: d :: rest =>
    (a == 0 && b == 0 && c == 1 &&
      match codec with
      | .mpeg2 => false
      | .h264 => d &&& 0x1F == 5
      | .hevc => decide ((16 : UInt8) ≤ (d >>> 1) &&& 0x3F ∧ (d >>> 1) &&& 0x3F ≤ 21)) ||
      hasKeyframeNal codec (b :: c :: d :: rest)
  | _ => false

def payloadHasIrap (pkt : List UInt8) (codec : Option VideoCodec) : Bool :=
  match codec, tsPayloadOffset pkt with
  | some codec, some off =>
    match videoPesElementaryPayload (pkt.drop off) with
    | some elementary =>
      if codec = .mpeg2 then mpeg2HasIPicture elementary else hasKeyframeNal codec elementary
    | none => false
  | _, _ => false

def isRandomAccessPoint (pkt : List UInt8) (codec : Option VideoCodec) : Bool :=
  tsPusi pkt && (tsRandomAccessIndicator pkt || payloadHasIrap pkt codec)

/-! ### The service description table -/

/-- PID of the service description table. -/
def sdtPid : Nat := 0x0011

def sdtTableId : UInt8 := 0x42

def serviceDescriptorTag : UInt8 := 0x48

/-- `outpace`. -/
def serviceProviderName : List UInt8 := [0x6f, 0x75, 0x74, 0x70, 0x61, 0x63, 0x65]

/-- Longest service name with which the section fits one packet. -/
def maxServiceNameBytes : Nat := tsPacketLen - 4 - 1 - 25 - serviceProviderName.length

/-- The section up to its checksum. -/
def sdtSection (serviceId transportStreamId : Nat) (name : List UInt8) : List UInt8 :=
  let desc := [serviceDescriptorTag, .ofNat (3 + serviceProviderName.length + name.length), 0x01,
    .ofNat serviceProviderName.length] ++ serviceProviderName ++ [.ofNat name.length] ++ name
  let sectionLength := 8 + 5 + desc.length + 4
  [sdtTableId, 0xF0 ||| (.ofNat (sectionLength / 256) &&& 0x0F), .ofNat sectionLength,
    .ofNat (transportStreamId / 256), .ofNat transportStreamId, 0xC1, 0x00, 0x00, 0xFF, 0x01, 0xFF,
    .ofNat (serviceId / 256), .ofNat serviceId, 0xFC,
    0x80 ||| (.ofNat (desc.length / 256) &&& 0x0F), .ofNat desc.length] ++ desc

/-- A packet of the table with counter zero, padded with `0xFF`. -/
def buildSdtWithTransport (serviceId : Nat) (serviceName : List Char) (transportStreamId : Nat) :
    List UInt8 :=
  let body := sdtSection serviceId transportStreamId (encodeUtf8 serviceName)
  let sec := body ++ be32 (mpegCrc32 body)
  let used := [tsSync, 0x40 ||| (.ofNat (sdtPid / 256) &&& 0x1F), .ofNat sdtPid, 0x10, 0x00] ++ sec
  used ++ List.replicate (tsPacketLen - used.length) 0xFF

def buildSdt (serviceId : Nat) (serviceName : List Char) : List UInt8 :=
  buildSdtWithTransport serviceId serviceName 1

/-- A title as a service name: trimmed, without control characters, and cut to fit. -/
def sanitizeServiceName (raw : List Char) : Option (List Char) :=
  let stripped := trim ((trim raw).filter fun c => !isControl c)
  if stripped = [] then none else some (cutToBytes maxServiceNameBytes stripped)

/-! ### The state -/

structure VideoAccessPointState where
  allowMpeg2 : Bool
  preserveTransportIdentity : Bool
  pmtPid : Option Nat
  videoPid : Option Nat
  videoCodec : Option VideoCodec
  cachedPat : Option (List UInt8)
  cachedPmt : Option (List UInt8)
  serviceName : Option (List Char)
  programNumber : Option Nat
  deriving DecidableEq

namespace VideoAccessPointState

def new : VideoAccessPointState := ⟨false, false, none, none, none, none, none, none, none⟩

def withServiceName (raw : Option (List Char)) : VideoAccessPointState :=
  { new with serviceName := raw.bind sanitizeServiceName }

def hasServiceName (a : VideoAccessPointState) : Bool := a.serviceName.isSome

def reset (a : VideoAccessPointState) : VideoAccessPointState :=
  { new with
    serviceName := a.serviceName
    allowMpeg2 := a.allowMpeg2
    preserveTransportIdentity := a.preserveTransportIdentity }

/-- What a PAT says of the program; tables of another program are forgotten. -/
def learnPat (a : VideoAccessPointState) (pkt : List UInt8) (mapping : Option (Nat × Nat)) :
    VideoAccessPointState :=
  let program : Option Nat := mapping.map (·.1)
  let pmtPid : Option Nat := mapping.map (·.2)
  let known : VideoAccessPointState :=
    if a.pmtPid ≠ pmtPid ∨ a.programNumber ≠ program then
      { a with cachedPmt := none, videoPid := none, videoCodec := none }
    else a
  { known with cachedPat := some pkt, programNumber := program, pmtPid := pmtPid }

/-- The tables after a packet. -/
def learn (a : VideoAccessPointState) (pkt : List UInt8) : VideoAccessPointState :=
  let pid := tsPid pkt
  if pid = 0 then
    match parsePatFirstProgram pkt with
    | some mapping => a.learnPat pkt mapping
    | none => a
  else if some pid = a.pmtPid then
    match parsePmtVideo pkt a.programNumber a.allowMpeg2 with
    | some video =>
      { a with
        cachedPmt := some pkt
        videoPid := video.map (·.1)
        videoCodec := video.map (·.2) }
    | none => a
  else a

/-- Learn from a packet; the answer is whether it is an access point of the video stream. -/
def observe (a : VideoAccessPointState) (pkt : List UInt8) : Bool × VideoAccessPointState :=
  if pkt.length ≠ tsPacketLen ∨ byteAt pkt 0 ≠ 0x47 then (false, a)
  else
    let a := a.learn pkt
    (decide (some (tsPid pkt) = a.videoPid) && isRandomAccessPoint pkt a.videoCodec, a)

/-- The service table for the program, with the transport identity of the cached PAT if that is to
be kept. -/
def sdt (a : VideoAccessPointState) (name : List Char) (program : Nat) (pat : List UInt8) :
    Option (List UInt8) :=
  if a.preserveTransportIdentity then do
    let start ← psiSectionStart pat
    if start + 5 ≤ pat.length then
      some (buildSdtWithTransport program name (word pat (start + 3)))
    else none
  else some (buildSdt program name)

/-- `table_prefix`: the cached tables and the service table, one packet each. -/
def tables (a : VideoAccessPointState) : Option (List (List UInt8)) :=
  match a.cachedPat, a.cachedPmt with
  | some pat, some pmt =>
    match a.serviceName, a.programNumber with
    | some name, some program => (a.sdt name program pat).map fun sdt => [pat, pmt, sdt]
    | _, _ => some [pat, pmt]
  | _, _ => none

end VideoAccessPointState

/-! ### PIDs and lengths -/

theorem and_lt_32 (b : UInt8) : (b &&& 0x1F).toNat < 32 := by
  rw [UInt8.toNat_and]
  exact Nat.lt_of_le_of_lt Nat.and_le_right (by decide)

theorem tsPid_lt (pkt : List UInt8) : tsPid pkt < 8192 := by
  have := and_lt_32 (byteAt pkt 1)
  have := (byteAt pkt 2).toNat_lt
  unfold tsPid
  omega

theorem pidAt_lt (pkt : List UInt8) (i : Nat) : pidAt pkt i < 8192 := by
  have := and_lt_32 (byteAt pkt i)
  have := (byteAt pkt (i + 1)).toNat_lt
  unfold pidAt
  omega

theorem scanStreams_lt {pkt : List UInt8} {stop fuel pos : Nat} {allowMpeg2 : Bool}
    {video : Option (Nat × VideoCodec)} (h : ∀ v ∈ video, v.1 < 8192) :
    ∀ v ∈ (scanStreams pkt stop allowMpeg2 fuel pos video).1, v.1 < 8192 := by
  induction fuel generalizing pos video with
  | zero => exact h
  | succ fuel ih =>
    unfold scanStreams
    split
    · refine ih fun v hv => ?_
      split at hv
      · obtain ⟨codec, -, rfl⟩ := Option.map_eq_some_iff.mp hv
        exact pidAt_lt ..
      · exact h v hv
    · exact h

theorem parsePmtVideo_lt {pkt : List UInt8} {program : Option Nat} {allowMpeg2 : Bool}
    {video : Option (Nat × VideoCodec)} (h : parsePmtVideo pkt program allowMpeg2 = some video) :
    ∀ v ∈ video, v.1 < 8192 := by
  unfold parsePmtVideo at h
  obtain ⟨⟨sec, stop⟩, -, h⟩ := Option.bind_eq_some_iff.mp h
  dsimp only at h
  split at h
  · cases h
  · split at h
    · cases h
      exact scanStreams_lt fun v hv => by cases hv
    · cases h

theorem tsPid_buildSdt (program : Nat) (name : List Char) :
    tsPid (buildSdt program name) = sdtPid := by
  simp only [tsPid, byteAt, buildSdt, buildSdtWithTransport, List.cons_append,
    List.getD_cons_succ, List.getD_cons_zero]
  rfl

/-- A service name that fits makes a whole packet. -/
theorem length_buildSdt {name : List Char} (h : (encodeUtf8 name).length ≤ maxServiceNameBytes)
    (program : Nat) : (buildSdt program name).length = tsPacketLen := by
  have h : (encodeUtf8 name).length ≤ 151 := h
  simp only [buildSdt, buildSdtWithTransport, sdtSection, serviceProviderName, be32, tsPacketLen,
    List.length_append, List.length_cons, List.length_nil, List.length_replicate]
  omega

theorem sanitizeServiceName_le {raw name : List Char} (h : sanitizeServiceName raw = some name) :
    (encodeUtf8 name).length ≤ maxServiceNameBytes := by
  unfold sanitizeServiceName at h
  dsimp only at h
  split at h
  · cases h
  · cases h
    exact length_encodeUtf8_cutToBytes ..

end Outpace.Media

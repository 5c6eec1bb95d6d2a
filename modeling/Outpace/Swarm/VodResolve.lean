import Outpace.Swarm.Vod.Piece
import Outpace.Wire.Transport

/-!
# Resolving a video on demand

`vod_info_from_transport` of `ace-swarm/src/resolve.rs` and the disk envelope of
`ace-wire/src/disk_envelope.rs`. Three decoders feed one structure: bare metainfo, metainfo in a disk
envelope, and the wrapped transport descriptor. Trackers are left out.
-/

namespace Outpace.Wire.DiskEnvelope

def diskMarker : Bytes := [0x01, 0x02, 0x03, 0x04, 0x11, 0x02, 0x65, 0x2e]
def maxDiskBytes : Nat := 1048576

def diskKey : AesBlock :=
  #v[0x82, 0x4e, 0x0b, 0xc1, 0x14, 0xf5, 0x8c, 0xdb, 0x5a, 0x49, 0xa0, 0xc0, 0xf1, 0x42, 0xb4, 0x24]

def diskIv : AesBlock := Vector.replicate 16 0

def isDiskEnvelope (bytes : Bytes) : Bool := diskMarker.isPrefixOf bytes

def decodeDiskMetainfo (c : AesCbc) (bytes : Bytes) : Except WireError Metainfo :=
  if maxDiskBytes < bytes.length then .error (.invalid "disk envelope too large")
  else if isDiskEnvelope bytes = false then .error (.invalid "not a disk envelope")
  else if bytes.length < diskMarker.length + 16 then .error .truncated
  else
    let body := bytes.drop diskMarker.length
    if body.length % 16 ≠ 0 then .error (.invalid "bad disk envelope body length")
    else match c.decryptPadded diskKey diskIv body with
      | none => .error (.invalid "disk aes/pad")
      | some plaintext => Metainfo.decodeMetainfo plaintext

theorem decodeDiskMetainfo_ok {c : AesCbc} {bytes : Bytes} {m : Metainfo}
    (h : decodeDiskMetainfo c bytes = .ok m) :
    ∃ plaintext, Metainfo.decodeMetainfo plaintext = .ok m := by
  unfold decodeDiskMetainfo at h
  dsimp only at h
  repeat' split at h
  all_goals first | cases h | exact ⟨_, h⟩

end Outpace.Wire.DiskEnvelope

namespace Outpace.Wire.TransportDescriptor

def protection (d : TransportDescriptor) : Except WireError Protection :=
  Protection.classify (d.raw.get premiumKey)

/-- The root key `length` of a single file. -/
def vodTotalLength (d : TransportDescriptor) : Option Nat :=
  (((d.raw.get Metainfo.lengthKey).bind (·.asInt)).filter (0 < ·.toInt)).map (·.toInt.toNat)

def isMultifile (d : TransportDescriptor) : Bool :=
  match d.raw.get Metainfo.filesKey with
  | some (.list _) => true
  | _ => false

end Outpace.Wire.TransportDescriptor

namespace Outpace.Swarm
open Wire

/-- The errors of resolving given bytes. -/
inductive ResolveError where
  | invalidProtection
  | transport (what : String)
  deriving DecidableEq

inductive HandshakeProtocol where
  | aceStream
  | bitTorrent
  deriving DecidableEq

/-- `VodInfo`: the geometry that a download reads, and the rest. -/
structure ResolvedVod extends Vod.VodInfo where
  protection : Option Protection
  infohash : Vector UInt8 20
  peerProtocol : HandshakeProtocol

namespace Resolve

def defaultChunkLength : Nat := 16384
def maxPieceLength : Nat := 8 * 1048576

def protectionWireError : WireError → ResolveError
  | .invalidProtection => .invalidProtection
  | _ => .transport "decode failed"

def metainfoError : WireError → ResolveError
  | .invalidProtection => .invalidProtection
  | _ => .transport "invalid single-file metainfo"

def validateGeometry (pieceLength chunkLength : Nat) : Except ResolveError Unit :=
  if chunkLength ≠ defaultChunkLength then .error (.transport "unexpected chunk_length")
  else if maxPieceLength < pieceLength then .error (.transport "piece_length too large")
  else if pieceLength % chunkLength ≠ 0 then
    .error (.transport "piece_length not a multiple of chunk_length")
  else if 65535 < pieceLength / chunkLength then .error (.transport "too many chunks per piece")
  else .ok ()

def hashList (hashes : List (Vector UInt8 20)) : List Bytes := hashes.map Vector.toList

/-- What becomes of metainfo, bare or from an envelope. -/
def vodOfMetainfo (m : Metainfo) : Except ResolveError ResolvedVod := do
  validateGeometry m.pieceLength defaultChunkLength
  return {
    pieceLength := m.pieceLength
    chunkLength := defaultChunkLength
    totalLength := m.totalLength
    pieceHashes := hashList m.pieceHashes
    protection := some m.protection
    infohash := m.infohash
    peerProtocol := .bitTorrent }

/-- What becomes of a wrapped descriptor. -/
def vodOfTransport (d : TransportDescriptor) : Except ResolveError ResolvedVod := do
  let protection ← d.protection.mapError protectionWireError
  if d.isLive then throw (.transport "not a VOD transport (no pieces)")
  if d.isMultifile then throw (.transport "multi-file VOD is not supported")
  validateGeometry d.pieceLength d.chunkLength
  let some totalLength := d.vodTotalLength | throw (.transport "VOD descriptor missing length")
  let infohash ← (Transport.infohashOfDecodedTransport d).mapError
    fun _ => .transport "infohash failed"
  return {
    pieceLength := d.pieceLength
    chunkLength := d.chunkLength
    totalLength
    pieceHashes := hashList d.pieces
    protection := some protection
    infohash
    peerProtocol := .aceStream }

def vodInfoFromTransport (c : AesCbc) (bytes : Bytes) : Except ResolveError ResolvedVod :=
  if Transport.isTransportFile bytes then
    match Transport.decodeTransport c bytes with
    | .error e => .error (protectionWireError e)
    | .ok d => vodOfTransport d
  else
    -- a recognized envelope is terminal
    match if DiskEnvelope.isDiskEnvelope bytes then DiskEnvelope.decodeDiskMetainfo c bytes
      else Metainfo.decodeMetainfo bytes with
    | .error e => .error (metainfoError e)
    | .ok m => vodOfMetainfo m

/-! ### What is accepted -/

variable {r : ResolvedVod}

theorem vodOfMetainfo_ok {m : Metainfo} (h : vodOfMetainfo m = .ok r) :
    validateGeometry r.pieceLength r.chunkLength = .ok () ∧ r.pieceLength = m.pieceLength ∧
      r.totalLength = m.totalLength ∧ r.pieceCount = m.pieceHashes.length := by
  simp only [vodOfMetainfo, bind, Except.bind, pure, Except.pure] at h
  split at h
  · cases h
  · next hgeometry =>
    cases h
    exact ⟨hgeometry, rfl, rfl, List.length_map ..⟩

theorem vodOfTransport_ok {d : TransportDescriptor} (h : vodOfTransport d = .ok r) :
    validateGeometry r.pieceLength r.chunkLength = .ok () ∧ r.pieceLength = d.pieceLength ∧
      d.vodTotalLength = some r.totalLength ∧ r.pieceCount = d.pieces.length := by
  simp only [vodOfTransport, bind, Except.bind, pure, Except.pure, throw, throwThe,
    MonadExceptOf.throw] at h
  split at h
  · cases h
  split at h
  · cases h
  split at h
  · cases h
  split at h
  · cases h
  next hgeometry =>
  split at h
  · next total htotal =>
    split at h
    · cases h
    · cases h
      exact ⟨hgeometry, rfl, htotal, List.length_map ..⟩
  · cases h

/-- Accepted bytes are a transport file or some metainfo. -/
theorem vodInfoFromTransport_ok {c : AesCbc} {bytes : Bytes}
    (h : vodInfoFromTransport c bytes = .ok r) :
    (Transport.isTransportFile bytes = false ∧
      ∃ source m, Metainfo.decodeMetainfo source = .ok m ∧ vodOfMetainfo m = .ok r) ∨
    (Transport.isTransportFile bytes = true ∧
      ∃ d, Transport.decodeTransport c bytes = .ok d ∧ vodOfTransport d = .ok r) := by
  unfold vodInfoFromTransport at h
  split at h
  · next htransport =>
    split at h
    · cases h
    · next d hd => exact .inr ⟨htransport, d, hd, h⟩
  · next htransport =>
    refine .inl ⟨by simpa using htransport, ?_⟩
    split at h
    · cases h
    · next m hm =>
      split at hm
      · obtain ⟨plaintext, hplain⟩ := DiskEnvelope.decodeDiskMetainfo_ok hm
        exact ⟨plaintext, m, hplain, h⟩
      · exact ⟨bytes, m, hm, h⟩

theorem vodTotalLength_eq_some {d : TransportDescriptor} {n : Nat}
    (h : d.vodTotalLength = some n) : 0 < n ∧ n < 2 ^ 63 := by
  obtain ⟨i, hi, rfl⟩ := Option.map_eq_some_iff.mp h
  have hpos : 0 < i.toInt := by simpa using (Option.filter_eq_some_iff.mp hi).2
  have hlt := i.toInt_lt
  omega

theorem pieceLength_pos {c : AesCbc} {bytes : Bytes} {d : TransportDescriptor}
    (h : Transport.decodeTransport c bytes = .ok d) : 0 < d.pieceLength := by
  unfold Transport.decodeTransport Transport.decodeTransportWithKey at h
  dsimp only at h
  repeat' split at h
  all_goals try cases h
  simp only [Transport.describe, bind, Except.bind, pure, Except.pure] at h
  split at h
  · cases h
  next n hn =>
  split at h
  · cases h
  cases h
  unfold Transport.requiredPositive at hn
  split at hn
  · split at hn
    · cases hn
      show 0 < Int.toNat _
      omega
    · cases hn
  · cases hn

end Resolve

end Outpace.Swarm

import Outpace.Engine.RtmpRuns
import Outpace.Media.AudioRewrite
import Outpace.Media.ServiceTable

/-!
# The tables that the program builds

A PAT and a PMT in front of a broadcast, the PMT of an audio selection and the service table: each
is written with its checksum and passes the check that a reader makes of it.
-/

namespace Outpace.Engine
open Media

theorem mpegCrc32_xor {d e : List UInt8} (h : d.length = e.length) :
    mpegCrc32 d ^^^ mpegCrc32 e = (List.zipWith (· ^^^ ·) d e).foldl crcByte 0 := by
  rw [mpegCrc32, mpegCrc32, ← foldl_crcByte_xor h, UInt32.xor_self]

/-- The section of a service table, as its length field gives it. -/
theorem section_buildSdt {n : List Char} (h : (encodeUtf8 n).length ≤ maxServiceNameBytes)
    (serviceId transportStreamId : Nat) :
    let packet := buildSdtWithTransport serviceId n transportStreamId
    let body := sdtSection serviceId transportStreamId (encodeUtf8 n)
    (packet.drop 5).take (3 + lengthAt packet 6) = body ++ be32 (mpegCrc32 body) := by
  intro packet body
  have hmax : maxServiceNameBytes = 151 := rfl
  have hbody : body.length = 28 + (encodeUtf8 n).length := length_sdtSection ..
  obtain ⟨tail, heq⟩ := buildSdtWithTransport_eq serviceId n transportStreamId
  have hlength : lengthAt packet 6 = 29 + (encodeUtf8 n).length := by
    have h₆ : byteAt packet 6 =
        0xF0 ||| (.ofNat ((29 + (encodeUtf8 n).length) / 256) &&& 0x0F) := by
      show byteAt (buildSdtWithTransport ..) 6 = _
      rw [heq]
      rfl
    have h₇ : byteAt packet 7 = .ofNat (29 + (encodeUtf8 n).length) := by
      show byteAt (buildSdtWithTransport ..) 7 = _
      rw [heq]
      rfl
    have hzero : (29 + (encodeUtf8 n).length) / 256 = 0 := by omega
    have hlow : ((0xF0 ||| (UInt8.ofNat 0 &&& 0x0F)) &&& 0x0F : UInt8).toNat = 0 := rfl
    rw [lengthAt, h₆, h₇, hzero, hlow, UInt8.toNat_ofNat']
    omega
  have hpacket : packet.drop 5 = (body ++ be32 (mpegCrc32 body)) ++
      List.replicate (tsPacketLen - (5 + (body ++ be32 (mpegCrc32 body)).length)) 0xFF := by
    show (buildSdtWithTransport ..).drop 5 = _
    rw [buildSdtWithTransport, List.append_assoc]
    simp only [List.length_append, List.length_cons, List.length_nil]
    rfl
  rw [hlength, hpacket, List.take_left']
  rw [List.length_append, hbody, length_be32]
  omega

/-- The checksum is self-checking and linear, and sees every change of one byte. So every table that
the program builds passes the check of its section: the PAT and the PMT of a broadcast, the PMT of
an audio selection under any version, and the service table of any name that fits. And a packet
with an accepted section is rejected after any change of a byte of the section. -/
theorem section_checksum_detects :
    (∀ d, mpegCrc32 (d ++ be32 (mpegCrc32 d)) = 0) ∧
    (∀ (d : List UInt8) i b, i < d.length → b ≠ byteAt d i →
      mpegCrc32 (d.set i b) ≠ mpegCrc32 d) ∧
    (∀ d e : List UInt8, d.length = e.length →
      mpegCrc32 d ^^^ mpegCrc32 e = (List.zipWith (· ^^^ ·) d e).foldl crcByte 0) ∧
    psiSection patPacket 0x00 9 none = .ok (patSection.drop 1) ∧
    psiSection pmtPacket 0x02 13 (some 1) = .ok (pmtSection.drop 1) ∧
    (∀ packet program s p (version : UInt8), packet.length = tsPacketLen →
      psiSection packet 2 13 program = .ok s → parsePmt s program = .ok p → version.toNat < 32 →
      psiSection (sectionPacket packet (versioned p.effective version)) 2 13 program =
        .ok (versioned p.effective version)) ∧
    (∀ serviceId name transportStreamId, (encodeUtf8 name).length ≤ maxServiceNameBytes →
      let packet := buildSdtWithTransport serviceId name transportStreamId
      mpegCrc32 ((packet.drop 5).take (3 + lengthAt packet 6)) = 0) ∧
    ∀ packet id min program s off i b, packet.length = tsPacketLen → 0 < min →
      psiSection packet id min program = .ok s → payload packet = some off → off < i →
      i < off + 1 + s.length → b ≠ byteAt packet i →
      ∀ s', psiSection (packet.set i b) id min program ≠ .ok s' := by
  refine ⟨mpegCrc32_append_be32, fun d i b hi hb => mpegCrc32_set_ne hi hb,
    fun d e => mpegCrc32_xor, psiSection_patPacket, psiSection_pmtPacket,
    fun packet program s p v hlen hs hp hv => ?_,
    fun serviceId n transportStreamId h => ?_,
    fun packet id min program s off i b hlen hmin h hoff hi hs hb =>
      psiSection_set hlen hmin h hoff hi hs hb⟩
  · have hread : ReadPmt packet program s p :=
      ⟨hlen, psiSection_eq_ok.mp hs, parsePmt_eq_ok.mp hp⟩
    exact psiSection_eq_ok.mpr ⟨4, hread.isSection_rewritten hv⟩
  · intro packet
    rw [section_buildSdt h, mpegCrc32_append_be32]

end Outpace.Engine

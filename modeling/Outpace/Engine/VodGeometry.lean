import Outpace.Engine.VodRange
import Outpace.Swarm.VodResolve
import Outpace.Wire.MetainfoSpan
import Outpace.Wire.TransportIdentity

/-!
# The geometry of accepted descriptors

Metainfo, bare or in a disk envelope, is refused unless it has a hash for every piece. A wrapped
transport descriptor is not: its `length` and its `pieces` are read independently of each other.
Everything downstream relies on their relation; where it holds, the pieces add up to the content and
a completed download delivers the range that `open_range` announces.
-/

namespace Outpace.Engine
open Swarm Swarm.Vod
open Wire (AesCbc)

/-! ### Sizes -/

/-- Piece starts stay below the total length. -/
def Starts (info : VodInfo) : Prop :=
  info.totalLength < 2 ^ 63 ∧ ∀ piece < info.pieceCount, piece * info.pieceLength < info.totalLength

variable {info : VodInfo}

theorem pieceSize_of_starts (h : Starts info) {piece : Nat} (hp : piece < info.pieceCount) :
    info.pieceSize piece = min (info.totalLength - piece * info.pieceLength) info.pieceLength := by
  have hlt := h.2 piece hp
  have htotal := h.1
  rw [VodInfo.pieceSize, Nat.mod_eq_of_lt (by omega)]

/-- The sizes of successive pieces add up. -/
theorem sum_pieceSize (h : Starts info) {first n : Nat} (hn : first + n ≤ info.pieceCount) :
    ((List.range' first n).map info.pieceSize).sum =
      min info.totalLength ((first + n) * info.pieceLength) -
        min info.totalLength (first * info.pieceLength) := by
  induction n with
  | zero => simp
  | succ n ih =>
    have hlt := h.2 (first + n) (by omega)
    have hmono := Nat.mul_le_mul_right info.pieceLength (Nat.le_add_right first n)
    rw [List.range'_concat, List.map_append, List.sum_append, ih (by omega), Nat.one_mul,
      List.map_singleton, List.sum_singleton, pieceSize_of_starts h (by omega),
      ← Nat.add_assoc, Nat.succ_mul]
    omega

/-! ### What a completed download delivers -/

/-- A download of the covering pieces of any range, from any peers and on any schedule, that ends
with success delivers as many bytes as the source announces. -/
def Delivers (info : VodInfo) : Prop :=
  ∀ sha1 permits (peers : List Nat) concurrency start stop actions, start ≤ stop →
    stop < info.totalLength →
    let d := Download.new sha1 info permits peers (start / info.pieceLength)
      (stop / info.pieceLength + 1) concurrency
    let s := run (Sys.step d) (Sys.start d) actions
    let source := VodSource.openRange info start stop s.sent true
    s.pc = .done (.ok ()) → ∀ n ≥ s.sent.length, (source.collect n).length = source.emitLen

theorem length_sent {d : Download} {s : Sys} {log : List Completion} (H : s.Inv d log) :
    s.sent.flatten.length = ((List.range' d.first s.sent.length).map d.info.pieceSize).sum := by
  rw [List.length_flatten]
  congr 1
  refine List.ext_getElem (by simp) fun i hi _ => ?_
  rw [List.length_map] at hi
  obtain ⟨-, hsourced⟩ := H.books.sent i s.sent[i] (List.getElem?_eq_getElem hi)
  simpa using hsourced.verified.length

theorem delivers_of_count (hpos : 0 < info.pieceLength) (h : Starts info)
    (hcount : info.pieceCount = Wire.Metainfo.divCeil info.totalLength info.pieceLength) :
    Delivers info := by
  intro sha1 permits peers concurrency start stop actions hle hstop d s source hdone n hn
  have H : s.Inv d _ := Sys.inv_run d actions
  have hstage := H.books.stage
  rw [hdone] at hstage
  have hend : stop / info.pieceLength + 1 ≤ info.pieceCount := by
    rw [hcount, Wire.Metainfo.divCeil]
    refine (Nat.le_div_iff_mul_le hpos).mpr ?_
    have := Nat.div_mul_le_self stop info.pieceLength
    rw [Nat.succ_mul]
    omega
  have hfirst : start / info.pieceLength ≤ stop / info.pieceLength := Nat.div_le_div_right hle
  have hsent : s.sent.length = stop / info.pieceLength + 1 - start / info.pieceLength := by
    have hstage : s.sent.length = min (stop / info.pieceLength + 1) info.pieceCount -
      start / info.pieceLength := hstage
    omega
  have hbytes : s.sent.flatten.length =
      ((List.range' (start / info.pieceLength) s.sent.length).map info.pieceSize).sum :=
    length_sent H
  have hlow := Nat.div_mul_le_self start info.pieceLength
  have hhigh := Nat.lt_div_mul_add hpos (a := stop)
  have hadd : start / info.pieceLength + s.sent.length = stop / info.pieceLength + 1 := by omega
  rw [sum_pieceSize h (by omega), hadd, Nat.succ_mul] at hbytes
  rw [VodSource.collect_eq_rest hn, VodSource.rest, List.length_take, List.length_drop]
  show min (stop - start + 1)
    (s.sent.flatten.length - (start - start / info.pieceLength * info.pieceLength)) = stop - start + 1
  omega

/-! ### Accepted descriptors -/

/-- The geometry of a content is consistent. -/
structure Consistent (info : VodInfo) : Prop where
  pos : 0 < info.pieceLength
  count : info.pieceCount = Wire.Metainfo.divCeil info.totalLength info.pieceLength
  hashed : ∀ offset < info.totalLength, offset / info.pieceLength < info.pieceCount
  starts : Starts info
  sizes : ((List.range info.pieceCount).map info.pieceSize).sum = info.totalLength
  delivers : Delivers info

theorem Consistent.of_count (hpos : 0 < info.pieceLength) (htotal : 0 < info.totalLength)
    (hbounded : info.totalLength < 2 ^ 63)
    (hcount : info.pieceCount = Wire.Metainfo.divCeil info.totalLength info.pieceLength) :
    Consistent info := by
  obtain ⟨hone, hlast, hall, -⟩ := Wire.Metainfo.divCeil_bounds htotal hpos
  rw [← hcount] at hone hlast hall
  have hstarts : Starts info := by
    refine ⟨hbounded, fun piece hp => Nat.lt_of_le_of_lt ?_ hlast⟩
    exact Nat.mul_le_mul_right _ (Nat.le_sub_one_of_lt hp)
  refine ⟨hpos, hcount, fun offset hoffset => ?_, hstarts, ?_, delivers_of_count hpos hstarts hcount⟩
  · rw [Nat.div_lt_iff_lt_mul hpos]
    omega
  · have hsum := sum_pieceSize hstarts (Nat.le_of_eq (Nat.zero_add info.pieceCount))
    rw [← List.range_eq_range', Nat.zero_add, Nat.zero_mul] at hsum
    omega

/-- An accepted descriptor has consistent geometry exactly if it is metainfo, or a wrapped
descriptor that has as many hashes as its `length` has pieces. -/
theorem accepted_geometry_consistent (c : AesCbc) (bytes : Bytes) (r : ResolvedVod)
    (h : Resolve.vodInfoFromTransport c bytes = .ok r) :
    Consistent r.toVodInfo ↔
      ∀ d total, Wire.Transport.isTransportFile bytes = true →
        Wire.Transport.decodeTransport c bytes = .ok d → d.vodTotalLength = some total →
        d.pieces.length = Wire.Metainfo.divCeil total d.pieceLength := by
  rcases Resolve.vodInfoFromTransport_ok h with
    ⟨hkind, source, m, hm, hr⟩ | ⟨hkind, d, hd, hr⟩
  · obtain ⟨-, hpiece, htotal, hcount⟩ := Resolve.vodOfMetainfo_ok hr
    obtain ⟨D⟩ := Wire.Metainfo.decodeMetainfo_ok hm
    obtain ⟨htotal', hbounded⟩ := Wire.Metainfo.positive_ok D.total
    obtain ⟨hpos, -⟩ := Wire.Metainfo.positive_ok D.piece
    refine ⟨fun _ d total hfile => ?_, fun _ => ?_⟩
    · rw [hkind] at hfile
      cases hfile
    · refine .of_count (hpiece ▸ hpos) (htotal ▸ htotal') (htotal ▸ hbounded) ?_
      rw [hcount, D.hashes, Wire.Metainfo.length_splitHashes, D.count, hpiece, htotal]
  · obtain ⟨-, hpiece, htotal, hcount⟩ := Resolve.vodOfTransport_ok hr
    obtain ⟨htotal', hbounded⟩ := Resolve.vodTotalLength_eq_some htotal
    have hpos := Resolve.pieceLength_pos hd
    constructor
    · intro C d' total _ hd' htotal''
      cases hd.symm.trans hd'
      cases htotal.symm.trans htotal''
      rw [← hcount, C.count, hpiece]
    · intro hlen
      refine .of_count (hpiece ▸ hpos) htotal' hbounded ?_
      rw [hcount, hlen d _ hkind hd htotal, hpiece]

theorem accepted_geometry_consistent_sample :
    ∃ r, Resolve.vodInfoFromTransport Wire.Transport.sampleCipher Wire.Metainfo.sampleFile = .ok r ∧
      r.totalLength = 5 ∧ Consistent r.toVodInfo := by
  have hdecode : Wire.Metainfo.decodeMetainfo Wire.Metainfo.sampleFile =
      .ok Wire.Metainfo.sampleMetainfo := by decide +kernel
  have hkind : Wire.Transport.isTransportFile Wire.Metainfo.sampleFile = false := by decide +kernel
  have hdisk : Wire.DiskEnvelope.isDiskEnvelope Wire.Metainfo.sampleFile = false := by
    decide +kernel
  have hresolve : Resolve.vodInfoFromTransport Wire.Transport.sampleCipher
      Wire.Metainfo.sampleFile = Resolve.vodOfMetainfo Wire.Metainfo.sampleMetainfo := by
    simp [Resolve.vodInfoFromTransport, hkind, hdisk, hdecode]
  refine ⟨_, hresolve, rfl, (accepted_geometry_consistent _ _ _ hresolve).mpr ?_⟩
  intro d total hfile
  rw [hkind] at hfile
  cases hfile

/-! ### A descriptor with too few hashes -/

/-- A wrapped descriptor of 100000 bytes in pieces of 16384 with a single hash. -/
def shortDescriptor : Wire.Bencode := .dict
  [(Wire.Transport.authmethodKey, .bytes [82, 83, 65]), (Wire.Transport.bitrateKey, .int 1),
    (Wire.Transport.chunkLengthKey, .int 16384), (Wire.Metainfo.lengthKey, .int 100000),
    (Wire.Transport.nameKey, .bytes [97]), (Wire.Transport.pieceLengthKey, .int 16384),
    (Wire.piecesKey, .bytes (List.replicate 20 112)),
    (Wire.Transport.pubkeyKey, .bytes [107])]

/-- The AES-128-CBC result for it under the transport key. -/
def shortCipher : AesCbc := Wire.Transport.tableCipher [
  (shortDescriptor.encode,
    Wire.Transport.sampleHead.take 48 ++ [99, 181, 201, 168, 71, 255, 151, 244, 150, 103, 15,
    215, 7, 237, 52, 38, 42, 193, 18, 244, 118, 145, 133, 186, 113, 140, 131, 20, 240, 232, 109,
    4, 178, 18, 75, 177, 101, 166, 49, 139, 12, 246, 117, 182, 198, 226, 216, 54, 88, 118, 249,
    22, 54, 24, 113, 147, 171, 58, 77, 253, 34, 63, 159, 79, 218, 146, 251, 166, 39, 168, 210, 2,
    105, 76, 46, 105, 163, 165, 195, 116, 37, 227, 117, 102, 84, 104, 103, 53, 88, 45, 113, 86,
    82, 72, 170, 76])]

theorem shortCipher_lawful : shortCipher.Lawful :=
  Wire.Transport.tableCipher_lawful (by decide +kernel) (by decide +kernel) (by decide +kernel)

/-- The descriptor is accepted with one hash where its length has seven pieces, and the download of
a range behind the first piece succeeds at once with nothing, from whatever peers. -/
theorem wrapped_geometry_inconsistent :
    shortCipher.Lawful ∧ ∃ r, Resolve.vodInfoFromTransport shortCipher
        (Wire.Transport.encodeTransport shortCipher shortDescriptor) = .ok r ∧
      r.pieceCount = 1 ∧ Wire.Metainfo.divCeil r.totalLength r.pieceLength = 7 ∧
      60000 < r.totalLength ∧ ∀ sha1 permits (peers : List Nat) concurrency,
        let d := Download.new sha1 r.toVodInfo permits peers (50000 / r.pieceLength)
          (60000 / r.pieceLength + 1) concurrency
        (Sys.start d).pc = .done (.ok ()) ∧ (Sys.start d).sent = [] ∧
          (VodSource.openRange r.toVodInfo 50000 60000 [] true).emitLen = 10001 := by
  refine ⟨shortCipher_lawful, ?_⟩
  have haccepted : (Resolve.vodInfoFromTransport shortCipher
      (Wire.Transport.encodeTransport shortCipher shortDescriptor)).map
        (fun r => (r.pieceLength, r.totalLength, r.pieceCount)) = .ok (16384, 100000, 1) := by
    decide +kernel
  cases hresolve : Resolve.vodInfoFromTransport shortCipher
      (Wire.Transport.encodeTransport shortCipher shortDescriptor) with
  | error e =>
    rw [hresolve] at haccepted
    cases haccepted
  | ok r =>
    rw [hresolve] at haccepted
    have hfields : (r.pieceLength, r.totalLength, r.pieceCount) = (16384, 100000, 1) := by
      simpa [Except.map] using haccepted
    obtain ⟨hpiece, hrest⟩ := Prod.mk.inj hfields
    obtain ⟨htotal, hcount⟩ := Prod.mk.inj hrest
    refine ⟨r, rfl, hcount, ?_, ?_, fun sha1 permits peers concurrency => ⟨?_, rfl, rfl⟩⟩
    · rw [htotal, hpiece]
      rfl
    · omega
    · have hempty : min (60000 / r.pieceLength + 1) r.pieceCount ≤ 50000 / r.pieceLength := by
        rw [hpiece, hcount]
        decide
      exact if_pos hempty

end Outpace.Engine

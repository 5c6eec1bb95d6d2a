import Outpace.Media.TsResync

/-!
# Transport stream packets

The header fields of a 188-byte packet, and the start of the table section in it, as
`ace-media/src/mpegts.rs` reads them. A packet is a list of 188 bytes; PIDs and table fields are
naturals.
-/

namespace Outpace.Media

/-- The byte at an index that the packet has. -/
def byteAt (pkt : List UInt8) (i : Nat) : UInt8 := pkt.getD i 0

/-- PID (13-bit) of a packet. -/
def tsPid (pkt : List UInt8) : Nat := (byteAt pkt 1 &&& 0x1F).toNat * 256 + (byteAt pkt 2).toNat

/-- The payload unit start indicator. -/
def tsPusi (pkt : List UInt8) : Bool := byteAt pkt 1 &&& 0x40 != 0

/-- The adaptation field control bits. -/
def tsAfc (pkt : List UInt8) : UInt8 := (byteAt pkt 3 >>> 4) &&& 0x03

/-- Offset of the payload, if there is one. -/
def tsPayloadOffset (pkt : List UInt8) : Option Nat :=
  let start :=
    if tsAfc pkt = 1 then some 4
    else if tsAfc pkt = 3 then some (5 + (byteAt pkt 4).toNat)
    else none
  start.filter fun start => decide (start < tsPacketLen)

/-- Start of the section in a table packet, behind the pointer field. -/
def psiSectionStart (pkt : List UInt8) : Option Nat := do
  let po ← tsPayloadOffset pkt
  let pointer ← pkt[po]?
  let sec := po + 1 + pointer.toNat
  if sec < tsPacketLen then some sec else none

/-- Two bytes as a number. -/
def word (pkt : List UInt8) (i : Nat) : Nat := (byteAt pkt i).toNat * 256 + (byteAt pkt (i + 1)).toNat

/-- The low 13 bits of two bytes. -/
def pidAt (pkt : List UInt8) (i : Nat) : Nat :=
  (byteAt pkt i &&& 0x1F).toNat * 256 + (byteAt pkt (i + 1)).toNat

/-- The low 12 bits of two bytes. -/
def lengthAt (pkt : List UInt8) (i : Nat) : Nat :=
  (byteAt pkt i &&& 0x0F).toNat * 256 + (byteAt pkt (i + 1)).toNat

/-- A complete, current section of a table in one packet: its start, and where its checksum
begins. -/
def currentPsiSection (pkt : List UInt8) (tableId : UInt8) (minimumLength : Nat) :
    Option (Nat × Nat) :=
  if !tsPusi pkt then none
  else do
    let sec ← psiSectionStart pkt
    let id ← pkt[sec]?
    let flags ← pkt[sec + 5]?
    if id ≠ tableId ∨ flags &&& 1 = 0 then none
    else
      let length := lengthAt pkt (sec + 1)
      let stop := sec + 3 + length
      if minimumLength ≤ length ∧ stop ≤ pkt.length then some (sec, stop - 4) else none

/-- The first program of a section's entries from `pos` on, each of four bytes. -/
def firstProgram (pkt : List UInt8) (stop : Nat) : (fuel pos : Nat) → Option (Nat × Nat)
  | 0, _ => none
  | fuel + 1, pos =>
    if pos + 4 ≤ stop then
      if word pkt pos ≠ 0 then some (word pkt pos, pidAt pkt (pos + 2))
      else firstProgram pkt stop fuel (pos + 4)
    else none

/-- First program of a current PAT and the PID of its PMT, or no mapping if the table has none. -/
def parsePatFirstProgram (pkt : List UInt8) : Option (Option (Nat × Nat)) := do
  let (sec, stop) ← currentPsiSection pkt 0x00 9
  if (stop - (sec + 8)) % 4 ≠ 0 then none
  else some (firstProgram pkt stop pkt.length (sec + 8))

inductive VideoCodec where
  | mpeg2
  | h264
  | hevc
  deriving DecidableEq

/-- The codec of a stream type. -/
def videoCodec (streamType : UInt8) (allowMpeg2 : Bool) : Option VideoCodec :=
  if streamType = 0x02 ∧ allowMpeg2 then some .mpeg2
  else if streamType = 0x1B then some .h264
  else if streamType = 0x24 then some .hevc
  else none

/-- Walk over the elementary streams from `pos` on: the first video stream, and where the walk
ends. -/
def scanStreams (pkt : List UInt8) (stop : Nat) (allowMpeg2 : Bool) :
    (fuel pos : Nat) → Option (Nat × VideoCodec) → Option (Nat × VideoCodec) × Nat
  | 0, pos, video => (video, pos)
  | fuel + 1, pos, video =>
    if pos + 5 ≤ stop then
      let found := (videoCodec (byteAt pkt pos) allowMpeg2).map fun codec => (pidAt pkt (pos + 1), codec)
      scanStreams pkt stop allowMpeg2 fuel (pos + 5 + lengthAt pkt (pos + 3))
        (if video.isNone then found else video)
    else (video, pos)

/-- PID and codec of the first video stream of a current PMT of the program. -/
def parsePmtVideo (pkt : List UInt8) (program : Option Nat) (allowMpeg2 : Bool) :
    Option (Option (Nat × VideoCodec)) := do
  let (sec, stop) ← currentPsiSection pkt 0x02 13
  if program ≠ some (word pkt (sec + 3)) then none
  else
    let (video, pos) :=
      scanStreams pkt stop allowMpeg2 pkt.length (sec + 12 + lengthAt pkt (sec + 10)) none
    if pos = stop then some video else none

/-! ### Changed bytes -/

variable {pkt : List UInt8}

theorem byteAt_set_of_ne {i j : Nat} (b : UInt8) (h : i ≠ j) :
    byteAt (pkt.set i b) j = byteAt pkt j := by
  rw [byteAt, byteAt, List.getD_eq_getElem?_getD, List.getD_eq_getElem?_getD,
    List.getElem?_set_ne h]

theorem byteAt_set {i : Nat} (hi : i < pkt.length) (b : UInt8) (j : Nat) :
    byteAt (pkt.set i b) j = if i = j then b else byteAt pkt j := by
  unfold byteAt
  rw [List.getD_eq_getElem?_getD, List.getD_eq_getElem?_getD, List.getElem?_set]
  split
  · next hij => subst hij; rfl
  · rfl

theorem set_byteAt {i : Nat} (hi : i < pkt.length) (b : UInt8) :
    (pkt.set i b).set i (byteAt pkt i) = pkt := by
  rw [List.set_set, byteAt, List.getD_eq_getElem?_getD, List.getElem?_eq_getElem hi,
    Option.getD_some, List.set_getElem_self]

/-- Bytes behind the PID do not change it. -/
theorem tsPid_set {i : Nat} (b : UInt8) (h : 3 ≤ i) : tsPid (pkt.set i b) = tsPid pkt := by
  rw [tsPid, tsPid, byteAt_set_of_ne b (by omega), byteAt_set_of_ne b (by omega)]

end Outpace.Media

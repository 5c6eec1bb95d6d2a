import Outpace.Data.Blocks
import Outpace.Media.PcrClock
import Outpace.Media.PsiSection

/-!
# Audio selection

`LiveAudioSelection` of `ace-media/src/audio.rs`: of the audio streams of a program it keeps the
first ADTS one, if there is any, takes the others out of the PMT and drops their packets. Only
tables in one packet are understood; any other disables the selection, and malformed ones are
dropped.
-/

namespace Outpace.Media

inductive AudioCodec where
  | adtsAac
  | latmAac
  | mpegAudio
  | ac3
  | eac3
  | dts
  deriving DecidableEq

structure SelectedAudio where
  pid : Nat
  codec : AudioCodec
  deriving DecidableEq

structure TransportLayout where
  transportStreamId : Nat
  programId : Nat
  pmtPid : Nat
  pcrPid : Nat
  videoPid : Nat
  videoType : UInt8
  audio : Option SelectedAudio
  /-- The source's table without version, checksum and framing. -/
  semanticIdentity : List UInt8
  deriving DecidableEq

inductive LayoutDecision where
  | pending
  | supported (layout : TransportLayout)
  | unsupported
  deriving DecidableEq

/-! ### Descriptors -/

structure DescriptorCodecs where
  first : Option AudioCodec
  conflicting : Bool
  deriving DecidableEq

/-- `count_ones`. -/
def countOnes (x : UInt8) : Nat := ((List.range 8).filter fun i => x.toNat.testBit i).length

/-- The codec that a descriptor names. -/
def descriptorSignal (tag : UInt8) (body : List UInt8) : Option AudioCodec :=
  if tag = 0x6a then
    if body ≠ [] ∧ countOnes (byteAt body 0 &&& 0xf0) < body.length then some .ac3 else none
  else if tag = 0x7a then
    if body ≠ [] ∧ countOnes (byteAt body 0 &&& 0xf7) < body.length then some .eac3 else none
  else if tag = 0x7b then if 5 ≤ body.length then some .dts else none
  else if tag = 0x05 ∧ 4 ≤ body.length then
    if body.take 4 = [0x41, 0x43, 0x2d, 0x33] then some .ac3
    else if body.take 4 = [0x45, 0x41, 0x43, 0x33] then some .eac3
    else if body.take 3 = [0x44, 0x54, 0x53] ∧ 0x31 ≤ byteAt body 3 ∧ byteAt body 3 ≤ 0x33 then
      some .dts
    else none
  else none

/-- Take note of a descriptor's codec. -/
def DescriptorCodecs.note (d : DescriptorCodecs) : Option AudioCodec → DescriptorCodecs
  | none => d
  | some signal => ⟨d.first.or (some signal), d.conflicting || d.first.any (· ≠ signal)⟩

/-- Walk over the descriptors, each of which has at least two bytes. -/
def descriptorsLoop : (fuel : Nat) → List UInt8 → DescriptorCodecs → Option DescriptorCodecs
  | _, [], d => some d
  | 0, _ :: _, _ => none
  | _ + 1, [_], _ => none
  | fuel + 1, tag :: len :: bytes, d =>
    if len.toNat ≤ bytes.length then
      descriptorsLoop fuel (bytes.drop len.toNat)
        (d.note (descriptorSignal tag (bytes.take len.toNat)))
    else none

def descriptors (bytes : List UInt8) : Option DescriptorCodecs :=
  descriptorsLoop bytes.length bytes ⟨none, false⟩

def audioCodec (ty : UInt8) (desc : List UInt8) : Option DescriptorCodecs :=
  (descriptors desc).map fun found =>
    { found with
      first :=
        if ty = 0x0f then some .adtsAac
        else if ty = 0x11 then some .latmAac
        else if ty = 0x03 ∨ ty = 0x04 then some .mpegAudio
        else if ty = 0x06 then found.first
        else none }

/-! ### Elementary streams -/

/-- An entry of a PMT: its bytes, and what was read of them. -/
structure StreamEntry where
  bytes : List UInt8
  pid : Nat
  codec : Option AudioCodec
  deriving DecidableEq

/-- Walk over the entries of a PMT, each of which has at least five bytes. -/
def streamEntries : (fuel : Nat) → (bytes : List UInt8) → List StreamEntry → (conflicting : Bool) →
    Except PsiError (List StreamEntry × Bool)
  | _, [], entries, conflicting => .ok (entries, conflicting)
  | 0, _ :: _, _, _ => .error .invalid
  | fuel + 1, b :: bs, entries, conflicting =>
    let bytes := b :: bs
    if bytes.length < 5 then .error .invalid
    else
      let size := 5 + lengthAt bytes 3
      if bytes.length < size then .error .invalid
      else
        match audioCodec b ((bytes.take size).drop 5) with
        | none => .error .invalid
        | some codec =>
          let pid := pidAt bytes 1
          if entries.any (·.pid = pid) then .error .unsupported
          else streamEntries fuel (bytes.drop size)
            (entries ++ [⟨bytes.take size, pid, codec.first⟩]) (conflicting || codec.conflicting)

/-- What is read of a PMT: its bytes up to the entries, and these. -/
structure ParsedPmt where
  head : List UInt8
  entries : List StreamEntry
  conflicting : Bool
  deriving DecidableEq

/-- The first part of `update_pmt`, after the section's own checks. -/
def parsePmt (s : List UInt8) (program : Option Nat) : Except PsiError ParsedPmt :=
  if some (word s 3) ≠ program then .error .invalid
  else
    let stop := s.length - 4
    let start := 12 + lengthAt s 10
    if stop < start then .error .invalid
    else
      match descriptors ((s.take start).drop 12) with
      | none => .error .invalid
      | some found => do
        let (entries, conflicting) ←
          streamEntries s.length ((s.take stop).drop start) [] found.conflicting
        return ⟨s.take start, entries, conflicting⟩

/-- The first ADTS stream. -/
def selectedPid (entries : List StreamEntry) : Option Nat :=
  (entries.find? fun e => e.codec = some .adtsAac).map (·.pid)

/-- The audio streams that the selected one takes the place of. -/
def removedPids (entries : List StreamEntry) : List Nat :=
  let selected := selectedPid entries
  (entries.filter fun e => selected.isSome && e.codec.isSome && some e.pid != selected).map (·.pid)

/-- Clear the version of a table. -/
def clearVersion (s : List UInt8) : List UInt8 := s.set 5 (byteAt s 5 &&& 0xc1)

def sectionVersion (s : List UInt8) : UInt8 := (byteAt s 5 >>> 1) &&& 31

/-- Set the length of a section that gets a checksum behind it. -/
def setLength (s : List UInt8) : List UInt8 :=
  let len := s.length + 1
  (s.set 1 (0xb0 ||| (.ofNat (len / 256) &&& 15))).set 2 (.ofNat len)

/-- The table without the removed streams, without version and checksum. -/
def ParsedPmt.effective (p : ParsedPmt) : List UInt8 :=
  let removed := removedPids p.entries
  clearVersion (setLength (p.head ++
    (p.entries.filter fun e => !removed.contains e.pid).flatMap (·.bytes)))

/-- The section with a version and its checksum. -/
def versioned (effective : List UInt8) (version : UInt8) : List UInt8 :=
  let out := effective.set 5 (byteAt effective 5 ||| version <<< 1)
  out ++ be32 (mpegCrc32 out)

/-- A packet with a section, under the header of the source's packet. -/
def sectionPacket (packet out : List UInt8) : List UInt8 :=
  let used := (packet.take 3 ++ [(byteAt packet 3 &&& 0x0f) ||| 0x10, 0]) ++ out
  used ++ List.replicate (tsPacketLen - used.length) 0xff

/-! ### The selection -/

structure AudioPacket where
  packet : Option (List UInt8)
  changed : Bool
  deriving DecidableEq

structure LiveAudioSelection where
  layout : LayoutDecision
  mapping : Option (Nat × Nat)
  transportStreamId : Option Nat
  pat : Option (List UInt8)
  pmt : Option (List UInt8)
  sourcePmt : Option (List UInt8)
  removed : List Nat
  pcr : Option Nat
  effective : Option (List UInt8)
  version : UInt8
  rewrite : Bool
  outputCc : UInt8
  deriving DecidableEq

namespace LiveAudioSelection

def default : LiveAudioSelection :=
  ⟨.pending, none, none, none, none, none, [], none, none, 0, false, 0⟩

def disable (a : LiveAudioSelection) : Bool × LiveAudioSelection :=
  (a.pmt.isSome || !a.removed.isEmpty,
    { a with
      pmt := none
      sourcePmt := none
      removed := []
      pcr := none
      effective := none
      rewrite := false })

/-- Stream types that may accompany video. -/
def knownType (ty : UInt8) : Bool :=
  ty == 0x03 || ty == 0x04 || ty == 0x06 || ty == 0x0f || ty == 0x11 || ty == 0x05 ||
    (0x0a ≤ ty && ty ≤ 0x0e) || (0x15 ≤ ty && ty ≤ 0x19)

/-- The streams that `decide_layout` has met so far. -/
structure LayoutScan where
  video : Option (Nat × UInt8)
  firstAudio : Option SelectedAudio
  aac : Option SelectedAudio
  hasAudio : Bool

/-- Take note of a stream's codec. -/
def LayoutScan.note (l : LayoutScan) (e : StreamEntry) : LayoutScan :=
  match e.codec with
  | none => l
  | some codec =>
    { l with
      hasAudio := true
      aac := if codec = .adtsAac ∧ l.aac = none then some ⟨e.pid, codec⟩ else l.aac
      firstAudio :=
        if (codec = .mpegAudio ∨ codec = .ac3) ∧ l.firstAudio = none then some ⟨e.pid, codec⟩
        else l.firstAudio }

/-- One entry of the scan. -/
def LayoutScan.step (l : LayoutScan) (e : StreamEntry) : Option LayoutScan :=
  let ty := byteAt e.bytes 0
  if (ty = 0x02 ∨ ty = 0x1b ∨ ty = 0x24) ∧ l.video.isSome then none
  else if ty = 0x02 ∨ ty = 0x1b ∨ ty = 0x24 then
    some ({ l with video := some (e.pid, ty) }.note e)
  else if !knownType ty ∨ (ty = 0x06 ∧ e.codec = none) then none
  else some (l.note e)

def decideLayout (a : LiveAudioSelection) (s : List UInt8) (entries : List StreamEntry) :
    LayoutDecision :=
  match a.mapping, a.transportStreamId with
  | some (programId, pmtPid), some transportStreamId =>
    if pmtPid < 0x20 ∨ pmtPid = 0x1fff then .unsupported
    else
      let pcrPid := pidAt s 8
      if !(entries.any (·.pid = pcrPid)) ||
          entries.any (fun e => e.pid < 0x20 ∨ e.pid = 0x1fff ∨ e.pid = pmtPid) then .unsupported
      else
        match entries.foldlM LayoutScan.step ⟨none, none, none, false⟩ with
        | none => .unsupported
        | some l =>
          match l.video with
          | none => .unsupported
          | some (videoPid, videoType) =>
            let audio := l.aac.or l.firstAudio
            if l.hasAudio ∧ audio = none then .unsupported
            else .supported
              { transportStreamId, programId, pmtPid, pcrPid, videoPid, videoType, audio
                semanticIdentity :=
                  [.ofNat (transportStreamId / 256), .ofNat transportStreamId,
                    .ofNat (pmtPid / 256), .ofNat pmtPid] ++ clearVersion (s.take (s.length - 4)) }
  | _, _ => .pending

/-- The version of the next table. -/
def nextVersion (a : LiveAudioSelection) (effective : List UInt8) (upstream : UInt8)
    (removed : List Nat) : UInt8 :=
  if a.effective = some effective then a.version
  else if a.effective.isSome then (a.version + 1) &&& 31
  else (upstream + if removed.isEmpty then 0 else 1) &&& 31

/-- The second part of `update_pmt`: take over what was read of a PMT. -/
def takePmt (a : LiveAudioSelection) (packet s : List UInt8) (p : ParsedPmt) :
    Bool × LiveAudioSelection :=
  let removed := removedPids p.entries
  let effective := p.effective
  let sourceContent := clearVersion (s.take (s.length - 4))
  let rewrite := (selectedPid p.entries).isSome
  let upstream := sectionVersion s
  -- passing a table through restores the source's version, which is the base if AAC returns
  let version := if rewrite then a.nextVersion effective upstream removed else upstream
  (decide (a.sourcePmt ≠ some sourceContent),
    { a with
      layout := if p.conflicting then .unsupported else a.decideLayout s p.entries
      version := version
      effective := some effective
      rewrite := rewrite
      pmt := some (if rewrite then sectionPacket packet (versioned effective version) else packet)
      sourcePmt := some sourceContent
      removed := removed
      pcr := some (pidAt s 8) })

def updatePmt (a : LiveAudioSelection) (packet : List UInt8) :
    Except PsiError (Bool × LiveAudioSelection) := do
  let s ← psiSection packet 2 13 (a.mapping.map (·.1))
  let p ← parsePmt s (a.mapping.map (·.1))
  return a.takePmt packet s p

/-- The programs of a PAT's entries, without the network's. -/
def patPrograms (entries : List UInt8) : List (Nat × Nat) :=
  ((blocks 4 entries).filter fun e => byteAt e 0 ≠ 0 ∨ byteAt e 1 ≠ 0).map fun e =>
    (word e 0, pidAt e 2)

/-- The selection after a PAT that it does not understand. -/
def forget (a : LiveAudioSelection) : Bool × LiveAudioSelection :=
  let r := { a with layout := LayoutDecision.unsupported }.disable
  (r.1, { r.2 with mapping := none, transportStreamId := none, pat := none })

/-- The program of a PAT; what is known of another one is given up. -/
def remap (a : LiveAudioSelection) (program : Nat × Nat) (transportStreamId : Nat) :
    Bool × LiveAudioSelection :=
  if a.mapping ≠ some program ∨ a.transportStreamId ≠ some transportStreamId then
    let r := { a with layout := LayoutDecision.pending }.disable
    (r.1, { r.2 with mapping := some program, transportStreamId := some transportStreamId })
  else (false, a)

/-- A PAT with one program. -/
def takePat (a : LiveAudioSelection) (packet s : List UInt8) (program : Nat × Nat) :
    Bool × LiveAudioSelection :=
  let r := a.remap program (word s 3)
  (r.1,
    { r.2 with
      pat := some packet
      layout := if program.2 < 0x20 ∨ program.2 = 0x1fff then .unsupported else r.2.layout })

def dropped (a : LiveAudioSelection) (changed : Bool) : AudioPacket × LiveAudioSelection :=
  (⟨none, changed⟩, a)

def passed (packet : List UInt8) (r : Bool × LiveAudioSelection) :
    AudioPacket × LiveAudioSelection := (⟨some packet, r.1⟩, r.2)

/-- A packet on PID 0. -/
def observePat (a : LiveAudioSelection) (packet : List UInt8) : AudioPacket × LiveAudioSelection :=
  match psiSection packet 0 9 none with
  | .ok s =>
    let entries := (s.take (s.length - 4)).drop 8
    if entries.length % 4 ≠ 0 then a.dropped false
    else
      match patPrograms entries with
      | [program] => passed packet (a.takePat packet s program)
      | _ => passed packet a.forget
  | .error .unsupported => passed packet a.forget
  | .error .invalid => if a.pat.isSome then a.dropped false else passed packet (false, a)

/-- A packet with payload on the PID of the PMT. -/
def observePmt (a : LiveAudioSelection) (packet : List UInt8) : AudioPacket × LiveAudioSelection :=
  match a.updatePmt packet with
  | .ok r => passed (r.2.pmt.getD packet) r
  | .error .unsupported =>
    passed packet { a with layout := LayoutDecision.unsupported }.disable
  | .error .invalid => a.dropped false

/-- Keep the adaptation field of a packet, with stuffing in the place of its payload. -/
def stripPayload (packet : List UInt8) : List UInt8 :=
  let len := (byteAt packet 4).toNat
  let packet := ((packet.set 1 (byteAt packet 1 &&& 0xbf)).set 3 0x20).set 4 183
  packet.take (5 + len) ++ List.replicate (packet.length - (5 + len)) 0xff

/-- A packet of a removed stream. -/
def observeRemoved (a : LiveAudioSelection) (packet : List UInt8) :
    AudioPacket × LiveAudioSelection :=
  let timing := tsTiming packet
  if a.pcr = some (tsPid packet) ∧ (timing.pcr.isSome ∨ timing.discontinuity) then
    let len := (byteAt packet 4).toNat
    if byteAt packet 3 &&& 0x20 = 0 ∨ len = 0 ∨ 183 < len then a.dropped false
    else (⟨some (stripPayload packet), false⟩, a)
  else a.dropped false

/-- Whether a packet is read as a PMT. -/
def onPmt (a : LiveAudioSelection) (packet : List UInt8) : Bool :=
  a.mapping.any (fun m => decide (m.2 = tsPid packet)) && (payload packet).isSome

/-- A scrambled packet rules the layout out. -/
def noteScrambling (a : LiveAudioSelection) (packet : List UInt8) : LiveAudioSelection :=
  if byteAt packet 3 &&& 0xc0 ≠ 0 then { a with layout := .unsupported } else a

def observe (a : LiveAudioSelection) (packet : List UInt8) : AudioPacket × LiveAudioSelection :=
  let a := a.noteScrambling packet
  if tsPid packet = 0 then a.observePat packet
  else if a.onPmt packet then a.observePmt packet
  else if a.removed.contains (tsPid packet) then a.observeRemoved packet
  else passed packet (false, a)

/-! ### What an observation does -/

/-- The cases of `observe`, with the scrambling noted. -/
inductive Observes (a : LiveAudioSelection) (packet : List UInt8) :
    AudioPacket × LiveAudioSelection → Prop
  | program {s : List UInt8} {program : Nat × Nat} : tsPid packet = 0 →
    psiSection packet 0 9 none = .ok s → patPrograms ((s.take (s.length - 4)).drop 8) = [program] →
    Observes a packet (passed packet (a.takePat packet s program))
  | forget : tsPid packet = 0 → payload packet ≠ none → Observes a packet (passed packet a.forget)
  | early : tsPid packet = 0 → a.pat = none → Observes a packet (passed packet (false, a))
  | pmt {s : List UInt8} {p : ParsedPmt} : tsPid packet ≠ 0 → a.onPmt packet = true →
    psiSection packet 2 13 (a.mapping.map (·.1)) = .ok s →
    parsePmt s (a.mapping.map (·.1)) = .ok p →
    Observes a packet (passed ((a.takePmt packet s p).2.pmt.getD packet) (a.takePmt packet s p))
  | strange : tsPid packet ≠ 0 → a.onPmt packet = true → a.updatePmt packet = .error .unsupported →
    Observes a packet (passed packet { a with layout := LayoutDecision.unsupported }.disable)
  | kept : tsPid packet ≠ 0 → a.onPmt packet = false → tsPid packet ∈ a.removed →
    a.pcr = some (tsPid packet) → ((tsTiming packet).pcr.isSome ∨ (tsTiming packet).discontinuity) →
    byteAt packet 3 &&& 0x20 ≠ 0 → 0 < (byteAt packet 4).toNat → (byteAt packet 4).toNat ≤ 183 →
    Observes a packet (passed (stripPayload packet) (false, a))
  | other : tsPid packet ≠ 0 → a.onPmt packet = false → tsPid packet ∉ a.removed →
    Observes a packet (passed packet (false, a))
  | dropped : Observes a packet (a.dropped false)

variable {packet : List UInt8}

theorem psiSection_of_payload (h : payload packet = none) (id : UInt8) (min : Nat)
    (program : Option Nat) : psiSection packet id min program = .error .invalid := by
  unfold psiSection
  rw [h]
  exact ite_self _

theorem observePat_observes {a : LiveAudioSelection} (hpid : tsPid packet = 0) :
    Observes a packet (a.observePat packet) := by
  unfold observePat
  split
  · next s hs =>
    simp only
    split
    · exact .dropped
    · split
      · next program hprogram => exact .program hpid hs hprogram
      · refine .forget hpid fun h => ?_
        rw [psiSection_of_payload h] at hs
        cases hs
  · next hs =>
    refine .forget hpid fun h => ?_
    rw [psiSection_of_payload h] at hs
    cases hs
  · split
    · exact .dropped
    · next hpat => exact .early hpid (Option.not_isSome_iff_eq_none.mp hpat)

theorem observePmt_observes {a : LiveAudioSelection} (hpid : tsPid packet ≠ 0)
    (hpmt : a.onPmt packet = true) : Observes a packet (a.observePmt packet) := by
  unfold observePmt
  split
  · next r hr =>
    obtain ⟨s, hs, hr⟩ := bind_eq_ok.mp hr
    obtain ⟨p, hp, hr⟩ := bind_eq_ok.mp hr
    obtain rfl := Except.ok.inj hr
    exact .pmt hpid hpmt hs hp
  · next hr => exact .strange hpid hpmt hr
  · exact .dropped

theorem observe_observes (a : LiveAudioSelection) (packet : List UInt8) :
    Observes (a.noteScrambling packet) packet (a.observe packet) := by
  unfold observe
  simp only
  split
  · next hpid => exact observePat_observes hpid
  next hpid =>
  split
  · next hpmt => exact observePmt_observes hpid hpmt
  next hpmt =>
  have hpmt := Bool.eq_false_iff.mpr hpmt
  split
  · next hmem =>
    unfold observeRemoved
    simp only
    split
    · next hclock =>
      split
      · exact .dropped
      · next hfield =>
        exact .kept hpid hpmt (List.contains_iff_mem.mp hmem) hclock.1 hclock.2
          (fun h => hfield (.inl h)) (by omega) (by omega)
    · exact .dropped
  · next hmem => exact .other hpid hpmt fun h => hmem (List.contains_iff_mem.mpr h)

end LiveAudioSelection

end Outpace.Media

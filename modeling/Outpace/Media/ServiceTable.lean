import Outpace.Data.Blocks
import Outpace.Media.VideoAccess

/-!
# Reading the service table back

`read_sdt_service_name` of `ace-media/src/mpegts.rs`, and that it finds the name which
`build_sdt_with_transport` puts into a packet. A sanitized name is short enough for the section to
fit (`length_sdtSection_le`), and then every length field of the packet is exact.
-/

namespace Outpace.Media

/-- The name in the service descriptor at `pos`. -/
def serviceNameAt (pkt : List UInt8) (pos : Nat) : Option (List Char) := do
  let p := pos + 2 + 1
  let provlen ← pkt[p]?
  let p := p + 1 + provlen.toNat
  let namelen ← pkt[p]?
  let p := p + 1
  if p + namelen.toNat ≤ pkt.length then decodeUtf8 ((pkt.drop p).take namelen.toNat) else none

/-- Walk over the descriptors from `pos` on: the first service descriptor decides. -/
def scanDescriptors (pkt : List UInt8) (stop : Nat) : (fuel pos : Nat) → Option (Option (List Char))
  | 0, _ => none
  | fuel + 1, pos =>
    if pos + 2 ≤ stop then
      if byteAt pkt pos = serviceDescriptorTag then some (serviceNameAt pkt pos)
      else scanDescriptors pkt stop fuel (pos + 2 + (byteAt pkt (pos + 1)).toNat)
    else none

/-- What a packet has to say of the name; `none` goes on with the next packet. -/
def readSdtPacket (pkt : List UInt8) : Option (Option (List Char)) :=
  if byteAt pkt 0 ≠ tsSync ∨ tsPid pkt ≠ sdtPid then none
  else
    match psiSectionStart pkt with
    | none => none
    | some sec =>
      match pkt[sec]? with
      | none => some none
      | some tableId =>
        if tableId ≠ sdtTableId then none
        else
          -- behind the section's header and the service id of the first entry
          let pos := sec + 3 + 8 + 3
          if pos + 1 < pkt.length then
            scanDescriptors pkt (min (pos + 2 + lengthAt pkt pos) tsPacketLen) pkt.length (pos + 2)
          else some none

/-- The first service name in a run of aligned packets. -/
def readSdtServiceName (ts : List UInt8) : Option (List Char) :=
  ((blocks tsPacketLen ts).findSome? readSdtPacket).join

/-! ### The sanitized name -/

/-- A name is what fits of the title without its control characters and outer whitespace. -/
theorem sanitizeServiceName_eq_some {raw n : List Char} (h : sanitizeServiceName raw = some n) :
    n ≠ [] ∧ n <+: trim (raw.filter fun c => !isControl c) ∧
      (encodeUtf8 n).length ≤ maxServiceNameBytes := by
  simp only [sanitizeServiceName, trim_filter_trim] at h
  split at h
  · cases h
  · next hne =>
    cases h
    exact ⟨cutToBytes_ne_nil (by decide) hne, cutToBytes_prefix _ _,
      length_encodeUtf8_cutToBytes _ _⟩

/-! ### The packet -/

theorem length_sdtSection (serviceId transportStreamId : Nat) (name : List UInt8) :
    (sdtSection serviceId transportStreamId name).length = 28 + name.length := by
  simp [sdtSection, serviceProviderName]
  omega

/-- The section with its checksum fits behind the header and the pointer field. -/
theorem length_sdtSection_le {name : List UInt8} (h : name.length ≤ maxServiceNameBytes)
    (serviceId transportStreamId : Nat) :
    5 + ((sdtSection serviceId transportStreamId name).length + 4) ≤ tsPacketLen := by
  have hmax : maxServiceNameBytes = 151 := rfl
  have hlen : tsPacketLen = 188 := rfl
  rw [length_sdtSection]
  omega

/-- The packet up to the name: header, pointer field, section header and descriptor header. -/
def sdtHead (serviceId transportStreamId size : Nat) : List UInt8 :=
  [tsSync, 0x40, 0x11, 0x10, 0x00,
    sdtTableId, 0xF0 ||| (.ofNat ((29 + size) / 256) &&& 0x0F), .ofNat (29 + size),
    .ofNat (transportStreamId / 256), .ofNat transportStreamId, 0xC1, 0x00, 0x00, 0xFF, 0x01, 0xFF,
    .ofNat (serviceId / 256), .ofNat serviceId, 0xFC,
    0x80 ||| (.ofNat ((12 + size) / 256) &&& 0x0F), .ofNat (12 + size),
    serviceDescriptorTag, .ofNat (10 + size), 0x01, 7,
    0x6f, 0x75, 0x74, 0x70, 0x61, 0x63, 0x65, .ofNat size]

theorem sdtSection_eq (serviceId transportStreamId : Nat) (name : List UInt8) :
    sdtSection serviceId transportStreamId name =
      (sdtHead serviceId transportStreamId name.length).drop 5 ++ name := by
  have hdesc : ([serviceDescriptorTag, UInt8.ofNat (3 + serviceProviderName.length + name.length),
      0x01, UInt8.ofNat serviceProviderName.length] ++ serviceProviderName ++
      [UInt8.ofNat name.length] ++ name).length = 12 + name.length := by
    simp [serviceProviderName]
    omega
  simp only [sdtSection, hdesc]
  rw [show 8 + 5 + (12 + name.length) + 4 = 29 + name.length by omega]
  rfl

theorem buildSdtWithTransport_eq (serviceId : Nat) (n : List Char) (transportStreamId : Nat) :
    ∃ tail, buildSdtWithTransport serviceId n transportStreamId =
      sdtHead serviceId transportStreamId (encodeUtf8 n).length ++ (encodeUtf8 n ++ tail) := by
  simp only [buildSdtWithTransport, sdtSection_eq, List.append_assoc]
  exact ⟨_, rfl⟩

theorem length_buildSdtWithTransport {n : List Char}
    (h : (encodeUtf8 n).length ≤ maxServiceNameBytes) (serviceId transportStreamId : Nat) :
    (buildSdtWithTransport serviceId n transportStreamId).length = tsPacketLen := by
  have hfits := length_sdtSection_le h serviceId transportStreamId
  simp only [buildSdtWithTransport, List.length_append, List.length_cons, List.length_nil,
    List.length_replicate, length_be32]
  omega

/-- The name at its place in the packet. -/
theorem serviceNameAt_sdtHead {n : List Char} (h : (encodeUtf8 n).length < 256)
    (serviceId transportStreamId : Nat) (tail : List UInt8) :
    serviceNameAt (sdtHead serviceId transportStreamId (encodeUtf8 n).length ++
      (encodeUtf8 n ++ tail)) 21 = some n := by
  have hsize : (UInt8.ofNat (encodeUtf8 n).length).toNat = (encodeUtf8 n).length := by
    rw [UInt8.toNat_ofNat']
    omega
  have hlen : (sdtHead serviceId transportStreamId (encodeUtf8 n).length).length = 33 := rfl
  show (if 33 + (UInt8.ofNat (encodeUtf8 n).length).toNat ≤ _ then _ else none) = some n
  rw [hsize, if_pos (by rw [List.length_append, List.length_append, hlen]; omega)]
  show decodeUtf8 ((encodeUtf8 n ++ tail).take _) = some n
  rw [List.take_left, decodeUtf8_encodeUtf8]

theorem readSdtPacket_buildSdt {n : List Char} (h : (encodeUtf8 n).length ≤ maxServiceNameBytes)
    (serviceId transportStreamId : Nat) :
    readSdtPacket (buildSdtWithTransport serviceId n transportStreamId) = some (some n) := by
  have hlen := length_buildSdtWithTransport h serviceId transportStreamId
  obtain ⟨tail, heq⟩ := buildSdtWithTransport_eq serviceId n transportStreamId
  have hmax : maxServiceNameBytes = 151 := rfl
  have hname := serviceNameAt_sdtHead (n := n) (by omega) serviceId transportStreamId tail
  rw [heq] at hlen ⊢
  generalize hpkt : sdtHead serviceId transportStreamId (encodeUtf8 n).length ++
    (encodeUtf8 n ++ tail) = pkt at *
  have hsync : byteAt pkt 0 = tsSync := by subst hpkt; rfl
  have hpid : tsPid pkt = sdtPid := by
    have h₁ : byteAt pkt 1 = 0x40 := by subst hpkt; rfl
    have h₂ : byteAt pkt 2 = 0x11 := by subst hpkt; rfl
    rw [tsPid, h₁, h₂]
    rfl
  have hsec : psiSectionStart pkt = some 5 := by
    have h₃ : byteAt pkt 3 = 0x10 := by subst hpkt; rfl
    have hoffset : tsPayloadOffset pkt = some 4 := by
      rw [tsPayloadOffset, tsAfc, h₃]
      rfl
    have hpointer : pkt[4]? = some 0 := by subst hpkt; rfl
    rw [psiSectionStart, hoffset, Option.bind_eq_bind, Option.bind_some, hpointer]
    rfl
  have htable : pkt[5]? = some sdtTableId := by subst hpkt; rfl
  have htag : byteAt pkt 21 = serviceDescriptorTag := by subst hpkt; rfl
  have hdll : lengthAt pkt 19 = 12 + (encodeUtf8 n).length := by
    have hhigh : byteAt pkt 19 = 0x80 ||| (.ofNat ((12 + (encodeUtf8 n).length) / 256) &&& 0x0F) := by
      subst hpkt; rfl
    have hlow : byteAt pkt (19 + 1) = .ofNat (12 + (encodeUtf8 n).length) := by subst hpkt; rfl
    have hzero : ((0x80 ||| (UInt8.ofNat 0 &&& 0x0F)) &&& 0x0F).toNat = 0 := by decide
    rw [lengthAt, hhigh, hlow, Nat.div_eq_of_lt (by omega), hzero, UInt8.toNat_ofNat']
    omega
  have hbound : tsPacketLen = 188 := rfl
  simp only [readSdtPacket, hsync, hsec, htable, hpid, hdll, hlen, ne_eq, not_true_eq_false, or_self,
    if_false, hbound]
  rw [if_pos (by omega), scanDescriptors, if_pos (by omega), if_pos htag, hname]

/-! ### The run -/

theorem readSdtPacket_of_ne {pkt : List UInt8} (h : tsPid pkt ≠ sdtPid) :
    readSdtPacket pkt = none := if_pos (.inr h)

theorem readSdtServiceName_of_blocks {ts pkt : List UInt8} {before after : List (List UInt8)}
    (hts : blocks tsPacketLen ts = before ++ pkt :: after)
    (hbefore : ∀ pkt ∈ before, tsPid pkt ≠ sdtPid) {name : Option (List Char)}
    (hpkt : readSdtPacket pkt = some name) : readSdtServiceName ts = name := by
  have hnone : before.findSome? readSdtPacket = none :=
    List.findSome?_eq_none_iff.mpr fun pkt hmem => readSdtPacket_of_ne (hbefore pkt hmem)
  rw [readSdtServiceName, hts, List.findSome?_append, hnone, Option.none_or, List.findSome?_cons,
    hpkt, Option.join_some]

/-- A title survives the service table: what the sanitizer leaves of it is a beginning of the
stripped title, its section fits one packet, and a reader of any packets with this one as the first
on its PID reads it back. -/
theorem service_name_survives {raw n : List Char} (h : sanitizeServiceName raw = some n)
    (serviceId transportStreamId : Nat) :
    (n ≠ [] ∧ n <+: trim (raw.filter fun c => !isControl c)) ∧
      5 + ((sdtSection serviceId transportStreamId (encodeUtf8 n)).length + 4) ≤ tsPacketLen ∧
      (buildSdtWithTransport serviceId n transportStreamId).length = tsPacketLen ∧
      ∀ (ts : List UInt8) (before after : List (List UInt8)),
        blocks tsPacketLen ts =
          before ++ buildSdtWithTransport serviceId n transportStreamId :: after →
        (∀ pkt ∈ before, tsPid pkt ≠ sdtPid) → readSdtServiceName ts = some n := by
  obtain ⟨hne, hpre, hlen⟩ := sanitizeServiceName_eq_some h
  exact ⟨⟨hne, hpre⟩, length_sdtSection_le hlen _ _, length_buildSdtWithTransport hlen _ _,
    fun _ _ _ hts hbefore =>
      readSdtServiceName_of_blocks hts hbefore (readSdtPacket_buildSdt hlen _ _)⟩

theorem service_name_survives_news :
    readSdtServiceName (buildSdtWithTransport 1 ['N', 'e', 'w', 's'] 7) =
      some ['N', 'e', 'w', 's'] :=
  (@service_name_survives [' ', 'N', 'e', '\x00', 'w', 's', '\n'] _ (by decide) 1 7).2.2.2 _
    [] [] (by decide +kernel) (by decide)

end Outpace.Media

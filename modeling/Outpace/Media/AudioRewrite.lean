import Mathlib.Data.List.Nodup
import Outpace.Media.AudioTiming

/-!
# The rewritten PMT

What is read of a PMT is its entries in order (`streamEntries_sound`), and every sequence of entries
with distinct PIDs is read back (`streamEntries_complete`). So the table without the removed streams
is accepted and read like the source's, with the same selection and nothing to remove.
-/

namespace Outpace.Media

/-! ### Entries -/

/-- The bytes of an entry say what was read of them. -/
structure StreamEntry.Read (e : StreamEntry) (conflicting : Bool) : Prop where
  size : e.bytes.length = 5 + lengthAt e.bytes 3
  pid : e.pid = pidAt e.bytes 1
  codec : audioCodec (byteAt e.bytes 0) (e.bytes.drop 5) = some ⟨e.codec, conflicting⟩

variable {i : Nat}

theorem byteAt_of_prefix {s t : List UInt8} (hi : i < s.length) :
    byteAt (s ++ t) i = byteAt s i := by
  unfold byteAt
  rw [List.getD_eq_getElem?_getD, List.getD_eq_getElem?_getD, List.getElem?_append_left hi]

theorem byteAt_take_of_lt {s : List UInt8} {n i : Nat} (hi : i < n) :
    byteAt (s.take n) i = byteAt s i := by
  unfold byteAt
  rw [List.getD_eq_getElem?_getD, List.getD_eq_getElem?_getD, List.getElem?_take_of_lt hi]

theorem pidAt_take {s : List UInt8} {n i : Nat} (hi : i + 1 < n) :
    pidAt (s.take n) i = pidAt s i := by
  rw [pidAt, pidAt, byteAt_take_of_lt (by omega), byteAt_take_of_lt hi]

theorem lengthAt_take {s : List UInt8} {n i : Nat} (hi : i + 1 < n) :
    lengthAt (s.take n) i = lengthAt s i := by
  rw [lengthAt, lengthAt, byteAt_take_of_lt (by omega), byteAt_take_of_lt hi]

/-- Whether two descriptors of an entry name different codecs. -/
def StreamEntry.conflicting (e : StreamEntry) : Bool :=
  (audioCodec (byteAt e.bytes 0) (e.bytes.drop 5)).any (·.conflicting)

variable {e : StreamEntry}

theorem StreamEntry.Read.conflicting_eq {conflicting : Bool} (h : e.Read conflicting) :
    e.conflicting = conflicting := by
  rw [StreamEntry.conflicting, h.codec, Option.any_some]

theorem read_take {bytes : List UInt8} (hsize : 5 + lengthAt bytes 3 ≤ bytes.length)
    {codec : DescriptorCodecs} (hcodec : audioCodec (byteAt bytes 0)
      ((bytes.take (5 + lengthAt bytes 3)).drop 5) = some codec) :
    StreamEntry.Read ⟨bytes.take (5 + lengthAt bytes 3), pidAt bytes 1, codec.first⟩
      codec.conflicting := by
  refine ⟨?_, ?_, ?_⟩
  · rw [List.length_take, lengthAt_take (by omega)]
    omega
  · rw [pidAt_take (by omega)]
  · rw [byteAt_take_of_lt (by omega)]
    exact hcodec

theorem nodup_append_pid {seen : List StreamEntry} (h : (seen.map (·.pid)).Nodup) :
    ((seen ++ [e]).map (·.pid)).Nodup ↔ seen.any (·.pid = e.pid) = false := by
  rw [List.map_append, List.nodup_append, List.any_eq_false]
  simp only [h, List.map_cons, List.map_nil, List.nodup_singleton, true_and, List.mem_singleton,
    List.mem_map, forall_exists_index, and_imp, decide_eq_true_eq]
  exact ⟨fun hne e' he' heq => hne _ e' he' rfl _ rfl heq,
    fun hne _ e' he' hpid _ heq hxy => hne e' he' (hpid.trans (hxy.trans heq))⟩

theorem streamEntries_sound {fuel : Nat} {bytes : List UInt8} {seen entries : List StreamEntry}
    {before conflicting : Bool}
    (h : streamEntries fuel bytes seen before = .ok (entries, conflicting))
    (hseen : (seen.map (·.pid)).Nodup) :
    ∃ new, entries = seen ++ new ∧ bytes = new.flatMap (·.bytes) ∧
      (∀ e ∈ new, e.Read e.conflicting) ∧ (entries.map (·.pid)).Nodup ∧
      conflicting = (before || new.any (·.conflicting)) := by
  induction fuel generalizing bytes seen before with
  | zero =>
    cases bytes with
    | nil =>
      obtain ⟨rfl, rfl⟩ := Prod.mk.inj (Except.ok.inj h)
      exact ⟨[], by simp, rfl, by simp, hseen, by simp⟩
    | cons b bs => cases h
  | succ fuel ih =>
    cases bytes with
    | nil =>
      obtain ⟨rfl, rfl⟩ := Prod.mk.inj (Except.ok.inj h)
      exact ⟨[], by simp, rfl, by simp, hseen, by simp⟩
    | cons b bs =>
      rw [streamEntries] at h
      simp only [ite_error_eq_ok, Nat.not_lt] at h
      obtain ⟨-, hsize, h⟩ := h
      split at h
      · cases h
      next codec hcodec =>
      rw [ite_error_eq_ok, Bool.not_eq_true] at h
      obtain ⟨hfresh, h⟩ := h
      have hread := read_take hsize hcodec
      obtain ⟨new, hentries, hrest, hnew, hnodup, hconf⟩ :=
        ih h ((nodup_append_pid hseen).mpr hfresh)
      refine ⟨_ :: new, hentries.trans (List.append_assoc ..), ?_, ?_, hnodup, ?_⟩
      · rw [List.flatMap_cons, ← hrest]
        exact (List.take_append_drop _ _).symm
      · refine List.forall_mem_cons.mpr ⟨?_, hnew⟩
        rw [hread.conflicting_eq]
        exact hread
      · rw [hconf, List.any_cons, hread.conflicting_eq, Bool.or_assoc]

/-- An entry at the front of the bytes is read. -/
theorem streamEntries_cons {fuel : Nat} {conflicting : Bool} (hread : e.Read conflicting)
    (bytes : List UInt8) {seen : List StreamEntry} (hfresh : seen.any (·.pid = e.pid) = false)
    (before : Bool) :
    streamEntries (fuel + 1) (e.bytes ++ bytes) seen before =
      streamEntries fuel bytes (seen ++ [e]) (before || conflicting) := by
  obtain ⟨entry, pid, codec⟩ := e
  obtain ⟨hsize, hpid, hcodec⟩ := hread
  dsimp only at *
  subst hpid
  cases entry with
  | nil => simp at hsize; omega
  | cons b bs =>
    have hlen : lengthAt (b :: bs ++ bytes) 3 = lengthAt (b :: bs) 3 := by
      rw [lengthAt, lengthAt, byteAt_of_prefix (by omega), byteAt_of_prefix (by omega)]
    have hpid : pidAt (b :: bs ++ bytes) 1 = pidAt (b :: bs) 1 := by
      rw [pidAt, pidAt, byteAt_of_prefix (by omega), byteAt_of_prefix (by omega)]
    have htake : (b :: bs ++ bytes).take (5 + lengthAt (b :: bs) 3) = b :: bs := by
      rw [← hsize, List.take_left]
    have hdrop : (b :: bs ++ bytes).drop (5 + lengthAt (b :: bs) 3) = bytes := by
      rw [← hsize, List.drop_left]
    have hb : byteAt (b :: bs) 0 = b := rfl
    rw [hb] at hcodec
    rw [List.cons_append, streamEntries, ← List.cons_append]
    simp only [hlen, hpid, htake, hdrop, hcodec, hfresh]
    rw [if_neg (by rw [List.length_append, hsize]; omega),
      if_neg (by rw [List.length_append, hsize]; omega), if_neg (by decide)]

theorem streamEntries_complete {new seen : List StreamEntry}
    (hnew : ∀ e ∈ new, e.Read e.conflicting) (hnodup : ((seen ++ new).map (·.pid)).Nodup)
    {fuel : Nat} (hfuel : new.length ≤ fuel) (before : Bool) :
    streamEntries fuel (new.flatMap (·.bytes)) seen before =
      .ok (seen ++ new, before || new.any (·.conflicting)) := by
  induction new generalizing seen fuel before with
  | nil =>
    rw [List.flatMap_nil, List.append_nil, List.any_nil, Bool.or_false]
    cases fuel <;> rfl
  | cons e new ih =>
    cases fuel with
    | zero => cases hfuel
    | succ fuel =>
      obtain ⟨hread, hnew⟩ := List.forall_mem_cons.mp hnew
      have hsplit : seen ++ e :: new = seen ++ [e] ++ new := (List.append_assoc seen [e] new).symm
      rw [hsplit] at hnodup ⊢
      have hboth : ((seen ++ [e]).map (·.pid)).Nodup := by
        rw [List.map_append] at hnodup
        exact hnodup.of_append_left
      have hseen : (seen.map (·.pid)).Nodup := by
        rw [List.map_append] at hboth
        exact hboth.of_append_left
      rw [List.flatMap_cons, streamEntries_cons hread _ ((nodup_append_pid hseen).mp hboth),
        ih hnew hnodup (Nat.le_of_succ_le_succ hfuel), List.any_cons, Bool.or_assoc]

variable {entries : List StreamEntry}

theorem length_le_flatMap (h : ∀ e ∈ entries, e.Read e.conflicting) :
    entries.length ≤ (entries.flatMap (·.bytes)).length := by
  induction entries with
  | nil => exact Nat.le_refl _
  | cons e entries ih =>
    obtain ⟨he, h⟩ := List.forall_mem_cons.mp h
    have := ih h
    have := he.size
    rw [List.flatMap_cons, List.length_append, List.length_cons]
    omega

/-! ### The table -/

/-- What was read is what a section of the program says. -/
structure ParsedPmt.Of (p : ParsedPmt) (s : List UInt8) (program : Option Nat) : Prop where
  program : some (word s 3) = program
  head : p.head = s.take (12 + lengthAt s 10)
  fits : 12 + lengthAt s 10 ≤ s.length - 4
  bytes : s.take (s.length - 4) = p.head ++ p.entries.flatMap (·.bytes)
  read : ∀ e ∈ p.entries, e.Read e.conflicting
  nodup : (p.entries.map (·.pid)).Nodup
  descriptors : ∃ found, descriptors (p.head.drop 12) = some found ∧
    p.conflicting = (found.conflicting || p.entries.any (·.conflicting))

theorem parsePmt_eq_ok {s : List UInt8} {program : Option Nat} {p : ParsedPmt} :
    parsePmt s program = .ok p ↔ p.Of s program := by
  unfold parsePmt
  simp only [ite_error_eq_ok, not_not, Nat.not_lt]
  have hsplit (hfits : 12 + lengthAt s 10 ≤ s.length - 4) : s.take (s.length - 4) =
      s.take (12 + lengthAt s 10) ++ (s.take (s.length - 4)).drop (12 + lengthAt s 10) := by
    conv_lhs => rw [← List.take_append_drop (12 + lengthAt s 10) (s.take (s.length - 4))]
    rw [List.take_take, Nat.min_eq_left hfits]
  constructor
  · rintro ⟨hprogram, hfits, h⟩
    split at h
    · cases h
    next found hfound =>
    obtain ⟨⟨entries, conflicting⟩, hentries, h⟩ := bind_eq_ok.mp h
    obtain rfl := Except.ok.inj h
    obtain ⟨new, rfl, hbytes, hread, hnodup, hconf⟩ := streamEntries_sound hentries List.nodup_nil
    exact ⟨hprogram, rfl, hfits, by rw [hsplit hfits, hbytes], hread, hnodup, found, hfound, hconf⟩
  · intro h
    obtain ⟨found, hfound, hconf⟩ := h.descriptors
    refine ⟨h.program, h.fits, ?_⟩
    rw [← h.head, hfound]
    have hbytes : (s.take (s.length - 4)).drop (12 + lengthAt s 10) =
        p.entries.flatMap (·.bytes) := by
      have := h.bytes
      rw [hsplit h.fits, h.head] at this
      exact List.append_cancel_left this
    have hfuel : p.entries.length ≤ s.length := by
      have := length_le_flatMap h.read
      rw [← hbytes, List.length_drop, List.length_take] at this
      omega
    have hall : streamEntries s.length (p.entries.flatMap (·.bytes)) [] found.conflicting =
        .ok ([] ++ p.entries, found.conflicting || p.entries.any (·.conflicting)) :=
      @streamEntries_complete p.entries [] h.read h.nodup _ hfuel found.conflicting
    rw [hbytes]
    exact bind_eq_ok.mpr ⟨_, hall, by rw [List.nil_append, ← hconf]; rfl⟩

/-! ### The selection -/

theorem find?_filter_of_some {α : Type} {p q : α → Bool} {l : List α} {x : α}
    (h : l.find? p = some x) (hx : q x = true) : (l.filter q).find? p = some x := by
  induction l with
  | nil => cases h
  | cons y l ih =>
    rw [List.find?_cons] at h
    cases hy : p y with
    | true =>
      rw [hy] at h
      obtain rfl := Option.some.inj h
      rw [List.filter_cons_of_pos hx, List.find?_cons_of_pos hy]
    | false =>
      rw [hy] at h
      cases hq : q y with
      | true => rw [List.filter_cons_of_pos hq, List.find?_cons_of_neg (by simp [hy]), ih h]
      | false => rw [List.filter_cons_of_neg (by simp [hq]), ih h]

/-- The entries that stay. -/
def keptEntries (entries : List StreamEntry) : List StreamEntry :=
  entries.filter fun e => !(removedPids entries).contains e.pid

theorem mem_removedPids {pid : Nat} :
    pid ∈ removedPids entries ↔ ∃ e ∈ entries, e.pid = pid ∧ e.codec.isSome ∧
      ∃ selected, selectedPid entries = some selected ∧ pid ≠ selected := by
  unfold removedPids
  cases hsel : selectedPid entries with
  | none => simp
  | some selected =>
    simp only [List.mem_map, List.mem_filter, Option.isSome_some, Bool.true_and, Bool.and_eq_true,
      bne_iff_ne, ne_eq, Option.some.injEq, exists_eq_left']
    exact ⟨fun ⟨e, ⟨he, hcodec, hne⟩, hpid⟩ => ⟨e, he, hpid, hcodec, hpid ▸ hne⟩,
      fun ⟨e, he, hpid, hcodec, hne⟩ => ⟨e, ⟨he, hcodec, hpid ▸ hne⟩, hpid⟩⟩

theorem selected_not_removed {selected : Nat} (h : selectedPid entries = some selected) :
    selected ∉ removedPids entries := by
  intro hmem
  obtain ⟨_, _, _, _, selected', hsel, hne⟩ := mem_removedPids.mp hmem
  exact hne (Option.some.inj (h.symm.trans hsel))

/-- The selection stays the same without the removed streams. -/
theorem selectedPid_kept (entries : List StreamEntry) :
    selectedPid (keptEntries entries) = selectedPid entries := by
  cases hfind : entries.find? fun e => decide (e.codec = some .adtsAac) with
  | none =>
    have hnone :
        (keptEntries entries).find? (fun e => decide (e.codec = some .adtsAac)) = none := by
      rw [List.find?_eq_none] at hfind ⊢
      exact fun e he => hfind e (List.mem_of_mem_filter he)
    rw [selectedPid, selectedPid, hfind, hnone]
  | some e =>
    have hsel : selectedPid entries = some e.pid := by rw [selectedPid, hfind]; rfl
    have hkept : (!(removedPids entries).contains e.pid) = true := by
      simpa using selected_not_removed hsel
    have := find?_filter_of_some (q := fun e => !(removedPids entries).contains e.pid) hfind hkept
    rw [hsel, selectedPid, keptEntries, this]
    rfl

theorem keptEntries_of_none (h : selectedPid entries = none) :
    keptEntries entries = entries ∧ removedPids entries = [] := by
  have hremoved : removedPids entries = [] :=
    List.eq_nil_iff_forall_not_mem.mpr fun pid hmem => by
      obtain ⟨_, _, _, _, _, hsel, _⟩ := mem_removedPids.mp hmem
      rw [h] at hsel
      cases hsel
  refine ⟨?_, hremoved⟩
  rw [keptEntries, hremoved]
  exact List.filter_eq_self.mpr fun _ _ => rfl

/-! ### The rewritten section -/

/-- The byte with the version in it, with another one. -/
def withVersion (x version : UInt8) : UInt8 := (x &&& (0xc1 : UInt8)) ||| version <<< 1

/-- The beginning of a table with another length and version. -/
def rewriteHead (head : List UInt8) (len : Nat) (version : UInt8) : List UInt8 :=
  ((head.set 1 (0xb0 ||| (.ofNat (len / 256) &&& (15 : UInt8)))).set 2 (.ofNat len)).set 5
    (withVersion (byteAt head 5) version)

namespace ParsedPmt

variable {p : ParsedPmt} {s : List UInt8} {program : Option Nat}

/-- The length field of the table without the removed streams. -/
def keptLength (p : ParsedPmt) : Nat :=
  p.head.length + ((keptEntries p.entries).flatMap (·.bytes)).length + 1

theorem effective_eq (hhead : 6 ≤ p.head.length) :
    p.effective =
      rewriteHead p.head p.keptLength 0 ++ (keptEntries p.entries).flatMap (·.bytes) := by
  have hzero (x : UInt8) : x ||| (0 : UInt8) <<< 1 = x := UInt8.or_zero
  show clearVersion (setLength (p.head ++ (keptEntries p.entries).flatMap (·.bytes))) = _
  unfold clearVersion setLength rewriteHead
  simp only [withVersion, hzero]
  rw [List.length_append, List.set_append_left _ _ (by omega),
    List.set_append_left _ _ (by simp; omega), List.set_append_left _ _ (by simp; omega),
    byteAt_of_prefix (by simp; omega), byteAt_set_of_ne _ (by decide),
    byteAt_set_of_ne _ (by decide)]
  rfl

theorem length_rewriteHead (head : List UInt8) (len : Nat) (version : UInt8) :
    (rewriteHead head len version).length = head.length := by
  simp [rewriteHead]

theorem byteAt_rewriteHead {head : List UInt8} (hhead : 6 ≤ head.length) (len : Nat)
    (version : UInt8) (i : Nat) :
    byteAt (rewriteHead head len version) i =
      if 5 = i then withVersion (byteAt head 5) version
      else if 2 = i then .ofNat len
      else if 1 = i then 0xb0 ||| (.ofNat (len / 256) &&& 15)
      else byteAt head i := by
  unfold rewriteHead
  rw [byteAt_set (by simp; omega), byteAt_set (by simp; omega), byteAt_set (by omega)]

/-- The section up to its checksum. -/
theorem set_version (hhead : 6 ≤ p.head.length) (version : UInt8) :
    p.effective.set 5 (byteAt p.effective 5 ||| version <<< 1) =
      rewriteHead p.head p.keptLength version ++ (keptEntries p.entries).flatMap (·.bytes) := by
  have hzero (x : UInt8) : x ||| (0 : UInt8) <<< 1 = x := UInt8.or_zero
  rw [effective_eq hhead, List.set_append_left _ _ (by rw [length_rewriteHead]; omega),
    byteAt_of_prefix (by rw [length_rewriteHead]; omega), byteAt_rewriteHead hhead, if_pos rfl]
  unfold rewriteHead withVersion
  rw [hzero, List.set_set]

theorem versioned_eq (hhead : 6 ≤ p.head.length) (version : UInt8) :
    ∃ crc, versioned p.effective version =
      rewriteHead p.head p.keptLength version ++ (keptEntries p.entries).flatMap (·.bytes) ++
        be32 crc := by
  refine ⟨mpegCrc32 (p.effective.set 5 (byteAt p.effective 5 ||| version <<< 1)), ?_⟩
  rw [← set_version hhead]
  rfl

theorem mpegCrc32_versioned (effective : List UInt8) (version : UInt8) :
    mpegCrc32 (versioned effective version) = 0 := mpegCrc32_append_be32 _

end ParsedPmt

/-! ### Version bits -/

theorem or_and_right (x y z : UInt8) : (x ||| y) &&& z = (x &&& z) ||| (y &&& z) :=
  UInt8.toBitVec_inj.mp BitVec.and_or_distrib_right

theorem shiftLeft_version : ∀ v : UInt8, v.toNat < 32 →
    (v <<< 1) &&& 0xc1 = 0 ∧ ((v <<< 1) >>> 1) &&& 31 = v :=
  forall_byte (by decide +kernel)

theorem shiftRight_flags : ∀ x : UInt8, ((x &&& 0xc1) >>> 1) &&& 31 = 0 :=
  forall_byte (by decide +kernel)

/-- The bits around the version stay. -/
theorem withVersion_and {v : UInt8} (hv : v.toNat < 32) (x : UInt8) :
    withVersion x v &&& 0xc1 = x &&& 0xc1 := by
  rw [withVersion, or_and_right, (shiftLeft_version v hv).1, UInt8.or_zero, UInt8.and_assoc]
  rfl

theorem withVersion_current {v : UInt8} (hv : v.toNat < 32) (x : UInt8) :
    withVersion x v &&& 1 = x &&& 1 := by
  have h := congrArg (· &&& (1 : UInt8)) (withVersion_and hv x)
  simp only [UInt8.and_assoc] at h
  exact h

theorem withVersion_shiftRight {v : UInt8} (hv : v.toNat < 32) (x : UInt8) :
    (withVersion x v >>> 1) &&& 31 = v := by
  rw [withVersion, UInt8.shiftRight_or, or_and_right, shiftRight_flags,
    (shiftLeft_version v hv).2, UInt8.zero_or]

/-! ### The packet -/

theorem length_flatMap_filter (entries : List StreamEntry) (q : StreamEntry → Bool) :
    ((entries.filter q).flatMap (·.bytes)).length ≤ (entries.flatMap (·.bytes)).length := by
  induction entries with
  | nil => exact Nat.le_refl _
  | cons e entries ih =>
    rw [List.flatMap_cons, List.length_append, List.filter_cons]
    split
    · rw [List.flatMap_cons, List.length_append]
      omega
    · omega

section
variable {packet out : List UInt8}

/-- The header and the pointer field of a rewritten packet. -/
def packetHead (packet : List UInt8) : List UInt8 :=
  packet.take 3 ++ [(byteAt packet 3 &&& 0x0f) ||| 0x10, 0]

theorem length_packetHead (h : 3 ≤ packet.length) : (packetHead packet).length = 5 := by
  rw [packetHead, List.length_append, List.length_take, Nat.min_eq_left h]
  rfl

theorem byteAt_append_right {s t : List UInt8} {n : Nat} (hs : s.length = n) (i : Nat) :
    byteAt (s ++ t) (n + i) = byteAt t i := by
  unfold byteAt
  rw [List.getD_eq_getElem?_getD, List.getD_eq_getElem?_getD, List.getElem?_append_right (by omega),
    hs, Nat.add_sub_cancel_left]

theorem byteAt_packetHead (h : 3 ≤ packet.length) (hi : i < 3) :
    byteAt (packetHead packet) i = byteAt packet i := by
  rw [packetHead, byteAt_of_prefix (by rw [List.length_take]; omega), byteAt_take_of_lt hi]

theorem sectionPacket_eq (h : 3 ≤ packet.length) : sectionPacket packet out = packetHead packet ++
    (out ++ List.replicate (tsPacketLen - (5 + out.length)) 0xff) := by
  rw [← List.append_assoc, ← length_packetHead h, ← List.length_append]
  rfl

theorem length_sectionPacket (h : 3 ≤ packet.length) (hout : 5 + out.length ≤ tsPacketLen) :
    (sectionPacket packet out).length = tsPacketLen := by
  rw [sectionPacket_eq h, List.length_append, List.length_append, length_packetHead h,
    List.length_replicate]
  omega

theorem byteAt_sectionPacket (h : 3 ≤ packet.length) (hi : i < out.length) :
    byteAt (sectionPacket packet out) (5 + i) = byteAt out i := by
  rw [sectionPacket_eq h, byteAt_append_right (length_packetHead h), byteAt_of_prefix hi]

theorem byteAt_sectionPacket_head (h : 3 ≤ packet.length) (hi : i < 5) :
    byteAt (sectionPacket packet out) i = byteAt (packetHead packet) i := by
  rw [sectionPacket_eq h, byteAt_of_prefix (by rw [length_packetHead h]; exact hi)]

theorem and_0f_or_10_and_c0 : ∀ x : UInt8, ((x &&& 0x0f) ||| 0x10) &&& 0xc0 = 0 :=
  forall_byte (by decide +kernel)

/-- A packet with a section of its own length and checksum is accepted. -/
theorem isSection_sectionPacket {id : UInt8} {min : Nat} {program : Option Nat}
    (hpacket : 3 ≤ packet.length) (hsync : byteAt packet 0 = tsSync)
    (herror : byteAt packet 1 &&& 0x80 = 0) (hunit : byteAt packet 1 &&& 0x40 ≠ 0)
    (hfits : 5 + out.length ≤ tsPacketLen) {len : Nat} (hlen : out.length = 3 + len)
    (hmin : min ≤ len) (height : 9 ≤ out.length) (hid : byteAt out 0 = id)
    (hhigh : byteAt out 1 = 0xb0) (hlow : byteAt out 2 = .ofNat len)
    (hprogram : program.any (· ≠ word out 3) = false) (hcurrent : byteAt out 5 &&& 1 ≠ 0)
    (hfirst : byteAt out 6 = 0) (hlast : byteAt out 7 = 0) (hcrc : mpegCrc32 out = 0) :
    IsSection (sectionPacket packet out) id min program 4 out := by
  have hbound : tsPacketLen = 188 := rfl
  have hbyte {i : Nat} (hi : i < out.length) :
      byteAt (sectionPacket packet out) (5 + i) = byteAt out i := byteAt_sectionPacket hpacket hi
  have hhead {i : Nat} (hi : i < 5) :
      byteAt (sectionPacket packet out) i = byteAt (packetHead packet) i :=
    byteAt_sectionPacket_head hpacket hi
  have hlength : lengthAt (sectionPacket packet out) (4 + 2) = len := by
    rw [lengthAt, show (4 + 2 : Nat) = 5 + 1 from rfl, hbyte (by omega), hhigh,
      show (5 + 1 + 1 : Nat) = 5 + 2 from rfl, hbyte (by omega), hlow, UInt8.toNat_ofNat']
    show 0 * 256 + len % 256 = len
    omega
  have hthree : byteAt (packetHead packet) 3 = (byteAt packet 3 &&& 0x0f) ||| 0x10 := by
    have htake : (packet.take 3).length = 3 := by rw [List.length_take]; omega
    exact byteAt_append_right htake 0
  have hfour : byteAt (packetHead packet) 4 = 0 := by
    have htake : (packet.take 3).length = 3 := by rw [List.length_take]; omega
    exact byteAt_append_right htake 1
  have hsplit : (sectionPacket packet out).take (4 + 4 + len) = packetHead packet ++ out := by
    rw [sectionPacket_eq hpacket, ← List.append_assoc, List.take_left']
    rw [List.length_append, length_packetHead hpacket]
    omega
  constructor
  · rw [hhead (by omega), hhead (by omega), hhead (by omega), byteAt_packetHead hpacket (by omega),
      byteAt_packetHead hpacket (by omega), hthree]
    exact ⟨hsync, herror, and_0f_or_10_and_c0 _⟩
  · exact LiveAudioSelection.payload_sectionPacket hpacket out
  · rwa [hhead (by omega), byteAt_packetHead hpacket (by omega)]
  · rw [hhead (by omega), hfour]
  · exact (hbyte (by omega)).trans hid
  · rw [show (4 + 2 : Nat) = 5 + 1 from rfl, hbyte (by omega), hhigh]
    rfl
  · rw [hlength]
    omega
  · rw [length_sectionPacket hpacket hfits, show (4 + 6 : Nat) = 5 + 5 from rfl, hbyte (by omega)]
    exact ⟨by omega, hcurrent⟩
  · rwa [word, show (4 + 4 : Nat) = 5 + 3 from rfl, hbyte (by omega),
      show (5 + 3 + 1 : Nat) = 5 + 4 from rfl, hbyte (by omega)]
  · rw [hlength, length_sectionPacket hpacket hfits]
    omega
  · rw [hlength, hsplit, List.drop_left' (length_packetHead hpacket)]
  · exact ⟨hcurrent, hcrc⟩
  · exact ⟨hfirst, hlast⟩
  · have hdrop : (sectionPacket packet out).drop (4 + 4 + len) =
        List.replicate (tsPacketLen - (5 + out.length)) 0xff := by
      rw [sectionPacket_eq hpacket, ← List.append_assoc, List.drop_left']
      rw [List.length_append, length_packetHead hpacket]
      omega
    rw [hlength, hdrop, List.any_replicate]
    simp

end

/-! ### What is read of the rewritten table -/

/-- The table of a packet, accepted and read. -/
structure ReadPmt (packet : List UInt8) (program : Option Nat) (s : List UInt8) (p : ParsedPmt) :
    Prop where
  length : packet.length = tsPacketLen
  accepted : ∃ off, IsSection packet 2 13 program off s
  parsed : p.Of s program

namespace ReadPmt

variable {packet s : List UInt8} {program : Option Nat} {p : ParsedPmt} {v : UInt8}

theorem length_head (h : ReadPmt packet program s p) : p.head.length = 12 + lengthAt s 10 := by
  have := h.parsed.fits
  rw [h.parsed.head, List.length_take]
  omega

theorem length_section (h : ReadPmt packet program s p) : 16 ≤ s.length ∧ s.length ≤ 183 := by
  obtain ⟨off, hs⟩ := h.accepted
  have := hs.length_eq
  have := hs.length.1
  have := (hs.high_eq h.length).2.2
  omega

theorem keptLength_le (h : ReadPmt packet program s p) : p.keptLength + 3 ≤ s.length := by
  have hbytes := congrArg List.length h.parsed.bytes
  have hkept := length_flatMap_filter p.entries
    (fun e => !(removedPids p.entries).contains e.pid)
  have := h.length_section
  rw [List.length_take, List.length_append] at hbytes
  unfold ParsedPmt.keptLength keptEntries
  omega

/-- The bytes in front of the entries. -/
theorem byteAt_versioned (h : ReadPmt packet program s p) (hi : i < 12) :
    byteAt (versioned p.effective v) i =
      if 5 = i then withVersion (byteAt s 5) v
      else if 2 = i then .ofNat p.keptLength
      else if 1 = i then 0xb0
      else byteAt s i := by
  have hhead := h.length_head
  have hlen := h.keptLength_le
  have hmax := h.length_section.2
  have hs {j : Nat} (hj : j < 12) : byteAt p.head j = byteAt s j := by
    rw [h.parsed.head, byteAt_take_of_lt (by omega)]
  have hdiv : p.keptLength / 256 = 0 := by omega
  obtain ⟨crc, heq⟩ := ParsedPmt.versioned_eq (p := p) (by omega) v
  rw [heq, List.append_assoc, byteAt_of_prefix (by rw [ParsedPmt.length_rewriteHead]; omega),
    ParsedPmt.byteAt_rewriteHead (by omega), hs hi, hs (by omega), hdiv]
  rfl

theorem length_versioned (h : ReadPmt packet program s p) :
    (versioned p.effective v).length = 3 + p.keptLength := by
  have hhead := h.length_head
  obtain ⟨crc, heq⟩ := ParsedPmt.versioned_eq (p := p) (by omega) v
  rw [heq, List.length_append, List.length_append, ParsedPmt.length_rewriteHead, length_be32]
  unfold ParsedPmt.keptLength
  omega

theorem byteAt_section (h : ReadPmt packet program s p) :
    byteAt s 0 = 2 ∧ byteAt s 5 &&& 1 ≠ 0 ∧ byteAt s 6 = 0 ∧ byteAt s 7 = 0 := by
  obtain ⟨off, hs⟩ := h.accepted
  have hlen := h.length_section.1
  exact ⟨(hs.byteAt_eq (by omega)).trans hs.tableId, hs.checked.1, hs.single.1, hs.single.2⟩

/-- The rewritten table is accepted. -/
theorem isSection_rewritten (h : ReadPmt packet program s p) (hv : v.toNat < 32) :
    IsSection (sectionPacket packet (versioned p.effective v)) 2 13 program 4
      (versioned p.effective v) := by
  have hbound : tsPacketLen = 188 := rfl
  have hpacket := h.length
  have hlen := h.keptLength_le
  have hsize := h.length_section
  have hhead := h.length_head
  have hkept : 13 ≤ p.keptLength := by unfold ParsedPmt.keptLength; omega
  obtain ⟨htable, hcurrent, hfirst, hlast⟩ := h.byteAt_section
  have hprogram := h.parsed.program
  obtain ⟨off, hs⟩ := h.accepted
  refine isSection_sectionPacket (by omega) hs.header.1 hs.header.2.1 hs.unitStart
    (by rw [h.length_versioned]; omega) h.length_versioned hkept (by rw [h.length_versioned]; omega)
    ?_ ?_ ?_ ?_ ?_ ?_ ?_ (ParsedPmt.mpegCrc32_versioned _ _)
  · rw [h.byteAt_versioned (by omega)]
    exact htable
  · rw [h.byteAt_versioned (by omega)]
    rfl
  · rw [h.byteAt_versioned (by omega)]
    rfl
  · rw [word, h.byteAt_versioned (by omega), h.byteAt_versioned (by omega), ← hprogram]
    simp [word]
  · rw [h.byteAt_versioned (by omega), if_pos rfl, withVersion_current hv]
    exact hcurrent
  · rw [h.byteAt_versioned (by omega)]
    exact hfirst
  · rw [h.byteAt_versioned (by omega)]
    exact hlast

/-- What is read of the rewritten table: the entries that stay. -/
theorem parsed_rewritten (h : ReadPmt packet program s p) :
    ∃ conflicting, ParsedPmt.Of
      ⟨rewriteHead p.head p.keptLength v, keptEntries p.entries, conflicting⟩
      (versioned p.effective v) program := by
  have hhead := h.length_head
  obtain ⟨found, hfound, -⟩ := h.parsed.descriptors
  obtain ⟨crc, heq⟩ := ParsedPmt.versioned_eq (p := p) (by omega) v
  have hinfo : lengthAt (versioned p.effective v) 10 = lengthAt s 10 := by
    rw [lengthAt, lengthAt, h.byteAt_versioned (by omega), h.byteAt_versioned (by omega)]
    rfl
  have hlen : (versioned p.effective v).length - 4 = (rewriteHead p.head p.keptLength v ++
      (keptEntries p.entries).flatMap (·.bytes)).length := by
    rw [heq, List.length_append, length_be32, Nat.add_sub_cancel]
  refine ⟨found.conflicting || (keptEntries p.entries).any (·.conflicting), ?_, ?_, ?_, ?_, ?_, ?_,
    found, ?_, rfl⟩
  · rw [word, h.byteAt_versioned (by omega), h.byteAt_versioned (by omega), ← h.parsed.program]
    rfl
  · rw [hinfo, ← hhead, heq, List.append_assoc, List.take_left']
    rw [ParsedPmt.length_rewriteHead]
  · rw [hinfo, hlen, List.length_append, ParsedPmt.length_rewriteHead]
    omega
  · rw [hlen, heq, List.take_left]
  · exact fun e he => h.parsed.read e (List.mem_of_mem_filter he)
  · exact h.parsed.nodup.sublist (List.filter_sublist.map _)
  · rw [← hfound, rewriteHead, List.drop_set_of_lt (by omega), List.drop_set_of_lt (by omega),
      List.drop_set_of_lt (by omega)]

end ReadPmt

end Outpace.Media

import Outpace.Wire.BencodeRoundTrip
import Outpace.Wire.Transport

/-!
# Round trip and identity of transport files

Decoding an encoded dictionary comes down to reading its fields (`decodeTransport_encodeTransport`),
so what the infohash of a file depends on is what `describe` and `hashDescriptor` look up: the six
required fields, the shape of `pieces`, and for a live descriptor the optional selector fields.
-/

namespace Outpace.Wire.Transport

/-- A descriptor dictionary that the parser can read back: a dictionary of the source, nested no
deeper than the parser goes, whose encoding is a byte vector. -/
structure Dictionary where
  value : Bencode
  isDict : Metainfo.isDict value = true
  ordered : value.Ordered
  nesting_le : value.nesting ≤ maxDepth
  fits : value.encode.length ≤ u64Max

/-- The field is a positive integer. -/
def Positive (raw : Bencode) (key : Bytes) : Prop := ∃ i, raw.get key = some (.int i) ∧ 0 < i.toInt

/-- The classification of a decoded descriptor: no usable `pieces`. -/
def isLive (raw : Bencode) : Bool := (decodePieces raw).isEmpty

/-- An optional field as far as the infohash covers it. -/
def covered (raw : Bencode) (key : Bytes) : Option Bencode :=
  if isLive raw then raw.get key else none

variable {c : AesCbc} {raw : Bencode} {key : Bytes}

/-! ### The round trip -/

theorem length_transportMagic : transportMagic.length = 18 := rfl

theorem decodeTransport_encodeTransport (hc : c.Lawful) (d : Dictionary) :
    decodeTransport c (encodeTransport c d.value) = describe d.value := by
  have hlen := hc.length_encrypt transportKey transportIv d.value.encode
  have hplain := hc.decrypt_encrypt transportKey transportIv d.value.encode
  unfold decodeTransport encodeTransport decodeTransportWithKey encodeTransportWithKey
  generalize c.encryptPadded transportKey transportIv d.value.encode = body at hlen hplain
  have hmagic : isTransportFile (transportMagic ++ [0, 2] ++ body) = true := by
    rw [isTransportFile, List.append_assoc, List.isPrefixOf_iff_prefix]
    exact ⟨_, rfl⟩
  have hversion : ((transportMagic ++ [0, 2] ++ body).drop 18).take 2 = [0, 2] := rfl
  have hbody : (transportMagic ++ [0, 2] ++ body).drop 20 = body := rfl
  have hne : ¬(body = [] ∨ body.length % 16 ≠ 0) := by
    rintro (rfl | h)
    · simp at hlen
    · omega
  simp only [hmagic, hversion, hbody, hplain, Bencode.parse_encode d.ordered d.nesting_le d.fits,
    d.isDict]
  rw [if_neg (by simp), if_neg (by simp [length_transportMagic]; omega), if_neg (by simp), if_neg hne,
    if_neg (by simp)]

theorem requiredPositive_ok (h : Positive raw key) : ∃ n, requiredPositive raw key = .ok n := by
  obtain ⟨i, hget, hpos⟩ := h
  refine ⟨i.toInt.toNat, ?_⟩
  simp [requiredPositive, hget, Bencode.asInt, hpos]

theorem requiredPositive_error (h : ¬Positive raw key) :
    requiredPositive raw key = .error (.invalid "missing or non-positive descriptor field") := by
  unfold requiredPositive
  split
  · next i hi =>
    obtain ⟨v, hget, hv⟩ := Option.bind_eq_some_iff.mp hi
    have hvi : v = .int i := by
      cases v <;> simp [Bencode.asInt] at hv
      rw [hv]
    rw [if_neg fun hpos => h ⟨i, hvi ▸ hget, hpos⟩]
  · rfl

theorem describe_ok (hp : Positive raw pieceLengthKey) (hc : Positive raw chunkLengthKey) :
    ∃ desc, describe raw = .ok desc ∧ desc.raw = raw ∧ desc.isLive = isLive raw := by
  obtain ⟨p, hp⟩ := requiredPositive_ok hp
  obtain ⟨q, hq⟩ := requiredPositive_ok hc
  simp only [describe, hp, hq, bind, Except.bind, pure, Except.pure, Except.ok.injEq]
  exact ⟨_, rfl, rfl, rfl⟩

theorem describe_error (h : ¬(Positive raw pieceLengthKey ∧ Positive raw chunkLengthKey)) :
    describe raw = .error (.invalid "missing or non-positive descriptor field") := by
  by_cases hp : Positive raw pieceLengthKey
  · obtain ⟨p, hp'⟩ := requiredPositive_ok hp
    simp only [describe, hp', requiredPositive_error fun hc => h ⟨hp, hc⟩]
    rfl
  · simp only [describe, requiredPositive_error hp]
    rfl

/-! ### The infohash -/

theorem tryInfohash_eq (hc : c.Lawful) (d : Dictionary)
    (hp : Positive d.value pieceLengthKey) (hq : Positive d.value chunkLengthKey) :
    tryInfohashOfTransport c (encodeTransport c d.value) =
      hashDescriptor d.value (isLive d.value) := by
  obtain ⟨desc, hdesc, hraw, hlive⟩ := describe_ok hp hq
  rw [tryInfohashOfTransport, decodeTransport_encodeTransport hc, hdesc]
  show hashDescriptor desc.raw desc.isLive = _
  rw [hraw, hlive]

theorem tryInfohash_error (hc : c.Lawful) (d : Dictionary)
    (h : ¬(Positive d.value pieceLengthKey ∧ Positive d.value chunkLengthKey)) :
    tryInfohashOfTransport c (encodeTransport c d.value) =
      .error (.invalid "missing or non-positive descriptor field") := by
  rw [tryInfohashOfTransport, decodeTransport_encodeTransport hc, describe_error h]
  rfl

theorem requiredPair_congr {raw raw' : Bencode} (h : raw.get key = raw'.get key) :
    requiredPair raw key = requiredPair raw' key := by
  rw [requiredPair, requiredPair, h]

theorem mapM_congr_mem {α β ε : Type} {f g : α → Except ε β} {l : List α}
    (h : ∀ a ∈ l, f a = g a) : l.mapM f = l.mapM g := by
  induction l with
  | nil => rfl
  | cons a l ih =>
    rw [List.mapM_cons, List.mapM_cons, h a List.mem_cons_self,
      ih fun b hb => h b (List.mem_cons_of_mem _ hb)]

/-- The optional pairs of a descriptor are those of the covered fields. -/
theorem optional_eq (raw : Bencode) :
    (if isLive raw then optionalKeys.filterMap fun key => (raw.get key).map (pair key) else []) =
      optionalKeys.filterMap fun key => (covered raw key).map (pair key) := by
  cases h : isLive raw <;> simp [covered, h]

theorem hashDescriptor_congr {raw raw' : Bencode}
    (hreq : ∀ key ∈ requiredKeys, raw.get key = raw'.get key)
    (hopt : ∀ key ∈ optionalKeys, covered raw key = covered raw' key) :
    hashDescriptor raw (isLive raw) = hashDescriptor raw' (isLive raw') := by
  have hmap : requiredKeys.mapM (requiredPair raw) = requiredKeys.mapM (requiredPair raw') :=
    mapM_congr_mem fun key hkey => requiredPair_congr (hreq key hkey)
  have hfilter : (optionalKeys.filterMap fun key => (covered raw key).map (pair key)) =
      optionalKeys.filterMap fun key => (covered raw' key).map (pair key) :=
    List.filterMap_congr fun key hkey => by rw [hopt key hkey]
  simp only [hashDescriptor, hmap, optional_eq, hfilter]

theorem mapM_error_iff {α β ε : Type} {f : α → Except ε β} {l : List α} :
    (∃ e, l.mapM f = .error e) ↔ ∃ a ∈ l, ∃ e, f a = .error e := by
  induction l with
  | nil => simp [pure, Except.pure]
  | cons a l ih =>
    rw [List.mapM_cons]
    cases hf : f a with
    | error e =>
      constructor
      · exact fun _ => ⟨a, List.mem_cons_self, e, hf⟩
      · exact fun _ => ⟨e, rfl⟩
    | ok b =>
      have hrest : (∃ e, (do let b ← Except.ok b; let bs ← l.mapM f; pure (b :: bs) :
          Except ε (List β)) = .error e) ↔ ∃ e, l.mapM f = .error e := by
        cases l.mapM f with
        | error e => exact ⟨fun _ => ⟨e, rfl⟩, fun _ => ⟨e, rfl⟩⟩
        | ok bs =>
          constructor
          · rintro ⟨e, he⟩; cases he
          · rintro ⟨e, he⟩; cases he
      rw [hrest, ih]
      simp [hf]

/-- A hash fails exactly when a required field is missing. -/
theorem hashDescriptor_error_iff {live : Bool} :
    (∃ e, hashDescriptor raw live = .error e) ↔ ∃ key ∈ requiredKeys, raw.get key = none := by
  have hpair : ∀ key, (∃ e, requiredPair raw key = .error e) ↔ raw.get key = none := fun key => by
    unfold requiredPair
    cases raw.get key <;> simp
  have hmap : (∃ e, hashDescriptor raw live = .error e) ↔
      ∃ e, requiredKeys.mapM (requiredPair raw) = .error e := by
    unfold hashDescriptor
    cases requiredKeys.mapM (requiredPair raw) with
    | error e => exact ⟨fun _ => ⟨e, rfl⟩, fun _ => ⟨e, rfl⟩⟩
    | ok pairs =>
      constructor
      · rintro ⟨e, he⟩; cases he
      · rintro ⟨e, he⟩; cases he
  rw [hmap, mapM_error_iff]
  simp only [hpair]

/-- Transport descriptors round trip, and the infohash of a file depends only on the six required
fields and on the optional fields as far as its kind covers them. It fails exactly when a required
field is missing or one of the two lengths is not a positive integer. -/
theorem transport_identity (c : AesCbc) (hc : c.Lawful) :
    (∀ d : Dictionary, Positive d.value pieceLengthKey → Positive d.value chunkLengthKey →
      ∃ desc, decodeTransport c (encodeTransport c d.value) = .ok desc ∧ desc.raw = d.value) ∧
    (∀ d d' : Dictionary, (∀ key ∈ requiredKeys, d.value.get key = d'.value.get key) →
      (∀ key ∈ optionalKeys, covered d.value key = covered d'.value key) →
      tryInfohashOfTransport c (encodeTransport c d.value) =
        tryInfohashOfTransport c (encodeTransport c d'.value)) ∧
    (∀ d : Dictionary,
      (∃ e, tryInfohashOfTransport c (encodeTransport c d.value) = .error e) ↔
        (∃ key ∈ requiredKeys, d.value.get key = none) ∨
          ¬(Positive d.value pieceLengthKey ∧ Positive d.value chunkLengthKey)) := by
  refine ⟨fun d hp hq => ?_, fun d d' hreq hopt => ?_, fun d => ?_⟩
  · obtain ⟨desc, hdesc, hraw, -⟩ := describe_ok hp hq
    exact ⟨desc, (decodeTransport_encodeTransport hc d).trans hdesc, hraw⟩
  · have hpos : ∀ key ∈ requiredKeys, Positive d.value key ↔ Positive d'.value key :=
      fun key hkey => by rw [Positive, Positive, hreq key hkey]
    have hp := hpos pieceLengthKey (by simp [requiredKeys])
    have hq := hpos chunkLengthKey (by simp [requiredKeys])
    by_cases h : Positive d.value pieceLengthKey ∧ Positive d.value chunkLengthKey
    · rw [tryInfohash_eq hc d h.1 h.2, tryInfohash_eq hc d' (hp.mp h.1) (hq.mp h.2)]
      exact hashDescriptor_congr hreq hopt
    · rw [tryInfohash_error hc d h, tryInfohash_error hc d' (by rwa [← hp, ← hq])]
  · by_cases h : Positive d.value pieceLengthKey ∧ Positive d.value chunkLengthKey
    · rw [tryInfohash_eq hc d h.1 h.2, hashDescriptor_error_iff]
      simp [h]
    · rw [tryInfohash_error hc d h]
      simp [h]

/-! ### Sample files

A cipher given by a table of AES-128-CBC results, with the bare PKCS7 padding for what the table does
not list.
-/

def padLength (pt : Bytes) : Nat := 16 - pt.length % 16

def pkcs7Pad (pt : Bytes) : Bytes := pt ++ List.replicate (padLength pt) (.ofNat (padLength pt))

def pkcs7Unpad (ct : Bytes) : Option Bytes :=
  match ct.getLast? with
  | none => none
  | some last =>
    if last.toNat = 0 ∨ 16 < last.toNat ∨ ct.length < last.toNat then none
    else
      let pt := ct.take (ct.length - last.toNat)
      if ct = pt ++ List.replicate last.toNat last then some pt else none

theorem pkcs7Unpad_pad (pt : Bytes) : pkcs7Unpad (pkcs7Pad pt) = some pt := by
  have hpos : 0 < padLength pt := by unfold padLength; omega
  have hle : padLength pt ≤ 16 := Nat.sub_le _ _
  have hval : (UInt8.ofNat (padLength pt)).toNat = padLength pt := by
    rw [UInt8.toNat_ofNat']
    exact Nat.mod_eq_of_lt (by omega)
  have hlast : (pkcs7Pad pt).getLast? = some (.ofNat (padLength pt)) := by
    rw [pkcs7Pad, List.getLast?_append, List.getLast?_replicate, if_neg (by omega)]
    rfl
  have hlen : (pkcs7Pad pt).length = pt.length + padLength pt := by
    rw [pkcs7Pad, List.length_append, List.length_replicate]
  have htake : (pkcs7Pad pt).take ((pkcs7Pad pt).length - padLength pt) = pt := by
    rw [hlen, Nat.add_sub_cancel, pkcs7Pad, List.take_left' rfl]
  simp only [pkcs7Unpad, hlast, hval, htake]
  rw [if_neg (by omega), if_pos (by rfl)]

def tableEncrypt (table : List (Bytes × Bytes)) (pt : Bytes) : Bytes :=
  match table.find? fun e => e.1 = pt with
  | some e => e.2
  | none => pkcs7Pad pt

def tableDecrypt (table : List (Bytes × Bytes)) (ct : Bytes) : Option Bytes :=
  match table.find? fun e => e.2 = ct with
  | some e => some e.1
  | none => pkcs7Unpad ct

def tableCipher (table : List (Bytes × Bytes)) : AesCbc :=
  ⟨fun _ _ => tableEncrypt table, fun _ _ => tableDecrypt table⟩

theorem tableCipher_lawful {table : List (Bytes × Bytes)}
    (hfind : ∀ e ∈ table, (table.find? fun e' => e'.2 = e.2) = some e)
    (hunpad : ∀ e ∈ table, pkcs7Unpad e.2 = none)
    (hlen : ∀ e ∈ table, e.2.length = 16 * (e.1.length / 16 + 1)) : (tableCipher table).Lawful where
  decrypt_encrypt key iv pt := by
    show tableDecrypt table (tableEncrypt table pt) = some pt
    unfold tableEncrypt
    split
    · next e h =>
      have he : e.1 = pt := by simpa using List.find?_some h
      rw [tableDecrypt, hfind e (List.mem_of_find?_eq_some h), ← he]
    · unfold tableDecrypt
      split
      · next e h =>
        have he : e.2 = pkcs7Pad pt := by simpa using List.find?_some h
        have hnone := hunpad e (List.mem_of_find?_eq_some h)
        rw [he, pkcs7Unpad_pad] at hnone
        cases hnone
      · exact pkcs7Unpad_pad pt
  length_encrypt key iv pt := by
    show (tableEncrypt table pt).length = _
    unfold tableEncrypt
    split
    · next e h =>
      have he : e.1 = pt := by simpa using List.find?_some h
      rw [hlen e (List.mem_of_find?_eq_some h), he]
    · rw [pkcs7Pad, List.length_append, List.length_replicate, padLength]
      omega

/-- A descriptor with the six required fields and `premium`, and room for `pieces` and `title`. -/
def sampleEntries (pieceLength : Int64) (pieces title : List (Bytes × Bencode)) :
    List (Bytes × Bencode) :=
  [(authmethodKey, .bytes [82, 83, 65]), (bitrateKey, .int 1), (chunkLengthKey, .int 16),
    (nameKey, .bytes [97]), (pieceLengthKey, .int pieceLength)] ++ pieces ++
    [(premiumKey, .int 1), (pubkeyKey, .bytes [107])] ++ title

def sampleLive : Bencode := .dict (sampleEntries 32 [] [])

/-- The live sample with one piece hash. -/
def sampleVod : Bencode := .dict (sampleEntries 32 [(piecesKey, .bytes (List.replicate 20 112))] [])

def sampleZeroLength : Bencode := .dict (sampleEntries 0 [] [])

/-- A `title`, which no infohash covers. -/
def sampleTitle : List (Bytes × Bencode) := [([116, 105, 116, 108, 101], .bytes [116])]

def sampleTitled : Bencode := .dict (sampleEntries 32 [] sampleTitle)

/-- What the ciphertexts of the samples begin with, as their plaintexts begin alike. -/
def sampleHead : Bytes :=
  [73, 62, 235, 86, 85, 135, 46, 232, 170, 69, 170, 139, 98, 60, 65, 79, 12, 111, 207, 20, 23,
    234, 133, 236, 170, 150, 163, 251, 197, 186, 205, 43, 168, 38, 80, 164, 205, 75, 250, 94,
    135, 52, 205, 39, 197, 204, 114, 133, 131, 76, 238, 145, 157, 18, 222, 23, 172, 154, 179,
    133, 50, 40, 113, 21]

/-- The AES-128-CBC results for the samples under the transport key. -/
def sampleCipher : AesCbc := tableCipher [
  (sampleLive.encode,
    sampleHead ++ [213, 240, 108, 235, 27, 71, 232, 227, 141, 59, 75, 180, 145, 150, 151, 76, 80,
    185, 122, 93, 24, 136, 169, 206, 116, 114, 152, 34, 155, 101, 26, 128, 175, 204, 100, 252,
    71, 41, 126, 189, 243, 212, 232, 199, 136, 188, 211, 77]),
  (sampleVod.encode,
    sampleHead ++ [222, 37, 45, 249, 66, 135, 231, 175, 230, 241, 61, 111, 103, 195, 100, 115,
    18, 240, 233, 85, 221, 69, 252, 216, 64, 216, 76, 123, 168, 67, 130, 5, 46, 162, 46, 135,
    247, 244, 26, 7, 54, 149, 158, 26, 166, 0, 6, 66, 113, 38, 204, 215, 94, 82, 154, 1, 22, 33,
    1, 178, 235, 100, 108, 65, 193, 102, 255, 129, 69, 169, 251, 57, 142, 114, 183, 56, 207, 15,
    93, 29]),
  (sampleZeroLength.encode,
    sampleHead ++ [205, 23, 55, 9, 233, 192, 180, 32, 136, 156, 58, 237, 193, 7, 163, 72, 173, 5,
    105, 43, 0, 44, 165, 179, 137, 157, 94, 198, 40, 125, 145, 200, 131, 168, 48, 188, 112, 144,
    64, 0, 199, 138, 16, 30, 154, 136, 174, 146]),
  (sampleTitled.encode,
    sampleHead ++ [213, 240, 108, 235, 27, 71, 232, 227, 141, 59, 75, 180, 145, 150, 151, 76, 80,
    185, 122, 93, 24, 136, 169, 206, 116, 114, 152, 34, 155, 101, 26, 128, 135, 252, 139, 50, 35,
    108, 144, 62, 107, 32, 84, 15, 182, 37, 180, 213, 71, 145, 102, 242, 12, 195, 86, 247, 8,
    151, 42, 47, 214, 68, 159, 193])]

theorem sampleCipher_lawful : sampleCipher.Lawful :=
  tableCipher_lawful (by decide +kernel) (by decide +kernel) (by decide +kernel)

/-- The two samples agree on every field that an infohash covers, but only the live one hashes its
`premium`. A descriptor with all the fields and a zero length has no infohash. -/
theorem infohash_mixed_kinds :
    sampleCipher.Lawful ∧
      (∀ key ∈ requiredKeys ++ optionalKeys, sampleLive.get key = sampleVod.get key) ∧
      tryInfohashOfTransport sampleCipher (encodeTransport sampleCipher sampleLive) ≠
        tryInfohashOfTransport sampleCipher (encodeTransport sampleCipher sampleVod) ∧
      (∀ key ∈ requiredKeys, sampleZeroLength.get key ≠ none) ∧
      tryInfohashOfTransport sampleCipher (encodeTransport sampleCipher sampleZeroLength) =
        .error (.invalid "missing or non-positive descriptor field") :=
  ⟨sampleCipher_lawful, by decide +kernel, by decide +kernel, by decide +kernel, by decide +kernel⟩

/-- A dictionary of integers and byte strings. -/
def Dictionary.ofScalars (d : List (Bytes × Bencode)) (hd : d.Pairwise fun x y => x.1 < y.1)
    (h : ∀ e ∈ d, e.2.nesting = 0) (hnest : (Bencode.dict d).nesting ≤ maxDepth)
    (hfits : (Bencode.dict d).encode.length ≤ u64Max) : Dictionary where
  value := .dict d
  isDict := rfl
  ordered := .dict hd fun e he => by
    have hzero := h e he
    cases hv : e.2 with
    | int i => exact .int i
    | bytes b => exact .bytes b
    | list l => rw [hv] at hzero; cases hzero
    | dict d' => rw [hv] at hzero; cases hzero
  nesting_le := hnest
  fits := hfits

def liveDictionary : Dictionary :=
  .ofScalars (sampleEntries 32 [] []) (by decide +kernel) (by decide +kernel) (by decide +kernel)
    (by decide +kernel)

def titledDictionary : Dictionary :=
  .ofScalars (sampleEntries 32 [] sampleTitle) (by decide +kernel) (by decide +kernel)
    (by decide +kernel) (by decide +kernel)

def zeroLengthDictionary : Dictionary :=
  .ofScalars (sampleEntries 0 [] []) (by decide +kernel) (by decide +kernel) (by decide +kernel)
    (by decide +kernel)

theorem transport_identity_sample :
    (∃ desc, decodeTransport sampleCipher (encodeTransport sampleCipher sampleLive) = .ok desc ∧
      desc.raw = sampleLive) ∧
    tryInfohashOfTransport sampleCipher (encodeTransport sampleCipher sampleLive) =
      tryInfohashOfTransport sampleCipher (encodeTransport sampleCipher sampleTitled) ∧
    ∃ e, tryInfohashOfTransport sampleCipher (encodeTransport sampleCipher sampleZeroLength) =
      .error e := by
  obtain ⟨hround, hcongr, hfail⟩ := transport_identity sampleCipher sampleCipher_lawful
  refine ⟨hround liveDictionary ⟨32, by decide +kernel, by decide⟩ ⟨16, by decide +kernel, by decide⟩,
    hcongr liveDictionary titledDictionary (by decide +kernel) (by decide +kernel),
    (hfail zeroLengthDictionary).mpr (.inr ?_)⟩
  rintro ⟨⟨i, hi, hpos⟩, -⟩
  have hzero : zeroLengthDictionary.value.get pieceLengthKey = some (.int 0) := by decide +kernel
  rw [hzero] at hi
  cases hi
  exact absurd hpos (by decide)

end Outpace.Wire.Transport

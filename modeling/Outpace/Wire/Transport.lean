import Outpace.Wire.Metainfo

/-!
# Transport files

`ace-wire/src/transport.rs` and `infohash.rs`: the descriptor dictionary wrapped in a magic, a version
and AES-128-CBC with PKCS#7 padding, and the swarm infohash of a decoded descriptor. The cipher is
outside the source tree: `AesCbc` stands for the two calls of the `cbc` crate, and `AesCbc.Lawful` for
what the crate documents of them.
-/

namespace Outpace.Wire

abbrev AesBlock := Vector UInt8 16

/-- `encrypt_padded_vec::<Pkcs7>` and `decrypt_padded_vec::<Pkcs7>` of AES-128-CBC. -/
structure AesCbc where
  encryptPadded : (key iv : AesBlock) → Bytes → Bytes
  decryptPadded : (key iv : AesBlock) → Bytes → Option Bytes

/-- Decryption undoes encryption, and padding fills up to the next whole block. -/
structure AesCbc.Lawful (c : AesCbc) : Prop where
  decrypt_encrypt : ∀ key iv pt, c.decryptPadded key iv (c.encryptPadded key iv pt) = some pt
  length_encrypt : ∀ key iv pt, (c.encryptPadded key iv pt).length = 16 * (pt.length / 16 + 1)

/-- A decoded transport descriptor. -/
structure TransportDescriptor where
  name : List Char
  pieceLength : Nat
  chunkLength : Nat
  bitrate : Option Int64
  categories : List (List Char)
  trackers : List (List Char)
  pubkey : Bytes
  pieces : List (Vector UInt8 20)
  isLive : Bool
  raw : Bencode

namespace Transport

def transportKey : AesBlock :=
  #v[0xa5, 0x0c, 0x4e, 0x33, 0xa2, 0xf4, 0x8c, 0xc5, 0x0c, 0xe2, 0x75, 0xc9, 0xff, 0x3a, 0x31, 0xbf]

def transportIv : AesBlock :=
  #v[0x74, 0xe9, 0xcd, 0xd6, 0x39, 0x1b, 0xcb, 0xd5, 0x65, 0xf9, 0x95, 0x03, 0x31, 0x33, 0x29, 0xa3]

/-- `AceStreamTransport`. -/
def transportMagic : Bytes :=
  [65, 99, 101, 83, 116, 114, 101, 97, 109, 84, 114, 97, 110, 115, 112, 111, 114, 116]

def maxCategories : Nat := 32
def maxCategoryBytes : Nat := 128

/-! ### Keys -/

/-- `name`. -/
def nameKey : Bytes := [110, 97, 109, 101]
/-- `authmethod`. -/
def authmethodKey : Bytes := [97, 117, 116, 104, 109, 101, 116, 104, 111, 100]
/-- `pubkey`. -/
def pubkeyKey : Bytes := [112, 117, 98, 107, 101, 121]
/-- `piece_length`. -/
def pieceLengthKey : Bytes := [112, 105, 101, 99, 101, 95, 108, 101, 110, 103, 116, 104]
/-- `chunk_length`. -/
def chunkLengthKey : Bytes := [99, 104, 117, 110, 107, 95, 108, 101, 110, 103, 116, 104]
/-- `bitrate`. -/
def bitrateKey : Bytes := [98, 105, 116, 114, 97, 116, 101]
/-- `commerce`. -/
def commerceKey : Bytes := [99, 111, 109, 109, 101, 114, 99, 101]
/-- `provider_key`. -/
def providerKeyKey : Bytes := [112, 114, 111, 118, 105, 100, 101, 114, 95, 107, 101, 121]
/-- `provider_sid`. -/
def providerSidKey : Bytes := [112, 114, 111, 118, 105, 100, 101, 114, 95, 115, 105, 100]
/-- `access`. -/
def accessKey : Bytes := [97, 99, 99, 101, 115, 115]
/-- `sharing`. -/
def sharingKey : Bytes := [115, 104, 97, 114, 105, 110, 103]
/-- `private`. -/
def privateKey : Bytes := [112, 114, 105, 118, 97, 116, 101]
/-- `tns`. -/
def tnsKey : Bytes := [116, 110, 115]
/-- `license`. -/
def licenseKey : Bytes := [108, 105, 99, 101, 110, 115, 101]
/-- `categories`. -/
def categoriesKey : Bytes := [99, 97, 116, 101, 103, 111, 114, 105, 101, 115]
/-- `trackers`. -/
def trackersKey : Bytes := [116, 114, 97, 99, 107, 101, 114, 115]

/-- The fields that every infohash covers, in their order. -/
def requiredKeys : List Bytes :=
  [nameKey, authmethodKey, pubkeyKey, pieceLengthKey, chunkLengthKey, bitrateKey]

/-- The fields that a live infohash covers where they are present, in their order. -/
def optionalKeys : List Bytes :=
  [premiumKey, commerceKey, providerKeyKey, providerSidKey, accessKey, sharingKey,
    privateKey, tnsKey, licenseKey]

/-! ### The descriptor -/

def boundedText (bytes : Bytes) (maxBytes : Nat) : Option (List Char) :=
  let text := trim (decodeLossy bytes)
  if text = [] then none else some (cutToBytes maxBytes text)

def decodeCategories (raw : Bencode) : List (List Char) :=
  match raw.get categoriesKey with
  | some (.list items) =>
    ((items.filterMap (·.asBytes)).filterMap (boundedText · maxCategoryBytes)).take maxCategories
  | some (.bytes value) => (boundedText value maxCategoryBytes).toList
  | _ => []

def requiredPositive (raw : Bencode) (key : Bytes) : Except WireError Nat :=
  match (raw.get key).bind (·.asInt) with
  | some i =>
    if 0 < i.toInt then .ok i.toInt.toNat
    else .error (.invalid "missing or non-positive descriptor field")
  | none => .error (.invalid "missing or non-positive descriptor field")

def decodeTrackers (raw : Bencode) : List (List Char) :=
  match raw.get trackersKey with
  | some (.list items) => (items.filterMap (·.asBytes)).map decodeLossy
  | _ => []

/-- The piece hashes of a VOD descriptor; none for a live one. -/
def decodePieces (raw : Bencode) : List (Vector UInt8 20) :=
  match raw.get piecesKey with
  | some (.bytes p) => if p.length % 20 = 0 ∧ p ≠ [] then Metainfo.splitHashes p else []
  | _ => []

/-- The fields of a descriptor dictionary. -/
def describe (raw : Bencode) : Except WireError TransportDescriptor := do
  let pieceLength ← requiredPositive raw pieceLengthKey
  let chunkLength ← requiredPositive raw chunkLengthKey
  let pieces := decodePieces raw
  return {
    name := (((raw.get nameKey).bind (·.asBytes)).map decodeLossy).getD []
    pieceLength
    chunkLength
    bitrate := (raw.get bitrateKey).bind (·.asInt)
    categories := decodeCategories raw
    trackers := decodeTrackers raw
    pubkey := ((raw.get pubkeyKey).bind (·.asBytes)).getD []
    pieces
    isLive := pieces.isEmpty
    raw }

def isTransportFile (bytes : Bytes) : Bool := transportMagic.isPrefixOf bytes

def decodeTransportWithKey (c : AesCbc) (bytes : Bytes) (key iv : AesBlock) :
    Except WireError TransportDescriptor :=
  if isTransportFile bytes = false then .error (.invalid "not a transport file")
  else if bytes.length < 20 then .error .truncated
  else if (bytes.drop 18).take 2 ≠ [0, 2] then .error (.invalid "unsupported transport version")
  else
    let body := bytes.drop 20
    if body = [] ∨ body.length % 16 ≠ 0 then .error (.invalid "bad transport body length")
    else match c.decryptPadded key iv body with
      | none => .error (.invalid "aes/pad")
      | some pt =>
        match Bencode.parse pt with
        | .error e => .error e
        | .ok raw =>
          if Metainfo.isDict raw = false then .error (.invalid "descriptor not a dict")
          else describe raw

def decodeTransport (c : AesCbc) (bytes : Bytes) : Except WireError TransportDescriptor :=
  decodeTransportWithKey c bytes transportKey transportIv

def encodeTransportWithKey (c : AesCbc) (descriptor : Bencode) (key iv : AesBlock) : Bytes :=
  transportMagic ++ [0, 2] ++ c.encryptPadded key iv descriptor.encode

def encodeTransport (c : AesCbc) (descriptor : Bencode) : Bytes :=
  encodeTransportWithKey c descriptor transportKey transportIv

/-! ### The infohash -/

/-- The pair that stands for a field in the hashed list. -/
def pair (key : Bytes) (value : Bencode) : Bencode := .list [.bytes key, value]

def requiredPair (descriptor : Bencode) (key : Bytes) : Except WireError Bencode :=
  match descriptor.get key with
  | none => .error (.invalid "missing descriptor infohash field")
  | some value => .ok (pair key value)

def hashDescriptor (descriptor : Bencode) (includeOptional : Bool) :
    Except WireError (Vector UInt8 20) := do
  let required ← requiredKeys.mapM (requiredPair descriptor)
  let optional := if includeOptional then
    optionalKeys.filterMap fun key => (descriptor.get key).map (pair key) else []
  return sha1 (Bencode.list (required ++ optional)).encode

def infohashOfDecodedTransport (descriptor : TransportDescriptor) :
    Except WireError (Vector UInt8 20) :=
  hashDescriptor descriptor.raw descriptor.isLive

def tryInfohashOfTransport (c : AesCbc) (bytes : Bytes) : Except WireError (Vector UInt8 20) := do
  infohashOfDecodedTransport (← decodeTransport c bytes)

end Transport
end Outpace.Wire

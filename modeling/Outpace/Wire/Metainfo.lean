import Outpace.Data.Sha1
import Outpace.Wire.Bencode

/-!
# Torrent metainfo

The strict decoder of `ace-wire/src/metainfo.rs`. Its parser is written independently of the
permissive one: it counts values, refuses non-canonical numbers and repeated keys, and remembers the
byte range of the value of the root key `info`. As in `Bencode`, containers recurse on the levels
still allowed, and loops take as much fuel as there are bytes.
-/

namespace Outpace.Wire

inductive Protection where
  | isPublic
  | isProtected
  deriving DecidableEq, Repr

/-- `protection::classify`. -/
def Protection.classify : Option Bencode → Except WireError Protection
  | none => .ok .isPublic
  | some (.int i) =>
    if i = 0 then .ok .isPublic
    else if i = 1 then .ok .isProtected
    else .error .invalidProtection
  | some _ => .error .invalidProtection

/-- Validated geometry, piece hashes and trackers of a single-file torrent. A tracker is the bytes of
a string. -/
structure Metainfo where
  protection : Protection
  infohash : Vector UInt8 20
  pieceLength : Nat
  totalLength : Nat
  pieceHashes : List (Vector UInt8 20)
  trackers : List Bytes
  deriving DecidableEq

/-- `pieces`. -/
def piecesKey : Bytes := [112, 105, 101, 99, 101, 115]
/-- `premium`. -/
def premiumKey : Bytes := [112, 114, 101, 109, 105, 117, 109]

namespace Metainfo

def maxBytes : Nat := 1048576
def maxDepth : Nat := 32
def maxValues : Nat := 65536
def blockLength : Nat := 16384
def maxPieceLength : Nat := 8 * 1048576
def maxTrackers : Nat := 128
def maxTrackerBytes : Nat := 2048

def infoKey : Bytes := [105, 110, 102, 111]

/-! ### The strict parser -/

/-- The fields of the parser that change besides its position. -/
structure Parser where
  values : Nat
  infoSpan : Option (Nat × Nat)

/-- `Parser::until`: the bytes up to the delimiter, and the position after it. -/
def parseUntil (bytes : Bytes) (pos : Nat) (delimiter : UInt8) : Except WireError (Bytes × Nat) :=
  match (bytes.drop pos).findIdx? (· == delimiter) with
  | none => .error .truncated
  | some len => .ok ((bytes.drop pos).take len, pos + len + 1)

/-- `decimal`: digits with no superfluous leading zero. -/
def isDecimal (s : Bytes) : Bool :=
  !s.isEmpty && (s.length == 1 || s.head? != some 48) && s.all isDigit

def dropMinus : Bytes → Bytes
  | 45 :: s => s
  | s => s

/-- An integer, from the position after its `i`. -/
def parseInteger (bytes : Bytes) (pos : Nat) : Except WireError (Bencode × Nat) :=
  match parseUntil bytes pos 101 with
  | .error e => .error e
  | .ok (token, n) =>
    if isDecimal (dropMinus token) = false ∨ token = [45, 48] then
      .error (.invalid "noncanonical metainfo integer")
    else match if utf8Valid token then parseI64 token else none with
      | none => .error (.invalid "metainfo integer overflow")
      | some i => .ok (.int i, n)

/-- The checked fold over the digits of a string length. -/
def parseLength (token : Bytes) : Option Nat :=
  token.foldlM (fun len digit => (checkedMul len 10).bind (checkedAdd · (digit.toNat - 48))) 0

def parseString (bytes : Bytes) (pos : Nat) : Except WireError (Bytes × Nat) :=
  match parseUntil bytes pos 58 with
  | .error e => .error e
  | .ok (token, start) =>
    if isDecimal token = false then .error (.invalid "noncanonical metainfo string length")
    else match (parseLength token).bind (checkedAdd start) with
      | none => .error (.invalid "metainfo string length overflow")
      | some stop =>
        if bytes.length < stop then .error .truncated
        else .ok ((bytes.drop start).take (stop - start), stop)

/-- What a run of the parser over one value returns. -/
abbrev Parsed := Except WireError ((Bencode × Parser) × Nat)

/-- The body of the loop over list items. -/
def itemStep (value : Parser → Nat → Parsed) (s : List Bencode × Parser) (pos : Nat) :
    Except WireError ((List Bencode × Parser) × Nat) :=
  match value s.2 pos with
  | .error e => .error e
  | .ok ((v, parser), n) => .ok ((s.1 ++ [v], parser), n)

/-- The body of the loop over dictionary entries. -/
def entryStep (bytes : Bytes) (value : Parser → Nat → Parsed) (depth : Nat)
    (s : OrderedMap Bytes Bencode × Parser) (pos : Nat) :
    Except WireError ((OrderedMap Bytes Bencode × Parser) × Nat) :=
  match bytes[pos]? with
  | none => .error .truncated
  | some b =>
    if isDigit b = false then .error (.invalid "metainfo key is not a byte string")
    else match value s.2 pos with
      | .error e => .error e
      | .ok ((.bytes key, parser), start) =>
        if s.1.contains key then .error (.invalid "duplicate metainfo key")
        else match value parser start with
          | .error e => .error e
          | .ok ((v, parser), n) =>
            let parser := if depth = 0 ∧ key = infoKey then
              { parser with infoSpan := some (start, n) } else parser
            .ok ((s.1.insert key v, parser), n)
      -- A value that starts with a digit is a byte string; the source has `unreachable!` here.
      | .ok _ => .error (.invalid "byte-string token checked above")

def parseItems (bytes : Bytes) (value : Parser → Nat → Parsed) (parser : Parser) (pos : Nat) :
    Parsed :=
  match untilEnd bytes 101 .truncated (itemStep value) bytes.length ([], parser) (pos + 1) with
  | .error e => .error e
  | .ok ((items, parser), n) => .ok ((.list items, parser), n)

def parseEntries (bytes : Bytes) (value : Parser → Nat → Parsed) (depth : Nat) (parser : Parser)
    (pos : Nat) : Parsed :=
  match untilEnd bytes 101 .truncated (entryStep bytes value depth) bytes.length (∅, parser)
      (pos + 1) with
  | .error e => .error e
  | .ok ((items, parser), n) => .ok ((.dict items.entries, parser), n)

/-- `Parser::value` at `depth`, with `levels` more containers allowed. -/
def valueAt (bytes : Bytes) : (levels : Nat) → (depth : Nat) → Parser → Nat → Parsed
  | levels, depth, parser, pos =>
    let parser := { parser with values := parser.values + 1 }
    if maxValues < parser.values then .error (.invalid "too many metainfo values")
    else match bytes[pos]? with
      | none => .error .truncated
      | some b =>
        if b = 105 then
          match parseInteger bytes (pos + 1) with
          | .error e => .error e
          | .ok (v, n) => .ok ((v, parser), n)
        else if isDigit b then
          match parseString bytes pos with
          | .error e => .error e
          | .ok (s, n) => .ok ((.bytes s, parser), n)
        else if b = 108 ∨ b = 100 then
          match levels with
          | 0 => .error (.invalid "metainfo nesting too deep")
          | levels + 1 =>
            if b = 108 then parseItems bytes (valueAt bytes levels (depth + 1)) parser pos
            else parseEntries bytes (valueAt bytes levels (depth + 1)) depth parser pos
        else .error (.invalid "unexpected metainfo token")

def value (bytes : Bytes) (depth : Nat) (parser : Parser) (pos : Nat) : Parsed :=
  valueAt bytes (maxDepth - depth) depth parser pos

/-! ### Trackers -/

/-- The authority of a URL: what follows the scheme, up to the path, query or fragment. -/
def authority (url : Bytes) : Option Bytes :=
  let schemes : List Bytes := [[104, 116, 116, 112, 58, 47, 47],
    [104, 116, 116, 112, 115, 58, 47, 47], [117, 100, 112, 58, 47, 47]]
  match schemes.find? (·.isPrefixOf url) with
  | none => none
  | some scheme =>
    let name := (url.drop scheme.length).takeWhile fun b => !(b == 47 || b == 63 || b == 35)
    if name.isEmpty then none else some name

/-- `is_ascii_control` or `is_ascii_whitespace`. -/
def isControlOrSpace (b : UInt8) : Bool := b ≤ 0x20 || b == 0x7f

/-- `add_tracker` on the urls so far and the number of trackers seen. -/
def addTracker (v : Bencode) (s : List Bytes × Nat) : Except WireError (List Bytes × Nat) :=
  let count := s.2 + 1
  if maxTrackers < count then .error (.invalid "too many metainfo trackers")
  else match v.asBytes.filter fun b => !b.isEmpty && b.length ≤ maxTrackerBytes with
    | none => .error (.invalid "invalid metainfo tracker")
    | some url =>
      if utf8Valid url = false then .error (.invalid "tracker is not utf-8")
      else if (authority url).isNone || url.any isControlOrSpace then
        .error (.invalid "invalid metainfo tracker URL")
      else .ok (if url ∈ s.1 then s.1 else s.1 ++ [url], count)

def addTier (s : List Bytes × Nat) : Bencode → Except WireError (List Bytes × Nat)
  | .list entries => entries.foldlM (fun s v => addTracker v s) s
  | _ => .error (.invalid "invalid announce tier")

def announceKey : Bytes := [97, 110, 110, 111, 117, 110, 99, 101]
def announceListKey : Bytes := announceKey ++ [45, 108, 105, 115, 116]

/-- `trackers`. -/
def findTrackers (root : Bencode) : Except WireError (List Bytes) :=
  match (match root.get announceKey with
    | none => .ok ([], 0)
    | some v => addTracker v ([], 0) : Except WireError (List Bytes × Nat)) with
  | .error e => .error e
  | .ok s =>
    match root.get announceListKey with
    | none => .ok s.1
    | some (.list tiers) => (tiers.foldlM addTier s).map (·.1)
    | some _ => .error (.invalid "invalid announce-list")

/-! ### The decoder -/

def filesKey : Bytes := [102, 105, 108, 101, 115]
def lengthKey : Bytes := [108, 101, 110, 103, 116, 104]
def pieceLengthKey : Bytes := [112, 105, 101, 99, 101, 32, 108, 101, 110, 103, 116, 104]

def positive (info : Bencode) (key : Bytes) : Except WireError Nat :=
  match ((info.get key).bind (·.asInt)).filter (0 < ·.toInt) with
  | none => .error (.invalid "missing or non-positive metainfo length")
  | some i => .ok i.toInt.toNat

def divCeil (a b : Nat) : Nat := (a + b - 1) / b

/-- `pieces.as_chunks::<20>()`. -/
def splitHashes (pieces : Bytes) : List (Vector UInt8 20) :=
  (List.range (pieces.length / 20)).map fun i => Vector.ofFn fun j => pieces.getD (20 * i + j) 0

/-- The bytes of a range. -/
def slice (bytes : Bytes) (span : Nat × Nat) : Bytes := (bytes.drop span.1).take (span.2 - span.1)

/-- The strict parse of a whole file: the root value and the state of the parser at the end. -/
def parseFile (bytes : Bytes) : Except WireError (Bencode × Parser) :=
  match value bytes 0 ⟨0, none⟩ 0 with
  | .error e => .error e
  | .ok ((root, parser), n) =>
    if n ≠ bytes.length then .error (.invalid "trailing metainfo bytes") else .ok (root, parser)

def isDict : Bencode → Bool
  | .dict _ => true
  | _ => false

def decodeMetainfo (bytes : Bytes) : Except WireError Metainfo := do
  if maxBytes < bytes.length then throw (.invalid "metainfo too large")
  let (root, parser) ← parseFile bytes
  let some info := (root.get infoKey).filter isDict
    | throw (.invalid "metainfo missing info dictionary")
  if (info.get filesKey).isSome then throw (.invalid "multi-file metainfo is not supported")
  let totalLength ← positive info lengthKey
  let pieceLength ← positive info pieceLengthKey
  if maxPieceLength < pieceLength ∨ pieceLength % blockLength ≠ 0 ∨
      65535 < pieceLength / blockLength then
    throw (.invalid "unsupported metainfo piece geometry")
  let some pieces := (info.get piecesKey).bind (·.asBytes)
    | throw (.invalid "metainfo missing binary pieces")
  if pieces.isEmpty ∨ pieces.length % 20 ≠ 0 ∨
      pieces.length / 20 ≠ divCeil totalLength pieceLength then
    throw (.invalid "metainfo piece count does not match length")
  let some span := parser.infoSpan | throw (.invalid "metainfo missing info span")
  let protection ← Protection.classify (info.get premiumKey)
  let trackers ← findTrackers root
  return {
    protection
    infohash := sha1 (slice bytes span)
    pieceLength
    totalLength
    pieceHashes := splitHashes pieces
    trackers }

end Metainfo
end Outpace.Wire

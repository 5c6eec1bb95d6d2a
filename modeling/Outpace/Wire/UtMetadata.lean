import Outpace.Wire.BencodeRoundTrip

/-!
# Metadata messages

`ace-wire/src/ut_metadata.rs`: a control dictionary in bencode, followed by the bytes of a block in a
data message.
-/

namespace Outpace.Wire

def metadataBlockLen : Nat := 16384

def msgTypeRequest : Int64 := 0
def msgTypeData : Int64 := 1
def msgTypeReject : Int64 := 2

/-- `msg_type`. -/
def msgTypeKey : Bytes := [109, 115, 103, 95, 116, 121, 112, 101]
/-- `piece`. -/
def pieceKey : Bytes := [112, 105, 101, 99, 101]
/-- `total_size`. -/
def totalSizeKey : Bytes := [116, 111, 116, 97, 108, 95, 115, 105, 122, 101]

inductive MetadataMessage where
  | request (piece : Int64)
  | data (piece : Int64) (totalSize : Option Int64) (data : Bytes)
  | reject (piece : Int64)
  deriving DecidableEq

/-- The message of a control dictionary that ends at `consumed`. -/
def MetadataMessage.ofDict (payload : Bytes) (dict : Bencode) (consumed : Nat) :
    Option MetadataMessage :=
  match (dict.get msgTypeKey).bind (·.asInt), (dict.get pieceKey).bind (·.asInt) with
  | some msgType, some piece =>
    if msgType = msgTypeRequest then some (.request piece)
    else if msgType = msgTypeReject then some (.reject piece)
    else if msgType = msgTypeData then
      some (.data piece ((dict.get totalSizeKey).bind (·.asInt)) (payload.drop consumed))
    else none
  | _, _ => none

def MetadataMessage.parse (payload : Bytes) : Option MetadataMessage :=
  match Bencode.parsePrefix payload with
  | .error _ => none
  | .ok (dict, consumed) => ofDict payload dict consumed

def pieceCount (totalSize : Nat) : Nat := (totalSize + (metadataBlockLen - 1)) / metadataBlockLen

/-- The dictionary of `control_dict`. -/
def controlEntries (msgType piece : Int64) (totalSize : Option Int64) : Bencode :=
  .dict ([(msgTypeKey, .int msgType), (pieceKey, .int piece)] ++
    totalSize.toList.map fun ts => (totalSizeKey, .int ts))

def controlDict (msgType piece : Int64) (totalSize : Option Int64) : Bytes :=
  (controlEntries msgType piece totalSize).encode

def requestPiece (piece : Int64) : Bytes := controlDict msgTypeRequest piece none

def dataPiece (piece totalSize : Int64) (data : Bytes) : Bytes :=
  controlDict msgTypeData piece (some totalSize) ++ data

theorem length_formatI64_le (i : Int64) : (formatI64 i).length ≤ 21 := by
  have hdec : (decimal i.toInt.natAbs).length ≤ 20 := by
    refine length_decimal_le_of_lt (by decide) ?_
    have := i.toInt_lt
    have := i.le_toInt
    omega
  unfold formatI64
  split
  · exact Nat.succ_le_succ hdec
  · exact hdec.trans (by decide)

theorem ordered_controlEntries (msgType piece : Int64) (totalSize : Option Int64) :
    (controlEntries msgType piece totalSize).Ordered := by
  cases totalSize with
  | none =>
    refine .dict (List.pairwise_pair.mpr (show msgTypeKey < pieceKey by decide)) ?_
    simp only [Option.toList_none, List.map_nil, List.append_nil, List.forall_mem_cons]
    exact ⟨.int _, .int _, fun _ h => (by cases h)⟩
  | some ts =>
    refine .dict ?_ ?_
    · simp only [Option.toList_some, List.map_cons, List.map_nil, List.cons_append, List.nil_append,
        List.pairwise_cons, List.forall_mem_cons]
      refine ⟨⟨by decide, by decide, fun _ h => (by cases h)⟩, ⟨by decide, fun _ h => (by cases h)⟩,
        fun _ h => (by cases h), .nil⟩
    · simp only [Option.toList_some, List.map_cons, List.map_nil, List.cons_append, List.nil_append,
        List.forall_mem_cons]
      exact ⟨.int _, .int _, .int _, fun _ h => (by cases h)⟩

theorem length_controlDict_le (msgType piece : Int64) (totalSize : Option Int64) :
    (controlDict msgType piece totalSize).length ≤ 200 := by
  have htype := length_formatI64_le msgType
  have hpiece := length_formatI64_le piece
  have hdec : ∀ n < 100, (decimal n).length ≤ 2 := fun n hn =>
    length_decimal_le_of_lt (by decide) hn
  have h8 := hdec 8 (by decide)
  have h5 := hdec 5 (by decide)
  cases totalSize with
  | none =>
    simp [controlDict, controlEntries, Bencode.encode, Bencode.encodeEntries, Bencode.encodeBytes,
      msgTypeKey, pieceKey]
    omega
  | some ts =>
    have htotal := length_formatI64_le ts
    have h10 := hdec 10 (by decide)
    simp [controlDict, controlEntries, Bencode.encode, Bencode.encodeEntries, Bencode.encodeBytes,
      msgTypeKey, pieceKey, totalSizeKey]
    omega

/-- A control dictionary is read back, whatever follows it. -/
theorem parse_controlDict (msgType piece : Int64) (totalSize : Option Int64) {data : Bytes}
    (hdata : data.length < 2 ^ 63) :
    MetadataMessage.parse (controlDict msgType piece totalSize ++ data) =
      MetadataMessage.ofDict (controlDict msgType piece totalSize ++ data)
        (controlEntries msgType piece totalSize) (controlDict msgType piece totalSize).length := by
  have hlen := length_controlDict_le msgType piece totalSize
  have hnest : (controlEntries msgType piece totalSize).nesting ≤ maxDepth := by
    cases totalSize with
    | none | some => simp [controlEntries, Bencode.nesting, Bencode.nestingEntries, maxDepth]
  have hparse : Bencode.parsePrefix (controlDict msgType piece totalSize ++ data) =
      .ok (controlEntries msgType piece totalSize, (controlDict msgType piece totalSize).length) := by
    refine Bencode.parsePrefix_encode (ordered_controlEntries msgType piece totalSize) hnest data ?_
    show (controlDict msgType piece totalSize ++ data).length ≤ 2 ^ 64 - 1
    rw [List.length_append]
    omega
  rw [MetadataMessage.parse, hparse]

theorem parse_requestPiece (piece : Int64) :
    MetadataMessage.parse (requestPiece piece) = some (.request piece) := by
  have hnil : ([] : Bytes).length < 2 ^ 63 := by decide
  have h := parse_controlDict msgTypeRequest piece none hnil
  rw [List.append_nil] at h
  rw [requestPiece, h]
  rfl

theorem parse_dataPiece (piece totalSize : Int64) {data : Bytes} (hdata : data.length < 2 ^ 63) :
    MetadataMessage.parse (dataPiece piece totalSize data) = some (.data piece totalSize data) := by
  rw [dataPiece, parse_controlDict _ _ _ hdata]
  show some (MetadataMessage.data piece (some totalSize) _) = _
  rw [List.drop_left]

end Outpace.Wire

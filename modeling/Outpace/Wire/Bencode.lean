import Outpace.Data.Delimited
import Outpace.Data.Utf8
import Outpace.Wire.Reassembly

/-!
# Bencode

The encoder and the permissive parser of `ace-wire/src/bencode.rs`. The parser works on positions in
one buffer, as the source does. Its recursion over containers is on the nesting levels still
allowed, `maxDepth - depth` for the `depth` of the source; the loops over items and entries take as
much fuel as the buffer has bytes, which is never used up.
-/

namespace Outpace.Wire

def maxDepth : Nat := 32

/-- A bencode value. The entries of a dictionary are those of the `BTreeMap` of the source in
iteration order; `Bencode.Ordered` says that they are sorted by key. -/
inductive Bencode where
  | int (i : Int64)
  | bytes (b : Bytes)
  | list (l : List Bencode)
  | dict (d : List (Bytes × Bencode))

namespace Bencode

def encodeBytes (b : Bytes) : Bytes := decimal b.length ++ 58 :: b

mutual
def encode : Bencode → Bytes
  | .int i => 105 :: formatI64 i ++ [101]
  | .bytes b => encodeBytes b
  | .list l => 108 :: encodeList l ++ [101]
  | .dict d => 100 :: encodeEntries d ++ [101]

def encodeList : List Bencode → Bytes
  | [] => []
  | v :: l => encode v ++ encodeList l

def encodeEntries : List (Bytes × Bencode) → Bytes
  | [] => []
  | (k, v) :: d => encodeBytes k ++ encode v ++ encodeEntries d
end

mutual
/-- How many containers are nested in each other. -/
def nesting : Bencode → Nat
  | .int _ => 0
  | .bytes _ => 0
  | .list l => nestingList l + 1
  | .dict d => nestingEntries d + 1

def nestingList : List Bencode → Nat
  | [] => 0
  | v :: l => max (nesting v) (nestingList l)

def nestingEntries : List (Bytes × Bencode) → Nat
  | [] => 0
  | (_, v) :: d => max (nesting v) (nestingEntries d)
end

mutual
def beq : Bencode → Bencode → Bool
  | .int i, .int j => i == j
  | .bytes b, .bytes c => b == c
  | .list l, .list m => beqList l m
  | .dict d, .dict e => beqEntries d e
  | _, _ => false

def beqList : List Bencode → List Bencode → Bool
  | [], [] => true
  | v :: l, w :: m => beq v w && beqList l m
  | _, _ => false

def beqEntries : List (Bytes × Bencode) → List (Bytes × Bencode) → Bool
  | [], [] => true
  | (k, v) :: d, (k', w) :: e => k == k' && beq v w && beqEntries d e
  | _, _ => false
end

mutual
theorem beq_iff : ∀ v w : Bencode, beq v w = true ↔ v = w
  | .int i, w => by cases w <;> simp [beq]
  | .bytes b, w => by cases w <;> simp [beq]
  | .list l, w => by
    cases w with
    | list m => simp [beq, beqList_iff l m]
    | _ => simp [beq]
  | .dict d, w => by
    cases w with
    | dict e => simp [beq, beqEntries_iff d e]
    | _ => simp [beq]

theorem beqList_iff : ∀ l m : List Bencode, beqList l m = true ↔ l = m
  | [], m => by cases m <;> simp [beqList]
  | v :: l, [] => by simp [beqList]
  | v :: l, w :: m => by simp [beqList, beq_iff v w, beqList_iff l m]

theorem beqEntries_iff : ∀ d e : List (Bytes × Bencode), beqEntries d e = true ↔ d = e
  | [], e => by cases e <;> simp [beqEntries]
  | (k, v) :: d, [] => by simp [beqEntries]
  | (k, v) :: d, (k', w) :: e => by
    simp [beqEntries, beq_iff v w, beqEntries_iff d e, and_assoc]
end

instance : DecidableEq Bencode := fun v w => decidable_of_iff _ (beq_iff v w)

def get (v : Bencode) (key : Bytes) : Option Bencode :=
  match v with
  | .dict d => (d.find? fun e => e.1 == key).map (·.2)
  | _ => none

/-- `BTreeMap::get` on the entries of a map. -/
theorem get_dict (m : OrderedMap Bytes Bencode) (key : Bytes) :
    (Bencode.dict m.entries).get key = m.get? key := by
  simp only [get, OrderedMap.get?]
  congr 2
  funext e
  by_cases h : e.1 = key
  · simp [h]
  · simp [h]

def asInt : Bencode → Option Int64
  | .int i => some i
  | _ => none

def asBytes : Bencode → Option Bytes
  | .bytes b => some b
  | _ => none

/-! ### The parser -/

/-- `parse_int`: `buf[pos]` is the `i`. -/
def parseInt (buf : Bytes) (pos : Nat) : Except WireError (Bencode × Nat) :=
  match (buf.drop (pos + 1)).findIdx? (· == 101) with
  | none => .error .truncated
  | some k =>
    let s := (buf.drop (pos + 1)).take k
    if utf8Valid s = false then .error (.invalid "int utf8")
    else match parseI64 s with
      | none => .error (.invalid "int parse")
      | some i => .ok (.int i, pos + 1 + k + 1)

/-- `parse_bytes`, which always returns a byte string. -/
def parseBytes (buf : Bytes) (pos : Nat) : Except WireError (Bytes × Nat) :=
  match (buf.drop pos).findIdx? (· == 58) with
  | none => .error .truncated
  | some k =>
    let s := (buf.drop pos).take k
    match if utf8Valid s then parseU64 s else none with
    | none => .error (.invalid "bad length")
    | some len =>
      let start := pos + k + 1
      match checkedAdd start len with
      | none => .error (.invalid "len overflow")
      | some stop =>
        if buf.length < stop then .error .truncated
        else .ok ((buf.drop start).take len, stop)

/-- The body of the loop in `parse_list`. -/
def listStep (value : Nat → Except WireError (Bencode × Nat)) (items : List Bencode) (i : Nat) :
    Except WireError (List Bencode × Nat) :=
  match value i with
  | .error e => .error e
  | .ok (v, n) => .ok (items ++ [v], n)

/-- The body of the loop in `parse_dict`. -/
def dictStep (buf : Bytes) (value : Nat → Except WireError (Bencode × Nat))
    (map : OrderedMap Bytes Bencode) (i : Nat) :
    Except WireError (OrderedMap Bytes Bencode × Nat) :=
  match parseBytes buf i with
  | .error e => .error e
  | .ok (key, n) =>
    match value n with
    | .error e => .error e
    | .ok (v, n') => .ok (map.insert key v, n')

def parseList (buf : Bytes) (value : Nat → Except WireError (Bencode × Nat)) (pos : Nat) :
    Except WireError (Bencode × Nat) :=
  match untilEnd buf 101 .truncated (listStep value) buf.length [] (pos + 1) with
  | .error e => .error e
  | .ok (items, n) => .ok (.list items, n)

def parseDict (buf : Bytes) (value : Nat → Except WireError (Bencode × Nat)) (pos : Nat) :
    Except WireError (Bencode × Nat) :=
  match untilEnd buf 101 .truncated (dictStep buf value) buf.length ∅ (pos + 1) with
  | .error e => .error e
  | .ok (map, n) => .ok (.dict map.entries, n)

/-- `parse_value` with `levels` more containers allowed. -/
def parseAt (buf : Bytes) : Nat → Nat → Except WireError (Bencode × Nat)
  | levels, pos =>
    match buf[pos]? with
    | none => .error .truncated
    | some b =>
      if b = 105 then parseInt buf pos
      else if b = 108 ∨ b = 100 then
        match levels with
        | 0 => .error (.invalid "bencode nesting too deep")
        | levels + 1 =>
          if b = 108 then parseList buf (parseAt buf levels) pos
          else parseDict buf (parseAt buf levels) pos
      else if isDigit b then
        match parseBytes buf pos with
        | .error e => .error e
        | .ok (s, n) => .ok (.bytes s, n)
      else .error (.invalid "unexpected bencode token")

def parseValue (buf : Bytes) (pos depth : Nat) : Except WireError (Bencode × Nat) :=
  parseAt buf (maxDepth - depth) pos

def parsePrefix (buf : Bytes) : Except WireError (Bencode × Nat) := parseValue buf 0 0

def parse (buf : Bytes) : Except WireError Bencode :=
  match parseValue buf 0 0 with
  | .error e => .error e
  | .ok (v, n) => if n ≠ buf.length then .error (.invalid "trailing bytes") else .ok v

/-! ### When each function succeeds -/

variable {pos n : Nat} {v : Bencode}

theorem parseInt_eq_ok {buf : Bytes} :
    parseInt buf pos = .ok (v, n) ↔
      ∃ k i, (buf.drop (pos + 1)).findIdx? (· == 101) = some k ∧
        utf8Valid ((buf.drop (pos + 1)).take k) = true ∧
        parseI64 ((buf.drop (pos + 1)).take k) = some i ∧ v = .int i ∧ n = pos + 1 + k + 1 := by
  unfold parseInt
  cases (buf.drop (pos + 1)).findIdx? (· == 101) with
  | none => simp
  | some k =>
    cases hu : utf8Valid ((buf.drop (pos + 1)).take k) with
    | false => simp [hu]
    | true =>
      cases hi : parseI64 ((buf.drop (pos + 1)).take k) with
      | none => simp [hu, hi]
      | some i =>
        simp only [hu, hi, Bool.true_eq_false, if_false, Except.ok.injEq, Prod.mk.injEq,
          Option.some.injEq]
        constructor
        · rintro ⟨rfl, rfl⟩; exact ⟨k, i, rfl, hu, hi, rfl, rfl⟩
        · rintro ⟨_, _, rfl, -, h, rfl, rfl⟩
          rw [hi] at h
          cases h
          exact ⟨rfl, rfl⟩

theorem parseBytes_eq_ok {buf b : Bytes} :
    parseBytes buf pos = .ok (b, n) ↔
      ∃ k len, (buf.drop pos).findIdx? (· == 58) = some k ∧
        utf8Valid ((buf.drop pos).take k) = true ∧ parseU64 ((buf.drop pos).take k) = some len ∧
        n = pos + k + 1 + len ∧ n ≤ u64Max ∧ n ≤ buf.length ∧
        b = (buf.drop (pos + k + 1)).take len := by
  unfold parseBytes
  cases (buf.drop pos).findIdx? (· == 58) with
  | none => simp
  | some k =>
    cases hu : utf8Valid ((buf.drop pos).take k) with
    | false => simp [hu]
    | true =>
      cases hlen : parseU64 ((buf.drop pos).take k) with
      | none => simp [hu, hlen]
      | some len =>
        by_cases hmax : pos + k + 1 + len ≤ u64Max
        · by_cases hbuf : buf.length < pos + k + 1 + len
          · simp only [hu, hlen, checkedAdd, hmax, hbuf, if_true, reduceCtorEq, false_iff]
            rintro ⟨k', len', hk, -, hl, rfl, -, hle, -⟩
            cases hk
            rw [hlen] at hl
            cases hl
            omega
          · simp only [hu, hlen, checkedAdd, hmax, hbuf, if_true, if_false, Except.ok.injEq,
              Prod.mk.injEq]
            constructor
            · rintro ⟨rfl, rfl⟩
              exact ⟨k, len, rfl, hu, hlen, rfl, hmax, by omega, rfl⟩
            · rintro ⟨k', len', hk, -, hl, rfl, -, -, rfl⟩
              cases hk
              rw [hlen] at hl
              cases hl
              exact ⟨rfl, rfl⟩
        · simp only [hu, hlen, checkedAdd, hmax, if_true, if_false, reduceCtorEq, false_iff]
          rintro ⟨k', len', hk, -, hl, rfl, hle, -⟩
          cases hk
          rw [hlen] at hl
          cases hl
          omega

section Containers
variable {buf : Bytes} {value : Nat → Except WireError (Bencode × Nat)}

theorem listStep_eq_ok {items items' : List Bencode} {i n : Nat} :
    listStep value items i = .ok (items', n) ↔
      ∃ v, value i = .ok (v, n) ∧ items' = items ++ [v] := by
  unfold listStep
  cases value i with
  | error e => simp
  | ok r =>
    obtain ⟨v, m⟩ := r
    simp only [Except.ok.injEq, Prod.mk.injEq]
    constructor
    · rintro ⟨rfl, rfl⟩; exact ⟨v, ⟨rfl, rfl⟩, rfl⟩
    · rintro ⟨w, ⟨rfl, rfl⟩, rfl⟩; exact ⟨rfl, rfl⟩

theorem dictStep_eq_ok {map map' : OrderedMap Bytes Bencode} {i n : Nat} :
    dictStep buf value map i = .ok (map', n) ↔
      ∃ key m v, parseBytes buf i = .ok (key, m) ∧ value m = .ok (v, n) ∧
        map' = map.insert key v := by
  unfold dictStep
  cases parseBytes buf i with
  | error e => simp
  | ok r =>
    obtain ⟨key, m⟩ := r
    cases hv : value m with
    | error e =>
      simp only [hv, reduceCtorEq, false_iff]
      rintro ⟨_, _, _, hk, hw, -⟩
      cases hk
      rw [hv] at hw
      cases hw
    | ok r =>
      obtain ⟨v, n'⟩ := r
      simp only [hv, Except.ok.injEq, Prod.mk.injEq]
      constructor
      · rintro ⟨rfl, rfl⟩; exact ⟨key, m, v, ⟨rfl, rfl⟩, hv, rfl⟩
      · rintro ⟨_, _, w, ⟨rfl, rfl⟩, hw, rfl⟩
        rw [hv] at hw
        cases hw
        exact ⟨rfl, rfl⟩

theorem parseList_eq_ok :
    parseList buf value pos = .ok (v, n) ↔
      ∃ items, untilEnd buf 101 .truncated (listStep value) buf.length [] (pos + 1) =
        .ok (items, n) ∧ v = .list items := by
  unfold parseList
  split
  · next h => simp [h]
  · next items m h => simp [h, eq_comm, and_comm]

theorem parseDict_eq_ok :
    parseDict buf value pos = .ok (v, n) ↔
      ∃ map, untilEnd buf 101 .truncated (dictStep buf value) buf.length ∅ (pos + 1) =
        .ok (map, n) ∧ v = .dict map.entries := by
  unfold parseDict
  split
  · next h => simp [h]
  · next map m h => simp [h, eq_comm, and_comm]

end Containers

theorem ne_of_isDigit {b c : UInt8} (hb : isDigit b = true) (hc : isDigit c = false) : b ≠ c := by
  rintro rfl
  rw [hb] at hc
  cases hc

/-- A value is read by the function for its first byte. -/
theorem parseAt_eq_ok {buf : Bytes} {levels pos n : Nat} :
    parseAt buf levels pos = .ok (v, n) ↔
      ∃ b, buf[pos]? = some b ∧
        (b = 105 ∧ parseInt buf pos = .ok (v, n) ∨
         (∃ l, levels = l + 1 ∧ b = 108 ∧ parseList buf (parseAt buf l) pos = .ok (v, n)) ∨
         (∃ l, levels = l + 1 ∧ b = 100 ∧ parseDict buf (parseAt buf l) pos = .ok (v, n)) ∨
         isDigit b = true ∧ ∃ s, parseBytes buf pos = .ok (s, n) ∧ v = .bytes s) := by
  unfold parseAt
  cases buf[pos]? with
  | none => simp
  | some b =>
    simp only [Option.some.injEq, exists_eq_left']
    by_cases hi : b = 105
    · subst hi
      simp [isDigit]
    · by_cases hl : b = 108
      · subst hl
        cases levels <;> simp [isDigit]
      · by_cases hd : b = 100
        · subst hd
          cases levels <;> simp [isDigit]
        · by_cases hs : isDigit b = true
          · simp only [hi, hl, hd, hs, or_self, if_false, if_true, false_and, and_false,
              exists_false, false_or, true_and]
            cases parseBytes buf pos with
            | error e => simp
            | ok r =>
              obtain ⟨s, m⟩ := r
              simp only [Except.ok.injEq, Prod.mk.injEq]
              constructor
              · rintro ⟨rfl, rfl⟩; exact ⟨s, ⟨rfl, rfl⟩, rfl⟩
              · rintro ⟨_, ⟨rfl, rfl⟩, rfl⟩; exact ⟨rfl, rfl⟩
          · simp [hi, hl, hd, hs]

end Bencode
end Outpace.Wire

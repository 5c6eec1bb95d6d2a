import Outpace.Wire.BencodeRoundTrip
import Outpace.Wire.Metainfo

/-!
# The identity of a torrent

What the strict parser accepts the permissive one accepts with the same value (`valueAt_parseAt`),
value by value and loop by loop. The loop over the root entries is also followed by a walk that
records the byte range of every value (`rootSpans`), which gives the range that the decoder hashes
its meaning.
-/

namespace Outpace.Wire.Metainfo

/-! ### Tokens -/

variable {pos n : Nat} {s : Bytes}

theorem parseUntil_eq_ok {bytes token : Bytes} {delimiter : UInt8} :
    parseUntil bytes pos delimiter = .ok (token, n) ↔
      ∃ k, (bytes.drop pos).findIdx? (· == delimiter) = some k ∧
        token = (bytes.drop pos).take k ∧ n = pos + k + 1 := by
  unfold parseUntil
  cases (bytes.drop pos).findIdx? (· == delimiter) with
  | none => simp
  | some k =>
    simp only [Except.ok.injEq, Prod.mk.injEq, Option.some.injEq, exists_eq_left']
    constructor
    · rintro ⟨rfl, rfl⟩; exact ⟨rfl, rfl⟩
    · rintro ⟨rfl, rfl⟩; exact ⟨rfl, rfl⟩

theorem isDecimal_digits (h : isDecimal s = true) : s ≠ [] ∧ s.all isDigit = true := by
  simp only [isDecimal, Bool.and_eq_true, Bool.not_eq_true', List.isEmpty_eq_false_iff] at h
  exact ⟨h.1.1, h.2⟩

theorem parseLength_append (s : Bytes) (b : UInt8) :
    parseLength (s ++ [b]) =
      (parseLength s).bind fun len => (checkedMul len 10).bind (checkedAdd · (b.toNat - 48)) := by
  simp [parseLength, List.foldlM_append]

/-- The checked fold over digits is their value, when it is a `usize`. -/
theorem parseLength_eq (s : Bytes) :
    parseLength s = if digitsValue s ≤ u64Max then some (digitsValue s) else none := by
  induction s using List.reverseRecOn with
  | nil => rfl
  | append_singleton s b ih =>
    rw [parseLength_append, ih, digitsValue_append]
    unfold checkedMul checkedAdd
    split
    · simp only [Option.bind_some]
      split
      · rfl
      · rw [if_neg (by omega)]; rfl
    · rw [if_neg (by omega)]; rfl

theorem parseLength_eq_parseU64 (h : isDecimal s = true) : parseLength s = parseU64 s := by
  obtain ⟨hne, hall⟩ := isDecimal_digits h
  have hdigits : parseDigits s = some (digitsValue s) := if_pos ⟨hne, hall⟩
  rw [parseLength_eq, parseU64, stripPlus_of_isDigit hall, hdigits, Option.bind_some]

theorem utf8Valid_of_isDecimal (h : isDecimal s = true) : utf8Valid s = true :=
  utf8Valid_of_ascii fun b hb =>
    Bencode.le_of_isDigit (List.all_eq_true.mp (isDecimal_digits h).2 b hb)

theorem parseString_ok {bytes s : Bytes} (h : parseString bytes pos = .ok (s, n)) :
    ∃ token start len, parseUntil bytes pos 58 = .ok (token, start) ∧ isDecimal token = true ∧
      parseLength token = some len ∧ n = start + len ∧ n ≤ u64Max ∧ n ≤ bytes.length ∧
      s = (bytes.drop start).take len := by
  unfold parseString at h
  split at h
  · cases h
  · next token start htoken =>
    split at h
    · cases h
    · next hdec =>
      split at h
      · cases h
      · next stop hstop =>
        obtain ⟨len, hlen, hadd⟩ := Option.bind_eq_some_iff.mp hstop
        obtain ⟨hmax, rfl⟩ := checkedAdd_eq_some.mp hadd
        split at h
        · cases h
        · next hbuf =>
          rw [Nat.add_sub_cancel_left] at h
          cases h
          exact ⟨token, start, len, htoken, by simpa using hdec, hlen, rfl, hmax, by omega, rfl⟩

variable {v : Bencode}

theorem parseInteger_ok {bytes : Bytes} (h : parseInteger bytes pos = .ok (v, n)) :
    ∃ token i, parseUntil bytes pos 101 = .ok (token, n) ∧ utf8Valid token = true ∧
      parseI64 token = some i ∧ v = .int i := by
  unfold parseInteger at h
  split at h
  · cases h
  · next token m htoken =>
    split at h
    · cases h
    · split at h
      · cases h
      · next i hi =>
        split at hi
        · next hu =>
          cases h
          exact ⟨token, i, htoken, hu, hi, rfl⟩
        · cases hi

theorem parseBytes_of_parseString {bytes s : Bytes} (h : parseString bytes pos = .ok (s, n)) :
    Bencode.parseBytes bytes pos = .ok (s, n) := by
  obtain ⟨token, start, len, htoken, hdec, hlen, hn, hmax, hbuf, hs⟩ := parseString_ok h
  obtain ⟨k, hk, rfl, rfl⟩ := parseUntil_eq_ok.mp htoken
  exact Bencode.parseBytes_eq_ok.mpr ⟨k, len, hk, utf8Valid_of_isDecimal hdec,
    (parseLength_eq_parseU64 hdec).symm.trans hlen, hn, hmax, hbuf, hs⟩

theorem parseInt_of_parseInteger {bytes : Bytes} (h : parseInteger bytes (pos + 1) = .ok (v, n)) :
    Bencode.parseInt bytes pos = .ok (v, n) := by
  obtain ⟨token, i, htoken, hu, hi, rfl⟩ := parseInteger_ok h
  obtain ⟨k, hk, rfl, rfl⟩ := parseUntil_eq_ok.mp htoken
  exact Bencode.parseInt_eq_ok.mpr ⟨k, i, hk, hu, hi, rfl, rfl⟩

/-! ### Values -/

section Steps
variable {bytes : Bytes} {value : Parser → Nat → Parsed}

theorem itemStep_ok {s s' : List Bencode × Parser} (h : itemStep value s pos = .ok (s', n)) :
    ∃ v, value s.2 pos = .ok ((v, s'.2), n) ∧ s'.1 = s.1 ++ [v] := by
  unfold itemStep at h
  split at h
  · cases h
  · next v parser m hv =>
    cases h
    exact ⟨v, hv, rfl⟩

/-- An entry is a key that is new, and its value; the entry `info` of the root sets the span. -/
theorem entryStep_ok {depth : Nat} {s s' : OrderedMap Bytes Bencode × Parser}
    (h : entryStep bytes value depth s pos = .ok (s', n)) :
    ∃ b key start v p₁ p₂, bytes[pos]? = some b ∧ isDigit b = true ∧
      value s.2 pos = .ok ((.bytes key, p₁), start) ∧ s.1.contains key = false ∧
      value p₁ start = .ok ((v, p₂), n) ∧ s'.1 = s.1.insert key v ∧
      s'.2.infoSpan = if depth = 0 ∧ key = infoKey then some (start, n) else p₂.infoSpan := by
  unfold entryStep at h
  split at h
  · cases h
  · next b hb =>
    split at h
    · cases h
    · next hdigit =>
      split at h
      · cases h
      · next key p₁ start hkey =>
        split at h
        · cases h
        · next hnew =>
          split at h
          · cases h
          · next v p₂ m hv =>
            cases h
            refine ⟨b, key, start, v, p₁, p₂, hb, by simpa using hdigit, hkey, by simpa using hnew,
              hv, rfl, ?_⟩
            by_cases hinfo : depth = 0 ∧ key = infoKey
            · rw [if_pos hinfo, if_pos hinfo]
            · rw [if_neg hinfo, if_neg hinfo]
      · cases h

end Steps

variable {parser parser' : Parser}

/-- A value is read by the function for its first byte, after it was counted. -/
theorem valueAt_ok {bytes : Bytes} {levels depth pos n : Nat}
    (h : valueAt bytes levels depth parser pos = .ok ((v, parser'), n)) :
    ∃ b, bytes[pos]? = some b ∧
      ((b = 105 ∧ parseInteger bytes (pos + 1) = .ok (v, n) ∧
          parser'.infoSpan = parser.infoSpan) ∨
       (isDigit b = true ∧ (∃ s, parseString bytes pos = .ok (s, n) ∧ v = .bytes s) ∧
          parser'.infoSpan = parser.infoSpan) ∨
       (∃ l p items, levels = l + 1 ∧ b = 108 ∧ p.infoSpan = parser.infoSpan ∧
          untilEnd bytes 101 .truncated (itemStep (valueAt bytes l (depth + 1))) bytes.length
            ([], p) (pos + 1) = .ok ((items, parser'), n) ∧ v = .list items) ∨
       (∃ l p items, levels = l + 1 ∧ b = 100 ∧ p.infoSpan = parser.infoSpan ∧
          untilEnd bytes 101 .truncated (entryStep bytes (valueAt bytes l (depth + 1)) depth)
            bytes.length (∅, p) (pos + 1) = .ok ((items, parser'), n) ∧
          v = .dict items.entries)) := by
  unfold valueAt at h
  simp only at h
  split at h
  · cases h
  · split at h
    · cases h
    · next b hb =>
      refine ⟨b, hb, ?_⟩
      split at h
      · next hint =>
        split at h
        · cases h
        · next w m hw =>
          cases h
          exact .inl ⟨hint, hw, rfl⟩
      · split at h
        · next hdigit =>
          split at h
          · cases h
          · next s m hs =>
            cases h
            exact .inr (.inl ⟨hdigit, ⟨s, hs, rfl⟩, rfl⟩)
        · split at h
          · next hcont =>
            split at h
            · cases h
            · next l =>
              split at h
              · next hlist =>
                unfold parseItems at h
                split at h
                · cases h
                · next items p m hloop =>
                  cases h
                  exact .inr (.inr (.inl ⟨l, { parser with values := parser.values + 1 }, items, rfl, hlist,
                    rfl, hloop, rfl⟩))
              · next hlist =>
                unfold parseEntries at h
                split at h
                · cases h
                · next items p m hloop =>
                  cases h
                  exact .inr (.inr (.inr
                    ⟨l, { parser with values := parser.values + 1 }, items, rfl,
                      hcont.resolve_left hlist, rfl, hloop, rfl⟩))
          · cases h

theorem valueAt_of_isDigit {bytes : Bytes} {levels depth pos n : Nat} {b : UInt8}
    (hb : bytes[pos]? = some b) (hdigit : isDigit b = true)
    (h : valueAt bytes levels depth parser pos = .ok ((v, parser'), n)) :
    (∃ s, Bencode.parseBytes bytes pos = .ok (s, n) ∧ v = .bytes s) ∧
      parser'.infoSpan = parser.infoSpan := by
  obtain ⟨c, hc, h⟩ := valueAt_ok h
  cases hb.symm.trans hc
  rcases h with ⟨rfl, -⟩ | ⟨-, ⟨s, hs, rfl⟩, hspan⟩ | ⟨l, p, items, -, rfl, -⟩ |
    ⟨l, p, items, -, rfl, -⟩
  · cases hdigit
  · exact ⟨⟨s, parseBytes_of_parseString hs, rfl⟩, hspan⟩
  · cases hdigit
  · cases hdigit

/-- Below the root the span of `info` does not change. -/
theorem valueAt_infoSpan {bytes : Bytes} {levels depth pos n : Nat} (hdepth : 0 < depth)
    (h : valueAt bytes levels depth parser pos = .ok ((v, parser'), n)) :
    parser'.infoSpan = parser.infoSpan := by
  induction levels using Nat.strong_induction_on generalizing depth parser parser' pos v n with
  | _ levels ih =>
    obtain ⟨b, -, ⟨-, -, hspan⟩ | ⟨-, -, hspan⟩ | ⟨l, p, items, rfl, -, hp, hloop, -⟩ |
      ⟨l, p, items, rfl, -, hp, hloop, -⟩⟩ := valueAt_ok h
    · exact hspan
    · exact hspan
    · obtain ⟨-, -, -, hspan⟩ := (untilEnd_sound hloop).invariant
        (P := fun s _ => s.2.infoSpan = parser.infoSpan) (by
          intro s i s' j hs hstep
          obtain ⟨v, hv, -⟩ := itemStep_ok hstep
          exact (ih l (by omega) (by omega) hv).trans hs) hp
      exact hspan
    · obtain ⟨-, -, -, hspan⟩ := (untilEnd_sound hloop).invariant
        (P := fun s _ => s.2.infoSpan = parser.infoSpan) (by
          intro s i s' j hs hstep
          obtain ⟨b, key, start, v, p₁, p₂, -, -, hkey, -, hv, -, hspan⟩ := entryStep_ok hstep
          rw [hspan, if_neg (by omega), ih l (by omega) (by omega) hv,
            ih l (by omega) (by omega) hkey, hs]) hp
      exact hspan

/-- What the strict parser accepts, the permissive one accepts with the same value and end. -/
theorem valueAt_parseAt {bytes : Bytes} {levels depth pos n : Nat}
    (h : valueAt bytes levels depth parser pos = .ok ((v, parser'), n)) :
    Bencode.parseAt bytes levels pos = .ok (v, n) := by
  induction levels using Nat.strong_induction_on generalizing depth parser parser' pos v n with
  | _ levels ih =>
    obtain ⟨b, hb, ⟨hc, h, -⟩ | ⟨hc, ⟨s, hs, rfl⟩, -⟩ | ⟨l, p, items, rfl, hc, -, hloop, rfl⟩ |
      ⟨l, p, items, rfl, hc, -, hloop, rfl⟩⟩ := valueAt_ok h
    · exact Bencode.parseAt_eq_ok.mpr ⟨b, hb, .inl ⟨hc, parseInt_of_parseInteger h⟩⟩
    · exact Bencode.parseAt_eq_ok.mpr
        ⟨b, hb, .inr (.inr (.inr ⟨hc, s, parseBytes_of_parseString hs, rfl⟩))⟩
    · obtain ⟨items', hrun, rfl⟩ := (untilEnd_sound hloop).simulate
        (Bencode.listStep (Bencode.parseAt bytes l)) (R := fun s (t : List Bencode) => s.1 = t) (by
          rintro s t i s' j rfl hstep
          obtain ⟨v, hv, hs'⟩ := itemStep_ok hstep
          exact ⟨_, Bencode.listStep_eq_ok.mpr ⟨v, ih l (by omega) hv, hs'⟩, rfl⟩) rfl
      exact Bencode.parseAt_eq_ok.mpr ⟨b, hb, .inr (.inl ⟨l, rfl, hc, Bencode.parseList_eq_ok.mpr
        ⟨items, hrun.run _ (Bencode.listStep_advances bytes l) _ (by omega), rfl⟩⟩)⟩
    · obtain ⟨items', hrun, rfl⟩ := (untilEnd_sound hloop).simulate
        (Bencode.dictStep bytes (Bencode.parseAt bytes l))
        (R := fun s (t : OrderedMap Bytes Bencode) => s.1 = t) (by
          rintro s t i s' j rfl hstep
          obtain ⟨b, key, start, v, p₁, p₂, hb, hdigit, hkey, -, hv, hs', -⟩ := entryStep_ok hstep
          obtain ⟨⟨k, hk, hkk⟩, -⟩ := valueAt_of_isDigit hb hdigit hkey
          cases hkk
          exact ⟨_, Bencode.dictStep_eq_ok.mpr ⟨key, start, v, hk, ih l (by omega) hv, hs'⟩, rfl⟩) rfl
      exact Bencode.parseAt_eq_ok.mpr ⟨b, hb, .inr (.inr (.inl ⟨l, rfl, hc,
        Bencode.parseDict_eq_ok.mpr
          ⟨items, hrun.run _ (Bencode.dictStep_advances bytes l) _ (by omega), rfl⟩⟩))⟩

/-! ### The byte ranges of the root entries -/

/-- The walk over the entries of a dictionary that records where each value starts and ends. -/
def spanStep (buf : Bytes) (value : Nat → Except WireError (Bencode × Nat))
    (spans : List (Bytes × Nat × Nat)) (i : Nat) :
    Except WireError (List (Bytes × Nat × Nat) × Nat) :=
  match Bencode.parseBytes buf i with
  | .error e => .error e
  | .ok (key, start) =>
    match value start with
    | .error e => .error e
    | .ok (_, stop) => .ok (spans ++ [(key, start, stop)], stop)

/-- The keys of the root dictionary with the byte ranges of their values, in the order of the file,
as the permissive parser reads it. -/
def rootSpans (buf : Bytes) : Except WireError (List (Bytes × Nat × Nat)) :=
  (untilEnd buf 101 .truncated (spanStep buf (Bencode.parseAt buf (Wire.maxDepth - 1))) buf.length
    [] 1).map (·.1)

theorem spanStep_advances (buf : Bytes) (levels : Nat) :
    Advances (spanStep buf (Bencode.parseAt buf levels)) := by
  intro spans i spans' j h
  unfold spanStep at h
  split at h
  · cases h
  · next key start hkey =>
    split at h
    · cases h
    · next v stop hv =>
      cases h
      have := (Bencode.parseBytes_length hkey).1
      have := (Bencode.parseAt_accepted hv).lt
      omega

/-- The strict loop over the root entries and the walk over their ranges. -/
structure Follows (bytes : Bytes) (levels : Nat) (s : OrderedMap Bytes Bencode × Parser)
    (spans : List (Bytes × Nat × Nat)) : Prop where
  nodup : (spans.map (·.1)).Nodup
  keys : ∀ key v, s.1.get? key = some v → ∃ start stop, (key, start, stop) ∈ spans ∧
    Bencode.parseAt bytes levels start = .ok (v, stop)
  mem : ∀ e ∈ spans, s.1.contains e.1 = true
  info : ∀ start stop, (infoKey, start, stop) ∈ spans → s.2.infoSpan = some (start, stop)

theorem Follows.step {bytes : Bytes} {levels : Nat} {s s' : OrderedMap Bytes Bencode × Parser}
    {spans : List (Bytes × Nat × Nat)} {i j : Nat} (H : Follows bytes levels s spans)
    (h : entryStep bytes (valueAt bytes levels 1) 0 s i = .ok (s', j)) :
    ∃ spans', spanStep bytes (Bencode.parseAt bytes levels) spans i = .ok (spans', j) ∧
      Follows bytes levels s' spans' := by
  obtain ⟨b, key, start, v, p₁, p₂, hb, hdigit, hkey, hnew, hv, hs', hspan⟩ := entryStep_ok h
  obtain ⟨⟨k, hk, hkk⟩, hp₁⟩ := valueAt_of_isDigit hb hdigit hkey
  cases hkk
  have hread := valueAt_parseAt hv
  have hp₂ : p₂.infoSpan = s.2.infoSpan := (valueAt_infoSpan (by omega) hv).trans hp₁
  have hfresh : ∀ e ∈ spans, e.1 ≠ key := by
    rintro e he rfl
    rw [H.mem e he] at hnew
    cases hnew
  refine ⟨spans ++ [(key, start, j)], by simp [spanStep, hk, hread], ?_, ?_, ?_, ?_⟩
  · rw [List.map_append, List.nodup_append]
    refine ⟨H.nodup, by simp, ?_⟩
    rintro k hk _ hk' rfl
    obtain ⟨e, he, rfl⟩ := List.mem_map.mp hk
    exact hfresh e he (by simpa using hk')
  · intro key' v' hget
    rw [hs', OrderedMap.get?_insert] at hget
    split at hget
    · next heq =>
      cases hget
      exact ⟨start, j, by simp [heq], hread⟩
    · obtain ⟨a, c, hmem, hparse⟩ := H.keys key' v' hget
      exact ⟨a, c, List.mem_append_left _ hmem, hparse⟩
  · intro e he
    rw [hs', OrderedMap.contains, OrderedMap.get?_insert]
    split
    · rfl
    · next hne =>
      rcases List.mem_append.mp he with he | he
      · exact H.mem e he
      · rw [List.mem_singleton.mp he] at hne
        exact absurd rfl hne
  · intro a c hmem
    rw [hspan]
    rcases List.mem_append.mp hmem with hmem | hmem
    · rw [if_neg fun hkey => hfresh _ hmem hkey.2.symm, hp₂]
      exact H.info a c hmem
    · simp only [List.mem_singleton, Prod.mk.injEq] at hmem
      obtain ⟨rfl, rfl, rfl⟩ := hmem
      rw [if_pos ⟨rfl, rfl⟩]

/-- The root value of a strictly parsed file, and the range of its `info` value. -/
theorem parseFile_span {bytes : Bytes} {root info : Bencode} {parser : Parser}
    (h : parseFile bytes = .ok (root, parser)) (hinfo : root.get infoKey = some info) :
    Bencode.parse bytes = .ok root ∧ ∃ spans start stop, rootSpans bytes = .ok spans ∧
      (spans.map (·.1)).Nodup ∧ (infoKey, start, stop) ∈ spans ∧
      parser.infoSpan = some (start, stop) ∧
      Bencode.parseAt bytes (Wire.maxDepth - 1) start = .ok (info, stop) := by
  unfold parseFile at h
  split at h
  · cases h
  · next root' parser' n hvalue =>
    split at h
    · cases h
    · next hn =>
      cases h
      have hn : n = bytes.length := by simpa using hn
      subst hn
      have hparse : Bencode.parseAt bytes Wire.maxDepth 0 = .ok (root, bytes.length) :=
        valueAt_parseAt hvalue
      refine ⟨Bencode.parse_eq_ok.mpr hparse, ?_⟩
      obtain ⟨b, -, ⟨-, h, -⟩ | ⟨-, ⟨s, -, rfl⟩, -⟩ | ⟨l, p, items, -, -, -, -, rfl⟩ |
        ⟨l, p, items, hl, -, hp, hloop, rfl⟩⟩ := valueAt_ok hvalue
      · obtain ⟨_, _, -, -, -, rfl⟩ := parseInteger_ok h
        cases hinfo
      · cases hinfo
      · cases hinfo
      · cases hl
        have hstart : Follows bytes 31 (∅, p) [] :=
          ⟨List.nodup_nil, fun _ _ h => (by cases h), fun _ h => (by cases h),
            fun _ _ h => (by cases h)⟩
        obtain ⟨spans, hrun, H⟩ := (untilEnd_sound hloop).simulate
          (spanStep bytes (Bencode.parseAt bytes 31)) (fun H hstep => H.step hstep) hstart
        obtain ⟨start, stop, hmem, hread⟩ := H.keys infoKey info
          ((Bencode.get_dict items infoKey).symm.trans hinfo)
        refine ⟨spans, start, stop, ?_, H.nodup, hmem, H.info start stop hmem, hread⟩
        unfold rootSpans
        rw [show Wire.maxDepth - 1 = 31 from rfl,
          hrun.run .truncated (spanStep_advances bytes 31) bytes.length (by omega)]
        rfl

/-- A value that was read inside a buffer is read from its own bytes alone. -/
theorem parse_slice {bytes : Bytes} {levels start stop : Nat} (hfits : bytes.length ≤ u64Max)
    (hlevels : levels ≤ Wire.maxDepth) (h : Bencode.parseAt bytes levels start = .ok (v, stop)) :
    Bencode.parse (slice bytes (start, stop)) = .ok v := by
  obtain ⟨e, rfl, hd, hread⟩ := Bencode.parseAt_local levels h
  have hslice : slice bytes (start, start + e.length) = e := by
    simp only [slice, Nat.add_sub_cancel_left]
    rw [hd, List.take_left]
  have he : e.length ≤ bytes.length := by
    have := congrArg List.length hd
    simp only [List.length_drop, List.length_append] at this
    omega
  have hparse := @hread e 0 [] (Nat.le_trans he hfits) (by simp)
  rw [Nat.zero_add] at hparse
  rw [hslice]
  exact Bencode.parse_eq_ok.mpr (Bencode.parseAt_mono hparse hlevels)

/-! ### The decoder -/

/-- Everything a successful decode has checked. -/
structure Decoded (bytes : Bytes) (m : Metainfo) where
  root : Bencode
  parser : Parser
  info : Bencode
  pieces : Bytes
  span : Nat × Nat
  length_le : bytes.length ≤ maxBytes
  parsed : parseFile bytes = .ok (root, parser)
  get_info : root.get infoKey = some info
  info_dict : isDict info = true
  total : positive info lengthKey = .ok m.totalLength
  piece : positive info pieceLengthKey = .ok m.pieceLength
  piece_le : m.pieceLength ≤ maxPieceLength
  count : pieces.length / 20 = divCeil m.totalLength m.pieceLength
  info_span : parser.infoSpan = some span
  hash : m.infohash = sha1 (slice bytes span)
  hashes : m.pieceHashes = splitHashes pieces

theorem decodeMetainfo_ok {bytes : Bytes} {m : Metainfo} (h : decodeMetainfo bytes = .ok m) :
    Nonempty (Decoded bytes m) := by
  simp only [decodeMetainfo, bind, Except.bind, pure, Except.pure, throw, throwThe,
    MonadExceptOf.throw] at h
  split at h
  · cases h
  · next hlen =>
    split at h
    · cases h
    · next r hparsed =>
      obtain ⟨root, parser⟩ := r
      split at h
      · next info hinfo =>
        obtain ⟨hget, hdict⟩ := Option.filter_eq_some_iff.mp hinfo
        split at h
        · cases h
        · split at h
          · cases h
          · next total htotal =>
            split at h
            · cases h
            · next piece hpiece =>
              split at h
              · cases h
              · next hgeom =>
                split at h
                · next pieces hpieces =>
                  split at h
                  · cases h
                  · next hcount =>
                    split at h
                    · next span hspan =>
                      split at h
                      · cases h
                      · next protection hprot =>
                        split at h
                        · cases h
                        · next trackers htrackers =>
                          cases h
                          simp only [not_or, ne_eq, Decidable.not_not, not_lt] at hgeom hcount
                          exact ⟨⟨root, parser, info, pieces, span, by omega, hparsed, hget, hdict,
                            htotal, hpiece, hgeom.1, hcount.2.2, hspan, rfl, rfl⟩⟩
                    · cases h
                · cases h
      · cases h

theorem positive_ok {info : Bencode} {key : Bytes} {n : Nat} (h : positive info key = .ok n) :
    0 < n ∧ n < 2 ^ 63 := by
  unfold positive at h
  split at h
  · cases h
  · next i hi =>
    cases h
    obtain ⟨-, hpos⟩ := Option.filter_eq_some_iff.mp hi
    have hpos : 0 < i.toInt := by simpa using hpos
    have := i.toInt_lt
    omega

theorem length_splitHashes (pieces : Bytes) :
    (splitHashes pieces).length = pieces.length / 20 := by
  simp [splitHashes]

theorem divCeil_bounds {total piece : Nat} (ht : 0 < total) (hp : 0 < piece) :
    0 < divCeil total piece ∧ (divCeil total piece - 1) * piece < total ∧
      total ≤ divCeil total piece * piece ∧ divCeil total piece * piece < total + piece := by
  have hdiv : divCeil total piece = (total - 1) / piece + 1 := by
    rw [divCeil, show total + piece - 1 = total - 1 + piece by omega, Nat.add_div_right _ hp]
  have hlow : (total - 1) / piece * piece ≤ total - 1 := Nat.div_mul_le_self ..
  have hhigh : total - 1 < ((total - 1) / piece + 1) * piece := by
    rw [Nat.mul_comm]
    exact Nat.lt_mul_div_succ _ hp
  rw [Nat.add_mul, Nat.one_mul] at hhigh
  rw [hdiv, Nat.add_sub_cancel, Nat.add_mul, Nat.one_mul]
  generalize (total - 1) / piece = q at *
  omega

theorem filter_key_eq_singleton {α β : Type} [DecidableEq α] {l : List (α × β)} {e : α × β}
    (hnodup : (l.map (·.1)).Nodup) (he : e ∈ l) : l.filter (·.1 = e.1) = [e] := by
  induction l with
  | nil => cases he
  | cons d l ih =>
    obtain ⟨hd, hl⟩ := List.nodup_cons.mp hnodup
    rcases List.mem_cons.mp he with rfl | he
    · have hrest : l.filter (·.1 = e.1) = [] := List.filter_eq_nil_iff.mpr fun c hc => by
        have : c.1 ≠ e.1 := fun h => hd (List.mem_map.mpr ⟨c, hc, h⟩)
        simpa using this
      rw [List.filter_cons_of_pos (by simp), hrest]
    · have hne : d.1 ≠ e.1 := fun h => hd (List.mem_map.mpr ⟨e, he, h.symm⟩)
      rw [List.filter_cons_of_neg (by simpa using hne), ih hl he]

/-- An accepted torrent is hashed over the bytes of its `info` value. The permissive parser reads the
file with the same root value; `info` is the value of exactly one root entry, in the range that the
strict parser reports, and those bytes alone are the `info` dictionary. The number of piece hashes
is that of the pieces, and their total length is a `u64`. -/
theorem decodeMetainfo_hashes_info {bytes : Bytes} {m : Metainfo}
    (h : decodeMetainfo bytes = .ok m) :
    ∃ root parser info spans start stop,
      parseFile bytes = .ok (root, parser) ∧ Bencode.parse bytes = .ok root ∧
      root.get infoKey = some info ∧ isDict info = true ∧
      parser.infoSpan = some (start, stop) ∧ rootSpans bytes = .ok spans ∧
      spans.filter (·.1 = infoKey) = [(infoKey, start, stop)] ∧
      Bencode.parse (slice bytes (start, stop)) = .ok info ∧
      m.infohash = sha1 (slice bytes (start, stop)) ∧
      0 < m.pieceHashes.length ∧
      (m.pieceHashes.length - 1) * m.pieceLength < m.totalLength ∧
      m.totalLength ≤ m.pieceHashes.length * m.pieceLength ∧
      m.pieceHashes.length * m.pieceLength ≤ u64Max := by
  obtain ⟨D⟩ := decodeMetainfo_ok h
  obtain ⟨hparse, spans, start, stop, hspans, hnodup, hmem, hspan, hread⟩ :=
    parseFile_span D.parsed D.get_info
  have hfits : bytes.length ≤ u64Max := D.length_le.trans (by decide +kernel)
  have heq : D.span = (start, stop) := Option.some.inj (D.info_span.symm.trans hspan)
  have hunique : spans.filter (·.1 = infoKey) = [(infoKey, start, stop)] :=
    filter_key_eq_singleton hnodup hmem
  obtain ⟨htotal, htotal'⟩ := positive_ok D.total
  obtain ⟨hpiece, -⟩ := positive_ok D.piece
  have hcount : m.pieceHashes.length = divCeil m.totalLength m.pieceLength := by
    rw [D.hashes, length_splitHashes, D.count]
  obtain ⟨h₁, h₂, h₃, h₄⟩ := divCeil_bounds htotal hpiece
  have hmax : m.pieceLength ≤ 8 * 1048576 := D.piece_le
  refine ⟨D.root, D.parser, D.info, spans, start, stop, D.parsed, hparse, D.get_info, D.info_dict,
    hspan, hspans, hunique, parse_slice hfits (by decide) hread, heq ▸ D.hash, ?_⟩
  rw [hcount]
  refine ⟨h₁, h₂, h₃, ?_⟩
  unfold u64Max
  omega

/-- A file of one piece: `info` with `length` 5, `piece length` 16384 and one hash, and a further
root key after it. -/
def sampleFile : Bytes :=
  [100, 52, 58, 105, 110, 102, 111, 100, 54, 58, 108, 101, 110, 103, 116, 104, 105, 53, 101,
    49, 50, 58, 112, 105, 101, 99, 101, 32, 108, 101, 110, 103, 116, 104, 105, 49, 54, 51, 56,
    52, 101, 54, 58, 112, 105, 101, 99, 101, 115, 50, 48, 58, 97, 97, 97, 97, 97, 97, 97, 97,
    97, 97, 97, 97, 97, 97, 97, 97, 97, 97, 97, 97, 101, 51, 58, 107, 101, 121, 105, 55, 101,
    101]

def sampleMetainfo : Metainfo where
  protection := .isPublic
  infohash := #v[118, 29, 133, 57, 243, 60, 243, 47, 172, 11, 55, 78, 126, 10, 73, 192, 182, 105, 244, 202]
  pieceLength := 16384
  totalLength := 5
  pieceHashes := [Vector.replicate 20 97]
  trackers := []

theorem decodeMetainfo_sample :
    decodeMetainfo sampleFile = .ok sampleMetainfo ∧
      sampleMetainfo.totalLength ≤ sampleMetainfo.pieceHashes.length * sampleMetainfo.pieceLength :=
  have h : decodeMetainfo sampleFile = .ok sampleMetainfo := by decide +kernel
  ⟨h, by
    obtain ⟨_, _, _, _, _, _, -, -, -, -, -, -, -, -, -, -, -, h, -⟩ := decodeMetainfo_hashes_info h
    exact h⟩

end Outpace.Wire.Metainfo

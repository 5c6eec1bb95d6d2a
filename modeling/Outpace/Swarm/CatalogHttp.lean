import Outpace.Data.Hex
import Outpace.Data.Search

/-!
# Catalog responses

`http_response_body`, `decode_chunked_body` and `find_crlf` of `ace-swarm/src/resolve.rs`. The
decoder adds two to the size of a chunk, which overflows for the two largest sizes; for all others
it returns, and it inverts every chunking of a body whose size lines are UTF-8. The build has
overflow checks or not, and `usize` has 64 bits.
-/

namespace Outpace.Swarm

/-- `ResolveError::Catalog`. -/
structure CatalogError where
  reason : String
  deriving DecidableEq

def asciiBytes (s : String) : List UInt8 := s.toList.map fun c => UInt8.ofNat c.toNat

def crlf : List UInt8 := [13, 10]

def findCrlf (bytes : List UInt8) : Option Nat := findSub? crlf bytes

/-- The size in a size line, which is text. -/
def chunkSize (line : List UInt8) : Option Nat :=
  if utf8Valid line then
    parseHex u64Max (encodeUtf8 (trim ((decodeLossy line).takeWhile (· ≠ ';'))))
  else none

/-- What one round of the loop of `decode_chunked_body` comes to. -/
inductive ChunkStep where
  | error (reason : String)
  /-- The zero chunk. -/
  | last
  | chunk (data rest : List UInt8)
  /-- `size + 2` overflows, and there or at the slices is a panic. -/
  | overflow
  deriving DecidableEq

def chunkStep (checks : Bool) (body : List UInt8) : ChunkStep :=
  match findCrlf body with
  | none => .error "bad chunk size"
  | some lineEnd =>
    match chunkSize (body.take lineEnd) with
    | none => .error "bad chunk size"
    | some size =>
      let body := body.drop (lineEnd + 2)
      if size = 0 then .last
      else
        match word checks (size + 2) with
        | none => .overflow
        | some next =>
          if body.length < next then .error "truncated chunk"
          -- the slice `size..size + 2` ends before it starts
          else if next < size then .overflow
          else if (body.drop size).take 2 ≠ crlf then .error "bad chunk terminator"
          else .chunk (body.take size) (body.drop next)

/-- The loop of `decode_chunked_body`, or `none` if it panics. -/
def decodeChunks (checks : Bool) : (fuel : Nat) → (body out : List UInt8) →
    Option (Except CatalogError (List UInt8))
  | 0, _, _ => none
  | fuel + 1, body, out =>
    match chunkStep checks body with
    | .error reason => some (.error ⟨reason⟩)
    | .last => some (.ok out)
    | .chunk data rest => decodeChunks checks fuel rest (out ++ data)
    | .overflow => none

/-- Every round passes a line end, so the length is enough fuel. -/
def decodeChunkedBody (checks : Bool) (body : List UInt8) :
    Option (Except CatalogError (List UInt8)) :=
  decodeChunks checks (body.length + 1) body []

/-- `split("\r\n")`. -/
def splitCrlf : List UInt8 → List (List UInt8)
  | [] => [[]]
  | 13 :: 10 :: rest => [] :: splitCrlf rest
  | b :: rest =>
    match splitCrlf rest with
    | [] => [[b]]
    | line :: lines => (b :: line) :: lines

def toAsciiLowercase (bytes : List UInt8) : List UInt8 :=
  bytes.map fun b => if 65 ≤ b ∧ b ≤ 90 then b + 32 else b

/-- The header line announces a chunked body. -/
def isChunkedHeader (line : List UInt8) : Bool :=
  (asciiBytes "transfer-encoding:").isPrefixOf (toAsciiLowercase line) &&
    containsSub (asciiBytes "chunked") (toAsciiLowercase line)

/-- `http_response_body` up to the body: whether it is chunked, and its bytes. -/
def readHeaders (response : List UInt8) : Except CatalogError (Bool × List UInt8) :=
  match findSub? (crlf ++ crlf) response with
  | none => .error ⟨"bad catalog http response"⟩
  | some headerEnd =>
    let headers := response.take headerEnd
    if utf8Valid headers = false then .error ⟨"bad catalog http headers"⟩
    else
      match splitCrlf headers with
      | [] => .error ⟨"missing catalog http status"⟩
      | status :: lines =>
        if !(asciiBytes "HTTP/").isPrefixOf status || !containsSub (asciiBytes " 200 ") status then
          .error ⟨"catalog http status"⟩
        else .ok (lines.any isChunkedHeader, response.drop (headerEnd + 4))

/-- `http_response_body`, or `none` if it panics. -/
def httpResponseBody (checks : Bool) (response : List UInt8) :
    Option (Except CatalogError (List UInt8)) :=
  match readHeaders response with
  | .error e => some (.error e)
  | .ok (true, body) => decodeChunkedBody checks body
  | .ok (false, body) => some (.ok body)

/-! ### Sizes that overflow -/

/-- A size overflows and is not found too long: without checks `2 ^ 64 - 1` wraps to one more than
the length of nothing. -/
def Overflows (checks : Bool) (size : Nat) (rest : List UInt8) : Prop :=
  u64Max < size + 2 ∧ (checks = true ∨ size ≠ u64Max ∨ rest ≠ [])

/-- Whole chunks, and then a size line whose size overflows. -/
inductive Overlong (checks : Bool) : List UInt8 → Prop
  | here {line rest : List UInt8} {size : Nat} (hline : findCrlf line = none)
      (hsize : chunkSize line = some size) (h : Overflows checks size rest) :
      Overlong checks (line ++ crlf ++ rest)
  | after {line data rest : List UInt8} (hline : findCrlf line = none)
      (hsize : chunkSize line = some data.length) (hdata : data ≠ []) (h : Overlong checks rest) :
      Overlong checks (line ++ crlf ++ (data ++ crlf ++ rest))

variable {checks : Bool} {line data rest body : List UInt8} {size : Nat}

theorem chunkSize_le (h : chunkSize line = some size) : size ≤ u64Max := by
  unfold chunkSize at h
  split at h
  · exact parseHex_le h
  · cases h

theorem word_overlong (hsize : size ≤ u64Max) (h : u64Max < size + 2) :
    word checks (size + 2) = if checks then none else some (size + 1 - u64Max) := by
  have hmax : 0 < u64Max := by decide
  rw [word, if_neg (Nat.not_le.mpr h), Nat.mod_eq_sub_mod (by omega),
    Nat.mod_eq_of_lt (by omega), show size + 2 - (u64Max + 1) = size + 1 - u64Max by omega]

/-- A round, for a given first line. -/
theorem chunkStep_eq (hline : findCrlf line = none) (rest : List UInt8) :
    chunkStep checks (line ++ crlf ++ rest) =
      match chunkSize line with
      | none => .error "bad chunk size"
      | some size =>
        if size = 0 then .last
        else
          match word checks (size + 2) with
          | none => .overflow
          | some next =>
            if rest.length < next then .error "truncated chunk"
            else if next < size then .overflow
            else if (rest.drop size).take 2 ≠ crlf then .error "bad chunk terminator"
            else .chunk (rest.take size) (rest.drop next) := by
  have hfind : findCrlf (line ++ crlf ++ rest) = some line.length := by
    rw [List.append_assoc]
    exact findSub?_append (by decide) hline rest
  have htake : (line ++ crlf ++ rest).take line.length = line := by
    rw [List.append_assoc, List.take_left]
  have hdrop : (line ++ crlf ++ rest).drop (line.length + 2) = rest :=
    List.drop_left' (by rw [List.length_append]; rfl)
  rw [chunkStep, hfind]
  dsimp only
  rw [htake, hdrop]

/-- A size that overflows is a panic, or too long. -/
theorem chunkStep_overlong (hline : findCrlf line = none) (hsize : chunkSize line = some size)
    (h : u64Max < size + 2) (rest : List UInt8) :
    chunkStep checks (line ++ crlf ++ rest) =
      if checks = true ∨ size ≠ u64Max ∨ rest ≠ [] then .overflow
      else .error "truncated chunk" := by
  have hle := chunkSize_le hsize
  have hmax : 2 < u64Max := by decide
  rw [chunkStep_eq hline, hsize]
  dsimp only
  rw [if_neg (by omega), word_overlong hle h]
  cases checks with
  | true => simp
  | false =>
    have hshort : rest.length < size + 1 - u64Max ↔ size = u64Max ∧ rest = [] := by
      rw [← List.length_eq_zero_iff]
      omega
    have hslice : size + 1 - u64Max < size := by omega
    simp only [Bool.false_eq_true, if_false, hshort, if_pos hslice, false_or, ← not_and_or, ne_eq,
      ite_not]

theorem chunkStep_whole (hline : findCrlf line = none) (hsize : chunkSize line = some data.length)
    (hdata : data ≠ []) (h : data.length + 2 ≤ u64Max) (rest : List UInt8) :
    chunkStep checks (line ++ crlf ++ (data ++ crlf ++ rest)) = .chunk data rest := by
  have hlen : ¬(data ++ crlf ++ rest).length < data.length + 2 := by
    rw [List.length_append, List.length_append]
    exact Nat.not_lt.mpr (Nat.le_add_right ..)
  have hend : ((data ++ crlf ++ rest).drop data.length).take 2 = crlf := by
    rw [List.append_assoc, List.drop_left]
    rfl
  rw [chunkStep_eq hline, hsize]
  dsimp only
  rw [if_neg (mt List.length_eq_zero_iff.mp hdata), word_of_le h]
  dsimp only
  rw [if_neg hlen, if_neg (by omega), if_neg (not_not_intro hend), List.append_assoc,
    List.take_left, ← List.append_assoc, List.drop_left' (by rw [List.length_append]; rfl)]

/-- The first line of a body that has one. -/
theorem exists_line {k : Nat} (h : findCrlf body = some k) :
    ∃ line rest, findCrlf line = none ∧ body = line ++ crlf ++ rest :=
  ⟨_, _, findSub?_take h, findSub?_eq_some h⟩

theorem chunkStep_cases (checks : Bool) (body : List UInt8) :
    (∃ reason, chunkStep checks body = .error reason) ∨ chunkStep checks body = .last ∨
      Overlong checks body ∨
      ∃ line data rest, findCrlf line = none ∧ chunkSize line = some data.length ∧ data ≠ [] ∧
        data.length + 2 ≤ u64Max ∧ body = line ++ crlf ++ (data ++ crlf ++ rest) := by
  cases hfind : findCrlf body with
  | none => exact .inl ⟨_, by rw [chunkStep, hfind]⟩
  | some k =>
    obtain ⟨line, rest, hline, rfl⟩ := exists_line hfind
    cases hsize : chunkSize line with
    | none => exact .inl ⟨_, by rw [chunkStep_eq hline, hsize]⟩
    | some size =>
      by_cases hmax : size + 2 ≤ u64Max
      swap
      · rw [chunkStep_overlong hline hsize (Nat.not_le.mp hmax)]
        split
        · next h => exact .inr (.inr (.inl (.here hline hsize ⟨by omega, h⟩)))
        · exact .inl ⟨_, rfl⟩
      rw [chunkStep_eq hline, hsize]
      dsimp only
      split
      · exact .inr (.inl rfl)
      next hpos =>
      rw [word_of_le hmax]
      dsimp only
      split
      · exact .inl ⟨_, rfl⟩
      next hlen =>
      rw [if_neg (by omega)]
      split
      · exact .inl ⟨_, rfl⟩
      next hend =>
      rw [not_not] at hend
      have hdata : (rest.take size).length = size := List.length_take_of_le (by omega)
      have hrest : rest = rest.take size ++ crlf ++ rest.drop (size + 2) := by
        rw [← hend, List.append_assoc, ← List.drop_drop, List.take_append_drop,
          List.take_append_drop]
      refine .inr (.inr (.inr ⟨line, rest.take size, rest.drop (size + 2), hline, ?_, ?_, ?_, ?_⟩))
      · rw [hdata, hsize]
      · intro hnil
        rw [hnil] at hdata
        exact hpos hdata.symm
      · rw [hdata]
        exact hmax
      · rw [← hrest]

theorem length_chunkStep (h : chunkStep checks body = .chunk data rest) :
    rest.length < body.length := by
  unfold chunkStep at h
  grind

theorem overlong_iff : Overlong checks body ↔ chunkStep checks body = .overflow ∨
    ∃ data rest, chunkStep checks body = .chunk data rest ∧ Overlong checks rest := by
  constructor
  · intro H
    cases H with
    | here hline hsize h => exact .inl ((chunkStep_overlong hline hsize h.1 _).trans (if_pos h.2))
    | @after line data rest hline hsize hdata h =>
      by_cases hmax : data.length + 2 ≤ u64Max
      · exact .inr ⟨data, rest, chunkStep_whole hline hsize hdata hmax rest, h⟩
      · refine .inl ((chunkStep_overlong hline hsize (Nat.not_le.mp hmax) _).trans (if_pos ?_))
        exact .inr (.inr (by simp [hdata]))
  · rcases chunkStep_cases checks body with ⟨reason, h⟩ | h | H |
      ⟨line, data, rest, hline, hsize, hdata, hmax, rfl⟩
    · simp [h]
    · simp [h]
    · exact fun _ => H
    · rw [chunkStep_whole hline hsize hdata hmax]
      simpa using Overlong.after hline hsize hdata

theorem decodeChunks_eq_none {fuel : Nat} {out : List UInt8} (hfuel : body.length < fuel) :
    decodeChunks checks fuel body out = none ↔ Overlong checks body := by
  induction fuel generalizing body out with
  | zero => cases hfuel
  | succ fuel ih =>
    rw [decodeChunks, overlong_iff]
    cases hstep : chunkStep checks body with
    | chunk data rest =>
      have hrest := length_chunkStep hstep
      simpa using ih (by omega)
    | _ => simp

theorem httpResponseBody_eq_none {response : List UInt8} :
    httpResponseBody checks response = none ↔
      ∃ body, readHeaders response = .ok (true, body) ∧ Overlong checks body := by
  unfold httpResponseBody
  split
  · next h =>
    refine ⟨fun h' => (by cases h'), ?_⟩
    rintro ⟨body, h', -⟩
    rw [h] at h'
    cases h'
  · next body h =>
    refine (decodeChunks_eq_none (Nat.lt_succ_self _)).trans ⟨fun H => ⟨body, h, H⟩, ?_⟩
    rintro ⟨body', h', H⟩
    rw [h] at h'
    cases h'
    exact H
  · next h =>
    refine ⟨fun h' => (by cases h'), ?_⟩
    rintro ⟨body, h', -⟩
    rw [h] at h'
    cases h'

/-! ### Chunkings -/

/-- A chunk, its size in hexadecimal digits and an extension. -/
structure EncodedChunk where
  digits : List UInt8
  ext : List UInt8
  data : List UInt8
  digits_ne : digits ≠ []
  digits_hex : digits.all isHexByte = true
  size_eq : hexValue digits = data.length
  ext_start : ∀ b ∈ ext.head?, b = 59
  ext_line : findCrlf ext = none

namespace EncodedChunk

def sizeLine (c : EncodedChunk) : List UInt8 := c.digits ++ c.ext

variable (c : EncodedChunk)

theorem isHexByte_of_mem {b : UInt8} (h : b ∈ c.digits) : isHexByte b = true :=
  List.all_eq_true.mp c.digits_hex b h

theorem digits_ascii : ∀ b ∈ c.digits, b ≤ 0x7f := by
  intro b hb
  obtain ⟨v, hv⟩ := Option.isSome_iff_exists.mp (c.isHexByte_of_mem hb)
  exact UInt8.le_iff_toNat_le.mpr (Nat.le_of_lt_succ (hexDigitValue_lt hv).2)

/-- A digit is neither a line end nor white space nor the start of an extension. -/
theorem digit_plain {b : UInt8} (h : isHexByte b = true) :
    b ≠ 13 ∧ isWhitespace (Char.ofNat b.toNat) = false ∧ Char.ofNat b.toNat ≠ ';' := by
  have hall : ∀ n < 128, (hexDigitValue n).isSome = true →
      n ≠ 13 ∧ isWhitespace (Char.ofNat n) = false ∧ Char.ofNat n ≠ ';' := by decide
  obtain ⟨v, hv⟩ := Option.isSome_iff_exists.mp h
  obtain ⟨hcr, hrest⟩ := hall b.toNat (hexDigitValue_lt hv).2 h
  refine ⟨?_, hrest⟩
  rintro rfl
  exact hcr rfl

theorem findCrlf_append {digits ext : List UInt8} (h : ∀ b ∈ digits, b ≠ 13) :
    findCrlf ext = none → findCrlf (digits ++ ext) = none := by
  intro hext
  induction digits with
  | nil => exact hext
  | cons b digits ih =>
    have hb : (b :: (digits ++ ext)).take crlf.length ≠ crlf := by
      intro heq
      injection heq with hhead
      exact h b List.mem_cons_self hhead
    rw [findCrlf, List.cons_append, findSub?, if_neg hb, Option.map_eq_none_iff]
    exact ih fun b hb => h b (List.mem_cons_of_mem _ hb)

theorem findCrlf_sizeLine : findCrlf c.sizeLine = none :=
  findCrlf_append (fun _ hb => (digit_plain (c.isHexByte_of_mem hb)).1) c.ext_line

theorem takeWhile_ext : (decodeLossy c.ext).takeWhile (· ≠ ';') = [] := by
  cases h : c.ext with
  | nil => rfl
  | cons b ext =>
    obtain rfl : b = 59 := c.ext_start b (by rw [h]; rfl)
    have hascii : ∀ b ∈ ([59] : List UInt8), b ≤ 0x7f := by
      intro b hb
      rw [List.mem_singleton.mp hb]
      decide
    rw [← List.singleton_append, decodeLossy_ascii_append hascii]
    rfl

theorem chunkSize_sizeLine :
    chunkSize c.sizeLine =
      if utf8Valid c.ext = true ∧ c.data.length ≤ u64Max then some c.data.length else none := by
  have htext : (decodeLossy c.sizeLine).takeWhile (· ≠ ';') =
      c.digits.map fun b => Char.ofNat b.toNat := by
    rw [sizeLine, decodeLossy_ascii_append c.digits_ascii, List.takeWhile_append_of_pos, takeWhile_ext,
      List.append_nil]
    intro ch hch
    obtain ⟨b, hb, rfl⟩ := List.mem_map.mp hch
    exact decide_eq_true (digit_plain (c.isHexByte_of_mem hb)).2.2
  have htrim : trim (c.digits.map fun b => Char.ofNat b.toNat) =
      c.digits.map fun b => Char.ofNat b.toNat := by
    refine trim_of_forall fun ch hch => ?_
    obtain ⟨b, hb, rfl⟩ := List.mem_map.mp hch
    exact (digit_plain (c.isHexByte_of_mem hb)).2.1
  rw [chunkSize, htext, htrim, encodeUtf8_ascii c.digits_ascii, sizeLine,
    utf8Valid_ascii_append c.digits_ascii]
  by_cases hext : utf8Valid c.ext = true
  · rw [if_pos hext, parseHex_digits c.digits_ne c.digits_hex, c.size_eq]
    simp only [hext, true_and]
  · rw [if_neg hext, if_neg (fun h => hext h.1)]

/-- The size line of the chunk is text, and two more than its size is a machine word. -/
def Readable : Prop := utf8Valid c.ext = true ∧ c.data.length + 2 ≤ u64Max

variable {c}

theorem chunkStep_readable (h : c.Readable) (hdata : c.data ≠ []) (rest : List UInt8) :
    chunkStep checks (c.sizeLine ++ crlf ++ (c.data ++ crlf ++ rest)) = .chunk c.data rest := by
  refine chunkStep_whole c.findCrlf_sizeLine ?_ hdata h.2 rest
  rw [chunkSize_sizeLine, if_pos ⟨h.1, Nat.le_of_add_right_le h.2⟩]

theorem chunkStep_not_readable (h : ¬c.Readable) (rest : List UInt8) :
    (∃ reason, chunkStep checks (c.sizeLine ++ crlf ++ rest) = .error reason) ∨
      chunkStep checks (c.sizeLine ++ crlf ++ rest) = .overflow := by
  by_cases hsize : utf8Valid c.ext = true ∧ c.data.length ≤ u64Max
  · rw [chunkStep_overlong c.findCrlf_sizeLine (by rw [chunkSize_sizeLine, if_pos hsize])
      (Nat.not_le.mp fun hmax => h ⟨hsize.1, hmax⟩)]
    split
    · exact .inr rfl
    · exact .inl ⟨_, rfl⟩
  · refine .inl ⟨"bad chunk size", ?_⟩
    rw [chunkStep_eq c.findCrlf_sizeLine, chunkSize_sizeLine, if_neg hsize]

end EncodedChunk

/-- The chunks, a zero chunk and what follows it. -/
def chunkedBytes : (chunks : List EncodedChunk) → (zero : EncodedChunk) → (trailer : List UInt8) →
    List UInt8
  | [], zero, trailer => zero.sizeLine ++ crlf ++ trailer
  | c :: chunks, zero, trailer =>
    c.sizeLine ++ crlf ++ (c.data ++ crlf ++ chunkedBytes chunks zero trailer)

variable {chunks : List EncodedChunk} {zero : EncodedChunk}

theorem decodeChunks_chunkedBytes {fuel : Nat} {out result : List UInt8}
    (hchunks : ∀ c ∈ chunks, c.data ≠ []) (hzero : zero.data = []) (hfuel : chunks.length < fuel)
    (trailer : List UInt8) :
    decodeChunks checks fuel (chunkedBytes chunks zero trailer) out = some (.ok result) ↔
      ((∀ c ∈ chunks, c.Readable) ∧ utf8Valid zero.ext = true) ∧
        out ++ chunks.flatMap (·.data) = result := by
  induction chunks generalizing fuel out with
  | nil =>
    obtain ⟨fuel, rfl⟩ := Nat.exists_eq_succ_of_ne_zero (Nat.ne_of_gt hfuel)
    rw [decodeChunks, chunkedBytes, chunkStep_eq zero.findCrlf_sizeLine, zero.chunkSize_sizeLine, hzero]
    by_cases hext : utf8Valid zero.ext = true
    · simp [hext]
    · simp [hext]
  | cons c chunks ih =>
    obtain ⟨fuel, rfl⟩ := Nat.exists_eq_succ_of_ne_zero (Nat.ne_of_gt (Nat.zero_lt_of_lt hfuel))
    rw [decodeChunks, chunkedBytes]
    by_cases hc : c.Readable
    · rw [EncodedChunk.chunkStep_readable hc (hchunks c List.mem_cons_self), List.forall_mem_cons,
        List.flatMap_cons, ← List.append_assoc]
      simp only [hc, true_and]
      exact ih (fun c h => hchunks c (List.mem_cons_of_mem _ h)) (Nat.lt_of_succ_lt_succ hfuel)
    · refine ⟨fun h => ?_, fun h => absurd (h.1.1 c List.mem_cons_self) hc⟩
      obtain ⟨reason, hstep⟩ | hstep := EncodedChunk.chunkStep_not_readable hc
        (c.data ++ crlf ++ chunkedBytes chunks zero trailer)
      all_goals
        rw [hstep] at h
        cases h

theorem length_le_chunkedBytes (chunks : List EncodedChunk) (zero : EncodedChunk)
    (trailer : List UInt8) : chunks.length ≤ (chunkedBytes chunks zero trailer).length := by
  induction chunks with
  | nil => exact Nat.zero_le _
  | cons c chunks ih =>
    simp only [chunkedBytes, List.length_append, List.length_cons]
    have : crlf.length = 2 := rfl
    omega

/-- The decoder of a response returns unless it meets a size that overflows, and it gives back a
chunked body exactly if the size lines are text and no size of theirs overflows. -/
theorem httpResponseBody_decodes (checks : Bool) (response : List UInt8)
    (chunks : List EncodedChunk) (zero : EncodedChunk) (trailer : List UInt8) :
    (httpResponseBody checks response ≠ none ↔
      ∀ body, readHeaders response = .ok (true, body) → ¬Overlong checks body) ∧
    ((∀ c ∈ chunks, c.data ≠ []) → zero.data = [] →
      (decodeChunkedBody checks (chunkedBytes chunks zero trailer) =
          some (.ok (chunks.flatMap (·.data))) ↔
        (∀ c ∈ chunks, c.Readable) ∧ utf8Valid zero.ext = true)) := by
  refine ⟨?_, fun hchunks hzero => ?_⟩
  · rw [ne_eq, httpResponseBody_eq_none]
    exact ⟨fun h body hbody H => h ⟨body, hbody, H⟩, fun h ⟨body, hbody, H⟩ => h body hbody H⟩
  · have hfuel := Nat.lt_succ_of_le (length_le_chunkedBytes chunks zero trailer)
    refine (decodeChunks_chunkedBytes hchunks hzero hfuel trailer).trans ⟨And.left, fun h => ⟨h, ?_⟩⟩
    rw [List.nil_append]

/-- A chunked response with one size line. -/
def oneLineResponse (line : String) : List UInt8 :=
  asciiBytes "HTTP/1.1 200 OK" ++ crlf ++ asciiBytes "Transfer-Encoding: chunked" ++ crlf ++ crlf ++
    asciiBytes line ++ crlf

/-- `3;x` with its data, and `0`. -/
def threeChunk : EncodedChunk where
  digits := asciiBytes "3"
  ext := asciiBytes ";x"
  data := asciiBytes "abc"
  digits_ne := by decide
  digits_hex := by decide
  size_eq := by decide
  ext_start := fun _ h => (Option.some.inj h).symm
  ext_line := by decide

def zeroChunk : EncodedChunk where
  digits := asciiBytes "0"
  ext := []
  data := []
  digits_ne := by decide
  digits_hex := by decide
  size_eq := by decide
  ext_start := fun _ h => (by cases h)
  ext_line := by decide

theorem httpResponseBody_decodes_three :
    (∀ body, readHeaders (oneLineResponse "3") = .ok (true, body) → ¬Overlong false body) ∧
      decodeChunkedBody false (chunkedBytes [threeChunk] zeroChunk crlf) =
        some (.ok (asciiBytes "abc")) := by
  have hthree : threeChunk.Readable := ⟨by decide, by decide⟩
  have hdata : threeChunk.data ≠ [] := by decide
  obtain ⟨hreturns, hdecodes⟩ :=
    httpResponseBody_decodes false (oneLineResponse "3") [threeChunk] zeroChunk crlf
  refine ⟨hreturns.mp (by decide +kernel), ?_⟩
  exact (hdecodes (List.forall_mem_singleton.mpr hdata) rfl).mpr
    ⟨List.forall_mem_singleton.mpr hthree, rfl⟩

/-- With one more byte behind the size line, both builds panic. -/
theorem httpResponseBody_overflows :
    httpResponseBody true (oneLineResponse "ffffffffffffffff" ++ [0]) = none ∧
      httpResponseBody false (oneLineResponse "ffffffffffffffff" ++ [0]) = none := by
  decide +kernel

end Outpace.Swarm

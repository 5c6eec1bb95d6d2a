import Outpace.Swarm.Live.WarmPeers

/-!
# The file of the warm peers

`encode` and `parse` of `warm_peers.rs`: a header and a line of five fields for each row. The parser
checks every limit of the cache again, so that what it reads is a cache, and a pruned cache of allowed
endpoints is read back as it was (`parse_encode`).
-/

namespace Outpace.Swarm.Live.WarmPeers

def maxBytes : Nat := 256 * 1024

def maxLine : Nat := 128

def header : List UInt8 := encodeUtf8 "OUTPACE-WARM-1\n".toList

def fields (hash : Infohash) (entry : Entry) : List (List UInt8) :=
  [encodeUtf8 (hexEncode hash.1), decimal entry.atTime.toNat, [if entry.source then 83 else 68],
    entry.addr.ip.text, decimal entry.addr.port.toNat]

def line (hash : Infohash) (entry : Entry) : List UInt8 := [32].intercalate (fields hash entry)

def encode (entries : Entries) : List UInt8 :=
  header ++ entries.rows.flatMap fun row => line row.1 row.2 ++ [10]

def parseHash (encoded : List UInt8) : Option Infohash :=
  if encoded.length ≠ 40 then none
  else (hexDecode encoded).bind fun bytes => if h : bytes.length = 20 then some ⟨bytes, h⟩ else none

def parseSource (field : List UInt8) : Option Bool :=
  if field = [83] then some true else if field = [68] then some false else none

/-- The row of a line. -/
def parseRow (allowLoopback : Bool) (time : UInt64) (row : List UInt8) :
    Option (Infohash × Entry) :=
  match row.splitOn 32 with
  | [encoded, atTime, source, ip, port] => do
    let hash ← parseHash encoded
    let atTime ← parseU64 atTime
    let source ← parseSource source
    let ip ← Ipv4Addr.parse ip
    let port ← parseU16 port
    let entry : Entry := ⟨⟨ip, port⟩, source, UInt64.ofNat atTime⟩
    if entry.fresh time && endpointAllowed entry.addr allowLoopback then some (hash, entry) else none
  | _ => none

/-- One round of the loop: the entries and the number of rows so far. -/
def parseLine (allowLoopback : Bool) (time : UInt64) (state : Entries × Nat) (row : List UInt8) :
    Option (Entries × Nat) :=
  if row.isEmpty then some state
  else if maxLine < row.length ∨ maxRows ≤ state.2 then none
  else if !utf8Valid row then none
  else
    (parseRow allowLoopback time row).bind fun (hash, entry) =>
      if !state.1.contains hash && decide (maxInfohashes ≤ state.1.size) then none
      else
        let peers := (state.1.get? hash).getD []
        if maxPeers ≤ peers.length ∨ peers.any (·.addr == entry.addr) ∨
            (entry.source && decide (maxSources ≤ peers.countP (·.source))) then none
        else some (state.1.push hash entry, state.2 + 1)

def parse (bytes : List UInt8) (allowLoopback : Bool) (time : UInt64) : Option Entries :=
  if maxBytes < bytes.length ∨ header.isPrefixOf bytes = false then none
  else
    (((bytes.drop header.length).splitOn 10).foldlM (parseLine allowLoopback time) (∅, 0)).map (·.1)

/-! ### Lines -/

variable {hash : Infohash} {entry : Entry} {b : UInt8}

theorem toNat_of_isDigit (h : isDigit b = true) : 48 ≤ b.toNat ∧ b.toNat ≤ 57 := by
  simpa [isDigit, UInt8.le_iff_toNat_le] using h

/-- Neither a blank nor a line break, and in ASCII. -/
theorem toNat_of_mem_fields {field : List UInt8} (hfield : field ∈ fields hash entry)
    (hb : b ∈ field) : 32 < b.toNat ∧ b.toNat < 128 := by
  have hdigit : ∀ n, b ∈ decimal n → 32 < b.toNat ∧ b.toNat < 128 := fun n h => by
    have hrange := toNat_of_isDigit (List.all_eq_true.mp (all_isDigit_decimal n) b h)
    omega
  simp only [fields, List.mem_cons, List.not_mem_nil, or_false] at hfield
  rcases hfield with rfl | rfl | rfl | rfl | rfl
  · obtain ⟨v, hv⟩ := Option.isSome_iff_exists.mp (isHexByte_of_mem_hexEncode hb)
    refine ⟨?_, (hexDigitValue_lt hv).2⟩
    unfold hexDigitValue at hv
    split at hv
    · omega
    split at hv
    · omega
    split at hv
    · omega
    · cases hv
  · exact hdigit _ hb
  · rw [List.mem_singleton.mp hb]
    cases entry.source <;> decide
  · rcases Ipv4Addr.text_isDigit _ b hb with h | rfl
    · have hrange := toNat_of_isDigit h
      omega
    · decide
  · exact hdigit _ hb

theorem toNat_of_mem_line (hb : b ∈ line hash entry) : 32 ≤ b.toNat ∧ b.toNat < 128 := by
  rcases mem_intercalate_singleton hb with rfl | ⟨field, hfield, hb⟩
  · decide
  · have hrange := toNat_of_mem_fields hfield hb
    omega

theorem splitOn_line (hash : Infohash) (entry : Entry) :
    (line hash entry).splitOn 32 = fields hash entry := by
  refine List.splitOn_intercalate 32 (fun field hfield hb => ?_) (List.cons_ne_nil _ _)
  exact Nat.lt_irrefl _ (toNat_of_mem_fields hfield hb).1

theorem length_line_le (hash : Infohash) (entry : Entry) : (line hash entry).length ≤ 85 := by
  have hat := entry.atTime.toNat_lt
  have hport := entry.addr.port.toNat_lt
  have h₁ := length_encodeUtf8_hexEncode hash.1
  have h₂ : (decimal entry.atTime.toNat).length ≤ 20 :=
    length_decimal_le_of_lt (by decide) (by omega)
  have h₃ := entry.addr.ip.length_text_le
  have h₄ : (decimal entry.addr.port.toNat).length ≤ 5 :=
    length_decimal_le_of_lt (by decide) (by omega)
  rw [hash.2] at h₁
  simp [line, fields, List.intercalate]
  omega

theorem parseHash_hexEncode (hash : Infohash) :
    parseHash (encodeUtf8 (hexEncode hash.1)) = some hash := by
  have hlen := length_encodeUtf8_hexEncode hash.1
  rw [hash.2] at hlen
  rw [parseHash, if_neg (not_not_intro hlen), hexDecode_hexEncode, Option.bind_some, dif_pos hash.2]

theorem parseRow_line {allowLoopback : Bool} {time : UInt64} (hfresh : entry.fresh time = true)
    (hallowed : endpointAllowed entry.addr allowLoopback = true) :
    parseRow allowLoopback time (line hash entry) = some (hash, entry) := by
  have hat := entry.atTime.toNat_lt
  have hle : entry.atTime.toNat ≤ u64Max := by
    unfold u64Max
    omega
  have hsource : parseSource [if entry.source then 83 else 68] = some entry.source := by
    cases entry.source <;> rfl
  have hentry : (⟨⟨entry.addr.ip, entry.addr.port⟩, entry.source,
      UInt64.ofNat entry.atTime.toNat⟩ : Entry) = entry := by
    rw [UInt64.ofNat_toNat]
  rw [parseRow, splitOn_line]
  simp only [fields, parseHash_hexEncode, parseU64_decimal hle, hsource, Ipv4Addr.parse_text,
    parseU16_decimal, Option.bind_eq_bind, Option.bind_some, hentry]
  rw [hfresh, hallowed]
  rfl

/-! ### The whole file -/

variable {entries : Entries} {allowLoopback : Bool} {time : UInt64}
  {before after : List (Infohash × Entry)}

/-- The rows before one of them, and that one, begin the peers of their infohash. -/
theorem peers_of_rows {row : Infohash × Entry} (hrows : entries.rows = before ++ row :: after) :
    ∃ rest,
      (entries.get? row.1).getD [] = OrderedMap.rowsAt row.1 before ++ row.2 :: rest := by
  have hat := entries.rowsAt_rows row.1
  rw [hrows, List.append_cons, OrderedMap.rowsAt_append, OrderedMap.rowsAt_append] at hat
  have hone : OrderedMap.rowsAt row.1 [row] = [row.2] := by simp [OrderedMap.rowsAt]
  rw [hone, List.append_assoc] at hat
  exact ⟨_, hat.symm⟩

theorem size_collect_le (hrows : entries.rows = before ++ after) :
    (OrderedMap.collect before).size ≤ entries.size := by
  refine OrderedMap.size_le_of_contains fun k hk => ?_
  have hne := (OrderedMap.contains_collect before k).mp hk
  have hat := entries.rowsAt_rows k
  rw [hrows, OrderedMap.rowsAt_append] at hat
  cases hget : entries.get? k with
  | none =>
    rw [hget] at hat
    exact absurd (List.append_eq_nil_iff.mp hat).1 hne
  | some peers => exact OrderedMap.contains_iff.mpr ⟨peers, hget⟩

/-- The line of a row is taken after the rows before it. -/
theorem parseLine_line (H : Limits entries) {row : Infohash × Entry}
    (hrows : entries.rows = before ++ row :: after) (hfresh : row.2.fresh time = true)
    (hallowed : endpointAllowed row.2.addr allowLoopback = true) :
    parseLine allowLoopback time (OrderedMap.collect before, before.length) (line row.1 row.2) =
      some (OrderedMap.collect (before ++ [row]), (before ++ [row]).length) := by
  obtain ⟨rest, hpeers⟩ := peers_of_rows hrows
  have hbounded := H.bounded row.1
  rw [hpeers] at hbounded
  have hcount : before.length < maxRows := by
    have hlen := congrArg List.length hrows
    have hle := H.rows
    rw [rowCount_eq, ← OrderedMap.length_rows, hlen, List.length_append, List.length_cons] at hle
    omega
  have hne : (line row.1 row.2).isEmpty = false := by
    rw [List.isEmpty_eq_false_iff]
    intro hnil
    have hsplit := splitOn_line row.1 row.2
    rw [hnil] at hsplit
    cases congrArg List.length hsplit
  have hlen : ¬ (maxLine < (line row.1 row.2).length ∨ maxRows ≤ before.length) := by
    have hle := length_line_le row.1 row.2
    have hmax : maxLine = 128 := rfl
    omega
  have hutf8 : utf8Valid (line row.1 row.2) = true :=
    utf8Valid_of_ascii fun b hb => UInt8.le_iff_toNat_le.mpr
      (Nat.le_of_lt_succ (toNat_of_mem_line hb).2)
  have hroom : (!(OrderedMap.collect before).contains row.1 &&
      decide (maxInfohashes ≤ (OrderedMap.collect before).size)) = false := by
    cases hc : (OrderedMap.collect before).contains row.1 with
    | true => rfl
    | false =>
      have hrows' : entries.rows = before ++ [row] ++ after := by rw [hrows, List.append_assoc]; rfl
      have hsize := size_collect_le hrows'
      have hpush := OrderedMap.size_insert (OrderedMap.collect before) row.1
        (((OrderedMap.collect before).get? row.1).getD [] ++ [row.2])
      rw [OrderedMap.collect_append_singleton, OrderedMap.push] at hsize
      rw [hc, if_neg Bool.false_ne_true] at hpush
      have hle := H.infohashes
      exact decide_eq_false (by omega)
  have hother : ¬ (maxPeers ≤ (OrderedMap.rowsAt row.1 before).length ∨
      (OrderedMap.rowsAt row.1 before).any (·.addr == row.2.addr) = true ∨
      (row.2.source && decide (maxSources ≤ (OrderedMap.rowsAt row.1 before).countP (·.source))) =
        true) := by
    rintro (h | h | h)
    · have hle := hbounded.length
      rw [List.length_append, List.length_cons] at hle
      omega
    · obtain ⟨old, hold, heq⟩ := List.any_eq_true.mp h
      have hnodup := hbounded.nodup
      rw [List.map_append, List.nodup_append] at hnodup
      exact hnodup.2.2 _ (List.mem_map_of_mem hold) _ (List.mem_map_of_mem List.mem_cons_self)
        (beq_iff_eq.mp heq)
    · obtain ⟨hsource, hfull⟩ := Bool.and_eq_true_iff.mp h
      have hle := hbounded.sources
      have hfull := of_decide_eq_true hfull
      rw [List.countP_append, List.countP_cons_of_pos hsource] at hle
      omega
  rw [parseLine, hne, if_neg Bool.false_ne_true, if_neg hlen, hutf8, parseRow_line hfresh hallowed,
    Option.bind_some]
  dsimp only
  rw [hroom, OrderedMap.getD_collect, if_neg hother, OrderedMap.collect_append_singleton,
    List.length_append]
  rfl

/-- Every row is from the time span of the cache and of an allowed endpoint. -/
def Current (entries : Entries) (allowLoopback : Bool) (time : UInt64) : Prop :=
  entries.All fun _ peers => ∀ row ∈ peers, row.fresh time = true ∧
    endpointAllowed row.addr allowLoopback = true

theorem Current.row (C : Current entries allowLoopback time) {row : Infohash × Entry}
    (h : row ∈ entries.rows) : row.2.fresh time = true ∧
      endpointAllowed row.2.addr allowLoopback = true := by
  obtain ⟨e, he, hrow⟩ := List.mem_flatMap.mp h
  obtain ⟨entry, hentry, rfl⟩ := List.mem_map.mp hrow
  exact C e.1 e.2 (OrderedMap.mem_entries_iff.mp he) entry hentry

theorem foldlM_lines (H : Limits entries) (C : Current entries allowLoopback time)
    (hrows : entries.rows = before ++ after) :
    (before.map fun row => line row.1 row.2).foldlM (parseLine allowLoopback time) (∅, 0) =
      some (OrderedMap.collect before, before.length) := by
  induction before using List.reverseRecOn generalizing after with
  | nil => rfl
  | append_singleton before row ih =>
    rw [List.append_assoc] at hrows
    have hmem : row ∈ entries.rows := hrows ▸ List.mem_append_right _ List.mem_cons_self
    obtain ⟨hfresh, hallowed⟩ := C.row hmem
    rw [List.map_append, List.foldlM_append, ih hrows]
    show (parseLine allowLoopback time _ (line row.1 row.2) >>= pure) = _
    rw [parseLine_line H hrows hfresh hallowed]
    rfl

theorem length_encode_le (H : Limits entries) : (encode entries).length ≤ maxBytes := by
  have hlines : ∀ rows : List (Infohash × Entry),
      (rows.flatMap fun row => line row.1 row.2 ++ [10]).length ≤ 86 * rows.length := by
    intro rows
    induction rows with
    | nil => exact le_rfl
    | cons row rows ih =>
      have hle := length_line_le row.1 row.2
      rw [List.flatMap_cons, List.length_append, List.length_append, List.length_singleton,
        List.length_cons]
      omega
  have hle := hlines entries.rows
  have hrows := H.rows
  have hheader : header.length = 15 := by decide
  have hmax : maxBytes = 262144 := rfl
  have hmaxRows : maxRows = 3000 := rfl
  rw [rowCount_eq, ← OrderedMap.length_rows] at hrows
  rw [encode, List.length_append]
  omega

/-- A cache of current rows read back from its file. -/
theorem parse_encode (H : Limits entries) (C : Current entries allowLoopback time) :
    parse (encode entries) allowLoopback time = some entries := by
  have hguard : ¬ (maxBytes < (encode entries).length ∨
      header.isPrefixOf (encode entries) = false) := by
    rintro (h | h)
    · exact Nat.not_lt_of_le (length_encode_le H) h
    · rw [encode, List.isPrefixOf_iff_prefix.mpr (List.prefix_append ..)] at h
      cases h
  have hlines : (entries.rows.flatMap fun row => line row.1 row.2 ++ [10]).splitOn 10 =
      entries.rows.map (fun row => line row.1 row.2) ++ [[]] := by
    rw [← splitOn_flatMap_append _ fun l hl hb => ?_, List.flatMap_map]
    obtain ⟨row, -, rfl⟩ := List.mem_map.mp hl
    exact absurd (toNat_of_mem_line hb).1 (by decide)
  rw [parse, if_neg hguard, encode, List.drop_left, hlines, List.foldlM_append,
    foldlM_lines H C (List.append_nil _).symm]
  show Option.map (·.1) (parseLine allowLoopback time _ [] >>= pure) = _
  rw [parseLine, OrderedMap.collect_rows (H.peers.mono fun _ _ h => h.1)]
  rfl

/-! ### Runs -/

/-- The operation inserts allowed endpoints only. -/
def Op.Allowed (allowLoopback : Bool) : Op → Prop
  | .insert _ _ entry => endpointAllowed entry.addr allowLoopback = true
  | .prune _ => True

theorem allowed_run {ops : List Op} (h : ∀ op ∈ ops, op.Allowed allowLoopback) :
    (run step ∅ ops).All fun _ peers => ∀ row ∈ peers,
      endpointAllowed row.addr allowLoopback = true := by
  have hmeets : Meets step (fun _ op => op.Allowed allowLoopback) ∅ ops :=
    .of_forall fun op hop _ => h op hop
  have hrun := run_induction
    (I := fun entries : Entries => Limits entries ∧ entries.All fun _ peers => ∀ row ∈ peers,
      endpointAllowed row.addr allowLoopback = true) ?_ ⟨.empty, .empty⟩ hmeets
  · exact hrun.2
  · rintro entries op ⟨H, hall⟩ hop
    refine ⟨H.step op, fun hash peers hget row hrow => ?_⟩
    rcases mem_step H hget hrow with ⟨peers₀, hget₀, hmem⟩ | ⟨now, entry, rfl, haddr, -⟩
    · exact hall hash peers₀ hget₀ row hmem
    · rw [haddr]
      exact hop

/-- The cache after any insertions at any times: its limits, one row for an address, and sources that
stay sources while their row is kept; and if only allowed endpoints were inserted, what is left of it
at a time fits into the file and is read back from there. -/
theorem warm_peers_persist (allowLoopback : Bool) (ops : List Op) :
    let entries := run step ∅ ops
    (entries.size ≤ maxInfohashes ∧ rowCount entries ≤ maxRows ∧
      ∀ hash peers, entries.get? hash = some peers → peers.length ≤ maxPeers ∧
        peers.countP (·.source) ≤ maxSources ∧ (peers.map (·.addr)).Nodup) ∧
    (∀ op hash peers peers' row row', entries.get? hash = some peers → row ∈ peers →
      row.source = true → row.fresh op.time = true →
      (step entries op).get? hash = some peers' → row' ∈ peers' → row'.addr = row.addr →
      row'.source = true) ∧
    ((∀ op ∈ ops, op.Allowed allowLoopback) → ∀ time,
      (encode (prune entries time)).length ≤ maxBytes ∧
      parse (encode (prune entries time)) allowLoopback time = some (prune entries time)) := by
  intro entries
  have H : Limits entries := limits_run ops
  refine ⟨⟨H.infohashes, H.rows, fun hash peers hget => ?_⟩,
    fun op hash peers peers' row row' hpeers hrow hsource hfresh hpeers' hrow' haddr =>
      source_step H hpeers hrow hsource hfresh hpeers' hrow' haddr, fun hops time => ?_⟩
  · obtain ⟨-, hlen, hsources, hnodup⟩ := H.peers hash peers hget
    exact ⟨hlen, hsources, hnodup⟩
  · have Ht := H.thin (thins_prune entries time)
    refine ⟨length_encode_le Ht, parse_encode Ht fun hash peers' hget row hrow => ?_⟩
    obtain ⟨peers, hpeers, rfl, -⟩ := get?_prune.mp hget
    obtain ⟨hmem, hfresh⟩ := List.mem_filter.mp hrow
    exact ⟨hfresh, allowed_run hops hash peers hpeers row hmem⟩

end Outpace.Swarm.Live.WarmPeers

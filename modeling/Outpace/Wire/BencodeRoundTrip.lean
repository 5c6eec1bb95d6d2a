import Outpace.Wire.Bencode

/-!
# The bencode round trip

The parser reads back what the encoder writes, whatever follows it (`parseAt_encode`), by induction
on the value with the runs of the two loops built from the induction hypotheses. In the other
direction every accepted value is ordered, nested no deeper than allowed, and its encoding is no
longer than the bytes it was read from (`parseAt_accepted`), so it can be read back as well.
-/

namespace Outpace.Wire.Bencode

/-- Every dictionary has its entries in strictly increasing key order, as a `BTreeMap` has. -/
inductive Ordered : Bencode → Prop where
  | int (i) : Ordered (.int i)
  | bytes (b) : Ordered (.bytes b)
  | list {l} (h : ∀ v ∈ l, Ordered v) : Ordered (.list l)
  | dict {d} (hd : d.Pairwise fun x y => x.1 < y.1) (h : ∀ e ∈ d, Ordered e.2) : Ordered (.dict d)

/-! ### Lists and entries of values -/

theorem nestingList_le {l : List Bencode} {n : Nat} :
    nestingList l ≤ n ↔ ∀ v ∈ l, v.nesting ≤ n := by
  induction l with
  | nil => simp [nestingList]
  | cons v l ih => simp [nestingList, ih]

theorem nestingEntries_le {d : List (Bytes × Bencode)} {n : Nat} :
    nestingEntries d ≤ n ↔ ∀ e ∈ d, e.2.nesting ≤ n := by
  induction d with
  | nil => simp [nestingEntries]
  | cons e d ih => simp [nestingEntries, ih]

theorem encodeList_append (l l' : List Bencode) :
    encodeList (l ++ l') = encodeList l ++ encodeList l' := by
  induction l with
  | nil => rfl
  | cons v l ih => simp [encodeList, ih]

theorem length_encodeEntries (m : OrderedMap Bytes Bencode) :
    (encodeEntries m.entries).length =
      m.weight fun k v => (encodeBytes k).length + v.encode.length := by
  unfold OrderedMap.weight
  induction m.entries with
  | nil => rfl
  | cons e d ih => simp [encodeEntries, ih, Nat.add_assoc]

theorem length_encodeEntries_insert (m : OrderedMap Bytes Bencode) (k : Bytes) (v : Bencode) :
    (encodeEntries (m.insert k v).entries).length ≤
      (encodeEntries m.entries).length + (encodeBytes k).length + v.encode.length := by
  have := m.weight_insert (f := fun k v => (encodeBytes k).length + v.encode.length) k v
  rw [length_encodeEntries, length_encodeEntries]
  omega

/-! ### Byte strings and integers -/

variable {pos : Nat}

theorem head?_of_drop {buf e rest : Bytes} (h : buf.drop pos = e ++ rest) (he : e ≠ []) :
    buf[pos]? = e.head? := by
  rw [← List.head?_drop, h, List.head?_append_of_ne_nil _ he]

theorem length_of_drop {buf e : Bytes} (h : buf.drop pos = e) (he : e ≠ []) :
    buf.length = pos + e.length := by
  have hpos : 0 < e.length := List.length_pos_iff.mpr he
  have := congrArg List.length h
  rw [List.length_drop] at this
  omega

variable {b : UInt8}

theorem le_of_isDigit (hb : isDigit b = true) : b ≤ 0x7f := by
  simp only [isDigit, Bool.and_eq_true, decide_eq_true_eq] at hb
  exact hb.2.trans (by decide)

theorem isDigit_of_mem_decimal {n : Nat} (h : b ∈ decimal n) : isDigit b = true :=
  List.all_eq_true.mp (all_isDigit_decimal n) b h

theorem parseBytes_encode {buf b rest : Bytes} (hbuf : buf.length ≤ u64Max)
    (h : buf.drop pos = encodeBytes b ++ rest) :
    parseBytes buf pos = .ok (b, pos + (encodeBytes b).length) := by
  have hsplit : buf.drop pos = decimal b.length ++ 58 :: (b ++ rest) := by simp [h, encodeBytes]
  have hlen := length_of_drop h (by simp [encodeBytes])
  have hidx : (buf.drop pos).findIdx? (· == 58) = some (decimal b.length).length := by
    rw [hsplit]
    refine findIdx?_append_cons (fun c hc => ?_) (by simp)
    simpa using ne_of_isDigit (isDigit_of_mem_decimal hc) (by decide)
  have htake : (buf.drop pos).take (decimal b.length).length = decimal b.length := by
    rw [hsplit, List.take_left]
  have hutf8 : utf8Valid (decimal b.length) = true :=
    utf8Valid_of_ascii fun c hc => le_of_isDigit (isDigit_of_mem_decimal hc)
  have hsize : (encodeBytes b).length = (decimal b.length).length + 1 + b.length := by
    simp [encodeBytes]; omega
  rw [List.length_append, hsize] at hlen
  have hbody : (buf.drop (pos + (decimal b.length).length + 1)).take b.length = b := by
    have hdrop : buf.drop (pos + (decimal b.length ++ [58]).length) = b ++ rest :=
      drop_of_drop_append (by simp [hsplit])
    rw [List.length_append, List.length_singleton, ← Nat.add_assoc] at hdrop
    rw [hdrop, List.take_left]
  simp only [parseBytes, hidx, htake, hutf8, if_true, parseU64_decimal (n := b.length) (by omega)]
  simp only [checkedAdd, if_pos (show pos + (decimal b.length).length + 1 + b.length ≤ u64Max by
    omega), if_neg (show ¬buf.length < pos + (decimal b.length).length + 1 + b.length by omega),
    hbody, hsize, Except.ok.injEq, Prod.mk.injEq, true_and]
  omega

theorem mem_formatI64 {i : Int64} (h : b ∈ formatI64 i) : b = 45 ∨ isDigit b = true := by
  unfold formatI64 at h
  split at h
  · exact (List.mem_cons.mp h).imp id isDigit_of_mem_decimal
  · exact .inr (isDigit_of_mem_decimal h)

theorem parseInt_encode {buf rest : Bytes} {i : Int64}
    (h : buf.drop pos = (Bencode.int i).encode ++ rest) :
    parseInt buf pos = .ok (.int i, pos + (Bencode.int i).encode.length) := by
  have htail : buf.drop (pos + 1) = formatI64 i ++ 101 :: rest := by
    rw [← List.drop_drop, h]
    simp [encode]
  have hidx : (buf.drop (pos + 1)).findIdx? (· == 101) = some (formatI64 i).length := by
    rw [htail]
    refine findIdx?_append_cons (fun c hc => ?_) (by simp)
    rcases mem_formatI64 hc with rfl | hc
    · decide
    · simpa using ne_of_isDigit hc (by decide)
  have htake : (buf.drop (pos + 1)).take (formatI64 i).length = formatI64 i := by
    rw [htail, List.take_left]
  have hutf8 : utf8Valid (formatI64 i) = true := by
    refine utf8Valid_of_ascii fun c hc => ?_
    rcases mem_formatI64 hc with rfl | hc
    · decide
    · exact le_of_isDigit hc
  simp only [parseInt, hidx, htake, hutf8, parseI64_format]
  simp [encode]
  omega

/-! ### Reading back an encoding -/

/-- The values that a parse of the items of a container must return are known. -/
def Reads (buf : Bytes) (value : Nat → Except WireError (Bencode × Nat)) (v : Bencode) : Prop :=
  ∀ pos rest, buf.drop pos = v.encode ++ rest → value pos = .ok (v, pos + v.encode.length)

theorem encode_head (v : Bencode) : ∃ b e, v.encode = b :: e ∧ b ≠ 101 := by
  cases v with
  | int i => exact ⟨105, _, rfl, by decide⟩
  | list l => exact ⟨108, _, rfl, by decide⟩
  | dict d => exact ⟨100, _, rfl, by decide⟩
  | bytes b =>
    obtain ⟨c, s, hs⟩ := List.exists_cons_of_ne_nil (decimal_ne_nil b.length)
    have hc : isDigit c = true := isDigit_of_mem_decimal (n := b.length) (by rw [hs]; simp)
    exact ⟨c, s ++ 58 :: b, by simp [encode, encodeBytes, hs], ne_of_isDigit hc (by decide)⟩

theorem encodeBytes_head (k : Bytes) : ∃ b e, encodeBytes k = b :: e ∧ b ≠ 101 :=
  encode_head (.bytes k)

/-- The loop over the items of an encoded list. -/
theorem list_run {buf : Bytes} {value : Nat → Except WireError (Bencode × Nat)} {l : List Bencode}
    (hl : ∀ v ∈ l, Reads buf value v) (acc : List Bencode) {i : Nat} {rest : Bytes}
    (h : buf.drop i = encodeList l ++ 101 :: rest) :
    UntilEnd buf 101 (listStep value) acc i (acc ++ l) (i + (encodeList l).length + 1) := by
  induction l generalizing acc i with
  | nil =>
    rw [List.append_nil]
    refine .stop ?_
    rw [← List.head?_drop, h]
    rfl
  | cons v l ih =>
    obtain ⟨b, e, he, hb⟩ := encode_head v
    have hv : buf.drop i = v.encode ++ (encodeList l ++ 101 :: rest) := by
      simpa [encodeList] using h
    have hread : value i = .ok (v, i + v.encode.length) := hl v List.mem_cons_self i _ hv
    have hrest := ih (fun w hw => hl w (List.mem_cons_of_mem _ hw)) (acc ++ [v])
      (drop_of_drop_append hv)
    have hend : i + (encodeList (v :: l)).length = i + v.encode.length + (encodeList l).length := by
      simp [encodeList, Nat.add_assoc]
    rw [hend, show acc ++ v :: l = acc ++ [v] ++ l by simp]
    refine .step (b := b) ?_ hb (by simp [listStep, hread]) hrest
    rw [← List.head?_drop, hv, he]
    rfl

/-- The loop over the entries of an encoded dictionary. The map keeps the keys in order, so it ends
with the entries as they were encoded. -/
theorem dict_run {buf : Bytes} (hbuf : buf.length ≤ u64Max)
    {value : Nat → Except WireError (Bencode × Nat)} {d : List (Bytes × Bencode)}
    (hd : ∀ e ∈ d, Reads buf value e.2) {m : OrderedMap Bytes Bencode} {i : Nat} {rest : Bytes}
    (hs : (m.entries ++ d).Pairwise fun x y => x.1 < y.1)
    (h : buf.drop i = encodeEntries d ++ 101 :: rest) :
    ∃ m', m'.entries = m.entries ++ d ∧
      UntilEnd buf 101 (dictStep buf value) m i m' (i + (encodeEntries d).length + 1) := by
  induction d generalizing m i with
  | nil =>
    refine ⟨m, by simp, .stop ?_⟩
    rw [← List.head?_drop, h]
    rfl
  | cons e d ih =>
    obtain ⟨k, v⟩ := e
    obtain ⟨b, t, ht, hb⟩ := encodeBytes_head k
    have hk : buf.drop i = encodeBytes k ++ (v.encode ++ (encodeEntries d ++ 101 :: rest)) := by
      simpa [encodeEntries] using h
    have hv := drop_of_drop_append hk
    have hkey := parseBytes_encode hbuf hk
    have hread : value (i + (encodeBytes k).length) = .ok (v, _) := hd (k, v) List.mem_cons_self _ _ hv
    have hlast : (m.insert k v).entries = m.entries ++ [(k, v)] :=
      OrderedMap.entries_insert_last v fun e he =>
        (List.pairwise_append.mp hs).2.2 e he (k, v) List.mem_cons_self
    obtain ⟨m', hm', hrun⟩ := ih (fun e he => hd e (List.mem_cons_of_mem _ he))
      (m := m.insert k v) (by simpa [hlast] using hs) (drop_of_drop_append hv)
    have hend : i + (encodeEntries ((k, v) :: d)).length =
        i + (encodeBytes k).length + v.encode.length + (encodeEntries d).length := by
      simp [encodeEntries, Nat.add_assoc]
    rw [hend]
    refine ⟨m', by simp [hm', hlast], .step (b := b) ?_ hb (by simp [dictStep, hkey, hread]) hrun⟩
    rw [← List.head?_drop, hk, ht]
    rfl

/-! ### What the parser accepts -/

/-- What a value read at `pos` and ending at `n` satisfies. -/
structure Accepted (levels pos : Nat) (v : Bencode) (n : Nat) : Prop where
  ordered : v.Ordered
  nesting_le : v.nesting ≤ levels
  length_le : pos + v.encode.length ≤ n

variable {v : Bencode}

theorem Accepted.lt {levels pos n : Nat} (h : Accepted levels pos v n) : pos < n := by
  obtain ⟨b, e, he, -⟩ := encode_head v
  have := h.length_le
  rw [he, List.length_cons] at this
  omega

theorem parseBytes_length {buf b : Bytes} {pos n : Nat} (h : parseBytes buf pos = .ok (b, n)) :
    pos + (encodeBytes b).length ≤ n ∧ n ≤ buf.length := by
  obtain ⟨k, len, -, -, hlen, hn, -, hbuf, hb⟩ := parseBytes_eq_ok.mp h
  have hdec : (decimal len).length ≤ k := (length_decimal_le hlen).trans (List.length_take_le ..)
  have hblen : b.length = len := by
    rw [hb, List.length_take, List.length_drop]
    omega
  simp only [encodeBytes, List.length_append, List.length_cons, hblen]
  omega

theorem parseInt_accepted {buf : Bytes} {pos n levels : Nat} (h : parseInt buf pos = .ok (v, n)) :
    Accepted levels pos v n := by
  obtain ⟨k, i, -, -, hi, rfl, rfl⟩ := parseInt_eq_ok.mp h
  have hlen := (length_format_le hi).trans (List.length_take_le ..)
  refine ⟨.int i, Nat.zero_le _, ?_⟩
  simp only [encode, List.cons_append, List.length_cons, List.length_append, List.length_nil]
  omega

section Containers
variable {buf : Bytes} {value : Nat → Except WireError (Bencode × Nat)} {levels : Nat}
  (hvalue : ∀ {pos v n}, value pos = .ok (v, n) → Accepted levels pos v n)
include hvalue

theorem parseList_accepted {pos n : Nat} (h : parseList buf value pos = .ok (v, n)) :
    Accepted (levels + 1) pos v n := by
  obtain ⟨items, hloop, rfl⟩ := parseList_eq_ok.mp h
  obtain ⟨j, rfl, -, hitems, hlen⟩ := (untilEnd_sound hloop).invariant
    (P := fun items i => (∀ v ∈ items, v.Ordered ∧ v.nesting ≤ levels) ∧
      pos + 1 + (encodeList items).length ≤ i)
    (by
      rintro items i items' j ⟨hitems, hlen⟩ hstep
      obtain ⟨w, hw, rfl⟩ := listStep_eq_ok.mp hstep
      have hacc := hvalue hw
      have := hacc.length_le
      refine ⟨fun v hv => ?_, ?_⟩
      · rcases List.mem_append.mp hv with hv | hv
        · exact hitems v hv
        · rw [List.mem_singleton.mp hv]
          exact ⟨hacc.ordered, hacc.nesting_le⟩
      · simp only [encodeList_append, encodeList, List.append_nil, List.length_append]
        omega)
    ⟨by simp, by simp [encodeList]⟩
  refine ⟨.list fun v hv => (hitems v hv).1, ?_, ?_⟩
  · exact Nat.succ_le_succ (nestingList_le.mpr fun v hv => (hitems v hv).2)
  · simp only [encode, List.cons_append, List.length_cons, List.length_append, List.length_nil]
    omega

theorem parseDict_accepted {pos n : Nat} (h : parseDict buf value pos = .ok (v, n)) :
    Accepted (levels + 1) pos v n := by
  obtain ⟨map, hloop, rfl⟩ := parseDict_eq_ok.mp h
  obtain ⟨j, rfl, -, hmap, hlen⟩ := (untilEnd_sound hloop).invariant
    (P := fun map i => (map.All fun _ v => v.Ordered ∧ v.nesting ≤ levels) ∧
      pos + 1 + (encodeEntries map.entries).length ≤ i)
    (by
      rintro map i map' j ⟨hmap, hlen⟩ hstep
      obtain ⟨key, m, w, hkey, hw, rfl⟩ := dictStep_eq_ok.mp hstep
      have hacc := hvalue hw
      have := hacc.length_le
      have := (parseBytes_length hkey).1
      have := length_encodeEntries_insert map key w
      exact ⟨hmap.insert ⟨hacc.ordered, hacc.nesting_le⟩, by omega⟩)
    ⟨OrderedMap.All.empty, Nat.le_refl _⟩
  have hentry : ∀ e ∈ map.entries, e.2.Ordered ∧ e.2.nesting ≤ levels := fun e he =>
    hmap e.1 e.2 (OrderedMap.mem_entries_iff.mp he)
  refine ⟨.dict map.sorted fun e he => (hentry e he).1, ?_, ?_⟩
  · exact Nat.succ_le_succ (nestingEntries_le.mpr fun e he => (hentry e he).2)
  · simp only [encode, List.cons_append, List.length_cons, List.length_append, List.length_nil]
    omega

end Containers

/-- An accepted value is ordered, nested no deeper than allowed, and its encoding is no longer than
the bytes it was read from. -/
theorem parseAt_accepted {buf : Bytes} {levels pos n : Nat}
    (h : parseAt buf levels pos = .ok (v, n)) : Accepted levels pos v n := by
  induction levels using Nat.strong_induction_on generalizing pos v n with
  | _ levels ih =>
    obtain ⟨b, -, ⟨-, h⟩ | ⟨l, rfl, -, h⟩ | ⟨l, rfl, -, h⟩ | ⟨-, s, hs, rfl⟩⟩ := parseAt_eq_ok.mp h
    · exact parseInt_accepted h
    · exact parseList_accepted (ih l (by omega)) h
    · exact parseDict_accepted (ih l (by omega)) h
    · exact ⟨.bytes s, Nat.zero_le _, (parseBytes_length hs).1⟩

theorem listStep_advances (buf : Bytes) (levels : Nat) :
    Advances (listStep (parseAt buf levels)) := by
  intro items i items' j h
  obtain ⟨v, hv, -⟩ := listStep_eq_ok.mp h
  exact (parseAt_accepted hv).lt

theorem dictStep_advances (buf : Bytes) (levels : Nat) :
    Advances (dictStep buf (parseAt buf levels)) := by
  intro map i map' j h
  obtain ⟨key, m, v, hkey, hv, -⟩ := dictStep_eq_ok.mp h
  have := (parseBytes_length hkey).1
  have := (parseAt_accepted hv).lt
  omega

/-- More levels allowed change nothing about what was accepted. -/
theorem parseAt_mono {buf : Bytes} {levels levels' pos n : Nat}
    (h : parseAt buf levels pos = .ok (v, n)) (hle : levels ≤ levels') :
    parseAt buf levels' pos = .ok (v, n) := by
  induction levels using Nat.strong_induction_on generalizing levels' pos v n with
  | _ levels ih =>
    obtain ⟨b, hb, hint | ⟨l, rfl, hc, h⟩ | ⟨l, rfl, hc, h⟩ | hbytes⟩ := parseAt_eq_ok.mp h
    · exact parseAt_eq_ok.mpr ⟨b, hb, .inl hint⟩
    · obtain ⟨l', rfl⟩ := Nat.exists_eq_add_of_le' (show 1 ≤ levels' by omega)
      obtain ⟨items, hloop, rfl⟩ := parseList_eq_ok.mp h
      obtain ⟨_, hrun, rfl⟩ := (untilEnd_sound hloop).simulate
        (listStep (parseAt buf l')) (R := Eq) (by
          rintro s _ i s' j rfl hstep
          obtain ⟨w, hw, hs'⟩ := listStep_eq_ok.mp hstep
          exact ⟨s', listStep_eq_ok.mpr ⟨w, ih l (by omega) hw (by omega), hs'⟩, rfl⟩) rfl
      exact parseAt_eq_ok.mpr ⟨b, hb, .inr (.inl ⟨l', rfl, hc, parseList_eq_ok.mpr
        ⟨items, hrun.run _ (listStep_advances buf l') _ (by omega), rfl⟩⟩)⟩
    · obtain ⟨l', rfl⟩ := Nat.exists_eq_add_of_le' (show 1 ≤ levels' by omega)
      obtain ⟨map, hloop, rfl⟩ := parseDict_eq_ok.mp h
      obtain ⟨_, hrun, rfl⟩ := (untilEnd_sound hloop).simulate
        (dictStep buf (parseAt buf l')) (R := Eq) (by
          rintro s _ i s' j rfl hstep
          obtain ⟨key, m, w, hkey, hw, hs'⟩ := dictStep_eq_ok.mp hstep
          exact ⟨s', dictStep_eq_ok.mpr ⟨key, m, w, hkey, ih l (by omega) hw (by omega), hs'⟩,
            rfl⟩) rfl
      exact parseAt_eq_ok.mpr ⟨b, hb, .inr (.inr (.inl ⟨l', rfl, hc, parseDict_eq_ok.mpr
        ⟨map, hrun.run _ (dictStep_advances buf l') _ (by omega), rfl⟩⟩))⟩
    · exact parseAt_eq_ok.mpr ⟨b, hb, .inr (.inr (.inr hbytes))⟩

/-! ### A value depends only on its own bytes -/

/-- The buffers of the parser are slices, whose lengths are `usize` values. -/
def Fits (buf : Bytes) : Prop := buf.length ≤ u64Max

/-- The text before the first delimiter, and where it ends. -/
theorem token_of_findIdx? {buf : Bytes} {pos k : Nat} {c : UInt8}
    (h : (buf.drop pos).findIdx? (· == c) = some k) :
    ((buf.drop pos).take k).length = k ∧
      buf.drop pos = (buf.drop pos).take k ++ c :: buf.drop (pos + k + 1) ∧
      ∀ b ∈ (buf.drop pos).take k, (b == c) = false := by
  obtain ⟨hk, -, hbefore⟩ := List.findIdx?_eq_some_iff_getElem.mp h
  obtain ⟨d, hd, hsplit⟩ := eq_append_of_findIdx? h
  have hdc : d = c := by simpa using hd
  rw [hdc, List.drop_drop] at hsplit
  refine ⟨by rw [List.length_take]; omega, hsplit, fun b hb => ?_⟩
  obtain ⟨i, hi, rfl⟩ := List.getElem_of_mem hb
  rw [List.length_take] at hi
  simpa using hbefore i (by omega)

theorem parseBytes_local : Local Fits parseBytes := by
  intro buf pos b n h
  obtain ⟨k, len, hk, hutf8, hlen, hn, hmax, hbuf, hb⟩ := parseBytes_eq_ok.mp h
  obtain ⟨hs, hsplit, hbefore⟩ := token_of_findIdx? hk
  generalize (buf.drop pos).take k = s at *
  have hblen : b.length = len := by
    rw [hb, List.length_take, List.length_drop]
    omega
  have hbody : buf.drop (pos + k + 1) = b ++ buf.drop n := by
    rw [hb, hn, ← List.drop_drop (i := len), List.take_append_drop]
  refine ⟨s ++ 58 :: b, by simp; omega, by rw [hsplit, hbody]; simp, ?_⟩
  intro buf' pos' rest hfits hd
  have hd : buf'.drop pos' = s ++ 58 :: (b ++ rest) := by simpa using hd
  have hbuf' := length_of_drop hd (by simp)
  simp only [List.length_append, List.length_cons] at hbuf' ⊢
  have hidx : (buf'.drop pos').findIdx? (· == 58) = some k := by
    rw [hd, findIdx?_append_cons hbefore (by simp), hs]
  have htake : (buf'.drop pos').take k = s := by rw [hd, ← hs, List.take_left]
  have htail : buf'.drop (pos' + k + 1) = b ++ rest := by
    have : buf'.drop pos' = (s ++ [58]) ++ (b ++ rest) := by simpa using hd
    have := drop_of_drop_append this
    rwa [List.length_append, hs, ← Nat.add_assoc] at this
  refine parseBytes_eq_ok.mpr ⟨k, len, hidx, by rw [htake]; exact hutf8, by rw [htake]; exact hlen,
    by omega, ?_, by omega, by rw [htail, ← hblen, List.take_left]⟩
  have : buf'.length ≤ u64Max := hfits
  omega

theorem parseInt_local : Local Fits parseInt := by
  intro buf pos v n h
  obtain ⟨k, i, hk, hutf8, hi, rfl, rfl⟩ := parseInt_eq_ok.mp h
  obtain ⟨hs, hsplit, hbefore⟩ := token_of_findIdx? hk
  generalize (buf.drop (pos + 1)).take k = s at *
  have hpos : pos < buf.length := by
    have := length_of_drop hsplit (by simp)
    omega
  refine ⟨buf[pos] :: s ++ [101], by simp; omega, ?_, ?_⟩
  · rw [← List.getElem_cons_drop hpos, hsplit]
    simp
  · intro buf' pos' rest _ hd
    have hd' : buf'.drop (pos' + 1) = s ++ 101 :: rest := by
      rw [← List.drop_drop, hd]
      simp
    have hidx : (buf'.drop (pos' + 1)).findIdx? (· == 101) = some k := by
      rw [hd', findIdx?_append_cons hbefore (by simp), hs]
    have htake : (buf'.drop (pos' + 1)).take k = s := by rw [hd', ← hs, List.take_left]
    refine parseInt_eq_ok.mpr ⟨k, i, hidx, by rw [htake]; exact hutf8, by rw [htake]; exact hi, rfl, ?_⟩
    simp
    omega

theorem listStep_local {value : Bytes → Nat → Except WireError (Bencode × Nat)}
    (hvalue : Local Fits value) (items : List Bencode) :
    Local Fits fun buf => listStep (value buf) items := by
  have hstep : (fun buf => listStep (value buf) items) =
      andThen value fun v _ j => .ok (items ++ [v], j) := by
    funext buf i
    unfold listStep andThen
    cases value buf i <;> rfl
  exact hstep ▸ hvalue.map fun v => items ++ [v]

theorem dictStep_local {value : Bytes → Nat → Except WireError (Bencode × Nat)}
    (hvalue : Local Fits value) (map : OrderedMap Bytes Bencode) :
    Local Fits fun buf => dictStep buf (value buf) map := by
  have hstep : (fun buf => dictStep buf (value buf) map) =
      andThen parseBytes fun key => andThen value fun v _ j => .ok (map.insert key v, j) := by
    funext buf i
    unfold dictStep andThen
    cases parseBytes buf i with
    | error e => rfl
    | ok r => cases h : value buf r.2 <;> simp [h]
  exact hstep ▸ parseBytes_local.andThen fun key => hvalue.map fun v => map.insert key v

theorem getElem?_of_drop_append {buf buf' e rest : Bytes} {pos pos' n : Nat}
    (hb : buf[pos]? = some b) (hd : buf.drop pos = e ++ buf.drop n) (he : e ≠ [])
    (hd' : buf'.drop pos' = e ++ rest) : buf'[pos']? = some b := by
  rw [← hb, head?_of_drop hd he, head?_of_drop hd' he]

/-- What a value is depends only on the bytes from its start to its end. -/
theorem parseAt_local (levels : Nat) : Local Fits fun buf => parseAt buf levels := by
  induction levels using Nat.strong_induction_on with
  | _ levels ih =>
    intro buf pos v n h
    have hlt := (parseAt_accepted h).lt
    obtain ⟨b, hb, ⟨hc, h⟩ | ⟨l, rfl, rfl, h⟩ | ⟨l, rfl, rfl, h⟩ | ⟨hc, s, hs, rfl⟩⟩ :=
      parseAt_eq_ok.mp h
    · obtain ⟨e, hn, hd, hread⟩ := parseInt_local h
      have he : e ≠ [] := by rintro rfl; simp at hn; omega
      refine ⟨e, hn, hd, fun buf' pos' rest hfits hd' => parseAt_eq_ok.mpr ⟨b, ?_, .inl ⟨hc, ?_⟩⟩⟩
      · exact getElem?_of_drop_append hb hd he hd'
      · exact hread hfits hd'
    · obtain ⟨items, hloop, rfl⟩ := parseList_eq_ok.mp h
      obtain ⟨e, -, hn, hd, hread⟩ :=
        (untilEnd_sound hloop).local (fun buf => listStep (parseAt buf l))
          (listStep_local (ih l (by omega)))
      obtain ⟨hpos, hget⟩ := List.getElem?_eq_some_iff.mp hb
      have hd₁ : buf.drop pos = 108 :: e ++ buf.drop n := by
        rw [← List.getElem_cons_drop hpos, hget, hd]
        rfl
      refine ⟨108 :: e, by simp; omega, hd₁, fun buf' pos' rest hfits hd' =>
        parseAt_eq_ok.mpr ⟨108, ?_, .inr (.inl ⟨l, rfl, rfl, ?_⟩)⟩⟩
      · exact getElem?_of_drop_append hb hd₁ (by simp) hd'
      · have htail : buf'.drop (pos' + 1) = e ++ rest := by
          rw [← List.drop_drop, hd']
          rfl
        have hrun := (hread hfits htail).run .truncated (listStep_advances buf' l)
          buf'.length (by omega)
        refine parseList_eq_ok.mpr ⟨items, ?_, rfl⟩
        rw [hrun, List.length_cons, Nat.add_right_comm, Nat.add_assoc]
    · obtain ⟨map, hloop, rfl⟩ := parseDict_eq_ok.mp h
      obtain ⟨e, -, hn, hd, hread⟩ :=
        (untilEnd_sound hloop).local (fun buf => dictStep buf (parseAt buf l))
          (dictStep_local (ih l (by omega)))
      obtain ⟨hpos, hget⟩ := List.getElem?_eq_some_iff.mp hb
      have hd₁ : buf.drop pos = 100 :: e ++ buf.drop n := by
        rw [← List.getElem_cons_drop hpos, hget, hd]
        rfl
      refine ⟨100 :: e, by simp; omega, hd₁, fun buf' pos' rest hfits hd' =>
        parseAt_eq_ok.mpr ⟨100, ?_, .inr (.inr (.inl ⟨l, rfl, rfl, ?_⟩))⟩⟩
      · exact getElem?_of_drop_append hb hd₁ (by simp) hd'
      · have htail : buf'.drop (pos' + 1) = e ++ rest := by
          rw [← List.drop_drop, hd']
          rfl
        have hrun := (hread hfits htail).run .truncated (dictStep_advances buf' l)
          buf'.length (by omega)
        refine parseDict_eq_ok.mpr ⟨map, ?_, rfl⟩
        rw [hrun, List.length_cons, Nat.add_right_comm, Nat.add_assoc]
    · obtain ⟨e, hn, hd, hread⟩ := parseBytes_local hs
      have he : e ≠ [] := by rintro rfl; simp at hn; omega
      refine ⟨e, hn, hd, fun buf' pos' rest hfits hd' =>
        parseAt_eq_ok.mpr ⟨b, ?_, .inr (.inr (.inr ⟨hc, s, ?_, rfl⟩))⟩⟩
      · exact getElem?_of_drop_append hb hd he hd'
      · exact hread hfits hd'

/-! ### The round trip -/

/-- The parser reads back an encoding, whatever stands after it. -/
theorem parseAt_encode {buf : Bytes} (hbuf : buf.length ≤ u64Max) (hv : v.Ordered) {levels : Nat}
    (hlevels : v.nesting ≤ levels) : Reads buf (parseAt buf levels) v := by
  induction hv generalizing levels with
  | int i =>
    intro pos rest h
    refine parseAt_eq_ok.mpr ⟨105, ?_, .inl ⟨rfl, parseInt_encode h⟩⟩
    rw [← List.head?_drop, h]
    rfl
  | bytes b =>
    intro pos rest h
    obtain ⟨c, s, hs⟩ := List.exists_cons_of_ne_nil (decimal_ne_nil b.length)
    have hc : isDigit c = true := isDigit_of_mem_decimal (n := b.length) (by rw [hs]; simp)
    refine parseAt_eq_ok.mpr ⟨c, ?_, .inr (.inr (.inr ⟨hc, b, parseBytes_encode hbuf h, rfl⟩))⟩
    rw [← List.head?_drop, h]
    simp [encode, encodeBytes, hs]
  | @list l _ ih =>
    intro pos rest h
    obtain ⟨levels, rfl⟩ := Nat.exists_eq_add_of_le'
      (show 1 ≤ levels from (Nat.le_add_left 1 _).trans hlevels)
    have hitems : ∀ v ∈ l, Reads buf (parseAt buf levels) v := fun v hv =>
      ih v hv (nestingList_le.mp (Nat.le_of_succ_le_succ hlevels) v hv)
    have htail : buf.drop (pos + 1) = encodeList l ++ 101 :: rest := by
      rw [← List.drop_drop, h]
      simp [encode]
    have hrun := (list_run hitems [] htail).run .truncated (listStep_advances buf levels)
      buf.length (by omega)
    refine parseAt_eq_ok.mpr ⟨108, ?_, .inr (.inl ⟨levels, rfl, rfl, ?_⟩)⟩
    · rw [← List.head?_drop, h]
      rfl
    · refine parseList_eq_ok.mpr ⟨l, ?_, rfl⟩
      rw [hrun]
      simp [encode]
      omega
  | @dict d hd _ ih =>
    intro pos rest h
    obtain ⟨levels, rfl⟩ := Nat.exists_eq_add_of_le'
      (show 1 ≤ levels from (Nat.le_add_left 1 _).trans hlevels)
    have hentries : ∀ e ∈ d, Reads buf (parseAt buf levels) e.2 := fun e he =>
      ih e he (nestingEntries_le.mp (Nat.le_of_succ_le_succ hlevels) e he)
    have htail : buf.drop (pos + 1) = encodeEntries d ++ 101 :: rest := by
      rw [← List.drop_drop, h]
      simp [encode]
    obtain ⟨m, hm, hloop⟩ := dict_run hbuf hentries (m := ∅) (by simpa using hd) htail
    have hrun := hloop.run .truncated (dictStep_advances buf levels) buf.length (by omega)
    refine parseAt_eq_ok.mpr ⟨100, ?_, .inr (.inr (.inl ⟨levels, rfl, rfl, ?_⟩))⟩
    · rw [← List.head?_drop, h]
      rfl
    · refine parseDict_eq_ok.mpr ⟨m, ?_, by rw [hm]; rfl⟩
      rw [hrun]
      simp [encode]
      omega

/-- A value as the source holds it, with a `BTreeMap` for each dictionary. -/
abbrev Value := { v : Bencode // v.Ordered }

theorem parsePrefix_encode (hv : v.Ordered) (hnest : v.nesting ≤ maxDepth) (rest : Bytes)
    (hbuf : (v.encode ++ rest).length ≤ u64Max) :
    parsePrefix (v.encode ++ rest) = .ok (v, v.encode.length) := by
  have h := parseAt_encode hbuf hv hnest 0 rest rfl
  rwa [Nat.zero_add] at h

theorem parse_eq_ok {buf : Bytes} : parse buf = .ok v ↔ parsePrefix buf = .ok (v, buf.length) := by
  unfold parse parsePrefix
  cases parseValue buf 0 0 with
  | error e => simp
  | ok r =>
    obtain ⟨w, n⟩ := r
    by_cases hn : n = buf.length
    · simp [hn]
    · simp [hn]

theorem parse_encode (hv : v.Ordered) (hnest : v.nesting ≤ maxDepth)
    (hbuf : v.encode.length ≤ u64Max) : parse v.encode = .ok v := by
  have h := parsePrefix_encode hv hnest [] (by simpa using hbuf)
  rw [List.append_nil] at h
  exact parse_eq_ok.mpr h

theorem parse_accepted {buf : Bytes} (h : parse buf = .ok v) : Accepted maxDepth 0 v buf.length :=
  parseAt_accepted (parse_eq_ok.mp h)

/-- Two values of which one encodes to the beginning of the other are the same. -/
theorem encode_prefix_unique {v w : Bencode} (hv : v.Ordered) (hw : w.Ordered)
    (hvn : v.nesting ≤ maxDepth) (hwn : w.nesting ≤ maxDepth) (hbuf : w.encode.length ≤ u64Max)
    (h : v.encode <+: w.encode) : v = w := by
  obtain ⟨rest, hrest⟩ := h
  have hread := parsePrefix_encode hv hvn rest (by rw [hrest]; exact hbuf)
  rw [hrest, parse_eq_ok.mp (parse_encode hw hwn hbuf)] at hread
  cases hread
  rfl

/-- Bencode round trip. The buffers are Rust slices, so their lengths are `usize` values; nothing
else is assumed about them. -/
theorem bencode_roundTrip :
    (∀ (v : Value) (rest : Bytes), v.1.nesting ≤ maxDepth →
      (v.1.encode ++ rest).length ≤ u64Max →
      parsePrefix (v.1.encode ++ rest) = .ok (v.1, v.1.encode.length)) ∧
    (∀ v : Value, v.1.nesting ≤ maxDepth → v.1.encode.length ≤ u64Max →
      parse v.1.encode = .ok v.1) ∧
    (∀ v w : Value, v.1.nesting ≤ maxDepth → w.1.nesting ≤ maxDepth →
      w.1.encode.length ≤ u64Max → v.1.encode = w.1.encode → v = w) ∧
    (∀ v w : Value, v.1.nesting ≤ maxDepth → w.1.nesting ≤ maxDepth →
      w.1.encode.length ≤ u64Max → v.1.encode <+: w.1.encode → v = w) ∧
    (∀ (b : Bytes) (v : Bencode), b.length ≤ u64Max → parse b = .ok v →
      parse v.encode = .ok v) := by
  refine ⟨fun v rest hn hl => parsePrefix_encode v.2 hn rest hl, fun v hn hl => parse_encode v.2 hn hl,
    fun v w hv hw hl h => ?_, fun v w hv hw hl h => ?_, fun b v hl h => ?_⟩
  · exact Subtype.ext (encode_prefix_unique v.2 w.2 hv hw hl (h ▸ List.prefix_rfl))
  · exact Subtype.ext (encode_prefix_unique v.2 w.2 hv hw hl h)
  · have hacc := parse_accepted h
    have := hacc.length_le
    exact parse_encode hacc.ordered hacc.nesting_le (by omega)

/-- `{"a": [-7, "xy"], "b": {}}`. -/
def sampleValue : Value :=
  ⟨.dict [([97], .list [.int (-7), .bytes [120, 121]]), ([98], .dict [])],
    .dict (by simp; decide) (by
      simp only [List.mem_cons, List.not_mem_nil, or_false, forall_eq_or_imp, forall_eq]
      refine ⟨.list ?_, .dict .nil (by simp)⟩
      simp only [List.mem_cons, List.not_mem_nil, or_false, forall_eq_or_imp, forall_eq]
      exact ⟨.int _, .bytes _⟩)⟩

/-- `d1:bi1e+1:ali-007e02:xye1:bdee`, a non-canonical text of the sample: a signed length, leading
zeros and a key that is set twice. -/
def sampleText : Bytes :=
  [100, 49, 58, 98, 105, 49, 101, 43, 49, 58, 97, 108, 105, 45, 48, 48, 55, 101, 48, 50, 58,
    120, 121, 101, 49, 58, 98, 100, 101, 101]

theorem bencode_roundTrip_sample :
    parsePrefix (sampleValue.1.encode ++ [101, 0]) =
        .ok (sampleValue.1, sampleValue.1.encode.length) ∧
      parse sampleText = .ok sampleValue.1 ∧ parse sampleValue.1.encode = .ok sampleValue.1 :=
  have hparse : parse sampleText = .ok sampleValue.1 := by rfl
  ⟨bencode_roundTrip.1 sampleValue [101, 0] (by decide) (by decide +kernel), hparse,
    bencode_roundTrip.2.2.2.2 sampleText sampleValue.1 (by decide +kernel) hparse⟩

end Outpace.Wire.Bencode

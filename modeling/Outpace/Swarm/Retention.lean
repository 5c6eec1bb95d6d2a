import Outpace.Data.Run
import Outpace.Swarm.StoreAccounting

/-!
# The age bound of the memory store

`put_chunk_with_header_at` of `ace-swarm/src/store.rs` evicts pieces that were first seen too long
before the newest write. The loop walks the pieces in the order of their indices and stops at the
first one that is young enough, so it only ever drops old pieces; and it leaves an old piece in the
store exactly if a younger one with a lower index stands in the way.
-/

namespace Outpace.Swarm.MemoryStore
open Wire (Bytes Header zeroHeader)
open PieceStore (SameSettings)

structure ChunkWrite where
  now : Nat
  piece : Nat
  chunk : Nat
  header : Header
  data : Bytes

/-- The write is not skipped for its budget or its chunk index. -/
def ChunkWrite.counts (s : MemoryStore) (w : ChunkWrite) : Bool :=
  decide (s.maxBytes ≠ 0 ∧ w.chunk < s.pieceLength / s.chunkLength)

/-- The store when the age evictions of a write begin. -/
def budgeted (s : MemoryStore) (w : ChunkWrite) : Option MemoryStore :=
  let s := s.entered w.now w.piece w.chunk w.header w.data
  PieceStore.evictWhile PieceStore.overBudget (s.backend.pieces.size + 1) s

/-- The age evictions. -/
def ageOut (s : MemoryStore) : Option MemoryStore :=
  match s.retention, s.newestSeen with
  | some retention, some newest =>
    PieceStore.evictWhile (PieceStore.expired retention newest) (s.backend.pieces.size + 1) s
  | _, _ => some s

def write (s : MemoryStore) (w : ChunkWrite) : MemoryStore :=
  (s.putChunkWithHeaderAt w.now w.piece w.chunk w.header w.data).getD s

/-- The piece was first seen as long as the retention, or longer, before the newest write. -/
def Aged (s : MemoryStore) (piece : Nat) : Prop :=
  ∃ seen ∈ s.firstSeen.get? piece, ∃ newest ∈ s.newestSeen, ∃ age ∈ s.retention, seen + age ≤ newest

/-- Every piece held was first seen less than the retention before the newest write. -/
def Recent (s : MemoryStore) : Prop :=
  ∀ piece ∈ s.backend.pieces.keys,
    ∃ seen ∈ s.firstSeen.get? piece, ∃ newest ∈ s.newestSeen, ∃ age ∈ s.retention,
      newest < seen + age

/-- No younger piece stands below one that is too old when the age evictions begin. -/
def InOrder (s : MemoryStore) (w : ChunkWrite) : Prop :=
  w.counts s = true → ∀ m ∈ budgeted s w, ∀ p ∈ m.backend.pieces.keys,
    ∀ q ∈ m.backend.pieces.keys, q < p → Aged m p → Aged m q

instance (s : MemoryStore) (piece : Nat) : Decidable (Aged s piece) :=
  inferInstanceAs (Decidable (∃ seen ∈ s.firstSeen.get? piece, ∃ newest ∈ s.newestSeen,
    ∃ age ∈ s.retention, seen + age ≤ newest))

instance (s : MemoryStore) : Decidable (Recent s) :=
  inferInstanceAs (Decidable (∀ piece ∈ s.backend.pieces.keys, ∃ seen ∈ s.firstSeen.get? piece,
    ∃ newest ∈ s.newestSeen, ∃ age ∈ s.retention, newest < seen + age))

instance (s : MemoryStore) (w : ChunkWrite) : Decidable (InOrder s w) :=
  inferInstanceAs (Decidable (w.counts s = true → ∀ m ∈ budgeted s w,
    ∀ p ∈ m.backend.pieces.keys, ∀ q ∈ m.backend.pieces.keys, q < p → Aged m p → Aged m q))

variable {s s' : MemoryStore} {age : Nat}

/-! ### One loop -/

/-- What one eviction does to the ages. -/
theorem ages_evictLowestTracked {freed : Nat} (h : s.evictLowestTracked = some (freed, s')) :
    s'.firstSeen = s.firstSeen.popFirst ∧ s'.newestSeen = s.newestSeen := by
  unfold PieceStore.evictLowestTracked at h
  split at h
  · cases h
  · cases h
    exact ⟨rfl, rfl⟩

/-- What the age evictions do to the ages. -/
structure AgesOut (age newest : Nat) (s s' : MemoryStore) : Prop where
  newestSeen : s'.newestSeen = s.newestSeen
  kept : ∀ {p seen}, s'.firstSeen.get? p = some seen → s.firstSeen.get? p = some seen
  dropped : ∀ {p seen}, s.firstSeen.get? p = some seen → s'.firstSeen.get? p = none →
    age ≤ newest - seen ∧ ∀ q seen', s'.firstSeen.get? q = some seen' → p < q
  lowest : PieceStore.expired age newest s' = false

theorem lt_of_first? {m : OrderedMap Nat Nat} {k v p v' : Nat} (hfirst : m.first? = some (k, v))
    (hget : (m.erase k).get? p = some v') : k < p := by
  have hne : p ≠ k := by
    rintro rfl
    rw [OrderedMap.get?_erase_self] at hget
    cases hget
  rw [OrderedMap.get?_erase_of_ne _ hne] at hget
  exact Nat.lt_of_le_of_ne (OrderedMap.first?_le hfirst hget) (Ne.symm hne)

theorem Books.agesOut (B : Books s) (hret : s.retention.isSome = true) {age newest fuel : Nat}
    (hfuel : s.backend.pieces.size < fuel)
    (h : PieceStore.evictWhile (PieceStore.expired age newest) fuel s = some s') :
    AgesOut age newest s s' ∧ Books s' ∧ SameSettings s s' := by
  induction fuel generalizing s with
  | zero => cases hfuel
  | succ fuel ih =>
    unfold PieceStore.evictWhile at h
    split at h
    · next hexpired =>
      cases hev : s.evictLowestTracked with
      | none =>
        -- nothing is held, so nothing has an age
        have hseen : s.firstSeen = ∅ := by
          refine OrderedMap.ext_get? fun k => OrderedMap.contains_eq_false.mp ?_
          rw [B.seen hret, evictLowestTracked_eq_none hev]
          rfl
        rw [PieceStore.expired, hseen] at hexpired
        cases hexpired
      | some out =>
        obtain ⟨freed, s₁⟩ := out
        obtain ⟨hle, B₁, hset, hsize, -⟩ := B.evictLowest hev
        obtain ⟨hseen, hnewest⟩ := ages_evictLowestTracked hev
        rw [hev] at h
        simp only [checkedSub_of_le hle] at h
        obtain ⟨H, B', hset'⟩ := ih B₁ (hset.retention ▸ hret) (Nat.lt_of_lt_of_le hsize
          (Nat.le_of_lt_succ hfuel)) h
        refine ⟨?_, B', hset.trans ⟨hset'.1, hset'.2, hset'.3, hset'.4⟩⟩
        unfold PieceStore.expired at hexpired
        split at hexpired
        · next k seen hfirst =>
          have hpop : s.firstSeen.popFirst = s.firstSeen.erase k := by
            unfold OrderedMap.popFirst
            rw [hfirst]
          have hkept {p seen'} (hp : s'.firstSeen.get? p = some seen') :
              (s.firstSeen.erase k).get? p = some seen' := by
            rw [← hpop, ← hseen]
            exact H.kept hp
          refine ⟨H.newestSeen.trans hnewest, fun hp => ?_, fun {p seen'} hp hnone => ?_, H.lowest⟩
          · exact (OrderedMap.get?_filter_eq_some.mp (hkept hp)).1
          · by_cases hpk : p = k
            · subst hpk
              obtain rfl : seen = seen' :=
                Option.some.inj ((OrderedMap.get?_of_first? hfirst).symm.trans hp)
              exact ⟨of_decide_eq_true hexpired, fun q _ hq => lt_of_first? hfirst (hkept hq)⟩
            · refine H.dropped ?_ hnone
              show s₁.firstSeen.get? p = some seen'
              rw [hseen, hpop, OrderedMap.get?_erase_of_ne _ hpk]
              exact hp
        · cases hexpired
    · next hexpired =>
      cases h
      exact ⟨⟨rfl, id, fun hp hnone => (by rw [hp] at hnone; cases hnone),
        Bool.not_eq_true _ ▸ hexpired⟩, B, .rfl⟩

/-! ### One write -/

theorem newestSeen_evictWhile {cond : MemoryStore → Bool} {fuel : Nat}
    (h : PieceStore.evictWhile cond fuel s = some s') : s'.newestSeen = s.newestSeen := by
  induction fuel generalizing s with
  | zero =>
    cases h
    rfl
  | succ fuel ih =>
    unfold PieceStore.evictWhile at h
    split at h
    · split at h
      · cases h
        rfl
      next freed s₁ hev =>
      split at h
      · cases h
      · exact (ih h).trans (ages_evictLowestTracked hev).2
    · cases h
      rfl

/-- The state of a store with an age bound between two writes. -/
structure Bounded (age : Nat) (s : MemoryStore) : Prop where
  books : Books s
  budget : s.curBytes ≤ s.maxBytes
  retention : s.retention = some age

/-- A write that counts ends in the age evictions of the store within its budget. -/
theorem Bounded.write_eq (H : Bounded age s) {w : ChunkWrite} (hcounts : w.counts s = true) :
    ∃ m, budgeted s w = some m ∧ Bounded age m ∧ SameSettings s m ∧
      m.newestSeen = some (s.newestSeen.elim w.now (max · w.now)) ∧
      ∃ s', ageOut m = some s' ∧ s.write w = s' ∧ Bounded age s' ∧ SameSettings s s' := by
  obtain ⟨hbudget, hchunk⟩ := of_decide_eq_true hcounts
  obtain ⟨heq, B₁, hset₁, -⟩ := H.books.putChunk_eq hbudget hchunk w.now w.piece w.header w.data
  obtain ⟨m, hm, Bm, hset, -, hend⟩ := B₁.evictWhile PieceStore.overBudget (Nat.lt_succ_self _)
  have hle : m.curBytes ≤ m.maxBytes := by
    rcases hend with hend | hend
    · simpa [PieceStore.overBudget] using hend
    · omega
  have hset := hset₁.trans hset
  have hret : m.retention = some age := hset.retention.trans H.retention
  have hnewest : m.newestSeen = some (s.newestSeen.elim w.now (max · w.now)) := by
    rw [newestSeen_evictWhile hm]
    have hsome : s.retention.isSome = true := by
      rw [H.retention]
      rfl
    simp only [entered, PieceStore.noteSeen, hsome, if_true]
  obtain ⟨s', hrun, B', hset', hle'⟩ := B₁.evict
  have hout : ageOut m = some s' := by
    rw [← hrun]
    simp only [PieceStore.evict, Backend.pieceCount, hm, Option.bind_eq_bind, Option.bind_some]
    rfl
  have hset' := hset₁.trans hset'
  exact ⟨m, hm, ⟨Bm, hle, hret⟩, hset, hnewest, s', hout, by rw [write, heq, hrun]; rfl,
    ⟨B', hle', hset'.retention.trans H.retention⟩, hset'⟩

theorem Bounded.holds_iff (H : Bounded age s) {piece : Nat} :
    piece ∈ s.backend.pieces.keys ↔ ∃ seen, s.firstSeen.get? piece = some seen := by
  rw [← OrderedMap.keys_eq_of_contains (H.books.seen (by rw [H.retention]; rfl)),
    OrderedMap.mem_keys]

theorem Bounded.aged_iff {age newest : Nat} (H : Bounded age s) (hpos : 0 < age)
    (hnewest : s.newestSeen = some newest) {piece seen : Nat}
    (hseen : s.firstSeen.get? piece = some seen) : Aged s piece ↔ age ≤ newest - seen := by
  simp only [Aged, hseen, hnewest, H.retention, Option.mem_def, Option.some.injEq, exists_eq_left']
  omega

/-- The age evictions drop pieces that are too old only, and what stays is young enough exactly if
no younger piece was below an older one. -/
theorem Bounded.ageOut {age newest : Nat} (H : Bounded age s) (hpos : 0 < age)
    (hnewest : s.newestSeen = some newest) (h : ageOut s = some s') :
    s'.newestSeen = some newest ∧
    (∀ p ∈ s.backend.pieces.keys, p ∉ s'.backend.pieces.keys → Aged s p) ∧
    (Recent s' ↔ ∀ p ∈ s.backend.pieces.keys, ∀ q ∈ s.backend.pieces.keys, q < p → Aged s p →
      Aged s q) := by
  have hret : s.retention.isSome = true := by
    rw [H.retention]
    rfl
  simp only [MemoryStore.ageOut, H.retention, hnewest] at h
  obtain ⟨A, B', hset⟩ := H.books.agesOut hret (Nat.lt_succ_self _) h
  have hret' : s'.retention = some age := hset.retention.trans H.retention
  have hnewest' : s'.newestSeen = some newest := A.newestSeen.trans hnewest
  have hholds {p : Nat} : p ∈ s'.backend.pieces.keys ↔
      ∃ seen, s'.firstSeen.get? p = some seen := by
    rw [← OrderedMap.keys_eq_of_contains (B'.seen (by rw [hret']; rfl)), OrderedMap.mem_keys]
  have hdropped {p seen : Nat} (hp : s.firstSeen.get? p = some seen)
      (hgone : p ∉ s'.backend.pieces.keys) : age ≤ newest - seen ∧
        ∀ q seen', s'.firstSeen.get? q = some seen' → p < q :=
    A.dropped hp (Option.eq_none_iff_forall_ne_some.mpr fun seen' hp' =>
      hgone (hholds.mpr ⟨seen', hp'⟩))
  refine ⟨hnewest', fun p hp hgone => ?_, fun hrecent p hp q hq hqp haged => ?_,
    fun horder p hp => ?_⟩
  · obtain ⟨seen, hseen⟩ := H.holds_iff.mp hp
    exact (H.aged_iff hpos hnewest hseen).mpr (hdropped hseen hgone).1
  · obtain ⟨seen, hseen⟩ := H.holds_iff.mp hp
    obtain ⟨seenq, hseenq⟩ := H.holds_iff.mp hq
    have hold := (H.aged_iff hpos hnewest hseen).mp haged
    have hgone : p ∉ s'.backend.pieces.keys := by
      intro hp'
      obtain ⟨seen', hseen', newest', hn, age', ha, hyoung⟩ := hrecent p hp'
      cases hnewest'.symm.trans hn
      cases hret'.symm.trans ha
      cases hseen.symm.trans (A.kept hseen')
      omega
    have hgoneq : q ∉ s'.backend.pieces.keys := by
      intro hq'
      obtain ⟨seen', hseen'⟩ := hholds.mp hq'
      exact absurd ((hdropped hseen hgone).2 q seen' hseen') (by omega)
    exact (H.aged_iff hpos hnewest hseenq).mpr (hdropped hseenq hgoneq).1
  · obtain ⟨seen, hseen⟩ := hholds.mp hp
    refine ⟨seen, hseen, newest, hnewest', age, hret', Nat.lt_of_not_le fun hle => ?_⟩
    -- the lowest piece that stays is young
    have hlowest := A.lowest
    unfold PieceStore.expired at hlowest
    split at hlowest
    · next k seenk hfirst =>
      have hk := OrderedMap.get?_of_first? hfirst
      have hyoung := of_decide_eq_false hlowest
      have hkp : k < p := by
        refine Nat.lt_of_le_of_ne (OrderedMap.first?_le hfirst hseen) fun heq => ?_
        subst heq
        cases hk.symm.trans hseen
        omega
      have haged := (H.aged_iff hpos hnewest (A.kept hseen)).mpr (by omega)
      exact hyoung ((H.aged_iff hpos hnewest (A.kept hk)).mp (horder p
        (H.holds_iff.mpr ⟨seen, A.kept hseen⟩) k (H.holds_iff.mpr ⟨seenk, A.kept hk⟩) hkp haged))
    · next hnone =>
      rw [OrderedMap.first?_eq_none.mp hnone] at hseen
      cases hseen

theorem write_of_skip {w : ChunkWrite} (h : w.counts s = false) :
    s.putChunkWithHeaderAt w.now w.piece w.chunk w.header w.data = some s := by
  refine PieceStore.putChunkWithHeaderAt_of_skip ?_ ..
  have := of_decide_eq_false h
  omega

/-- One write from a store between writes. -/
theorem Bounded.of_write (H : Bounded age s) (w : ChunkWrite) :
    s.putChunkWithHeaderAt w.now w.piece w.chunk w.header w.data = some (s.write w) ∧
      Bounded age (s.write w) ∧ SameSettings s (s.write w) := by
  obtain ⟨s', hrun, B', hset, hle⟩ :=
    H.books.putChunk H.budget w.now w.piece w.chunk w.header w.data
  have heq : s.write w = s' := by
    rw [write, hrun]
    rfl
  rw [heq]
  exact ⟨hrun, ⟨B', hle, hset.retention.trans H.retention⟩, hset⟩

theorem Bounded.recent_write_iff (H : Bounded age s) (hpos : 0 < age) (hrecent : Recent s)
    (w : ChunkWrite) : Recent (s.write w) ↔ InOrder s w := by
  cases hcounts : w.counts s with
  | false =>
    have heq : s.write w = s := by
      rw [write, write_of_skip hcounts]
      rfl
    rw [heq]
    exact ⟨fun _ h => (by rw [hcounts] at h; cases h), fun _ => hrecent⟩
  | true =>
    obtain ⟨m, hm, Hm, -, hnewest, s', hout, heq, -⟩ := H.write_eq hcounts
    rw [heq, (Hm.ageOut hpos hnewest hout).2.2]
    constructor
    · intro horder _ m' hm'
      cases hm.symm.trans hm'
      exact horder
    · intro horder
      exact horder hcounts m hm

/-! ### All runs -/

theorem Bounded.of_run (H : Bounded age s) (ws : List ChunkWrite) :
    Bounded age (run write s ws) ∧ SameSettings s (run write s ws) := by
  refine run_invariant (I := fun s' => Bounded age s' ∧ SameSettings s s')
    (fun s' w ⟨H', hset⟩ => ?_) ⟨H, .rfl⟩ ws
  obtain ⟨-, H'', hset'⟩ := H'.of_write w
  exact ⟨H'', hset.trans hset'⟩

theorem Bounded.recent_run_iff (H : Bounded age s) (hpos : 0 < age) (hrecent : Recent s)
    (ws : List ChunkWrite) :
    (∀ ws', ws' <+: ws → Recent (run write s ws')) ↔
      Meets write InOrder s ws := by
  induction ws generalizing s with
  | nil =>
    refine ⟨fun _ => trivial, fun _ ws' hws' => ?_⟩
    rw [List.prefix_nil.mp hws']
    exact hrecent
  | cons w ws ih =>
    have hstep := H.recent_write_iff hpos hrecent w
    obtain ⟨-, H', -⟩ := H.of_write w
    constructor
    · intro h
      have hrecent' : Recent (s.write w) := h [w] (by simp)
      refine ⟨hstep.mp hrecent', (ih H' hrecent').mp fun ws' hws' => ?_⟩
      exact h (w :: ws') ((List.prefix_cons_inj w).mpr hws')
    · rintro ⟨horder, hrest⟩ ws' hws'
      cases ws' with
      | nil => exact hrecent
      | cons w' ws' =>
        obtain ⟨rfl, hrest'⟩ := List.cons_prefix_cons.mp hws'
        exact (ih H' (hstep.mpr horder)).mpr hrest ws' hrest'

theorem counts_of_sameSettings (h : SameSettings s s') (w : ChunkWrite) :
    w.counts s' = w.counts s := by
  unfold ChunkWrite.counts
  rw [h.maxBytes, h.pieceLength, h.chunkLength]

/-- At times that never go back, the newest write is the last one that counts. -/
theorem Bounded.newestSeen_run (H : Bounded age s) (hpos : 0 < age) (ws : List ChunkWrite)
    (hsorted : (ws.map (·.now)).Pairwise (· ≤ ·))
    (hlast : ∀ newest ∈ s.newestSeen, ∀ w ∈ ws, newest ≤ w.now) :
    (run write s ws).newestSeen =
      ((ws.filter (·.counts s)).getLast?.map (·.now)).or s.newestSeen := by
  induction ws generalizing s with
  | nil => rfl
  | cons w ws ih =>
    obtain ⟨hw, hsorted⟩ := List.pairwise_cons.mp hsorted
    obtain ⟨hrun, H', hset⟩ := H.of_write w
    have hcount : (fun w' : ChunkWrite => w'.counts (s.write w)) = (·.counts s) :=
      funext (counts_of_sameSettings hset)
    have hlater : ∀ w' ∈ ws, w.now ≤ w'.now := fun w' hw' => hw _ (List.mem_map_of_mem hw')
    rw [run_cons]
    cases hcounts : w.counts s with
    | false =>
      have heq : s.write w = s := Option.some.inj (hrun.symm.trans (write_of_skip hcounts))
      rw [heq, ih H hsorted fun n hn w' hw' => hlast n hn w' (List.mem_cons_of_mem _ hw'),
        List.filter_cons_of_neg (by rw [hcounts]; exact Bool.false_ne_true)]
    | true =>
      obtain ⟨m, -, Hm, -, hnewest, s', hout, heq, -⟩ := H.write_eq hcounts
      have hnow : (s.write w).newestSeen = some w.now := by
        rw [heq, (Hm.ageOut hpos hnewest hout).1]
        cases hn : s.newestSeen with
        | none => rfl
        | some newest =>
          exact congrArg some (Nat.max_eq_right (hlast newest hn w List.mem_cons_self))
      rw [ih H' hsorted fun n hn w' hw' => by cases hnow.symm.trans hn; exact hlater w' hw', hcount,
        List.filter_cons_of_pos hcounts, hnow, List.getLast?_cons]
      cases (ws.filter (·.counts s)).getLast? <;> rfl

theorem bounded_start (g : Geometry) (maxBytes : Nat) (hpos : 0 < age) :
    Bounded age (start g maxBytes (some age)) := by
  obtain ⟨B, -, hcur⟩ := books_start g maxBytes (some age)
  exact ⟨B, hcur ▸ Nat.zero_le _, if_neg (Nat.ne_of_gt hpos)⟩

/-- After every write all pieces held are young enough, exactly if no write begins its age evictions
with a younger piece below one that is too old. Every write goes through, an age eviction only drops
a piece that is too old, and the ages count back from the last write that is not skipped. -/
theorem age_retention_iff (g : Geometry) (maxBytes age : Nat) (hpos : 0 < age)
    (ws : List ChunkWrite) :
    ((∀ ws', ws' <+: ws → Recent (run write (start g maxBytes (some age)) ws')) ↔
      Meets write InOrder (start g maxBytes (some age)) ws) ∧
    (∀ w s, run write (start g maxBytes (some age)) ws = s →
      s.putChunkWithHeaderAt w.now w.piece w.chunk w.header w.data = some (s.write w) ∧
      (w.counts s = true → ∃ m, budgeted s w = some m ∧ ageOut m = some (s.write w) ∧
        ∀ p ∈ m.backend.pieces.keys, p ∉ (s.write w).backend.pieces.keys → Aged m p)) ∧
    ((ws.map (·.now)).Pairwise (· ≤ ·) →
      (run write (start g maxBytes (some age)) ws).newestSeen =
        (ws.filter (·.counts (start g maxBytes (some age)))).getLast?.map (·.now)) := by
  have H₀ := bounded_start g maxBytes hpos
  refine ⟨H₀.recent_run_iff hpos (fun p hp => ?_) ws, ?_, fun hsorted => ?_⟩
  · have hempty : (start g maxBytes (some age)).backend.pieces = ∅ := rfl
    rw [hempty] at hp
    cases hp
  · rintro w s rfl
    obtain ⟨H, -⟩ := H₀.of_run ws
    refine ⟨(H.of_write w).1, fun hcounts => ?_⟩
    obtain ⟨m, hm, Hm, -, hnewest, s', hout, heq, -⟩ := H.write_eq hcounts
    rw [heq]
    exact ⟨m, hm, hout, (Hm.ageOut hpos hnewest hout).2.1⟩
  · have hnone : (start g maxBytes (some age)).newestSeen = none := rfl
    have hrun := H₀.newestSeen_run hpos ws hsorted fun n hn => (by cases hnone.symm.trans hn)
    rwa [hnone, Option.or_none] at hrun

/-- Pieces of one chunk of four bytes, kept for 60 units. -/
def shortStore : MemoryStore := start ⟨4, 4, by decide⟩ 1000 (some 60)

def pieceAt (now piece : Nat) : ChunkWrite := ⟨now, piece, 0, zeroHeader, [1, 2, 3, 4]⟩

/-- Three pieces in the order of their indices, of which the last write drops the first. -/
theorem age_retention_in_order :
    (∀ ws', ws' <+: [pieceAt 0 5, pieceAt 50 6, pieceAt 70 7] →
      Recent (run write shortStore ws')) ∧
    (run write shortStore [pieceAt 0 5, pieceAt 50 6, pieceAt 70 7]).newestSeen =
      some 70 := by
  obtain ⟨hiff, -, hnewest⟩ := age_retention_iff ⟨4, 4, by decide⟩ 1000 60 (by decide)
    [pieceAt 0 5, pieceAt 50 6, pieceAt 70 7]
  exact ⟨hiff.mpr (by decide +kernel), hnewest (by decide)⟩

/-- A late piece with a lower index shields one that is too old. -/
theorem age_retention_shielded :
    ¬Recent (run write shortStore [pieceAt 0 10, pieceAt 100 5]) := by
  decide +kernel

end Outpace.Swarm.MemoryStore

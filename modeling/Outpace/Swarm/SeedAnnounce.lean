import Outpace.Data.Run
import Outpace.Swarm.StoreEquivalence
import Outpace.Wire.LiveCodec

/-!
# What a seed session announces

The part of `SeederSession::serve` (`ace-swarm/src/seed.rs`) that tells a peer which pieces there
are: `advertise_live_bitfields` once the peer has sent its extended handshake, and
`advance_live_edge` at every tick of the poll. Both read the complete pieces from the shared store
and then send message after message; other tasks may change the store in between, and a failed send
ends the session. The other branches of the loop send no announcement and do not touch this state.
-/

namespace Outpace.Swarm
open Wire (Bytes zeroHeader PeerMessage announces liveHave liveBitfield)

/-- A piece store with one of the two backends. -/
inductive CacheStore where
  | memory (st : MemoryStore)
  | disk (st : DiskStore)

/-- `PieceStore::shared_put_chunk_with_header` with the header of a piece on demand. -/
def CacheStore.sharedPutChunk (c : CacheStore) (now piece chunk : Nat) (data : Bytes) :
    CacheStore :=
  match c with
  -- the byte count of a memory store never falls short, so the write is always there
  | .memory st => .memory ((st.putChunkWithHeaderAt now piece chunk zeroHeader data).getD st)
  | .disk st => .disk (st.sharedPutChunk piece chunk zeroHeader data)

/-- `PieceStore::have_pieces`. -/
def CacheStore.havePieces : CacheStore → List Nat
  | .memory st => st.havePieces
  | .disk st => st.havePieces

/-- The runs of consecutive pieces, from the one that begins with `first` and goes to `last`. -/
def rangesFrom (first last : Nat) : List Nat → List (Nat × Nat)
  | [] => [(first, last)]
  | next :: rest =>
    if next = last + 1 then rangesFrom first next rest
    else (first, last) :: rangesFrom next next rest

def ranges : List Nat → List (Nat × Nat)
  | [] => []
  | first :: rest => rangesFrom first first rest

/-- The bitfield of a run: the first piece and the count, both cut to 32 bits. -/
def rangeBitfield (range : Nat × Nat) : PeerMessage :=
  liveBitfield (UInt32.ofNat range.1) (UInt32.ofNat (min (range.2 - range.1 + 1) (2 ^ 32 - 1)))

/-- What the session is doing. -/
inductive Announcing where
  | idle
  /-- The bitfields still to send, and the highest piece among all of them. -/
  | bitfields (todo : List (Nat × Nat)) (max : Option Nat)
  /-- The pieces that the poll has still to look at. -/
  | liveEdge (pieces : List Nat)
  | closed
  deriving DecidableEq

structure SeedSession where
  store : Option CacheStore
  advertisedBitfields : Bool
  advertisedMax : Option Nat
  turn : Announcing
  /-- What the peer has been sent. -/
  sent : List PeerMessage
  /-- The pieces that were complete when an announcement last read the store. -/
  snapshot : List Nat

inductive AnnounceEvent where
  /-- Other tasks change the shared store. -/
  | store (store : CacheStore)
  /-- The extended handshake of the peer arrives. -/
  | handshake
  | poll
  /-- The announcement goes on; its next message is sent or fails. -/
  | send (ok : Bool)

namespace SeedSession

/-- The session once its own handshake is sent. -/
def start (store : Option CacheStore) : SeedSession := ⟨store, false, none, .idle, [], []⟩

def havePieces (s : SeedSession) : List Nat := (s.store.map (·.havePieces)).getD []

/-- The pieces announced to the peer. -/
def announced (s : SeedSession) : List Nat := s.sent.flatMap announces

/-- One turn of an announcement. -/
def goOn (s : SeedSession) (ok : Bool) : SeedSession :=
  match s.turn with
  | .bitfields [] max =>
    { s with turn := .idle, advertisedBitfields := true, advertisedMax := max }
  | .bitfields (range :: todo) max =>
    if ok then { s with turn := .bitfields todo max, sent := s.sent ++ [rangeBitfield range] }
    else { s with turn := .closed }
  | .liveEdge [] => { s with turn := .idle }
  | .liveEdge (piece :: pieces) =>
    if s.advertisedMax.all (· < piece) then
      if ok then
        { s with
          turn := .liveEdge pieces
          advertisedMax := some piece
          sent := s.sent ++ [liveHave (UInt32.ofNat piece)] }
      else { s with turn := .closed }
    else { s with turn := .liveEdge pieces }
  | .idle | .closed => s

def step (s : SeedSession) : AnnounceEvent → SeedSession
  | .store store => { s with store := s.store.map fun _ => store }
  | .handshake =>
    match s.turn, s.advertisedBitfields, s.store with
    | .idle, false, none => { s with advertisedBitfields := true }
    | .idle, false, some store =>
      let pieces := store.havePieces
      { s with turn := .bitfields (ranges pieces) pieces.getLast?, snapshot := pieces }
    | _, _, _ => s
  | .poll =>
    match s.turn, s.advertisedBitfields, s.store with
    | .idle, true, some store =>
      let pieces := store.havePieces
      { s with turn := .liveEdge pieces, snapshot := pieces }
    | _, _, _ => s
  | .send ok => s.goOn ok

/-- The pieces of the last bitfields or poll are announced, unless it is still going on, and no
piece is announced twice. -/
structure Told (s : SeedSession) : Prop where
  all : s.turn = .idle → ∀ piece ∈ s.snapshot, piece ∈ s.announced
  once : s.announced.Nodup

/-- A piece that is announced already, or is above all that are. -/
def Due (announced : List Nat) (piece : Nat) : Prop :=
  piece ∈ announced ∨ ∀ other ∈ announced, other < piece

/-- The pieces that an announcement reads have 32-bit numbers, and a poll finds no piece that is not
announced below one that is. -/
def InOrder (s : SeedSession) : AnnounceEvent → Prop
  | .handshake => s.turn = .idle → ∀ piece ∈ s.havePieces, piece < 2 ^ 32 - 1
  | .poll => s.turn = .idle → ∀ piece ∈ s.havePieces, piece < 2 ^ 32 - 1 ∧ Due s.announced piece
  | _ => True

end SeedSession

/-! ### Ranges -/

def expand (range : Nat × Nat) : List Nat := List.range' range.1 (range.2 - range.1 + 1)

theorem flatMap_rangesFrom {first last : Nat} (h : first ≤ last) (pieces : List Nat) :
    (rangesFrom first last pieces).flatMap expand = expand (first, last) ++ pieces ∧
      ∀ range ∈ rangesFrom first last pieces, range.1 ≤ range.2 := by
  induction pieces generalizing first last with
  | nil =>
    refine ⟨by simp [rangesFrom], fun range hrange => ?_⟩
    rw [List.mem_singleton.mp hrange]
    exact h
  | cons next rest ih =>
    unfold rangesFrom
    split
    · next hnext =>
      subst hnext
      obtain ⟨heq, hle⟩ := ih (show first ≤ last + 1 from Nat.le_succ_of_le h)
      refine ⟨?_, hle⟩
      have hlen : last + 1 - first + 1 = (last - first + 1) + 1 := by omega
      have hend : first + 1 * (last - first + 1) = last + 1 := by omega
      rw [heq, expand, expand, hlen, List.range'_concat, hend, List.append_assoc]
      rfl
    · obtain ⟨heq, hle⟩ := ih (Nat.le_refl next)
      refine ⟨?_, fun range hrange => ?_⟩
      · rw [List.flatMap_cons, heq]
        simp [expand]
      · rcases List.mem_cons.mp hrange with rfl | hrange
        · exact h
        · exact hle range hrange

/-- The ranges cover the pieces, each once and in order. -/
theorem flatMap_ranges (pieces : List Nat) :
    (ranges pieces).flatMap expand = pieces ∧ ∀ range ∈ ranges pieces, range.1 ≤ range.2 := by
  cases pieces with
  | nil => exact ⟨rfl, fun _ h => (by cases h)⟩
  | cons first rest =>
    obtain ⟨heq, hle⟩ := flatMap_rangesFrom (Nat.le_refl first) rest
    refine ⟨heq.trans ?_, hle⟩
    simp [expand]

theorem announces_rangeBitfield {range : Nat × Nat} (hle : range.1 ≤ range.2)
    (hfits : range.2 < 2 ^ 32 - 1) : announces (rangeBitfield range) = expand range := by
  have hcount : min (range.2 - range.1 + 1) (2 ^ 32 - 1) = range.2 - range.1 + 1 := by omega
  rw [rangeBitfield, Wire.announces_liveBitfield, hcount, UInt32.toNat_ofNat_of_lt' (by
    show range.1 < 2 ^ 32
    omega), UInt32.toNat_ofNat_of_lt' (by
    show range.2 - range.1 + 1 < 2 ^ 32
    omega), expand, List.range'_eq_map_range]

variable {piece : Nat}

theorem announces_have (hfits : piece < 2 ^ 32) :
    announces (liveHave (UInt32.ofNat piece)) = [piece] := by
  rw [Wire.announces_liveHave, UInt32.toNat_ofNat_of_lt' hfits]

theorem keys_sorted {β : Type} (m : OrderedMap Nat β) : m.keys.Pairwise (· < ·) :=
  List.pairwise_map.mpr m.sorted

theorem CacheStore.sorted_havePieces (store : CacheStore) : store.havePieces.Pairwise (· < ·) := by
  cases store with
  | memory st => exact (keys_sorted st.backend.pieces).filter _
  | disk st => exact List.pairwise_map.mpr (st.backend.state.index.sorted.filter _)

namespace SeedSession
variable {s s' : SeedSession} {max : Option Nat} {pieces : List Nat} {turn : Announcing}

/-- The high-water mark is the highest of these pieces. -/
def Tops (max : Option Nat) (pieces : List Nat) : Prop :=
  (∀ top ∈ max, top ∈ pieces) ∧ ∀ piece ∈ pieces, ∃ top ∈ max, piece ≤ top

/-- How far an announcement has come. -/
def Progress (s : SeedSession) : Announcing → Prop
  | .idle => (∀ piece ∈ s.snapshot, piece ∈ s.announced) ∧ Tops s.advertisedMax s.announced ∧
      (s.advertisedBitfields = false → s.announced = [])
  | .bitfields todo max => s.announced ++ todo.flatMap expand = s.snapshot ∧
      (∀ range ∈ todo, range.1 ≤ range.2) ∧ Tops max s.snapshot
  | .liveEdge pieces => (∀ piece ∈ s.snapshot, piece ∈ s.announced ∨ piece ∈ pieces) ∧
      pieces ⊆ s.snapshot ∧ pieces.Pairwise (· < ·) ∧ (∀ piece ∈ pieces, Due s.announced piece) ∧
      Tops s.advertisedMax s.announced ∧ s.advertisedBitfields = true
  | .closed => True

structure Inv (s : SeedSession) : Prop where
  read : ∀ piece ∈ s.snapshot, piece < 2 ^ 32 - 1
  sorted : s.snapshot.Pairwise (· < ·)
  once : s.announced.Nodup
  progress : s.Progress s.turn

theorem tops_getLast? (h : pieces.Pairwise (· < ·)) : Tops pieces.getLast? pieces := by
  refine ⟨fun top htop => List.mem_of_getLast? htop, fun piece hpiece => ?_⟩
  obtain ⟨front, last, rfl⟩ := List.eq_nil_or_concat' pieces |>.resolve_left fun hnil => by
    rw [hnil] at hpiece
    cases hpiece
  refine ⟨last, List.getLast?_concat .., ?_⟩
  rcases List.mem_append.mp hpiece with hpiece | hpiece
  · exact Nat.le_of_lt ((List.pairwise_append.mp h).2.2 piece hpiece last List.mem_cons_self)
  · exact Nat.le_of_eq (List.mem_singleton.mp hpiece)

theorem havePieces_eq {store : CacheStore} (h : s.store = some store) :
    s.havePieces = store.havePieces := by
  rw [havePieces, h]
  rfl

/-- A read of the store begins an announcement of what is there. -/
theorem Inv.begin (H : s.Inv) {store : CacheStore} (hstore : s.store = some store)
    (hfits : ∀ piece ∈ s.havePieces, piece < 2 ^ 32 - 1)
    (hprogress : Progress { s with turn := turn, snapshot := store.havePieces } turn) :
    Inv { s with turn := turn, snapshot := store.havePieces } where
  read piece hpiece := hfits piece (havePieces_eq hstore ▸ hpiece)
  sorted := store.sorted_havePieces
  once := H.once
  progress := hprogress

/-- The announcement moves on without a message. -/
theorem Inv.move (H : s.Inv) {advertised : Bool}
    (hprogress : Progress
      { s with turn := turn, advertisedBitfields := advertised, advertisedMax := max } turn) :
    Inv { s with turn := turn, advertisedBitfields := advertised, advertisedMax := max } :=
  { H with progress := hprogress }

/-- The announcement sends a message about pieces it has read. -/
theorem Inv.tell (H : s.Inv) {msg : PeerMessage} (hmsg : announces msg = pieces)
    (honce : (s.announced ++ pieces).Nodup)
    (hprogress : Progress
      { s with turn := turn, advertisedMax := max, sent := s.sent ++ [msg] } turn) :
    Inv { s with turn := turn, advertisedMax := max, sent := s.sent ++ [msg] } := by
  have hannounced : announced
      { s with turn := turn, advertisedMax := max, sent := s.sent ++ [msg] } =
      s.announced ++ pieces := by
    simp [announced, hmsg]
  exact ⟨H.read, H.sorted, hannounced ▸ honce, hprogress⟩

theorem Tops.lt (H : Tops max pieces) (h : max.all (· < piece) = true) :
    ∀ other ∈ pieces, other < piece := by
  intro other hother
  obtain ⟨top, htop, hle⟩ := H.2 other hother
  cases htop
  exact Nat.lt_of_le_of_lt hle (of_decide_eq_true h)

theorem Tops.concat (H : Tops max pieces) (h : max.all (· < piece) = true) :
    Tops (some piece) (pieces ++ [piece]) := by
  refine ⟨fun top htop => ?_, fun other hother => ⟨piece, rfl, ?_⟩⟩
  · cases htop
    exact List.mem_append_right _ List.mem_cons_self
  · rcases List.mem_append.mp hother with hother | hother
    · exact Nat.le_of_lt (H.lt h other hother)
    · exact Nat.le_of_eq (List.mem_singleton.mp hother)

/-- At or below the mark, a piece that is due is announced. -/
theorem Due.announced_of_le {announced : List Nat} (H : Due announced piece)
    (htops : Tops max announced) (h : max.all (· < piece) = false) : piece ∈ announced := by
  refine H.resolve_right fun hlt => ?_
  cases max with
  | none => cases h
  | some top =>
    have := hlt top (htops.1 top rfl)
    exact absurd this (of_decide_eq_false h)

theorem Inv.goOn (H : s.Inv) (ok : Bool) : (s.goOn ok).Inv := by
  have hprogress := H.progress
  unfold SeedSession.goOn
  cases hturn : s.turn with
  | idle => exact H
  | closed => exact H
  | bitfields todo max =>
    rw [hturn] at hprogress
    obtain ⟨hall, hle, htops⟩ := hprogress
    cases todo with
    | nil =>
      rw [List.flatMap_nil, List.append_nil] at hall
      refine H.move ⟨fun piece hpiece => hall ▸ hpiece, ?_, fun h => (by cases h)⟩
      show Tops max s.announced
      exact hall ▸ htops
    | cons range todo =>
      cases ok with
      | false => exact H.move trivial
      | true =>
        have hexpand : expand range ⊆ s.snapshot := by
          rw [← hall]
          exact fun piece hpiece =>
            List.mem_append_right _ (List.mem_append_left _ hpiece)
        have hrange := hle range List.mem_cons_self
        have hlast : range.2 ∈ expand range := List.mem_range'_1.mpr ⟨hrange, by omega⟩
        have hmsg := announces_rangeBitfield hrange (H.read _ (hexpand hlast))
        rw [List.flatMap_cons, ← List.append_assoc] at hall
        have honce : (s.announced ++ expand range).Nodup := by
          have hnodup : s.snapshot.Nodup := H.sorted.imp Nat.ne_of_lt
          rw [← hall] at hnodup
          exact (List.nodup_append.mp hnodup).1
        refine H.tell hmsg honce ⟨?_, fun r hr => hle r (List.mem_cons_of_mem _ hr), htops⟩
        rw [announced, List.flatMap_append, List.flatMap_singleton, hmsg]
        exact hall
  | liveEdge pieces =>
    rw [hturn] at hprogress
    obtain ⟨hall, hread, hsorted, hdue, htops, hadvertised⟩ := hprogress
    cases pieces with
    | nil =>
      refine H.move ⟨fun piece hpiece => ?_, htops, fun h => (by cases hadvertised.symm.trans h)⟩
      exact (hall piece hpiece).resolve_right (fun h => (by cases h))
    | cons piece pieces =>
      obtain ⟨hlater, hsorted⟩ := List.pairwise_cons.mp hsorted
      have hread' : pieces ⊆ s.snapshot := fun p hp => hread (List.mem_cons_of_mem _ hp)
      have hdue' : ∀ p ∈ pieces, Due s.announced p := fun p hp => hdue p (List.mem_cons_of_mem _ hp)
      cases habove : s.advertisedMax.all (· < piece) with
      | false =>
        simp only [habove, Bool.false_eq_true, if_false]
        have hpiece := (hdue piece List.mem_cons_self).announced_of_le htops habove
        refine H.move ⟨fun p hp => ?_, hread', hsorted, hdue', htops, hadvertised⟩
        rcases hall p hp with h | h
        · exact .inl h
        rcases List.mem_cons.mp h with rfl | h
        · exact .inl hpiece
        · exact .inr h
      | true =>
        simp only [habove, if_true]
        cases ok with
        | false => exact H.move trivial
        | true =>
          have hfits := H.read piece (hread List.mem_cons_self)
          have hmsg : announces (liveHave (UInt32.ofNat piece)) = [piece] :=
            announces_have (by omega)
          have hnew := htops.lt habove
          have honce : (s.announced ++ [piece]).Nodup :=
            List.nodup_append.mpr ⟨H.once, List.nodup_singleton piece, fun p hp q hq heq => by
              rw [List.mem_singleton.mp hq] at heq
              exact absurd (hnew p hp) (by omega)⟩
          refine H.tell hmsg honce ?_
          show Progress _ (.liveEdge pieces)
          have hannounced (turn : Announcing) (max : Option Nat) : announced { s with
              turn := turn, advertisedMax := max,
              sent := s.sent ++ [liveHave (UInt32.ofNat piece)] } = s.announced ++ [piece] := by
            simp [announced, hmsg]
          simp only [Progress, hannounced]
          refine ⟨fun p hp => ?_, hread', hsorted, fun p hp => ?_, htops.concat habove, hadvertised⟩
          · rcases hall p hp with h | h
            · exact .inl (List.mem_append_left _ h)
            rcases List.mem_cons.mp h with rfl | h
            · exact .inl (List.mem_append_right _ List.mem_cons_self)
            · exact .inr h
          · rcases hdue' p hp with h | h
            · exact .inl (List.mem_append_left _ h)
            · refine .inr fun q hq => ?_
              rcases List.mem_append.mp hq with hq | hq
              · exact h q hq
              · rw [List.mem_singleton.mp hq]
                exact hlater p hp

theorem Inv.step (H : s.Inv) {event : AnnounceEvent} (h : s.InOrder event) :
    (s.step event).Inv := by
  cases event with
  | store store =>
    refine ⟨H.read, H.sorted, H.once, ?_⟩
    have hprogress := H.progress
    show Progress _ s.turn
    cases hturn : s.turn with
    | idle | bitfields | liveEdge | closed =>
      rw [hturn] at hprogress
      exact hprogress
  | handshake =>
    have hprogress := H.progress
    simp only [SeedSession.step]
    split
    · next hturn hadvertised hnone =>
      rw [hturn] at hprogress
      obtain ⟨hall, htops, hnothing⟩ := hprogress
      refine H.move ?_
      rw [hturn]
      exact ⟨hall, htops, fun h => (by cases h)⟩
    · next store hturn hadvertised hstore =>
      rw [hturn] at hprogress
      obtain ⟨hall, htops, hnothing⟩ := hprogress
      obtain ⟨hcover, hle⟩ := flatMap_ranges store.havePieces
      refine H.begin hstore (h hturn) ⟨?_, hle, tops_getLast? store.sorted_havePieces⟩
      show s.announced ++ _ = _
      rw [hnothing hadvertised, List.nil_append]
      exact hcover
    · exact H
  | poll =>
    have hprogress := H.progress
    simp only [SeedSession.step]
    split
    · next store hturn hadvertised hstore =>
      rw [hturn] at hprogress
      obtain ⟨hall, htops, -⟩ := hprogress
      have hread := h hturn
      refine H.begin hstore (fun piece hpiece => (hread piece hpiece).1)
        ⟨fun piece hpiece => .inr hpiece, fun _ h => h, store.sorted_havePieces,
          fun piece hpiece => (hread piece ?_).2, htops, hadvertised⟩
      rw [havePieces_eq hstore]
      exact hpiece
    · exact H
  | send ok => exact H.goOn ok

theorem inv_start (store : Option CacheStore) : (start store).Inv :=
  ⟨fun _ hp => (by cases hp), .nil, .nil, fun _ hp => (by cases hp),
    ⟨fun _ hp => (by cases hp), fun _ hp => (by cases hp)⟩, fun _ => rfl⟩

theorem Inv.told (H : s.Inv) : s.Told := by
  refine ⟨fun hidle => ?_, H.once⟩
  have hprogress := H.progress
  rw [hidle] at hprogress
  exact hprogress.1

/-- In every run in which each poll finds what is new above what is announced, every piece that was
complete at the last bitfields or poll is announced once those are through, and none is announced
twice. -/
theorem announces_every_piece_once (store : Option CacheStore) (events : List AnnounceEvent)
    (h : Meets step InOrder (start store) events) : (run step (start store) events).Told :=
  (run_induction (fun _ _ H hevent => H.step hevent) (inv_start store) h).told

instance (announced : List Nat) (piece : Nat) : Decidable (Due announced piece) :=
  inferInstanceAs (Decidable (piece ∈ announced ∨ ∀ other ∈ announced, other < piece))

instance (s : SeedSession) (event : AnnounceEvent) : Decidable (InOrder s event) :=
  match event with
  | .handshake => inferInstanceAs (Decidable (s.turn = .idle → ∀ piece ∈ s.havePieces,
      piece < 2 ^ 32 - 1))
  | .poll => inferInstanceAs (Decidable (s.turn = .idle → ∀ piece ∈ s.havePieces,
      piece < 2 ^ 32 - 1 ∧ Due s.announced piece))
  | .store _ | .send _ => isTrue trivial

/-- A store of one-chunk pieces. -/
def storeWith (pieces : List Nat) : CacheStore :=
  pieces.foldl (fun c piece => c.sharedPutChunk 0 piece 0 [1, 2, 3, 4])
    (.memory (.new ⟨4, 4, four_pos⟩ 1000))

/-- A session that is connected with two pieces, and polls once when other ones are complete. -/
def oneLatePoll (before after : List Nat) : List AnnounceEvent :=
  [.store (storeWith before), .handshake] ++ List.replicate (before.length + 1) (.send true) ++
    [.store (storeWith after), .poll] ++ List.replicate (after.length + 1) (.send true)

theorem announces_every_piece_once_sample :
    (run step (start (some (storeWith []))) (oneLatePoll [3, 4] [3, 4, 6, 5])).Told :=
  announces_every_piece_once _ _ (by decide +kernel)

/-- The piece 4 becomes complete after the piece 5 is announced, and is never announced. -/
theorem announces_gap :
    let s := run step (start (some (storeWith []))) (oneLatePoll [3, 5] [3, 5, 4])
    s.turn = .idle ∧ s.snapshot = [3, 4, 5] ∧ s.announced = [3, 5] ∧ ¬s.Told := by
  have hidle : (run step (start (some (storeWith []))) (oneLatePoll [3, 5] [3, 5, 4])).turn =
      .idle := by decide +kernel
  have hread : (run step (start (some (storeWith []))) (oneLatePoll [3, 5] [3, 5, 4])).snapshot =
      [3, 4, 5] := by decide +kernel
  have htold : (run step (start (some (storeWith []))) (oneLatePoll [3, 5] [3, 5, 4])).announced =
      [3, 5] := by decide +kernel
  refine ⟨hidle, hread, htold, fun H => ?_⟩
  have hmem := H.all hidle 4 (by rw [hread]; decide)
  rw [htold] at hmem
  revert hmem
  decide

end SeedSession

end Outpace.Swarm

import Outpace.Wire.Message

/-!
# Reading messages from a peer

`PeerSession::read_message` of `ace-peer/src/session.rs`. The socket is the list of what its reads
will return; a read past the end, or an empty one, is the end of the stream. A read returns at most
16 KiB, which does not matter here.
-/

namespace Outpace.Peer
open Wire

inductive PeerError where
  | wire (e : WireError)
  | closed
  deriving DecidableEq, Repr

structure PeerSession where
  buf : Bytes
  socket : List Bytes

/-- `read_message`: the result, and the session after it. -/
def readMessage : Bytes → List Bytes → Except PeerError PeerMessage × PeerSession
  | buf, socket =>
    match PeerMessage.decode buf with
    | .error e => (.error (.wire e), ⟨buf, socket⟩)
    | .ok (some (m, consumed)) => (.ok m, ⟨buf.drop consumed, socket⟩)
    | .ok none =>
      match socket with
      | [] => (.error .closed, ⟨buf, []⟩)
      | read :: socket =>
        if read = [] then (.error .closed, ⟨buf, socket⟩) else readMessage (buf ++ read) socket

/-- The results of `k` calls one after another. -/
def readMessages : Nat → PeerSession → List (Except PeerError PeerMessage)
  | 0, _ => []
  | k + 1, s =>
    let r := readMessage s.buf s.socket
    r.1 :: readMessages k r.2

/-- The bytes that have not been handed out. -/
def PeerSession.pending (s : PeerSession) : Bytes := s.buf ++ s.socket.flatten

/-- What a call does to the bytes that have not been handed out, with no regard to reads. -/
def nextMessage (pending : Bytes) : Except PeerError PeerMessage × Bytes :=
  match PeerMessage.decode pending with
  | .error e => (.error (.wire e), pending)
  | .ok (some (m, consumed)) => (.ok m, pending.drop consumed)
  | .ok none => (.error .closed, pending)

/-- A call depends on the pending bytes only, and so does what it leaves. -/
theorem readMessage_pending (buf : Bytes) {socket : List Bytes} (hs : [] ∉ socket) :
    (readMessage buf socket).1 = (nextMessage (buf ++ socket.flatten)).1 ∧
      (readMessage buf socket).2.pending = (nextMessage (buf ++ socket.flatten)).2 ∧
      [] ∉ (readMessage buf socket).2.socket := by
  induction socket generalizing buf with
  | nil =>
    unfold readMessage nextMessage
    simp only [List.flatten_nil, List.append_nil]
    split
    · simp [PeerSession.pending]
    · simp [PeerSession.pending]
    · simp [PeerSession.pending]
  | cons read socket ih =>
    have hread : read ≠ [] := fun h => hs (h ▸ List.mem_cons_self)
    have hsocket : [] ∉ socket := fun h => hs (List.mem_cons_of_mem _ h)
    have hflat : buf ++ (read :: socket).flatten = buf ++ read ++ socket.flatten := by simp
    unfold readMessage
    cases hd : PeerMessage.decode buf with
    | error e =>
      have happ := PeerMessage.decode_append buf (by rw [hd]; simp) (read :: socket).flatten
      simp only [nextMessage, happ, hd, true_and]
      exact ⟨rfl, hs⟩
    | ok r =>
      cases r with
      | some r =>
        obtain ⟨m, n⟩ := r
        have happ := PeerMessage.decode_append buf (by rw [hd]; simp)
          (read :: socket).flatten
        obtain ⟨-, -, hn⟩ := PeerMessage.encode_of_decode hd
        simp only [nextMessage, happ, hd, PeerSession.pending, true_and]
        exact ⟨(List.drop_append_of_le_length hn).symm, hs⟩
      | none =>
        simp only [hread, if_false, hflat]
        exact ih (buf ++ read) hsocket

theorem readMessages_pending {k : Nat} {s s' : PeerSession} (hs : [] ∉ s.socket)
    (hs' : [] ∉ s'.socket) (h : s.pending = s'.pending) :
    readMessages k s = readMessages k s' := by
  induction k generalizing s s' with
  | zero => rfl
  | succ k ih =>
    obtain ⟨h₁, h₂, h₃⟩ := readMessage_pending s.buf hs
    obtain ⟨h₁', h₂', h₃'⟩ := readMessage_pending s'.buf hs'
    have hp : s.buf ++ s.socket.flatten = s'.buf ++ s'.socket.flatten := h
    rw [hp] at h₁ h₂
    simp only [readMessages]
    rw [h₁, h₁', ih h₃ h₃' (h₂.trans h₂'.symm)]

/-- Peer message framing is unambiguous. A decoded message encodes to exactly the bytes it consumed,
whatever follows them; a proper part of a frame asks for more; every message of acceptable length
that is not an `unknown` in the shape of a typed one is decoded from its encoding; and the sequence
of messages read from a peer depends only on the bytes, not on how reads split them. -/
theorem framing_unambiguous :
    (∀ (buf : Bytes) (m : PeerMessage) (n : Nat), PeerMessage.decode buf = .ok (some (m, n)) →
      n ≤ buf.length ∧ m.encode = buf.take n ∧
        ∀ rest, PeerMessage.decode (buf ++ rest) = .ok (some (m, n))) ∧
    (∀ (frame part : Bytes) (len : Nat), PeerMessage.lengthField frame = some len →
      len ≤ maxFrameLen → frame.length = 4 + len → part <+: frame → part ≠ frame →
        PeerMessage.decode part = .ok none) ∧
    (∀ m : PeerMessage, m.bodyLen ≤ maxFrameLen → m.canonical = true →
      PeerMessage.decode m.encode = .ok (some (m, m.encode.length))) ∧
    (∀ (k : Nat) (s s' : PeerSession), [] ∉ s.socket → [] ∉ s'.socket →
      s.pending = s'.pending → readMessages k s = readMessages k s') := by
  refine ⟨fun buf m n h => ?_, fun frame part len hfield hlen hframe hpart hne => ?_,
    fun m hlen hm => PeerMessage.decode_encode hlen hm,
    fun k s s' hs hs' h => readMessages_pending hs hs' h⟩
  · obtain ⟨henc, -, hn⟩ := PeerMessage.encode_of_decode h
    refine ⟨hn, henc, fun rest => ?_⟩
    rw [PeerMessage.decode_append buf (by rw [h]; simp) rest, h]
  · refine PeerMessage.decode_of_partial hfield hlen hframe hpart ?_
    exact lt_of_le_of_ne hpart.length_le fun heq => hne (hpart.eq_of_length heq)

/-- An unchoke, a have and the beginning of a piece, read in two ways. -/
def sampleReads : PeerSession × PeerSession :=
  (⟨[0, 0], [[0, 1, 1, 0, 0, 0, 5, 4], [0, 0, 1, 7, 0, 0], [0, 9, 7]]⟩,
    ⟨[], [[0, 0, 0, 1], [1, 0, 0, 0, 5, 4, 0, 0, 1, 7, 0, 0, 0, 9, 7]]⟩)

theorem framing_unambiguous_sample :
    PeerMessage.decode (PeerMessage.request 1 2 3).encode =
        .ok (some (.request 1 2 3, (PeerMessage.request 1 2 3).encode.length)) ∧
      PeerMessage.decode ((PeerMessage.request 1 2 3).encode ++ [9]) =
        .ok (some (.request 1 2 3, (PeerMessage.request 1 2 3).encode.length)) ∧
      PeerMessage.decode ((PeerMessage.request 1 2 3).encode.take 7) = .ok none ∧
      readMessages 3 sampleReads.1 = [.ok .unchoke, .ok (.have 263), .error .closed] ∧
      readMessages 3 sampleReads.1 = readMessages 3 sampleReads.2 := by
  obtain ⟨hstable, hpart, hround, hsplit⟩ := framing_unambiguous
  have h := hround (.request 1 2 3) (by decide) (by decide)
  refine ⟨h, (hstable _ _ _ h).2.2 [9], hpart (PeerMessage.request 1 2 3).encode _ 13 (by decide)
    (by decide) (by decide) ⟨_, List.take_append_drop ..⟩ (by decide), by decide +kernel,
    hsplit 3 sampleReads.1 sampleReads.2 (by decide) (by decide) (by decide)⟩

end Outpace.Peer

import Outpace.Data.Lossy

/-!
# Transport stream resynchronisation

`TsResync` of `ace-media/src/mpegts.rs`: a filter over a byte stream that puts out 188-byte packets
starting with the sync byte. To lock on it wants the sync byte twice, one packet apart; once locked
it takes the packet at the expected place as long as that starts with the sync byte. Two packets
have to be buffered before it looks at the first, and a tail that cannot lock is cut to its last 375
bytes.
-/

namespace Outpace.Media

/-- Sync byte at the start of every packet. -/
def tsSync : UInt8 := 0x47

def tsPacketLen : Nat := 188

/-- Longest tail kept between pushes. -/
def maxUnsyncedTail : Nat := 2 * tsPacketLen - 1

theorem tsPacketLen_pos : 0 < tsPacketLen := by decide

theorem maxUnsyncedTail_add_one : maxUnsyncedTail + 1 = 2 * tsPacketLen := rfl

structure TsResync where
  buf : List UInt8
  locked : Bool
  acquiredSync : Bool
  deriving DecidableEq

/-- Loss in front of `outputOffset` in the output of one push. -/
structure TsResyncBoundary where
  outputOffset : Nat
  discardedBytes : Nat
  deriving DecidableEq

structure TsResyncOutput where
  /-- Ranges of the tail and the input together that were put out, as start and end. -/
  selected : List (Nat × Nat)
  /-- Bytes taken off that input, put out or not. -/
  consumed : Nat
  bytes : List UInt8
  discardedBytes : Nat
  boundaries : List TsResyncBoundary
  deriving DecidableEq

/-- The byte at `i` is there and is the sync byte. -/
def isSync (buf : List UInt8) (i : Nat) : Bool := buf[i]? == some tsSync

/-- Sync bytes at `j` and one packet later. -/
def isPair (buf : List UInt8) (j : Nat) : Bool := isSync buf j && isSync buf (j + tsPacketLen)

/-- The local variables of `push_report` while it scans. -/
structure Scan where
  i : Nat
  locked : Bool
  acquiredSync : Bool
  out : List UInt8
  selected : List (Nat × Nat)
  discardedBytes : Nat
  boundaries : List TsResyncBoundary

/-- Add a loss at an output offset, to the last boundary if that is at the same offset. -/
def addLoss (boundaries : List TsResyncBoundary) (offset count : Nat) : List TsResyncBoundary :=
  match boundaries.getLast? with
  | some last =>
    if last.outputOffset = offset then
      boundaries.dropLast ++ [{ last with discardedBytes := last.discardedBytes + count }]
    else boundaries ++ [⟨offset, count⟩]
  | none => [⟨offset, count⟩]

/-- Extend the last selected range by the packet at `i`, or begin a new one. -/
def select (selected : List (Nat × Nat)) (i : Nat) : List (Nat × Nat) :=
  match selected.getLast? with
  | some (start, stop) =>
    if stop = i then selected.dropLast ++ [(start, stop + tsPacketLen)]
    else selected ++ [(i, i + tsPacketLen)]
  | none => [(i, i + tsPacketLen)]

namespace Scan

/-- Losses are reported only after the first lock. -/
def reportLoss (s : Scan) (count : Nat) : Scan :=
  if s.acquiredSync then
    { s with
      discardedBytes := s.discardedBytes + count
      boundaries := addLoss s.boundaries s.out.length count }
  else s

def emit (buf : List UInt8) (s : Scan) : Scan :=
  { s with
    i := s.i + tsPacketLen
    locked := true
    acquiredSync := true
    out := s.out ++ (buf.drop s.i).take tsPacketLen
    selected := select s.selected s.i }

/-- The inner loop: the first confirmable packet start from `j` on, or where the neighbour of `j` is
not buffered any more. -/
def findPair (buf : List UInt8) : (fuel j : Nat) → Nat
  | 0, j => j
  | fuel + 1, j =>
    if j + tsPacketLen < buf.length && !isPair buf j then findPair buf fuel (j + 1) else j

/-- The outer loop. Every round but the last moves `i` on, so `buf.length` rounds are enough. -/
def loop (buf : List UInt8) : (fuel : Nat) → Scan → Scan
  | 0, s => s
  | fuel + 1, s =>
    if s.i + 2 * tsPacketLen ≤ buf.length then
      if isSync buf s.i && (s.locked || isSync buf (s.i + tsPacketLen)) then
        loop buf fuel (s.emit buf)
      else
        let j := findPair buf buf.length (s.i + 1)
        if j + tsPacketLen < buf.length then
          loop buf fuel { ({ s with locked := false }.reportLoss (j - s.i)) with i := j }
        else { s with locked := false }
    else s

end Scan

namespace TsResync

def new : TsResync := ⟨[], false, false⟩

def pushReport (r : TsResync) (data : List UInt8) : TsResyncOutput × TsResync :=
  let buf := r.buf ++ data
  let s := Scan.loop buf buf.length ⟨0, r.locked, r.acquiredSync, [], [], 0, []⟩
  let tail := buf.drop s.i
  if maxUnsyncedTail < tail.length then
    let excess := tail.length - maxUnsyncedTail
    let s := s.reportLoss excess
    (⟨s.selected, s.i + excess, s.out, s.discardedBytes, s.boundaries⟩,
      ⟨tail.drop excess, false, s.acquiredSync⟩)
  else
    (⟨s.selected, s.i, s.out, s.discardedBytes, s.boundaries⟩, ⟨tail, s.locked, s.acquiredSync⟩)

end TsResync

end Outpace.Media

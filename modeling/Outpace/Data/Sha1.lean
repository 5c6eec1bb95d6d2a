import Outpace.Data.BigEndian

/-!
# SHA-1

The hash function of FIPS 180-4 on byte lists. Nothing is proved about it; it is here so that
identities are computed and not assumed.
-/

namespace Outpace
namespace Sha1

def rotl (x : UInt32) (n : UInt32) : UInt32 := (x <<< n) ||| (x >>> (32 - n))

def bigEndian64 (x : UInt64) : List UInt8 := be32 (x >>> 32).toUInt32 ++ be32 x.toUInt32

def pad (m : List UInt8) : List UInt8 :=
  m ++ 0x80 :: (List.replicate ((119 - m.length % 64) % 64) 0 ++
    bigEndian64 (UInt64.ofNat (8 * m.length)))

def word (b : List UInt8) (i : Nat) : UInt32 :=
  ((b.getD (4 * i) 0).toUInt32 <<< 24) ||| ((b.getD (4 * i + 1) 0).toUInt32 <<< 16) |||
    ((b.getD (4 * i + 2) 0).toUInt32 <<< 8) ||| (b.getD (4 * i + 3) 0).toUInt32

/-- One more word of the message schedule, on the words so far with the latest first. -/
def extend (w : List UInt32) : List UInt32 :=
  rotl (w.getD 2 0 ^^^ w.getD 7 0 ^^^ w.getD 13 0 ^^^ w.getD 15 0) 1 :: w

def schedule (block : List UInt8) : List UInt32 :=
  ((List.range 64).foldl (fun w _ => extend w) ((List.range 16).map (word block)).reverse).reverse

structure State where
  a : UInt32
  b : UInt32
  c : UInt32
  d : UInt32
  e : UInt32

def init : State := ⟨0x67452301, 0xefcdab89, 0x98badcfe, 0x10325476, 0xc3d2e1f0⟩

/-- The round function and constant of round `t`. -/
def mix (s : State) (t : Nat) : UInt32 :=
  if t < 20 then ((s.b &&& s.c) ||| (~~~s.b &&& s.d)) + 0x5a827999
  else if t < 40 then (s.b ^^^ s.c ^^^ s.d) + 0x6ed9eba1
  else if t < 60 then ((s.b &&& s.c) ||| (s.b &&& s.d) ||| (s.c &&& s.d)) + 0x8f1bbcdc
  else (s.b ^^^ s.c ^^^ s.d) + 0xca62c1d6

def round (s : State) (t : Nat) (w : UInt32) : State :=
  ⟨rotl s.a 5 + mix s t + s.e + w, s.a, rotl s.b 30, s.c, s.d⟩

def compress (s : State) (block : List UInt8) : State :=
  let r := (schedule block).zipIdx.foldl (fun r (w, t) => round r t w) s
  ⟨s.a + r.a, s.b + r.b, s.c + r.c, s.d + r.d, s.e + r.e⟩

def digestBytes (m : List UInt8) : List UInt8 :=
  let p := pad m
  let s := (List.range (p.length / 64)).foldl (fun s i => compress s ((p.drop (64 * i)).take 64)) init
  be32 s.a ++ be32 s.b ++ be32 s.c ++ be32 s.d ++ be32 s.e

theorem length_digestBytes (m : List UInt8) : (digestBytes m).length = 20 := rfl

end Sha1

/-- `Sha1::digest`. -/
def sha1 (m : List UInt8) : Vector UInt8 20 :=
  ⟨(Sha1.digestBytes m).toArray, by simp [Sha1.length_digestBytes]⟩

/-- The digest of `abc` that the standard gives. -/
example : (sha1 [97, 98, 99]).toList =
    [0xa9, 0x99, 0x3e, 0x36, 0x47, 0x06, 0x81, 0x6a, 0xba, 0x3e, 0x25, 0x71, 0x78, 0x50, 0xc2, 0x6c,
      0x9c, 0xd0, 0xd8, 0x9d] := by decide +kernel

end Outpace

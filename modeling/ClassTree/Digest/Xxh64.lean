/-!
# The 64-bit xxHash

The standard hash of a byte sequence with seed 0: four lanes absorb stripes of 32 bytes, the rest is mixed in by words
of 8 and 4 bytes and then byte by byte. All arithmetic is modulo 2⁶⁴ and words are little endian.
-/

namespace ClassTree.Digest

def prime1 : UInt64 := 0x9E3779B185EBCA87
def prime2 : UInt64 := 0xC2B2AE3D27D4EB4F
def prime3 : UInt64 := 0x165667B19E3779F9
def prime4 : UInt64 := 0x85EBCA77C2B2AE63
def prime5 : UInt64 := 0x27D4EB2F165667C5

/-- Rotates a word to the left by `k` bits, `0 < k < 64`. -/
def rotate (x : UInt64) (k : UInt64) : UInt64 := (x <<< k) ||| (x >>> (64 - k))

/-- The number that bytes stand for, the least significant byte first. -/
def littleEndian (bs : List UInt8) : UInt64 := bs.foldr (fun b w => w * 256 + b.toUInt64) 0

/-- What a lane becomes when it absorbs a word. -/
def absorb (lane word : UInt64) : UInt64 := rotate (lane + word * prime2) 31 * prime1

/-- The four lanes. -/
structure Lanes where
  a : UInt64
  b : UInt64
  c : UInt64
  d : UInt64

/-- The lanes absorb the first `n` stripes of 32 bytes; gives the lanes and the bytes left. -/
def Lanes.stripes : Nat → List UInt8 → Lanes → Lanes × List UInt8
  | 0, bs, l => (l, bs)
  | n + 1, bs, l =>
    let word k := littleEndian ((bs.drop (8 * k)).take 8)
    stripes n (bs.drop 32) ⟨absorb l.a (word 0), absorb l.b (word 1), absorb l.c (word 2), absorb l.d (word 3)⟩

/-- One lane goes into the result. -/
def merge (h lane : UInt64) : UInt64 := (h ^^^ absorb 0 lane) * prime1 + prime4

def Lanes.converge (l : Lanes) : UInt64 :=
  let h := rotate l.a 1 + rotate l.b 7 + rotate l.c 12 + rotate l.d 18
  merge (merge (merge (merge h l.a) l.b) l.c) l.d

/-- Mixes in `n` words of 8 bytes; gives the hash and the bytes left. -/
def mixWords : Nat → List UInt8 → UInt64 → UInt64 × List UInt8
  | 0, bs, h => (h, bs)
  | n + 1, bs, h =>
    mixWords n (bs.drop 8) (rotate (h ^^^ absorb 0 (littleEndian (bs.take 8))) 27 * prime1 + prime4)

/-- Mixes in one half word if there are bytes for it. -/
def mixHalf (bs : List UInt8) (h : UInt64) : UInt64 × List UInt8 :=
  if bs.length < 4 then (h, bs)
  else (rotate (h ^^^ littleEndian (bs.take 4) * prime1) 23 * prime2 + prime3, bs.drop 4)

def mixBytes (bs : List UInt8) (h : UInt64) : UInt64 :=
  bs.foldl (fun h b => rotate (h ^^^ b.toUInt64 * prime5) 11 * prime1) h

/-- Spreads every bit over the whole word. -/
def avalanche (h : UInt64) : UInt64 :=
  let h := (h ^^^ (h >>> 33)) * prime2
  let h := (h ^^^ (h >>> 29)) * prime3
  h ^^^ (h >>> 32)

/-- The hash of a byte sequence. -/
def xxh64Bytes (bs : List UInt8) : UInt64 :=
  let size := bs.length
  let (h, rest) :=
    if size < 32 then (prime5, bs)
    else
      let (lanes, rest) := Lanes.stripes (size / 32) bs ⟨prime1 + prime2, prime2, 0, 0 - prime1⟩
      (lanes.converge, rest)
  let (h, rest) := mixWords (rest.length / 8) rest (h + size.toUInt64)
  let (h, rest) := mixHalf rest h
  avalanche (mixBytes rest h)

/-- The hash of a text, over its UTF-8 bytes. -/
def xxh64 (s : String) : UInt64 := xxh64Bytes s.toUTF8.toList

end ClassTree.Digest

/-!
# The 64-bit XXH3 hash

The hash of a byte sequence with seed 0 and the default secret. Inputs are treated by length:
up to 16 bytes, up to 128, up to 240, and longer ones, which run eight accumulators over stripes
of 64 bytes and scramble them after every block of 16 stripes.

* `word32`, `word64`, little-endian words of a byte array (bytes past the end read as 0);
* `foldedProduct`, the 128-bit product of two words with its halves combined;
* `digest`, the hash.
-/

namespace SketchSense.Hash.Xxh3

/-! ## Words and constants -/

def byteAt (b : ByteArray) (i : Nat) : UInt64 := if h : i < b.size then b[i].toUInt64 else 0

def word32 (b : ByteArray) (i : Nat) : UInt64 :=
  byteAt b i ||| (byteAt b (i + 1) <<< 8) ||| (byteAt b (i + 2) <<< 16)
    ||| (byteAt b (i + 3) <<< 24)

def word64 (b : ByteArray) (i : Nat) : UInt64 :=
  word32 b i ||| (word32 b (i + 4) <<< 32)

def prime32x1 : UInt64 := 0x9E3779B1
def prime32x2 : UInt64 := 0x85EBCA77
def prime32x3 : UInt64 := 0xC2B2AE3D
def prime64x1 : UInt64 := 0x9E3779B185EBCA87
def prime64x2 : UInt64 := 0xC2B2AE3D27D4EB4F
def prime64x3 : UInt64 := 0x165667B19E3779F9
def prime64x4 : UInt64 := 0x85EBCA77C2B2AE63
def prime64x5 : UInt64 := 0x27D4EB2F165667C5
def mixPrime1 : UInt64 := 0x165667919E3779F9
def mixPrime2 : UInt64 := 0x9FB21C651E98DF25

/-- The default secret, 192 bytes. -/
def secret : ByteArray := ⟨#[
  0xb8, 0xfe, 0x6c, 0x39, 0x23, 0xa4, 0x4b, 0xbe, 0x7c, 0x01, 0x81, 0x2c, 0xf7, 0x21, 0xad, 0x1c,
  0xde, 0xd4, 0x6d, 0xe9, 0x83, 0x90, 0x97, 0xdb, 0x72, 0x40, 0xa4, 0xa4, 0xb7, 0xb3, 0x67, 0x1f,
  0xcb, 0x79, 0xe6, 0x4e, 0xcc, 0xc0, 0xe5, 0x78, 0x82, 0x5a, 0xd0, 0x7d, 0xcc, 0xff, 0x72, 0x21,
  0xb8, 0x08, 0x46, 0x74, 0xf7, 0x43, 0x24, 0x8e, 0xe0, 0x35, 0x90, 0xe6, 0x81, 0x3a, 0x26, 0x4c,
  0x3c, 0x28, 0x52, 0xbb, 0x91, 0xc3, 0x00, 0xcb, 0x88, 0xd0, 0x65, 0x8b, 0x1b, 0x53, 0x2e, 0xa3,
  0x71, 0x64, 0x48, 0x97, 0xa2, 0x0d, 0xf9, 0x4e, 0x38, 0x19, 0xef, 0x46, 0xa9, 0xde, 0xac, 0xd8,
  0xa8, 0xfa, 0x76, 0x3f, 0xe3, 0x9c, 0x34, 0x3f, 0xf9, 0xdc, 0xbb, 0xc7, 0xc7, 0x0b, 0x4f, 0x1d,
  0x8a, 0x51, 0xe0, 0x4b, 0xcd, 0xb4, 0x59, 0x31, 0xc8, 0x9f, 0x7e, 0xc9, 0xd9, 0x78, 0x73, 0x64,
  0xea, 0xc5, 0xac, 0x83, 0x34, 0xd3, 0xeb, 0xc3, 0xc5, 0x81, 0xa0, 0xff, 0xfa, 0x13, 0x63, 0xeb,
  0x17, 0x0d, 0xdd, 0x51, 0xb7, 0xf0, 0xda, 0x49, 0xd3, 0x16, 0x55, 0x26, 0x29, 0xd4, 0x68, 0x9e,
  0x2b, 0x16, 0xbe, 0x58, 0x7d, 0x47, 0xa1, 0xfc, 0x8f, 0xf8, 0xb8, 0xd1, 0x7a, 0xd0, 0x31, 0xce,
  0x45, 0xcb, 0x3a, 0x8f, 0x95, 0x16, 0x04, 0x28, 0xaf, 0xd7, 0xfb, 0xca, 0xbb, 0x4b, 0x40, 0x7e]⟩

/-! ## Mixing -/

def rotateLeft (x n : UInt64) : UInt64 := (x <<< n) ||| (x >>> (64 - n))

/-- The bytes of a word in reverse order. -/
def swapBytes (x : UInt64) : UInt64 :=
  let pairs := ((x &&& 0x00FF00FF00FF00FF) <<< 8) ||| ((x >>> 8) &&& 0x00FF00FF00FF00FF)
  let quads := ((pairs &&& 0x0000FFFF0000FFFF) <<< 16) ||| ((pairs >>> 16) &&& 0x0000FFFF0000FFFF)
  (quads <<< 32) ||| (quads >>> 32)

/-- The 128-bit product of two words, its low half combined with its high half. -/
def foldedProduct (x y : UInt64) : UInt64 :=
  let p := x.toNat * y.toNat
  UInt64.ofNat p ^^^ UInt64.ofNat (p >>> 64)

def avalanche (h : UInt64) : UInt64 :=
  let h := (h ^^^ (h >>> 37)) * mixPrime1
  h ^^^ (h >>> 32)

def shortAvalanche (h : UInt64) : UInt64 :=
  let h := (h ^^^ (h >>> 33)) * prime64x2
  let h := (h ^^^ (h >>> 29)) * prime64x3
  h ^^^ (h >>> 32)

/-- Sixteen bytes of input mixed with sixteen bytes of the secret. -/
def mix16 (b : ByteArray) (i k : Nat) : UInt64 :=
  foldedProduct (word64 b i ^^^ word64 secret k) (word64 b (i + 8) ^^^ word64 secret (k + 8))

/-! ## Short inputs -/

def upTo3 (b : ByteArray) : UInt64 :=
  let n := b.size
  let combined := (byteAt b 0 <<< 16) ||| (byteAt b (n / 2) <<< 24) ||| byteAt b (n - 1)
    ||| (n.toUInt64 <<< 8)
  shortAvalanche (combined ^^^ (word32 secret 0 ^^^ word32 secret 4))

def upTo8 (b : ByteArray) : UInt64 :=
  let n := b.size
  let input := word32 b (n - 4) + (word32 b 0 <<< 32)
  let h := input ^^^ (word64 secret 8 ^^^ word64 secret 16)
  let h := (h ^^^ rotateLeft h 49 ^^^ rotateLeft h 24) * mixPrime2
  let h := (h ^^^ ((h >>> 35) + n.toUInt64)) * mixPrime2
  h ^^^ (h >>> 28)

def upTo16 (b : ByteArray) : UInt64 :=
  let n := b.size
  let low := word64 b 0 ^^^ (word64 secret 24 ^^^ word64 secret 32)
  let high := word64 b (n - 8) ^^^ (word64 secret 40 ^^^ word64 secret 48)
  avalanche (n.toUInt64 + swapBytes low + high + foldedProduct low high)

/-- Pairs of 16-byte pieces from both ends, `pairs` of them. -/
def fromBothEnds (b : ByteArray) (pairs : Nat) : UInt64 :=
  (List.range pairs).foldl
    (fun h i => h + mix16 b (16 * i) (32 * i) + mix16 b (b.size - 16 * (i + 1)) (32 * i + 16))
    (b.size.toUInt64 * prime64x1)

def upTo128 (b : ByteArray) : UInt64 := avalanche (fromBothEnds b ((b.size - 1) / 32 + 1))

def upTo240 (b : ByteArray) : UInt64 :=
  let n := b.size
  let start := (List.range 8).foldl (fun h i => h + mix16 b (16 * i) (16 * i))
    (n.toUInt64 * prime64x1)
  let rest := (List.range (n / 16 - 8)).foldl
    (fun h i => h + mix16 b (16 * (i + 8)) (16 * i + 3)) (mix16 b (n - 16) 119)
  avalanche (avalanche start + rest)

/-! ## Long inputs -/

def startAccumulators : List UInt64 :=
  [prime32x3, prime64x1, prime64x2, prime64x3, prime64x4, prime32x2, prime64x5, prime32x1]

/-- Adds one stripe of 64 bytes: each word goes to its neighbour, its keyed halves are multiplied
into its own accumulator. -/
def addStripe (b : ByteArray) (i k : Nat) (acc : List UInt64) : List UInt64 :=
  acc.zipIdx.map fun (a, lane) =>
    let key := word64 b (i + 8 * lane) ^^^ word64 secret (k + 8 * lane)
    let neighbour := if lane % 2 = 0 then lane + 1 else lane - 1
    a + word64 b (i + 8 * neighbour) + (key &&& (0xFFFFFFFF : UInt64)) * (key >>> 32)

def addStripes (b : ByteArray) (i count : Nat) (acc : List UInt64) : List UInt64 :=
  (List.range count).foldl (fun acc s => addStripe b (i + 64 * s) (8 * s) acc) acc

def scramble (acc : List UInt64) : List UInt64 :=
  acc.zipIdx.map fun (a, lane) =>
    (a ^^^ (a >>> 47) ^^^ word64 secret (128 + 8 * lane)) * prime32x1

/-- Folds the accumulators, in pairs, into one word. -/
def mergeAccumulators (start : UInt64) (k : Nat) : List UInt64 → UInt64
  | x :: y :: rest =>
    mergeAccumulators (start + foldedProduct (x ^^^ word64 secret k) (y ^^^ word64 secret (k + 8)))
      (k + 16) rest
  | _ => avalanche start

/-- Bytes in a block of 16 stripes. -/
def blockSize : Nat := 1024

def long (b : ByteArray) : UInt64 :=
  let n := b.size
  let blocks := (n - 1) / blockSize
  let acc := (List.range blocks).foldl
    (fun acc i => scramble (addStripes b (blockSize * i) 16 acc)) startAccumulators
  let acc := addStripes b (blockSize * blocks) ((n - 1 - blockSize * blocks) / 64) acc
  let acc := addStripe b (n - 64) 121 acc
  mergeAccumulators (n.toUInt64 * prime64x1) 11 acc

/-! ## The hash -/

def digest (b : ByteArray) : UInt64 :=
  let n := b.size
  if n = 0 then shortAvalanche (word64 secret 56 ^^^ word64 secret 64)
  else if n ≤ 3 then upTo3 b
  else if n ≤ 8 then upTo8 b
  else if n ≤ 16 then upTo16 b
  else if n ≤ 128 then upTo128 b
  else if n ≤ 240 then upTo240 b
  else long b

end SketchSense.Hash.Xxh3

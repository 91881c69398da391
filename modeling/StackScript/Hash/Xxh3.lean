import StackScript.Text.Bytes

/-! # XXH3, 64-bit

The 64-bit XXH3 hash with seed 0 and the default 192-byte secret. Inputs of up to 16 bytes,
17 to 128, 129 to 240 and longer ones take the four paths of the algorithm; all arithmetic is
on 64-bit words and wraps. String objects are placed in hash tables by this hash of their bytes.
-/

namespace StackScript

namespace Xxh3

/-- The default secret. -/
def secret : Array UInt8 := #[
  0xb8, 0xfe, 0x6c, 0x39, 0x23, 0xa4, 0x4b, 0xbe, 0x7c, 0x01, 0x81, 0x2c, 0xf7, 0x21, 0xad, 0x1c,
  0xde, 0xd4, 0x6d, 0xe9, 0x83, 0x90, 0x97, 0xdb, 0x72, 0x40, 0xa4, 0xa4, 0xb7, 0xb3, 0x67, 0x1f,
  0xcb, 0x79, 0xe6, 0x4e, 0xcc, 0xc0, 0xe5, 0x78, 0x82, 0x5a, 0xd0, 0x7d, 0xcc, 0xff, 0x72, 0x21,
  0xb8, 0x08, 0x46, 0x74, 0xf7, 0x43, 0x24, 0x8e, 0xe0, 0x35, 0x90, 0xe6, 0x81, 0x3a, 0x26, 0x4c,
  0x3c, 0x28, 0x52, 0xbb, 0x91, 0xc3, 0x00, 0xcb, 0x88, 0xd0, 0x65, 0x8b, 0x1b, 0x53, 0x2e, 0xa3,
  0x71, 0x64, 0x48, 0x97, 0xa2, 0x0d, 0xf9, 0x4e, 0x38, 0x19, 0xef, 0x46, 0xa9, 0xde, 0xac, 0xd8,
  0xa8, 0xfa, 0x76, 0x3f, 0xe3, 0x9c, 0x34, 0x3f, 0xf9, 0xdc, 0xbb, 0xc7, 0xc7, 0x0b, 0x4f, 0x1d,
  0x8a, 0x51, 0xe0, 0x4b, 0xcd, 0xb4, 0x59, 0x31, 0xc8, 0x9f, 0x7e, 0xc9, 0xd9, 0x78, 0x73, 0x64,
  0xea, 0xc5, 0xac, 0x83, 0x34, 0xd3, 0xeb, 0xc3, 0xc5, 0x81, 0xa0, 0xff, 0xfa, 0x13, 0x63, 0xeb,
  0x17, 0x0d, 0xdd, 0x51, 0xb7, 0xf0, 0xda, 0x49, 0xd3, 0x16, 0x55, 0x26, 0x29, 0xd4, 0x68, 0x9e,
  0x2b, 0x16, 0xbe, 0x58, 0x7d, 0x47, 0xa1, 0xfc, 0x8f, 0xf8, 0xb8, 0xd1, 0x7a, 0xd0, 0x31, 0xce,
  0x45, 0xcb, 0x3a, 0x8f, 0x95, 0x16, 0x04, 0x28, 0xaf, 0xd7, 0xfb, 0xca, 0xbb, 0x4b, 0x40, 0x7e]

def prime32_1 : UInt64 := 0x9E3779B1
def prime32_2 : UInt64 := 0x85EBCA77
def prime32_3 : UInt64 := 0xC2B2AE3D
def prime64_1 : UInt64 := 0x9E3779B185EBCA87
def prime64_2 : UInt64 := 0xC2B2AE3D27D4EB4F
def prime64_3 : UInt64 := 0x165667B19E3779F9
def prime64_4 : UInt64 := 0x85EBCA77C2B2AE63
def prime64_5 : UInt64 := 0x27D4EB2F165667C5
def primeMx1 : UInt64 := 0x165667919E3779F9
def primeMx2 : UInt64 := 0x9FB21C651E98DF25

/-- The little-endian word of `n` bytes at offset `i`. -/
def readLE (a : Array UInt8) (i n : Nat) : UInt64 :=
  (List.range n).foldr (fun j (acc : UInt64) => acc * 256 + (a.getD (i + j) 0).toUInt64) 0

/-- The 64-bit little-endian word at offset `i`. -/
def read64 (a : Array UInt8) (i : Nat) : UInt64 := readLE a i 8

/-- The 32-bit little-endian word at offset `i`. -/
def read32 (a : Array UInt8) (i : Nat) : UInt64 := readLE a i 4

/-- Rotation to the left. -/
def rotl (x : UInt64) (r : UInt64) : UInt64 := (x <<< r) ||| (x >>> (64 - r))

/-- The byte-reversed word. -/
def swap64 (x : UInt64) : UInt64 :=
  (List.range 8).foldl (fun (acc : UInt64) (j : Nat) => acc * 256 + ((x >>> (8 * j).toUInt64) &&& 0xFF)) 0

/-- The exclusive or of the two halves of the 128-bit product. -/
def mulFold (a b : UInt64) : UInt64 :=
  let p := a.toNat * b.toNat
  (p % Nat.pow 2 64).toUInt64 ^^^ (p / Nat.pow 2 64).toUInt64

/-- The final mix of the 64-bit XXH hash. -/
def avalanche64 (h : UInt64) : UInt64 :=
  let h := h ^^^ (h >>> 33)
  let h := h * prime64_2
  let h := h ^^^ (h >>> 29)
  let h := h * prime64_3
  h ^^^ (h >>> 32)

/-- The final mix of XXH3. -/
def avalanche (h : UInt64) : UInt64 :=
  let h := h ^^^ (h >>> 37)
  let h := h * primeMx1
  h ^^^ (h >>> 32)

/-- The mix for inputs of four to eight bytes. -/
def rrmxmx (h : UInt64) (len : UInt64) : UInt64 :=
  let h := h ^^^ (rotl h 49 ^^^ rotl h 24)
  let h := h * primeMx2
  let h := h ^^^ ((h >>> 35) + len)
  let h := h * primeMx2
  h ^^^ (h >>> 28)

/-- The mix of sixteen input bytes at `i` with sixteen secret bytes at `s`. -/
def mix16 (a : Array UInt8) (i s : Nat) : UInt64 :=
  mulFold (read64 a i ^^^ read64 secret s) (read64 a (i + 8) ^^^ read64 secret (s + 8))

/-- Inputs of at most sixteen bytes. -/
def hashShort (a : Array UInt8) : UInt64 :=
  let len := a.size
  if len > 8 then
    let lo := read64 a 0 ^^^ (read64 secret 24 ^^^ read64 secret 32)
    let hi := read64 a (len - 8) ^^^ (read64 secret 40 ^^^ read64 secret 48)
    avalanche (len.toUInt64 + swap64 lo + hi + mulFold lo hi)
  else if len ≥ 4 then
    let in1 := read32 a 0
    let in2 := read32 a (len - 4)
    let bitflip := read64 secret 8 ^^^ read64 secret 16
    rrmxmx ((in2 + (in1 <<< 32)) ^^^ bitflip) len.toUInt64
  else if len > 0 then
    let c1 := (a.getD 0 0).toUInt64
    let c2 := (a.getD (len / 2) 0).toUInt64
    let c3 := (a.getD (len - 1) 0).toUInt64
    let combined := (c1 <<< 16) ||| (c2 <<< 24) ||| c3 ||| (len.toUInt64 <<< 8)
    avalanche64 (combined ^^^ (read32 secret 0 ^^^ read32 secret 4))
  else
    avalanche64 (read64 secret 56 ^^^ read64 secret 64)

/-- Inputs of 17 to 128 bytes. -/
def hashMid (a : Array UInt8) : UInt64 :=
  let len := a.size
  let acc := len.toUInt64 * prime64_1
  let acc := if len > 32 then
      let acc := if len > 64 then
          let acc := if len > 96 then
              acc + mix16 a 48 96 + mix16 a (len - 64) 112
            else acc
          acc + mix16 a 32 64 + mix16 a (len - 48) 80
        else acc
      acc + mix16 a 16 32 + mix16 a (len - 32) 48
    else acc
  avalanche (acc + mix16 a 0 0 + mix16 a (len - 16) 16)

/-- Inputs of 129 to 240 bytes. -/
def hashLarge (a : Array UInt8) : UInt64 :=
  let len := a.size
  let acc0 := len.toUInt64 * prime64_1
  let acc := (List.range 8).foldl (fun acc i => acc + mix16 a (16 * i) (16 * i)) acc0
  let acc := avalanche acc
  let rounds := len / 16
  let acc := (List.range (rounds - 8)).foldl
    (fun acc j => acc + mix16 a (16 * (j + 8)) (16 * j + 3)) acc
  avalanche (acc + mix16 a (len - 16) 119)

/-- One 64-byte stripe folded into the eight accumulators. -/
def accumulateStripe (acc : Array UInt64) (a : Array UInt8) (i s : Nat) : Array UInt64 :=
  (List.range 8).foldl (fun (acc : Array UInt64) (j : Nat) =>
    let dataVal := read64 a (i + 8 * j)
    let dataKey := dataVal ^^^ read64 secret (s + 8 * j)
    let acc := acc.modify (Nat.xor j 1) (· + dataVal)
    acc.modify j (· + (dataKey &&& (0xFFFFFFFF : UInt64)) * (dataKey >>> 32))) acc

/-- The scramble of the accumulators at the end of a block. -/
def scramble (acc : Array UInt64) : Array UInt64 :=
  acc.mapIdx fun j (x : UInt64) =>
    let x := x ^^^ (x >>> 47)
    let x := x ^^^ read64 secret (128 + 8 * j)
    x * prime32_1

/-- Inputs of more than 240 bytes: blocks of sixteen stripes, each followed by a scramble,
then the stripes of the last partial block and the final stripe. -/
def hashLong (a : Array UInt8) : UInt64 :=
  let len := a.size
  let acc0 : Array UInt64 :=
    #[prime32_3, prime64_1, prime64_2, prime64_3, prime64_4, prime32_2, prime64_5, prime32_1]
  let blocks := (len - 1) / 1024
  let acc := (List.range blocks).foldl (fun acc n =>
    let acc := (List.range 16).foldl (fun acc k =>
      accumulateStripe acc a (1024 * n + 64 * k) (8 * k)) acc
    scramble acc) acc0
  let stripes := ((len - 1) - 1024 * blocks) / 64
  let acc := (List.range stripes).foldl (fun acc k =>
    accumulateStripe acc a (1024 * blocks + 64 * k) (8 * k)) acc
  let acc := accumulateStripe acc a (len - 64) (192 - 64 - 7)
  let start := len.toUInt64 * prime64_1
  let merged := (List.range 4).foldl (fun r i =>
    r + mulFold (acc.getD (2 * i) 0 ^^^ read64 secret (11 + 16 * i))
      (acc.getD (2 * i + 1) 0 ^^^ read64 secret (11 + 16 * i + 8))) start
  avalanche merged

end Xxh3

/-- The XXH3 64-bit hash of a byte string, seed 0. -/
def xxh3 (b : Bytes) : UInt64 :=
  let a := b.toArray
  if a.size ≤ 16 then Xxh3.hashShort a
  else if a.size ≤ 128 then Xxh3.hashMid a
  else if a.size ≤ 240 then Xxh3.hashLarge a
  else Xxh3.hashLong a

end StackScript

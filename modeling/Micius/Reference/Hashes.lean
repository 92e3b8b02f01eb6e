import Micius.Lib.LittleEndian

/-!
# crc32 and xxh64

The two hash functions of `crc32fast` and `xxhash_rust`, in full, so that
runs of the model can be evaluated on concrete inputs. The arithmetic is on
`Nat` with explicit reduction, which the kernel computes fast.
-/

namespace Micius.Hashes

open LittleEndian

/-! ## CRC-32 (IEEE, reflected) -/

def crcBit (c : Nat) : Nat := if c % 2 = 1 then (c / 2) ^^^ 0xedb88320 else c / 2

def crcByte (c : Nat) (b : UInt8) : Nat :=
  crcBit (crcBit (crcBit (crcBit (crcBit (crcBit (crcBit (crcBit (c ^^^ b.toNat))))))))

/-- `crc32fast`: `update` then `finalize`. -/
def crc32 (bs : List UInt8) : UInt32 :=
  UInt32.ofNat (bs.foldl crcByte 0xffffffff ^^^ 0xffffffff)

-- The check value of the algorithm: the checksum of "123456789".
example : crc32 [49, 50, 51, 52, 53, 54, 55, 56, 57] = 0xcbf43926 := by decide +kernel

/-! ## xxh64 with seed 0 -/

def w64 (n : Nat) : Nat := n % 2 ^ 64

def rotl (x r : Nat) : Nat := w64 (x * 2 ^ r) + x / 2 ^ (64 - r)

def p1 : Nat := 11400714785074694791
def p2 : Nat := 14029467366897019727
def p3 : Nat := 1609587929392839161
def p4 : Nat := 9650029242287828579
def p5 : Nat := 2870177450012600261

def round (acc input : Nat) : Nat := w64 (rotl (w64 (acc + input * p2)) 31 * p1)

def mergeRound (acc v : Nat) : Nat := w64 ((acc ^^^ round 0 v) * p1 + p4)

/-- The accumulators after every whole 32-byte stripe, and the bytes left. -/
def stripes : Nat → (Nat × Nat × Nat × Nat) → List UInt8 → (Nat × Nat × Nat × Nat) × List UInt8
  | 0, v, bs => (v, bs)
  | fuel + 1, (v1, v2, v3, v4), bs =>
    if bs.length < 32 then ((v1, v2, v3, v4), bs)
    else stripes fuel
      (round v1 (fromLe (slice bs 0 8)), round v2 (fromLe (slice bs 8 8)),
        round v3 (fromLe (slice bs 16 8)), round v4 (fromLe (slice bs 24 8))) (bs.drop 32)

/-- The bytes after the last whole stripe: eights, then a four, then ones. -/
def tail : Nat → Nat → List UInt8 → Nat
  | 0, h, _ => h
  | fuel + 1, h, bs =>
    if 8 ≤ bs.length then
      tail fuel (w64 (rotl (h ^^^ round 0 (fromLe (bs.take 8))) 27 * p1 + p4)) (bs.drop 8)
    else if 4 ≤ bs.length then
      tail fuel (w64 (rotl (h ^^^ w64 (fromLe (bs.take 4) * p1)) 23 * p2 + p3)) (bs.drop 4)
    else match bs with
      | [] => h
      | b :: bs => tail fuel (w64 (rotl (h ^^^ w64 (b.toNat * p5)) 11 * p1)) bs

def avalanche (h : Nat) : Nat :=
  let h := w64 ((h ^^^ h / 2 ^ 33) * p2)
  let h := w64 ((h ^^^ h / 2 ^ 29) * p3)
  h ^^^ h / 2 ^ 32

/-- `xxh64(bytes, 0)`. -/
def xxh64 (bs : List UInt8) : UInt64 :=
  let start : Nat × List UInt8 :=
    if bs.length < 32 then (p5, bs)
    else
      let ((v1, v2, v3, v4), rest) :=
        stripes bs.length (w64 (p1 + p2), p2, 0, w64 (2 ^ 64 - p1)) bs
      let h := w64 (rotl v1 1 + rotl v2 7 + rotl v3 12 + rotl v4 18)
      (mergeRound (mergeRound (mergeRound (mergeRound h v1) v2) v3) v4, rest)
  UInt64.ofNat (avalanche (tail bs.length (w64 (start.1 + bs.length)) start.2))

-- Published test values: the empty string and "abc".
example : xxh64 [] = 0xef46db3751d8e999 := by decide +kernel
example : xxh64 [97, 98, 99] = 0x44bc2cf5ad770999 := by decide +kernel

end Micius.Hashes

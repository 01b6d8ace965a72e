import Gloop.Foundation.BitString

/-!
# The 32-bit string hash of `jenkins.cc`

The legacy hash whose values are recorded in serialized data.
-/

namespace Gloop.Hash

open Gloop.Foundation

/-- `MIX32`. -/
def mix32Seed : BitVec 32 :=
  0x12b9b0a1#32

/-- `kIllegalHash32`. -/
def kIllegalHash32 : BitVec 32 :=
  0xffffffff#32

/-- `kPrimes32`. -/
def kPrimes32 : List (BitVec 32) :=
  [65537#32, 65539#32, 65543#32, 65551#32, 65557#32, 65563#32, 65579#32, 65581#32,
    65587#32, 65599#32, 65609#32, 65617#32, 65629#32, 65633#32, 65647#32, 65651#32]

/-- `mix(a, b, c)`. -/
def mix (a b c : BitVec 32) : BitVec 32 × BitVec 32 × BitVec 32 :=
  let a := (a - b - c) ^^^ (c >>> 13)
  let b := (b - c - a) ^^^ (a <<< 8)
  let c := (c - a - b) ^^^ (b >>> 13)
  let a := (a - b - c) ^^^ (c >>> 12)
  let b := (b - c - a) ^^^ (a <<< 16)
  let c := (c - a - b) ^^^ (b >>> 5)
  let a := (a - b - c) ^^^ (c >>> 3)
  let b := (b - c - a) ^^^ (a <<< 10)
  let c := (c - a - b) ^^^ (b >>> 15)
  (a, b, c)

/-- The loop of `Hash32StringWithSeedReferenceImplementation`, which takes two bytes a round. -/
def hashChunks (n : BitVec 32) (prime1 prime2 : Nat) : List Byte → BitVec 32
  | [] => n
  | [b] =>
    n * kPrimes32.getD prime1 0 ^^^ BitVec.ofNat 32 b.toNat * kPrimes32.getD prime2 0
  | b₀ :: b₁ :: bytes =>
    let chunk := BitVec.ofNat 32 (b₀.toNat + 256 * b₁.toNat)
    let n := n * kPrimes32.getD prime1 0 ^^^ chunk * kPrimes32.getD prime2 0
    hashChunks n ((prime1 + 1) % 16) ((prime2 + 1) % 16) bytes

/-- `Hash32StringWithSeedReferenceImplementation(s, len, seed)`. -/
def hash32StringWithSeedReferenceImplementation (s : List Byte) (seed : BitVec 32) : BitVec 32 :=
  hashChunks seed 0 8 s

/-- The loop of `Hash32StringWithSeed`, which takes twelve bytes a round. -/
def hashBlocks (s : List Byte) (b c : BitVec 32) : BitVec 32 :=
  if 12 < s.length then
    let a := hash32StringWithSeedReferenceImplementation (s.take 12) c
    let (_, b, c) := mix a b c
    hashBlocks (s.drop 12) b c
  else if 0 < s.length then
    let a := hash32StringWithSeedReferenceImplementation s c
    (mix a b c).2.2
  else c
termination_by s.length
decreasing_by
  rw [List.length_drop]
  omega

/-- `Hash32StringWithSeed(sv, seed)`. -/
def hash32StringWithSeed (sv : List Byte) (seed : BitVec 32) : BitVec 32 :=
  hashBlocks sv 0x12f905ff#32 seed

/-- `HashTo32(buf)`. -/
def hashTo32 (buf : List Byte) : BitVec 32 :=
  let retval := hash32StringWithSeed buf mix32Seed
  if retval = kIllegalHash32 then retval - 1#32 else retval

/-- A string of at most one block is mixed once. -/
theorem hash32StringWithSeed_short {s : List Byte} (hpos : 0 < s.length) (hle : s.length ≤ 12)
    (seed : BitVec 32) : hash32StringWithSeed s seed =
      (mix (hash32StringWithSeedReferenceImplementation s seed) 0x12f905ff#32 seed).2.2 := by
  rw [hash32StringWithSeed, hashBlocks, if_neg (by omega), if_pos hpos]

end Gloop.Hash

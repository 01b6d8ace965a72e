import Gloop.Coding.Varint.Model

/-!
# The pair coder of `two-values-varint.h` and `two-values-varint.cc`

The encoders append to a string and fail with `none` when they store outside of it. Growing the
string leaves its new bytes unspecified, so the encoders take those as the argument `uninit`. The
decoders return results as those of `Varint` do.
-/

namespace Gloop.Coding.TwoValuesVarint

open Gloop.Foundation Gloop.Coding.Varint

/-! ## Encoding -/

/-- The loop of `InterleaveNibbles`. -/
def interleaveLoop (a b : BitVec 32) (v : BitVec 64) (shift : Nat) : BitVec 64 :=
  if 0 < a.toNat ∨ 0 < b.toNat then
    let oneByte : Byte := ((a &&& 0xf#32) ||| ((b &&& 0xf#32) <<< 4)).setWidth 8
    interleaveLoop (a >>> 4) (b >>> 4) (v ||| (oneByte.setWidth 64 <<< shift)) (shift + 8)
  else v
termination_by a.toNat + b.toNat
decreasing_by
  simp only [BitVec.toNat_ushiftRight, Nat.shiftRight_eq_div_pow]
  omega

/-- `InterleaveNibbles(a, b)`. -/
def interleaveNibbles (a b : BitVec 32) : BitVec 64 :=
  interleaveLoop a b 0 0

/-- `Bits::Log2FloorNonZero128` of the number with the given halves. -/
def log2FloorNonZero128 (hi lo : BitVec 64) : Nat :=
  if hi ≠ 0 then 64 + (bitWidth hi - 1) else bitWidth lo - 1

/-- `Length128(hi, lo)`. -/
def length128 (lzcnt : Bool) (hi lo : BitVec 64) : Nat :=
  if hi = 0 then length64 lzcnt lo
  else (73 * log2FloorNonZero128 hi lo + 530) / 512

/-- The bytes that `Encode128` stores. -/
def encode128Bytes (hi lo : BitVec 64) : List Byte :=
  let B := 128#64
  (List.range 9).map (fun i => (lo >>> (7 * i) ||| B).setWidth 8) ++
    if hi.toNat < 1 <<< 6 then [(lo >>> 63 ||| hi <<< 1).setWidth 8]
    else (lo >>> 63 ||| hi <<< 1 ||| B).setWidth 8 :: Varint.encode64 (hi >>> 6)

/-- `Encode128(s, hi, lo)`. -/
def encode128 (lzcnt : Bool) (uninit : Nat → Byte) (s : List Byte) (hi lo : BitVec 64) :
    Option (List Byte) :=
  store (resizeUninitialized uninit s (length128 lzcnt hi lo)) s.length (encode128Bytes hi lo)

/-- `Varint::Append64(s, value)`. The flag says whether the string has room for another byte. -/
def append64 (lzcnt hasRoom : Bool) (uninit : Nat → Byte) (s : List Byte) (value : BitVec 64) :
    Option (List Byte) :=
  if value.toNat < 128 ∧ hasRoom then some (s ++ [value.setWidth 8])
  else store (resizeUninitialized uninit s (length64 lzcnt value)) s.length (Varint.encode64 value)

/-- `TwoValuesVarint::Encode32(s, a, b)`. -/
def encode32 (lzcnt hasRoom : Bool) (uninit : Nat → Byte) (s : List Byte) (a b : BitVec 32) :
    Option (List Byte) :=
  append64 lzcnt hasRoom uninit s (interleaveNibbles a b)

/-- `TwoValuesVarint::Encode64(s, a, b)`. -/
def encode64 (lzcnt hasRoom : Bool) (uninit : Nat → Byte) (s : List Byte) (a b : BitVec 64) :
    Option (List Byte) :=
  let lo := interleaveNibbles (a.setWidth 32) (b.setWidth 32)
  if (a ||| b) >>> 32 = 0 then append64 lzcnt hasRoom uninit s lo
  else
    let hi := interleaveNibbles ((a >>> 32).setWidth 32) ((b >>> 32).setWidth 32)
    encode128 lzcnt uninit s hi lo

/-! ## Decoding -/

/-- `GetBits(byte, offset, bits)`. -/
def getBits (byte : Byte) (offset bits : Nat) : BitVec 64 :=
  ((byte.setWidth 32 >>> offset) &&& (1#32 <<< bits - 1#32)).setWidth 64

/-- A result with the number of its bits that were read. -/
structure Partial (w : Nat) where
  res : BitVec w
  shift : Nat

/-- `PARSE_BITS_DECODE_TWO(shift, a, a_shift, b, b_shift)` after reading its byte. -/
def parseBitsDecodeTwo {w : Nat} (shift : Nat) (byte : Byte) (a b : Partial w) :
    Partial w × Partial w :=
  let res := b.res ||| (getBits byte 0 shift <<< b.shift).setWidth w
  (⟨a.res ||| (getBits byte shift 4 <<< a.shift).setWidth w, a.shift + 4⟩,
    ⟨res ||| (getBits byte (shift + 4) (3 - shift) <<< (b.shift + shift)).setWidth w, b.shift + 3⟩)

/-- Step `i` of the decoders. The two values change places after every fourth byte, and the last
byte only has bits of the second value. -/
def addTwo (w last lastShift : Nat) (i : Nat) (res : Partial w × Partial w) (byte : Byte) :
    Partial w × Partial w :=
  if i = last then
    (res.1, { res.2 with res := res.2.res ||| (byte.setWidth w <<< lastShift) })
  else if i / 4 % 2 = 0 then parseBitsDecodeTwo (i % 4) byte res.1 res.2
  else (parseBitsDecodeTwo (i % 4) byte res.2 res.1).swap

/-- What is stored at `done`. -/
def output {w : Nat} (res : (Partial w × Partial w) × Nat) : (BitVec w × BitVec w) × Nat :=
  ((res.1.1.res, res.1.2.res), res.2)

variable (buf : List Byte)

/-- `Decode32Internal`, with a limit that it respects if there is one. -/
def decode32Internal (ptr : Nat) (limit : Option Nat) :
    Option (Option ((BitVec 32 × BitVec 32) × Nat)) :=
  (scan buf limit (addTwo 32 9 31) 2 10 0 ptr (⟨0, 0⟩, ⟨0, 0⟩)).map (·.map output)

/-- `Decode64Internal`, with a limit that it respects if there is one. -/
def decode64Internal (ptr : Nat) (limit : Option Nat) :
    Option (Option ((BitVec 64 × BitVec 64) × Nat)) :=
  (scan buf limit (addTwo 64 18 62) 4 19 0 ptr (⟨0, 0⟩, ⟨0, 0⟩)).map (·.map output)

/-- `TwoValuesVarint::Decode32(ptr, a, b)`. -/
def decode32 (ptr : Nat) : Option (Option ((BitVec 32 × BitVec 32) × Nat)) := do
  let byte ← buf[ptr]?
  if byte.toNat < 128 then
    pure (some ((byte.setWidth 32 &&& 0xf#32, byte.setWidth 32 >>> 4), ptr + 1))
  else decode32Internal buf ptr none

/-- `TwoValuesVarint::Decode64(ptr, a, b)`. -/
def decode64 (ptr : Nat) : Option (Option ((BitVec 64 × BitVec 64) × Nat)) := do
  let byte ← buf[ptr]?
  if byte.toNat < 128 then
    pure (some ((byte.setWidth 64 &&& 0xf#64, byte.setWidth 64 >>> 4), ptr + 1))
  else decode64Internal buf ptr none

/-- `TwoValuesVarint::Decode32WithLimit(ptr, limit, a, b)`. -/
def decode32WithLimit (ptr limit : Nat) : Option (Option ((BitVec 32 × BitVec 32) × Nat)) :=
  if ptr + kMax64 ≤ limit then decode32 buf ptr else decode32Internal buf ptr (some limit)

/-- `kMax128`, the longest encoding of a pair of 64-bit values. -/
def kMax128 : Nat := 19

/-- `TwoValuesVarint::Decode64WithLimit(ptr, limit, a, b)`. -/
def decode64WithLimit (ptr limit : Nat) : Option (Option ((BitVec 64 × BitVec 64) × Nat)) :=
  if ptr + kMax128 ≤ limit then decode64 buf ptr else decode64Internal buf ptr (some limit)

end Gloop.Coding.TwoValuesVarint

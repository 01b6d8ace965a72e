import Gloop.Foundation.Base128

/-!
# The varint coder of `varint.h` and `varint.cc`

Encoders return the bytes that they store at their pointer, so the pointer they return is the given
one advanced by that number of bytes. Decoders read a buffer at a position. Their result is `none`
when they read outside the buffer, `some none` when the C++ function returns `nullptr`, and
otherwise the value and the position that it returns. The unrolled byte-by-byte decoders are
instances of `scan`. Where the source depends on the target there is a definition for each variant.
-/

namespace Gloop.Coding.Varint

open Gloop.Foundation

/-- The targets between which the source distinguishes. -/
inductive Arch
  | x86_64
  | other
deriving DecidableEq, Repr

/-- `kMax32`, the longest encoding of a 32-bit value. -/
def kMax32 : Nat := 5

/-- `kMax64`, the longest encoding of a 64-bit value. -/
def kMax64 : Nat := 10

/-! ## Encoding -/

/-- `Encode32Inline(ptr, v)`. -/
def encode32Inline (v : BitVec 32) : List Byte :=
  let B := 128#32
  if v.toNat < 1 <<< 7 then [v.setWidth 8]
  else if v.toNat < 1 <<< 14 then [(v ||| B).setWidth 8, (v >>> 7).setWidth 8]
  else if v.toNat < 1 <<< 21 then
    [(v ||| B).setWidth 8, (v >>> 7 ||| B).setWidth 8, (v >>> 14).setWidth 8]
  else if v.toNat < 1 <<< 28 then
    [(v ||| B).setWidth 8, (v >>> 7 ||| B).setWidth 8, (v >>> 14 ||| B).setWidth 8,
      (v >>> 21).setWidth 8]
  else
    [(v ||| B).setWidth 8, (v >>> 7 ||| B).setWidth 8, (v >>> 14 ||| B).setWidth 8,
      (v >>> 21 ||| B).setWidth 8, (v >>> 28).setWidth 8]

/-- `Encode32(ptr, v)`. -/
def encode32 (v : BitVec 32) : List Byte :=
  encode32Inline v

/-- `Encode64(ptr, v)`. -/
def encode64 (v : BitVec 64) : List Byte :=
  if v.toNat < 1 <<< 28 then encode32 (v.setWidth 32)
  else
    let x32 : BitVec 32 := (v ||| 1#64 <<< 7 ||| 1#64 <<< 21).setWidth 32
    let y32 : BitVec 32 := (v ||| 1#64 <<< 14 ||| 1#64 <<< 28).setWidth 32
    [x32.setWidth 8, (y32 >>> 7).setWidth 8, (x32 >>> 14).setWidth 8, (y32 >>> 21).setWidth 8] ++
      if v.toNat < 1 <<< 35 then [(v >>> 28).setWidth 8]
      else (v >>> 28 ||| 1#64 <<< 7).setWidth 8 :: encode32 ((v >>> 35).setWidth 32)

/-- `absl::bit_width(v)`. -/
def bitWidth {w : Nat} (v : BitVec w) : Nat :=
  if v.toNat = 0 then 0 else v.toNat.log2 + 1

/-- `absl::countl_zero(v)`. -/
def countlZero {w : Nat} (v : BitVec w) : Nat :=
  w - bitWidth v

/-- `LengthImpl(v)`. The flag says whether the target has the `lzcnt` instruction or is no x86. -/
def lengthImpl (lzcnt : Bool) {w : Nat} (v : BitVec w) : Nat :=
  if lzcnt then ((w * 9 + 64) - countlZero v * 9) >>> 6
  else (bitWidth (v ||| 1#w) * 9 + 64) / 64

/-- `Length32(v)`. -/
def length32 (lzcnt : Bool) (v : BitVec 32) : Nat :=
  lengthImpl lzcnt v

/-- `Length64(v)`. -/
def length64 (lzcnt : Bool) (v : BitVec 64) : Nat :=
  lengthImpl lzcnt v

/-! ## Decoding byte by byte -/

/-- The unrolled loop of the decoders. Each of the remaining `steps` reads a byte, unless that would
be at or past the limit, adds it to the result and stops at a byte below 128. At the last step the
byte must be below `bound`. -/
def scan {β : Type} (buf : List Byte) (limit : Option Nat) (add : Nat → β → Byte → β)
    (bound : Nat) : (steps i ptr : Nat) → β → Option (Option (β × Nat))
  | 0, _, _, _ => some none
  | steps + 1, i, ptr, result =>
    if limit.any (· ≤ ptr) then some none
    else do
      let b ← buf[ptr]?
      let result := add i result b
      if b.toNat < (if steps = 0 then bound else 128) then pure (some (result, ptr + 1))
      else scan buf limit add bound steps (i + 1) (ptr + 1) result

/-- `result |= (b & 127) << (7 * i)`. -/
def addBits (w : Nat) (i : Nat) (result : BitVec w) (b : Byte) : BitVec w :=
  result ||| ((b.setWidth w &&& 127#w) <<< (7 * i))

variable (buf : List Byte)

/-- `Parse32FallbackInline(p, OUTPUT)`. -/
def parse32FallbackInline (p : Nat) : Option (Option (BitVec 32 × Nat)) := do
  let byte ← buf[p]?
  scan buf none (addBits 32) 16 4 1 (p + 1) (byte.setWidth 32 &&& 127#32)

/-- `Parse32Inline(p, OUTPUT)`. -/
def parse32Inline (p : Nat) : Option (Option (BitVec 32 × Nat)) := do
  let byte ← buf[p]?
  if byte.toNat < 128 then pure (some (byte.setWidth 32, p + 1))
  else parse32FallbackInline buf p

/-- `Parse32(p, OUTPUT)`, which calls the same fallback out of line. -/
def parse32 (p : Nat) : Option (Option (BitVec 32 × Nat)) :=
  parse32Inline buf p

/-- `Parse32WithLimit(p, l, OUTPUT)`. -/
def parse32WithLimit (p l : Nat) : Option (Option (BitVec 32 × Nat)) :=
  scan buf (some l) (addBits 32) 16 5 0 p 0

/-- `Skip32(p)`. -/
def skip32 (p : Nat) : Option (Option Nat) :=
  (scan buf none (fun _ _ _ => ()) 16 5 0 p ()).map (·.map (·.2))

/-- `Skip32WithLimit(p, l)`. -/
def skip32WithLimit (p l : Nat) : Option (Option Nat) :=
  (scan buf (some l) (fun _ _ _ => ()) 16 5 0 p ()).map (·.map (·.2))

/-- `Skip64(p)`. -/
def skip64 (p : Nat) : Option (Option Nat) :=
  (scan buf none (fun _ _ _ => ()) 2 10 0 p ()).map (·.map (·.2))

/-- `Skip64WithLimit(p, l)`. -/
def skip64WithLimit (p l : Nat) : Option (Option Nat) :=
  (scan buf (some l) (fun _ _ _ => ()) 2 10 0 p ()).map (·.map (·.2))

/-! ## Decoding 64-bit values -/

/-- The result fragments of `Parse64Fallback`: bits 0..27, 28..55 and 56..63. -/
structure Fragments where
  res1 : BitVec 32
  res2 : BitVec 32
  res3 : BitVec 32

/-- `res |= (byte & 127) << (7 * k)` on the fragment that byte `i` belongs to. -/
def addFragment (i : Nat) (res : Fragments) (byte : Byte) : Fragments :=
  if i < 4 then { res with res1 := addBits 32 i res.res1 byte }
  else if i < 8 then { res with res2 := addBits 32 (i - 4) res.res2 byte }
  else { res with res3 := addBits 32 (i - 8) res.res3 byte }

/-- The value at `done3`. The shorter expressions at `done1` and `done2` leave out the fragments
that are still zero. -/
def Fragments.output (res : Fragments) : BitVec 64 :=
  res.res1.setWidth 64 ||| (res.res2.setWidth 64 <<< 28) ||| (res.res3.setWidth 64 <<< 56)

/-- `Parse64Fallback(p, OUTPUT)`, which other targets than x86-64 use. -/
def parse64Fallback (p : Nat) : Option (Option (BitVec 64 × Nat)) := do
  let byte ← buf[p]?
  let result ← scan buf none addFragment 2 9 1 (p + 1) ⟨byte.setWidth 32 &&& 127#32, 0, 0⟩
  pure (result.map fun r => (r.1.output, r.2))

/-- `SHLD(n)` on the sign-extended byte: shift it left and fill up with the high bits of `ones`. -/
def shld (n : Nat) (byte : Byte) (ones : BitVec 64) : BitVec 64 :=
  (byte.signExtend 64 <<< (n * 7)) ||| (ones >>> (64 - n * 7))

/-- Bytes 3 to 8 of `Parse64FallbackPair`. The three result registers take turns: byte `i` goes into
the one that waited longest, which is `a` here. -/
def parse64Rotate (buf : List Byte) (p : Nat) (ones : BitVec 64) :
    (steps i : Nat) → (a b c : BitVec 64) →
      Option (Option (BitVec 64 × Nat) ⊕ BitVec 64 × BitVec 64 × BitVec 64)
  | 0, _, a, b, c => some (.inr (a, b, c))
  | steps + 1, i, a, b, c => do
    let byte ← buf[p + i]?
    let a := a &&& shld i byte ones
    if !a.msb then pure (.inl (some (a &&& b &&& c, p + i + 1)))
    else parse64Rotate buf p ones steps (i + 1) b c a

/-- `Parse64FallbackPair(p, res1)`, which x86-64 uses. -/
def parse64FallbackPair (p : Nat) (res1 : BitVec 64) : Option (Option (BitVec 64 × Nat)) := do
  let ones := res1
  let res2 := shld 1 (← buf[p + 1]?) ones
  if !res2.msb then pure (some (res1 &&& res2, p + 2))
  else
    let res3 := shld 2 (← buf[p + 2]?) ones
    if !res3.msb then pure (some (res1 &&& res2 &&& res3, p + 3))
    else
      match ← parse64Rotate buf p ones 6 3 res1 res2 res3 with
      | .inl result => pure result
      | .inr (res1, res2, res3) =>
        let byte ← buf[p + 9]?
        if byte = 1#8 then pure (some (res1 &&& res2 &&& res3, p + 10))
        else if byte = 0#8 then
          pure (some (res1 &&& res2 &&& (res3 ^^^ (1#64 <<< 63)), p + 10))
        else pure none

/-- `Parse64(p, OUTPUT)`. -/
def parse64 (arch : Arch) (buf : List Byte) (p : Nat) : Option (Option (BitVec 64 × Nat)) := do
  let byte ← buf[p]?
  match arch with
  | .x86_64 =>
    if !byte.msb then pure (some (byte.signExtend 64, p + 1))
    else parse64FallbackPair buf p (byte.signExtend 64)
  | .other =>
    if byte.toNat < 128 then pure (some (byte.setWidth 64, p + 1))
    else parse64Fallback buf p

/-- The x86-64 step of `Parse64WithLimit`: `result = b` at first and then `result += (b - 1) << k`,
which also takes off the continuation bit of the byte before. -/
def addCarry (i : Nat) (result : BitVec 64) (b : Byte) : BitVec 64 :=
  if i = 0 then b.setWidth 64
  else result + ((b.setWidth 64 - 1#64) <<< (7 * i))

/-- `Parse64WithLimit(p, l, OUTPUT)`. The slow path starts less than ten bytes before the limit, so
there is no tenth step. -/
def parse64WithLimit (arch : Arch) (buf : List Byte) (p l : Nat) :
    Option (Option (BitVec 64 × Nat)) :=
  if p + kMax64 ≤ l then parse64 arch buf p
  else
    match arch with
    | .x86_64 => scan buf (some l) addCarry 128 9 0 p 0
    | .other => scan buf (some l) (addBits 64) 128 9 0 p 0

end Gloop.Coding.Varint

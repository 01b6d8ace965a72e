import Gloop.Coding.Coder

/-!
# The bit coder of `bitcoding.h` and `bitcoding.cc`

Encoder operations return the new state, or `none` when the byte coder has no room. Decoder
operations return `none` when they read outside the buffer, and otherwise the new state together
with the value, which is missing when the C++ function returns false.
-/

namespace Gloop.Coding.BitCoding

open Gloop.Foundation Gloop.Coding.Varint BitVec

/-! ## Words -/

/-- `BitEncoder::LowBits(val, nbits)`. Entry `k` of the table `mask_` has the `k` low bits set. -/
def lowBits (val : BitVec 64) (nbits : Nat) : BitVec 64 :=
  val &&& BitVec.ofNat 64 (2 ^ nbits - 1)

/-- `Bits::FindLSBSetNonZero64(n)`. -/
def findLSBSetNonZero64 (n : BitVec 64) : Nat :=
  (List.range 64).findIdx n.getLsbD

/-- `BitEncoder::BitsRequired64(x)`. -/
def bitsRequired64 (x : BitVec 64) : Nat :=
  (63 ^^^ countlZero (x ||| 1#64)) + 1

/-- `BitEncoder::FloorLogBase2(x)`. -/
def floorLogBase2 (x : BitVec 64) : Nat :=
  bitsRequired64 x - 1

/-! ## The encoder -/

/-- A `BitEncoder`: the byte coder and the bits that are not yet in it. -/
structure BitEncoder where
  encoder : Encoder
  buf : BitVec 64
  nbuf : Nat
deriving DecidableEq, Repr

namespace BitEncoder

/-- `BitEncoder(buf, size)`. -/
def make (size : Nat) : BitEncoder :=
  ⟨⟨size, []⟩, 0, 0⟩

variable (e : BitEncoder)

/-- `Bits()`. -/
def bits : Nat :=
  e.encoder.length * 8 + e.nbuf

/-- `PutBitsInternal(x, nbits)`. -/
def putBitsInternal (x : BitVec 64) (nbits : Nat) : Option BitEncoder := do
  let val := lowBits x nbits
  let buf := e.buf ||| (val <<< e.nbuf)
  let nbuf := e.nbuf + nbits
  if 64 ≤ nbuf then
    let encoder ← e.encoder.put64 buf
    let nbuf := nbuf - 64
    pure ⟨encoder, if nbuf = 0 then 0 else val >>> (nbits - nbuf), nbuf⟩
  else pure ⟨e.encoder, buf, nbuf⟩

/-- `PutBits(x, nbits)`. -/
def putBits (x : BitVec 32) (nbits : Nat) : Option BitEncoder :=
  e.putBitsInternal (x.setWidth 64) nbits

/-- `PutBits64(x, nbits)`. -/
def putBits64 (x : BitVec 64) (nbits : Nat) : Option BitEncoder :=
  e.putBitsInternal x nbits

/-- `PutBits128(x, nbits)`. -/
def putBits128 (x : BitVec 128) (nbits : Nat) : Option BitEncoder := do
  let nbitsLo := min nbits 64
  let e ← e.putBitsInternal (x.setWidth 64) nbitsLo
  if 64 < nbits then e.putBitsInternal ((x >>> 64).setWidth 64) (nbits - 64) else pure e

/-- The loop of `Flush`, which writes the whole bytes of the buffer. -/
def flushBytes (encoder : Encoder) (buf : BitVec 64) (nbuf : Nat) : Option BitEncoder :=
  if 8 ≤ nbuf then do
    let encoder ← encoder.put8 (buf.setWidth 8)
    flushBytes encoder (buf >>> 8) (nbuf - 8)
  else some ⟨encoder, buf, nbuf⟩
termination_by nbuf

/-- `Flush(left_over_bit_value)`. -/
def flush (leftOverBitValue : Bool) : Option BitEncoder := do
  let mask := if leftOverBitValue then allOnes 32 else 0
  let e ← e.putBits mask (7 - (e.nbuf + 7) % 8)
  flushBytes e.encoder e.buf e.nbuf

/-- `Flush64(left_over_bit_value)`. -/
def flush64 (leftOverBitValue : Bool) : Option BitEncoder := do
  if e.nbuf = 0 then pure e
  else
    let pad := if leftOverBitValue then allOnes 64 else 0
    let encoder ← e.encoder.put64 (e.buf ||| (pad <<< e.nbuf))
    pure ⟨encoder, 0, 0⟩

/-- The loop `while (x > 64)` of the unary codes. -/
def putWords (word : BitVec 64) (encoder : Encoder) (x : Nat) : Option (Encoder × Nat) :=
  if 64 < x then do
    let encoder ← encoder.put64 word
    putWords word encoder (x - 64)
  else some (encoder, x)
termination_by x

/-- The end of the unary codes: a full buffer is written out. -/
def emitFull : Option BitEncoder := do
  if e.nbuf = 64 then
    let encoder ← e.encoder.put64 e.buf
    pure ⟨encoder, 0, 0⟩
  else pure e

/-- `1ULL << (n - 1)`, which is defined if `n` is from 1 to 64. -/
def topBit (n : Nat) : Option (BitVec 64) :=
  if 0 < n ∧ n ≤ 64 then some (1#64 <<< (n - 1)) else none

/-- `PutUnary(x)`. The sum is one of `uint32_t`. -/
def putUnary (x : BitVec 32) : Option BitEncoder := do
  let nbuf := (BitVec.ofNat 32 e.nbuf + x).toNat
  if nbuf ≤ 64 then
    let top ← topBit x.toNat
    emitFull ⟨e.encoder, e.buf ||| ((top - 1#64) <<< e.nbuf), nbuf⟩
  else
    let encoder ← e.encoder.put64 (e.buf ||| (allOnes 64 <<< e.nbuf))
    let x := x - BitVec.ofNat 32 (64 - e.nbuf)
    let (encoder, x) ← putWords (allOnes 64) encoder x.toNat
    let top ← topBit x
    emitFull ⟨encoder, top - 1#64, x⟩

/-- `PutInvertedUnary(x)`. -/
def putInvertedUnary (x : BitVec 32) : Option BitEncoder := do
  let nbuf := (BitVec.ofNat 32 e.nbuf + x).toNat
  if nbuf ≤ 64 then
    let top ← topBit nbuf
    emitFull ⟨e.encoder, e.buf ||| top, nbuf⟩
  else
    let encoder ← e.encoder.put64 e.buf
    let x := x - BitVec.ofNat 32 (64 - e.nbuf)
    let (encoder, x) ← putWords 0 encoder x.toNat
    let top ← topBit x
    emitFull ⟨encoder, top, x⟩

/-- `InternalPutGamma(x)`. -/
def internalPutGamma (x : BitVec 32) : Option BitEncoder := do
  let logX := floorLogBase2 (x.setWidth 64)
  let e ← e.putUnary (BitVec.ofNat 32 (1 + logX))
  e.putBits x logX

/-- `PutRice(k, x)`. -/
def putRice (k : Nat) (x : BitVec 32) : Option BitEncoder := do
  let e ← e.putUnary (1#32 + (x >>> k))
  e.putBits x k

end BitEncoder

/-! ## The decoder -/

/-- A `BitDecoder`: the byte coder and the bits that were read from it but not consumed. -/
structure BitDecoder where
  decoder : Decoder
  buf : BitVec 64
  nbuf : Nat
deriving DecidableEq, Repr

namespace BitDecoder

/-- `BitDecoder(buf, size)`. -/
def make (bytes : List Byte) : BitDecoder :=
  ⟨⟨bytes, 0⟩, 0, 0⟩

variable (d : BitDecoder)

/-- `BitsDecoded()`. -/
def bitsDecoded : Nat :=
  d.decoder.pos * 8 - d.nbuf

/-- The loop of `RefillBuffer` for the last bytes. -/
def refillTail (decoder : Decoder) (buf : BitVec 64) (nbuf : Nat) : Nat → Option BitDecoder
  | 0 => some ⟨decoder, buf, nbuf⟩
  | av + 1 => do
    let (b, decoder) ← decoder.get8
    refillTail decoder (buf ||| (b.setWidth 64 <<< nbuf)) (nbuf + 8) av

/-- `RefillBuffer()`. -/
def refillBuffer : Option BitDecoder := do
  let av := d.decoder.avail
  if 8 ≤ av then
    let (buf, decoder) ← d.decoder.get64
    pure ⟨decoder, buf, 64⟩
  else refillTail d.decoder 0 0 av

/-- `GetBits(nbits, x)`. -/
def getBits (nbits : Nat) : Option (Option (BitVec 32) × BitDecoder) := do
  if nbits ≤ d.nbuf then
    pure (some ((lowBits d.buf nbits).setWidth 32), ⟨d.decoder, d.buf >>> nbits, d.nbuf - nbits⟩)
  else
    let remain := nbits - d.nbuf
    let first := d.buf
    let d ← d.refillBuffer
    if d.nbuf < remain then pure (none, d)
    else
      let second := lowBits d.buf remain
      pure (some ((first ||| (second <<< (nbits - remain))).setWidth 32),
        ⟨d.decoder, d.buf >>> remain, d.nbuf - remain⟩)

/-- `GetBits64(nbits, x)`. -/
def getBits64 (nbits : Nat) : Option (Option (BitVec 64) × BitDecoder) := do
  if nbits ≤ d.nbuf then
    pure (some (lowBits d.buf nbits), ⟨d.decoder, d.buf >>> nbits, d.nbuf - nbits⟩)
  else
    let remain := nbits - d.nbuf
    let first := d.buf
    let d ← d.refillBuffer
    if d.nbuf < remain then pure (none, d)
    else
      let second := lowBits d.buf remain
      let nbuf := d.nbuf - remain
      pure (some (first ||| (second <<< (nbits - remain))),
        ⟨d.decoder, if nbuf = 0 then 0 else d.buf >>> remain, nbuf⟩)

/-- The position of the lowest zero bit of the buffer, if it is one of the `nbuf_` bits. -/
def findZero : Option Nat :=
  if ~~~d.buf = 0 then none
  else
    let bitIndex := findLSBSetNonZero64 (~~~d.buf)
    if bitIndex < d.nbuf then some bitIndex else none

/-- One round of the loop of `GetUnary`. -/
def getUnaryStep (state : BitDecoder × BitVec 32) :
    Option ((BitDecoder × BitVec 32) ⊕ (Option (BitVec 32) × BitDecoder)) := do
  let (d, result) := state
  match d.findZero with
  | some bitIndex =>
    pure (.inr (some (result + BitVec.ofNat 32 (bitIndex + 1)),
      ⟨d.decoder, d.buf >>> bitIndex >>> 1, d.nbuf - (bitIndex + 1)⟩))
  | none =>
    let result := result + BitVec.ofNat 32 d.nbuf
    let d ← d.refillBuffer
    if 0 < d.nbuf then pure (.inl (d, result)) else pure (.inr (none, d))

/-- `GetUnary(x)`. -/
def getUnary : Option (Option (BitVec 32) × BitDecoder) := do
  match d.findZero with
  | some bitIndex =>
    pure (some (BitVec.ofNat 32 (bitIndex + 1)),
      ⟨d.decoder, d.buf >>> (bitIndex + 1), d.nbuf - (bitIndex + 1)⟩)
  | none =>
    let result := BitVec.ofNat 32 d.nbuf
    let d ← d.refillBuffer
    if d.nbuf = 0 then pure (none, d) else iterate getUnaryStep (d, result)

/-- One round of the loop of `GetInvertedUnary`. -/
def getInvertedUnaryStep (state : BitDecoder × BitVec 32) :
    Option ((BitDecoder × BitVec 32) ⊕ (Option (BitVec 32) × BitDecoder)) := do
  let (d, result) := state
  if d.buf ≠ 0 then
    let bitIndex := findLSBSetNonZero64 d.buf + 1
    if bitIndex = 64 then
      pure (.inr (some (result + BitVec.ofNat 32 bitIndex), ⟨d.decoder, 0, 0⟩))
    else
      pure (.inr (some (result + BitVec.ofNat 32 bitIndex),
        ⟨d.decoder, d.buf >>> bitIndex, d.nbuf - bitIndex⟩))
  else
    let result := result + BitVec.ofNat 32 d.nbuf
    let d ← d.refillBuffer
    if d.nbuf = 0 then pure (.inr (none, d)) else pure (.inl (d, result))

/-- `GetInvertedUnary(x)`. -/
def getInvertedUnary : Option (Option (BitVec 32) × BitDecoder) :=
  iterate getInvertedUnaryStep (d, 0)

/-- `GetGamma(x)`. -/
def getGamma : Option (Option (BitVec 32) × BitDecoder) := do
  match ← d.getUnary with
  | (none, d) => pure (none, d)
  | (some len, d) =>
    let logX := len - 1#32
    if 32 ≤ logX.toNat then pure (none, d)
    else
      match ← d.getBits logX.toNat with
      | (none, d) => pure (none, d)
      | (some val, d) => pure (some (val + (1#32 <<< logX.toNat)), d)

/-- `GetRice(k, x)`. -/
def getRice (k : Nat) : Option (Option (BitVec 32) × BitDecoder) := do
  match ← d.getUnary with
  | (none, d) => pure (none, d)
  | (some hi, d) =>
    match ← d.getBits k with
    | (none, d) => pure (none, d)
    | (some lo, d) => pure (some (((hi - 1#32) <<< k) + lo), d)

/-- `AvailBits()`. -/
def availBits : Nat :=
  d.nbuf + 8 * d.decoder.avail

/-- The loop of `EnsureBits`. The byte is shifted as an `int`. -/
def fillBits (d : BitDecoder) (k : Nat) : Option BitDecoder :=
  if d.nbuf < k then do
    let (b, decoder) ← d.decoder.get8
    fillBits ⟨decoder, d.buf ||| (b.setWidth 32 <<< d.nbuf).signExtend 64, d.nbuf + 8⟩ k
  else some d
termination_by k - d.nbuf

/-- `EnsureBits(k)`, without the value of `buf_` that it returns. It fails where its assertions
do. -/
def ensureBits (k : Nat) : Option BitDecoder :=
  if k ≤ 24 ∧ k ≤ d.availBits then d.fillBits k else none

/-- `ConsumeBits(k)`. It fails where its assertion does. -/
def consumeBits (k : Nat) : Option BitDecoder :=
  if k ≤ d.nbuf then some ⟨d.decoder, d.buf >>> k, d.nbuf - k⟩ else none

end BitDecoder

/-! ## The gamma table -/

namespace BitEncoder

/-- `kGammaTableLength`. -/
def kGammaTableLength : Nat := 256

/-- Entry `i` of `gamma_`, as `Initialize` computes it in a buffer of eight zero bytes. -/
def gammaTable (i : Nat) : Option (BitVec 32) := do
  if i = 0 then pure 0
  else
    let be ← (make 8).internalPutGamma (BitVec.ofNat 32 i)
    let bits := be.bits
    let be ← be.flush false
    let buf := be.encoder.bytes ++ List.replicate (8 - be.encoder.length) 0
    let (value, _) ← (BitDecoder.make buf).getBits bits
    let value := value.getD 0
    if value &&& 0xffffff#32 = value then pure ((BitVec.ofNat 32 bits <<< 24) ||| value) else none

/-- `PutGamma(x)`. -/
def putGamma (e : BitEncoder) (x : BitVec 32) : Option BitEncoder := do
  if x.toNat < kGammaTableLength then
    let value ← gammaTable x.toNat
    e.putBits value (value >>> 24).toNat
  else e.internalPutGamma x

end BitEncoder

end Gloop.Coding.BitCoding

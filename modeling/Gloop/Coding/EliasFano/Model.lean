import Gloop.Coding.EliasFano.Options
import Gloop.Coding.LittleEndian
import Gloop.Foundation.RankSelect

/-!
# The encoders of `elias_fano/coding.cc`

The memory of an encoder is the list of bytes of its span, and its pointers are offsets into it. An
access outside the span, a failed `CHECK` or `RET_CHECK` and a failed debug check are `none`.
Positions and counts are numbers that are cut where the source narrows them; `sub64` is subtraction
in `uint64_t`. The layouts are those of `absl::container_internal::Layout`, whose arrays follow one
another with the padding that their alignment asks for.
-/

namespace Gloop.Coding.EliasFano

open Gloop.Foundation Gloop.Coding.LittleEndian

/-- Subtraction of `uint64_t`. -/
def sub64 (a b : Nat) : Nat :=
  (a + (2 ^ 64 - b)) % 2 ^ 64

/-! ## Layouts -/

/-- Where the arrays of an encoding start. -/
structure Pointers where
  high : Nat
  low : Nat
  dense1 : Nat
  dense0 : Nat
  sparse : Nat
deriving DecidableEq, Repr

/-- A layout: its pointers, the end of the low bits and the end of all arrays. -/
structure Layout where
  pointers : Pointers
  lowEnd : Nat
  allocSize : Nat
deriving DecidableEq, Repr

/-- `sizeof(DenseEntry)`. -/
def denseEntrySize : Nat := 20

/-- The next multiple of the alignment. -/
def alignUp (n align : Nat) : Nat :=
  (n + align - 1) / align * align

/-- `MakeL1(opts, sparse_size)`, for version 1. -/
def makeL1 (lzcnt : Bool) (opts : Options) (sparseSize : Nat) : Layout :=
  let dense1 := alignUp (opts.encodingLength lzcnt) 4
  let dense0 := dense1 + denseEntrySize * opts.oneDenseSize
  let high := dense0 + denseEntrySize * opts.zeroDenseSize
  let low := high + opts.highBytes
  let lowEnd := low + opts.lowBytes
  let sparse := alignUp lowEnd 4
  { pointers := { high, low, dense1, dense0, sparse }, lowEnd,
    allocSize := sparse + 4 * sparseSize }

/-- `MakeL2(opts, sparse_size)`. -/
def makeL2 (lzcnt : Bool) (opts : Options) (sparseSize : Nat) : Layout :=
  let high := opts.encodingLength lzcnt
  let low := high + opts.highBytes
  let lowEnd := low + opts.lowBytes
  let dense1 := lowEnd
  let dense0 := dense1 + denseEntrySize * opts.oneDenseSize
  let sparse := dense0 + denseEntrySize * opts.zeroDenseSize
  { pointers := { high, low, dense1, dense0, sparse }, lowEnd,
    allocSize := sparse + 4 * sparseSize }

/-- `AllocSizeWithSlop(layout)`. -/
def allocSizeWithSlop (layout : Layout) : Nat :=
  max layout.allocSize (layout.lowEnd + 7)

/-- `EncodedSize(opts, num_sparse)`. -/
def encodedSize (lzcnt : Bool) (opts : Options) (numSparse : Nat) : Nat :=
  if opts.version = 1 then allocSizeWithSlop (makeL1 lzcnt opts numSparse)
  else allocSizeWithSlop (makeL2 lzcnt opts numSparse)

/-- `MaxEncodingBytes(opts)`. -/
def maxEncodingBytes (lzcnt : Bool) (opts : Options) : Nat :=
  allocSizeWithSlop (makeL2 lzcnt opts opts.maxSparseSize)

/-! ## `Encoder` -/

/-- The state of an `Encoder`. -/
structure Encoder where
  opts : Options
  mem : List Byte
  ptr : Pointers
  lowMask : BitVec 64
  lastValue : BitVec 64
  actualBytes : Nat
  size : Nat
deriving DecidableEq, Repr

namespace Encoder

/-- `Encoder(opts, span)`. -/
def new (lzcnt : Bool) (opts : Options) (span : List Byte) : Option Encoder :=
  if span.length < maxEncodingBytes lzcnt opts then none
  else do
    let mem ← opts.encode lzcnt (List.replicate span.length 0#8)
    pure
      { opts, mem, ptr := (makeL2 lzcnt opts opts.maxSparseSize).pointers
        lowMask := (1#64 <<< opts.width) - 1#64, lastValue := 0, actualBytes := 0, size := 0 }

variable (e : Encoder)

/-- `Encode56(i, value)`. -/
def encode56 (i : Nat) (value : BitVec 64) : Option Encoder :=
  if e.opts.width = 0 then some e
  else do
    guard (value &&& ~~~e.lowMask = 0#64)
    let pos := i * e.opts.width
    let ptr := e.ptr.low + pos / 8
    let word ← load64 e.mem ptr
    let word := word &&& ~~~(e.lowMask <<< (pos % 8))
    let word := word ||| (value <<< (pos % 8))
    let mem ← store64 e.mem ptr word
    pure { e with mem }

/-- `SetBit(pos)`. -/
def setBit (pos : Nat) : Option Encoder := do
  let byte ← e.mem[e.ptr.high + pos / 8]?
  let mem ← store e.mem (e.ptr.high + pos / 8) [byte ||| (1#8 <<< (pos % 8))]
  pure { e with mem }

/-- `UnsetBit(pos)`. -/
def unsetBit (pos : Nat) : Option Encoder := do
  let byte ← e.mem[e.ptr.high + pos / 8]?
  let mem ← store e.mem (e.ptr.high + pos / 8) [byte &&& ~~~(1#8 <<< (pos % 8))]
  pure { e with mem }

/-- `Append(v)`. -/
def append (v : BitVec 64) : Option Encoder := do
  guard (e.lastValue ≤ v)
  guard (v ≤ e.opts.maxValue)
  guard (e.size ≠ e.opts.size)
  let pos := e.size + (v >>> e.opts.width).toNat
  let e ← e.setBit pos
  let e ← e.encode56 e.size (v &&& e.lowMask)
  pure { e with size := (e.size + 1) % 2 ^ 32, lastValue := v }

/-! ### The indexes -/

variable (one : Bool)

/-- A word of the high bits, negated when zeros are looked for. -/
def loadHigh (mem : List Byte) (high byte : Nat) : Option (BitVec 64) := do
  let word ← load64 mem (high + byte)
  pure (if one then word else ~~~word)

/-- The variables `byte` and `high` of `BuildIndex`. -/
structure Cursor where
  byte : Nat
  high : BitVec 64
deriving DecidableEq, Repr

/-- A round of the loop of `next_pos`, whose last round takes the lowest bit off the word. -/
def nextPosStep (e : Encoder) (cursor : Cursor) : Option (Cursor ⊕ Nat × Cursor) :=
  if cursor.high = 0#64 then do
    let byte := cursor.byte + 8
    let high ← loadHigh one e.mem e.ptr.high byte
    pure (.inl { byte, high })
  else
    some (.inr (cursor.byte * 8 + countrZero cursor.high,
      { cursor with high := cursor.high &&& (cursor.high - 1#64) }))

/-- `next_pos` of `BuildIndex`. -/
def nextPos (e : Encoder) (cursor : Cursor) : Option (Nat × Cursor) :=
  iterate (e.nextPosStep one) cursor

/-- `entry->delta[i].Store(deltas[i * kD2])`. -/
def writeDelta (entry : Nat) (deltas : List Nat) (mem : List Byte) (i : Nat) :
    Option (List Byte) := do
  let delta ← deltas[i * kD2]?
  storeUnaligned 2 mem (entry + 4 + 2 * i) delta

/-- The dense entry that `WriteDeltas` writes. -/
def writeDense (mem : List Byte) (entry base : Nat) (deltas : List Nat) : Option (List Byte) := do
  let mem ← storeUnaligned 4 mem entry base
  (List.range (deltas.length / kD2)).foldlM (writeDelta entry deltas) mem

/-- The sparse entry for element `i` of a block, after which the sparse size is counted up. -/
def writeSparseEntry (base start : Nat) (deltas : List Nat) :
    List Byte × Nat → Nat → Option (List Byte × Nat)
  | (mem, sparseSize), i => do
    let rank := (start + i) % 2 ^ 32
    let delta ← deltas[i]?
    let value := sub64 (base + delta) rank
    guard (value ≤ 2 ^ 32 - 1)
    let mem ← storeUnaligned 4 mem (e.ptr.sparse + 4 * sparseSize) value
    let sparseSize := (sparseSize + 1) % 2 ^ 32
    guard (sparseSize ≤ e.opts.maxSparseSize)
    pure (mem, sparseSize)

/-- The sparse entries that `WriteDeltas` writes. -/
def writeSparse (base start : Nat) (deltas : List Nat) (mem : List Byte)
    (sparseSize : Nat) : Option (List Byte × Nat) :=
  (List.range kD1).foldlM (e.writeSparseEntry base start deltas) (mem, sparseSize)

/-- `WriteDeltas(base, deltas, dense, dense_idx, sparse_size)`, with the new sparse size. -/
def writeDeltas (base : Nat) (deltas : List Nat) (dense denseIdx sparseSize : Nat) :
    Option (Encoder × Nat) := do
  guard (deltas.length = kD1)
  let entry := dense + denseEntrySize * denseIdx
  let start := denseIdx * kD1 % 2 ^ 32
  guard (start ≤ base)
  let back ← deltas.getLast?
  if back < kR then
    let base := sub64 base start
    guard (base ≤ 2 ^ 32 - 1)
    let mem ← writeDense e.mem entry base deltas
    pure ({ e with mem }, sparseSize)
  else
    let mem ← storeUnaligned 4 e.mem entry sparseSize
    let mem ← storeUnaligned 2 mem (entry + 4) (2 ^ 16 - 1)
    let (mem, sparseSize) ← e.writeSparse base start deltas mem sparseSize
    pure ({ e with mem }, sparseSize)

/-- The variables of the loop of `BuildIndex`. -/
structure Build where
  enc : Encoder
  sparseSize : Nat
  i : Nat
  deltas : List Nat
  cursor : Cursor
  base : Nat
  pos : Nat
deriving DecidableEq, Repr

/-- Write the block that is full, if one is, and start the next. -/
def Build.flush (dense : Nat) (b : Build) : Option Build :=
  if b.deltas.length = kD1 then do
    let (enc, sparseSize) ← b.enc.writeDeltas b.base b.deltas dense b.i b.sparseSize
    pure { b with enc, sparseSize, i := b.i + 1, base := b.pos, deltas := [] }
  else some b

/-- A round of the loop of `BuildIndex`. -/
def Build.step (dense : Nat) (b : Build) : Option (Build ⊕ Build) :=
  if b.pos = b.enc.opts.bits then some (.inr b)
  else do
    let b ← b.flush dense
    let b := { b with deltas := b.deltas ++ [sub64 b.pos b.base] }
    let (pos, cursor) ← b.enc.nextPos one b.cursor
    pure (.inl { b with pos, cursor })

/-- `deltas.resize(n, value)`. -/
def resize (deltas : List Nat) (n value : Nat) : List Nat :=
  deltas.take n ++ List.replicate (n - deltas.length) value

/-- `BuildIndex<One>(dense, sparse_size)`, with the new sparse size. -/
def buildIndex (e : Encoder) (dense sparseSize : Nat) : Option (Encoder × Nat) :=
  if one = false ∧ e.opts.zeroBits = 0 then some (e, sparseSize)
  else do
    let e ← if one then some e else e.unsetBit e.opts.bits
    let high ← loadHigh one e.mem e.ptr.high 0
    let (base, cursor) ← e.nextPos one { byte := 0, high }
    let b ← iterate (Build.step one dense)
      { enc := e, sparseSize, i := 0, deltas := [], cursor, base, pos := base }
    let deltas := resize b.deltas kD1 (sub64 e.opts.bits b.base)
    let e ← if one then some b.enc else b.enc.setBit e.opts.bits
    e.writeDeltas b.base deltas dense b.i b.sparseSize

/-- `Finalize()`. -/
def finalize (lzcnt : Bool) (e : Encoder) : Option (Encoder × Nat) := do
  guard (e.actualBytes = 0)
  guard (e.lastValue = e.opts.maxValue)
  guard (e.size = e.opts.size)
  let e ← e.setBit e.opts.bits
  let (e, sparseSize) ←
    if e.opts.hasIndex .ones then e.buildIndex true e.ptr.dense1 0 else some (e, 0)
  let (e, sparseSize) ←
    if e.opts.hasIndex .zeros then e.buildIndex false e.ptr.dense0 sparseSize
    else some (e, sparseSize)
  let actualBytes := encodedSize lzcnt e.opts sparseSize
  pure ({ e with actualBytes }, actualBytes)

end Encoder

/-! ## `Encoder2` -/

/-- The state of an `Encoder2`, whose version is always `VERSION3`. -/
structure Encoder2 where
  valsEnc : Coding.Encoder
  index : IndexChoice
  numVals : Nat
  minDelta : BitVec 64
  maxVal : BitVec 64
deriving DecidableEq, Repr

namespace Encoder2

/-- `Encoder2(index)`. -/
def new (index : IndexChoice) : Encoder2 :=
  { valsEnc := { capacity := 0, bytes := [] }, index, numVals := 0, minDelta := BitVec.allOnes 64
    maxVal := 0 }

variable (target : Target)

/-- `enc_val` of `Append`. -/
def encVal (e : Encoder2) (val : BitVec 64) : Option Encoder2 := do
  let valsEnc := e.valsEnc.ensure target.slack (Varint.length64 target.lzcnt val)
  let valsEnc ← valsEnc.putVarint64 target.lzcnt val
  pure { e with valsEnc }

/-- The loop of `Append`, with false where it returns. -/
def appendLoop (target : Target) : Encoder2 → List (BitVec 64) → Option (Bool × Encoder2)
  | e, [] => some (true, e)
  | e, v :: values =>
    if v < e.maxVal then some (false, e)
    else do
      let delta := v - e.maxVal
      let e := { e with minDelta := if delta < e.minDelta then delta else e.minDelta }
      let e ← e.encVal target delta
      appendLoop target { e with maxVal := v } values

/-- The part of `Append` after the first value was taken off. -/
def appendRest (e : Encoder2) (values : List (BitVec 64)) : Option (Bool × Encoder2) := do
  let (ok, e) ← appendLoop target e values
  if ok then pure (true, { e with numVals := (e.numVals + values.length) % 2 ^ 32 })
  else pure (false, e)

/-- `Append(values)`. -/
def append (e : Encoder2) (values : List (BitVec 64)) : Option (Bool × Encoder2) :=
  match values with
  | [] => some (true, e)
  | front :: rest =>
    if e.numVals = 0 then do
      let e ← { e with maxVal := front }.encVal target front
      appendRest target { e with numVals := (e.numVals + 1) % 2 ^ 32 } rest
    else appendRest target e (front :: rest)

/-- `GetOptions(size, max_val, index, version)`. -/
def getOptions (size : Nat) (maxVal : BitVec 64) (index : IndexChoice) : Option Options := do
  let opts ← Options.new size maxVal
  let opts ← opts.setVersion 3
  pure (opts.indexes index.toNat)

/-- The loop of `FinalizeToStr` with `count` rounds to go. -/
def feed (arch : Varint.Arch) :
    (count : Nat) → Coding.Decoder → BitVec 64 → Encoder → Option Encoder
  | 0, _, _, encoder => some encoder
  | count + 1, dec, value, encoder => do
    let (delta, dec) ← (dec.getVarint64 arch).join
    let value := value + delta
    let encoder ← encoder.append value
    feed arch count dec value encoder

/-- `FinalizeToStr()`. The bytes of the new string are not known before the encoder clears them. -/
def finalizeToStr (uninit : Nat → Byte) (e : Encoder2) : Option (Encoder2 × List Byte) := do
  let opts ← getOptions e.numVals e.maxVal e.index
  let encoded := resizeUninitialized uninit [] (maxEncodingBytes target.lzcnt opts)
  let encoder ← Encoder.new target.lzcnt opts encoded
  let encoder ← feed target.arch e.numVals { buf := e.valsEnc.bytes, pos := 0 } 0 encoder
  let (encoder, size) ← encoder.finalize target.lzcnt
  let encoded := encoder.mem.take size ++ List.replicate (size - encoder.mem.length) 0#8
  pure ({ e with valsEnc := { capacity := 0, bytes := [] } }, encoded)

end Encoder2

end Gloop.Coding.EliasFano

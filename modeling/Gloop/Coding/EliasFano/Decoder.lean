import Gloop.Coding.EliasFano.Model
import Gloop.Coding.EliasFano.Nthbit

/-!
# `Decoder` and `ForwardDecoder` of `elias_fano/coding.h`

The span of a decoder is the list of its bytes, and a load that is not inside of it is `none`, as is
a failed debug check. `Index` is `uint32_t` and `BitPos` is `uint64_t`: indexes are cut to 32 bits
where the source narrows a position, and positions are far below 64 bits. A `ForwardDecoder` has the
members of a `Decoder`, a mask for the low bits, and a position that its methods move forward: the
index of an element, where its one is, and a word of the high bits around it. Only the position
changes, so the methods are functions of it.
-/

namespace Gloop.Coding.EliasFano

open Gloop.Foundation Gloop.Coding.LittleEndian

/-- Subtraction of `uint32_t`. -/
def sub32 (a b : Nat) : Nat :=
  (a + (2 ^ 32 - b)) % 2 ^ 32

/-- `IsProperlyAligned(span)`, for a span at address `addr`. -/
def isProperlyAligned (addr : Nat) (span : List Byte) : Bool :=
  span.isEmpty || addr % min (2 ^ Nat.log2 span.length) 8 == 0

/-- A `Decoder`. -/
structure Decoder where
  opts : Options
  mem : List Byte
  ptr : Pointers
deriving DecidableEq, Repr

namespace Decoder

/-- `Decoder(span, opts)`. -/
def new (lzcnt : Bool) (span : List Byte) (opts : Options) : Decoder :=
  if opts.version = 1 then
    { opts, mem := span, ptr := (makeL1 lzcnt opts opts.maxSparseSize).pointers }
  else { opts, mem := span, ptr := (makeL2 lzcnt opts opts.maxSparseSize).pointers }

variable (target : Target)

/-- `Make(span)`. -/
def make (addr : Nat) (span : List Byte) : Option Decoder := do
  let opts ← Options.decode target.arch span
  guard (¬(opts.version ≤ 1 ∧ isProperlyAligned addr span = false))
  pure (new target.lzcnt span opts)

variable (d : Decoder)

/-- `size()`. -/
def size : Nat :=
  d.opts.size

variable (bmi2 : Bool)

/-- `LowBits(x, width)`. With `bmi2` it is the instruction `bzhi`, for widths below 64. -/
def lowBits (x : BitVec 64) (width : Nat) : BitVec 64 :=
  if bmi2 then BitVec.ofNat 64 (x.toNat % 2 ^ width)
  else if width = 0 then 0 else x &&& (BitVec.allOnes 64 >>> (64 - width))

/-- `Decode56(i)`. -/
def decode56 (d : Decoder) (i : Nat) : Option (BitVec 64) :=
  if d.opts.width = 0 then some 0
  else do
    let pos := i * d.opts.width
    let word ← load64 d.mem (d.ptr.low + pos / 8)
    pure (lowBits bmi2 (word >>> (pos % 8)) d.opts.width)

/-! ## Searching the high bits -/

/-- A word of the high bits, negated when zeros are looked for. -/
def loadHigh (one : Bool) (d : Decoder) (i : Nat) : Option (BitVec 64) :=
  Encoder.loadHigh one d.mem d.ptr.high i

/-- A round of `FindNextSetBitSlow`. -/
def findNextSetBitStep (one : Bool) (d : Decoder) (i : Nat) : Option (Nat ⊕ Nat) := do
  let i := (i + 8) % 2 ^ 32
  let x ← d.loadHigh one i
  pure (if x = 0#64 then .inl i else .inr (i * 8 + countrZero x))

/-- `FindNextSetBitSlow(i, one)`. -/
def findNextSetBitSlow (i : Nat) (one : Bool) : Option Nat :=
  iterate (d.findNextSetBitStep one) i

/-- `FindNextSetBit(pos)`. -/
def findNextSetBit (pos : Nat) : Option Nat := do
  let i := pos / 8 % 2 ^ 32
  let word ← d.loadHigh true i
  let x := word >>> (pos % 8)
  if x ≠ 0#64 then pure (pos + countrZero x) else d.findNextSetBitSlow i true

/-- The variables `i`, `rank` and `x` of `BroadWordSearch`. -/
structure Scan where
  i : Nat
  rank : Nat
  x : BitVec 64
deriving DecidableEq, Repr

/-- A round of the loop of `BroadWordSearch`, which is entered with `cnt <= rank`. -/
def broadWordStep (one : Bool) (d : Decoder) (s : Scan) : Option (Scan ⊕ Scan) := do
  let i := (s.i + 8) % 2 ^ 32
  let rank := s.rank - popcount s.x
  let x ← d.loadHigh one i
  pure (if popcount x ≤ rank then .inl { i, rank, x } else .inr { i, rank, x })

/-- The end of `BroadWordSearch`: the bit is in the word `x`, whose bits start at position
`start`. -/
def broadWordFound (d : Decoder) (one next : Bool) (start : Nat) (s : Scan) :
    Option (Nat × Nat) := do
  let bit ← nthbit target.useFastPath s.x s.rank
  if next = false then pure (start + bit, 0)
  else if s.rank + 1 < popcount s.x then
    let nextBit ← nthbit target.useFastPath s.x (s.rank + 1)
    pure (start + bit, start + nextBit)
  else
    let npos ← d.findNextSetBitSlow s.i one
    pure (start + bit, npos)

/-- `BroadWordSearch(one, rank, next, hint_pos)`. -/
def broadWordSearch (d : Decoder) (one : Bool) (rank : Nat) (next : Bool)
    (hintPos : Nat) : Option (Nat × Nat) := do
  let i := hintPos / 8 % 2 ^ 32
  let word ← d.loadHigh one i
  let x := word >>> (hintPos % 8)
  if rank < popcount x then d.broadWordFound target one next hintPos { i, rank, x }
  else
    let s ← iterate (d.broadWordStep one) { i, rank, x }
    d.broadWordFound target one next (s.i * 8) s

/-- `SelectSparse(base, rank, next, hint_pos)`. -/
def selectSparse (base rank : Nat) (next : Bool) : Option (Nat × Nat) := do
  let si := (base + rank % kD1) % 2 ^ 32
  let entry ← loadUnaligned 4 d.mem (d.ptr.sparse + 4 * si)
  let nextEntry ← if next then loadUnaligned 4 d.mem (d.ptr.sparse + 4 * ((si + 1) % 2 ^ 32))
    else some 0
  if d.opts.version ≤ 2 then pure (entry, nextEntry)
  else pure (entry + rank, if next then nextEntry + rank + 1 else 0)

/-- `Select(one, rank, next)`. -/
def select (d : Decoder) (one : Bool) (rank : Nat) (next : Bool) : Option (Nat × Nat) :=
  if d.opts.hasIndex (if one then .ones else .zeros) = false then
    d.broadWordSearch target one rank next 0
  else do
    guard (next = false ∨ rank % kD1 ≠ kD1 - 1)
    let d1 := rank / kD1
    let entry := (if one then d.ptr.dense1 else d.ptr.dense0) + denseEntrySize * d1
    let base ← loadUnaligned 4 d.mem entry
    let delta ← loadUnaligned 2 d.mem (entry + 4)
    if delta = 0 then
      let d2 := rank % kD1 / kD2
      let delta ← loadUnaligned 2 d.mem (entry + 4 + 2 * d2)
      d.broadWordSearch target one (rank % kD2) next (base + d1 * kD1 + delta)
    else
      guard (base ≤ 2 ^ 32 - 1)
      d.selectSparse base rank next

/-! ## Iterators -/

/-- A `Decoder::iterator`. -/
structure Iterator where
  index : Nat
  pos : Nat
deriving DecidableEq, Repr

/-- `begin()`. -/
def begin : Option Iterator := do
  let pos ← d.findNextSetBit 0
  pure { index := 0, pos }

/-- `end()`. -/
def «end» : Iterator :=
  { index := d.opts.size, pos := d.opts.bits }

/-- `IteratorAt(i)`. -/
def iteratorAt (d : Decoder) (i : Nat) : Option Iterator := do
  guard (i < d.opts.size)
  let (pos, _) ← d.select target true i false
  pure { index := i, pos }

/-- `++it`. -/
def Iterator.next (it : Iterator) : Option Iterator := do
  let pos ← d.findNextSetBit (it.pos + 1)
  pure { index := (it.index + 1) % 2 ^ 32, pos }

/-- `*it`. -/
def Iterator.deref (d : Decoder) (it : Iterator) : Option (BitVec 64) :=
  let hi := BitVec.ofNat 64 it.pos - BitVec.ofNat 64 it.index
  if d.opts.width = 0 then some hi
  else do
    let low ← d.decode56 bmi2 it.index
    pure ((hi <<< d.opts.width) ||| low)

/-- A round of `for (it = begin(); it != end(); ++it)`, which collects the elements. -/
def collectStep (d : Decoder) :
    Iterator × List (BitVec 64) → Option (Iterator × List (BitVec 64) ⊕ List (BitVec 64))
  | (it, out) =>
    if it.index = d.end.index then some (.inr out)
    else do
      let v ← it.deref bmi2 d
      let it ← it.next d
      pure (.inl (it, out ++ [v]))

/-- The elements from `begin()` to `end()`. -/
def collect (d : Decoder) : Option (List (BitVec 64)) := do
  let it ← d.begin
  iterate (d.collectStep bmi2) (it, [])

end Decoder

/-! ## Searches -/

/-- The private functions of a decoder that its searches use. -/
structure Access where
  decode56 : Nat → Option (BitVec 64)
  select : Bool → Nat → Bool → Option (Nat × Nat)

/-- Those of a decoder. -/
def Decoder.access (target : Target) (d : Decoder) : Access :=
  { decode56 := d.decode56 target.bmi2, select := d.select target }

/-- They fail in addition when an index or a rank is outside of the array. -/
def Access.checked (a : Access) (opts : Options) : Access where
  decode56 i := do
    guard (i < opts.size)
    a.decode56 i
  select one rank next := do
    guard (rank < if one then opts.oneBits else opts.zeroBits)
    guard (next = true → rank + 1 < if one then opts.oneBits else opts.zeroBits)
    a.select one rank next

namespace Access

variable (a : Access) (opts : Options)

/-- `HighUpperBound(hi)`. -/
def highUpperBound (hi : Nat) : Option Nat :=
  if opts.zeroBits ≤ hi then some opts.size
  else do
    let (pos, _) ← a.select false hi false
    pure (sub64 pos hi % 2 ^ 32)

/-- `HighUpperBoundRange(hi)`. -/
def highUpperBoundRange (hi : Nat) : Option (Nat × Nat) := do
  guard (hi % kD1 ≠ 0)
  if opts.zeroBits ≤ hi then
    let start ← a.highUpperBound opts (hi - 1)
    pure (start, opts.size)
  else
    let (pos, npos) ← a.select false (hi - 1) true
    pure ((sub64 pos hi + 1) % 2 ^ 32, sub64 npos hi % 2 ^ 32)

/-- The variables `start` and `limit` of the searches. -/
def highRange (hi : Nat) : Option (Nat × Nat) :=
  if hi % kD1 ≠ 0 then a.highUpperBoundRange opts hi
  else do
    let start ← if hi = 0 then some 0 else a.highUpperBound opts (hi - 1)
    let limit ← a.highUpperBound opts hi
    pure (start, limit)

/-- A round of the binary searches, which take the lower half when the element in the middle is
`above`. -/
def bisectStep (above : BitVec 64 → Bool) : Nat × Nat → Option (Nat × Nat ⊕ Nat)
  | (start, len) =>
    if 1 < len then do
      let half := len / 2
      let mid := (start + half) % 2 ^ 32
      let x ← a.decode56 mid
      pure (.inl (if above x then start else mid, len - half))
    else some (.inr start)

/-- The loop of the binary searches. -/
def bisect (above : BitVec 64 → Bool) (start len : Nat) : Option Nat :=
  iterate (a.bisectStep above) (start, len)

/-- `UpperBound(v)`. -/
def upperBound (bmi2 : Bool) (v : BitVec 64) : Option Nat :=
  if opts.maxValue ≤ v then some opts.size
  else if opts.width = 0 then a.highUpperBound opts (v.toNat % 2 ^ 32)
  else do
    let hi := (v >>> opts.width).toNat % 2 ^ 32
    let (start, limit) ← a.highRange opts hi
    let lo := Decoder.lowBits bmi2 v opts.width
    let len := sub32 limit start
    if len = 0 then pure start
    else
      let start ← a.bisect (fun x => lo < x) start len
      let x ← a.decode56 start
      pure (start + if x ≤ lo then 1 else 0)

/-- `LowerBound(v)`. -/
def lowerBound (bmi2 : Bool) (v : BitVec 64) : Option Nat :=
  if opts.maxValue < v then some opts.size
  else do
    let hi := (v >>> opts.width).toNat % 2 ^ 32
    let (start, limit) ← a.highRange opts hi
    let lo := Decoder.lowBits bmi2 v opts.width
    let len := sub32 limit start
    if len = 0 then pure start
    else
      let start ← a.bisect (fun x => lo ≤ x) start len
      let x ← a.decode56 start
      pure (start + if x < lo then 1 else 0)

/-- `Exists(v)`. -/
def «exists» (bmi2 : Bool) (v : BitVec 64) : Option Bool :=
  if opts.maxValue < v then some false
  else do
    let hi := (v >>> opts.width).toNat % 2 ^ 32
    let (start, limit) ← a.highRange opts hi
    let lo := Decoder.lowBits bmi2 v opts.width
    let len := sub32 limit start
    if len = 0 then pure false
    else
      let start ← a.bisect (fun x => lo < x) start len
      let x ← a.decode56 start
      pure (lo == x)

end Access

/-! ## The members of `ForwardDecoder` -/

/-- The members of a `ForwardDecoder` that do not change. -/
structure ForwardDecoder extends Decoder where
  lowMask : BitVec 64
deriving DecidableEq, Repr

/-- The members `block_`, `index_` and `pos_`. -/
structure Position where
  block : BitVec 64
  index : Nat
  pos : Nat
deriving DecidableEq, Repr

namespace ForwardDecoder

variable (f : ForwardDecoder)

/-- `done()`. -/
def done (cur : Position) : Bool :=
  f.opts.size ≤ cur.index

/-- `Decode56(i)`. -/
def decode56 (i : Nat) : Option (BitVec 64) :=
  if f.opts.width = 0 then some 0
  else do
    let pos := i * f.opts.width
    let word ← load64 f.mem (f.ptr.low + pos / 8)
    pure ((word >>> (pos % 8)) &&& f.lowMask)

/-- `value()`. -/
def value (cur : Position) : Option (BitVec 64) := do
  let low ← f.decode56 cur.index
  pure (((BitVec.ofNat 64 cur.pos - BitVec.ofNat 64 cur.index) <<< f.opts.width) ||| low)

/-- `PosInBlock()`. -/
def posInBlock (cur : Position) : Nat :=
  countrZero cur.block

/-! ## Scans -/

/-- A round of `ScanForNextOne`, with `block_it` and `block_`. -/
def scanStep : Nat × BitVec 64 → Option (Nat × BitVec 64 ⊕ Nat × BitVec 64)
  | (blockIt, block) =>
    if block = 0#64 then do
      let blockIt := blockIt + 8
      let block ← f.loadHigh true blockIt
      pure (.inl (blockIt, block))
    else some (.inr (blockIt, block))

/-- `ScanForNextOne(block_it)`. -/
def scanForNextOne (blockIt : Nat) (cur : Position) : Option Position := do
  let (blockIt, block) ← iterate f.scanStep (blockIt, cur.block)
  pure { cur with block, pos := blockIt * 8 + countrZero block }

/-- The bits of the word from `posInBlock` on. -/
def maskBlock (block : BitVec 64) (posInBlock : Nat) : BitVec 64 :=
  (block >>> posInBlock) <<< posInBlock

/-- `ReloadBlock(pos)`. -/
def reloadBlock (pos : Nat) (cur : Position) : Option Position := do
  let block ← f.loadHigh true (pos / 8)
  pure { cur with block := maskBlock block (pos % 8) }

/-- A round of the loop of `BroadWordSearch`. -/
def broadWordStep (one : Bool) (s : Decoder.Scan) : Option (Decoder.Scan ⊕ Decoder.Scan) :=
  if popcount s.x ≤ s.rank then do
    let x ← f.loadHigh one (s.i + 8)
    pure (.inl { i := s.i + 8, rank := s.rank - popcount s.x, x })
  else some (.inr s)

variable (target : Target)

/-- `BroadWordSearch(one, rank, pos_in_block)`. -/
def broadWordSearch (f : ForwardDecoder) (one : Bool) (rank posInBlock : Nat)
    (cur : Position) : Option (Nat × Position) := do
  let i := sub64 cur.pos posInBlock / 8
  -- `rank` is `uint32_t`
  let rank := if one then rank else (rank + posInBlock) % 2 ^ 32
  let x := if one then cur.block else ~~~cur.block
  let s ← iterate (f.broadWordStep one) { i, rank, x }
  let posInBlock ← nthbit target.useFastPath s.x s.rank
  let block := maskBlock (if one then s.x else ~~~s.x) posInBlock
  if one then pure (s.i * 8 + posInBlock, { cur with block })
  else
    let cur ← f.scanForNextOne s.i { cur with block }
    pure (s.i * 8 + posInBlock, cur)

/-- `SelectWithIndex(one, rank, dense)`. -/
def selectWithIndex (f : ForwardDecoder) (one : Bool) (rank dense : Nat)
    (cur : Position) : Option (Nat × Position) := do
  let d1 := rank / kD1
  let offset := rank % kD1
  let entry := dense + denseEntrySize * d1
  let base ← loadUnaligned 4 f.mem entry
  let delta ← loadUnaligned 2 f.mem (entry + 4)
  if delta = 0 then
    let d2 := offset / kD2
    let delta ← loadUnaligned 2 f.mem (entry + 4 + 2 * d2)
    let pos := base + d1 * kD1 + delta
    let cur ← f.reloadBlock pos { cur with pos }
    f.broadWordSearch target one (rank % kD2) (pos % 8) cur
  else
    let sparse ← loadUnaligned 4 f.mem (f.ptr.sparse + 4 * (base + offset))
    guard (f.opts.version ≤ 2 ∨ d1 * kD1 + offset = rank)
    let pos := if f.opts.version ≤ 2 then sparse else sparse + rank
    let cur ← f.reloadBlock pos cur
    if one then pure (pos, { cur with pos })
    else
      let cur ← f.scanForNextOne (pos / 8) cur
      pure (pos, cur)

/-- `ShouldScanForOne(rank_distance)` and `ShouldScanForZero(rank_distance)`. -/
def shouldScan (one : Bool) (distance : Nat) : Bool :=
  !f.opts.hasIndex (if one then .ones else .zeros) || decide (distance < 128)

/-! ## Moves -/

/-- `Reset()`. -/
def reset : Option Position := do
  let block ← f.loadHigh true 0
  f.scanForNextOne 0 { block, index := 0, pos := 0 }

/-- `Next()`. -/
def next (cur : Position) : Option Position := do
  guard (cur.block ≠ 0#64)
  let pos := sub64 cur.pos (posInBlock cur)
  f.scanForNextOne (pos / 8)
    { block := cur.block &&& (cur.block - 1#64), index := (cur.index + 1) % 2 ^ 32, pos }

/-- `SelectOne(rank)`. -/
def selectOne (f : ForwardDecoder) (rank : Nat) (cur : Position) : Option (Nat × Position) := do
  guard (cur.index ≤ rank)
  let distance := rank - cur.index
  if distance = 1 then
    let cur ← f.next cur
    pure (cur.pos, cur)
  else if f.shouldScan true distance then
    f.broadWordSearch target true distance (posInBlock cur) cur
  else f.selectWithIndex target true rank f.ptr.dense1 cur

/-- `SelectZero(rank)`. -/
def selectZero (f : ForwardDecoder) (rank : Nat) (cur : Position) : Option (Nat × Position) := do
  let currentZeroes := sub64 cur.pos cur.index % 2 ^ 32
  guard (currentZeroes ≤ rank)
  let distance := rank - currentZeroes
  if f.shouldScan false distance then
    f.broadWordSearch target false distance (posInBlock cur) cur
  else f.selectWithIndex target false rank f.ptr.dense0 cur

/-- `AdvanceToIndex(i)`. -/
def advanceToIndex (f : ForwardDecoder) (i : Nat) (cur : Position) : Option Position := do
  guard (cur.index ≤ i)
  guard (i < f.opts.size)
  let (pos, cur) ← f.selectOne target i cur
  pure { cur with pos, index := i }

/-- A round of the loop of `AdvanceToValue`. -/
def advanceStep (hi : Nat) (lo : BitVec 64) (cur : Position) : Option (Position ⊕ Position) :=
  if hi = sub64 cur.pos cur.index then do
    let low ← f.decode56 cur.index
    if lo ≤ low then pure (.inr cur)
    else
      let cur ← f.next cur
      pure (.inl cur)
  else some (.inr cur)

/-- The first part of `AdvanceToValue`, which skips to the elements with high part `hi` or above. -/
def skipToHigh (f : ForwardDecoder) (hi : Nat) (cur : Position) : Option Position :=
  if sub64 cur.pos cur.index < hi then do
    let (pos, cur) ← f.selectZero target (hi - 1) cur
    pure { cur with index := sub64 pos (hi - 1) % 2 ^ 32 }
  else some cur

/-- `AdvanceToValue(v)`. -/
def advanceToValue (f : ForwardDecoder) (v : BitVec 64) (cur : Position) : Option Position :=
  if f.opts.maxValue < v then some { cur with index := f.opts.size }
  else do
    let hi := (v >>> f.opts.width).toNat % 2 ^ 32
    let cur ← f.skipToHigh target hi cur
    iterate (f.advanceStep hi (v &&& f.lowMask)) cur

/-- `ForwardDecoder(span, opts)`, with the position after `Reset()`. -/
def new (lzcnt : Bool) (span : List Byte) (opts : Options) :
    Option (ForwardDecoder × Position) := do
  let f : ForwardDecoder :=
    { Decoder.new lzcnt span opts with lowMask := (1#64 <<< opts.width) - 1#64 }
  let cur ← f.reset
  pure (f, cur)

/-- `Make(span)`. -/
def make (addr : Nat) (span : List Byte) : Option (ForwardDecoder × Position) := do
  let opts ← Options.decode target.arch span
  guard (¬(opts.version ≤ 1 ∧ isProperlyAligned addr span = false))
  new target.lzcnt span opts

end ForwardDecoder

end Gloop.Coding.EliasFano

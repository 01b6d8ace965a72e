import Gloop.Foundation.ArrayLoop
import Gloop.Foundation.BitField
import Gloop.Foundation.IntType
import Gloop.Foundation.Iterate

/-!
# The software CRCs of `crc.cc`

`CRC32`, `CRC64` and `CRC128` with their tables. A register is a number, and the conversions and
left shifts of a machine word are written out as remainders. The bodies of `CRC32` and `CRC64`
differ in a few constants, which are `NarrowClass` here; `CRC128` has bodies of its own, because its
registers are wider than the words it loads. A failed check, an access outside an array and a read
of a table entry that was never written are `none`.
-/

namespace Gloop.Hash.Crc

open Gloop.Foundation List

/-- What the build and the linker decide: `kNeedAlignedLoads`, and the addresses of `zeroes` and of
the local `x` of `FillRollTable`. -/
structure Platform where
  kNeedAlignedLoads : Bool
  zeroes : Nat
  x : Nat

/-- `SMALL_BITS`. -/
def smallBits : Nat :=
  8

/-- `ZEROES_BASE_LG`. -/
def zeroesBaseLg : Nat :=
  4

/-- `ZEROES_BASE`. -/
def zeroesBase : Nat :=
  1 <<< zeroesBaseLg

/-- `kPrefetchHorizon`. -/
def kPrefetchHorizon : Nat :=
  64 * 4

/-- `kStride`. -/
def kStride : Nat :=
  4

/-- `absl::MakeUint128(hi, lo)`. -/
def makeUint128 (hi lo : Nat) : Nat :=
  hi * 2 ^ 64 + lo

/-- `absl::Uint128Low64(v)`. -/
def uint128Low64 (v : Nat) : Nat :=
  v % 2 ^ 64

/-- `absl::Uint128High64(v)`. -/
def uint128High64 (v : Nat) : Nat :=
  v >>> 64

/-- The two words `lo` and `hi` in which a caller holds a CRC. -/
structure LoHi where
  lo : Nat
  hi : Nat
  deriving DecidableEq, Repr

/-! ## Tables -/

/-- A loop of `PolyMultiply`, over the bits of `half` from `one` down. -/
def polyMultiplyLoop (poly half one result m : Nat) : Nat × Nat :=
  if one = 0 then (result, m)
  else
    polyMultiplyLoop poly half (one >>> 1)
      (if half &&& one ≠ 0 then result ^^^ m else result)
      (if uint128Low64 m &&& 1 ≠ 0 then (m >>> 1) ^^^ poly else m >>> 1)
termination_by one
decreasing_by
  rw [Nat.shiftRight_one]
  omega

/-- `PolyMultiply(val, m, poly, degree)`. -/
def polyMultiply (val m poly degree : Nat) : Nat :=
  let l := uint128Low64 val
  let h := uint128High64 val
  if 64 < degree then
    let high := polyMultiplyLoop poly h (1 <<< (degree - 65)) 0 m
    (polyMultiplyLoop poly l (1 <<< 63) high.1 high.2).1
  else
    (polyMultiplyLoop poly l (1 <<< (degree - 1)) 0 m).1

/-- An array of `Uint128By256`, whose cells hold nothing before they are written. -/
structure Tables where
  rows : Nat
  cell : Nat → Nat → Option Nat

/-- The array that is not initialized. -/
def Tables.new (rows : Nat) : Tables :=
  ⟨rows, fun _ _ => none⟩

/-- `t[j][i]`. -/
def Tables.load (t : Tables) (j i : Nat) : Option Nat :=
  if j < t.rows ∧ i < 256 then t.cell j i else none

/-- `t[j][i] = v`. -/
def Tables.store (t : Tables) (j i v : Nat) : Option Tables :=
  if j < t.rows ∧ i < 256 then
    some { t with cell := fun j' i' => if j' = j ∧ i' = i then some v else t.cell j' i' }
  else none

/-- The round of `FillWordTable` for the power of two `128 >> e`. -/
def fillPower (poly last j : Nat) (t : Tables) (e : Nat) : Option Tables :=
  let i := 128 >>> e
  if j = 0 ∧ i = 128 then
    t.store j i last
  else do
    let pred ← if i = 128 then t.load (j - 1) 1 else t.load j (i <<< 1)
    t.store j i (if uint128Low64 pred &&& 1 ≠ 0 then (pred >>> 1) ^^^ poly else pred >>> 1)

/-- The entry `k = i + 1 + n` of `FillWordTable`, from the power of two `i` and the rest of `k`. -/
def fillEntry (j i : Nat) (t : Tables) (n : Nat) : Option Tables := do
  let k := i + 1 + n
  t.store j k ((← t.load j i) ^^^ (← t.load j (k - i)))

/-- The round of `FillWordTable` for the entries between `2 << e` and the next power of two. -/
def fillBetween (j : Nat) (t : Tables) (e : Nat) : Option Tables :=
  let i := 2 <<< e
  (range (i - 1)).foldlM (fillEntry j i) t

/-- The round of `FillWordTable` for one byte of extension. -/
def fillRow (poly last : Nat) (t : Tables) (j : Nat) : Option Tables := do
  let t ← t.store j 0 0
  let t ← (range 8).foldlM (fillPower poly last j) t
  (range 7).foldlM (fillBetween j) t

/-- `CRCImpl::FillWordTable`. -/
def fillWordTable (poly last wordSize : Nat) (t : Tables) : Option Tables :=
  (range wordSize).foldlM (fillRow poly last) t

/-- One entry of `FillZeroesTable`, for one more `inc`. -/
def fillZeroesEntry (poly degree inc : Nat) :
    Tables × Nat × Nat → Nat → Option (Tables × Nat × Nat) := fun (t, v, j) _ => do
  let t ← t.store 0 j v
  some (t, polyMultiply v inc poly degree, j + 1)

/-- The round of `FillZeroesTable` for one `inc_len`, in the state `inc_len`, `inc`, `t` and `j`. -/
def fillZeroesRound (poly degree : Nat) :
    Nat × Nat × Tables × Nat → Option ((Nat × Nat × Tables × Nat) ⊕ (Tables × Nat)) :=
  fun (incLen, inc, t, j) =>
    if incLen = 0 then some (.inr (t, j))
    else do
      let (t, v, j) ← (range (zeroesBase - 1)).foldlM (fillZeroesEntry poly degree inc) (t, inc, j)
      some (.inl ((incLen <<< zeroesBaseLg) % 2 ^ 64, v, t, j))

/-- `CRCImpl::FillZeroesTable`, with the number of entries. -/
def fillZeroesTable (poly degree : Nat) (t : Tables) : Option (Tables × Nat) := do
  let inc := (1 <<< (degree - 1)) >>> 1
  let inc := (range (3 + smallBits)).foldl (fun inc _ => polyMultiply inc inc poly degree) inc
  let (t, j) ← iterate (fillZeroesRound poly degree) (1 <<< smallBits, inc, t, 0)
  guard (j ≤ 256)
  some (t, j)

/-! ## The objects -/

/-- The software classes. -/
inductive SoftwareClass
  | crc32
  | crc64
  | crc128
  deriving DecidableEq, Repr

/-- The width of a register. -/
def SoftwareClass.bits : SoftwareClass → Nat
  | crc32 => 32
  | crc64 => 64
  | crc128 => 128

/-- `sizeof(DataWord)`. -/
def SoftwareClass.wordSize : SoftwareClass → Nat
  | crc32 => 4
  | crc64 => 8
  | crc128 => 4

/-- A `CRCImpl` of one of the software classes. The tables are empty until `InitTables` fills
them. -/
structure CRCImpl where
  cls : SoftwareClass
  rollLength : Nat
  degree : Nat
  poly : Nat
  table0 : List Nat
  table : List (List Nat)
  zeroes : List Nat
  roll : List Nat

variable (crc : CRCImpl)

/-- `CRCImpl::Empty`. -/
def CRCImpl.empty : LoHi :=
  ⟨uint128Low64 crc.poly, uint128High64 crc.poly⟩

/-- The register that a member function loads from `lo` and `hi`. -/
def CRCImpl.register (crc : CRCImpl) (v : LoHi) : Nat :=
  match crc.cls with
  | .crc32 => v.lo % 2 ^ 32
  | .crc64 => v.lo
  | .crc128 => makeUint128 v.hi v.lo

/-- Write the register back to `lo` and `hi`. -/
def CRCImpl.writeBack (v : LoHi) (l : Nat) : LoHi :=
  match crc.cls with
  | .crc32 => { v with lo := l }
  | .crc64 => { v with lo := l }
  | .crc128 => ⟨uint128Low64 l, uint128High64 l⟩

/-! ## `Extend` -/

/-- `w = (w >> 8) ^ table0_[w & 0xff]`. -/
def CRCImpl.stepByte (w : Nat) : Option Nat := do
  let entry ← crc.table0[w &&& 0xff]?
  some ((w >>> 8) ^^^ entry)

/-- `STEP1`, at the position `p` of the input. -/
def CRCImpl.step1 (bytes : List Byte) (l p : Nat) : Option (Nat × Nat) := do
  let byte ← bytes[p]?
  let c := (l &&& 0xff) ^^^ byte.toNat
  let entry ← crc.table0[c]?
  some ((l >>> 8) ^^^ entry, p + 1)

/-- `while (p != stop) STEP1`. -/
def CRCImpl.stepsTo (bytes : List Byte) (stop : Nat) (l p : Nat) : Option (Nat × Nat) :=
  iterate (fun (l, p) =>
    if p = stop then some (.inr (l, p)) else do some (.inl (← crc.step1 bytes l p))) (l, p)

/-- `STEPW(w)`. -/
def CRCImpl.stepW (l w : Nat) : Option Nat :=
  (range crc.cls.wordSize).foldlM (fun w _ => crc.stepByte w) (w ^^^ l)

/-- `RoundUp<4>` of an address. -/
def roundUp4 (address : Nat) : Nat :=
  (address + 3) / 4 * 4

variable (pl : Platform)

/-- The bytes before the first aligned address, where loads have to be aligned. -/
def CRCImpl.align (crc : CRCImpl) (address : Nat) (bytes : List Byte) (l : Nat) :
    Option (Nat × Nat) :=
  if pl.kNeedAlignedLoads then
    let x := roundUp4 address
    if x ≤ address + bytes.length then crc.stepsTo bytes (x - address) l 0 else some (l, 0)
  else some (l, 0)

/-- The buffers `buf0` to `buf3`. -/
structure Swaths where
  buf0 : Nat
  buf1 : Nat
  buf2 : Nat
  buf3 : Nat

/-- The lookup of `STEP_SWATH` for byte `k` of the word. The highest byte is not masked. -/
def CRCImpl.swathEntry (word acc k : Nat) : Option Nat := do
  let row ← crc.table[crc.cls.wordSize - 1 - k]?
  let entry ← row[if k + 1 = crc.cls.wordSize then word >>> (8 * k)
    else (word >>> (8 * k)) &&& 0xff]?
  some (acc ^^^ entry)

/-- The lookups of `STEP_SWATH`. -/
def CRCImpl.swathEntries (word : Nat) : Option Nat :=
  (range crc.cls.wordSize).foldlM (crc.swathEntry word) 0

/-- Load the word number `s` from `p`. -/
def CRCImpl.loadWord (bytes : List Byte) (p s : Nat) : Option Nat :=
  load bytes (p + s * crc.cls.wordSize) crc.cls.wordSize

/-- Load one swath of data into the operating buffers. -/
def CRCImpl.loadSwaths (bytes : List Byte) (l p : Nat) : Option Swaths := do
  let word0 ← crc.loadWord bytes p 0
  let buf1 ← crc.loadWord bytes p 1
  let buf2 ← crc.loadWord bytes p 2
  let buf3 ← crc.loadWord bytes p 3
  some ⟨word0 ^^^ l, buf1, buf2, buf3⟩

/-- Combine the results from the different swaths. -/
def CRCImpl.combine (bufs : Swaths) : Option Nat := do
  let l ← crc.stepW 0 bufs.buf0
  let l ← crc.stepW l bufs.buf1
  let l ← crc.stepW l bufs.buf2
  crc.stepW l bufs.buf3

/-- Run the body while enough bytes are left before the end `e`. -/
def whileLeft (e : Nat) (enough : Nat → Bool) (body : Swaths × Nat → Option (Swaths × Nat)) :
    Swaths × Nat → Option (Swaths × Nat) :=
  iterate fun s => if enough (e - s.2) then do some (.inl (← body s)) else some (.inr s)

/-- The two loops over whole strides, the first of which takes several strides a round. -/
def CRCImpl.strides (crc : CRCImpl) (bytes : List Byte) (perRound : Nat)
    (stepStride : Swaths × Nat → Option (Swaths × Nat)) (s : Swaths × Nat) :
      Option (Swaths × Nat) := do
  let s ← whileLeft bytes.length (fun left => kPrefetchHorizon < left)
    (fun s => (range perRound).foldlM (fun s _ => stepStride s) s) s
  whileLeft bytes.length (fun left => kStride * crc.cls.wordSize ≤ left) stepStride s

/-- What `CRC32` and `CRC64` do not share: how many strides the prefetching loop takes a round, and
the width of the products in `ExtendByZeroes`. -/
structure NarrowClass where
  perRound : Nat
  productBits : Nat

def crc32 : NarrowClass :=
  ⟨4, 64⟩

def crc64 : NarrowClass :=
  ⟨2, 128⟩

/-- `STEP_SWATH` of the word number `s`, in `CRC32` and `CRC64`. -/
def CRCImpl.narrowSwath (bytes : List Byte) (p s buf : Nat) : Option Nat := do
  some ((← crc.loadWord bytes p s) ^^^ (← crc.swathEntries buf))

/-- `STEP_STRIDE` of `CRC32` and `CRC64`. -/
def CRCImpl.narrowStride (bytes : List Byte) :
    Swaths × Nat → Option (Swaths × Nat) := fun (bufs, p) => do
  let buf0 ← crc.narrowSwath bytes p 0 bufs.buf0
  let buf1 ← crc.narrowSwath bytes p 1 bufs.buf1
  let buf2 ← crc.narrowSwath bytes p 2 bufs.buf2
  let buf3 ← crc.narrowSwath bytes p 3 bufs.buf3
  some (⟨buf0, buf1, buf2, buf3⟩, p + kStride * crc.cls.wordSize)

/-- Advance one word, and rotate the buffers. -/
def CRCImpl.narrowWord (bytes : List Byte) :
    Swaths × Nat → Option (Swaths × Nat) := fun (bufs, p) => do
  let tmp ← crc.narrowSwath bytes p 0 bufs.buf0
  some (⟨bufs.buf1, bufs.buf2, bufs.buf3, tmp⟩, p + crc.cls.wordSize)

/-- The part of `Extend` that works on swaths, in `CRC32` and `CRC64`. -/
def CRCImpl.narrowSwaths (cls : NarrowClass) (crc : CRCImpl) (bytes : List Byte) (l p : Nat) :
    Option (Nat × Nat) :=
  if kStride * crc.cls.wordSize ≤ bytes.length - p then do
    let bufs ← crc.loadSwaths bytes l p
    let s ← crc.strides bytes cls.perRound (crc.narrowStride bytes)
      (bufs, p + kStride * crc.cls.wordSize)
    let (bufs, p) ← whileLeft bytes.length (fun left => crc.cls.wordSize ≤ left)
      (crc.narrowWord bytes) s
    some (← crc.combine bufs, p)
  else some (l, p)

/-- `STEP_SWATH` of `CRC128`, which looks at the low word of the buffer only. -/
def CRCImpl.wideSwath (bytes : List Byte) (p s buf : Nat) : Option Nat := do
  let tmp := uint128Low64 buf % 2 ^ 32
  some ((← crc.loadWord bytes p s) ^^^ (← crc.swathEntries tmp))

/-- `STEP_STRIDE` of `CRC128`: the upper bits of each buffer go to the next one. -/
def CRCImpl.wideStride (bytes : List Byte) :
    Swaths × Nat → Option (Swaths × Nat) := fun (bufs, p) => do
  let buf1 := bufs.buf1 ^^^ (bufs.buf0 >>> 32)
  let buf0 ← crc.wideSwath bytes p 0 bufs.buf0
  let buf2 := bufs.buf2 ^^^ (buf1 >>> 32)
  let buf1 ← crc.wideSwath bytes p 1 buf1
  let buf3 := bufs.buf3 ^^^ (buf2 >>> 32)
  let buf2 ← crc.wideSwath bytes p 2 buf2
  let buf0 := buf0 ^^^ (buf3 >>> 32)
  let buf3 ← crc.wideSwath bytes p 3 buf3
  some (⟨buf0, buf1, buf2, buf3⟩, p + kStride * crc.cls.wordSize)

/-- The part of `CRC128::Extend` that works on swaths. -/
def CRCImpl.wideSwaths (bytes : List Byte) (l p : Nat) : Option (Nat × Nat) :=
  if kStride * crc.cls.wordSize ≤ bytes.length - p then do
    let bufs ← crc.loadSwaths bytes l p
    let (bufs, p) ← crc.strides bytes 4 (crc.wideStride bytes)
      (bufs, p + kStride * crc.cls.wordSize)
    some (← crc.combine bufs, p)
  else some (l, p)

/-- The part of `Extend` that works on swaths. -/
def CRCImpl.swaths : List Byte → Nat → Nat → Option (Nat × Nat) :=
  match crc.cls with
  | .crc32 => crc.narrowSwaths crc32
  | .crc64 => crc.narrowSwaths crc64
  | .crc128 => crc.wideSwaths

/-- `Extend(lo, hi, bytes, length)`, where `bytes` stands at `address`. -/
def CRCImpl.extend (crc : CRCImpl) (v : LoHi) (address : Nat) (bytes : List Byte) : Option LoHi :=
  if bytes.length ≤ 0 then some v
  else do
    let (l, p) ← crc.align pl address bytes (crc.register v)
    let (l, p) ← crc.swaths bytes l p
    let (l, _) ← crc.stepsTo bytes bytes.length l p
    some (crc.writeBack v l)

/-! ## `ExtendByZeroes` -/

/-- The round of the multiplication in `ExtendByZeroes` for the lowest byte of `l`, two bits at a
time, where `product` is the number of values of the type of `result`. -/
def CRCImpl.multiplyByte (product : Nat) (mtab : List Nat) :
    Nat × Nat → Nat → Option (Nat × Nat) := fun (result, l) _ => do
  let m0 ← mtab[l &&& 3]?
  let m1 ← mtab[(l >>> 2) &&& 3]?
  let m2 ← mtab[(l >>> 4) &&& 3]?
  let m3 ← mtab[(l >>> 6) &&& 3]?
  let result := result ^^^
    (m0 ^^^ (m1 <<< 2) % product ^^^ (m2 <<< 4) % product ^^^ (m3 <<< 6) % product)
  let entry ← crc.table0[uint128Low64 result &&& 0xff]?
  some (uint128Low64 (result >>> 8) ^^^ entry, l >>> 8)

/-- Multiply the register by an entry of `zeroes_`, in `CRC32` and `CRC64`. -/
def CRCImpl.narrowMultiply (cls : NarrowClass) (crc : CRCImpl) (l entry : Nat) : Option Nat := do
  let product := 2 ^ cls.productBits
  let m := (entry <<< 1) % product
  let m2 := (m <<< 1) % product
  let l := (l <<< ((8 - (crc.degree &&& 7)) &&& 7)) % 2 ^ crc.cls.bits
  let (result, _) ← (range ((crc.degree + 7) / 8)).foldlM
    (crc.multiplyByte product [0, m, m2, m2 ^^^ m]) (0, l)
  some (result % 2 ^ crc.cls.bits)

/-- Multiply the register by an entry of `zeroes_`. -/
def CRCImpl.multiply (l entry : Nat) : Option Nat :=
  match crc.cls with
  | .crc32 => crc.narrowMultiply crc32 l entry
  | .crc64 => crc.narrowMultiply crc64 l entry
  | .crc128 => some (polyMultiply l entry crc.poly crc.degree)

/-- Multiply by the entry for the digit `c`, if it is not zero. -/
def CRCImpl.multiplyDigit (l c i : Nat) : Option Nat :=
  if c ≠ 0 then do crc.multiply l (← crc.zeroes[c + i - 1]?) else some l

/-- The round of `ExtendByZeroes` for one digit of `length`, in the state `i`, `length` and `l`. -/
def CRCImpl.zeroesRound : Nat × Nat × Nat → Option ((Nat × Nat × Nat) ⊕ Nat) :=
  fun (i, length, l) =>
    if length = 0 then some (.inr l)
    else do
      let l ← crc.multiplyDigit l (length &&& (zeroesBase - 1)) i
      some (.inl (i + (zeroesBase - 1), length >>> zeroesBaseLg, l))

/-- The loop of `ExtendByZeroes` over the digits of `length`. -/
def CRCImpl.zeroesLoop (l length : Nat) : Option Nat :=
  iterate crc.zeroesRound (0, length, l)

/-- The low order bits of the length, for which `ExtendByZeroes` calls `Extend`. -/
def CRCImpl.extendSmallPart (crc : CRCImpl) (v : LoHi) (smallPart : Nat) : Option LoHi :=
  if smallPart ≠ 0 then crc.extend pl v pl.zeroes (replicate smallPart 0) else some v

/-- The rest of the length. -/
def CRCImpl.extendLargePart (v : LoHi) (length : Nat) : Option LoHi :=
  if length ≠ 0 then do some (crc.writeBack v (← crc.zeroesLoop (crc.register v) length))
    else some v

/-- `ExtendByZeroes(lo, hi, length)`. -/
def CRCImpl.extendByZeroes (crc : CRCImpl) (v : LoHi) (length : Int) : Option LoHi := do
  guard (0 ≤ length)
  if length ≤ 0 then some v
  else do
    let length := length.toNat
    let v ← crc.extendSmallPart pl v (length &&& ((1 <<< smallBits) - 1))
    crc.extendLargePart v (length >>> smallBits)

/-! ## Construction -/

/-- `t[0][i] ^= v`. -/
def Tables.xorEntry (v : Nat) (t : Tables) (i : Nat) : Option Tables := do
  t.store 0 i ((← t.load 0 i) ^^^ v)

/-- `CRCImpl::FillRollTable`. -/
def fillRollTable (crc : CRCImpl) (t : Tables) : Option Tables := do
  let rollLength := IntType.cast ⟨64, true⟩ crc.rollLength
  let v ← crc.extendByZeroes pl crc.empty rollLength
  let t ← fillWordTable crc.poly (makeUint128 v.hi v.lo) 1 t
  let v ← crc.extend pl crc.empty pl.x [0x80#8]
  let v ← crc.extendByZeroes pl v rollLength
  (range 256).foldlM (Tables.xorEntry (makeUint128 v.hi v.lo)) t

/-- Copy the first entries of a row, converted to the type of a register. -/
def Tables.copyRow (t : Tables) (cls : SoftwareClass) (j count : Nat) : Option (List Nat) :=
  (range count).mapM fun i => do some ((← t.load j i) % 2 ^ cls.bits)

/-- `InitTables()`. -/
def CRCImpl.initTables (crc : CRCImpl) : Option CRCImpl := do
  let t := Tables.new crc.cls.wordSize
  let t ← fillWordTable crc.poly crc.poly 1 t
  let crc := { crc with table0 := ← t.copyRow crc.cls 0 256 }
  let last ← (range (crc.cls.wordSize * (kStride - 1))).foldlM (fun last _ => crc.stepByte last)
    (crc.poly % 2 ^ crc.cls.bits)
  let t ← fillWordTable crc.poly last crc.cls.wordSize t
  let crc := { crc with table := ← (range crc.cls.wordSize).mapM (t.copyRow crc.cls · 256) }
  let (t, j) ← fillZeroesTable crc.poly crc.degree t
  guard (j ≤ 256)
  let crc := { crc with zeroes := ← t.copyRow crc.cls 0 j }
  let t ← fillRollTable pl crc t
  some { crc with roll := ← t.copyRow crc.cls 0 256 }

/-- `CRCImpl::NewInternal`, where no accelerated implementation is available. -/
def newInternal (lo hi degree rollLength : Nat) : Option CRCImpl := do
  guard (8 ≤ degree ∧ degree ≤ 128)
  guard (lo ≠ 0 ∨ hi ≠ 0)
  let cls := if degree ≤ 32 then .crc32 else if degree ≤ 64 then .crc64 else .crc128
  CRCImpl.initTables pl
    { cls := cls, rollLength := rollLength, degree := degree, poly := makeUint128 hi lo,
      table0 := [], table := [], zeroes := [], roll := [] }

/-! ## `Roll` and `Concat` -/

/-- `Roll(lo, hi, o_byte, i_byte)`. -/
def CRCImpl.rollByte (v : LoHi) (oByte iByte : Byte) : Option LoHi := do
  let l := crc.register v
  let entry ← crc.table0[(l &&& 0xff) ^^^ iByte.toNat]?
  let out ← crc.roll[oByte.toNat]?
  some (crc.writeBack v (entry ^^^ (l >>> 8) ^^^ out))

/-- `CRC::Concat`. -/
def CRCImpl.concat (crc : CRCImpl) (px y : LoHi) (ylen : Int) : Option LoHi := do
  guard (0 ≤ ylen)
  if ylen ≤ 0 then some px
  else do
    let z := crc.empty
    let t ← crc.extendByZeroes pl ⟨px.lo ^^^ z.lo, px.hi ^^^ z.hi⟩ ylen
    some ⟨t.lo ^^^ y.lo, t.hi ^^^ y.hi⟩

end Gloop.Hash.Crc

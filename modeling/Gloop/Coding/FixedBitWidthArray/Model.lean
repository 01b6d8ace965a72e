import Gloop.Foundation.BitField

/-!
# `FixedBitWidthArrayBase` of `bitcoding.h`

The array is a view of memory that starts at `data`, so positions are offsets from there. An access
outside the memory given, a failed `CHECK` and a shift by 64 or more are `none`.
-/

namespace Gloop.Coding.FixedBitWidthArray

open Gloop.Foundation

/-! ## `ReadWriteHelper` -/

variable (mem : List Byte)

/-- `LittleEndian::LoadUnsignedWord(ptr)`. -/
def loadUnsignedWord (ptr : Nat) : Option (BitVec 64) := do
  let n ← load mem ptr 8
  pure (BitVec.ofNat 64 n)

/-- `LittleEndian::StoreUnsignedWord(ptr, value)`. -/
def storeUnsignedWord (ptr : Nat) (value : BitVec 64) : Option (List Byte) :=
  store mem ptr (toBytes value.toNat 8)

/-- `ReadWriteHelper::Read(ptr, num_bytes)`. The sums are below the range of their types. -/
def read (ptr numBytes : Nat) : Option (BitVec 64) :=
  match numBytes with
  | 1 => do
    let low ← load mem ptr 1
    pure (BitVec.ofNat 64 low)
  | 2 => do
    let n ← load mem ptr 2
    pure (BitVec.ofNat 64 n)
  | 3 => do
    let low ← load mem ptr 1
    let high ← load mem (ptr + 1) 2
    pure (BitVec.ofNat 64 (low + high <<< 8))
  | 4 => do
    let n ← load mem ptr 4
    pure (BitVec.ofNat 64 n)
  | 5 => do
    let low ← load mem ptr 1
    let high ← load mem (ptr + 1) 4
    pure (BitVec.ofNat 64 (low + high <<< 8))
  | _ => some 0

/-- `ReadWriteHelper::Write(ptr, num_bytes, value)`. -/
def write (ptr numBytes : Nat) (value : BitVec 64) : Option (List Byte) :=
  match numBytes with
  | 1 => store mem ptr (toBytes value.toNat 1)
  | 2 => store mem ptr (toBytes value.toNat 2)
  | 3 => do
    let mem ← store mem ptr (toBytes value.toNat 1)
    store mem (ptr + 1) (toBytes (value >>> 8).toNat 2)
  | 4 => store mem ptr (toBytes value.toNat 4)
  | 5 => do
    let mem ← store mem ptr (toBytes value.toNat 1)
    store mem (ptr + 1) (toBytes (value >>> 8).toNat 4)
  | _ => some mem

/-! ## The array -/

/-- `sizeof(uword_t)`. -/
def kWordSize : Nat :=
  8

/-- `kSlopBytes`. -/
def kSlopBytes (safeSemantics : Bool) : Nat :=
  if safeSemantics then 0 else kWordSize

/-- `MaxElementWidthInBits()`. -/
def maxElementWidthInBits : Nat :=
  min (8 * kWordSize - 7) 32

/-- `SizeInBytes(num_elems, width)`. -/
def sizeInBytes (numElems : BitVec 64) (width : Nat) : BitVec 64 :=
  (BitVec.ofNat 64 width * numElems + 7#64) >>> 3

/-- A `FixedBitWidthArrayBase<safe_semantics>`. Its constructors check the width; only the one for a
`char*` makes the array writable. -/
structure FixedBitWidthArrayBase where
  safeSemantics : Bool
  writable : Bool
  width : Nat
  numItems : BitVec 64
  width_le : width ≤ maxElementWidthInBits
deriving DecidableEq

namespace FixedBitWidthArrayBase

variable (a : FixedBitWidthArrayBase)

/-- `end_`. -/
def endOffset : Nat :=
  (sizeInBytes a.numItems a.width).toNat

/-- `mask_`. -/
def mask : BitVec 64 :=
  (1#64 <<< a.width) - 1#64

/-- `bit0_offset` of `Get` and `Set`. -/
def bit0Offset (index : BitVec 64) : BitVec 64 :=
  index * BitVec.ofNat 64 a.width

/-- The value that `Get` cuts from a word. -/
def extract (word : BitVec 64) (shift : Nat) : BitVec 32 :=
  ((word >>> shift) &&& a.mask).setWidth 32

/-- `Get(index)`. -/
def get (mem : List Byte) (index : BitVec 64) : Option (BitVec 32) :=
  if a.safeSemantics ∧ a.numItems ≤ index then some 0
  else do
    let byte0 := (a.bit0Offset index >>> 3).toNat
    let start := (a.bit0Offset index &&& 7#64).toNat
    if ¬ a.safeSemantics ∨ byte0 + kWordSize ≤ a.endOffset then
      let word ← loadUnsignedWord mem byte0
      pure (a.extract word start)
    else if kWordSize ≤ a.endOffset then
      let lastWord := a.endOffset - kWordSize
      let shift := start + (byte0 - lastWord) <<< 3
      guard (shift < 64)
      let word ← loadUnsignedWord mem lastWord
      pure (a.extract word shift)
    else
      let word ← read mem byte0 ((start + a.width + 7) >>> 3)
      pure (a.extract word start)

/-- The word that `Set` writes in place of `word`. -/
def blend (word : BitVec 64) (value : BitVec 32) (start : Nat) : BitVec 64 :=
  let shiftedValue := value.setWidth 64 <<< start
  let mask2 := ((1#64 <<< a.width) - 1#64) <<< start
  let mask1 := ~~~mask2
  (word &&& mask1) ||| (shiftedValue &&& mask2)

/-- `Set(index, value)`. -/
def set (mem : List Byte) (index : BitVec 64) (value : BitVec 32) : Option (List Byte) :=
  if ¬ a.writable then none
  else if a.safeSemantics ∧ ¬ index < a.numItems then none
  else do
    let byte0 := (a.bit0Offset index >>> 3).toNat
    let start := (a.bit0Offset index &&& 7#64).toNat
    if a.safeSemantics ∧ a.endOffset ≤ byte0 + kWordSize then
      let numBytes := (start + a.width + 7) >>> 3
      let word ← read mem byte0 numBytes
      write mem byte0 numBytes (a.blend word value start)
    else
      let word ← loadUnsignedWord mem byte0
      storeUnsignedWord mem byte0 (a.blend word value start)

end FixedBitWidthArrayBase

/-! ## Runs -/

/-- A call on the array. -/
inductive Op where
  | get (index : BitVec 64)
  | set (index : BitVec 64) (value : BitVec 32)
deriving DecidableEq, Repr

/-- The element that a call is about. -/
def Op.index : Op → BitVec 64
  | .get index => index
  | .set index _ => index

/-- Make the calls and collect what `Get` returns. -/
def run (a : FixedBitWidthArrayBase) : List Byte → List Op → Option (List (BitVec 32) × List Byte)
  | mem, [] => some ([], mem)
  | mem, .get index :: ops => do
    let result ← a.get mem index
    let (results, mem) ← run a mem ops
    pure (result :: results, mem)
  | mem, .set index value :: ops => do
    let mem ← a.set mem index value
    run a mem ops

end Gloop.Coding.FixedBitWidthArray

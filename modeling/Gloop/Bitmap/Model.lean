import Gloop.Foundation.PackedBits

/-!
# `BasicBitmap` of `bitmap.h`

A bitmap with words of `2 ^ k` bits. Words are promoted to wider types in the source and narrowed
again, which no operation here can tell. Memory from `new` has arbitrary contents, `uninit`. Sizes
and indexes are `size_t`. A failed `CHECK` or assertion and an access outside of the map are `none`.
-/

namespace Gloop.Bitmap

open Gloop.Foundation

/-- A word of a bitmap, with `kIntBits = 2 ^ k` bits. -/
abbrev Word (k : Nat) := BitVec (2 ^ k)

/-- A `BasicBitmap` that owns its memory. -/
structure BasicBitmap (k : Nat) where
  map : List (Word k)
  size : Nat
deriving DecidableEq, Repr

variable {k : Nat}

/-- `kAllOnesWord`. -/
def kAllOnesWord : Word k :=
  BitVec.allOnes (2 ^ k)

/-- `RequiredArraySize(num_bits)`. -/
def requiredArraySize (k numBits : Nat) : Nat :=
  if numBits = 0 then 1 else (numBits - 1) / 2 ^ k + 1

/-- `SetBit(map, index, value)`, with the old value. -/
def setBit (map : List (Word k)) (index : Nat) (value : Bool) : Option (Bool × List (Word k)) := do
  let bit := 1#(2 ^ k) <<< (index &&& (2 ^ k - 1))
  let oldValue ← map[index / 2 ^ k]?
  let newValue := if value then oldValue ||| bit else oldValue &&& ~~~bit
  pure (oldValue &&& bit ≠ 0, map.set (index / 2 ^ k) newValue)

/-- `GetBit(map, index)`. -/
def getBit (map : List (Word k)) (index : Nat) : Option Bool := do
  let word ← map[index / 2 ^ k]?
  pure (word &&& (1#(2 ^ k) <<< (index &&& (2 ^ k - 1))) ≠ 0)

namespace BasicBitmap

variable (m : BasicBitmap k)

/-- `array_size()`. -/
def arraySize : Nat :=
  requiredArraySize k m.size

/-- `HighOrderMapElementMask()`. -/
def highOrderMapElementMask : Word k :=
  if m.size = 0 then 0 else kAllOnesWord >>> ((2 ^ 64 - m.size) &&& (2 ^ k - 1))

/-! ## Changes -/

/-- `SetAll(value)`. -/
def setAll (value : Bool) : Option (BasicBitmap k) := do
  let map ← fill m.map 0 m.arraySize (if value then kAllOnesWord else 0)
  pure { m with map }

variable (uninit : Nat → Word k)

/-- `BasicBitmap(size, fill)`. -/
def new (size : Nat) (fill : Bool) : Option (BasicBitmap k) :=
  setAll { map := tabulate (requiredArraySize k size) uninit, size } fill

/-- `BasicBitmap()`. -/
def default : BasicBitmap k :=
  { map := tabulate (requiredArraySize k 0) uninit, size := 0 }

/-- `Get(index)`. -/
def get (index : Nat) : Option Bool := do
  guard (index < m.size)
  getBit m.map index

/-- `Set(index, value)`. -/
def set (index : Nat) (value : Bool) : Option (Bool × BasicBitmap k) := do
  guard (index < m.size)
  let (old, map) ← setBit m.map index value
  pure (old, { m with map })

/-- `Toggle(index)`. -/
def toggle (index : Nat) : Option (BasicBitmap k) := do
  guard (index < m.size)
  let map ← update m.map (index / 2 ^ k) (· ^^^ (1#(2 ^ k) <<< (index &&& (2 ^ k - 1))))
  pure { m with map }

/-- Set or clear the bits of a mask. -/
def assignMask (value : Bool) (mask word : Word k) : Word k :=
  if value then word ||| mask else word &&& ~~~mask

/-- `SetRange(begin, end, value)`. -/
def setRange (begin limit : Nat) (value : Bool) : Option (BasicBitmap k) :=
  if begin = limit then some m
  else do
    let beginElement := begin / 2 ^ k
    let beginBit := begin % 2 ^ k
    let endElement := limit / 2 ^ k
    let endBit := limit % 2 ^ k
    let initialMask : Word k := kAllOnesWord <<< beginBit
    let finalMask : Word k := kAllOnesWord >>> (2 ^ k - endBit)
    let initialMask := if endElement = beginElement then initialMask &&& finalMask else initialMask
    let map ← update m.map beginElement (assignMask value initialMask)
    if endElement = beginElement then pure { m with map }
    else
      let map ← fill map (beginElement + 1) endElement (if value then kAllOnesWord else 0)
      if endBit = 0 then pure { m with map }
      else
        let map ← update map endElement (assignMask value finalMask)
        pure { m with map }

/-- `Complement()`. -/
def complement : Option (BasicBitmap k) := do
  let map ← transform (fun w _ => ~~~w) m.map m.map m.arraySize
  pure { m with map }

variable (m other : BasicBitmap k)

/-- `Union(other)`. -/
def union : Option (BasicBitmap k) := do
  let minArraySize := min m.arraySize other.arraySize
  if minArraySize = 0 then pure m
  else
    let last := minArraySize - 1
    let map ← transform (· ||| ·) m.map other.map last
    let word ← other.map[last]?
    let word :=
      if other.arraySize = minArraySize then word &&& other.highOrderMapElementMask else word
    let map ← update map last (· ||| word)
    pure { m with map }

/-- `Intersection(other)`. -/
def intersection : Option (BasicBitmap k) := do
  let minArraySize := min m.arraySize other.arraySize
  let map ← transform (· &&& ·) m.map other.map minArraySize
  if other.arraySize = minArraySize then
    let map ←
      if other.arraySize ≠ 0 then
        update map (other.arraySize - 1) (· &&& other.highOrderMapElementMask)
      else some map
    let map ← fill map other.arraySize m.arraySize 0
    pure { m with map }
  else pure { m with map }

/-- `Difference(other)`. -/
def difference : Option (BasicBitmap k) := do
  guard (m.size = other.size)
  let map ← transform (fun a b => a &&& ~~~b) m.map other.map m.arraySize
  pure { m with map }

/-- `ExclusiveOr(other)`. -/
def exclusiveOr : Option (BasicBitmap k) := do
  guard (m.size = other.size)
  let map ← transform (· ^^^ ·) m.map other.map m.arraySize
  pure { m with map }

/-- `Resize(size, fill)`. -/
def resize (m : BasicBitmap k) (size : Nat) (fill : Bool) : Option (BasicBitmap k) := do
  let oldSize := m.size
  let newArraySize := requiredArraySize k size
  let map ←
    if newArraySize = m.arraySize then some m.map
    else copy (tabulate newArraySize uninit) m.map (min newArraySize m.arraySize)
  let m : BasicBitmap k := { map, size }
  if oldSize < m.size then m.setRange oldSize m.size fill else pure m

/-- `operator=(src)`, between bitmaps that own their memory. -/
def assign (m src : BasicBitmap k) : Option (BasicBitmap k) := do
  let map := if m.arraySize = src.arraySize then m.map else tabulate src.arraySize uninit
  let map ← copy map src.map src.arraySize
  pure { map, size := src.size }

/-! ## Queries -/

/-- `GetOnesCountInRange(start, end)`. -/
def getOnesCountInRange (start limit : Nat) : Option Nat := do
  guard (limit ≤ m.size)
  guard (start ≤ limit)
  if limit ≤ start then pure 0
  else
    let startWord := start / 2 ^ k
    let endWord := (limit - 1) / 2 ^ k
    let word ← m.map[startWord]?
    let c := word &&& (kAllOnesWord <<< (start &&& (2 ^ k - 1)))
    let endmask : Word k := kAllOnesWord >>> ((endWord + 1) * 2 ^ k - limit)
    if endWord = startWord then pure (popcount (c &&& endmask))
    else
      let middle ← slice m.map (startWord + 1) endWord
      let sum := middle.foldl (fun sum w => sum + popcount w) (popcount c)
      let word ← m.map[endWord]?
      pure (sum + popcount (word &&& endmask))

/-- `GetOnesCount()`. -/
def getOnesCount : Option Nat :=
  m.getOnesCountInRange 0 m.size

/-- `IsAllZeroes()`. -/
def isAllZeroes : Option Bool := do
  let front ← slice m.map 0 (m.arraySize - 1)
  let last ← m.map[m.arraySize - 1]?
  pure (front.all (· = 0) && decide (last &&& m.highOrderMapElementMask = 0))

/-- `IsAllOnes()`. -/
def isAllOnes : Option Bool := do
  let front ← slice m.map 0 (m.arraySize - 1)
  let last ← m.map[m.arraySize - 1]?
  pure (front.all (· = kAllOnesWord) && decide (~~~last &&& m.highOrderMapElementMask = 0))

/-- The test of the last word in `TestRange`. -/
def testLast (ilast j jlast : Nat) : Option Bool := do
  let last ← m.map[ilast]?
  let mask := (((1#(2 ^ k) <<< 1) <<< (jlast - j)) - 1#(2 ^ k)) <<< j
  pure (last &&& mask ≠ 0)

/-- `TestRange(begin, end)`. -/
def testRange (begin limit : Nat) : Option Bool :=
  if begin = limit then some false
  else do
    let i := begin / 2 ^ k
    let j := begin &&& (2 ^ k - 1)
    let ilast := (limit - 1) / 2 ^ k
    let jlast := (limit - 1) &&& (2 ^ k - 1)
    if i < ilast then
      let first ← m.map[i]?
      if first >>> j ≠ 0 then pure true
      else
        let middle ← slice m.map (i + 1) ilast
        if middle.any (· ≠ 0) then pure true
        else m.testLast ilast 0 jlast
    else m.testLast ilast j jlast

/-- `IsEqual(other)`. -/
def isEqual : Option Bool :=
  if m.size = other.size then do
    let front ← slice m.map 0 (m.arraySize - 1)
    let otherFront ← slice other.map 0 (m.arraySize - 1)
    let last ← m.map[m.arraySize - 1]?
    let otherLast ← other.map[m.arraySize - 1]?
    pure ((decide (m.arraySize < 1) || decide (front = otherFront)) &&
      decide (m.highOrderMapElementMask &&& otherLast = m.highOrderMapElementMask &&& last))
  else some false

/-- `IsSubsetOf(other)`. -/
def isSubsetOf : Option Bool := do
  guard (m.size = other.size)
  let front ← slice m.map 0 (m.arraySize - 1)
  let otherFront ← slice other.map 0 (m.arraySize - 1)
  let last ← m.map[m.arraySize - 1]?
  let otherLast ← other.map[m.arraySize - 1]?
  pure ((front.zip otherFront).all (fun (a, b) => a &&& ~~~b = 0) &&
    decide (last &&& ~~~otherLast &&& m.highOrderMapElementMask = 0))

/-- `IsIntersectionNonEmpty(other)`. -/
def isIntersectionNonEmpty : Option Bool := do
  let maxOverlap := min m.arraySize other.arraySize - 1
  let front ← slice m.map 0 maxOverlap
  let otherFront ← slice other.map 0 maxOverlap
  let last ← m.map[maxOverlap]?
  let otherLast ← other.map[maxOverlap]?
  let highByte := last &&& otherLast
  let mask : Word k :=
    if m.arraySize < other.arraySize then m.highOrderMapElementMask
    else if other.arraySize < m.arraySize then other.highOrderMapElementMask
    else m.highOrderMapElementMask &&& other.highOrderMapElementMask
  pure ((front.zip otherFront).any (fun (a, b) => a &&& b ≠ 0) || decide (highByte &&& mask ≠ 0))

/-- `HammingDistance(other)`. -/
def hammingDistance : Option Nat := do
  guard (m.size = other.size)
  guard (0 < m.arraySize)
  let front ← slice m.map 0 (m.arraySize - 1)
  let otherFront ← slice other.map 0 (m.arraySize - 1)
  let dist := (front.zip otherFront).foldl (fun dist (a, b) => dist + popcount (a ^^^ b)) 0
  let last ← m.map[m.arraySize - 1]?
  let otherLast ← other.map[m.arraySize - 1]?
  pure (dist + popcount ((last ^^^ otherLast) &&& m.highOrderMapElementMask))

/-- A state of `absl::Hash`, with its `combine_contiguous` and `combine`. -/
structure HashState (k : Nat) (H : Type) where
  combineContiguous : H → List (Word k) → H
  combine : H → Word k → H

/-- `AbslHashValue(state, bitmap)`. -/
def abslHashValue {H : Type} (hash : HashState k H) (state : H) (m : BasicBitmap k) : Option H := do
  let completeMapEntries := m.size / 2 ^ k
  let front ← slice m.map 0 completeMapEntries
  let state := hash.combineContiguous state front
  if completeMapEntries = m.arraySize then pure state
  else
    let last ← m.map[m.arraySize - 1]?
    pure (hash.combine state (last &&& m.highOrderMapElementMask))

end BasicBitmap

end Gloop.Bitmap

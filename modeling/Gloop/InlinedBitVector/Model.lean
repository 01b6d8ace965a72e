import Gloop.Foundation.Iterate
import Gloop.Foundation.PackedBits

/-!
# `InlinedBitVector` of `inlined_bitvector.h`

A descriptor holds the size and the logarithm of the capacity of an array on the heap, or zero for
it if the words are in the object. The words are in a union with the pointer to that array. Memory
that was not written has arbitrary contents, `uninit`. Sizes are `size_t`, and some loops count with
an `int`, which `intLoop` follows: a conversion wraps, and a negative index or an overflow is
`none`, like a failed check.
-/

namespace Gloop

namespace InlinedBitVector

open Gloop.Foundation

/-! ## Loops that count with an `int` -/

/-- The conversion of a `size_t` to `int`. -/
def toInt (n : Nat) : Int :=
  (BitVec.ofNat 32 n).toInt

/-- The conversion of an `int` to `size_t`. -/
def toSize (i : Int) : Nat :=
  (i % 2 ^ 64).toNat

/-- The largest `int`. -/
def intMax : Int := 2147483647

/-- A round of a loop that counts with an `int`. -/
def intStep {σ : Type} (cond : Int → Bool) (body : Nat → σ → Option σ) :
    Int × σ → Option (Int × σ ⊕ σ)
  | (i, s) =>
    if cond i then do
      guard (0 ≤ i)
      let s ← body i.toNat s
      guard (i < intMax)
      pure (.inl (i + 1, s))
    else some (.inr s)

/-- `for (int i = start; cond(i); ++i) body(i)`. -/
def intLoop {σ : Type} (start : Int) (cond : Int → Bool) (body : Nat → σ → Option σ) (s : σ) :
    Option σ :=
  iterate (intStep cond body) (start, s)

/-! ## Constants and descriptors -/

/-- `kInlineBits`, of a class that exists. -/
def kInlineBits (nbits : Nat) : Nat :=
  (nbits + 63) / 64 * 64

/-- `kInlineWords`. -/
def kInlineWords (nbits : Nat) : Nat :=
  (kInlineBits nbits + 31) / 32

/-- `needed_words(nbits)`. -/
def neededWords (nbits : Nat) : Nat :=
  (nbits + 31) % 2 ^ 64 / 32

/-- `capacity_lg(num_words)`. -/
def capacityLg (numWords : Nat) : Nat :=
  (numWords ||| 1).log2 + 1

/-- `kEmptyDescriptor`. -/
def kEmptyDescriptor : BitVec 64 := 0#64

/-- `inlined_descriptor(nbits)`. -/
def inlinedDescriptor (nbits : Nat) : BitVec 64 :=
  BitVec.ofNat 64 nbits <<< 8

/-- `external_descriptor(nbits, lg_cap)`. -/
def externalDescriptor (nbits lgCap : Nat) : Option (BitVec 64) := do
  guard (neededWords nbits ≤ 2 ^ lgCap)
  guard (1 ≤ lgCap)
  pure (BitVec.ofNat 64 lgCap ||| (BitVec.ofNat 64 nbits <<< 8))

/-- The union of the words in the object and the pointer to an array. -/
inductive Data
  | words (array : List (BitVec 32))
  | ptr (array : List (BitVec 32))
deriving DecidableEq, Repr

end InlinedBitVector

/-- The members of an `InlinedBitVector`. -/
structure InlinedBitVector where
  descriptor : BitVec 64
  data : InlinedBitVector.Data
deriving DecidableEq, Repr

namespace InlinedBitVector

open Gloop.Foundation

variable (v : InlinedBitVector)

/-- `external()`. -/
def external : Bool :=
  v.descriptor &&& 0xff#64 ≠ 0

/-- `get_size()` and `size()`. -/
def size : Nat :=
  (v.descriptor >>> 8).toNat

/-- `set_size(n)`. -/
def setSize (n : Nat) : InlinedBitVector :=
  { v with descriptor := (v.descriptor &&& 0xff#64) ||| (BitVec.ofNat 64 n <<< 8) }

/-- `lg_capacity_words()`. -/
def lgCapacityWords : Nat :=
  (v.descriptor &&& 0xff#64).toNat

/-- `num_words()`. -/
def numWords : Nat :=
  neededWords v.size

/-- `words()`. -/
def words : Option (List (BitVec 32)) :=
  match v.external, v.data with
  | false, .words array => some array
  | true, .ptr array => some array
  | _, _ => none

/-- Write through `mutable_words()`. -/
def setWords (array : List (BitVec 32)) : InlinedBitVector :=
  { v with
    data := match v.data with
      | .words _ => .words array
      | .ptr _ => .ptr array }

/-- `word_span()`. -/
def wordSpan : Option (List (BitVec 32)) := do
  let array ← v.words
  slice array 0 v.numWords

variable (nbits : Nat)

/-- `Invariants()`. -/
def invariants (v : InlinedBitVector) : Option Unit := do
  guard (if v.external then decide (v.numWords ≤ 2 ^ v.lgCapacityWords)
    else decide (v.size ≤ kInlineBits nbits) && decide (v.lgCapacityWords = 0))
  let numTrailingBits := v.size % 32
  if 0 < numTrailingBits then
    let array ← v.words
    let lastWord ← array[v.numWords - 1]?
    guard (lastWord >>> numTrailingBits = 0)
  else pure ()

/-- A result after `DCHECK(Invariants())`. -/
def checked (v : InlinedBitVector) : Option InlinedBitVector := do
  v.invariants nbits
  pure v

/-- `ClearUnusedBits()`. -/
def clearUnusedBits : Option InlinedBitVector :=
  let n := v.size
  let numTrailingBits := n % 32
  if numTrailingBits = 0 then some v
  else do
    let lastWordMask := (1#32 <<< numTrailingBits) - 1#32
    let array ← v.words
    let array ← update array (n / 32) (· &&& lastWordMask)
    pure (v.setWords array)

/-! ## Sizes -/

/-- `InlinedBitVector()`. -/
def default (uninit : Nat → BitVec 32) : InlinedBitVector :=
  { descriptor := kEmptyDescriptor, data := .words (tabulate (kInlineWords nbits) uninit) }

/-- `InlinedBitVector(num_bits)`. -/
def new (uninit : Nat → BitVec 32) (numBits : Nat) : Option InlinedBitVector := do
  if numBits ≤ kInlineBits nbits then
    let array ← fill (tabulate (kInlineWords nbits) uninit) 0 (kInlineWords nbits) 0
    checked nbits { descriptor := inlinedDescriptor numBits, data := .words array }
  else
    let numWords := neededWords numBits
    let newCapLg := capacityLg numWords
    guard (numWords ≤ 2 ^ newCapLg)
    let descriptor ← externalDescriptor numBits newCapLg
    let array ← fill (tabulate (2 ^ newCapLg) uninit) 0 numWords 0
    checked nbits { descriptor, data := .ptr array }

/-- `clear()`. -/
def clear (v : InlinedBitVector) : Option InlinedBitVector :=
  (v.setSize 0).checked nbits

/-- `resize(num_bits)`. -/
def resize (uninit : Nat → BitVec 32) (v : InlinedBitVector) (numBits : Nat) :
    Option InlinedBitVector :=
  if numBits = v.size then some v
  else if numBits < v.size then do
    let v ← (v.setSize numBits).clearUnusedBits
    v.checked nbits
  else do
    let oldArray ← v.words
    let currentWords := v.numWords
    let numWords := neededWords numBits
    let capacityInWords := if v.external then 2 ^ v.lgCapacityWords else kInlineWords nbits
    if numWords ≤ capacityInWords then
      let array ← fill oldArray currentWords numWords 0
      ((v.setWords array).setSize numBits).checked nbits
    else
      let newCapLg := capacityLg numWords
      guard (numWords ≤ 2 ^ newCapLg)
      let newArray ← copy (tabulate (2 ^ newCapLg) uninit) oldArray currentWords
      let newArray ← fill newArray currentWords numWords 0
      let descriptor ← externalDescriptor numBits newCapLg
      checked nbits { descriptor, data := .ptr newArray }

/-- `operator=(other)` for another object, and with a new object the copy constructor. -/
def assign (uninit : Nat → BitVec 32) (v other : InlinedBitVector) : Option InlinedBitVector := do
  let v ← v.resize nbits uninit other.size
  let array ← v.words
  let otherArray ← other.words
  let array ← copy array otherArray v.numWords
  pure (v.setWords array)

/-- What the move constructor and the move assignment leave of `other`. The pointer that stays in
the union is read as arbitrary words. -/
def moved (uninit : Nat → BitVec 32) (other : InlinedBitVector) : InlinedBitVector :=
  { descriptor := kEmptyDescriptor
    data := match other.data with
      | .words array => .words array
      | .ptr _ => .words (tabulate (kInlineWords nbits) uninit) }

/-- The move constructor, and the move assignment from another object. -/
def move (uninit : Nat → BitVec 32) (other : InlinedBitVector) :
    Option (InlinedBitVector × InlinedBitVector) := do
  let v ← other.checked nbits
  let other ← (other.moved nbits uninit).checked nbits
  pure (v, other)

/-! ## Bits -/

/-- `get_bit(index)`. -/
def getBit (index : Nat) : Option Bool := do
  guard (index < v.size)
  let a ← v.words
  let word ← a[index / 32]?
  pure (word &&& (1#32 <<< (index &&& 31)) ≠ 0)

/-- `set_bit(index)`. -/
def setBit (v : InlinedBitVector) (index : Nat) : Option InlinedBitVector := do
  guard (index < v.size)
  let a ← v.words
  let a ← update a (index / 32) (· ||| (1#32 <<< (index &&& 31)))
  (v.setWords a).checked nbits

/-- `clear_bit(index)`. -/
def clearBit (v : InlinedBitVector) (index : Nat) : Option InlinedBitVector := do
  guard (index < v.size)
  let a ← v.words
  let a ← update a (index / 32) (· &&& ~~~(1#32 <<< (index &&& 31)))
  (v.setWords a).checked nbits

/-- `assign_bit(index, val)`. -/
def assignBit (v : InlinedBitVector) (index : Nat) (val : Bool) : Option InlinedBitVector :=
  if val then v.setBit nbits index else v.clearBit nbits index

/-- The writes of `SetBits` and `ClearBits`: to the word that holds the whole range, or else to the
first word, the words between and the last word. -/
def changeWords (a : List (BitVec 32)) (start limit : Nat) (whole first : BitVec 32 → BitVec 32)
    (between : BitVec 32) (last : BitVec 32 → BitVec 32) : Option (List (BitVec 32)) :=
  let startWord := start / 32
  let endWord := limit / 32
  if startWord = endWord then update a startWord whole
  else do
    let a ← update a startWord first
    let a ← intLoop (toInt (startWord + 1)) (fun i => toSize i < endWord)
      (fun i a => Foundation.assign a i between) a
    if limit % 32 = 0 then some a else update a endWord last

/-- The common part of `SetBits` and `ClearBits`. -/
def changeBits (v : InlinedBitVector) (start limit : Nat)
    (whole first : BitVec 32 → BitVec 32) (between : BitVec 32) (last : BitVec 32 → BitVec 32) :
    Option InlinedBitVector := do
  guard (start ≤ limit)
  guard (limit ≤ v.size)
  if limit ≤ start then pure v
  else
    let a ← v.words
    let a ← changeWords a start limit whole first between last
    (v.setWords a).checked nbits

/-- `SetBits(start, end)`. -/
def setBits (v : InlinedBitVector) (start limit : Nat) : Option InlinedBitVector :=
  let startWordMask := ~~~((1#32 <<< (start % 32)) - 1#32)
  let endWordMask := (1#32 <<< (limit % 32)) - 1#32
  v.changeBits nbits start limit (· ||| (startWordMask &&& endWordMask))
    (· ||| startWordMask) (~~~0#32)
    (· ||| endWordMask)

/-- `ClearBits(start, end)`. -/
def clearBits (v : InlinedBitVector) (start limit : Nat) : Option InlinedBitVector :=
  let startWordMask := (1#32 <<< (start % 32)) - 1#32
  let endWordMask := ~~~((1#32 <<< (limit % 32)) - 1#32)
  v.changeBits nbits start limit (· &&& (startWordMask ||| endWordMask)) (· &&& startWordMask) 0#32
    (· &&& endWordMask)

/-! ## Two vectors -/

/-- `my_words[i] = f(my_words[i], other_words[i])`. -/
def combineWord (f : BitVec 32 → BitVec 32 → BitVec 32) (other : List (BitVec 32)) (i : Nat)
    (a : List (BitVec 32)) : Option (List (BitVec 32)) := do
  let word ← other[i]?
  update a i (f · word)

/-- The loop of `Union(other)`. -/
def unionWords (v other : InlinedBitVector) : Option InlinedBitVector := do
  let myWords ← v.words
  let otherWords ← other.words
  let nWords := toInt other.numWords
  let myWords ← intLoop 0 (· < nWords) (combineWord (· ||| ·) otherWords) myWords
  (v.setWords myWords).checked nbits

/-- `Union(other)`. -/
def union (uninit : Nat → BitVec 32) (v other : InlinedBitVector) : Option InlinedBitVector :=
  if v.size < other.size then do
    let v ← v.resize nbits uninit other.size
    v.unionWords nbits other
  else v.unionWords nbits other

/-- `Intersection(other)`. -/
def intersection (v other : InlinedBitVector) : Option InlinedBitVector := do
  let myNumWords := v.numWords
  let myWords ← v.words
  let otherWords ← other.words
  let nWords := toInt (min myNumWords other.numWords)
  let myWords ← intLoop 0 (· < nWords) (combineWord (· &&& ·) otherWords) myWords
  let myWords ← intLoop nWords (fun i => toSize i < myNumWords)
    (fun i a => Foundation.assign a i 0#32) myWords
  (v.setWords myWords).checked nbits

/-- `Difference(other)`. -/
def difference (v other : InlinedBitVector) : Option InlinedBitVector := do
  let myWords ← v.words
  let otherWords ← other.words
  let nWords := toInt (min v.numWords other.numWords)
  let myWords ← intLoop 0 (· < nWords) (combineWord (fun a b => a &&& ~~~b) otherWords) myWords
  (v.setWords myWords).checked nbits

/-- A round of `IsIntersectionNonEmpty`. Once a common bit was found, the loop has returned. -/
def intersectsWord (myWords otherWords : List (BitVec 32)) (i : Nat) (found : Bool) : Option Bool :=
  if found then some true
  else do
    let a ← myWords[i]?
    let b ← otherWords[i]?
    pure (a &&& b ≠ 0)

/-- `IsIntersectionNonEmpty(other)`. -/
def isIntersectionNonEmpty (v other : InlinedBitVector) : Option Bool := do
  let myWords ← v.words
  let otherWords ← other.words
  let nWords := toInt (min v.numWords other.numWords)
  intLoop 0 (· < nWords) (intersectsWord myWords otherWords) false

/-- `Equals(other)`. -/
def equals (v other : InlinedBitVector) : Option Bool := do
  let span ← v.wordSpan
  let otherSpan ← other.wordSpan
  pure (decide (v.size = other.size) && decide (span = otherSpan))

/-- `count()`. -/
def count : Option Nat := do
  let span ← v.wordSpan
  pure (span.foldl (fun r w => r + popcount w) 0)

/-- A state of `absl::Hash`, with its `combine_contiguous` and `combine`. -/
structure HashState (H : Type) where
  combineContiguous : H → List (BitVec 32) → H
  combine : H → Nat → H

/-- `AbslHashValue(h, vec)`. -/
def abslHashValue {H : Type} (hash : HashState H) (h : H) (v : InlinedBitVector) : Option H := do
  let span ← v.wordSpan
  pure (hash.combine (hash.combineContiguous h span) v.size)

end InlinedBitVector

end Gloop

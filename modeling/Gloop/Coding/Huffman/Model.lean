import Gloop.Coding.BitCoding.Model
import Gloop.Foundation.ArrayLoop

/-!
# Huffman codes and code tables

The encoder tables of `huffcoding.cc` and the table coder of `tablecoding.h`, with the default
template arguments `maxlen_bits = 5` and `Elem = uint32_t`. Arrays are lists; an access outside of
one, a read of an element that was not written and a failed `CHECK` are `none`. Debug checks are
left out.
-/

namespace Gloop.Coding.Huffman

open Gloop.Foundation Gloop.Coding.BitCoding List

/-! ## `BitEncoder::ReverseBits` -/

/-- One step of `ReverseBits32`: swap neighbouring groups of `n` bits. -/
def swapGroups (n : BitVec 32) (shift : Nat) (mask : BitVec 32) : BitVec 32 :=
  ((n >>> shift) &&& mask) ||| ((n &&& mask) <<< shift)

/-- `bswap_32(n)`. -/
def bswap32 (n : BitVec 32) : BitVec 32 :=
  swapGroups (swapGroups n 8 0x00FF00FF#32) 16 0x0000FFFF#32

/-- `Bits::ReverseBits32(n)`, the portable version. -/
def reverseBits32 (n : BitVec 32) : BitVec 32 :=
  let n := swapGroups n 1 0x55555555#32
  let n := swapGroups n 2 0x33333333#32
  let n := swapGroups n 4 0x0F0F0F0F#32
  bswap32 n

/-- `BitEncoder::ReverseBits(n, x)`. -/
def reverseBits (n : Nat) (x : BitVec 32) : BitVec 32 :=
  if n = 0 then 0 else reverseBits32 x >>> (32 - n)

/-! ## `TableEncoder` -/

/-- A `TableEncoder`. Elements of the table that were not written are missing. -/
structure TableEncoder where
  num : Nat
  table : List (Option (BitVec 32))
deriving DecidableEq, Repr

namespace TableEncoder

variable (t : TableEncoder)

/-- `table_[symbol]`. -/
def entry (symbol : Nat) : Option (BitVec 32) :=
  t.table[symbol]?.join

/-- `EncodingLength(symbol)`. -/
def encodingLength (symbol : Nat) : Option Nat := do
  let v ← t.entry symbol
  pure (v >>> 27).toNat

/-- `Encoding(symbol)`. -/
def encoding (symbol : Nat) : Option (BitVec 32) := do
  let v ← t.entry symbol
  pure (v &&& 0x7FFFFFF#32)

/-- `PutSymbol(encoder, sym)`. -/
def putSymbol (e : BitEncoder) (sym : Nat) : Option BitEncoder := do
  let v ← t.entry sym
  e.putBits v (v >>> 27).toNat

end TableEncoder

/-! ## `HuffmanCode::InitializeEncoder` -/

/-- A `HuffmanCode`: the length of each symbol's code. -/
structure HuffmanCode where
  length : List Nat
deriving DecidableEq, Repr

/-- A `Symbol`. -/
structure Symbol where
  id : Nat
  length : Nat
deriving DecidableEq, Repr

/-- One round of the loop over the symbols, which counts the lengths and finds the greatest. -/
def countLength (state : List Nat × Nat) (sym : Symbol) : Option (List Nat × Nat) := do
  let count ← state.1[sym.length]?
  let counts ← assign state.1 sym.length (count + 1)
  pure (counts, max state.2 sym.length)

/-- One round of the first loop of `CountingSortByLength`. -/
def addOffset (counts offsets : List Nat) (i : Nat) : Option (List Nat) := do
  let count ← counts[i - 1]?
  let offset ← offsets[i - 1]?
  assign offsets i (count + offset)

/-- One round of the second loop of `CountingSortByLength`. -/
def placeSymbol (state : List Nat × List (Option Symbol)) (sym : Symbol) :
    Option (List Nat × List (Option Symbol)) := do
  let curOffset ← state.1[sym.length]?
  let sortedSym ← assign state.2 curOffset (some sym)
  let offsets ← assign state.1 sym.length (curOffset + 1)
  pure (offsets, sortedSym)

/-- `CountingSortByLength(counts, sym, sorted_sym, N, max_length)`. -/
def countingSortByLength (counts : List Nat) (sym : List Symbol) (maxLength : Nat) :
    Option (List (Option Symbol)) := do
  let offsets ← (range' 2 (maxLength - 1)).foldlM (addOffset counts)
    (replicate (maxLength + 1) 0)
  let (_, sortedSym) ← sym.foldlM placeSymbol (offsets, replicate sym.length none)
  pure sortedSym

/-- The table entry of a code of length `L`. -/
def tableEntry (L : Nat) (encoding : BitVec 32) : BitVec 32 :=
  (BitVec.ofNat 32 L <<< 27) ||| reverseBits L encoding

/-- One round of the inner loop that assigns the codes of length `L`. -/
def assignCode (sortedSym : List (Option Symbol)) (L index : Nat) (last : BitVec 32)
    (t : List (Option (BitVec 32))) (i : Nat) : Option (List (Option (BitVec 32))) := do
  let sym ← sortedSym[index + i]?.join
  if sym.length = L then
    let encoding := last - 1#32 - BitVec.ofNat 32 i
    assign t sym.id (some (tableEntry L encoding))
  else none

/-- The variables of the loop over the lengths. -/
structure AssignState where
  last : BitVec 32
  index : Nat
  t : List (Option (BitVec 32))

/-- One round of the loop over the lengths. -/
def assignCodes (counts : List Nat) (sortedSym : List (Option Symbol))
    (state : AssignState) (L : Nat) : Option AssignState := do
  let count ← counts[L]?
  let last := 2#32 * state.last + BitVec.ofNat 32 count
  let t ← (range count).foldlM (assignCode sortedSym L state.index last) state.t
  pure ⟨last, state.index + count, t⟩

/-- `InitializeEncoder(encoder)`. -/
def HuffmanCode.initializeEncoder (h : HuffmanCode) : Option TableEncoder := do
  let N := h.length.length
  if N = 1 then
    let length ← h.length[0]?
    pure ⟨N, [some (BitVec.ofNat 32 length <<< 27)]⟩
  else
    let sym := h.length.mapIdx Symbol.mk
    let (counts, maxLength) ← sym.foldlM countLength (replicate 32 0, 0)
    let sortedSym ← countingSortByLength counts sym maxLength
    let final ← (range' 1 maxLength).foldlM (assignCodes counts sortedSym)
      ⟨0, 0, replicate N none⟩
    pure ⟨N, final.t⟩

/-! ## `TableDecoder` -/

/-- `len_shift`. -/
def lenShift : Nat :=
  27

/-- The assignments to `table_` for one symbol. -/
def symbolFills (maxlen : Nat) (encoder : TableEncoder) (sym : Nat) :
    Option (List (Nat × BitVec 32)) := do
  let encLength ← encoder.encodingLength sym
  let enc ← encoder.encoding sym
  if encLength ≤ maxlen then
    let slop := maxlen - encLength
    pure ((range (1 <<< slop)).map fun extra =>
      (((BitVec.ofNat 32 extra <<< encLength) ||| enc).toNat,
        (BitVec.ofNat 32 encLength <<< lenShift) ||| BitVec.ofNat 32 sym))
  else none

/-- The assignments to `table_` in `InitializeFromEncoder`. Without a symbol, `max_symbol` is the
greatest `unsigned int` and the loop reads outside of the encoder's table. -/
def fills (maxlen : Nat) (encoder : TableEncoder) : Option (List (Nat × BitVec 32)) :=
  if encoder.num = 0 then none
  else do
    let lists ← (range encoder.num).mapM (symbolFills maxlen encoder)
    pure lists.flatten

/-- A `TableDecoder<maxlen>`. -/
structure TableDecoder (maxlen : Nat) where
  table : List (BitVec 32)
deriving DecidableEq, Repr

namespace TableDecoder

/-- `InitializeFromEncoder(encoder)`. -/
def initializeFromEncoder (maxlen : Nat) (encoder : TableEncoder) :
    Option (TableDecoder maxlen) := do
  let assignments ← fills maxlen encoder
  let table ← assignments.foldlM (fun table fill => assign table fill.1 fill.2)
    (replicate (2 ^ maxlen) 0)
  pure ⟨table⟩

/-- `GetSymbol(bd)`. The symbol is missing where the C++ function returns -1. -/
def getSymbol {maxlen : Nat} (t : TableDecoder maxlen) (bd : BitDecoder) :
    Option (Option Nat × BitDecoder) := do
  let avail := bd.availBits
  let bd ← bd.ensureBits (min maxlen avail)
  let v ← t.table[(bd.buf.setWidth 32 &&& BitVec.ofNat 32 (2 ^ maxlen - 1)).toNat]?
  let nbits := (v >>> lenShift).toNat
  if nbits ≤ avail then
    let sym := v &&& BitVec.ofNat 32 (2 ^ lenShift - 1)
    let bd ← bd.consumeBits nbits
    pure (some sym.toNat, bd)
  else pure (none, bd)

end TableDecoder

end Gloop.Coding.Huffman

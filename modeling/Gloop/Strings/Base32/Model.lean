import Gloop.Foundation.BitString

/-!
# Base32 of `escaping.cc`

The encoder turns five bytes into eight digits at a time and fills up the last block with `'='`. The
decoder shifts the digits one by one through a register and checks the number of digits, the padding
and the bits that are left over only at the end. Both exist in a form that writes into a buffer of a
given size and in one that sets a string, and for two alphabets.
-/

namespace Gloop.Strings

open Gloop.Foundation

/-- A character literal. -/
def char (c : Char) : Byte :=
  BitVec.ofNat 8 c.toNat

def kPad32 : Byte :=
  char '='

def kIllegalBase32CharSentinel : Byte := 99#8

def kBase32NumUnescapedBytes : List Nat :=
  [0, 5, 1, 5, 2, 3, 5, 4, 5]

def kBase32Alphabet : List Byte :=
  ['A', 'B', 'C', 'D', 'E', 'F', 'G', 'H', 'I', 'J', 'K', 'L', 'M', 'N', 'O', 'P', 'Q', 'R', 'S',
    'T', 'U', 'V', 'W', 'X', 'Y', 'Z', '2', '3', '4', '5', '6', '7'].map char

def kBase32InverseAlphabet (c : Byte) : Byte :=
  if char 'A' ≤ c ∧ c ≤ char 'Z' then c - char 'A'
  else if char 'a' ≤ c ∧ c ≤ char 'z' then c - char 'a'
  else if char '2' ≤ c ∧ c ≤ char '7' then 26 + c - char '2'
  else kIllegalBase32CharSentinel

def base32HexAlphabet : List Byte :=
  ['0', '1', '2', '3', '4', '5', '6', '7', '8', '9', 'A', 'B', 'C', 'D', 'E', 'F', 'G', 'H', 'I',
    'J', 'K', 'L', 'M', 'N', 'O', 'P', 'Q', 'R', 'S', 'T', 'U', 'V'].map char

def kBase32HexInverseAlphabet (c : Byte) : Byte :=
  if char '0' ≤ c ∧ c ≤ char '9' then c - char '0'
  else if char 'A' ≤ c ∧ c ≤ char 'V' then 10 + c - char 'A'
  else if char 'a' ≤ c ∧ c ≤ char 'v' then 10 + c - char 'a'
  else kIllegalBase32CharSentinel

/-! ## Decoding -/

/-- The variables of the decoder's loop. -/
structure UnescapeState where
  buffer : BitVec 32
  bitsLeft : Nat
  paddingStarted : Bool
  nonPaddingChars : Nat
  out : Nat

def UnescapeState.init : UnescapeState :=
  ⟨0#32, 0, false, 0, 0⟩

/-- One character. The state is `none` where the source returns -1. -/
def unescapeChar (inverseAlphabet : Byte → Byte) (szdest : Nat) (c : Byte) (st : UnescapeState)
    (dest : List Byte) : Option (Option UnescapeState × List Byte) :=
  if c = kPad32 then some (some { st with paddingStarted := true }, dest)
  else if st.paddingStarted then some (none, dest)
  else
    let value := inverseAlphabet c
    if value = kIllegalBase32CharSentinel then some (none, dest)
    else
      let buffer := (st.buffer <<< 5) ||| value.setWidth 32
      let bitsLeft := st.bitsLeft + 5
      let nonPaddingChars := st.nonPaddingChars + 1
      if 8 ≤ bitsLeft then
        let bitsLeft := bitsLeft - 8
        if szdest ≤ st.out then some (none, dest)
        else
          (store dest st.out [((buffer >>> bitsLeft) &&& 0xff#32).setWidth 8]).map fun dest =>
            (some ⟨buffer, bitsLeft, false, nonPaddingChars, st.out + 1⟩, dest)
      else some (some ⟨buffer, bitsLeft, false, nonPaddingChars, st.out⟩, dest)

/-- The loop over the characters. -/
def unescapeLoop (inverseAlphabet : Byte → Byte) (szdest : Nat) :
    List Byte → UnescapeState → List Byte → Option (Option UnescapeState × List Byte)
  | [], st, dest => some (some st, dest)
  | c :: src, st, dest => do
    match ← unescapeChar inverseAlphabet szdest c st dest with
    | (none, dest) => some (none, dest)
    | (some st, dest) => unescapeLoop inverseAlphabet szdest src st dest

def kValidRemainderMaskPadded : Nat :=
  1 <<< 2 ||| 1 <<< 4 ||| 1 <<< 5 ||| 1 <<< 7

def kValidRemainderMaskUnpadded : Nat :=
  1 <<< 0 ||| 1 <<< 2 ||| 1 <<< 4 ||| 1 <<< 5 ||| 1 <<< 7

/-- The checks after the loop. -/
def UnescapeState.accepts (st : UnescapeState) (srcSize : Nat) : Bool :=
  let remainder := st.nonPaddingChars % 8
  (if st.paddingStarted then
      (1 <<< remainder) &&& kValidRemainderMaskPadded ≠ 0 ∧
        srcSize = (st.nonPaddingChars / 8 + 1) * 8
    else (1 <<< remainder) &&& kValidRemainderMaskUnpadded ≠ 0) ∧
  (0 < st.bitsLeft → st.buffer &&& ((1#32 <<< st.bitsLeft) - 1) = 0)

variable (src dest : List Byte)

/-- `GeneralBase32Unescape(src, dest, szdest, inverse_alphabet)` with a buffer. -/
def generalBase32Unescape (szdest : Nat) (inverseAlphabet : Byte → Byte) :
    Option (Int × List Byte) := do
  match ← unescapeLoop inverseAlphabet szdest src UnescapeState.init dest with
  | (none, dest) => return (-1, dest)
  | (some st, dest) => return (if st.accepts src.length then (st.out : Int) else -1, dest)

variable (uninit : Nat → Byte)

/-- `GeneralBase32Unescape(src, dest, inverse_alphabet)` with a string. What the buffer holds before
it is written is not known. -/
def generalBase32UnescapeString (src : List Byte)
    (inverseAlphabet : Byte → Byte) : Option (Bool × List Byte) := do
  let destLen := 5 * (src.length / 8) + (← kBase32NumUnescapedBytes[src.length % 8]?)
  let (len, buf) ←
    generalBase32Unescape src (resizeUninitialized uninit [] destLen) destLen inverseAlphabet
  return if len < 0 then (false, []) else (true, buf.take len.toNat)

/-- `Base32Unescape` with a buffer of `szdest` bytes. -/
def base32UnescapePtr (szdest : Nat) : Option (Int × List Byte) :=
  generalBase32Unescape src dest szdest kBase32InverseAlphabet

def base32Unescape (src : List Byte) : Option (Bool × List Byte) :=
  generalBase32UnescapeString uninit src kBase32InverseAlphabet

def base32HexUnescape (src : List Byte) : Option (Bool × List Byte) :=
  generalBase32UnescapeString uninit src kBase32HexInverseAlphabet

/-! ## Encoding -/

/-- The eight digits of five bytes. -/
def fiveBytesToEightDigits (b0 b1 b2 b3 b4 : Byte) : List Nat :=
  [b0.toNat >>> 3, (b0.toNat &&& 0x07) <<< 2 ||| b1.toNat >>> 6, (b1.toNat &&& 0x3E) >>> 1,
   (b1.toNat &&& 0x01) <<< 4 ||| b2.toNat >>> 4, (b2.toNat &&& 0x0F) <<< 1 ||| b3.toNat >>> 7,
   (b3.toNat &&& 0x7C) >>> 2, (b3.toNat &&& 0x03) <<< 3 ||| b4.toNat >>> 5, b4.toNat &&& 0x1F]

def generalFiveBytesToEightBase32Digits (b0 b1 b2 b3 b4 : Byte) (alphabet : List Byte) :
    Option (List Byte) :=
  (fiveBytesToEightDigits b0 b1 b2 b3 b4).mapM (alphabet[·]?)

/-- The loop that adds the padding. -/
def addPadding : Nat → Nat → List Byte → Option (List Byte)
  | 0, _, dest => some dest
  | count + 1, curDest, dest => do
    let dest ← store dest curDest [kPad32]
    addPadding count (curDest + 1) dest

/-- The tail of at most four bytes. -/
def escapeTail (alphabet src : List Byte) (curDest szdest : Nat) (dest : List Byte) :
    Option (Nat × List Byte) :=
  if 0 < src.length then
    if szdest < 8 then some (0, dest)
    else do
      let lastChunk := src ++ List.replicate (5 - src.length) 0#8
      let digits ← generalFiveBytesToEightBase32Digits (lastChunk.getD 0 0) (lastChunk.getD 1 0)
        (lastChunk.getD 2 0) (lastChunk.getD 3 0) (lastChunk.getD 4 0) alphabet
      let dest ← store dest curDest digits
      let filled := src.length * 8 / 5 + 1
      let dest ← addPadding (8 - filled) (curDest + filled) dest
      return (curDest + filled + (8 - filled), dest)
  else some (curDest, dest)

/-- The loop over blocks of five bytes, and the tail after it. -/
def escapeLoop (alphabet : List Byte) : List Byte → Nat → Nat → List Byte → Option (Nat × List Byte)
  | b0 :: b1 :: b2 :: b3 :: b4 :: src, curDest, szdest, dest =>
    if szdest < 8 then some (0, dest)
    else do
      let digits ← generalFiveBytesToEightBase32Digits b0 b1 b2 b3 b4 alphabet
      let dest ← store dest curDest digits
      escapeLoop alphabet src (curDest + 8) (szdest - 8) dest
  | src, curDest, szdest, dest => escapeTail alphabet src curDest szdest dest

/-- `GeneralBase32Escape(src, szsrc, dest, szdest, alphabet)` with a buffer. -/
def generalBase32Escape (szdest : Nat) (alphabet : List Byte) : Option (Nat × List Byte) :=
  if src.length = 0 then some (0, dest) else escapeLoop alphabet src 0 szdest dest

def calculateBase32EscapedLen (inputLen : Nat) : Option Nat := do
  guard (inputLen ≤ (2 ^ 64 - 1) / 8 - 4)
  let intermediateResult := BitVec.ofNat 64 (8 * inputLen + 4)
  let len := intermediateResult / 5
  return ((len + 7) &&& ~~~7#64).toNat

/-- `GeneralBase32Escape(src, dest, alphabet)` with a string. -/
def generalBase32EscapeString (src alphabet : List Byte) : Option (Bool × List Byte) := do
  let maxEscapedSize ← calculateBase32EscapedLen src.length
  let (escapedLen, buf) ← generalBase32Escape src
    (resizeUninitialized uninit [] (maxEscapedSize + 1)) (maxEscapedSize + 1) alphabet
  let dest := buf.take escapedLen
  return (!dest.isEmpty || src.isEmpty, dest)

/-- `Base32Escape` with a buffer of `szdest` bytes. -/
def base32EscapePtr (szdest : Nat) : Option (Nat × List Byte) :=
  generalBase32Escape src dest szdest kBase32Alphabet

def base32Escape (src : List Byte) : Option (Bool × List Byte) :=
  generalBase32EscapeString uninit src kBase32Alphabet

/-- `Base32HexEscape` with a buffer of `szdest` bytes. -/
def base32HexEscapePtr (szdest : Nat) : Option (Nat × List Byte) :=
  generalBase32Escape src dest szdest base32HexAlphabet

def base32HexEscape (src : List Byte) : Option (Bool × List Byte) :=
  generalBase32EscapeString uninit src base32HexAlphabet

end Gloop.Strings

import Gloop.Foundation.Digits
import Mathlib.Data.LawfulXor.Basic

/-!
# Keys that sort like the values

`strings/serialize.h` turns numbers into strings of fixed length whose lexicographic order is the
order of the numbers. Unsigned numbers are written big-endian whatever the machine's byte order is.
Signed numbers and floating point numbers are first mapped to unsigned ones, in order or in reverse.
-/

namespace Gloop.Strings

open Gloop.Foundation List
open BitVec (toInt toInt_eq_toNat_cond toNat_twoPow_of_lt twoPow)
open BitVec (eq_of_toNat_eq toNat_ofNat toNat_zero toNat_sub)

/-! ## Words in memory -/

/-- `absl::endian`. -/
inductive Endian where
  | little
  | big
  deriving DecidableEq

/-- The bytes of a word of `k` bytes in memory. -/
def Endian.store (e : Endian) (k : Nat) (word : BitVec (8 * k)) : List Byte :=
  match e with
  | .little => toBytes word.toNat k
  | .big => (toBytes word.toNat k).reverse

/-- The word of `k` bytes that memory holds. -/
def Endian.load (e : Endian) (k : Nat) (bytes : List Byte) : BitVec (8 * k) :=
  match e with
  | .little => BitVec.ofNat (8 * k) (ofBytes bytes)
  | .big => BitVec.ofNat (8 * k) (ofBytesBE bytes)

/-- `absl::byteswap`. -/
def byteswap (k : Nat) (word : BitVec (8 * k)) : BitVec (8 * k) :=
  BitVec.ofNat (8 * k) (ofBytes (toBytes word.toNat k).reverse)

variable (native : Endian)

/-- The swap between the machine's order and big-endian order. -/
def toBigEndian (k : Nat) (word : BitVec (8 * k)) : BitVec (8 * k) :=
  if native ≠ Endian.big then byteswap k word else word

/-! ## Unsigned numbers -/

def uintToKey (k : Nat) (u : BitVec (8 * k)) : List Byte :=
  native.store k (toBigEndian native k u)

def uint32ToKey (u32 : BitVec 32) : List Byte :=
  uintToKey native 4 u32

def uint64ToKey (u64 : BitVec 64) : List Byte :=
  uintToKey native 8 u64

/-- The high word stands first. -/
def uint128ToKey (u128 : BitVec 128) : List Byte :=
  uintToKey native 8 (u128.extractLsb' 64 64) ++ uintToKey native 8 (u128.extractLsb' 0 64)

def keyToUint (k : Nat) (key : List Byte) : Option (BitVec (8 * k)) := do
  guard (key.length = k)
  guard (k ≤ key.length)
  return toBigEndian native k (native.load k (key.take k))

def keyToUint32 (key : List Byte) : Option (BitVec 32) :=
  keyToUint native 4 key

def keyToUint64 (key : List Byte) : Option (BitVec 64) :=
  keyToUint native 8 key

def keyToUint128 (key : List Byte) : Option (BitVec 128) := do
  guard (key.length = 16)
  guard (16 ≤ key.length)
  let v0 : BitVec 64 := toBigEndian native 8 (native.load 8 (key.take 8))
  let v1 : BitVec 64 := toBigEndian native 8 (native.load 8 ((key.drop 8).take 8))
  return v0 ++ v1

/-! ## Signed numbers -/

def int32ToOrderedString (i32 : BitVec 32) : List Byte :=
  uint32ToKey native (i32 ^^^ 0x80000000#32)

def int64ToOrderedString (i64 : BitVec 64) : List Byte :=
  uint64ToKey native (i64 ^^^ 0x8000000000000000#64)

/-- The loop that shifts the characters into a word. -/
def orderedStringToUint (w : Nat) (key : List Byte) : BitVec w :=
  key.foldl (fun (ui : BitVec w) character => (ui <<< 8) ||| character.setWidth w)
    (BitVec.ofNat w 0)

variable (key : List Byte)

def orderedStringToInt32 : Option (BitVec 32) := do
  guard (key.length = 4)
  return orderedStringToUint 32 key ^^^ 0x80000000#32

def orderedStringToInt64 : Option (BitVec 64) := do
  guard (key.length = 8)
  return orderedStringToUint 64 key ^^^ (1#64 <<< 63)

def reverseOrderedStringFromInt32 (i32 : BitVec 32) : List Byte :=
  int32ToOrderedString native (~~~i32)

def int32ToReverseOrderedString (i32 : BitVec 32) : List Byte :=
  int32ToOrderedString native (~~~i32)

def reverseOrderedStringToInt32 : Option (BitVec 32) :=
  (orderedStringToInt32 key).map (~~~ ·)

def reverseOrderedStringFromInt64 (i64 : BitVec 64) : List Byte :=
  int64ToOrderedString native (~~~i64)

def int64ToReverseOrderedString (i64 : BitVec 64) : List Byte :=
  int64ToOrderedString native (~~~i64)

def reverseOrderedStringToInt64 : Option (BitVec 64) :=
  (orderedStringToInt64 key).map (~~~ ·)

/-! ## Floating point numbers

A `float` or a `double` is its bit pattern. -/

/-- The constant `sign_bit`. -/
def signBit (w : Nat) : BitVec w :=
  ~~~(~~~(0#w) >>> 1)

def uintFromIEEE754 {w : Nat} (n : BitVec w) : BitVec w :=
  if n &&& signBit w = 0#w then n + signBit w else 0#w - n

def ieee754FromUint {w : Nat} (n : BitVec w) : BitVec w :=
  if n &&& signBit w ≠ 0#w then n - signBit w else 0#w - n

def keyFromFloat (x : BitVec 32) : List Byte :=
  uint32ToKey native (uintFromIEEE754 x)

def keyToFloat (key : List Byte) : Option (BitVec 32) :=
  (keyToUint32 native key).map ieee754FromUint

def keyFromDouble (x : BitVec 64) : List Byte :=
  uint64ToKey native (uintFromIEEE754 x)

def keyToDouble (key : List Byte) : Option (BitVec 64) :=
  (keyToUint64 native key).map ieee754FromUint

/-- The value of a bit pattern read as sign and magnitude. -/
def signMagnitude {w : Nat} (x : BitVec w) : Int :=
  if x.msb then -((x.toNat : Int) - 2 ^ (w - 1)) else x.toNat

/-- Negative zero becomes positive zero, every other bit pattern stays. -/
def positiveZero {w : Nat} (x : BitVec w) : BitVec w :=
  if x = signBit w then 0#w else x

/-! ## Encodings that keep an order -/

/-- Keys compare like the values, and are decoded to what `back` makes of the encoded thing. -/
structure KeyEncoding {α : Type} (value : α → Int) (encode : α → List Byte)
    (decode : List Byte → Option α) (back : α → α) : Prop where
  lt_iff : ∀ a b, encode a < encode b ↔ value a < value b
  eq_iff : ∀ a b, encode a = encode b ↔ value a = value b
  decode_encode : ∀ a, decode (encode a) = some (back a)

/-- A map in front of an encoding may shift the values. -/
theorem KeyEncoding.comp {α β : Type} {value : α → Int} {encode : α → List Byte}
    {decode : List Byte → Option α} {back : α → α} (h : KeyEncoding value encode decode back)
    {value' : β → Int} {back' : β → β} (f : β → α) (g : α → β) (shift : Int)
    (hvalue : ∀ b, value (f b) = value' b + shift) (hback : ∀ b, g (back (f b)) = back' b) :
    KeyEncoding value' (fun b => encode (f b)) (fun key => (decode key).map g) back' where
  lt_iff a b := by
    rw [h.lt_iff, hvalue, hvalue]
    omega
  eq_iff a b := by
    rw [h.eq_iff, hvalue, hvalue]
    omega
  decode_encode a := by
    rw [h.decode_encode, Option.map_some, hback]

variable {k : Nat} {w : Nat} {decode : List Byte → Option (BitVec w)}
  {encode : BitVec w → List Byte}

/-- Big-endian digits of one number are such an encoding. -/
theorem keyEncoding_of_bigEndian
    (hlength : ∀ u, (encode u).length = k) (hencode : ∀ u, ofBytesBE (encode u) = u.toNat)
    (hdecode : ∀ key, key.length = k → decode key = some (BitVec.ofNat w (ofBytesBE key))) :
    KeyEncoding (fun u => (u.toNat : Int)) encode decode id where
  lt_iff a b := by
    rw [lt_iff_ofBytesBE ((hlength a).trans (hlength b).symm), hencode, hencode]
    exact Int.ofNat_lt.symm
  eq_iff a b := by
    constructor
    · intro h
      rw [← hencode, ← hencode, h]
    · intro h
      rw [eq_of_toNat_eq (Int.ofNat_inj.mp h)]
  decode_encode a := by
    rw [hdecode _ (hlength a), hencode, BitVec.ofNat_toNat, BitVec.setWidth_eq]
    rfl

/-! ## Unsigned keys are big-endian -/

/-- Swapping bytes reads them from the other end. -/
theorem toNat_byteswap (k : Nat) (word : BitVec (8 * k)) :
    (byteswap k word).toNat = ofBytesBE (toBytes word.toNat k) := by
  have hlt := ofBytes_lt (toBytes word.toNat k).reverse
  rw [length_reverse, length_toBytes] at hlt
  rw [byteswap, toNat_ofNat, Nat.mod_eq_of_lt hlt, ofBytesBE]

/-- A key has the bytes from the highest on, on each machine. -/
theorem uintToKey_eq (k : Nat) (u : BitVec (8 * k)) :
    uintToKey native k u = (toBytes u.toNat k).reverse := by
  cases native with
  | big => rfl
  | little =>
    have hbytes := toBytes_ofBytes (toBytes u.toNat k).reverse
    rw [length_reverse, length_toBytes] at hbytes
    show toBytes (byteswap k u).toNat k = _
    rw [toNat_byteswap, ofBytesBE, hbytes]

theorem length_uintToKey (k : Nat) (u : BitVec (8 * k)) : (uintToKey native k u).length = k := by
  rw [uintToKey_eq, length_reverse, length_toBytes]

theorem ofBytesBE_uintToKey (k : Nat) (u : BitVec (8 * k)) :
    ofBytesBE (uintToKey native k u) = u.toNat := by
  rw [uintToKey_eq, ofBytesBE, reverse_reverse, ofBytes_toBytes u.isLt]

/-- What is read from memory in big-endian order. -/
theorem toBigEndian_load {bytes : List Byte} (hlength : bytes.length = k) :
    toBigEndian native k (native.load k bytes) = BitVec.ofNat (8 * k) (ofBytesBE bytes) := by
  cases native with
  | big => rfl
  | little =>
    have hlt := ofBytes_lt bytes
    have hbytes := toBytes_ofBytes bytes
    rw [hlength] at hlt hbytes
    show byteswap k (BitVec.ofNat (8 * k) (ofBytes bytes)) = _
    rw [byteswap, toNat_ofNat, Nat.mod_eq_of_lt hlt, hbytes, ofBytesBE]

/-- A key of the right length is read back. -/
theorem keyToUint_eq {key : List Byte} (hlength : key.length = k) :
    keyToUint native k key = some (BitVec.ofNat (8 * k) (ofBytesBE key)) := by
  have htake : key.take k = key := take_of_length_le (le_of_eq hlength)
  simp [keyToUint, guard, if_pos hlength, if_pos (le_of_eq hlength.symm), htake,
    toBigEndian_load native hlength]

/-- Keys of unsigned integers are in order. -/
theorem uintToKey_keyEncoding (k : Nat) :
    KeyEncoding (fun u => (u.toNat : Int)) (uintToKey native k) (keyToUint native k) id :=
  keyEncoding_of_bigEndian (length_uintToKey native k) (ofBytesBE_uintToKey native k)
    (fun _ hlength => keyToUint_eq native hlength)

/-- The number of a key of two words. -/
theorem ofBytesBE_uint128ToKey (u128 : BitVec 128) :
    ofBytesBE (uint128ToKey native u128) = u128.toNat := by
  rw [uint128ToKey, ofBytesBE_append, length_uintToKey, ofBytesBE_uintToKey, ofBytesBE_uintToKey,
    BitVec.extractLsb'_toNat, BitVec.extractLsb'_toNat]
  omega

/-- A key of two words is read back. -/
theorem keyToUint128_eq {key : List Byte} (hlength : key.length = 16) :
    keyToUint128 native key = some (BitVec.ofNat 128 (ofBytesBE key)) := by
  have hhigh : (key.take 8).length = 8 := by rw [length_take]; omega
  have hlow : ((key.drop 8).take 8).length = 8 := by
    rw [length_take, length_drop]
    omega
  have hkey : key.take 8 ++ (key.drop 8).take 8 = key := by
    rw [take_of_length_le (l := key.drop 8) (by rw [length_drop]; omega), take_append_drop]
  have hnum := ofBytesBE_append (key.take 8) ((key.drop 8).take 8)
  have hhighLt := ofBytesBE_lt (key.take 8)
  have hlowLt := ofBytesBE_lt ((key.drop 8).take 8)
  rw [hkey, hlow] at hnum
  rw [hhigh] at hhighLt
  rw [hlow] at hlowLt
  simp only [keyToUint128, guard, if_pos hlength, if_pos (le_of_eq hlength.symm),
    toBigEndian_load native hhigh, toBigEndian_load native hlow, Option.pure_def,
    Option.bind_eq_bind, Option.bind_some]
  congr 1
  apply eq_of_toNat_eq
  rw [BitVec.toNat_append, toNat_ofNat, toNat_ofNat, toNat_ofNat, Nat.mod_eq_of_lt hlowLt,
    ← Nat.shiftLeft_add_eq_or_of_lt hlowLt]
  omega

/-- Keys of unsigned integers of 128 bits are in order. -/
theorem uint128ToKey_keyEncoding :
    KeyEncoding (fun u => (u.toNat : Int)) (uint128ToKey native) (keyToUint128 native) id := by
  refine keyEncoding_of_bigEndian ?_ (ofBytesBE_uint128ToKey native)
    (fun _ hlength => keyToUint128_eq native hlength)
  intro u
  rw [uint128ToKey, length_append, length_uintToKey, length_uintToKey]

/-! ## The sign bit -/

/-- Flipping the sign bit moves the signed numbers up to the unsigned ones. -/
theorem toNat_xor_twoPow (hw : 0 < w) (x : BitVec w) :
    ((x ^^^ twoPow w (w - 1)).toNat : Int) = x.toInt + 2 ^ (w - 1) := by
  have hpow := Nat.two_pow_pred_mul_two hw
  have hcast : ((2 ^ (w - 1) : Nat) : Int) = 2 ^ (w - 1) := by norm_cast
  rw [BitVec.toNat_xor, toNat_twoPow_of_lt (by omega), toInt_eq_toNat_cond]
  by_cases hx : x.toNat < 2 ^ (w - 1)
  · rw [Nat.xor_comm, ← two_pow_add_eq_xor hx]
    omega
  · have hflip : x.toNat = (x.toNat - 2 ^ (w - 1)) ^^^ 2 ^ (w - 1) := by
      rw [Nat.xor_comm, ← two_pow_add_eq_xor (by omega)]
      omega
    rw [hflip, Nat.xor_assoc, Nat.xor_self, Nat.xor_zero]
    omega

/-- A complement is a negation less one. -/
theorem toInt_not_eq (x : BitVec w) (hw : 0 < w) : (~~~x).toInt = -x.toInt + -1 := by
  have hpow := Nat.two_pow_pred_mul_two hw
  rw [toInt_eq_toNat_cond, toInt_eq_toNat_cond, BitVec.toNat_not]
  split_ifs <;> omega

theorem signBit_eq (hw : 0 < w) : signBit w = twoPow w (w - 1) := by
  apply BitVec.eq_of_getLsbD_eq
  intro i hi
  simp only [signBit]
  by_cases hlast : i = w - 1
  · simp [hlast, show ¬1 + (w - 1) < w by omega]
  · simp [show ¬w - 1 = i by omega, show 1 + i < w by omega]

theorem toNat_signBit (hw : 0 < w) : (signBit w).toNat = 2 ^ (w - 1) := by
  rw [signBit_eq hw, toNat_twoPow_of_lt (by omega)]

theorem and_signBit_eq_zero_iff (hw : 0 < w) (x : BitVec w) :
    x &&& signBit w = 0#w ↔ x.toNat < 2 ^ (w - 1) := by
  have hpow := Nat.two_pow_pos (w - 1)
  rw [signBit_eq hw, BitVec.and_twoPow, BitVec.getLsbD_last]
  by_cases hx : x.toNat < 2 ^ (w - 1)
  · simp [hx]
  · have hne : twoPow w (w - 1) ≠ 0#w := by
      intro hzero
      have hnat := toNat_twoPow_of_lt (show w - 1 < w by omega)
      rw [hzero, toNat_zero] at hnat
      omega
    simp only [decide_eq_true_eq, if_pos (Nat.le_of_not_lt hx), hx, iff_false]
    exact hne

/-- Without the sign bit, the value is the magnitude. -/
theorem signMagnitude_of_lt {x : BitVec w} (hx : x.toNat < 2 ^ (w - 1)) :
    signMagnitude x = x.toNat := by
  rw [signMagnitude, BitVec.msb_eq_decide, if_neg]
  simpa using hx

/-- With the sign bit, the value is negative. -/
theorem signMagnitude_of_ge {x : BitVec w} (hx : 2 ^ (w - 1) ≤ x.toNat) :
    signMagnitude x = ((2 ^ (w - 1) : Nat) : Int) - x.toNat := by
  rw [signMagnitude, BitVec.msb_eq_decide, if_pos (by simpa using hx)]
  push_cast
  omega

/-- The image of a floating-point number is its signed magnitude, moved above zero. -/
theorem toNat_uintFromIEEE754 (hw : 0 < w) (x : BitVec w) :
    ((uintFromIEEE754 x).toNat : Int) = signMagnitude x + ((2 ^ (w - 1) : Nat) : Int) := by
  have hpow := Nat.two_pow_pred_mul_two hw
  rw [uintFromIEEE754]
  by_cases hx : x.toNat < 2 ^ (w - 1)
  · rw [if_pos ((and_signBit_eq_zero_iff hw x).mpr hx), signMagnitude_of_lt hx, BitVec.toNat_add,
      toNat_signBit hw, Nat.mod_eq_of_lt (by omega)]
    omega
  · rw [if_neg (mt (and_signBit_eq_zero_iff hw x).mp hx), signMagnitude_of_ge (Nat.le_of_not_lt hx),
      toNat_sub, toNat_zero, Nat.mod_eq_of_lt (by omega)]
    omega

/-- Only negative zero does not come back. -/
theorem ieee754FromUint_uintFromIEEE754 (hw : 0 < w) (x : BitVec w) :
    ieee754FromUint (uintFromIEEE754 x) = positiveZero x := by
  have hlt := x.isLt
  have hpow := Nat.two_pow_pred_mul_two hw
  have huint := toNat_uintFromIEEE754 hw x
  have hzero : x = signBit w ↔ x.toNat = 2 ^ (w - 1) := by
    rw [← toNat_signBit hw, BitVec.toNat_inj]
  rw [ieee754FromUint, positiveZero]
  rcases lt_trichotomy x.toNat (2 ^ (w - 1)) with hx | hx | hx
  · rw [signMagnitude_of_lt hx] at huint
    rw [if_pos (mt (and_signBit_eq_zero_iff hw _).mp (by omega)), if_neg (mt hzero.mp (by omega))]
    apply eq_of_toNat_eq
    rw [toNat_sub, toNat_signBit hw, show 2 ^ w - 2 ^ (w - 1) + (uintFromIEEE754 x).toNat =
      x.toNat + 2 ^ w by omega, Nat.add_mod_right, Nat.mod_eq_of_lt hlt]
  · -- the key of both zeros is the sign bit alone
    rw [signMagnitude_of_ge (le_of_eq hx.symm)] at huint
    rw [if_pos (mt (and_signBit_eq_zero_iff hw _).mp (by omega)), if_pos (hzero.mpr hx)]
    apply eq_of_toNat_eq
    rw [toNat_sub, toNat_signBit hw, show 2 ^ w - 2 ^ (w - 1) + (uintFromIEEE754 x).toNat =
      2 ^ w by omega, Nat.mod_self, toNat_zero]
  · rw [signMagnitude_of_ge (le_of_lt hx)] at huint
    rw [if_neg (not_not_intro ((and_signBit_eq_zero_iff hw _).mpr (by omega))),
      if_neg (mt hzero.mp (by omega))]
    apply eq_of_toNat_eq
    rw [toNat_sub, toNat_zero, Nat.mod_eq_of_lt (by omega)]
    omega

/-! ## Signed and floating point keys -/

/-- The loop decodes what the copy of the whole word decodes. -/
theorem uintToKey_keyEncoding_loop (k : Nat) :
    KeyEncoding (fun u => (u.toNat : Int)) (uintToKey native k)
      (fun key => do guard (key.length = k); return orderedStringToUint (8 * k) key) id := by
  refine keyEncoding_of_bigEndian (length_uintToKey native k) (ofBytesBE_uintToKey native k) ?_
  intro key hlength
  simp [guard, if_pos hlength, orderedStringToUint, foldl_shift_or]

/-- Keys of signed integers are in order, since the sign bit is flipped. -/
theorem signed_keyEncoding (hk : 0 < k) (flip : BitVec (8 * k))
    (hflip : flip = twoPow (8 * k) (8 * k - 1)) :
    KeyEncoding toInt (fun i => uintToKey native k (i ^^^ flip))
      (fun key => do guard (key.length = k); return orderedStringToUint (8 * k) key ^^^
        flip) id := by
  have h := (uintToKey_keyEncoding_loop native k).comp (· ^^^ flip) (· ^^^ flip) (2 ^ (8 * k - 1))
    (hflip ▸ toNat_xor_twoPow (by omega)) (fun i => xor_cancel_right i flip)
  refine ⟨h.lt_iff, h.eq_iff, fun i => ?_⟩
  have hdecode := h.decode_encode i
  simp only [length_uintToKey] at hdecode ⊢
  exact hdecode

/-- Keys of `int32` are in order. -/
theorem int32ToOrderedString_keyEncoding :
    KeyEncoding toInt (int32ToOrderedString native) orderedStringToInt32 id :=
  signed_keyEncoding native (k := 4) (by omega) 0x80000000#32 rfl

/-- Keys of `int64` are in order. -/
theorem int64ToOrderedString_keyEncoding :
    KeyEncoding toInt (int64ToOrderedString native) orderedStringToInt64 id :=
  signed_keyEncoding native (k := 8) (by omega) 0x8000000000000000#64 rfl

/-- Complementing a signed number before and after reverses its order. -/
theorem KeyEncoding.reverse (hw : 0 < w) (h : KeyEncoding toInt encode decode id) :
    KeyEncoding (fun i => -i.toInt) (fun i => encode (~~~i))
      (fun key => (decode key).map (~~~ ·)) id :=
  h.comp (~~~ ·) (~~~ ·) (-1) (fun i => toInt_not_eq i hw) (fun _ => BitVec.not_not)

/-- Keys of floating-point numbers are in order, where both zeros have one key. -/
theorem ieee754_keyEncoding (hw : 0 < w) (h :
    KeyEncoding (fun u => (u.toNat : Int)) encode decode id) :
    KeyEncoding signMagnitude (fun x => encode (uintFromIEEE754 x))
      (fun key => (decode key).map ieee754FromUint) positiveZero :=
  h.comp uintFromIEEE754 ieee754FromUint _ (toNat_uintFromIEEE754 hw)
    (ieee754FromUint_uintFromIEEE754 hw)

/-- Every encoding orders its keys like the values, unsigned, signed, reversed or of sign and
    magnitude, and is inverted up to negative zero, on a machine of either byte order. -/
theorem ordered_keys_sort_like_values (native : Endian) :
    KeyEncoding (fun u => (u.toNat : Int)) (uint32ToKey native) (keyToUint32 native) id ∧
    KeyEncoding (fun u => (u.toNat : Int)) (uint64ToKey native) (keyToUint64 native) id ∧
    KeyEncoding (fun u => (u.toNat : Int)) (uint128ToKey native) (keyToUint128 native) id ∧
    KeyEncoding toInt (int32ToOrderedString native) orderedStringToInt32 id ∧
    KeyEncoding BitVec.toInt (int64ToOrderedString native) orderedStringToInt64 id ∧
    KeyEncoding (fun i => -i.toInt) (reverseOrderedStringFromInt32 native)
      reverseOrderedStringToInt32 id ∧
    KeyEncoding (fun i => -i.toInt) (int32ToReverseOrderedString native)
      reverseOrderedStringToInt32 id ∧
    KeyEncoding (fun i => -i.toInt) (reverseOrderedStringFromInt64 native)
      reverseOrderedStringToInt64 id ∧
    KeyEncoding (fun i => -i.toInt) (int64ToReverseOrderedString native)
      reverseOrderedStringToInt64 id ∧
    KeyEncoding signMagnitude (keyFromFloat native) (keyToFloat native) positiveZero ∧
    KeyEncoding signMagnitude (keyFromDouble native) (keyToDouble native) positiveZero := by
  have h32 := (int32ToOrderedString_keyEncoding native).reverse (by omega)
  have h64 := (int64ToOrderedString_keyEncoding native).reverse (by omega)
  exact ⟨uintToKey_keyEncoding native 4, uintToKey_keyEncoding native 8,
    uint128ToKey_keyEncoding native, int32ToOrderedString_keyEncoding native,
    int64ToOrderedString_keyEncoding native, h32, h32, h64, h64,
    ieee754_keyEncoding (by omega) (uintToKey_keyEncoding native 4),
    ieee754_keyEncoding (by omega) (uintToKey_keyEncoding native 8)⟩

end Gloop.Strings

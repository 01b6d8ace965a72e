import Mathlib.Algebra.Group.Nat.Defs
import Mathlib.Data.List.Basic
import Mathlib.Data.Nat.Bitwise
import Mathlib.Tactic.Ring

/-!
# Bytes in a buffer and their bits

A buffer is the list of its bytes. `HoldsAt` says which bytes stand at a position, and `store`
writes bytes there, unless some of them would land outside the buffer. `toBits n k` are the `k`
lowest bits of a number, lowest first, and `bytesToBits` the bits of a byte string in the same
order. `toBits_append` glues two numbers together as a coder does in its word buffer.
-/

namespace Gloop.Foundation

section

open List

/-- A byte of memory. -/
abbrev Byte := BitVec 8

instance : LawfulBEq Byte := inferInstance

/-- The buffer holds the bytes at the position. -/
def HoldsAt (buf : List Byte) (p : Nat) (bytes : List Byte) : Prop :=
  bytes <+: buf.drop p

/-- What stands between other bytes is held there. -/
theorem holdsAt_append (before bytes rest : List Byte) :
    HoldsAt (before ++ bytes ++ rest) before.length bytes := by
  unfold HoldsAt
  rw [append_assoc, drop_left]
  exact prefix_append bytes rest

variable {buf bytes : List Byte} {p : Nat}

theorem HoldsAt.getElem? (h : HoldsAt buf p bytes) {i : Nat} (hi : i < bytes.length) :
    buf[p + i]? = bytes[i]? := by
  obtain ⟨rest, hrest⟩ := h
  rw [← getElem?_drop, ← hrest, getElem?_append_left hi]

/-- Bytes that are held are inside of the buffer. -/
theorem HoldsAt.le_length (h : HoldsAt buf p bytes) (hne : bytes ≠ []) :
    p + bytes.length ≤ buf.length := by
  have hlength := h.length_le
  have hpos := length_pos_iff.mpr hne
  rw [length_drop] at hlength
  omega

/-- Two strings one after the other. -/
theorem holdsAt_append_iff {front back : List Byte} :
    HoldsAt buf p (front ++ back) ↔ HoldsAt buf p front ∧ HoldsAt buf (p + front.length) back := by
  unfold HoldsAt
  constructor
  · rintro ⟨rest, hrest⟩
    rw [append_assoc] at hrest
    refine ⟨⟨back ++ rest, hrest⟩, rest, ?_⟩
    rw [← drop_drop, ← hrest, drop_left]
  · rintro ⟨⟨rest, hrest⟩, hback⟩
    rw [← drop_drop, ← hrest, drop_left] at hback
    obtain ⟨rest', rfl⟩ := hback
    exact ⟨rest', by rw [append_assoc, hrest]⟩

theorem HoldsAt.head {b : Byte} (h : HoldsAt buf p (b :: bytes)) : buf[p]? = some b :=
  h.getElem? (i := 0) (by simp)

/-- Write the bytes at the position. -/
def store (buf : List Byte) (p : Nat) (bytes : List Byte) : Option (List Byte) :=
  if p + bytes.length ≤ buf.length then
    some (buf.take p ++ bytes ++ buf.drop (p + bytes.length))
  else none

/-- A store that succeeds is inside of the buffer and keeps its size. -/
theorem length_of_store {buf' : List Byte} (h : store buf p bytes = some buf') :
    p + bytes.length ≤ buf.length ∧ buf'.length = buf.length := by
  rw [store] at h
  split at h
  next hp =>
    cases h
    rw [length_append, length_append, length_take, length_drop]
    omega
  next => cases h

/-- The buffer changed at most in its first bytes. -/
def SameBeyond (size : Nat) (dest dest' : List Byte) : Prop :=
  dest'.length = dest.length ∧ dest'.drop size = dest.drop size

theorem SameBeyond.refl (size : Nat) (dest : List Byte) : SameBeyond size dest dest :=
  ⟨rfl, rfl⟩

theorem SameBeyond.trans {size : Nat} {dest dest' dest'' : List Byte}
    (h : SameBeyond size dest dest')
    (h' : SameBeyond size dest' dest'') : SameBeyond size dest dest'' :=
  ⟨h'.1.trans h.1, h'.2.trans h.2⟩

/-- A store within the first bytes. -/
theorem store_sameBeyond {size : Nat} {dest : List Byte} (bytes : List Byte)
    (hp : p + bytes.length ≤ size) (hsize : size ≤ dest.length) :
    store dest p bytes = some (dest.take p ++ bytes ++ dest.drop (p + bytes.length)) ∧
      SameBeyond size dest (dest.take p ++ bytes ++ dest.drop (p + bytes.length)) := by
  have hfront : (dest.take p ++ bytes).length = p + bytes.length := by
    rw [length_append, length_take_of_le (by omega)]
  refine ⟨if_pos (by omega), ?_, ?_⟩
  · rw [length_append, length_drop]
    omega
  · rw [show size = p + bytes.length + (size - (p + bytes.length)) by omega, ← drop_drop,
      drop_left' hfront, drop_drop]

/-- A string that grew by `len` bytes whose contents are not known. -/
def resizeUninitialized (uninit : Nat → Byte) (s : List Byte) (len : Nat) : List Byte :=
  s ++ (List.range len).map uninit

/-- Writing over all of the new bytes appends what is written. -/
theorem store_resizeUninitialized (uninit : Nat → Byte) (s bytes : List Byte) :
    store (resizeUninitialized uninit s bytes.length) s.length bytes = some (s ++ bytes) := by
  simp [store, resizeUninitialized]

end

/-! ## Bit strings -/

open List Nat

/-- The lowest bits of a number, lowest first. -/
def toBits : (n k : Nat) → List Bool
  | _, 0 => []
  | n, k + 1 => n.testBit 0 :: toBits (n / 2) k

/-- The number with the given bits. -/
def ofBits : List Bool → Nat
  | [] => 0
  | b :: bits => b.toNat + 2 * ofBits bits

/-- The little-endian bytes of a number. -/
def toBytes : (n k : Nat) → List Byte
  | _, 0 => []
  | n, k + 1 => BitVec.ofNat 8 n :: toBytes (n / 256) k

/-- The number with the given little-endian bytes. -/
def ofBytes : List Byte → Nat
  | [] => 0
  | b :: bytes => b.toNat + 256 * ofBytes bytes

/-- The bits of a byte string. -/
def bytesToBits (bytes : List Byte) : List Bool :=
  bytes.flatMap fun b => toBits b.toNat 8

@[simp] theorem toBits_zero (n : Nat) : toBits n 0 = [] :=
  rfl

@[simp] theorem length_toBits (n k : Nat) : (toBits n k).length = k := by
  induction k generalizing n with
  | zero => rfl
  | succ k ih => rw [toBits, length_cons, ih]

/-- The bits of a number, one by one. -/
theorem getElem?_toBits (n k i : Nat) :
    (toBits n k)[i]? = if i < k then some (n.testBit i) else none := by
  induction k generalizing n i with
  | zero => simp
  | succ k ih =>
    cases i with
    | zero => simp [toBits]
    | succ i => rw [toBits, getElem?_cons_succ, ih, testBit_succ]; simp

variable {n m k j : Nat}

/-- The bits of a number depend on those below the width only. -/
theorem toBits_congr (h : ∀ i < k, n.testBit i = m.testBit i) : toBits n k = toBits m k := by
  apply ext_getElem?
  intro i
  rw [getElem?_toBits, getElem?_toBits]
  split
  next hi => rw [h i hi]
  next => rfl

/-- The bits of a number determine it. -/
theorem toBits_inj (hn : n < 2 ^ k) (hm : m < 2 ^ k) (h : toBits n k = toBits m k) : n = m := by
  apply eq_of_testBit_eq
  intro i
  by_cases hi : i < k
  · have hget : (toBits n k)[i]? = (toBits m k)[i]? := by rw [h]
    rw [getElem?_toBits, getElem?_toBits, if_pos hi, if_pos hi] at hget
    exact Option.some.inj hget
  · have hpow : 2 ^ k ≤ 2 ^ i := Nat.pow_le_pow_right (by decide) (by omega)
    rw [testBit_lt_two_pow (hn.trans_le hpow), testBit_lt_two_pow (hm.trans_le hpow)]

/-- Bits above the width may be cut off. -/
theorem toBits_mod (h : k ≤ j) : toBits (n % 2 ^ j) k = toBits n k := by
  refine toBits_congr fun i hi => ?_
  rw [testBit_mod_two_pow, decide_eq_true (by omega), Bool.true_and]

theorem toBits_add (n j k : Nat) : toBits n (j + k) = toBits n j ++ toBits (n / 2 ^ j) k := by
  induction j generalizing n with
  | zero => simp
  | succ j ih =>
    rw [show j + 1 + k = j + k + 1 by ring, toBits, toBits, ih, Nat.div_div_eq_div_mul,
      cons_append, pow_succ, mul_comm]

/-- Two numbers side by side. -/
theorem toBits_append {a : Nat} (b k : Nat) (ha : a < 2 ^ j) :
    toBits (a + 2 ^ j * b) (j + k) = toBits a j ++ toBits b k := by
  rw [toBits_add, ← toBits_mod (le_refl j), add_mul_mod_self_left,
    toBits_mod (le_refl j), add_mul_div_left _ _ (Nat.two_pow_pos j), div_eq_of_lt ha, zero_add]

theorem toBits_zero_left (k : Nat) : toBits 0 k = replicate k false := by
  induction k with
  | zero => rfl
  | succ k ih => rw [toBits, Nat.zero_div, ih]; rfl

theorem toBits_ones (h : k ≤ j) : toBits (2 ^ j - 1) k = replicate k true := by
  apply ext_getElem?
  intro i
  rw [getElem?_toBits, testBit_two_pow_sub_one, getElem?_replicate]
  split
  next hi => rw [decide_eq_true (by omega)]
  next => rfl

/-- Bits above a number are zero. -/
theorem toBits_of_lt (hn : n < 2 ^ j) (k : Nat) :
    toBits n (j + k) = toBits n j ++ replicate k false := by
  rw [toBits_add, div_eq_of_lt hn, toBits_zero_left]

/-- A string of bits is a number of its width. -/
theorem ofBits_lt (bits : List Bool) : ofBits bits < 2 ^ bits.length := by
  induction bits with
  | nil => exact Nat.one_pos
  | cons b bits ih =>
    have hb := b.toNat_lt
    rw [ofBits, length_cons]
    omega

/-- A string of bits can be read back from its number. -/
theorem toBits_ofBits (bits : List Bool) : toBits (ofBits bits) bits.length = bits := by
  induction bits with
  | nil => rfl
  | cons b bits ih =>
    have hb := b.toNat_lt
    rw [length_cons, toBits, ofBits, show (b.toNat + 2 * ofBits bits) / 2 = ofBits bits by omega,
      ih]
    rw [testBit_zero, show (b.toNat + 2 * ofBits bits) % 2 = b.toNat by omega]
    cases b <;> rfl

/-- A number that fits can be read back from its bits. -/
theorem ofBits_toBits (h : n < 2 ^ k) : ofBits (toBits n k) = n := by
  have hlt := ofBits_lt (toBits n k)
  have hbits := toBits_ofBits (toBits n k)
  rw [length_toBits] at hlt hbits
  exact toBits_inj hlt h hbits

/-- Every bit string is that of a number. -/
theorem exists_toBits (bits : List Bool) : ∃ n < 2 ^ bits.length, toBits n bits.length = bits :=
  ⟨ofBits bits, ofBits_lt bits, toBits_ofBits bits⟩

/-! ## Bytes -/

@[simp] theorem length_toBytes (n k : Nat) : (toBytes n k).length = k := by
  induction k generalizing n with
  | zero => rfl
  | succ k ih => rw [toBytes, length_cons, ih]

@[simp] theorem bytesToBits_nil : bytesToBits [] = [] :=
  rfl

theorem bytesToBits_cons (b : Byte) (bytes : List Byte) :
    bytesToBits (b :: bytes) = toBits b.toNat 8 ++ bytesToBits bytes :=
  rfl

/-- The bits of bytes one after the other. -/
theorem bytesToBits_append (front back : List Byte) :
    bytesToBits (front ++ back) = bytesToBits front ++ bytesToBits back :=
  flatMap_append

/-- The bits of a number laid out in bytes are its bits. -/
theorem bytesToBits_toBytes (n k : Nat) : bytesToBits (toBytes n k) = toBits n (8 * k) := by
  induction k generalizing n with
  | zero => rfl
  | succ k ih =>
    rw [toBytes, bytesToBits_cons, ih, BitVec.toNat_ofNat, toBits_mod (le_refl 8),
      show 8 * (k + 1) = 8 + 8 * k by ring, toBits_add, show 2 ^ 8 = 256 from rfl]

/-- A string of bytes is a number of its width. -/
theorem ofBytes_lt (bytes : List Byte) : ofBytes bytes < 2 ^ (8 * bytes.length) := by
  induction bytes with
  | nil => decide
  | cons b bytes ih =>
    rw [ofBytes, length_cons, show 8 * (bytes.length + 1) = 8 + 8 * bytes.length by ring, pow_add]
    omega

/-- The bits of bytes are those of their number. -/
theorem bytesToBits_eq (bytes : List Byte) :
    bytesToBits bytes = toBits (ofBytes bytes) (8 * bytes.length) := by
  induction bytes with
  | nil => rfl
  | cons b bytes ih =>
    rw [bytesToBits_cons, ih, ofBytes, length_cons,
      show 8 * (bytes.length + 1) = 8 + 8 * bytes.length by ring,
      show 256 = 2 ^ 8 from rfl, toBits_append _ _ b.isLt]

@[simp] theorem length_bytesToBits (bytes : List Byte) :
    (bytesToBits bytes).length = 8 * bytes.length := by
  rw [bytesToBits_eq, length_toBits]

end Gloop.Foundation

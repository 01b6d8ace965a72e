import Gloop.Foundation.BitString

/-!
# Bit fields of a byte buffer

The bits of a buffer are numbered from the lowest bit of its first byte. `load` reads and `store`
writes a little-endian number of some bytes; `Overwrites` says that two buffers differ in one field
only, which then holds the given value. A field can be written in more than one way, by words of
different sizes, and `Overwrites.unique` makes them all write the same bytes.
-/

namespace Gloop.Foundation

open List Option Nat

/-- The number in the bytes at the position. -/
def load (buf : List Byte) (p count : Nat) : Option Nat :=
  if p + count ≤ buf.length then some (ofBytes ((buf.drop p).take count)) else none

/-- A bit of the buffer. -/
def bitAt (buf : List Byte) (j : Nat) : Bool :=
  (ofBytes buf).testBit j

/-- The number in the field of `width` bits at bit `pos`. -/
def field (buf : List Byte) (pos width : Nat) : Nat :=
  ofBytes buf / 2 ^ pos % 2 ^ width

/-- The bits of a field are bits of the buffer. -/
theorem testBit_field (buf : List Byte) (pos width j : Nat) :
    (field buf pos width).testBit j = (decide (j < width) && bitAt buf (pos + j)) := by
  rw [field, testBit_mod_two_pow, testBit_div_two_pow, bitAt, add_comm]

theorem field_lt (buf : List Byte) (pos width : Nat) : field buf pos width < 2 ^ width :=
  mod_lt _ (Nat.two_pow_pos width)

variable {buf buf' : List Byte} {p count : Nat} {pos width value : Nat}

/-- The bits of a field determine its number. -/
theorem field_congr {pos' : Nat} (h : ∀ j < width, bitAt buf (pos + j) = bitAt buf' (pos' + j)) :
    field buf pos width = field buf' pos' width := by
  apply eq_of_testBit_eq
  intro j
  rw [testBit_field, testBit_field]
  by_cases hj : j < width
  · rw [h j hj]
  · rw [decide_eq_false hj, Bool.false_and, Bool.false_and]

/-! ## The bits of joined and cut buffers -/

theorem ofBytes_append (front back : List Byte) :
    ofBytes (front ++ back) = 2 ^ (8 * front.length) * ofBytes back + ofBytes front := by
  induction front with
  | nil => simp [ofBytes]
  | cons b front ih =>
    rw [cons_append, ofBytes, ofBytes, ih, length_cons]
    ring

/-- The bits of two buffers, one after the other. -/
theorem bitAt_append (front back : List Byte) (j : Nat) : bitAt (front ++ back) j =
      if j < 8 * front.length then bitAt front j else bitAt back (j - 8 * front.length) := by
  rw [bitAt, ofBytes_append, testBit_two_pow_mul_add _ (ofBytes_lt front)]
  rfl

/-- Bytes behind a field do not change it. -/
theorem field_append (h : pos + width ≤ 8 * buf.length) (rest : List Byte) :
    field (buf ++ rest) pos width = field buf pos width :=
  field_congr fun j hj => by rw [bitAt_append, if_pos (by omega)]

variable {j n start lo hi : Nat}

/-- There are no set bits behind the buffer. -/
theorem bitAt_of_le (h : 8 * buf.length ≤ j) : bitAt buf j = false :=
  testBit_lt_two_pow ((ofBytes_lt buf).trans_le (Nat.pow_le_pow_right (by omega) h))

theorem bitAt_replicate_zero (n j : Nat) : bitAt (replicate n 0#8) j = false := by
  have hvalue : ofBytes (replicate n 0#8) = 0 := by
    induction n with
    | zero => rfl
    | succ n ih =>
      rw [replicate_succ, ofBytes, ih]
      rfl
  rw [bitAt, hvalue, zero_testBit]

/-- A buffer that is cut off loses the bits behind the cut. -/
theorem bitAt_take (buf : List Byte) (n j : Nat) :
    bitAt (buf.take n) j = (decide (j < 8 * n) && bitAt buf j) := by
  by_cases hj : j < 8 * n
  · rw [decide_eq_true hj, Bool.true_and]
    by_cases hlong : j < 8 * buf.length
    · have hsplit := bitAt_append (buf.take n) (buf.drop n) j
      rw [take_append_drop, length_take, if_pos (by omega)] at hsplit
      exact hsplit.symm
    · rw [bitAt_of_le (by rw [length_take]; omega), bitAt_of_le (by omega)]
  · rw [decide_eq_false hj]
    exact bitAt_of_le (by rw [length_take]; omega)

/-- A cut behind a field does not change it. -/
theorem field_take (h : pos + width ≤ 8 * n) : field (buf.take n) pos width = field buf pos width :=
  field_congr fun j hj => by rw [bitAt_take, decide_eq_true (by omega), Bool.true_and]

/-- A field inside of a larger one. -/
theorem field_field {size : Nat} (h : start + width ≤ size) :
    field buf pos size / 2 ^ start % 2 ^ width = field buf (pos + start) width := by
  apply eq_of_testBit_eq
  intro j
  rw [testBit_mod_two_pow, testBit_div_two_pow, testBit_field, testBit_field]
  by_cases hj : j < width
  · rw [decide_eq_true (show j + start < size by omega), Bool.true_and, add_assoc, add_comm start]
  · rw [decide_eq_false hj, Bool.false_and, Bool.false_and]

/-- The bits of a number laid out in bytes. -/
theorem bitAt_toBytes (n k j : Nat) :
    bitAt (toBytes n k) j = (decide (j < 8 * k) && n.testBit j) := by
  have hbits : (toBits (ofBytes (toBytes n k)) (8 * k))[j]? = (toBits n (8 * k))[j]? := by
    rw [← bytesToBits_toBytes n, bytesToBits_eq, length_toBytes]
  rw [getElem?_toBits, getElem?_toBits] at hbits
  by_cases hj : j < 8 * k
  · rw [if_pos hj, if_pos hj] at hbits
    rw [decide_eq_true hj]
    exact some.inj hbits
  · rw [decide_eq_false hj]
    exact bitAt_of_le (by rw [length_toBytes]; omega)

/-- The bits of a buffer determine its bytes. -/
theorem eq_of_bitAt (hlength : buf.length = buf'.length) (hbits : ∀ j, bitAt buf j = bitAt buf' j) :
    buf = buf' := by
  induction buf generalizing buf' with
  | nil => exact (length_eq_zero_iff.mp hlength.symm).symm
  | cons b buf ih =>
    cases buf' with
    | nil => simp at hlength
    | cons b' buf' =>
      have hvalue : ofBytes (b :: buf) = ofBytes (b' :: buf') :=
        eq_of_testBit_eq hbits
      rw [ofBytes, ofBytes] at hvalue
      have hhead : b = b' := BitVec.eq_of_toNat_eq (by omega)
      have htail : ofBytes buf = ofBytes buf' := by omega
      rw [hhead, ih (by simpa using hlength) fun j => by rw [bitAt, bitAt, htail]]

/-! ## Loads -/

/-- Loading bytes that are there reads a field. -/
theorem load_eq_some (h : p + count ≤ buf.length) :
    load buf p count = some (field buf (8 * p) (8 * count)) := by
  have hvalue : ofBytes ((buf.drop p).take count) = field buf (8 * p) (8 * count) := by
    have hsplit := ofBytes_append (buf.take p) (buf.drop p)
    have hsplit' := ofBytes_append ((buf.drop p).take count) ((buf.drop p).drop count)
    have hlt := ofBytes_lt (buf.take p)
    have hlt' := ofBytes_lt ((buf.drop p).take count)
    rw [take_append_drop] at hsplit hsplit'
    rw [length_take, min_eq_left (by omega)] at hsplit hlt
    rw [length_take, length_drop, min_eq_left (by omega)] at hsplit' hlt'
    rw [field, hsplit, add_comm, add_mul_div_left _ _ (Nat.two_pow_pos _),
      div_eq_of_lt hlt, zero_add, hsplit', mul_add_mod, mod_eq_of_lt hlt']
  rw [load, if_pos h, hvalue]

/-- Loading beyond the buffer fails. -/
theorem load_eq_none (h : buf.length < p + count) : load buf p count = none :=
  if_neg (by omega)

/-- A number read as its first byte and the rest. -/
theorem load_succ (buf : List Byte) (p count : Nat) :
    load buf p (count + 1) = (load buf p 1).bind fun low =>
      (load buf (p + 1) count).map fun high => low + 256 * high := by
  by_cases h : p + 1 + count ≤ buf.length
  · have hbytes : (buf.drop p).take (count + 1) = (buf.drop p).take 1 ++
      (buf.drop (p + 1)).take count := by
      rw [← drop_drop, add_comm, take_add]
    have hone : ((buf.drop p).take 1).length = 1 := by
      rw [length_take, length_drop]
      omega
    rw [load, load, load, if_pos (by omega), if_pos (by omega), if_pos h, hbytes, ofBytes_append,
      hone]
    simp [add_comm]
  · rw [load_eq_none (by omega), load_eq_none (show buf.length < p + 1 + count by omega)]
    simp

/-! ## Stores -/

/-- The second buffer holds `value` in the field of `width` bits at `pos` and is else as the
first. -/
structure Overwrites (buf buf' : List Byte) (pos width value : Nat) : Prop where
  length_eq : buf'.length = buf.length
  bits : ∀ j, bitAt buf' j =
    if pos ≤ j ∧ j < pos + width then value.testBit (j - pos) else bitAt buf j

/-- The result of overwriting a field is determined. -/
theorem Overwrites.unique {buf₁ buf₂ : List Byte} (h₁ : Overwrites buf buf₁ pos width value)
    (h₂ : Overwrites buf buf₂ pos width value) : buf₁ = buf₂ :=
  eq_of_bitAt (h₁.length_eq.trans h₂.length_eq.symm) fun j => (h₁.bits j).trans (h₂.bits j).symm

section

variable (h : Overwrites buf buf' pos width value)
include h

/-- The field holds what was written. -/
theorem Overwrites.field_same : field buf' pos width = value % 2 ^ width := by
  apply eq_of_testBit_eq
  intro j
  rw [testBit_field, testBit_mod_two_pow]
  by_cases hj : j < width
  · rw [h.bits, if_pos (by omega), Nat.add_sub_cancel_left]
  · rw [decide_eq_false hj, Bool.false_and, Bool.false_and]

/-- A field apart from the one written is as before. -/
theorem Overwrites.field_other {other size : Nat}
    (hapart : other + size ≤ pos ∨ pos + width ≤ other) :
      field buf' other size = field buf other size :=
  field_congr fun j hj => by rw [h.bits, if_neg (by omega)]

/-- Bytes after the field written do not matter. -/
theorem Overwrites.append (hfits : pos + width ≤ 8 * buf.length)
    (rest : List Byte) : Overwrites (buf ++ rest) (buf' ++ rest) pos width value := by
  refine ⟨by rw [length_append, length_append, h.length_eq], ?_⟩
  intro j
  rw [bitAt_append, bitAt_append, h.length_eq, h.bits]
  by_cases hj : j < 8 * buf.length
  · rw [if_pos hj, if_pos hj]
  · rw [if_neg hj, if_neg hj, if_neg (by omega)]

/-- The buffers agree outside of the bits from `lo` up to `hi`. -/
structure Frame (buf buf' : List Byte) (lo hi : Nat) : Prop where
  length_eq : buf'.length = buf.length
  bits : ∀ j, j < lo ∨ hi ≤ j → bitAt buf' j = bitAt buf j

/-- Only the bits of the field may change. -/
theorem Overwrites.frame : Frame buf buf' pos (pos + width) :=
  ⟨h.length_eq, fun j hj => by rw [h.bits, if_neg (by omega)]⟩

end

theorem Frame.refl (buf : List Byte) (lo hi : Nat) : Frame buf buf lo hi :=
  ⟨rfl, fun _ _ => rfl⟩

/-- A wider range of bits may change as well. -/
theorem Frame.mono {lo' hi' : Nat} (h : Frame buf buf' lo hi) (hlo : lo' ≤ lo) (hhi : hi ≤ hi') :
    Frame buf buf' lo' hi' :=
  ⟨h.length_eq, fun j hj => h.bits j (by omega)⟩

theorem Frame.trans {buf'' : List Byte} (h : Frame buf buf' lo hi)
    (h' : Frame buf' buf'' lo hi) : Frame buf buf'' lo hi :=
  ⟨h'.length_eq.trans h.length_eq, fun j hj => (h'.bits j hj).trans (h.bits j hj)⟩

/-- Fields outside of the frame are as before. -/
theorem Frame.field_eq (h : Frame buf buf' lo hi) (hapart : pos + width ≤ lo ∨ hi ≤ pos) :
    field buf' pos width = field buf pos width :=
  field_congr fun j hj => h.bits _ (by omega)

/-- So is the front of the buffer. -/
theorem Frame.take_eq (h : Frame buf buf' lo hi) (hn : 8 * n ≤ lo) : buf'.take n = buf.take n := by
  apply eq_of_bitAt
  · rw [length_take, length_take, h.length_eq]
  · intro j
    rw [bitAt_take, bitAt_take]
    by_cases hj : j < 8 * n
    · rw [h.bits j (by omega)]
    · rw [decide_eq_false hj, Bool.false_and, Bool.false_and]

/-- Storing beyond the buffer fails. -/
theorem store_eq_none {bytes : List Byte} (h : buf.length < p + bytes.length) :
    store buf p bytes = none :=
  if_neg (by omega)

/-- Storing a number overwrites the field of its bytes. -/
theorem store_toBytes (h : p + count ≤ buf.length) (value : Nat) :
    ∃ buf', store buf p (toBytes value count) = some buf' ∧
      Overwrites buf buf' (8 * p) (8 * count) value := by
  have htake : (buf.take p).length = p := by rw [length_take]; omega
  refine ⟨buf.take p ++ toBytes value count ++ buf.drop (p + count), ?_, ?_, ?_⟩
  · rw [store, length_toBytes, if_pos h]
  · rw [length_append, length_append, length_toBytes, length_drop]
    omega
  · intro j
    have hbuf : bitAt buf j =
        bitAt (buf.take p ++ ((buf.drop p).take count ++ buf.drop (p + count))) j := by
      rw [← drop_drop, take_append_drop, take_append_drop]
    have hmid : ((buf.drop p).take count).length = count := by
      rw [length_take, length_drop]; omega
    rw [hbuf, append_assoc, bitAt_append, bitAt_append, bitAt_append, bitAt_append, htake, hmid,
      length_toBytes, bitAt_toBytes]
    by_cases hlow : j < 8 * p
    · rw [if_pos hlow, if_pos hlow, if_neg (by omega)]
    · by_cases hhigh : j - 8 * p < 8 * count
      · rw [if_neg hlow, if_pos hhigh, decide_eq_true hhigh, Bool.true_and, if_pos (by omega)]
      · rw [if_neg hlow, if_neg hhigh, if_neg hlow, if_neg hhigh, if_neg (by omega)]

/-- Writing back bytes that differ in a field only overwrites that field. -/
theorem store_field (h : p + count ≤ buf.length) (hfits : start + width ≤ 8 * count)
      (hbits : ∀ j < 8 * count, n.testBit j =
        if start ≤ j ∧ j < start + width then value.testBit (j - start)
        else bitAt buf (8 * p + j)) :
    ∃ buf', store buf p (toBytes n count) = some buf' ∧
      Overwrites buf buf' (8 * p + start) width value := by
  obtain ⟨buf', hstore, hover⟩ := store_toBytes h n
  refine ⟨buf', hstore, hover.length_eq, fun j => ?_⟩
  rw [hover.bits]
  by_cases hin : 8 * p ≤ j ∧ j < 8 * p + 8 * count
  · rw [if_pos hin, hbits _ (by omega)]
    by_cases hfield : 8 * p + start ≤ j ∧ j < 8 * p + start + width
    · rw [if_pos (by omega), if_pos hfield, Nat.sub_sub]
    · rw [if_neg (by omega), if_neg hfield, Nat.add_sub_cancel' hin.1]
  · rw [if_neg hin, if_neg (by omega)]

/-- The bits of a byte are bits of the buffer. -/
theorem getLsbD_of_getElem? {b : Byte} (hb : buf[p]? = some b) (hj : j < 8) :
    b.getLsbD j = bitAt buf (8 * p + j) := by
  obtain ⟨hp, rfl⟩ := List.getElem?_eq_some_iff.mp hb
  have hload := load_eq_some (show p + 1 ≤ buf.length from hp)
  rw [load, if_pos (show p + 1 ≤ buf.length from hp), take_one, head?_drop, hb, toList_some,
    some.injEq, ofBytes, ofBytes, Nat.mul_zero, add_zero] at hload
  rw [← BitVec.testBit_toNat, hload, testBit_field, decide_eq_true (by omega), Bool.true_and]

/-- A string stored in two parts. -/
theorem store_append (buf : List Byte) (p : Nat) (front back : List Byte) :
    (store buf p front).bind (fun buf => store buf (p + front.length) back) =
      store buf p (front ++ back) := by
  by_cases h : p + front.length + back.length ≤ buf.length
  · have htake : (buf.take p).length = p := by rw [length_take]; omega
    have hfront : (buf.take p ++ front).length = p + front.length := by
      rw [length_append, htake]
    have hlength : (buf.take p ++ front ++ buf.drop (p + front.length)).length = buf.length := by
      rw [length_append, length_drop]
      omega
    rw [store, store, length_append, if_pos (by omega), if_pos (by omega), bind_some, store,
      hlength, if_pos h, take_left' hfront, ← drop_drop, drop_left' hfront,
      drop_drop, append_assoc _ front, add_assoc]
  · rw [store_eq_none (show buf.length < p + (front ++ back).length by
      rw [length_append]; omega)]
    by_cases hfront : p + front.length ≤ buf.length
    · rw [store, if_pos hfront]
      apply store_eq_none
      rw [length_append, length_append, length_take, length_drop]
      omega
    · rw [store_eq_none (by omega), bind_none]

/-- A string stored as its first byte and the rest. -/
theorem store_cons (buf : List Byte) (p : Nat) (b : Byte) (bytes : List Byte) :
    (store buf p [b]).bind (fun buf => store buf (p + 1) bytes) = store buf p (b :: bytes) :=
  store_append buf p [b] bytes

/-- A string stored over another one of its length. -/
theorem store_store (buf : List Byte) (p : Nat) {bytes bytes' : List Byte}
    (hlength : bytes.length = bytes'.length) :
    (store buf p bytes).bind (fun buf => store buf p bytes') = store buf p bytes' := by
  by_cases h : p + bytes.length ≤ buf.length
  · have htake : (buf.take p).length = p := by rw [length_take]; omega
    have hfront : (buf.take p ++ bytes).length = p + bytes.length := by
      rw [length_append, htake]
    have hlength' : (buf.take p ++ bytes ++ buf.drop (p + bytes.length)).length = buf.length := by
      rw [length_append, length_drop]
      omega
    rw [store, store, ← hlength, if_pos h, if_pos h, bind_some, store, ← hlength, hlength',
      if_pos h, drop_left' hfront, append_assoc (buf.take p), take_left' htake]
  · rw [store_eq_none (by omega), bind_none, store_eq_none (by omega)]

/-- The end of a string is stored over. -/
theorem store_store_append (buf : List Byte) (p : Nat) (front back back' : List Byte)
    (hlength : back.length = back'.length) :
    (store buf p (front ++ back)).bind (fun buf => store buf (p + front.length) back') =
      store buf p (front ++ back') := by
  rw [← store_append, ← store_append, bind_assoc]
  congr 1
  funext buf'
  exact store_store buf' (p + front.length) hlength

end Gloop.Foundation

import Gloop.Coding.FixedBitWidthArray.Model
import Gloop.Foundation.Word
import Mathlib.Tactic.IntervalCases

/-!
# The bit array as an array

Element `i` is the field of `width` bits at bit `i * width`. `Get` reads it by a word load, by a
load of the last word or by a few bytes, and `Set` writes it by a word or by a few bytes; all ways
come to the same so long as the field is inside the memory and its position does not wrap. What is
meant is an array of numbers, and `specRun` makes the calls on it. `ActsAsArray` says that both
forms of the class do the same on every run, and `acts_as_array_iff` that this is so exactly when
the number of bits does not wrap in `SizeInBytes`.
-/

namespace Gloop.Coding.FixedBitWidthArray

section

open Gloop.Foundation BitVec Nat

/-! ## `ReadWriteHelper` -/

/-- A read of up to five bytes is a load. -/
theorem read_eq {mem : List Byte} {ptr numBytes : Nat} (hpos : 0 < numBytes) (hle : numBytes ≤ 5) :
    read mem ptr numBytes = (load mem ptr numBytes).map (BitVec.ofNat 64) := by
  have hshift : ∀ n : Nat, n <<< 8 = 256 * n := fun n => by rw [Nat.shiftLeft_eq, mul_comm]
  interval_cases numBytes
  · cases hload : load mem ptr 1 <;> simp [read, hload]
  · cases hload : load mem ptr 2 <;> simp [read, hload]
  · rw [load_succ]
    cases hlow : load mem ptr 1 <;> cases hhigh : load mem (ptr + 1) 2 <;>
      simp [read, hlow, hhigh, hshift]
  · cases hload : load mem ptr 4 <;> simp [read, hload]
  · rw [load_succ]
    cases hlow : load mem ptr 1 <;> cases hhigh : load mem (ptr + 1) 4 <;>
      simp [read, hlow, hhigh, hshift]

/-- A write of up to five bytes is a store. -/
theorem write_eq (mem : List Byte) (ptr : Nat) {numBytes : Nat} (hpos : 0 < numBytes)
    (hle : numBytes ≤ 5) (value : BitVec 64) :
    write mem ptr numBytes value = store mem ptr (toBytes value.toNat numBytes) := by
  have hshift : (value >>> 8).toNat = value.toNat / 256 := by
    rw [toNat_ushiftRight, shiftRight_eq_div_pow]
  interval_cases numBytes
  · rfl
  · rfl
  · rw [write, hshift]
    exact store_cons mem ptr _ _
  · rfl
  · rw [write, hshift]
    exact store_cons mem ptr _ _

/-! ## Words -/

namespace FixedBitWidthArrayBase

variable (a : FixedBitWidthArrayBase)
include a

theorem width_le_32 : a.width ≤ 32 :=
  a.width_le

variable {mem : List Byte} {index : BitVec 64} {shift start j count ptr : Nat}

/-- `Get` cuts the element out of a word that holds its bits from bit `shift` on. -/
theorem extract_eq {word : BitVec 64} {pos : Nat}
    (hbits : ∀ j < a.width, word.getLsbD (shift + j) = bitAt mem (pos + j)) :
    a.extract word shift = BitVec.ofNat 32 (field mem pos a.width) := by
  have hwidth := a.width_le_32
  apply eq_of_getLsbD_eq
  intro j hj
  rw [extract, getLsbD_setWidth, getLsbD_and, mask,
    getLsbD_lowMask (by omega), getLsbD_ofNat, testBit_field]
  by_cases hlt : j < a.width
  · simp [decide_eq_true hlt, hbits j hlt]
  · rw [decide_eq_false hlt, Bool.and_false, Bool.false_and]

/-- A blended word has the bits of the value in their place. -/
theorem getLsbD_blend (word : BitVec 64) (value : BitVec 32) (hj : j < 64) :
    (a.blend word value start).getLsbD j =
      if start ≤ j ∧ j < start + a.width then value.getLsbD (j - start) else word.getLsbD j := by
  have hwidth := a.width_le_32
  unfold blend
  simp only [getLsbD_or, getLsbD_and, getLsbD_not, getLsbD_shiftLeft,
    getLsbD_lowMask (show a.width < 64 by omega), decide_eq_true hj]
  by_cases hlow : j < start
  · simp [hlow]
  · by_cases hhigh : j - start < a.width
    · simp [hlow, hhigh, show start ≤ j ∧ j < start + a.width by omega,
        show j - start < 64 by omega]
    · simp [hhigh, show ¬ (start ≤ j ∧ j < start + a.width) by omega]

omit a in
/-- The bits of bytes that were loaded. -/
theorem getLsbD_load (mem : List Byte) (ptr : Nat) (hj : j < 8 * count) (hcount : count ≤ 8) :
    (BitVec.ofNat 64 (field mem (8 * ptr) (8 * count))).getLsbD j = bitAt mem (8 * ptr + j) := by
  rw [getLsbD_ofNat, testBit_field, decide_eq_true hj,
    decide_eq_true (by omega), Bool.true_and, Bool.true_and]

/-- Writing back the bytes of a word with the element in it changes that element only. -/
theorem store_blend (value : BitVec 32)
    (hcount : count ≤ 8) (hmem : ptr + count ≤ mem.length) (hfits : start + a.width ≤ 8 * count) :
    ∃ mem', store mem ptr (toBytes
        (a.blend (BitVec.ofNat 64 (field mem (8 * ptr) (8 * count))) value start).toNat count) =
          some mem' ∧
      Overwrites mem mem' (8 * ptr + start) a.width value.toNat := by
  refine store_field hmem hfits fun j hj => ?_
  rw [testBit_toNat, a.getLsbD_blend _ _ (by omega), getLsbD_load mem ptr hj hcount, testBit_toNat]

/-! ## Positions -/

variable (hpos : index.toNat * a.width < 2 ^ 64)
include hpos

/-- The place of an element does not overflow. -/
theorem toNat_bit0Offset : (a.bit0Offset index).toNat = index.toNat * a.width := by
  have hwidth := a.width_le_32
  rw [bit0Offset, toNat_mul, BitVec.toNat_ofNat, mod_eq_of_lt (show a.width < 2 ^ 64 by omega),
    mod_eq_of_lt hpos]

/-- The position of an element as a byte and a bit in that byte. -/
theorem exists_position : ∃ byte0 start, (a.bit0Offset index >>> 3).toNat = byte0 ∧
      (a.bit0Offset index &&& 7#64).toNat = start ∧ start < 8 ∧
      8 * byte0 + start = index.toNat * a.width ∧ a.width ≤ 32 := by
  have hbit := a.toNat_bit0Offset hpos
  refine ⟨_, _, rfl, rfl, ?_, ?_, a.width_le_32⟩
  · exact lt_of_le_of_lt and_le_right (by decide)
  · rw [toNat_and, toNat_ushiftRight, shiftRight_eq_div_pow, hbit,
      show (7#64).toNat = 2 ^ 3 - 1 from rfl, and_two_pow_sub_one_eq_mod]
    exact div_add_mod _ _

omit hpos a in
theorem endOffset_eq_zero {a : FixedBitWidthArrayBase} (hwidth : a.width = 0) :
    a.endOffset = 0 := by
  rw [endOffset, sizeInBytes, hwidth, zero_mul]
  rfl

/-! ## `Get` -/

omit hpos a in
theorem loadUnsignedWord_eq (h : ptr + 8 ≤ mem.length) :
    loadUnsignedWord mem ptr = some (BitVec.ofNat 64 (field mem (8 * ptr) (8 * 8))) := by
  rw [loadUnsignedWord, load_eq_some h]
  rfl

omit hpos in
/-- The word at a position, cut at the element. -/
theorem extract_load (mem : List Byte) (hcount : count ≤ 8) (hfits : shift + a.width ≤ 8 * count) :
    a.extract (BitVec.ofNat 64 (field mem (8 * ptr) (8 * count))) shift =
      BitVec.ofNat 32 (field mem (8 * ptr + shift) a.width) := by
  apply a.extract_eq
  intro j hj
  rw [getLsbD_load mem ptr (by omega) hcount, add_assoc]

/-- `Get` without safe semantics reads eight bytes. -/
theorem get_unsafe (hplain : a.safeSemantics = false)
    (hmem : index.toNat * a.width + 64 ≤ 8 * mem.length) :
      a.get mem index = some (BitVec.ofNat 32 (field mem (index.toNat * a.width) a.width)) := by
  obtain ⟨byte0, start, hbyte, hstart, hlt, hsum, hwidth⟩ := a.exists_position hpos
  unfold get
  rw [hplain, hbyte, hstart, if_neg (by simp), if_pos (by simp), loadUnsignedWord_eq (by omega)]
  show some (a.extract _ start) = _
  rw [a.extract_load mem (le_refl 8) (by omega), hsum]

/-- `Get` with safe semantics stays within the bytes of the array. -/
theorem get_safe (hsafe : a.safeSemantics = true) (hindex : index < a.numItems)
    (hmem : mem.length = a.endOffset) (hfits : index.toNat * a.width + a.width ≤ 8 * mem.length) :
    a.get mem index = some (BitVec.ofNat 32 (field mem (index.toNat * a.width) a.width)) := by
  obtain ⟨byte0, start, hbyte, hstart, hlt, hsum, hwidth⟩ := a.exists_position hpos
  have hin : ¬ (a.safeSemantics = true ∧ a.numItems ≤ index) :=
    fun h => absurd hindex (BitVec.not_lt.mpr h.2)
  unfold get
  rw [if_neg hin, hbyte, hstart, hsafe, ← hmem, show kWordSize = 8 from rfl]
  by_cases hword : byte0 + 8 ≤ mem.length
  · rw [if_pos (Or.inr hword), loadUnsignedWord_eq hword]
    show some (a.extract _ start) = _
    rw [a.extract_load mem (le_refl 8) (by omega), hsum]
  rw [if_neg (by simp [hword])]
  by_cases hlast : 8 ≤ mem.length
  · have hpositive : a.width ≠ 0 := fun h => by rw [endOffset_eq_zero h] at hmem; omega
    have hshift : start + (byte0 - (mem.length - 8)) <<< 3 =
        start + 8 * (byte0 - (mem.length - 8)) := by rw [Nat.shiftLeft_eq, mul_comm]
    have hptr : 8 * (mem.length - 8) + (start + 8 * (byte0 - (mem.length - 8))) =
        index.toNat * a.width := by omega
    have hload := loadUnsignedWord_eq (show mem.length - 8 + 8 ≤ mem.length by omega)
    rw [if_pos hlast]
    simp only [hshift, hload, guard,
      if_pos (show start + 8 * (byte0 - (mem.length - 8)) < 64 by omega)]
    show some (a.extract _ _) = _
    rw [a.extract_load mem (le_refl 8) (by omega), hptr]
  · rw [if_neg hlast]
    by_cases hzero : a.width = 0
    · have hstartZero : start = 0 := by rw [hzero] at hsum; omega
      have hextract : a.extract 0 0 = BitVec.ofNat 32 (field mem (index.toNat * a.width) a.width) :=
        a.extract_eq fun j hj => by omega
      rw [← hextract, hzero, hstartZero]
      rfl
    · rw [read_eq (by omega) (by omega), load_eq_some (by omega)]
      show some (a.extract _ start) = _
      rw [a.extract_load mem (by omega) (by omega), hsum]

/-! ## `Set` -/

/-- `Set` without safe semantics writes eight bytes back. -/
theorem set_unsafe (value : BitVec 32) (hplain : a.safeSemantics = false)
    (hwritable : a.writable = true) (hmem : index.toNat * a.width + 64 ≤ 8 * mem.length) : ∃ mem',
      a.set mem index value = some mem' ∧
        Overwrites mem mem' (index.toNat * a.width) a.width value.toNat := by
  obtain ⟨byte0, start, hbyte, hstart, hlt, hsum, hwidth⟩ := a.exists_position hpos
  have hword : byte0 + 8 ≤ mem.length := by omega
  obtain ⟨mem', hstore, hover⟩ :=
    a.store_blend value (le_refl 8) hword (show start + _ ≤ _ by omega)
  refine ⟨mem', ?_, hsum ▸ hover⟩
  unfold set
  rw [hplain, hwritable, hbyte, hstart, if_neg (by simp), if_neg (by simp), if_neg (by simp),
    loadUnsignedWord_eq hword]
  exact hstore

/-- `Set` with safe semantics stays within the bytes of the array. -/
theorem set_safe (value : BitVec 32) (hsafe : a.safeSemantics = true)
    (hwritable : a.writable = true) (hindex : index < a.numItems)
    (hmem : mem.length = a.endOffset) (hfits : index.toNat * a.width + a.width ≤ 8 * mem.length) :
    ∃ mem', a.set mem index value = some mem' ∧
      Overwrites mem mem' (index.toNat * a.width) a.width value.toNat := by
  obtain ⟨byte0, start, hbyte, hstart, hlt, hsum, hwidth⟩ := a.exists_position hpos
  unfold set
  rw [hsafe, hwritable, hbyte, hstart, ← hmem, if_neg (by simp), if_neg (fun h => h.2 hindex)]
  by_cases hend : mem.length ≤ byte0 + kWordSize
  · rw [if_pos ⟨rfl, hend⟩]
    simp only [shiftRight_eq_div_pow]
    by_cases hzero : a.width = 0
    · -- An element of no bits is in no byte, and the helper then leaves the memory as it is.
      have hstartZero : start = 0 := by rw [hzero] at hsum; omega
      refine ⟨mem, by rw [hzero, hstartZero]; rfl, rfl, fun j => ?_⟩
      rw [if_neg (by omega)]
    · obtain ⟨mem', hstore, hover⟩ := a.store_blend value
        (show (start + a.width + 7) / 2 ^ 3 ≤ 8 by omega) (show byte0 + _ ≤ mem.length by omega)
          (show start + _ ≤ _ by omega)
      refine ⟨mem', ?_, hsum ▸ hover⟩
      rw [read_eq (by omega) (by omega), load_eq_some (by omega)]
      exact (write_eq mem byte0 (by omega) (by omega) _).trans hstore
  · have hword : byte0 + 8 ≤ mem.length := by rw [kWordSize] at hend; omega
    obtain ⟨mem', hstore, hover⟩ := a.store_blend value (le_refl 8) hword
      (show start + _ ≤ _ by omega)
    refine ⟨mem', ?_, hsum ▸ hover⟩
    rw [if_neg (fun h => hend h.2), loadUnsignedWord_eq hword]
    exact hstore

end FixedBitWidthArrayBase

end

open List BitVec
open Gloop.Foundation FixedBitWidthArrayBase

/-! ## The array that is meant -/

/-- Make the calls on an array of numbers, and collect what is read. -/
def specRun (width : Nat) : (Nat → Nat) → List Op → List Nat × (Nat → Nat)
  | items, [] => ([], items)
  | items, .get index :: ops =>
    let (results, final) := specRun width items ops
    (items index.toNat :: results, final)
  | items, .set index value :: ops =>
    specRun width (Function.update items index.toNat (value.toNat % 2 ^ width)) ops

/-- The elements that a memory holds. -/
def elements (width : Nat) (mem : List Byte) (i : Nat) : Nat :=
  field mem (i * width) width

/-- The array made from a `char*`. -/
def make (safeSemantics : Bool) (width : Nat) (hwidth : width ≤ maxElementWidthInBits)
    (numItems : BitVec 64) : FixedBitWidthArrayBase :=
  ⟨safeSemantics, true, width, numItems, hwidth⟩

/-- On memory of `SizeInBytes` bytes, the safe form makes every sequence of calls inside the array
without an access outside of it, and reads and leaves there what the array that is meant does. The
unsafe form, which ignores its item count, has the same results and bytes and leaves the slop
alone. -/
def ActsAsArray (width : Nat) (hwidth : width ≤ maxElementWidthInBits) (numItems : BitVec 64) :
    Prop :=
  ∀ (data slop : List Byte) (ignored : BitVec 64) (ops : List Op),
    data.length = (sizeInBytes numItems width).toNat → slop.length = kSlopBytes false →
    (∀ op ∈ ops, op.index < numItems) → ∃ results data',
      run (make true width hwidth numItems) data ops = some (results, data') ∧
      run (make false width hwidth ignored) (data ++ slop) ops = some (results, data' ++ slop) ∧
      results.map BitVec.toNat = (specRun width (elements width data) ops).1 ∧ ∀ i < numItems.toNat,
        elements width data' i = (specRun width (elements width data) ops).2 i

/-! ## Sizes that do not wrap -/

variable {width : Nat} {numItems : BitVec 64}

/-- `SizeInBytes` wraps around. -/
theorem toNat_sizeInBytes (hwidth : width ≤ maxElementWidthInBits) :
    (sizeInBytes numItems width).toNat = (width * numItems.toNat + 7) % 2 ^ 64 / 8 := by
  have hsmall : width < 2 ^ 64 := lt_of_le_of_lt hwidth (by decide)
  rw [sizeInBytes, toNat_ushiftRight, Nat.shiftRight_eq_div_pow, toNat_add,
    toNat_mul, toNat_ofNat, Nat.mod_eq_of_lt hsmall, Nat.mod_add_mod]
  rfl

/-- An element of the array is inside its bytes. -/
theorem element_fits {numItems index : BitVec 64}
    (hwidth : width ≤ maxElementWidthInBits) (hbits : width * numItems.toNat + 7 < 2 ^ 64)
    (hindex : index < numItems) : index.toNat * width + width ≤
      8 * (sizeInBytes numItems width).toNat ∧ index.toNat * width < 2 ^ 64 := by
  have hle : (index.toNat + 1) * width ≤ numItems.toNat * width :=
    Nat.mul_le_mul_right width (lt_def.mp hindex)
  rw [toNat_sizeInBytes hwidth, mul_comm width]
  rw [mul_comm] at hbits
  rw [add_one_mul] at hle
  omega

/-! ## One call -/

section Calls

variable {width : Nat} (hwidth : width ≤ maxElementWidthInBits) (ignored : BitVec 64)
  {numItems index : BitVec 64} {data slop : List Byte} (hbits : width * numItems.toNat + 7 < 2 ^ 64)
  (hdata : data.length = (sizeInBytes numItems width).toNat)
  (hslop : slop.length = kSlopBytes false) (hindex : index < numItems)

include hbits hdata hslop hindex

/-- Both forms read the element. -/
theorem get_eq : (make true width hwidth numItems).get data index =
        some (BitVec.ofNat 32 (elements width data index.toNat)) ∧
      (make false width hwidth ignored).get (data ++ slop) index =
        some (BitVec.ofNat 32 (elements width data index.toNat)) := by
  obtain ⟨hfits, hpos⟩ := element_fits hwidth hbits hindex
  rw [← hdata] at hfits
  refine ⟨get_safe _ hpos rfl hindex hdata hfits, ?_⟩
  unfold elements
  rw [← field_append hfits]
  refine get_unsafe _ hpos rfl ?_
  rw [length_append, hslop]
  show index.toNat * width + 64 ≤ 8 * (data.length + 8)
  omega

/-- Both forms write the element and nothing else. -/
theorem set_eq (value : BitVec 32) :
    ∃ data', (make true width hwidth numItems).set data index value = some data' ∧
      (make false width hwidth ignored).set (data ++ slop) index value = some (data' ++ slop) ∧
      Overwrites data data' (index.toNat * width) width value.toNat := by
  obtain ⟨hfits, hpos⟩ := element_fits hwidth hbits hindex
  rw [← hdata] at hfits
  obtain ⟨data', hset, hover⟩ :=
    set_safe (make true width hwidth numItems) hpos value rfl rfl hindex hdata hfits
  have hroom : index.toNat * width + 64 ≤ 8 * (data ++ slop).length := by
    rw [length_append, hslop]
    show index.toNat * width + 64 ≤ 8 * (data.length + 8)
    omega
  obtain ⟨mem', hset', hover'⟩ :=
    set_unsafe (make false width hwidth ignored) hpos value rfl rfl hroom
  refine ⟨data', hset, ?_, hover⟩
  rw [hset', hover'.unique (hover.append hfits slop)]

end Calls

/-- The elements after a write to one of them. -/
theorem elements_of_overwrites {width i : Nat} {data data' : List Byte} {value : Nat}
    (hover : Overwrites data data' (i * width) width value) :
    elements width data' = Function.update (elements width data) i (value % 2 ^ width) := by
  funext j
  by_cases hj : j = i
  · rw [hj, Function.update_self]
    exact hover.field_same
  rw [Function.update_of_ne hj]
  apply hover.field_other
  rcases lt_or_gt_of_ne hj with hlt | hgt
  · left
    calc j * width + width = (j + 1) * width := (add_one_mul j width).symm
      _ ≤ i * width := Nat.mul_le_mul_right width hlt
  · right
    calc i * width + width = (i + 1) * width := (add_one_mul i width).symm
      _ ≤ j * width := Nat.mul_le_mul_right width hgt

/-! ## Runs -/

/-- A run acts on the elements that the bytes stand for. -/
theorem run_elements (hwidth : width ≤ maxElementWidthInBits) (ignored : BitVec 64)
    {slop : List Byte} (hbits : width * numItems.toNat + 7 < 2 ^ 64)
    (hslop : slop.length = kSlopBytes false) {ops : List Op} {data : List Byte}
    (hdata : data.length = (sizeInBytes numItems width).toNat)
    (hops : ∀ op ∈ ops, op.index < numItems) :
    ∃ results data', run (make true width hwidth numItems) data ops = some (results, data') ∧
      run (make false width hwidth ignored) (data ++ slop) ops = some (results, data' ++ slop) ∧
      (results.map BitVec.toNat, elements width data') =
        specRun width (elements width data) ops := by
  induction ops generalizing data with
  | nil => exact ⟨[], data, rfl, rfl, rfl⟩
  | cons op ops ih =>
    have hrest : ∀ op ∈ ops, op.index < numItems := fun op hop => hops op (mem_cons_of_mem _ hop)
    have hindex := hops op mem_cons_self
    cases op with
    | get index =>
      obtain ⟨results, data', hrun, hrun', hspec⟩ := ih hdata hrest
      obtain ⟨hget, hget'⟩ := get_eq hwidth ignored hbits hdata hslop hindex
      rw [Op.index] at hget hget'
      refine ⟨BitVec.ofNat 32 (elements width data index.toNat) :: results, data', ?_, ?_, ?_⟩
      · rw [run, hget, hrun]
        rfl
      · rw [run, hget', hrun']
        rfl
      · have hsmall : elements width data index.toNat < 2 ^ 32 :=
          (field_lt _ _ _).trans_le (Nat.pow_le_pow_right (by omega) hwidth)
        rw [specRun, ← hspec, map_cons, toNat_ofNat, Nat.mod_eq_of_lt hsmall]
    | set index value =>
      obtain ⟨data₁, hset, hset', hover⟩ := set_eq hwidth ignored hbits hdata hslop hindex value
      rw [Op.index] at hset hset' hover
      obtain ⟨results, data', hrun, hrun', hspec⟩ := ih (hover.length_eq.trans hdata) hrest
      refine ⟨results, data', ?_, ?_, ?_⟩
      · rw [run, hset]
        exact hrun
      · rw [run, hset']
        exact hrun'
      · rw [hspec, specRun, ← elements_of_overwrites hover]

/-! ## Sizes that wrap -/

/-- The safe form accesses memory outside of the array for an element that the array has no bytes
for. -/
theorem set_outside {hwidth : width ≤ maxElementWidthInBits} {numItems index : BitVec 64}
    {data : List Byte} (hdata : data.length = (sizeInBytes numItems width).toNat)
    (hpos : index.toNat * width < 2 ^ 64) (hpositive : 0 < width)
    (hout : 8 * data.length < index.toNat * width + width) (value : BitVec 32) :
    (make true width hwidth numItems).set data index value = none := by
  obtain ⟨byte0, start, hbyte, hstart, hlt, hsum, -⟩ :=
    (make true width hwidth numItems).exists_position hpos
  have hsmall : width ≤ 32 := hwidth
  have hsum : 8 * byte0 + start = index.toNat * width := hsum
  have hend : (make true width hwidth numItems).endOffset = data.length := hdata.symm
  unfold FixedBitWidthArrayBase.set
  rw [hbyte, hstart, hend, if_neg (by simp [make])]
  split
  next => rfl
  next =>
    have hnear : data.length ≤ byte0 + kWordSize := by rw [kWordSize]; omega
    have hread : read data byte0 ((start + width + 7) / 2 ^ 3) = none := by
      rw [read_eq (by omega) (by omega), load_eq_none (by omega)]
      rfl
    rw [if_pos ⟨rfl, hnear⟩, Nat.shiftRight_eq_div_pow]
    show (read data byte0 ((start + width + 7) / 2 ^ 3)).bind _ = none
    rw [hread, Option.bind_none]

/-- Where the size wraps, some element is outside of the bytes of the array. -/
theorem exists_outside (hwidth : width ≤ maxElementWidthInBits)
    (hwraps : 2 ^ 64 ≤ width * numItems.toNat + 7) :
    ∃ index : BitVec 64, index < numItems ∧ index.toNat * width < 2 ^ 64 ∧
      8 * (sizeInBytes numItems width).toNat < index.toNat * width + width := by
  have hpositive : 0 < width := by
    rcases Nat.eq_zero_or_pos width with hzero | hpos
    · rw [hzero] at hwraps; omega
    · exact hpos
  rw [toNat_sizeInBytes hwidth]
  by_cases hlarge : 2 ^ 64 ≤ width * numItems.toNat
  · -- The last element that starts below bit 2 ^ 64 ends at or above it.
    have hle : (2 ^ 64 - 1) / width * width ≤ 2 ^ 64 - 1 := Nat.div_mul_le_self _ _
    have hlt : 2 ^ 64 - 1 < (2 ^ 64 - 1) / width * width + width := Nat.lt_div_mul_add hpositive
    have hindex : (2 ^ 64 - 1) / width < numItems.toNat := by
      rw [Nat.div_lt_iff_lt_mul hpositive, mul_comm]
      omega
    have hvalue : (BitVec.ofNat 64 ((2 ^ 64 - 1) / width)).toNat = (2 ^ 64 - 1) / width := by
      rw [toNat_ofNat, Nat.mod_eq_of_lt (hindex.trans numItems.isLt)]
    refine ⟨BitVec.ofNat 64 ((2 ^ 64 - 1) / width), ?_, ?_, ?_⟩
    · rw [lt_def, hvalue]
      exact hindex
    · rw [hvalue]
      omega
    · rw [hvalue]
      omega
  · -- The size is 0 and so there is no room for the first element.
    have hitems : 0 < numItems.toNat := by
      rcases Nat.eq_zero_or_pos numItems.toNat with hzero | hpos
      · rw [hzero] at hwraps; omega
      · exact hpos
    refine ⟨0#64, ?_, ?_, ?_⟩
    · exact hitems
    · simp
    · omega

/-- An array of any width acts as an array of numbers just if the count of its bits does not wrap
around when it is rounded up to bytes. -/
theorem acts_as_array_iff (width : Nat) (hwidth : width ≤ maxElementWidthInBits)
    (numItems : BitVec 64) : ActsAsArray width hwidth numItems ↔
      width * numItems.toNat + 7 < 2 ^ 64 := by
  constructor
  · intro hacts
    by_contra hwraps
    obtain ⟨index, hindex, hpos, hout⟩ := exists_outside hwidth (not_lt.mp hwraps)
    have hpositive : 0 < width := by
      rcases Nat.eq_zero_or_pos width with hzero | hpos
      · rw [hzero] at hwraps; omega
      · exact hpos
    let data : List Byte := replicate (sizeInBytes numItems width).toNat 0
    have hdata : data.length = (sizeInBytes numItems width).toNat := length_replicate
    obtain ⟨results, data', hrun, -⟩ := hacts data (replicate 8 0) 0 [.set index 0] hdata
      length_replicate (by simpa [Op.index] using hindex)
    rw [run, set_outside hdata hpos hpositive (hdata ▸ hout)] at hrun
    cases hrun
  · intro hbits data slop ignored ops hdata hslop hops
    obtain ⟨results, data', hrun, hrun', hspec⟩ :=
      run_elements hwidth ignored hbits hslop hdata hops
    refine ⟨results, data', hrun, hrun', ?_, ?_⟩
    · rw [← hspec]
    · intro i _
      rw [← hspec]

/-- Three elements of five bits. -/
theorem five_bits_act_as_array : ActsAsArray 5 (by decide) 3#64 :=
  (acts_as_array_iff 5 (by decide) 3#64).mpr (by decide)

/-- With `2 ^ 59 + 1` elements of 32 bits, `SizeInBytes` is 4 and `Set(1, 0)` is outside of the
array. -/
theorem wrapped_size_not_array : ¬ ActsAsArray 32 (by decide) (BitVec.ofNat 64 (2 ^ 59 + 1)) := by
  intro hacts
  obtain ⟨results, data', hrun, -⟩ := hacts [0, 0, 0, 0] (replicate 8 0) 0 [.set 1 0] rfl rfl
    (by decide)
  cases hrun

end Gloop.Coding.FixedBitWidthArray

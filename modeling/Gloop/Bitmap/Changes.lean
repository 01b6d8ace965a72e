import Gloop.Bitmap.Model
import Gloop.Foundation.Iterate

/-!
# The changes of `BasicBitmap` on lists of bits

`Represents m bits` relates a bitmap to the list of bits that it stands for; the bits of its last
word after its size are not in the list. Each change of a bitmap succeeds on operands that represent
lists, and its result represents the list changed in the same way.
-/

namespace Gloop.Bitmap

open Gloop.Foundation List BitVec Option Nat Function

variable {k : Nat}

/-- There are enough words for the bits. -/
theorem le_requiredArraySize (k n : Nat) : n ≤ 2 ^ k * requiredArraySize k n := by
  unfold requiredArraySize
  split
  next => omega
  next =>
    have := lt_mul_div_succ (n - 1) (Nat.two_pow_pos k)
    omega

/-- The last word is in use, unless there are no bits. -/
theorem requiredArraySize_lt (k : Nat) {n : Nat} (hn : 0 < n) :
    2 ^ k * (requiredArraySize k n - 1) < n := by
  have := mul_div_le (n - 1) (2 ^ k)
  rw [requiredArraySize, if_neg (by omega), Nat.add_sub_cancel]
  omega

namespace BasicBitmap

variable {m other : BasicBitmap k} {bits otherBits : List Bool} {i : Nat}

theorem arraySize_pos (m : BasicBitmap k) : 0 < m.arraySize := by
  unfold arraySize requiredArraySize
  split
  · exact one_pos
  · exact succ_pos _

/-- All bits of the words before the last one are in use. -/
theorem lt_size_of_div_lt (hi : i / 2 ^ k < m.arraySize - 1) : i < m.size := by
  have hmul := lt_mul_div_succ i (Nat.two_pow_pos k)
  have hle := mul_le_mul_left (2 ^ k) hi
  rcases Nat.eq_zero_or_pos m.size with hzero | hpos
  · rw [arraySize, requiredArraySize, if_pos hzero] at hi
    exact absurd hi (not_lt_zero _)
  · have hlt := requiredArraySize_lt k hpos
    exact lt_of_lt_of_le hmul (hle.trans hlt.le)

/-- Every bit in use has a word. -/
theorem div_lt_of_lt_size (hi : i < m.size) : i / 2 ^ k < m.arraySize :=
  Nat.div_lt_of_lt_mul (hi.trans_le (le_requiredArraySize k m.size))

/-- The bitmap stands for the list of bits. -/
structure Represents (m : BasicBitmap k) (bits : List Bool) : Prop where
  length_eq : m.map.length = m.arraySize
  size_lt : m.size < 2 ^ 64
  bits_eq : bits = tabulate m.size (packedBit m.map)

namespace Represents

section

variable (h : m.Represents bits)
include h

theorem length_bits : bits.length = m.size := by
  rw [h.bits_eq, length_tabulate]

theorem size_le : m.size ≤ 2 ^ k * m.map.length :=
  h.length_eq ▸ le_requiredArraySize k m.size

theorem word_lt (hi : i < m.size) : i / 2 ^ k < m.map.length :=
  h.length_eq ▸ div_lt_of_lt_size hi

/-- An element of the list is a bit of the map. -/
theorem getElem_eq (hi : i < bits.length) : bits[i] = packedBit m.map i := by
  simp only [h.bits_eq, getElem_tabulate]

/-- Changing each word by itself changes the bits. -/
theorem mapIdx {f : Nat → Word k → Word k} {g : Nat → Bool → Bool}
    (hf : ∀ i < m.size, ∀ x, (f (i / 2 ^ k) x).getLsbD (i % 2 ^ k) = g i (x.getLsbD (i % 2 ^ k))) :
    Represents { m with map := m.map.mapIdx f } (bits.mapIdx g) := by
  refine ⟨by rw [length_mapIdx]; exact h.length_eq, h.size_lt, ?_⟩
  rw [h.bits_eq, mapIdx_tabulate]
  refine tabulate_congr fun i hi => ?_
  exact (packedBit_mapIdx (hi.trans_le h.size_le) (hf i hi)).symm

end

end Represents

/-! ## Single bits and all bits -/

/-- The bits of a mask are set to a value. -/
theorem getLsbD_assignMask {value : Bool} {mask x : Word k} {j : Nat} (hj : j < 2 ^ k) :
    (assignMask value mask x).getLsbD j = if mask.getLsbD j then value else x.getLsbD j := by
  cases value with
  | true =>
    rw [assignMask, if_pos rfl, getLsbD_or]
    cases mask.getLsbD j <;> simp
  | false =>
    rw [assignMask, if_neg (by simp), getLsbD_and, getLsbD_not, decide_eq_true hj]
    cases mask.getLsbD j <;> simp

namespace Represents

section

variable (h : m.Represents bits)
include h

/-- `Get` reads an element. -/
theorem get (hi : i < bits.length) : m.get i = some bits[i] := by
  have hsize : i < m.size := h.length_bits ▸ hi
  have hword := h.word_lt hsize
  rw [BasicBitmap.get, bind_eq_bind, guard_bind hsize, getBit, List.getElem?_eq_getElem]
  show some (decide _) = _
  rw [and_two_pow_sub_one_eq_mod, and_bit_ne_zero _ (mod_lt i (Nat.two_pow_pos k)), h.getElem_eq,
    packedBit_eq hword]

/-- A change of the word with bit `i`, at the place of the bit. -/
theorem update {f : Word k → Word k} {g : Bool → Bool} (hi : i < bits.length)
    (hf : ∀ x : Word k, ∀ j < 2 ^ k,
      (f x).getLsbD j = if j = i % 2 ^ k then g (x.getLsbD j) else x.getLsbD j) :
    ∃ map, Foundation.update m.map (i / 2 ^ k) f = some map ∧
      Represents { m with map } (bits.mapIdx fun j b => if j = i then g b else b) := by
  have hsize : i < m.size := h.length_bits ▸ hi
  have hword := h.word_lt hsize
  refine ⟨_, update_eq hword f, h.mapIdx fun j hj x => ?_⟩
  have hmod := mod_lt j (Nat.two_pow_pos k)
  have hiff := ext_div_mod_iff (2 ^ k) j i
  by_cases hdiv : j / 2 ^ k = i / 2 ^ k
  · rw [if_pos hdiv, hf x _ hmod]
    by_cases hji : j = i
    · rw [if_pos (hiff.mp hji).2, if_pos hji]
    · rw [if_neg fun hsame => hji (hiff.mpr ⟨hdiv, hsame⟩), if_neg hji]
  · rw [if_neg hdiv, if_neg fun hji => hdiv (hiff.mp hji).1]

/-- `Set` replaces an element and returns the old one. -/
theorem set (hi : i < bits.length) (value : Bool) :
    ∃ m', m.set i value = some (bits[i], m') ∧ m'.Represents (bits.set i value) := by
  have hsize : i < m.size := h.length_bits ▸ hi
  have hword := h.word_lt hsize
  obtain ⟨map, hrun, hrep⟩ := h.update (g := fun _ => value) hi
    (f := assignMask value (1#(2 ^ k) <<< (i &&& (2 ^ k - 1)))) fun x j hj => by
      rw [getLsbD_assignMask hj, and_two_pow_sub_one_eq_mod, getLsbD_one_shiftLeft hj]
      simp only [decide_eq_true_eq]
  rw [← set_eq_mapIdx] at hrep
  rw [Foundation.update, List.getElem?_eq_getElem, map_some, some_inj] at hrun
  refine ⟨_, ?_, hrep⟩
  rw [BasicBitmap.set, bind_eq_bind, guard_bind hsize, setBit, List.getElem?_eq_getElem hword,
    h.getElem_eq, packedBit_eq, ← and_bit_ne_zero _ (mod_lt i (Nat.two_pow_pos k)),
      ← and_two_pow_sub_one_eq_mod, ← hrun]
  rfl

/-- `Toggle` inverts an element. -/
theorem toggle (hi : i < bits.length) :
    ∃ m', m.toggle i = some m' ∧ m'.Represents (bits.modify i not) := by
  obtain ⟨map, hrun, hrep⟩ := h.update (g := not) hi
    (f := (· ^^^ (1#(2 ^ k) <<< (i &&& (2 ^ k - 1))))) fun x j hj => by
      rw [getLsbD_xor, getLsbD_one_shiftLeft hj]
      by_cases hji : j = i % 2 ^ k <;> simp [hji]
  rw [← modify_eq_mapIdx] at hrep
  refine ⟨_, ?_, hrep⟩
  rw [BasicBitmap.toggle, bind_eq_bind, guard_bind (h.length_bits ▸ hi), hrun]
  rfl

omit h in
theorem getLsbD_fill {value : Bool} {j : Nat} (hj : j < 2 ^ k) :
    (if value then kAllOnesWord else 0 : Word k).getLsbD j = value := by
  cases value with
  | true => exact (getLsbD_allOnes).trans (decide_eq_true hj)
  | false => exact getLsbD_zero

/-- `SetAll` makes all elements equal. -/
theorem setAll (value : Bool) :
    ∃ m', m.setAll value = some m' ∧ m'.Represents (bits.map fun _ => value) := by
  have hrep := h.mapIdx
    (f := fun j x => if 0 ≤ j ∧ j < m.arraySize then (if value then kAllOnesWord else 0) else x)
    (g := fun _ _ => value) fun i hi x => by
      rw [if_pos ⟨Nat.zero_le _, div_lt_of_lt_size hi⟩, getLsbD_fill (mod_lt i (Nat.two_pow_pos k))]
  rw [← map_eq_mapIdx] at hrep
  refine ⟨_, ?_, hrep⟩
  rw [BasicBitmap.setAll, fill_eq h.length_eq.ge (zero_le _)]
  rfl

/-- `Complement` inverts all elements. -/
theorem complement : ∃ m', m.complement = some m' ∧ m'.Represents (bits.map not) := by
  have hrep := h.mapIdx (f := fun j x => if j < m.arraySize then ~~~x else x)
    fun i hi x => by
      rw [if_pos (div_lt_of_lt_size hi), getLsbD_not, decide_eq_true (mod_lt i (Nat.two_pow_pos k)),
        Bool.true_and]
  rw [← map_eq_mapIdx] at hrep
  refine ⟨_, ?_, hrep⟩
  rw [BasicBitmap.complement, transform_eq h.length_eq.ge h.length_eq.ge _ 0]
  rfl

end

/-! ## Ranges -/

variable {b r size : Nat}

/-- The mask for the bits from a place on. -/
theorem getLsbD_initialMask (hr : r < 2 ^ k) :
    (kAllOnesWord <<< b : Word k).getLsbD r = decide (b ≤ r) := by
  rw [kAllOnesWord, getLsbD_shiftLeft, getLsbD_allOnes, decide_eq_true hr]
  rcases lt_or_ge r b with hlt | hge
  · rw [decide_eq_true hlt, decide_eq_false (not_le.mpr hlt)]
    rfl
  · rw [decide_eq_false (not_lt.mpr hge), decide_eq_true hge, decide_eq_true (by omega)]
    rfl

/-- The mask for the bits up to a place. -/
theorem getLsbD_finalMask {e : Nat} (he : e ≤ 2 ^ k) :
    (kAllOnesWord >>> (2 ^ k - e) : Word k).getLsbD r = decide (r < e) := by
  rw [kAllOnesWord, getLsbD_ushiftRight, getLsbD_allOnes, decide_eq_decide]
  omega

/-- `SetRange` sets the elements of a range. -/
theorem setRange (h : m.Represents bits) {begin limit : Nat} (hle : begin ≤ limit)
    (hlimit : limit ≤ bits.length) (value : Bool) : ∃ m', m.setRange begin limit value = some m' ∧
      m'.Represents (bits.mapIdx fun i b => if begin ≤ i ∧ i < limit then value else b) := by
  rw [BasicBitmap.setRange]
  split
  next heq =>
    refine ⟨m, rfl, ?_⟩
    convert h using 1
    refine ext_getElem (by simp) fun i hi hi' => ?_
    rw [getElem_mapIdx, if_neg (by omega)]
  next hne =>
    have hlimit' : limit ≤ 2 ^ k * m.map.length := (h.length_bits ▸ hlimit).trans h.size_le
    have hbit := mod_lt limit (Nat.two_pow_pos k)
    have hbegin : begin / 2 ^ k < m.map.length := Nat.div_lt_of_lt_mul (by omega)
    have hend : limit / 2 ^ k ≤ m.map.length := Nat.div_le_of_le_mul hlimit'
    have hbefore : begin / 2 ^ k ≤ limit / 2 ^ k := Nat.div_le_div_right hle
    -- a bit is in the range if it is not before the first one and is before the limit
    have hrange : ∀ i, begin ≤ i ∧ i < limit ↔
        ¬(i / 2 ^ k < begin / 2 ^ k ∨ i / 2 ^ k = begin / 2 ^ k ∧ i % 2 ^ k < begin % 2 ^ k) ∧
          (i / 2 ^ k < limit / 2 ^ k ∨ i / 2 ^ k = limit / 2 ^ k ∧ i % 2 ^ k < limit % 2 ^ k) := by
      intro i
      rw [← lt_iff_div_mod (Nat.two_pow_pos k), ← lt_iff_div_mod (Nat.two_pow_pos k), not_lt]
    have hfill : ∀ j < 2 ^ k, (if value then kAllOnesWord else 0 : Word k).getLsbD j = value :=
      fun j hj => getLsbD_fill hj
    generalize (if value then kAllOnesWord else 0 : Word k) = word at hfill ⊢
    simp only [update_eq hbegin, bind_eq_bind, bind_some]
    split
    next hsame =>
      refine ⟨_, rfl, h.mapIdx fun i hi x => ?_⟩
      have hmod := mod_lt i (Nat.two_pow_pos k)
      simp only [hrange, apply_ite (getLsbD · (i % 2 ^ k)), getLsbD_assignMask hmod, getLsbD_and,
        getLsbD_initialMask hmod, getLsbD_finalMask hbit.le, Bool.and_eq_true, decide_eq_true_eq]
      split_ifs <;> first | rfl | omega
    next hdiff =>
      rw [fill_eq (by rw [length_mapIdx]; omega) (by omega), mapIdx_mapIdx]
      simp only [bind_some]
      split
      next hzero =>
        refine ⟨_, rfl, h.mapIdx fun i hi x => ?_⟩
        have hmod := mod_lt i (Nat.two_pow_pos k)
        simp only [hrange, comp_apply, apply_ite (getLsbD · (i % 2 ^ k)), hfill _ hmod,
          getLsbD_assignMask hmod, getLsbD_initialMask hmod, decide_eq_true_eq]
        split_ifs <;> first | rfl | omega
      next hpos =>
        have hlast : limit / 2 ^ k < m.map.length := by
          by_contra hge
          have := mul_le_mul_left (2 ^ k) (not_lt.mp hge)
          have := div_add_mod limit (2 ^ k)
          omega
        rw [update_eq (by rwa [length_mapIdx]), mapIdx_mapIdx]
        refine ⟨_, rfl, h.mapIdx fun i hi x => ?_⟩
        have hmod := mod_lt i (Nat.two_pow_pos k)
        simp only [hrange, comp_apply, apply_ite (getLsbD · (i % 2 ^ k)), hfill _ hmod,
          getLsbD_assignMask hmod, getLsbD_initialMask hmod, getLsbD_finalMask hbit.le,
          decide_eq_true_eq]
        split_ifs <;> first | rfl | omega

theorem of_size (map : List (Word k)) (hlength : map.length = requiredArraySize k size)
    (hsize : size < 2 ^ 64) : Represents ⟨map, size⟩ (tabulate size (packedBit map)) :=
  ⟨hlength, hsize, rfl⟩

/-- A new bitmap has equal elements, whatever was in its memory. -/
theorem new (uninit : Nat → Word k) (hsize : size < 2 ^ 64) (fill : Bool) :
    ∃ m', BasicBitmap.new uninit size fill = some m' ∧ m'.Represents (replicate size fill) := by
  have hrep := of_size (tabulate (requiredArraySize k size) uninit) (length_tabulate _ _) hsize
  obtain ⟨m', hrun, hrep'⟩ := hrep.setAll fill
  rw [map_tabulate, ← replicate_eq_tabulate] at hrep'
  exact ⟨m', hrun, hrep'⟩

end Represents

/-! ## Two bitmaps -/

/-- The bits of the last word that are in use. -/
theorem getLsbD_mask (hk : k ≤ 64) (h : m.size < 2 ^ 64) (hi : i / 2 ^ k = m.arraySize - 1) :
    m.highOrderMapElementMask.getLsbD (i % 2 ^ k) = decide (i < m.size) := by
  rw [highOrderMapElementMask]
  split
  next hzero => rw [hzero, decide_eq_false (not_lt_zero i)]; exact getLsbD_zero
  next hne =>
    rw [arraySize, requiredArraySize, if_neg hne, Nat.add_sub_cancel] at hi
    have hi' := div_add_mod i (2 ^ k)
    have hsize := div_add_mod (m.size - 1) (2 ^ k)
    rw [hi] at hi'
    -- the shift is what the last word has left
    have hshift : (2 ^ 64 - m.size) % 2 ^ k = 2 ^ k - ((m.size - 1) % 2 ^ k + 1) := by
      obtain ⟨c, hc⟩ := pow_dvd_pow 2 hk
      have hlt : (m.size - 1) / 2 ^ k < c := Nat.div_lt_of_lt_mul (by omega)
      obtain ⟨d, rfl⟩ := Nat.exists_eq_add_of_lt hlt
      rw [Nat.mul_add, Nat.mul_add] at hc
      have hsplit : 2 ^ 64 - m.size = 2 ^ k * d + (2 ^ k - ((m.size - 1) % 2 ^ k + 1)) := by omega
      rw [hsplit, mul_add_mod, mod_eq_of_lt (by omega)]
    rw [and_two_pow_sub_one_eq_mod, hshift, Represents.getLsbD_finalMask (by omega),
      decide_eq_decide]
    omega

namespace Represents

section

variable (h : m.Represents bits)
include h

theorem getD_eq (i : Nat) : bits.getD i false = (decide (i < m.size) && packedBit m.map i) := by
  rw [h.bits_eq, getD_tabulate]
  split
  next hi => rw [decide_eq_true hi, Bool.true_and]
  next hi => rw [decide_eq_false hi, Bool.false_and]

/-- A bit of a word before the last one. -/
theorem getD_front (hi : i / 2 ^ k < m.arraySize - 1) : bits.getD i false = packedBit m.map i := by
  rw [h.getD_eq, decide_eq_true (lt_size_of_div_lt hi), Bool.true_and]

/-- A bit of the last word, masked. -/
theorem getD_last (hk : k ≤ 64) (hi : i / 2 ^ k = m.arraySize - 1) : bits.getD i false =
      (packedBit m.map i && m.highOrderMapElementMask.getLsbD (i % 2 ^ k)) := by
  rw [h.getD_eq, getLsbD_mask hk h.size_lt hi, Bool.and_comm]

/-- There are no bits after the last word. -/
theorem getD_back (hi : m.arraySize ≤ i / 2 ^ k) : bits.getD i false = false := by
  have hout : ¬i < m.size := fun hin => by
    have := div_lt_of_lt_size hin
    omega
  rw [h.getD_eq, decide_eq_false hout, Bool.false_and]

omit h in
theorem getLsbD_getD (words : List (Word k)) (i : Nat) :
    (words.getD (i / 2 ^ k) 0).getLsbD (i % 2 ^ k) = packedBit words i :=
  rfl

variable (h' : other.Represents otherBits)
include h'

/-- `Union` of bitmaps whose sizes may differ. -/
theorem union (hk : k ≤ 64) : ∃ m', m.union other = some m' ∧
      m'.Represents (bits.mapIdx fun i b => b || otherBits.getD i false) := by
  have hpos := m.arraySize_pos
  have hpos' := other.arraySize_pos
  have hlength := h.length_eq
  have hlength' := h'.length_eq
  have hword : other.map[min m.arraySize other.arraySize - 1]? =
      some (other.map.getD (min m.arraySize other.arraySize - 1) 0) := by
    rw [getD_eq_getElem?_getD, List.getElem?_eq_getElem (by omega), getD_some]
  rw [BasicBitmap.union]
  dsimp only
  rw [if_neg (by omega), transform_eq (by omega) (by omega), hword]
  simp only [bind_eq_bind, bind_some]
  rw [update_eq (by rw [length_mapIdx]; omega), mapIdx_mapIdx]
  refine ⟨_, rfl, h.mapIdx fun i hi x => ?_⟩
  have hdiv := div_lt_of_lt_size hi
  simp only [comp_apply]
  split
  next hlast =>
    rw [if_neg (by omega), getLsbD_or, ← hlast]
    split
    next => rw [getLsbD_and, getLsbD_getD, h'.getD_last hk (by omega)]
    next => rw [getLsbD_getD, h'.getD_front (by omega)]
  next =>
    split
    next => rw [getLsbD_or, getLsbD_getD, h'.getD_front (by omega)]
    next => rw [h'.getD_back (by omega), Bool.or_false]

/-- `Intersection` of bitmaps whose sizes may differ. -/
theorem intersection (hk : k ≤ 64) : ∃ m', m.intersection other = some m' ∧
      m'.Represents (bits.mapIdx fun i b => b && otherBits.getD i false) := by
  have hpos' := other.arraySize_pos
  have hlength := h.length_eq
  have hlength' := h'.length_eq
  rw [BasicBitmap.intersection]
  rw [transform_eq (by omega) (by omega)]
  simp only [bind_eq_bind, bind_some]
  split
  next hsmall =>
    rw [if_pos (by omega), update_eq (by rw [length_mapIdx]; omega), mapIdx_mapIdx,
      bind_some, fill_eq (by rw [length_mapIdx]; omega) (by omega), mapIdx_mapIdx]
    refine ⟨_, rfl, h.mapIdx fun i hi x => ?_⟩
    have hdiv := div_lt_of_lt_size hi
    simp only [comp_apply]
    split
    next => rw [h'.getD_back (by omega), Bool.and_false]; exact getLsbD_zero
    next =>
      rw [if_pos (show i / 2 ^ k < min m.arraySize other.arraySize by omega)]
      split
      next hlast =>
        rw [getLsbD_and, getLsbD_and, getLsbD_getD, h'.getD_last hk hlast, Bool.and_assoc]
      next => rw [getLsbD_and, getLsbD_getD, h'.getD_front (by omega)]
  next hlarge =>
    refine ⟨_, rfl, h.mapIdx fun i hi x => ?_⟩
    have hdiv := div_lt_of_lt_size hi
    rw [if_pos (by omega), getLsbD_and, getLsbD_getD, h'.getD_front (by omega)]

variable (hlength : bits.length = otherBits.length)
include hlength

theorem size_eq : m.size = other.size := by
  rw [← h.length_bits, hlength, h'.length_bits]

/-- An operation on all pairs of words of bitmaps of the same size. -/
theorem zipWith {f : Word k → Word k → Word k} {g : Bool → Bool → Bool}
    (hf : ∀ x y : Word k, ∀ j < 2 ^ k, (f x y).getLsbD j = g (x.getLsbD j) (y.getLsbD j)) :
    ∃ map, transform f m.map other.map m.arraySize = some map ∧
      Represents { m with map } (zipWith g bits otherBits) := by
  have hwords : m.arraySize ≤ other.map.length := by
    rw [h'.length_eq, arraySize, arraySize, h.size_eq h' hlength]
  have hrep := h.mapIdx
    (f := fun j x => if j < m.arraySize then f x (other.map.getD j 0) else x)
    (g := fun i b => g b (packedBit other.map i)) fun i hi x => by
      rw [if_pos (div_lt_of_lt_size hi), hf _ _ _ (mod_lt i (Nat.two_pow_pos k)), getLsbD_getD]
  refine ⟨_, transform_eq h.length_eq.ge hwords f 0, ?_⟩
  convert hrep using 1
  refine ext_getElem (by simp [hlength]) fun i hi hi' => ?_
  rw [getElem_zipWith, getElem_mapIdx, h'.getElem_eq]

/-- `Difference` of bitmaps of the same size. -/
theorem difference : ∃ m', m.difference other = some m' ∧
      m'.Represents (List.zipWith (fun a b => a && !b) bits otherBits) := by
  obtain ⟨map, hrun, hrep⟩ := h.zipWith h' hlength (f := fun x y => x &&& ~~~y)
    (g := fun a b => a && !b) fun x y j hj => by
      rw [getLsbD_and, getLsbD_not, decide_eq_true hj, Bool.true_and]
  refine ⟨_, ?_, hrep⟩
  rw [BasicBitmap.difference, bind_eq_bind, guard_bind (h.size_eq h' hlength), hrun]
  rfl

/-- `ExclusiveOr` of bitmaps of the same size. -/
theorem exclusiveOr :
    ∃ m', m.exclusiveOr other = some m' ∧ m'.Represents (List.zipWith xor bits otherBits) := by
  obtain ⟨map, hrun, hrep⟩ := h.zipWith h' hlength
    fun x y j _ => getLsbD_xor
  refine ⟨_, ?_, hrep⟩
  rw [BasicBitmap.exclusiveOr, bind_eq_bind, guard_bind (h.size_eq h' hlength), hrun]
  rfl

end

/-! ## Sizes -/

/-- Copied words have the same bits. -/
theorem copy_spec {array words : List (Word k)} {n : Nat} (hn : n ≤ array.length)
    (hn' : n ≤ words.length) : ∃ map, copy array words n = some map ∧ map.length = array.length ∧
      ∀ i < 2 ^ k * n, packedBit map i = packedBit words i := by
  refine ⟨_, transform_eq hn hn' _ 0, length_mapIdx, fun i hi => ?_⟩
  have hword : i / 2 ^ k < n := Nat.div_lt_of_lt_mul hi
  have hmul := mul_le_mul_left (2 ^ k) hn
  exact packedBit_mapIdx (g := fun _ => packedBit words i) (by omega) fun x => by
    rw [if_pos hword, getLsbD_getD]

/-- `Resize` copies the words that fit and then fills the new bits. -/
theorem resize_eq (uninit : Nat → Word k) (m : BasicBitmap k) (size : Nat) (fill : Bool) :
    m.resize uninit size fill = (if requiredArraySize k size = m.arraySize then some m.map
      else copy (tabulate (requiredArraySize k size) uninit) m.map
        (min (requiredArraySize k size) m.arraySize)).bind fun map =>
      if m.size < size then BasicBitmap.setRange ⟨map, size⟩ m.size size fill
        else some ⟨map, size⟩ := by
  rw [BasicBitmap.resize]
  split
  · rfl
  · rfl

/-- `Resize` cuts off elements or adds equal ones. -/
theorem resize (uninit : Nat → Word k) (h : m.Represents bits) {size : Nat} (hsize : size < 2 ^ 64)
    (fill : Bool) : ∃ m', m.resize uninit size fill = some m' ∧
      m'.Represents (bits.take size ++ replicate (size - bits.length) fill) := by
  have hmap : ∃ map, (if requiredArraySize k size = m.arraySize then some m.map
      else copy (tabulate (requiredArraySize k size) uninit) m.map
        (min (requiredArraySize k size) m.arraySize)) = some map ∧
      map.length = requiredArraySize k size ∧
      ∀ i < min size m.size, packedBit map i = packedBit m.map i := by
    split
    next heq => exact ⟨m.map, rfl, by rw [h.length_eq, heq], fun _ _ => rfl⟩
    next =>
      obtain ⟨map, hcopy, hlength, hbits⟩ := copy_spec
        (show min (requiredArraySize k size) m.arraySize ≤
          (tabulate (requiredArraySize k size) uninit).length by rw [length_tabulate]; omega)
        (show _ ≤ m.map.length by rw [h.length_eq]; omega)
      refine ⟨map, hcopy, hlength.trans (length_tabulate _ _), fun i hi => hbits i ?_⟩
      have hle := le_requiredArraySize k size
      have hle' := le_requiredArraySize k m.size
      rcases le_total (requiredArraySize k size) m.arraySize with hmin | hmin
      · rw [min_eq_left hmin]
        omega
      · rw [min_eq_right hmin, arraySize]
        omega
  obtain ⟨map, hcopy, hlength, hsame⟩ := hmap
  have hrep := of_size map hlength hsize
  have hbits : bits.take size ++ replicate (size - bits.length) fill =
      tabulate size fun i => if i < m.size then packedBit m.map i else fill := by
    rw [h.length_bits, h.bits_eq, tabulate_append_replicate]
  rw [resize_eq, hcopy, hbits]
  split
  next hgrow =>
    obtain ⟨m', hrun, hrep'⟩ := hrep.setRange hgrow.le (length_tabulate _ _).ge fill
    refine ⟨m', hrun, ?_⟩
    convert hrep' using 1
    rw [mapIdx_tabulate]
    refine tabulate_congr fun i hi => ?_
    by_cases hold : i < m.size
    · rw [if_pos hold, if_neg (by omega), hsame i (by omega)]
    · rw [if_neg hold, if_pos (by omega)]
  next hshrink =>
    refine ⟨_, rfl, ?_⟩
    convert hrep using 1
    refine tabulate_congr fun i hi => ?_
    rw [if_pos (by omega), hsame i (by omega)]

/-- An assignment takes over the elements of the other bitmap. -/
theorem assign (uninit : Nat → Word k) (h' : other.Represents otherBits) (h : m.Represents bits) :
    ∃ m', m.assign uninit other = some m' ∧ m'.Represents otherBits := by
  have hlength : (if m.arraySize = other.arraySize then m.map
      else tabulate other.arraySize uninit).length = other.arraySize := by
    split
    next heq => rw [h.length_eq, heq]
    next => exact length_tabulate _ _
  obtain ⟨map, hcopy, hmap, hbits⟩ := copy_spec hlength.ge h'.length_eq.ge
  refine ⟨⟨map, other.size⟩, ?_, hmap.trans hlength, h'.size_lt, ?_⟩
  · simp [BasicBitmap.assign, hcopy]
  · rw [h'.bits_eq]
    refine tabulate_congr fun i hi => (hbits i ?_).symm
    exact hi.trans_le (le_requiredArraySize k other.size)

end Represents

end BasicBitmap

end Gloop.Bitmap

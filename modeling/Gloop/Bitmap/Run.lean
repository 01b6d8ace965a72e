import Gloop.Bitmap.Changes
import Gloop.Foundation.Refinement

/-!
# Queries and runs of `BasicBitmap`

The words before the last one are compared or counted as a whole, and the last one after masking.
`forall_bits_iff` puts the two together, so that each query is a statement about the bits before the
size. Bitmaps with names are changed one at a time, with others as operands, and stand for lists of
bits that are changed in the same way. `bitmap_refines_bool_vector` says that after any sequence of
changes all queries answer for the lists.
-/

namespace Gloop.Bitmap.BasicBitmap

section

open Gloop.Foundation List
open Nat (mul_succ zero_le)
variable {k : Nat} {m other : BasicBitmap k} {bits otherBits : List Bool}

/-- The words before the last one are in use. -/
theorem mul_arraySize_le (m : BasicBitmap k) : 2 ^ k * (m.arraySize - 1) ≤ m.size := by
  rcases Nat.eq_zero_or_pos m.size with hzero | hpos
  · rw [arraySize, requiredArraySize, if_pos hzero]
    exact zero_le _
  · exact (requiredArraySize_lt k hpos).le

/-- The last word has all other bits. -/
theorem size_le_mul_arraySize (m : BasicBitmap k) : m.size ≤ 2 ^ k * (m.arraySize - 1) + 2 ^ k := by
  have hle := le_requiredArraySize k m.size
  have hpos := m.arraySize_pos
  rwa [← Nat.mul_succ, Nat.succ_eq_add_one, Nat.sub_add_cancel hpos]

/-- The bits of the words before the last one, and those of the last one. -/
theorem forall_bits_iff (m : BasicBitmap k) (Q : Nat → Prop) :
    ((∀ j < m.arraySize - 1, ∀ i, 2 ^ k * j ≤ i → i < 2 ^ k * j + 2 ^ k → Q i) ∧
      ∀ i, 2 ^ k * (m.arraySize - 1) ≤ i →
        i < 2 ^ k * (m.arraySize - 1) + (m.size - 2 ^ k * (m.arraySize - 1)) → Q i) ↔
      ∀ i < m.size, Q i := by
  have hle := m.mul_arraySize_le
  have hfront := forall_words_iff (Nat.two_pow_pos k) Q 0 (m.arraySize - 1)
  simp only [zero_le, true_implies, Nat.mul_zero] at hfront
  rw [hfront]
  constructor
  · rintro ⟨hbefore, hlast⟩ i hi
    rcases lt_or_ge i (2 ^ k * (m.arraySize - 1)) with hlt | hge
    · exact hbefore i hlt
    · exact hlast i hge (by omega)
  · intro hall
    exact ⟨fun i hi => hall i (by omega), fun i _ hi => hall i (by omega)⟩

/-- Masking the last word. -/
theorem masked (hk : k ≤ 64) (hm : m.size < 2 ^ 64) {s : Nat → Bool} {x : Word k}
    (hx : Window s (2 ^ k * (m.arraySize - 1)) (2 ^ k) x) :
    Window s (2 ^ k * (m.arraySize - 1)) (m.size - 2 ^ k * (m.arraySize - 1))
      (x &&& m.highOrderMapElementMask) := by
  have hle := m.mul_arraySize_le
  have hle' := m.size_le_mul_arraySize
  have hmask : ∀ j < 2 ^ k, m.highOrderMapElementMask.getLsbD j =
      decide (2 ^ k * (m.arraySize - 1) + j < m.size) := by
    intro j hj
    have hdiv : (2 ^ k * (m.arraySize - 1) + j) / 2 ^ k = m.arraySize - 1 := by
      rw [Nat.mul_add_div (Nat.two_pow_pos k), Nat.div_eq_of_lt hj, add_zero]
    have hbit := getLsbD_mask hk hm hdiv
    rwa [Nat.mul_add_mod, Nat.mod_eq_of_lt hj] at hbit
  refine ⟨by omega, fun j hj => ?_, fun j hj => ?_⟩
  · rw [BitVec.getLsbD_and, hx.bits j (by omega), hmask j (by omega), decide_eq_true (by omega),
      Bool.and_true]
  · rcases lt_or_ge j (2 ^ k) with hlt | hge
    · rw [BitVec.getLsbD_and, hmask j hlt, decide_eq_false (by omega), Bool.and_false]
    · exact BitVec.getLsbD_of_ge _ _ hge

namespace Represents

variable (h : m.Represents bits)
include h

/-- The words before the last one. -/
theorem slice_front :
    slice m.map 0 (m.arraySize - 1) = some ((m.map.take (m.arraySize - 1)).drop 0) :=
  slice_eq (by rw [h.length_eq]; omega) (zero_le _)

theorem last_lt : m.arraySize - 1 < m.map.length := by
  have := m.arraySize_pos
  rw [h.length_eq]
  omega

/-- What holds of the words before the last one. -/
theorem front_iff {P : Word k → Prop} {Q : Nat → Prop} (hP : ∀ j (hj : j < m.map.length),
      P m.map[j] ↔ ∀ i, 2 ^ k * j ≤ i → i < 2 ^ k * j + 2 ^ k → Q i) :
    (∀ x ∈ (m.map.take (m.arraySize - 1)).drop 0, P x) ↔
      ∀ j < m.arraySize - 1, ∀ i, 2 ^ k * j ≤ i → i < 2 ^ k * j + 2 ^ k → Q i := by
  have hlast := h.last_lt
  rw [forall_mem_range hlast.le]
  exact forall_congr' fun j => forall_congr' fun hj => by
    rw [← hP j (by omega)]
    exact ⟨fun hx => hx (zero_le j), fun hx _ => hx⟩

theorem all_iff (p : Bool → Bool) :
    bits.all p = true ↔ ∀ i < m.size, p (packedBit m.map i) = true := by
  rw [h.bits_eq, all_tabulate]

/-- `IsAllZeroes` is about the bits before the size. -/
theorem isAllZeroes (hk : k ≤ 64) : m.isAllZeroes = some (bits.all not) := by
  have hlt := h.last_lt
  have hlast := masked hk h.size_lt (window_packedBit hlt)
  rw [BasicBitmap.isAllZeroes, h.slice_front, getElem?_eq_getElem hlt]
  refine congrArg some (Bool.eq_iff_iff.mpr ?_)
  simp only [Bool.and_eq_true, all_eq_true, decide_eq_true_eq, h.all_iff, Bool.not_eq_true']
  rw [← forall_bits_iff, h.front_iff fun j hj => (window_packedBit hj).eq_zero_iff]
  exact and_congr_right fun _ => hlast.eq_zero_iff

/-- `IsAllOnes` is about the bits before the size. -/
theorem isAllOnes (hk : k ≤ 64) : m.isAllOnes = some (bits.all id) := by
  have hlt := h.last_lt
  have hlast := masked hk h.size_lt (window_packedBit hlt).not
  rw [BasicBitmap.isAllOnes, h.slice_front, getElem?_eq_getElem hlt]
  refine congrArg some (Bool.eq_iff_iff.mpr ?_)
  simp only [Bool.and_eq_true, all_eq_true, decide_eq_true_eq, h.all_iff, id_eq]
  rw [← forall_bits_iff, h.front_iff fun j hj => (window_packedBit hj).ext (window_allOnes _)]
  refine and_congr_right fun _ => hlast.eq_zero_iff.trans ?_
  simp only [Bool.not_eq_false']

/-! ## Two bitmaps of the same size -/

omit h in
/-- The words of another bitmap of the same size before the last one. -/
theorem slice_other (h' : other.Represents otherBits) (hsize : m.size = other.size) :
    slice other.map 0 (m.arraySize - 1) = some ((other.map.take (m.arraySize - 1)).drop 0) := by
  rw [show m.arraySize = other.arraySize by rw [arraySize, arraySize, hsize]]
  exact h'.slice_front

omit h in
theorem other_last_lt (h' : other.Represents otherBits) (hsize : m.size = other.size) :
    m.arraySize - 1 < other.map.length := by
  rw [show m.arraySize = other.arraySize by rw [arraySize, arraySize, hsize]]
  exact h'.last_lt

omit h in
/-- What holds of the pairs of words before index `n`. -/
theorem pairs_iff {n : Nat} (hn : n ≤ m.map.length) (hn' : n ≤ other.map.length)
    {P : Word k × Word k → Prop} {Q : Nat → Prop}
    (hP : ∀ j (hj : j < m.map.length) (hj' : j < other.map.length),
      P (m.map[j], other.map[j]) ↔ ∀ i, 2 ^ k * j ≤ i → i < 2 ^ k * j + 2 ^ k → Q i) :
    (∀ x ∈ ((m.map.take n).drop 0).zip ((other.map.take n).drop 0), P x) ↔
      ∀ j < n, ∀ i, 2 ^ k * j ≤ i → i < 2 ^ k * j + 2 ^ k → Q i := by
  rw [forall_mem_zip_range hn hn']
  exact forall_congr' fun j => forall_congr' fun hj => hP j (by omega) (by omega)

section Pairs

variable {j : Nat} (hj : j < m.map.length) (hj' : j < other.map.length)

omit h in
/-- The difference of two words. -/
theorem window_and_not :
    Window (fun i => packedBit m.map i && !packedBit other.map i) (2 ^ k * j) (2 ^ k)
      (m.map[j] &&& ~~~other.map[j]) :=
  (window_packedBit hj).zipWith (window_packedBit hj') (f := fun x y => x &&& ~~~y)
    (g := fun a b => a && !b) fun i hi => by
      rw [BitVec.getLsbD_and, BitVec.getLsbD_not, decide_eq_true hi, Bool.true_and]

omit h in
/-- The intersection of two words. -/
theorem window_and :
    Window (fun i => packedBit m.map i && packedBit other.map i) (2 ^ k * j) (2 ^ k)
      (m.map[j] &&& other.map[j]) :=
  (window_packedBit hj).zipWith (window_packedBit hj') fun _ _ => BitVec.getLsbD_and

end Pairs

/-- `IsSubsetOf` compares bit by bit. -/
theorem isSubsetOf (hk : k ≤ 64) (h' : other.Represents otherBits)
    (hlength : bits.length = otherBits.length) :
    m.isSubsetOf other = some ((bits.zip otherBits).all fun (a, b) => !a || b) := by
  have hsize := h.size_eq h' hlength
  have hlt := h.last_lt
  have hlt' := h'.other_last_lt hsize
  have hlast := masked hk h.size_lt (window_and_not hlt hlt')
  have hbits : (bits.zip otherBits).all (fun (a, b) => !a || b) = true ↔
      ∀ i < m.size, (packedBit m.map i && !packedBit other.map i) = false := by
    rw [h.bits_eq, h'.bits_eq, zip_tabulate, all_tabulate, ← hsize, min_self]
    refine forall₂_congr fun i _ => ?_
    cases packedBit m.map i <;> cases packedBit other.map i <;> simp
  rw [BasicBitmap.isSubsetOf, Option.bind_eq_bind, guard_bind hsize, h.slice_front,
    h'.slice_other hsize, getElem?_eq_getElem hlt, getElem?_eq_getElem hlt']
  refine congrArg some (Bool.eq_iff_iff.mpr ?_)
  simp only [Bool.and_eq_true, all_eq_true, decide_eq_true_eq]
  rw [← all_eq_true, hbits, ← forall_bits_iff, pairs_iff hlt.le hlt'.le fun j hj hj' =>
    (window_and_not hj hj').eq_zero_iff]
  exact and_congr_right fun _ => hlast.eq_zero_iff

/-- Bitmaps are equal if their lists are, whatever comes after the size. -/
theorem isEqual (hk : k ≤ 64) (h' : other.Represents otherBits) :
    m.isEqual other = some (decide (bits = otherBits)) := by
  have hlt := h.last_lt
  rw [BasicBitmap.isEqual]
  split
  next hsize =>
    have hlt' := h'.other_last_lt hsize
    have hlast := (masked hk h.size_lt (window_packedBit hlt')).ext
      (masked hk h.size_lt (window_packedBit hlt))
    have hbits : bits = otherBits ↔ ∀ i < m.size, packedBit other.map i = packedBit m.map i := by
      rw [h.bits_eq, h'.bits_eq, ← hsize]
      constructor
      · intro heq i hi
        have hget := congrArg (·[i]?) heq
        simpa only [getElem?_tabulate hi, Option.some_inj, eq_comm] using hget
      · intro hsame
        exact tabulate_congr fun i hi => (hsame i hi).symm
    have hfront : (m.map.take (m.arraySize - 1)).drop 0 =
        (other.map.take (m.arraySize - 1)).drop 0 ↔ ∀ j < m.arraySize - 1, ∀ i, 2 ^ k * j ≤ i →
          i < 2 ^ k * j + 2 ^ k → packedBit other.map i = packedBit m.map i := by
      rw [range_eq_iff hlt.le hlt'.le]
      refine forall₂_congr fun j hj => ?_
      rw [eq_comm]
      exact (window_packedBit _).ext (window_packedBit _)
    rw [h.slice_front, h'.slice_other hsize, getElem?_eq_getElem hlt, getElem?_eq_getElem hlt']
    refine congrArg some (Bool.eq_iff_iff.mpr ?_)
    simp only [Bool.and_eq_true, Bool.or_eq_true, decide_eq_true_eq, hbits]
    rw [← forall_bits_iff, hfront, BitVec.and_comm, BitVec.and_comm m.highOrderMapElementMask,
      hlast, or_iff_right (by have := m.arraySize_pos; omega)]
  next hsize =>
    refine congrArg some (decide_eq_false fun heq => hsize ?_).symm
    exact h.size_eq h' (congrArg length heq)

/-! ## Counts -/

/-- `HammingDistance` counts the bits that differ. -/
theorem hammingDistance (hk : k ≤ 64) (h' : other.Represents otherBits)
    (hlength : bits.length = otherBits.length) :
    m.hammingDistance other = some ((List.zipWith xor bits otherBits).count true) := by
  have hsize := h.size_eq h' hlength
  have hlt := h.last_lt
  have hlt' := h'.other_last_lt hsize
  have hle := m.mul_arraySize_le
  have hlast := (masked hk h.size_lt
    ((window_packedBit hlt).zipWith (window_packedBit hlt') fun _ _ => BitVec.getLsbD_xor)).rank_eq
  rw [Nat.add_sub_cancel' hle] at hlast
  -- the words of both, combined
  have hcombined : m.arraySize - 1 ≤ (List.zipWith (· ^^^ ·) m.map other.map).length := by
    rw [length_zipWith]
    omega
  have hwords := rank_words (zero_le (m.arraySize - 1)) hcombined
  have hfront : rank (packedBit (List.zipWith (· ^^^ ·) m.map other.map))
      (2 ^ k * (m.arraySize - 1)) = rank (fun i => xor (packedBit m.map i) (packedBit other.map i))
        (2 ^ k * (m.arraySize - 1)) :=
    rank_congr fun i hi => packedBit_zipWith
      (hi.trans_le (Nat.mul_le_mul_left _ hlt.le)) (hi.trans_le (Nat.mul_le_mul_left _ hlt'.le))
      fun x y => BitVec.getLsbD_xor
  have hcount : (List.zipWith xor bits otherBits).count true =
      rank (fun i => xor (packedBit m.map i) (packedBit other.map i)) m.size := by
    rw [h.bits_eq, h'.bits_eq, ← hsize, zipWith_tabulate, count_tabulate]
  rw [BasicBitmap.hammingDistance, Option.bind_eq_bind, guard_bind hsize,
    guard_bind m.arraySize_pos, h.slice_front, h'.slice_other hsize, getElem?_eq_getElem,
    getElem?_eq_getElem, hcount, hlast, ← hfront, hwords, take_zipWith, drop_zero, Nat.mul_zero,
      rank_zero]
  refine congrArg some ?_
  rw [drop_zero, drop_zero, ← foldl_add_popcount, ← map_uncurry_zip_eq_zipWith, foldl_map]
  rfl

variable {limit begin : Nat}

/-- `GetOnesCountInRange` counts the set bits of a range. -/
theorem getOnesCountInRange {start : Nat} (hle : start ≤ limit) (hlimit : limit ≤ bits.length) :
    m.getOnesCountInRange start limit = some (((bits.take limit).drop start).count true) := by
  have hlimit' : limit ≤ m.size := h.length_bits ▸ hlimit
  have hcount : ((bits.take limit).drop start).count true =
      rank (packedBit m.map) limit - rank (packedBit m.map) start := by
    rw [h.bits_eq, count_drop_take_tabulate _ hle hlimit']
  rw [BasicBitmap.getOnesCountInRange, Option.bind_eq_bind, guard_bind hlimit', guard_bind hle,
    hcount]
  dsimp only
  split
  next hempty =>
    rw [Nat.le_antisymm hle hempty, Nat.sub_self]
    rfl
  next hpos =>
    have hstart : start / 2 ^ k < m.map.length := h.word_lt (by omega)
    have hend : (limit - 1) / 2 ^ k < m.map.length := h.word_lt (by omega)
    have hdiv := Nat.div_add_mod start (2 ^ k)
    have hdiv' := Nat.div_add_mod (limit - 1) (2 ^ k)
    have horder : start / 2 ^ k ≤ (limit - 1) / 2 ^ k := Nat.div_le_div_right (by omega)
    -- the first word from the start on, and the last one up to the limit
    have hfirst := (window_packedBit hstart).high (r := start % 2 ^ k)
    rw [hdiv] at hfirst
    have hbits : limit - 2 ^ k * ((limit - 1) / 2 ^ k) ≤ 2 ^ k := by omega
    have hshift : ((limit - 1) / 2 ^ k + 1) * 2 ^ k - limit =
        2 ^ k - (limit - 2 ^ k * ((limit - 1) / 2 ^ k)) := by
      rw [Nat.mul_comm, Nat.mul_succ]
      omega
    have hzero : rank (clearBelow start (packedBit m.map)) (2 ^ k * (start / 2 ^ k)) = 0 :=
      rank_eq_zero_iff.mpr fun i hi => clearBelow_of_lt (by omega)
    rw [getElem?_eq_getElem hstart, getElem?_eq_getElem hend, Nat.and_two_pow_sub_one_eq_mod,
      hshift]
    split
    next hone =>
      rw [hone] at hbits hdiv' ⊢
      have hword := (hfirst.low hbits).rank_eq
      rw [hzero, Nat.zero_add, show 2 ^ k * (start / 2 ^ k) +
        (limit - 2 ^ k * (start / 2 ^ k)) = limit by
        omega] at hword
      have hclear := rank_clearBelow (packedBit m.map) hle
      refine congrArg some ?_
      rw [kAllOnesWord]
      omega
    next hmany =>
      have hword := hfirst.rank_eq
      rw [hzero, Nat.zero_add] at hword
      have hclear := rank_clearBelow (packedBit m.map)
        (show start ≤ 2 ^ k * (start / 2 ^ k) + 2 ^ k by
        omega)
      have hmiddle := rank_words (show start / 2 ^ k + 1 ≤ (limit - 1) / 2 ^ k by omega) hend.le
      have hlast := ((window_packedBit hend).low hbits).rank_eq
      rw [show 2 ^ k * ((limit - 1) / 2 ^ k) + (limit - 2 ^ k * ((limit - 1) / 2 ^ k)) = limit by
        omega] at hlast
      rw [slice_eq hend.le (by omega)]
      refine congrArg some ?_
      rw [foldl_add_popcount, kAllOnesWord]
      rw [mul_succ] at hmiddle
      omega

/-- `GetOnesCount` counts all set bits. -/
theorem getOnesCount : m.getOnesCount = some (bits.count true) := by
  rw [BasicBitmap.getOnesCount, h.getOnesCountInRange (zero_le _) h.length_bits.ge,
    ← h.length_bits, take_length, drop_zero]

/-! ## Tests -/

/-- The last common word, masked for the bitmap or bitmaps that end in it. -/
theorem window_overlap (hk : k ≤ 64) (h' : other.Represents otherBits)
    (hj : min m.arraySize other.arraySize - 1 < m.map.length)
    (hj' : min m.arraySize other.arraySize - 1 < other.map.length) :
    Window (fun i => bits.getD i false && otherBits.getD i false)
      (2 ^ k * (min m.arraySize other.arraySize - 1)) (2 ^ k)
      (m.map[min m.arraySize other.arraySize - 1] &&&
        other.map[min m.arraySize other.arraySize - 1] &&&
          if m.arraySize < other.arraySize then m.highOrderMapElementMask
        else if other.arraySize < m.arraySize then other.highOrderMapElementMask
        else m.highOrderMapElementMask &&& other.highOrderMapElementMask) := by
  refine ⟨le_refl _, fun j hlt => ?_, fun j hge => BitVec.getLsbD_of_ge _ _ hge⟩
  have hdiv : (2 ^ k * (min m.arraySize other.arraySize - 1) + j) / 2 ^ k =
      min m.arraySize other.arraySize - 1 := by
    rw [Nat.mul_add_div (Nat.two_pow_pos k), Nat.div_eq_of_lt hlt, add_zero]
  have hmod : (2 ^ k * (min m.arraySize other.arraySize - 1) + j) % 2 ^ k = j := by
    rw [Nat.mul_add_mod, Nat.mod_eq_of_lt hlt]
  have hpos := m.arraySize_pos
  have hpos' := other.arraySize_pos
  have hpair := (window_and hj hj').bits j hlt
  rw [BitVec.getLsbD_and, hpair]
  -- a bitmap that goes on needs no mask in this word
  split
  next hless =>
    have hlast := h.getD_last hk (hdiv.trans (by omega))
    rw [hmod] at hlast
    rw [hlast, h'.getD_front (hdiv.trans_lt (by omega)), Bool.and_right_comm]
  next =>
    split
    next hless =>
      have hlast := h'.getD_last hk (hdiv.trans (by omega))
      rw [hmod] at hlast
      rw [hlast, h.getD_front (hdiv.trans_lt (by omega)), Bool.and_assoc]
    next =>
      have hlast := h.getD_last hk (hdiv.trans (by omega))
      have hlast' := h'.getD_last hk (hdiv.trans (by omega))
      rw [hmod] at hlast hlast'
      rw [hlast, hlast', BitVec.getLsbD_and]
      ac_rfl

/-- `IsIntersectionNonEmpty` looks for a common bit, for sizes that may differ. -/
theorem isIntersectionNonEmpty (hk : k ≤ 64) (h' : other.Represents otherBits) :
    m.isIntersectionNonEmpty other = some ((bits.zip otherBits).any fun (a, b) => a && b) := by
  have hpos := m.arraySize_pos
  have hpos' := other.arraySize_pos
  have hlength := h.length_eq
  have hlength' := h'.length_eq
  have hj : min m.arraySize other.arraySize - 1 < m.map.length := by omega
  have hj' : min m.arraySize other.arraySize - 1 < other.map.length := by omega
  have hlast := (h.window_overlap hk h' hj hj').eq_zero_iff
  have hfront := pairs_iff hj.le hj'.le (P := fun x => x.1 &&& x.2 = 0) fun j hj hj' =>
    (window_and hj hj').eq_zero_iff
  rw [BasicBitmap.isIntersectionNonEmpty]
  rw [slice_eq hj.le (Nat.zero_le _), slice_eq hj'.le (Nat.zero_le _), getElem?_eq_getElem,
    getElem?_eq_getElem]
  refine congrArg some (Bool.eq_iff_iff.mpr (not_iff_not.mp ?_))
  rw [Bool.not_eq_true, Bool.not_eq_true, zip_any_eq_false, Bool.or_eq_false_iff,
    decide_eq_false_iff_not, any_eq_false]
  simp only [decide_eq_true_eq, not_not]
  refine (and_congr hfront hlast).trans ?_
  constructor
  · rintro ⟨hbefore, hlast⟩ i
    have hword := (div_eq_iff_word (Nat.two_pow_pos k)).mp (rfl : i / 2 ^ k = i / 2 ^ k)
    rcases Nat.lt_trichotomy (i / 2 ^ k) (min m.arraySize other.arraySize - 1) with hlt | heq | hgt
    · rw [h.getD_front (by omega), h'.getD_front (by omega)]
      exact hbefore _ hlt i hword.1 hword.2
    · rw [heq] at hword
      exact hlast i hword.1 hword.2
    · rcases Nat.le_total m.arraySize other.arraySize with hle | hle
      · rw [h.getD_back (by omega), Bool.false_and]
      · rw [h'.getD_back (by omega), Bool.and_false]
  · intro hall
    refine ⟨fun j hj i hstart hend => ?_, fun i _ _ => hall i⟩
    have hdiv := (div_eq_iff_word (Nat.two_pow_pos k)).mpr ⟨hstart, hend⟩
    have hbit := hall i
    rwa [h.getD_front (by omega), h'.getD_front (by omega)] at hbit

omit h in
/-- A test of some bits of one word. -/
theorem testLast (m : BasicBitmap k) {ilast j jlast : Nat} (hlast : ilast < m.map.length)
    (hle : j ≤ jlast) (hlt : jlast < 2 ^ k) : ∃ b, m.testLast ilast j jlast = some b ∧ (b = false ↔
      ∀ i, 2 ^ k * ilast + j ≤ i → i ≤ 2 ^ k * ilast + jlast → packedBit m.map i = false) := by
  refine ⟨_, by rw [BasicBitmap.testLast, getElem?_eq_getElem hlast]; rfl, ?_⟩
  have hwindow := window_packedBit hlast
  rw [decide_eq_false_iff_not, not_not]
  refine and_eq_zero_iff.trans ?_
  have hmask : ∀ r < 2 ^ k, ((((1#(2 ^ k) <<< 1) <<< (jlast - j)) - 1#(2 ^ k)) <<< j).getLsbD r =
      true ↔
        j ≤ r ∧ r ≤ jlast := by
    intro r hr
    rw [BitVec.getLsbD_shiftLeft, ← BitVec.shiftLeft_add]
    rcases lt_or_ge r j with hbefore | hafter
    · rw [decide_eq_true hbefore]
      simp only [Bool.not_true, Bool.and_false, Bool.false_and, Bool.false_eq_true, false_iff]
      omega
    · rw [getLsbD_shiftLeft_sub_one (by omega) (by omega), decide_eq_true hr,
        decide_eq_false (not_lt.mpr hafter)]
      simp only [Bool.not_false, Bool.true_and, decide_eq_true_eq]
      omega
  constructor
  · intro hclear i hle hle'
    have hbit := hclear (i - 2 ^ k * ilast) (by omega) ((hmask _ (by omega)).mpr (by omega))
    rwa [hwindow.bits _ (by omega), show 2 ^ k * ilast + (i - 2 ^ k * ilast) = i by omega] at hbit
  · intro hclear r hr hset
    obtain ⟨hlow, hhigh⟩ := (hmask r hr).mp hset
    rw [hwindow.bits r hr]
    exact hclear _ (by omega) (by omega)

/-- A range is tested in its first word, the words between and its last one. -/
theorem testRange_cases (hlt : begin < limit) (hlimit : limit ≤ m.size) :
    ∃ b, m.testRange begin limit = some b ∧
      (b = false ↔ ∀ i, begin ≤ i → i < limit → packedBit m.map i = false) := by
  have hfirst : begin / 2 ^ k < m.map.length := h.word_lt (by omega)
  have hlast : (limit - 1) / 2 ^ k < m.map.length := h.word_lt (by omega)
  have hdiv := Nat.div_add_mod begin (2 ^ k)
  have hdiv' := Nat.div_add_mod (limit - 1) (2 ^ k)
  have hmod := Nat.mod_lt begin (Nat.two_pow_pos k)
  have hmod' := Nat.mod_lt (limit - 1) (Nat.two_pow_pos k)
  rw [testRange, if_neg (by omega)]
  dsimp only
  rw [Nat.and_two_pow_sub_one_eq_mod, Nat.and_two_pow_sub_one_eq_mod]
  split
  next hmany =>
    -- the rest of the first word, the words between, and the start of the last one
    have hmul := Nat.mul_le_mul_left (2 ^ k) hmany
    rw [mul_succ] at hmul
    have hword := ((window_packedBit hfirst).shift hmod.le).eq_zero_iff
    have hmiddle := forall_words_iff (Nat.two_pow_pos k) (fun i => packedBit m.map i = false)
      (begin / 2 ^ k + 1) ((limit - 1) / 2 ^ k)
    rw [mul_succ] at hmiddle
    obtain ⟨b, hrun, hb⟩ := testLast m hlast (zero_le _) hmod'
    rw [getElem?_eq_getElem hfirst, slice_eq hlast.le (by omega), hrun]
    simp only [Option.bind_eq_bind, Option.bind_some]
    split
    next hset =>
      refine ⟨true, rfl, iff_of_false (by simp) fun hall => hset (hword.mpr fun i hi hi' => ?_)⟩
      exact hall i (by omega) (by omega)
    next hclear =>
      rw [not_not] at hclear
      have hbefore := hword.mp hclear
      have hslice : ((m.map.take ((limit - 1) / 2 ^ k)).drop (begin / 2 ^ k + 1)).any (· ≠ 0) =
          false ↔ ∀ i, 2 ^ k * (begin / 2 ^ k) + 2 ^ k ≤ i → i < 2 ^ k * ((limit - 1) / 2 ^ k) →
            packedBit m.map i = false := by
        rw [← hmiddle, any_eq_false]
        simp only [decide_eq_true_eq, not_not]
        rw [forall_mem_range hlast.le]
        exact forall_congr' fun j => ⟨fun hall hle hj =>
          (window_packedBit _).eq_zero_iff.mp (hall hj hle),
            fun hall hj hle => (window_packedBit _).eq_zero_iff.mpr (hall hle hj)⟩
      split
      next hset =>
        refine ⟨true, rfl, iff_of_false (by simp) fun hall => ?_⟩
        rw [hslice.mpr fun i hi hi' => hall i (by omega) (by omega)] at hset
        exact Bool.false_ne_true hset
      next hclear' =>
        rw [Bool.not_eq_true] at hclear'
        have hin := hslice.mp hclear'
        refine ⟨b, rfl, hb.trans ⟨fun hend i hi hi' => ?_, fun hall i hi hi' => ?_⟩⟩
        · rcases Nat.lt_or_ge i (2 ^ k * (begin / 2 ^ k) + 2 ^ k) with hone | hmore
          · exact hbefore i (by omega) (by omega)
          · rcases Nat.lt_or_ge i (2 ^ k * ((limit - 1) / 2 ^ k)) with htwo | hthree
            · exact hin i hmore htwo
            · exact hend i (by omega) (by omega)
        · exact hall i (by omega) (by omega)
  next hone =>
    have hsame : begin / 2 ^ k = (limit - 1) / 2 ^ k :=
      Nat.le_antisymm (Nat.div_le_div_right (by omega)) (Nat.not_lt.mp hone)
    rw [hsame] at hdiv
    obtain ⟨b, hrun, hb⟩ :=
      testLast m hlast (show begin % 2 ^ k ≤ (limit - 1) % 2 ^ k by omega) hmod'
    refine ⟨b, hrun, hb.trans ⟨fun hall i hi hi' => ?_, fun hall i hi hi' => ?_⟩⟩
    · exact hall i (by omega) (by omega)
    · exact hall i (by omega) (by omega)

/-- `TestRange` looks for a set bit of a range. -/
theorem testRange (hle : begin ≤ limit) (hlimit : limit ≤ bits.length) :
    m.testRange begin limit = some (((bits.take limit).drop begin).any id) := by
  have hlimit' : limit ≤ m.size := h.length_bits ▸ hlimit
  have hbits : ((bits.take limit).drop begin).any id = false ↔
      ∀ i, begin ≤ i → i < limit → packedBit m.map i = false := by
    rw [any_eq_false, forall_mem_range hlimit]
    refine forall_congr' fun i => ⟨fun hall hi hi' => ?_, fun hall hi hi' => ?_⟩
    · have hbit := hall hi' hi
      rwa [h.getElem_eq, id_eq, Bool.not_eq_true] at hbit
    · rw [h.getElem_eq, Bool.not_eq_true]
      exact hall hi' hi
  rcases lt_or_eq_of_le hle with hlt | heq
  · obtain ⟨b, hrun, hb⟩ := h.testRange_cases hlt hlimit'
    rw [hrun]
    refine congrArg some ?_
    rw [← Bool.not_inj_iff, Bool.eq_iff_iff, Bool.not_eq_true', Bool.not_eq_true', hb, hbits]
  · rw [BasicBitmap.testRange, if_pos heq, hbits.mpr fun i hi hi' => by omega]

/-! ## Hashes -/

theorem exists_abslHashValue {H : Type} (hash : HashState k H) (state : H) :
    ∃ value, m.abslHashValue hash state = some value := by
  rw [abslHashValue, slice_eq (Nat.div_le_of_le_mul h.size_le) (Nat.zero_le _),
    getElem?_eq_getElem h.last_lt]
  split
  · exact ⟨_, rfl⟩
  · exact ⟨_, rfl⟩

/-- The words that are hashed are those of the list of bits. -/
theorem abslHashValue_eq {H : Type} (hk : k ≤ 64) (hash : HashState k H) (state : H)
    (h' : other.Represents bits) : m.abslHashValue hash state = other.abslHashValue hash state := by
  have hsize := h.size_eq h' rfl
  have harray : m.arraySize = other.arraySize := congrArg (requiredArraySize k) hsize
  have hmask : m.highOrderMapElementMask = other.highOrderMapElementMask := by
    rw [highOrderMapElementMask, highOrderMapElementMask, hsize]
  have hsame : ∀ i < m.size, packedBit m.map i = packedBit other.map i := by
    intro i hi
    have hi' : i < bits.length := h.length_bits ▸ hi
    rw [← h.getElem_eq hi', h'.getElem_eq]
  have hlt := h.last_lt
  have hlt' := h'.other_last_lt hsize
  have hlast : m.map[m.arraySize - 1] &&& m.highOrderMapElementMask =
      other.map[m.arraySize - 1] &&& m.highOrderMapElementMask := by
    refine ((masked hk h.size_lt (window_packedBit hlt)).ext
      (masked hk h.size_lt (window_packedBit hlt'))).mpr fun i _ hi => hsame i ?_
    omega
  have hcomplete : m.size / 2 ^ k ≤ m.map.length := Nat.div_le_of_le_mul h.size_le
  have hcomplete' : m.size / 2 ^ k ≤ other.map.length := by
    rwa [h'.length_eq, ← harray, ← h.length_eq]
  have hfront : (m.map.take (m.size / 2 ^ k)).drop 0 =
      (other.map.take (m.size / 2 ^ k)).drop 0 := by
    refine (range_eq_iff hcomplete hcomplete').mpr fun j hj => ?_
    refine ((window_packedBit _).ext (window_packedBit _)).mpr fun i _ hi => hsame i ?_
    have hmul := Nat.mul_le_mul_left (2 ^ k) hj
    have hdiv := Nat.mul_div_le m.size (2 ^ k)
    rw [Nat.mul_succ] at hmul
    omega
  rw [abslHashValue, abslHashValue, ← hsize, ← harray, ← hmask,
    slice_eq hcomplete (Nat.zero_le _), slice_eq hcomplete' (Nat.zero_le _), hfront,
    getElem?_eq_getElem hlt, getElem?_eq_getElem hlt']
  simp only [Option.bind_eq_bind, Option.bind_some, hlast]

end Represents

end

/-! ## Runs -/

open Gloop.Foundation
variable {k : Nat} {ι : Type}

/-- A change of a bitmap. The operands are names. -/
inductive Change (k : Nat) (ι : Type)
  | construct (uninit : Nat → Word k) (size : Nat) (fill : Bool)
  | assign (uninit : Nat → Word k) (src : ι)
  | set (index : Nat) (value : Bool)
  | toggle (index : Nat)
  | setRange (begin limit : Nat) (value : Bool)
  | setAll (value : Bool)
  | complement
  | union (other : ι)
  | intersection (other : ι)
  | difference (other : ι)
  | exclusiveOr (other : ι)
  | resize (uninit : Nat → Word k) (size : Nat) (fill : Bool)

namespace Change

/-- Make a change to a bitmap. -/
def run (store : ι → BasicBitmap k) (m : BasicBitmap k) : Change k ι → Option (BasicBitmap k)
  | construct uninit size fill => BasicBitmap.new uninit size fill
  | assign uninit src => m.assign uninit (store src)
  | set index value => (m.set index value).map Prod.snd
  | toggle index => m.toggle index
  | setRange begin limit value => m.setRange begin limit value
  | setAll value => m.setAll value
  | complement => m.complement
  | union other => m.union (store other)
  | intersection other => m.intersection (store other)
  | difference other => m.difference (store other)
  | exclusiveOr other => m.exclusiveOr (store other)
  | resize uninit size fill => m.resize uninit size fill

/-- What a caller must ensure. Sizes are of type `size_t`. -/
def Allowed (lists : ι → List Bool) (bits : List Bool) : Change k ι → Prop
  | construct _ size _ => size < 2 ^ 64
  | set index _ => index < bits.length
  | toggle index => index < bits.length
  | setRange begin limit _ => begin ≤ limit ∧ limit ≤ bits.length
  | difference other => bits.length = (lists other).length
  | exclusiveOr other => bits.length = (lists other).length
  | resize _ size _ => size < 2 ^ 64
  | _ => True

/-- The change of a list of bits. -/
def spec (lists : ι → List Bool) (bits : List Bool) : Change k ι → List Bool
  | construct _ size fill => List.replicate size fill
  | assign _ src => lists src
  | set index value => bits.set index value
  | toggle index => bits.modify index not
  | setRange begin limit value => bits.mapIdx fun i b => if begin ≤ i ∧ i < limit then value else b
  | setAll value => bits.map fun _ => value
  | complement => bits.map not
  | union other => bits.mapIdx fun i b => b || (lists other).getD i false
  | intersection other => bits.mapIdx fun i b => b && (lists other).getD i false
  | difference other => List.zipWith (fun a b => a && !b) bits (lists other)
  | exclusiveOr other => List.zipWith xor bits (lists other)
  | resize _ size fill => bits.take size ++ List.replicate (size - bits.length) fill

/-- A change of a bitmap is that of its list. -/
theorem run_represents (hk : k ≤ 64) {store : ι → BasicBitmap k} {lists : ι → List Bool}
    (h : ∀ x, (store x).Represents (lists x)) (x : ι) (c : Change k ι)
    (hallowed : c.Allowed lists (lists x)) :
    ∃ m, c.run store (store x) = some m ∧ m.Represents (c.spec lists (lists x)) := by
  cases c with
  | construct uninit size fill => exact Represents.new uninit hallowed fill
  | assign uninit src => exact (h src).assign uninit (h x)
  | set index value =>
    obtain ⟨m, hrun, hrep⟩ := (h x).set hallowed value
    exact ⟨m, congrArg (Option.map Prod.snd) hrun, hrep⟩
  | toggle index => exact (h x).toggle hallowed
  | setRange begin limit value => exact (h x).setRange hallowed.1 hallowed.2 value
  | setAll value => exact (h x).setAll value
  | complement => exact (h x).complement
  | union other => exact (h x).union (h other) hk
  | intersection other => exact (h x).intersection (h other) hk
  | difference other => exact (h x).difference (h other) hallowed
  | exclusiveOr other => exact (h x).exclusiveOr (h other) hallowed
  | resize uninit size fill => exact (h x).resize uninit hallowed fill

end Change

section Runs

variable [DecidableEq ι]

/-- Change the bitmap with the given name. -/
def step (store : ι → BasicBitmap k) (op : ι × Change k ι) : Option (ι → BasicBitmap k) :=
  (op.2.run store (store op.1)).map (Function.update store op.1)

/-- Change the list with the given name. -/
def specStep (lists : ι → List Bool) (op : ι × Change k ι) : ι → List Bool :=
  Function.update lists op.1 (op.2.spec lists (lists op.1))

/-- The queries of one bitmap answer for the list. -/
structure Answers (m : BasicBitmap k) (bits : List Bool) : Prop where
  size_eq : m.size = bits.length
  get : ∀ i (hi : i < bits.length), m.get i = some bits[i]
  onesCount : m.getOnesCount = some (bits.count true)
  onesCountInRange : ∀ start limit, start ≤ limit → limit ≤ bits.length →
    m.getOnesCountInRange start limit = some (((bits.take limit).drop start).count true)
  testRange : ∀ begin limit, begin ≤ limit → limit ≤ bits.length →
    m.testRange begin limit = some (((bits.take limit).drop begin).any id)
  isAllZeroes : m.isAllZeroes = some (bits.all not)
  isAllOnes : m.isAllOnes = some (bits.all id)

/-- The queries of two bitmaps answer for their lists. -/
structure AnswersPair (m other : BasicBitmap k) (bits otherBits : List Bool) : Prop where
  isEqual : m.isEqual other = some (decide (bits = otherBits))
  isIntersectionNonEmpty :
    m.isIntersectionNonEmpty other = some ((bits.zip otherBits).any fun (a, b) => a && b)
  isSubsetOf : bits.length = otherBits.length →
    m.isSubsetOf other = some ((bits.zip otherBits).all fun (a, b) => !a || b)
  hammingDistance : bits.length = otherBits.length →
    m.hammingDistance other = some ((List.zipWith xor bits otherBits).count true)
  hash : bits = otherBits → ∀ (H : Type) (hash : HashState k H) (state : H),
    ∃ value, m.abslHashValue hash state = some value ∧ other.abslHashValue hash state = some value

/-- A bitmap answers all queries as its list does. -/
theorem Represents.answers {m : BasicBitmap k} {bits : List Bool} (hk : k ≤ 64)
    (h : m.Represents bits) : m.Answers bits where
  size_eq := h.length_bits.symm
  get _ hi := h.get hi
  onesCount := h.getOnesCount
  onesCountInRange _ _ hle hlimit := h.getOnesCountInRange hle hlimit
  testRange _ _ hle hlimit := h.testRange hle hlimit
  isAllZeroes := h.isAllZeroes hk
  isAllOnes := h.isAllOnes hk

/-- Two bitmaps answer all queries as their lists do. -/
theorem Represents.answersPair {m other : BasicBitmap k} {bits otherBits : List Bool} (hk : k ≤ 64)
    (h : m.Represents bits) (h' : other.Represents otherBits) :
      m.AnswersPair other bits otherBits where
  isEqual := h.isEqual hk h'
  isIntersectionNonEmpty := h.isIntersectionNonEmpty hk h'
  isSubsetOf hlength := h.isSubsetOf hk h' hlength
  hammingDistance hlength := h.hammingDistance hk h' hlength
  hash heq H hash state := by
    subst heq
    obtain ⟨value, hvalue⟩ := h.exists_abslHashValue hash state
    exact ⟨value, hvalue, (h.abslHashValue_eq hk hash state h') ▸ hvalue⟩

/-- Bitmaps with words of any width, which start without bits and with arbitrary memory, answer all
queries as lists of bits do. -/
theorem bitmap_refines_bool_vector (hk : k ≤ 64) (uninit : ι → Nat → Word k)
    (ops : List (ι × Change k ι))
    (hlegal : Legal (fun lists op => op.2.Allowed lists (lists op.1)) specStep (fun _ => []) ops) :
    ∃ store, ops.foldlM step (fun x => BasicBitmap.default (uninit x)) = some store ∧
      (∀ x, (store x).Answers (ops.foldl specStep (fun _ => []) x)) ∧
      ∀ x y, (store x).AnswersPair (store y) (ops.foldl specStep (fun _ => []) x)
        (ops.foldl specStep (fun _ => []) y) := by
  have hstep : ∀ (store : ι → BasicBitmap k) (lists : ι → List Bool) (op : ι × Change k ι),
      (∀ x, (store x).Represents (lists x)) → op.2.Allowed lists (lists op.1) →
      ∃ next, step store op = some next ∧ ∀ x, (next x).Represents (specStep lists op x) := by
    intro store lists op h hallowed
    obtain ⟨m, hrun, hrep⟩ := op.2.run_represents hk h op.1 hallowed
    exact ⟨_, congrArg (Option.map _) hrun, related_update h op.1 hrep⟩
  have hinit : ∀ x, (BasicBitmap.default (uninit x)).Represents [] := fun x =>
    ⟨length_tabulate _ _, Nat.two_pow_pos 64, rfl⟩
  obtain ⟨store, hrun, hrep⟩ := run_refines hstep hinit ops hlegal
  exact ⟨store, hrun, fun x => (hrep x).answers hk, fun x y => (hrep x).answersPair hk (hrep y)⟩

/-- Bitmaps of bytes: ten ones, cut to five, with a union and a complement. -/
def sampleChanges : List (Bool × Change 3 Bool) :=
  [(true, .construct (fun _ => 0) 10 true), (true, .resize (fun _ => 7) 5 false),
    (false, .resize (fun _ => 9) 12 false), (false, .union true), (true, .complement)]

/-- Changes of two bitmaps with names. -/
theorem sampleChanges_answer :
    ∃ store, sampleChanges.foldlM step (fun _ => BasicBitmap.default fun _ => 0) = some store ∧
      (∀ x, (store x).Answers (sampleChanges.foldl specStep (fun _ => []) x)) ∧
      ∀ x y, (store x).AnswersPair (store y) (sampleChanges.foldl specStep (fun _ => []) x)
        (sampleChanges.foldl specStep (fun _ => []) y) :=
  bitmap_refines_bool_vector (by decide) (fun _ _ => 0) sampleChanges
    ⟨show 10 < 2 ^ 64 by decide, show 5 < 2 ^ 64 by decide, show 12 < 2 ^ 64 by decide, trivial,
      trivial, trivial⟩

end Runs

end Gloop.Bitmap.BasicBitmap

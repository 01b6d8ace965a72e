import Gloop.InlinedBitVector.Changes

/-!
# Sizes, copies, pairs and queries of `InlinedBitVector`

The words move between the object and arrays on the heap. Whatever the storage, a new size keeps the
first bits and adds clear ones. The loops of `Union`, `Intersection`, `Difference` and
`IsIntersectionNonEmpty` count words with an `int`. Since unused bits are clear, comparing, counting
and hashing the words does the same with the bits.
-/

namespace Gloop.InlinedBitVector

section

open Gloop.Foundation List Nat

/-- The first `n` bits, with clear bits added if there are fewer. -/
def resizeBits (bits : List Bool) (n : Nat) : List Bool :=
  bits.take n ++ replicate (n - bits.length) false

@[simp]
theorem length_resizeBits (bits : List Bool) (n : Nat) : (resizeBits bits n).length = n := by
  simp only [resizeBits, length_append, length_take, length_replicate]
  omega

/-- The elements of a resized list. -/
theorem getD_resizeBits (bits : List Bool) (n i : Nat) :
    (resizeBits bits n).getD i false = if i < n then bits.getD i false else false := by
  simp only [resizeBits, getD_eq_getElem?_getD, getElem?_append, length_take,
    getElem?_take, getElem?_replicate]
  rcases lt_or_ge i bits.length with hlt | hge
  · by_cases hi : i < n
    · rw [if_pos (by omega), if_pos hi, if_pos hi]
    · rw [if_neg (by omega), if_neg (by omega), if_neg hi]
      rfl
  · rw [if_neg (by omega), getElem?_eq_none hge]
    split <;> simp

/-- A list that grows keeps its elements. -/
theorem getD_resizeBits_of_le {bits : List Bool} {n : Nat} (hle : bits.length ≤ n) (i : Nat) :
    (resizeBits bits n).getD i false = bits.getD i false := by
  rw [getD_resizeBits]
  split
  next => rfl
  next hi => rw [getD_eq_getElem?_getD, getElem?_eq_none (by omega), Option.getD_none]

theorem resizeBits_length (bits : List Bool) : resizeBits bits bits.length = bits := by
  rw [resizeBits, take_length, Nat.sub_self, replicate_zero, append_nil]

/-! ## Descriptors of new vectors -/

section Descriptor

variable {v : InlinedBitVector} {nbits n lg : Nat} {bits : List Bool} {array : List (BitVec 32)}

section

variable (hd : v.descriptor.toNat = 256 * n + lg)
include hd

/-- The size is in the high bits of the descriptor. -/
theorem size_of_descriptor (hlg : lg < 256) : v.size = n := by
  rw [size_eq_div]
  omega

/-- The capacity is in the low byte of the descriptor. -/
theorem lgCapacityWords_of_descriptor (hlg : lg < 256) : v.lgCapacityWords = lg := by
  rw [lgCapacityWords_eq]
  omega

theorem external_of_descriptor (hlg : lg < 256) : v.external = decide (lg ≠ 0) := by
  rw [Bool.eq_iff_iff, external_iff, lgCapacityWords_of_descriptor hd hlg, decide_eq_true_eq]

end

/-- Another size keeps the words. -/
theorem words_setSize (v : InlinedBitVector) (hn : n < 2 ^ 56) : (v.setSize n).words = v.words := by
  unfold words
  rw [external_setSize v hn]
  rfl

/-- Words in the object. -/
theorem Represents.inlined (nbits : Nat) (bits : List Bool) {d : BitVec 64}
    (hd : d.toNat = 256 * bits.length) (hsize : bits.length < 2 ^ 55)
    (hlength : array.length = kInlineWords nbits) (hfits : bits.length ≤ kInlineBits nbits)
    (hbit : ∀ i < 32 * ((bits.length + 31) / 32), packedBit array i = bits.getD i false) :
    Represents nbits ⟨d, .words array⟩ bits array := by
  have hdesc : (InlinedBitVector.mk d (.words array)).descriptor.toNat = 256 * bits.length + 0 := hd
  have hext := external_of_descriptor hdesc (by omega)
  refine ⟨?_, size_of_descriptor hdesc (by omega), hsize, ?_, ?_, hbit⟩
  · unfold words
    rw [hext]
    rfl
  · rw [hext, hlength]
    rfl
  · rw [hlength, kInlineWords]
    omega

/-- Words in an array on the heap. -/
theorem Represents.onHeap (nbits : Nat) (bits : List Bool) {d : BitVec 64}
    (hd : d.toNat = 256 * bits.length + lg) (hpos : 1 ≤ lg) (hlg : lg < 256)
    (hsize : bits.length < 2 ^ 55) (hlength : array.length = 2 ^ lg)
    (hfits : (bits.length + 31) / 32 ≤ 2 ^ lg)
    (hbit : ∀ i < 32 * ((bits.length + 31) / 32), packedBit array i = bits.getD i false) :
    Represents nbits ⟨d, .ptr array⟩ bits array := by
  have hdesc : (InlinedBitVector.mk d (.ptr array)).descriptor.toNat = 256 * bits.length + lg := hd
  have hext : (InlinedBitVector.mk d (.ptr array)).external = true := by
    rw [external_of_descriptor hdesc hlg, decide_eq_true_eq]
    omega
  refine ⟨?_, size_of_descriptor hdesc hlg, hsize, ?_, hlength ▸ hfits, hbit⟩
  · unfold words
    rw [hext]
  · rw [hext, if_pos rfl, lgCapacityWords_of_descriptor hdesc hlg, hlength]

/-- Other words and another size in the same storage. -/
theorem Represents.setStorage (h : Represents nbits v bits array) (bits' : List Bool)
    (array' : List (BitVec 32)) (hlength : array'.length = array.length)
    (hsize : bits'.length < 2 ^ 55) (hfits : (bits'.length + 31) / 32 ≤ array.length)
    (hbit : ∀ i < 32 * ((bits'.length + 31) / 32), packedBit array' i = bits'.getD i false) :
    Represents nbits ((v.setWords array').setSize bits'.length) bits' array' where
  words_eq := (words_setSize _ (by omega)).trans (Represents.words_setWords v h.words_eq array')
  size_eq := size_setSize _ (by omega)
  size_lt := hsize
  length_eq := by
    rw [external_setSize _ (by omega), lgCapacityWords_setSize _ (by omega), hlength]
    exact h.length_eq
  fits := hlength ▸ hfits
  bit := hbit

theorem Represents.setWords_self (h : Represents nbits v bits array) : v.setWords array = v := by
  have hwords := h.words_eq
  obtain ⟨d, data⟩ := v
  unfold words at hwords
  cases data <;> split at hwords <;> simp_all [InlinedBitVector.setWords]

/-- The same words for another size. -/
theorem Represents.setSize (h : Represents nbits v bits array) (bits' : List Bool)
    (hsize : bits'.length < 2 ^ 55) (hfits : (bits'.length + 31) / 32 ≤ array.length)
    (hbit : ∀ i < 32 * ((bits'.length + 31) / 32), packedBit array i = bits'.getD i false) :
    Represents nbits (v.setSize bits'.length) bits' array := by
  have hrep := h.setStorage bits' array rfl hsize hfits hbit
  rwa [h.setWords_self] at hrep

theorem one_le_capacityLg (n : Nat) : 1 ≤ capacityLg n :=
  le_add_left 1 _

/-- The descriptor of a vector with an array of its own. -/
theorem externalDescriptor_eq (hn : n < 2 ^ 55) :
    ∃ d, externalDescriptor n (capacityLg ((n + 31) / 32)) = some d ∧
      d.toNat = 256 * n + capacityLg ((n + 31) / 32) := by
  have hlg : capacityLg ((n + 31) / 32) < 256 := capacityLg_lt (by omega)
  have hle := le_of_lt (lt_two_pow_capacityLg ((n + 31) / 32))
  have hpos := one_le_capacityLg ((n + 31) / 32)
  have hlow : (BitVec.ofNat 64 (capacityLg ((n + 31) / 32))).toNat =
      capacityLg ((n + 31) / 32) := by
    rw [BitVec.toNat_ofNat, mod_eq_of_lt (by omega)]
  refine ⟨_, ?_, toNat_descriptor hlow hlg (by omega)⟩
  simp [externalDescriptor, neededWords_eq (show n < 2 ^ 56 by omega), hle, hpos]

end Descriptor

section Resize

variable {v other : InlinedBitVector} {nbits n : Nat} {bits otherBits : List Bool}
  {array otherArray : List (BitVec 32)}

theorem holds_default (nbits : Nat) (uninit : Nat → BitVec 32) :
    Holds nbits (default nbits uninit) [] :=
  ⟨_, Represents.inlined nbits [] rfl (by simp) (length_tabulate _ _) (zero_le _)
    fun i hi => absurd hi (by simp)⟩

/-- Clear words up to `n`, after `first` words of a vector with the bits. -/
theorem packedBit_grown (bits : List Bool) {first i : Nat} (hi : i < 32 * array.length)
    (hfirst : ∀ i < 32 * first, packedBit array i = bits.getD i false)
    (hlength : bits.length ≤ 32 * first) (last : Nat) (hlast : i < 32 * last) :
    packedBit (array.mapIdx fun j y => if first ≤ j ∧ j < last then 0#32 else y) i =
      bits.getD i false := by
  by_cases hin : first ≤ i / 32
  · rw [packedBit_mapIdx (g := fun _ => false) hi fun x => by
      rw [if_pos ⟨hin, by omega⟩, BitVec.getLsbD_zero], getD_eq_getElem?_getD,
      getElem?_eq_none (by omega), Option.getD_none]
  · rw [packedBit_mapIdx (g := id) hi fun x => by rw [if_neg fun h => hin h.1, id], id,
      hfirst i (by omega)]

/-- Words that were cleared have clear bits. -/
theorem packedBit_zeros {i last : Nat} (hi : i < 32 * array.length) (hlast : i < 32 * last) :
    packedBit (array.mapIdx fun j y => if 0 ≤ j ∧ j < last then 0#32 else y) i =
      (replicate n false).getD i false := by
  rw [packedBit_grown [] hi (fun i hi => absurd hi (by omega)) (by simp) last hlast,
    getD_eq_getElem?_getD, getD_eq_getElem?_getD, getElem?_replicate]
  split <;> rfl

/-- A vector of a size has clear elements. -/
theorem new_eq (nbits : Nat) (uninit : Nat → BitVec 32) (hn : n < 2 ^ 55) :
    ∃ v, new nbits uninit n = some v ∧ Holds nbits v (replicate n false) := by
  have hlength : (replicate n false).length = n := length_replicate
  unfold new
  split
  next hinline =>
    have hwords : (n + 31) / 32 ≤ kInlineWords nbits := by
      unfold kInlineWords
      omega
    have hd : (inlinedDescriptor n).toNat = 256 * (replicate n false).length := by
      rw [inlinedDescriptor, BitVec.toNat_shiftLeft, BitVec.toNat_ofNat]
      omega
    have htab := length_tabulate (kInlineWords nbits) uninit
    have hrep := Represents.inlined nbits (replicate n false) hd (by rwa [hlength])
      (length_mapIdx.trans htab) (by rwa [hlength])
      fun i hi => packedBit_zeros (by rw [htab]; omega) (show i < 32 * kInlineWords nbits by omega)
    rw [fill_eq (le_of_eq htab.symm) (zero_le _)]
    exact ⟨_, hrep.checked, _, hrep⟩
  next hout =>
    have hle := le_of_lt (lt_two_pow_capacityLg ((n + 31) / 32))
    obtain ⟨d, hd, htoNat⟩ := externalDescriptor_eq hn
    have htab := length_tabulate (2 ^ capacityLg ((n + 31) / 32)) uninit
    have hrep := Represents.onHeap nbits (replicate n false) (by rwa [hlength])
      (one_le_capacityLg _) (capacityLg_lt (by omega)) (by rwa [hlength])
      (by rw [length_mapIdx, htab]) (by rwa [hlength])
      fun i hi => packedBit_zeros (by rw [htab]; omega) (show i < 32 * ((n + 31) / 32) by omega)
    refine ⟨_, ?_, _, hrep⟩
    simp only [neededWords_eq (show n < 2 ^ 56 by omega), hle, hd,
      fill_eq (hle.trans_eq htab.symm) (zero_le _)]
    exact hrep.checked

section

variable (h : Represents nbits v bits array)
include h

/-- `clear` leaves no elements. -/
theorem Represents.clear : ∃ v', v.clear nbits = some v' ∧ Holds nbits v' [] := by
  have hrep := h.setSize [] (by simp) (by simp) fun i hi => absurd hi (by simp)
  exact ⟨_, hrep.checked, _, hrep⟩

/-- The size becomes smaller: the rest of the last word is cleared. -/
theorem Represents.shrink (hn : n < bits.length) :
    ∃ v', (v.setSize n).clearUnusedBits = some v' ∧ Holds nbits v' (resizeBits bits n) := by
  have hfits := h.fits
  have hlt := h.size_lt
  have hlength := length_resizeBits bits n
  have hsize : (v.setSize n).size = n := size_setSize v (by omega)
  unfold clearUnusedBits
  rw [hsize]
  dsimp only
  split
  next hmod =>
    have hrep := h.setSize (resizeBits bits n) (by omega) (by omega) fun i hi => by
      rw [getD_resizeBits, if_pos (by omega), h.bit i (by omega)]
    rw [hlength] at hrep
    exact ⟨_, rfl, _, hrep⟩
  next hmod =>
    rw [words_setSize v (by omega), h.words_eq]
    have hrep := h.setStorage (resizeBits bits n) (array.mapIdx fun j x =>
        if j = n / 32 then x &&& ((1#32 <<< (n % 32)) - 1#32) else x)
      length_mapIdx (by omega) (by omega) fun i hi => by
        rw [packedBit_mapIdx (g := fun b => if i < n then b else false) (by omega) fun x => ?_,
          h.bit i (by omega), getD_resizeBits]
        by_cases hword : i / 32 = n / 32
        · rw [if_pos hword, BitVec.getLsbD_and, getLsbD_shiftLeft_sub_one (by omega) (by omega)]
          by_cases hin : i < n
          · rw [if_pos hin, decide_eq_true (by omega), Bool.and_true]
          · rw [if_neg hin, decide_eq_false (by omega), Bool.and_false]
        · rw [if_neg hword, if_pos (by omega)]
    rw [hlength] at hrep
    refine ⟨_, ?_, _, hrep⟩
    rw [Option.bind_eq_bind, Option.bind_some, update_eq (by omega)]
    rfl

omit h in
/-- Copied words have the bits of the words they are copied from. -/
theorem packedBit_copied {count i : Nat} (hi : i < 32 * count) (hcount : count ≤ array.length) :
    packedBit (array.mapIdx fun j y => if j < count then otherArray.getD j 0#32 else y) i =
      packedBit otherArray i := by
  rw [packedBit_mapIdx (g := fun _ => packedBit otherArray i) (by omega) fun x => ?_]
  rw [if_pos (by omega)]
  rfl

/-- The size becomes larger in the same storage. -/
theorem Represents.growInPlace (hle : bits.length ≤ n)
    (hn : n < 2 ^ 55) (hfits : (n + 31) / 32 ≤ array.length) :
    ∃ array', fill array ((bits.length + 31) / 32) ((n + 31) / 32) 0 = some array' ∧
      Represents nbits ((v.setWords array').setSize n) (resizeBits bits n) array' := by
  refine ⟨_, fill_eq hfits (by omega) 0, ?_⟩
  have hlength := length_resizeBits bits n
  have hrep := h.setStorage (resizeBits bits n)
    (array.mapIdx fun j y => if (bits.length + 31) / 32 ≤ j ∧ j < (n + 31) / 32 then 0#32 else y)
    length_mapIdx (by omega) (by omega) fun i hi => by
      rw [getD_resizeBits_of_le hle, packedBit_grown bits (by omega) h.bit (by omega) _ (by omega)]
  rwa [hlength] at hrep

/-- The size becomes larger in a new array. -/
theorem Represents.growInNew (uninit : Nat → BitVec 32) (hle : bits.length ≤ n) (hn : n < 2 ^ 55)
    {d : BitVec 64} (hd : d.toNat = 256 * n + capacityLg ((n + 31) / 32)) : ∃ copied array',
      copy (tabulate (2 ^ capacityLg ((n + 31) / 32)) uninit) array ((bits.length + 31) / 32) =
        some copied ∧
      fill copied ((bits.length + 31) / 32) ((n + 31) / 32) 0 = some array' ∧
      Represents nbits ⟨d, .ptr array'⟩ (resizeBits bits n) array' := by
  have hwords := le_of_lt (lt_two_pow_capacityLg ((n + 31) / 32))
  have htab := length_tabulate (2 ^ capacityLg ((n + 31) / 32)) uninit
  have hlength := length_resizeBits bits n
  refine ⟨_, _, transform_eq (by omega) h.fits _ 0, fill_eq ?_ (by omega) 0, ?_⟩
  · rwa [length_mapIdx, htab]
  · refine Represents.onHeap nbits _ (by rwa [hlength]) (one_le_capacityLg _)
      (capacityLg_lt (by omega)) (by omega) ?_ (by rwa [hlength]) fun i hi => ?_
    · rw [length_mapIdx, length_mapIdx, htab]
    · rw [getD_resizeBits_of_le hle]
      refine packedBit_grown bits ?_ (fun i hi => ?_) (by omega) _ (by omega)
      · rw [length_mapIdx]
        omega
      · exact (packedBit_copied hi (by omega)).trans (h.bit i hi)

/-- `Resize` cuts off elements or adds clear ones. -/
theorem Represents.resize (uninit : Nat → BitVec 32) (hn : n < 2 ^ 55) :
    ∃ v', v.resize nbits uninit n = some v' ∧ Holds nbits v' (resizeBits bits n) := by
  unfold InlinedBitVector.resize
  rw [h.size_eq]
  split
  next heq =>
    subst heq
    exact ⟨v, rfl, array, by rwa [resizeBits_length]⟩
  next hne =>
    split
    next hlt =>
      obtain ⟨v', hrun, array', hrep⟩ := h.shrink hlt
      refine ⟨v', ?_, array', hrep⟩
      rw [hrun, Option.bind_eq_bind, Option.bind_some, hrep.checked]
    next hge =>
      have hle : bits.length ≤ n := by omega
      rw [h.words_eq, h.numWords_eq, neededWords_eq (by omega), ← h.length_eq,
        Option.bind_eq_bind, Option.bind_some]
      dsimp only
      split
      next hfits =>
        obtain ⟨array', hfill, hrep⟩ := h.growInPlace hle hn hfits
        refine ⟨_, ?_, array', hrep⟩
        rw [hfill, Option.bind_some, hrep.checked]
      next hfull =>
        obtain ⟨d, hdesc, hd⟩ := externalDescriptor_eq hn
        obtain ⟨copied, array', hcopy, hfill, hrep⟩ := h.growInNew uninit hle hn hd
        have hwords := le_of_lt (lt_two_pow_capacityLg ((n + 31) / 32))
        refine ⟨_, ?_, array', hrep⟩
        simp only [guard, hwords, if_true, hcopy, hfill, hdesc, Option.bind_eq_bind,
          Option.bind_some, Option.pure_def, hrep.checked]

/-! ## Copies and moves -/

/-- An assignment takes over the elements of the other vector. -/
theorem Represents.assign (hother : Represents nbits other otherBits otherArray)
    (uninit : Nat → BitVec 32) : ∃ v', v.assign nbits uninit other = some v' ∧
      Holds nbits v' otherBits := by
  obtain ⟨v', hrun, array', hrep⟩ := h.resize uninit hother.size_lt
  have hlength := length_resizeBits bits otherBits.length
  have hfits := hrep.fits
  rw [hlength] at hfits
  have hcopy := transform_eq hfits hother.fits (fun _ x => x) 0#32
  have hnew : Represents nbits (v'.setWords (array'.mapIdx fun j y =>
      if j < (otherBits.length + 31) / 32 then otherArray.getD j 0#32 else y)) otherBits _ :=
    hrep.setWords length_mapIdx hlength.symm fun i hi => by
      rw [hlength] at hi
      rw [packedBit_copied hi hfits, hother.bit i hi]
  refine ⟨_, ?_, _, hnew⟩
  simp [InlinedBitVector.assign, hother.size_eq, hrun, hrep.words_eq, hother.words_eq,
    hrep.numWords_eq, copy, hcopy]

end

/-- The new object has the bits, and the old one none. -/
theorem Represents.move (h : Represents nbits other otherBits otherArray)
    (uninit : Nat → BitVec 32) : ∃ v' other', move nbits uninit other = some (v', other') ∧
      Holds nbits v' otherBits ∧ Holds nbits other' [] := by
  have hmoved : ∃ a, Represents nbits (other.moved nbits uninit) [] a := by
    have hwords := h.words_eq
    have hlength := h.length_eq
    obtain ⟨d, data⟩ := other
    unfold words at hwords
    cases data with
    | words inline =>
      refine ⟨inline, Represents.inlined nbits [] rfl (by simp) ?_ (zero_le _)
        fun i hi => absurd hi (by simp)⟩
      split at hwords <;> simp_all
    | ptr heap =>
      exact ⟨_, Represents.inlined nbits [] rfl (by simp) (length_tabulate _ _) (zero_le _)
        fun i hi => absurd hi (by simp)⟩
  obtain ⟨a, hrep⟩ := hmoved
  refine ⟨other, _, ?_, ⟨_, h⟩, ⟨a, hrep⟩⟩
  simp [InlinedBitVector.move, h.checked, hrep.checked]

end Resize

end

/-! ## Operations of two vectors, and queries -/

open Gloop.Foundation List
open Option (bind_eq_bind bind_some)
variable {v other : InlinedBitVector} {nbits otherNbits n : Nat} {bits otherBits : List Bool}
  {array otherArray : List (BitVec 32)}

/-- The loop that combines words. -/
theorem intLoop_combine (hn : n < 2 ^ 31) (hlength : n ≤ array.length)
    (hlength' : n ≤ otherArray.length) (f : BitVec 32 → BitVec 32 → BitVec 32) :
    intLoop 0 (· < toInt n) (combineWord f otherArray) array =
      some (array.mapIdx fun j x => if 0 ≤ j ∧ j < n then f x (otherArray.getD j 0#32) else x) := by
  rw [toInt_eq hn]
  refine intLoop_words (Nat.zero_le n) hn
    (fun i hi => ?_) fun i a hi ha => ?_
  · rw [decide_eq_true_eq, Int.ofNat_lt]
  · rw [combineWord, getElem?_eq_getElem (by omega), bind_eq_bind, bind_some,
      update_eq (by omega), getD_eq_getElem?_getD, getElem?_eq_getElem (by omega), Option.getD_some]

namespace Represents

section

variable (h : Represents nbits v bits array)
include h

section

variable (hother : Represents otherNbits other otherBits otherArray)
include hother

/-- Words combined with those of another vector, as far as both have words. -/
theorem combine {f : BitVec 32 → BitVec 32 → BitVec 32} {g : Bool → Bool → Bool}
    (hf : ∀ x y, ∀ r < 32, (f x y).getLsbD r = g (x.getLsbD r) (y.getLsbD r))
    (hother_words : n ≤ (otherBits.length + 31) / 32)
    (hrest : ∀ i, 32 * n ≤ i → i < 32 * ((bits.length + 31) / 32) → ∀ b,
      g b (otherBits.getD i false) = b)
    (htail : ∀ i, bits.length ≤ i → g false (otherBits.getD i false) = false) : Represents nbits
      (v.setWords (array.mapIdx fun j x => if 0 ≤ j ∧ j < n then f x (otherArray.getD j 0#32)
        else x))
      (bits.mapIdx fun i b => g b (otherBits.getD i false))
      (array.mapIdx fun j x => if 0 ≤ j ∧ j < n then f x (otherArray.getD j 0#32) else x) := by
  refine h.mapIdx (fun i hi x => ?_) fun i hi _ => htail i hi
  by_cases hin : i / 32 < n
  · rw [if_pos ⟨Nat.zero_le _, hin⟩, hf _ _ _ (by omega), ← hother.bit i (by omega)]
    rfl
  · rw [if_neg fun hand => hin hand.2, hrest i (by omega) hi]

/-- `Difference` takes away the elements of another vector. -/
theorem difference (hwords : (bits.length + 31) / 32 < 2 ^ 31) :
    ∃ v', v.difference nbits other = some v' ∧
      Holds nbits v' (bits.mapIdx fun i b => b && !otherBits.getD i false) := by
  have hfits := h.fits
  have hfits' := hother.fits
  have hrep := h.combine hother (n := min ((bits.length + 31) / 32) ((otherBits.length + 31) / 32))
    (f := fun a b => a &&& ~~~b) (g := fun a b => a && !b)
    (fun x y r hr => by simp [hr]) (min_le_right _ _)
    (fun i hi hi' b => by rw [getD_eq_default _ _ (by omega), Bool.not_false, Bool.and_true])
    fun i hi => Bool.false_and _
  refine ⟨_, ?_, _, hrep⟩
  simp only [InlinedBitVector.difference, h.words_eq, hother.words_eq, h.numWords_eq,
    hother.numWords_eq, bind_eq_bind, bind_some]
  rw [intLoop_combine (by omega) (by omega) (by omega), bind_some, hrep.checked]

/-- `Union` with a vector that is not longer. -/
theorem unionWords (hle : otherBits.length ≤ bits.length)
    (hwords : (otherBits.length + 31) / 32 < 2 ^ 31) : ∃ v', v.unionWords nbits other = some v' ∧
      Holds nbits v' (bits.mapIdx fun i b => b || otherBits.getD i false) := by
  have hfits := h.fits
  have hrep := h.combine hother
    (fun x y r _ => BitVec.getLsbD_or) (le_refl _)
    (fun i hi _ b => by rw [getD_eq_default _ _ (by omega), Bool.or_false])
    fun i hi => by rw [getD_eq_default _ _ (by omega), Bool.or_false]
  refine ⟨_, ?_, _, hrep⟩
  simp only [InlinedBitVector.unionWords, h.words_eq, hother.words_eq, hother.numWords_eq,
    bind_eq_bind, bind_some]
  rw [intLoop_combine hwords (by omega) hother.fits, bind_some, hrep.checked]

/-- The vector grows to the size of the other one. -/
theorem union (uninit : Nat → BitVec 32) (hwords : (otherBits.length + 31) / 32 < 2 ^ 31) :
    ∃ v', v.union nbits uninit other = some v' ∧
      Holds nbits v' ((resizeBits bits (max bits.length otherBits.length)).mapIdx
        fun i b => b || otherBits.getD i false) := by
  unfold InlinedBitVector.union
  rw [h.size_eq, hother.size_eq]
  split
  next hlt =>
    rw [max_eq_right (by omega)]
    obtain ⟨grown, hgrow, array', hrep⟩ := h.resize uninit hother.size_lt
    rw [hgrow]
    exact hrep.unionWords hother (by rw [length_resizeBits]) hwords
  next hge =>
    rw [max_eq_left (by omega), resizeBits_length]
    exact h.unionWords hother (by omega) hwords

/-- `Intersection` with another vector. -/
theorem intersection (hwords : (bits.length + 31) / 32 < 2 ^ 31) :
    ∃ v', v.intersection nbits other = some v' ∧
      Holds nbits v' (bits.mapIdx fun i b => b && otherBits.getD i false) := by
  have hfits := h.fits
  have hfits' := hother.fits
  have hle := Nat.min_le_left ((bits.length + 31) / 32) ((otherBits.length + 31) / 32)
  have hrep := h.mapIdx (g := fun i b => b && otherBits.getD i false) (f := fun j x =>
      if min ((bits.length + 31) / 32) ((otherBits.length + 31) / 32) ≤ j ∧
        j < (bits.length + 31) / 32 then 0#32
      else if 0 ≤ j ∧ j < min ((bits.length + 31) / 32) ((otherBits.length + 31) / 32) then
        x &&& otherArray.getD j 0#32 else x)
    (fun i hi x => by
      by_cases hin : i / 32 < min ((bits.length + 31) / 32) ((otherBits.length + 31) / 32)
      · rw [if_neg (by omega), if_pos ⟨Nat.zero_le _, hin⟩, BitVec.getLsbD_and,
          ← hother.bit i (by omega)]
        rfl
      · rw [if_pos (by omega), BitVec.getLsbD_zero, getD_eq_default _ _ (by omega), Bool.and_false])
    fun i _ _ => Bool.false_and _
  refine ⟨_, ?_, _, hrep⟩
  simp only [InlinedBitVector.intersection, h.words_eq, hother.words_eq, h.numWords_eq,
    hother.numWords_eq, bind_eq_bind, bind_some]
  rw [intLoop_combine (by omega) (by omega) (by omega), bind_some,
    intLoop_between hle hwords (by rwa [length_mapIdx]), mapIdx_mapIdx]
  exact hrep.checked

end

/-! ## Queries -/

theorem wordSpan : v.wordSpan = some ((array.take ((bits.length + 31) / 32)).drop 0) := by
  rw [InlinedBitVector.wordSpan, h.words_eq, h.numWords_eq, bind_eq_bind, bind_some,
    slice_eq h.fits (Nat.zero_le _)]

/-- Vectors of one size have the same used words exactly if they have the same bits. -/
theorem wordSpan_eq_iff (hother : Represents otherNbits other otherBits otherArray)
    (hlength : bits.length = otherBits.length) : (array.take ((bits.length + 31) / 32)).drop 0 =
      (otherArray.take ((otherBits.length + 31) / 32)).drop 0 ↔ bits = otherBits := by
  have hfits := h.fits
  have hfits' := hother.fits
  rw [← hlength] at hfits' ⊢
  rw [range_eq_iff hfits hfits']
  constructor
  · intro hwords
    refine ext_getElem hlength fun i hi hi' => ?_
    have hbit := h.bit i (by omega)
    have hbit' := hother.bit i (by omega)
    rw [packedBit_eq (by omega), hwords (i / 32) (by omega), ← packedBit_eq (by omega), hbit',
      getD_eq_getElem?_getD, getD_eq_getElem?_getD, getElem?_eq_getElem,
        getElem?_eq_getElem] at hbit
    exact hbit.symm
  · rintro rfl j hj
    refine ((window_packedBit _).ext (window_packedBit _)).mpr fun i _ hi => ?_
    rw [h.bit i (by omega), hother.bit i (by omega)]

/-- Vectors are equal if their lists are, whatever their inline capacities. -/
theorem equals (hother : Represents otherNbits other otherBits otherArray) :
    v.equals other = some (decide (bits = otherBits)) := by
  rw [InlinedBitVector.equals, h.wordSpan, hother.wordSpan, h.size_eq, hother.size_eq]
  refine congrArg some ?_
  by_cases hlength : bits.length = otherBits.length
  · rw [decide_eq_true hlength, Bool.true_and, decide_eq_decide]
    exact h.wordSpan_eq_iff hother hlength
  · rw [decide_eq_false hlength]
    exact (decide_eq_false fun heq : bits = otherBits => hlength (congrArg length heq)).symm

theorem count : v.count = some (bits.count true) := by
  rw [InlinedBitVector.count, h.wordSpan, bind_eq_bind, bind_some, foldl_add_popcount, Nat.zero_add]
  refine congrArg some ?_
  have hwords := rank_words (Nat.zero_le _) h.fits
  rw [rank_zero, Nat.zero_add] at hwords
  rw [← hwords, rank_congr h.bit, rank_getD bits (by omega)]

end

/-- Equal lists of bits have one hash, whatever the storage. -/
theorem abslHashValue {H : Type} (hash : HashState H) (state : H)
    (h : Represents nbits v bits array) (hother : Represents otherNbits other bits otherArray) :
    ∃ value, v.abslHashValue hash state = some value ∧
      other.abslHashValue hash state = some value := by
  have hspan := (h.wordSpan_eq_iff hother rfl).mpr rfl
  refine ⟨hash.combine (hash.combineContiguous state
    ((otherArray.take ((bits.length + 31) / 32)).drop 0)) bits.length, ?_, ?_⟩
  · rw [InlinedBitVector.abslHashValue, h.wordSpan, h.size_eq, hspan]
    rfl
  · rw [InlinedBitVector.abslHashValue, hother.wordSpan, hother.size_eq]
    rfl

/-- The loop looks for a common bit of the first words. -/
theorem intLoop_intersects (hn : n < 2 ^ 31) (hlength : n ≤ array.length)
    (hlength' : n ≤ otherArray.length) : ∃ found, intLoop 0 (· < toInt n)
      (intersectsWord array otherArray) false = some found ∧
        (found = false ↔ ∀ i < 32 * n, (packedBit array i && packedBit otherArray i) = false) := by
  rw [toInt_eq hn]
  refine intLoop_total (Nat.zero_le n) hn (fun i hi => by rw [decide_eq_true_eq, Int.ofNat_lt])
    (fun k found => found = false ↔ ∀ i < 32 * k,
      (packedBit array i && packedBit otherArray i) = false)
    ⟨fun _ i hi => absurd hi (by omega), fun _ => rfl⟩ fun k found _ hk hinv => ?_
  unfold intersectsWord
  cases found with
  | true =>
    refine ⟨true, rfl, ⟨nofun, fun hall => ?_⟩⟩
    exact hinv.mpr fun i hi => hall i (by omega)
  | false =>
    rw [getElem?_eq_getElem (by omega), getElem?_eq_getElem (by omega)]
    refine ⟨_, rfl, ?_⟩
    have hword := ((window_packedBit (show k < array.length by omega)).zipWith
      (window_packedBit (show k < otherArray.length by omega))
      fun j _ => BitVec.getLsbD_and).eq_zero_iff
    rw [decide_eq_false_iff_not, not_not]
    refine hword.trans ⟨fun hall i hi => ?_, fun hall i _ hi => hall i (by omega)⟩
    rcases Nat.lt_or_ge i (32 * k) with hlt | hge
    · exact hinv.mp rfl i hlt
    · exact hall i hge (by omega)

/-- `IsIntersectionNonEmpty` looks for a common element. -/
theorem isIntersectionNonEmpty (h : Represents nbits v bits array)
    (hother : Represents otherNbits other otherBits otherArray)
    (hwords : min ((bits.length + 31) / 32) ((otherBits.length + 31) / 32) < 2 ^ 31) :
    v.isIntersectionNonEmpty other = some ((bits.zip otherBits).any fun (a, b) => a && b) := by
  have hfits := h.fits
  have hfits' := hother.fits
  obtain ⟨found, hrun, hfound⟩ := intLoop_intersects hwords (show _ ≤ array.length by omega)
    (show _ ≤ otherArray.length by omega)
  have hresult : v.isIntersectionNonEmpty other = some found := by
    simp only [InlinedBitVector.isIntersectionNonEmpty, h.words_eq, hother.words_eq, h.numWords_eq,
      hother.numWords_eq, bind_eq_bind, bind_some, hrun]
  rw [hresult]
  refine congrArg some ?_
  rw [← Bool.not_inj_iff, Bool.eq_iff_iff, Bool.not_eq_true', Bool.not_eq_true', hfound,
    zip_any_eq_false]
  constructor
  · intro hall i
    by_cases hi : i < 32 * min ((bits.length + 31) / 32) ((otherBits.length + 31) / 32)
    · rw [← h.bit i (by omega), ← hother.bit i (by omega)]
      exact hall i hi
    · by_cases hmine : bits.length ≤ i
      · rw [getD_eq_default _ _ hmine, Bool.false_and]
      · rw [getD_eq_default otherBits _ (by omega), Bool.and_false]
  · intro hall i hi
    rw [h.bit i (by omega), hother.bit i (by omega)]
    exact hall i

end Represents

end Gloop.InlinedBitVector

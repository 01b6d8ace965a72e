import Gloop.Foundation.ArrayLoop
import Gloop.Foundation.RankSelect

/-!
# Bits packed into words

An array of words is a sequence of bits, `w` bits to a word. Operations that change each word by
itself are `List.mapIdx`, whose effect on the bits is `packedBit_mapIdx`. The words are windows of
the sequence, so that counting and comparing words counts and compares bits; `Window.low` is for a
last word of which only some bits are in use. The `tabulate` lemmas turn operations on lists of bits
into such on sequences.
-/

namespace Gloop.Foundation

open List Nat
open BitVec (getLsbD_of_ge getLsbD_and getLsbD_not getLsbD_ushiftRight getLsbD_shiftLeft
    getLsbD_allOnes
  getLsbD_zero eq_of_getLsbD_eq)

variable {w n i : Nat} {words : List (BitVec w)}

/-- Bit `i` of an array of words. -/
def packedBit (words : List (BitVec w)) (i : Nat) : Bool :=
  (words.getD (i / w) 0#w).getLsbD (i % w)

theorem packedBit_eq (h : i / w < words.length) :
    packedBit words i = (words[i / w]).getLsbD (i % w) := by
  rw [packedBit, getD_eq_getElem?_getD, getElem?_eq_getElem, Option.getD_some]

/-- A change of each word by itself, in terms of bits. -/
theorem packedBit_mapIdx {f : Nat → BitVec w → BitVec w} {g : Bool → Bool}
    (hi : i < w * words.length) (hf : ∀ x, (f (i / w) x).getLsbD (i % w) = g (x.getLsbD (i % w))) :
    packedBit (words.mapIdx f) i = g (packedBit words i) := by
  have hdiv := Nat.div_lt_of_lt_mul hi
  rw [packedBit_eq (by rwa [length_mapIdx]), getElem_mapIdx, hf, packedBit_eq]

variable {f : BitVec w → BitVec w → BitVec w} {g : Bool → Bool → Bool}

/-- A combination of two arrays word by word, in terms of bits. -/
theorem packedBit_zipWith {words' : List (BitVec w)}
    (hi : i < w * words.length) (hi' : i < w * words'.length)
    (hf : ∀ x y, (f x y).getLsbD (i % w) = g (x.getLsbD (i % w)) (y.getLsbD (i % w))) :
    packedBit (List.zipWith f words words') i = g (packedBit words i) (packedBit words' i) := by
  have hdiv := Nat.div_lt_of_lt_mul hi
  have hdiv' := Nat.div_lt_of_lt_mul hi'
  rw [packedBit_eq (by rw [length_zipWith]; omega), getElem_zipWith, hf, packedBit_eq, packedBit_eq]

/-! ## Words as windows -/

variable {j : Nat} {s : Nat → Bool} {a r : Nat} {x y : BitVec w}

/-- Bit `k` of word `j`. -/
theorem place_eq {k : Nat} (hk : k < w) (j : Nat) : (w * j + k) / w = j ∧ (w * j + k) % w = k :=
  (Nat.div_mod_unique (by omega)).mpr ⟨add_comm _ _, hk⟩

/-- A word is a window of the bits. -/
theorem window_packedBit (hj : j < words.length) : Window (packedBit words) (w * j) w words[j] := by
  refine .full fun k hk => ?_
  obtain ⟨hdiv, hmod⟩ := place_eq hk j
  rw [packedBit_eq (by rwa [hdiv]), hmod]
  simp only [hdiv]

/-- The low bits of a window. -/
theorem Window.low (h : Window s a w x) (hr : r ≤ w) :
    Window s a r (x &&& (BitVec.allOnes w >>> (w - r))) := by
  refine ⟨hr, fun j hj => ?_, fun j hj => ?_⟩
  · rw [getLsbD_and, h.bits j (by omega), getLsbD_ushiftRight, getLsbD_allOnes,
      decide_eq_true (by omega), Bool.and_true]
  · rw [getLsbD_and, getLsbD_ushiftRight, getLsbD_allOnes, decide_eq_false (by omega),
      Bool.and_false]

/-- A window without the low bits. -/
theorem Window.high (h : Window s a w x) :
    Window (clearBelow (a + r) s) a w (x &&& (BitVec.allOnes w <<< r)) := by
  refine .full fun j hj => ?_
  rw [getLsbD_and, h.bits j hj, getLsbD_shiftLeft, getLsbD_allOnes]
  rcases lt_or_ge j r with hlow | hhigh
  · rw [clearBelow_of_lt (by omega), decide_eq_true hlow]
    simp
  · rw [clearBelow_of_le (by omega), decide_eq_true hj, decide_eq_false (by omega),
      decide_eq_true (by omega)]
    simp

/-- An operation on the bits of two windows. -/
theorem Window.zipWith {t : Nat → Bool} (hx : Window s a w x) (hy : Window t a w y)
    (hf : ∀ j < w, (f x y).getLsbD j = g (x.getLsbD j) (y.getLsbD j)) :
    Window (fun i => g (s i) (t i)) a w (f x y) := by
  refine .full fun j hj => ?_
  rw [hf j hj, hx.bits j hj, hy.bits j hj]

theorem window_allOnes (a : Nat) : Window (fun _ => true) a w (BitVec.allOnes w) := by
  refine .full fun j hj => ?_
  rw [getLsbD_allOnes, decide_eq_true hj]

/-- Words are equal if their bits in the window are. -/
theorem Window.ext {t : Nat → Bool} (hx : Window s a r x) (hy : Window t a r y) :
    x = y ↔ ∀ k, a ≤ k → k < a + r → s k = t k := by
  constructor
  · rintro rfl k hle hlt
    have hbit := hx.bits (k - a) (by omega)
    rw [hy.bits (k - a) (by omega)] at hbit
    rw [← show a + (k - a) = k by omega, hbit]
  · intro hsame
    refine eq_of_getLsbD_eq fun j hj => ?_
    rcases lt_or_ge j r with hlt | hge
    · rw [hx.bits j hlt, hy.bits j hlt, hsame _ (by omega) (by omega)]
    · rw [hx.clear j hge, hy.clear j hge]

/-- A word is zero if no bit of its window is set. -/
theorem Window.eq_zero_iff (h : Window s a r x) : x = 0#w ↔ ∀ k, a ≤ k → k < a + r → s k = false :=
  h.ext ⟨h.le, fun _ _ => getLsbD_zero, fun _ _ => getLsbD_zero⟩

/-! ## Places of bits -/

/-- Indexes compare by word and then by place. -/
theorem lt_iff_div_mod (hw : 0 < w) : i < n ↔ i / w < n / w ∨ i / w = n / w ∧ i % w < n % w := by
  have hi := div_add_mod i w
  have hn := div_add_mod n w
  have hi' := mod_lt i hw
  have hn' := mod_lt n hw
  rcases lt_trichotomy (i / w) (n / w) with hlt | heq | hgt
  · have := Nat.mul_le_mul_left w hlt
    rw [mul_succ] at this
    omega
  · rw [heq] at hi
    omega
  · have := mul_le_mul_left w hgt
    rw [mul_succ] at this
    omega

/-! ## Masks -/

theorem getLsbD_one_shiftLeft (hj : j < w) : (1#w <<< r).getLsbD j = decide (j = r) := by
  rw [← BitVec.twoPow_eq]
  by_cases hjr : j = r
  · simp [hj]
  · simp [hjr, Ne.symm hjr]

/-- Testing a single bit with a mask. -/
theorem and_bit_ne_zero (x : BitVec w) (hr : r < w) :
    decide (x &&& (1#w <<< r) ≠ 0) = x.getLsbD r := by
  have hbit : ∀ j < w, (x &&& (1#w <<< r)).getLsbD j = (x.getLsbD j && decide (j = r)) :=
    fun j hj => by rw [getLsbD_and, getLsbD_one_shiftLeft hj]
  cases hx : x.getLsbD r with
  | true =>
    rw [decide_eq_true_eq]
    intro hzero
    have hset := hbit r hr
    rw [hzero, hx] at hset
    simp at hset
  | false =>
    rw [decide_eq_false_iff_not, not_not]
    refine eq_of_getLsbD_eq fun j hj => ?_
    rw [hbit j hj]
    by_cases hjr : j = r
    · rw [hjr, hx]
      simp
    · simp [hjr]

/-- A mask for the low bits, which may be all of them. -/
theorem getLsbD_shiftLeft_sub_one (hr : r < w) (hn : n ≤ w) :
    ((1#w <<< n) - 1#w).getLsbD r = decide (r < n) := by
  rcases lt_or_eq_of_le hn with hlt | rfl
  · exact getLsbD_lowMask hlt r
  · rw [BitVec.shiftLeft_eq_zero (Nat.le_refl n), BitVec.zero_sub, BitVec.neg_one_eq_allOnes,
      getLsbD_allOnes]

/-- A masked word is zero if no bit of the mask is set. -/
theorem and_eq_zero_iff : x &&& y = 0#w ↔ ∀ r < w, y.getLsbD r = true → x.getLsbD r = false := by
  constructor
  · intro hzero r _ hy
    have hbit := congrArg (·.getLsbD r) hzero
    simpa [hy] using hbit
  · intro hclear
    refine eq_of_getLsbD_eq fun r hr => ?_
    rw [getLsbD_and, getLsbD_zero]
    cases hy : y.getLsbD r with
    | false => rw [Bool.and_false]
    | true => rw [hclear r hr hy, Bool.false_and]

/-! ## Ranges of words -/

/-- The indexes that belong to a word. -/
theorem div_eq_iff_word (hw : 0 < w) : i / w = j ↔ w * j ≤ i ∧ i < w * j + w := by
  rw [Nat.div_eq_iff hw, mul_comm]
  omega

/-- What holds of the bits of each word of a range holds of all bits of the range. -/
theorem forall_words_iff (hw : 0 < w) (Q : Nat → Prop) (first last : Nat) :
    (∀ j, first ≤ j → j < last → ∀ i, w * j ≤ i → i < w * j + w → Q i) ↔
      ∀ i, w * first ≤ i → i < w * last → Q i := by
  constructor
  · intro hall i hle hlt
    obtain ⟨hstart, hend⟩ := (div_eq_iff_word hw).mp (rfl : i / w = i / w)
    refine hall (i / w) ?_ (Nat.div_lt_of_lt_mul hlt) i hstart hend
    rw [le_div_iff_mul_le hw, mul_comm]
    exact hle
  · intro hall j hfirst hlast i hle hlt
    have hlow : w * first ≤ w * j := mul_le_mul_left w hfirst
    have hhigh : w * (j + 1) ≤ w * last := Nat.mul_le_mul_left w hlast
    rw [mul_succ] at hhigh
    exact hall i (by omega) (by omega)

/-- A loop that adds up the set bits of words. -/
theorem foldl_add_popcount (l : List (BitVec w)) (a : Nat) :
    l.foldl (fun sum x => sum + popcount x) a = a + (l.map popcount).sum := by
  induction l generalizing a with
  | nil => rfl
  | cons x l ih => rw [foldl_cons, ih, map_cons, sum_cons, add_assoc]

/-- The bits of a range of words, counted word by word. -/
theorem rank_words {first last : Nat} (hle : first ≤ last) (hlast : last ≤ words.length) :
    rank (packedBit words) (w * last) =
      rank (packedBit words) (w * first) + (((words.take last).drop first).map popcount).sum := by
  induction last, hle using le_induction with
  | base => rw [drop_eq_nil_of_le (by rw [length_take]; omega), map_nil, sum_nil, add_zero]
  | succ last hle ih =>
    have hwindow := (window_packedBit (show last < words.length by omega)).rank_eq
    rw [mul_succ, hwindow, ih (by omega), take_succ_eq_append_getElem (by omega),
      drop_append_of_le_length (by rw [length_take]; omega), map_append,
      sum_append_nat, map_singleton, sum_singleton, add_assoc]

/-! ## Lists of bits -/

/-- The rank counts the set bits of a list. -/
theorem count_tabulate (n : Nat) (s : Nat → Bool) : (tabulate n s).count true = rank s n := by
  induction n with
  | zero => rfl
  | succ n ih =>
    rw [rank_succ, ← ih, tabulate, range_succ]
    cases hbit : s n with
    | false => simp [tabulate, hbit]
    | true => simp [tabulate, hbit]

/-- The set bits of a range, as a difference of ranks. -/
theorem count_drop_take_tabulate (s : Nat → Bool) {first last : Nat} (hle : first ≤ last)
    (hlast : last ≤ n) : (((tabulate n s).take last).drop first).count true =
      rank s last - rank s first := by
  have htake : (tabulate n s).take last = tabulate last s := by
    rw [tabulate, ← map_take, take_range, min_eq_left hlast]
    rfl
  have hsplit : (tabulate last s).take first = tabulate first s := by
    rw [tabulate, ← map_take, take_range, min_eq_left hle]
    rfl
  have hcount := congrArg (count true) (take_append_drop first (tabulate last s))
  rw [count_append, hsplit, count_tabulate, count_tabulate] at hcount
  rw [htake]
  omega

/-- Two lists have no set bit in common. -/
theorem zip_any_eq_false (bits otherBits : List Bool) :
    (bits.zip otherBits).any (fun (a, b) => a && b) = false ↔
      ∀ i, (bits.getD i false && otherBits.getD i false) = false := by
  rw [any_eq_false]
  constructor
  · intro hall i
    rw [getD_eq_getElem?_getD, getD_eq_getElem?_getD]
    cases ha : bits[i]? with
    | none => rfl
    | some a =>
      cases hb : otherBits[i]? with
      | none => exact Bool.and_false a
      | some b => simpa using hall (a, b) (mem_of_getElem? (getElem?_zip_eq_some.mpr ⟨ha, hb⟩))
  · rintro hall ⟨a, b⟩ hx
    obtain ⟨i, hi⟩ := mem_iff_getElem?.mp hx
    obtain ⟨ha, hb⟩ := getElem?_zip_eq_some.mp hi
    simpa [ha, hb] using hall i

/-- All set bits of a list are below its length. -/
theorem rank_getD (bits : List Bool) (hn : bits.length ≤ n) :
    rank (fun i => bits.getD i false) n = bits.count true := by
  induction n, hn using le_induction with
  | base =>
    have htab : tabulate bits.length (fun i => bits.getD i false) = bits := by
      refine ext_getElem (length_tabulate _ _) fun i hi hi' => ?_
      rw [getElem_tabulate, getD_eq_getElem?_getD, getElem?_eq_getElem, Option.getD_some]
    rw [← count_tabulate, htab]
  | succ n hle ih =>
    rw [rank_succ, ih, getD_eq_getElem?_getD, getElem?_eq_none hle]
    rfl

end Gloop.Foundation

import Mathlib.Data.Nat.Count
import Gloop.Foundation.Word

/-!
# Rank and select on bit streams

A stream gives a bit for each position. `rank` counts the set bits below a position, and `Selects`
says which position holds the set bit of a given rank. The words that code cuts from a stream are
streams themselves, so its word operations (`popcount`, `countrZero`, clearing the lowest bit) are
stated with the same two notions. The last section is about the stream that stores a sorted list in
unary.
-/

namespace Gloop.Foundation

open List BitVec Nat Bool

/-- The number of set bits below the position. -/
def rank (s : Nat → Bool) (n : Nat) : Nat :=
  Nat.count (fun k => s k = true) n

/-- The set bit that has `r` set bits below it is at `p`. -/
structure Selects (s : Nat → Bool) (r p : Nat) : Prop where
  bit : s p = true
  rank_eq : rank s p = r

variable {s t : Nat → Bool} {r r' p q n m : Nat}

/-! ## Rank -/

@[simp] theorem rank_zero (s : Nat → Bool) : rank s 0 = 0 :=
  count_zero _

/-- The rank grows by one at a set bit. -/
theorem rank_succ (s : Nat → Bool) (n : Nat) : rank s (n + 1) = rank s n + (s n).toNat := by
  rw [rank, count_succ]
  cases s n <;> rfl

/-- The rank of a sum counts the bits of both parts. -/
theorem rank_add (s : Nat → Bool) (a b : Nat) :
    rank s (a + b) = rank s a + rank (fun k => s (a + k)) b :=
  count_add _ a b

theorem rank_mono (s : Nat → Bool) (h : n ≤ m) : rank s n ≤ rank s m :=
  count_monotone _ h

theorem rank_le (s : Nat → Bool) (n : Nat) : rank s n ≤ n :=
  count_le _

/-- A rank depends on the bits before the position only. -/
theorem rank_congr (h : ∀ k < n, s k = t k) : rank s n = rank t n := by
  induction n with
  | zero => rfl
  | succ n ih => rw [rank_succ, rank_succ, h n (by omega), ih fun k hk => h k (by omega)]

/-- Every position before `n` has a set bit or a clear one. -/
theorem rank_not (s : Nat → Bool) (n : Nat) : rank s n + rank (fun k => !s k) n = n := by
  induction n with
  | zero => rfl
  | succ n ih =>
    rw [rank_succ, rank_succ]
    cases s n <;> simp only [Bool.not_true, Bool.not_false, toNat_true, toNat_false] <;>
      omega

/-- The rank is zero if no bit before the position is set. -/
theorem rank_eq_zero_iff : rank s n = 0 ↔ ∀ k < n, s k = false := by
  rw [rank, count_iff_forall_not]
  simp

/-- Between two positions the rank grows by at most their distance. -/
theorem rank_le_add (s : Nat → Bool) (h : n ≤ m) : rank s m ≤ rank s n + (m - n) := by
  obtain ⟨d, rfl⟩ := Nat.exists_eq_add_of_le h
  have hd := rank_le (fun k => s (n + k)) d
  rw [rank_add]
  omega

/-! ## Select -/

theorem Selects.unique (hp : Selects s r p) (hq : Selects s r q) : p = q :=
  count_injective (p := fun k => s k = true) hp.bit hq.bit (hp.rank_eq.trans hq.rank_eq.symm)

/-- The rank after a selected bit. -/
theorem Selects.rank_succ_eq (h : Selects s r p) : rank s (p + 1) = r + 1 := by
  rw [rank_succ, h.bit, h.rank_eq]
  rfl

/-- A selected position is below a bound when the bound has a larger rank. -/
theorem Selects.lt_iff (h : Selects s r p) : p < n ↔ r < rank s n := by
  constructor
  · intro hlt
    have hmono := rank_mono s (show p + 1 ≤ n from hlt)
    rw [h.rank_succ_eq] at hmono
    exact hmono
  · intro hlt
    by_contra hle
    have hmono := rank_mono s (Nat.le_of_not_lt hle)
    rw [h.rank_eq] at hmono
    omega

/-- The rank does not change up to the next set bit. -/
theorem Selects.rank_of_le (h : Selects s r p) (hn : rank s n = r) (hle : n ≤ m) (hm : m ≤ p) :
    rank s m = r := by
  have hmono := rank_mono s hle
  have hbefore := h.lt_iff (n := m)
  omega

/-- Bits of higher rank come later. -/
theorem Selects.lt_of_lt (hp : Selects s r p) (hq : Selects s r' q) (h : r < r') : p < q :=
  hp.lt_iff.mpr (by rw [hq.rank_eq]; exact h)

theorem Selects.le_of_le (hp : Selects s r p) (hq : Selects s r' q) (h : r ≤ r') : p ≤ q := by
  rcases lt_or_ge r r' with hlt | hge
  · exact (hp.lt_of_lt hq hlt).le
  · obtain rfl : r = r' := by omega
    exact (hp.unique hq).le

/-- A bit is not before the position that its rank gives. -/
theorem Selects.le (h : Selects s r p) : r ≤ p := by
  have hle := rank_le s p
  rw [h.rank_eq] at hle
  exact hle

/-- A position is at most as far from its rank as a later one is. -/
theorem Selects.sub_le (hp : Selects s r p) (hq : Selects s r' q) (h : r ≤ r') :
    p + r' ≤ q + r := by
  have hrank := rank_le_add s (hp.le_of_le hq h)
  have hle := hp.le_of_le hq h
  rw [hp.rank_eq, hq.rank_eq] at hrank
  omega

/-- A selected position depends on the bits up to it only. -/
theorem Selects.congr (h : Selects s r p) (hst : ∀ k ≤ p, t k = s k) : Selects t r p := by
  refine ⟨(hst p (le_refl p)).trans h.bit, ?_⟩
  rw [← h.rank_eq]
  exact rank_congr fun k hk => hst k hk.le

/-- The set bits from `a` on are those of the stream that starts there. -/
theorem Selects.of_drop {a : Nat} (h : Selects (fun k => s (a + k)) r p) :
    Selects s (rank s a + r) (a + p) :=
  ⟨h.bit, by rw [rank_add, h.rank_eq]⟩

/-- Selection in the bits from a position on. -/
theorem Selects.drop {a : Nat} (h : Selects s r p) (ha : a ≤ p) :
    Selects (fun k => s (a + k)) (r - rank s a) (p - a) := by
  obtain ⟨d, rfl⟩ := Nat.exists_eq_add_of_le ha
  have hrank := h.rank_eq
  rw [rank_add] at hrank
  refine ⟨?_, ?_⟩
  · rw [Nat.add_sub_cancel_left]
    exact h.bit
  · rw [Nat.add_sub_cancel_left]
    omega

/-- Every rank below that of a position has a bit before it. -/
theorem exists_selects (h : r < rank s n) : ∃ p < n, Selects s r p := by
  induction n with
  | zero => simp at h
  | succ n ih =>
    by_cases hlt : r < rank s n
    · obtain ⟨p, hp, hsel⟩ := ih hlt
      exact ⟨p, by omega, hsel⟩
    rw [rank_succ] at h
    cases hbit : s n with
    | false =>
      rw [hbit, toNat_false] at h
      omega
    | true =>
      rw [hbit, toNat_true] at h
      exact ⟨n, by omega, hbit, by omega⟩

/-! ## Streams from a position on -/

/-- The bits from `p` on. -/
def clearBelow (p : Nat) (s : Nat → Bool) (k : Nat) : Bool :=
  decide (p ≤ k) && s k

/-- The bits from `p` on, with all bits below set. -/
def setBelow (p : Nat) (s : Nat → Bool) (k : Nat) : Bool :=
  decide (k < p) || s k

theorem clearBelow_of_le (h : p ≤ n) : clearBelow p s n = s n := by
  rw [clearBelow, decide_eq_true h, Bool.true_and]

theorem clearBelow_of_lt (h : n < p) : clearBelow p s n = false := by
  rw [clearBelow, decide_eq_false (not_le.mpr h), Bool.false_and]

theorem setBelow_of_le (h : p ≤ n) : setBelow p s n = s n := by
  rw [setBelow, decide_eq_false (not_lt.mpr h), Bool.false_or]

theorem setBelow_of_lt (h : n < p) : setBelow p s n = true := by
  rw [setBelow, decide_eq_true h, Bool.true_or]

section

variable (s)

/-- The ranks without the bits below a position. -/
theorem rank_clearBelow (h : p ≤ n) : rank (clearBelow p s) n + rank s p = rank s n := by
  induction n, h using le_induction with
  | base =>
    rw [rank_eq_zero_iff.mpr fun k hk => clearBelow_of_lt hk, zero_add]
  | succ n h ih =>
    rw [rank_succ, rank_succ, clearBelow_of_le h]
    omega

/-- Below the position, all bits are set. -/
theorem rank_setBelow_of_le (h : n ≤ p) : rank (setBelow p s) n = n := by
  induction n with
  | zero => rfl
  | succ n ih => rw [rank_succ, ih (by omega), setBelow_of_lt (by omega), toNat_true]

/-- The ranks with all bits below a position. -/
theorem rank_setBelow (h : p ≤ n) : rank (setBelow p s) n + rank s p = rank s n + p := by
  induction n, h using le_induction with
  | base => rw [rank_setBelow_of_le s (le_refl p), add_comm]
  | succ n h ih =>
    rw [rank_succ, rank_succ, setBelow_of_le h]
    omega

end

/-- Clearing bits below a selected one lowers its rank. -/
theorem Selects.clearBelow (h : Selects s r q) (hp : p ≤ q) :
    Selects (clearBelow p s) (r - rank s p) q := by
  have hrank := rank_clearBelow s hp
  rw [h.rank_eq] at hrank
  exact ⟨(clearBelow_of_le hp).trans h.bit, by omega⟩

/-- Setting the bits below a selected one changes its rank. -/
theorem Selects.setBelow (h : Selects s r q) (hp : p ≤ q) :
    Selects (setBelow p s) (p + (r - rank s p)) q := by
  have hrank := rank_setBelow s hp
  have hmono := rank_mono s hp
  rw [h.rank_eq] at hrank hmono
  exact ⟨(setBelow_of_le hp).trans h.bit, by omega⟩

/-- Up to the next set bit there is nothing to clear. -/
theorem clearBelow_eq (h : Selects s (rank s p) q) (hp : p ≤ q) :
    Foundation.clearBelow p s = Foundation.clearBelow q s := by
  funext k
  rcases lt_or_ge k p with hkp | hkp
  · rw [clearBelow_of_lt hkp, clearBelow_of_lt (hkp.trans_le hp)]
  · rcases lt_or_ge k q with hkq | hkq
    · rw [clearBelow_of_lt hkq, clearBelow_of_le hkp]
      by_contra hbit
      have hsel : Selects s (rank s k) k := ⟨by simpa using hbit, rfl⟩
      have hlt := hsel.lt_iff.mp hkq
      have hmono := rank_mono s hkp
      rw [h.rank_eq] at hlt
      omega
    · rw [clearBelow_of_le hkp, clearBelow_of_le hkq]

/-! ## Words -/

section Words

variable {w : Nat}

/-- `absl::popcount(x)`. -/
def popcount (x : BitVec w) : Nat :=
  rank x.getLsbD w

/-- `absl::countr_zero(x)`. -/
def countrZero (x : BitVec w) : Nat :=
  (List.range w).findIdx x.getLsbD

variable {x : BitVec w}

/-- A bit of a word is within its width. -/
theorem Selects.lt_width (h : Selects x.getLsbD r p) : p < w :=
  lt_of_getLsbD h.bit

/-- The rank of a bit of a word is less than the number of set bits. -/
theorem Selects.lt_popcount (h : Selects x.getLsbD r p) : r < popcount x :=
  h.lt_iff.mp h.lt_width

/-- The lowest set bit of a word. -/
theorem selects_countrZero (h : x ≠ 0#w) : Selects x.getLsbD 0 (countrZero x) := by
  have hlt : (range w).findIdx x.getLsbD < (range w).length := by
    rw [findIdx_lt_length]
    by_contra hnone
    apply h
    apply eq_of_getLsbD_eq
    intro j hj
    by_contra hbit
    exact hnone ⟨j, mem_range.mpr hj, by simpa using hbit⟩
  refine ⟨?_, rank_eq_zero_iff.mpr fun k hk => ?_⟩
  · have hbit := findIdx_getElem (p := x.getLsbD) (w := hlt)
    simp only [getElem_range] at hbit
    exact hbit
  · have hk' : k < (range w).findIdx x.getLsbD := hk
    have hbit := not_of_lt_findIdx hk'
    simpa using hbit

/-- A word without set bits is zero. -/
theorem eq_zero_of_popcount (h : popcount x = 0) : x = 0#w := by
  apply eq_of_getLsbD_eq
  intro j hj
  rw [getLsbD_zero]
  exact rank_eq_zero_iff.mp h j hj

/-- `x & (x - 1)` clears the lowest set bit. -/
theorem getLsbD_and_sub_one (h : Selects x.getLsbD 0 p) (j : Nat) :
    (x &&& (x - 1#w)).getLsbD j = (x.getLsbD j && decide (j ≠ p)) := by
  have hp := h.lt_width
  -- split the word at its lowest bit: `x = 2 ^ (p + 1) * high + 2 ^ p`
  obtain ⟨high, hhigh⟩ : ∃ high, x.toNat = 2 ^ (p + 1) * high + 2 ^ p := by
    refine ⟨x.toNat / 2 ^ (p + 1), ?_⟩
    have hmod : x.toNat % 2 ^ (p + 1) = 2 ^ p := by
      apply eq_of_testBit_eq
      intro k
      rw [testBit_mod_two_pow, testBit_two_pow, testBit_toNat]
      rcases Nat.lt_trichotomy k p with hk | rfl | hk
      · rw [rank_eq_zero_iff.mp h.rank_eq k hk, Bool.and_false]
        exact (decide_eq_false (by omega)).symm
      · rw [h.bit]
        simp
      · rw [decide_eq_false (by omega)]
        exact (decide_eq_false (by omega)).symm
    rw [← hmod, div_add_mod]
  have hpos := Nat.two_pow_pos p
  have hsub : (x - 1#w).toNat = 2 ^ (p + 1) * high + (2 ^ p - 1) := by
    have hone : (1#w).toNat = 1 := mod_eq_of_lt (Nat.one_lt_two_pow (by omega))
    rw [toNat_sub_of_le (by rw [le_def, hone]; omega)]
    omega
  rw [getLsbD_and, ← testBit_toNat, ← testBit_toNat, hsub, hhigh,
    testBit_two_pow_mul_add _ (by omega),
    testBit_two_pow_mul_add _ (by omega)]
  by_cases hj : j < p + 1
  · rw [if_pos hj]
    by_cases heq : j = p
    · simp [heq]
    · simp [show ¬ p = j by omega]
  · rw [if_neg hj, if_neg hj, decide_eq_true (by omega), Bool.and_self, Bool.and_true]

/-- The low `n` bits of the word are those of the stream from `a` on, and its other bits are
clear. -/
structure Window (s : Nat → Bool) (a n : Nat) (x : BitVec w) : Prop where
  le : n ≤ w
  bits : ∀ j < n, x.getLsbD j = s (a + j)
  clear : ∀ j, n ≤ j → x.getLsbD j = false

namespace Window

variable {a : Nat} {x : BitVec w}

/-- A window of the whole word. -/
theorem full (h : ∀ j < w, x.getLsbD j = s (a + j)) : Window s a w x :=
  ⟨le_refl w, h, fun j hj => getLsbD_of_ge _ j hj⟩

/-- The set bits of a window are counted by its word. -/
theorem rank_eq (h : Window s a n x) : rank s (a + n) = rank s a + popcount x := by
  obtain ⟨rest, hrest⟩ := Nat.exists_eq_add_of_le h.le
  have hclear : rank (fun k => x.getLsbD (n + k)) rest = 0 :=
    rank_eq_zero_iff.mpr fun k _ => h.clear _ (Nat.le_add_right n k)
  have hcount : popcount x = rank x.getLsbD (n + rest) := congrArg (rank x.getLsbD) hrest
  rw [rank_add, hcount, rank_add x.getLsbD, hclear, add_zero,
    rank_congr fun k hk => (h.bits k hk).symm]

/-- A selected bit in the window is selected in the word. -/
theorem selects (h : Window s a n x) (hp : Selects s r p) (hle : a ≤ p) (hlt : p < a + n) :
    Selects x.getLsbD (r - rank s a) (p - a) :=
  (hp.drop hle).congr fun k hk => h.bits k (by omega)

/-- A window that has a selected bit is not zero. -/
theorem ne_zero (h : Window s a n x) (hp : Selects s r p) (hle : a ≤ p) (hlt : p < a + n) :
    x ≠ 0#w := by
  rintro rfl
  have hbit := (h.selects hp hle hlt).bit
  rw [getLsbD_zero] at hbit
  cases hbit

/-- A word that ends before the next set bit is zero. -/
theorem eq_zero (h : Window s a n x) (hp : Selects s r p) (hrank : rank s a = r)
    (hle : a + n ≤ p) : x = 0#w := by
  have hcount := h.rank_eq
  have hbefore := hp.lt_iff (n := a + n)
  exact eq_zero_of_popcount (by omega)

/-- The first bit from the start of the window on, if it is in there, is its lowest one. -/
theorem countrZero_eq (h : Window s a n x) (hp : Selects s (rank s a) p) (hle : a ≤ p)
    (hlt : p < a + n) : a + countrZero x = p := by
  have hsel := h.selects hp hle hlt
  rw [Nat.sub_self] at hsel
  have := hsel.unique (selects_countrZero (h.ne_zero hp hle hlt))
  omega

/-- A shift moves the start of a window. -/
theorem shift {k : Nat} (h : Window s a w x) (hk : k ≤ w) : Window s (a + k) (w - k) (x >>> k) := by
  refine ⟨Nat.sub_le w k, fun j hj => ?_, fun j hj => ?_⟩
  · rw [getLsbD_ushiftRight, h.bits _ (by omega), add_assoc]
  · rw [getLsbD_ushiftRight, h.clear _ (by omega)]

/-- A window depends on its own bits only. -/
theorem congr (h : Window s a n x) (hst : ∀ k, a ≤ k → k < a + n → t k = s k) : Window t a n x :=
  ⟨h.le, fun j hj => (h.bits j hj).trans (hst _ (by omega) (by omega)).symm, h.clear⟩

/-- The complement of a word is a window of the complement. -/
theorem not (h : Window s a w x) : Window (fun k => !s k) a w (~~~x) := by
  refine full fun j hj => ?_
  rw [getLsbD_not, decide_eq_true hj, Bool.true_and, h.bits j hj]

/-- Shifting a word there and back clears its low bits. -/
theorem mask {k : Nat} (h : Window s a w x) :
    Window (clearBelow (a + k) s) a w ((x >>> k) <<< k) := by
  refine full fun j hj => ?_
  rw [getLsbD_shiftLeft, getLsbD_ushiftRight, decide_eq_true hj]
  rcases lt_or_ge j k with hlt | hge
  · rw [decide_eq_true hlt, clearBelow_of_lt (by omega)]
    rfl
  · rw [decide_eq_false (not_lt.mpr hge), clearBelow_of_le (by omega), Nat.add_sub_cancel' hge,
      h.bits j hj]
    rfl

/-- Clearing the lowest bit of a word. -/
theorem clear_lowest (h : Window (clearBelow p s) a w x) (hbit : s p = true) (hle : a ≤ p)
    (hlt : p < a + w) : Window (clearBelow (p + 1) s) a w (x &&& (x - 1#w)) := by
  have hsel : Selects (Foundation.clearBelow p s) (rank (Foundation.clearBelow p s) p) p :=
    ⟨(clearBelow_of_le (le_refl p)).trans hbit, rfl⟩
  have hlow := h.selects hsel hle hlt
  have hzero : rank (Foundation.clearBelow p s) p = 0 :=
    rank_eq_zero_iff.mpr fun k hk => clearBelow_of_lt hk
  rw [hzero, Nat.zero_sub] at hlow
  refine full fun j hj => ?_
  rw [getLsbD_and_sub_one hlow, h.bits j hj]
  rcases Nat.lt_trichotomy (a + j) p with hlt' | heq | hgt
  · rw [clearBelow_of_lt hlt', clearBelow_of_lt (by omega), Bool.false_and]
  · rw [decide_eq_false (by omega), Bool.and_false, clearBelow_of_lt (by omega)]
  · rw [decide_eq_true (by omega), Bool.and_true, clearBelow_of_le hgt.le, clearBelow_of_le hgt]

end Window

end Words

/-! ## Sorted lists in unary -/

/-- Where the unary stream of a list has its set bits: element `h` at index `i` follows `h` clear
bits and the `i` set bits of the elements before it. -/
def unaryPositions (hs : List Nat) : List Nat :=
  hs.mapIdx fun i h => i + h

/-- The unary stream of a list. -/
def unaryBit (hs : List Nat) (k : Nat) : Bool :=
  decide (k ∈ unaryPositions hs)

variable {hs : List Nat} {h k i : Nat}

theorem length_unaryPositions (hs : List Nat) : (unaryPositions hs).length = hs.length :=
  length_mapIdx

/-- One more number sets one more bit. -/
theorem unaryBit_concat (hs : List Nat) (h k : Nat) :
    unaryBit (hs ++ [h]) k = (unaryBit hs k || decide (k = hs.length + h)) := by
  simp [unaryBit, unaryPositions]

/-- Sorted numbers have strictly increasing positions. -/
theorem pairwise_unaryPositions (hsorted : hs.Pairwise (· ≤ ·)) :
    (unaryPositions hs).Pairwise (· < ·) := by
  rw [pairwise_iff_getElem] at hsorted ⊢
  intro i j hi hj hij
  rw [length_unaryPositions] at hi hj
  have hle := hsorted i j hi hj hij
  simp only [unaryPositions, getElem_mapIdx]
  omega

/-- In a list where a property can only be lost, the elements that have it come first. -/
theorem lt_countP_iff {α : Type*} {P : α → Bool} {l : List α}
    (hdown : l.Pairwise fun a b => P b → P a) (hi : i < l.length) : i < l.countP P ↔ P l[i] := by
  induction l generalizing i with
  | nil => simp at hi
  | cons a l ih =>
    obtain ⟨hhead, htail⟩ := pairwise_cons.mp hdown
    cases hP : P a with
    | false =>
      have hnone : l.countP P = 0 := by
        rw [countP_eq_zero]
        intro b hb hPb
        rw [hhead b hb hPb] at hP
        cases hP
      rw [countP_cons_of_neg (by rw [hP]; exact Bool.false_ne_true), hnone]
      cases i with
      | zero => simp [hP]
      | succ i =>
        have hbound : i < l.length := by simpa using hi
        rw [getElem_cons_succ, ← ih htail hbound]
        omega
    | true =>
      rw [countP_cons_of_pos hP]
      cases i with
      | zero => simp [hP]
      | succ i =>
        rw [getElem_cons_succ, ← ih htail (by simpa using hi)]
        omega

theorem countP_lt_succ (l : List Nat) (k : Nat) :
    l.countP (· < k + 1) = l.countP (· < k) + l.count k := by
  induction l with
  | nil => rfl
  | cons a l ih =>
    rw [countP_cons, ih]
    rcases Nat.lt_trichotomy a k with hlt | rfl | hgt
    · simp [hlt, show a < k + 1 by omega, show ¬ a = k by omega]
      omega
    · simp
      omega
    · simp [show ¬ a < k by omega, show ¬ a < k + 1 by omega, show ¬ a = k by omega]

section

variable (hsorted : hs.Pairwise (· ≤ ·))
include hsorted

/-- The rank counts the positions before it. -/
theorem rank_unaryBit (k : Nat) : rank (unaryBit hs) k = (unaryPositions hs).countP (· < k) := by
  have hnodup : (unaryPositions hs).Nodup :=
    (pairwise_unaryPositions hsorted).imp fun hab => ne_of_lt hab
  induction k with
  | zero => simp
  | succ k ih =>
    rw [rank_succ, ih, countP_lt_succ, hnodup.count]
    by_cases hk : k ∈ unaryPositions hs <;> simp [unaryBit, hk]

/-- An element comes before a position when its index is below the rank. -/
theorem lt_rank_unaryBit_iff (hi : i < hs.length) : i < rank (unaryBit hs) k ↔ i + hs[i] < k := by
  have hdown : (unaryPositions hs).Pairwise fun a b => decide (b < k) → decide (a < k) :=
    (pairwise_unaryPositions hsorted).imp fun hab => by
      simp only [decide_eq_true_eq]
      omega
  rw [rank_unaryBit hsorted, lt_countP_iff hdown (by rw [length_unaryPositions]; exact hi)]
  simp [unaryPositions]

/-- There are no more set bits than numbers. -/
theorem rank_unaryBit_le (k : Nat) : rank (unaryBit hs) k ≤ hs.length := by
  rw [rank_unaryBit hsorted, ← length_unaryPositions hs]
  exact countP_le_length

/-- Element `i` is the set bit of rank `i`. -/
theorem selects_unaryBit (hi : i < hs.length) : Selects (unaryBit hs) i (i + hs[i]) := by
  have hle : rank (unaryBit hs) (i + hs[i]) ≤ i := by
    by_contra hlt
    have := (lt_rank_unaryBit_iff (k := i + hs[i]) hsorted hi).mp (by omega)
    omega
  refine ⟨?_, ?_⟩
  · rw [unaryBit, decide_eq_true_eq, unaryPositions, mem_mapIdx]
    exact ⟨i, hi, rfl⟩
  · cases i with
    | zero => omega
    | succ i =>
      have hbefore := pairwise_iff_getElem.mp hsorted i (i + 1) (by omega) hi (by omega)
      have hrank := (lt_rank_unaryBit_iff (k :=
        i + 1 + hs[i + 1]) hsorted (show i < hs.length by omega)).mpr
      omega

/-- The clear bit that has `h` clear bits below it follows the elements up to `h`. -/
theorem selects_not_unaryBit (h : Nat) :
    Selects (fun k => !unaryBit hs k) h (h + hs.countP (· ≤ h)) := by
  have hdown : hs.Pairwise fun a b => decide (b ≤ h) → decide (a ≤ h) :=
    hsorted.imp fun hab => by
      simp only [decide_eq_true_eq]
      omega
  have hupTo : ∀ i (hi : i < hs.length), i < hs.countP (· ≤ h) ↔ hs[i] ≤ h := by
    intro i hi
    rw [lt_countP_iff hdown hi, decide_eq_true_eq]
  have hcount : hs.countP (· ≤ h) ≤ hs.length := countP_le_length
  have hrank : rank (unaryBit hs) (h + hs.countP (· ≤ h)) = hs.countP (· ≤ h) := by
    have hle := rank_unaryBit_le hsorted (h + hs.countP (· ≤ h))
    rcases Nat.lt_trichotomy (rank (unaryBit hs) (h + hs.countP (· ≤ h))) (hs.countP (· ≤ h))
      with hlt | heq | hgt
    · have hmem := (hupTo _ (hlt.trans_le hcount)).mp hlt
      have := (lt_rank_unaryBit_iff (k := h + hs.countP (· ≤ h)) hsorted
        (hlt.trans_le hcount)).mpr (by omega)
      omega
    · exact heq
    · have hpos := (lt_rank_unaryBit_iff hsorted (hgt.trans_le hle)).mp hgt
      have := (hupTo _ (hgt.trans_le hle)).mpr (by omega)
      omega
  refine ⟨?_, ?_⟩
  · rw [not_eq_true', unaryBit, decide_eq_false_iff_not, unaryPositions, mem_mapIdx]
    rintro ⟨i, hi, heq⟩
    have := hupTo i hi
    omega
  · have hsum := rank_not (unaryBit hs) (h + hs.countP (· ≤ h))
    omega

end

end Gloop.Foundation

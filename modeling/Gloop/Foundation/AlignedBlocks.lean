import Mathlib.Data.List.Chain
import Mathlib.Data.Nat.Bitwise
import Mathlib.Algebra.Order.Group.Nat

/-!
# Intervals as unions of aligned blocks

A block is an interval of `2 ^ exp` numbers that starts at a multiple of its size. Two blocks are
disjoint or one of them contains the other (`Block.start_le_of_common`). The list that always takes
the largest block that fits (`Greedy`) therefore covers an interval with as few blocks as possible
(`Greedy.length_le`). A block that is doubled some times is made of itself and the other halves on
the way (`Block.ancestor_contains_iff`).
-/

namespace Gloop.Foundation

open List

/-- `2 ^ exp` numbers from a multiple of `2 ^ exp` on. -/
@[ext]
structure Block where
  start : Nat
  exp : Nat
  aligned : 2 ^ exp ∣ start

namespace Block

/-- The first number behind the block. -/
def stop (B : Block) : Nat :=
  B.start + 2 ^ B.exp

/-- The number is in the block. -/
def Contains (B : Block) (x : Nat) : Prop :=
  B.start ≤ x ∧ x < B.stop

instance (B : Block) (x : Nat) : Decidable (B.Contains x) :=
  inferInstanceAs (Decidable (_ ∧ _))

variable (B : Block)
include B

theorem start_lt_stop : B.start < B.stop :=
  Nat.lt_add_of_pos_right (Nat.two_pow_pos _)

theorem contains_start : B.Contains B.start :=
  ⟨le_refl _, B.start_lt_stop⟩

theorem contains_last : B.Contains (B.stop - 1) := by
  have hlt := B.start_lt_stop
  exact ⟨by omega, by omega⟩

variable {x : Nat}

omit B in
/-- Of two blocks with a common number, the one that is not larger lies in the other one. -/
theorem start_le_of_common {B C : Block} (hB : B.Contains x) (hC : C.Contains x)
    (hexp : B.exp ≤ C.exp) : C.start ≤ B.start ∧ B.stop ≤ C.stop := by
  -- both ends of the larger block are multiples of the size of the smaller one
  have hsize : 2 ^ B.exp ∣ 2 ^ C.exp := Nat.pow_dvd_pow 2 hexp
  have hstart : 2 ^ B.exp ∣ C.start := Nat.dvd_trans hsize C.aligned
  constructor
  · exact Nat.le_of_lt_add_of_dvd (lt_of_le_of_lt hC.1 hB.2) hstart B.aligned
  · have hlt : B.stop < C.stop + 2 ^ B.exp := Nat.add_lt_add_right (lt_of_le_of_lt hB.1 hC.2) _
    exact Nat.le_of_lt_add_of_dvd hlt (Nat.dvd_add B.aligned (Nat.dvd_refl _))
      (Nat.dvd_add hstart hsize)

/-! ### Halves -/

/-- No number is in both blocks. -/
def Disjoint (B C : Block) : Prop :=
  ∀ x, ¬ (B.Contains x ∧ C.Contains x)

/-- The block of twice the size that the block is a half of. -/
def parent (B : Block) : Block :=
  ⟨B.start / 2 ^ (B.exp + 1) * 2 ^ (B.exp + 1), B.exp + 1, Nat.dvd_mul_left _ _⟩

theorem xor_two_pow : B.start ^^^ 2 ^ B.exp = (B.start / 2 ^ B.exp ^^^ 1) * 2 ^ B.exp := by
  obtain ⟨q, hq⟩ := B.aligned
  rw [hq, Nat.mul_div_cancel_left _ (Nat.two_pow_pos _), mul_comm, ← Nat.shiftLeft_eq,
    ← Nat.shiftLeft_eq, Nat.shiftLeft_xor_distrib, Nat.one_shiftLeft]

/-- The other half of that block. -/
def sibling (B : Block) : Block :=
  ⟨B.start ^^^ 2 ^ B.exp, B.exp, B.xor_two_pow ▸ Nat.dvd_mul_left _ _⟩

/-- A block has the numbers with its high bits. -/
theorem contains_iff_div : B.Contains x ↔ x / 2 ^ B.exp = B.start / 2 ^ B.exp := by
  obtain ⟨q, hq⟩ := B.aligned
  have hpos := Nat.two_pow_pos B.exp
  rw [Contains, stop, hq, Nat.mul_div_cancel_left _ hpos, Nat.div_eq_iff hpos, mul_comm]
  omega

/-- The sibling has the same high bits but for the lowest of them. -/
theorem sibling_contains : B.sibling.Contains x ↔ x / 2 ^ B.exp = B.start / 2 ^ B.exp ^^^ 1 := by
  rw [contains_iff_div]
  show x / 2 ^ B.exp = (B.start ^^^ 2 ^ B.exp) / 2 ^ B.exp ↔ _
  rw [xor_two_pow, Nat.mul_div_cancel _ (Nat.two_pow_pos _)]

omit B in
theorem xor_one_div_mod (q : Nat) : (q ^^^ 1) / 2 = q / 2 ∧ (q ^^^ 1) % 2 = (q + 1) % 2 := by
  rw [Nat.xor_div_two, Nat.xor_mod_two_eq, Nat.xor_zero]
  exact ⟨rfl, rfl⟩

/-- A block and its sibling make up their parent. -/
theorem parent_contains_iff : B.parent.Contains x ↔ B.sibling.Contains x ∨ B.Contains x := by
  have hhalf := xor_one_div_mod (B.start / 2 ^ B.exp)
  have hparent : B.parent.Contains x ↔ x / 2 ^ B.exp / 2 = B.start / 2 ^ B.exp / 2 := by
    rw [contains_iff_div, Nat.div_div_eq_div_mul, Nat.div_div_eq_div_mul]
    show x / _ = B.start / 2 ^ (B.exp + 1) * 2 ^ (B.exp + 1) / 2 ^ (B.exp + 1) ↔ _
    rw [Nat.mul_div_cancel _ (Nat.two_pow_pos _)]
    rfl
  rw [hparent, sibling_contains, contains_iff_div]
  omega

/-- A block and its sibling have nothing in common. -/
theorem sibling_disjoint : B.sibling.Disjoint B := by
  rintro x ⟨hsibling, hx⟩
  have hhalf := xor_one_div_mod (B.start / 2 ^ B.exp)
  rw [sibling_contains] at hsibling
  rw [contains_iff_div] at hx
  omega

omit B in
/-- Blocks of one size with a common number are the same. -/
theorem eq_of_common {B C : Block} (hexp : B.exp = C.exp) (hB : B.Contains x)
    (hC : C.Contains x) : B = C := by
  obtain ⟨hle, -⟩ := start_le_of_common hB hC hexp.le
  obtain ⟨hge, -⟩ := start_le_of_common hC hB hexp.ge
  exact Block.ext (le_antisymm hge hle) hexp

/-- The block doubled `n` times. -/
def ancestor : Block → Nat → Block
  | B, 0 => B
  | B, n + 1 => B.parent.ancestor n

/-- The other halves on the way there. -/
def siblings : Block → Nat → List Block
  | _, 0 => []
  | B, n + 1 => B.sibling :: B.parent.siblings n

theorem exp_ancestor (n : Nat) : (B.ancestor n).exp = B.exp + n := by
  induction n generalizing B with
  | zero => rfl
  | succ n ih =>
    rw [ancestor, ih, add_comm n, ← add_assoc]
    rfl

/-- The siblings on the way up double in size. -/
theorem exp_siblings (n : Nat) : (B.siblings n).map exp = (range n).map (B.exp + ·) := by
  induction n generalizing B with
  | zero => rfl
  | succ n ih =>
    rw [siblings, map_cons, ih, range_succ_eq_map, map_cons, map_map]
    refine congrArg _ (map_congr_left fun i _ => ?_)
    show B.exp + 1 + i = B.exp + (i + 1)
    omega

/-- The halves and the block together are the doubled block. -/
theorem ancestor_contains_iff (n : Nat) :
    (B.ancestor n).Contains x ↔ (∃ C ∈ B.siblings n, C.Contains x) ∨ B.Contains x := by
  induction n generalizing B with
  | zero => simp [ancestor, siblings]
  | succ n ih =>
    rw [ancestor, ih, parent_contains_iff, siblings, exists_mem_cons_iff, or_comm, or_right_comm]

/-- The siblings on the way up do not have anything of the block. -/
theorem siblings_disjoint (n : Nat) : ∀ C ∈ B.siblings n, C.Disjoint B := by
  induction n generalizing B with
  | zero => exact nofun
  | succ n ih =>
    refine forall_mem_cons.mpr ⟨B.sibling_disjoint, fun C hC x hx => ?_⟩
    exact ih B.parent C hC x ⟨hx.1, B.parent_contains_iff.mpr (.inr hx.2)⟩

/-- The siblings on the way up do not overlap. -/
theorem pairwise_siblings (n : Nat) : (B.siblings n).Pairwise Disjoint := by
  induction n generalizing B with
  | zero => exact .nil
  | succ n ih =>
    refine .cons (fun C hC x hx => ?_) (ih B.parent)
    -- the other half lies in the doubled block, which the later halves avoid
    exact B.parent.siblings_disjoint n C hC x ⟨hx.2, B.parent_contains_iff.mpr (.inl hx.1)⟩

end Block

/-- The blocks together are the numbers from `a` up to but without `b`. -/
def Covers (blocks : List Block) (a b : Nat) : Prop :=
  ∀ x, (∃ B ∈ blocks, B.Contains x) ↔ a ≤ x ∧ x < b

/-- A block of this size may start at `a` and does not go beyond `b`. -/
def Fits (a b exp : Nat) : Prop :=
  2 ^ exp ∣ a ∧ a + 2 ^ exp ≤ b

/-- A smaller block fits where a larger one does. -/
theorem Fits.of_le {a b exp small : Nat} (h : Fits a b exp) (hle : small ≤ exp) : Fits a b small :=
  ⟨Nat.dvd_trans (Nat.pow_dvd_pow 2 hle) h.1,
    (Nat.add_le_add_left (Nat.pow_le_pow_right Nat.two_pos hle) a).trans h.2⟩

/-- The blocks follow each other from `a` to `b`, each of them as large as it can be. -/
inductive Greedy (b : Nat) : Nat → List Block → Prop
  | nil : Greedy b b []
  | cons {a : Nat} {B : Block} {blocks : List Block} (hstart : B.start = a) (hstop : B.stop ≤ b)
      (hmax : ∀ exp, Fits B.start b exp → exp ≤ B.exp) (h : Greedy b B.stop blocks) :
      Greedy b a (B :: blocks)

namespace Greedy

variable {a b : Nat} {blocks : List Block}

/-- The greedy blocks cover the range. -/
theorem covers (h : Greedy b a blocks) : Covers blocks a b := by
  induction h with
  | nil =>
    intro x
    simp
  | @cons a B blocks hstart hstop hmax h ih =>
    intro x
    have hlt := B.start_lt_stop
    rw [exists_mem_cons_iff, ih, Block.Contains]
    omega

/-- Each block starts where the one before it ends. -/
theorem isChain (h : Greedy b a blocks) : blocks.IsChain fun B C => C.start = B.stop := by
  induction h with
  | nil => exact .nil
  | @cons a B blocks hstart hstop hmax h ih =>
    cases h with
    | nil => exact .singleton B
    | cons hstart' hstop' hmax' h => exact .cons_cons hstart' ih

/-- A block of any exact cover that is not within the first greedy block starts behind it. -/
theorem stop_le_of_not_contains {B C : Block} (hmax : ∀ exp, Fits B.start b exp → exp ≤ B.exp)
    (hC : B.start ≤ C.start ∧ C.stop ≤ b) {x : Nat} (hx : C.Contains x) (hlarge : B.stop ≤ x) :
    B.stop ≤ C.start := by
  by_contra hbefore
  have hcommon : B.Contains C.start := ⟨hC.1, Nat.lt_of_not_le hbefore⟩
  rcases le_total C.exp B.exp with hexp | hexp
  · -- the block is within the greedy one, which ends before the number
    have hin := (Block.start_le_of_common C.contains_start hcommon hexp).2
    exact absurd (lt_of_lt_of_le hx.2 hin) (not_lt.mpr hlarge)
  · -- the block starts with the greedy one, which is the largest there
    have hstart := (Block.start_le_of_common hcommon C.contains_start hexp).1
    have heq : C.start = B.start := le_antisymm hstart hC.1
    have hle : C.exp ≤ B.exp := hmax C.exp ⟨heq ▸ C.aligned, heq ▸ hC.2⟩
    have hin := (Block.start_le_of_common C.contains_start hcommon hle).2
    exact absurd (lt_of_lt_of_le hx.2 hin) (not_lt.mpr hlarge)

/-- No exact cover has fewer blocks. -/
theorem length_le (h : Greedy b a blocks) {others : List Block} (hothers : Covers others a b) :
    blocks.length ≤ others.length := by
  induction h generalizing others with
  | nil => exact zero_le
  | @cons a B blocks hstart hstop hmax h ih =>
    subst hstart
    have hbounds : ∀ C ∈ others, B.start ≤ C.start ∧ C.stop ≤ b := by
      intro C hC
      have hfirst := (hothers C.start).mp ⟨C, hC, C.contains_start⟩
      have hlast := (hothers (C.stop - 1)).mp ⟨C, hC, C.contains_last⟩
      exact ⟨hfirst.1, by omega⟩
    -- the blocks behind the greedy one cover the rest
    have hrest : Covers (others.filter fun C => B.stop ≤ C.start) B.stop b := by
      intro x
      constructor
      · rintro ⟨C, hC, hx⟩
        obtain ⟨hC, hbehind⟩ := mem_filter.mp hC
        exact ⟨(of_decide_eq_true hbehind).trans hx.1, lt_of_lt_of_le hx.2 (hbounds C hC).2⟩
      · rintro ⟨hlarge, hlt⟩
        obtain ⟨C, hC, hx⟩ := (hothers x).mpr ⟨(le_of_lt B.start_lt_stop).trans hlarge, hlt⟩
        have hbehind := stop_le_of_not_contains hmax (hbounds C hC) hx hlarge
        exact ⟨C, mem_filter.mpr ⟨hC, decide_eq_true hbehind⟩, hx⟩
    -- and the one with the first number is not among them
    obtain ⟨C, hC, hx⟩ := (hothers B.start).mpr ⟨le_refl _, lt_of_lt_of_le B.start_lt_stop hstop⟩
    have hfewer : (others.filter fun C => B.stop ≤ C.start).length < others.length := by
      refine length_filter_lt_length_iff_exists.mpr ⟨C, hC, ?_⟩
      have hlt := B.start_lt_stop
      have hle := hx.1
      simp only [decide_eq_true_eq]
      omega
    exact Nat.succ_le_of_lt (lt_of_le_of_lt (ih hrest) hfewer)

end Greedy

end Gloop.Foundation

import Gloop.Foundation.BitString
import Mathlib.Algebra.Order.Field.Rat
import Mathlib.Data.List.Nodup
import Mathlib.Data.List.Perm.Subperm
import Mathlib.Tactic.FieldSimp

/-!
# Prefix codes and their tables

A code word is a bit string, kept as a number and a length. A decoding table of a given depth has an
entry for each bit string of that length, and a code word fills the entries that it begins.
`perm_range_of_kraft` says that the words of a prefix code with Kraft sum 1 fill each entry once;
with a smaller sum there is an empty entry, and with a larger one two words fill the same entry.
-/

namespace Gloop.Foundation

open List Nat

/-- A code word, with its first bit in the lowest bit of the number. -/
structure CodeWord where
  length : Nat
  value : Nat
  value_lt : value < 2 ^ length

namespace CodeWord

/-- The bits of a code word. -/
def bits (w : CodeWord) : List Bool :=
  toBits w.value w.length

/-- The entries that a code word fills in a table, in increasing order. -/
def entries (depth : Nat) (w : CodeWord) : List Nat :=
  (List.range (2 ^ (depth - w.length))).map fun extra => w.value + 2 ^ w.length * extra

@[simp] theorem length_bits (w : CodeWord) : w.bits.length = w.length :=
  length_toBits _ _

@[simp] theorem length_entries (depth : Nat) (w : CodeWord) :
    (w.entries depth).length = 2 ^ (depth - w.length) := by
  rw [entries, length_map, length_range]

/-- The entries of a code word are different. -/
theorem nodup_entries (depth : Nat) (w : CodeWord) : (w.entries depth).Nodup := by
  refine List.Nodup.map ?_ nodup_range
  intro extra extra' h
  exact Nat.eq_of_mul_eq_mul_left (Nat.two_pow_pos w.length) (add_left_cancel h)

/-- A word begins the bits of a number when it is the low part of the number. -/
theorem bits_isPrefix_iff (w : CodeWord) (n k : Nat) :
    w.bits <+: toBits n k ↔ w.length ≤ k ∧ n % 2 ^ w.length = w.value := by
  constructor
  · intro h
    have hle : w.length ≤ k := by simpa using h.length_le
    have hsplit := toBits_add n w.length (k - w.length)
    rw [Nat.add_sub_cancel' hle] at hsplit
    obtain ⟨rest, hrest⟩ := h
    rw [hsplit] at hrest
    have htake : w.bits = toBits n w.length := (append_inj hrest (by simp)).1
    refine ⟨hle, toBits_inj (mod_lt _ (Nat.two_pow_pos _)) w.value_lt ?_⟩
    rw [toBits_mod (le_refl _), ← htake, bits]
  · rintro ⟨hle, hvalue⟩
    have hsplit := toBits_add n w.length (k - w.length)
    rw [Nat.add_sub_cancel' hle, ← toBits_mod (le_refl w.length), hvalue] at hsplit
    exact ⟨_, hsplit.symm⟩

/-- The entries of a code word are those that start with it. -/
theorem mem_entries_iff {depth : Nat} {w : CodeWord} (hle : w.length ≤ depth) (p : Nat) :
    p ∈ w.entries depth ↔ p < 2 ^ depth ∧ w.bits <+: toBits p depth := by
  have hpow : 2 ^ w.length * 2 ^ (depth - w.length) = 2 ^ depth := by
    rw [← pow_add, Nat.add_sub_cancel' hle]
  rw [bits_isPrefix_iff, entries, mem_map]
  constructor
  · rintro ⟨extra, hextra, rfl⟩
    have hlt := w.value_lt
    have hle' := Nat.mul_le_mul_left (2 ^ w.length) (mem_range.mp hextra)
    refine ⟨?_, hle, ?_⟩
    · rw [mul_add_one] at hle'
      omega
    · rw [add_mul_mod_self_left, mod_eq_of_lt hlt]
  · rintro ⟨hp, -, hvalue⟩
    refine ⟨p / 2 ^ w.length, ?_, ?_⟩
    · rw [mem_range, Nat.div_lt_iff_lt_mul (Nat.two_pow_pos _), mul_comm, hpow]
      exact hp
    · rw [← hvalue, mod_add_div]

end CodeWord

/-! ## Tables -/

/-- The entries that the words fill, in order. -/
def filled (depth : Nat) (words : List CodeWord) : List Nat :=
  words.flatMap (CodeWord.entries depth)

/-- The number of entries that words of the given lengths fill. -/
def kraftCount (depth : Nat) (lengths : List Nat) : Nat :=
  (lengths.map fun length => 2 ^ (depth - length)).sum

/-- No word begins another one. -/
def PrefixFree (words : List CodeWord) : Prop :=
  words.Pairwise fun w v => ¬ w.bits <+: v.bits ∧ ¬ v.bits <+: w.bits

section Tables

variable {depth : Nat} {words : List CodeWord}

/-- The number of entries that code words fill. -/
theorem length_filled (depth : Nat) (words : List CodeWord) :
    (filled depth words).length = kraftCount depth (words.map CodeWord.length) := by
  rw [filled, length_flatMap, kraftCount, map_map]
  exact congrArg sum (map_congr_left fun w _ => w.length_entries depth)

/-- Two words that begin the same string begin one another. -/
theorem isPrefix_of_mem_entries {w v : CodeWord} (hw : w.length ≤ depth) (hv : v.length ≤ depth)
    {p : Nat} (hpw : p ∈ w.entries depth) (hpv : p ∈ v.entries depth) :
    w.bits <+: v.bits ∨ v.bits <+: w.bits :=
  prefix_or_prefix_of_prefix ((CodeWord.mem_entries_iff hw p).mp hpw).2
    ((CodeWord.mem_entries_iff hv p).mp hpv).2

variable (hdepth : ∀ w ∈ words, w.length ≤ depth)
include hdepth

/-- Words without common prefixes fill different entries. -/
theorem nodup_filled (hfree : PrefixFree words) : (filled depth words).Nodup := by
  rw [filled, nodup_flatMap]
  refine ⟨fun w _ => w.nodup_entries depth, ?_⟩
  refine List.Pairwise.imp_of_mem (fun {w v} hw hv hwv => ?_) hfree
  intro p hpw hpv
  rcases isPrefix_of_mem_entries (hdepth w hw) (hdepth v hv) hpw hpv with h | h
  · exact hwv.1 h
  · exact hwv.2 h

theorem filled_subset : filled depth words ⊆ range (2 ^ depth) := by
  intro p hp
  obtain ⟨w, hw, hpw⟩ := mem_flatMap.mp hp
  exact mem_range.mpr ((CodeWord.mem_entries_iff (hdepth w hw) p).mp hpw).1

/-- A prefix code with Kraft sum 1 fills each entry once. -/
theorem perm_range_of_kraft (hfree : PrefixFree words)
    (hkraft : kraftCount depth (words.map CodeWord.length) = 2 ^ depth) :
    (filled depth words).Perm (range (2 ^ depth)) := by
  refine (subperm_of_subset (nodup_filled hdepth hfree) (filled_subset hdepth)).perm_of_length_le ?_
  rw [length_filled, hkraft, length_range]

omit hdepth in
/-- With a Kraft sum below 1 there is an entry that no word fills. -/
theorem exists_not_filled (hkraft : kraftCount depth (words.map CodeWord.length) < 2 ^ depth) :
    ∃ p < 2 ^ depth, p ∉ filled depth words := by
  by_contra hall
  push Not at hall
  have hsub : range (2 ^ depth) ⊆ filled depth words :=
    fun p hp => hall p (mem_range.mp hp)
  have hle := (subperm_of_subset nodup_range hsub).length_le
  rw [length_filled, length_range] at hle
  omega

/-- With a Kraft sum above 1 two words fill the same entry. -/
theorem exists_filled_twice (hkraft : 2 ^ depth < kraftCount depth (words.map CodeWord.length)) :
    ∃ (i j : Nat) (hi : i < words.length) (hj : j < words.length) (p : Nat), i < j ∧
      p ∈ words[i].entries depth ∧ p ∈ words[j].entries depth := by
  by_contra hnone
  push Not at hnone
  have hnodup : (filled depth words).Nodup := by
    rw [filled, nodup_flatMap]
    refine ⟨fun w _ => w.nodup_entries depth, pairwise_iff_getElem.mpr ?_⟩
    intro i j hi hj hij p hpi hpj
    exact hnone i j hi hj p hij hpi hpj
  have hle := (subperm_of_subset hnodup (filled_subset hdepth)).length_le
  rw [length_filled, length_range] at hle
  omega

end Tables

/-- The Kraft sum in terms of table entries. -/
theorem kraftCount_eq {depth : Nat} {lengths : List Nat} (hdepth : ∀ l ∈ lengths, l ≤ depth) :
    (kraftCount depth lengths : ℚ) = 2 ^ depth * (lengths.map fun l => (1 / 2 ^ l : ℚ)).sum := by
  induction lengths with
  | nil => simp [kraftCount]
  | cons l lengths ih =>
    have hl := hdepth l mem_cons_self
    have ih := ih fun l h => hdepth l (mem_cons_of_mem _ h)
    have hpow : (2 : ℚ) ^ depth = 2 ^ l * 2 ^ (depth - l) := by
      rw [← pow_add, Nat.add_sub_cancel' hl]
    rw [kraftCount] at ih
    rw [kraftCount, map_cons, sum_cons, map_cons, sum_cons, cast_add, ih, hpow]
    push_cast
    field_simp

end Gloop.Foundation

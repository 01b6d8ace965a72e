import Gloop.Coding.Huffman.CountingSort
import Gloop.Coding.BitCoding.Encode
import Gloop.Foundation.PrefixCode
import Mathlib.Algebra.Order.BigOperators.Group.List

/-!
# The codes that `InitializeEncoder` assigns

The codes of length `L` are numbers of `L` bits, highest bit first in the stream. They are assigned
downwards from `lastCode`, which counts the codes of length `L` and all strings of that length that
begin with a shorter code. `initializeEncoder_tabulate` gives the whole table for every vector of
lengths. Where the Kraft sum of the lengths is at most 1, the codes of length `L` fit in `L` bits,
and no code begins another: a longer code, cut to the length of a shorter one, is above all codes of
that length.
-/

namespace Gloop.Coding.Huffman

open Gloop.Foundation List Nat

section

/-! ## `ReverseBits` -/

/-- Where `swapGroups` takes a bit from. -/
def swapIndex (shift j : Nat) : Nat :=
  if j / shift % 2 = 0 then j + shift else j - shift

/-- Groups of bits change places. -/
theorem getLsbD_swapGroups (n : BitVec 32) {shift : Nat} {mask : BitVec 32} (hshift : 0 < shift)
    (hmask : ∀ j < 32, mask.getLsbD j = decide (j / shift % 2 = 0)) {j : Nat} (hj : j < 32) :
    (swapGroups n shift mask).getLsbD j = n.getLsbD (swapIndex shift j) := by
  rw [swapGroups, BitVec.getLsbD_or, BitVec.getLsbD_and,
    BitVec.getLsbD_shiftLeft, BitVec.getLsbD_and, hmask j hj, hmask (j - shift) (by omega),
      swapIndex]
  by_cases hlow : j < shift
  · simp [div_eq_of_lt hlow, hlow, add_comm]
  · have hdiv : j / shift = (j - shift) / shift + 1 := by
      rw [← add_div_right _ hshift, Nat.sub_add_cancel (by omega)]
    rcases mod_two_eq_zero_or_one ((j - shift) / shift) with heven | hodd
    · have hodd : j / shift % 2 = 1 := by omega
      simp [heven, hodd, hj, hlow]
    · have heven : j / shift % 2 = 0 := by omega
      simp [heven, hodd, add_comm]

/-- All bits of a word in reverse order. -/
theorem getLsbD_reverseBits32 (n : BitVec 32) {j : Nat} (hj : j < 32) :
    (reverseBits32 n).getLsbD j = n.getLsbD (31 - j) := by
  have hindex : ∀ j < 32, swapIndex 16 j < 32 ∧ swapIndex 8 (swapIndex 16 j) < 32 ∧
      swapIndex 4 (swapIndex 8 (swapIndex 16 j)) < 32 ∧
      swapIndex 2 (swapIndex 4 (swapIndex 8 (swapIndex 16 j))) < 32 ∧
      swapIndex 1 (swapIndex 2 (swapIndex 4 (swapIndex 8 (swapIndex 16 j)))) = 31 - j := by decide
  obtain ⟨h16, h8, h4, h2, hfinal⟩ := hindex j hj
  rw [reverseBits32, bswap32, getLsbD_swapGroups _ (by decide) (by decide) hj,
    getLsbD_swapGroups _ (by decide) (by decide) h16, getLsbD_swapGroups _ (by decide)
    (by decide) h8,
    getLsbD_swapGroups _ (by decide) (by decide) h4,
    getLsbD_swapGroups _ (by decide) (by decide) h2, hfinal]

/-- The low bits of a word in reverse order. -/
theorem getLsbD_reverseBits {n : Nat} (hn : n ≤ 32) (x : BitVec 32) (j : Nat) :
    (reverseBits n x).getLsbD j = (decide (j < n) && x.getLsbD (n - 1 - j)) := by
  by_cases hzero : n = 0
  · simp [reverseBits, hzero]
  · rw [reverseBits, if_neg hzero, BitVec.getLsbD_ushiftRight]
    by_cases hj : j < n
    · rw [getLsbD_reverseBits32 _ (by omega), decide_eq_true hj]
      congr 1
      omega
    · rw [BitVec.getLsbD_of_ge _ _ (by omega), decide_eq_false hj, Bool.false_and]

theorem toNat_reverseBits_lt {n : Nat} (hn : n ≤ 32) (x : BitVec 32) :
    (reverseBits n x).toNat < 2 ^ n := by
  apply lt_pow_two_of_testBit
  intro j hj
  rw [BitVec.testBit_toNat, getLsbD_reverseBits hn, decide_eq_false (by omega), Bool.false_and]

/-- The bits in reverse order. -/
theorem toBits_reverseBits {n : Nat} (hn : n ≤ 32) (x : BitVec 32) :
    toBits (reverseBits n x).toNat n = (toBits x.toNat n).reverse := by
  apply ext_getElem?
  intro j
  by_cases hj : j < n
  · rw [getElem?_reverse (by rwa [length_toBits]), getElem?_toBits, getElem?_toBits,
      length_toBits, if_pos hj, if_pos (by omega), BitVec.testBit_toNat, BitVec.testBit_toNat,
      getLsbD_reverseBits hn, decide_eq_true hj, Bool.true_and]
  · rw [getElem?_eq_none (by rw [length_toBits]; omega),
      getElem?_eq_none (by rw [length_reverse, length_toBits]; omega)]

/-! ## Table entries -/

variable {L : Nat}

theorem toNat_reverseBits_lt_entry (hL : L ≤ 27) (encoding : BitVec 32) :
    (reverseBits L encoding).toNat < 2 ^ 27 :=
  (toNat_reverseBits_lt (by omega) encoding).trans_le (Nat.pow_le_pow_right (by omega) hL)

/-- An entry of the encoder has a length and a code. -/
theorem toNat_tableEntry (hL : L ≤ 27) (encoding : BitVec 32) :
    (tableEntry L encoding).toNat = 2 ^ 27 * L + (reverseBits L encoding).toNat := by
  have hlt := toNat_reverseBits_lt_entry hL encoding
  have hshift : (BitVec.ofNat 32 L <<< 27).toNat = 2 ^ 27 * L := by
    rw [BitVec.toNat_shiftLeft, BitVec.toNat_ofNat]
    omega
  rw [tableEntry, BitVec.toNat_or, hshift, two_pow_add_eq_or_of_lt hlt]

theorem toNat_tableEntry_length (hL : L ≤ 27) (encoding : BitVec 32) :
    (tableEntry L encoding >>> 27).toNat = L := by
  have hlt := toNat_reverseBits_lt_entry hL encoding
  rw [BitVec.toNat_ushiftRight, toNat_tableEntry hL]
  omega

theorem toNat_tableEntry_encoding (hL : L ≤ 27) (encoding : BitVec 32) :
    (tableEntry L encoding &&& 0x7FFFFFF#32).toNat = (reverseBits L encoding).toNat := by
  have hlt := toNat_reverseBits_lt_entry hL encoding
  rw [BitVec.toNat_and, toNat_tableEntry hL, show (0x7FFFFFF#32).toNat = 2 ^ 27 - 1 from rfl,
    and_two_pow_sub_one_eq_mod]
  omega

/-! ## Assigning the codes -/

section Assign

variable (len : Nat → Nat) (n : Nat)

/-- The variable `last` after the round for length `L`, without the wrap of its type. -/
def lastCode : Nat → Nat
  | 0 => 0
  | L + 1 => 2 * lastCode L + lengthCount len n (L + 1)

/-- The code of a symbol as a number, highest bit first. -/
def codeNumber (s : Nat) : Nat :=
  lastCode len n (len s) - 1 - rank len s

/-- The table entry of a symbol. -/
def symbolEntry (s : Nat) : BitVec 32 :=
  tableEntry (len s) (BitVec.ofNat 32 (codeNumber len n s))

/-- There are as many code numbers as symbols of a length. -/
theorem lengthCount_le_lastCode (hL : 1 ≤ L) : lengthCount len n L ≤ lastCode len n L := by
  obtain ⟨L, rfl⟩ := Nat.exists_eq_add_of_le' hL
  rw [lastCode]
  omega

/-- The inner loop, after `i` of the symbols of length `L`. -/
def Assigned (L i : Nat) (t : List (Option (BitVec 32))) : Prop :=
  ∃ entry, t = tabulate n entry ∧
    ∀ s < n, len s < L ∨ (len s = L ∧ rank len s < i) → entry s = some (symbolEntry len n s)

variable {len n} {place : Nat → Option Symbol}

/-- A code number goes to the next symbol of its length. -/
theorem assignCode_step (hplace : ∀ s < n, place (slot len n s) = some ⟨s, len s⟩) {k i : Nat}
    (hL : 1 ≤ L) (hk : (range (lengthCount len n L))[k]? = some i) {t : List (Option (BitVec 32))}
    (ht : Assigned len n L k t) : ∃ t', assignCode (tabulate n place) L (shorterCount len n L)
      (BitVec.ofNat 32 (lastCode len n L))
        t i = some t' ∧ Assigned len n L (k + 1) t' := by
  obtain ⟨hi, rfl⟩ : k < lengthCount len n L ∧ k = i := by
    simpa using List.getElem?_eq_some_iff.mp hk
  obtain ⟨entry, rfl, hentry⟩ := ht
  obtain ⟨s₀, hs₀, hlen, hrank⟩ := exists_rank hi
  have hslot : shorterCount len n L + k = slot len n s₀ := by rw [slot, hlen, hrank]
  have hread : (tabulate n place)[shorterCount len n L + k]?.join = some ⟨s₀, L⟩ := by
    rw [hslot, getElem?_tabulate (slot_lt len hs₀), hplace s₀ hs₀, hlen]
    rfl
  have hlast := lengthCount_le_lastCode len n hL
  have hcode : BitVec.ofNat 32 (lastCode len n L) - 1#32 - BitVec.ofNat 32 k =
      BitVec.ofNat 32 (codeNumber len n s₀) := by
    rw [codeNumber, hlen, hrank, ofNat_sub_ofNat (by omega), ofNat_sub_ofNat (by omega)]
  refine ⟨tabulate n (Function.update entry s₀ (some (symbolEntry len n s₀))), ?_, _, rfl, ?_⟩
  · simp only [assignCode, hread, Option.bind_eq_bind, Option.bind_some, if_pos, hcode,
      assign_tabulate hs₀]
    rw [symbolEntry, hlen]
  · intro s hs hbefore
    by_cases heq : s = s₀
    · rw [heq, Function.update_self]
    · rw [Function.update_of_ne heq]
      apply hentry s hs
      rcases hbefore with hshort | ⟨hsame, hlt⟩
      · exact Or.inl hshort
      · have hne : rank len s ≠ k :=
          fun h => heq (rank_injective (hsame.trans hlen.symm) (h.trans hrank.symm))
        exact Or.inr ⟨hsame, by omega⟩

/-- The outer loop, after the rounds for the lengths up to `L`. -/
structure AssignedAll (len : Nat → Nat) (n L : Nat) (state : AssignState) : Prop where
  last : state.last = BitVec.ofNat 32 (lastCode len n L)
  index : state.index = shorterCount len n (L + 1)
  t : Assigned len n (L + 1) 0 state.t

/-- The symbols of one more length get their code numbers. -/
theorem assignCodes_step (hplace : ∀ s < n, place (slot len n s) = some ⟨s, len s⟩)
    {maxLength k : Nat} (hmax : maxLength < 32) (hk : (range' 1 maxLength)[k]? = some L)
    {state : AssignState} (hstate : AssignedAll len n k state) :
    ∃ state', assignCodes (tabulate 32 (lengthCount len n))
      (tabulate n place) state L = some state' ∧ AssignedAll len n (k + 1) state' := by
  obtain ⟨hlt, rfl⟩ : k < maxLength ∧ 1 + k = L := by simpa using List.getElem?_eq_some_iff.mp hk
  rw [add_comm]
  have hcount := getElem?_tabulate (show k + 1 < 32 by omega) (lengthCount len n)
  have hlast : 2#32 * state.last + BitVec.ofNat 32 (lengthCount len n (k + 1)) =
      BitVec.ofNat 32 (lastCode len n (k + 1)) := by
    rw [hstate.last, lastCode, BitVec.ofNat_add, BitVec.ofNat_mul]
  obtain ⟨t, hfold, hassigned⟩ := foldlM_invariant (Assigned len n (k + 1)) hstate.t
    fun _ _ _ hi => assignCode_step hplace (le_add_left 1 k) hi
  rw [length_range] at hassigned
  have hindex := (shorterCount_succ len n (k + 1)).symm
  refine ⟨⟨BitVec.ofNat 32 (lastCode len n (k + 1)), shorterCount len n (k + 1 + 1), t⟩, ?_, rfl,
    rfl, ?_⟩
  · simp only [assignCodes, hcount, hlast, hstate.index, hindex, Option.bind_eq_bind,
      Option.bind_some, hfold]
    rfl
  · obtain ⟨entry, ht, hentry⟩ := hassigned
    refine ⟨entry, ht, fun s hs hbefore => hentry s hs ?_⟩
    rcases hbefore with hshort | ⟨-, hneg⟩
    · rcases Nat.lt_succ_iff_lt_or_eq.mp hshort with hlt | heq
      · exact Or.inl hlt
      · exact Or.inr ⟨heq, heq ▸ rank_lt hs⟩
    · exact absurd hneg (not_lt_zero _)

/-- Every symbol gets its entry, whatever the lengths are. -/
theorem initializeEncoder_tabulate (hn : n ≠ 1) (hlen : ∀ s < n, 1 ≤ len s ∧ len s < 32) :
    (HuffmanCode.mk (tabulate n len)).initializeEncoder =
      some ⟨n, tabulate n fun s => some (symbolEntry len n s)⟩ := by
  obtain ⟨maxLength, hcounts, hmax, hle⟩ := countLength_spec fun s hs => (hlen s hs).2
  obtain ⟨place, hsort, hplace⟩ :=
    countingSortByLength_spec (fun s hs => (hlen s hs).1) hmax hle
  have hsymbols : (tabulate n len).mapIdx Symbol.mk = symbols len n := by
    apply ext_getElem?
    intro i
    by_cases hi : i < n
    · rw [getElem?_mapIdx, getElem?_tabulate hi, symbols, getElem?_tabulate hi]
      rfl
    · rw [getElem?_eq_none (by simp; omega), getElem?_eq_none (by simp [symbols]; omega)]
  have hinit : AssignedAll len n 0 ⟨0, 0, replicate n none⟩ := by
    refine ⟨rfl, (shorterCount_one len n fun s hs => (hlen s hs).1).symm, _,
      replicate_eq_tabulate n none, fun s hs hbefore => ?_⟩
    have := (hlen s hs).1
    omega
  obtain ⟨final, hfold, hfinal⟩ := foldlM_invariant (AssignedAll len n) hinit
    fun k L state hk => assignCodes_step hplace hmax hk
  rw [length_range'] at hfinal
  obtain ⟨entry, ht, hentry⟩ := hfinal.t
  simp only [HuffmanCode.initializeEncoder, length_tabulate, if_neg hn, hsymbols, hcounts, hsort,
    Option.bind_eq_bind, Option.bind_some, hfold]
  rw [ht]
  have hall : tabulate n entry = tabulate n fun s => some (symbolEntry len n s) :=
    tabulate_congr fun s hs => hentry s hs (Or.inl (lt_succ_of_le (hle s hs)))
  rw [hall]
  rfl

end Assign

end

/-! ## The assigned codes form a prefix code -/

/-- The code of a table entry: its low bits, as many as its five highest bits say. -/
def entryWord (v : BitVec 32) : CodeWord :=
  ⟨(v >>> 27).toNat, v.toNat % 2 ^ (v >>> 27).toNat, mod_lt _ (Nat.two_pow_pos _)⟩

/-- The codes of the symbols. -/
def codeWords (len : Nat → Nat) (n : Nat) : List CodeWord :=
  tabulate n fun s => entryWord (symbolEntry len n s)

section Words

variable {len : Nat → Nat} {n s : Nat}

theorem getElem_codeWords {k : Nat} (hk : k < (codeWords len n).length) :
    (codeWords len n)[k] = entryWord (symbolEntry len n k) := by
  rw [← Option.some_inj, ← getElem?_eq_getElem, codeWords,
    getElem?_tabulate (by simpa [codeWords] using hk)]

theorem length_entryWord (hlen : len s ≤ 27) : (entryWord (symbolEntry len n s)).length = len s :=
  toNat_tableEntry_length hlen _

/-- A code word is a code number in reverse order. -/
theorem value_entryWord (hlen : len s ≤ 27) : (entryWord (symbolEntry len n s)).value =
      (reverseBits (len s) (BitVec.ofNat 32 (codeNumber len n s))).toNat := by
  have hpow : 2 ^ 27 = 2 ^ len s * 2 ^ (27 - len s) := by
    rw [← pow_add, Nat.add_sub_cancel' hlen]
  show (symbolEntry len n s).toNat % 2 ^ (symbolEntry len n s >>> 27).toNat = _
  rw [symbolEntry, toNat_tableEntry_length hlen, toNat_tableEntry hlen, hpow, mul_assoc,
    mul_add_mod, mod_eq_of_lt (toNat_reverseBits_lt (by omega) _)]

/-- The stream has the code of a symbol highest bit first. -/
theorem bits_entryWord (hlen : len s ≤ 27) :
    (entryWord (symbolEntry len n s)).bits = (toBits (codeNumber len n s) (len s)).reverse := by
  rw [CodeWord.bits, value_entryWord hlen, length_entryWord hlen, toBits_reverseBits (by omega),
    BitVec.toNat_ofNat, toBits_mod (by omega)]

end Words

/-! ## The Kraft sum -/

section Kraft

variable (len : Nat → Nat) (n depth : Nat)

/-- The part of the Kraft count for codes of length at most `L`. -/
def partialKraft (L : Nat) : Nat :=
  ((List.range n).map fun s => if len s ≤ L then 2 ^ (depth - len s) else 0).sum

/-- The Kraft sum of one more length. -/
theorem partialKraft_succ (L : Nat) : partialKraft len n depth (L + 1) =
      partialKraft len n depth L + lengthCount len n (L + 1) * 2 ^ (depth - (L + 1)) := by
  unfold partialKraft lengthCount
  induction n with
  | zero => simp
  | succ n ih =>
    rw [range_succ, map_append, map_append, sum_append_nat, sum_append_nat, ih, count_succ]
    simp only [map_singleton, sum_singleton]
    by_cases heq : len n = L + 1
    · rw [if_pos (by omega), if_neg (by omega), if_pos heq, heq]
      ring
    · by_cases hle : len n ≤ L
      · rw [if_pos (by omega), if_pos hle, if_neg heq]
        ring
      · rw [if_neg (by omega), if_neg hle, if_neg heq]
        ring

/-- The Kraft sum of some lengths is at most that of all. -/
theorem partialKraft_le (L : Nat) :
    partialKraft len n depth L ≤ kraftCount depth (tabulate n len) := by
  rw [kraftCount, tabulate, map_map]
  refine sum_le_sum fun s _ => ?_
  split
  next => exact le_refl _
  next => exact zero_le

variable {len n depth}

/-- The last code number of a length shows the Kraft sum up to it. -/
theorem lastCode_mul (hlen : ∀ s < n, 1 ≤ len s) {L : Nat} (hL : L ≤ depth) :
    lastCode len n L * 2 ^ (depth - L) = partialKraft len n depth L := by
  induction L with
  | zero =>
    rw [lastCode, Nat.zero_mul]
    refine (sum_eq_zero fun x hx => ?_).symm
    obtain ⟨s, hs, rfl⟩ := mem_map.mp hx
    have := hlen s (mem_range.mp hs)
    exact if_neg (by omega)
  | succ L ih =>
    have hpow : 2 ^ (depth - L) = 2 * 2 ^ (depth - (L + 1)) := by
      rw [show depth - L = depth - (L + 1) + 1 by omega, pow_succ, mul_comm]
    rw [partialKraft_succ, ← ih (by omega), lastCode, hpow]
    ring

/-- The codes of a length fit in it. -/
theorem lastCode_le (hlen : ∀ s < n, 1 ≤ len s)
    (hkraft : kraftCount depth (tabulate n len) ≤ 2 ^ depth)
    {L : Nat} (hL : L ≤ depth) : lastCode len n L ≤ 2 ^ L := by
  have hle := (partialKraft_le len n depth L).trans hkraft
  rw [← lastCode_mul hlen hL, show 2 ^ depth = 2 ^ L * 2 ^ (depth - L) by
    rw [← pow_add, Nat.add_sub_cancel' hL]] at hle
  exact Nat.le_of_mul_le_mul_right hle (Nat.two_pow_pos _)

/-! ## No code begins another -/

/-- The code numbers of a length count down from the last one. -/
theorem codeNumber_bounds {s : Nat} (hs : s < n) (hlen : 1 ≤ len s) :
    2 * lastCode len n (len s - 1) ≤ codeNumber len n s ∧
      codeNumber len n s + rank len s + 1 = lastCode len n (len s) := by
  have hrank : rank len s < lengthCount len n (len s) := rank_lt hs
  have hlast : lastCode len n (len s) = 2 * lastCode len n (len s - 1) +
      lengthCount len n (len s) := by
    obtain ⟨L, hL⟩ := Nat.exists_eq_add_of_le' hlen
    rw [hL, lastCode, Nat.add_sub_cancel]
  unfold codeNumber
  omega

/-- Later code numbers leave those of shorter words behind. -/
theorem lastCode_add (len : Nat → Nat) (n L k : Nat) :
    2 ^ k * lastCode len n L ≤ lastCode len n (L + k) := by
  induction k with
  | zero => rw [pow_zero, one_mul, add_zero]
  | succ k ih =>
    calc 2 ^ (k + 1) * lastCode len n L = 2 * (2 ^ k * lastCode len n L) := by
          rw [pow_succ, mul_comm (2 ^ k), mul_assoc]
      _ ≤ 2 * lastCode len n (L + k) := Nat.mul_le_mul_left 2 ih
      _ ≤ lastCode len n (L + (k + 1)) := by rw [← add_assoc, lastCode]; omega

/-- The first part of a longer code is above all codes of that length. -/
theorem lastCode_le_div {s s' : Nat} (hs' : s' < n) (hlen : 1 ≤ len s') (hless : len s < len s') :
    lastCode len n (len s) ≤ codeNumber len n s' / 2 ^ (len s' - len s) := by
  rw [Nat.le_div_iff_mul_le (Nat.two_pow_pos _)]
  have hadd := lastCode_add len n (len s) (len s' - len s - 1)
  rw [show len s + (len s' - len s - 1) = len s' - 1 by omega] at hadd
  calc lastCode len n (len s) * 2 ^ (len s' - len s)
      = 2 * (2 ^ (len s' - len s - 1) * lastCode len n (len s)) := by
        rw [show len s' - len s = len s' - len s - 1 + 1 by omega]
        simp only [Nat.add_sub_cancel]
        ring
    _ ≤ 2 * lastCode len n (len s' - 1) := Nat.mul_le_mul_left 2 hadd
    _ ≤ codeNumber len n s' := (codeNumber_bounds hs' hlen).1

/-- Only the same symbol has a code that starts with its own. -/
theorem eq_of_isPrefix (hlen : ∀ s < n, 1 ≤ len s ∧ len s ≤ depth) (hdepth : depth ≤ 27)
    (hkraft : kraftCount depth (tabulate n len) ≤ 2 ^ depth) {s s' : Nat} (hs : s < n)
    (hs' : s' < n)
    (h : (entryWord (symbolEntry len n s)).bits <+: (entryWord (symbolEntry len n s')).bits) :
      s = s' := by
  obtain ⟨hpos, hle⟩ := hlen s hs
  obtain ⟨hpos', hle'⟩ := hlen s' hs'
  obtain ⟨-, hnumber⟩ := codeNumber_bounds hs hpos
  obtain ⟨-, hnumber'⟩ := codeNumber_bounds hs' hpos'
  have hfits := lastCode_le (fun s hs => (hlen s hs).1) hkraft hle
  have hfits' := lastCode_le (fun s hs => (hlen s hs).1) hkraft hle'
  rw [bits_entryWord (by omega), bits_entryWord (by omega), reverse_prefix] at h
  have hlength : len s ≤ len s' := by simpa using h.length_le
  -- The code of the longer word, cut to the length of the shorter one.
  have hcut : codeNumber len n s' / 2 ^ (len s' - len s) = codeNumber len n s := by
    have hsplit := toBits_add (codeNumber len n s') (len s' - len s) (len s)
    rw [Nat.sub_add_cancel hlength] at hsplit
    obtain ⟨front, hfront⟩ := h
    rw [hsplit] at hfront
    have htail := (append_inj' hfront (by simp)).2
    refine toBits_inj ?_ (by omega) htail.symm
    rw [Nat.div_lt_iff_lt_mul (Nat.two_pow_pos _), ← Nat.pow_add, Nat.add_sub_cancel' hlength]
    omega
  rcases Nat.lt_or_eq_of_le hlength with hless | heq
  · have habove := lastCode_le_div hs' hpos' hless
    omega
  · rw [heq, Nat.sub_self] at hcut
    refine rank_injective heq ?_
    rw [heq] at hnumber
    omega

/-- The codes of legal lengths have no prefixes in common. -/
theorem prefixFree_codeWords (hlen : ∀ s < n, 1 ≤ len s ∧ len s ≤ depth) (hdepth : depth ≤ 27)
    (hkraft : kraftCount depth (tabulate n len) ≤ 2 ^ depth) : PrefixFree (codeWords len n) := by
  refine pairwise_iff_getElem.mpr fun i j hi hj hij => ?_
  rw [codeWords, length_tabulate] at hi hj
  rw [getElem_codeWords, getElem_codeWords]
  constructor
  · intro h
    have := eq_of_isPrefix hlen hdepth hkraft hi hj h
    omega
  · intro h
    have := eq_of_isPrefix hlen hdepth hkraft hj hi h
    omega

end Kraft

end Gloop.Coding.Huffman

import Gloop.Coding.Huffman.Model
import Mathlib.Data.Nat.Count

/-!
# The counting sort by code length

The symbols are `0` to `n - 1` and symbol `s` has a code of length `len s`. The sort puts symbol `s`
in the slot after all symbols with shorter codes and after all symbols with the same length that
come before it. Read `countingSortByLength_spec` first.
-/

namespace Gloop.Coding.Huffman

open Gloop.Foundation List Nat
open Function (update_self update_of_ne)

section Ranks

variable (len : Nat → Nat) (n : Nat)

/-- The number of symbols with a code of length `L`. -/
def lengthCount (L : Nat) : Nat :=
  Nat.count (fun s => len s = L) n

/-- The number of symbols with a code shorter than `L`. -/
def shorterCount (L : Nat) : Nat :=
  Nat.count (fun s => len s < L) n

/-- The number of symbols before `s` with a code of the same length. -/
def rank (s : Nat) : Nat :=
  Nat.count (fun s' => len s' = len s) s

/-- The place of a symbol in the sorted order. -/
def slot (s : Nat) : Nat :=
  shorterCount len n (len s) + rank len s

theorem shorterCount_succ (L : Nat) :
    shorterCount len n (L + 1) = shorterCount len n L + lengthCount len n L := by
  unfold shorterCount lengthCount
  induction n with
  | zero => rfl
  | succ n ih =>
    rw [count_succ, count_succ, count_succ]
    split_ifs <;> omega

/-- There are more symbols below a greater length. -/
theorem shorterCount_mono {L L' : Nat} (h : L ≤ L') :
    shorterCount len n L ≤ shorterCount len n L' := by
  induction L', h using le_induction with
  | base => exact le_refl _
  | succ L' _ ih => rw [shorterCount_succ]; omega

theorem shorterCount_one (hlen : ∀ s < n, 1 ≤ len s) : shorterCount len n 1 = 0 := by
  exact count_of_forall_not fun s hs h => absurd (hlen s hs) (by omega)

variable {len n} {s : Nat}

/-- The rank of a symbol is among those of its length. -/
theorem rank_lt (hs : s < n) : rank len s < lengthCount len n (len s) :=
  count_strict_mono rfl hs

/-- Symbols of one length have different ranks. -/
theorem rank_injective {s' : Nat} (hlen : len s = len s') (h : rank len s = rank len s') :
    s = s' := by
  unfold rank at h
  rw [hlen] at h
  exact count_injective (p := fun r => len r = len s') hlen rfl h

/-- Every rank below the number of symbols of a length is that of a symbol. -/
theorem exists_rank {L i : Nat} (h : i < lengthCount len n L) :
    ∃ s < n, len s = L ∧ rank len s = i := by
  unfold lengthCount at h
  induction n with
  | zero => exact absurd h (Nat.not_lt_zero i)
  | succ n ih =>
    by_cases hlt : i < Nat.count (fun s => len s = L) n
    · obtain ⟨s, hs, hrank⟩ := ih hlt
      exact ⟨s, by omega, hrank⟩
    · rw [count_succ] at h
      split_ifs at h with hL
      · refine ⟨n, lt_succ_self n, hL, ?_⟩
        unfold rank
        rw [hL]
        omega
      · omega

/-- The slots of a length come before those of the next one. -/
theorem slot_lt_shorterCount (len : Nat → Nat) (hs : s < n) :
    slot len n s < shorterCount len n (len s + 1) := by
  rw [shorterCount_succ]
  exact Nat.add_lt_add_left (rank_lt hs) _

/-- Every symbol has a slot in the array. -/
theorem slot_lt (len : Nat → Nat) (hs : s < n) : slot len n s < n :=
  (slot_lt_shorterCount len hs).trans_le (count_le _)

/-- Symbols have different slots. -/
theorem slot_injective {s' : Nat} (hs : s < n) (hs' : s' < n) (h : slot len n s = slot len n s') :
    s = s' := by
  have hlt := slot_lt_shorterCount len hs
  have hlt' := slot_lt_shorterCount len hs'
  rcases lt_trichotomy (len s) (len s') with hless | heq | hmore
  · have hle := shorterCount_mono len n (show len s + 1 ≤ len s' from hless)
    unfold slot at *
    omega
  · apply rank_injective heq
    unfold slot at h
    rw [heq] at h
    exact add_left_cancel h
  · have hle := shorterCount_mono len n (show len s' + 1 ≤ len s from hmore)
    unfold slot at *
    omega

end Ranks

/-! ## The loops -/

section Loops

variable {len : Nat → Nat} {n : Nat}

/-- The array of symbols. -/
def symbols (len : Nat → Nat) (n : Nat) : List Symbol :=
  tabulate n fun s => ⟨s, len s⟩

variable {sym : Symbol} {k maxLength : Nat}

theorem symbols_getElem? (h : (symbols len n)[k]? = some sym) : k < n ∧ sym = ⟨k, len k⟩ := by
  have hk : k < n := by
    obtain ⟨hk, -⟩ := List.getElem?_eq_some_iff.mp h
    simpa [symbols] using hk
  rw [symbols, getElem?_tabulate hk] at h
  exact ⟨hk, (Option.some.inj h).symm⟩

/-- The loop that counts lengths, after `k` symbols. -/
structure Counted (len : Nat → Nat) (k : Nat) (state : List Nat × Nat) : Prop where
  counts : state.1 = tabulate 32 (lengthCount len k)
  max_lt : state.2 < 32
  le_max : ∀ s < k, len s ≤ state.2

theorem countLength_step (hlen : ∀ s < n, len s < 32) {state : List Nat × Nat}
    (hk : (symbols len n)[k]? = some sym) (hstate : Counted len k state) :
    ∃ state', countLength state sym = some state' ∧ Counted len (k + 1) state' := by
  obtain ⟨hkn, rfl⟩ := symbols_getElem? hk
  have hsmall := hlen k hkn
  have hupdate : Function.update (lengthCount len k) (len k) (lengthCount len k (len k) + 1) =
      lengthCount len (k + 1) := by
    funext L
    unfold lengthCount
    rw [count_succ]
    by_cases hL : len k = L
    · rw [if_pos hL, ← hL, update_self]
    · rw [if_neg hL, update_of_ne (Ne.symm hL), add_zero]
  refine ⟨(tabulate 32 (lengthCount len (k + 1)), max state.2 (len k)), ?_, rfl, ?_, ?_⟩
  · simp only [countLength, hstate.counts, getElem?_tabulate hsmall, assign_tabulate hsmall,
      Option.bind_eq_bind, Option.bind_some, hupdate]
    rfl
  · exact max_lt hstate.max_lt hsmall
  · intro s hs
    rcases Nat.lt_succ_iff_lt_or_eq.mp hs with hlt | rfl
    · exact (hstate.le_max s hlt).trans (le_max_left _ _)
    · exact le_max_right _ _

/-- The first loop counts the lengths and finds the greatest. -/
theorem countLength_spec (hlen : ∀ s < n, len s < 32) :
    ∃ maxLength, (symbols len n).foldlM countLength (replicate 32 0, 0) =
        some (tabulate 32 (lengthCount len n), maxLength) ∧
      maxLength < 32 ∧ ∀ s < n, len s ≤ maxLength := by
  have hinit : Counted len 0 (replicate 32 0, 0) :=
    ⟨replicate_eq_tabulate 32 0, succ_pos 31, fun s hs => absurd hs (Nat.not_lt_zero s)⟩
  obtain ⟨⟨counts, maxLength⟩, hfold, hcounted⟩ := foldlM_invariant (Counted len) hinit
    fun k sym state hk => countLength_step hlen hk
  rw [symbols, length_tabulate] at hcounted
  obtain ⟨rfl, hmax, hall⟩ := hcounted
  exact ⟨maxLength, hfold, hmax, hall⟩

/-- The offsets after `k` rounds: those below `k + 2` are the numbers of shorter codes. -/
def partialOffset (len : Nat → Nat) (n k L : Nat) : Nat :=
  if L < k + 2 then shorterCount len n L else 0

theorem partialOffset_zero (hlen : ∀ s < n, 1 ≤ len s) : partialOffset len n 0 = fun _ => 0 := by
  funext L
  unfold partialOffset
  split
  next hL =>
    have hle := shorterCount_mono len n (show L ≤ 1 by omega)
    rw [shorterCount_one len n hlen] at hle
    omega
  next => rfl

/-- One more offset is added up. -/
theorem addOffset_step {i : Nat} (hmax : maxLength < 32)
    (hk : (range' 2 (maxLength - 1))[k]? = some i) : addOffset (tabulate 32 (lengthCount len n))
      (tabulate (maxLength + 1) (partialOffset len n k)) i =
      some (tabulate (maxLength + 1) (partialOffset len n (k + 1))) := by
  obtain ⟨hlt, rfl⟩ : k < maxLength - 1 ∧ 2 + k = i := by
    simpa using List.getElem?_eq_some_iff.mp hk
  have hcount := getElem?_tabulate (show 2 + k - 1 < 32 by omega) (lengthCount len n)
  have hoffset := getElem?_tabulate (show 2 + k - 1 < maxLength + 1 by omega)
    (partialOffset len n k)
  have hassign := assign_tabulate (show 2 + k < maxLength + 1 by omega) (partialOffset len n k)
  simp only [addOffset, hcount, hoffset, hassign, Option.bind_eq_bind, Option.bind_some]
  congr 1
  refine tabulate_congr fun L _ => ?_
  by_cases hL : L = 2 + k
  · have hsucc := shorterCount_succ len n (k + 1)
    subst hL
    rw [update_self, show 2 + k - 1 = k + 1 by omega, partialOffset, partialOffset,
      if_pos (by omega), if_pos (by omega), add_comm, ← hsucc]
    congr 1
    omega
  · rw [update_of_ne hL, partialOffset, partialOffset]
    split_ifs <;> first | rfl | omega

/-- The first loop of the sort makes each offset the number of shorter codes. -/
theorem addOffset_spec (hlen : ∀ s < n, 1 ≤ len s) (hmax : maxLength < 32) :
    (range' 2 (maxLength - 1)).foldlM (addOffset (tabulate 32 (lengthCount len n)))
        (replicate (maxLength + 1) 0) =
      some (tabulate (maxLength + 1) (shorterCount len n)) := by
  have hinit : replicate (maxLength + 1) 0 = tabulate (maxLength + 1) (partialOffset len n 0) := by
    rw [replicate_eq_tabulate, partialOffset_zero hlen]
  obtain ⟨offsets, hfold, rfl⟩ := foldlM_invariant
    (fun k offsets => offsets = tabulate (maxLength + 1) (partialOffset len n k)) hinit
    fun k i offsets hk hoffsets => ⟨_, hoffsets ▸ addOffset_step hmax hk, rfl⟩
  rw [hfold]
  congr 1
  refine tabulate_congr fun L hL => ?_
  rw [length_range', partialOffset, if_pos (by omega)]

/-- The second loop, after `k` symbols. -/
structure Placed (len : Nat → Nat) (n maxLength k : Nat) (state : List Nat × List (Option Symbol)) :
    Prop where
  offsets : state.1 = tabulate (maxLength + 1) fun L => shorterCount len n L + lengthCount len k L
  sorted : ∃ place, state.2 = tabulate n place ∧ ∀ s < k, place (slot len n s) = some ⟨s, len s⟩

/-- One more symbol goes to its slot. -/
theorem placeSymbol_step (hmax : ∀ s < n, len s ≤ maxLength)
    {state : List Nat × List (Option Symbol)} (hk : (symbols len n)[k]? = some sym)
    (hstate : Placed len n maxLength k state) :
    ∃ state', placeSymbol state sym = some state' ∧ Placed len n maxLength (k + 1) state' := by
  obtain ⟨hkn, rfl⟩ := symbols_getElem? hk
  obtain ⟨offsets, sorted⟩ := state
  obtain ⟨hoffsets, place, hsorted, hplace⟩ := hstate
  simp only at hoffsets hsorted
  have hlen : len k < maxLength + 1 := lt_succ_of_le (hmax k hkn)
  have hslot : shorterCount len n (len k) + lengthCount len k (len k) = slot len n k := rfl
  have hread := getElem?_tabulate hlen fun L => shorterCount len n L + lengthCount len k L
  have hwrite := assign_tabulate (slot_lt len hkn) place (some ⟨k, len k⟩)
  -- the offset of a length moves on by one for each symbol of that length
  have hadvance : assign (tabulate (maxLength + 1) fun L =>
        shorterCount len n L + lengthCount len k L) (len k) (slot len n k + 1) =
      some (tabulate (maxLength + 1) fun L =>
        shorterCount len n L + lengthCount len (k + 1) L) := by
    rw [assign_tabulate hlen]
    congr 1
    refine tabulate_congr fun L _ => ?_
    have hcount : lengthCount len (k + 1) L = lengthCount len k L + if len k = L then 1 else 0 :=
      count_succ _ k
    rw [hcount]
    by_cases hL : L = len k
    · rw [hL, update_self, if_pos rfl, ← add_assoc, hslot]
    · rw [update_of_ne hL, if_neg (Ne.symm hL), add_zero]
  refine ⟨(_, tabulate n (Function.update place (slot len n k) (some ⟨k, len k⟩))), ?_,
    rfl, _, rfl, fun s hs => ?_⟩
  · simp only [placeSymbol, hoffsets, hsorted, hread, hslot, hwrite, hadvance, Option.bind_eq_bind,
      Option.bind_some]
    rfl
  · by_cases hsk : s = k
    · rw [hsk, update_self]
    · have hne : slot len n s ≠ slot len n k :=
        fun h => hsk (slot_injective (by omega) hkn h)
      rw [update_of_ne hne]
      exact hplace s (by omega)

/-- The sort puts every symbol in its slot. -/
theorem countingSortByLength_spec (hlen : ∀ s < n, 1 ≤ len s)
    (hsmall : maxLength < 32) (hmax : ∀ s < n, len s ≤ maxLength) :
    ∃ place, countingSortByLength (tabulate 32 (lengthCount len n)) (symbols len n) maxLength =
        some (tabulate n place) ∧
      ∀ s < n, place (slot len n s) = some ⟨s, len s⟩ := by
  have hinit : Placed len n maxLength 0
      (tabulate (maxLength + 1) (shorterCount len n), replicate n none) :=
    ⟨rfl, _, replicate_eq_tabulate n none, fun s hs => absurd hs (Nat.not_lt_zero s)⟩
  obtain ⟨⟨offsets, sorted⟩, hfold, hplaced⟩ := foldlM_invariant (Placed len n maxLength) hinit
    fun k sym state hk => placeSymbol_step hmax hk
  rw [symbols, length_tabulate] at hplaced
  obtain ⟨place, hsorted, hplace⟩ := hplaced.sorted
  refine ⟨place, ?_, hplace⟩
  rw [countingSortByLength, addOffset_spec hlen hsmall, show (symbols len n).length = n by
    rw [symbols, length_tabulate]]
  simp only [Option.bind_eq_bind, Option.bind_some, hfold]
  exact congrArg some hsorted

end Loops

end Gloop.Coding.Huffman

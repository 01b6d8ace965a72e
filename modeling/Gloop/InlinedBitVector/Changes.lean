import Gloop.InlinedBitVector.Model

/-!
# What an `InlinedBitVector` stores and how it changes

`Represents nbits v bits array` says that the vector keeps its bits in the array, in the object or
on the heap, with all bits of the last used word after the size clear. `Represents.checked` says
that then `Invariants()` does not fail. A loop that counts with an `int` does what it should for
fewer than `2 ^ 31` words (`intLoop_total`, `intLoop_words`). Each change of a vector that
represents a list succeeds and represents the list changed in the same way.
-/

namespace Gloop.InlinedBitVector

section

open Gloop.Foundation List BitVec

/-! ## Loops that count with an `int` -/

theorem toInt_eq {n : Nat} (hn : n < 2 ^ 31) : toInt n = n := by
  rw [toInt, toInt_eq_toNat_of_lt]
  · rw [BitVec.toNat_ofNat, Nat.mod_eq_of_lt (by omega)]
  · rw [BitVec.toNat_ofNat]
    omega

theorem toSize_eq {n : Nat} (hn : n < 2 ^ 64) : toSize n = n := by
  unfold toSize
  omega

/-- A loop with an `int` counter that does not overflow. -/
theorem intLoop_total {σ : Type} {cond : Int → Bool} {body : Nat → σ → Option σ} {s : σ}
    {first last : Nat} (hle : first ≤ last) (hlast : last < 2 ^ 31)
    (hcond : ∀ i : Nat, i ≤ last → (cond i = true ↔ i < last)) (Inv : Nat → σ → Prop)
    (hinit : Inv first s)
    (hstep : ∀ i s, first ≤ i → i < last → Inv i s → ∃ s', body i s = some s' ∧ Inv (i + 1) s') :
    ∃ s', intLoop first cond body s = some s' ∧ Inv last s' := by
  refine iterate_total
    (fun p : Int × σ => ∃ i : Nat, p.1 = i ∧ first ≤ i ∧ i ≤ last ∧ Inv i p.2)
    (Inv last) (fun p => last - p.1.toNat) ?_ ⟨first, rfl, le_refl _, hle, hinit⟩
  rintro ⟨_, s⟩ ⟨i, rfl, hfirst, hi, hinv⟩
  rcases lt_or_eq_of_le hi with hlt | rfl
  · left
    obtain ⟨s', hbody, hinv'⟩ := hstep i s hfirst hlt hinv
    refine ⟨(i + 1, s'), ?_, ⟨i + 1, rfl, by omega, hlt, hinv'⟩, ?_⟩
    · have hmax : (i : Int) < intMax := by
        unfold intMax
        omega
      simp [intStep, (hcond i hi).mpr hlt, hbody, hmax]
    · omega
  · right
    refine ⟨s, ?_, hinv⟩
    rw [intStep, if_neg fun h => lt_irrefl _ ((hcond i hi).mp h)]

/-- A loop over the words of an array. -/
theorem intLoop_words {cond : Int → Bool} {body : Nat → List (BitVec 32) →
    Option (List (BitVec 32))}
    {array : List (BitVec 32)} {f : Nat → BitVec 32 → BitVec 32} {first last : Nat}
    (hle : first ≤ last) (hlast : last < 2 ^ 31)
    (hcond : ∀ i : Nat, i ≤ last → (cond i = true ↔ i < last))
    (hbody : ∀ i (a : List (BitVec 32)), i < last → a.length = array.length →
      body i a = some (a.mapIdx fun j x => if j = i then f i x else x)) :
    intLoop first cond body array =
      some (array.mapIdx fun j x => if first ≤ j ∧ j < last then f j x else x) := by
  have hstart : array = array.mapIdx fun j x => if first ≤ j ∧ j < first then f j x else x := by
    refine ext_getElem (by simp) fun j hj hj' => ?_
    rw [getElem_mapIdx, if_neg (by omega)]
  obtain ⟨result, hrun, hresult⟩ := intLoop_total hle hlast hcond
    (fun i a => a = array.mapIdx fun j x => if first ≤ j ∧ j < i then f j x else x) hstart
    (fun i a hfirst hi ha => by
      refine ⟨_, hbody i a hi (by rw [ha, length_mapIdx]), ?_⟩
      rw [ha]
      refine ext_getElem (by simp) fun j hj hj' => ?_
      simp only [getElem_mapIdx]
      by_cases hji : j = i
      · subst hji
        rw [if_pos rfl, if_neg (by omega), if_pos (by omega)]
      · rw [if_neg hji]
        congr 1
        rw [eq_iff_iff]
        omega)
  rw [hrun, hresult]

/-! ## Descriptors -/

variable {v : InlinedBitVector} {nbits n : Nat}

theorem toNat_and_ff (d : BitVec 64) : (d &&& 0xff#64).toNat = d.toNat % 256 := by
  exact Nat.and_two_pow_sub_one_eq_mod d.toNat 8

/-- The size is in the high bits of the descriptor. -/
theorem size_eq_div (v : InlinedBitVector) : v.size = v.descriptor.toNat / 256 := by
  rw [size, toNat_ushiftRight, Nat.shiftRight_eq_div_pow]

/-- The capacity is in the low byte of the descriptor. -/
theorem lgCapacityWords_eq (v : InlinedBitVector) : v.lgCapacityWords = v.descriptor.toNat % 256 :=
  toNat_and_ff v.descriptor

theorem external_iff (v : InlinedBitVector) : v.external = true ↔ v.lgCapacityWords ≠ 0 := by
  rw [external, decide_eq_true_eq, lgCapacityWords]
  constructor
  · intro hne hzero
    exact hne (eq_of_toNat_eq hzero)
  · intro hne hzero
    exact hne (by rw [hzero]; rfl)

/-- A descriptor of its parts. -/
theorem toNat_descriptor {lg : Nat} {low : BitVec 64} (hlow : low.toNat = lg) (hlg : lg < 256)
    (hn : n < 2 ^ 56) : (low ||| (BitVec.ofNat 64 n <<< 8)).toNat = 256 * n + lg := by
  have hshift : (BitVec.ofNat 64 n <<< 8).toNat = 2 ^ 8 * n := by
    rw [toNat_shiftLeft, BitVec.toNat_ofNat]
    omega
  rw [toNat_or, hshift, hlow, Nat.or_comm, ← Nat.two_pow_add_eq_or_of_lt (by omega)]

/-- The number of words for a number of bits. -/
theorem neededWords_eq (hn : n < 2 ^ 56) : neededWords n = (n + 31) / 32 := by
  unfold neededWords
  omega

section SetSize

variable (v) (hn : n < 2 ^ 56)

include hn

/-- Another size keeps the low byte of the descriptor. -/
theorem toNat_setSize : (v.setSize n).descriptor.toNat = 256 * n + v.lgCapacityWords :=
  toNat_descriptor rfl (by rw [lgCapacityWords_eq]; omega) hn

theorem size_setSize : (v.setSize n).size = n := by
  have hlg := lgCapacityWords_eq v
  rw [size_eq_div, toNat_setSize v hn]
  omega

theorem lgCapacityWords_setSize : (v.setSize n).lgCapacityWords = v.lgCapacityWords := by
  have hlg := lgCapacityWords_eq v
  rw [lgCapacityWords_eq, toNat_setSize v hn]
  omega

theorem external_setSize : (v.setSize n).external = v.external := by
  rw [Bool.eq_iff_iff, external_iff, external_iff, lgCapacityWords_setSize v hn]

end SetSize

/-- The capacity is large enough. -/
theorem lt_two_pow_capacityLg (n : Nat) : n < 2 ^ capacityLg n := by
  have hlt := Nat.lt_log2_self (n := n ||| 1)
  exact lt_of_le_of_lt Nat.left_le_or hlt

theorem capacityLg_lt (hn : n < 2 ^ 51) : capacityLg n < 256 := by
  have hor : n ||| 1 < 2 ^ 51 := Nat.or_lt_two_pow hn (by omega)
  have hpos : 1 ≤ n ||| 1 := Nat.right_le_or
  have hlog : (n ||| 1).log2 < 51 := (Nat.log2_lt (by omega)).mpr hor
  unfold capacityLg
  omega

/-! ## Stored bits -/

/-- The vector keeps its bits in the array. Bits of used words after the size are clear. -/
structure Represents (nbits : Nat) (v : InlinedBitVector) (bits : List Bool)
    (array : List (BitVec 32)) : Prop where
  words_eq : v.words = some array
  size_eq : v.size = bits.length
  size_lt : bits.length < 2 ^ 55
  length_eq : array.length = if v.external then 2 ^ v.lgCapacityWords else kInlineWords nbits
  fits : (bits.length + 31) / 32 ≤ array.length
  bit : ∀ i < 32 * ((bits.length + 31) / 32), packedBit array i = bits.getD i false

namespace Represents

variable {bits : List Bool} {array : List (BitVec 32)} (h : Represents nbits v bits array)
include h

theorem numWords_eq : v.numWords = (bits.length + 31) / 32 := by
  have := h.size_lt
  rw [numWords, h.size_eq, neededWords_eq (by omega)]

/-- The check of the capacity passes. -/
theorem capacity_ok : (if v.external then decide (v.numWords ≤ 2 ^ v.lgCapacityWords)
      else decide (v.size ≤ kInlineBits nbits) && decide (v.lgCapacityWords = 0)) = true := by
  have hlength := h.length_eq
  have hfits := h.fits
  cases hext : v.external with
  | true =>
    rw [hext, if_pos rfl] at hlength
    rw [if_pos rfl, decide_eq_true_eq, h.numWords_eq, ← hlength]
    exact hfits
  | false =>
    rw [hext, if_neg (by simp)] at hlength
    have hlg : v.lgCapacityWords = 0 := by
      by_contra hne
      rw [(external_iff v).mpr hne] at hext
      cases hext
    have hsize : v.size ≤ kInlineBits nbits := by
      rw [h.size_eq]
      unfold kInlineWords kInlineBits at *
      omega
    rw [decide_eq_true hsize, decide_eq_true hlg]
    rfl

/-- Unused bits of the last word are clear. -/
theorem last_shift_eq_zero (hlast : (bits.length + 31) / 32 - 1 < array.length)
    (hpos : 0 < bits.length % 32) : array[(bits.length + 31) / 32 - 1] >>> (bits.length % 32) =
      0#32 := by
  refine ((window_packedBit hlast).shift (by omega)).eq_zero_iff.mpr fun i hle hlt => ?_
  rw [h.bit i (by omega), List.getD_eq_getElem?_getD, List.getElem?_eq_none (by omega),
    Option.getD_none]

/-- `Invariants()` does not fail. -/
theorem checked : v.checked nbits = some v := by
  have hfits := h.fits
  have hinv : v.invariants nbits = some () := by
    rw [invariants, Option.bind_eq_bind, guard_bind h.capacity_ok, h.numWords_eq, h.size_eq,
      h.words_eq]
    dsimp only
    split
    next hpos =>
      have hlast : (bits.length + 31) / 32 - 1 < array.length := by omega
      rw [Option.bind_eq_bind, Option.bind_some, List.getElem?_eq_getElem]
      exact if_pos (h.last_shift_eq_zero hlast hpos)
    next => rfl
  rw [InlinedBitVector.checked, hinv]
  rfl

omit h in
/-- The words that were set can be read. -/
theorem words_setWords (v : InlinedBitVector) (h : v.words = some array)
    (array' : List (BitVec 32)) : (v.setWords array').words = some array' := by
  have hext : (v.setWords array').external = v.external := rfl
  unfold InlinedBitVector.words at h ⊢
  rw [hext]
  unfold setWords
  cases hexternal : v.external <;> cases hdata : v.data <;> simp_all

/-- Writing other words in place. -/
theorem setWords {array' : List (BitVec 32)} {bits' : List Bool}
    (hlength : array'.length = array.length) (hbits : bits'.length = bits.length)
    (hbit : ∀ i < 32 * ((bits.length + 31) / 32), packedBit array' i = bits'.getD i false) :
    Represents nbits (v.setWords array') bits' array' where
  words_eq := words_setWords v h.words_eq array'
  size_eq := h.size_eq.trans hbits.symm
  size_lt := hbits ▸ h.size_lt
  length_eq := hlength.trans h.length_eq
  fits := by
    rw [hbits, hlength]
    exact h.fits
  bit i hi := hbit i (hbits ▸ hi)

/-- Changing each word by itself. -/
theorem mapIdx {f : Nat → BitVec 32 → BitVec 32} {g : Nat → Bool → Bool}
    (hf : ∀ i < 32 * ((bits.length + 31) / 32), ∀ x,
      (f (i / 32) x).getLsbD (i % 32) = g i (x.getLsbD (i % 32)))
    (hg : ∀ i, bits.length ≤ i → i < 32 * ((bits.length + 31) / 32) → g i false = false) :
    Represents nbits (v.setWords (array.mapIdx f)) (bits.mapIdx g) (array.mapIdx f) := by
  have hfits := h.fits
  refine h.setWords List.length_mapIdx List.length_mapIdx fun i hi => ?_
  rw [packedBit_mapIdx (by omega) (hf i hi), h.bit i hi, List.getD_eq_getElem?_getD,
    List.getD_eq_getElem?_getD, List.getElem?_mapIdx]
  rcases lt_or_ge i bits.length with hlt | hge
  · rw [List.getElem?_eq_getElem hlt]
    rfl
  · rw [List.getElem?_eq_none hge]
    exact hg i hge hi

end Represents

end

/-! ## Changes -/

open Gloop.Foundation List
open BitVec (getLsbD_not getLsbD_or getLsbD_and)

/-- The vector keeps its bits somewhere. -/
def Holds (nbits : Nat) (v : InlinedBitVector) (bits : List Bool) : Prop :=
  ∃ array, Represents nbits v bits array

namespace Represents

variable {v : InlinedBitVector} {nbits : Nat} {bits : List Bool} {array : List (BitVec 32)}

variable {i : Nat} {start limit : Nat}

theorem word_lt (h : Represents nbits v bits array) (hi : i < bits.length) :
    i / 32 < array.length := by
  have := h.fits
  omega

theorem and_mask (index : Nat) : index &&& 31 = index % 32 :=
  Nat.and_two_pow_sub_one_eq_mod index 5

section

variable (h : Represents nbits v bits array)
include h

variable (hi : i < bits.length)
include hi

/-- `get_bit` reads an element. -/
theorem getBit : v.getBit i = some bits[i] := by
  have hword := h.word_lt hi
  have hbit := h.bit i (by omega)
  rw [getD_eq_getElem?_getD, getElem?_eq_getElem hi, Option.getD_some, packedBit_eq hword] at hbit
  rw [InlinedBitVector.getBit, Option.bind_eq_bind, guard_bind (by rwa [h.size_eq]), h.words_eq,
    and_mask, ← hbit, ← and_bit_ne_zero _ (by omega)]
  simp [getElem?_eq_getElem hword]

/-- A change of the word with bit `i`, at the place of the bit. -/
theorem update {f : BitVec 32 → BitVec 32} (value : Bool)
    (hf : ∀ x, ∀ r < 32, (f x).getLsbD r = if r = i % 32 then value else x.getLsbD r) :
    ∃ array', Foundation.update array (i / 32) f = some array' ∧
      Represents nbits (v.setWords array') (bits.set i value) array' := by
  refine ⟨_, update_eq (h.word_lt hi) f, ?_⟩
  rw [set_eq_mapIdx]
  refine h.mapIdx (fun j hj x => ?_) fun j hj _ => if_neg (by omega)
  by_cases hdiv : j / 32 = i / 32
  · rw [if_pos hdiv, hf x _ (by omega)]
    congr 1
    rw [eq_iff_iff]
    omega
  · rw [if_neg hdiv, if_neg (by omega)]

/-- `set_bit` sets an element. -/
theorem setBit : ∃ v', v.setBit nbits i = some v' ∧ Holds nbits v' (bits.set i true) := by
  obtain ⟨array', hrun, hrep⟩ := h.update (f := (· ||| (1#32 <<< (i &&& 31)))) hi true
    fun x r hr => by
    rw [getLsbD_or, and_mask, getLsbD_one_shiftLeft hr]
    by_cases hri : r = i % 32 <;> simp [hri]
  refine ⟨_, ?_, _, hrep⟩
  simp [InlinedBitVector.setBit, h.size_eq, hi, h.words_eq, hrun, hrep.checked]

/-- `clear_bit` clears an element. -/
theorem clearBit : ∃ v', v.clearBit nbits i = some v' ∧ Holds nbits v' (bits.set i false) := by
  obtain ⟨array', hrun, hrep⟩ := h.update (f := (· &&& ~~~(1#32 <<< (i &&& 31)))) hi false
    fun x r hr => by
    rw [getLsbD_and, getLsbD_not, and_mask, getLsbD_one_shiftLeft hr]
    by_cases hri : r = i % 32 <;> simp [hri, hr]
  refine ⟨_, ?_, _, hrep⟩
  simp [InlinedBitVector.clearBit, h.size_eq, hi, h.words_eq, hrun, hrep.checked]

/-- An element is set to a value. -/
theorem assignBit (value : Bool) :
    ∃ v', v.assignBit nbits i value = some v' ∧ Holds nbits v' (bits.set i value) := by
  cases value with
  | true => exact h.setBit hi
  | false => exact h.clearBit hi

end

/-! ## Ranges -/

/-- The change of the words gives the bits with `p` a value and leaves the others alone. -/
def Assigns (f : Nat → BitVec 32 → BitVec 32) (p : Nat → Prop) [DecidablePred p] (value : Bool) :
    Prop :=
  ∀ i x, (f (i / 32) x).getLsbD (i % 32) = if p i then value else x.getLsbD (i % 32)

namespace Assigns

variable {f g : Nat → BitVec 32 → BitVec 32} {p q : Nat → Prop} [DecidablePred p] [DecidablePred q]
  {value : Bool}

/-- Two assignments of the same value. -/
theorem comp (hf : Assigns f p value) (hg : Assigns g q value) :
    Assigns (fun j x => g j (f j x)) (fun i => p i ∨ q i) value := by
  intro i x
  dsimp only
  rw [hg, hf]
  by_cases hq : q i
  · rw [if_pos hq, if_pos (Or.inr hq)]
  · rw [if_neg hq]
    congr 1
    rw [or_iff_left hq]

theorem congr (hf : Assigns f p value) (hpq : ∀ i, p i ↔ q i) : Assigns f q value := by
  intro i x
  rw [hf]
  congr 1
  rw [hpq]

/-- An assignment to some bits of one word. -/
theorem word {h : BitVec 32 → BitVec 32} (k : Nat)
    (hh : ∀ x, ∀ r < 32, (h x).getLsbD r = if p r then value else x.getLsbD r) :
    Assigns (fun j x => if j = k then h x else x) (fun i => i / 32 = k ∧ p (i % 32)) value := by
  intro i x
  dsimp only
  by_cases hk : i / 32 = k
  · rw [if_pos hk, hh x _ (by omega)]
    congr 1
    rw [and_iff_right hk]
  · rw [if_neg hk, if_neg fun hand => hk hand.1]

/-- An assignment to whole words. -/
theorem words {c : BitVec 32} (first last : Nat) (hc : ∀ r < 32, c.getLsbD r = value) :
    Assigns (fun j x => if first ≤ j ∧ j < last then c else x)
      (fun i => first ≤ i / 32 ∧ i / 32 < last) value := by
  intro i x
  dsimp only
  by_cases hin : first ≤ i / 32 ∧ i / 32 < last
  · rw [if_pos hin, if_pos hin, hc _ (by omega)]
  · rw [if_neg hin, if_neg hin]

end Assigns

/-- The loop over the words between. -/
theorem intLoop_between {first last : Nat} (hle : first ≤ last) (hlast : last < 2 ^ 31)
    (hlength : last ≤ array.length) (c : BitVec 32) :
    intLoop (toInt first) (fun i => toSize i < last) (fun i a => Foundation.assign a i c) array =
      some (array.mapIdx fun j x => if first ≤ j ∧ j < last then c else x) := by
  rw [toInt_eq (by omega)]
  refine intLoop_words hle hlast (fun i hi => ?_) fun i a hi ha => ?_
  · rw [decide_eq_true_eq, toSize_eq (by omega)]
  · rw [Foundation.assign, if_pos (by omega), set_eq_mapIdx]

section

variable {value : Bool} {whole first last : BitVec 32 → BitVec 32} {between : BitVec 32}
  (hwhole : ∀ x, ∀ r < 32, (whole x).getLsbD r = if start % 32 ≤ r ∧ r < limit % 32 then value
    else x.getLsbD r)
  (hfirst : ∀ x, ∀ r < 32, (first x).getLsbD r = if start % 32 ≤ r then value else x.getLsbD r)
  (hbetween : ∀ r < 32, between.getLsbD r = value)
  (hlast : ∀ x, ∀ r < 32, (last x).getLsbD r = if r < limit % 32 then value else x.getLsbD r)
include hwhole hfirst hbetween hlast

/-- The writes change exactly the bits of the range. -/
theorem changeWords_eq (hlt : start < limit) (hlimit : limit ≤ 32 * array.length)
    (hwords : limit / 32 < 2 ^ 31) : ∃ f, changeWords array start limit whole first between last =
      some (array.mapIdx f) ∧ Assigns f (fun i => start ≤ i ∧ i < limit) value := by
  unfold changeWords
  by_cases hsame : start / 32 = limit / 32
  · rw [if_pos hsame, update_eq (by omega)]
    exact ⟨_, rfl, (Assigns.word (start / 32) hwhole).congr fun i => by omega⟩
  rw [if_neg hsame, update_eq (by omega), Option.bind_eq_bind, Option.bind_some,
    intLoop_between (by omega) hwords (by rw [length_mapIdx]; omega), Option.bind_some,
      mapIdx_mapIdx]
  -- the word after the range is left alone, since it may be past the array
  have htwo := (Assigns.word (start / 32) hfirst).comp
    (Assigns.words (start / 32 + 1) (limit / 32) hbetween)
  split
  next hmod => exact ⟨_, rfl, htwo.congr fun i => by omega⟩
  next hmod =>
    rw [update_eq (by rw [length_mapIdx]; omega), mapIdx_mapIdx]
    exact ⟨_, rfl, (htwo.comp (Assigns.word (limit / 32) hlast)).congr fun i => by omega⟩

/-- A range of bits is changed in its first word, the words between and its last one. -/
theorem changeBits (h : Represents nbits v bits array) (hle : start ≤ limit)
    (hlimit : limit ≤ bits.length) (hwords : (bits.length + 31) / 32 < 2 ^ 31) :
    ∃ v', v.changeBits nbits start limit whole first between last = some v' ∧
      Holds nbits v' (bits.mapIdx fun i b => if start ≤ i ∧ i < limit then value else b) := by
  have hfits := h.fits
  rcases eq_or_lt_of_le hle with rfl | hlt
  · refine ⟨v, ?_, array, ?_⟩
    · simp [InlinedBitVector.changeBits, h.size_eq, hlimit]
    · convert h using 1
      refine ext_getElem (by simp) fun i hi hi' => ?_
      rw [getElem_mapIdx, if_neg (by omega)]
  · obtain ⟨f, hrun, hf⟩ := changeWords_eq hwhole hfirst hbetween hlast hlt
      (show limit ≤ 32 * array.length by omega) (by omega)
    have hrep := h.mapIdx
      (fun i _ x => hf i x) fun i hi _ => if_neg (by omega)
    refine ⟨_, ?_, _, hrep⟩
    simp [InlinedBitVector.changeBits, h.size_eq, hlimit, hle, not_le.mpr hlt, h.words_eq, hrun,
      hrep.checked]

end

/-- The bits below a place of a word. -/
theorem getLsbD_below (n : Nat) {r : Nat} (hr : r < 32) :
    ((1#32 <<< (n % 32)) - 1#32).getLsbD r = decide (r < n % 32) :=
  getLsbD_shiftLeft_sub_one hr (by omega)

section

variable (h : Represents nbits v bits array) (hle : start ≤ limit) (hlimit : limit ≤ bits.length)
  (hwords : (bits.length + 31) / 32 < 2 ^ 31)
include h hle hlimit hwords

/-- `SetBits` sets the elements of a range. -/
theorem setBits : ∃ v', v.setBits nbits start limit = some v' ∧
      Holds nbits v' (bits.mapIdx fun i b => if start ≤ i ∧ i < limit then true else b) := by
  refine changeBits (fun x r hr => ?_) (fun x r hr => ?_) (fun r hr => ?_)
    (fun x r hr => ?_) h hle hlimit hwords
  · rw [getLsbD_or, getLsbD_and, getLsbD_not, getLsbD_below _ hr, getLsbD_below _ hr]
    by_cases hs : start % 32 ≤ r <;> by_cases hl : r < limit % 32 <;> simp [hr, hs, hl]
  · rw [getLsbD_or, getLsbD_not, getLsbD_below _ hr]
    by_cases hs : start % 32 ≤ r <;> simp [hr, hs]
  · rw [getLsbD_not, BitVec.getLsbD_zero, decide_eq_true hr]
    rfl
  · rw [getLsbD_or, getLsbD_below _ hr]
    by_cases hl : r < limit % 32 <;> simp [hl]

/-- `ClearBits` clears the elements of a range. -/
theorem clearBits : ∃ v', v.clearBits nbits start limit = some v' ∧
      Holds nbits v' (bits.mapIdx fun i b => if start ≤ i ∧ i < limit then false else b) := by
  refine changeBits (fun x r hr => ?_) (fun x r hr => ?_) (fun r hr => ?_)
    (fun x r hr => ?_) h hle hlimit hwords
  · rw [getLsbD_and, getLsbD_or, getLsbD_not, getLsbD_below _ hr, getLsbD_below _ hr]
    rcases lt_or_ge r (start % 32) with hs | hs
    · simp [hs]
    · by_cases hl : r < limit % 32 <;> simp [hr, hs, hl, not_lt.mpr hs]
  · rw [getLsbD_and, getLsbD_below _ hr]
    rcases lt_or_ge r (start % 32) with hs | hs
    · simp [hs]
    · simp [hs]
  · simp
  · rw [getLsbD_and, getLsbD_not, getLsbD_below _ hr]
    by_cases hl : r < limit % 32 <;> simp [hr, hl]

end

end Represents

end Gloop.InlinedBitVector

import Gloop.Foundation.RankSelect
import Gloop.Foundation.BitString

/-!
# `Nthbit` of `nthbit.h` and `nthbit.cc`

The position of a set bit of a word by its rank, by the `pdep` instruction or by three halvings and
a table. The debug checks of the source are part of the model and fail with `none`. `nthbit_eq` says
that both ways find the bit that `Selects` names.
-/

namespace Gloop.Coding.EliasFano

open Gloop.Foundation List BitVec Nat

/-! ## Model -/

/-- The x86 instruction `pdep`: the low bits of `src` go to the places of the set bits of `mask`. -/
def pdep (src mask : BitVec 64) : BitVec 64 :=
  BitVec.ofNat 64 (ofBits ((List.range 64).map fun m =>
    mask.getLsbD m && src.getLsbD (rank mask.getLsbD m)))

/-- The fast path of `Nthbit(x, n)`, after its debug checks. -/
def nthbitFast (x : BitVec 64) (n : Nat) : Nat :=
  countrZero (pdep (1#64 <<< n) x)

/-- `kBitOffset`. Entry `v` holds the positions of the set bits of `v`, four bits each. -/
def kBitOffset : List (BitVec 32) :=
  [0x88888888, 0x88888880, 0x88888881, 0x88888810, 0x88888882, 0x88888820, 0x88888821, 0x88888210,
    0x88888883, 0x88888830, 0x88888831, 0x88888310, 0x88888832, 0x88888320, 0x88888321, 0x88883210,
    0x88888884, 0x88888840, 0x88888841, 0x88888410, 0x88888842, 0x88888420, 0x88888421, 0x88884210,
    0x88888843, 0x88888430, 0x88888431, 0x88884310, 0x88888432, 0x88884320, 0x88884321, 0x88843210,
    0x88888885, 0x88888850, 0x88888851, 0x88888510, 0x88888852, 0x88888520, 0x88888521, 0x88885210,
    0x88888853, 0x88888530, 0x88888531, 0x88885310, 0x88888532, 0x88885320, 0x88885321, 0x88853210,
    0x88888854, 0x88888540, 0x88888541, 0x88885410, 0x88888542, 0x88885420, 0x88885421, 0x88854210,
    0x88888543, 0x88885430, 0x88885431, 0x88854310, 0x88885432, 0x88854320, 0x88854321, 0x88543210,
    0x88888886, 0x88888860, 0x88888861, 0x88888610, 0x88888862, 0x88888620, 0x88888621, 0x88886210,
    0x88888863, 0x88888630, 0x88888631, 0x88886310, 0x88888632, 0x88886320, 0x88886321, 0x88863210,
    0x88888864, 0x88888640, 0x88888641, 0x88886410, 0x88888642, 0x88886420, 0x88886421, 0x88864210,
    0x88888643, 0x88886430, 0x88886431, 0x88864310, 0x88886432, 0x88864320, 0x88864321, 0x88643210,
    0x88888865, 0x88888650, 0x88888651, 0x88886510, 0x88888652, 0x88886520, 0x88886521, 0x88865210,
    0x88888653, 0x88886530, 0x88886531, 0x88865310, 0x88886532, 0x88865320, 0x88865321, 0x88653210,
    0x88888654, 0x88886540, 0x88886541, 0x88865410, 0x88886542, 0x88865420, 0x88865421, 0x88654210,
    0x88886543, 0x88865430, 0x88865431, 0x88654310, 0x88865432, 0x88654320, 0x88654321, 0x86543210,
    0x88888887, 0x88888870, 0x88888871, 0x88888710, 0x88888872, 0x88888720, 0x88888721, 0x88887210,
    0x88888873, 0x88888730, 0x88888731, 0x88887310, 0x88888732, 0x88887320, 0x88887321, 0x88873210,
    0x88888874, 0x88888740, 0x88888741, 0x88887410, 0x88888742, 0x88887420, 0x88887421, 0x88874210,
    0x88888743, 0x88887430, 0x88887431, 0x88874310, 0x88887432, 0x88874320, 0x88874321, 0x88743210,
    0x88888875, 0x88888750, 0x88888751, 0x88887510, 0x88888752, 0x88887520, 0x88887521, 0x88875210,
    0x88888753, 0x88887530, 0x88887531, 0x88875310, 0x88887532, 0x88875320, 0x88875321, 0x88753210,
    0x88888754, 0x88887540, 0x88887541, 0x88875410, 0x88887542, 0x88875420, 0x88875421, 0x88754210,
    0x88887543, 0x88875430, 0x88875431, 0x88754310, 0x88875432, 0x88754320, 0x88754321, 0x87543210,
    0x88888876, 0x88888760, 0x88888761, 0x88887610, 0x88888762, 0x88887620, 0x88887621, 0x88876210,
    0x88888763, 0x88887630, 0x88887631, 0x88876310, 0x88887632, 0x88876320, 0x88876321, 0x88763210,
    0x88888764, 0x88887640, 0x88887641, 0x88876410, 0x88887642, 0x88876420, 0x88876421, 0x88764210,
    0x88887643, 0x88876430, 0x88876431, 0x88764310, 0x88876432, 0x88764320, 0x88764321, 0x87643210,
    0x88888765, 0x88887650, 0x88887651, 0x88876510, 0x88887652, 0x88876520, 0x88876521, 0x88765210,
    0x88887653, 0x88876530, 0x88876531, 0x88765310, 0x88876532, 0x88765320, 0x88765321, 0x87653210,
    0x88887654, 0x88876540, 0x88876541, 0x88765410, 0x88876542, 0x88765420, 0x88765421, 0x87654210,
    0x88876543, 0x88765430, 0x88765431, 0x87654310, 0x88765432, 0x87654320, 0x87654321, 0x76543210]

/-- One of the three steps of `NthbitSlow`: given that the low part has `c` set bits, the part that
the bit of rank `n` is in, its rank there, and `delta32 >> 31`. -/
def descend (c n : Nat) (low high : BitVec 32) : BitVec 32 × Nat × Int :=
  let delta32 : Int := (n : Int) - (c : Int)
  (if delta32 < 0 then low else high, if delta32 < 0 then n else delta32.toNat,
    delta32 >>> (31 : Nat))

/-- `NthbitSlow(x, n)`, after its debug checks. -/
def nthbitSlow (x : BitVec 64) (n : Nat) : Nat :=
  let (v, n, mask32) :=
    descend (popcount (x.setWidth 32)) n (x.setWidth 32) ((x >>> 32).setWidth 32)
  let shiftAccumulator := mask32
  let (v, n, mask32) := descend (popcount (v &&& 0xffff#32)) n v (v >>> 16)
  let shiftAccumulator := shiftAccumulator * 2 + mask32
  let maskedV := v &&& 0xff#32
  let (v, n, mask32) := descend (popcount maskedV) n maskedV ((v >>> 8) &&& 0xff#32)
  let shift := (n <<< 2) &&& 31
  let remainder := (kBitOffset.getD v.toNat 0 >>> shift) &&& 0xf#32
  let shiftAccumulator := shiftAccumulator * 2 + mask32
  (8 * shiftAccumulator + (remainder.toNat : Int) + 0x38).toNat

/-- `Nthbit(x, n)`. -/
def nthbit (useFastPath : Bool) (x : BitVec 64) (n : Nat) : Option Nat :=
  if n < 64 ∧ n < popcount x then
    some (if useFastPath then nthbitFast x n else nthbitSlow x n)
  else none

/-! ## The fast path -/

variable {x : BitVec 64} {n p : Nat}

/-- A bit that is deposited comes from its rank. -/
theorem getLsbD_pdep (src mask : BitVec 64) (m : Nat) :
    (pdep src mask).getLsbD m = (mask.getLsbD m && src.getLsbD (rank mask.getLsbD m)) := by
  by_cases hm : m < 64
  · have hbits := toBits_ofBits ((range 64).map fun m =>
      mask.getLsbD m && src.getLsbD (rank mask.getLsbD m))
    have hbit := congrArg (fun l => l[m]?) hbits
    simp only [length_map, length_range, getElem?_toBits, if_pos hm, getElem?_map,
      getElem?_range hm, Option.map_some, Option.some.injEq] at hbit
    rw [pdep, getLsbD_ofNat, decide_eq_true hm]
    exact hbit
  · rw [getLsbD_of_ge _ _ (by omega), getLsbD_of_ge mask _ (by omega), Bool.false_and]

/-- The instruction finds the bit. -/
theorem nthbitFast_eq (h : Selects x.getLsbD n p) : nthbitFast x n = p := by
  have hp := h.lt_width
  have hn : n < 64 := h.le.trans_lt hp
  have hbit : ∀ m, (pdep (1#64 <<< n) x).getLsbD m = true ↔ m = p := by
    intro m
    have hone : ∀ k, (1#64 <<< n).getLsbD k = decide (k = n) := by
      intro k
      rw [← testBit_toNat, toNat_one_shiftLeft hn, testBit_two_pow]
      exact decide_eq_decide.mpr eq_comm
    rw [getLsbD_pdep, hone, Bool.and_eq_true, decide_eq_true_eq]
    constructor
    · rintro ⟨hset, hrank⟩
      exact Selects.unique ⟨hset, hrank⟩ h
    · rintro rfl
      exact ⟨h.bit, h.rank_eq⟩
  have hne : pdep (1#64 <<< n) x ≠ 0#64 := by
    intro hzero
    have hset := (hbit p).mpr rfl
    rw [hzero, getLsbD_zero] at hset
    cases hset
  exact (hbit _).mp (selects_countrZero hne).bit

/-! ## The slow path -/

/-- A step finds the part that holds the bit; `mask` says which part that is. -/
theorem descend_spec (s : Nat → Bool) (h : Nat) (low high : BitVec 32) {c : Nat}
    (hlow : ∀ k < h, low.getLsbD k = s k) (hhigh : ∀ k < h, high.getLsbD k = s (h + k))
    (hc : c = rank s h) (hh : h ≤ 32) (hn : n < rank s (h + h)) :
    ∃ (v : BitVec 32) (n' start : Nat) (mask : Int), descend c n low high = (v, n', mask) ∧
      (start : Int) = h * (1 + mask) ∧ (v = low ∨ v = high) ∧
      (∀ k < h, v.getLsbD k = s (start + k)) ∧ n' < rank (fun k => s (start + k)) h ∧
        n = rank s start + n' := by
  have hn64 : n < 64 := hn.trans_le ((rank_le s _).trans (by omega))
  have hc32 : c ≤ 32 := hc.trans_le ((rank_le s h).trans hh)
  by_cases hlt : n < c
  · have hneg : ((n : Int) - (c : Int)) < 0 := by omega
    have hshift : ((n : Int) - (c : Int)) >>> (31 : Nat) = -1 := by
      rw [Int.shiftRight_eq_div_pow]
      omega
    refine ⟨low, n, 0, -1, ?_, by simp, .inl rfl, ?_, ?_, by simp⟩
    · simp only [descend, if_pos hneg, hshift]
    · simpa using hlow
    · simpa [hc] using hlt
  · have hneg : ¬ ((n : Int) - (c : Int)) < 0 := by omega
    have hshift : ((n : Int) - (c : Int)) >>> (31 : Nat) = 0 := by
      rw [Int.shiftRight_eq_div_pow]
      omega
    refine ⟨high, n - c, h, 0, ?_, by simp, .inr rfl, hhigh, ?_, by omega⟩
    · simp only [descend, if_neg hneg]
      congr 2
      omega
    · rw [rank_add] at hn
      omega

/-- The table holds the positions of the set bits of each byte. -/
theorem kBitOffset_spec : ∀ ev ∈ kBitOffset.zipIdx, ∀ k < 8, testBit ev.2 k = true →
    ev.1.toNat >>> (4 * rank (testBit ev.2) k) % 16 = k := by
  decide +kernel

theorem length_kBitOffset : kBitOffset.length = 256 := by
  decide +kernel

/-- The table has the places of the set bits of a byte. -/
theorem kBitOffset_getD {v k : Nat} (hv : v < 256) (hk : k < 8) (hset : testBit v k = true) :
    ((kBitOffset.getD v 0 >>> (4 * rank (testBit v) k)) &&& 0xf#32).toNat = k := by
  have hmem : (kBitOffset.getD v 0, v) ∈ kBitOffset.zipIdx := by
    rw [mem_zipIdx_iff_getElem?, getD_eq_getElem?_getD,
      List.getElem?_eq_getElem (hv.trans_eq length_kBitOffset.symm)]
    rfl
  rw [toNat_and, show (0xf#32).toNat = 2 ^ 4 - 1 from rfl, and_two_pow_sub_one_eq_mod]
  exact kBitOffset_spec _ hmem k hk hset

theorem getLsbD_and_ones {h : Nat} (hh : h < 32) (v : BitVec 32) (k : Nat) :
    (v &&& BitVec.ofNat 32 (2 ^ h - 1)).getLsbD k = (v.getLsbD k && decide (k < h)) := by
  rw [getLsbD_and, getLsbD_ofNat, testBit_two_pow_sub_one]
  by_cases hk : k < h
  · rw [decide_eq_true (by omega), Bool.true_and]
  · rw [decide_eq_false hk, Bool.and_false]

variable {s : Nat → Bool}

/-- The low `h` bits of a word, counted. -/
theorem popcount_eq_rank {w h : Nat} {v : BitVec w} (hw : h ≤ w) (hlow : ∀ k < h, v.getLsbD k = s k)
    (hhigh : ∀ k, h ≤ k → v.getLsbD k = false) : popcount v = rank s h := by
  obtain ⟨d, rfl⟩ := Nat.exists_eq_add_of_le hw
  have hnone : rank (fun k => v.getLsbD (h + k)) d = 0 :=
    rank_eq_zero_iff.mpr fun k _ => hhigh _ (by omega)
  rw [popcount, rank_add, hnone]
  exact rank_congr hlow

/-- Counting the low bits counts a rank. -/
theorem popcount_and_ones {h : Nat} (hh : h < 32) {v : BitVec 32}
    (hlow : ∀ k < h, v.getLsbD k = s k) : popcount (v &&& BitVec.ofNat 32 (2 ^ h - 1)) =
      rank s h := by
  refine popcount_eq_rank (by omega) (fun k hk => ?_) (fun k hk => ?_)
  · rw [getLsbD_and_ones hh, decide_eq_true hk, Bool.and_true, hlow k hk]
  · rw [getLsbD_and_ones hh, decide_eq_false (by omega), Bool.and_false]

/-- The last step: the table has the position in a byte. -/
theorem kBitOffset_selects {v : BitVec 32} (hv : v.toNat < 256) (hbits : ∀ k < 8, v.getLsbD k = s k)
    (hn : n < rank s 8) :
    Selects s n ((kBitOffset.getD v.toNat 0 >>> ((n <<< 2) &&& 31)) &&& 0xf#32).toNat := by
  have hn8 : n < 8 := hn.trans_le (rank_le s 8)
  have hshift : (n <<< 2) &&& 31 = 4 * n := by
    rw [show 31 = 2 ^ 5 - 1 from rfl, and_two_pow_sub_one_eq_mod]
    omega
  obtain ⟨k, hk, hsel⟩ := exists_selects hn
  have hrank : rank (testBit v.toNat) k = n := by
    rw [← hsel.rank_eq]
    exact rank_congr fun m hm => by rw [testBit_toNat, hbits m (by omega)]
  have hset : testBit v.toNat k = true := by
    rw [testBit_toNat, hbits k hk, hsel.bit]
  rw [hshift, ← hrank, kBitOffset_getD hv hk hset, hrank]
  exact hsel

theorem nthbitSlow_eq (h : Selects x.getLsbD n p) : nthbitSlow x n = p := by
  have hlow₁ : ∀ k < 32, (x.setWidth 32).getLsbD k = x.getLsbD k := fun k hk => by
    rw [getLsbD_setWidth, decide_eq_true hk, Bool.true_and]
  obtain ⟨v₁, n₁, a₁, m₁, hstep₁, ha₁, -, hv₁, hn₁, heq₁⟩ :=
    descend_spec x.getLsbD 32 (x.setWidth 32) ((x >>> 32).setWidth 32) hlow₁
      (fun k hk => by
        rw [getLsbD_setWidth, decide_eq_true hk, Bool.true_and, getLsbD_ushiftRight])
      (popcount_eq_rank (le_refl 32) hlow₁ fun k hk => getLsbD_of_ge _ _ hk)
      (le_refl 32) h.lt_popcount
  obtain ⟨v₂, n₂, a₂, m₂, hstep₂, ha₂, -, hv₂, hn₂, heq₂⟩ :=
    descend_spec (fun k => x.getLsbD (a₁ + k)) 16 v₁ (v₁ >>> 16) (fun k hk => hv₁ k (by omega))
      (fun k hk => by rw [getLsbD_ushiftRight, hv₁ _ (by omega)])
      (show popcount (v₁ &&& 0xffff#32) = _ from
        popcount_and_ones (h := 16) (by omega) fun k hk => hv₁ k (by omega))
      (by omega) hn₁
  -- the last descent masks both halves, for the table of bytes
  have hbyte : ∀ (v : BitVec 32), ∀ k < 8, (v &&& 0xff#32).getLsbD k = v.getLsbD k :=
    fun v k hk => by
    rw [show 0xff#32 = BitVec.ofNat 32 (2 ^ 8 - 1) from rfl, getLsbD_and_ones (by omega),
      decide_eq_true hk, Bool.and_true]
  obtain ⟨v₃, n₃, a₃, m₃, hstep₃, ha₃, hhalf, hv₃, hn₃, heq₃⟩ :=
    descend_spec (fun k => x.getLsbD (a₁ + (a₂ + k))) 8 (v₂ &&& 0xff#32) ((v₂ >>> 8) &&& 0xff#32)
      (fun k hk => by rw [hbyte _ k hk, hv₂ k (by omega)])
      (fun k hk => by rw [hbyte _ k hk, getLsbD_ushiftRight, hv₂ _ (by omega)])
      (show popcount (v₂ &&& 0xff#32) = _ from
        popcount_and_ones (h := 8) (by omega) fun k hk => hv₂ k (by omega))
      (by omega) hn₂
  have hv₃lt : v₃.toNat < 256 := by
    have hmask : ∀ v : BitVec 32, (v &&& 0xff#32).toNat < 256 := fun v => by
      exact lt_of_le_of_lt and_le_right (by decide)
    rcases hhalf with rfl | rfl
    · exact hmask v₂
    · exact hmask (v₂ >>> 8)
  have hbyteSel := kBitOffset_selects hv₃lt hv₃ hn₃
  simp only [nthbitSlow, hstep₁, hstep₂, hstep₃]
  have hsel := hbyteSel.of_drop.of_drop.of_drop
  rw [← heq₃, ← heq₂, ← heq₁] at hsel
  rw [← hsel.unique h]
  omega

/-- `NthbitSlow` finds the one bit that is set and has `n` set bits below it. -/
theorem nthbitSlow_selects (x : BitVec 64) (n : Nat) (hn : n < popcount x) :
    ∀ p, Selects x.getLsbD n p ↔ p = nthbitSlow x n := by
  obtain ⟨q, -, hq⟩ := exists_selects hn
  rw [nthbitSlow_eq hq]
  exact fun p => ⟨fun hp => hp.unique hq, fun hp => hp ▸ hq⟩

/-- The highest bit of a word of ones. -/
theorem nthbitSlow_selects_top : Selects (allOnes 64).getLsbD 63 (nthbitSlow (allOnes 64) 63) :=
  (nthbitSlow_selects _ _ (by decide) _).mpr rfl

/-- `Nthbit` finds the set bit of rank `n`. -/
theorem nthbit_eq (useFastPath : Bool) (h : Selects x.getLsbD n p) :
    nthbit useFastPath x n = some p := by
  rw [nthbit, if_pos ⟨h.le.trans_lt h.lt_width, h.lt_popcount⟩]
  cases useFastPath with
  | false => exact congrArg some (nthbitSlow_eq h)
  | true => exact congrArg some (nthbitFast_eq h)

end Gloop.Coding.EliasFano

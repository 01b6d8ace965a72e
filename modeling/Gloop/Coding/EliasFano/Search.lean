import Gloop.Coding.EliasFano.RoundTrip

/-!
# The searches of `Decoder`

The zeros of the high bits delimit the elements with the same high part. The searches select the two
zeros around those of the value that is searched for, and look for its low part among them by
bisection. `Access.Sound` is what they rely on. It holds for the functions of a decoder and also for
the same functions with checks that each index and each rank is inside of the array, so no search
leaves it.
-/

namespace Gloop.Coding.EliasFano

open Gloop.Foundation List BitVec Option Nat Options EliasFano.Decoder EliasFano.Encoder

/-! ## Elements by their high parts -/

/-- The low part of a value. -/
def lowPart (width : Nat) (v : BitVec 64) : BitVec 64 :=
  BitVec.ofNat 64 (v.toNat % 2 ^ width)

/-- The number of elements with a high part below `h`. -/
def below (opts : Options) (values : List (BitVec 64)) (h : Nat) : Nat :=
  (highParts opts.width values).countP (· < h)

namespace Options.Fits

variable {opts : Options} {values : List (BitVec 64)} {h i : Nat}

/-- The elements before `below` are those with smaller high bits. -/
theorem lt_below_iff (hfits : opts.Fits values) (hi : i < values.length) :
    i < below opts values h ↔ highPart opts.width values[i] < h := by
  have hdown : (highParts opts.width values).Pairwise fun a b => decide (b < h) → decide (a < h) :=
    hfits.pairwise_high.imp fun hab => by
      simp only [decide_eq_true_eq]
      omega
  rw [below, lt_countP_iff hdown (by simpa [highParts] using hi)]
  simp [highParts]

/-- No more elements are below than there are. -/
theorem below_le (hfits : opts.Fits values) (h : Nat) : below opts values h ≤ opts.size := by
  rw [← hfits.length_highParts]
  exact countP_le_length

theorem below_mono (opts : Options) (values : List (BitVec 64)) {k : Nat} (hk : h ≤ k) :
    below opts values h ≤ below opts values k :=
  countP_mono_left fun a _ ha => by
    simp only [decide_eq_true_eq] at ha ⊢
    omega

theorem below_zero (opts : Options) (values : List (BitVec 64)) : below opts values 0 = 0 :=
  countP_eq_zero.mpr fun a _ => by simp

/-- All elements are below what is greater than the largest high bits. -/
theorem below_of_lt (hfits : opts.Fits values) (hh : opts.zeroBits < h) :
    below opts values h = opts.size := by
  rw [← hfits.length_highParts]
  refine countP_eq_length.mpr fun a ha => ?_
  obtain ⟨v, hv, rfl⟩ := mem_map.mp ha
  exact decide_eq_true ((hfits.highPart_le hv).trans_lt hh)

/-- A zero of the stream counts the elements before it. -/
theorem selects_below (hfits : opts.Fits values) (k : Nat) :
    Selects (zeroStream opts values) k (k + below opts values (k + 1)) := by
  have hcount : (highParts opts.width values).countP (· ≤ k) = below opts values (k + 1) :=
    countP_congr fun a _ => by simp only [decide_eq_true_eq, Nat.lt_succ_iff]
  rw [← hcount]
  exact hfits.selects_zero k

end Options.Fits

/-! ## What the searches rely on -/

/-- The two functions read the elements and the zeros. -/
structure Access.Sound (a : Access) (opts : Options) (values : List (BitVec 64)) : Prop where
  decode56 : ∀ i (hi : i < values.length), a.decode56 i = some (lowPart opts.width values[i])
  select : ∀ r < opts.zeroBits, a.select false r false = some (r + below opts values (r + 1), 0)
  selectNext : ∀ r, r + 1 < opts.zeroBits → r % 256 ≠ 255 → a.select false r true =
    some (r + below opts values (r + 1), r + 1 + below opts values (r + 2))

variable {values : List (BitVec 64)}

/-- A decoder of the elements has sound access to them. -/
theorem Decoder.Holds.sound {d : Decoder} (h : d.Holds values)
    (target : Target) : (d.access target).Sound d.opts values := by
  refine ⟨fun i hi => h.decode56 target.bmi2 hi, fun r hr => ?_, fun r hr hblock => ?_⟩
  · have hwanted : d.Wanted values false false r (r + below d.opts values (r + 1)) 0 :=
      ⟨hr, h.fits.selects_below r, nofun, nofun, nofun⟩
    exact hwanted.select_eq h target
  · have hwanted : d.Wanted values false true r (r + below d.opts values (r + 1))
        (r + 1 + below d.opts values (r + 2)) :=
      ⟨lt_of_succ_lt hr, h.fits.selects_below r, fun _ => hr,
        fun _ => h.fits.selects_below (r + 1), fun _ => hblock⟩
    exact hwanted.select_eq h target

/-- The checks pass wherever the functions are known to succeed. -/
theorem Access.Sound.checked {a : Access} {opts : Options}
    (h : a.Sound opts values) (hfits : opts.Fits values) : (a.checked opts).Sound opts values := by
  refine ⟨fun i hi => ?_, fun r hr => ?_, fun r hr hblock => ?_⟩
  · exact (guard_bind (hfits.size_eq ▸ hi) _).trans (h.decode56 i hi)
  · exact (guard_bind hr _).trans ((guard_bind nofun _).trans (h.select r hr))
  · exact (guard_bind (lt_of_succ_lt hr) _).trans
      ((guard_bind (fun _ => hr) _).trans (h.selectNext r hr hblock))

namespace Access.Sound

variable {a : Access} {opts : Options} {values : List (BitVec 64)}

/-- How many elements have high bits up to `hi`. -/
theorem highUpperBound_eq (h : a.Sound opts values) (hfits : opts.Fits values) (hi : Nat) :
    a.highUpperBound opts hi = some (below opts values (hi + 1)) := by
  rw [Access.highUpperBound]
  split
  next hle => rw [hfits.below_of_lt (lt_succ_of_le hle)]
  next hlt =>
    have hsize := hfits.legal.size_lt
    have hle := hfits.below_le (hi + 1)
    have hzeros := hfits.legal.zeroBits_lt
    have hsub : sub64 (hi + below opts values (hi + 1)) hi % 2 ^ 32 =
        below opts values (hi + 1) := by
      unfold sub64
      omega
    rw [h.select hi (Nat.lt_of_not_le hlt)]
    simp only [bind_eq_bind, bind_some, hsub, Option.pure_def]

/-- The range of elements whose high bits are `hi`. -/
theorem highUpperBoundRange_eq (h : a.Sound opts values) (hfits : opts.Fits values) {hi : Nat}
    (hblock : hi % 256 ≠ 0) :
    a.highUpperBoundRange opts hi = some (below opts values hi, below opts values (hi + 1)) := by
  have hpos : hi - 1 + 1 = hi := by omega
  rw [Access.highUpperBoundRange, bind_eq_bind, guard_bind (show hi % kD1 ≠ 0 from hblock)]
  split
  next hle =>
    rw [h.highUpperBound_eq hfits, hfits.below_of_lt (lt_succ_of_le hle), hpos]
    rfl
  next hlt =>
    have hsize := hfits.legal.size_lt
    have hzeros := hfits.legal.zeroBits_lt
    have hle := hfits.below_le hi
    have hle' := hfits.below_le (hi + 1)
    rw [h.selectNext (hi - 1) (by omega) (by omega), show hi - 1 + 2 = hi + 1 by omega, hpos]
    have hstart : (sub64 (hi - 1 + below opts values hi) hi + 1) % 2 ^ 32 =
        below opts values hi := by
      unfold sub64
      omega
    have hlimit : sub64 (hi + below opts values (hi + 1)) hi % 2 ^ 32 =
        below opts values (hi + 1) := by
      unfold sub64
      omega
    simp only [bind_eq_bind, bind_some, hstart, hlimit, Option.pure_def]

/-- The searches start from the elements with the high part. -/
theorem highRange_eq (h : a.Sound opts values) (hfits : opts.Fits values) (hi : Nat) :
    a.highRange opts hi = some (below opts values hi, below opts values (hi + 1)) := by
  rw [Access.highRange]
  split
  next hblock => exact h.highUpperBoundRange_eq hfits hblock
  next =>
    cases hi with
    | zero =>
      rw [h.highUpperBound_eq hfits, Options.Fits.below_zero]
      rfl
    | succ hi =>
      rw [h.highUpperBound_eq hfits, h.highUpperBound_eq hfits]
      rfl

end Access.Sound

/-! ## Bisection -/

theorem toNat_lowPart (width : Nat) (v : BitVec 64) :
    (lowPart width v).toNat = v.toNat % 2 ^ width := by
  exact mod_eq_of_lt ((mod_le _ _).trans_lt v.isLt)

/-- Values are ordered by their high parts first. -/
theorem lt_iff_parts (width : Nat) (x v : BitVec 64) : x < v ↔ highPart width x < highPart width v ∨
      highPart width x = highPart width v ∧ lowPart width x < lowPart width v := by
  have hx := div_add_mod x.toNat (2 ^ width)
  have hv := div_add_mod v.toNat (2 ^ width)
  simp only [lt_def, toNat_lowPart, highPart]
  constructor
  · intro hlt
    rcases Nat.lt_trichotomy (x.toNat / 2 ^ width) (v.toNat / 2 ^ width) with h | h | h
    · exact .inl h
    · rw [h] at hx
      exact .inr ⟨h, by omega⟩
    · exact absurd (Nat.div_le_div_right hlt.le) (not_le.mpr h)
  · rintro (h | ⟨h, hlow⟩)
    · exact Nat.lt_of_not_le fun hle => absurd (Nat.div_le_div_right hle) (not_le.mpr h)
    · rw [h] at hx
      omega

/-- Values with the same high bits compare by their low bits. -/
theorem eq_iff_parts {width : Nat} {x v : BitVec 64} (h : highPart width x = highPart width v) :
    x = v ↔ lowPart width x = lowPart width v := by
  constructor
  · rintro rfl
    rfl
  · intro hlow
    have hlow' := congrArg BitVec.toNat hlow
    rw [toNat_lowPart, toNat_lowPart] at hlow'
    rw [highPart, highPart] at h
    exact eq_of_toNat_eq (by
      rw [← div_add_mod x.toNat, h, hlow', div_add_mod])

namespace Access.Sound

variable {a : Access} {opts : Options} {values : List (BitVec 64)} {start limit : Nat}
  {above : BitVec 64 → Bool}

/-- The loop ends at the last element of the range that is not above, or at the first one. -/
theorem bisect_spec (h : a.Sound opts values) {place : Nat} (hlt : start < limit)
    (hlimit : limit ≤ values.length) (hlength : values.length < 2 ^ 32)
    (hplace : start ≤ place ∧ place ≤ limit)
    (habove : ∀ i (hi : i < values.length), start ≤ i → i < limit →
      above (lowPart opts.width values[i]) = decide (place ≤ i)) :
    ∃ s, a.bisect above start (limit - start) = some s ∧ start ≤ s ∧ s < limit ∧
      (s = start ∨ s < place) ∧ place ≤ s + 1 := by
  refine iterate_total (fun w : Nat × Nat => start ≤ w.1 ∧ 1 ≤ w.2 ∧ w.1 + w.2 ≤ limit ∧
      (w.1 = start ∨ w.1 < place) ∧ place ≤ w.1 + w.2) _ (fun w => w.2) ?_
    ⟨le_refl _, by omega, by omega, .inl rfl, by omega⟩
  rintro ⟨s, len⟩ ⟨hstart, hlen, hend, hcur, hafter⟩
  by_cases hmore : 1 < len
  · left
    have hmid : (s + len / 2) % 2 ^ 32 = s + len / 2 := mod_eq_of_lt (by omega)
    have hin : s + len / 2 < values.length := by omega
    refine ⟨(if place ≤ s + len / 2 then s else s + len / 2, len - len / 2), ?_, ?_, ?_⟩
    · simp only [Access.bisectStep, hmore, if_true, hmid, h.decode56 _ hin, bind_eq_bind, bind_some,
        Option.pure_def, habove _ hin (by omega) (by omega), decide_eq_true_eq]
    · split <;> simp only <;> omega
    · omega
  · right
    exact ⟨s, by rw [Access.bisectStep, if_neg hmore], by omega⟩

/-- A property that the elements have from some place on, and which the low parts decide among the
elements with high part `hi`. -/
structure Cut (width hi : Nat) (Q above : BitVec 64 → Bool) : Prop where
  before : ∀ y, highPart width y < hi → Q y = false
  same : ∀ y, highPart width y = hi → above (lowPart width y) = Q y
  after : ∀ y, hi < highPart width y → Q y = true
  mono : ∀ x y, x ≤ y → Q x = true → Q y = true

variable {hi : Nat} {Q : BitVec 64 → Bool} (hfits : opts.Fits values)
include hfits

/-- A cut splits the sorted elements. -/
theorem Cut.lt_countP_iff (hcut : Cut opts.width hi Q above) {i : Nat}
    (hi' : i < values.length) : i < values.countP (fun y => !Q y) ↔ Q values[i] = false := by
  rw [Foundation.lt_countP_iff (hfits.sorted.imp fun {x y} hxy => ?_), Bool.not_eq_true']
  have hmono := hcut.mono x y hxy
  cases hx : Q x with
  | false => simp
  | true => simp [hmono hx]

/-- The place is among the elements of that high part. -/
theorem Cut.countP_between (hcut : Cut opts.width hi Q above) :
    below opts values hi ≤ values.countP (fun y => !Q y) ∧
      values.countP (fun y => !Q y) ≤ below opts values (hi + 1) := by
  have hle := hfits.size_eq ▸ hfits.below_le hi
  have hcount : values.countP (fun y => !Q y) ≤ values.length := countP_le_length
  constructor
  · by_contra hlt
    have hin : values.countP (fun y => !Q y) < values.length := by omega
    have hbefore := hcut.before _ ((hfits.lt_below_iff hin).mp (Nat.lt_of_not_le hlt))
    exact lt_irrefl _ ((hcut.lt_countP_iff hfits hin).mpr hbefore)
  · by_contra hlt
    have hin : below opts values (hi + 1) < values.length := by omega
    have hnot := mt (hfits.lt_below_iff hin).mpr (lt_irrefl _)
    have hafter := hcut.after values[below opts values (hi + 1)] (by omega)
    rw [(hcut.lt_countP_iff hfits hin).mp (Nat.lt_of_not_le hlt)] at hafter
    cases hafter

/-- Bisection finds it. -/
theorem bisect_cut (h : a.Sound opts values) (hcut : Cut opts.width hi Q above)
    (hlt : below opts values hi < below opts values (hi + 1)) : ∃ s, ∃ hs : s < values.length,
      a.bisect above (below opts values hi) (below opts values (hi + 1) - below opts values hi) =
        some s ∧ highPart opts.width values[s] = hi ∧
      values.countP (fun y => !Q y) = s + (if Q values[s] then 0 else 1) ∧
      (Q values[s] = true → s = below opts values hi) := by
  have hlimit : below opts values (hi + 1) ≤ values.length := hfits.size_eq ▸ hfits.below_le _
  have hlength : values.length < 2 ^ 32 := hfits.size_eq ▸ hfits.legal.size_lt
  have hbetween := hcut.countP_between hfits
  have hhigh : ∀ i (hi' : i < values.length), below opts values hi ≤ i →
      i < below opts values (hi + 1) → highPart opts.width values[i] = hi := by
    intro i hi' hge hlt
    have hupper := (hfits.lt_below_iff hi').mp hlt
    have hlower := mt (hfits.lt_below_iff hi').mpr (not_lt.mpr hge)
    omega
  have habove : ∀ i (hi' : i < values.length), below opts values hi ≤ i →
      i < below opts values (hi + 1) → above (lowPart opts.width values[i]) =
        decide (values.countP (fun y => !Q y) ≤ i) := by
    intro i hi' hge hlt
    rw [hcut.same _ (hhigh i hi' hge hlt), Bool.eq_iff_iff, decide_eq_true_eq, ← not_lt,
      hcut.lt_countP_iff hfits, Bool.not_eq_false]
  -- among values with one high part the low parts decide
  obtain ⟨s, hrun, hge, hlt', hcur, hnext⟩ := h.bisect_spec hlt hlimit hlength hbetween habove
  have hs : s < values.length := by omega
  have hplace := hcut.lt_countP_iff hfits hs
  refine ⟨s, hs, hrun, hhigh s hs hge hlt', ?_, fun hQ => ?_⟩
  · cases hQ : Q values[s] with
    | true =>
      rw [hQ] at hplace
      simp only [Bool.true_eq_false, iff_false] at hplace
      rw [if_pos rfl]
      omega
    | false =>
      rw [if_neg Bool.false_ne_true]
      have := hplace.mpr hQ
      omega
  · rw [hQ] at hplace
    simp only [Bool.true_eq_false, iff_false] at hplace
    omega

/-- The element that it ends at tells how many are before the place. -/
theorem bisect_count (h : a.Sound opts values) (hcut : Cut opts.width hi Q above)
    {more : BitVec 64 → Nat} (hmore : ∀ x, more x = if above x then 0 else 1) :
    (if below opts values (hi + 1) - below opts values hi = 0 then some (below opts values hi) else
      (a.bisect above (below opts values hi)
        (below opts values (hi + 1) - below opts values hi)).bind fun s => (a.decode56 s).bind
          fun x => some (s + more x)) =
      some (values.countP fun y => !Q y) := by
  split
  next hempty =>
    have hbetween := hcut.countP_between hfits
    exact congrArg some (by omega)
  next hne =>
    obtain ⟨s, hs, hrun, hsame, hcounted, -⟩ := h.bisect_cut hfits hcut (by omega)
    rw [hrun, bind_some, h.decode56 s hs, bind_some, hcounted, hmore, hcut.same values[s] hsame]

/-! ## The three searches -/

variable {v : BitVec 64}

omit hfits in
/-- The cut at values greater than `v`. -/
theorem cut_lt (width : Nat) (v : BitVec 64) :
    Cut width (highPart width v) (fun y => v < y) (fun x => lowPart width v < x) := by
  refine ⟨fun y hy => ?_, fun y hy => ?_, fun y hy => ?_, fun x y hxy hx => ?_⟩
  · exact decide_eq_false fun hlt => by have := (lt_iff_parts width v y).mp hlt; omega
  · refine decide_eq_decide.mpr ?_
    rw [lt_iff_parts width v, hy]
    simp
  · exact decide_eq_true ((lt_iff_parts width v y).mpr (.inl hy))
  · rw [decide_eq_true_eq] at hx ⊢
    exact Nat.lt_of_lt_of_le hx hxy

omit hfits in
/-- The cut at values not less than `v`. -/
theorem cut_le (width : Nat) (v : BitVec 64) :
    Cut width (highPart width v) (fun y => v ≤ y) (fun x => lowPart width v ≤ x) := by
  refine ⟨fun y hy => ?_, fun y hy => ?_, fun y hy => ?_, fun x y hxy hx => ?_⟩
  · exact decide_eq_false fun hle =>
      absurd ((lt_iff_parts width y v).mpr (.inl hy)) (BitVec.not_lt.mpr hle)
  · refine decide_eq_decide.mpr ?_
    rw [← BitVec.not_lt, ← BitVec.not_lt, lt_iff_parts width y, hy]
    simp
  · exact decide_eq_true (BitVec.le_of_lt ((lt_iff_parts width v y).mpr (.inl hy)))
  · rw [decide_eq_true_eq] at hx ⊢
    exact BitVec.le_trans hx hxy

/-- The variables of a search for a value that is not above all elements. -/
theorem highPart_eq (hv : v ≤ opts.maxValue) :
    (v >>> opts.width).toNat % 2 ^ 32 = highPart opts.width v := by
  have hle : highPart opts.width v ≤ opts.zeroBits := by
    rw [hfits.legal.zeroBits_eq]
    exact Nat.div_le_div_right hv
  have hlt := hfits.legal.zeroBits_lt
  rw [toNat_ushiftRight_eq, ← highPart, mod_eq_of_lt (by omega)]

/-- The length of a range of elements does not wrap around. -/
theorem sub32_eq (hi : Nat) : sub32 (below opts values (hi + 1)) (below opts values hi) =
      below opts values (hi + 1) - below opts values hi := by
  have hle := Options.Fits.below_mono opts values (Nat.le_add_right hi 1)
  have hsize := hfits.below_le (hi + 1)
  have hlt := hfits.legal.size_lt
  unfold sub32
  omega

theorem lowBits_eq_lowPart (bmi2 : Bool) (v : BitVec 64) :
    lowBits bmi2 v opts.width = lowPart opts.width v :=
  lowBits_eq bmi2 v (hfits.legal.width_le.trans (by omega))

omit hfits in
theorem countP_lt (values : List (BitVec 64)) (v : BitVec 64) :
    values.countP (· < v) = values.countP fun y => !decide (v ≤ y) :=
  countP_congr fun y _ => by simp [BitVec.not_le]

/-- `LowerBound` counts the smaller elements. -/
theorem lowerBound_eq (h : a.Sound opts values) (bmi2 : Bool)
    (v : BitVec 64) : a.lowerBound opts bmi2 v = some (values.countP (· < v)) := by
  rw [Access.lowerBound]
  split
  next hmax =>
    rw [countP_eq_length.mpr, hfits.size_eq]
    exact fun y hy => decide_eq_true (Nat.lt_of_le_of_lt (hfits.le_maxValue hy) hmax)
  next hmax =>
    simp only [highPart_eq hfits (BitVec.not_lt.mp hmax), h.highRange_eq hfits, bind_eq_bind,
      bind_some, lowBits_eq_lowPart hfits bmi2, sub32_eq hfits]
    rw [countP_lt]
    exact h.bisect_count hfits (cut_le opts.width v) fun x => by simp [← BitVec.not_lt]

/-- `UpperBound` counts the elements up to a value. -/
theorem upperBound_eq (h : a.Sound opts values) (bmi2 : Bool)
    (v : BitVec 64) : a.upperBound opts bmi2 v = some (values.countP (· ≤ v)) := by
  have hcount : values.countP (· ≤ v) = values.countP (fun y => !decide (v < y)) :=
    countP_congr fun y _ => by simp [BitVec.not_lt]
  rw [Access.upperBound]
  split
  next hmax =>
    rw [countP_eq_length.mpr, hfits.size_eq]
    exact fun y hy => decide_eq_true (Nat.le_trans (hfits.le_maxValue hy) hmax)
  next hmax =>
    have hle := Nat.le_of_not_le hmax
    split
    next hzero =>
      -- the high parts are the values
      have hsmall : v.toNat % 2 ^ 32 = highPart opts.width v := by
        rw [← highPart_eq hfits hle, hzero, ushiftRight_zero]
      have hall : ∀ y, highPart opts.width y = y.toNat := by
        intro y
        rw [highPart, hzero, Nat.pow_zero, Nat.div_one]
      rw [h.highUpperBound_eq hfits, hsmall, below, highParts, countP_map]
      refine congrArg some (countP_congr fun y _ => ?_)
      simp only [Function.comp_apply, hall, decide_eq_true_eq, Nat.lt_succ_iff, le_def]
    next =>
      simp only [highPart_eq hfits hle, h.highRange_eq hfits, bind_eq_bind, bind_some,
        lowBits_eq_lowPart hfits bmi2, sub32_eq hfits]
      rw [hcount]
      exact h.bisect_count hfits (cut_lt opts.width v) fun x => by simp [← BitVec.not_lt]

/-- `Exists` finds the elements and nothing else. -/
theorem exists_eq (h : a.Sound opts values) (bmi2 : Bool)
    (v : BitVec 64) : a.exists opts bmi2 v = some (decide (v ∈ values)) := by
  have hcut := cut_lt opts.width v
  rw [Access.exists]
  split
  next hmax =>
    rw [decide_eq_false fun hv => absurd (hfits.le_maxValue hv) (BitVec.not_le.mpr hmax)]
  next hmax =>
    simp only [highPart_eq hfits (BitVec.not_lt.mp hmax), h.highRange_eq hfits, bind_eq_bind,
      bind_some, lowBits_eq_lowPart hfits bmi2, sub32_eq hfits]
    -- an element that equals `v` is in the range
    have hrange : ∀ k (hk : k < values.length), values[k] = v →
        below opts values (highPart opts.width v) ≤ k ∧
          k < below opts values (highPart opts.width v + 1) := by
      intro k hk hkv
      have hlower := (hfits.lt_below_iff (h := highPart opts.width v) hk).mp.mt (by rw [hkv]; omega)
      have hupper := (hfits.lt_below_iff (h := highPart opts.width v + 1) hk).mpr
        (by rw [hkv]; omega)
      omega
    split
    next hempty =>
      rw [decide_eq_false]
      · rfl
      · intro hv
        obtain ⟨k, hk, hkv⟩ := mem_iff_getElem.mp hv
        have := hrange k hk hkv
        omega
    next hne =>
      obtain ⟨s, hs, hrun, hsame, hcounted, hfirst⟩ := h.bisect_cut hfits hcut (by omega)
      rw [hrun, bind_some, h.decode56]
      refine congrArg some ?_
      rw [Bool.eq_iff_iff, beq_iff_eq, decide_eq_true_eq]
      have hpart := eq_iff_parts hsame
      constructor
      · intro hlow
        rw [← hpart.mpr hlow.symm]
        exact getElem_mem hs
      · intro hv
        obtain ⟨k, hk, hkv⟩ := mem_iff_getElem.mp hv
        have hplace := hrange k hk hkv
        have hbefore := (hcut.lt_countP_iff hfits hk).mpr (by simp [hkv])
        rw [hcounted] at hbefore
        by_cases hQ : v < values[s]
        · have := hfirst (decide_eq_true hQ)
          rw [if_pos (decide_eq_true hQ)] at hbefore
          omega
        · rw [if_neg (by simpa using hQ)] at hbefore
          refine (hpart.mp (BitVec.le_antisymm (BitVec.not_lt.mp hQ) ?_)).symm
          rcases lt_or_eq_of_le (le_of_lt_succ hbefore) with hlt | heq
          · rw [← hkv]
            exact pairwise_iff_getElem.mp hfits.sorted k s hk hs hlt
          · simp only [← hkv, heq, BitVec.le_refl]

end Access.Sound

/-! ## Lists that are encoded by `Encoder` -/

/-- The options of a client: a width if it overrides that of the constructor, and an index. -/
def Options.build (size : Nat) (maxValue : BitVec 64) (width : Option Nat) (index : IndexChoice) :
    Option Options := do
  let opts ← new size maxValue
  let opts := (width.map opts.overrideWidth).getD opts
  pure (opts.indexes index.toNat)

/-- Encode the values with an `Encoder`. -/
def Encoder.encodeAll (lzcnt : Bool) (opts : Options) (span : List Byte)
    (values : List (BitVec 64)) : Option (Encoder × Nat) := do
  let e ← new lzcnt opts span
  let e ← values.foldlM append e
  e.finalize lzcnt

/-- Options for a sorted list fit it. -/
theorem Options.build_spec {width : Option Nat} (index : IndexChoice)
    (hsorted : values.Pairwise (· ≤ ·)) (hlength : values.length < 2 ^ 32)
    (hwidth : ∀ w ∈ width, checkInvariants w (values.getLastD 0)) :
    ∃ opts, build values.length (values.getLastD 0) width index = some opts ∧ opts.Fits values := by
  have hempty : values.length = 0 → (values.getLastD 0).toNat < 2 ^ 32 := by
    intro hzero
    rw [length_eq_zero_iff.mp hzero]
    exact Nat.two_pow_pos 32
  obtain ⟨opts, hnew, hlegal, hsize, hmax⟩ := new_spec hlength hempty
  refine ⟨_, by rw [build, hnew]; rfl, ?_⟩
  cases width with
  | none => exact ⟨hlegal.indexes _, hsize, hmax, hsorted⟩
  | some w =>
    have hoverride := hlegal.overrideWidth (hmax ▸ hwidth w rfl)
    exact ⟨hoverride.indexes _, hsize, hmax, hsorted⟩

/-- Appending the rest of a list. -/
theorem Encoder.Appended.foldlM {e : Encoder} {done rest : List (BitVec 64)} (h : e.Appended done)
    (hfits : e.opts.Fits (done ++ rest)) :
    ∃ e', rest.foldlM Encoder.append e = some e' ∧ e'.Appended (done ++ rest) ∧
      e'.opts = e.opts := by
  induction rest generalizing e done with
  | nil => exact ⟨e, rfl, by rwa [append_nil], rfl⟩
  | cons v rest ih =>
    obtain ⟨e₁, hrun₁, h₁, hopts₁, hfits₁⟩ := h.append_of_fits hfits
    obtain ⟨e', hrun, h', hopts⟩ := ih h₁ hfits₁
    rw [← append_cons] at h'
    refine ⟨e', ?_, h', hopts.trans hopts₁⟩
    rw [foldlM_cons, hrun₁]
    exact hrun

/-- `Encoder` makes an encoding of each list that fits its options. -/
theorem Encoder.encodeAll_spec {opts : Options} (hfits : opts.Fits values)
    (lzcnt : Bool) {span : List Byte} (hspan : maxEncodingBytes lzcnt opts ≤ span.length) :
    ∃ e n ptr, encodeAll lzcnt opts span values = some (e, n) ∧
      Encoding (e.mem.take n) opts ptr values := by
  obtain ⟨e₀, hnew, h₀, hopts₀, -⟩ := Encoder.new_spec hfits.legal lzcnt hspan
  obtain ⟨e₁, hrun, h₁, hopts₁⟩ := h₀.foldlM (show e₀.opts.Fits ([] ++ values) by rwa [hopts₀])
  rw [hopts₀] at hopts₁
  obtain ⟨e, n, hfinal, -, -, hencoding⟩ := h₁.finalize (by rwa [hopts₁]) lzcnt
  rw [hopts₁] at hencoding
  refine ⟨e, n, e₁.ptr, ?_, hencoding⟩
  simp only [encodeAll, hnew, hrun, bind_eq_bind, bind_some, hfinal]

/-- The searches agree with the list that was encoded. The second access functions fail where an
index or a rank is outside of the array, and give the same results. -/
theorem searches_agree (target : Target) (addr : Nat) (index : IndexChoice) (width : Option Nat)
    (values : List (BitVec 64)) (hsorted : values.Pairwise (· ≤ ·))
    (hlength : values.length < 2 ^ 32)
    (hwidth : ∀ w ∈ width, checkInvariants w (values.getLastD 0)) :
    ∃ opts, build values.length (values.getLastD 0) width index = some opts ∧
      ∀ span : List Byte, maxEncodingBytes target.lzcnt opts ≤ span.length →
        ∃ e n d, encodeAll target.lzcnt opts span values = some (e, n) ∧
          make target addr (e.mem.take n) = some d ∧
          ∀ a ∈ [d.access target, (d.access target).checked d.opts], ∀ v,
            a.lowerBound d.opts target.bmi2 v = some (values.countP (· < v)) ∧
              a.upperBound d.opts target.bmi2 v = some (values.countP (· ≤ v)) ∧
              a.exists d.opts target.bmi2 v = some (decide (v ∈ values)) := by
  obtain ⟨opts, hbuild, hfits⟩ := build_spec index hsorted hlength hwidth
  refine ⟨opts, hbuild, fun span hspan => ?_⟩
  obtain ⟨e, n, ptr, hrun, hencoding⟩ := encodeAll_spec hfits target.lzcnt hspan
  have hholds : Decoder.Holds ⟨opts, e.mem.take n, ptr⟩ values := hencoding
  refine ⟨e, n, _, hrun, hencoding.make target addr, fun a ha v => ?_⟩
  have hsound : a.Sound opts values := by
    rw [mem_cons, mem_singleton] at ha
    rcases ha with rfl | rfl
    · exact hholds.sound target
    · exact (hholds.sound target).checked hfits
  exact ⟨hsound.lowerBound_eq hfits _ v, hsound.upperBound_eq hfits _ v, hsound.exists_eq hfits _ v⟩

/-- A list with equal values, and with a width of its own. -/
theorem searches_agree_with_width : ∃ opts, build 3 9 (some 1) .zeros = some opts ∧
      ∀ span : List Byte, maxEncodingBytes true opts ≤ span.length →
        ∃ e n d, encodeAll true opts span [2, 2, 9] = some (e, n) ∧
          make ⟨.x86_64, true, false, false, fun _ => 0⟩ 0 (e.mem.take n) = some d ∧
          ∀ a ∈ [d.access ⟨.x86_64, true, false, false, fun _ => 0⟩,
              (d.access ⟨.x86_64, true, false, false, fun _ => 0⟩).checked d.opts], ∀ v,
            a.lowerBound d.opts false v = some ([2, 2, 9].countP (· < v)) ∧
              a.upperBound d.opts false v = some ([2, 2, 9].countP (· ≤ v)) ∧
              a.exists d.opts false v = some (decide (v ∈ [2, 2, 9])) :=
  searches_agree ⟨.x86_64, true, false, false, fun _ => 0⟩ 0 .zeros (some 1) [2, 2, 9] (by decide)
    (by decide) (by decide)

end Gloop.Coding.EliasFano

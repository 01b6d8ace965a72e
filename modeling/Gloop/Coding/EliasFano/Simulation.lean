import Gloop.Coding.EliasFano.Forward
import Gloop.Foundation.Refinement

/-!
# `ForwardDecoder` against the list it decodes

An abstract decoder is an index into the list. `ForwardDecoder.Simulates` says that along each legal
sequence of moves the decoder is where the abstract one is, with the value there and a valid block.
`forward_simulates_iff` says when it does: always, unless there is no index of zeros and the rank of
`BroadWordSearch` can wrap, for which there must be almost `2 ^ 32` zeros.
-/

namespace Gloop.Coding.EliasFano

open Gloop.Foundation List Nat
open ForwardDecoder (make mk new selectZero skipToHigh)

namespace ForwardDecoder

variable {f : ForwardDecoder} {values : List (BitVec 64)} {cur : Position} {byte i r : Nat}

/-! ## Values -/

/-- A forward decoder of a finished encoding. -/
structure Reads (f : ForwardDecoder) (values : List (BitVec 64)) : Prop where
  holds : f.Holds values
  lowMask_eq : f.lowMask = (1#64 <<< f.opts.width) - 1#64

section

variable (h : f.Reads values)
include h

/-- The mask takes the low bits. -/
theorem Reads.and_lowMask (x : BitVec 64) :
    x &&& f.lowMask = BitVec.ofNat 64 (x.toNat % 2 ^ f.opts.width) := by
  have hwidth := h.holds.fits.legal.width_le
  have hnat : (x &&& f.lowMask).toNat = x.toNat % 2 ^ f.opts.width := by
    rw [BitVec.toNat_and, h.lowMask_eq, toNat_lowMask (by omega), and_two_pow_sub_one_eq_mod]
  rw [← hnat, BitVec.ofNat_toNat, BitVec.setWidth_eq]

theorem Reads.decode56 (hi : i < values.length) :
    f.decode56 i = some (lowPart f.opts.width values[i]) := by
  rw [ForwardDecoder.decode56]
  split
  next hzero =>
    rw [lowPart, hzero, pow_zero, mod_one]
    rfl
  next hne =>
    obtain ⟨word, hload, hlow⟩ := h.holds.loadLow hi hne
    simp only [hload, Option.bind_eq_bind, Option.bind_some, Option.pure_def]
    rw [h.and_lowMask, hlow, lowPart]

theorem Reads.value (hcur : f.At values cur byte)
    (hlt : cur.index < values.length) : f.value cur = some values[cur.index] := by
  have hpos := hcur.pos_eq h.holds hlt
  rw [ForwardDecoder.value, h.decode56]
  refine congrArg some ?_
  rw [ofNat_sub_ofNat (by omega), hpos, Nat.add_sub_cancel_left]
  exact shiftLeft_or_ofNat_mod _

/-! ## Moves -/

/-- A new cursor is at the first element. -/
theorem Reads.reset : ∃ cur byte, f.reset = some cur ∧ f.At values cur byte ∧ cur.index = 0 ∧
      (cur.pos < 64 → byte = 0) := by
  obtain ⟨q, hq⟩ := h.holds.exists_at zero_le
  obtain ⟨hq', hreach⟩ := selects_one h.holds zero_le hq.selects
  obtain ⟨block, hload, hblock⟩ := hreach.loadHigh true (show 8 * 0 ≤ q by omega)
  obtain ⟨block', byte, hrun, hvalid, hsame⟩ := scanForNextOne_spec ⟨block, 0, 0⟩ hreach
    zero_le hq' (hblock.congr fun k _ _ => clearBelow_of_le zero_le) (by omega)
    (by omega)
  refine ⟨_, byte, ?_, ⟨hvalid, zero_le, hq.selects⟩, rfl, hsame⟩
  simp only [ForwardDecoder.reset, hload]
  exact hrun

/-- Advancing to an index that is not before the cursor. -/
theorem Reads.advanceToIndex (target : Target) (hcur : f.At values cur byte)
    (hle : cur.index ≤ i) (hi : i < f.opts.size) :
    ∃ cur' byte', f.advanceToIndex target i cur = some cur' ∧ f.At values cur' byte' ∧
      cur'.index = i := by
  obtain ⟨p, hp⟩ := h.holds.exists_at hi.le
  obtain ⟨hp', -⟩ := selects_one h.holds hi.le hp.selects
  obtain ⟨cur', byte', hrun, hload⟩ := hcur.selectOne h.holds target hle hi hp.selects
  refine ⟨⟨cur'.block, i, p⟩, byte', ?_, ⟨⟨hload, hp'.bit⟩, hi.le, hp.selects⟩, rfl⟩
  rw [ForwardDecoder.advanceToIndex, Option.bind_eq_bind, guard_bind hle, guard_bind hi, hrun]
  rfl

end

section

variable (hfits : f.opts.Fits values)
include hfits

/-- Elements before the lower bound of `v` are those below `v`. -/
theorem lt_lowerBound_iff (v : BitVec 64) (hi : i < values.length) :
    i < values.countP (· < v) ↔ values[i] < v := by
  rw [lt_countP_iff (hfits.sorted.imp fun {x y} hxy => ?_) hi]
  · simp
  · simp only [decide_eq_true_eq]
    exact Nat.lt_of_le_of_lt hxy

/-- The last element is the largest value. -/
theorem getElem_last (hlast : values.length - 1 < values.length) :
    values[values.length - 1] = f.opts.maxValue := by
  rw [hfits.maxValue_eq, getLastD_eq_getLast?, getLast?_eq_getElem?, getElem?_eq_getElem,
    Option.getD_some]

variable {v : BitVec 64}

/-- A value up to the largest one has a lower bound. -/
theorem lowerBound_lt (hv : v ≤ f.opts.maxValue) (hi : i < values.length) :
    values.countP (· < v) < values.length := by
  by_contra hall
  have hlast : values.length - 1 < values.length := by omega
  have hlt := (lt_lowerBound_iff hfits v hlast).mp (by omega)
  rw [getElem_last hfits] at hlt
  exact absurd hlt (BitVec.not_lt.mpr hv)

/-- Elements with a smaller high part are below the value. -/
theorem below_le_lowerBound (v : BitVec 64) :
    below f.opts values (highPart f.opts.width v) ≤ values.countP (· < v) := by
  rw [Access.Sound.countP_lt]
  exact ((Access.Sound.cut_le f.opts.width v).countP_between hfits).1

end

section

variable (h : f.Reads values)
include h

section

variable (hv : v ≤ f.opts.maxValue)
include hv

/-- The loop of `AdvanceToValue`, among the elements with the high part of `v` and those after. -/
theorem Reads.advanceLoop (hcur : f.At values cur byte) (hlt : cur.index < f.opts.size)
    (hbelow : below f.opts values (highPart f.opts.width v) ≤ cur.index) :
    ∃ cur', iterate (f.advanceStep (highPart f.opts.width v)
      (lowPart f.opts.width v)) cur = some cur' ∧ ∃ byte', f.At values cur' byte' ∧
        cur'.index = max cur.index (values.countP (· < v)) := by
  have hfits := h.holds.fits
  refine iterate_total
    (fun c : Position => ∃ byte, f.At values c byte ∧ c.index < f.opts.size ∧
      cur.index ≤ c.index ∧ c.index ≤ max cur.index (values.countP (· < v)))
    _ (fun c => f.opts.size - c.index) ?_ ⟨byte, hcur, hlt, le_refl _, le_max_left _ _⟩
  rintro c ⟨byte, hc, hlt, hstart, hend⟩
  have hlength : c.index < values.length := hfits.size_eq ▸ hlt
  have hpos := hc.pos_eq h.holds hlength
  have hiff := lt_lowerBound_iff hfits v hlength
  have hparts := lt_iff_parts f.opts.width values[c.index] v
  have hstep : f.advanceStep (highPart f.opts.width v) (lowPart f.opts.width v) c =
      if highPart f.opts.width v = highPart f.opts.width values[c.index] then
        if lowPart f.opts.width v ≤ lowPart f.opts.width values[c.index] then some (.inr c)
        else (f.next c).bind fun c => some (.inl c)
      else some (.inr c) := by
    rw [advanceStep, hc.sub64_eq h.holds, hpos, Nat.add_sub_cancel_left]
    split
    · rw [h.decode56]
      rfl
    · rfl
  have hhigh : highPart f.opts.width v ≤ highPart f.opts.width values[c.index] := by
    by_contra hlow
    have := (hfits.lt_below_iff hlength).mpr (Nat.lt_of_not_le hlow)
    omega
  by_cases hless : values[c.index] < v
  · -- the element is below `v`, so the loop goes on
    left
    have hindex := hiff.mpr hless
    rcases hparts.mp hless with hlow | ⟨hsame, hlow⟩
    · omega
    · have hcount := lowerBound_lt hfits hv hlength
      obtain ⟨c', byte', hnext, hc', hindex', -⟩ := hc.next h.holds hlt
      refine ⟨c', ?_, ⟨byte', hc', ?_, ?_, ?_⟩, ?_⟩
      · rw [hstep, if_pos hsame.symm, if_neg (BitVec.not_le.mpr hlow), hnext]
        rfl
      · have := hfits.size_eq
        omega
      · omega
      · omega
      · omega
  · right
    have hindex := hiff.mp.mt hless
    refine ⟨c, ?_, byte, hc, by omega⟩
    rw [hstep]
    split
    next hsame =>
      rw [if_pos]
      by_contra hlow
      exact hless (hparts.mpr (.inr ⟨hsame.symm, BitVec.not_le.mp hlow⟩))
    next => rfl

theorem Reads.highPart_le : highPart f.opts.width v ≤ f.opts.zeroBits := by
  rw [h.holds.fits.legal.zeroBits_eq]
  exact Nat.div_le_div_right hv

/-- `AdvanceToValue` in terms of the parts of the value. -/
theorem Reads.advanceToValue_eq (target : Target) (cur : Position) :
    f.advanceToValue target v cur = (f.skipToHigh target (highPart f.opts.width v) cur).bind
      (iterate (f.advanceStep (highPart f.opts.width v) (lowPart f.opts.width v))) := by
  rw [ForwardDecoder.advanceToValue, if_neg (BitVec.not_lt.mpr hv)]
  rw [Access.Sound.highPart_eq h.holds.fits hv, h.and_lowMask]
  rfl

/-- Advancing to a value, from a cursor that may be behind it already. -/
theorem Reads.advanceToValue (target : Target) (hcur : f.At values cur byte)
    (hlt : cur.index < f.opts.size) (hwrap : f.Unwrapped cur (highPart f.opts.width v - 1)) :
    ∃ cur' byte', f.advanceToValue target v cur = some cur' ∧ f.At values cur' byte' ∧
      cur'.index = max cur.index (values.countP (· < v)) := by
  have hfits := h.holds.fits
  have hlength : cur.index < values.length := hfits.size_eq ▸ hlt
  have hbelow := below_le_lowerBound hfits v
  have hcount := lowerBound_lt hfits hv hlength
  obtain ⟨cur₁, byte₁, hskip, hcur₁, hindex₁⟩ :=
    hcur.skipToHigh h.holds target hlt (h.highPart_le hv) hwrap
  obtain ⟨cur', hloop, byte', hcur', hindex⟩ :=
    h.advanceLoop hv hcur₁ (by rw [hfits.size_eq]; omega) (by omega)
  refine ⟨cur', byte', ?_, hcur', by omega⟩
  rw [h.advanceToValue_eq hv, hskip]
  exact hloop

end

/-! ## Runs -/

/-- The methods that move a decoder. -/
inductive Move
  | next
  | advanceToIndex (i : Nat)
  | advanceToValue (v : BitVec 64)

/-- Make a move. -/
def move (target : Target) (f : ForwardDecoder) (cur : Position) : Move → Option Position
  | .next => f.next cur
  | .advanceToIndex i => f.advanceToIndex target i cur
  | .advanceToValue v => f.advanceToValue target v cur

/-- The moves that a caller may make at an index: there is an element at it, and a move goes to an
element that is not before it. -/
def Allowed (values : List (BitVec 64)) (index : Nat) : Move → Prop
  | .next => index < values.length
  | .advanceToIndex i => index ≤ i ∧ i < values.length
  | .advanceToValue v => ∃ h : index < values.length, values[index] ≤ v

/-- The index that a move is to reach. -/
def destination (values : List (BitVec 64)) (index : Nat) : Move → Nat
  | .next => index + 1
  | .advanceToIndex i => i
  | .advanceToValue v => max index (values.countP (· < v))

/-- The position is that of the index, with the value there and a valid block until it is done. -/
structure Tracks (f : ForwardDecoder) (values : List (BitVec 64)) (cur : Position) (index : Nat) :
    Prop where
  index_eq : cur.index = index
  value_eq : ∀ h : index < values.length, f.value cur = some values[index]
  valid : index < values.length → ∃ byte, f.At values cur byte

/-- All sequences of allowed moves lead from `cur` where they are to. -/
def Simulates (target : Target) (f : ForwardDecoder) (values : List (BitVec 64)) (cur : Position) :
    Prop :=
  ∀ moves, Legal (Allowed values) (destination values) 0 moves →
    ∃ cur', moves.foldlM (f.move target) cur = some cur' ∧
      f.Tracks values cur' (moves.foldl (destination values) 0)

/-- There is an index of zeros, or the element from which a rank could wrap is not in the first word
of the high bits. -/
def RankFits (opts : Options) (values : List (BitVec 64)) : Prop :=
  opts.hasIndex .zeros = true ∨ ∀ i (hi : i < values.length), i = 2 ^ 32 - opts.zeroBits + 1 →
      64 ≤ i + highPart opts.width values[i]

/-- A cursor at an element tracks its index. -/
theorem Reads.tracks (hcur : f.At values cur byte) (hindex : cur.index = i) :
    f.Tracks values cur i := by
  subst hindex
  exact ⟨rfl, fun hlt => h.value hcur hlt, fun _ => ⟨byte, hcur⟩⟩

omit h in
/-- Ranks that fit do not wrap around. -/
theorem At.unwrapped (hcur : f.At values cur byte) (h : f.Holds values)
    (hlt : cur.index < values.length) (hrank : RankFits f.opts values)
    (hr : r ≤ f.opts.zeroBits - 1) : f.Unwrapped cur r := by
  intro hscan
  have hplace := hcur.posInBlock_eq
  have hbefore := hcur.lt
  have hpos := hcur.pos_eq h hlt
  rcases hrank with hzeros | hfar
  · -- with an index only short distances are scanned
    rw [shouldScan, if_neg (by decide), hzeros, Bool.not_true, Bool.false_or,
      decide_eq_true_eq] at hscan
    omega
  · by_contra hwrap
    have hzero := h.fits.legal.zeroBits_lt
    have hi : 2 ^ 32 - f.opts.zeroBits + 1 < values.length := by omega
    have hhigh : highPart f.opts.width values[2 ^ 32 - f.opts.zeroBits + 1] ≤
        highPart f.opts.width values[cur.index] := by
      rcases eq_or_lt_of_le (show 2 ^ 32 - f.opts.zeroBits + 1 ≤ cur.index by omega) with heq | hlt'
      · simp only [heq, le_refl]
      · exact Nat.div_le_div_right (pairwise_iff_getElem.mp h.fits.sorted _ _ hi hlt hlt')
    have := hfar _ hi rfl
    omega

variable (target : Target)

/-- A move takes the cursor where the list says. -/
theorem Reads.move (hrank : RankFits f.opts values)
    (m : Move) (hcur : f.Tracks values cur i) (hallowed : Allowed values i m) :
    ∃ cur', f.move target cur m = some cur' ∧ f.Tracks values cur' (destination values i m) := by
  have hfits := h.holds.fits
  obtain rfl := hcur.index_eq
  cases m with
  | next =>
    have hlt : cur.index < values.length := hallowed
    obtain ⟨byte, hat⟩ := hcur.valid hlt
    obtain ⟨cur', byte', hrun, hat', hindex, -⟩ := hat.next h.holds (by rwa [hfits.size_eq])
    exact ⟨cur', hrun, h.tracks hat' hindex⟩
  | advanceToIndex i =>
    obtain ⟨hle, hlt⟩ := hallowed
    obtain ⟨byte, hat⟩ := hcur.valid (by omega)
    obtain ⟨cur', byte', hrun, hat', hindex⟩ :=
      h.advanceToIndex target hat hle (by rwa [hfits.size_eq])
    exact ⟨cur', hrun, h.tracks hat' hindex⟩
  | advanceToValue v =>
    obtain ⟨hlt, -⟩ := hallowed
    obtain ⟨byte, hat⟩ := hcur.valid hlt
    by_cases hv : v ≤ f.opts.maxValue
    · have hwrap : f.Unwrapped cur (highPart f.opts.width v - 1) :=
        hat.unwrapped h.holds hlt hrank (by have := h.highPart_le hv; omega)
      obtain ⟨cur', byte', hrun, hat', hindex⟩ :=
        h.advanceToValue hv target hat (by rwa [hfits.size_eq]) hwrap
      exact ⟨cur', hrun, h.tracks hat' hindex⟩
    -- past the maximum the decoder is done
    have hv' : f.opts.maxValue < v := BitVec.not_le.mp hv
    have hcount : values.countP (· < v) = values.length := countP_eq_length.mpr fun _ ha =>
      decide_eq_true (Nat.lt_of_le_of_lt (hfits.le_maxValue ha) hv')
    have hend : f.opts.size = destination values cur.index (.advanceToValue v) := by
      show _ = max cur.index (values.countP (· < v))
      rw [hfits.size_eq]
      omega
    refine ⟨{ cur with index := f.opts.size }, if_pos hv', hend, fun hlt' => ?_, fun hlt' => ?_⟩
    · rw [← hend, hfits.size_eq] at hlt'
      omega
    · rw [← hend, hfits.size_eq] at hlt'
      omega

/-- A decoder whose ranks fit simulates the list. -/
theorem Reads.simulates (hrank : RankFits f.opts values)
    (hcur : f.At values cur byte) (hindex : cur.index = 0) : f.Simulates target values cur := by
  intro moves hlegal
  exact run_refines (fun cur i m hcur hallowed => h.move target hrank m hcur hallowed)
    (h.tracks hcur hindex) moves hlegal

/-! ## A rank that wraps -/

/-- `Next` reaches each element of the first word with the block at the start. -/
theorem Reads.nexts (hcur : f.At values cur byte)
    (hindex : cur.index = 0) (hbyte : cur.pos < 64 → byte = 0) (hi : i < values.length)
    (hword : i + highPart f.opts.width values[i] < 64) :
    ∃ cur', (replicate i Move.next).foldlM (f.move target) cur = some cur' ∧
      f.At values cur' 0 ∧ cur'.index = i := by
  induction i with
  | zero =>
    have hpos := hcur.pos_eq h.holds (by omega)
    simp only [hindex] at hpos
    obtain rfl := hbyte (by omega)
    exact ⟨cur, rfl, hcur, hindex⟩
  | succ i ih =>
    have hhigh : highPart f.opts.width values[i] ≤ highPart f.opts.width values[i + 1] :=
      Nat.div_le_div_right
        (pairwise_iff_getElem.mp h.holds.fits.sorted i (i + 1) (by omega) hi (by omega))
    obtain ⟨cur₁, hrun, hcur₁, rfl⟩ := ih (by omega) (by omega)
    obtain ⟨cur', byte', hnext, hcur', hindex', hsame⟩ :=
      hcur₁.next h.holds (by rw [h.holds.fits.size_eq]; omega)
    have hpos := hcur'.pos_eq h.holds (by omega)
    simp only [hindex'] at hpos
    obtain rfl := hsame (by omega)
    refine ⟨cur', ?_, hcur', hindex'⟩
    rw [replicate_succ', foldlM_append, hrun]
    show (f.next cur₁).bind _ = _
    rw [hnext]
    rfl

omit h in
/-- A search for zeros whose rank wraps to zero finds the first zero of the first word. -/
theorem At.broadWordSearch_wrapped (hcur : f.At values cur 0) {k : Nat}
    (hpos : 0 < cur.pos) (hk : (k + posInBlock cur) % 2 ^ 32 = 0) :
    f.broadWordSearch target false k (posInBlock cur) cur = some (0, cur) := by
  have hplace := hcur.posInBlock_eq
  rw [Nat.zero_add] at hplace
  have hfirst : (~~~cur.block).getLsbD 0 = true := by
    have hbit := hcur.window.bits 0 (by omega)
    rw [clearBelow_of_lt (by omega)] at hbit
    rw [BitVec.getLsbD_not, hbit]
    rfl
  have hsel : Selects (~~~cur.block).getLsbD 0 0 := ⟨hfirst, rfl⟩
  have hloop : iterate (f.broadWordStep false) ⟨0, 0, ~~~cur.block⟩ = some ⟨0, 0, ~~~cur.block⟩ :=
    iterate_done (if_neg (not_le.mpr hsel.lt_popcount))
  have hscan : iterate f.scanStep (0, cur.block) = some (0, cur.block) :=
    iterate_done (if_neg hcur.block_ne_zero)
  have hmask : maskBlock (~~~ ~~~cur.block) 0 = cur.block := by
    rw [maskBlock, BitVec.ushiftRight_zero, BitVec.shiftLeft_zero, BitVec.not_not]
  have hstart : sub64 cur.pos (posInBlock cur) / 8 = 0 := by
    rw [hplace]
    have := hcur.lt
    rw [EliasFano.sub64_eq (Nat.le_refl _) (by omega), Nat.sub_self]
  have hcount : countrZero cur.block = cur.pos := hplace
  simp only [broadWordSearch, hstart, Bool.false_eq_true, if_false, hk, hloop, Option.bind_eq_bind,
    Option.bind_some, nthbit_eq _ hsel, hmask, scanForNextOne, hscan, hcount, Option.pure_def,
      zero_mul, zero_add]

/-- Where the rank wraps, `AdvanceToValue` does not move. -/
theorem Reads.stalls (hcur : f.At values cur 0) (hlt : cur.index < values.length)
    (hindex : cur.index = 2 ^ 32 - f.opts.zeroBits + 1) (hzeros : f.opts.hasIndex .zeros = false) :
      f.advanceToValue target f.opts.maxValue cur = some cur := by
  have hzero := h.holds.fits.legal.zeroBits_lt
  have hpos := hcur.pos_eq h.holds hlt
  have hword := hcur.lt
  have hplace := hcur.posInBlock_eq
  have hsub := hcur.sub64_eq h.holds
  have hhigh : highPart f.opts.width f.opts.maxValue = f.opts.zeroBits :=
    h.holds.fits.legal.zeroBits_eq.symm
  have hscan : ∀ distance, f.shouldScan false distance = true := by
    intro distance
    rw [shouldScan, if_neg (by decide), hzeros, Bool.not_false, Bool.true_or]
  have hselect : f.selectZero target (f.opts.zeroBits - 1) cur = some (0, cur) := by
    have hmod : (cur.pos - cur.index) % 2 ^ 32 = cur.pos - cur.index := mod_eq_of_lt (by omega)
    rw [selectZero]
    rw [Option.bind_eq_bind, guard_bind (by omega), if_pos (hscan _)]
    exact hcur.broadWordSearch_wrapped target (by omega) (by omega)
  have hback : sub64 0 (f.opts.zeroBits - 1) % 2 ^ 32 = cur.index := by
    unfold sub64
    omega
  have hskip : f.skipToHigh target f.opts.zeroBits cur = some cur := by
    rw [skipToHigh, if_pos (by omega), hselect]
    show some { cur with index := sub64 0 (f.opts.zeroBits - 1) % 2 ^ 32 } = some cur
    rw [hback]
  rw [h.advanceToValue_eq (Nat.le_refl _), hhigh, hskip]
  refine iterate_done ?_
  rw [advanceStep, if_neg (by omega)]

omit target h in
/-- The moves to an element and then to the maximum. -/
theorem legal_nexts (hfits : f.opts.Fits values) (start : Nat) (hi : start + i < values.length) :
    Legal (Allowed values) (destination values) start
        (replicate i .next ++ [.advanceToValue f.opts.maxValue]) ∧
      (replicate i Move.next ++ [Move.advanceToValue f.opts.maxValue]).foldl
        (destination values) start = max (start + i) (values.countP (· < f.opts.maxValue)) := by
  induction i generalizing start with
  | zero => exact ⟨⟨⟨hi, hfits.le_maxValue (getElem_mem hi)⟩, trivial⟩, rfl⟩
  | succ i ih =>
    obtain ⟨hlegal, hfold⟩ := ih (start + 1) (by omega)
    refine ⟨⟨show start < values.length by omega, hlegal⟩, hfold.trans ?_⟩
    rw [add_right_comm, add_assoc]

/-- If the rank can wrap, then `AdvanceToValue` fails to move past element `i`. -/
theorem Reads.stuck (hcur : f.At values cur byte) (hindex : cur.index = 0)
    (hbyte : cur.pos < 64 → byte = 0)
    (hzeros : f.opts.hasIndex .zeros = false) (hi : i < values.length)
    (heq : i = 2 ^ 32 - f.opts.zeroBits + 1) (hword : i + highPart f.opts.width values[i] < 64) :
    ∃ cur', (replicate i Move.next ++ [Move.advanceToValue f.opts.maxValue]).foldlM
        (f.move target) cur = some cur' ∧ cur'.index = i ∧
          i < values.countP (· < f.opts.maxValue) := by
  obtain ⟨cur', hrun, hcur', rfl⟩ := h.nexts target hcur hindex hbyte hi hword
  refine ⟨cur', ?_, rfl, ?_⟩
  · rw [foldlM_append, hrun]
    show (f.advanceToValue target f.opts.maxValue cur').bind _ = _
    rw [h.stalls target hcur' hi heq hzeros]
    rfl
  · have hhigh : highPart f.opts.width f.opts.maxValue = f.opts.zeroBits :=
      h.holds.fits.legal.zeroBits_eq.symm
    rw [lt_lowerBound_iff h.holds.fits _ hi, lt_iff_parts f.opts.width]
    omega

/-- A decoder whose ranks do not fit goes wrong. -/
theorem Reads.not_simulates (hcur : f.At values cur byte)
    (hindex : cur.index = 0) (hbyte : cur.pos < 64 → byte = 0) (hrank : ¬RankFits f.opts values) :
    ¬f.Simulates target values cur := by
  simp only [RankFits, not_or, not_forall, not_le, Bool.not_eq_true] at hrank
  obtain ⟨hzeros, i, hi, heq, hword⟩ := hrank
  obtain ⟨cur', hrun, hstay, hcount⟩ := h.stuck target hcur hindex hbyte hzeros hi heq hword
  obtain ⟨hlegal, hfold⟩ := legal_nexts h.holds.fits 0 (by rwa [zero_add])
  intro hsim
  obtain ⟨cur'', hrun', htracks⟩ := hsim _ hlegal
  obtain rfl : cur' = cur'' := Option.some.inj (hrun.symm.trans hrun')
  have hmoved := htracks.index_eq
  omega

end

/-- A forward decoder can be made of an encoding. -/
theorem make_spec {bytes : List Byte} {opts : Options} {ptr : Pointers}
    (h : Encoding bytes opts ptr values) (target : Target) (addr : Nat) :
    ∃ (f : ForwardDecoder) (cur : Position) (byte : Nat),
      make target addr bytes = some (f, cur) ∧ f.toDecoder = ⟨opts, bytes, ptr⟩ ∧
        f.Reads values ∧ f.At values cur byte ∧ cur.index = 0 ∧ (cur.pos < 64 → byte = 0) := by
  have hreads : (mk ⟨opts, bytes, ptr⟩ ((1#64 <<< opts.width) - 1#64)).Reads values :=
    ⟨h, rfl⟩
  obtain ⟨cur, byte, hreset, hcur, hindex, hbyte⟩ := hreads.reset
  refine ⟨_, cur, byte, ?_, rfl, hreads, hcur, hindex, hbyte⟩
  rw [make, h.decode, Option.bind_eq_bind, Option.bind_some, Option.bind_eq_bind,
    guard_bind (h.aligned addr), new, h.decoder_new]
  rw [hreset]
  rfl

end ForwardDecoder

/-- A forward decoder of an encoding makes all moves of the list it was made from, and `LowerBound`
of the decoder says where values are, unless the rank of a search for zeros can wrap. -/
theorem forward_simulates_iff (target : Target) (addr : Nat) (index : IndexChoice)
    (width : Option Nat) (values : List (BitVec 64)) (hsorted : values.Pairwise (· ≤ ·))
    (hlength : values.length < 2 ^ 32)
    (hwidth : ∀ w ∈ width, Options.checkInvariants w (values.getLastD 0)) :
    ∃ opts, Options.build values.length (values.getLastD 0) width index = some opts ∧
      ∀ span : List Byte, maxEncodingBytes target.lzcnt opts ≤ span.length →
        ∃ e n f cur, Encoder.encodeAll target.lzcnt opts span values = some (e, n) ∧
          ForwardDecoder.make target addr (e.mem.take n) = some (f, cur) ∧
          Decoder.make target addr (e.mem.take n) = some f.toDecoder ∧
          (∀ v, (f.access target).lowerBound f.opts target.bmi2 v = some (values.countP (· < v))) ∧
          (f.Simulates target values cur ↔ ForwardDecoder.RankFits opts values) := by
  obtain ⟨opts, hbuild, hfits⟩ := Options.build_spec index hsorted hlength hwidth
  refine ⟨opts, hbuild, fun span hspan => ?_⟩
  obtain ⟨e, n, ptr, hrun, hencoding⟩ := Encoder.encodeAll_spec hfits target.lzcnt hspan
  obtain ⟨f, cur, byte, hmake, hdecoder, hreads, hcur, hindex, hbyte⟩ :=
    ForwardDecoder.make_spec hencoding target addr
  have hopts : f.opts = opts := congrArg Decoder.opts hdecoder
  refine ⟨e, n, f, cur, hrun, hmake, hdecoder ▸ hencoding.make target addr, fun v => ?_, ?_⟩
  · exact (hreads.holds.sound target).lowerBound_eq (hopts ▸ hfits) _ v
  · rw [← hopts]
    constructor
    · intro hsim
      by_contra hrank
      exact hreads.not_simulates target hcur hindex hbyte hrank hsim
    · intro hrank
      exact hreads.simulates target hrank hcur hindex

/-- A short list has no such element. -/
theorem forward_simulates_iff_short : ∃ opts, Options.build 3 9 none .none = some opts ∧
      ∀ span : List Byte, maxEncodingBytes true opts ≤ span.length →
        ∃ e n f cur, Encoder.encodeAll true opts span [2, 2, 9] = some (e, n) ∧
          ForwardDecoder.make ⟨.x86_64, true, false, false, fun _ => 0⟩ 0 (e.mem.take n) =
          some (f, cur) ∧ Decoder.make ⟨.x86_64, true, false, false, fun _ => 0⟩ 0 (e.mem.take n) =
          some f.toDecoder ∧
          (∀ v, (f.access ⟨.x86_64, true, false, false, fun _ => 0⟩).lowerBound f.opts false v =
            some ([2, 2, 9].countP (· < v))) ∧
          (f.Simulates ⟨.x86_64, true, false, false, fun _ => 0⟩ [2, 2, 9] cur ↔
            ForwardDecoder.RankFits opts [2, 2, 9]) :=
  forward_simulates_iff ⟨.x86_64, true, false, false, fun _ => 0⟩ 0 .none none [2, 2, 9] (by decide)
    (by decide) (by simp)

/-- Without an index `AdvanceToValue` can stay where it is: with many zeros before `2 ^ 32 - 1`,
after two calls of `Next` it does not reach the last element. -/
theorem forward_decoder_stays : ∃ opts, Options.build (2 ^ 31) 0xffffffff none .none = some opts ∧
      ∀ span : List Byte, maxEncodingBytes true opts ≤ span.length → ∃ e n f cur cur',
          Encoder.encodeAll true opts span (List.replicate (2 ^ 31 - 1) 0 ++ [0xffffffff]) =
          some (e, n) ∧
          ForwardDecoder.make ⟨.x86_64, true, false, false, fun _ => 0⟩ 0 (e.mem.take n) =
          some (f, cur) ∧
          Legal (ForwardDecoder.Allowed (List.replicate (2 ^ 31 - 1) 0 ++ [0xffffffff]))
            (ForwardDecoder.destination (List.replicate (2 ^ 31 - 1) 0 ++ [0xffffffff])) 0
            [.next, .next, .advanceToValue 0xffffffff] ∧
          [ForwardDecoder.Move.next, .next, .advanceToValue 0xffffffff].foldl
            (ForwardDecoder.destination (List.replicate (2 ^ 31 - 1) 0 ++ [0xffffffff])) 0 =
              2 ^ 31 - 1 ∧
          [ForwardDecoder.Move.next, .next, .advanceToValue 0xffffffff].foldlM
            (f.move ⟨.x86_64, true, false, false, fun _ => 0⟩) cur = some cur' ∧
          cur'.index = 2 := by
  -- the list must not be evaluated
  generalize hcount : (2 ^ 31 - 1 : Nat) = count
  generalize hvalues : replicate count (0 : BitVec 64) ++ [0xffffffff] = values
  have hlength : values.length = 2 ^ 31 := by
    rw [← hvalues, length_append, length_replicate, length_singleton]
    omega
  have hmax : values.getLastD 0 = 0xffffffff := by
    rw [← hvalues, getLastD_concat]
  have hsorted : values.Pairwise (· ≤ ·) := by
    rw [← hvalues, pairwise_append]
    refine ⟨pairwise_replicate.mpr (.inr (Nat.le_refl _)), pairwise_singleton _ _,
      fun a ha b _ => ?_⟩
    rw [eq_of_mem_replicate ha]
    exact zero_le _
  have hbelow : values.countP (· < 0xffffffff) = count := by
    rw [← hvalues, countP_append, countP_replicate]
    rfl
  have htwo : 2 < values.length := by omega
  have hzero : values[2] = 0 := by
    have hfront : 2 < (replicate count (0 : BitVec 64)).length := by
      rw [length_replicate]
      omega
    simp only [← hvalues, getElem_append_left hfront, getElem_replicate]
  obtain ⟨opts, hbuild, hfits⟩ := Options.build_spec .none hsorted
    (by rw [hlength]; decide) (show ∀ w ∈ (none : Option Nat), _ by simp)
  rw [hlength, hmax] at hbuild
  have hopts : opts = ⟨0xffffffff, 2 ^ 31, 3, 0, 0, 2 ^ 31, 2 ^ 32 - 1⟩ :=
    Option.some.inj (hbuild.symm.trans rfl)
  refine ⟨_, hbuild, fun span hspan => ?_⟩
  obtain ⟨e, n, ptr, hrun, hencoding⟩ := Encoder.encodeAll_spec hfits true hspan
  obtain ⟨f, cur, byte, hmake, hdecoder, hreads, hcur, hindex, hbyte⟩ :=
    ForwardDecoder.make_spec hencoding ⟨.x86_64, true, false, false, fun _ => 0⟩ 0
  have hf : f.opts = opts := congrArg Decoder.opts hdecoder
  rw [hopts] at hf
  obtain ⟨hlegal, hfold⟩ := ForwardDecoder.legal_nexts (i := 2) hreads.holds.fits 0 (by omega)
  obtain ⟨cur', hmoves, hindex', -⟩ := hreads.stuck ⟨.x86_64, true, false, false, fun _ => 0⟩ hcur
    hindex hbyte (by rw [hf]; rfl) htwo (by rw [hf]; rfl) (by rw [hf, hzero]; decide)
  rw [hf] at hlegal hfold hmoves
  refine ⟨e, n, f, cur, cur', hrun, hmake, hlegal, hfold.trans ?_, hmoves, hindex'⟩
  rw [hbelow]
  omega

end Gloop.Coding.EliasFano

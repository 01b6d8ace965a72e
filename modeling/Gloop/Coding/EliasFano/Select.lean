import Gloop.Coding.EliasFano.Encoding
import Gloop.Coding.EliasFano.Decoder

/-!
# What `Decoder` finds

The scans of the high bits are correct for the stream of ones or zeros that stands in memory
(`highStream`): `FindNextSetBit` finds the next set bit, and `BroadWordSearch` the bit of a given
rank behind its hint, together with the one after it. `select_eq` combines them with the index, so
that `Select` answers the same with and without one. An iterator at element `i` has the position of
the one of rank `i`, from which the high part follows. Iterating from `begin()` to `end()` therefore
gives the encoded list, and so does `IteratorAt` for each index.
-/

namespace Gloop.Coding.EliasFano

section

open Gloop.Foundation Gloop.Coding.LittleEndian Option Nat

namespace Decoder

variable {d : Decoder} {one : Bool} {r p q i : Nat}

/-- The ones, or the zeros, that a decoder reads. -/
def stream (d : Decoder) (one : Bool) : Nat → Bool :=
  highStream one d.mem d.ptr.high

/-- The words that start at or before position `p` can be loaded. -/
structure Reaches (d : Decoder) (p : Nat) : Prop where
  lt : p < 2 ^ 34
  words : ∀ byte, 8 * byte ≤ p → d.ptr.high + byte + 8 ≤ d.mem.length

theorem Reaches.mono (h : d.Reaches p) (hq : q ≤ p) : d.Reaches q :=
  ⟨hq.trans_lt h.lt, fun byte hbyte => h.words byte (hbyte.trans hq)⟩

/-- A word up to a position that can be reached. -/
theorem Reaches.loadHigh (h : d.Reaches p) (one : Bool) (hi : 8 * i ≤ p) :
    ∃ x, d.loadHigh one i = some x ∧ Window (d.stream one) (8 * i) 64 x := by
  obtain ⟨x, hload, hbits⟩ := loadHigh_spec one d.ptr.high i (h.words i hi)
  exact ⟨x, hload, le_refl 64, hbits, fun j hj => BitVec.getLsbD_of_ge x j hj⟩

/-! ## Scans -/

/-- The loop finds the next bit in a later word. -/
theorem findNextSetBitSlow_spec (hreach : d.Reaches p) (hp : Selects (d.stream one) r p)
    (hle : 8 * (i + 8) ≤ p) (hrank : rank (d.stream one) (8 * (i + 8)) = r) :
    d.findNextSetBitSlow i one = some p := by
  refine iterate_eq (fun i => 8 * (i + 8) ≤ p ∧ rank (d.stream one) (8 * (i + 8)) = r)
    (fun i => p - i) (fun i ⟨hle, hrank⟩ => ?_) ⟨hle, hrank⟩
  obtain ⟨x, hload, hx⟩ := hreach.loadHigh one hle
  have hlt := hreach.lt
  have hnext : (i + 8) % 2 ^ 32 = i + 8 := mod_eq_of_lt (by omega)
  have hstep : d.findNextSetBitStep one i =
      some (if x = 0#64 then .inl (i + 8) else .inr ((i + 8) * 8 + countrZero x)) := by
    simp only [findNextSetBitStep, hnext, hload, bind_eq_bind, bind_some, pure_def]
  by_cases hin : p < 8 * (i + 8) + 64
  · right
    rw [hstep, if_neg (hx.ne_zero hp hle hin), mul_comm, hx.countrZero_eq (hrank.symm ▸ hp) hle hin]
  left
  rw [hstep, if_pos (hx.eq_zero hp hrank (by omega))]
  exact ⟨i + 8, rfl, ⟨by omega, hp.rank_of_le hrank (by omega) (by omega)⟩, by omega⟩

/-- The next bit from a position on. -/
theorem findNextSetBit_spec {pos : Nat} (hreach : d.Reaches p) (hle : pos ≤ p)
    (hp : Selects (d.stream true) (rank (d.stream true) pos) p) :
      d.findNextSetBit pos = some p := by
  have hlt := hreach.lt
  have hbyte : pos / 8 % 2 ^ 32 = pos / 8 := mod_eq_of_lt (by omega)
  obtain ⟨word, hload, hword⟩ := hreach.loadHigh true (show 8 * (pos / 8) ≤ p by omega)
  have hx := hword.shift (show pos % 8 ≤ 64 by omega)
  rw [div_add_mod] at hx
  simp only [findNextSetBit, hbyte, hload, bind_eq_bind, bind_some]
  by_cases hin : p < pos + (64 - pos % 8)
  · rw [if_pos (hx.ne_zero hp hle hin), hx.countrZero_eq hp hle hin]
    rfl
  rw [hx.eq_zero hp rfl (Nat.le_of_not_lt hin)]
  exact findNextSetBitSlow_spec hreach hp (by omega) (hp.rank_of_le rfl (by omega) (by omega))

/-! ## `BroadWordSearch` -/

/-- What a search with `next` needs to know about the second bit. -/
def NextBit (d : Decoder) (one next : Bool) (r q : Nat) : Prop :=
  next = true → d.Reaches q ∧ Selects (d.stream one) (r + 1) q

variable {next : Bool} {start n : Nat} {s : Scan}

/-- The bit is in the word, whose bits go up to the next one. -/
theorem broadWordFound_spec (target : Target) (hx : Window (d.stream one) start n s.x)
    (hend : start + n = 8 * (s.i + 8)) (hrank : rank (d.stream one) start + s.rank = r)
    (hp : Selects (d.stream one) r p) (hle : start ≤ p) (hlt : p < start + n)
    (hq : d.NextBit one next r q) :
    d.broadWordFound target one next start s = some (p, if next then q else 0) := by
  have hsel := hx.selects hp hle hlt
  rw [show r - rank (d.stream one) start = s.rank by omega] at hsel
  have hpos : start + (p - start) = p := by omega
  cases next with
  | false =>
    simp [broadWordFound, nthbit_eq target.useFastPath hsel, hpos]
  | true =>
    obtain ⟨hreach, hnext⟩ := hq rfl
    have hpq := hp.lt_of_lt hnext (lt_succ_self r)
    have hcount := hx.rank_eq
    have hmore := hp.lt_iff (n := start + n)
    have hlast := hnext.lt_iff (n := start + n)
    by_cases hin : q < start + n
    · have hsel' := hx.selects hnext (by omega) hin
      rw [show r + 1 - rank (d.stream one) start = s.rank + 1 by omega] at hsel'
      simp [broadWordFound, nthbit_eq target.useFastPath hsel, nthbit_eq target.useFastPath hsel',
        hsel'.lt_popcount, hpos, show start + (q - start) = q by omega]
    have hscan := findNextSetBitSlow_spec hreach hnext (i := s.i) (by omega) (by rw [← hend]; omega)
    simp [broadWordFound, nthbit_eq target.useFastPath hsel, hscan,
      show ¬(s.rank + 1 < popcount s.x) by omega, hpos]

/-- The loop stops at the word with the bit. -/
theorem broadWordLoop_spec (hreach : d.Reaches p) (hp : Selects (d.stream one) r p)
    (hx : Window (d.stream one) start n s.x) (hend : start + n = 8 * (s.i + 8))
    (hrank : rank (d.stream one) start + s.rank = r) (hle : start + n ≤ p) :
    ∃ s', iterate (d.broadWordStep one) s = some s' ∧ Window (d.stream one) (8 * s'.i) 64 s'.x ∧
      rank (d.stream one) (8 * s'.i) + s'.rank = r ∧ 8 * s'.i ≤ p ∧ p < 8 * s'.i + 64 := by
  -- before a word is loaded, the bits of the one before it are still in the rank
  refine iterate_total
    (fun s : Scan => 8 * (s.i + 8) ≤ p ∧
      rank (d.stream one) (8 * (s.i + 8)) + s.rank = r + popcount s.x)
    _ (fun s : Scan => p - s.i) (fun s ⟨hle, hrank⟩ => ?_) ⟨by omega, ?_⟩
  · obtain ⟨x, hload, hx⟩ := hreach.loadHigh one hle
    have hlt := hreach.lt
    have hnext : (s.i + 8) % 2 ^ 32 = s.i + 8 := mod_eq_of_lt (by omega)
    have hbefore := hp.lt_iff (n := 8 * (s.i + 8))
    have hfound := hp.lt_iff (n := 8 * (s.i + 8) + 64)
    have hcount := hx.rank_eq
    have hstep : d.broadWordStep one s = some (if popcount x ≤ s.rank - popcount s.x
        then .inl ⟨s.i + 8, s.rank - popcount s.x, x⟩
        else .inr ⟨s.i + 8, s.rank - popcount s.x, x⟩) := by
      simp only [broadWordStep, hnext, hload, bind_eq_bind, bind_some, pure_def]
    by_cases hin : p < 8 * (s.i + 8) + 64
    · right
      rw [hstep, if_neg (by omega)]
      refine ⟨_, rfl, hx, ?_, hle, hin⟩
      show rank (d.stream one) (8 * (s.i + 8)) + (s.rank - popcount s.x) = r
      omega
    · left
      rw [hstep, if_pos (by omega)]
      refine ⟨_, rfl, ⟨?_, ?_⟩, ?_⟩
      · show 8 * (s.i + 8 + 8) ≤ p
        omega
      · show rank (d.stream one) (8 * (s.i + 8 + 8)) + (s.rank - popcount s.x) = r + popcount x
        rw [show 8 * (s.i + 8 + 8) = 8 * (s.i + 8) + 64 by omega]
        omega
      · show p - (s.i + 8) < p - s.i
        omega
  · have hcount := hx.rank_eq
    rw [← hend]
    omega

/-- `BroadWordSearch` finds the bit of rank `rank` from the hint on. -/
theorem broadWordSearch_spec (target : Target) {hintPos k : Nat} (hreach : d.Reaches p)
    (hp : Selects (d.stream one) r p) (hle : hintPos ≤ p)
    (hrank : rank (d.stream one) hintPos + k = r) (hq : d.NextBit one next r q) :
    d.broadWordSearch target one k next hintPos = some (p, if next then q else 0) := by
  have hlt := hreach.lt
  have hbyte : hintPos / 8 % 2 ^ 32 = hintPos / 8 := mod_eq_of_lt (by omega)
  obtain ⟨word, hload, hword⟩ := hreach.loadHigh one (show 8 * (hintPos / 8) ≤ p by omega)
  have hx := hword.shift (show hintPos % 8 ≤ 64 by omega)
  rw [div_add_mod] at hx
  have hend : hintPos + (64 - hintPos % 8) = 8 * (hintPos / 8 + 8) := by omega
  have hcount := hx.rank_eq
  have hfound := hp.lt_iff (n := hintPos + (64 - hintPos % 8))
  simp only [broadWordSearch, hbyte, hload, bind_eq_bind, bind_some]
  by_cases hin : p < hintPos + (64 - hintPos % 8)
  · rw [if_pos (by omega)]
    exact broadWordFound_spec target hx hend hrank hp hle hin hq
  rw [if_neg (by omega)]
  obtain ⟨s, hrun, hx', hrank', hle', hlt'⟩ :=
    broadWordLoop_spec (s := ⟨hintPos / 8, k, word >>> (hintPos % 8)⟩) hreach hp hx hend hrank
      (Nat.le_of_not_lt hin)
  rw [hrun, bind_some, mul_comm]
  exact broadWordFound_spec target hx' (by omega) hrank' hp hle' hlt' hq

/-! ## `Select` -/

/-- A decoder of a finished encoding. -/
def Holds (d : Decoder) (values : List (BitVec 64)) : Prop :=
  Encoding d.mem d.opts d.ptr values

/-- The stream that `Select` searches. -/
def searched (d : Decoder) (values : List (BitVec 64)) (one : Bool) : Nat → Bool :=
  if one then oneStream d.opts values else zeroStream d.opts values

/-- How many ranks it has. -/
def ranks (d : Decoder) (one : Bool) : Nat :=
  if one then d.opts.size else d.opts.zeroBits

/-- Its index. -/
def dense (d : Decoder) (one : Bool) : Nat :=
  if one then d.ptr.dense1 else d.ptr.dense0

namespace Holds

variable {values : List (BitVec 64)} (h : d.Holds values)
include h

/-- All bits of the stream can be reached. -/
theorem reaches (hp : p ≤ d.opts.bits) : d.Reaches p := by
  have hlegal := h.fits.legal
  have hsize := hlegal.size_lt
  have hzeros := hlegal.zeroBits_lt
  have hbytes := bits_lt_highBytes d.opts
  have hlow := h.placed.low_eq
  have hdense := h.placed.dense1_eq
  have hroom := h.room
  refine ⟨?_, fun byte hbyte => by omega⟩
  rw [Options.bits, hlegal.oneBits_eq] at hp
  omega

/-- The bit after the stream counts as one more. -/
theorem sentinel (one : Bool) : Selects (d.searched values one) (d.ranks one) d.opts.bits := by
  cases one with
  | true => exact h.fits.selects_sentinel
  | false => exact h.fits.selects_zero_sentinel

/-- The memory holds the stream. -/
theorem stream_eq (one : Bool) {k : Nat} (hk : k < d.opts.bits) :
    d.stream one k = d.searched values one k := by
  cases one with
  | true => exact (highStream_true _ _ _).trans (h.high k hk.le)
  | false =>
    refine (highStream_false _ _ _).trans ?_
    rw [highStream_true, h.high k hk.le, h.fits.oneStream_eq hk.ne]
    rfl

/-- A bit that is searched for is one of the stream. -/
theorem selects (hp : Selects (d.searched values one) r p) (hr : r < d.ranks one) :
    Selects (d.stream one) r p ∧ d.Reaches p := by
  have hlt := hp.lt_of_lt (h.sentinel one) hr
  exact ⟨hp.congr fun k hk => h.stream_eq one (hk.trans_lt hlt), h.reaches hlt.le⟩

/-- What the index says about the block of a rank. -/
theorem index (hindex : d.opts.hasIndex (if one then .ones else .zeros)) (hr : r < d.ranks one) :
    ∃ limit < 2 ^ 32, d.ptr.sparse + 4 * limit ≤ d.mem.length ∧
      d.dense one + 20 * (r / 256 + 1) ≤ d.ptr.sparse ∧
      BlockIndexed d.mem (d.dense one) d.ptr.sparse limit (d.searched values one) (d.ranks one)
        (r / 256) := by
  have hdense0 := h.placed.dense0_eq
  have hsparse := h.placed.sparse_eq
  cases one with
  | true =>
    obtain ⟨limit, hlimit, hroom, hblocks⟩ := h.ones hindex
    have hblock : r / 256 < d.opts.oneDenseSize := by
      have hsize : d.opts.oneDenseSize = Options.iceil d.opts.oneBits kD1 := if_pos hindex
      have hentries := (iceil_bounds d.opts.oneBits).1
      have hr' : r < d.opts.size := hr
      rw [← h.fits.legal.oneBits_eq] at hr'
      omega
    refine ⟨limit, hlimit, hroom, ?_, hblocks _ hblock⟩
    show d.ptr.dense1 + 20 * (r / 256 + 1) ≤ d.ptr.sparse
    omega
  | false =>
    obtain ⟨limit, hlimit, hroom, hblocks⟩ := h.zeros hindex
    have hblock : r / 256 < d.opts.zeroDenseSize := by
      have hsize : d.opts.zeroDenseSize = Options.iceil d.opts.zeroBits kD1 := if_pos hindex
      have hentries := (iceil_bounds d.opts.zeroBits).1
      have hr' : r < d.opts.zeroBits := hr
      omega
    refine ⟨limit, hlimit, hroom, ?_, hblocks _ hblock⟩
    show d.ptr.dense0 + 20 * (r / 256 + 1) ≤ d.ptr.sparse
    omega

end Holds

variable {mem : List Byte}

theorem loadBase_eq {entry : Nat} (h : entry + 20 ≤ mem.length) :
    loadUnaligned 4 mem entry = some (entryBase mem entry) :=
  load_eq_some (by omega)

theorem loadDelta_eq {entry j : Nat} (h : entry + 20 ≤ mem.length) (hj : j < 8) :
    loadUnaligned 2 mem (entry + 4 + 2 * j) = some (entryDelta mem entry j) :=
  load_eq_some (by omega)

/-- The first delta tells whether the block is sparse. -/
theorem loadKind_eq {entry : Nat} (h : entry + 20 ≤ mem.length) :
    loadUnaligned 2 mem (entry + 4) = some (entryDelta mem entry 0) :=
  loadDelta_eq h (show 0 < 8 by omega)

theorem loadSparse_eq {sparse limit : Nat} (h : sparse + 4 * limit ≤ mem.length) (hi : i < limit) :
    loadUnaligned 4 mem (sparse + 4 * i) = some (sparseEntry mem sparse i) :=
  load_eq_some (by omega)

/-- Both bits of a search, the second of which is in the block of the first. -/
structure Wanted (d : Decoder) (values : List (BitVec 64)) (one next : Bool) (r p q : Nat) :
    Prop where
  lt : r < d.ranks one
  selects : Selects (d.searched values one) r p
  next_lt : next = true → r + 1 < d.ranks one
  next_selects : next = true → Selects (d.searched values one) (r + 1) q
  block : next = true → r % 256 ≠ 255

namespace Wanted

variable {values : List (BitVec 64)} (h : d.Wanted values one next r p q)
include h

variable (hd : d.Holds values)
include hd

/-- The bit after the one searched for can be reached as well. -/
theorem nextBit : d.NextBit one next r q := by
  intro hnext
  obtain ⟨hq, hreach⟩ := hd.selects (h.next_selects hnext) (h.next_lt hnext)
  exact ⟨hreach, hq⟩

/-- A search from a bit that is known. -/
theorem search (target : Target)
    {r' hintPos k : Nat} (hhint : Selects (d.searched values one) r' hintPos) (hk : r' + k = r) :
    d.broadWordSearch target one k next hintPos = some (p, if next then q else 0) := by
  obtain ⟨hp, hreach⟩ := hd.selects h.selects h.lt
  obtain ⟨hhint', -⟩ := hd.selects hhint (by have := h.lt; omega)
  exact broadWordSearch_spec target hreach hp (hhint'.le_of_le hp (by omega))
    (by rw [hhint'.rank_eq, hk]) (h.nextBit hd)

/-- A look into the sparse index. -/
theorem sparse {limit base : Nat}
    (hlimit : limit < 2 ^ 32) (hroom : d.ptr.sparse + 4 * limit ≤ d.mem.length)
    (hbase : base + 256 ≤ limit)
    (hselects : ∀ k < 256, 256 * (r / 256) + k < d.ranks one → Selects (d.searched values one)
      (256 * (r / 256) + k) (sparseEntry d.mem d.ptr.sparse (base + k) + (256 * (r / 256) + k))) :
    d.selectSparse base r next = some (p, if next then q else 0) := by
  have hlt := h.lt
  have hversion : ¬d.opts.version ≤ 2 := by rw [hd.fits.legal.version_eq]; omega
  have hfirst := hselects (r % 256) (mod_lt r (by omega)) (by omega)
  rw [div_add_mod] at hfirst
  have hp := hfirst.unique h.selects
  have hsi : (base + r % kD1) % 2 ^ 32 = base + r % 256 := mod_eq_of_lt (by unfold kD1; omega)
  cases next with
  | false =>
    simp only [selectSparse, hsi, loadSparse_eq hroom (show base + r % 256 < limit by omega),
      bind_eq_bind, bind_some, Bool.false_eq_true, if_false, hversion, hp, pure_def]
  | true =>
    have hlt' := h.next_lt rfl
    have hblock := h.block rfl
    have hsecond := hselects (r % 256 + 1) (by omega) (by omega)
    rw [show 256 * (r / 256) + (r % 256 + 1) = r + 1 by omega] at hsecond
    have hq : sparseEntry d.mem d.ptr.sparse (base + (r % 256 + 1)) + r + 1 = q :=
      hsecond.unique (h.next_selects rfl)
    have hsi' : (base + r % 256 + 1) % 2 ^ 32 = base + (r % 256 + 1) := mod_eq_of_lt (by omega)
    simp only [selectSparse, hsi, hsi', loadSparse_eq hroom (show base + r % 256 < limit by omega),
      loadSparse_eq hroom (show base + (r % 256 + 1) < limit by omega), bind_eq_bind, bind_some,
        if_true, hversion, if_false, hp, hq, pure_def]

/-- `Select` finds the bits, whichever index there is. -/
theorem select_eq (target : Target) :
    d.select target one r next = some (p, if next then q else 0) := by
  obtain ⟨hp, hreach⟩ := hd.selects h.selects h.lt
  cases hindex : d.opts.hasIndex (if one then .ones else .zeros) with
  | false =>
    rw [select, if_pos hindex]
    exact broadWordSearch_spec target hreach hp zero_le (by simp) (h.nextBit hd)
  | true =>
    obtain ⟨limit, hlimit, hroom, hentry, hblock⟩ := hd.index hindex h.lt
    have hfits : d.dense one + 20 * (r / 256) + 20 ≤ d.mem.length := by omega
    have hguard : next = false ∨ r % kD1 ≠ kD1 - 1 := by
      cases next with
      | false => exact .inl rfl
      | true => exact .inr (h.block rfl)
    have hsmall : entryBase d.mem (d.dense one + 20 * (r / 256)) ≤ 2 ^ 32 - 1 := by
      have := field_lt d.mem (8 * (d.dense one + 20 * (r / 256))) 32
      unfold entryBase
      omega
    have hrun : d.select target one r next =
        if entryDelta d.mem (d.dense one + 20 * (r / 256)) 0 = 0 then
          d.broadWordSearch target one (r % 32) next
            (entryBase d.mem (d.dense one + 20 * (r / 256)) + 256 * (r / 256) +
              entryDelta d.mem (d.dense one + 20 * (r / 256)) (r % 256 / 32))
        else d.selectSparse (entryBase d.mem (d.dense one + 20 * (r / 256))) r next := by
      have hdelta := loadDelta_eq hfits (show r % 256 / 32 < 8 by omega)
      rw [select, if_neg (by rw [hindex]; simp), bind_eq_bind, guard_bind hguard]
      show (loadUnaligned 4 d.mem (d.dense one + 20 * (r / 256))).bind _ = _
      rw [loadBase_eq hfits]
      show (loadUnaligned 2 d.mem (d.dense one + 20 * (r / 256) + 4)).bind _ = _
      rw [loadKind_eq hfits, bind_some]
      split
      · show (loadUnaligned 2 d.mem
          (d.dense one + 20 * (r / 256) + 4 + 2 * (r % 256 / 32))).bind _ = _
        rw [hdelta, mul_comm 256]
        rfl
      · rw [guard_bind hsmall]
    rw [hrun]
    -- in a dense block the search starts at the nearest position that is noted
    cases hblock with
    | dense hzero hselects =>
      have hlt := h.lt
      rw [if_pos hzero]
      exact h.search hd target (hselects (r % 256 / 32) (by omega) (by omega)) (by omega)
    | sparse hne hbase hselects =>
      rw [if_neg hne]
      exact h.sparse hd hlimit hroom hbase hselects

end Wanted

end Decoder

end

open Gloop.Foundation Gloop.Coding.LittleEndian Nat

namespace Decoder

variable {d : Decoder} {values : List (BitVec 64)} {i : Nat}

/-! ## Low parts -/

/-- The low bits of a word, with and without `bmi2`. -/
theorem lowBits_eq (bmi2 : Bool) (x : BitVec 64) {width : Nat} (hwidth : width ≤ 64) :
    lowBits bmi2 x width = BitVec.ofNat 64 (x.toNat % 2 ^ width) := by
  cases bmi2 with
  | true => rfl
  | false =>
    rw [lowBits, if_neg (by simp)]
    apply BitVec.eq_of_getLsbD_eq
    intro j hj
    rw [BitVec.getLsbD_ofNat, testBit_mod_two_pow]
    split
    next hzero => simp [hzero]
    next =>
      rw [BitVec.getLsbD_and, BitVec.getLsbD_ushiftRight, BitVec.getLsbD_allOnes,
        decide_eq_true hj, Bool.true_and, Bool.and_comm]
      congr 1
      exact decide_eq_decide.mpr (by omega)

/-- The bits of a low field in the word that `Decode56` loads. -/
theorem Holds.loadLow (h : d.Holds values) (hi : i < values.length) (hwidth : d.opts.width ≠ 0) :
    ∃ word, load64 d.mem (d.ptr.low + i * d.opts.width / 8) = some word ∧
      (word >>> (i * d.opts.width % 8)).toNat % 2 ^ d.opts.width =
        values[i].toNat % 2 ^ d.opts.width := by
  have hfits := (low_lt_lowBytes (h.fits.size_eq ▸ hi) hwidth).1
  have hdense := h.placed.dense1_eq
  have hroom := h.room
  have hle := h.fits.legal.width_le
  refine ⟨_, load64_eq (by omega), ?_⟩
  rw [← h.low, BitVec.toNat_ushiftRight, shiftRight_eq_div_pow, BitVec.toNat_ofNat,
    mod_eq_of_lt (field_lt _ _ 64), field_field (by omega)]
  congr 1
  omega

theorem Holds.decode56 (h : d.Holds values) (bmi2 : Bool) (hi : i < values.length) :
    d.decode56 bmi2 i = some (BitVec.ofNat 64 (values[i].toNat % 2 ^ d.opts.width)) := by
  rw [Decoder.decode56]
  split
  next hzero =>
    rw [hzero, pow_zero, mod_one]
    rfl
  next hne =>
    obtain ⟨word, hload, hlow⟩ := h.loadLow hi hne
    have hle := h.fits.legal.width_le
    simp only [hload, Option.bind_eq_bind, Option.bind_some, Option.pure_def]
    rw [lowBits_eq bmi2 _ (by omega), hlow]

/-! ## Iterators -/

/-- The iterator is at the element with its index, or at the bit after the stream. -/
structure Iterator.At (d : Decoder) (values : List (BitVec 64)) (it : Iterator) : Prop where
  le : it.index ≤ d.opts.size
  selects : Selects (oneStream d.opts values) it.index it.pos

variable {it : Iterator}

section

variable (h : d.Holds values)
include h

theorem Holds.selects_one (hit : it.At d values) :
    Selects (d.stream true) it.index it.pos ∧ d.Reaches it.pos := by
  have hle := hit.selects.le_of_le h.fits.selects_sentinel hit.le
  refine ⟨hit.selects.congr fun k hk => ?_, h.reaches hle⟩
  exact (highStream_true _ _ _).trans (h.high k (hk.trans hle))

/-- There is an iterator at every index. -/
theorem Holds.exists_at (hi : i ≤ d.opts.size) : ∃ pos, Iterator.At d values ⟨i, pos⟩ := by
  rcases lt_or_eq_of_le hi with hlt | rfl
  · exact ⟨_, hi, h.fits.selects_one (h.fits.size_eq ▸ hlt)⟩
  · exact ⟨_, hi, h.fits.selects_sentinel⟩

/-- `begin()` is at the first element. -/
theorem Holds.begin : ∃ it, d.begin = some it ∧ it.index = 0 ∧ it.At d values := by
  obtain ⟨pos, hat⟩ := h.exists_at zero_le
  obtain ⟨hpos, hreach⟩ := h.selects_one hat
  refine ⟨⟨0, pos⟩, ?_, rfl, hat⟩
  rw [Decoder.begin, findNextSetBit_spec hreach zero_le (by simpa using hpos)]
  rfl

/-- `++` goes on to the next element. -/
theorem Holds.next (hit : it.At d values) (hlt : it.index < d.opts.size) :
    ∃ it', it.next d = some it' ∧ it'.index = it.index + 1 ∧ it'.At d values := by
  obtain ⟨hpos, -⟩ := h.selects_one hit
  obtain ⟨pos, hat⟩ := h.exists_at (show it.index + 1 ≤ d.opts.size from hlt)
  obtain ⟨hpos', hreach⟩ := h.selects_one hat
  have hscan : d.findNextSetBit (it.pos + 1) = some pos := by
    refine findNextSetBit_spec hreach (hpos.lt_of_lt hpos' (lt_succ_self _)) ?_
    rw [hpos.rank_succ_eq]
    exact hpos'
  have hindex : (it.index + 1) % 2 ^ 32 = it.index + 1 := by
    have := h.fits.legal.size_lt
    exact mod_eq_of_lt (by omega)
  refine ⟨⟨it.index + 1, pos⟩, ?_, rfl, hat⟩
  simp only [Iterator.next, hscan, hindex, Option.bind_eq_bind, Option.bind_some, Option.pure_def]

/-- `*` is the element. -/
theorem Holds.deref (bmi2 : Bool) (hit : it.At d values)
    (hlt : it.index < values.length) : it.deref bmi2 d = some values[it.index] := by
  have hpos := hit.selects.unique (h.fits.selects_one hlt)
  have hhi : BitVec.ofNat 64 it.pos - BitVec.ofNat 64 it.index =
      BitVec.ofNat 64 (values[it.index].toNat / 2 ^ d.opts.width) := by
    rw [ofNat_sub_ofNat (by omega), hpos, Nat.add_sub_cancel_left, highPart]
  rw [Iterator.deref, hhi]
  split
  next hzero => simp [hzero]
  next =>
    rw [h.decode56 bmi2 hlt]
    exact congrArg some (shiftLeft_or_ofNat_mod _)

/-- Iterating gives the encoded list. -/
theorem Holds.collect (bmi2 : Bool) : d.collect bmi2 = some values := by
  obtain ⟨it, hbegin, hindex, hat⟩ := h.begin
  have hsize := h.fits.size_eq
  rw [Decoder.collect, hbegin]
  refine iterate_eq
    (fun s : Iterator × List (BitVec 64) => s.1.At d values ∧ s.2 = values.take s.1.index)
    (fun s => values.length - s.1.index) ?_ ⟨hat, by rw [hindex, List.take_zero]⟩
  rintro ⟨it, out⟩ ⟨hat, hout⟩
  simp only at hat hout
  by_cases hend : it.index = d.opts.size
  · rw [hout, hend, hsize, List.take_length]
    exact .inr (if_pos hend)
  have hlt : it.index < d.opts.size := lt_of_le_of_ne hat.le hend
  obtain ⟨it', hnext, hindex', hat'⟩ := h.next hat hlt
  rw [hsize] at hlt
  refine .inl ⟨(it', out ++ [values[it.index]]), ?_, ⟨hat', ?_⟩, ?_⟩
  · rw [collectStep, if_neg (show ¬it.index = d.end.index from hend)]
    simp [h.deref bmi2 hat hlt, hnext]
  · simp only [hout, hindex', List.take_succ_eq_append_getElem hlt]
  · simp only [hindex']
    omega

/-- `IteratorAt(i)` is at element `i`. -/
theorem Holds.iteratorAt (target : Target) (hi : i < d.opts.size) :
    ∃ it, d.iteratorAt target i = some it ∧ it.index = i ∧ it.At d values := by
  obtain ⟨pos, hat⟩ := h.exists_at hi.le
  have hwanted : d.Wanted values true false i pos 0 :=
    ⟨hi, hat.selects, nofun, nofun, nofun⟩
  refine ⟨⟨i, pos⟩, ?_, rfl, hat⟩
  rw [Decoder.iteratorAt, Option.bind_eq_bind, guard_bind hi, hwanted.select_eq h]
  rfl

end

end Decoder

end Gloop.Coding.EliasFano

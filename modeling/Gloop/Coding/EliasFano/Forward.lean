import Gloop.Coding.EliasFano.Search
import Gloop.Coding.EliasFano.Decoder

/-!
# What the scans of `ForwardDecoder` do to its position

A position is loaded when its block is the word of the high bits that starts at some byte, with the
bits below `pos_` cleared (`Loaded`), and valid when there is a one at `pos_` as well (`Valid`). The
scans take loaded positions to valid ones. `BroadWordSearch` for zeros adds the place in the block
to a rank of 32 bits; its theorem therefore asks that the sum does not wrap.
-/

namespace Gloop.Coding.EliasFano

open Gloop.Foundation Gloop.Coding.LittleEndian Option Nat EliasFano.Decoder

namespace ForwardDecoder

variable {f : ForwardDecoder} {cur : Position} {byte p q r : Nat}

/-- The block is the word at `byte`, from the bit at `pos` on. -/
structure Loaded (f : ForwardDecoder) (block : BitVec 64) (pos byte : Nat) : Prop where
  window : Window (clearBelow pos (f.stream true)) (8 * byte) 64 block
  le : 8 * byte ≤ pos
  lt : pos < 8 * byte + 64

/-- There is also a one at the position. -/
structure Valid (f : ForwardDecoder) (cur : Position) (byte : Nat) : Prop
    extends Loaded f cur.block cur.pos byte where
  bit : f.stream true cur.pos = true

theorem rank_clearBelow_of_le (s : Nat → Bool) {n : Nat} (h : n ≤ p) :
    rank (clearBelow p s) n = 0 :=
  rank_eq_zero_iff.mpr fun _ hk => clearBelow_of_lt (hk.trans_le h)

/-- The position of the cursor, from the start of its block. -/
theorem Valid.posInBlock_eq (h : f.Valid cur byte) : 8 * byte + posInBlock cur = cur.pos := by
  refine h.window.countrZero_eq ?_ h.le h.lt
  rw [rank_clearBelow_of_le _ h.le, ← rank_clearBelow_of_le (f.stream true) (le_refl cur.pos)]
  exact ⟨(clearBelow_of_le (le_refl _)).trans h.bit, rfl⟩

/-- The block of a valid cursor has a bit left. -/
theorem Valid.block_ne_zero (h : f.Valid cur byte) : cur.block ≠ 0#64 :=
  h.window.ne_zero ⟨(clearBelow_of_le (le_refl _)).trans h.bit, rfl⟩ h.le h.lt

/-! ## `ScanForNextOne` -/

/-- The first one from `p` on is found. Words that are loaded start after `p`. -/
theorem scanForNextOne_spec (cur : Position) (hreach : f.Reaches q) (hpq : p ≤ q)
    (hq : Selects (f.stream true) (rank (f.stream true) p) q)
    (hwindow : Window (clearBelow p (f.stream true)) (8 * byte) 64 cur.block)
    (hle : 8 * byte ≤ q) (hp : p ≤ 8 * byte + 64) :
    ∃ block byte', f.scanForNextOne byte cur = some { cur with block, pos := q } ∧
      f.Valid { cur with block, pos := q } byte' ∧ (q < 8 * byte + 64 → byte' = byte) := by
  have hsel : Selects (clearBelow p (f.stream true)) 0 q := by
    have := hq.clearBelow hpq
    rwa [Nat.sub_self] at this
  have hrank : ∀ n ≤ q, rank (clearBelow p (f.stream true)) n = 0 := fun n hn =>
    hsel.rank_of_le (rank_zero _) (zero_le n) hn
  have hloop : ∃ out, iterate f.scanStep (byte, cur.block) = some out ∧
      Window (clearBelow p (f.stream true)) (8 * out.1) 64 out.2 ∧ 8 * out.1 ≤ q ∧
        q < 8 * out.1 + 64 ∧ (q < 8 * byte + 64 → out.1 = byte) := by
    refine iterate_total
      (fun s : Nat × BitVec 64 => Window (clearBelow p (f.stream true)) (8 * s.1) 64 s.2 ∧
        8 * s.1 ≤ q ∧ p ≤ 8 * s.1 + 64 ∧ (q < 8 * byte + 64 → s.1 = byte))
      _ (fun s => q - s.1) ?_ ⟨hwindow, hle, hp, fun _ => rfl⟩
    rintro ⟨it, block⟩ ⟨hwindow, hle, hp, hsame⟩
    simp only at hwindow hle hp hsame
    by_cases hin : q < 8 * it + 64
    · exact .inr ⟨(it, block), if_neg (hwindow.ne_zero hsel hle hin), hwindow, hle, hin, hsame⟩
    have hzero := hwindow.eq_zero hsel (hrank _ hle) (Nat.le_of_not_lt hin)
    obtain ⟨block', hload, hblock⟩ := hreach.loadHigh true (show 8 * (it + 8) ≤ q by omega)
    refine .inl ⟨(it + 8, block'), ?_, ⟨?_, ?_, ?_, ?_⟩, ?_⟩
    · rw [scanStep, if_pos hzero]
      simp [hload]
    · exact hblock.congr fun k hk _ => clearBelow_of_le (by omega)
    · omega
    · omega
    · omega
    · omega
  obtain ⟨⟨byte', block⟩, hrun, hwindow', hle', hlt', hsame⟩ := hloop
  have hpos : byte' * 8 + countrZero block = q := by
    rw [Nat.mul_comm]
    refine hwindow'.countrZero_eq ?_ hle' hlt'
    rwa [hrank _ hle']
  refine ⟨block, byte', ?_, ⟨⟨?_, hle', hlt'⟩, hq.bit⟩, hsame⟩
  · simp [scanForNextOne, hrun, hpos]
  · rw [← clearBelow_eq hq hpq]
    exact hwindow'

/-! ## `Next` and `ReloadBlock` -/

/-- The cursor goes on to the next bit. -/
theorem Valid.next (h : f.Valid cur byte) (hreach : f.Reaches q) (hlt : cur.pos < q)
    (hq : Selects (f.stream true) (rank (f.stream true) (cur.pos + 1)) q) :
    ∃ block byte', f.next cur = some ⟨block, (cur.index + 1) % 2 ^ 32, q⟩ ∧
      f.Valid ⟨block, (cur.index + 1) % 2 ^ 32, q⟩ byte' ∧ (q < 8 * byte + 64 → byte' = byte) := by
  have hpos := h.posInBlock_eq
  have hlt' := h.lt
  have hfirst : sub64 cur.pos (posInBlock cur) = 8 * byte := by
    have := hreach.lt
    rw [sub64_eq (by omega) (by omega)]
    omega
  have hwindow := h.window.clear_lowest h.bit h.le h.lt
  obtain ⟨block, byte', hrun, hvalid, hsame⟩ := scanForNextOne_spec
    ⟨cur.block &&& (cur.block - 1#64), (cur.index + 1) % 2 ^ 32, 8 * byte⟩ hreach hlt hq hwindow
    (by omega) (by omega)
  refine ⟨block, byte', ?_, hvalid, hsame⟩
  rw [ForwardDecoder.next, bind_eq_bind, guard_bind h.block_ne_zero]
  simp only [hfirst, Nat.mul_div_cancel_left byte (show 0 < 8 by omega)]
  exact hrun

/-- A block is loaded for a position. -/
theorem reloadBlock_spec (hreach : f.Reaches p) (cur : Position) :
    ∃ block, f.reloadBlock p cur = some { cur with block } ∧ f.Loaded block p (p / 8) := by
  obtain ⟨word, hload, hword⟩ := hreach.loadHigh true (show 8 * (p / 8) ≤ p by omega)
  refine ⟨maskBlock word (p % 8), ?_, ?_, by omega, by omega⟩
  · simp [reloadBlock, hload]
  · have := hword.mask (k := p % 8)
    rwa [div_add_mod] at this

/-! ## `BroadWordSearch` -/

/-- The loop stops at the word with the bit of rank `r` of a stream that agrees with the high bits
after the first word. -/
theorem broadWordLoop_spec {one : Bool} {t : Nat → Bool} {s : Decoder.Scan} (hreach : f.Reaches p)
    (ht : ∀ k, 8 * s.i + 64 ≤ k → t k = f.stream one k) (hp : Selects t r p)
    (hwindow : Window t (8 * s.i) 64 s.x) (hle : 8 * s.i ≤ p)
    (hrank : rank t (8 * s.i) + s.rank = r) :
    ∃ s', iterate (f.broadWordStep one) s = some s' ∧ Window t (8 * s'.i) 64 s'.x ∧
      8 * s'.i ≤ p ∧ p < 8 * s'.i + 64 ∧ rank t (8 * s'.i) + s'.rank = r := by
  refine iterate_total
    (fun w : Decoder.Scan => Window t (8 * w.i) 64 w.x ∧ 8 * w.i ≤ p ∧
      rank t (8 * w.i) + w.rank = r ∧ s.i ≤ w.i)
    _ (fun w => p - w.i) ?_ ⟨hwindow, hle, hrank, le_refl _⟩
  rintro w ⟨hwindow, hle, hrank, hi⟩
  have hcount := hwindow.rank_eq
  have hfound := hp.lt_iff (n := 8 * w.i + 64)
  by_cases hin : p < 8 * w.i + 64
  · exact .inr ⟨w, if_neg (by omega), hwindow, hle, hin, hrank⟩
  obtain ⟨x, hload, hx⟩ := hreach.loadHigh one (show 8 * (w.i + 8) ≤ p by omega)
  refine .inl ⟨⟨w.i + 8, w.rank - popcount w.x, x⟩, ?_, ⟨?_, ?_, ?_, ?_⟩, ?_⟩
  · rw [broadWordStep, if_pos (by omega)]
    simp [hload]
  · exact hx.congr fun k hk _ => ht k (by omega)
  · show 8 * (w.i + 8) ≤ p
    omega
  · show rank t (8 * (w.i + 8)) + (w.rank - popcount w.x) = r
    rw [show 8 * (w.i + 8) = 8 * w.i + 64 by omega]
    omega
  · show s.i ≤ w.i + 8
    omega
  · show p - (w.i + 8) < p - w.i
    omega

/-- `Nthbit` then gives the place of the bit in the word. -/
theorem nthbit_of_window (target : Target) {t : Nat → Bool} {s : Decoder.Scan}
    (hwindow : Window t (8 * s.i) 64 s.x) (hp : Selects t r p) (hle : 8 * s.i ≤ p)
    (hlt : p < 8 * s.i + 64) (hrank : rank t (8 * s.i) + s.rank = r) :
    nthbit target.useFastPath s.x s.rank = some (p - 8 * s.i) := by
  have hsel := hwindow.selects hp hle hlt
  rw [show r - rank t (8 * s.i) = s.rank by omega] at hsel
  exact nthbit_eq _ hsel

/-- The word that is left after a search is masked from the bit on. -/
theorem loaded_of_search {i : Nat} {block : BitVec 64} {pos : Nat}
    (hwindow : Window (clearBelow pos (f.stream true)) (8 * i) 64 block) (hpos : pos ≤ p)
    (hle : 8 * i ≤ p) (hlt : p < 8 * i + 64) : f.Loaded (maskBlock block (p - 8 * i)) p i := by
  refine ⟨?_, hle, hlt⟩
  have hmask := hwindow.mask (k := p - 8 * i)
  rw [Nat.add_sub_cancel' hle] at hmask
  refine hmask.congr fun k _ _ => ?_
  rcases lt_or_ge k p with hkp | hkp
  · rw [clearBelow_of_lt hkp, clearBelow_of_lt hkp]
  · rw [clearBelow_of_le hkp, clearBelow_of_le hkp, clearBelow_of_le (hpos.trans hkp)]

/-- The byte of the block is found from the position. -/
theorem sub64_pos (hload : f.Loaded cur.block cur.pos byte) (hreach : f.Reaches p)
    (hp : cur.pos ≤ p) : sub64 cur.pos (cur.pos - 8 * byte) / 8 = byte := by
  have hle := hload.le
  have hlt := hreach.lt
  rw [sub64_eq (by omega) (by omega)]
  omega

/-- The one of rank `k` from the position on. -/
theorem broadWordSearch_one (target : Target) (cur : Position) {k : Nat}
    (hload : f.Loaded cur.block cur.pos byte) (hreach : f.Reaches p) (hle : cur.pos ≤ p)
    (hp : Selects (f.stream true) r p) (hrank : rank (f.stream true) cur.pos + k = r) :
    ∃ block byte', f.broadWordSearch target true k (cur.pos - 8 * byte) cur =
        some (p, { cur with block }) ∧ f.Loaded block p byte' := by
  have hlow := hload.le
  have hsel := hp.clearBelow hle
  rw [show r - rank (f.stream true) cur.pos = k by omega] at hsel
  have hlater : ∀ j, 8 * byte + 64 ≤ j → clearBelow cur.pos (f.stream true) j = f.stream true j :=
    fun j hj => clearBelow_of_le (by have := hload.lt; omega)
  obtain ⟨s, hrun, hwindow, hle', hlt', hrank'⟩ := broadWordLoop_spec
    (s := ⟨byte, k, cur.block⟩) hreach hlater hsel hload.window (hlow.trans hle)
    (by rw [rank_clearBelow_of_le _ hlow]; exact zero_add k)
  refine ⟨maskBlock s.x (p - 8 * s.i), s.i, ?_, loaded_of_search hwindow hle hle' hlt'⟩
  simp [broadWordSearch, sub64_pos hload hreach hle, hrun,
    nthbit_of_window target hwindow hsel hle' hlt' hrank',
      show s.i * 8 + (p - 8 * s.i) = p by omega]

/-- The zero of rank `k` from the position on, and the one that follows it. -/
theorem broadWordSearch_zero (target : Target) (cur : Position) {k : Nat}
    (hload : f.Loaded cur.block cur.pos byte) (hreach : f.Reaches q) (hle : cur.pos ≤ p)
    (hp : Selects (f.stream false) r p) (hrank : rank (f.stream false) cur.pos + k = r)
    (hpq : p ≤ q) (hq : Selects (f.stream true) (rank (f.stream true) p) q)
    (hwrap : k + (cur.pos - 8 * byte) < 2 ^ 32) :
    ∃ block byte', f.broadWordSearch target false k (cur.pos - 8 * byte) cur =
        some (p, { cur with block, pos := q }) ∧ f.Valid { cur with block, pos := q } byte' := by
  have hlow := hload.le
  have hreach' := hreach.mono hpq
  have hnot : ∀ j, (!clearBelow cur.pos (f.stream true) j) =
      setBelow cur.pos (f.stream false) j := by
    intro j
    rcases lt_or_ge j cur.pos with hj | hj
    · rw [clearBelow_of_lt hj, setBelow_of_lt hj, Bool.not_false]
    · rw [clearBelow_of_le hj, setBelow_of_le hj]
      exact (highStream_false _ _ _).symm
  have hwindow : Window (setBelow cur.pos (f.stream false)) (8 * byte) 64 (~~~cur.block) :=
    hload.window.not.congr fun j _ _ => (hnot j).symm
  have hsel := hp.setBelow hle
  rw [show r - rank (f.stream false) cur.pos = k by omega] at hsel
  have hlater : ∀ j, 8 * byte + 64 ≤ j → setBelow cur.pos (f.stream false) j = f.stream false j :=
    fun j hj => setBelow_of_le (by have := hload.lt; omega)
  obtain ⟨s, hrun, hwindow', hle', hlt', hrank'⟩ := broadWordLoop_spec
    (s := ⟨byte, k + (cur.pos - 8 * byte), ~~~cur.block⟩) hreach' hlater hsel hwindow
    (hlow.trans hle) (by
      rw [rank_setBelow_of_le _ hlow]
      show 8 * byte + (k + (cur.pos - 8 * byte)) = cur.pos + k
      omega)
  -- negating the word again gives the ones
  have hones : Window (clearBelow cur.pos (f.stream true)) (8 * s.i) 64 (~~~s.x) :=
    hwindow'.not.congr fun j _ _ => by rw [← hnot j, Bool.not_not]
  have hloaded := loaded_of_search hones hle hle' hlt'
  obtain ⟨block, byte', hscan, hvalid, -⟩ := scanForNextOne_spec
    { cur with block := maskBlock (~~~s.x) (p - 8 * s.i) } hreach hpq hq hloaded.window (by omega)
    (by omega)
  refine ⟨block, byte', ?_, hvalid⟩
  simp only [broadWordSearch, sub64_pos hload hreach' hle, Bool.false_eq_true, if_false,
    mod_eq_of_lt hwrap, hrun, bind_eq_bind, bind_some,
    nthbit_of_window target hwindow' hsel hle' hlt' hrank', hscan, pure_def,
    show s.i * 8 + (p - 8 * s.i) = p by omega]

/-! ## `SelectWithIndex` -/

variable {values : List (BitVec 64)} {one : Bool} {limit : Nat}

/-- With a dense block it searches from the position of the entry. -/
theorem selectWithIndex_dense (target : Target) {dense : Nat} (cur : Position)
    (hentry : dense + 20 * (r / 256) + 20 ≤ f.mem.length)
    (hzero : entryDelta f.mem (dense + 20 * (r / 256)) 0 = 0) {hint : Nat}
    (hhint : entryBase f.mem (dense + 20 * (r / 256)) + 256 * (r / 256) +
      entryDelta f.mem (dense + 20 * (r / 256)) (r % 256 / 32) = hint) :
    f.selectWithIndex target one r dense cur =
      (f.reloadBlock hint { cur with pos := hint }).bind fun cur =>
        f.broadWordSearch target one (r % 32) (hint % 8) cur := by
  have hdelta := loadDelta_eq hentry (show r % 256 / 32 < 8 by omega)
  rw [mul_comm 256] at hhint
  show (loadUnaligned 4 f.mem (dense + 20 * (r / 256))).bind _ = _
  rw [loadBase_eq hentry]
  show (loadUnaligned 2 f.mem (dense + 20 * (r / 256) + 4)).bind _ = _
  rw [loadKind_eq hentry, bind_some, if_pos hzero]
  show (loadUnaligned 2 f.mem (dense + 20 * (r / 256) + 4 + 2 * (r % 256 / 32))).bind _ = _
  rw [hdelta, ← hhint]
  rfl

/-- With a sparse block it reads the position. -/
theorem selectWithIndex_sparse (target : Target) {dense : Nat} (cur : Position)
    (hversion : f.opts.version = 3) (hentry : dense + 20 * (r / 256) + 20 ≤ f.mem.length)
    (hne : entryDelta f.mem (dense + 20 * (r / 256)) 0 ≠ 0)
    (hroom : f.ptr.sparse + 4 * limit ≤ f.mem.length)
    (hlimit : entryBase f.mem (dense + 20 * (r / 256)) + 256 ≤ limit)
    (hp : sparseEntry f.mem f.ptr.sparse (entryBase f.mem (dense + 20 * (r / 256)) + r % 256) + r =
      p) :
    f.selectWithIndex target one r dense cur = (f.reloadBlock p cur).bind fun cur =>
        if one then some (p, { cur with pos := p })
        else (f.scanForNextOne (p / 8) cur).bind fun cur => some (p, cur) := by
  have hsparse := loadSparse_eq hroom
    (show entryBase f.mem (dense + 20 * (r / 256)) + r % 256 < limit by omega)
  have hguard : f.opts.version ≤ 2 ∨ r / kD1 * kD1 + r % kD1 = r :=
    .inr (by unfold kD1; omega)
  show (loadUnaligned 4 f.mem (dense + 20 * (r / 256))).bind _ = _
  rw [loadBase_eq hentry]
  show (loadUnaligned 2 f.mem (dense + 20 * (r / 256) + 4)).bind _ = _
  rw [loadKind_eq hentry, bind_some, if_neg hne]
  show (loadUnaligned 4 f.mem (f.ptr.sparse + 4 * (entryBase f.mem (dense + 20 * (r / 256)) +
    r % 256))).bind _ = _
  rw [hsparse, bind_some, bind_eq_bind, guard_bind hguard, hversion, hp]
  rfl

/-- The index either gives a bit to search from or the bit itself. -/
theorem selectWithIndex_cases (one : Bool) (h : f.Holds values) (target : Target) (cur : Position)
    (hindex : f.opts.hasIndex (if one then .ones else .zeros)) (hr : r < f.ranks one)
    (hp : Selects (f.searched values one) r p) :
    (∃ hint block, Selects (f.stream one) (r - r % 32) hint ∧ hint ≤ p ∧
      f.Loaded block hint (hint / 8) ∧ f.selectWithIndex target one r (f.dense one) cur =
        f.broadWordSearch target one (r % 32) (hint - 8 * (hint / 8)) ⟨block, cur.index, hint⟩) ∨
    (∃ block, f.Loaded block p (p / 8) ∧ f.selectWithIndex target one r (f.dense one) cur =
        if one then some (p, ⟨block, cur.index, p⟩)
        else (f.scanForNextOne (p / 8) ⟨block, cur.index, cur.pos⟩).bind fun cur =>
          some (p, cur)) := by
  obtain ⟨hsel, hreach⟩ := h.selects hp hr
  obtain ⟨limit, hlimit, hroom, hentry, hblock⟩ := h.index hindex hr
  have hfits : f.dense one + 20 * (r / 256) + 20 ≤ f.mem.length := by omega
  cases hblock with
  | dense hzero hselects =>
    left
    have hhint := hselects (r % 256 / 32) (by omega) (by omega)
    obtain ⟨hint, heq⟩ : ∃ hint, entryBase f.mem (f.dense one + 20 * (r / 256)) + 256 * (r / 256) +
      entryDelta f.mem (f.dense one + 20 * (r / 256)) (r % 256 / 32) = hint := ⟨_, rfl⟩
    rw [heq, show 256 * (r / 256) + 32 * (r % 256 / 32) = r - r % 32 by omega] at hhint
    obtain ⟨hhint', hreach'⟩ := h.selects hhint (by omega)
    obtain ⟨block, hreload, hload⟩ := reloadBlock_spec hreach' ⟨cur.block, cur.index, hint⟩
    refine ⟨hint, block, hhint', hhint'.le_of_le hsel (by omega), hload, ?_⟩
    rw [selectWithIndex_dense target cur hfits hzero heq, hreload, bind_some,
      show hint - 8 * (hint / 8) = hint % 8 by omega]
  | sparse hne hbase hselects =>
    right
    have hfound := hselects (r % 256) (by omega) (by omega)
    rw [div_add_mod] at hfound
    obtain ⟨block, hreload, hload⟩ := reloadBlock_spec hreach cur
    refine ⟨block, hload, ?_⟩
    rw [selectWithIndex_sparse target cur h.fits.legal.version_eq hfits hne hroom hbase
      (hfound.unique hp), hreload, bind_some]

/-! ## `SelectOne` and `SelectZero` -/

/-- The position is at the element with its index, or at the bit after the stream. -/
structure At (f : ForwardDecoder) (values : List (BitVec 64)) (cur : Position) (byte : Nat) : Prop
    extends Valid f cur byte where
  index_le : cur.index ≤ f.opts.size
  selects : Selects (oneStream f.opts values) cur.index cur.pos

variable (h : f.Holds values)
include h

/-- The one of a rank, in the memory of the decoder. -/
theorem selects_one (hr : r ≤ f.opts.size)
    (hp : Selects (oneStream f.opts values) r p) : Selects (f.stream true) r p ∧ f.Reaches p :=
  h.selects_one (show Decoder.Iterator.At f.toDecoder values ⟨r, p⟩ from ⟨hr, hp⟩)

variable (hcur : f.At values cur byte)
include hcur

/-- The cursor goes on to the next element. -/
theorem At.next (hlt : cur.index < f.opts.size) :
    ∃ cur' byte', f.next cur = some cur' ∧ f.At values cur' byte' ∧ cur'.index = cur.index + 1 ∧
      (cur'.pos < 8 * byte + 64 → byte' = byte) := by
  obtain ⟨hpos, -⟩ := selects_one h hcur.index_le hcur.selects
  obtain ⟨q, hq⟩ := h.exists_at (show cur.index + 1 ≤ f.opts.size from hlt)
  obtain ⟨hq', hreach⟩ := selects_one h hlt hq.selects
  obtain ⟨block, byte', hrun, hvalid, hsame⟩ := hcur.toValid.next hreach
    (hpos.lt_of_lt hq' (lt_succ_self _)) (by rw [hpos.rank_succ_eq]; exact hq')
  have hindex : (cur.index + 1) % 2 ^ 32 = cur.index + 1 :=
    mod_eq_of_lt (by have := h.fits.legal.size_lt; omega)
  rw [hindex] at hrun hvalid
  exact ⟨_, byte', hrun, ⟨hvalid, hlt, hq.selects⟩, rfl, hsame⟩

omit h hcur in
/-- A decoder without an index scans. -/
theorem hasIndex_of_not_scan {distance : Nat} (h : ¬f.shouldScan one distance) :
    f.opts.hasIndex (if one then .ones else .zeros) = true := by
  by_contra hnone
  rw [shouldScan, Bool.eq_false_of_not_eq_true hnone] at h
  exact h rfl

/-- The bit of an element that is not before the cursor. -/
theorem At.selectOne (target : Target)
    (hle : cur.index ≤ r) (hr : r < f.opts.size) (hp : Selects (oneStream f.opts values) r p) :
    ∃ cur' byte', f.selectOne target r cur = some (p, cur') ∧ f.Loaded cur'.block p byte' := by
  obtain ⟨hpos, -⟩ := selects_one h hcur.index_le hcur.selects
  obtain ⟨hp', hreach⟩ := selects_one h hr.le hp
  have hplace := hcur.posInBlock_eq
  have hpib : posInBlock cur = cur.pos - 8 * byte := by omega
  rw [ForwardDecoder.selectOne, bind_eq_bind, guard_bind hle]
  dsimp only
  split
  next hone =>
    obtain ⟨cur', byte', hrun, hcur', hindex, -⟩ := hcur.next h (by omega)
    obtain rfl : cur'.pos = p := by
      have hsel := hcur'.selects
      rw [show cur'.index = r by omega] at hsel
      exact hsel.unique hp
    refine ⟨cur', byte', ?_, hcur'.toLoaded⟩
    rw [hrun]
    rfl
  next =>
    split
    next =>
      obtain ⟨block, byte', hrun, hload⟩ := broadWordSearch_one target cur hcur.toLoaded hreach
        (hpos.le_of_le hp' hle) hp' (show rank (f.stream true) cur.pos + (r - cur.index) = r by
          rw [hpos.rank_eq]; omega)
      exact ⟨_, byte', by rw [hpib, hrun], hload⟩
    next hscan =>
      rcases selectWithIndex_cases true h target cur (hasIndex_of_not_scan hscan) hr hp with
        ⟨hint, block, hhint, hle', hload, hrun⟩ | ⟨block, hload, hrun⟩
      · obtain ⟨block', byte', hsearch, hload'⟩ := broadWordSearch_one target
          ⟨block, cur.index, hint⟩ hload hreach hle' hp'
          (show rank (f.stream true) hint + r % 32 = r by rw [hhint.rank_eq]; omega)
        exact ⟨_, byte', hrun.trans hsearch, hload'⟩
      · exact ⟨_, p / 8, hrun.trans (if_pos rfl), hload⟩

omit h hcur in
/-- Every bit is a one or a zero. -/
theorem rank_stream (f : ForwardDecoder) (n : Nat) :
    rank (f.stream true) n + rank (f.stream false) n = n := by
  have hnot : f.stream false = fun k => !f.stream true k := funext fun k => highStream_false _ _ k
  rw [hnot]
  exact rank_not _ n

/-- The position of an element gives its high bits. -/
theorem At.pos_eq (hlt : cur.index < values.length) :
    cur.pos = cur.index + highPart f.opts.width values[cur.index] :=
  hcur.selects.unique (h.fits.selects_one hlt)

/-- The high bits are found from position and index. -/
theorem At.sub64_eq : sub64 cur.pos cur.index = cur.pos - cur.index := by
  have hle := hcur.selects.le
  have hreach := (selects_one h hcur.index_le hcur.selects).2.lt
  exact EliasFano.sub64_eq hle (by omega)

/-- The rank in a search for zeros from the position does not wrap. -/
def Unwrapped (f : ForwardDecoder) (cur : Position) (r : Nat) : Prop :=
  f.shouldScan false (r - (cur.pos - cur.index)) = true →
    r - (cur.pos - cur.index) + posInBlock cur < 2 ^ 32

/-- `SelectZero` finds the zero of rank `r` and moves to the one after it. -/
theorem At.selectZero (target : Target) (hle : cur.pos - cur.index ≤ r) (hr : r < f.opts.zeroBits)
    (hwrap : f.Unwrapped cur r) (hp : Selects (zeroStream f.opts values) r p) (hpq : p ≤ q)
    (hreach : f.Reaches q) (hq : Selects (f.stream true) (rank (f.stream true) p) q) :
    ∃ block byte', f.selectZero target r cur = some (p, { cur with block, pos := q }) ∧
      f.Valid { cur with block, pos := q } byte' := by
  obtain ⟨hpos, hreachPos⟩ := selects_one h hcur.index_le hcur.selects
  obtain ⟨hp', -⟩ := h.selects (show Selects (f.searched values false) r p from hp) hr
  have hranks := rank_stream f cur.pos
  rw [hpos.rank_eq] at hranks
  have hpos_le := hp'.lt_iff (n := cur.pos)
  have hplace := hcur.posInBlock_eq
  have hpib : posInBlock cur = cur.pos - 8 * byte := by omega
  have hzeroes : sub64 cur.pos cur.index % 2 ^ 32 = cur.pos - cur.index := by
    have := h.fits.legal.zeroBits_lt
    rw [hcur.sub64_eq h, mod_eq_of_lt (by omega)]
  rw [ForwardDecoder.selectZero]
  dsimp only
  rw [hzeroes, bind_eq_bind, guard_bind hle]
  split
  next hscan =>
    -- a scan counts from the position on, so the rank it adds to may be large
    have hwrap' := hwrap hscan
    rw [hpib] at hwrap' ⊢
    exact broadWordSearch_zero target cur hcur.toLoaded hreach (by omega) hp' (by omega) hpq hq
      hwrap'
  next hscan =>
    rcases selectWithIndex_cases false h target cur (hasIndex_of_not_scan hscan) hr hp with
      ⟨hint, block, hhint, hle', hload, hrun⟩ | ⟨block, hload, hrun⟩
    · obtain ⟨block', byte', hsearch, hvalid⟩ := broadWordSearch_zero target
        ⟨block, cur.index, hint⟩ hload hreach hle' hp'
        (show rank (f.stream false) hint + r % 32 = r by rw [hhint.rank_eq]; omega) hpq hq
        (show r % 32 + (hint - 8 * (hint / 8)) < 2 ^ 32 by omega)
      exact ⟨block', byte', hrun.trans hsearch, hvalid⟩
    · obtain ⟨block', byte', hscan', hvalid, -⟩ := scanForNextOne_spec ⟨block, cur.index, cur.pos⟩
        hreach hpq hq hload.window (by omega) (by omega)
      refine ⟨block', byte', hrun.trans ?_, hvalid⟩
      rw [hscan']
      rfl

/-- `AdvanceToValue` first skips the elements with a smaller high part. -/
theorem At.skipToHigh {hi : Nat} (target : Target) (hlt : cur.index < f.opts.size)
    (hhi : hi ≤ f.opts.zeroBits) (hwrap : f.Unwrapped cur (hi - 1)) :
    ∃ cur' byte', f.skipToHigh target hi cur = some cur' ∧ f.At values cur' byte' ∧
      cur'.index = max cur.index (below f.opts values hi) := by
  have hlength : cur.index < values.length := h.fits.size_eq ▸ hlt
  have hpos := hcur.pos_eq h hlength
  have hbelow := h.fits.lt_below_iff (h := hi) hlength
  rw [ForwardDecoder.skipToHigh, hcur.sub64_eq h]
  split
  next hskip =>
    -- the ones before the zero are the elements that are skipped
    have hp := h.fits.selects_below (hi - 1)
    rw [show hi - 1 + 1 = hi by omega] at hp
    obtain ⟨hp', -⟩ :=
      h.selects (show Selects (f.searched values false) _ _ from hp)
        (show hi - 1 < f.opts.zeroBits by omega)
    have hranks := rank_stream f (hi - 1 + below f.opts values hi)
    rw [hp'.rank_eq] at hranks
    have hsize := h.fits.below_le hi
    obtain ⟨q, hq⟩ := h.exists_at hsize
    obtain ⟨hq', hreach⟩ := selects_one h hsize hq.selects
    have hcount : rank (f.stream true) (hi - 1 + below f.opts values hi) =
        below f.opts values hi := by
      omega
    have hpq : hi - 1 + below f.opts values hi ≤ q :=
      Nat.le_of_not_lt (mt hq'.lt_iff.mp hcount.not_gt)
    obtain ⟨block, byte', hrun, hvalid⟩ := hcur.selectZero h target (by omega) (by omega) hwrap hp
      hpq hreach (by rw [hcount]; exact hq')
    have hindex : sub64 (hi - 1 + below f.opts values hi)
        (hi - 1) % 2 ^ 32 = below f.opts values hi := by
      have hlt' : q < 2 ^ 34 := hreach.lt
      have := h.fits.legal.size_lt
      rw [EliasFano.sub64_eq (by omega) (by omega), Nat.add_sub_cancel_left,
        mod_eq_of_lt (by omega)]
    refine ⟨⟨block, below f.opts values hi, q⟩, byte', ?_, ⟨⟨hvalid.toLoaded, hvalid.bit⟩, hsize,
      hq.selects⟩, ?_⟩
    · simp only [hrun, bind_eq_bind, bind_some, hindex, pure_def]
    · show below f.opts values hi = _
      omega
  next hstay =>
    refine ⟨cur, byte, rfl, hcur, ?_⟩
    omega

end ForwardDecoder

end Gloop.Coding.EliasFano

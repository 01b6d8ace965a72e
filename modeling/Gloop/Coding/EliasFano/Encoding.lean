import Gloop.Coding.EliasFano.Index

/-!
# What a finished encoding holds

`Encoding` describes the bytes of a finished encoding of a sorted list: the metadata, the unary
stream of the high parts with a set bit after it, the fields of the low parts, and the indexes that
were asked for. `Encoder.Appended.finalize` says that `Finalize` succeeds and leaves such bytes. The
decoders are verified against this description alone.
-/

namespace Gloop.Coding.EliasFano

open Gloop.Foundation List Option Nat

/-! ## The streams of a sorted list -/

/-- The ones of the high bits. The bit after the stream counts as one more element. -/
def oneStream (opts : Options) (values : List (BitVec 64)) : Nat → Bool :=
  unaryBit (highParts opts.width values ++ [opts.zeroBits])

/-- The zeros of the high bits. -/
def zeroStream (opts : Options) (values : List (BitVec 64)) (k : Nat) : Bool :=
  !unaryBit (highParts opts.width values) k

/-- A list that the options are made for. -/
structure Options.Fits (opts : Options) (values : List (BitVec 64)) : Prop where
  legal : opts.Legal
  size_eq : opts.size = values.length
  maxValue_eq : opts.maxValue = values.getLastD 0
  sorted : values.Pairwise (· ≤ ·)

namespace Options.Fits

variable {opts : Options} {values : List (BitVec 64)}

section

variable (h : opts.Fits values)
include h

theorem length_highParts : (highParts opts.width values).length = opts.size := by
  rw [highParts, length_map, h.size_eq]

/-- No element is larger than the last one. -/
theorem le_maxValue {v : BitVec 64} (hv : v ∈ values) : v ≤ opts.maxValue := by
  obtain ⟨front, hfront⟩ : ∃ front, values = front ++ [opts.maxValue] := by
    have hne : values ≠ [] := ne_nil_of_mem hv
    refine ⟨values.dropLast, ?_⟩
    rw [h.maxValue_eq, getLastD_eq_getLast?, getLast?_eq_some_getLast hne, getD_some,
      dropLast_append_getLast]
  have hsorted := h.sorted
  rw [hfront, pairwise_append] at hsorted
  rw [hfront, mem_append, mem_singleton] at hv
  rcases hv with hmem | rfl
  · exact hsorted.2.2 v hmem _ mem_cons_self
  · exact Nat.le_refl _

/-- The high bits of an element are no more than the zeros. -/
theorem highPart_le {v : BitVec 64} (hv : v ∈ values) : highPart opts.width v ≤ opts.zeroBits := by
  rw [h.legal.zeroBits_eq]
  exact Nat.div_le_div_right (h.le_maxValue hv)

/-- The high bits of a sorted list are sorted. -/
theorem pairwise_high : (highParts opts.width values).Pairwise (· ≤ ·) := by
  rw [highParts, pairwise_map]
  exact h.sorted.imp fun hab => Nat.div_le_div_right hab

theorem pairwise_concat : (highParts opts.width values ++ [opts.zeroBits]).Pairwise (· ≤ ·) := by
  rw [pairwise_append]
  refine ⟨h.pairwise_high, pairwise_singleton _ _, fun a ha b hb => ?_⟩
  obtain ⟨v, hv, rfl⟩ := mem_map.mp ha
  rw [mem_singleton.mp hb]
  exact h.highPart_le hv

/-- Element `i` is the one of rank `i`. -/
theorem selects_one {i : Nat} (hi : i < values.length) :
    Selects (oneStream opts values) i (i + highPart opts.width values[i]) := by
  have hsel := selects_unaryBit (i := i) h.pairwise_concat (by simp [highParts]; omega)
  rw [getElem_append_left (by simpa [highParts] using hi)] at hsel
  simpa only [oneStream, highParts, getElem_map] using hsel

/-- The bit after the stream comes after all elements. -/
theorem selects_sentinel : Selects (oneStream opts values) opts.size opts.bits := by
  have hlength : opts.size < (highParts opts.width values ++ [opts.zeroBits]).length := by
    rw [length_append, h.length_highParts]
    exact lt_succ_self _
  have hsel := selects_unaryBit h.pairwise_concat hlength
  rw [getElem_append_right (by rw [h.length_highParts]), getElem_singleton] at hsel
  rwa [Options.bits, h.legal.oneBits_eq]

/-- Before the bit after the stream both streams agree. -/
theorem oneStream_eq {k : Nat} (hk : k ≠ opts.bits) :
    oneStream opts values k = unaryBit (highParts opts.width values) k := by
  rw [oneStream, unaryBit_concat, h.length_highParts, ← h.legal.oneBits_eq]
  exact (congrArg _ (decide_eq_false hk)).trans (Bool.or_false _)

/-- The zero of rank `k` comes after the elements whose high part is at most `k`. -/
theorem selects_zero (k : Nat) :
    Selects (zeroStream opts values) k (k + (highParts opts.width values).countP (· ≤ k)) :=
  selects_not_unaryBit h.pairwise_high k

/-- The bit after the stream counts as one more zero. -/
theorem selects_zero_sentinel : Selects (zeroStream opts values) opts.zeroBits opts.bits := by
  have hsel := h.selects_zero opts.zeroBits
  have hall : (highParts opts.width values).countP (· ≤ opts.zeroBits) = opts.size := by
    rw [← h.length_highParts, countP_eq_length]
    intro a ha
    obtain ⟨v, hv, rfl⟩ := mem_map.mp ha
    simpa using h.highPart_le hv
  rwa [hall, add_comm, ← h.legal.oneBits_eq] at hsel

end

end Options.Fits

/-- A finished encoding of the values. -/
structure Encoding (bytes : List Byte) (opts : Options) (ptr : Pointers)
    (values : List (BitVec 64)) : Prop where
  fits : opts.Fits values
  placed : ptr.Placed opts
  metadata : HoldsAt bytes 0 opts.metadata
  room : ptr.dense1 + 7 ≤ bytes.length
  high : ∀ k ≤ opts.bits, bitAt bytes (8 * ptr.high + k) = oneStream opts values k
  low : ∀ i (hi : i < values.length), field bytes (8 * ptr.low + i * opts.width) opts.width =
    values[i].toNat % 2 ^ opts.width
  ones : opts.hasIndex .ones → ∃ limit < 2 ^ 32, ptr.sparse + 4 * limit ≤ bytes.length ∧
    ∀ d < opts.oneDenseSize,
      BlockIndexed bytes ptr.dense1 ptr.sparse limit (oneStream opts values) opts.size d
  zeros : opts.hasIndex .zeros → ∃ limit < 2 ^ 32, ptr.sparse + 4 * limit ≤ bytes.length ∧
    ∀ d < opts.zeroDenseSize,
      BlockIndexed bytes ptr.dense0 ptr.sparse limit (zeroStream opts values) opts.zeroBits d

/-! ## The room for the indexes -/

/-- The number of blocks for a number of bits. -/
theorem iceil_bounds (q : Nat) :
    q ≤ 256 * Options.iceil q kD1 ∧ 256 * Options.iceil q kD1 < q + 256 := by
  unfold Options.iceil kD1
  split <;> omega

/-- There are sparse entries for as many blocks as can be spread out. -/
theorem Options.budget {opts : Options} {ones zeros : Nat}
    (hones : ones = 0 ∨ opts.hasIndex .ones ∧ 65280 * ones ≤ opts.zeroBits)
    (hzeros : zeros = 0 ∨ opts.hasIndex .zeros ∧ 65280 * zeros ≤ opts.oneBits) :
    256 * (ones + zeros) ≤ opts.maxSparseSize := by
  have hper : ∀ {c : Bool} {blocks total : Nat}, blocks = 0 ∨ c ∧ 65280 * blocks ≤ total →
      blocks ≤ if c then total / (kR - kD1) else 0 := by
    rintro c blocks total (rfl | ⟨hindex, hle⟩)
    · exact zero_le _
    · rw [if_pos hindex, le_div_iff_mul_le (by decide), mul_comm]
      exact hle
  have htotal : ones + zeros ≤ opts.bits / (kR - kD1) := by
    rw [le_div_iff_mul_le (by decide), mul_comm, Options.bits]
    show 65280 * (ones + zeros) ≤ _
    lia
  rw [mul_comm]
  exact Nat.mul_le_mul_right _ (Nat.le_min.mpr ⟨htotal, Nat.add_le_add (hper hones) (hper hzeros)⟩)

theorem Options.Legal.maxSparseSize_lt {opts : Options} (h : opts.Legal) :
    opts.maxSparseSize < 2 ^ 32 := by
  have hsize := h.size_lt
  have hzeros := h.zeroBits_lt
  have hle : opts.maxSparseSize ≤ opts.bits / 65280 * 256 :=
    mul_le_mul_right _ (min_le_left _ _)
  rw [Options.bits, h.oneBits_eq] at hle
  omega

/-- The index leaves the bytes before it as they are. -/
theorem IndexFrame.frame {mem mem' : List Byte} {lo hi sparse : Nat}
    (h : IndexFrame mem mem' lo hi sparse) (hlo : lo ≤ sparse) :
    Frame mem mem' (8 * lo) (8 * mem.length) := by
  refine ⟨h.length_eq, fun j hj => ?_⟩
  rcases hj with hbefore | hafter
  · exact h.bits j (by omega) (.inl hbefore)
  · rw [bitAt_of_le hafter, bitAt_of_le (h.length_eq.symm ▸ hafter)]

namespace Encoder

variable {e : Encoder} {values : List (BitVec 64)}

/-- All values are there, and the bit after the stream is set. -/
structure Streamed (e : Encoder) (values : List (BitVec 64)) : Prop where
  ready : e.Ready
  fits : e.opts.Fits values
  high : ∀ k ≤ e.opts.bits, bitAt e.mem (8 * e.ptr.high + k) = oneStream e.opts values k
  low : ∀ i (hi : i < values.length), field e.mem (8 * e.ptr.low + i * e.opts.width) e.opts.width =
    values[i].toNat % 2 ^ e.opts.width

namespace Streamed

section

variable (h : e.Streamed values)
include h

/-- The high bits are before the index. -/
theorem high_lt_dense : 8 * e.ptr.high + e.opts.bits < 8 * e.ptr.dense1 := by
  have hbits := bits_lt_highBytes e.opts
  have hlow := h.ready.placed.low_eq
  have hdense := h.ready.placed.dense1_eq
  omega

/-- The low bits are before the index. -/
theorem low_le_dense {i : Nat} (hi : i < values.length) :
    8 * e.ptr.low + i * e.opts.width + e.opts.width ≤ 8 * e.ptr.dense1 := by
  have hdense := h.ready.placed.dense1_eq
  rcases Nat.eq_zero_or_pos e.opts.width with hzero | hpos
  · rw [hzero]
    omega
  · have hlast := (low_lt_lowBytes (h.fits.size_eq ▸ hi) hpos.ne').2
    rw [add_mul] at hlast
    omega

/-- Writing an index keeps the streams. -/
theorem frame {mem : List Byte} {hi : Nat}
    (hframe : Frame e.mem mem (8 * e.ptr.dense1) hi) : Streamed { e with mem } values := by
  have hhigh := h.high_lt_dense
  refine ⟨h.ready.frame hframe (by omega) rfl rfl rfl, h.fits, fun k hk => ?_, fun i hi => ?_⟩
  · have hk' : k ≤ e.opts.bits := hk
    have hbit : bitAt mem (8 * e.ptr.high + k) = bitAt e.mem (8 * e.ptr.high + k) :=
      hframe.bits _ (by omega)
    exact hbit.trans (h.high k hk)
  · exact (hframe.field_eq (.inl (h.low_le_dense hi))).trans (h.low i hi)

/-- All words of the stream are in memory. -/
theorem word_le {byte : Nat} (hbyte : 8 * byte ≤ e.opts.bits) :
    e.ptr.high + byte + 8 ≤ e.mem.length := by
  have hbits := bits_lt_highBytes e.opts
  have hlow := h.ready.placed.low_eq
  have hdense := h.ready.placed.dense1_eq
  have hroom := h.ready.low_room
  omega

/-- Options with an index are for at least one element. -/
theorem size_pos (hindex : e.opts.index ≠ 0) : 0 < e.opts.size := by
  by_contra hzero
  apply hindex
  apply h.fits.legal.index_eq_zero
  have hnil : values = [] := by
    rw [← length_eq_zero_iff, ← h.fits.size_eq]
    omega
  have hmax : e.opts.maxValue = 0 := by rw [h.fits.maxValue_eq, hnil]; rfl
  rw [Options.bits, h.fits.legal.oneBits_eq, h.fits.legal.zeroBits_eq, hmax]
  simp
  omega

/-- There is room for the index of the ones. -/
theorem oneRoom (hindex : e.opts.hasIndex .ones) :
    BuildRoom e true (oneStream e.opts values) e.opts.bits e.opts.size e.ptr.dense1
      e.opts.oneDenseSize
      0 where
  bits_eq := rfl
  positive := h.size_pos fun hzero => by simp [Options.hasIndex, hzero, IndexChoice.toNat] at hindex
  ranks := h.fits.legal.size_lt
  others := by
    rw [Options.bits, h.fits.legal.oneBits_eq, Nat.add_sub_cancel_left]
    exact h.fits.legal.zeroBits_lt
  sentinel := h.fits.selects_sentinel
  stream k hk := by rw [highStream_true, h.high k hk]
  words byte hbyte := h.word_le hbyte
  high_lt := h.high_lt_dense
  entries := by
    rw [Options.oneDenseSize, if_pos hindex, h.fits.legal.oneBits_eq]
    exact (iceil_bounds _).1
  entries_lt := by
    rw [Options.oneDenseSize, if_pos hindex, h.fits.legal.oneBits_eq]
    exact (iceil_bounds _).2
  dense_le := by
    rw [h.ready.placed.sparse_eq, h.ready.placed.dense0_eq]
    omega
  memory := h.ready.sparse_room
  maxSparse := h.fits.legal.maxSparseSize_lt
  budget blocks hblocks := by
    rw [Options.bits, h.fits.legal.oneBits_eq, Nat.add_sub_cancel_left] at hblocks
    have hbudget := Options.budget (.inr ⟨hindex, hblocks⟩) (.inl (show 0 = 0 from rfl))
    rwa [zero_add]

/-- There is room for the index of the zeros after that of the ones. -/
theorem zeroRoom (hindex : e.opts.hasIndex .zeros) (hzeros : e.opts.zeroBits ≠ 0) {mem : List Byte}
    (hover : Overwrites e.mem mem (8 * e.ptr.high + e.opts.bits) 1 0) {ones : Nat}
    (hones : ones = 0 ∨ e.opts.hasIndex .ones ∧ 65280 * ones ≤ e.opts.zeroBits) :
    BuildRoom { e with mem } false (zeroStream e.opts values) e.opts.bits
      e.opts.zeroBits e.ptr.dense0
      e.opts.zeroDenseSize (256 * ones) where
  bits_eq := rfl
  positive := pos_of_ne_zero hzeros
  ranks := h.fits.legal.zeroBits_lt
  others := by
    rw [Options.bits, Nat.add_sub_cancel, h.fits.legal.oneBits_eq]
    exact h.fits.legal.size_lt
  sentinel := h.fits.selects_zero_sentinel
  stream k hk := by
    show highStream false mem e.ptr.high k = _
    rw [highStream_false, highStream_true, hover.bits]
    by_cases hlast : k = e.opts.bits
    · rw [if_pos (by omega), hlast, h.fits.selects_zero_sentinel.bit, zero_testBit, Bool.not_false]
    · rw [if_neg (by omega), h.high k hk, h.fits.oneStream_eq hlast, zeroStream]
  words byte hbyte := by
    rw [hover.length_eq]
    exact h.word_le hbyte
  high_lt := by
    have hdense := h.ready.placed.dense0_eq
    have hhigh := h.high_lt_dense
    show 8 * e.ptr.high + e.opts.bits < 8 * e.ptr.dense0
    omega
  entries := by
    rw [Options.zeroDenseSize, if_pos hindex]
    exact (iceil_bounds _).1
  entries_lt := by
    rw [Options.zeroDenseSize, if_pos hindex]
    exact (iceil_bounds _).2
  dense_le := h.ready.placed.sparse_eq.ge
  memory := by
    rw [hover.length_eq]
    exact h.ready.sparse_room
  maxSparse := h.fits.legal.maxSparseSize_lt
  budget blocks hblocks := by
    rw [Options.bits, Nat.add_sub_cancel] at hblocks
    rw [← mul_add]
    exact Options.budget hones (.inr ⟨hindex, hblocks⟩)

/-- The first index, if it is asked for. -/
theorem buildOnes :
    ∃ mem ones, (if e.opts.hasIndex .ones then e.buildIndex true e.ptr.dense1 0 else some (e, 0)) =
        some ({ e with mem }, 256 * ones) ∧
      IndexFrame e.mem mem e.ptr.dense1 e.ptr.dense0 e.ptr.sparse ∧
      (ones = 0 ∨ e.opts.hasIndex .ones ∧ 65280 * ones ≤ e.opts.zeroBits) ∧
      ∀ d < e.opts.oneDenseSize, BlockIndexed mem e.ptr.dense1 e.ptr.sparse (256 * ones)
        (oneStream e.opts values) e.opts.size d := by
  by_cases hindex : e.opts.hasIndex .ones
  · obtain ⟨mem, size, hrun, hindexed⟩ := buildIndex_true (h.oneRoom hindex)
    obtain ⟨ones, hsize, hones⟩ := hindexed.size_eq
    rw [zero_add] at hsize
    subst hsize
    rw [Options.bits, h.fits.legal.oneBits_eq, Nat.add_sub_cancel_left] at hones
    refine ⟨mem, ones, ?_, ?_, .inr ⟨hindex, hones⟩, hindexed.blocks⟩
    · rw [if_pos hindex, hrun]
    · rw [h.ready.placed.dense0_eq]
      exact hindexed.frame
  · refine ⟨e.mem, 0, by rw [if_neg hindex], ⟨rfl, fun _ _ _ => rfl⟩, .inl rfl, fun d hd => ?_⟩
    rw [Options.oneDenseSize, if_neg hindex] at hd
    exact absurd hd (not_lt_zero d)

/-- The second index, if it is asked for. -/
theorem buildZeros {ones : Nat} (hones : ones = 0 ∨ e.opts.hasIndex .ones ∧
    65280 * ones ≤ e.opts.zeroBits) : ∃ mem zeros,
      (if e.opts.hasIndex .zeros then e.buildIndex false e.ptr.dense0 (256 * ones)
          else some (e, 256 * ones)) = some ({ e with mem }, 256 * (ones + zeros)) ∧
      IndexFrame e.mem mem e.ptr.dense0 e.ptr.sparse (e.ptr.sparse + 4 * (256 * ones)) ∧
      256 * (ones + zeros) ≤ e.opts.maxSparseSize ∧
      ∀ d < e.opts.zeroDenseSize, BlockIndexed mem e.ptr.dense0 e.ptr.sparse (256 * (ones + zeros))
        (zeroStream e.opts values) e.opts.zeroBits d := by
  have hbudget := Options.budget hones (.inl (show 0 = 0 from rfl))
  by_cases hindex : e.opts.hasIndex .zeros
  · by_cases hzeros : e.opts.zeroBits = 0
    · refine ⟨e.mem, 0, ?_, ⟨rfl, fun _ _ _ => rfl⟩, hbudget, fun d hd => ?_⟩
      · rw [if_pos hindex, Encoder.buildIndex, if_pos ⟨rfl, hzeros⟩, add_zero]
      · rw [Options.zeroDenseSize, if_pos hindex, hzeros] at hd
        exact absurd hd (not_lt_zero d)
    · have hbyte := h.word_le (show 8 * (e.opts.bits / 8) ≤ e.opts.bits by omega)
      obtain ⟨mem₁, hunset, hover⟩ :=
        unsetBit_spec (show e.ptr.high + e.opts.bits / 8 < e.mem.length by omega)
      obtain ⟨mem, size, hrun, hindexed⟩ := buildIndex_false hzeros hunset hover
        (by rw [h.high _ (le_refl _), h.fits.selects_sentinel.bit])
        (h.zeroRoom hindex hzeros hover hones)
      obtain ⟨zeros, hsize, hzeros⟩ := hindexed.size_eq
      rw [← mul_add] at hsize
      subst hsize
      rw [Options.bits, Nat.add_sub_cancel] at hzeros
      refine ⟨mem, zeros, ?_, ?_, Options.budget hones (.inr ⟨hindex, hzeros⟩), hindexed.blocks⟩
      · rw [if_pos hindex, hrun]
      · have hframe := hindexed.frame
        rwa [← h.ready.placed.sparse_eq] at hframe
  · refine ⟨e.mem, 0, by rw [if_neg hindex, add_zero], ⟨rfl, fun _ _ _ => rfl⟩, hbudget,
      fun d hd => ?_⟩
    rw [Options.zeroDenseSize, if_neg hindex] at hd
    exact absurd hd (not_lt_zero d)

/-- The front of the memory is an encoding once the indexes are there. -/
theorem encoding {n limit : Nat} (hlow : e.ptr.dense1 + 7 ≤ n)
    (hn : n ≤ e.mem.length) (hsparse : e.ptr.sparse + 4 * limit ≤ n) (hlimit : limit < 2 ^ 32)
    (hones : ∀ d < e.opts.oneDenseSize,
      BlockIndexed e.mem e.ptr.dense1 e.ptr.sparse limit (oneStream e.opts values) e.opts.size d)
    (hzeros : ∀ d < e.opts.zeroDenseSize,
      BlockIndexed e.mem e.ptr.dense0 e.ptr.sparse limit
        (zeroStream e.opts values) e.opts.zeroBits d) :
    Encoding (e.mem.take n) e.opts e.ptr values := by
  have hbit : ∀ j < 8 * n, bitAt (e.mem.take n) j = bitAt e.mem j := by
    intro j hj
    rw [bitAt_take, decide_eq_true hj, Bool.true_and]
  have hlength : (e.mem.take n).length = n := length_take_of_le hn
  have hhigh := h.high_lt_dense
  have hplaced := h.ready.placed
  have hdense0 := hplaced.dense0_eq
  have hsparse_eq := hplaced.sparse_eq
  refine ⟨h.fits, hplaced, ?_, ?_, fun k hk => ?_, fun i hi => ?_,
    fun _ => ⟨limit, hlimit, ?_, fun d hd => ?_⟩,
    fun _ => ⟨limit, hlimit, ?_, fun d hd => ?_⟩⟩
  · rw [← h.ready.metadata_eq]
    exact (prefix_take_le_iff (by omega)).mpr (by omega)
  · rw [hlength]
    exact hlow
  · rw [hbit _ (by omega), h.high k hk]
  · have hfield := h.low_le_dense hi
    rw [field_take (by omega), h.low]
  · rw [hlength]
    exact hsparse
  · exact (hones d hd).congr (le_refl _) (fun j _ hhi => hbit j (by omega))
      (fun j _ hhi => hbit j (by omega))
  · rw [hlength]
    exact hsparse
  · exact (hzeros d hd).congr (le_refl _) (fun j _ hhi => hbit j (by omega))
      (fun j _ hhi => hbit j (by omega))

end

end Streamed

/-- `Finalize` first sets the bit after the stream. -/
theorem Appended.setLast (h : e.Appended values) (hfits : e.opts.Fits values) :
    ∃ mem, e.setBit e.opts.bits = some { e with mem } ∧ Streamed { e with mem } values ∧
      mem.length = e.mem.length := by
  have hbits := bits_lt_highBytes e.opts
  have hlow := h.ready.placed.low_eq
  have hdense := h.ready.placed.dense1_eq
  have hroom := h.ready.low_room
  obtain ⟨mem, hset, hover⟩ :=
    setBit_spec (show e.ptr.high + e.opts.bits / 8 < e.mem.length by omega)
  refine ⟨mem, hset, ⟨?_, hfits, fun k hk => ?_, fun i hi => ?_⟩, hover.length_eq⟩
  · exact h.ready.frame hover.frame (by omega) rfl rfl rfl
  · show bitAt mem (8 * e.ptr.high + k) = oneStream e.opts values k
    have hk' : k ≤ e.opts.bits := hk
    rw [hover.bits]
    by_cases hlast : k = e.opts.bits
    · rw [if_pos (by omega), hlast, hfits.selects_sentinel.bit, Nat.sub_self]
      rfl
    · rw [if_neg (by omega), hfits.oneStream_eq hlast, h.high k (by omega)]
  · exact (hover.field_other (.inr (by show _ ≤ 8 * e.ptr.low + _; omega))).trans (h.low i hi)

/-- The size of an encoding, as its pointers give it. -/
theorem encodedSize_eq (h : e.Ready) (lzcnt : Bool) (numSparse : Nat) :
    encodedSize lzcnt e.opts numSparse =
      max (e.ptr.sparse + 4 * numSparse) (e.ptr.dense1 + 7) := by
  rw [encodedSize, h.legal.version_eq, h.placed.unique (makeL2_placed h.legal lzcnt numSparse)]
  rfl

/-- `Finalize` as its stages. -/
theorem finalize_eq {e₀ : Encoder} (lzcnt : Bool) (hbytes : e.actualBytes = 0)
    (hlast : e.lastValue = e.opts.maxValue) (hsize : e.size = e.opts.size)
    (hset : e.setBit e.opts.bits = some e₀) : e.finalize lzcnt =
      (if e₀.opts.hasIndex .ones then e₀.buildIndex true e₀.ptr.dense1 0
        else some (e₀, 0)).bind fun x =>
        (if x.1.opts.hasIndex .zeros then x.1.buildIndex false x.1.ptr.dense0 x.2 else some x).bind
          fun y => some ({ y.1 with actualBytes := encodedSize lzcnt y.1.opts y.2 },
            encodedSize lzcnt y.1.opts y.2) := by
  have hbind (c : Bool) (b : Option (Encoder × Nat)) (x : Encoder × Nat)
      (f : Encoder × Nat → Option (Encoder × Nat)) :
      (if c then b else some x).bind f = if c then b.bind f else f x := by
    cases c <;> rfl
  rw [Encoder.finalize, bind_eq_bind, guard_bind hbytes, guard_bind hlast, guard_bind hsize, hset]
  simp only [hbind]
  rfl

/-- `Finalize` succeeds, and the bytes that it counts are an encoding. -/
theorem Appended.finalize (h : e.Appended values) (hfits : e.opts.Fits values) (lzcnt : Bool) :
    ∃ e' n, e.finalize lzcnt = some (e', n) ∧ n ≤ e'.mem.length ∧ e'.mem.length = e.mem.length ∧
      Encoding (e'.mem.take n) e.opts e.ptr values := by
  obtain ⟨mem₀, hset, hstreamed, hlength⟩ := h.setLast hfits
  obtain ⟨mem₁, ones, hrun₁, hframe₁, hones, hblocks₁⟩ := hstreamed.buildOnes
  have hstreamed₁ := hstreamed.frame (hframe₁.frame (by
    rw [hstreamed.ready.placed.sparse_eq, hstreamed.ready.placed.dense0_eq]
    omega))
  obtain ⟨mem₂, zeros, hrun₂, hframe₂, hlimit, hblocks₂⟩ := hstreamed₁.buildZeros hones
  have hsparse := h.ready.placed.sparse_eq
  have hdense0 := h.ready.placed.dense0_eq
  have hstreamed₂ := hstreamed₁.frame
    ((hframe₂.frame (by show e.ptr.dense0 ≤ e.ptr.sparse + _; omega)).mono
      (show 8 * e.ptr.dense1 ≤ 8 * e.ptr.dense0 by omega) (le_refl _))
  have hsize := encodedSize_eq h.ready lzcnt (256 * (ones + zeros))
  have hroom : max (e.ptr.sparse + 4 * (256 * (ones + zeros)))
      (e.ptr.dense1 + 7) ≤ mem₂.length := by
    have hlow := hstreamed₂.ready.low_room
    have hsparse := hstreamed₂.ready.sparse_room
    exact Nat.max_le.mpr ⟨(Nat.add_le_add_left (Nat.mul_le_mul_left 4 hlimit) _).trans hsparse,
      hlow⟩
  have hrun : e.finalize lzcnt = some
      (⟨e.opts, mem₂, e.ptr, e.lowMask, e.lastValue,
        max (e.ptr.sparse + 4 * (256 * (ones + zeros))) (e.ptr.dense1 + 7), e.size⟩,
        max (e.ptr.sparse + 4 * (256 * (ones + zeros))) (e.ptr.dense1 + 7)) := by
    rw [finalize_eq lzcnt h.actualBytes_eq (h.lastValue_eq.trans hfits.maxValue_eq.symm)
      (h.size_eq.trans hfits.size_eq.symm) hset, hrun₁, bind_some, hrun₂, bind_some, hsize]
  refine ⟨_, _, hrun, hroom, ?_, ?_⟩
  · exact hframe₂.length_eq.trans (hframe₁.length_eq.trans hlength)
  · exact hstreamed₂.encoding (le_max_right _ _) hroom (le_max_left _ _)
      (hlimit.trans_lt hfits.legal.maxSparseSize_lt)
      (fun d hd => (hblocks₁ d hd).congr (mul_le_mul_left 256 (le_add_right ones zeros))
        (fun j hlo hhi => hframe₂.bits j (by
            show j < 8 * (e.ptr.sparse + 4 * (256 * ones))
            have hd' : d < e.opts.oneDenseSize := hd
            have hhi' : j < 8 * (e.ptr.dense1 + 20 * (d + 1)) := hhi
            omega)
          (.inl (by
            show j < 8 * e.ptr.dense0
            have hd' : d < e.opts.oneDenseSize := hd
            have hhi' : j < 8 * (e.ptr.dense1 + 20 * (d + 1)) := hhi
            omega)))
        (fun j hlo hhi => hframe₂.bits j hhi (.inr hlo)))
      hblocks₂

end Encoder

end Gloop.Coding.EliasFano

import Gloop.Coding.Coder

/-!
# `elias_fano::Options`

The parameters of an encoding, from `options.h` and `options.cc`, with their own encoding as
varints. Values are words; sizes, widths and counts are numbers that are cut where the source
narrows them. A failed `CHECK` or `RET_CHECK` is `none`. `Options.Legal` collects what the
constructor and the setters establish, and `Options.Legal.decode_eq` says that decoding recovers
legal options.
-/

namespace Gloop.Coding.EliasFano

open Gloop.Foundation List Nat Varint
open Option (bind_some join_some)

/-- What the code depends on beside its input: the target of `varint.cc`, whether that has `lzcnt`
and `bmi2`, `kUseFastPath` of `nthbit.cc`, and how much more than asked for the allocator gives. -/
structure Target where
  arch : Varint.Arch
  lzcnt : Bool
  bmi2 : Bool
  useFastPath : Bool
  slack : Nat → Nat

/-- `Options::Index`. -/
inductive IndexChoice
  | none
  | ones
  | zeros
  | all
deriving DecidableEq, Repr

/-- The number of an `Options::Index`. -/
def IndexChoice.toNat : IndexChoice → Nat
  | .none => 0
  | .ones => 1
  | .zeros => 2
  | .all => 3

/-- `kMinWidth`. -/
def kMinWidth : Nat := 0

/-- `kMaxWidth`. -/
def kMaxWidth : Nat := 56

/-- `kD1`, the bits per first-level entry. -/
def kD1 : Nat := 256

/-- `kD2`, the bits per second-level entry. -/
def kD2 : Nat := 32

/-- `kR`, the cutoff between dense and sparse blocks. -/
def kR : Nat := 1 <<< 16

/-- `kMaxBitsNoIndex`. -/
def kMaxBitsNoIndex : Nat := 64

/-- `OptimalLowBitWidth(size, max_value)`. -/
def optimalLowBitWidth (size : Nat) (maxValue : BitVec 64) : Nat :=
  if size = 0 ∨ maxValue.toNat < size then kMinWidth
  else
    let lg2 := bitWidth (maxValue / BitVec.ofNat 64 size) - 1
    let lg2 := lg2 + (if 2 ^ 32 - 1 < (maxValue >>> lg2).toNat then 1 else 0)
    max kMinWidth (min lg2 kMaxWidth)

/-- The fields of an `Options`. -/
@[ext] structure Options where
  maxValue : BitVec 64
  size : Nat
  version : Nat
  width : Nat
  index : Nat
  oneBits : Nat
  zeroBits : Nat
deriving DecidableEq, Repr

namespace Options

/-- `iceil(q, d)`. -/
def iceil (q d : Nat) : Nat :=
  q / d + (if 0 < q % d then 1 else 0)

variable (opts : Options)

/-- `bits()`. -/
def bits : Nat :=
  opts.oneBits + opts.zeroBits

/-- `has_index(index)`. -/
def hasIndex (index : IndexChoice) : Bool :=
  opts.index &&& index.toNat == index.toNat

/-- `one_dense_size()`. -/
def oneDenseSize : Nat :=
  if opts.hasIndex .ones then iceil opts.oneBits kD1 else 0

/-- `zero_dense_size()`. -/
def zeroDenseSize : Nat :=
  if opts.hasIndex .zeros then iceil opts.zeroBits kD1 else 0

/-- `max_sparse_size()`. -/
def maxSparseSize : Nat :=
  let maxTotalBlocks := opts.bits / (kR - kD1)
  let maxPerIndexBlocks :=
    (if opts.hasIndex .ones then opts.zeroBits / (kR - kD1) else 0) +
      (if opts.hasIndex .zeros then opts.oneBits / (kR - kD1) else 0)
  min maxTotalBlocks maxPerIndexBlocks * kD1

/-- `high_bytes()`. -/
def highBytes : Nat :=
  iceil (opts.bits + 1) 8

/-- `low_bytes()`. -/
def lowBytes : Nat :=
  iceil (opts.size * opts.width) 8

/-- `CheckInvariants(width, max_value)`. -/
def checkInvariants (width : Nat) (maxValue : BitVec 64) : Bool :=
  decide (width ≤ kMaxWidth ∧ (maxValue >>> width).toNat ≤ 2 ^ 32 - 1)

/-- `Options(size, max_value)`. -/
def new (size : Nat) (maxValue : BitVec 64) : Option Options :=
  let width := optimalLowBitWidth size maxValue
  let zeroBits := (maxValue >>> width).toNat % 2 ^ 32
  let index := if kMaxBitsNoIndex < size + zeroBits then 3 else 0
  if checkInvariants width maxValue then
    some { maxValue, size, version := 3, width, index, oneBits := size, zeroBits }
  else none

/-- `override_width(width)`. -/
def overrideWidth (width : Nat) : Options :=
  let zeroBits := (opts.maxValue >>> width).toNat % 2 ^ 32
  { opts with
    width, zeroBits, index := if opts.oneBits + zeroBits ≤ kMaxBitsNoIndex then 0 else opts.index }

/-- `indexes(index)`. -/
def indexes (index : Nat) : Options :=
  { opts with index := if kMaxBitsNoIndex < opts.bits then index % 2 ^ 8 else opts.index }

/-- `version(version)`. -/
def setVersion (version : Nat) : Option Options :=
  if version = 3 then some { opts with version } else none

/-- `EncodingLength(opts)`. -/
def encodingLength (lzcnt : Bool) (opts : Options) : Nat :=
  let l32 := fun n => length32 lzcnt (BitVec.ofNat 32 n)
  l32 opts.version + l32 opts.index + l32 opts.size + length64 lzcnt opts.maxValue + l32 opts.width

/-- `Encode(opts, span)`: the span with the encoding at its front. -/
def encode (lzcnt : Bool) (opts : Options) (span : List Byte) : Option (List Byte) :=
  if span.length < encodingLength lzcnt opts then none
  else do
    let enc : Coding.Encoder := { capacity := span.length, bytes := [] }
    let enc ← enc.putVarint32 lzcnt (BitVec.ofNat 32 opts.version)
    let enc ← enc.putVarint32 lzcnt (BitVec.ofNat 32 opts.index)
    let enc ← enc.putVarint32 lzcnt (BitVec.ofNat 32 opts.size)
    let enc ← enc.putVarint64 lzcnt opts.maxValue
    let enc ← enc.putVarint32 lzcnt (BitVec.ofNat 32 opts.width)
    store span 0 enc.bytes

/-- `Decode(span)`. -/
def decode (arch : Varint.Arch) (span : List Byte) : Option Options := do
  let dec : Coding.Decoder := { buf := span, pos := 0 }
  let (version, dec) ← dec.getVarint32.join
  guard (1 ≤ version.toNat ∧ version.toNat ≤ 3)
  let (indexes, dec) ← dec.getVarint32.join
  let (size, dec) ← dec.getVarint32.join
  let (maxValue, dec) ← (dec.getVarint64 arch).join
  let (width, _) ← dec.getVarint32.join
  guard (width.toNat ≤ kMaxWidth)
  guard (checkInvariants (optimalLowBitWidth size.toNat maxValue) maxValue)
  let opts ← Options.new size.toNat maxValue
  let opts := (opts.overrideWidth width.toNat).indexes indexes.toNat
  let opts := { opts with version := version.toNat }
  guard (checkInvariants opts.width opts.maxValue)
  pure opts

/-- What the constructor and the setters establish, so long as a width that is set by hand passes
`CheckInvariants`. -/
structure Legal (opts : Options) : Prop where
  version_eq : opts.version = 3
  size_lt : opts.size < 2 ^ 32
  width_le : opts.width ≤ 56
  oneBits_eq : opts.oneBits = opts.size
  zeroBits_eq : opts.zeroBits = opts.maxValue.toNat / 2 ^ opts.width
  zeroBits_lt : opts.zeroBits < 2 ^ 32
  index_lt : opts.index < 2 ^ 8
  index_eq_zero : opts.bits ≤ 64 → opts.index = 0

/-! ## Legal options -/

theorem le_iceil_mul (q : Nat) {d : Nat} (hd : 0 < d) : q ≤ iceil q d * d := by
  have hdiv := div_add_mod q d
  have hmod := mod_lt q hd
  unfold iceil
  by_cases hzero : 0 < q % d
  · rw [if_pos hzero, add_mul, mul_comm]
    omega
  · rw [if_neg hzero, add_zero, mul_comm]
    omega

theorem toNat_ushiftRight_eq (v : BitVec 64) (n : Nat) : (v >>> n).toNat = v.toNat / 2 ^ n := by
  rw [BitVec.toNat_ushiftRight, shiftRight_eq_div_pow]

variable {maxValue : BitVec 64} {size width : Nat}

/-- The width that the constructor picks leaves less than `2 ^ 32` clear bits. The maximum of an
empty array must be small, since its width is zero. -/
theorem optimalLowBitWidth_spec (hsize : size < 2 ^ 32)
    (hempty : size = 0 → maxValue.toNat < 2 ^ 32) : optimalLowBitWidth size maxValue ≤ 56 ∧
      maxValue.toNat / 2 ^ optimalLowBitWidth size maxValue < 2 ^ 32 := by
  unfold optimalLowBitWidth
  split
  next hsmall =>
    rw [kMinWidth]
    omega
  next hlarge =>
    have hpos : 0 < size := by omega
    have hle : size ≤ maxValue.toNat := by omega
    have hquot : (maxValue / BitVec.ofNat 64 size).toNat = maxValue.toNat / size := by
      rw [BitVec.toNat_udiv, BitVec.toNat_ofNat, mod_eq_of_lt (by omega)]
    have hne : maxValue.toNat / size ≠ 0 := (Nat.div_pos hle hpos).ne'
    have hwidth : bitWidth (maxValue / BitVec.ofNat 64 size) - 1 =
        (maxValue.toNat / size).log2 := by
      rw [bitWidth, hquot, if_neg hne, Nat.add_sub_cancel]
    rw [hwidth]
    -- one more bit than the quotient has suffices
    have hhalf : maxValue.toNat / 2 ^ ((maxValue.toNat / size).log2 + 1) < 2 ^ 32 := by
      have hlog := lt_log2_self (n := maxValue.toNat / size)
      have hmul : maxValue.toNat < size * 2 ^ ((maxValue.toNat / size).log2 + 1) :=
        calc maxValue.toNat < size * (maxValue.toNat / size + 1) := lt_mul_div_succ _ hpos
          _ ≤ size * 2 ^ ((maxValue.toNat / size).log2 + 1) := Nat.mul_le_mul_left _ hlog
      exact (Nat.div_lt_of_lt_mul (by rwa [mul_comm] at hmul)).trans hsize
    have hlast : maxValue.toNat / 2 ^ 56 < 2 ^ 32 := by omega
    have hclamp : ∀ lg2, maxValue.toNat / 2 ^ lg2 < 2 ^ 32 →
        max kMinWidth (min lg2 kMaxWidth) ≤ 56 ∧
          maxValue.toNat / 2 ^ max kMinWidth (min lg2 kMaxWidth) < 2 ^ 32 := by
      intro lg2 hlg2
      rw [show max kMinWidth (min lg2 kMaxWidth) = min lg2 56 by unfold kMinWidth kMaxWidth; omega]
      refine ⟨min_le_right _ _, ?_⟩
      rcases le_total lg2 56 with hle | hge
      · rwa [min_eq_left hle]
      · rwa [min_eq_right hge]
    apply hclamp
    split
    next hmany => exact hhalf
    next hfew =>
      rw [toNat_ushiftRight_eq] at hfew
      rw [add_zero]
      omega

/-- The invariants that a width has to satisfy. -/
theorem checkInvariants_eq (hwidth : width ≤ 56)
    (hzeros : maxValue.toNat / 2 ^ width < 2 ^ 32) : checkInvariants width maxValue = true := by
  rw [checkInvariants, decide_eq_true_eq, toNat_ushiftRight_eq, kMaxWidth]
  omega

theorem new_spec (hsize : size < 2 ^ 32) (hempty : size = 0 → maxValue.toNat < 2 ^ 32) :
    ∃ opts, new size maxValue = some opts ∧ opts.Legal ∧ opts.size = size ∧
      opts.maxValue = maxValue := by
  have hwidth := optimalLowBitWidth_spec hsize hempty
  have hzeros : (maxValue >>> optimalLowBitWidth size maxValue).toNat % 2 ^ 32 =
      maxValue.toNat / 2 ^ optimalLowBitWidth size maxValue := by
    rw [toNat_ushiftRight_eq, mod_eq_of_lt hwidth.2]
  unfold new
  rw [if_pos (checkInvariants_eq hwidth.1 hwidth.2)]
  refine ⟨_, rfl, ⟨rfl, hsize, hwidth.1, rfl, hzeros, hzeros.trans_lt hwidth.2, ?_, ?_⟩, rfl, rfl⟩
  · show (if _ then 3 else 0) < 2 ^ 8
    split <;> omega
  · intro hfew
    exact if_neg (not_lt.mpr hfew)

/-- Options with another width are legal if the width is. -/
theorem Legal.overrideWidth {opts : Options} (h : opts.Legal)
    (hwidth : checkInvariants width opts.maxValue) : (opts.overrideWidth width).Legal := by
  rw [checkInvariants, decide_eq_true_eq, toNat_ushiftRight_eq] at hwidth
  have hzeros : (opts.maxValue >>> width).toNat % 2 ^ 32 = opts.maxValue.toNat / 2 ^ width := by
    rw [toNat_ushiftRight_eq, mod_eq_of_lt (by omega)]
  refine ⟨h.version_eq, h.size_lt, hwidth.1, h.oneBits_eq, hzeros, hzeros.trans_lt (by omega), ?_,
    ?_⟩
  · show (if _ then 0 else opts.index) < 2 ^ 8
    split
    · omega
    · exact h.index_lt
  · intro hfew
    exact if_pos hfew

/-- Options with another index are legal. -/
theorem Legal.indexes {opts : Options} (h : opts.Legal) (index : Nat) :
    (opts.indexes index).Legal := by
  refine ⟨h.version_eq, h.size_lt, h.width_le, h.oneBits_eq, h.zeroBits_eq, h.zeroBits_lt, ?_, ?_⟩
  · show (if _ then index % 2 ^ 8 else opts.index) < 2 ^ 8
    split
    · exact mod_lt _ (by omega)
    · exact h.index_lt
  · intro hfew
    have hbits : opts.bits ≤ 64 := hfew
    show (if _ then index % 2 ^ 8 else opts.index) = 0
    rw [kMaxBitsNoIndex, if_neg (not_lt.mpr hbits)]
    exact h.index_eq_zero hbits

/-! ## Encoding -/

/-- The bytes of encoded options. -/
def metadata : List Byte :=
  base128 opts.version ++ base128 opts.index ++ base128 opts.size ++ base128 opts.maxValue.toNat ++
    base128 opts.width

namespace Legal

variable {opts : Options}

theorem toNat_ofNat {n : Nat} (h : n < 2 ^ 32) : (BitVec.ofNat 32 n).toNat = n :=
  mod_eq_of_lt h

variable (h : opts.Legal)
include h

theorem version_lt : opts.version < 2 ^ 32 := by
  rw [h.version_eq]
  omega

theorem index_lt_word : opts.index < 2 ^ 32 :=
  h.index_lt.trans (by omega)

theorem width_lt : opts.width < 2 ^ 32 :=
  h.width_le.trans_lt (by omega)

theorem encodingLength_eq (lzcnt : Bool) : encodingLength lzcnt opts = opts.metadata.length := by
  have hlength : ∀ n < 2 ^ 32, length32 lzcnt (BitVec.ofNat 32 n) = (base128 n).length := by
    intro n hn
    rw [length32, lengthImpl_eq lzcnt (by omega) (by omega), toNat_ofNat hn]
  have hlength64 : length64 lzcnt opts.maxValue = (base128 opts.maxValue.toNat).length :=
    lengthImpl_eq lzcnt (by omega) (by omega) _
  simp only [encodingLength, hlength _ h.version_lt, hlength _ h.index_lt_word, hlength _ h.size_lt,
    hlength _ h.width_lt, hlength64, metadata, length_append]

/-- Encoding puts the metadata at the front of the span. -/
theorem encode_eq (lzcnt : Bool) {span : List Byte} (hroom : opts.metadata.length ≤ span.length) :
    encode lzcnt opts span = store span 0 opts.metadata := by
  have hsum : opts.metadata.length = (base128 opts.version).length + (base128 opts.index).length +
      (base128 opts.size).length + (base128 opts.maxValue.toNat).length +
        (base128 opts.width).length := by
    simp only [metadata, length_append]
  have hput : ∀ (bytes : List Byte) (n : Nat), n < 2 ^ 32 →
      bytes.length + (base128 n).length ≤ span.length →
      Coding.Encoder.putVarint32 lzcnt ⟨span.length, bytes⟩ (BitVec.ofNat 32 n) =
        some ⟨span.length, bytes ++ base128 n⟩ := by
    intro bytes n hn hfits
    rw [Coding.Encoder.putVarint32_eq, toNat_ofNat hn]
    rw [toNat_ofNat hn]
    show _ ≤ span.length - bytes.length
    omega
  rw [encode, if_neg (by rw [h.encodingLength_eq]; omega)]
  dsimp only
  rw [hput _ _ h.version_lt (by rw [length_nil]; omega)]
  simp only [Option.bind_eq_bind, bind_some, nil_append]
  rw [hput _ _ h.index_lt_word (by omega)]
  simp only [bind_some]
  rw [hput _ _ h.size_lt (by rw [length_append]; omega)]
  simp only [bind_some]
  rw [Coding.Encoder.putVarint64_eq lzcnt (by
    show _ ≤ span.length - _
    simp only [length_append]
    omega)]
  simp only [bind_some]
  rw [hput _ _ h.width_lt (by simp only [length_append]; omega)]
  rfl

/-- Decoding recovers the options. -/
theorem decode_eq (hempty : opts.size = 0 → opts.maxValue.toNat < 2 ^ 32) (arch : Varint.Arch)
    {span : List Byte} (hspan : HoldsAt span 0 opts.metadata) : decode arch span = some opts := by
  simp only [metadata, holdsAt_append_iff, length_append, zero_add] at hspan
  obtain ⟨⟨⟨⟨hversion, hindex⟩, hsize⟩, hmax⟩, hwidth⟩ := hspan
  have hget : ∀ (pos n : Nat), n < 2 ^ 32 → HoldsAt span pos (base128 n) →
      Coding.Decoder.getVarint32 ⟨span, pos⟩ =
        some (some (BitVec.ofNat 32 n, ⟨span, pos + (base128 n).length⟩)) := by
    intro pos n hn hholds
    have heq := toNat_ofNat hn
    rw [← heq] at hholds
    rw [Coding.Decoder.getVarint32_eq hholds, heq]
  rw [decode]
  rw [hget _ _ h.version_lt hversion]
  simp only [join_some, Option.bind_eq_bind, bind_some, zero_add]
  rw [hget _ _ h.index_lt_word hindex]
  simp only [join_some, bind_some]
  rw [hget _ _ h.size_lt hsize]
  simp only [join_some, bind_some]
  rw [Coding.Decoder.getVarint64_eq arch hmax]
  simp only [join_some, bind_some]
  rw [hget _ _ h.width_lt hwidth]
  simp only [join_some, bind_some, toNat_ofNat h.version_lt, toNat_ofNat h.size_lt,
    toNat_ofNat h.width_lt, toNat_ofNat h.index_lt_word]
  -- all numbers are read: the constructor computes the rest again, with the width overridden
  obtain ⟨made, hnew, hmade, hmadeSize, hmadeMax⟩ := new_spec h.size_lt hempty
  have hoptimal := optimalLowBitWidth_spec h.size_lt hempty
  have hzeros := h.zeroBits_lt
  rw [h.zeroBits_eq] at hzeros
  have hversion3 := h.version_eq
  rw [guard_bind (by omega), guard_bind (show opts.width ≤ kMaxWidth from h.width_le),
    guard_bind (checkInvariants_eq hoptimal.1 hoptimal.2), hnew, bind_some]
  have hmadeMax' : ((made.overrideWidth opts.width).indexes opts.index).maxValue = opts.maxValue :=
    hmadeMax
  rw [guard_bind (by rw [hmadeMax']; exact checkInvariants_eq h.width_le hzeros)]
  have hzeroBits : (made.maxValue >>> opts.width).toNat % 2 ^ 32 = opts.zeroBits := by
    rw [hmadeMax, toNat_ushiftRight_eq, ← h.zeroBits_eq, mod_eq_of_lt h.zeroBits_lt]
  have honeBits : made.oneBits = opts.oneBits := by
    rw [hmade.oneBits_eq, h.oneBits_eq, hmadeSize]
  refine congrArg some (Options.ext hmadeMax hmadeSize rfl rfl ?_ honeBits hzeroBits)
  show (if 64 < made.oneBits + (made.maxValue >>> opts.width).toNat % 2 ^ 32 then opts.index % 2 ^ 8
    else if made.oneBits + (made.maxValue >>> opts.width).toNat % 2 ^ 32 ≤ 64 then 0
    else made.index) = opts.index
  rw [hzeroBits, honeBits]
  by_cases hmany : 64 < opts.oneBits + opts.zeroBits
  · rw [if_pos hmany, mod_eq_of_lt h.index_lt]
  · rw [if_neg hmany, if_pos (Nat.le_of_not_lt hmany), h.index_eq_zero (Nat.le_of_not_lt hmany)]

end Legal

end Options

end Gloop.Coding.EliasFano

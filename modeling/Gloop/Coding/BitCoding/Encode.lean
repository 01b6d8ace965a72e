import Gloop.Coding.BitCoding.Model

/-!
# What the bit encoder writes

`Written e stream` says that the encoder has written the bits of `stream` so far, in its buffer of
bytes and its word buffer. `Puts f code` says that an operation appends `code` if there is room for
it, and there is one such result for each operation.
-/

namespace Gloop.Coding.BitCoding

open Gloop.Foundation Gloop.Coding.Varint List Nat BitEncoder Coding.Encoder
open BitVec (allOnes ofNat_toNat setWidth_eq toNat_add toNat_ofNat toNat_setWidth toNat_ushiftRight)

/-! ## Words -/

variable {nbits : Nat} {buf val : BitVec 64} {stream : List Bool} {e : BitEncoder}
  {nbuf offset : Nat}

/-- The low bits of a word, as a number. -/
theorem toNat_lowBits (val : BitVec 64) (h : nbits ≤ 64) :
    (lowBits val nbits).toNat = val.toNat % 2 ^ nbits := by
  have hpow : 2 ^ nbits ≤ 2 ^ 64 := Nat.pow_le_pow_right (by decide) h
  rw [lowBits, BitVec.toNat_and, toNat_ofNat, mod_eq_of_lt (by omega), and_two_pow_sub_one_eq_mod]

variable {n m k : Nat}

/-- A word put above the bits of another one, cut off at the end of the word. -/
theorem toNat_or_shiftLeft (hbuf : buf.toNat < 2 ^ n) :
    (buf ||| (val <<< n)).toNat = (buf.toNat + 2 ^ n * val.toNat) % 2 ^ 64 := by
  have hjoined := congrArg BitVec.toNat (shiftLeft_or_ofNat (w := 64) val.toNat hbuf)
  rwa [ofNat_toNat, ofNat_toNat, setWidth_eq, setWidth_eq, BitVec.or_comm, toNat_ofNat,
    add_comm] at hjoined

/-- New bits go behind those in the buffer. -/
theorem toBits_or_shiftLeft (hbuf : buf.toNat < 2 ^ n) (h : n + m ≤ 64) :
    toBits (buf ||| (val <<< n)).toNat (n + m) = toBits buf.toNat n ++ toBits val.toNat m := by
  rw [toNat_or_shiftLeft hbuf, toBits_mod h, toBits_append _ _ hbuf]

/-- The buffer stays clean above its bits. -/
theorem or_shiftLeft_lt (hbuf : buf.toNat < 2 ^ n) (hval : val.toNat < 2 ^ m) :
    (buf ||| (val <<< n)).toNat < 2 ^ (n + m) := by
  rw [toNat_or_shiftLeft hbuf]
  refine (mod_le _ _).trans_lt ?_
  calc buf.toNat + 2 ^ n * val.toNat < 2 ^ n + 2 ^ n * val.toNat := by omega
    _ = 2 ^ n * (val.toNat + 1) := by ring
    _ ≤ 2 ^ n * 2 ^ m := mul_le_mul_left _ hval
    _ = 2 ^ (n + m) := (pow_add 2 n m).symm

/-! ## The state of the encoder -/

/-- The encoder has written the stream, with `offset` bytes behind the last multiple of eight. -/
structure Written (offset : Nat) (e : BitEncoder) (stream : List Bool) : Prop where
  small : e.nbuf < 64
  clean : e.buf.toNat < 2 ^ e.nbuf
  aligned : e.encoder.bytes.length % 8 = offset
  stream_eq : bytesToBits e.encoder.bytes ++ toBits e.buf.toNat e.nbuf = stream

/-- A stream is as long as the bytes and the buffer. -/
theorem Written.length (h : Written offset e stream) :
    stream.length = 8 * e.encoder.bytes.length + e.nbuf := by
  rw [← h.stream_eq, length_append, length_bytesToBits, length_toBits]

/-- `Bits()` counts the stream. -/
theorem Written.bits (h : Written offset e stream) : e.bits = stream.length := by
  rw [h.length, BitEncoder.bits, Encoder.length, mul_comm]

/-- A new encoder has nothing in its stream. -/
theorem written_make (size : Nat) : Written 0 (make size) [] :=
  ⟨zero_lt_succ 63, zero_lt_one, rfl, rfl⟩

/-- The operation appends the code, if there is room for it. -/
def Puts (f : BitEncoder → Option BitEncoder) (code : List Bool) : Prop :=
  ∀ offset e stream, Written offset e stream →
    stream.length + code.length ≤ 8 * e.encoder.capacity → ∃ e', f e = some e' ∧
      Written offset e' (stream ++ code) ∧ e'.encoder.capacity = e.encoder.capacity

/-- Two calls put their codes one after the other. -/
theorem Puts.bind {f g : BitEncoder → Option BitEncoder} {first second : List Bool}
    (hf : Puts f first) (hg : Puts g second) : Puts (fun e => f e >>= g) (first ++ second) := by
  intro offset e stream he hroom
  rw [length_append] at hroom
  obtain ⟨e₁, hfe, he₁, hcapacity₁⟩ := hf offset e stream he (by omega)
  obtain ⟨e₂, hge, he₂, hcapacity₂⟩ := hg offset e₁ _ he₁ (by
    rw [length_append]
    omega)
  refine ⟨e₂, ?_, ?_, hcapacity₂.trans hcapacity₁⟩
  · show (f e).bind g = some e₂
    rw [hfe, Option.bind_some, hge]
  · rwa [← append_assoc]

/-- A word goes to the bytes if there is room for it. -/
theorem put64_eq {encoder : Encoder} (v : BitVec 64)
    (hroom : encoder.bytes.length + 8 ≤ encoder.capacity) :
      encoder.put64 v = some ⟨encoder.capacity, encoder.bytes ++ toBytes v.toNat 8⟩ := by
  rw [put64, if_pos (by unfold avail; omega)]

/-- A code of at most 64 bits goes into the word buffer, from which a full word is written out. -/
theorem puts_putBitsInternal (x : BitVec 64) (hnbits : nbits ≤ 64) :
    Puts (·.putBitsInternal x nbits) (toBits x.toNat nbits) := by
  intro offset e stream he hroom
  have hsmall := he.small
  have hlength := he.length
  have hval := toNat_lowBits x hnbits
  have hlt : (lowBits x nbits).toNat < 2 ^ nbits := hval ▸ mod_lt _ (Nat.two_pow_pos _)
  have hcode : toBits (lowBits x nbits).toNat nbits = toBits x.toNat nbits := by
    rw [hval, toBits_mod (le_refl _)]
  rw [length_toBits] at hroom
  unfold putBitsInternal
  by_cases hfull : 64 ≤ e.nbuf + nbits
  · simp only [if_pos hfull, put64_eq _ (show e.encoder.bytes.length + 8 ≤ _ by omega)]
    refine ⟨_, rfl, ?_, rfl⟩
    generalize hrest : e.nbuf + nbits - 64 = rest
    -- The word takes the low part of the code and the buffer keeps the high part.
    have hword : toBits (e.buf ||| (lowBits x nbits <<< e.nbuf)).toNat 64 =
        toBits e.buf.toNat e.nbuf ++ toBits (lowBits x nbits).toNat (64 - e.nbuf) := by
      rw [← toBits_or_shiftLeft he.clean (by omega), Nat.add_sub_cancel' (by omega)]
    have hsplit : toBits x.toNat nbits = toBits (lowBits x nbits).toNat (64 - e.nbuf) ++
        toBits ((lowBits x nbits).toNat / 2 ^ (64 - e.nbuf)) rest := by
      rw [← hcode, ← toBits_add, show 64 - e.nbuf + rest = nbits by omega]
    have hbytes : bytesToBits (e.encoder.bytes ++
        toBytes (e.buf ||| (lowBits x nbits <<< e.nbuf)).toNat 8) =
        stream ++ toBits (lowBits x nbits).toNat (64 - e.nbuf) := by
      rw [bytesToBits_append, bytesToBits_toBytes, hword, ← append_assoc, he.stream_eq]
    have haligned := he.aligned
    by_cases hzero : rest = 0
    · subst hzero
      refine ⟨zero_lt_succ 63, Nat.zero_lt_one, by simp; omega, ?_⟩
      rw [hsplit, ← append_assoc, ← hbytes]
      rfl
    rw [if_neg hzero, show nbits - rest = 64 - e.nbuf by omega]
    have hshift : (lowBits x nbits >>> (64 - e.nbuf)).toNat =
        (lowBits x nbits).toNat / 2 ^ (64 - e.nbuf) := by
      rw [toNat_ushiftRight, shiftRight_eq_div_pow]
    refine ⟨show rest < 64 by omega, ?_, by simp; omega, ?_⟩
    · rw [hshift, Nat.div_lt_iff_lt_mul (Nat.two_pow_pos _), ← pow_add,
        show rest + (64 - e.nbuf) = nbits by omega]
      exact hlt
    · rw [hsplit, ← append_assoc, ← hbytes, hshift]
  · simp only [if_neg hfull]
    refine ⟨_, rfl, ⟨show e.nbuf + nbits < 64 by omega, or_shiftLeft_lt he.clean hlt, he.aligned,
      ?_⟩, rfl⟩
    rw [toBits_or_shiftLeft he.clean (by omega), hcode, ← append_assoc, he.stream_eq]

/-- `PutBits` puts the low bits of a value. -/
theorem puts_putBits (x : BitVec 32) (hnbits : nbits ≤ 32) :
    Puts (·.putBits x nbits) (toBits x.toNat nbits) := by
  exact puts_putBitsInternal _ (by omega)

/-- `PutBits128` puts the low bits of a value. -/
theorem puts_putBits128 (x : BitVec 128) (hnbits : nbits ≤ 128) :
    Puts (·.putBits128 x nbits) (toBits x.toNat nbits) := by
  have hlow : (x.setWidth 64).toNat = x.toNat % 2 ^ 64 := toNat_setWidth ..
  have hhigh : ((x >>> 64).setWidth 64).toNat = x.toNat / 2 ^ 64 := by
    rw [toNat_setWidth, toNat_ushiftRight]
    omega
  have hfirst := puts_putBitsInternal (x.setWidth 64) (show min nbits 64 ≤ 64 by omega)
  rw [hlow, toBits_mod (by omega)] at hfirst
  by_cases hlong : 64 < nbits
  · have hsecond := puts_putBitsInternal ((x >>> 64).setWidth 64) (show nbits - 64 ≤ 64 by omega)
    rw [hhigh] at hsecond
    have hboth := hfirst.bind hsecond
    rw [show min nbits 64 = 64 by omega, ← toBits_add, show 64 + (nbits - 64) = nbits by omega]
      at hboth
    simpa only [putBits128, if_pos hlong, show min nbits 64 = 64 by omega] using hboth
  · rw [show min nbits 64 = nbits by omega] at hfirst
    intro offset e stream he hroom
    obtain ⟨e', hput, hrest⟩ := hfirst offset e stream he hroom
    have hput : e.putBitsInternal (x.setWidth 64) nbits = some e' := hput
    refine ⟨e', ?_, hrest⟩
    show (e.putBitsInternal (x.setWidth 64) (min nbits 64)).bind _ = _
    rw [show min nbits 64 = nbits by omega, hput, Option.bind_some, if_neg hlong]
    rfl

/-! ## Unary codes -/

/-- A unary code ends at the first bit that differs from the ones before it. -/
def unaryCode (bit : Bool) (x : Nat) : List Bool :=
  replicate (x - 1) bit ++ [!bit]

/-- The word that holds a unary code of at most 64 bits. -/
def unaryWord (bit : Bool) (x : Nat) : BitVec 64 :=
  if bit then (1#64 <<< (x - 1)) - 1#64 else 1#64 <<< (x - 1)

variable {x : Nat}

theorem length_unaryCode (bit : Bool) (hx : 0 < x) : (unaryCode bit x).length = x := by
  simp [unaryCode]
  omega

theorem toNat_unaryWord (bit : Bool) (hpos : 0 < x) (hx : x ≤ 64) :
    (unaryWord bit x).toNat = if bit then 2 ^ (x - 1) - 1 else 2 ^ (x - 1) := by
  cases bit with
  | false => exact toNat_one_shiftLeft (by omega)
  | true => exact toNat_lowMask (by omega)

/-- A word for a unary code that fits. -/
theorem unaryWord_spec (bit : Bool) (hpos : 0 < x) (hx : x ≤ 64) :
    (unaryWord bit x).toNat < 2 ^ x ∧ toBits (unaryWord bit x).toNat x = unaryCode bit x := by
  have hpow : 2 ^ (x - 1) < 2 ^ x := Nat.pow_lt_pow_right (by decide) (by omega)
  have hlow := Nat.two_pow_pos (x - 1)
  have hsplit := toBits_add (unaryWord bit x).toNat (x - 1) 1
  rw [Nat.sub_add_cancel hpos] at hsplit
  rw [hsplit, toNat_unaryWord bit hpos hx]
  cases bit with
  | false =>
    refine ⟨hpow, ?_⟩
    show toBits (2 ^ (x - 1)) (x - 1) ++ toBits (2 ^ (x - 1) / 2 ^ (x - 1)) 1 = _
    rw [Nat.div_self hlow, ← toBits_mod (le_refl _), mod_self, toBits_zero_left]
    rfl
  | true =>
    refine ⟨show 2 ^ (x - 1) - 1 < 2 ^ x by omega, ?_⟩
    show toBits (2 ^ (x - 1) - 1) (x - 1) ++ toBits ((2 ^ (x - 1) - 1) / 2 ^ (x - 1)) 1 = _
    rw [div_eq_of_lt (by omega), toBits_ones (le_refl _)]
    rfl

/-- A buffer that may be full. -/
theorem emitFull_written {encoder : Encoder} (hnbuf : nbuf ≤ 64) (hclean : buf.toNat < 2 ^ nbuf)
    (haligned : encoder.bytes.length % 8 = offset)
    (hstream : bytesToBits encoder.bytes ++ toBits buf.toNat nbuf = stream)
    (hroom : stream.length ≤ 8 * encoder.capacity) :
    ∃ e', emitFull ⟨encoder, buf, nbuf⟩ = some e' ∧ Written offset e' stream ∧
      e'.encoder.capacity = encoder.capacity := by
  unfold emitFull
  by_cases hfull : nbuf = 64
  · subst hfull
    have hlength : stream.length = 8 * encoder.bytes.length + 64 := by
      rw [← hstream, length_append, length_bytesToBits, length_toBits]
    simp only [put64_eq _ (show encoder.bytes.length + 8 ≤ _ by omega)]
    refine ⟨_, rfl, ⟨zero_lt_succ 63, zero_lt_one, by simp; omega, ?_⟩, rfl⟩
    show bytesToBits (encoder.bytes ++ toBytes buf.toNat 8) ++ [] = stream
    rw [append_nil, bytesToBits_append, bytesToBits_toBytes, hstream]
  · simp only [if_neg hfull]
    exact ⟨_, rfl, ⟨show nbuf < 64 by omega, hclean, haligned, hstream⟩, rfl⟩

/-- The loop writes whole words of one bit and leaves at least one bit to write. -/
theorem putWords_spec {word : BitVec 64} {bit : Bool}
    (hword : toBits word.toNat 64 = replicate 64 bit) (encoder : Encoder)
    (hpos : 0 < x) (hroom : 8 * encoder.bytes.length + x ≤ 8 * encoder.capacity) :
    ∃ encoder' x', putWords word encoder x = some (encoder', x') ∧ 0 < x' ∧ x' ≤ 64 ∧
      encoder'.capacity = encoder.capacity ∧ encoder'.bytes.length % 8 = encoder.bytes.length % 8 ∧
      bytesToBits encoder'.bytes ++ replicate x' bit = bytesToBits encoder.bytes ++
        replicate x bit := by
  induction x using Nat.strongRecOn generalizing encoder with
  | ind x ih =>
    rw [putWords]
    by_cases hlong : 64 < x
    · simp only [if_pos hlong, put64_eq _ (show encoder.bytes.length + 8 ≤ _ by omega)]
      obtain ⟨encoder', x', hput, hpos', hle, hcapacity, haligned, hbits⟩ :=
        ih (x - 64) (by omega) ⟨encoder.capacity, encoder.bytes ++ toBytes word.toNat 8⟩
          (by omega) (by simp; omega)
      refine ⟨encoder', x', hput, hpos', hle, hcapacity, ?_, ?_⟩
      · rw [haligned]
        simp
      · rw [hbits]
        rw [bytesToBits_append, bytesToBits_toBytes, hword, append_assoc,
          ← replicate_add, show 64 + (x - 64) = x by omega]
    · rw [if_neg hlong]
      exact ⟨encoder, x, rfl, hpos, by omega, rfl, rfl, rfl⟩

/-- A unary code that fits into the word buffer. -/
theorem unary_short (he : Written offset e stream) (bit : Bool) (hpos : 0 < x)
    (hx : e.nbuf + x ≤ 64) (hroom : stream.length + x ≤ 8 * e.encoder.capacity) :
    ∃ e', emitFull ⟨e.encoder, e.buf ||| (unaryWord bit x <<< e.nbuf), e.nbuf + x⟩ =
        some e' ∧ Written offset e' (stream ++ unaryCode bit x) ∧
      e'.encoder.capacity = e.encoder.capacity := by
  obtain ⟨hlt, hcode⟩ := unaryWord_spec bit hpos (by omega)
  refine emitFull_written hx (or_shiftLeft_lt he.clean hlt) he.aligned ?_ ?_
  · rw [toBits_or_shiftLeft he.clean hx, hcode, ← append_assoc, he.stream_eq]
  · rw [length_append, length_unaryCode bit hpos]
    exact hroom

/-- A unary code that fills up the word buffer, the words after it and a part of the next one. -/
theorem unary_long (he : Written offset e stream) {bit : Bool} {full word : BitVec 64}
    (hx : 64 < e.nbuf + x)
    (hfull : toBits full.toNat 64 = toBits e.buf.toNat e.nbuf ++ replicate (64 - e.nbuf) bit)
    (hword : toBits word.toNat 64 = replicate 64 bit)
    (hroom : stream.length + x ≤ 8 * e.encoder.capacity) :
    ∃ e' encoder encoder' x', e.encoder.put64 full = some encoder ∧
      putWords word encoder (x - (64 - e.nbuf)) = some (encoder', x') ∧
      topBit x' = some (unaryWord false x') ∧ emitFull ⟨encoder', unaryWord bit x', x'⟩ = some e' ∧
      Written offset e' (stream ++ unaryCode bit x) ∧ e'.encoder.capacity = e.encoder.capacity := by
  have hsmall := he.small
  have hlength := he.length
  have haligned := he.aligned
  obtain ⟨encoder', x', hput, hpos, hle, hcapacity, haligned', hbits⟩ :=
    putWords_spec hword ⟨e.encoder.capacity, e.encoder.bytes ++ toBytes full.toNat 8⟩
      (show 0 < x - (64 - e.nbuf) by omega) (by simp; omega)
  obtain ⟨hlt, hcode⟩ := unaryWord_spec bit hpos hle
  have hsplit : ∀ n, 0 < n → replicate n bit = replicate (n - 1) bit ++ [bit] := by
    intro n hn
    rw [← replicate_succ', Nat.sub_add_cancel hn]
  -- The bits before the last one are those of a run of `x - 1` bits.
  have hrun : bytesToBits encoder'.bytes ++ replicate (x' - 1) bit =
      stream ++ replicate (x - 1) bit := by
    rw [bytesToBits_append, bytesToBits_toBytes, hfull, ← append_assoc, he.stream_eq,
      append_assoc, ← replicate_add, show 64 - e.nbuf + (x - (64 - e.nbuf)) = x by omega,
      hsplit x' hpos, hsplit x (by omega), ← append_assoc, ← append_assoc] at hbits
    exact append_cancel_right hbits
  have hstream : bytesToBits encoder'.bytes ++ toBits (unaryWord bit x').toNat x' =
      stream ++ unaryCode bit x := by
    rw [hcode, unaryCode, unaryCode, ← append_assoc, hrun, append_assoc]
  obtain ⟨e', hemit, hwritten, hcapacity'⟩ := emitFull_written hle hlt
    (show _ = offset by rw [haligned']; simp; omega) hstream (by
      rw [length_append, length_unaryCode bit (by omega), hcapacity]
      exact hroom)
  exact ⟨e', _, encoder', x', put64_eq _ (by omega), hput, if_pos ⟨hpos, hle⟩, hemit, hwritten,
    hcapacity'.trans hcapacity⟩

theorem toBits_allOnes (h : k ≤ 64) : toBits (allOnes 64).toNat k = replicate k true := by
  rw [BitVec.toNat_allOnes, toBits_ones h]

/-- An inverted unary code that fits is a single bit. -/
theorem topBit_eq (hpos : 0 < x) (hx : x ≤ 64) : topBit x = some (unaryWord false x) :=
  if_pos ⟨hpos, hx⟩

section Unary

variable {x : BitVec 32} (he : Written offset e stream) (hpos : 0 < x.toNat)
  (hroom : stream.length + x.toNat ≤ 8 * e.encoder.capacity)
include he hpos hroom

section

variable (hx : e.nbuf + x.toNat < 2 ^ 32)
include hx

omit hpos hroom he in
/-- Neither the test for room in the word buffer nor the number of bits left wraps around. -/
theorem unary_count : (BitVec.ofNat 32 e.nbuf + x).toNat = e.nbuf + x.toNat ∧
    (64 < e.nbuf + x.toNat → (x - BitVec.ofNat 32 (64 - e.nbuf)).toNat =
      x.toNat - (64 - e.nbuf)) := by
  refine ⟨?_, fun hlong => ?_⟩
  · rw [toNat_add, toNat_ofNat]
    omega
  · rw [BitVec.toNat_sub, toNat_ofNat]
    omega

/-- `PutUnary` puts a unary code. -/
theorem putUnary_spec :
    ∃ e', e.putUnary x = some e' ∧ Written offset e' (stream ++ unaryCode true x.toNat) ∧
      e'.encoder.capacity = e.encoder.capacity := by
  have hsmall := he.small
  obtain ⟨hsum, hrest⟩ := unary_count hx
  unfold putUnary
  simp only [hsum]
  by_cases hshort : e.nbuf + x.toNat ≤ 64
  · rw [if_pos hshort, topBit_eq hpos (by omega)]
    exact unary_short he true hpos hshort hroom
  have hones : toBits (e.buf ||| (BitVec.allOnes 64 <<< e.nbuf)).toNat 64 =
      toBits e.buf.toNat e.nbuf ++ replicate (64 - e.nbuf) true := by
    rw [← toBits_allOnes (by omega),
      ← toBits_or_shiftLeft he.clean (by omega), Nat.add_sub_cancel' (by omega)]
  obtain ⟨e', encoder, encoder', x', hput, hwords, hbit, hemit, hresult⟩ :=
    unary_long he (by omega) hones (toBits_allOnes (le_refl 64)) hroom
  rw [if_neg hshort, hput]
  simp only [Option.bind_eq_bind, Option.bind_some, hrest (by omega), hwords, hbit]
  exact ⟨e', hemit, hresult⟩

/-- `PutInvertedUnary` puts an inverted unary code. -/
theorem putInvertedUnary_spec : ∃ e', e.putInvertedUnary x = some e' ∧
    Written offset e' (stream ++ unaryCode false x.toNat) ∧
      e'.encoder.capacity = e.encoder.capacity := by
  have hsmall := he.small
  obtain ⟨hsum, hrest⟩ := unary_count hx
  unfold putInvertedUnary
  simp only [hsum]
  by_cases hshort : e.nbuf + x.toNat ≤ 64
  · have hshift : unaryWord false (e.nbuf + x.toNat) = unaryWord false x.toNat <<< e.nbuf := by
      show 1#64 <<< _ = 1#64 <<< (x.toNat - 1) <<< e.nbuf
      rw [← BitVec.shiftLeft_add]
      congr 1
      omega
    rw [if_pos hshort, topBit_eq (by omega) hshort, hshift]
    exact unary_short he false hpos hshort hroom
  · have hzeros : toBits e.buf.toNat 64 = toBits e.buf.toNat e.nbuf ++
      replicate (64 - e.nbuf) false := by
      rw [← toBits_of_lt he.clean, Nat.add_sub_cancel' (by omega)]
    have hword : toBits (0 : BitVec 64).toNat 64 = replicate 64 false := toBits_zero_left 64
    obtain ⟨e', encoder, encoder', x', hput, hwords, hbit, hemit, hresult⟩ :=
      unary_long he (by omega) hzeros hword hroom
    rw [if_neg hshort, hput]
    simp only [Option.bind_eq_bind, Option.bind_some, hrest (by omega), hwords, hbit]
    exact ⟨e', hemit, hresult⟩

end

/-- The unary codes are appended, unless the sum that is tested wraps around. -/
theorem putUnary_appends_iff :
    ((∃ e', e.putUnary x = some e' ∧ Written offset e' (stream ++ unaryCode true x.toNat)) ↔
      e.nbuf + x.toNat < 2 ^ 32) ∧
    ((∃ e', e.putInvertedUnary x = some e' ∧
      Written offset e' (stream ++ unaryCode false x.toNat)) ↔ e.nbuf + x.toNat < 2 ^ 32) := by
  have hsmall := he.small
  have hlength := he.length
  have hsum : 2 ^ 32 ≤ e.nbuf + x.toNat →
      (BitVec.ofNat 32 e.nbuf + x).toNat = e.nbuf + x.toNat - 2 ^ 32 := by
    rw [toNat_add, toNat_ofNat]
    omega
  refine ⟨⟨?_, fun hx => ?_⟩, ?_, fun hx => ?_⟩
  · rintro ⟨e', hput, -⟩
    by_contra hwrap
    -- the word buffer seems to have room, and the shift is by far too large
    simp only [putUnary, hsum (by omega), topBit,
      if_pos (show e.nbuf + x.toNat - 2 ^ 32 ≤ 64 by omega),
      if_neg (show ¬ (0 < x.toNat ∧ x.toNat ≤ 64) by omega)] at hput
    cases hput
  · obtain ⟨e', hput, hwritten, -⟩ := putUnary_spec he hpos hroom hx
    exact ⟨e', hput, hwritten⟩
  · rintro ⟨e', hput, hwritten⟩
    by_contra hwrap
    -- the word buffer gets fewer bits than it has
    have hlength' := hwritten.length
    simp only [putInvertedUnary, hsum (by omega), topBit, emitFull,
      if_pos (show e.nbuf + x.toNat - 2 ^ 32 ≤ 64 by omega),
      if_neg (show ¬ e.nbuf + x.toNat - 2 ^ 32 = 64 by omega)] at hput
    split at hput
    · cases hput
      rw [length_append] at hlength'
      simp only at hlength'
      omega
    · cases hput
  · obtain ⟨e', hput, hwritten, -⟩ := putInvertedUnary_spec he hpos hroom hx
    exact ⟨e', hput, hwritten⟩

end Unary

/-- Six bits of the code go to a word that has sixty, and four to the next one. -/
theorem putUnary_appends_iff_crossing : ∃ e', putUnary ⟨⟨16, []⟩, 5#64, 60⟩ 10#32 = some e' ∧
      Written 0 e' (toBits 5 60 ++ unaryCode true 10) :=
  (putUnary_appends_iff ⟨by decide, by decide, rfl, rfl⟩ (by decide) (by decide)).1.mpr (by decide)

/-- With one bit in the word buffer and `x` the largest number the sum is zero. -/
theorem putUnary_wraps :
    Written 0 ⟨⟨2 ^ 29, []⟩, 1#64, 1⟩ [true] ∧ 1 + (0xffffffff#32).toNat ≤ 8 * 2 ^ 29 ∧
    putUnary ⟨⟨2 ^ 29, []⟩, 1#64, 1⟩ 0xffffffff#32 = none ∧
      putInvertedUnary ⟨⟨2 ^ 29, []⟩, 1#64, 1⟩ 0xffffffff#32 = none :=
  ⟨⟨by decide, by decide, rfl, rfl⟩, by decide, rfl, rfl⟩

variable {x : BitVec 32} (hpos : 0 < x.toNat) (hx : x.toNat ≤ 2 ^ 31)
include hpos hx

theorem puts_putUnary : Puts (·.putUnary x) (unaryCode true x.toNat) := by
  intro offset e stream he hroom
  have hsmall := he.small
  rw [length_unaryCode true hpos] at hroom
  exact putUnary_spec he hpos hroom (by omega)

theorem puts_putInvertedUnary : Puts (·.putInvertedUnary x) (unaryCode false x.toNat) := by
  intro offset e stream he hroom
  have hsmall := he.small
  rw [length_unaryCode false hpos] at hroom
  exact putInvertedUnary_spec he hpos hroom (by omega)

omit hpos hx

/-! ## Gamma and Rice codes -/

/-- The position of the highest bit of a value of 32 bits. -/
theorem floorLogBase2_eq {x : BitVec 32} : floorLogBase2 (x.setWidth 64) = x.toNat.log2 := by
  have hor : (x.setWidth 64 ||| 1#64).toNat = x.toNat ||| 1 := by
    rfl
  have hnonzero : x.toNat ||| 1 ≠ 0 := by
    have := @right_le_or x.toNat 1
    omega
  have hlog : (x.toNat ||| 1).log2 < 64 := by
    rw [log2_lt hnonzero]
    exact or_lt_two_pow (by omega) (by decide)
  have hxor : ∀ l < 64, 63 ^^^ (64 - (l + 1)) = l := by decide
  rw [floorLogBase2, bitsRequired64, countlZero, bitWidth, hor, if_neg hnonzero, hxor _ hlog,
    Nat.add_sub_cancel, log2_or_one]

/-- The code of `InternalPutGamma`. -/
def gammaCode (x : Nat) : List Bool :=
  unaryCode true (1 + x.log2) ++ toBits x x.log2

theorem log2_lt_32 (x : BitVec 32) : x.toNat.log2 < 32 := by
  by_cases h : x.toNat = 0
  · rw [h]
    decide
  · exact (log2_lt h).2 x.isLt

/-- The length of a gamma code. -/
theorem length_gammaCode (x : Nat) : (gammaCode x).length = 2 * x.log2 + 1 := by
  rw [gammaCode, length_append, length_unaryCode true (by omega), length_toBits]
  ring

/-- The gamma code without a table. -/
theorem puts_internalPutGamma (x : BitVec 32) :
    Puts (·.internalPutGamma x) (gammaCode x.toNat) := by
  have hlog := log2_lt_32 x
  have hcount : (BitVec.ofNat 32 (1 + x.toNat.log2)).toNat = 1 + x.toNat.log2 := by
    rw [toNat_ofNat]
    omega
  have hunary : Puts (·.putUnary (BitVec.ofNat 32 (1 + x.toNat.log2)))
      (unaryCode true (1 + x.toNat.log2)) := by
    have := puts_putUnary (x := BitVec.ofNat 32 (1 + x.toNat.log2)) (by omega) (by omega)
    rwa [hcount] at this
  have hboth := hunary.bind (puts_putBits x (show x.toNat.log2 ≤ 32 by omega))
  simpa only [internalPutGamma, floorLogBase2_eq, gammaCode] using hboth

/-- The code of `PutRice`. -/
def riceCode (k x : Nat) : List Bool :=
  unaryCode true (1 + x / 2 ^ k) ++ toBits x k

theorem length_riceCode (k x : Nat) : (riceCode k x).length = 1 + x / 2 ^ k + k := by
  rw [riceCode, length_append, length_unaryCode true (Nat.add_pos_left Nat.one_pos _),
    length_toBits]

/-- `PutRice` puts a Rice code if its unary part is not too long. -/
theorem puts_putRice {x : BitVec 32} (hk : k < 32) (hx : 1 + x.toNat / 2 ^ k ≤ 2 ^ 31) :
    Puts (·.putRice k x) (riceCode k x.toNat) := by
  have hpos : 0 < 1 + x.toNat / 2 ^ k := Nat.add_pos_left Nat.one_pos _
  have hcount : (1#32 + (x >>> k)).toNat = 1 + x.toNat / 2 ^ k := by
    rw [toNat_add, toNat_ushiftRight, shiftRight_eq_div_pow]
    exact mod_eq_of_lt (hx.trans_lt (by decide))
  have hunary : Puts (·.putUnary (1#32 + (x >>> k))) (unaryCode true (1 + x.toNat / 2 ^ k)) := by
    have := puts_putUnary (hcount ▸ hpos) (hcount ▸ hx)
    rwa [hcount] at this
  exact hunary.bind (puts_putBits x (by omega))

/-! ## Flushing -/

/-- The loop of `Flush` moves the whole bytes of the word buffer. -/
theorem flushBytes_spec (encoder : Encoder) (buf : BitVec 64) (hbytes : nbuf % 8 = 0)
    (hroom : encoder.bytes.length + nbuf / 8 ≤ encoder.capacity) :
    ∃ e', flushBytes encoder buf nbuf = some e' ∧
      bytesToBits e'.encoder.bytes = bytesToBits encoder.bytes ++ toBits buf.toNat nbuf := by
  induction nbuf using Nat.strongRecOn generalizing encoder buf with
  | ind nbuf ih =>
    rw [flushBytes]
    by_cases hmore : 8 ≤ nbuf
    · have hput : encoder.put8 (buf.setWidth 8) =
          some ⟨encoder.capacity, encoder.bytes ++ [buf.setWidth 8]⟩ := by
        rw [put8, if_pos (by unfold avail; omega)]
      simp only [if_pos hmore, hput]
      obtain ⟨e', hflush, hbits⟩ := ih (nbuf - 8) (by omega)
        ⟨encoder.capacity, encoder.bytes ++ [buf.setWidth 8]⟩ (buf >>> 8) (by omega)
        (by simp; omega)
      refine ⟨e', hflush, ?_⟩
      have hsplit := toBits_add buf.toNat 8 (nbuf - 8)
      rw [Nat.add_sub_cancel' hmore] at hsplit
      rw [hbits, bytesToBits_append, bytesToBits_cons, bytesToBits_nil, append_nil,
        toNat_setWidth, toBits_mod (le_refl 8), toNat_ushiftRight,
        shiftRight_eq_div_pow, hsplit, append_assoc]
    · rw [show nbuf = 0 by omega]
      exact ⟨_, rfl, by simp⟩

/-- `Flush` writes the whole stream, and padding. -/
theorem flush_spec (he : Written offset e stream) (pad : Bool)
    (hroom : (stream.length + 7) / 8 ≤ e.encoder.capacity) : ∃ e' padding, e.flush pad = some e' ∧
      bytesToBits e'.encoder.bytes = stream ++ padding := by
  have hlength := he.length
  generalize hmask : (if pad then allOnes 32 else 0 : BitVec 32) = mask
  generalize hcount : 7 - (e.nbuf + 7) % 8 = count
  obtain ⟨e₁, hput, he₁, hcapacity⟩ :=
    puts_putBits mask (show count ≤ 32 by omega) offset e stream he
      (by rw [length_toBits]; omega)
  have hlength₁ := he₁.length
  rw [length_append, length_toBits] at hlength₁
  obtain ⟨e', hflush, hbits⟩ := flushBytes_spec e₁.encoder e₁.buf
    (show e₁.nbuf % 8 = 0 by omega) (by omega)
  refine ⟨e', toBits mask.toNat count, ?_, hbits.trans he₁.stream_eq⟩
  simp only [flush, hmask, hcount, hput, Option.bind_eq_bind, Option.bind_some, hflush]

/-- `Flush64` writes the whole stream, and padding. -/
theorem flush64_spec (he : Written 0 e stream) (pad : Bool)
    (hroom : (stream.length + 63) / 64 * 8 ≤ e.encoder.capacity) :
    ∃ e' padding, e.flush64 pad = some e' ∧ bytesToBits e'.encoder.bytes = stream ++ padding := by
  have hlength := he.length
  have hsmall := he.small
  have haligned := he.aligned
  unfold flush64
  by_cases hempty : e.nbuf = 0
  · refine ⟨e, [], by simp [hempty], ?_⟩
    rw [append_nil, ← he.stream_eq, hempty, toBits_zero, append_nil]
  generalize (if pad then allOnes 64 else 0 : BitVec 64) = word
  simp only [if_neg hempty, put64_eq _ (show e.encoder.bytes.length + 8 ≤ _ by omega)]
  refine ⟨_, toBits word.toNat (64 - e.nbuf), rfl, ?_⟩
  have hword : toBits (e.buf ||| (word <<< e.nbuf)).toNat (e.nbuf + (64 - e.nbuf)) = _ :=
    toBits_or_shiftLeft he.clean (by omega)
  rw [Nat.add_sub_cancel' (by omega)] at hword
  rw [bytesToBits_append, bytesToBits_toBytes, hword, ← append_assoc, he.stream_eq]

end Gloop.Coding.BitCoding

import Gloop.Coding.BitCoding.Encode

/-!
# What the bit decoder reads

`Holds d stream` says that `stream` are the bits that the decoder has not consumed yet, and `Reads`
adds that its word buffer is not full, which holds between operations. `Gets f code value` says that
an operation consumes `code` and returns `value`.
-/

namespace Gloop.Coding.BitCoding

open Gloop.Foundation List BitVec BitDecoder Coding.Decoder

/-- The stream is what is left to decode. -/
structure Holds (d : BitDecoder) (stream : List Bool) : Prop where
  small : d.nbuf ≤ 64
  clean : d.buf.toNat < 2 ^ d.nbuf
  inside : d.decoder.pos ≤ d.decoder.buf.length
  behind : d.nbuf ≤ 8 * d.decoder.pos
  stream_eq : toBits d.buf.toNat d.nbuf ++ bytesToBits (d.decoder.buf.drop d.decoder.pos) = stream

/-- The state of a decoder between its operations. -/
structure Reads (d : BitDecoder) (stream : List Bool) : Prop extends Holds d stream where
  partial_word : d.nbuf < 64

variable {stream : List Bool} {k : Nat} {d : BitDecoder}

/-- A stream is as long as the buffer and the bytes that are left. -/
theorem Holds.length (h : Holds d stream) : stream.length = d.nbuf + 8 * d.decoder.avail := by
  rw [← h.stream_eq, length_append, length_toBits, length_bytesToBits, length_drop]
  rfl

/-- `BitsDecoded()` counts what is not left of the stream. -/
theorem Holds.bitsDecoded (h : Holds d stream) :
    d.bitsDecoded + stream.length = 8 * d.decoder.buf.length := by
  have hinside := h.inside
  have hbehind := h.behind
  rw [h.length, BitDecoder.bitsDecoded, Decoder.avail]
  omega

/-- A new decoder reads all of its bytes. -/
theorem reads_make (bytes : List Byte) : Reads (make bytes) (bytesToBits bytes) :=
  ⟨⟨zero_le, Nat.zero_lt_one, zero_le, zero_le, rfl⟩, Nat.zero_lt_succ 63⟩

/-- The operation consumes the code and returns the value. -/
def Gets {α : Type} (f : BitDecoder → Option (Option α × BitDecoder)) (code : List Bool)
    (value : α) : Prop :=
  ∀ d rest, Reads d (code ++ rest) →
    ∃ d', f d = some (some value, d') ∧ Reads d' rest ∧ d'.decoder.buf = d.decoder.buf

/-! ## Refilling the word buffer -/

/-- Reading one more byte into the word buffer. -/
theorem Holds.get8 (h : Holds d stream) (hroom : d.nbuf + 8 ≤ 64) (hmore : d.nbuf < stream.length) :
    ∃ b decoder, d.decoder.get8 = some (b, decoder) ∧ decoder.buf = d.decoder.buf ∧
      decoder.avail = d.decoder.avail - 1 ∧
      Holds ⟨decoder, d.buf ||| (b.setWidth 64 <<< d.nbuf), d.nbuf + 8⟩ stream := by
  have hlength := h.length
  have hbehind := h.behind
  have hlt : d.decoder.pos < d.decoder.buf.length := by
    unfold avail at hlength
    omega
  have hbyte : (setWidth 64 d.decoder.buf[d.decoder.pos]).toNat =
      (d.decoder.buf[d.decoder.pos]).toNat := toNat_setWidth_of_le (by decide)
  refine ⟨d.decoder.buf[d.decoder.pos], ⟨d.decoder.buf, d.decoder.pos + 1⟩, ?_, rfl,
    Nat.sub_add_eq _ _ _, hroom, or_shiftLeft_lt h.clean (by rw [hbyte]; exact isLt _), hlt,
    show d.nbuf + 8 ≤ 8 * (d.decoder.pos + 1) by omega, ?_⟩
  · rw [Decoder.get8, List.getElem?_eq_getElem]
    rfl
  · rw [toBits_or_shiftLeft h.clean hroom, hbyte, List.append_assoc, ← bytesToBits_cons,
      ← drop_eq_getElem_cons, h.stream_eq]

/-- The loop over the last bytes of the buffer. -/
theorem refillTail_spec {av : Nat} {decoder : Decoder} {buf : BitVec 64} {nbuf : Nat}
    (h : Holds ⟨decoder, buf, nbuf⟩ stream) (hav : decoder.avail = av)
    (hnbuf : nbuf + 8 * av ≤ 64) :
    ∃ d', refillTail decoder buf nbuf av = some d' ∧ d'.nbuf = nbuf + 8 * av ∧
      d'.decoder.buf = decoder.buf ∧ Holds d' stream := by
  induction av generalizing decoder buf nbuf with
  | zero => exact ⟨_, rfl, rfl, rfl, h⟩
  | succ av ih =>
    have hlength : stream.length = nbuf + 8 * decoder.avail := h.length
    obtain ⟨b, decoder', hget, hbuf, havail, hholds⟩ := h.get8 (show nbuf + 8 ≤ 64 by omega)
      (show nbuf < _ by omega)
    obtain ⟨d', hrefill, hcount, hbuf', hholds'⟩ := ih hholds (havail.trans (by rw [hav]; rfl))
      (show nbuf + 8 + 8 * av ≤ 64 by omega)
    refine ⟨d', ?_, hcount.trans (show nbuf + 8 + 8 * av = _ by omega), hbuf'.trans hbuf, hholds'⟩
    rw [refillTail, hget]
    exact hrefill

/-- `RefillBuffer` forgets the word buffer and fills it with the bytes that follow. -/
theorem refillBuffer_spec (hinside : d.decoder.pos ≤ d.decoder.buf.length) :
    ∃ d', d.refillBuffer = some d' ∧ d'.nbuf = min 64 (8 * d.decoder.avail) ∧
      d'.decoder.buf = d.decoder.buf ∧
        Holds d' (bytesToBits (d.decoder.buf.drop d.decoder.pos)) := by
  unfold refillBuffer
  by_cases hword : 8 ≤ d.decoder.avail
  · have hlength : ((d.decoder.buf.drop d.decoder.pos).take 8).length = 8 := by
      rw [length_take, length_drop]
      unfold avail at hword
      omega
    have hlt := ofBytes_lt ((d.decoder.buf.drop d.decoder.pos).take 8)
    have hbits := bytesToBits_eq ((d.decoder.buf.drop d.decoder.pos).take 8)
    rw [hlength] at hlt hbits
    simp only [if_pos hword, get64]
    refine ⟨_, rfl, show 64 = _ by omega, rfl, le_refl 64, isLt _, ?_, ?_, ?_⟩
    · show d.decoder.pos + 8 ≤ d.decoder.buf.length
      unfold avail at hword
      omega
    · show 64 ≤ 8 * (d.decoder.pos + 8)
      omega
    · rw [toNat_ofNat, Nat.mod_eq_of_lt hlt, ← hbits, ← bytesToBits_append, ← drop_drop,
        take_append_drop]
  · simp only [if_neg hword]
    have hstart : Holds ⟨d.decoder, 0, 0⟩ (bytesToBits (d.decoder.buf.drop d.decoder.pos)) :=
      ⟨zero_le, Nat.zero_lt_one, hinside, zero_le, rfl⟩
    obtain ⟨d', hrefill, hcount, hbuf, hholds⟩ := refillTail_spec hstart rfl (by omega)
    exact ⟨d', hrefill, by omega, hbuf, hholds⟩

/-! ## Binary codes -/

section Bits

variable {d : BitDecoder} {v nbits : Nat} {rest : List Bool}

theorem toBits_split {buf n : Nat} (h : k ≤ n) :
    toBits buf n = toBits buf k ++ toBits (buf / 2 ^ k) (n - k) := by
  rw [← toBits_add, Nat.add_sub_cancel' h]

/-- The bits are in the word buffer. -/
theorem Holds.take (h : Holds d (toBits v nbits ++ rest)) (hv : v < 2 ^ nbits)
    (hnbits : nbits ≤ d.nbuf) : (lowBits d.buf nbits).toNat = v ∧
      Holds ⟨d.decoder, d.buf >>> nbits, d.nbuf - nbits⟩ rest := by
  have hsmall := h.small
  have hbehind := h.behind
  have hstream := h.stream_eq
  rw [toBits_split hnbits, List.append_assoc] at hstream
  obtain ⟨hcode, hrest⟩ := append_inj hstream (by simp)
  have hlow := toNat_lowBits d.buf (show nbits ≤ 64 by omega)
  have hshift : (d.buf >>> nbits).toNat = d.buf.toNat / 2 ^ nbits := by
    rw [toNat_ushiftRight, Nat.shiftRight_eq_div_pow]
  constructor
  · rw [hlow]
    refine toBits_inj (Nat.mod_lt _ (Nat.two_pow_pos _)) hv ?_
    rw [toBits_mod (le_refl _), hcode]
  · refine ⟨show d.nbuf - nbits ≤ 64 by omega, ?_, h.inside,
      show d.nbuf - nbits ≤ 8 * d.decoder.pos by omega, ?_⟩
    · rw [hshift, Nat.div_lt_iff_lt_mul (Nat.two_pow_pos _), ← pow_add, Nat.sub_add_cancel hnbits]
      exact h.clean
    · rw [hshift, hrest]

/-- The bits go on in the next word. -/
theorem Holds.refill (h : Holds d (toBits v nbits ++ rest)) (hnbits : nbits ≤ 64)
    (hv : v < 2 ^ nbits)
    (hshort : d.nbuf < nbits) : ∃ d', d.refillBuffer = some d' ∧ d'.decoder.buf = d.decoder.buf ∧
      nbits - d.nbuf ≤ d'.nbuf ∧ d'.nbuf ≤ 64 ∧
      d.buf ||| (lowBits d'.buf (nbits - d.nbuf) <<< d.nbuf) = BitVec.ofNat 64 v ∧
      Holds ⟨d'.decoder, d'.buf >>> (nbits - d.nbuf), d'.nbuf - (nbits - d.nbuf)⟩ rest := by
  obtain ⟨d', hrefill, hcount, hbuf, hholds⟩ := refillBuffer_spec h.inside
  have hlength := h.length
  rw [length_append, length_toBits] at hlength
  have hstream := h.stream_eq
  rw [toBits_split (show d.nbuf ≤ nbits by omega), List.append_assoc] at hstream
  obtain ⟨hcode, hrest⟩ := append_inj hstream (by simp)
  have hfirst : d.buf.toNat = v % 2 ^ d.nbuf := by
    refine toBits_inj h.clean (Nat.mod_lt _ (Nat.two_pow_pos _)) ?_
    rw [toBits_mod (le_refl _), hcode]
  have havail : nbits - d.nbuf ≤ d'.nbuf := by omega
  obtain ⟨hsecond, hholds'⟩ := (hrest ▸ hholds).take (by
    rw [Nat.div_lt_iff_lt_mul (Nat.two_pow_pos _), ← pow_add]
    rwa [Nat.sub_add_cancel (by omega)]) havail
  refine ⟨d', hrefill, hbuf, havail, hholds.small, eq_of_toNat_eq ?_, hholds'⟩
  rw [toNat_or_shiftLeft h.clean, hfirst, hsecond, Nat.mod_add_div, toNat_ofNat]

end Bits

/-- `GetBits64` reads the low bits of a value. -/
theorem gets_getBits64 {v nbits : Nat} (hnbits : nbits ≤ 64) (hv : v < 2 ^ nbits) :
    Gets (·.getBits64 nbits) (toBits v nbits) (BitVec.ofNat 64 v) := by
  intro d rest h
  have hword := h.partial_word
  show ∃ d', d.getBits64 nbits = _ ∧ _
  unfold getBits64
  by_cases hinside : nbits ≤ d.nbuf
  · obtain ⟨hvalue, hholds⟩ := h.toHolds.take hv hinside
    rw [if_pos hinside]
    refine ⟨_, ?_, ⟨hholds, show d.nbuf - nbits < 64 by omega⟩, rfl⟩
    rw [← hvalue, ofNat_toNat]
    rfl
  obtain ⟨d₁, hrefill, hbuf, havail, hsmall, hvalue, hholds⟩ :=
    h.toHolds.refill hnbits hv (by omega)
  simp only [if_neg hinside, hrefill, Option.bind_eq_bind, Option.bind_some,
    if_neg (show ¬ d₁.nbuf < nbits - d.nbuf by omega),
    show nbits - (nbits - d.nbuf) = d.nbuf by omega, hvalue]
  have hclear : (if d₁.nbuf - (nbits - d.nbuf) = 0 then 0 else d₁.buf >>> (nbits - d.nbuf)) =
      d₁.buf >>> (nbits - d.nbuf) := by
    split
    next hzero =>
      have hclean := hholds.clean
      simp only [hzero, pow_zero, Nat.lt_one_iff] at hclean
      exact (eq_of_toNat_eq hclean).symm
    next => rfl
  rw [hclear]
  exact ⟨_, rfl, ⟨hholds, show d₁.nbuf - _ < 64 by omega⟩, hbuf⟩

/-- `GetBits` reads the low bits of a value. -/
theorem gets_getBits {v nbits : Nat} (hnbits : nbits ≤ 32) (hv : v < 2 ^ nbits) :
    Gets (·.getBits nbits) (toBits v nbits) (BitVec.ofNat 32 v) := by
  intro d rest h
  have hword := h.partial_word
  have hcut : (BitVec.ofNat 64 v).setWidth 32 = BitVec.ofNat 32 v :=
    setWidth_ofNat_of_le (by decide) v
  show ∃ d', d.getBits nbits = _ ∧ _
  unfold getBits
  by_cases hinside : nbits ≤ d.nbuf
  · obtain ⟨hvalue, hholds⟩ := h.toHolds.take hv hinside
    rw [if_pos hinside]
    refine ⟨_, ?_, ⟨hholds, show d.nbuf - nbits < 64 by omega⟩, rfl⟩
    rw [← hvalue]
    rfl
  · obtain ⟨d₁, hrefill, hbuf, havail, hsmall, hvalue, hholds⟩ :=
      h.toHolds.refill (by omega) hv (by omega)
    simp only [if_neg hinside, hrefill, Option.bind_eq_bind, Option.bind_some,
      if_neg (show ¬ d₁.nbuf < nbits - d.nbuf by omega),
      show nbits - (nbits - d.nbuf) = d.nbuf by omega, hvalue, hcut]
    exact ⟨_, rfl, ⟨hholds, show d₁.nbuf - _ < 64 by omega⟩, hbuf⟩

/-! ## Unary codes -/

/-- The lowest bit that is set. -/
theorem findLSBSetNonZero64_eq {n : BitVec 64} {i : Nat} (hi : i < 64) (hbit : n.getLsbD i = true)
    (hlow : ∀ j < i, n.getLsbD j = false) : findLSBSetNonZero64 n = i := by
  rw [findLSBSetNonZero64, findIdx_eq (by simpa using hi)]
  refine ⟨by simpa using hbit, fun j hj => ?_⟩
  rw [getElem_range]
  exact hlow j hj

section Run

variable {d : BitDecoder} {bit : Bool} {m : Nat} {rest : List Bool}

/-- The run of equal bits ends in the word buffer. -/
theorem Holds.run_ends (h : Holds d (replicate m bit ++ (!bit) :: rest)) (hm : m < d.nbuf) :
    (∀ j < m, d.buf.getLsbD j = bit) ∧ d.buf.getLsbD m = !bit ∧
      Holds ⟨d.decoder, d.buf >>> (m + 1), d.nbuf - (m + 1)⟩ rest := by
  have hsmall := h.small
  have hget : ∀ j < d.nbuf, (replicate m bit ++ (!bit) :: rest)[j]? = some (d.buf.getLsbD j) := by
    intro j hj
    rw [← h.stream_eq, getElem?_append_left (by simpa using hj), getElem?_toBits, if_pos hj,
      testBit_toNat]
  obtain ⟨hlt, hcode⟩ := unaryWord_spec bit (Nat.zero_lt_succ m) (by omega)
  refine ⟨fun j hj => ?_, ?_, ?_⟩
  · have := hget j (by omega)
    rw [getElem?_append_left (by simpa using hj), getElem?_replicate, if_pos hj] at this
    exact (Option.some.inj this).symm
  · have := hget m hm
    rw [getElem?_append_right (by simp), length_replicate, Nat.sub_self] at this
    exact (Option.some.inj this).symm
  · refine (Holds.take ?_ hlt hm).2
    rw [hcode, unaryCode, List.append_assoc]
    exact h

/-- The run of equal bits goes on in the next word. -/
theorem Holds.run_continues (h : Holds d (replicate m bit ++ (!bit) :: rest)) (hm : d.nbuf ≤ m) :
    toBits d.buf.toNat d.nbuf = replicate d.nbuf bit ∧
      ∃ d', d.refillBuffer = some d' ∧ 0 < d'.nbuf ∧ d'.decoder.avail < d.decoder.avail ∧
        d'.decoder.buf = d.decoder.buf ∧
          Holds d' (replicate (m - d.nbuf) bit ++ (!bit) :: rest) := by
  obtain ⟨d', hrefill, hcount, hbuf, hholds⟩ := refillBuffer_spec h.inside
  have hstream := h.stream_eq
  rw [← Nat.add_sub_cancel' hm, replicate_add, List.append_assoc] at hstream
  obtain ⟨hfirst, hrest⟩ := append_inj hstream (by simp)
  rw [hrest] at hholds
  have hlength := congrArg List.length hrest
  have hlength' := hholds.length
  simp only [length_bytesToBits, length_drop, length_append, length_cons] at hlength hlength'
  unfold avail at hcount hlength' ⊢
  exact ⟨hfirst, d', hrefill, by omega, by omega, hbuf, hholds⟩

/-- A run of ones in a word is looked for by its first zero. -/
theorem Holds.findZero_some (h : Holds d (replicate m true ++ false :: rest))
    (hm : m < d.nbuf) : d.findZero = some m := by
  have hsmall := h.small
  obtain ⟨hlow, hbit, -⟩ := h.run_ends hm
  have hfind : findLSBSetNonZero64 (~~~d.buf) = m := by
    refine findLSBSetNonZero64_eq (by omega) ?_ fun j hj => ?_
    · rw [getLsbD_not, hbit]
      simp
      omega
    · rw [getLsbD_not, hlow j hj]
      simp
  have hnonzero : ~~~d.buf ≠ 0 := by
    intro hzero
    have := congrArg (·.getLsbD m) hzero
    simp only [getLsbD_not, hbit] at this
    simp at this
    omega
  rw [findZero, if_neg hnonzero, hfind]
  exact if_pos hm

/-- A buffer of ones has no zero. -/
theorem findZero_none (hclean : d.buf.toNat < 2 ^ d.nbuf) (hsmall : d.nbuf ≤ 64)
    (hones : toBits d.buf.toNat d.nbuf = replicate d.nbuf true) : d.findZero = none := by
  have hbuf : d.buf.toNat = 2 ^ d.nbuf - 1 := by
    refine toBits_inj hclean (by omega) ?_
    rw [hones, toBits_ones (le_refl _)]
  have hbits : ∀ j, d.buf.getLsbD j = decide (j < d.nbuf) := by
    intro j
    rw [← testBit_toNat, hbuf, Nat.testBit_two_pow_sub_one]
  unfold findZero
  split
  · rfl
  next hnonzero =>
    by_cases hfull : d.nbuf = 64
    · refine absurd (eq_of_getLsbD_eq fun j hj => ?_) hnonzero
      rw [getLsbD_not, hbits, hfull]
      simp [hj]
    have hfind : findLSBSetNonZero64 (~~~d.buf) = d.nbuf := by
      refine findLSBSetNonZero64_eq (by omega) ?_ fun j hj => ?_
      · rw [getLsbD_not, hbits]
        simp
        omega
      · rw [getLsbD_not, hbits]
        simp [hj]
    rw [hfind]
    exact if_neg (lt_irrefl _)

end Run

/-- A loop that has counted `x - (m + 1)` bits of a unary code and still has a run of `m` before its
last bit. -/
structure Counting (bit : Bool) (x : Nat) (rest : List Bool) (buf : List Byte)
    (state : BitDecoder × BitVec 32) : Prop where
  run : ∃ m, Holds state.1 (replicate m bit ++ (!bit) :: rest) ∧
    state.2 + BitVec.ofNat 32 (m + 1) = BitVec.ofNat 32 x
  same : state.1.decoder.buf = buf

/-- The loop has found the end of the code. -/
structure Counted (x : Nat) (rest : List Bool) (buf : List Byte)
    (result : Option (BitVec 32) × BitDecoder) : Prop where
  value : result.1 = some (BitVec.ofNat 32 x)
  reads : Reads result.2 rest
  same : result.2.decoder.buf = buf

/-- A count goes on where it was interrupted. -/
theorem add_count {result : BitVec 32} {x m n : Nat} (hle : n ≤ m)
    (h : result + BitVec.ofNat 32 (m + 1) = BitVec.ofNat 32 x) :
    result + BitVec.ofNat 32 n + BitVec.ofNat 32 (m - n + 1) = BitVec.ofNat 32 x := by
  rw [add_assoc, ← ofNat_add, show n + (m - n + 1) = m + 1 by omega, h]

section Loops

variable {x : Nat} {rest : List Bool} {buf : List Byte} {state : BitDecoder × BitVec 32}

/-- A round of `GetUnary` ends the loop or goes on with fewer bytes. -/
theorem getUnaryStep_cases (h : Counting true x rest buf state) :
    (∃ next, getUnaryStep state = some (.inl next) ∧ Counting true x rest buf next ∧
      next.1.decoder.avail < state.1.decoder.avail) ∨
    ∃ result, getUnaryStep state = some (.inr result) ∧ Counted x rest buf result := by
  obtain ⟨d, result⟩ := state
  obtain ⟨⟨m, hholds, hresult⟩, hbuf⟩ := h
  have hsmall := hholds.small
  simp only at hholds hresult hsmall hbuf
  unfold getUnaryStep
  by_cases hm : m < d.nbuf
  · obtain ⟨-, -, hrest⟩ := hholds.run_ends hm
    right
    simp only [hholds.findZero_some hm]
    refine ⟨_, rfl, by rw [hresult], ⟨?_, ?_⟩, hbuf⟩
    · rwa [shiftRight_add] at hrest
    · show d.nbuf - (m + 1) < 64
      omega
  · obtain ⟨hones, d', hrefill, hpos, havail, hbuf', hholds'⟩ := hholds.run_continues (by omega)
    left
    simp only [findZero_none hholds.clean hsmall hones, hrefill, Option.bind_eq_bind,
      Option.bind_some, if_pos hpos]
    exact ⟨_, rfl, ⟨⟨_, hholds', add_count (by omega) hresult⟩, hbuf'.trans hbuf⟩, havail⟩

/-- A round of `GetInvertedUnary` ends the loop or goes on with fewer bytes. -/
theorem getInvertedUnaryStep_cases (h : Counting false x rest buf state) :
    (∃ next, getInvertedUnaryStep state = some (.inl next) ∧
      Counting false x rest buf next ∧ next.1.decoder.avail < state.1.decoder.avail) ∨
    ∃ result, getInvertedUnaryStep state = some (.inr result) ∧ Counted x rest buf result := by
  obtain ⟨d, result⟩ := state
  obtain ⟨⟨m, hholds, hresult⟩, hbuf⟩ := h
  have hsmall := hholds.small
  simp only at hholds hresult hsmall hbuf
  unfold getInvertedUnaryStep
  by_cases hm : m < d.nbuf
  · obtain ⟨hlow, hbit, hrest⟩ := hholds.run_ends hm
    have hnonzero : d.buf ≠ 0 := by
      intro hzero
      rw [hzero] at hbit
      simp at hbit
    right
    simp only [if_pos hnonzero, findLSBSetNonZero64_eq (by omega) hbit hlow, hresult]
    split
    next hlast =>
      -- The code ends with the word, and nothing of it is left.
      rw [show d.nbuf - (m + 1) = 0 by omega, show d.buf >>> (m + 1) = 0 by
        rw [hlast]; exact ushiftRight_eq_zero (le_refl 64)] at hrest
      exact ⟨_, rfl, rfl, ⟨hrest, Nat.zero_lt_succ 63⟩, hbuf⟩
    next hlast =>
      exact ⟨_, rfl, rfl, ⟨hrest, show d.nbuf - (m + 1) < 64 by omega⟩, hbuf⟩
  · obtain ⟨hzeros, d', hrefill, hpos, havail, hbuf', hholds'⟩ := hholds.run_continues (by omega)
    have hzero : d.buf = 0 := by
      refine eq_of_toNat_eq (toBits_inj hholds.clean (Nat.two_pow_pos _) ?_)
      rw [hzeros]
      exact (toBits_zero_left d.nbuf).symm
    left
    simp only [hzero, hrefill, Option.bind_eq_bind, Option.bind_some,
      if_neg (show d'.nbuf ≠ 0 by omega)]
    exact ⟨_, rfl, ⟨⟨_, hholds', add_count (by omega) hresult⟩, hbuf'.trans hbuf⟩, havail⟩

end Loops

/-- `GetUnary` reads a unary code. -/
theorem gets_getUnary {x : Nat} (hx : 0 < x) :
    Gets getUnary (unaryCode true x) (BitVec.ofNat 32 x) := by
  intro d rest h
  have hword := h.partial_word
  have hholds := h.toHolds
  rw [unaryCode, List.append_assoc] at hholds
  unfold getUnary
  by_cases hm : x - 1 < d.nbuf
  · obtain ⟨-, -, hrest⟩ := hholds.run_ends hm
    rw [Nat.sub_add_cancel hx] at hrest
    simp only [hholds.findZero_some hm, Nat.sub_add_cancel hx]
    exact ⟨_, rfl, ⟨hrest, show d.nbuf - x < 64 by omega⟩, rfl⟩
  obtain ⟨hones, d', hrefill, hpos, -, hbuf, hholds'⟩ := hholds.run_continues (by omega)
  simp only [findZero_none hholds.clean hholds.small hones, hrefill, Option.bind_eq_bind,
    Option.bind_some, if_neg (show d'.nbuf ≠ 0 by omega)]
  have hcount : BitVec.ofNat 32 d.nbuf + BitVec.ofNat 32 (x - 1 - d.nbuf + 1) =
      BitVec.ofNat 32 x := by
    rw [← ofNat_add, show d.nbuf + (x - 1 - d.nbuf + 1) = x by omega]
  have hstart : Counting true x rest d.decoder.buf (d', BitVec.ofNat 32 d.nbuf) :=
    ⟨⟨_, hholds', hcount⟩, hbuf⟩
  obtain ⟨⟨value, d''⟩, hiterate, ⟨hvalue, hreads, hsame⟩⟩ :=
    iterate_total _ _ _ (fun _ => getUnaryStep_cases) hstart
  simp only at hvalue
  exact ⟨d'', by rw [hiterate, hvalue], hreads, hsame⟩

/-- `GetInvertedUnary` reads an inverted unary code. -/
theorem gets_getInvertedUnary {x : Nat} (hx : 0 < x) :
    Gets getInvertedUnary (unaryCode false x) (BitVec.ofNat 32 x) := by
  intro d rest h
  have hholds := h.toHolds
  rw [unaryCode, List.append_assoc] at hholds
  have hcount : 0 + BitVec.ofNat 32 (x - 1 + 1) = BitVec.ofNat 32 x := by
    rw [Nat.sub_add_cancel hx]
    exact zero_add _
  have hstart : Counting false x rest d.decoder.buf (d, 0) := ⟨⟨_, hholds, hcount⟩, rfl⟩
  obtain ⟨⟨value, d'⟩, hiterate, ⟨hvalue, hreads, hsame⟩⟩ :=
    iterate_total _ _ _ (fun _ => getInvertedUnaryStep_cases) hstart
  simp only at hvalue
  exact ⟨d', by rw [getInvertedUnary, hiterate, hvalue], hreads, hsame⟩

/-! ## Gamma and Rice codes -/

/-- `GetGamma` reads a gamma code. -/
theorem gets_getGamma {x : BitVec 32} (hx : 0 < x.toNat) : Gets getGamma (gammaCode x.toNat) x := by
  intro d rest h
  have hlog := log2_lt_32 x
  have hlow := Nat.log2_self_le (show x.toNat ≠ 0 by omega)
  have hhigh := @Nat.lt_log2_self x.toNat
  rw [gammaCode, List.append_assoc] at h
  obtain ⟨d₁, hunary, hreads₁, hbuf₁⟩ := gets_getUnary (by omega) d _ h
  -- The bits below the highest one.
  have hvalue : x.toNat % 2 ^ x.toNat.log2 = x.toNat - 2 ^ x.toNat.log2 := by
    rw [Nat.mod_eq_sub_mod hlow, Nat.mod_eq_of_lt (by omega)]
  rw [← toBits_mod (le_refl _)] at hreads₁
  obtain ⟨d₂, hbits, hreads₂, hbuf₂⟩ := gets_getBits (by omega)
    (Nat.mod_lt _ (Nat.two_pow_pos _)) d₁ _ hreads₁
  have hlen : (BitVec.ofNat 32 (1 + x.toNat.log2) - 1#32).toNat = x.toNat.log2 := by
    rw [toNat_sub, toNat_ofNat, toNat_ofNat]
    omega
  refine ⟨d₂, ?_, hreads₂, hbuf₂.trans hbuf₁⟩
  simp only [getGamma, hunary, Option.bind_eq_bind, Option.bind_some, hlen,
    if_neg (show ¬ 32 ≤ x.toNat.log2 by omega), hbits]
  congr 3
  apply eq_of_toNat_eq
  rw [toNat_add, toNat_one_shiftLeft hlog, toNat_ofNat]
  omega

/-- `GetRice` reads a Rice code. -/
theorem gets_getRice {x : BitVec 32} (hk : k < 32) : Gets (·.getRice k) (riceCode k x.toNat) x := by
  intro d rest h
  have hx := x.isLt
  have hpos : 0 < 1 + x.toNat / 2 ^ k := Nat.add_pos_left Nat.one_pos _
  rw [riceCode, List.append_assoc] at h
  obtain ⟨d₁, hunary, hreads₁, hbuf₁⟩ := gets_getUnary hpos d _ h
  rw [← toBits_mod (le_refl _)] at hreads₁
  obtain ⟨d₂, hbits, hreads₂, hbuf₂⟩ := gets_getBits (by omega)
    (Nat.mod_lt _ (Nat.two_pow_pos _)) d₁ _ hreads₁
  refine ⟨d₂, ?_, hreads₂, hbuf₂.trans hbuf₁⟩
  simp only [getRice, hunary, Option.bind_eq_bind, Option.bind_some, hbits]
  congr 3
  -- Quotient and remainder make up the value.
  have hdiv := Nat.div_add_mod x.toNat (2 ^ k)
  have hmul := mul_comm (2 ^ k) (x.toNat / 2 ^ k)
  have hpred : BitVec.ofNat 32 (1 + x.toNat / 2 ^ k) - 1#32 =
      BitVec.ofNat 32 (x.toNat / 2 ^ k) := by
    rw [add_comm, ofNat_add, add_sub_cancel]
  have hquotient : x.toNat / 2 ^ k < 2 ^ 32 := (Nat.div_le_self _ _).trans_lt hx
  apply eq_of_toNat_eq
  rw [hpred, toNat_add, toNat_shiftLeft, toNat_ofNat, toNat_ofNat, Nat.mod_eq_of_lt hquotient]
  omega

/-! ## `EnsureBits` and `ConsumeBits` -/

/-- A byte shifted as an `int` has no sign bit. -/
theorem signExtend_byte (b : Byte) {nbuf : Nat} (h : nbuf < 24) :
    (b.setWidth 32 <<< nbuf).signExtend 64 = b.setWidth 64 <<< nbuf := by
  have hpow : 2 ^ nbuf ≤ 2 ^ 23 := Nat.pow_le_pow_right (by omega) (by omega)
  have hmul : b.toNat * 2 ^ nbuf < 2 ^ 31 := by
    calc b.toNat * 2 ^ nbuf ≤ b.toNat * 2 ^ 23 := Nat.mul_le_mul_left _ hpow
      _ < 2 ^ 31 := by omega
  have hvalue : (b.setWidth 32 <<< nbuf).toNat = b.toNat * 2 ^ nbuf := by
    rw [toNat_shiftLeft, toNat_setWidth_of_le (by omega), Nat.shiftLeft_eq,
      Nat.mod_eq_of_lt (by omega)]
  have hmsb : (b.setWidth 32 <<< nbuf).msb = false := by
    rw [msb_eq_false_iff_two_mul_lt]
    omega
  rw [signExtend_eq_setWidth_of_msb_false hmsb]
  apply eq_of_toNat_eq
  rw [toNat_setWidth_of_le (by omega), hvalue, toNat_shiftLeft,
    toNat_setWidth_of_le (by omega), Nat.shiftLeft_eq, Nat.mod_eq_of_lt (by omega)]

/-- The loop of `EnsureBits` gets enough bits into the buffer and keeps the stream. -/
theorem fillBits_spec (h : Reads d stream) (hk : k ≤ 24) (havail : k ≤ stream.length) :
    ∃ d', d.fillBits k = some d' ∧ Reads d' stream ∧ k ≤ d'.nbuf ∧
      d'.decoder.buf = d.decoder.buf := by
  -- Each round adds eight bits, so the induction is on the bits that are missing.
  induction hmissing : k - d.nbuf using Nat.strong_induction_on generalizing d with
  | h missing ih =>
    rw [fillBits]
    by_cases hnbuf : d.nbuf < k
    · obtain ⟨b, decoder, hget, hbuf, -, hholds⟩ := h.toHolds.get8 (by omega) (by omega)
      rw [← signExtend_byte b (by omega)] at hholds
      obtain ⟨d', hfill, hreads, hle, hbuf'⟩ := ih (k - (d.nbuf + 8)) (by omega)
        ⟨hholds, show d.nbuf + 8 < 64 by omega⟩ rfl
      refine ⟨d', ?_, hreads, hle, hbuf'.trans hbuf⟩
      rw [if_pos hnbuf, hget]
      exact hfill
    · exact ⟨d, if_neg hnbuf, h, by omega, rfl⟩

/-- `AvailBits()` is what is left of the stream. -/
theorem Holds.availBits (h : Holds d stream) : d.availBits = stream.length :=
  h.length.symm

/-- `EnsureBits` gets enough bits into the buffer and keeps the stream. -/
theorem ensureBits_spec (h : Reads d stream) (hk : k ≤ 24) (havail : k ≤ stream.length) :
    ∃ d', d.ensureBits k = some d' ∧ Reads d' stream ∧ k ≤ d'.nbuf ∧
      d'.decoder.buf = d.decoder.buf := by
  rw [ensureBits, h.availBits, if_pos ⟨hk, havail⟩]
  exact fillBits_spec h hk havail

/-- `ConsumeBits` drops bits of the buffer. -/
theorem consumeBits_spec (h : Reads d stream) (hk : k ≤ d.nbuf) :
    ∃ d', d.consumeBits k = some d' ∧ Reads d' (stream.drop k) ∧
      d'.decoder.buf = d.decoder.buf := by
  have hsmall := h.partial_word
  have hsplit : stream = toBits (d.buf.toNat % 2 ^ k) k ++ stream.drop k := by
    have htake : stream.take k = toBits (d.buf.toNat % 2 ^ k) k := by
      rw [toBits_mod (le_refl k), ← h.stream_eq, toBits_split hk, List.append_assoc]
      exact take_left' (length_toBits _ _)
    rw [← htake, take_append_drop]
  have hholds := h.toHolds
  rw [hsplit] at hholds
  refine ⟨_, if_pos hk, ⟨(hholds.take (Nat.mod_lt _ (Nat.two_pow_pos k)) hk).2, ?_⟩, rfl⟩
  show d.nbuf - k < 64
  omega

end Gloop.Coding.BitCoding

import Gloop.Coding.EliasFano.Model
import Gloop.Foundation.PackedBits

/-!
# What `Encoder::Append` writes

The high parts of the values form a unary stream, and their low parts an array of bit fields.
`Encoder.Appended` says that the memory of an encoder holds both for the values appended so far, and
`Encoder.Appended.append` that `Append` keeps this. All memory that the index needs is still
untouched.
-/

namespace Gloop.Coding.EliasFano

open Gloop.Foundation Gloop.Coding.LittleEndian BitVec Nat

/-- The high part of a value. -/
def highPart (width : Nat) (v : BitVec 64) : Nat :=
  v.toNat / 2 ^ width

/-- The high parts of the values. -/
def highParts (width : Nat) (values : List (BitVec 64)) : List Nat :=
  values.map (highPart width)

/-! ## The layout -/

section Layout

variable {opts : Options}

/-- The pointers of an encoding of version 3. -/
structure Pointers.Placed (ptr : Pointers) (opts : Options) : Prop where
  high_eq : ptr.high = opts.metadata.length
  low_eq : ptr.low = ptr.high + opts.highBytes
  dense1_eq : ptr.dense1 = ptr.low + opts.lowBytes
  dense0_eq : ptr.dense0 = ptr.dense1 + 20 * opts.oneDenseSize
  sparse_eq : ptr.sparse = ptr.dense0 + 20 * opts.zeroDenseSize

/-- The places of the arrays are determined. -/
theorem Pointers.Placed.unique {ptr ptr' : Pointers} (h : ptr.Placed opts) (h' : ptr'.Placed opts) :
    ptr = ptr' := by
  have hhigh := h.high_eq.trans h'.high_eq.symm
  have hlow : ptr.low = ptr'.low := by rw [h.low_eq, h'.low_eq, hhigh]
  have hdense1 : ptr.dense1 = ptr'.dense1 := by rw [h.dense1_eq, h'.dense1_eq, hlow]
  have hdense0 : ptr.dense0 = ptr'.dense0 := by rw [h.dense0_eq, h'.dense0_eq, hdense1]
  have hsparse : ptr.sparse = ptr'.sparse := by rw [h.sparse_eq, h'.sparse_eq, hdense0]
  cases ptr
  cases ptr'
  simp_all only

/-- The layout places the arrays one after the other. -/
theorem makeL2_placed (h : opts.Legal) (lzcnt : Bool) (sparseSize : Nat) :
    (makeL2 lzcnt opts sparseSize).pointers.Placed opts :=
  ⟨h.encodingLength_eq lzcnt, rfl, rfl, rfl, rfl⟩

/-- The stream and the bit after it fit into the high bytes. -/
theorem bits_lt_highBytes (opts : Options) : opts.bits < 8 * opts.highBytes := by
  have hle := Options.le_iceil_mul (opts.bits + 1) (show 0 < 8 by omega)
  unfold Options.highBytes
  omega

/-- A low field starts inside of the low bytes. -/
theorem low_lt_lowBytes {i : Nat} (hi : i < opts.size) (hwidth : opts.width ≠ 0) :
    i * opts.width / 8 < opts.lowBytes ∧ (i + 1) * opts.width ≤ 8 * opts.lowBytes := by
  have hle := Options.le_iceil_mul (opts.size * opts.width) (show 0 < 8 by omega)
  have hnext : (i + 1) * opts.width ≤ opts.size * opts.width := Nat.mul_le_mul_right _ hi
  have hsplit : (i + 1) * opts.width = i * opts.width + opts.width := Nat.succ_mul _ _
  unfold Options.lowBytes
  omega

end Layout

/-! ## Single writes -/

namespace Encoder

variable {e : Encoder} {pos : Nat}

/-- A byte with another bit is stored. -/
theorem store_bit (bit : Bool) {buf : List Byte} {p : Nat} {b : Byte} (b' : Byte)
    (hb : buf[p + pos / 8]? = some b)
    (hbits : ∀ j < 8, b'.getLsbD j = if j = pos % 8 then bit else b.getLsbD j) :
    ∃ buf', store buf (p + pos / 8) [b'] = some buf' ∧
      Overwrites buf buf' (8 * p + pos) 1 bit.toNat := by
  obtain ⟨hp, -⟩ := List.getElem?_eq_some_iff.mp hb
  have hbyte : [b'] = toBytes b'.toNat 1 := by
    rw [toBytes, toBytes, ofNat_toNat, setWidth_eq]
  rw [hbyte, show 8 * p + pos = 8 * (p + pos / 8) + pos % 8 by omega]
  refine store_field hp (by omega) fun j hj => ?_
  rw [testBit_toNat, hbits j hj, getLsbD_of_getElem? hb hj]
  by_cases hjk : j = pos % 8
  · rw [if_pos hjk, if_pos (by omega), show j - pos % 8 = 0 by omega]
    cases bit <;> rfl
  · rw [if_neg hjk, if_neg (by omega)]

/-- A bit is set. -/
theorem setBit_spec (h : e.ptr.high + pos / 8 < e.mem.length) :
    ∃ mem, e.setBit pos = some { e with mem } ∧
      Overwrites e.mem mem (8 * e.ptr.high + pos) 1 1 := by
  have hb := List.getElem?_eq_getElem h
  obtain ⟨mem, hstore, hover⟩ :=
    store_bit true (e.mem[e.ptr.high + pos / 8] ||| (1#8 <<< (pos % 8))) hb fun j hj => by
      rw [getLsbD_or, getLsbD_one_shiftLeft hj]
      by_cases hjk : j = pos % 8 <;> simp [hjk]
  refine ⟨mem, ?_, hover⟩
  rw [setBit, hb]
  simp [hstore]

/-- A bit is cleared. -/
theorem unsetBit_spec (h : e.ptr.high + pos / 8 < e.mem.length) :
    ∃ mem, e.unsetBit pos = some { e with mem } ∧
      Overwrites e.mem mem (8 * e.ptr.high + pos) 1 0 := by
  have hb := List.getElem?_eq_getElem h
  obtain ⟨mem, hstore, hover⟩ :=
    store_bit false (e.mem[e.ptr.high + pos / 8] &&& ~~~(1#8 <<< (pos % 8))) hb fun j hj => by
      rw [getLsbD_and, getLsbD_not, getLsbD_one_shiftLeft hj, decide_eq_true hj]
      by_cases hjk : j = pos % 8 <;> simp [hjk]
  refine ⟨mem, ?_, hover⟩
  rw [unsetBit, hb]
  simp [hstore]

theorem encode56_spec {i : Nat} {value : BitVec 64} (hwidth : e.opts.width ≤ 56)
    (hmask : e.lowMask = (1#64 <<< e.opts.width) - 1#64) (hvalue : value.toNat < 2 ^ e.opts.width)
    (hmem : e.opts.width ≠ 0 → e.ptr.low + i * e.opts.width / 8 + 8 ≤ e.mem.length) :
    ∃ mem, e.encode56 i value = some { e with mem } ∧
      Overwrites e.mem mem (8 * e.ptr.low + i * e.opts.width) e.opts.width value.toNat := by
  have hones : ∀ j, e.lowMask.getLsbD j = decide (j < e.opts.width) := by
    intro j
    rw [hmask, getLsbD_lowMask (by omega)]
  by_cases hzero : e.opts.width = 0
  · refine ⟨e.mem, by rw [encode56, if_pos hzero], rfl, fun j => ?_⟩
    rw [if_neg (by omega)]
  have hfits := hmem hzero
  have hclear : value &&& ~~~e.lowMask = 0#64 := by
    apply eq_of_getLsbD_eq
    intro j hj
    rw [getLsbD_and, getLsbD_not, hones, getLsbD_zero, decide_eq_true hj, Bool.true_and]
    by_cases hlow : j < e.opts.width
    · rw [decide_eq_true hlow, Bool.not_true, Bool.and_false]
    · rw [← testBit_toNat, testBit_lt_two_pow (hvalue.trans_le
        (Nat.pow_le_pow_right Nat.two_pos (Nat.le_of_not_lt hlow))), Bool.false_and]
  have hstore := store_field hfits
    (show i * e.opts.width % 8 + e.opts.width ≤ 64 by omega) fun j hj => by
      rw [testBit_toNat, getLsbD_replace hj hones hvalue, getLsbD_load64 _ _ hj, ← testBit_toNat]
  obtain ⟨mem, hstore, hover⟩ := hstore
  refine ⟨mem, ?_, ?_⟩
  · rw [encode56, if_neg hzero, Option.bind_eq_bind, guard_bind hclear]
    simp [load64_eq hfits, show store64 _ _ _ = some mem from hstore]
  · rwa [show 8 * (e.ptr.low + i * e.opts.width / 8) + i * e.opts.width % 8 =
      8 * e.ptr.low + i * e.opts.width by omega] at hover

/-! ## Runs of `Append` -/

/-- An encoder with its pointers, its metadata and enough memory. -/
structure Ready (e : Encoder) : Prop where
  legal : e.opts.Legal
  placed : e.ptr.Placed e.opts
  lowMask_eq : e.lowMask = (1#64 <<< e.opts.width) - 1#64
  low_room : e.ptr.dense1 + 7 ≤ e.mem.length
  sparse_room : e.ptr.sparse + 4 * e.opts.maxSparseSize ≤ e.mem.length
  metadata_eq : e.mem.take e.ptr.high = e.opts.metadata

/-- Writes after the metadata keep the encoder ready. -/
theorem Ready.frame {e' : Encoder} {lo hi : Nat} (h : e.Ready) (hframe : Frame e.mem e'.mem lo hi)
    (hlo : 8 * e.ptr.high ≤ lo) (hopts : e'.opts = e.opts) (hptr : e'.ptr = e.ptr)
    (hmask : e'.lowMask = e.lowMask) : e'.Ready := by
  refine ⟨?_, ?_, ?_, ?_, ?_, ?_⟩
  · exact hopts ▸ h.legal
  · rw [hopts, hptr]
    exact h.placed
  · rw [hopts, hmask]
    exact h.lowMask_eq
  · rw [hptr, hframe.length_eq]
    exact h.low_room
  · rw [hptr, hopts, hframe.length_eq]
    exact h.sparse_room
  · rw [hptr, hopts, hframe.take_eq hlo]
    exact h.metadata_eq

/-- A bit of the stream, or the one after it, is in the memory of the high bits. -/
theorem Ready.high_lt (h : e.Ready) (hpos : pos ≤ e.opts.bits) :
    e.ptr.high + pos / 8 < e.ptr.low := by
  have hbits := bits_lt_highBytes e.opts
  have hlow := h.placed.low_eq
  omega

/-- The values appended so far. -/
structure Appended (e : Encoder) (done : List (BitVec 64)) : Prop where
  ready : e.Ready
  size_eq : e.size = done.length
  lastValue_eq : e.lastValue = done.getLastD 0
  actualBytes_eq : e.actualBytes = 0
  high : ∀ k < 8 * e.opts.highBytes,
    bitAt e.mem (8 * e.ptr.high + k) = unaryBit (highParts e.opts.width done) k
  low : ∀ i (hi : i < done.length), field e.mem (8 * e.ptr.low + i * e.opts.width) e.opts.width =
    done[i].toNat % 2 ^ e.opts.width

/-- A new encoder has nothing appended. -/
theorem new_spec {opts : Options} (hlegal : opts.Legal) (lzcnt : Bool) {span : List Byte}
    (hspan : maxEncodingBytes lzcnt opts ≤ span.length) :
    ∃ e, new lzcnt opts span = some e ∧ e.Appended [] ∧ e.opts = opts ∧
      e.mem.length = span.length := by
  have hplaced := makeL2_placed hlegal lzcnt opts.maxSparseSize
  have hroom : max ((makeL2 lzcnt opts opts.maxSparseSize).pointers.sparse + 4 * opts.maxSparseSize)
      ((makeL2 lzcnt opts opts.maxSparseSize).pointers.dense1 + 7) ≤ span.length := hspan
  -- the high bits start right behind the metadata
  have hle : opts.metadata.length ≤ span.length := by
    have h₁ := hplaced.high_eq
    have h₂ := hplaced.low_eq
    have h₃ := hplaced.dense1_eq
    omega
  have hstore : opts.encode lzcnt (List.replicate span.length 0#8) =
      some (opts.metadata ++ List.replicate (span.length - opts.metadata.length) 0#8) := by
    rw [hlegal.encode_eq lzcnt (by rw [List.length_replicate]; exact hle), store,
      List.length_replicate, Nat.zero_add, if_pos hle, List.take_zero, List.nil_append,
        List.drop_replicate]
  have hlength : (opts.metadata ++ List.replicate (span.length - opts.metadata.length) 0#8).length =
      span.length := by
    rw [List.length_append, List.length_replicate]
    omega
  refine ⟨⟨opts, opts.metadata ++ List.replicate (span.length - opts.metadata.length) 0#8,
    (makeL2 lzcnt opts opts.maxSparseSize).pointers, (1#64 <<< opts.width) - 1#64, 0, 0, 0⟩,
    ?_, ⟨⟨hlegal, hplaced, rfl, ?_, ?_, ?_⟩, rfl, rfl, rfl, ?_, ?_⟩, rfl, hlength⟩
  · rw [new, if_neg (Nat.not_lt.mpr hspan), hstore]
    rfl
  · rw [hlength]
    exact (Nat.le_max_right _ _).trans hroom
  · rw [hlength]
    exact (Nat.le_max_left _ _).trans hroom
  · rw [hplaced.high_eq, List.take_left]
  · intro k hk
    rw [hplaced.high_eq, bitAt_append, if_neg (by omega), bitAt_replicate_zero]
    rfl
  · intro i hi
    exact absurd hi (Nat.not_lt_zero i)

/-- `Append` adds a value. -/
theorem Appended.append {done : List (BitVec 64)} {v : BitVec 64} (h : e.Appended done)
    (hlast : done.getLastD 0 ≤ v) (hmax : v ≤ e.opts.maxValue) (hsize : done.length < e.opts.size) :
    ∃ e', e.append v = some e' ∧ e'.Appended (done ++ [v]) ∧ e'.opts = e.opts ∧
      e'.mem.length = e.mem.length := by
  have hready := h.ready
  have hlegal := hready.legal
  have hplaced := hready.placed
  have hwidth := hlegal.width_le
  have hlowRoom := hready.low_room
  -- the position of the new bit is in the stream
  have hpart : highPart e.opts.width v ≤ e.opts.zeroBits := by
    rw [hlegal.zeroBits_eq]
    exact Nat.div_le_div_right hmax
  have hpos : done.length + highPart e.opts.width v < e.opts.bits := by
    rw [Options.bits, hlegal.oneBits_eq]
    omega
  have hhigh := hready.high_lt hpos.le
  have hbyte : e.ptr.high + (done.length + highPart e.opts.width v) / 8 < e.mem.length := by
    have := hplaced.dense1_eq
    omega
  obtain ⟨mem₁, hset, hover₁⟩ := setBit_spec hbyte
  have hlowBits : (v &&& e.lowMask).toNat = v.toNat % 2 ^ e.opts.width := by
    rw [BitVec.toNat_and, hready.lowMask_eq, toNat_lowMask (by omega), and_two_pow_sub_one_eq_mod]
  obtain ⟨mem₂, hencode, hover₂⟩ := encode56_spec (e := { e with mem := mem₁ })
    hwidth hready.lowMask_eq
    (show (v &&& e.lowMask).toNat < 2 ^ e.opts.width from hlowBits ▸ mod_lt _ (Nat.two_pow_pos _))
    (fun hne => by
      have := (low_lt_lowBytes hsize hne).1
      have := hplaced.dense1_eq
      show e.ptr.low + done.length * e.opts.width / 8 + 8 ≤ mem₁.length
      rw [hover₁.length_eq]
      omega)
  replace hover₂ : Overwrites mem₁ mem₂ (8 * e.ptr.low + done.length * e.opts.width) e.opts.width
      (v.toNat % 2 ^ e.opts.width) := hlowBits ▸ hover₂
  have hrun : e.append v =
      some { e with mem := mem₂, size := done.length + 1, lastValue := v } := by
    have hshift : (v >>> e.opts.width).toNat = highPart e.opts.width v :=
      Options.toNat_ushiftRight_eq v _
    have hnext : (done.length + 1) % 2 ^ 32 = done.length + 1 :=
      mod_eq_of_lt (by have := hlegal.size_lt; omega)
    rw [Encoder.append, Option.bind_eq_bind, guard_bind (h.lastValue_eq ▸ hlast),
      guard_bind hmax, guard_bind (by rw [h.size_eq]; omega)]
    rw [h.size_eq] at hset hencode
    simp only [Option.bind_eq_bind, h.size_eq, hshift, hset, Option.bind_some, hencode, hnext,
      Option.pure_def]
  -- bits of the stream before the write are below the low bits, and the other way round
  have hlow := hplaced.low_eq
  refine ⟨_, hrun, ⟨?_, ?_, ?_, h.actualBytes_eq, ?_, ?_⟩, rfl, ?_⟩
  · have hframe₁ : Ready { e with mem := mem₁ } :=
      hready.frame hover₁.frame (by omega) rfl rfl rfl
    exact hframe₁.frame hover₂.frame (by show 8 * e.ptr.high ≤ _; omega) rfl rfl rfl
  · rw [List.length_append, List.length_singleton]
  · rw [List.getLastD_concat]
  · intro k hk
    have hk' : k < 8 * e.opts.highBytes := hk
    show bitAt mem₂ (8 * e.ptr.high + k) = unaryBit (highParts e.opts.width (done ++ [v])) k
    rw [hover₂.bits, if_neg (by omega), hover₁.bits, highParts,
      List.map_append, List.map_singleton, unaryBit_concat, List.length_map]
    by_cases heq : k = done.length + highPart e.opts.width v
    · rw [if_pos (by omega), decide_eq_true heq, Bool.or_true, heq, Nat.sub_self]
      rfl
    · rw [if_neg (by omega), decide_eq_false heq, Bool.or_false]
      exact h.high k hk'
  · intro i hi
    show field mem₂ (8 * e.ptr.low + i * e.opts.width) e.opts.width = _
    rw [List.length_append] at hi
    rcases Nat.lt_succ_iff_lt_or_eq.mp hi with hlt | rfl
    · have hapart : (i + 1) * e.opts.width ≤ done.length * e.opts.width :=
        Nat.mul_le_mul_right _ hlt
      rw [Nat.add_mul] at hapart
      rw [hover₂.field_other (.inl (by omega)),
        hover₁.field_other (.inr (by omega)), List.getElem_append_left]
      exact h.low i hlt
    · have hsame := hover₂.field_same
      rw [hsame]
      simp
  · rw [hover₂.length_eq, hover₁.length_eq]

end Encoder

end Gloop.Coding.EliasFano

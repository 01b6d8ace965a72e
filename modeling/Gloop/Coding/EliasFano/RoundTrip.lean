import Gloop.Coding.EliasFano.Select

/-!
# The round trip of `Encoder2` and `Decoder`

`Encoder2` keeps the values as varints of their differences and feeds them to an `Encoder` when it
is finalized. `elias_fano_round_trip` says that this succeeds for each sorted list, in whichever
spans it is appended and with whichever index, and that a `Decoder` of the result has the list.
-/

namespace Gloop.Coding.EliasFano

open Gloop.Foundation List Option Varint Options

/-! ## Differences -/

/-- The differences that `Encoder2` stores after the value `prev`. -/
def deltas (prev : BitVec 64) : List (BitVec 64) → List (BitVec 64)
  | [] => []
  | v :: values => (v - prev) :: deltas v values

/-- The bytes that it stores. -/
def deltaBytes (prev : BitVec 64) (values : List (BitVec 64)) : List Byte :=
  (deltas prev values).flatMap fun delta => base128 delta.toNat

theorem deltaBytes_cons (prev v : BitVec 64) (values : List (BitVec 64)) :
    deltaBytes prev (v :: values) = base128 (v - prev).toNat ++ deltaBytes v values :=
  rfl

/-- The deltas of a list in two parts. -/
theorem deltaBytes_append (prev : BitVec 64) (front back : List (BitVec 64)) :
    deltaBytes prev (front ++ back) =
      deltaBytes prev front ++ deltaBytes (front.getLastD prev) back := by
  induction front generalizing prev with
  | nil => rfl
  | cons v front ih =>
    rw [cons_append, deltaBytes_cons, deltaBytes_cons, ih, append_assoc, getLastD_cons]

theorem getLastD_append (front back : List (BitVec 64)) (prev : BitVec 64) :
    (front ++ back).getLastD prev = back.getLastD (front.getLastD prev) := by
  induction front generalizing prev with
  | nil => rfl
  | cons v front ih => rw [cons_append, getLastD_cons, getLastD_cons, ih]

/-- What follows in a sorted list goes on from its last value so far. -/
theorem pairwise_getLastD {done values : List (BitVec 64)} (h : (done ++ values).Pairwise (· ≤ ·)) :
    (done.getLastD 0 :: values).Pairwise (· ≤ ·) := by
  obtain ⟨-, hvalues, hcross⟩ := pairwise_append.mp h
  refine pairwise_cons.mpr ⟨fun v hv => ?_, hvalues⟩
  cases done with
  | nil => exact BitVec.le_def.mpr zero_le
  | cons head done =>
    rw [getLastD_cons]
    exact hcross _ getLastD_mem_cons v hv

/-- The next value of a list that fits can be appended. -/
theorem Encoder.Appended.append_of_fits {e : Encoder} {done rest : List (BitVec 64)} {v : BitVec 64}
    (h : e.Appended done) (hfits : e.opts.Fits (done ++ v :: rest)) :
    ∃ e', e.append v = some e' ∧ e'.Appended (done ++ [v]) ∧ e'.opts = e.opts ∧
      e'.opts.Fits ((done ++ [v]) ++ rest) := by
  have hsize := hfits.size_eq
  rw [length_append, length_cons] at hsize
  obtain ⟨e', hrun, h', hopts, -⟩ := h.append
    ((pairwise_cons.mp (pairwise_getLastD hfits.sorted)).1 v mem_cons_self)
    (hfits.le_maxValue (mem_append_right done mem_cons_self)) (by omega)
  refine ⟨e', hrun, h', hopts, ?_⟩
  rwa [hopts, ← append_cons]

/-! ## Appending to `Encoder2` -/

namespace Encoder2

variable {e : Encoder2}

/-- The values appended so far. -/
structure Appended (e : Encoder2) (done : List (BitVec 64)) : Prop where
  bytes_eq : e.valsEnc.bytes = deltaBytes 0 done
  numVals_eq : e.numVals = done.length
  maxVal_eq : e.maxVal = done.getLastD 0

theorem new_appended (index : IndexChoice) : (Encoder2.new index).Appended [] :=
  ⟨rfl, rfl, rfl⟩

/-- A delta is appended as a varint. -/
theorem encVal_spec (target : Target) (e : Encoder2) (val : BitVec 64) :
    ∃ valsEnc, e.encVal target val = some { e with valsEnc } ∧
      valsEnc.bytes = e.valsEnc.bytes ++ base128 val.toNat := by
  have hlength : length64 target.lzcnt val = (base128 val.toNat).length :=
    lengthImpl_eq target.lzcnt (by omega) (by omega) val
  obtain ⟨hbytes, hroom⟩ :=
    e.valsEnc.ensure_spec target.slack (length64 target.lzcnt val)
  rw [hlength] at hbytes hroom
  refine ⟨⟨(e.valsEnc.ensure target.slack (base128 val.toNat).length).capacity,
    e.valsEnc.bytes ++ base128 val.toNat⟩, ?_, rfl⟩
  rw [encVal, hlength, Coding.Encoder.putVarint64_eq target.lzcnt hroom, hbytes]
  rfl

variable {values : List (BitVec 64)}

/-- The loop of `Append` takes a sorted list that goes on from the largest value. -/
theorem appendLoop_spec (target : Target) (hsorted : (e.maxVal :: values).Pairwise (· ≤ ·)) :
    ∃ e', appendLoop target e values = some (true, e') ∧
      e'.valsEnc.bytes = e.valsEnc.bytes ++ deltaBytes e.maxVal values ∧
      e'.maxVal = values.getLastD e.maxVal ∧ e'.numVals = e.numVals ∧ e'.index = e.index := by
  induction values generalizing e with
  | nil => exact ⟨e, rfl, by rw [deltaBytes, deltas, flatMap_nil, append_nil], rfl, rfl, rfl⟩
  | cons v values ih =>
    obtain ⟨hhead, htail⟩ := pairwise_cons.mp hsorted
    have hle : ¬v < e.maxVal := BitVec.not_lt.mpr (hhead v mem_cons_self)
    obtain ⟨valsEnc, hencode, hbytes⟩ := encVal_spec target
      { e with minDelta := if v - e.maxVal < e.minDelta then v - e.maxVal else e.minDelta }
      (v - e.maxVal)
    obtain ⟨e', hrun, hbytes', hmax, hnum, hindex⟩ := ih (e := ⟨valsEnc, e.index, e.numVals,
      if v - e.maxVal < e.minDelta then v - e.maxVal else e.minDelta, v⟩) htail
    refine ⟨e', ?_, ?_, ?_, hnum, hindex⟩
    · rw [appendLoop, if_neg hle]
      simp only [hencode]
      exact hrun
    · rw [hbytes', hbytes, deltaBytes_cons, append_assoc]
    · rw [hmax, getLastD_cons]

/-- A span of values is appended after the first one. -/
theorem appendRest_spec (target : Target) (hsorted : (e.maxVal :: values).Pairwise (· ≤ ·))
    (hlength : e.numVals + values.length < 2 ^ 32) :
    ∃ e', appendRest target e values = some (true, e') ∧
      e'.valsEnc.bytes = e.valsEnc.bytes ++ deltaBytes e.maxVal values ∧
      e'.maxVal = values.getLastD e.maxVal ∧ e'.numVals = e.numVals + values.length ∧
      e'.index = e.index := by
  obtain ⟨e', hrun, hbytes, hmax, hnum, hindex⟩ := appendLoop_spec target hsorted
  refine ⟨{ e' with numVals := e.numVals + values.length }, ?_, hbytes, hmax, rfl, hindex⟩
  simp only [appendRest, hrun, bind_eq_bind, bind_some, if_true, hnum, Nat.mod_eq_of_lt hlength,
    Option.pure_def]

/-- `Append` adds a span that continues the sorted list. -/
theorem Appended.append {done values : List (BitVec 64)} (h : e.Appended done) (target : Target)
    (hsorted : (done ++ values).Pairwise (· ≤ ·)) (hlength : (done ++ values).length < 2 ^ 32) :
    ∃ e', e.append target values = some (true, e') ∧ e'.Appended (done ++ values) ∧
      e'.index = e.index := by
  rw [length_append] at hlength
  cases values with
  | nil => exact ⟨e, rfl, by rwa [append_nil], rfl⟩
  | cons front rest =>
    have hnext := pairwise_getLastD hsorted
    by_cases hfirst : e.numVals = 0
    · -- the first value is stored as it is
      obtain rfl : done = [] := by
        rw [← length_eq_zero_iff, ← h.numVals_eq, hfirst]
      obtain ⟨valsEnc, hencode, hbytes⟩ := encVal_spec target { e with maxVal := front } front
      obtain ⟨e', hrun, hbytes', hmax, hnum, hindex⟩ :=
        appendRest_spec (e := ⟨valsEnc, e.index, 1, e.minDelta, front⟩) target
          (pairwise_cons.mp hnext).2 (by
            simp only [length_cons] at hlength ⊢
            omega)
      refine ⟨e', ?_, ⟨?_, ?_, ?_⟩, hindex⟩
      · rw [Encoder2.append, hencode]
        rw [hfirst]
        exact hrun
      · rw [hbytes', hbytes, h.bytes_eq, nil_append, deltaBytes_cons, sub_zero]
        rfl
      · rw [hnum, nil_append, length_cons, add_comm]
      · rw [hmax, nil_append, getLastD_cons]
    · rw [← h.maxVal_eq] at hnext
      rw [← h.numVals_eq] at hlength
      obtain ⟨e', hrun, hbytes, hmax, hnum, hindex⟩ := appendRest_spec target hnext hlength
      refine ⟨e', ?_, ⟨?_, ?_, ?_⟩, hindex⟩
      · rw [Encoder2.append, if_neg hfirst]
        exact hrun
      · rw [hbytes, h.bytes_eq, h.maxVal_eq, deltaBytes_append]
      · rw [hnum, h.numVals_eq, length_append]
      · rw [hmax, h.maxVal_eq, getLastD_append]

/-- Append the spans one after the other, so long as that succeeds. -/
def appendAll (target : Target) : Encoder2 → List (List (BitVec 64)) → Option (Bool × Encoder2)
  | e, [] => some (true, e)
  | e, values :: spans => do
    let (ok, e) ← e.append target values
    if ok then appendAll target e spans else some (false, e)

/-- Spans of values are appended one after the other. -/
theorem Appended.appendAll {done : List (BitVec 64)} {spans : List (List (BitVec 64))}
    (h : e.Appended done) (target : Target) (hsorted : (done ++ spans.flatten).Pairwise (· ≤ ·))
    (hlength : (done ++ spans.flatten).length < 2 ^ 32) :
    ∃ e', appendAll target e spans = some (true, e') ∧ e'.Appended (done ++ spans.flatten) ∧
      e'.index = e.index := by
  induction spans generalizing e done with
  | nil => exact ⟨e, rfl, by rwa [flatten_nil, append_nil], rfl⟩
  | cons values spans ih =>
    rw [flatten_cons, ← append_assoc] at hsorted hlength ⊢
    obtain ⟨e₁, hrun₁, h₁, hindex₁⟩ := h.append target (pairwise_append.mp hsorted).1 (by
      rw [length_append] at hlength
      omega)
    obtain ⟨e', hrun, h', hindex⟩ := ih h₁ hsorted hlength
    refine ⟨e', ?_, h', hindex.trans hindex₁⟩
    simp only [Encoder2.appendAll, hrun₁]
    exact hrun

/-! ## Finalizing -/

/-- The loop of `FinalizeToStr` appends the values to the encoder. -/
theorem feed_spec (arch : Varint.Arch) {encoder : Encoder} {buf : List Byte} {pos : Nat}
    {done rest : List (BitVec 64)} (h : encoder.Appended done)
    (hfits : encoder.opts.Fits (done ++ rest))
    (hholds : HoldsAt buf pos (deltaBytes (done.getLastD 0) rest)) :
    ∃ encoder', feed arch rest.length ⟨buf, pos⟩ (done.getLastD 0) encoder = some encoder' ∧
      encoder'.Appended (done ++ rest) ∧ encoder'.opts = encoder.opts := by
  induction rest generalizing encoder pos done with
  | nil => exact ⟨encoder, rfl, by rwa [append_nil], rfl⟩
  | cons v rest ih =>
    rw [deltaBytes_cons, holdsAt_append_iff] at hholds
    obtain ⟨hfirst, hrest⟩ := hholds
    have hget : Coding.Decoder.getVarint64 arch ⟨buf, pos⟩ = _ :=
      Coding.Decoder.getVarint64_eq arch hfirst
    obtain ⟨encoder₁, hrun₁, h₁, hopts₁, hfits₁⟩ := h.append_of_fits hfits
    obtain ⟨encoder', hrun, h', hopts⟩ := ih h₁ hfits₁ (by rwa [getLastD_concat])
    rw [← append_cons] at h'
    refine ⟨encoder', ?_, h', hopts.trans hopts₁⟩
    rw [getLastD_concat] at hrun
    have hvalue : done.getLastD 0 + (v - done.getLastD 0) = v := add_sub_cancel _ _
    simp only [length_cons, feed, hget, join_some, bind_eq_bind, bind_some, hvalue, hrun₁]
    exact hrun

/-- Options for a number of values and the largest of them. -/
theorem getOptions_spec {size : Nat} {maxVal : BitVec 64} (index : IndexChoice)
    (hsize : size < 2 ^ 32) (hempty : size = 0 → maxVal.toNat < 2 ^ 32) :
    ∃ opts, getOptions size maxVal index = some opts ∧ opts.Legal ∧ opts.size = size ∧
      opts.maxValue = maxVal := by
  obtain ⟨opts, hnew, hlegal, hopts, hmax⟩ := new_spec hsize hempty
  have hversion : opts.setVersion 3 = some opts := by
    rw [setVersion, if_pos rfl, ← hlegal.version_eq]
  refine ⟨opts.indexes index.toNat, ?_, hlegal.indexes _, hopts, hmax⟩
  simp [getOptions, hnew, hversion]

/-- `FinalizeToStr` succeeds and gives an encoding of the values. -/
theorem Appended.finalizeToStr (h : e.Appended values) (target : Target)
    (uninit : Nat → Byte) (hsorted : values.Pairwise (· ≤ ·)) (hlength : values.length < 2 ^ 32) :
    ∃ e' bytes opts ptr, e.finalizeToStr target uninit = some (e', bytes) ∧
      Encoding bytes opts ptr values := by
  have hempty : e.numVals = 0 → e.maxVal.toNat < 2 ^ 32 := by
    intro hzero
    rw [h.numVals_eq, List.length_eq_zero_iff] at hzero
    rw [h.maxVal_eq, hzero]
    exact Nat.two_pow_pos 32
  obtain ⟨opts, hopts, hlegal, hsize, hmax⟩ :=
    getOptions_spec e.index (h.numVals_eq.trans_lt hlength) hempty
  have hfits : opts.Fits values :=
    ⟨hlegal, hsize.trans h.numVals_eq, hmax.trans h.maxVal_eq, hsorted⟩
  have hspan : maxEncodingBytes target.lzcnt opts ≤
      (resizeUninitialized uninit [] (maxEncodingBytes target.lzcnt opts)).length := by
    simp [resizeUninitialized]
  obtain ⟨encoder, hnew, hready, hencoder, -⟩ := Encoder.new_spec hlegal target.lzcnt hspan
  have hholds : HoldsAt e.valsEnc.bytes 0 (deltaBytes (List.getLastD [] 0) values) := by
    rw [h.bytes_eq]
    exact List.prefix_rfl
  obtain ⟨encoder₁, hfeed, happended, hopts₁⟩ :=
    feed_spec target.arch hready (show encoder.opts.Fits ([] ++ values) by rwa [hencoder]) hholds
  rw [hencoder] at hopts₁
  obtain ⟨encoder₂, n, hfinal, hn, -, hencoding⟩ :=
    happended.finalize (by rwa [hopts₁]) target.lzcnt
  refine ⟨{ e with valsEnc := ⟨0, []⟩ }, encoder₂.mem.take n, _, _, ?_, hencoding⟩
  rw [← h.numVals_eq] at hfeed
  have hfeed' : feed target.arch e.numVals ⟨e.valsEnc.bytes, 0⟩ 0 encoder = some encoder₁ := hfeed
  have hgrow : n - encoder₂.mem.length = 0 := Nat.sub_eq_zero_of_le hn
  simp only [Encoder2.finalizeToStr, hopts, hnew, hfeed', hfinal, hgrow, bind_eq_bind, bind_some,
    List.replicate_zero, List.append_nil, Option.pure_def]

end Encoder2

namespace Encoding

variable {bytes : List Byte} {opts : Options} {ptr : Pointers} {values : List (BitVec 64)}

variable (h : Encoding bytes opts ptr values)
include h

/-- The options of an encoding are read back. -/
theorem decode (arch : Varint.Arch) : decode arch bytes = some opts := by
  have hempty : opts.size = 0 → opts.maxValue.toNat < 2 ^ 32 := by
    intro hzero
    rw [h.fits.size_eq, length_eq_zero_iff] at hzero
    rw [h.fits.maxValue_eq, hzero]
    exact Nat.two_pow_pos 32
  exact h.fits.legal.decode_eq hempty arch h.metadata

/-- The current version has no alignment. -/
theorem aligned (addr : Nat) : ¬(opts.version ≤ 1 ∧ isProperlyAligned addr bytes = false) := by
  rw [h.fits.legal.version_eq]
  omega

/-- The decoder finds the pointers of the encoder. -/
theorem decoder_new (lzcnt : Bool) : Decoder.new lzcnt bytes opts = ⟨opts, bytes, ptr⟩ := by
  have hlegal := h.fits.legal
  rw [Decoder.new, if_neg (by rw [hlegal.version_eq]; omega),
    h.placed.unique (makeL2_placed hlegal lzcnt opts.maxSparseSize)]

/-- A decoder can be made of an encoding. -/
theorem make (target : Target) (addr : Nat) :
    Decoder.make target addr bytes = some ⟨opts, bytes, ptr⟩ := by
  rw [Decoder.make, h.decode, bind_eq_bind, bind_some, bind_eq_bind, guard_bind (h.aligned addr),
    h.decoder_new]
  rfl

end Encoding

/-- Whatever the spans and the index, the encoder succeeds, and the decoder gives back the values
both in order and one by one. -/
theorem elias_fano_round_trip (target : Target) (uninit : Nat → Byte) (addr : Nat)
    (index : IndexChoice) (spans : List (List (BitVec 64)))
    (hsorted : spans.flatten.Pairwise (· ≤ ·)) (hlength : spans.flatten.length < 2 ^ 32) :
    ∃ e e' bytes d, Encoder2.appendAll target (Encoder2.new index) spans = some (true, e) ∧
      e.finalizeToStr target uninit = some (e', bytes) ∧
      Decoder.make target addr bytes = some d ∧ d.size = spans.flatten.length ∧
      d.collect target.bmi2 = some spans.flatten ∧
      ∀ i (hi : i < spans.flatten.length), ∃ it, d.iteratorAt target i = some it ∧
        it.index = i ∧ it.deref target.bmi2 d = some spans.flatten[i] := by
  obtain ⟨e, hrun, happended, -⟩ := (Encoder2.new_appended index).appendAll target hsorted hlength
  obtain ⟨e', bytes, opts, ptr, hfinal, hencoding⟩ :=
    happended.finalizeToStr target uninit hsorted hlength
  have hholds : Decoder.Holds ⟨opts, bytes, ptr⟩ spans.flatten := hencoding
  refine ⟨e, e', bytes, ⟨opts, bytes, ptr⟩, hrun, hfinal, hencoding.make target addr,
    hencoding.fits.size_eq, hholds.collect target.bmi2, fun i hi => ?_⟩
  obtain ⟨it, hit, rfl, hat⟩ := hholds.iteratorAt target (hencoding.fits.size_eq ▸ hi)
  exact ⟨it, hit, rfl, hholds.deref target.bmi2 hat hi⟩

/-- Equal values in two spans, with more than 64 bits of high parts, so that both indexes are
built. -/
theorem round_trip_of_two_spans : ∃ e e' bytes d,
      Encoder2.appendAll ⟨.x86_64, true, true, true, fun _ => 0⟩ (Encoder2.new .all)
        [replicate 40 1, replicate 40 5] = some (true, e) ∧
      e.finalizeToStr ⟨.x86_64, true, true, true, fun _ => 0⟩ (fun _ => 0) = some (e', bytes) ∧
      Decoder.make ⟨.x86_64, true, true, true, fun _ => 0⟩ 0 bytes = some d ∧ d.size = 80 ∧
      d.collect true = some (replicate 40 1 ++ replicate 40 5) := by
  obtain ⟨e, e', bytes, d, hrun, hfinal, hmake, hsize, hcollect, -⟩ :=
    elias_fano_round_trip ⟨.x86_64, true, true, true, fun _ => 0⟩ (fun _ => 0) 0 .all
      [replicate 40 1, replicate 40 5] (by simp) (by simp)
  exact ⟨e, e', bytes, d, hrun, hfinal, hmake, hsize, hcollect⟩

end Gloop.Coding.EliasFano

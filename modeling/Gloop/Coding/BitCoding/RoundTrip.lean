import Gloop.Coding.BitCoding.Decode

/-!
# Bit decoding undoes bit encoding

`Op` are the operations of an encoder together with their arguments. The run lemmas `encodeAll_eq`
and `decodeAll_eq` follow a whole sequence of them, and `stream_round_trip` puts the two together.
-/

namespace Gloop.Coding.BitCoding

open Gloop.Foundation List BitVec Nat BitEncoder BitDecoder

/-! ## The gamma table -/

/-- An entry of the table has the code in its low bits and the length of the code above them. -/
theorem gammaTable_spec {x : BitVec 32} (hpos : 0 < x.toNat) (hx : x.toNat < 256) :
    ∃ value, gammaTable x.toNat = some value ∧ (value >>> 24).toNat = (gammaCode x.toNat).length ∧
      toBits value.toNat (gammaCode x.toNat).length = gammaCode x.toNat := by
  have hlength : (gammaCode x.toNat).length ≤ 15 := by
    have hlog : x.toNat.log2 < 8 := (log2_lt (by omega)).2 hx
    rw [length_gammaCode]
    omega
  obtain ⟨v, hv, hcode⟩ := exists_toBits (gammaCode x.toNat)
  have hv15 : v < 2 ^ 15 := hv.trans_le (Nat.pow_le_pow_right (by decide) hlength)
  obtain ⟨e, hput, hwritten, hcapacity⟩ :=
    puts_internalPutGamma x 0 (make 8) [] (written_make 8) (by
      show 0 + _ ≤ 8 * 8
      omega)
  have hbits := hwritten.bits
  rw [List.nil_append] at hwritten hbits
  obtain ⟨e', padding, hflush, hbytes⟩ := flush_spec hwritten false (by
    rw [hcapacity]
    show _ ≤ 8
    omega)
  have hreads := reads_make (e'.encoder.bytes ++ List.replicate (8 - e'.encoder.length) 0)
  rw [bytesToBits_append, hbytes, List.append_assoc, ← hcode] at hreads
  obtain ⟨d, hget, -⟩ := gets_getBits (by omega) hv _ _ hreads
  have hmask : BitVec.ofNat 32 v &&& 0xffffff#32 = BitVec.ofNat 32 v := by
    apply BitVec.eq_of_toNat_eq
    rw [BitVec.toNat_and, BitVec.toNat_ofNat, mod_eq_of_lt (by omega)]
    exact (and_two_pow_sub_one_eq_mod v 24).trans (mod_eq_of_lt (by omega))
  generalize hn : (gammaCode x.toNat).length = n at *
  have hentry : ((BitVec.ofNat 32 n <<< 24) ||| BitVec.ofNat 32 v).toNat = 2 ^ 24 * n + v := by
    rw [BitVec.toNat_or, BitVec.toNat_shiftLeft, BitVec.toNat_ofNat, BitVec.toNat_ofNat,
      Nat.shiftLeft_eq, two_pow_add_eq_or_of_lt (by omega), mod_eq_of_lt (show v < 2 ^ 32 by omega)]
    congr 1
    omega
  refine ⟨(BitVec.ofNat 32 n <<< 24) ||| BitVec.ofNat 32 v, ?_, ?_, ?_⟩
  · simp only [gammaTable, if_neg (show x.toNat ≠ 0 by omega), BitVec.ofNat_toNat,
      BitVec.setWidth_eq, hput, Option.bind_eq_bind, Option.bind_some, hflush, hbits, hget,
        Option.getD_some, if_pos hmask]
    rfl
  · rw [BitVec.toNat_ushiftRight]
    omega
  · rw [hentry, ← hcode, ← toBits_mod (le_refl n), add_comm]
    have hdvd : 2 ^ 24 * n = 2 ^ n * (2 ^ (24 - n) * n) := by
      rw [← mul_assoc, ← pow_add, Nat.add_sub_cancel' (by omega)]
    rw [hdvd, add_mul_mod_self_left, mod_eq_of_lt hv]

/-- `PutGamma` puts a gamma code, with and without its table. -/
theorem puts_putGamma {x : BitVec 32} (hx : 0 < x.toNat) :
    Puts (·.putGamma x) (gammaCode x.toNat) := by
  by_cases htable : x.toNat < 256
  · obtain ⟨value, hvalue, hcount, hcode⟩ := gammaTable_spec hx htable
    have hlog : x.toNat.log2 < 8 := (log2_lt (by omega)).2 htable
    have hput := puts_putBits value (show (gammaCode x.toNat).length ≤ 32 by
      rw [length_gammaCode]
      omega)
    rw [hcode] at hput
    simpa only [putGamma, kGammaTableLength, if_pos htable, hvalue, hcount, Option.bind_eq_bind,
      Option.bind_some] using hput
  · simpa only [putGamma, kGammaTableLength, htable, if_false] using
      puts_internalPutGamma x

/-! ## Operations -/

/-- A `Put` operation with its arguments. -/
inductive Op
  | bits (x : BitVec 32) (nbits : Nat)
  | bits64 (x : BitVec 64) (nbits : Nat)
  | bits128 (x : BitVec 128) (nbits : Nat)
  | unary (x : BitVec 32)
  | invertedUnary (x : BitVec 32)
  | gamma (x : BitVec 32)
  | rice (k : Nat) (x : BitVec 32)

namespace Op

/-- What the operations require of their arguments. -/
def Admissible : Op → Prop
  | bits _ nbits => nbits ≤ 32
  | bits64 _ nbits => nbits ≤ 64
  | bits128 _ nbits => nbits ≤ 128
  | unary x => 1 ≤ x.toNat ∧ x.toNat ≤ 2 ^ 31
  | invertedUnary x => 1 ≤ x.toNat ∧ x.toNat ≤ 2 ^ 31
  | gamma x => 1 ≤ x.toNat
  | rice k x => k < 32 ∧ 1 + (x >>> k).toNat ≤ 2 ^ 31

/-- The number of bits of the code. -/
def width : Op → Nat
  | bits _ nbits => nbits
  | bits64 _ nbits => nbits
  | bits128 _ nbits => nbits
  | unary x => x.toNat
  | invertedUnary x => x.toNat
  | gamma x => 2 * x.toNat.log2 + 1
  | rice k x => 1 + (x >>> k).toNat + k

/-- The value that decoding returns. -/
def value : Op → Nat
  | bits x nbits => x.toNat % 2 ^ nbits
  | bits64 x nbits => x.toNat % 2 ^ nbits
  | bits128 x nbits => x.toNat % 2 ^ nbits
  | unary x => x.toNat
  | invertedUnary x => x.toNat
  | gamma x => x.toNat
  | rice _ x => x.toNat

/-- Perform the operation. -/
def put (e : BitEncoder) : Op → Option BitEncoder
  | bits x nbits => e.putBits x nbits
  | bits64 x nbits => e.putBits64 x nbits
  | bits128 x nbits => e.putBits128 x nbits
  | unary x => e.putUnary x
  | invertedUnary x => e.putInvertedUnary x
  | gamma x => e.putGamma x
  | rice k x => e.putRice k x

/-- Return the result of a decoder operation as a number. -/
def number {w : Nat} (result : Option (BitVec w) × BitDecoder) : Option Nat × BitDecoder :=
  (result.1.map (·.toNat), result.2)

/-- Perform the matching `Get` operation. A code of up to 128 bits is read in two parts. -/
def get (d : BitDecoder) : Op → Option (Option Nat × BitDecoder)
  | bits _ nbits => (d.getBits nbits).map number
  | bits64 _ nbits => (d.getBits64 nbits).map number
  | bits128 _ nbits => do
    let (lo, d) ← d.getBits64 (min nbits 64)
    let (hi, d) ← d.getBits64 (nbits - 64)
    pure (do pure ((← lo).toNat + 2 ^ 64 * (← hi).toNat), d)
  | unary _ => d.getUnary.map number
  | invertedUnary _ => d.getInvertedUnary.map number
  | gamma _ => d.getGamma.map number
  | rice k _ => (d.getRice k).map number

/-- The code of the operation. -/
def code : Op → List Bool
  | bits x nbits => toBits x.toNat nbits
  | bits64 x nbits => toBits x.toNat nbits
  | bits128 x nbits => toBits x.toNat nbits
  | unary x => unaryCode true x.toNat
  | invertedUnary x => unaryCode false x.toNat
  | gamma x => gammaCode x.toNat
  | rice k x => riceCode k x.toNat

variable {op : Op}

/-- The width of an operation is the length of its code. -/
theorem length_code (h : op.Admissible) : op.code.length = op.width := by
  cases op with
  | bits | bits64 | bits128 => exact length_toBits _ _
  | unary x => exact length_unaryCode true h.1
  | invertedUnary x => exact length_unaryCode false h.1
  | gamma x => exact length_gammaCode x.toNat
  | rice k x =>
    rw [code, length_riceCode, width, toNat_ushiftRight, shiftRight_eq_div_pow]

/-- Every operation appends its code. -/
theorem puts_code (h : op.Admissible) : Puts (op.put ·) op.code := by
  cases op with
  | bits x nbits => exact puts_putBits x h
  | bits64 x nbits => exact puts_putBitsInternal x h
  | bits128 x nbits => exact puts_putBits128 x h
  | unary x => exact puts_putUnary h.1 h.2
  | invertedUnary x => exact puts_putInvertedUnary h.1 h.2
  | gamma x => exact puts_putGamma h
  | rice k x =>
    refine puts_putRice h.1 ?_
    rw [← shiftRight_eq_div_pow]
    exact h.2

/-- A value that is read, as a number. -/
theorem gets_number {w : Nat} {f : BitDecoder → Option (Option (BitVec w) × BitDecoder)}
    {code : List Bool} {v : BitVec w} (h : Gets f code v) :
    Gets (fun d => (f d).map number) code v.toNat := by
  intro d rest hreads
  obtain ⟨d', hget, hrest⟩ := h d rest hreads
  exact ⟨d', by simp only [hget, Option.map_some, number], hrest⟩

theorem toNat_ofNat_mod {w n : Nat} (h : n ≤ w) (v : Nat) :
    (BitVec.ofNat w (v % 2 ^ n)).toNat = v % 2 ^ n := by
  exact mod_eq_of_lt ((mod_lt _ (Nat.two_pow_pos n)).trans_le (Nat.pow_le_pow_right (by decide) h))

/-- A value of up to 128 bits is read back as two words. -/
theorem gets_bits128 {x : BitVec 128} {nbits : Nat} (h : nbits ≤ 128) :
    Gets (Op.get · (bits128 x nbits)) (toBits x.toNat nbits) (x.toNat % 2 ^ nbits) := by
  intro d rest hreads
  have hsplit := toBits_add x.toNat (min nbits 64) (nbits - 64)
  rw [show min nbits 64 + (nbits - 64) = nbits by omega, ← toBits_mod (le_refl (min nbits 64)),
    ← toBits_mod (le_refl (nbits - 64))] at hsplit
  rw [hsplit, List.append_assoc] at hreads
  obtain ⟨d₁, hlo, hreads₁, hbuf₁⟩ := gets_getBits64 (by omega)
    (mod_lt _ (Nat.two_pow_pos _)) d _ hreads
  obtain ⟨d₂, hhi, hreads₂, hbuf₂⟩ := gets_getBits64 (by omega)
    (mod_lt _ (Nat.two_pow_pos _)) d₁ _ hreads₁
  refine ⟨d₂, ?_, hreads₂, hbuf₂.trans hbuf₁⟩
  have hvalue : x.toNat % 2 ^ min nbits 64 +
      2 ^ 64 * (x.toNat / 2 ^ min nbits 64 % 2 ^ (nbits - 64)) = x.toNat % 2 ^ nbits := by
    by_cases hlong : nbits ≤ 64
    · rw [min_eq_left hlong, Nat.sub_eq_zero_of_le hlong, pow_zero, mod_one]
      rfl
    · rw [min_eq_right (by omega), ← mod_mul, ← pow_add, Nat.add_sub_cancel' (by omega)]
  simp only [Op.get, hlo, hhi, Option.bind_eq_bind, Option.bind_some]
  rw [toNat_ofNat_mod (by omega), toNat_ofNat_mod (by omega), hvalue]
  rfl

/-- Every matching operation consumes the code and returns the value. -/
theorem gets_code (h : op.Admissible) : Gets (op.get ·) op.code op.value := by
  cases op with
  | bits x nbits =>
    have := gets_number (gets_getBits h (mod_lt x.toNat (Nat.two_pow_pos nbits)))
    rwa [toBits_mod (le_refl nbits), toNat_ofNat_mod h] at this
  | bits64 x nbits =>
    have := gets_number (gets_getBits64 h (mod_lt x.toNat (Nat.two_pow_pos nbits)))
    rwa [toBits_mod (le_refl nbits), toNat_ofNat_mod h] at this
  | bits128 x nbits => exact gets_bits128 h
  | unary x =>
    have := gets_number (gets_getUnary h.1)
    rwa [ofNat_toNat, setWidth_eq] at this
  | invertedUnary x =>
    have := gets_number (gets_getInvertedUnary h.1)
    rwa [ofNat_toNat, setWidth_eq] at this
  | gamma x => exact gets_number (gets_getGamma h)
  | rice k x => exact gets_number (gets_getRice h.1)

end Op

/-! ## Runs -/

/-- Perform the operations in order, and note `Bits()` after each. -/
def encodeAll : List Op → BitEncoder → Option (BitEncoder × List Nat)
  | [], e => some (e, [])
  | op :: ops, e => do
    let e ← op.put e
    let (final, counts) ← encodeAll ops e
    pure (final, e.bits :: counts)

/-- Perform the matching operations in order, and note each result and `BitsDecoded()` after it. -/
def decodeAll : List Op → BitDecoder → Option (BitDecoder × List (Option Nat × Nat))
  | [], d => some (d, [])
  | op :: ops, d => do
    let (value, d) ← op.get d
    let (final, results) ← decodeAll ops d
    pure (final, (value, d.bitsDecoded) :: results)

/-- The number of bits that the operations write. -/
def totalWidth (ops : List Op) : Nat :=
  (ops.map Op.width).sum

/-- The positions in the stream after each operation. -/
def marks (start : Nat) : List Op → List Nat
  | [] => []
  | op :: ops => (start + op.width) :: marks (start + op.width) ops

theorem length_marks (start : Nat) (ops : List Op) : (marks start ops).length = ops.length := by
  induction ops generalizing start with
  | nil => rfl
  | cons op ops ih => rw [marks, length_cons, ih, length_cons]

/-- A run of the encoder puts all codes and counts their bits. -/
theorem encodeAll_eq {ops : List Op} (hops : ∀ op ∈ ops, op.Admissible) {e : BitEncoder}
    {stream : List Bool} (he : Written 0 e stream)
    (hroom : stream.length + totalWidth ops ≤ 8 * e.encoder.capacity) :
    ∃ e', encodeAll ops e = some (e', marks stream.length ops) ∧
      Written 0 e' (stream ++ ops.flatMap Op.code) ∧ e'.encoder.capacity = e.encoder.capacity := by
  induction ops generalizing e stream with
  | nil => exact ⟨e, rfl, by simpa using he, rfl⟩
  | cons op ops ih =>
    have hop := hops op mem_cons_self
    have hwidth := Op.length_code hop
    have htotal : totalWidth (op :: ops) = op.width + totalWidth ops := sum_cons
    obtain ⟨e₁, hput, he₁, hcapacity₁⟩ := Op.puts_code hop 0 e stream he (by omega)
    have hlength : (stream ++ op.code).length = stream.length + op.width := by
      rw [length_append, hwidth]
    obtain ⟨e', hencode, he', hcapacity⟩ :=
      ih (fun op h => hops op (mem_cons_of_mem _ h)) he₁ (by omega)
    refine ⟨e', ?_, ?_, hcapacity.trans hcapacity₁⟩
    · simp only [encodeAll, hput, hencode, Option.bind_eq_bind, Option.bind_some, he₁.bits, hlength]
      rfl
    · rwa [flatMap_cons, ← List.append_assoc]

/-- A run of the decoder reads all values and counts their bits. -/
theorem decodeAll_eq {ops : List Op} (hops : ∀ op ∈ ops, op.Admissible) {d : BitDecoder}
    {rest : List Bool} (hd : Reads d (ops.flatMap Op.code ++ rest)) : ∃ d', decodeAll ops d =
      some (d', (ops.map fun op => some op.value).zip (marks d.bitsDecoded ops)) := by
  induction ops generalizing d with
  | nil => exact ⟨d, rfl⟩
  | cons op ops ih =>
    have hop := hops op mem_cons_self
    have hwidth := Op.length_code hop
    rw [flatMap_cons, List.append_assoc] at hd
    obtain ⟨d₁, hget, hd₁, hbuf⟩ := Op.gets_code hop d _ hd
    have hbits := hd.bitsDecoded
    have hbits₁ := hd₁.bitsDecoded
    rw [hbuf] at hbits₁
    rw [length_append] at hbits
    obtain ⟨d', hdecode⟩ := ih (fun op h => hops op (mem_cons_of_mem _ h)) hd₁
    have hmark : d₁.bitsDecoded = d.bitsDecoded + op.width := by omega
    refine ⟨d', ?_⟩
    simp only [decodeAll, hget, hdecode, Option.bind_eq_bind, Option.bind_some, hmark]
    rfl

/-- The ways to end a stream. -/
inductive Ending
  | flush (leftOverBitValue : Bool)
  | flush64 (leftOverBitValue : Bool)

/-- End the stream. -/
def Ending.run (e : BitEncoder) : Ending → Option BitEncoder
  | flush leftOverBitValue => e.flush leftOverBitValue
  | flush64 leftOverBitValue => e.flush64 leftOverBitValue

/-- The number of bytes of a stream with the given number of bits. -/
def Ending.bytes (total : Nat) : Ending → Nat
  | flush _ => (total + 7) / 8
  | flush64 _ => (total + 63) / 64 * 8

/-- Decoding returns what was encoded, and keeps count of the bits as the encoder does. -/
theorem stream_round_trip (ops : List Op) (hops : ∀ op ∈ ops, op.Admissible) (ending : Ending)
    (size : Nat) (hroom : ending.bytes (totalWidth ops) ≤ size) :
    ∃ e counts flushed d, encodeAll ops (make size) = some (e, counts) ∧
      counts.length = ops.length ∧ ending.run e = some flushed ∧
      decodeAll ops (make flushed.encoder.bytes) =
        some (d, (ops.map fun op => some op.value).zip counts) := by
  have hfits : totalWidth ops ≤ 8 * size := by
    cases ending with
    | flush _ =>
      have : (totalWidth ops + 7) / 8 ≤ size := hroom
      omega
    | flush64 _ =>
      have : (totalWidth ops + 63) / 64 * 8 ≤ size := hroom
      omega
  obtain ⟨e, hencode, he, hcapacity⟩ := encodeAll_eq hops (written_make size) (by
    show 0 + totalWidth ops ≤ 8 * size
    omega)
  rw [nil_append] at he
  have htotal : (ops.flatMap Op.code).length = totalWidth ops := by
    rw [length_flatMap]
    exact congrArg sum (map_congr_left fun op h => Op.length_code (hops op h))
  obtain ⟨flushed, padding, hflush, hbytes⟩ : ∃ flushed padding, ending.run e = some flushed ∧
      bytesToBits flushed.encoder.bytes = ops.flatMap Op.code ++ padding := by
    cases ending with
    | flush pad => exact flush_spec he pad (by rw [htotal, hcapacity]; exact hroom)
    | flush64 pad => exact flush64_spec he pad (by rw [htotal, hcapacity]; exact hroom)
  obtain ⟨d, hdecode⟩ := decodeAll_eq hops (hbytes ▸ reads_make flushed.encoder.bytes)
  exact ⟨e, _, flushed, d, hencode, length_marks _ _, hflush, hdecode⟩

/-- A stream with one operation of each kind. -/
def sampleStream : List Op :=
  [.bits 5 3, .bits64 77 64, .bits128 9 100, .unary 70, .invertedUnary 3, .gamma 200, .rice 2 13]

/-- A stream with every kind of operation. -/
theorem sampleStream_round_trip :
    ∃ e counts flushed d, encodeAll sampleStream (make 64) = some (e, counts) ∧
      counts.length = sampleStream.length ∧ (Ending.flush64 true).run e = some flushed ∧
      decodeAll sampleStream (make flushed.encoder.bytes) =
        some (d, (sampleStream.map fun op => some op.value).zip counts) := by
  refine stream_round_trip sampleStream ?_ (.flush64 true) 64 (by decide)
  simp [sampleStream, Op.Admissible]

end Gloop.Coding.BitCoding

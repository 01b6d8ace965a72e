import Gloop.Foundation.BitString
import Gloop.Coding.Varint.RoundTrip

/-!
# The byte coder of `coder.h`

An `Encoder` appends to a buffer of fixed capacity and a `Decoder` reads one from the front. Both
check their bounds with `ABSL_HARDENING_ASSERT`, so an access outside the buffer fails with `none`.
An `Encoder` that owns its buffer grows it in `ensure`.
-/

namespace Gloop.Coding

open Gloop.Foundation

/-- What an `Encoder` has written, and the size of its buffer. -/
structure Encoder where
  capacity : Nat
  bytes : List Byte
deriving DecidableEq, Repr

namespace Encoder

/-- `length()`. -/
def length (e : Encoder) : Nat :=
  e.bytes.length

/-- `avail()`. -/
def avail (e : Encoder) : Nat :=
  e.capacity - e.bytes.length

/-- `put8(v)`. -/
def put8 (e : Encoder) (v : Byte) : Option Encoder :=
  if 1 ≤ e.avail then some { e with bytes := e.bytes ++ [v] } else none

/-- `put64(v)`. -/
def put64 (e : Encoder) (v : BitVec 64) : Option Encoder :=
  if 8 ≤ e.avail then some { e with bytes := e.bytes ++ toBytes v.toNat 8 } else none

/-- `put_varint32(v)`. -/
def putVarint32 (lzcnt : Bool) (e : Encoder) (v : BitVec 32) : Option Encoder :=
  if Varint.kMax32 ≤ e.avail ∨ Varint.length32 lzcnt v ≤ e.avail then
    some { e with bytes := e.bytes ++ Varint.encode32 v }
  else none

/-- `put_varint64(v)`. -/
def putVarint64 (lzcnt : Bool) (e : Encoder) (v : BitVec 64) : Option Encoder :=
  if Varint.kMax64 ≤ e.avail ∨ Varint.length64 lzcnt v ≤ e.avail then
    some { e with bytes := e.bytes ++ Varint.encode64 v }
  else none

/-- `Ensure(N)`. The allocator gives `slack` bytes more than it is asked for. -/
def ensure (slack : Nat → Nat) (e : Encoder) (n : Nat) : Encoder :=
  if e.avail < n then
    let request := max (e.length + n) (2 * e.length)
    { e with capacity := request + slack request }
  else e

end Encoder

/-- A `Decoder`: its buffer and the position of the next byte. -/
structure Decoder where
  buf : List Byte
  pos : Nat
deriving DecidableEq, Repr

namespace Decoder

variable (d : Decoder)

/-- `avail()`. -/
def avail : Nat :=
  d.buf.length - d.pos

/-- `get8()`. -/
def get8 : Option (Byte × Decoder) := do
  let v ← d.buf[d.pos]?
  pure (v, { d with pos := d.pos + 1 })

/-- `get32()`. -/
def get32 : Option (BitVec 32 × Decoder) :=
  if 4 ≤ d.avail then
    some (BitVec.ofNat 32 (ofBytes ((d.buf.drop d.pos).take 4)), { d with pos := d.pos + 4 })
  else none

/-- `get64()`. -/
def get64 : Option (BitVec 64 × Decoder) :=
  if 8 ≤ d.avail then
    some (BitVec.ofNat 64 (ofBytes ((d.buf.drop d.pos).take 8)), { d with pos := d.pos + 8 })
  else none

/-- `get_varint32(v)`, which is `some none` where it returns false. -/
def getVarint32 : Option (Option (BitVec 32 × Decoder)) := do
  let r ← Varint.parse32WithLimit d.buf d.pos d.buf.length
  pure (r.map fun (v, ptr) => (v, { d with pos := ptr }))

/-- `get_varint64(v)`, which is `some none` where it returns false. -/
def getVarint64 (arch : Varint.Arch) (d : Decoder) : Option (Option (BitVec 64 × Decoder)) := do
  let r ← Varint.parse64WithLimit arch d.buf d.pos d.buf.length
  pure (r.map fun (v, ptr) => (v, { d with pos := ptr }))

end Decoder

/-! ## Varints -/

/-- `put_varint32` appends the encoding if there is room for it. -/
theorem Encoder.putVarint32_eq (lzcnt : Bool) {e : Encoder} {v : BitVec 32}
    (h : (base128 v.toNat).length ≤ e.avail) :
    e.putVarint32 lzcnt v = some { e with bytes := e.bytes ++ base128 v.toNat } := by
  have hlength : Varint.length32 lzcnt v = (base128 v.toNat).length :=
    Varint.lengthImpl_eq lzcnt (by omega) (by omega) v
  rw [putVarint32, if_pos (.inr (hlength ▸ h)), Varint.encode32_eq]

/-- `put_varint64` appends the encoding if there is room for it. -/
theorem Encoder.putVarint64_eq (lzcnt : Bool) {e : Encoder} {v : BitVec 64}
    (h : (base128 v.toNat).length ≤ e.avail) :
    e.putVarint64 lzcnt v = some { e with bytes := e.bytes ++ base128 v.toNat } := by
  have hlength : Varint.length64 lzcnt v = (base128 v.toNat).length :=
    Varint.lengthImpl_eq lzcnt (by omega) (by omega) v
  rw [putVarint64, if_pos (.inr (hlength ▸ h)), Varint.encode64_eq]

/-- `Ensure` keeps what was written and makes room. -/
theorem Encoder.ensure_spec (slack : Nat → Nat) (e : Encoder) (n : Nat) :
    (e.ensure slack n).bytes = e.bytes ∧ n ≤ (e.ensure slack n).avail := by
  unfold ensure
  split
  next =>
    have hrequest : e.bytes.length + n ≤ max (e.length + n) (2 * e.length) := le_max_left _ _
    refine ⟨rfl, Nat.le_sub_of_add_le ?_⟩
    rw [add_comm]
    exact hrequest.trans (Nat.le_add_right _ _)
  next hroom => exact ⟨rfl, Nat.le_of_not_lt hroom⟩

/-- `get_varint32` reads an encoding and moves behind it. -/
theorem Decoder.getVarint32_eq {d : Decoder} {v : BitVec 32}
    (h : HoldsAt d.buf d.pos (base128 v.toNat)) :
      d.getVarint32 = some (some (v, { d with pos := d.pos + (base128 v.toNat).length })) := by
  rw [getVarint32, Varint.parse32WithLimit_eq h, Varint.within,
    if_pos (h.le_length (base128_ne_nil _))]
  rfl

/-- `get_varint64` reads an encoding and moves behind it. -/
theorem Decoder.getVarint64_eq (arch : Varint.Arch) {d : Decoder} {v : BitVec 64}
    (h : HoldsAt d.buf d.pos (base128 v.toNat)) :
    d.getVarint64 arch = some (some (v, { d with pos := d.pos + (base128 v.toNat).length })) := by
  rw [getVarint64, Varint.parse64WithLimit_eq h, Varint.within,
    if_pos (h.le_length (base128_ne_nil _))]
  rfl

/-! ## From a decoder to an encoder -/

section

variable (encNull decNull : Bool) (room : Nat) (bytes : List Byte)

/-- Whether a buffer with room for `room` bytes has room for `n`, tested by `buf_ <= limit_ - n` or
`buf_ < limit_ - (n - 1)`. If it is `nullptr`, as in `Encoder()`, the difference wraps around. -/
def fits (null : Bool) (n : Nat) : Bool :=
  null && room == 0 || decide (n ≤ room)

/-- How many bytes `PutVarint64FromDecoderLessCommonSizes(dec)` copies, or that it returns false.
One of the limits ends the loop before the tenth byte. -/
def lessCommonSizes : Option (Option Nat) :=
  (if fits bytes.length decNull 10 && fits room encNull 10 then
      Varint.scan bytes none (fun _ _ _ => ()) 2 8 0 2 ()
    else Varint.scan bytes (some (min bytes.length room))
      (fun _ _ _ => ()) 128 10 0 0 ()).map (·.map (·.2))

/-- How many bytes `put_varint64_from_decoder(dec)` copies. -/
def sizeFromDecoder : Option (Option Nat) :=
  if (bytes[0]?).any (·.toNat < 128) then some (if room = 0 then none else some 1)
  else do
    let two ← if fits bytes.length decNull 2 then (bytes[1]?).map fun c => decide (c.toNat < 128)
      else some false
    if two then some (if fits room encNull 2 then some 2 else none)
    else lessCommonSizes encNull decNull room bytes

/-- The byte loop, where a buffer is short. -/
theorem lessCommonSizes_of_lt (h : bytes.length < 10 ∨ room < 10) :
    lessCommonSizes false false room bytes =
    some (((takeTerminated 2 10 bytes).filter (·.length ≤ room)).map List.length) := by
  have hl : min bytes.length room ≤ 0 + 9 := by omega
  rw [lessCommonSizes, if_neg (by simp [fits]; omega), ← Varint.scan_limit hl, Varint.scan_limit hl,
    Varint.scan_spec (show 2 ≤ 128 by decide) fun _ => min_le_left _ _, List.drop_zero]
  cases hgroup : takeTerminated 2 10 bytes with
  | none => rfl
  | some group =>
    have hle := (takeTerminated_spec (by decide) hgroup).1.length_le
    by_cases hfit : group.length ≤ room <;> simp [Option.filter, hle, hfit]

/-- The size of the first group, if it is complete and there is room for it. -/
theorem sizeFromDecoder_eq : sizeFromDecoder false false room bytes =
    some (((takeTerminated 2 10 bytes).filter (·.length ≤ room)).map List.length) := by
  match bytes with
  | [] => simpa [sizeFromDecoder, fits] using lessCommonSizes_of_lt room [] (by simp)
  | a :: bytes =>
    by_cases ha : a.toNat < 128
    · cases room <;> simp [sizeFromDecoder, ha, takeTerminated, Option.filter]
    match bytes with
    | [] => simpa [sizeFromDecoder, fits, ha] using lessCommonSizes_of_lt room [a] (by simp)
    | b :: rest =>
      by_cases hb : b.toNat < 128
      · by_cases htwo : 2 ≤ room <;>
          simp [sizeFromDecoder, ha, hb, fits, Option.filter, takeTerminated]
      have hsize : sizeFromDecoder false false room (a :: b :: rest) =
          lessCommonSizes false false room (a :: b :: rest) := by simp [sizeFromDecoder, ha, hb]
      rw [hsize]
      by_cases hlong : 8 ≤ rest.length ∧ 10 ≤ room
      · rw [lessCommonSizes, if_pos (by simp [fits, hlong]),
          Varint.scan_spec (show 2 ≤ 128 by decide)
          fun _ => by simp; omega]
        cases hgroup : takeTerminated 2 8 rest with
        | none => simp [takeTerminated, ha, hb, hgroup]
        | some group =>
          have hle := (takeTerminated_spec (by decide) hgroup).2.2
          simp [takeTerminated, ha, hb, hgroup, Option.filter]
          omega
      · exact lessCommonSizes_of_lt room _ (by simp; omega)

/-- A buffer that is not null, or has room after all, is tested for its room. -/
theorem fits_of_ne {null : Bool} (h : null = true → room ≠ 0) (n : Nat) :
    fits room null n = fits room false n := by
  cases null with
  | false => rfl
  | true => simp [fits, h rfl]

/-- A null pointer of the decoder does not count if there are bytes. -/
theorem sizeFromDecoder_decoder (h : decNull = true → bytes.length ≠ 0) :
    sizeFromDecoder encNull decNull room bytes = sizeFromDecoder encNull false room bytes := by
  simp only [sizeFromDecoder, lessCommonSizes, fits_of_ne _ h]

/-- A null pointer of the encoder does not count if there is room. -/
theorem sizeFromDecoder_encoder (h : encNull = true → room ≠ 0) :
    sizeFromDecoder encNull decNull room bytes = sizeFromDecoder false decNull room bytes := by
  simp only [sizeFromDecoder, lessCommonSizes, fits_of_ne _ h]

/-- Into a null buffer, numbers of two bytes are copied, and longer ones at the front of ten
bytes. -/
theorem sizeFromDecoder_null : sizeFromDecoder true false 0 bytes =
      some (((takeTerminated 2 10 bytes).filter fun group => group.length = 2 ∨ 2 < group.length ∧
        10 ≤ bytes.length).map List.length) := by
  have hshort : ∀ bytes : List Byte, bytes.length < 10 →
      lessCommonSizes true false 0 bytes = some none := by
    intro bytes h
    simp [lessCommonSizes, fits, h, Varint.scan]
  rcases bytes with _ | ⟨a, _ | ⟨b, rest⟩⟩
  · simp [sizeFromDecoder, fits, hshort, takeTerminated]
  · by_cases ha : a.toNat < 128 <;> simp [sizeFromDecoder, fits, ha, hshort, takeTerminated,
      Option.filter]
  · by_cases ha : a.toNat < 128
    · simp [sizeFromDecoder, ha, takeTerminated, Option.filter]
    by_cases hb : b.toNat < 128
    · simp [sizeFromDecoder, ha, hb, fits, Option.filter, takeTerminated]
    have hsize : sizeFromDecoder true false 0 (a :: b :: rest) =
        lessCommonSizes true false 0 (a :: b :: rest) := by simp [sizeFromDecoder, ha, hb]
    rw [hsize]
    by_cases hlong : 8 ≤ rest.length
    · rw [lessCommonSizes, if_pos (by simp [fits, hlong]), Varint.scan_spec (show 2 ≤ 128 by decide)
        fun _ => by simp; omega]
      cases hgroup : takeTerminated 2 8 rest with
      | none => simp [takeTerminated, ha, hb, hgroup]
      | some group =>
        have hpos := List.length_pos_iff.mpr (takeTerminated_spec (by decide) hgroup).2.1.ne_nil
        simp [takeTerminated, ha, hb, hgroup, Option.filter, hpos, hlong]
        omega
    · rw [hshort _ (by simp; omega)]
      simp [takeTerminated, ha, hb]
      exact fun group hgroup => ⟨(takeTerminated_spec (by decide) hgroup).2.1.ne_nil, by omega⟩

end

variable (encNull decNull : Bool) (arch : Varint.Arch) (e : Encoder) (d : Decoder)

namespace Encoder

/-- `put_varint64_from_decoder(dec)`, which is `some none` where it returns false. -/
def putVarint64FromDecoder : Option (Option (Encoder × Decoder)) := do
  let size ← sizeFromDecoder encNull decNull e.avail (d.buf.drop d.pos)
  match size with
  | none => pure none
  | some n =>
    guard (n ≤ e.avail ∧ n ≤ d.avail)
    pure (some ({ e with bytes := e.bytes ++ (d.buf.drop d.pos).take n },
      { d with pos := d.pos + n }))

/-- `get_varint64`, with the bytes it reads appended to the encoder. Where they do not fit, nothing
moves. -/
def forwardVarint64 : Option (Option (Encoder × Decoder)) := do
  let r ← d.getVarint64 arch
  pure (r.bind fun (_, d') =>
    let k := d'.pos - d.pos
    if k ≤ e.avail then some ({ e with bytes := e.bytes ++ (d.buf.drop d.pos).take k },
      d') else none)

end Encoder

/-- `get_varint64` reads the first group if there is one, whatever it encodes. -/
theorem Decoder.getVarint64_spec : d.getVarint64 arch =
    some ((takeTerminated 2 10 (d.buf.drop d.pos)).map fun group =>
      (BitVec.ofNat 64 (value128 group), { d with pos := d.pos + group.length })) := by
  rw [getVarint64, Varint.parse64WithLimit_spec arch fun _ => le_rfl, Varint.sumOfGroups]
  cases hgroup : takeTerminated 2 10 (d.buf.drop d.pos) with
  | none => rfl
  | some group =>
    obtain ⟨hholds, hterm, -⟩ := takeTerminated_spec (by decide) hgroup
    simp [HoldsAt.le_length hholds hterm.ne_nil]

/-- A call goes through a null pointer: the decoder has no buffer, or the encoder has none and a
number is in front that has two bytes, or more of them with ten bytes left. -/
def ThroughNull : Prop :=
  decNull = true ∧ d.avail = 0 ∨ encNull = true ∧ e.avail = 0 ∧
    ∃ group, takeTerminated 2 10 (d.buf.drop d.pos) = some group ∧
      (group.length = 2 ∨ 2 < group.length ∧ 10 ≤ d.avail)

/-- The bytes of the first group are moved over if there is room. -/
theorem Encoder.forwardVarint64_spec : e.forwardVarint64 arch d =
    some (((takeTerminated 2 10 (d.buf.drop d.pos)).filter (·.length ≤ e.avail)).map fun group =>
      ({ e with bytes := e.bytes ++ group }, { d with pos := d.pos + group.length })) := by
  rw [forwardVarint64, Decoder.getVarint64_spec]
  cases hgroup : takeTerminated 2 10 (d.buf.drop d.pos) with
  | none => rfl
  | some group =>
    have htake := List.prefix_iff_eq_take.mp (takeTerminated_spec (by decide) hgroup).1
    by_cases hfit : group.length ≤ e.avail <;> simp [Option.filter, hfit, ← htake] <;> omega

/-- What was appended is a whole number, which can be read again. -/
theorem Encoder.getVarint64_forwardVarint64 {e' : Encoder} {d' : Decoder}
    (h : e.forwardVarint64 arch d = some (some (e', d'))) :
    (Decoder.getVarint64 arch ⟨e'.bytes, e.length⟩).map (·.map Prod.fst) =
      (d.getVarint64 arch).map (·.map Prod.fst) := by
  rw [forwardVarint64_spec, Option.some_inj] at h
  obtain ⟨group, hgroup, heq⟩ := Option.map_eq_some_iff.mp h
  obtain ⟨hgroup, -⟩ := Option.filter_eq_some_iff.mp hgroup
  cases heq
  have htake := List.prefix_iff_eq_take.mp (takeTerminated_spec (by decide) hgroup).1
  have hagain : takeTerminated 2 10 group = some group := by
    conv_lhs => rw [htake, takeTerminated_take, hgroup]
    simp [Option.filter]
  simp [Decoder.getVarint64_spec, length, hgroup, hagain]

/-- A call forwards a number as it should, and the number can be read again, if and only if the call
does not go through a null pointer. -/
theorem Encoder.putVarint64FromDecoder_iff :
    (putVarint64FromDecoder encNull decNull e d = forwardVarint64 arch e d ∧
        ∀ e' d', e.forwardVarint64 arch d = some (some (e', d')) →
          (Decoder.getVarint64 arch ⟨e'.bytes, e.length⟩).map (·.map Prod.fst) =
            (d.getVarint64 arch).map (·.map Prod.fst)) ↔
      ¬ThroughNull encNull decNull e d := by
  have hagain := fun e' d' => @getVarint64_forwardVarint64 arch e d e' d'
  rw [and_iff_left hagain, forwardVarint64_spec, ThroughNull, putVarint64FromDecoder]
  have hlength : (d.buf.drop d.pos).length = d.avail := List.length_drop
  by_cases hdec : decNull = true ∧ d.avail = 0
  · have hnil := List.eq_nil_of_length_eq_zero (hlength.trans hdec.2)
    simp [hdec, hnil, sizeFromDecoder, fits]
  rw [sizeFromDecoder_decoder _ _ _ _ fun h h0 => hdec ⟨h, hlength ▸ h0⟩]
  cases hgroup : takeTerminated 2 10 (d.buf.drop d.pos) with
  | none =>
    refine iff_of_true ?_ (by simp [hdec])
    by_cases henc : encNull = true ∧ e.avail = 0
    · rw [henc.1, henc.2, sizeFromDecoder_null, hgroup]
      rfl
    · rw [sizeFromDecoder_encoder _ _ _ _ fun h h0 => henc ⟨h, h0⟩, sizeFromDecoder_eq, hgroup]
      rfl
  | some group =>
    obtain ⟨hfront, hterm, -⟩ := takeTerminated_spec (by decide) hgroup
    have hle : group.length ≤ d.avail := hfront.length_le.trans_eq hlength
    have htake := List.prefix_iff_eq_take.mp hfront
    by_cases henc : encNull = true ∧ e.avail = 0
    · rw [henc.1, henc.2, sizeFromDecoder_null, hgroup, hlength]
      by_cases hcopied : group.length = 2 ∨ 2 < group.length ∧ 10 ≤ d.avail <;>
        simp [Option.filter, hcopied, hdec, hterm.ne_nil]
    · rw [sizeFromDecoder_encoder _ _ _ _ fun h h0 => henc ⟨h, h0⟩, sizeFromDecoder_eq, hgroup]
      refine iff_of_true ?_ (by tauto)
      by_cases hfit : group.length ≤ e.avail <;> simp [Option.filter, hfit, hle, ← htake]

/-- An encoder without a buffer is given a number of two bytes. -/
theorem Encoder.putVarint64FromDecoder_null :
    putVarint64FromDecoder true false ⟨0, []⟩ ⟨[0x80#8, 0x01#8], 0⟩ = none ∧
      forwardVarint64 .other ⟨0, []⟩ ⟨[0x80#8, 0x01#8], 0⟩ = some none := by
  decide

/-- `get_varint64` returns the numbers that were put after `Ensure`, and ends where the encoder
did. -/
theorem Encoder.varints_round_trip (lzcnt : Bool) (slack : Nat → Nat) (values : List (BitVec 64)) :
    ∃ e', values.foldlM (fun e v => (e.ensure slack Varint.kMax64).putVarint64 lzcnt v) e =
      some e' ∧ e.bytes <+: e'.bytes ∧ values.foldlM (fun d v => do
        let (w, d) ← (← Decoder.getVarint64 arch d)
        guard (w = v)
        return d) ⟨e'.bytes, e.length⟩ = some ⟨e'.bytes, e'.length⟩ := by
  induction values generalizing e with
  | nil => exact ⟨e, rfl, List.prefix_rfl, rfl⟩
  | cons v values ih =>
    obtain ⟨hbytes, hroom⟩ := e.ensure_spec slack Varint.kMax64
    have hput := putVarint64_eq lzcnt ((length_base128_le (v.isLt.trans (by decide))).trans hroom)
    rw [hbytes] at hput
    obtain ⟨e', hrun, ⟨rest, hrest⟩, hread⟩ := ih ⟨_, e.bytes ++ base128 v.toNat⟩
    have hholds : HoldsAt e'.bytes e.length (base128 v.toNat) :=
      ⟨rest, by rw [← hrest, length, List.append_assoc, List.drop_left]⟩
    refine ⟨e', ?_, ⟨_, (List.append_assoc ..).symm.trans hrest⟩, ?_⟩
    · rw [List.foldlM_cons, hput]
      exact hrun
    · have hget := Decoder.getVarint64_eq (d := ⟨e'.bytes, e.length⟩) arch hholds
      rw [List.foldlM_cons, hget]
      simpa [length] using hread

end Gloop.Coding

import Gloop.Coding.Varint.Model
import Gloop.Coding.Varint.Decode

/-!
# Varint decoding undoes varint encoding

Both encoders write the base-128 bytes of the value (`encode32_eq`, `encode64_eq`), and `LengthImpl`
computes their number on every target (`lengthImpl_eq`). `varint_round_trip` runs every decoder on
what the encoders write, with any limit and on every target. `parse64_agrees` is about any bytes at
all: the decoders of a 64-bit value and the sum of the groups accept the same bytes.
-/

namespace Gloop.Coding.Varint

section

open Gloop.Foundation BitVec Nat

/-- Setting the high bit of a byte keeps its seven low bits. -/
theorem ofNat_or_128 (n : Nat) : BitVec.ofNat 8 n ||| 128#8 = BitVec.ofNat 8 (n % 128 + 128) := by
  have hbyte : ∀ y < 256, y ||| 128 = y % 128 + 128 := by decide +kernel
  apply eq_of_toNat_eq
  rw [toNat_or, BitVec.toNat_ofNat, BitVec.toNat_ofNat, BitVec.toNat_ofNat]
  rw [hbyte _ (mod_lt _ (by decide))]
  omega

variable {w : Nat}

/-- A shift by groups divides by a power of 128. -/
theorem toNat_shift_seven (x : BitVec w) (k : Nat) : (x >>> (7 * k)).toNat = x.toNat / 128 ^ k := by
  rw [toNat_ushiftRight, shiftRight_eq_div_pow, Nat.pow_mul]

/-- `Encode32Inline` writes groups of seven bits. -/
theorem encode32Inline_eq (v : BitVec 32) : encode32Inline v = base128 v.toNat := by
  have h₁ := toNat_shift_seven v 1
  have h₂ := toNat_shift_seven v 2
  have h₃ := toNat_shift_seven v 3
  have h₄ := toNat_shift_seven v 4
  simp only [reducePow] at h₁ h₂ h₃ h₄
  unfold encode32Inline
  simp only [setWidth_or, show (128#32).setWidth 8 = 128#8 from rfl, ofNat_or_128,
    ← ofNat_toNat 8 v, ← ofNat_toNat 8 (v >>> _), h₁, h₂, h₃, h₄]
  -- One case for each number of bytes.
  split
  · rw [base128_of_lt (by assumption)]
  split
  · rw [base128_of_le (by omega), base128_of_lt (by omega)]
  split
  · simp (disch := omega) only [base128_of_le, base128_of_lt, Nat.div_div_eq_div_mul]
  split
  · simp (disch := omega) only [base128_of_le, base128_of_lt, Nat.div_div_eq_div_mul]
  · simp (disch := omega) only [base128_of_le, base128_of_lt, Nat.div_div_eq_div_mul]

theorem encode32_eq (v : BitVec 32) : encode32 v = base128 v.toNat :=
  encode32Inline_eq v

/-- The low byte of a shifted word does not depend on its upper half. -/
theorem low_byte_of_half (x : BitVec 64) {k : Nat} (hk : k + 8 ≤ 32) :
    ((x.setWidth 32) >>> k).setWidth 8 = (x >>> k).setWidth 8 := by
  apply eq_of_getLsbD_eq
  intro i hi
  simp [show k + i < 32 by omega]

/-- The two words of `Encode64` carry the continuation bits of the first four bytes. -/
theorem encode64_head (v : BitVec 64) :
    let x32 : BitVec 32 := (v ||| 1#64 <<< 7 ||| 1#64 <<< 21).setWidth 32
    let y32 : BitVec 32 := (v ||| 1#64 <<< 14 ||| 1#64 <<< 28).setWidth 32
    [x32.setWidth 8, (y32 >>> 7).setWidth 8, (x32 >>> 14).setWidth 8, (y32 >>> 21).setWidth 8] =
      [BitVec.ofNat 8 (v.toNat % 128 + 128), BitVec.ofNat 8 (v.toNat / 128 % 128 + 128),
        BitVec.ofNat 8 (v.toNat / 16384 % 128 + 128),
        BitVec.ofNat 8 (v.toNat / 2097152 % 128 + 128)] := by
  have h₁ := toNat_shift_seven v 1
  have h₂ := toNat_shift_seven v 2
  have h₃ := toNat_shift_seven v 3
  intro x32 y32
  simp only [x32, y32, low_byte_of_half _ (show 7 + 8 ≤ 32 by decide),
    low_byte_of_half _ (show 14 + 8 ≤ 32 by decide),
    low_byte_of_half _ (show 21 + 8 ≤ 32 by decide), ushiftRight_or_distrib,
    setWidth_or, ← ofNat_toNat 8 (v >>> _), h₁, h₂, h₃]
  simp [ofNat_or_128]
  rw [← ofNat_toNat, ofNat_or_128]

/-- `Encode64` writes groups of seven bits. -/
theorem encode64_eq (v : BitVec 64) : encode64 v = base128 v.toNat := by
  unfold encode64
  split
  next hsmall =>
    rw [encode32_eq, toNat_setWidth, mod_eq_of_lt (by omega)]
  next hlarge =>
    have h₄ := toNat_shift_seven v 4
    have h₅ := toNat_shift_seven v 5
    simp only [reducePow] at h₄ h₅
    rw [base128_of_le (by omega), base128_of_le (by omega), base128_of_le (by omega),
      base128_of_le (by omega)]
    simp only [Nat.div_div_eq_div_mul]
    refine (congrArg (· ++ _) (encode64_head v)).trans ?_
    simp only [List.cons_append, List.nil_append]
    split
    · rw [base128_of_lt (by omega), ← ofNat_toNat, h₄]
    · rw [base128_of_le (by omega), encode32_eq, setWidth_or, ← ofNat_toNat, h₄,
        show (1#64 <<< 7).setWidth 8 = 128#8 from rfl, ofNat_or_128, toNat_setWidth, h₅,
        mod_eq_of_lt (show v.toNat / 34359738368 < 2 ^ 32 by omega), Nat.div_div_eq_div_mul]

/-- Nine sixty-fourths are close enough to a seventh for a word. -/
theorem bitWidth_mul_nine {s : Nat} (hpos : 0 < s) (hs : s ≤ 64) :
    (s * 9 + 64) / 64 = (s - 1) / 7 + 1 := by
  omega

theorem bitWidth_le (v : BitVec w) : bitWidth v ≤ w := by
  unfold bitWidth
  split
  · omega
  · exact succ_le_of_lt ((log2_lt (by assumption)).2 v.isLt)

/-- Setting the lowest bit does not move the highest one. -/
theorem log2_or_one (n : Nat) : (n ||| 1).log2 = n.log2 := by
  by_cases h : n = 0
  · subst h
    decide
  · have hle : n ≤ n ||| 1 := left_le_or
    refine (log2_eq_iff (by omega)).2 ⟨(log2_self_le h).trans hle, ?_⟩
    exact or_lt_two_pow lt_log2_self (Nat.one_lt_two_pow (by omega))

/-- `Length` is the length of the encoding, with and without `lzcnt`. -/
theorem lengthImpl_eq (lzcnt : Bool) (hpos : 0 < w) (hw : w ≤ 64) (v : BitVec w) :
    lengthImpl lzcnt v = (base128 v.toNat).length := by
  have hwidth := bitWidth_le v
  rw [length_base128]
  cases lzcnt with
  | true =>
    show ((w * 9 + 64) - (w - bitWidth v) * 9) >>> 6 = _
    rw [show (w * 9 + 64) - (w - bitWidth v) * 9 = bitWidth v * 9 + 64 by omega,
      shiftRight_eq_div_pow]
    unfold bitWidth at hwidth ⊢
    split at hwidth
    next hzero =>
      simp [hzero]
    next hzero =>
      rw [if_neg hzero, bitWidth_mul_nine (by omega) (by omega), Nat.add_sub_cancel]
  | false =>
    have hor : (v ||| 1#w).toNat = v.toNat ||| 1 := by
      rw [toNat_or, BitVec.toNat_ofNat, mod_eq_of_lt (Nat.one_lt_two_pow (by omega))]
    show (bitWidth (v ||| 1#w) * 9 + 64) / 64 = _
    have hwidth := bitWidth_le (v ||| 1#w)
    unfold bitWidth at hwidth ⊢
    rw [if_neg (by have := @right_le_or v.toNat 1; omega)] at hwidth ⊢
    rw [hor, log2_or_one] at hwidth ⊢
    rw [bitWidth_mul_nine (by omega) (by omega), Nat.add_sub_cancel]

end

/-! ## Every decoder on what the encoders write -/

open Gloop.Foundation BitVec Option

section Bytes

variable {buf : List Byte} {n bound groups p : Nat}

/-- An encoding in a buffer is a terminated group. -/
theorem takeTerminated_base128 (hn : n < bound * 128 ^ groups) (hbound : bound ≤ 128)
    (hholds : HoldsAt buf p (base128 n)) :
    takeTerminated bound (groups + 1) (buf.drop p) = some (base128 n) := by
  have hlength : (base128 n).length ≤ groups + 1 := by
    refine length_base128_le (hn.trans_le ?_)
    rw [mul_comm]
    exact Nat.mul_le_mul_left _ hbound
  obtain ⟨rest, hrest⟩ := hholds
  rw [← hrest]
  exact takeTerminated_append (terminated_base128 n) hlength (base128_last hn) rest

/-- A loop with room for the number either reads its whole encoding or finds the limit first. -/
theorem scan_base128 {β : Type} {limit : Option Nat} {add : Nat → β → Byte → β} {result : β}
    (hn : n < bound * 128 ^ groups) (hbound : bound ≤ 128) (hholds : HoldsAt buf p (base128 n)) :
    scan buf limit add bound (groups + 1) 0 p result =
      some (if limit.all (p + (base128 n).length ≤ ·) then
        some (addAll add 0 result (base128 n), p + (base128 n).length) else none) := by
  have hgroup := takeTerminated_base128 hn hbound hholds
  rw [scan_spec hbound (by simp [hgroup]), hgroup, filter_some]
  split <;> rfl

/-- Adding the groups of an encoding gives the value back. -/
theorem addAll_addBits_eq {w : Nat} (hw : 8 ≤ w) (v : BitVec w) :
    addAll (addBits w) 0 0 (base128 v.toNat) = v := by
  rw [addAll_addBits_zero hw, value128_base128, ofNat_toNat, setWidth_eq]

end Bytes

/-- The result for an encoding that ends at `stop`: null when the limit is before it. -/
def within {α : Type} (value : α) (stop l : Nat) : Option (Option α) :=
  some (if stop ≤ l then some value else none)

section Decoders

variable {buf : List Byte} {p : Nat}

/-! ## 32-bit values -/

theorem fits32 (v : BitVec 32) : v.toNat < 16 * 128 ^ 4 :=
  v.isLt

section

variable {v : BitVec 32} (hholds : HoldsAt buf p (base128 v.toNat))
include hholds

/-- `Skip32` moves behind an encoding. -/
theorem skip32_eq : skip32 buf p = some (some (p + (base128 v.toNat).length)) := by
  rw [skip32, scan_base128 (fits32 v) (by decide) hholds]
  rfl

/-- `Skip32WithLimit` moves behind an encoding that is within the limit. -/
theorem skip32WithLimit_eq (l : Nat) : skip32WithLimit buf p l =
      within (p + (base128 v.toNat).length) (p + (base128 v.toNat).length) l := by
  rw [skip32WithLimit, scan_base128 (fits32 v) (by decide) hholds, within]
  split <;> simp_all

/-- `Parse32WithLimit` reads an encoding that is within the limit. -/
theorem parse32WithLimit_eq (l : Nat) : parse32WithLimit buf p l =
      within (v, p + (base128 v.toNat).length) (p + (base128 v.toNat).length) l := by
  rw [parse32WithLimit, scan_base128 (fits32 v) (by decide) hholds, addAll_addBits_eq (by decide)]
  simp [within]

/-- `Parse32` reads an encoding. -/
theorem parse32Inline_eq : parse32Inline buf p = some (some (v, p + (base128 v.toNat).length)) := by
  rw [parse32_eq_scan, scan_base128 (fits32 v) (by decide) hholds, addAll_addBits_eq (by decide)]
  rfl

/-! ## 64-bit values -/

end

theorem fits64 (v : BitVec 64) : v.toNat < 2 * 128 ^ 9 :=
  v.isLt

variable {v : BitVec 64} (hholds : HoldsAt buf p (base128 v.toNat))
include hholds

/-- `Skip64` moves behind an encoding. -/
theorem skip64_eq : skip64 buf p = some (some (p + (base128 v.toNat).length)) := by
  rw [skip64, scan_base128 (fits64 v) (by decide) hholds]
  rfl

/-- `Skip64WithLimit` moves behind an encoding that is within the limit. -/
theorem skip64WithLimit_eq (l : Nat) : skip64WithLimit buf p l =
      within (p + (base128 v.toNat).length) (p + (base128 v.toNat).length) l := by
  rw [skip64WithLimit, scan_base128 (fits64 v) (by decide) hholds, within]
  split <;> simp_all

/-- `Parse64` reads an encoding. -/
theorem parse64_eq (arch : Arch) :
    parse64 arch buf p = some (some (v, p + (base128 v.toNat).length)) := by
  rw [parse64_eq_scan, scan_base128 (fits64 v) (by decide) hholds, addAll_addBits_eq (by decide)]
  rfl

omit hholds in
/-- `Parse64` reads any terminated group. -/
theorem parse64_spec (arch : Arch) (hroom : takeTerminated 2 10 (buf.drop p) = none →
    p + 10 ≤ buf.length) : parse64 arch buf p = some (sumOfGroups 64 2 10 buf p) := by
  refine (parse64_eq_scan arch).trans ((scan_addBits (by decide) hroom (by decide)).trans ?_)
  cases sumOfGroups 64 2 10 buf p <;> rfl

omit hholds in
/-- The result under a limit is that of the sum of the groups, unless the last of them is behind
it. -/
theorem parse64WithLimit_spec (arch : Arch) {l : Nat}
    (hroom : takeTerminated 2 10 (buf.drop p) = none → l ≤ buf.length) :
    parse64WithLimit arch buf p l = some ((sumOfGroups 64 2 10 buf p).filter (·.2 ≤ l)) := by
  unfold parse64WithLimit kMax64
  split
  next hlong =>
    rw [parse64_spec arch fun hnone => hlong.trans (hroom hnone)]
    cases hsum : sumOfGroups 64 2 10 buf p with
    | none => rfl
    | some r =>
      have hstop : r.2 ≤ l := (le_of_sumOfGroups (by decide) hsum).trans hlong
      simp [Option.filter, hstop]
  next hshort =>
    -- nine steps suffice, because the tenth byte would be past the limit
    have hl : l ≤ p + 9 := by omega
    cases arch with
    | x86_64 =>
      exact (scan_limit hl).trans
        (scan_sumOfGroups (by decide) hroom fun group hgroup => addAll_addCarry_zero hgroup)
    | other => exact (scan_limit hl).trans (scan_addBits (by decide) hroom (by decide))

/-- `Parse64WithLimit` reads an encoding that is within the limit. -/
theorem parse64WithLimit_eq (arch : Arch) (l : Nat) : parse64WithLimit arch buf p l =
      within (v, p + (base128 v.toNat).length) (p + (base128 v.toNat).length) l := by
  have hgroup := takeTerminated_base128 (fits64 v) (by decide) hholds
  rw [parse64WithLimit_spec arch (by simp [hgroup]), sumOfGroups, hgroup, map_some, filter_some,
    value128_base128]
  simp [within]

omit hholds

/-- The decoders of a 64-bit value and the sum of the groups agree on any bytes, on every target. A
limit makes a difference only to a number that ends behind it. -/
theorem parse64_agrees (arch : Arch) (buf : List Byte) (p : Nat) :
    (p + kMax64 ≤ buf.length → parse64 arch buf p = some (sumOfGroups 64 2 10 buf p)) ∧
      (∀ r, sumOfGroups 64 2 10 buf p = some r → parse64 arch buf p = some (some r)) ∧
        ∀ l ≤ buf.length, parse64WithLimit arch buf p l =
          some ((sumOfGroups 64 2 10 buf p).filter (·.2 ≤ l)) := by
  refine ⟨fun hroom => parse64_spec arch fun _ => hroom, fun r hr => ?_,
    fun l hl => parse64WithLimit_spec arch fun _ => hl⟩
  rw [parse64_spec, hr]
  intro hnone
  simp [sumOfGroups, hnone] at hr

/-- An overlong zero of ten bytes, and the same bytes under a limit that cuts the last of them
off. -/
theorem parse64_agrees_overlong : let buf : List Byte := List.replicate 9 0x80#8 ++ [0x00#8]
    (∀ arch, parse64 arch buf 0 = some (some (0#64, 10))) ∧
      ∀ arch, parse64WithLimit arch buf 0 9 = some none := by
  have hsum : sumOfGroups 64 2 10 (List.replicate 9 0x80#8 ++ [0x00#8]) 0 = some (0#64, 10) := by
    decide
  refine ⟨fun arch => ?_, fun arch => ?_⟩
  · exact (parse64_agrees arch _ 0).2.1 _ hsum
  · rw [(parse64_agrees arch _ 0).2.2 9 (by decide)]
    decide

end Decoders

/-- Encoding and then decoding, at any place in a buffer. Under a limit before the end of the
encoding the decoders return null, and under any other they do not see it. -/
theorem varint_round_trip (arch : Arch) (lzcnt : Bool) (before rest : List Byte) : (∀ v : BitVec 32,
      let bytes := encode32 v
      let buf := before ++ bytes ++ rest
      let p := before.length
      let stop := p + length32 lzcnt v
      encode32Inline v = bytes ∧ bytes.length = length32 lzcnt v ∧
        parse32 buf p = some (some (v, stop)) ∧ parse32Inline buf p = some (some (v, stop)) ∧
        skip32 buf p = some (some stop) ∧ ∀ l, parse32WithLimit buf p l = within (v, stop) stop l ∧
          skip32WithLimit buf p l = within stop stop l) ∧
    ∀ v : BitVec 64,
      let bytes := encode64 v
      let buf := before ++ bytes ++ rest
      let p := before.length
      let stop := p + length64 lzcnt v
      bytes.length = length64 lzcnt v ∧ parse64 arch buf p = some (some (v, stop)) ∧
        skip64 buf p = some (some stop) ∧ ∀ l,
          parse64WithLimit arch buf p l = within (v, stop) stop l ∧
            skip64WithLimit buf p l = within stop stop l := by
  refine ⟨fun v => ?_, fun v => ?_⟩
  · have hlength : length32 lzcnt v = (base128 v.toNat).length :=
      lengthImpl_eq lzcnt (by decide) (by decide) v
    have hholds := holdsAt_append before (base128 v.toNat) rest
    simp only [encode32_eq, encode32Inline_eq, hlength]
    exact ⟨trivial, trivial, parse32Inline_eq hholds, parse32Inline_eq hholds, skip32_eq hholds,
      fun l => ⟨parse32WithLimit_eq hholds l, skip32WithLimit_eq hholds l⟩⟩
  · have hlength : length64 lzcnt v = (base128 v.toNat).length :=
      lengthImpl_eq lzcnt (by decide) (by decide) v
    have hholds := holdsAt_append before (base128 v.toNat) rest
    simp only [encode64_eq, hlength]
    exact ⟨trivial, parse64_eq hholds arch, skip64_eq hholds,
      fun l => ⟨parse64WithLimit_eq hholds arch l, skip64WithLimit_eq hholds l⟩⟩

end Gloop.Coding.Varint

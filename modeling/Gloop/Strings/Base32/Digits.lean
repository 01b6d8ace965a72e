import Gloop.Strings.Base32.Model
import Gloop.Foundation.Digits
import Mathlib.Data.List.TakeWhile

/-!
# What the Base32 encoder writes and the decoder accepts

`base32Digits` are the digits of a byte string without any buffer. There are `(8 * m + 4) / 5` of
them for `m` bytes, and their value is that of the bytes, moved up by the bits that fill the last
digit. The decoder takes the characters before the first `'='` as digits of a number in radix 32.
After `k` digits the register holds that number, `5 * k / 8` bytes are written and `5 * k % 8` bits
are left: the bytes are the quotient by the power of two for the bits that are left, and the bits
the remainder.
-/

namespace Gloop.Strings

section

open Gloop.Foundation List Nat

/-! ## Five bytes -/

/-- A shift makes room for low bits. -/
theorem shiftLeft_or_eq {a b k : Nat} (hb : b < 2 ^ k) : a <<< k ||| b = a * 2 ^ k + b := by
  rw [← shiftLeft_add_eq_or_of_lt hb, shiftLeft_eq]

/-- The digits of five bytes, in arithmetic. -/
theorem fiveBytesToEightDigits_eq (b0 b1 b2 b3 b4 : Byte) : fiveBytesToEightDigits b0 b1 b2 b3 b4 =
      [b0.toNat / 8, b0.toNat % 8 * 4 + b1.toNat / 64, b1.toNat / 2 % 32,
        b1.toNat % 2 * 16 + b2.toNat / 16, b2.toNat % 16 * 2 + b3.toNat / 128, b3.toNat / 4 % 32,
        b3.toNat % 4 * 8 + b4.toNat / 32, b4.toNat % 32] := by
  have hmask1 (n : Nat) : n &&& 1 = n % 2 := and_two_pow_sub_one_eq_mod n 1
  have hmask2 (n : Nat) : n &&& 3 = n % 4 := and_two_pow_sub_one_eq_mod n 2
  have hmask3 (n : Nat) : n &&& 7 = n % 8 := and_two_pow_sub_one_eq_mod n 3
  have hmask4 (n : Nat) : n &&& 15 = n % 16 := and_two_pow_sub_one_eq_mod n 4
  have hmask5 (n : Nat) : n &&& 31 = n % 32 := and_two_pow_sub_one_eq_mod n 5
  simp only [fiveBytesToEightDigits, shiftRight_and_distrib]
  simp only [shiftRight_eq_div_pow]
  simp (disch := omega) only [shiftLeft_or_eq]
  simp only [reducePow, hmask1, hmask2, hmask3, hmask4, hmask5]

theorem length_fiveBytesToEightDigits (b0 b1 b2 b3 b4 : Byte) :
    (fiveBytesToEightDigits b0 b1 b2 b3 b4).length = 8 :=
  rfl

theorem fiveBytesToEightDigits_lt (b0 b1 b2 b3 b4 : Byte) :
    ∀ d ∈ fiveBytesToEightDigits b0 b1 b2 b3 b4, d < 32 := by
  rw [fiveBytesToEightDigits_eq]
  simp only [forall_mem_cons, not_mem_nil, false_implies, implies_true, and_true]
  omega

/-- Forty bits are regrouped. -/
theorem ofDigitsBE_fiveBytesToEightDigits (b0 b1 b2 b3 b4 : Byte) :
    ofDigitsBE 32 (fiveBytesToEightDigits b0 b1 b2 b3 b4) = ofBytesBE [b0, b1, b2, b3, b4] := by
  rw [fiveBytesToEightDigits_eq]
  simp [ofDigitsBE, ofBytesBE, ofBytes, ofDigits_cons]
  omega

/-! ## The digits of a byte string -/

/-- The digits, five bytes at a time. -/
def base32Digits : List Byte → List Nat
  | b0 :: b1 :: b2 :: b3 :: b4 :: src => fiveBytesToEightDigits b0 b1 b2 b3 b4 ++ base32Digits src
  | src =>
    (fiveBytesToEightDigits (src.getD 0 0) (src.getD 1 0) (src.getD 2 0) (src.getD 3 0)
      (src.getD 4 0)).take ((8 * src.length + 4) / 5)

variable {src : List Byte} {dest : List Byte}

/-- Fewer than five bytes remain at the end. -/
theorem base32Digits_tail (h : src.length < 5) :
    base32Digits src = (fiveBytesToEightDigits (src.getD 0 0) (src.getD 1 0) (src.getD 2 0)
      (src.getD 3 0) (src.getD 4 0)).take ((8 * src.length + 4) / 5) := by
  match src, h with
  | [], _ => rfl
  | [_], _ => rfl
  | [_, _], _ => rfl
  | [_, _, _], _ => rfl
  | [_, _, _, _], _ => rfl

theorem length_lt_five (h : ∀ b0 b1 b2 b3 b4 rest,
    src = b0 :: b1 :: b2 :: b3 :: b4 :: rest → False) : src.length < 5 := by
  match src with
  | [] => exact zero_lt_succ 4
  | [_] => exact (by omega : 1 < 5)
  | [_, _] => exact (by omega : 2 < 5)
  | [_, _, _] => exact (by omega : 3 < 5)
  | [_, _, _, _] => exact (by omega : 4 < 5)
  | b0 :: b1 :: b2 :: b3 :: b4 :: rest => exact (h b0 b1 b2 b3 b4 rest rfl).elim

/-- How many digits a string has. -/
theorem length_base32Digits (src : List Byte) :
    (base32Digits src).length = (8 * src.length + 4) / 5 := by
  fun_induction base32Digits src with
  | case1 b0 b1 b2 b3 b4 src ih =>
    rw [length_append, length_fiveBytesToEightDigits]
    simp only [length_cons]
    omega
  | case2 src hsrc =>
    have hlength := length_lt_five hsrc
    rw [length_take, length_fiveBytesToEightDigits]
    omega

theorem base32Digits_lt (src : List Byte) : ∀ d ∈ base32Digits src, d < 32 := by
  fun_induction base32Digits src with
  | case1 b0 b1 b2 b3 b4 src ih =>
    intro d hd
    rcases mem_append.mp hd with hd | hd
    · exact fiveBytesToEightDigits_lt b0 b1 b2 b3 b4 d hd
    · exact ih d hd
  | case2 src hsrc =>
    intro d hd
    exact fiveBytesToEightDigits_lt _ _ _ _ _ d (mem_of_mem_take hd)

/-- The last block is filled up with zero bytes. -/
theorem ofDigitsBE_tail (h : src.length < 5) : ofDigitsBE 32 (base32Digits src) =
      2 ^ (5 * ((8 * src.length + 4) / 5) - 8 * src.length) * ofBytesBE src := by
  rw [base32Digits_tail h, ofDigitsBE_take (by omega) (fiveBytesToEightDigits_lt _ _ _ _ _),
    ofDigitsBE_fiveBytesToEightDigits, length_fiveBytesToEightDigits]
  match src, h with
  | [], _ => simp [ofBytesBE, ofBytes]
  | [_], _ => simp [ofBytesBE, ofBytes]; omega
  | [_, _], _ => simp [ofBytesBE, ofBytes]; omega
  | [_, _, _], _ => simp [ofBytesBE, ofBytes]; omega
  | [_, _, _, _], _ => simp [ofBytesBE, ofBytes]; omega

/-- The digits are the bytes, moved up to fill the last digit. -/
theorem ofDigitsBE_base32Digits (src : List Byte) : ofDigitsBE 32 (base32Digits src) =
      2 ^ (5 * ((8 * src.length + 4) / 5) - 8 * src.length) * ofBytesBE src := by
  fun_induction base32Digits src with
  | case1 b0 b1 b2 b3 b4 src ih =>
    have hblock : ofBytesBE (b0 :: b1 :: b2 :: b3 :: b4 :: src) =
        2 ^ (8 * src.length) * ofBytesBE [b0, b1, b2, b3, b4] + ofBytesBE src :=
      ofBytesBE_append [b0, b1, b2, b3, b4] src
    have hpow : 32 ^ ((8 * src.length + 4) / 5) =
        2 ^ (5 * ((8 * src.length + 4) / 5) - 8 * src.length) * 2 ^ (8 * src.length) := by
      rw [← pow_add, show 32 = 2 ^ 5 by rfl, ← pow_mul]
      congr 1
      omega
    have hbits : 5 * ((8 * (b0 :: b1 :: b2 :: b3 :: b4 :: src).length + 4) / 5) -
        8 * (b0 :: b1 :: b2 :: b3 :: b4 :: src).length =
        5 * ((8 * src.length + 4) / 5) - 8 * src.length := by
      simp only [length_cons]
      omega
    rw [ofDigitsBE_append, ofDigitsBE_fiveBytesToEightDigits, length_base32Digits, ih, hblock,
      hbits, hpow, mul_add, mul_assoc]
  | case2 src hsrc =>
    have hlength := length_lt_five hsrc
    rw [← base32Digits_tail hlength]
    exact ofDigitsBE_tail hlength

/-! ## The text in the buffer -/

/-- The digits as characters, padded to full blocks. -/
def base32Text (alphabet src : List Byte) : List Byte :=
  (base32Digits src).map (alphabet.getD · 0#8) ++
    List.replicate (8 * ((src.length + 4) / 5) - (base32Digits src).length) kPad32

/-- How long a text is, with its padding. -/
theorem length_base32Text (alphabet src : List Byte) :
    (base32Text alphabet src).length = 8 * ((src.length + 4) / 5) := by
  rw [base32Text, length_append, length_map, length_replicate, length_base32Digits]
  omega

/-- All digits are in the alphabet. -/
theorem mapM_alphabet {alphabet : List Byte} (halphabet : alphabet.length = 32) {digits : List Nat}
    (hdigits : ∀ d ∈ digits, d < 32) :
    digits.mapM (alphabet[·]?) = some (digits.map (alphabet.getD · 0#8)) := by
  induction digits with
  | nil => rfl
  | cons d digits ih =>
    have hd : d < alphabet.length := by
      rw [halphabet]
      exact hdigits d mem_cons_self
    rw [mapM_cons, ih fun e he => hdigits e (mem_cons_of_mem _ he)]
    simp [getElem?_eq_getElem hd]

/-- Padding is stored one by one. -/
theorem addPadding_eq (count curDest : Nat) (h : curDest ≤ dest.length) :
    addPadding count curDest dest = store dest curDest (replicate count kPad32) := by
  induction count generalizing curDest dest with
  | zero => simp [addPadding, store, h]
  | succ count ih =>
    rw [replicate_succ, ← store_cons, addPadding]
    cases hstore : store dest curDest [kPad32] with
    | none => rfl
    | some dest' =>
      obtain ⟨hp, hlength⟩ := length_of_store hstore
      exact ih (curDest + 1) (hlength ▸ hp)

/-- Padding is written over the end of a text. -/
theorem store_addPadding (dest : List Byte) (curDest : Nat) (front back : List Byte) :
    (store dest curDest (front ++ back)).bind (addPadding back.length (curDest + front.length)) =
      store dest curDest (front ++ replicate back.length kPad32) := by
  rw [← store_store_append dest curDest front back _ length_replicate.symm]
  refine Option.bind_congr fun dest' hstore => addPadding_eq _ _ ?_
  obtain ⟨hp, hlength⟩ := length_of_store hstore
  rw [length_append] at hp
  omega

/-- A text starts with the digits of five bytes. -/
theorem base32Text_cons (alphabet : List Byte) (b0 b1 b2 b3 b4 : Byte) (src : List Byte) :
    base32Text alphabet (b0 :: b1 :: b2 :: b3 :: b4 :: src) =
      (fiveBytesToEightDigits b0 b1 b2 b3 b4).map (alphabet.getD · 0#8) ++
        base32Text alphabet src := by
  rw [base32Text, base32Digits, map_append, append_assoc]
  congr 3
  simp only [length_append, length_cons, length_fiveBytesToEightDigits]
  omega

section Tables

variable {alphabet : List Byte} (halphabet : alphabet.length = 32)

include halphabet

theorem generalFiveBytesToEightBase32Digits_eq (b0 b1 b2 b3 b4 : Byte) :
    generalFiveBytesToEightBase32Digits b0 b1 b2 b3 b4 alphabet =
      some ((fiveBytesToEightDigits b0 b1 b2 b3 b4).map (alphabet.getD · 0#8)) :=
  mapM_alphabet halphabet (fiveBytesToEightDigits_lt b0 b1 b2 b3 b4)

variable {curDest szdest : Nat}

/-- The eight digits of the last block are written, and padding over the last of them. -/
theorem escapeTail_eq (hsrc : src.length < 5) (hdest : curDest + szdest ≤ dest.length)
    (hroom : 8 * ((src.length + 4) / 5) ≤ szdest) : escapeTail alphabet src curDest szdest dest =
      (store dest curDest (base32Text alphabet src)).map fun dest =>
        (curDest + (base32Text alphabet src).length, dest) := by
  by_cases hempty : src.length = 0
  · rw [length_eq_zero_iff.mp hempty]
    simp [escapeTail, base32Text, base32Digits, store, show curDest ≤ dest.length by omega]
  have hchunk : ∀ i < 5, (src ++ replicate (5 - src.length) 0#8).getD i 0 = src.getD i 0 := by
    intro i hi
    by_cases hlt : i < src.length
    · rw [getD_append _ _ _ _ hlt]
    · rw [getD_append_right _ _ _ _ (by omega), getD_replicate _ (by omega),
        getD_eq_default _ _ (by omega)]
      rfl
  have hfilled : src.length * 8 / 5 + 1 = (8 * src.length + 4) / 5 := by omega
  have hdigits := base32Digits_tail hsrc
  have hlength := length_base32Digits src
  rw [escapeTail, if_pos (by omega), if_neg (by omega)]
  simp only [hchunk, reduceLT, generalFiveBytesToEightBase32Digits_eq halphabet,
    Option.bind_eq_bind, Option.bind_some, hfilled]
  -- the padding starts after the digits that count
  generalize hblock : fiveBytesToEightDigits (src.getD 0 0) (src.getD 1 0) (src.getD 2 0)
    (src.getD 3 0) (src.getD 4 0) = block at hdigits ⊢
  have hrest : (block.drop ((8 * src.length + 4) / 5)).length = 8 - (8 * src.length + 4) / 5 := by
    rw [length_drop, ← hblock, length_fiveBytesToEightDigits]
  have hpad := store_addPadding dest curDest ((base32Digits src).map (alphabet.getD · 0#8))
    ((block.drop ((8 * src.length + 4) / 5)).map (alphabet.getD · 0#8))
  rw [← map_append, hdigits, take_append_drop, ← hdigits, length_map, length_map, hlength,
    hrest] at hpad
  have htext : base32Text alphabet src = (base32Digits src).map (alphabet.getD · 0#8) ++
      replicate (8 - (8 * src.length + 4) / 5) kPad32 := by
    rw [base32Text, hlength, show 8 * ((src.length + 4) / 5) = 8 by omega]
  rw [← Option.bind_assoc, hpad, ← htext, length_base32Text, Option.map_eq_bind,
    show 8 * ((src.length + 4) / 5) = 8 by omega, add_assoc, Nat.add_sub_cancel' (by omega)]
  rfl

/-- The loop stores the text if there is room for it. -/
theorem escapeLoop_eq (src : List Byte) (hdest : curDest + szdest ≤ dest.length)
    (hroom : 8 * ((src.length + 4) / 5) ≤ szdest) : escapeLoop alphabet src curDest szdest dest =
      (store dest curDest (base32Text alphabet src)).map fun dest =>
        (curDest + (base32Text alphabet src).length, dest) := by
  fun_induction escapeLoop alphabet src curDest szdest dest with
  | case1 b0 b1 b2 b3 b4 src curDest szdest dest hfull =>
    simp only [length_cons] at hroom
    omega
  | case2 b0 b1 b2 b3 b4 src curDest szdest dest hfull ih =>
    simp only [length_cons] at hroom
    rw [generalFiveBytesToEightBase32Digits_eq halphabet, base32Text_cons, ← store_append,
      Option.map_bind, Option.bind_eq_bind, Option.bind_some]
    refine Option.bind_congr fun dest' hstore => ?_
    have hlength := (length_of_store hstore).2
    rw [ih dest' (by omega) (by omega), length_append, ← add_assoc]
    rfl
  | case3 src curDest szdest dest hsrc =>
    exact escapeTail_eq halphabet (length_lt_five hsrc) hdest hroom

/-- The encoder stays within the size it is given, also when it stops for lack of room. -/
theorem escapeLoop_sameBeyond (src : List Byte) (hdest : curDest + szdest ≤ dest.length) :
    ∃ r dest', escapeLoop alphabet src curDest szdest dest = some (r, dest') ∧
      SameBeyond (curDest + szdest) dest dest' := by
  fun_induction escapeLoop alphabet src curDest szdest dest with
  | case1 b0 b1 b2 b3 b4 src curDest szdest dest hfull =>
    exact ⟨0, dest, rfl, SameBeyond.refl _ dest⟩
  | case2 b0 b1 b2 b3 b4 src curDest szdest dest hfull ih =>
    obtain ⟨hstore, hsame⟩ := store_sameBeyond (p := curDest)
      ((fiveBytesToEightDigits b0 b1 b2 b3 b4).map (alphabet.getD · 0#8))
      (by rw [length_map, length_fiveBytesToEightDigits]; omega) hdest
    obtain ⟨r, dest', hloop, hsame'⟩ := ih _ (by rw [hsame.1]; omega)
    rw [show curDest + 8 + (szdest - 8) = curDest + szdest by omega] at hsame'
    refine ⟨r, dest', ?_, hsame.trans hsame'⟩
    rw [generalFiveBytesToEightBase32Digits_eq halphabet, Option.bind_eq_bind, Option.bind_some,
      hstore, Option.bind_some, hloop]
  | case3 src curDest szdest dest hsrc =>
    have hlength := length_lt_five hsrc
    by_cases hroom : 8 * ((src.length + 4) / 5) ≤ szdest
    · obtain ⟨hstore, hsame⟩ := store_sameBeyond (p := curDest) (base32Text alphabet src)
        (by rw [length_base32Text]; omega) hdest
      refine ⟨curDest + (base32Text alphabet src).length, _, ?_, hsame⟩
      rw [escapeTail_eq halphabet hlength hdest hroom, hstore]
      rfl
    · refine ⟨0, dest, ?_, SameBeyond.refl _ dest⟩
      rw [escapeTail, if_pos (by omega), if_pos (by omega)]

/-- Nothing is written beyond the size of the destination. -/
theorem generalBase32Escape_sameBeyond (src : List Byte) (hdest : szdest ≤ dest.length) :
    ∃ r dest', generalBase32Escape src dest szdest alphabet = some (r, dest') ∧
      SameBeyond szdest dest dest' := by
  rw [generalBase32Escape]
  split
  next => exact ⟨0, dest, rfl, SameBeyond.refl szdest dest⟩
  next =>
    have h := escapeLoop_sameBeyond halphabet src (show 0 + szdest ≤ dest.length by omega)
    rwa [zero_add] at h

/-- With enough room the buffer starts with the text. -/
theorem generalBase32Escape_eq (src : List Byte) (hdest : szdest ≤ dest.length)
    (hroom : 8 * ((src.length + 4) / 5) ≤ szdest) : ∃ dest',
      generalBase32Escape src dest szdest alphabet =
        some ((base32Text alphabet src).length, dest') ∧
      dest'.take (base32Text alphabet src).length = base32Text alphabet src := by
  by_cases hempty : src.length = 0
  · refine ⟨dest, ?_, ?_⟩
    · rw [generalBase32Escape, if_pos hempty, length_base32Text, hempty]
    · rw [length_eq_zero_iff.mp hempty]
      simp [base32Text, base32Digits]
  · obtain ⟨hstore, -⟩ := store_sameBeyond (p := 0) (base32Text alphabet src)
      (by rw [length_base32Text]; omega) hdest
    rw [take_zero, nil_append] at hstore
    refine ⟨base32Text alphabet src ++ dest.drop (base32Text alphabet src).length, ?_, ?_⟩
    · rw [generalBase32Escape, if_neg hempty,
        escapeLoop_eq halphabet src (by omega) hroom, hstore, Option.map_some, zero_add]
    · exact take_left

end Tables

/-! ## The length that is promised -/

/-- Rounding down to a multiple of eight. -/
theorem toNat_and_not_seven (x : BitVec 64) : (x &&& ~~~7#64).toNat = 8 * (x.toNat / 8) := by
  have hshift : x &&& ~~~7#64 = (x >>> 3) <<< 3 := and_allOnes_shiftLeft x 3
  rw [hshift, BitVec.toNat_shiftLeft, BitVec.toNat_ushiftRight]
  omega

/-- The length is computed whenever the check does not stop the program. -/
theorem calculateBase32EscapedLen_eq (inputLen : Nat) : calculateBase32EscapedLen inputLen =
      if inputLen ≤ 2 ^ 61 - 5 then some (8 * ((inputLen + 4) / 5)) else none := by
  rw [calculateBase32EscapedLen]
  by_cases h : inputLen ≤ 2 ^ 61 - 5
  · have hlen : (BitVec.ofNat 64 (8 * inputLen + 4) / 5).toNat = (8 * inputLen + 4) / 5 := by
      rw [BitVec.toNat_udiv, BitVec.toNat_ofNat, mod_eq_of_lt (by omega)]
      rfl
    have hsum : (BitVec.ofNat 64 (8 * inputLen + 4) / 5 + 7).toNat =
        (8 * inputLen + 4) / 5 + 7 := by
      rw [BitVec.toNat_add, hlen]
      exact mod_eq_of_lt (show (8 * inputLen + 4) / 5 + 7 < 2 ^ 64 by omega)
    simp only [guard, if_pos (show inputLen ≤ (2 ^ 64 - 1) / 8 - 4 from h), if_pos h,
      toNat_and_not_seven, Option.pure_def, Option.bind_eq_bind, Option.bind_some]
    congr 1
    omega
  · simp only [guard, if_neg (show ¬inputLen ≤ (2 ^ 64 - 1) / 8 - 4 from h), if_neg h,
      Option.bind_eq_bind, failure, Option.bind_none]

end

/-! ## What the decoder accepts -/

open Gloop.Foundation List BitVec Nat

/-- The inverse table marks every legal character with a digit. -/
structure InverseTable (inverse : Byte → Byte) : Prop where
  inverse_pad : inverse kPad32 = kIllegalBase32CharSentinel
  inverse_lt : ∀ c, inverse c ≠ kIllegalBase32CharSentinel → (inverse c).toNat < 32

/-- The characters before the padding. -/
def body (t : List Byte) : List Byte :=
  t.takeWhile (· ≠ kPad32)

/-- The number that the characters before the padding stand for. -/
def bodyValue (inverse : Byte → Byte) (t : List Byte) : Nat :=
  ofDigitsBE 32 ((body t).map fun c => (inverse c).toNat)

/-- Legal characters, followed by nothing but padding. -/
structure WellFormed (inverse : Byte → Byte) (t : List Byte) : Prop where
  legal : ∀ c ∈ body t, inverse c ≠ kIllegalBase32CharSentinel
  padded : ∀ c ∈ t.dropWhile (· ≠ kPad32), c = kPad32

/-! ## One more character -/

variable {t : List Byte} {inverse : Byte → Byte} {c : Byte} {bits : Nat} {st : UnescapeState}
  {szdest : Nat}

/-- What comes after padding is not in the body. -/
theorem body_append_pad (rest : List Byte) (ht : kPad32 ∈ t) : body (t ++ rest) = body t := by
  rw [body, body, takeWhile_append, if_neg]
  intro hlength
  have hall := (takeWhile_eq_self_iff).mp ((takeWhile_sublist _).eq_of_length hlength)
  have hpad := hall _ ht
  simp at hpad

/-- Without padding, a text is all body. -/
theorem body_append (rest : List Byte) (ht : kPad32 ∉ t) : body (t ++ rest) = t ++ body rest := by
  rw [body, takeWhile_append_of_pos]
  · rfl
  · intro c hc
    exact decide_eq_true fun heq => ht (heq ▸ hc)

theorem body_eq_self (ht : kPad32 ∉ t) : body t = t := by
  have h := body_append [] ht
  simpa [body] using h

theorem dropWhile_append_pad (rest : List Byte) (ht : kPad32 ∈ t) :
    (t ++ rest).dropWhile (· ≠ kPad32) = t.dropWhile (· ≠ kPad32) ++ rest := by
  rw [dropWhile_append, if_neg]
  intro hempty
  rw [List.isEmpty_iff, dropWhile_eq_nil_iff] at hempty
  have hpad := hempty _ ht
  simp at hpad

theorem dropWhile_append_body (rest : List Byte) (ht : kPad32 ∉ t) :
    (t ++ rest).dropWhile (· ≠ kPad32) = rest.dropWhile (· ≠ kPad32) := by
  rw [dropWhile_append_of_pos]
  intro c hc
  exact decide_eq_true fun heq => ht (heq ▸ hc)

/-- Padding may always follow. -/
theorem WellFormed.concat_pad (h : WellFormed inverse t) :
    WellFormed inverse (t ++ [kPad32]) ∧ body (t ++ [kPad32]) = body t := by
  by_cases ht : kPad32 ∈ t
  · have hbody := body_append_pad [kPad32] ht
    refine ⟨⟨by rw [hbody]; exact h.legal, ?_⟩, hbody⟩
    rw [dropWhile_append_pad _ ht]
    intro c hc
    rcases mem_append.mp hc with hc | hc
    · exact h.padded c hc
    · exact mem_singleton.mp hc
  · have hbody : body (t ++ [kPad32]) = body t := by
      rw [body_append _ ht, body_eq_self ht]
      simp [body]
    refine ⟨⟨by rw [hbody]; exact h.legal, ?_⟩, hbody⟩
    rw [dropWhile_append_body _ ht]
    intro c hc
    exact mem_singleton.mp (List.IsSuffix.subset (dropWhile_suffix _) hc)

/-- A digit may follow digits. -/
theorem WellFormed.concat_digit (h : WellFormed inverse t) (ht : kPad32 ∉ t) (hc : c ≠ kPad32)
    (hlegal : inverse c ≠ kIllegalBase32CharSentinel) :
    WellFormed inverse (t ++ [c]) ∧ kPad32 ∉ t ++ [c] := by
  have hnot : kPad32 ∉ t ++ [c] := by
    intro hmem
    rcases mem_append.mp hmem with hmem | hmem
    · exact ht hmem
    · exact hc (mem_singleton.mp hmem).symm
  refine ⟨⟨?_, ?_⟩, hnot⟩
  · rw [body_eq_self hnot]
    intro d hd
    rcases mem_append.mp hd with hd | hd
    · exact h.legal d (by rw [body_eq_self ht]; exact hd)
    · rw [mem_singleton.mp hd]
      exact hlegal
  · have hdrop := dropWhile_append_body [] hnot
    rw [append_nil] at hdrop
    rw [hdrop]
    intro d hd
    cases hd

/-- Before any padding a character other than `'='` is a digit. -/
theorem WellFormed.legal_of_ne {rest : List Byte} (h : WellFormed inverse (t ++ c :: rest))
    (ht : kPad32 ∉ t) (hc : c ≠ kPad32) : inverse c ≠ kIllegalBase32CharSentinel := by
  apply h.legal
  have hhead : (c :: rest).takeWhile (· ≠ kPad32) = c :: rest.takeWhile (· ≠ kPad32) :=
    takeWhile_cons_of_pos (decide_eq_true hc)
  rw [body_append _ ht, body, hhead]
  exact mem_append_right _ mem_cons_self

/-! ## The shift register -/

/-- A byte of the register. -/
theorem register_byte (n : Nat) (hbits : bits < 8) :
    ((BitVec.ofNat 32 n >>> bits) &&& 0xff#32).setWidth 8 = BitVec.ofNat 8 (n / 2 ^ bits) := by
  apply eq_of_toNat_eq
  rw [toNat_setWidth, toNat_and, show (0xff#32).toNat = 2 ^ 8 - 1 from rfl,
    and_two_pow_sub_one_eq_mod, toNat_ushiftRight, BitVec.toNat_ofNat, BitVec.toNat_ofNat,
      shiftRight_eq_div_pow]
  interval_cases bits <;> omega

/-- The quotient grows by one byte. -/
theorem quotient_byte (n v : Nat) (hbits : 3 ≤ bits) (hv : v < 32) :
    256 * (n / 2 ^ bits) + (32 * n + v) / 2 ^ (bits - 3) % 256 = (32 * n + v) / 2 ^ (bits - 3) := by
  have hshift : (32 * n + v) / 2 ^ (bits - 3) / 256 = n / 2 ^ bits := by
    rw [Nat.div_div_eq_div_mul, show 2 ^ (bits - 3) * 256 = 32 * 2 ^ bits by
        rw [show 32 * 2 ^ bits = 2 ^ (5 + bits) by rw [Nat.pow_add],
          show 256 = 2 ^ 8 by rfl, ← Nat.pow_add]
        congr 1
        omega,
      ← Nat.div_div_eq_div_mul, mul_add_div (by omega), div_eq_of_lt hv, Nat.add_zero]
  rw [← hshift]
  exact div_add_mod _ 256

/-- Without a full byte the quotient stays. -/
theorem quotient_stays (n v bits : Nat) (hv : v < 32) :
    (32 * n + v) / 2 ^ (bits + 5) = n / 2 ^ bits := by
  rw [Nat.pow_add, Nat.mul_comm (2 ^ bits), ← Nat.div_div_eq_div_mul, mul_add_div (by omega),
    div_eq_of_lt hv, Nat.add_zero]

/-! ## The loop -/

/-- The decoder after the characters `t`. -/
structure Scanned (inverse : Byte → Byte) (t : List Byte) (st : UnescapeState) (dest : List Byte) :
    Prop where
  wellFormed : WellFormed inverse t
  padding : st.paddingStarted = decide (kPad32 ∈ t)
  chars : st.nonPaddingChars = (body t).length
  bitsLeft : st.bitsLeft = 5 * st.nonPaddingChars % 8
  out : st.out = 5 * st.nonPaddingChars / 8
  out_le : st.out ≤ dest.length
  buffer : st.buffer = BitVec.ofNat 32 (bodyValue inverse t)
  bytes : ofBytesBE (dest.take st.out) = bodyValue inverse t / 2 ^ st.bitsLeft

/-- Nothing has been scanned at the start. -/
theorem scanned_init (inverse : Byte → Byte) (dest : List Byte) :
    Scanned inverse [] UnescapeState.init dest where
  wellFormed := ⟨fun _ hc => absurd hc not_mem_nil, fun _ hc => absurd hc not_mem_nil⟩
  padding := rfl
  chars := rfl
  bitsLeft := rfl
  out := rfl
  out_le := zero_le
  buffer := rfl
  bytes := by simp [UnescapeState.init, bodyValue, body, ofBytesBE_nil]

variable {dest : List Byte}

/-- A padding character is scanned. -/
theorem Scanned.pad (h : Scanned inverse t st dest) :
    Scanned inverse (t ++ [kPad32]) { st with paddingStarted := true } dest := by
  obtain ⟨hwell, hbody⟩ := h.wellFormed.concat_pad
  have hvalue : bodyValue inverse (t ++ [kPad32]) = bodyValue inverse t := by
    rw [bodyValue, hbody, bodyValue]
  refine ⟨hwell, ?_, ?_, h.bitsLeft, h.out, h.out_le, ?_, ?_⟩
  · exact (decide_eq_true (mem_append_right _ mem_cons_self)).symm
  · rw [hbody]
    exact h.chars
  · rw [hvalue]
    exact h.buffer
  · rw [hvalue]
    exact h.bytes

/-- Everything about a digit except the byte that may be written. -/
theorem Scanned.digit (htable : InverseTable inverse) {dest dest' : List Byte}
    (h : Scanned inverse t st dest) (hst : st.paddingStarted = false) (hc : c ≠ kPad32)
    (hlegal : inverse c ≠ kIllegalBase32CharSentinel) (bitsLeft out : Nat)
    (hbits : bitsLeft = 5 * (st.nonPaddingChars + 1) % 8)
      (hout : out = 5 * (st.nonPaddingChars + 1) / 8)
    (hle : out ≤ dest'.length)
    (hbytes : ofBytesBE (dest'.take out) =
      (32 * bodyValue inverse t + (inverse c).toNat) / 2 ^ bitsLeft) :
    Scanned inverse (t ++ [c]) ⟨(st.buffer <<< 5) ||| (inverse c).setWidth 32, bitsLeft, false,
      st.nonPaddingChars + 1, out⟩ dest' := by
  have ht : kPad32 ∉ t := of_decide_eq_false (h.padding.symm.trans hst)
  obtain ⟨hwell, hnot⟩ := h.wellFormed.concat_digit ht hc hlegal
  have hvalue : bodyValue inverse (t ++ [c]) = 32 * bodyValue inverse t + (inverse c).toNat := by
    rw [bodyValue, body_eq_self hnot, map_append, map_singleton, ofDigitsBE_append,
      length_singleton, pow_one, bodyValue, body_eq_self ht]
    rfl
  refine ⟨hwell, (decide_eq_false hnot).symm, ?_, hbits, hout, hle, ?_, ?_⟩
  · rw [body_eq_self hnot, length_append, length_singleton, ← body_eq_self ht, ← h.chars]
  · rw [hvalue, h.buffer, ← ofNat_toNat]
    exact shiftLeft_or_ofNat _ (htable.inverse_lt c hlegal)
  · rw [hvalue]
    exact hbytes

/-- What the decoder can make of one character: it goes on with it, or no text that starts like this
    is well formed and fits. -/
theorem unescapeChar_cases (htable : InverseTable inverse)
    (h : Scanned inverse t st dest) (hsize : szdest ≤ dest.length) (c : Byte) :
    (∃ st' dest', unescapeChar inverse szdest c st dest = some (some st', dest') ∧
      Scanned inverse (t ++ [c]) st' dest' ∧ SameBeyond szdest dest dest') ∨
    (unescapeChar inverse szdest c st dest = some (none, dest) ∧
      ∀ rest, WellFormed inverse (t ++ c :: rest) →
        szdest < 5 * (body (t ++ c :: rest)).length / 8) := by
  by_cases hc : c = kPad32
  · refine Or.inl ⟨_, dest, if_pos hc, ?_, SameBeyond.refl szdest dest⟩
    rw [hc]
    exact h.pad
  cases hst : st.paddingStarted with
  | true =>
    refine Or.inr ⟨?_, fun rest hwell => ?_⟩
    · rw [unescapeChar, if_neg hc, if_pos hst]
    · have ht : kPad32 ∈ t := of_decide_eq_true (h.padding.symm.trans hst)
      -- nothing but padding may follow padding
      refine absurd (hwell.padded c ?_) hc
      rw [dropWhile_append_pad _ ht]
      exact mem_append_right _ mem_cons_self
  | false =>
    have ht : kPad32 ∉ t := of_decide_eq_false (h.padding.symm.trans hst)
    by_cases hlegal : inverse c = kIllegalBase32CharSentinel
    · refine Or.inr ⟨?_, fun rest hwell => absurd hlegal (hwell.legal_of_ne ht hc)⟩
      simp only [unescapeChar, if_neg hc, hst, hlegal, if_true, Bool.false_eq_true, if_false]
    have hbits := h.bitsLeft
    have hout := h.out
    have hlt := htable.inverse_lt c hlegal
    by_cases hfull : 8 ≤ st.bitsLeft + 5
    · by_cases hroom : szdest ≤ st.out
      · refine Or.inr ⟨?_, fun rest _ => ?_⟩
        · simp only [unescapeChar, if_neg hc, hst, if_neg hlegal, if_pos hfull, if_pos hroom,
            Bool.false_eq_true, if_false]
        · have hchars := h.chars
          have hhead : (c :: rest).takeWhile (· ≠ kPad32) = c :: rest.takeWhile (· ≠ kPad32) :=
            takeWhile_cons_of_pos (decide_eq_true hc)
          rw [body_append _ ht, body, hhead, length_append, length_cons, ← body_eq_self ht]
          omega
      · -- the byte that is complete now goes to `dest`
        obtain ⟨hstore, hsame⟩ := store_sameBeyond
          [BitVec.ofNat 8 ((32 * bodyValue inverse t + (inverse c).toNat) / 2 ^ (st.bitsLeft - 3))]
          (show st.out + 1 ≤ szdest by omega) hsize
        have hregister : (st.buffer <<< 5) ||| (inverse c).setWidth 32 =
            BitVec.ofNat 32 (32 * bodyValue inverse t + (inverse c).toNat) := by
          rw [h.buffer, ← ofNat_toNat]
          exact shiftLeft_or_ofNat _ hlt
        refine Or.inl ⟨_, _, ?_, h.digit htable hst hc hlegal (st.bitsLeft - 3)
          (st.out + 1) (by omega) (by omega) ?_ ?_, hsame⟩
        · simp only [unescapeChar, if_neg hc, hst, if_neg hlegal, if_pos hfull, if_neg hroom,
            Bool.false_eq_true, if_false, show st.bitsLeft + 5 - 8 = st.bitsLeft - 3 by omega]
          rw [hregister, register_byte _ (by omega), hstore, Option.map_some]
        · rw [hsame.1]
          omega
        · have hfront : (dest.take st.out ++ [BitVec.ofNat 8
              ((32 * bodyValue inverse t + (inverse c).toNat) / 2 ^ (st.bitsLeft - 3))]).length =
              st.out + 1 := by
            rw [length_append, length_take_of_le h.out_le, length_singleton]
          rw [take_left' hfront, ofBytesBE_concat, h.bytes]
          exact quotient_byte _ _ (by omega) hlt
    · refine Or.inl ⟨_, dest, ?_, h.digit htable hst hc hlegal (st.bitsLeft + 5)
        st.out (by omega) (by omega) h.out_le ?_, SameBeyond.refl szdest dest⟩
      · simp only [unescapeChar, if_neg hc, hst, if_neg hlegal, if_neg hfull, Bool.false_eq_true,
          if_false]
      · rw [h.bytes]
        exact (quotient_stays _ _ _ hlt).symm

/-- The loop scans the text, and writes within the size of the destination. -/
theorem unescapeLoop_spec (htable : InverseTable inverse) (src : List Byte)
    (h : Scanned inverse t st dest) (hsize : szdest ≤ dest.length) :
    ∃ r dest', unescapeLoop inverse szdest src st dest = some (r, dest') ∧
      SameBeyond szdest dest dest' ∧ (∀ st' ∈ r, Scanned inverse (t ++ src) st' dest') ∧
      (r = none → WellFormed inverse (t ++ src) → szdest < 5 * (body (t ++ src)).length / 8) := by
  induction src generalizing t dest st with
  | nil =>
    refine ⟨some st, dest, rfl, SameBeyond.refl szdest dest, ?_, fun hr => nomatch hr⟩
    rintro _ ⟨⟩
    rw [append_nil]
    exact h
  | cons c src ih =>
    rcases unescapeChar_cases htable h hsize c with
      ⟨st', dest', hchar, hscan, hsame⟩ | ⟨hchar, hbad⟩
    · obtain ⟨r, dest'', hloop, hsame', hdone, hfail⟩ := ih hscan (hsame.1 ▸ hsize)
      rw [← append_cons] at hdone hfail
      refine ⟨r, dest'', ?_, hsame.trans hsame', hdone, hfail⟩
      rw [unescapeLoop, hchar]
      exact hloop
    · refine ⟨none, dest, ?_, SameBeyond.refl szdest dest, ?_, fun _ => hbad src⟩
      · rw [unescapeLoop, hchar]
        rfl
      · intro st' hst'
        exact absurd hst' (Option.not_mem_none st')

/-! ## The checks at the end -/

/-- The text fills its last block, or it has no padding. -/
def Complete (t : List Byte) : Prop :=
  if kPad32 ∈ t then (body t).length % 8 ∈ [2, 4, 5, 7] ∧ t.length = ((body t).length / 8 + 1) * 8
  else (body t).length % 8 ∈ [0, 2, 4, 5, 7]

/-- The bits that are left over are zero. -/
def NoBitsLost (inverse : Byte → Byte) (t : List Byte) : Prop :=
  bodyValue inverse t % 2 ^ (5 * (body t).length % 8) = 0

/-- The lengths that may be padded. -/
theorem padded_mask_iff {k : Nat} (hk : k < 8) :
    (1 <<< k) &&& kValidRemainderMaskPadded ≠ 0 ↔ k ∈ [2, 4, 5, 7] := by
  revert k
  decide

/-- The lengths that may go without padding. -/
theorem unpadded_mask_iff {k : Nat} (hk : k < 8) :
    (1 <<< k) &&& kValidRemainderMaskUnpadded ≠ 0 ↔ k ∈ [0, 2, 4, 5, 7] := by
  revert k
  decide

/-- The bits that are left over must be zero. -/
theorem register_low_bits (n : Nat) (hbits : bits < 8) :
    (0 < bits → BitVec.ofNat 32 n &&& ((1#32 <<< bits) - 1) = 0) ↔ n % 2 ^ bits = 0 := by
  have hpow : 2 ^ bits ≤ 2 ^ 8 := Nat.pow_le_pow_right (by omega) (by omega)
  have hmask : ((1#32 <<< bits) - 1).toNat = 2 ^ bits - 1 := by
    have hpos := Nat.two_pow_pos bits
    simp
    omega
  have hvalue : (BitVec.ofNat 32 n &&& ((1#32 <<< bits) - 1)).toNat = n % 2 ^ bits := by
    rw [toNat_and, hmask, and_two_pow_sub_one_eq_mod, BitVec.toNat_ofNat,
      mod_mod_of_dvd _ (pow_dvd_pow 2 (by omega))]
  rw [← hvalue]
  constructor
  · intro h
    cases bits with
    | zero => rw [hvalue, pow_zero, mod_one]
    | succ bits => rw [h (succ_pos bits)]; rfl
  · intro h _
    exact eq_of_toNat_eq h

/-- A text is accepted if it is complete and no bits are lost. -/
theorem Scanned.accepts_iff (h : Scanned inverse t st dest) :
    st.accepts t.length = true ↔ Complete t ∧ NoBitsLost inverse t := by
  have hbits : st.bitsLeft < 8 := by
    rw [h.bitsLeft]
    exact mod_lt _ (by omega)
  have hchars := h.chars
  rw [UnescapeState.accepts, decide_eq_true_iff, h.buffer, register_low_bits _ hbits, NoBitsLost,
    ← hchars, ← h.bitsLeft, Complete, ← hchars]
  have hmod := mod_lt st.nonPaddingChars (show 0 < 8 by omega)
  by_cases ht : kPad32 ∈ t
  · rw [h.padding, if_pos (decide_eq_true ht), if_pos ht, padded_mask_iff hmod]
  · rw [h.padding, if_neg (by simpa using ht), if_neg ht, unpadded_mask_iff hmod]

/-- The texts that stand for bytes. -/
structure Acceptable (inverse : Byte → Byte) (t : List Byte) : Prop where
  wellFormed : WellFormed inverse t
  complete : Complete t
  noBitsLost : NoBitsLost inverse t

/-- The decoder never writes behind its buffer. It accepts the acceptable texts that fit. -/
theorem generalBase32Unescape_spec (htable : InverseTable inverse) (t : List Byte)
    (hsize : szdest ≤ dest.length) :
    ∃ r dest', generalBase32Unescape t dest szdest inverse = some (r, dest') ∧
      SameBeyond szdest dest dest' ∧
        ((r < 0 ∧ (Acceptable inverse t → szdest < 5 * (body t).length / 8)) ∨
          (r = (5 * (body t).length / 8 : Nat) ∧ Acceptable inverse t ∧ 5 * (body t).length / 8 ≤
            dest.length ∧ ofBytesBE (dest'.take (5 * (body t).length / 8)) =
              bodyValue inverse t / 2 ^ (5 * (body t).length % 8))) := by
  obtain ⟨r, dest', hloop, hsame, hdone, hfail⟩ :=
    unescapeLoop_spec htable t (scanned_init inverse dest) hsize
  rw [nil_append] at hdone hfail
  cases r with
  | none =>
    refine ⟨-1, dest', ?_, hsame, Or.inl ⟨by omega, fun hacc => hfail rfl hacc.wellFormed⟩⟩
    rw [generalBase32Unescape, hloop]
    rfl
  | some st =>
    have hscan := hdone st rfl
    refine ⟨if st.accepts t.length then (st.out : Int) else -1, dest', ?_, hsame, ?_⟩
    · rw [generalBase32Unescape, hloop]
      rfl
    · by_cases haccepts : st.accepts t.length = true
      · obtain ⟨hcomplete, hbits⟩ := hscan.accepts_iff.mp haccepts
        have hle := hscan.out_le
        have hbytes := hscan.bytes
        rw [hscan.bitsLeft, hscan.out, hscan.chars] at hbytes
        rw [hscan.out, hscan.chars, hsame.1] at hle
        refine Or.inr ⟨?_, ⟨hscan.wellFormed, hcomplete, hbits⟩, hle, hbytes⟩
        rw [if_pos haccepts, hscan.out, hscan.chars]
      · refine Or.inl ⟨by rw [if_neg haccepts]; omega, fun hacc => absurd ?_ haccepts⟩
        exact hscan.accepts_iff.mpr ⟨hacc.complete, hacc.noBitsLost⟩

end Gloop.Strings

import Gloop.Strings.Base32.Digits
import Mathlib.Data.List.DropRight

/-!
# Base32 is strict

The text of a byte string is acceptable and stands for it, and an acceptable text is the text of the
bytes it stands for, up to the case of its letters and to its padding. Both directions compare the
value of the digits with the value of the bytes.
-/

namespace Gloop.Strings

open Gloop.Foundation List Nat

/-- `absl::ascii_toupper`. -/
def toUpper (c : Byte) : Byte :=
  if char 'a' ≤ c ∧ c ≤ char 'z' then c - 32#8 else c

/-- An alphabet with its inverse table. -/
structure Tables (alphabet : List Byte) (inverse : Byte → Byte) :
    Prop extends InverseTable inverse where
  length_alphabet : alphabet.length = 32
  inverse_digit : ∀ d < 32, inverse (alphabet.getD d 0#8) = BitVec.ofNat 8 d
  digit_inverse : ∀ c, inverse c ≠ kIllegalBase32CharSentinel →
    alphabet.getD (inverse c).toNat 0#8 = toUpper c

/-- The tables of `Base32` belong together. -/
theorem base32_tables : Tables kBase32Alphabet kBase32InverseAlphabet where
  inverse_pad := by decide +kernel
  inverse_lt := by decide +kernel
  length_alphabet := rfl
  inverse_digit := by decide +kernel
  digit_inverse := by decide +kernel

/-- The tables of `Base32Hex` belong together. -/
theorem base32Hex_tables : Tables base32HexAlphabet kBase32HexInverseAlphabet where
  inverse_pad := by decide +kernel
  inverse_lt := by decide +kernel
  length_alphabet := rfl
  inverse_digit := by decide +kernel
  digit_inverse := by decide +kernel

/-! ## Numbers of digits and bytes -/

variable {t : List Byte}

/-- A complete text has a number of digits that bytes can have. -/
theorem Complete.digits (h : Complete t) :
    (8 * (5 * (body t).length / 8) + 4) / 5 = (body t).length := by
  have hmod : (body t).length % 8 ∈ [0, 2, 4, 5, 7] := by
    rw [Complete] at h
    split at h
    next => exact mem_cons_of_mem 0 h.1
    next => exact h
  simp only [mem_cons, not_mem_nil, or_false] at hmod
  omega

/-- Bytes that do not fill a block leave a block that is not full. -/
theorem digits_of_rest {m : Nat} (h : 0 < m % 5) :
    ((8 * m + 4) / 5 % 8 = 2 ∨ (8 * m + 4) / 5 % 8 = 4 ∨ (8 * m + 4) / 5 % 8 = 5 ∨
      (8 * m + 4) / 5 % 8 = 7) ∧ 8 * ((m + 4) / 5) = ((8 * m + 4) / 5 / 8 + 1) * 8 := by
  rcases (by omega : m % 5 = 1 ∨ m % 5 = 2 ∨ m % 5 = 3 ∨ m % 5 = 4) with hm | hm | hm | hm <;> omega

section Codec

variable {alphabet : List Byte} {inverse : Byte → Byte} (htables : Tables alphabet inverse)

include htables

/-- Characters of the alphabet are legal. -/
theorem Tables.inverse_legal {d : Nat} (hd : d < 32) :
    inverse (alphabet.getD d 0#8) ≠ kIllegalBase32CharSentinel := by
  rw [htables.inverse_digit d hd]
  intro h
  have hnat := congrArg BitVec.toNat h
  simp only [kIllegalBase32CharSentinel, BitVec.toNat_ofNat] at hnat
  omega

/-! ## The text of a byte string -/

/-- The padding is not in the alphabet. -/
theorem pad_notMem_digits (s : List Byte) :
    kPad32 ∉ (base32Digits s).map (alphabet.getD · 0#8) := by
  intro h
  obtain ⟨d, hd, heq⟩ := mem_map.mp h
  exact htables.inverse_legal (base32Digits_lt s d hd) (heq ▸ htables.inverse_pad)

/-- The body of a text is its digits. -/
theorem body_base32Text (s : List Byte) :
    body (base32Text alphabet s) = (base32Digits s).map (alphabet.getD · 0#8) := by
  rw [base32Text, body_append _ (pad_notMem_digits htables s), body]
  cases 8 * ((s.length + 4) / 5) - (base32Digits s).length with
  | zero => simp
  | succ n => simp [replicate_succ]

theorem length_body_base32Text (s : List Byte) :
    (body (base32Text alphabet s)).length = (8 * s.length + 4) / 5 := by
  rw [body_base32Text htables, length_map, length_base32Digits]

/-- The value of a text is that of its bytes, shifted to full digits. -/
theorem bodyValue_base32Text (s : List Byte) : bodyValue inverse (base32Text alphabet s) =
      2 ^ (5 * ((8 * s.length + 4) / 5) - 8 * s.length) * ofBytesBE s := by
  rw [bodyValue, body_base32Text htables, ← ofDigitsBE_base32Digits, map_map]
  congr 1
  conv_rhs => rw [← map_id (base32Digits s)]
  apply map_congr_left
  intro d hd
  have hlt := base32Digits_lt s d hd
  rw [Function.comp_apply, htables.inverse_digit d hlt, BitVec.toNat_ofNat, id]
  omega

/-- Texts of other than full groups are padded. -/
theorem pad_mem_base32Text_iff (s : List Byte) :
    kPad32 ∈ base32Text alphabet s ↔ 0 < s.length % 5 := by
  rw [base32Text, mem_append, or_iff_right (pad_notMem_digits htables s), mem_replicate,
    length_base32Digits]
  simp only [and_true]
  omega

/-- A text that was escaped is acceptable. -/
theorem acceptable_base32Text (s : List Byte) : Acceptable inverse (base32Text alphabet s) where
  wellFormed := by
    refine ⟨?_, ?_⟩
    · rw [body_base32Text htables]
      intro c hc
      obtain ⟨d, hd, rfl⟩ := mem_map.mp hc
      exact htables.inverse_legal (base32Digits_lt s d hd)
    · rw [base32Text, dropWhile_append_body _ (pad_notMem_digits htables s)]
      intro c hc
      exact eq_of_mem_replicate (List.IsSuffix.subset (dropWhile_suffix _) hc)
  complete := by
    have hbody := length_body_base32Text htables s
    have hlength := length_base32Text alphabet s
    have hpad := pad_mem_base32Text_iff htables s
    rw [Complete, hbody, hlength]
    simp only [mem_cons, not_mem_nil, or_false]
    split
    next hmem => exact digits_of_rest (hpad.mp hmem)
    next hmem =>
      omega
  noBitsLost := by
    rw [NoBitsLost, bodyValue_base32Text htables, length_body_base32Text htables,
      show 5 * ((8 * s.length + 4) / 5) % 8 = 5 * ((8 * s.length + 4) / 5) - 8 * s.length by omega]
    exact mul_mod_right _ _

/-! ## The bytes of a text -/

/-- The bytes a text stands for. -/
def StandsFor (inverse : Byte → Byte) (t s : List Byte) : Prop :=
  s.length = 5 * (body t).length / 8 ∧ ofBytesBE s =
    bodyValue inverse t / 2 ^ (5 * (body t).length % 8)

omit htables in
/-- A text stands for one string. -/
theorem StandsFor.unique {s s' : List Byte} (h : StandsFor inverse t s)
    (h' : StandsFor inverse t s') : s = s' :=
  ofBytesBE_inj (h.1.trans h'.1.symm) (h.2.trans h'.2.symm)

/-- A text stands for the string it was made of. -/
theorem base32Text_standsFor (s : List Byte) : StandsFor inverse (base32Text alphabet s) s := by
  rw [StandsFor, length_body_base32Text htables, bodyValue_base32Text htables]
  refine ⟨by omega, ?_⟩
  rw [show 5 * ((8 * s.length + 4) / 5) % 8 = 5 * ((8 * s.length + 4) / 5) - 8 * s.length by omega,
    Nat.mul_div_cancel_left _ (Nat.two_pow_pos _)]

/-- The digits of the bytes are those of the text. -/
theorem Acceptable.digits_eq {s : List Byte} (h : Acceptable inverse t)
    (hs : StandsFor inverse t s) : base32Digits s = (body t).map fun c => (inverse c).toNat := by
  have hdigits := h.complete.digits
  refine ofDigitsBE_inj (show 1 < 32 by omega) ?_ ?_ ?_ ?_
  · rw [length_base32Digits, hs.1, length_map, hdigits]
  · exact base32Digits_lt s
  · intro d hd
    obtain ⟨c, hc, rfl⟩ := mem_map.mp hd
    exact htables.inverse_lt c (h.wellFormed.legal c hc)
  · have hbits : 5 * ((8 * s.length + 4) / 5) - 8 * s.length = 5 * (body t).length % 8 := by
      rw [hs.1]
      omega
    rw [ofDigitsBE_base32Digits, hbits, hs.2]
    exact Nat.mul_div_cancel' (dvd_of_mod_eq_zero h.noBitsLost)

/-- Up to case, an acceptable text has the digits of its string. -/
theorem Acceptable.body_upper {s : List Byte} (h : Acceptable inverse t)
    (hs : StandsFor inverse t s) : (body t).map toUpper =
      (base32Digits s).map (alphabet.getD · 0#8) := by
  rw [h.digits_eq htables hs, map_map]
  apply map_congr_left
  intro c hc
  exact (htables.digit_inverse c (h.wellFormed.legal c hc)).symm

/-! ## Strings -/

/-- Unescaping accepts texts that stand for a string, and among them all of full length. -/
theorem generalBase32UnescapeString_spec (uninit : Nat → Byte) (t : List Byte) :
    ∃ b s, generalBase32UnescapeString uninit t inverse = some (b, s) ∧
      (b = true → Acceptable inverse t ∧ StandsFor inverse t s) ∧
      (Acceptable inverse t → t.length % 8 = 0 → b = true) := by
  have hindex : t.length % 8 < kBase32NumUnescapedBytes.length :=
    lt_of_lt_of_le (mod_lt _ (by omega)) (show 8 ≤ 9 by omega)
  have hentry := getElem?_eq_getElem hindex
  generalize kBase32NumUnescapedBytes[t.length % 8] = extra at hentry
  have hsize : (resizeUninitialized uninit [] (5 * (t.length / 8) + extra)).length =
      5 * (t.length / 8) + extra := by
    simp [resizeUninitialized]
  obtain ⟨r, buf, hcall, hsame, hcases⟩ :=
    generalBase32Unescape_spec htables.toInverseTable t (le_of_eq hsize.symm)
  have hstring : generalBase32UnescapeString uninit t inverse =
      some (if r < 0 then (false, []) else (true, buf.take r.toNat)) := by
    simp [generalBase32UnescapeString, hentry, hcall]
  rcases hcases with ⟨hr, hfit⟩ | ⟨hr, hacc, hlength, hbytes⟩
  · refine ⟨false, [], by rw [hstring, if_pos hr], ?_, fun hacc hmod => ?_⟩
    · intro hb
      cases hb
    have hlt := hfit hacc
    have hbody : (body t).length ≤ t.length := (takeWhile_sublist _).length_le
    omega
  · rw [hr] at hstring
    refine ⟨true, buf.take (5 * (body t).length / 8), ?_, fun _ => ⟨hacc, ?_, hbytes⟩,
      fun _ _ => rfl⟩
    · rw [hstring, if_neg (by omega), Int.toNat_natCast]
    · rw [length_take, hsame.1]
      omega

/-- Escaping makes the text if its length can be computed. -/
theorem generalBase32EscapeString_eq (uninit : Nat → Byte) (s : List Byte) :
    generalBase32EscapeString uninit s alphabet =
      (calculateBase32EscapedLen s.length).map fun _ => (true, base32Text alphabet s) := by
  rw [generalBase32EscapeString, calculateBase32EscapedLen_eq]
  split
  next =>
    have hsize : (resizeUninitialized uninit [] (8 * ((s.length + 4) / 5) + 1)).length =
        8 * ((s.length + 4) / 5) + 1 := by
      simp [resizeUninitialized]
    obtain ⟨buf, hcall, htake⟩ := generalBase32Escape_eq htables.length_alphabet s
      (le_of_eq hsize.symm) (le_succ _)
    have hempty : (!(base32Text alphabet s).isEmpty || s.isEmpty) = true := by
      cases s with
      | nil => simp
      | cons c s =>
        have hlength := length_base32Text alphabet (c :: s)
        rw [length_cons] at hlength
        have hne : base32Text alphabet (c :: s) ≠ [] :=
          ne_nil_of_length_pos (by omega)
        simp [hne]
    simp [hcall, htake, hempty]
  next => rfl

end Codec

/-! ## Both codecs -/

/-- The text without the padding at its end. -/
def stripPadding (t : List Byte) : List Byte :=
  t.rdropWhile (· = kPad32)

/-- Unescaping inverts escaping, and what unescapes to a byte string is its escaped form, up to the
    case of letters and to padding, which is there to the full length or not at all. Escaping stops
    the program only where `CalculateBase32EscapedLen` does. -/
structure StrictCodec (escape unescape : List Byte → Option (Bool × List Byte)) : Prop where
  escape_eq_none : ∀ s, calculateBase32EscapedLen s.length = none → escape s = none
  unescape_escape : ∀ s len, calculateBase32EscapedLen s.length = some len →
    ∃ t, escape s = some (true, t) ∧ t.length = len ∧ unescape t = some (true, s)
  unescape_total : ∀ t, ∃ r, unescape t = some r
  canonical : ∀ t s e, unescape t = some (true, s) → escape s = some (true, e) →
    (stripPadding t).map toUpper = e.filter (· ≠ kPad32)
  padded : ∀ t s, unescape t = some (true, s) → kPad32 ∈ t → 8 ∣ t.length
  injective : ∀ t t' s, unescape t = some (true, s) → unescape t' = some (true, s) →
    (stripPadding t).map toUpper = (stripPadding t').map toUpper ∧
      ((kPad32 ∈ t ↔ kPad32 ∈ t') → t.map toUpper = t'.map toUpper)

variable {inverse : Byte → Byte}

theorem WellFormed.eq_append (h : WellFormed inverse t) :
    t = body t ++ replicate (t.length - (body t).length) kPad32 := by
  have hsplit : body t ++ t.dropWhile (· ≠ kPad32) = t := takeWhile_append_dropWhile
  have hpads := eq_replicate_of_mem h.padded
  have hlength := congrArg List.length hsplit
  rw [length_append] at hlength
  conv_lhs => rw [← hsplit, hpads]
  congr 2
  omega

theorem pad_notMem_body (t : List Byte) : kPad32 ∉ body t := by
  intro h
  have hne := mem_takeWhile_imp h
  simp at hne

/-- Without its padding, a well-formed text is its body. -/
theorem WellFormed.stripPadding_eq (h : WellFormed inverse t) : stripPadding t = body t := by
  have hbody : (body t).rdropWhile (· = kPad32) = body t := by
    rw [rdropWhile_eq_self_iff]
    intro hne hlast
    exact pad_notMem_body t (of_decide_eq_true hlast ▸ getLast_mem hne)
  rw [stripPadding]
  conv_lhs => rw [h.eq_append]
  rw [rdropWhile, reverse_append, reverse_replicate, dropWhile_append_of_pos]
  · exact hbody
  · intro c hc
    exact decide_eq_true (eq_of_mem_replicate hc)

theorem WellFormed.pad_mem_iff (h : WellFormed inverse t) :
    kPad32 ∈ t ↔ (body t).length < t.length := by
  conv_lhs => rw [h.eq_append]
  rw [mem_append, or_iff_right (pad_notMem_body t), mem_replicate, and_iff_left rfl]
  omega

/-- The body and whether there is padding determine the length. -/
theorem Acceptable.length_eq {t' : List Byte} (h : Acceptable inverse t)
    (h' : Acceptable inverse t') (hbody : (body t).length = (body t').length)
    (hpad : kPad32 ∈ t ↔ kPad32 ∈ t') : t.length = t'.length := by
  have hle : (body t).length ≤ t.length := (takeWhile_sublist _).length_le
  have hle' : (body t').length ≤ t'.length := (takeWhile_sublist _).length_le
  have hcomplete := h.complete
  have hcomplete' := h'.complete
  rw [Complete] at hcomplete hcomplete'
  by_cases ht : kPad32 ∈ t
  · rw [if_pos ht] at hcomplete
    rw [if_pos (hpad.mp ht)] at hcomplete'
    rw [hcomplete.2, hcomplete'.2, hbody]
  · have hnot := mt h.wellFormed.pad_mem_iff.mpr ht
    have hnot' := mt h'.wellFormed.pad_mem_iff.mpr (mt hpad.mpr ht)
    omega

/-- Acceptable texts with the same body and the same use of padding are equal up to case. -/
theorem Acceptable.upper_eq {t' : List Byte} (h : Acceptable inverse t)
    (h' : Acceptable inverse t') (hbody : (body t).map toUpper = (body t').map toUpper)
    (hpad : kPad32 ∈ t ↔ kPad32 ∈ t') : t.map toUpper = t'.map toUpper := by
  have hlength : (body t).length = (body t').length := by
    simpa only [length_map] using congrArg List.length hbody
  rw [h.wellFormed.eq_append, h'.wellFormed.eq_append, map_append, map_append, hbody,
    hlength, h.length_eq h' hlength hpad]

/-- Tables that belong together make a strict codec. -/
theorem strictCodec {alphabet : List Byte} (htables : Tables alphabet inverse)
    (uninit uninit' : Nat → Byte) :
      StrictCodec (fun s => generalBase32EscapeString uninit s alphabet)
      (fun t => generalBase32UnescapeString uninit' t inverse) := by
  have hunescape : ∀ t s, generalBase32UnescapeString uninit' t inverse = some (true, s) →
      Acceptable inverse t ∧ StandsFor inverse t s := by
    intro t s h
    obtain ⟨b, s', heq, hsound, -⟩ := generalBase32UnescapeString_spec htables uninit' t
    rw [heq] at h
    cases h
    exact hsound rfl
  -- an accepted text has the digits of its bytes, in either case of letters
  have hupper : ∀ t s, generalBase32UnescapeString uninit' t inverse = some (true, s) →
      (stripPadding t).map toUpper = (base32Digits s).map (alphabet.getD · 0#8) := by
    intro t s h
    obtain ⟨hacc, hs⟩ := hunescape t s h
    rw [hacc.wellFormed.stripPadding_eq, hacc.body_upper htables hs]
  refine ⟨?_, ?_, ?_, ?_, ?_, ?_⟩
  · intro s hlen
    rw [generalBase32EscapeString_eq htables, hlen]
    rfl
  · intro s len hlen
    obtain ⟨b, s', heq, hsound, hcomplete⟩ :=
      generalBase32UnescapeString_spec htables uninit' (base32Text alphabet s)
    have hlength := length_base32Text alphabet s
    have hacc := acceptable_base32Text htables s
    have hb : b = true := hcomplete hacc (by omega)
    have hs : s' = s := (hsound hb).2.unique (base32Text_standsFor htables s)
    refine ⟨base32Text alphabet s, ?_, ?_, by rw [heq, hb, hs]⟩
    · rw [generalBase32EscapeString_eq htables, hlen]
      rfl
    · rw [calculateBase32EscapedLen_eq] at hlen
      split at hlen
      next => rw [hlength, Option.some.inj hlen]
      next => cases hlen
  · intro t
    obtain ⟨b, s, heq, -⟩ := generalBase32UnescapeString_spec htables uninit' t
    exact ⟨(b, s), heq⟩
  · intro t s e ht hs
    rw [hupper t s ht]
    rw [generalBase32EscapeString_eq htables, Option.map_eq_some_iff] at hs
    obtain ⟨len, -, htext⟩ := hs
    cases htext
    have hkeep : ((base32Digits s).map (alphabet.getD · 0#8)).filter (· ≠ kPad32) =
        (base32Digits s).map (alphabet.getD · 0#8) := by
      rw [filter_eq_self]
      intro c hc
      exact decide_eq_true fun h => pad_notMem_digits htables s (h ▸ hc)
    rw [base32Text, filter_append, hkeep]
    simp
  · intro t s ht hpad
    have hcomplete := (hunescape t s ht).1.complete
    rw [Complete, if_pos hpad] at hcomplete
    rw [hcomplete.2]
    exact dvd_mul_left 8 _
  · intro t t' s ht ht'
    have hacc := (hunescape t s ht).1
    have hacc' := (hunescape t' s ht').1
    have heq := (hupper t s ht).trans (hupper t' s ht').symm
    refine ⟨heq, hacc.upper_eq hacc' ?_⟩
    rwa [hacc.wellFormed.stripPadding_eq, hacc'.wellFormed.stripPadding_eq] at heq

/-- A function that writes to a buffer leaves everything behind the given size as it is. -/
def StaysWithin {ρ : Type} (f : List Byte → List Byte → Nat → Option (ρ × List Byte)) : Prop :=
  ∀ src dest szdest, szdest ≤ dest.length →
    ∃ r dest', f src dest szdest = some (r, dest') ∧ SameBeyond szdest dest dest'

/-- Unescaping writes within the size of the destination. -/
theorem generalBase32Unescape_staysWithin (htable : InverseTable inverse) :
    StaysWithin fun src dest szdest => generalBase32Unescape src dest szdest inverse := by
  intro src dest szdest hsize
  obtain ⟨r, dest', hcall, hsame, -⟩ := generalBase32Unescape_spec htable src hsize
  exact ⟨r, dest', hcall, hsame⟩

/-- Base32 and Base32Hex are strict, whatever the strings' new bytes hold before they are written,
and the forms with a buffer write only within its size. -/
theorem base32_codecs_are_strict (uninit uninit' : Nat → Byte) :
    StrictCodec (base32Escape uninit) (base32Unescape uninit') ∧
    StrictCodec (base32HexEscape uninit) (base32HexUnescape uninit') ∧
    StaysWithin base32UnescapePtr ∧ StaysWithin base32EscapePtr ∧ StaysWithin base32HexEscapePtr :=
  ⟨strictCodec base32_tables uninit uninit', strictCodec base32Hex_tables uninit uninit',
    generalBase32Unescape_staysWithin base32_tables.toInverseTable,
    fun src _ _ h => generalBase32Escape_sameBeyond base32_tables.length_alphabet src h,
    fun src _ _ h => generalBase32Escape_sameBeyond base32Hex_tables.length_alphabet src h⟩

end Gloop.Strings

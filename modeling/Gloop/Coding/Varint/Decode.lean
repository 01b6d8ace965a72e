import Gloop.Coding.Varint.Model
import Gloop.Foundation.Iterate
import Gloop.Foundation.Word
import Mathlib.Data.BitVec

/-!
# The varint decoders

`scan_eq` says what the unrolled loop returns on any bytes. The lemmas after it compute the value
that each way of adding up the bytes gives, which is that of `sumOfGroups`. `Parse64FallbackPair`
keeps three words in which all bits are set that it does not know yet, and takes their conjunction
at the end. `parse64_eq_scan` says that it computes what the plain byte loop computes.
-/

namespace Gloop.Coding.Varint

section

open Gloop.Foundation List BitVec Option

/-- The bytes added up from step `i` on. -/
def addAll {β : Type} (add : Nat → β → Byte → β) (i : Nat) (result : β) : List Byte → β
  | [] => result
  | b :: bytes => addAll add (i + 1) (add i result b) bytes

variable {bytes : List Byte}

/-- What every step keeps holds of the whole. -/
theorem addAll_invariant {β : Type} {add : Nat → β → Byte → β} (Inv : Nat → β → Prop)
    (hstep : ∀ i b result, bytes[i]? = some b → Inv i result → Inv (i + 1) (add i result b))
    {result : β} (hresult : Inv 0 result) : Inv bytes.length (addAll add 0 result bytes) := by
  have hsuffix : ∀ (i : Nat) (result : β), i ≤ bytes.length → Inv i result →
      Inv bytes.length (addAll add i result (bytes.drop i)) := by
    intro i result hi hinv
    induction hcount : bytes.length - i generalizing i result with
    | zero =>
      rw [drop_eq_nil_of_le (by omega), show bytes.length = i by omega]
      exact hinv
    | succ count ih =>
      have hlt : i < bytes.length := by omega
      rw [drop_eq_getElem_cons hlt]
      exact ih (i + 1) _ hlt (hstep i _ result (getElem?_eq_getElem hlt) hinv) (by omega)
  exact hsuffix 0 result zero_le hresult

/-- The bytes before the limit. -/
def visible (buf : List Byte) (limit : Option Nat) : List Byte :=
  limit.elim buf buf.take

section Scan

variable {β : Type} {buf : List Byte} {limit : Option Nat} {add : Nat → β → Byte → β}
  {bound steps i ptr : Nat} {result : β}

/-- A byte that is visible is before the limit. -/
theorem visible_cons {b : Byte} {bytes : List Byte}
    (h : (visible buf limit).drop ptr = b :: bytes) : limit.any (· ≤ ptr) = false ∧
      buf[ptr]? = some b ∧ (visible buf limit).drop (ptr + 1) = bytes := by
  have hhead : (visible buf limit)[ptr]? = some b := by
    rw [← add_zero ptr, ← getElem?_drop, h]
    rfl
  have htail : (visible buf limit).drop (ptr + 1) = bytes := by
    rw [← drop_drop, h]
    rfl
  cases limit with
  | none => exact ⟨rfl, hhead, htail⟩
  | some l =>
    rw [visible, elim_some, getElem?_take] at hhead
    split at hhead
    next hlt => exact ⟨by simpa using hlt, hhead, htail⟩
    next => cases hhead

/-- The loop adds up the bytes up to the first one below 128 and stops just past it. It reads no
byte that it may not read if there is such a byte, or if the buffer has enough of them. -/
theorem scan_eq (hroom : takeTerminated bound steps ((visible buf limit).drop ptr) = none →
      limit.getD (ptr + steps) ≤ buf.length) :
    scan buf limit add bound steps i ptr result =
      some ((takeTerminated bound steps ((visible buf limit).drop ptr)).map
        fun group => (addAll add i result group, ptr + group.length)) := by
  induction steps generalizing i ptr result with
  | zero => simp [scan, takeTerminated]
  | succ steps ih =>
    rw [scan]
    cases hbytes : (visible buf limit).drop ptr with
    | nil =>
      rw [hbytes] at hroom
      have hroom := hroom rfl
      -- without bytes the pointer is at the limit: a buffer without one does not end here
      have hend : limit.any (· ≤ ptr) = true := by
        cases limit with
        | none =>
          have : buf.length ≤ ptr := by simpa [visible] using hbytes
          rw [getD_none] at hroom
          omega
        | some l =>
          have : min l buf.length ≤ ptr := by simpa [visible] using hbytes
          rw [getD_some] at hroom
          simpa using by omega
      rw [if_pos hend]
      rfl
    | cons b bytes =>
      obtain ⟨hopen, hb, htail⟩ := visible_cons hbytes
      rw [hbytes, takeTerminated] at hroom
      simp only [hopen, hb, Bool.false_eq_true, if_false, bind_eq_bind, bind_some, takeTerminated]
      by_cases hstop : b.toNat < if steps = 0 then bound else 128
      · rw [if_pos hstop, if_pos hstop]
        rfl
      · rw [if_neg hstop] at hroom
        rw [if_neg hstop, if_neg hstop, ih, htail, Option.map_map]
        · simp only [Function.comp_def, addAll, length_cons, add_assoc, add_comm 1]
        · intro hnone
          have := hroom (by rw [← htail, hnone]; rfl)
          rwa [add_assoc, add_comm 1]

/-- What the limit leaves of the first number. -/
theorem takeTerminated_visible (hbound : bound ≤ 128) :
    takeTerminated bound steps ((visible buf limit).drop ptr) =
      (takeTerminated bound steps (buf.drop ptr)).filter fun group =>
        limit.all (ptr + group.length ≤ ·) := by
  cases limit with
  | none =>
    rw [visible, elim_none]
    cases takeTerminated bound steps (buf.drop ptr) <;> rfl
  | some l =>
    rw [visible, elim_some, drop_take, takeTerminated_take]
    cases hgroup : takeTerminated bound steps (buf.drop ptr) with
    | none => rfl
    | some group =>
      have hpos := length_pos_iff.mpr (takeTerminated_spec hbound hgroup).2.1.ne_nil
      have hiff : group.length ≤ l - ptr ↔ ptr + group.length ≤ l := by omega
      simp [Option.filter, hiff]

/-- A scan takes a terminated group that ends within the limit. -/
theorem scan_spec (hbound : bound ≤ 128) (hroom : takeTerminated bound steps (buf.drop ptr) = none →
      limit.getD (ptr + steps) ≤ buf.length) :
    scan buf limit add bound steps i ptr result =
      some (((takeTerminated bound steps (buf.drop ptr)).filter
        fun group => limit.all (ptr + group.length ≤ ·)).map
          fun group => (addAll add i result group, ptr + group.length)) := by
  rw [scan_eq, takeTerminated_visible hbound]
  rw [takeTerminated_visible hbound]
  intro hnone
  cases hgroup : takeTerminated bound steps (buf.drop ptr) with
  | none => exact hroom hgroup
  | some group =>
    -- a number that the limit cuts is in the buffer
    obtain ⟨hholds, hterm, -⟩ := takeTerminated_spec hbound hgroup
    have hlength := HoldsAt.le_length hholds hterm.ne_nil
    cases limit with
    | none => simp [hgroup] at hnone
    | some l =>
      have hcut : l < ptr + group.length := by simpa [hgroup, filter] using hnone
      exact hcut.le.trans hlength

/-- A step at the limit makes no difference. -/
theorem scan_limit {l : Nat} (hl : l ≤ ptr + steps) : scan buf (some l) add 128 steps i ptr result =
      scan buf (some l) add bound (steps + 1) i ptr result := by
  induction steps generalizing i ptr result with
  | zero =>
    have hend : (some l).any (· ≤ ptr) = true := by simpa using hl
    rw [scan, scan, if_pos hend]
  | succ steps ih =>
    rw [scan, scan, ite_self, if_neg (Nat.succ_ne_zero steps)]
    simp only [ih (show l ≤ ptr + 1 + steps by omega)]

/-- Without a limit a step only reads its byte. -/
theorem scan_none : scan buf none add bound (steps + 1) i ptr result = (buf[ptr]?).bind fun b =>
      if b.toNat < (if steps = 0 then bound else 128) then some (some (add i result b, ptr + 1))
      else scan buf none add bound steps (i + 1) (ptr + 1) (add i result b) :=
  rfl

/-- The loop on results that stand for other results. -/
theorem map_scan {γ : Type} {add' : Nat → γ → Byte → γ} {f : β → γ}
    (hadd : ∀ i ≤ 9, ∀ r b, f (add i r b) = add' i (f r) b) (hsteps : i + steps ≤ 10) :
    (scan buf none add bound steps i ptr result).map (·.map fun r => (f r.1, r.2)) =
      scan buf none add' bound steps i ptr (f result) := by
  induction steps generalizing i ptr result with
  | zero => rfl
  | succ steps ih =>
    rw [scan_none, scan_none]
    cases buf[ptr]? with
    | none => rfl
    | some b =>
      rw [bind_some, bind_some, ← hadd i (by omega)]
      by_cases hstop : b.toNat < if steps = 0 then bound else 128
      · rw [if_pos hstop, if_pos hstop]
        rfl
      · rw [if_neg hstop, if_neg hstop]
        exact ih (by omega)

end Scan

/-! ## The values -/

variable {w : Nat}

/-- The low seven bits of a byte. -/
theorem toNat_group (hw : 8 ≤ w) (b : Byte) : (b.setWidth w &&& 127#w).toNat = b.toNat % 128 := by
  have hpow : 2 ^ 8 ≤ 2 ^ w := Nat.pow_le_pow_right (by decide) hw
  rw [toNat_and, toNat_setWidth, toNat_ofNat, Nat.mod_eq_of_lt (by omega),
    Nat.mod_eq_of_lt (by omega)]
  exact Nat.and_two_pow_sub_one_eq_mod b.toNat 7

variable {i : Nat}

/-- The number of some bytes is that of the first group and of the rest above it. -/
theorem ofNat_value128_cons (hw : 8 ≤ w) (b : Byte) (bytes : List Byte) :
    BitVec.ofNat w (value128 (b :: bytes)) =
      (b.setWidth w &&& 127#w) ||| (BitVec.ofNat w (value128 bytes) <<< 7) := by
  have hlt : b.toNat % 128 < 2 ^ 7 := Nat.mod_lt _ (by decide)
  have hgroup : b.setWidth w &&& 127#w = BitVec.ofNat w (b.toNat % 128) := by
    rw [← toNat_group hw, ofNat_toNat, setWidth_eq]
  rw [hgroup, BitVec.or_comm, shiftLeft_or_ofNat _ hlt, value128, add_comm]
  rfl

/-- Adding all groups adds the value of the bytes. -/
theorem addAll_addBits (hw : 8 ≤ w) (result : BitVec w) :
    addAll (addBits w) i result bytes = result |||
      (BitVec.ofNat w (value128 bytes) <<< (7 * i)) := by
  induction bytes generalizing i result with
  | nil => simp [addAll, value128]
  | cons b bytes ih =>
    rw [addAll, ih, addBits, ofNat_value128_cons hw, shiftLeft_or_distrib, ← shiftLeft_add,
      BitVec.or_assoc, Nat.mul_succ, Nat.add_comm]

/-- A decoder that starts at zero finds the sum of the groups. -/
theorem addAll_addBits_zero (hw : 8 ≤ w) (bytes : List Byte) :
    addAll (addBits w) 0 0 bytes = BitVec.ofNat w (value128 bytes) := by
  rw [addAll_addBits hw]
  simp

theorem shiftLeft_eq_mul (x : BitVec w) (n : Nat) : x <<< n = x * BitVec.ofNat w (2 ^ n) := by
  apply eq_of_toNat_eq
  rw [toNat_shiftLeft, toNat_mul, toNat_ofNat, Nat.shiftLeft_eq, Nat.mul_mod_mod]

/-- The steps of the carrying decoder after the first: each takes off the continuation bit of the
byte before and leaves its own. -/
theorem addAll_addCarry (hi : i ≠ 0) {result : BitVec 64} (hbytes : Terminated bytes) :
    addAll addCarry i result bytes =
      result + (BitVec.ofNat 64 (value128 bytes) - 1) * BitVec.ofNat 64 (2 ^ (7 * i)) := by
  induction bytes generalizing i result with
  | nil => exact hbytes.elim
  | cons b bytes ih =>
    have hstep : addCarry i result b =
        result + (BitVec.ofNat 64 b.toNat - 1) * BitVec.ofNat 64 (2 ^ (7 * i)) := by
      rw [addCarry, if_neg hi, shiftLeft_eq_mul, ← ofNat_toNat]
      rfl
    cases bytes with
    | nil =>
      have hb : b.toNat < 128 := hbytes
      have hvalue : value128 [b] = b.toNat := by
        simp only [value128]
        omega
      rw [hvalue]
      exact hstep
    | cons c bytes =>
      have hb : b.toNat = b.toNat % 128 + 128 := by
        have := hbytes.1
        omega
      have hpow : 2 ^ (7 * (i + 1)) = 128 * 2 ^ (7 * i) := by ring
      rw [addAll, hstep, ih (by omega) hbytes.2, hb, hpow]
      simp only [value128, ofNat_add, ofNat_mul]
      ring

/-- Adding with carries cancels the continuation bits. -/
theorem addAll_addCarry_zero (hbytes : Terminated bytes) :
    addAll addCarry 0 0 bytes = BitVec.ofNat 64 (value128 bytes) := by
  cases bytes with
  | nil => exact hbytes.elim
  | cons b bytes =>
    have hfirst : addCarry 0 0 b = BitVec.ofNat 64 b.toNat := by
      rw [addCarry, if_pos rfl, ofNat_toNat]
    rw [addAll, hfirst]
    cases bytes with
    | nil =>
      have hb : b.toNat < 128 := hbytes
      rw [value128, Nat.mod_eq_of_lt hb]
      rfl
    | cons c bytes =>
      have hb : b.toNat = b.toNat % 128 + 128 := by
        have := hbytes.1
        omega
      rw [addAll_addCarry (by decide) hbytes.2, hb]
      simp only [value128, ofNat_add, ofNat_mul]
      ring_nf

/-- A group of seven bits that fits into a fragment can be added to the whole value instead. -/
theorem setWidth_addBits (hi : 7 * i + 7 ≤ 32) (shift : Nat) (res : BitVec 32) (byte : Byte) :
    (addBits 32 i res byte).setWidth 64 <<< shift =
      (res.setWidth 64 <<< shift) ||| ((byte.setWidth 64 &&& 127#64) <<< (7 * i + shift)) := by
  have hgroup : ((byte.setWidth 32 &&& 127#32) <<< (7 * i)).setWidth 64 =
      (byte.setWidth 64 &&& 127#64) <<< (7 * i) := by
    have hlt : byte.toNat % 128 * 2 ^ (7 * i) < 2 ^ 32 := by
      calc byte.toNat % 128 * 2 ^ (7 * i) < 2 ^ 7 * 2 ^ (7 * i) :=
            Nat.mul_lt_mul_of_pos_right (Nat.mod_lt _ (by decide)) (Nat.two_pow_pos _)
        _ ≤ 2 ^ 32 := by
            rw [← pow_add]
            exact Nat.pow_le_pow_right (by decide) (by omega)
    apply eq_of_toNat_eq
    rw [toNat_setWidth, toNat_shiftLeft, toNat_shiftLeft, toNat_group (by decide),
      toNat_group (by decide)]
    omega
  rw [addBits, setWidth_or, shiftLeft_or_distrib, hgroup, ← shiftLeft_add]

/-- Adding a byte to its fragment adds it to the value that the fragments make up. -/
theorem output_addFragment (i : Nat) (hi : i ≤ 9) (res : Fragments) (byte : Byte) :
    (addFragment i res byte).output = addBits 64 i res.output byte := by
  have hfirst : ∀ x y z g : BitVec 64, (x ||| g) ||| y ||| z = x ||| y ||| z ||| g := by
    intro x y z g
    ac_rfl
  have hsecond : ∀ x y z g : BitVec 64, x ||| (y ||| g) ||| z = x ||| y ||| z ||| g := by
    intro x y z g
    ac_rfl
  unfold addFragment Fragments.output
  split
  · have hadd := setWidth_addBits (i := i) (by omega) 0 res.res1 byte
    rw [shiftLeft_zero, shiftLeft_zero] at hadd
    exact (congrArg (· ||| _ ||| _) hadd).trans (hfirst _ _ _ _)
  split
  · have hadd := setWidth_addBits (i := i - 4) (by omega) 28 res.res2 byte
    rw [show 7 * (i - 4) + 28 = 7 * i by omega] at hadd
    exact (congrArg (_ ||| · ||| _) hadd).trans (hsecond _ _ _ _)
  · have hadd := setWidth_addBits (i := i - 8) (by omega) 56 res.res3 byte
    rw [show 7 * (i - 8) + 56 = 7 * i by omega] at hadd
    exact (congrArg (_ ||| _ ||| ·) hadd).trans (or_assoc _ _ _).symm

/-! ## The whole decoders -/

/-- The value and the end of the first number at `p`, as the sum of its groups. -/
def sumOfGroups (w bound steps : Nat) (bytes : List Byte) (p : Nat) : Option (BitVec w × Nat) :=
  (takeTerminated bound steps (bytes.drop p)).map fun group =>
    (BitVec.ofNat w (value128 group), p + group.length)

variable {buf : List Byte} {limit : Option Nat} {bound steps p : Nat}

/-- A parser does not move further than its number of steps. -/
theorem le_of_sumOfGroups (hbound : bound ≤ 128) {r : BitVec w × Nat}
    (h : sumOfGroups w bound steps bytes p = some r) : r.2 ≤ p + steps := by
  obtain ⟨group, hgroup, rfl⟩ := map_eq_some_iff.mp h
  exact Nat.add_le_add_left (takeTerminated_spec hbound hgroup).2.2 p

section

variable (hbound : bound ≤ 128)
  (hroom : takeTerminated bound steps (buf.drop p) = none → limit.getD (p + steps) ≤ buf.length)
include hbound hroom

/-- A loop whose steps add up to the number of the bytes. -/
theorem scan_sumOfGroups {add : Nat → BitVec w → Byte → BitVec w}
    (hadd : ∀ group, Terminated group → addAll add 0 0 group = BitVec.ofNat w (value128 group)) :
    scan buf limit add bound steps 0 p 0 =
      some ((sumOfGroups w bound steps buf p).filter fun r => limit.all (r.2 ≤ ·)) := by
  rw [scan_spec hbound hroom, sumOfGroups]
  cases hgroup : takeTerminated bound steps (buf.drop p) with
  | none => rfl
  | some group =>
    rw [map_some, filter_some, filter_some]
    split
    · rw [map_some, hadd group (takeTerminated_spec hbound hgroup).2.1]
    · rfl

/-- A scan is a parser within the limit. -/
theorem scan_addBits (hw : 8 ≤ w) : scan buf limit (addBits w) bound steps 0 p 0 =
      some ((sumOfGroups w bound steps buf p).filter fun r => limit.all (r.2 ≤ ·)) :=
  scan_sumOfGroups hbound hroom fun group _ => addAll_addBits_zero hw group

end

theorem addBits_first (b : Byte) : addBits w 0 0 b = b.setWidth w &&& 127#w := by
  simp [addBits]

/-- A single byte is the value. -/
theorem addBits_of_lt (hw : 8 ≤ w) {b : Byte} (hb : b.toNat < 128) :
    addBits w 0 0 b = b.setWidth w := by
  apply eq_of_toNat_eq
  rw [addBits_first, toNat_group hw, toNat_setWidth_of_le hw, Nat.mod_eq_of_lt hb]

/-- `Parse32` is a scan of five bytes. -/
theorem parse32_eq_scan : parse32Inline buf p = scan buf none (addBits 32) 16 5 0 p 0 := by
  rw [parse32Inline, parse32FallbackInline, scan_none]
  cases buf[p]? with
  | none => rfl
  | some b =>
    simp only [bind_eq_bind, bind_some]
    split
    next hsmall =>
      rw [← addBits_of_lt (by decide) hsmall]
      exact (if_pos hsmall).symm
    next hgo =>
      rw [← addBits_first]
      exact (if_neg hgo).symm

/-- The fallback is a scan from the second byte on. -/
theorem parse64Fallback_eq_scan {byte : Byte} (hbyte : buf[p]? = some byte) :
    parse64Fallback buf p = scan buf none (addBits 64) 2 9 1 (p + 1) (addBits 64 0 0 byte) := by
  have hfirst : (Fragments.mk (byte.setWidth 32 &&& 127#32) 0 0).output = addBits 64 0 0 byte := by
    simp [Fragments.output, addBits]
  rw [parse64Fallback, hbyte, ← hfirst, ← map_scan output_addFragment (by decide)]
  simp only [bind_eq_bind, bind_some]
  cases scan buf none addFragment 2 9 1 (p + 1) ⟨byte.setWidth 32 &&& 127#32, 0, 0⟩ <;> rfl

end

/-! ## The 64-bit decoder of x86-64 -/

open Gloop.Foundation BitVec Option Bool

/-- All bits of the word above the first group are set. -/
def HighOnes (word : BitVec 64) : Prop :=
  ∀ j < 64, 7 ≤ j → word.getLsbD j = true

/-- The word agrees with the result on the groups read so far. Its other bits are set, while those
of the result are not. -/
def KnownUpTo (groups : Nat) (result word : BitVec 64) : Prop :=
  ∀ j < 64, if j < 7 * groups then word.getLsbD j = result.getLsbD j
    else word.getLsbD j = true ∧ result.getLsbD j = false

/-- The bits of a shifted byte: those below it are set and those above repeat its sign. -/
theorem getLsbD_shld {i j : Nat} (hpos : 0 < i) (hi : i ≤ 8) (hj : j < 64) (byte : Byte)
    {ones : BitVec 64} (hones : HighOnes ones) : (shld i byte ones).getLsbD j =
      if j < 7 * i then true
      else if j < 7 * i + 7 then byte.getLsbD (j - 7 * i) else byte.msb := by
  rw [shld, getLsbD_or, getLsbD_shiftLeft, getLsbD_ushiftRight, getLsbD_signExtend]
  by_cases hlow : j < 7 * i
  · rw [if_pos hlow, hones _ (by omega) (by omega), Bool.or_true]
  rw [if_neg hlow, getLsbD_of_ge ones _ (by omega), Bool.or_false, mul_comm]
  simp only [hj, hlow, show j - 7 * i < 64 by omega, decide_true, decide_false, Bool.not_false,
    Bool.true_and]
  by_cases hgroup : j < 7 * i + 7
  · rw [if_pos hgroup, if_pos (by omega)]
  · split
    next hlast => rw [msb_eq_getLsbD_last, show j - 7 * i = 8 - 1 by omega]
    next => rfl

/-- The shifted word shows the continuation bit. -/
theorem msb_shld {i : Nat} (hpos : 0 < i) (hi : i ≤ 8) (byte : Byte) {ones : BitVec 64}
    (hones : HighOnes ones) : (shld i byte ones).msb = byte.msb := by
  rw [msb_eq_getLsbD_last, getLsbD_shld hpos hi (by decide) byte hones, if_neg (by omega),
    if_neg (by omega)]

/-- The bits of a result to which a byte is added. -/
theorem getLsbD_addBits {i j : Nat} (hj : j < 64) (result : BitVec 64) (byte : Byte) :
    (addBits 64 i result byte).getLsbD j =
      (result.getLsbD j || (decide (7 * i ≤ j ∧ j < 7 * i + 7) && byte.getLsbD (j - 7 * i))) := by
  have hmask : (127#64).getLsbD (j - 7 * i) = decide (j - 7 * i < 7) := by
    rw [show 127#64 = BitVec.ofNat 64 (2 ^ 7 - 1) from rfl, getLsbD_ofNat,
      Nat.testBit_two_pow_sub_one]
    simpa using by omega
  rw [addBits, getLsbD_or, getLsbD_shiftLeft, getLsbD_and, hmask]
  congr 1
  by_cases hlow : 7 * i ≤ j
  · have hiff : (j - 7 * i < 7) ↔ j < 7 * i + 7 := by omega
    simp [hj, hlow, hiff, show j - 7 * i < 64 by omega, Bool.and_comm]
  · simp [hlow]

section Step

variable {i : Nat} {result word ones : BitVec 64} {byte : Byte}

/-- What the next byte does to the conjunction of the words. -/
theorem KnownUpTo.getLsbD_and_shld (hpos : 0 < i) (hi : i ≤ 8) (hones : HighOnes ones)
    (hword : KnownUpTo i result word) {j : Nat} (hj : j < 64) :
      (word &&& shld i byte ones).getLsbD j =
      if j < 7 * (i + 1) then (addBits 64 i result byte).getLsbD j else byte.msb := by
  have hword := hword j hj
  rw [getLsbD_and, getLsbD_shld hpos hi hj byte hones, getLsbD_addBits hj]
  by_cases hlow : j < 7 * i
  · rw [if_pos hlow] at hword ⊢
    simp [hword, show j < 7 * (i + 1) by omega, show ¬7 * i ≤ j by omega]
  · rw [if_neg hlow] at hword ⊢
    rw [hword.1, hword.2]
    by_cases hgroup : j < 7 * i + 7
    · simp [hgroup, show j < 7 * (i + 1) by omega, show 7 * i ≤ j by omega]
    · simp [hgroup, show ¬j < 7 * (i + 1) by omega]

/-- One more byte is known after a shift. -/
theorem KnownUpTo.and_shld (hpos : 0 < i) (hi : i ≤ 8) (hones : HighOnes ones)
    (hword : KnownUpTo i result word) (hmore : byte.msb = true) :
    KnownUpTo (i + 1) (addBits 64 i result byte) (word &&& shld i byte ones) := by
  intro j hj
  rw [hword.getLsbD_and_shld hpos hi hones hj, hmore]
  by_cases hlow : j < 7 * (i + 1)
  · simp [hlow]
  · have hhigh := hword j hj
    rw [if_neg (by omega)] at hhigh
    simp [getLsbD_addBits hj, hhigh.2, show ¬j < 7 * i + 7 by omega]

/-- After the last byte the conjunction is the result. -/
theorem KnownUpTo.and_shld_last (hpos : 0 < i) (hi : i ≤ 8) (hones : HighOnes ones)
    (hword : KnownUpTo i result word) (hlast : byte.msb = false) :
    word &&& shld i byte ones = addBits 64 i result byte := by
  apply eq_of_getLsbD_eq
  intro j hj
  rw [hword.getLsbD_and_shld hpos hi hones hj, hlast]
  by_cases hlow : j < 7 * (i + 1)
  · rw [if_pos hlow]
  · have hhigh := hword j hj
    rw [if_neg (by omega)] at hhigh
    simp [getLsbD_addBits hj, hhigh.2, show ¬j < 7 * i + 7 by omega]

/-- The tenth byte decides the highest bit. -/
theorem KnownUpTo.tenth {a b c : BitVec 64} (hword : KnownUpTo 9 result (a &&& b &&& c)) :
    a &&& b &&& c = addBits 64 9 result 1#8 ∧
      a &&& b &&& (c ^^^ (1#64 <<< 63)) = addBits 64 9 result 0#8 := by
  have hbits : ∀ j < 64, (a &&& b &&& c).getLsbD j = (addBits 64 9 result 1#8).getLsbD j ∧
      (a &&& b &&& (c ^^^ (1#64 <<< 63))).getLsbD j = (addBits 64 9 result 0#8).getLsbD j := by
    intro j hj
    have hbit := hword j hj
    simp only [getLsbD_and, getLsbD_addBits hj, getLsbD_xor, getLsbD_shiftLeft] at hbit ⊢
    by_cases hlow : j < 63
    · rw [if_pos hlow] at hbit
      simp [hbit, hlow]
    · obtain rfl : j = 63 := by omega
      simp only [and_eq_true] at hbit
      rw [hbit.1.1.1, hbit.1.1.2, hbit.1.2, hbit.2]
      decide
  exact ⟨eq_of_getLsbD_eq fun j hj => (hbits j hj).1, eq_of_getLsbD_eq fun j hj => (hbits j hj).2⟩

/-- The first byte, which says that more follow. -/
theorem knownUpTo_first {first : Byte} (hmore : first.msb = true) :
    KnownUpTo 1 (addBits 64 0 0 first) (first.signExtend 64) := by
  intro j hj
  rw [getLsbD_signExtend, getLsbD_addBits hj, decide_eq_true hj, Bool.true_and]
  by_cases hlow : j < 7
  · simp [hlow, show j < 8 by omega]
  · rw [if_neg (by omega)]
    refine ⟨?_, by simp [hlow]⟩
    split
    next hlast => rw [show j = 8 - 1 by omega, ← msb_eq_getLsbD_last, hmore]
    next => exact hmore

end Step

section Decoder

variable {buf : List Byte} {p : Nat} {ones : BitVec 64}

/-- The continuation bit is set for bytes from 128 on. -/
theorem msb_eq_not_lt (byte : Byte) : byte.msb = !decide (byte.toNat < 128) := by
  rw [msb_eq_decide, ← decide_not]
  exact decide_eq_decide.mpr not_lt.symm

/-- The rotation of bytes 3 to 8 either ends as the byte loop does or has read nine groups. -/
theorem parse64Rotate_spec (buf : List Byte) (p : Nat) (hones : HighOnes ones) {steps i : Nat}
    (hsteps : i + steps = 9) (hpos : 0 < i) {a b c result : BitVec 64} (ha : a.msb = true)
    (hb : b.msb = true) (hc : c.msb = true) (hknown : KnownUpTo i result (a &&& b &&& c)) :
    match parse64Rotate buf p ones steps i a b c with
    | none => scan buf none (addBits 64) 2 (steps + 1) i (p + i) result = none
    | some (.inl r) => scan buf none (addBits 64) 2 (steps + 1) i (p + i) result = some r
    | some (.inr (a', b', c')) => ∃ result', KnownUpTo 9 result' (a' &&& b' &&& c') ∧
        scan buf none (addBits 64) 2 (steps + 1) i (p + i) result =
          scan buf none (addBits 64) 2 1 9 (p + 9) result' := by
  induction steps generalizing i a b c result with
  | zero =>
    obtain rfl : i = 9 := hsteps
    exact ⟨result, hknown, rfl⟩
  | succ steps ih =>
    rw [parse64Rotate, scan_none]
    cases buf[p + i]? with
    | none => rfl
    | some byte =>
      have hmsb : (a &&& shld i byte ones).msb = byte.msb := by
        rw [msb_and, ha, Bool.true_and, msb_shld hpos (by omega) byte hones]
      simp only [bind_eq_bind, bind_some, hmsb, msb_eq_not_lt, Nat.succ_ne_zero, if_false]
      by_cases hlast : byte.toNat < 128
      · have hvalue := hknown.and_shld_last hpos (by omega) hones
          (show byte.msb = false by rw [msb_eq_not_lt]; simpa using hlast)
        rw [show a &&& b &&& c &&& shld i byte ones = a &&& shld i byte ones &&& b &&& c by ac_rfl]
          at hvalue
        simp only [hlast, hvalue]
        rfl
      · have hmore : byte.msb = true := by
          rw [msb_eq_not_lt]
          simpa using hlast
        -- the word with the new byte goes to the end of the three
        have hnext := hknown.and_shld hpos (by omega) hones hmore
        rw [show a &&& b &&& c &&& shld i byte ones =
          b &&& c &&& (a &&& shld i byte ones) by ac_rfl] at hnext
        simp only [hlast]
        exact ih (by omega) (by omega) hb hc (hmsb.trans hmore) hnext

/-- `Parse64FallbackPair` goes on as the byte loop does after a first byte that says that more
follow. -/
theorem parse64FallbackPair_eq_scan {first : Byte} (hfirst : first.msb = true) :
    parse64FallbackPair buf p (first.signExtend 64) =
      scan buf none (addBits 64) 2 9 1 (p + 1) (addBits 64 0 0 first) := by
  have hknown₁ := knownUpTo_first hfirst
  have hones : HighOnes (first.signExtend 64) := by
    intro j hj hhigh
    have hbit := hknown₁ j hj
    rw [if_neg (by omega)] at hbit
    exact hbit.1
  have hmsb₁ : (first.signExtend 64).msb = true := by
    exact hones _ (by decide) (by decide)
  generalize first.signExtend 64 = res1 at *
  -- the second and the third byte are read one by one, then the loop rotates the words
  rw [parse64FallbackPair, scan_none]
  cases buf[p + 1]? with
  | none => rfl
  | some second =>
    have hmsb₂ := msb_shld (by decide : 0 < 1) (by decide) second hones
    simp only [bind_eq_bind, bind_some, hmsb₂]
    cases hmore₂ : second.msb with
    | false =>
      have hsmall : second.toNat < 128 := by simpa [msb_eq_not_lt] using hmore₂
      simp [hsmall, hknown₁.and_shld_last (by decide) (by decide) hones hmore₂]
    | true =>
      have hlarge : ¬second.toNat < 128 := by simpa [msb_eq_not_lt] using hmore₂
      have hknown₂ := hknown₁.and_shld (by decide) (by decide) hones hmore₂
      simp only [hlarge, if_false, OfNat.ofNat_ne_zero]
      rw [scan_none]
      cases buf[p + 2]? with
      | none => rfl
      | some third =>
        have hmsb₃ := msb_shld (by decide : 0 < 2) (by decide) third hones
        simp only [bind_some, hmsb₃]
        cases hmore₃ : third.msb with
        | false =>
          have hsmall : third.toNat < 128 := by simpa [msb_eq_not_lt] using hmore₃
          simp [hsmall, hknown₂.and_shld_last (by decide) (by decide) hones hmore₃]
        | true =>
          have hlarge : ¬third.toNat < 128 := by simpa [msb_eq_not_lt] using hmore₃
          have hknown₃ := hknown₂.and_shld (by decide) (by decide) hones hmore₃
          have hrotate := parse64Rotate_spec buf p hones (show 3 + 6 = 9 from rfl) (by decide)
            hmsb₁ (hmsb₂.trans hmore₂) (hmsb₃.trans hmore₃) hknown₃
          simp only [hlarge, if_false, OfNat.ofNat_ne_zero]
          cases hresult : parse64Rotate buf p res1 6 3 res1 (shld 1 second res1)
            (shld 2 third res1) with
          | none => rw [hresult] at hrotate; exact hrotate.symm
          | some r =>
            rw [hresult] at hrotate
            cases r with
            | inl r => exact hrotate.symm
            | inr words =>
              -- of the tenth byte only one bit fits
              obtain ⟨result', hknown, hscan⟩ := hrotate
              refine Eq.trans ?_ hscan.symm
              rw [scan_none]
              cases buf[p + 9]? with
              | none => rfl
              | some byte =>
                simp only [bind_some, hknown.tenth]
                by_cases hone : byte = 1#8
                · simp [hone]
                by_cases hzero : byte = 0#8
                · simp [hzero]
                have hlarge : ¬byte.toNat < 2 := by
                  rw [← toNat_inj] at hone hzero
                  simp only [BitVec.toNat_ofNat] at hone hzero
                  omega
                simp only [hone, hzero, hlarge, if_true]
                rfl

/-- `Parse64` is a scan of ten bytes, on each architecture. -/
theorem parse64_eq_scan (arch : Arch) :
    parse64 arch buf p = scan buf none (addBits 64) 2 10 0 p 0 := by
  rw [parse64, scan_none]
  cases hbyte : buf[p]? with
  | none => rfl
  | some byte =>
    simp only [bind_eq_bind, bind_some, OfNat.ofNat_ne_zero]
    by_cases hsmall : byte.toNat < 128
    · have hmsb : byte.msb = false := by simpa [msb_eq_not_lt] using hsmall
      rw [addBits_of_lt (by decide) hsmall, signExtend_eq_setWidth_of_msb_false hmsb]
      cases arch <;> simp [hmsb, hsmall]
    · have hmsb : byte.msb = true := by simpa [msb_eq_not_lt] using hsmall
      cases arch with
      | x86_64 =>
        simp only [hmsb, hsmall, Bool.not_true, false_eq_true, if_false,
          parse64FallbackPair_eq_scan hmsb]
      | other =>
        simp only [hsmall, if_false]
        rw [parse64Fallback_eq_scan hbyte]

end Decoder

end Gloop.Coding.Varint

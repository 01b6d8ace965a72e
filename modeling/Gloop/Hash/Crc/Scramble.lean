import Gloop.Hash.Crc.Extend
import Mathlib.Data.Nat.ModEq

/-!
# `Scramble` and `Unscramble`

`Scramble` adds a constant and rotates the bits of the degree. What carries or rotations leave above
these bits is masked. `Swapped` says how a rotation exchanges the two parts of its bits, whatever is
above them. `scramble_unscramble` says that the two functions are inverse to each other.
-/

namespace Gloop.Hash.Crc

open Gloop.Foundation Nat CRCImpl LoHi
open Option (bind_eq_bind bind_some)

/-- `kScrambleHi`. -/
def kScrambleHi : Nat :=
  (0x4f1bbcdc <<< 32) ||| 0xbfa53e0a

/-- `kScrambleLo`. -/
def kScrambleLo : Nat :=
  (0xf9ce6030 <<< 32) ||| 0x2e76e41b

/-- `absl::MakeUint128(kScrambleHi, kScrambleLo)`. -/
def kScramble : Nat :=
  makeUint128 kScrambleHi kScrambleLo

/-- `MaskOfLength<T>(len)`, for a type of `bits` bits. -/
def maskOfLength (bits len : Nat) : Option Nat := do
  guard (0 < len ∧ len ≤ bits)
  return ((2 <<< (len - 1)) % 2 ^ bits + (2 ^ bits - 1)) % 2 ^ bits

/-- `RotateRight<T>(in, width, r)`. Shifts by the size of the type are undefined. -/
def rotateRight (bits x width r : Nat) : Option Nat := do
  guard (r < bits ∧ r ≤ width ∧ width - r < bits)
  return ((x <<< (width - r)) % 2 ^ bits) ||| ((x >>> r) &&& (← maskOfLength bits (width - r)))

variable (crc : CRCImpl)

/-- `scramble_rotate_`. -/
def CRCImpl.scrambleRotate : Nat :=
  (crc.degree >>> 1) + 1

/-- What `Scramble` rotates. `CRC32` adds in 64 bits. -/
def CRCImpl.scrambleSum (crc : CRCImpl) (v : LoHi) : Nat :=
  match crc.cls with
  | .crc32 => (v.lo + kScrambleLo) % 2 ^ 64 % 2 ^ 32
  | .crc64 => (v.lo + kScrambleLo) % 2 ^ 64
  | .crc128 => (makeUint128 v.hi v.lo + kScramble) % 2 ^ 128

/-- `Scramble(lo, hi)`. -/
def CRCImpl.scramble (v : LoHi) : Option LoHi := do
  let out ← rotateRight crc.cls.bits (crc.scrambleSum v) crc.degree crc.scrambleRotate
  return crc.writeBack v (out &&& (← maskOfLength crc.cls.bits crc.degree))

/-- What `Unscramble` subtracts from. `CRC32` subtracts in 64 bits. -/
def CRCImpl.unscrambleDifference (crc : CRCImpl) (rotated : Nat) : Nat :=
  match crc.cls with
  | .crc128 => (rotated + (2 ^ 128 - kScramble)) % 2 ^ 128
  | _ => (rotated + (2 ^ 64 - kScrambleLo)) % 2 ^ 64

/-- `Unscramble(lo, hi)`. Only `CRC128` does without a mask for the largest degree. -/
def CRCImpl.unscramble (v : LoHi) : Option LoHi := do
  let rotated ←
    rotateRight crc.cls.bits (crc.register v) crc.degree (crc.degree - crc.scrambleRotate)
  let out := crc.unscrambleDifference rotated
  if crc.cls = .crc128 ∧ ¬crc.degree < 128 then return crc.writeBack v out
  else return crc.writeBack v (out &&& (← maskOfLength crc.cls.bits crc.degree))

variable {crc} {bits len d m n x x' y y' c : Nat}

/-- A mask of any length up to the size of the type. -/
theorem maskOfLength_eq (hpos : 0 < len) (hle : len ≤ bits) :
    maskOfLength bits len = some (2 ^ len - 1) := by
  have hshift : 2 <<< (len - 1) = 2 ^ len := by
    rw [shiftLeft_eq, ← Nat.pow_succ', succ_eq_add_one, Nat.sub_add_cancel hpos]
  have hlen : 0 < 2 ^ len := Nat.two_pow_pos len
  rw [maskOfLength, bind_eq_bind, guard_bind ⟨hpos, hle⟩, hshift]
  refine congrArg some ?_
  obtain rfl | hlt := Nat.eq_or_lt_of_le hle
  · rw [mod_self, Nat.zero_add, mod_eq_of_lt (by omega)]
  · have hpow := Nat.pow_lt_pow_right one_lt_two hlt
    rw [mod_eq_of_lt hpow, show 2 ^ len + (2 ^ bits - 1) = 2 ^ len - 1 + 2 ^ bits by omega,
      add_mod_right, mod_eq_of_lt (by omega)]

/-- The low `m` bits of `x` are above the low `n` bits of `y`, which are above them in `x`. -/
def Swapped (m n x y : Nat) : Prop :=
  x % 2 ^ m = y / 2 ^ n % 2 ^ m ∧ x / 2 ^ m % 2 ^ n = y % 2 ^ n

theorem Swapped.symm (h : Swapped m n x y) : Swapped n m y x :=
  ⟨h.2.symm, h.1.symm⟩

/-- Numbers agree up to a bit if they do up to an earlier one and from there on. -/
theorem modEq_iff_parts : x ≡ y [MOD 2 ^ (m + n)] ↔
    x % 2 ^ m = y % 2 ^ m ∧ x / 2 ^ m % 2 ^ n = y / 2 ^ m % 2 ^ n := by
  rw [ModEq, Nat.pow_add]
  refine ⟨fun h => ⟨ModEq.of_mul_right _ h, ?_⟩, fun h => ?_⟩
  · rw [← mod_mul_right_div_self, h, mod_mul_right_div_self]
  · rw [mod_mul, mod_mul, h.1, h.2]

/-- What is exchanged is determined up to the bits of the degree. -/
theorem Swapped.unique (h : Swapped m n x y) (h' : Swapped m n x' y) : x ≡ x' [MOD 2 ^ (m + n)] :=
  modEq_iff_parts.mpr ⟨h.1.trans h'.1.symm, h.2.trans h'.2.symm⟩

/-- `RotateRight` exchanges the two parts, and other bits do not count. -/
theorem rotateRight_swapped (hm : 0 < m) (hn : 0 < n) (hd : m + n = d) (hle : d ≤ bits)
    (hx : x ≡ x' [MOD 2 ^ d]) :
    ∃ y, rotateRight bits x d m = some y ∧ ∀ y', y ≡ y' [MOD 2 ^ d] → Swapped m n x' y' := by
  subst hd
  have hlow : x / 2 ^ m % 2 ^ n < 2 ^ n := mod_lt _ (Nat.two_pow_pos n)
  have hbits : 2 ^ bits = 2 ^ n * 2 ^ (bits - n) := by
    rw [← Nat.pow_add, Nat.add_sub_cancel' (by omega)]
  refine ⟨2 ^ n * (x % 2 ^ (bits - n)) + x / 2 ^ m % 2 ^ n, ?_, fun y' hy => ?_⟩
  · rw [rotateRight, bind_eq_bind, guard_bind ⟨by omega, by omega, by omega⟩,
      Nat.add_sub_cancel_left,
      maskOfLength_eq hn (by omega), bind_eq_bind, bind_some, and_two_pow_sub_one_eq_mod,
      shiftRight_eq_div_pow,
      shiftLeft_eq, Nat.mul_comm, hbits, mul_mod_mul_left, ← two_pow_add_eq_or_of_lt hlow]
    rfl
  · rw [Nat.add_comm] at hy
    obtain ⟨hxlow, hxhigh⟩ := modEq_iff_parts.mp hx
    obtain ⟨hylow, hyhigh⟩ := modEq_iff_parts.mp hy
    rw [mul_add_mod, mod_eq_of_lt hlow] at hylow
    rw [mul_add_div (Nat.two_pow_pos n), div_eq_of_lt hlow, Nat.add_zero,
      mod_mod_of_dvd _ (pow_dvd_pow 2 (by omega))] at hyhigh
    exact ⟨hxlow.symm.trans hyhigh, hxhigh.symm.trans hylow⟩

variable (crc) in
/-- The low half of the constant is enough for the narrow classes. -/
theorem scrambleSum_modEq (c : Nat) :
    crc.scrambleSum (ofCrc c) ≡ c + kScramble [MOD 2 ^ crc.cls.bits] := by
  rw [scrambleSum]
  cases crc.cls with
  | crc128 =>
    rw [makeUint128_ofCrc]
    exact mod_modEq _ _
  | _ =>
    simp only [SoftwareClass.bits, ofCrc, kScramble, makeUint128, uint128Low64, ModEq]
    omega

variable (crc) in
/-- The difference takes the constant back, up to the bits of the class. -/
theorem unscrambleDifference_modEq (y : Nat) :
    crc.unscrambleDifference y + kScramble ≡ y [MOD 2 ^ crc.cls.bits] := by
  have hlo : kScrambleLo < 2 ^ 64 := by decide
  have hlt : kScramble < 2 ^ 128 := by decide
  rw [unscrambleDifference]
  cases crc.cls with
  | crc128 =>
    simp only [SoftwareClass.bits, ModEq]
    omega
  | _ =>
    simp only [SoftwareClass.bits, kScramble, makeUint128, ModEq]
    omega

section

variable (hge : 8 ≤ crc.degree) (hle : crc.degree ≤ crc.cls.bits) (hc : c < 2 ^ crc.degree)
include hge hle hc

omit hge in
theorem writeBack_mod (x : Nat) :
    crc.writeBack (ofCrc c) (x % 2 ^ crc.degree) = ofCrc (x % 2 ^ crc.degree) := by
  have hbits : 2 ^ crc.degree ≤ 2 ^ crc.cls.bits := Nat.pow_le_pow_right two_pos hle
  exact writeBack_ofCrc (hc.trans_le hbits) ((mod_lt _ (Nat.two_pow_pos _)).trans_le hbits)

/-- `Scramble` exchanges the two parts of the sum. -/
theorem scramble_spec (hd : crc.scrambleRotate + n = crc.degree) : ∃ s < 2 ^ crc.degree,
    crc.scramble (ofCrc c) = some (ofCrc s) ∧ Swapped crc.scrambleRotate n (c + kScramble) s := by
  have hr : crc.scrambleRotate = crc.degree / 2 + 1 := by rw [scrambleRotate, shiftRight_one]
  have hsum := (scrambleSum_modEq crc c).of_dvd (pow_dvd_pow 2 hle)
  obtain ⟨y, hrun, hy⟩ := rotateRight_swapped (by omega) (by omega) hd hle hsum
  refine ⟨y % 2 ^ crc.degree, mod_lt _ (Nat.two_pow_pos _), ?_, hy _ (mod_modEq _ _).symm⟩
  rw [scramble, hrun, bind_eq_bind, bind_some, maskOfLength_eq (by omega) hle, bind_some,
    and_two_pow_sub_one_eq_mod, writeBack_mod hle hc]
  rfl

/-- `Unscramble` exchanges the two parts before it subtracts. -/
theorem unscramble_spec (hd : crc.scrambleRotate + n = crc.degree) : ∃ u < 2 ^ crc.degree,
    crc.unscramble (ofCrc c) = some (ofCrc u) ∧ Swapped n crc.scrambleRotate c (u + kScramble) := by
  have hr : crc.scrambleRotate = crc.degree / 2 + 1 := by rw [scrambleRotate, shiftRight_one]
  have hbits : 2 ^ crc.degree ≤ 2 ^ crc.cls.bits := Nat.pow_le_pow_right two_pos hle
  obtain ⟨y, hrun, hy⟩ :=
    rotateRight_swapped (by omega) (by omega) ((Nat.add_comm _ _).trans hd) hle (ModEq.refl c)
  have hdiff := (unscrambleDifference_modEq crc y).of_dvd (pow_dvd_pow 2 hle)
  refine ⟨crc.unscrambleDifference y % 2 ^ crc.degree, mod_lt _ (Nat.two_pow_pos _), ?_,
    hy _ (((mod_modEq _ _).add_right _).trans hdiff).symm⟩
  rw [unscramble, register_ofCrc (hc.trans_le hbits), Nat.sub_eq_of_eq_add' hd.symm, hrun,
    bind_eq_bind, bind_some]
  dsimp only
  split
  next hwide =>
    -- without a mask, the subtraction wraps around at the degree itself
    have hlt : crc.unscrambleDifference y < 2 ^ crc.degree := by
      rw [hwide.1] at hle
      rw [show crc.degree = 128 from le_antisymm hle (not_lt.mp hwide.2), unscrambleDifference,
        hwide.1]
      exact mod_lt _ (Nat.two_pow_pos 128)
    have hback := writeBack_mod hle hc (crc.unscrambleDifference y)
    rw [mod_eq_of_lt hlt] at hback ⊢
    rw [hback]
    rfl
  next =>
    rw [maskOfLength_eq (by omega) hle, bind_some, and_two_pow_sub_one_eq_mod,
      writeBack_mod hle hc]
    rfl

end

/-- `Scramble` is a bijection of the values of a CRC, and `Unscramble` is its inverse. -/
theorem scramble_unscramble (hge : 8 ≤ crc.degree) (hle : crc.degree ≤ crc.cls.bits)
    (hc : c < 2 ^ crc.degree) :
    (∃ s < 2 ^ crc.degree, crc.scramble (ofCrc c) = some (ofCrc s) ∧
        crc.unscramble (ofCrc s) = some (ofCrc c)) ∧
      ∃ u < 2 ^ crc.degree, crc.unscramble (ofCrc c) = some (ofCrc u) ∧
        crc.scramble (ofCrc u) = some (ofCrc c) := by
  obtain ⟨n, hd⟩ : ∃ n, crc.scrambleRotate + n = crc.degree := by
    refine ⟨crc.degree - crc.scrambleRotate, ?_⟩
    rw [scrambleRotate, shiftRight_one]
    omega
  constructor
  · obtain ⟨s, hs, hrun, hswap⟩ := scramble_spec hge hle hc hd
    obtain ⟨u, hu, hrun', hswap'⟩ := unscramble_spec hge hle hs hd
    have hmod := hswap'.symm.unique hswap
    rw [hd] at hmod
    exact ⟨s, hs, hrun, (hmod.add_right_cancel' _).eq_of_lt_of_lt hu hc ▸ hrun'⟩
  · obtain ⟨u, hu, hrun, hswap⟩ := unscramble_spec hge hle hc hd
    obtain ⟨s, hs, hrun', hswap'⟩ := scramble_spec hge hle hu hd
    have hmod := hswap'.symm.unique hswap
    rw [Nat.add_comm, hd] at hmod
    exact ⟨u, hu, hrun, hmod.eq_of_lt_of_lt hs hc ▸ hrun'⟩

/-- A `CRC128` of the largest degree, for which `Unscramble` has no mask. -/
def largestDegree : CRCImpl :=
  ⟨.crc128, 0, 128, 0x87, [], [], [], []⟩

/-- All ones, at the largest degree. -/
theorem scramble_unscramble_largestDegree :
    ∃ s < 2 ^ 128, largestDegree.scramble (ofCrc (2 ^ 128 - 1)) = some (ofCrc s) ∧
      largestDegree.unscramble (ofCrc s) = some (ofCrc (2 ^ 128 - 1)) :=
  (@scramble_unscramble largestDegree (2 ^ 128 - 1) (by decide) (by decide) (by decide)).1

end Gloop.Hash.Crc

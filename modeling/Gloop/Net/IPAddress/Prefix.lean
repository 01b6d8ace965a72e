import Gloop.Foundation.AlignedBlocks
import Gloop.Foundation.Word
import Gloop.Net.IPAddress.Model

/-!
# Prefixes as aligned blocks

An address without a scope is a number below `2 ^ w`, where `w` is 32 or 128. The operations on
addresses and ranges are arithmetic on these numbers, for both widths alike, and a range without
host bits is an aligned block of `2 ^ (w - length)` of them. `NthAddressInRange` and `IndexInRange`
translate between the addresses of a range and their distance from its first address, and
`IPAddressPlusN` moves an address by a signed distance. An address with a scope may be in a range,
but it has no index of its own (`indexInRange_drops_scope`).
-/

namespace Gloop.Net

section

open Gloop.Foundation BitVec Nat IPRange

/-! ## Masks -/

section Masks

variable {w : Nat}

theorem toNat_truncateBits (a : BitVec w) (len : Nat) :
    (truncateBits a len).toNat = a.toNat / 2 ^ (w - len) * 2 ^ (w - len) := by
  rw [truncateBits, and_allOnes_shiftLeft, toNat_shiftLeft, toNat_ushiftRight,
    shiftRight_eq_div_pow, Nat.shiftLeft_eq]
  exact mod_eq_of_lt (lt_of_le_of_lt (div_mul_le_self _ _) a.isLt)

theorem toNat_mask (w len : Nat) : (~~~(~~~0#w <<< (w - len))).toNat = 2 ^ (w - len) - 1 := by
  refine eq_of_testBit_eq fun i => ?_
  rw [testBit_toNat]
  by_cases hlow : i < w - len
  · have hi : i < w := lt_of_lt_of_le hlow (sub_le w len)
    simp [hi]
  · simp [hlow]
    omega

/-- Filling goes to the end of the block. -/
theorem toNat_fillBits (a : BitVec w) {len : Nat} (haligned : 2 ^ (w - len) ∣ a.toNat) :
    (fillBits a len).toNat = a.toNat + (2 ^ (w - len) - 1) := by
  obtain ⟨q, hq⟩ := haligned
  rw [fillBits, toNat_or, toNat_mask, hq]
  exact (two_pow_add_eq_or_of_lt (sub_lt (Nat.two_pow_pos _) Nat.one_pos) q).symm

theorem fillBits_zero (a : BitVec w) : fillBits a 0 = ~~~0 := by
  simp [fillBits]

/-- A sum of an address and an integer wraps around. -/
theorem toNat_add_ofInt (a : BitVec w) (i : Int) :
    (a + BitVec.ofInt w i).toNat = ((a.toNat + i) % (2 ^ w : Nat)).toNat := by
  rw [← BitVec.toNat_ofInt, BitVec.ofInt_add, BitVec.ofInt_natCast, ofNat_toNat, setWidth_eq]

end Masks

/-! ## Addresses as numbers -/

/-- The address without a scope that is the number `n` of `w` bits. -/
inductive IsAddress : Nat → Nat → IPAddress → Prop
  | ipv4 (a : BitVec 32) : IsAddress 32 a.toNat (.ipv4 a)
  | ipv6 (a : BitVec 128) : IsAddress 128 a.toNat (.ipv6 a false)

theorem makeIPAddressWithOptionalScopeId_zero (a : BitVec 128) :
    makeIPAddressWithOptionalScopeId a 0 = .ipv6 a false := by
  simp [makeIPAddressWithOptionalScopeId, makeIPAddressWithScopeId, ofIpv6]

/-- How a family makes its addresses without a scope from their numbers. -/
inductive Family : (w : Nat) → (BitVec w → IPAddress) → Prop
  | ipv4 : Family 32 .ipv4
  | ipv6 : Family 128 (.ipv6 · false)

namespace Family

variable {w len : Nat} {make : BitVec w → IPAddress} (h : Family w make) (a : BitVec w)
include h

theorem isAddress : IsAddress w a.toNat (make a) := by
  cases h with
  | ipv4 => exact .ipv4 a
  | ipv6 => exact .ipv6 a

omit a in
theorem isAddress_ofNat {n : Nat} (hn : n < 2 ^ w) : IsAddress w n (make (BitVec.ofNat w n)) := by
  have hy := h.isAddress (BitVec.ofNat w n)
  rwa [toNat_ofNat, mod_eq_of_lt hn] at hy

/-- A range has its host truncated. -/
theorem new (hlen : len ≤ w) : new (make a) len = some ⟨make (truncateBits a len), len⟩ := by
  rcases hlen.eq_or_lt with rfl | hlt
  · have hself : truncateBits a len = a := by simp [truncateBits]
    rw [hself]
    cases h <;> rfl
  rcases Nat.eq_zero_or_pos len with rfl | hpos
  · cases h <;> simp [new, truncateIPAndLength, truncateBits, hostUInt32ToIPAddress, ofIpv6]
  · cases h with
    | ipv4 =>
      rw [new, truncateIPAndLength, if_neg (by omega), if_pos (by omega)]
      rfl
    | ipv6 =>
      rw [new, truncateIPAndLength, if_neg (by omega), if_pos (by omega)]
      exact congrArg (fun y => some (mk y len)) (makeIPAddressWithOptionalScopeId_zero _)

/-- The last address of a range. -/
theorem broadcastAddress : (mk (make a) len).broadcastAddress = some (make (fillBits a len)) := by
  rcases Nat.eq_zero_or_pos len with rfl | hpos
  · rw [fillBits_zero]
    cases h <;> rfl
  · have hlen : (len : Int) ≠ 0 := by omega
    cases h with
    | ipv4 => exact if_neg hlen
    | ipv6 => exact (if_neg hlen).trans (congrArg some (makeIPAddressWithOptionalScopeId_zero _))

/-- `IPAddressPlusN` tells whether the sum has wrapped around. -/
theorem plusN {i : Int} (hint : -2 ^ 127 ≤ i ∧ i < 2 ^ 127) (result : IPAddress) :
    ipAddressPlusN (make a) i result = some (if i = 0 then (true, make a)
      else if -2 ^ w < i ∧ i < 2 ^ w then
        (decide (i > 0) == (make a).less (make (a + BitVec.ofInt w i)), make (a + BitVec.ofInt w i))
      else (false, result)) := by
  unfold ipAddressPlusN
  by_cases hzero : i = 0
  · rw [if_pos hzero, if_pos hzero]
  rw [if_neg hzero, if_neg hzero]
  cases h with
  | ipv4 =>
    by_cases hnear : -2 ^ 32 < i ∧ i < 2 ^ 32
    · rw [if_pos hnear]
      exact if_neg (by omega)
    · rw [if_neg hnear]
      exact if_pos (by omega)
  | ipv6 =>
    rw [if_pos (by omega)]
    simp only [IPAddress.scopeId, ipv6Address, makeIPAddressWithOptionalScopeId_zero,
      Bool.false_eq_true, if_false]

end Family

namespace IsAddress

variable {w n k : Nat} {x y : IPAddress} (h : IsAddress w n x)
include h

theorem lt : n < 2 ^ w := by
  cases h with
  | ipv4 a => exact a.isLt
  | ipv6 a => exact a.isLt

theorem width_le : w ≤ 128 := by
  cases h <;> decide

theorem hasScope : x.hasScope = false := by
  cases h <;> rfl

theorem ipAddressLength : ipAddressLength x = some w := by
  cases h <;> rfl

theorem addressFamily_ne : x.addressFamily ≠ .unspec := by
  cases h <;> exact nofun

/-- A number of an address is one of its family. -/
theorem exists_family : ∃ make, Family w make ∧ ∃ a : BitVec w, a.toNat = n ∧ make a = x := by
  cases h with
  | ipv4 a => exact ⟨_, .ipv4, a, rfl, rfl⟩
  | ipv6 a => exact ⟨_, .ipv6, a, rfl, rfl⟩

/-- All numbers below `2 ^ w` are addresses of that family. -/
theorem exists_of_lt (hk : k < 2 ^ w) : ∃ y, IsAddress w k y := by
  obtain ⟨make, hmake, -⟩ := h.exists_family
  exact ⟨_, hmake.isAddress_ofNat hk⟩

omit h in
/-- Addresses of one family are equal if their numbers are. -/
theorem eq_iff (hx : IsAddress w n x) (hy : IsAddress w k y) : x = y ↔ n = k := by
  cases hx with
  | ipv4 a =>
    cases hy with
    | ipv4 b => rw [IPAddress.ipv4.injEq, toNat_inj]
  | ipv6 a =>
    cases hy with
    | ipv6 b => rw [IPAddress.ipv6.injEq, toNat_inj, and_iff_left rfl]

omit h in
/-- Addresses of one family are ordered by their numbers. -/
theorem less_iff (hx : IsAddress w n x) (hy : IsAddress w k y) : x.less y ↔ n < k := by
  cases hx with
  | ipv4 a =>
    cases hy with
    | ipv4 b => simp [IPAddress.less, IPAddress.threeWayCompare, compare_lt_iff_lt]
  | ipv6 a =>
    cases hy with
    | ipv6 b =>
      simp only [IPAddress.less, IPAddress.threeWayCompare]
      by_cases hab : a = b
      · simp [hab]
      · simp [hab]

omit h in
/-- An address without a scope that is not outside of an interval is of the same family. -/
theorem of_between {first last : IPAddress} (hfirst : IsAddress w n first)
    (hlast : IsAddress w k last)
    (hscope : x.hasScope = false) (hge : ¬ x.less first) (hle : ¬ last.less x) : ∃ i,
      IsAddress w i x := by
  cases hfirst with
  | ipv4 a =>
    cases hlast with
    | ipv4 b =>
      cases x with
      | uninitialized => exact absurd rfl hge
      | ipv4 c => exact ⟨_, .ipv4 c⟩
      | ipv6 c scope => exact absurd rfl hle
  | ipv6 a =>
    cases hlast with
    | ipv6 b =>
      cases x with
      | uninitialized => exact absurd rfl hge
      | ipv4 c => exact absurd rfl hge
      | ipv6 c scope =>
        cases scope with
        | false => exact ⟨_, .ipv6 c⟩
        | true => cases hscope

/-! ## Ranges -/

/-- The range of a single address. -/
theorem ofAddress : ofAddress x = some ⟨x, w⟩ := by
  cases h <;> rfl

/-- A range that is made from an address starts at a multiple of its size. -/
theorem new {len : Nat} (hlen : len ≤ w) :
    ∃ y, new x len = some ⟨y, len⟩ ∧ IsAddress w (n / 2 ^ (w - len) * 2 ^ (w - len)) y := by
  obtain ⟨make, hmake, a, rfl, rfl⟩ := h.exists_family
  rw [← toNat_truncateBits]
  exact ⟨_, hmake.new a hlen, hmake.isAddress _⟩

/-- The last address of a range that starts at a multiple of its size. -/
theorem broadcastAddress {len : Nat} (haligned : 2 ^ (w - len) ∣ n) :
    ∃ y, (mk x len).broadcastAddress = some y ∧ IsAddress w (n + (2 ^ (w - len) - 1)) y := by
  obtain ⟨make, hmake, a, rfl, rfl⟩ := h.exists_family
  rw [← toNat_fillBits a haligned]
  exact ⟨_, hmake.broadcastAddress a, hmake.isAddress _⟩

/-- The address that is `i` numbers away, or that there is none. -/
theorem plusN {i : Int} (hint : -2 ^ 127 ≤ i ∧ i < 2 ^ 127) (result : IPAddress) :
    ∃ y, ipAddressPlusN x i result = some (decide (0 ≤ n + i ∧ n + i < 2 ^ w), y) ∧
      (0 ≤ n + i ∧ n + i < 2 ^ w → IsAddress w (n + i).toNat y) := by
  have hlt := h.lt
  obtain ⟨make, hmake, a, rfl, rfl⟩ := h.exists_family
  have hpow : ((2 ^ w : Nat) : Int) = 2 ^ w := Int.natCast_pow 2 w
  rw [hmake.plusN a hint]
  split_ifs with hzero hnear
  · refine ⟨_, by rw [decide_eq_true (by omega)], fun _ => ?_⟩
    rwa [hzero, Int.add_zero, Int.toNat_natCast]
  · have hy := hmake.isAddress (a + BitVec.ofInt w i)
    rw [toNat_add_ofInt] at hy
    refine ⟨make (a + BitVec.ofInt w i), ?_, fun hin => ?_⟩
    · have hkept : (decide (i > 0) == (make a).less (make (a + BitVec.ofInt w i))) = true ↔
          0 ≤ a.toNat + i ∧ a.toNat + i < 2 ^ w := by
        rw [beq_iff_eq, Bool.eq_iff_iff, decide_eq_true_iff, h.less_iff hy]
        -- a sum that leaves the space comes back on the other side of the address
        by_cases hlow : 0 ≤ a.toNat + i
        · by_cases hhigh : a.toNat + i < 2 ^ w
          · rw [Int.emod_eq_of_lt hlow (by omega)]
            omega
          · rw [← Int.sub_emod_right, Int.emod_eq_of_lt (by omega) (by omega)]
            omega
        · rw [← Int.add_emod_right, Int.emod_eq_of_lt (by omega) (by omega)]
          omega
      rw [Bool.eq_iff_iff.mpr (hkept.trans decide_eq_true_iff.symm)]
    · rwa [Int.emod_eq_of_lt hin.1 (by omega)] at hy
  · exact ⟨_, by rw [decide_eq_false (by omega)], fun hin => by omega⟩

/-- The next address, or that there is none. -/
theorem plusOne (result : IPAddress) :
    ∃ y, ipAddressPlusN x 1 result = some (decide (n + 1 < 2 ^ w), y) ∧
      (n + 1 < 2 ^ w → IsAddress w (n + 1) y) := by
  obtain ⟨y, hplus, hy⟩ := h.plusN (i := 1) (by decide) result
  have hiff : (0 ≤ (n : Int) + 1 ∧ (n : Int) + 1 < 2 ^ w) ↔ n + 1 < 2 ^ w := by
    have hpow : ((2 ^ w : Nat) : Int) = 2 ^ w := Int.natCast_pow 2 w
    omega
  rw [hiff] at hy
  rw [decide_eq_decide.mpr hiff] at hplus
  exact ⟨y, hplus, hy⟩

end IsAddress

/-! ## Prefixes -/

/-- The range is the block of addresses: its host is the first one, and the rest of the bits
count. -/
structure IsPrefix (w : Nat) (B : Block) (r : IPRange) : Prop where
  exp_le : B.exp ≤ w
  host : IsAddress w B.start r.host
  length : r.length = (w - B.exp : Nat)

namespace IsPrefix

variable {w : Nat} {B : Block} {r : IPRange} (h : IsPrefix w B r)
include h

theorem eq_mk : r = ⟨r.host, (w - B.exp : Nat)⟩ := by
  rw [← h.length]

/-- The last address of the range is the last number of the block. -/
theorem broadcastAddress : ∃ y, r.broadcastAddress = some y ∧ IsAddress w (B.stop - 1) y := by
  have hexp : w - (w - B.exp) = B.exp := Nat.sub_sub_self h.exp_le
  have haligned : 2 ^ (w - (w - B.exp)) ∣ B.start := by
    rw [hexp]
    exact B.aligned
  obtain ⟨y, hbroadcast, hy⟩ := h.host.broadcastAddress haligned
  rw [hexp, ← Nat.add_sub_assoc (Nat.two_pow_pos _)] at hy
  rw [h.eq_mk]
  exact ⟨y, hbroadcast, hy⟩

theorem stop_le : B.stop ≤ 2 ^ w := by
  obtain ⟨y, -, hy⟩ := h.broadcastAddress
  have hlt := hy.lt
  omega

/-- A range made from the host and the length of a prefix is the same. -/
theorem new : new r.host r.length = some r := by
  rw [h.length]
  obtain ⟨y, hnew, hy⟩ := h.host.new (sub_le w B.exp)
  rw [Nat.sub_sub_self h.exp_le, Nat.div_mul_cancel B.aligned] at hy
  rw [hnew, (hy.eq_iff h.host).mpr rfl, ← h.length]

end IsPrefix

/-- A range of addresses without a scope that has no host bits. -/
def IPRange.Canonical (r : IPRange) : Prop :=
  r.host.hasScope = false ∧ r.host.addressFamily ≠ .unspec ∧ 0 ≤ r.length ∧
    new r.host r.length = some r

/-- The address is not before the first address of the range and not behind the last one. -/
def IPRange.Contains (r : IPRange) (x : IPAddress) : Prop :=
  ∃ broadcast, r.broadcastAddress = some broadcast ∧ ¬ x.less r.host ∧ ¬ broadcast.less x

variable {x : IPAddress}

/-- An address with a family and without a scope has a number. -/
theorem exists_isAddress (hscope : x.hasScope = false) (hfamily : x.addressFamily ≠ .unspec) :
    ∃ w n, IsAddress w n x := by
  cases x with
  | uninitialized => exact absurd rfl hfamily
  | ipv4 a => exact ⟨32, _, .ipv4 a⟩
  | ipv6 a scope =>
    cases scope with
    | false => exact ⟨128, _, .ipv6 a⟩
    | true => cases hscope

variable {r : IPRange}

/-- A canonical range is that of a block. -/
theorem IPRange.Canonical.exists_isPrefix (h : r.Canonical) : ∃ w B, IsPrefix w B r := by
  obtain ⟨host, length⟩ := r
  obtain ⟨hscope, hfamily, hlength, hnew⟩ := h
  obtain ⟨w, n, hn⟩ := exists_isAddress hscope hfamily
  obtain ⟨len, rfl⟩ := Int.eq_ofNat_of_zero_le hlength
  refine ⟨w, ?_⟩
  by_cases hlen : len ≤ w
  · obtain ⟨y, hnew', hy⟩ := hn.new hlen
    cases hnew.symm.trans hnew'
    have heq := (hn.eq_iff hy).mp rfl
    refine ⟨⟨n, w - len, Dvd.intro_left _ heq.symm⟩, sub_le w len, hn, ?_⟩
    rw [Nat.sub_sub_self hlen]
  · have hlong : new host len = some ⟨host, w⟩ := by
      cases hn with
      | ipv4 a => exact congrArg _ (if_pos (by omega))
      | ipv6 a => exact congrArg _ (if_pos (by omega))
    have heq := Option.some.inj (hnew.symm.trans hlong)
    exact ⟨⟨n, 0, one_dvd n⟩, zero_le w, hn, congrArg length heq⟩

/-- The range of a block is canonical. -/
theorem IsPrefix.canonical {w : Nat} {B : Block} (h : IsPrefix w B r) : r.Canonical :=
  ⟨h.host.hasScope, h.host.addressFamily_ne, h.length ▸ Int.natCast_nonneg _, h.new⟩

/-- A range has the addresses of its block. -/
theorem IsPrefix.contains_iff {w n : Nat} {B : Block} (h : IsPrefix w B r)
    (hx : IsAddress w n x) : r.Contains x ↔ B.Contains n := by
  obtain ⟨y, hbroadcast, hy⟩ := h.broadcastAddress
  have hlt := B.start_lt_stop
  rw [IPRange.Contains, hbroadcast, Block.Contains]
  simp only [Option.some.injEq, exists_eq_left', hx.less_iff h.host, hy.less_iff hx]
  omega

/-- Families are told apart by their widths. -/
theorem addressFamily_eq_iff {w w' n k : Nat} {x y : IPAddress} (hx : IsAddress w n x)
    (hy : IsAddress w' k y) : x.addressFamily = y.addressFamily ↔ w = w' := by
  cases hx <;> cases hy <;> simp [IPAddress.addressFamily]

/-- `IsWithinSubnet` tells whether the number is in the block. -/
theorem IsPrefix.isWithinSubnet {w w' n : Nat} {B : Block} (h : IsPrefix w B r)
    (hx : IsAddress w' n x) : isWithinSubnet r x = some (decide (w = w' ∧ B.Contains n)) := by
  rw [Net.isWithinSubnet]
  by_cases hw : w = w'
  · subst hw
    obtain ⟨y, hnew, hy⟩ := hx.new (sub_le w B.exp)
    rw [Nat.sub_sub_self h.exp_le] at hy
    rw [if_pos ((addressFamily_eq_iff h.host hx).mpr rfl), h.length, hnew]
    -- the truncated address is the start of the block
    refine congrArg some (decide_eq_decide.mpr ?_)
    rw [h.eq_mk, mk.injEq, and_iff_left rfl, and_iff_right rfl, h.host.eq_iff hy,
      B.contains_iff_div]
    constructor
    · intro hstart
      rw [hstart, Nat.mul_div_cancel _ (Nat.two_pow_pos _)]
    · intro hdiv
      rw [hdiv, Nat.div_mul_cancel B.aligned]
  · rw [if_neg fun hfamily => hw ((addressFamily_eq_iff h.host hx).mp hfamily),
      decide_eq_false fun hin => hw hin.1]

/-- Only addresses of its family are in a range. -/
theorem IsPrefix.isAddress {w : Nat} {B : Block} (h : IsPrefix w B r) (hscope : x.hasScope = false)
    (hx : r.Contains x) : ∃ n, IsAddress w n x := by
  obtain ⟨y, hbroadcast, hge, hle⟩ := hx
  obtain ⟨y', hbroadcast', hy⟩ := h.broadcastAddress
  cases hbroadcast.symm.trans hbroadcast'
  exact h.host.of_between hy hscope hge hle

end

/-! ## Indices of addresses -/

open Gloop.Foundation BitVec Nat

section

variable {w : Nat} {make : BitVec w → IPAddress} {r : IPRange} {i : BitVec 128}

/-- `NthAddressInRange` adds the index. -/
theorem Family.nth (h : Family w make) {a : BitVec w} (hhost : r.host = make a)
    (hvalid : isRangeIndexValid r i = some true) :
      nthAddressInRange r i = some (make (a + i.setWidth w)) := by
  rw [nthAddressInRange, hvalid, Option.bind_eq_bind, Option.bind_some, Option.bind_eq_bind,
    guard_bind rfl, hhost]
  cases h with
  | ipv4 =>
    refine congrArg (some ∘ IPAddress.ipv4) (eq_of_toNat_eq ?_)
    simp only [toNat_setWidth, toNat_add]
    omega
  | ipv6 => exact congrArg some (by rw [setWidth_eq]; exact makeIPAddressWithOptionalScopeId_zero _)

/-- `IndexInRange` subtracts the host. -/
theorem Family.index (h : Family w make) {a b : BitVec w} (hhost : r.host = make a)
    (hin : isWithinSubnet r (make b) = some true) :
      indexInRange r (make b) = some ((b - a).setWidth 128) := by
  unfold indexInRange
  rw [hin, Option.bind_eq_bind, Option.bind_some, Option.bind_eq_bind, guard_bind rfl, hhost]
  cases h with
  | ipv4 => rfl
  | ipv6 => exact congrArg some (setWidth_eq _).symm

variable {B : Block} (h : IsPrefix w B r)
include h

/-- An index is valid if it is below the size of the block. -/
theorem IsPrefix.isRangeIndexValid (i : BitVec 128) :
    isRangeIndexValid r i = some (decide (i.toNat < 2 ^ B.exp)) := by
  have hexp := h.exp_le
  have hwidth := h.host.width_le
  have hbits : (w : Int) - r.length = B.exp := by
    rw [h.length]
    omega
  rw [Net.isRangeIndexValid, h.host.ipAddressLength, Option.bind_eq_bind, Option.bind_some, hbits]
  by_cases hall : B.exp = 128
  · rw [hall]
    exact congrArg some (decide_eq_true i.isLt).symm
  · rw [if_neg (by omega), Option.bind_eq_bind, guard_bind (by omega)]
    refine congrArg some (decide_eq_decide.mpr ?_)
    rw [← toNat_inj, toNat_ushiftRight, shiftRight_eq_div_pow, Int.toNat_natCast]
    exact Nat.div_eq_zero_iff_lt (Nat.two_pow_pos _)

/-- The address of a valid index is that many numbers behind the start. -/
theorem IsPrefix.nth (hi : i.toNat < 2 ^ B.exp) :
    ∃ x, nthAddressInRange r i = some x ∧ IsAddress w (B.start + i.toNat) x := by
  obtain ⟨make, hmake, a, ha, hhost⟩ := h.host.exists_family
  have hstop := h.stop_le
  rw [Block.stop] at hstop
  refine ⟨_, hmake.nth hhost.symm (by rw [h.isRangeIndexValid, decide_eq_true hi]), ?_⟩
  have hx := hmake.isAddress (a + i.setWidth w)
  rwa [toNat_add, toNat_setWidth, ha, mod_eq_of_lt (show i.toNat < 2 ^ w by omega),
    mod_eq_of_lt (by omega)] at hx

/-- The index of an address in its block. -/
theorem IsPrefix.index {n : Nat} {x : IPAddress} (hx : IsAddress w n x) (hin : B.Contains n) :
    indexInRange r x = some (BitVec.ofNat 128 (n - B.start)) := by
  obtain ⟨make, hmake, a, ha, hhost⟩ := h.host.exists_family
  obtain rfl := (hx.eq_iff (hmake.isAddress_ofNat hx.lt)).mpr rfl
  have hn := mod_eq_of_lt hx.lt
  have hle : a ≤ BitVec.ofNat w n := by
    rw [le_def, BitVec.toNat_ofNat, hn, ha]
    exact hin.1
  rw [hmake.index hhost.symm (by rw [h.isWithinSubnet hx, decide_eq_true ⟨rfl, hin⟩])]
  refine congrArg some (eq_of_toNat_eq ?_)
  rw [toNat_setWidth, toNat_sub_of_le hle, BitVec.toNat_ofNat, BitVec.toNat_ofNat, hn, ha]

/-- The indices below `size` are those of the addresses without a scope in the range, in their
order. -/
structure IPRange.IsIndexed (r : IPRange) (size : Nat) : Prop where
  valid : ∀ i, isRangeIndexValid r i = some (decide (i.toNat < size))
  nth : ∀ i, i.toNat < size → ∃ x, nthAddressInRange r i = some x ∧ x.hasScope = false ∧
    isWithinSubnet r x = some true ∧ indexInRange r x = some i
  index : ∀ x, x.hasScope = false → isWithinSubnet r x = some true →
    ∃ i, i.toNat < size ∧ indexInRange r x = some i ∧ nthAddressInRange r i = some x
  increasing : ∀ i j x y, i < j → j.toNat < size → nthAddressInRange r i = some x →
    nthAddressInRange r j = some y → x.less y

/-- The addresses of a range are indexed from zero on. -/
theorem IsPrefix.isIndexed : r.IsIndexed (2 ^ B.exp) where
  valid := h.isRangeIndexValid
  nth i hi := by
    obtain ⟨x, hnth, hx⟩ := h.nth hi
    have hin : B.Contains (B.start + i.toNat) := ⟨Nat.le_add_right _ _, Nat.add_lt_add_left hi _⟩
    refine ⟨x, hnth, hx.hasScope, by rw [h.isWithinSubnet hx, decide_eq_true ⟨rfl, hin⟩], ?_⟩
    rw [h.index hx hin, Nat.add_sub_cancel_left, ofNat_toNat, setWidth_eq]
  index x hscope hwithin := by
    have hfamily : x.addressFamily ≠ .unspec := by
      intro hunspec
      rw [Net.isWithinSubnet, hunspec, if_neg h.host.addressFamily_ne] at hwithin
      cases hwithin
    obtain ⟨w', n, hx⟩ := exists_isAddress hscope hfamily
    rw [h.isWithinSubnet hx, Option.some.injEq, decide_eq_true_eq] at hwithin
    obtain ⟨rfl, hin⟩ := hwithin
    have hlt : n - B.start < 2 ^ B.exp := Nat.sub_lt_left_of_lt_add hin.1 hin.2
    have hsmall : (BitVec.ofNat 128 (n - B.start)).toNat = n - B.start :=
      mod_eq_of_lt (hlt.trans_le (Nat.pow_le_pow_right Nat.two_pos
        (h.exp_le.trans h.host.width_le)))
    rw [← hsmall] at hlt
    obtain ⟨y, hnth, hy⟩ := h.nth hlt
    rw [hsmall, Nat.add_sub_cancel' hin.1] at hy
    exact ⟨_, hlt, h.index hx hin, by rw [hnth, (hy.eq_iff hx).mpr rfl]⟩
  increasing i j x y hij hj hi' hj' := by
    obtain ⟨x', hnth, hx⟩ := h.nth (Nat.lt_trans hij hj)
    obtain ⟨y', hnth', hy⟩ := h.nth hj
    cases hi'.symm.trans hnth
    cases hj'.symm.trans hnth'
    exact (hx.less_iff hy).mpr (Nat.add_lt_add_left hij _)

end

/-- The addresses without a scope of a range are indexed by the numbers below its size, and adding a
number to an address succeeds if and only if the sum is an address of the family. -/
theorem nthAddressInRange_and_plusN_spec :
    (∀ r : IPRange, r.Canonical → ∃ w, ipAddressLength r.host = some w ∧
      r.IsIndexed (2 ^ (w - r.length).toNat)) ∧
    ∀ (x : IPAddress) (i : Int) (result : IPAddress), x.hasScope = false →
      x.addressFamily ≠ .unspec → -2 ^ 127 ≤ i ∧ i < 2 ^ 127 → ∃ w n y, IsAddress w n x ∧
        ipAddressPlusN x i result = some (decide (0 ≤ n + i ∧ n + i < 2 ^ w), y) ∧
        (0 ≤ n + i ∧ n + i < 2 ^ w → IsAddress w (n + i).toNat y) := by
  constructor
  · intro r hr
    obtain ⟨w, B, h⟩ := hr.exists_isPrefix
    refine ⟨w, h.host.ipAddressLength, ?_⟩
    have hexp := h.exp_le
    rw [h.length, show ((w : Int) - (w - B.exp : Nat)).toNat = B.exp by omega]
    exact h.isIndexed
  · intro x i result hscope hfamily hint
    obtain ⟨w, n, hx⟩ := exists_isAddress hscope hfamily
    obtain ⟨y, hplus, hy⟩ := hx.plusN hint result
    exact ⟨w, n, y, hx, hplus, hy⟩

/-- `10.0.0.0/8` is indexed, and nothing comes after `255.255.255.255`. -/
theorem nthAddressInRange_and_plusN_ten : (∃ w, ipAddressLength (.ipv4 0x0a000000) = some w ∧
      (IPRange.mk (.ipv4 0x0a000000) 8).IsIndexed (2 ^ ((w : Int) - 8).toNat)) ∧
    ∃ w n y, IsAddress w n (.ipv4 0xffffffff) ∧ ipAddressPlusN (.ipv4 0xffffffff) 1 .uninitialized =
      some (decide (0 ≤ (n : Int) + 1 ∧ (n : Int) + 1 < 2 ^ w), y) := by
  obtain ⟨hrange, hplus⟩ := nthAddressInRange_and_plusN_spec
  obtain ⟨w, n, y, hx, hresult, -⟩ := hplus (.ipv4 0xffffffff) 1 .uninitialized rfl (by decide)
    (by decide)
  exact ⟨hrange ⟨.ipv4 0x0a000000, 8⟩ ⟨rfl, by decide, by decide, by decide⟩, w, n, y, hx, hresult⟩

/-- `fe80::1%1` is within `::/0`, but it is not the address of an index. -/
theorem indexInRange_drops_scope : (IPRange.mk (.ipv6 0 false) 0).Canonical ∧
    isWithinSubnet ⟨.ipv6 0 false, 0⟩ (.ipv6 0xfe800000000000010000000000000001 true) = some true ∧
    ∀ i, nthAddressInRange ⟨.ipv6 0 false, 0⟩ i ≠
      some (.ipv6 0xfe800000000000010000000000000001 true) := by
  refine ⟨⟨rfl, by decide, by decide, by decide⟩, by decide, fun i h => ?_⟩
  rw [Family.ipv6.nth rfl rfl] at h
  cases congrArg (Option.map IPAddress.hasScope) h

end Gloop.Net

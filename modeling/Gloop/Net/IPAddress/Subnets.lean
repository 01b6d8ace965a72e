import Gloop.Net.IPAddress.Prefix

/-!
# `IPAddressIntervalToSubnets` and `SubtractIPRange`

The inner loop of the first finds the largest block that starts at an address and stays in the
interval, so the outer loop makes the greedy list of blocks. It ends after the last address of the
interval, also where there is no next address. The loop of the second goes up from the block of
`sub_range` to that of `range`, and what it pushes are the other halves on the way. Flipping the
last bit of a prefix leads to the other half, and clearing it to the block of twice the size; the
masks move with the length.
-/

namespace Gloop.Net

section

open Gloop.Foundation List Nat

/-- The ranges together are the addresses of the interval. -/
def CoversInterval (ranges : List IPRange) (first last : IPAddress) : Prop :=
  ∀ x : IPAddress, x.hasScope = false → ((∃ r ∈ ranges, r.Contains x) ↔ ¬ x.less first ∧
    ¬ last.less x)

/-- Prefixes in ascending order, without gaps between them, that are the interval, and no fewer
prefixes are. -/
structure IsMinimalCover (first last : IPAddress) (subnets : List IPRange) : Prop where
  canonical : ∀ r ∈ subnets, r.Canonical
  ascending : subnets.IsChain fun r s => r.host.less s.host
  adjacent : subnets.IsChain fun r s => ∃ broadcast, r.broadcastAddress = some broadcast ∧
    ∀ result, ipAddressPlusN broadcast 1 result = some (true, s.host)
  covers : CoversInterval subnets first last
  minimal : ∀ others : List IPRange, (∀ r ∈ others, r.Canonical) →
    CoversInterval others first last → subnets.length ≤ others.length

/-! ## The loops -/

section Loops

variable {w a k n : Nat} {first last cur : IPAddress}

/-- A block that stays below `2 ^ w` has an exponent of at most `w`. -/
theorem exp_le_of_fits {exp : Nat} (hlast : IsAddress w k last) (hfits : Fits n (k + 1) exp) :
    exp ≤ w := by
  have hlt := hlast.lt
  have hpow : 2 ^ exp ≤ 2 ^ w := by
    have := hfits.2
    omega
  exact (Nat.pow_le_pow_iff_right (Nat.lt_succ_self 1)).mp hpow

/-- The inner loop ends with the largest block that fits. -/
theorem growSubnet_eq (hcur : IsAddress w n cur) (hlast : IsAddress w k last) (m : Nat) (hm : m ≤ w)
    (hfits : Fits n (k + 1) (w - m)) {subnet : IPRange}
    (h : IsPrefix w ⟨n, w - m, hfits.1⟩ subnet) :
    ∃ B r, growSubnet last cur m subnet = some r ∧ IsPrefix w B r ∧ B.start = n ∧ B.stop ≤ k + 1 ∧
      ∀ exp, Fits n (k + 1) exp → exp ≤ B.exp := by
  induction m generalizing subnet with
  | zero => exact ⟨_, subnet, rfl, h, rfl, hfits.2, fun exp hexp => exp_le_of_fits hlast hexp⟩
  | succ m ih =>
    -- where the loop stops, no larger block fits
    have hstop : ¬ Fits n (k + 1) (w - m) → ∀ exp, Fits n (k + 1) exp → exp ≤ w - (m + 1) := by
      intro hnot exp hfit
      by_contra hlarge
      exact hnot (hfit.of_le (by omega))
    obtain ⟨y, hnew, hy⟩ := hcur.new (le_of_succ_le hm)
    rw [growSubnet, hnew, Option.bind_eq_bind, Option.bind_some]
    by_cases haligned : 2 ^ (w - m) ∣ n
    · rw [Nat.div_mul_cancel haligned] at hy
      obtain rfl := (hy.eq_iff hcur).mpr rfl
      obtain ⟨z, hbroadcast, hz⟩ := hy.broadcastAddress haligned
      rw [if_neg (not_not_intro rfl), hbroadcast, Option.bind_eq_bind, Option.bind_some]
      have hless : last.less z ↔ ¬ n + 2 ^ (w - m) ≤ k + 1 := by
        rw [hlast.less_iff hz]
        omega
      by_cases hin : n + 2 ^ (w - m) ≤ k + 1
      · rw [if_neg (fun hl => hless.mp hl hin)]
        have hblock : IsPrefix w ⟨n, w - m, haligned⟩ ⟨y, m⟩ :=
          ⟨Nat.sub_le w m, hy, by rw [Nat.sub_sub_self (by omega)]⟩
        exact ih (by omega) ⟨haligned, hin⟩ hblock
      · rw [if_pos (hless.mpr hin)]
        exact ⟨_, subnet, rfl, h, rfl, hfits.2, hstop fun hfit => hin hfit.2⟩
    · have hne : y ≠ cur := by
        intro he
        exact haligned (Dvd.intro_left _ ((hy.eq_iff hcur).mp he))
      rw [if_pos hne]
      exact ⟨_, subnet, rfl, h, rfl, hfits.2, hstop fun hfit => haligned hfit.1⟩

/-- The outer loop makes the greedy list of blocks from an address on. -/
theorem iterate_subnetStep (hcur : IsAddress w n cur) (hlast : IsAddress w k last) (hle : n ≤ k + 1)
    (acc : List IPRange) : ∃ blocks ranges, iterate (subnetStep last)
      (cur, acc) = some (acc ++ ranges) ∧ Greedy (k + 1) n blocks ∧
        List.Forall₂ (IsPrefix w) blocks ranges := by
  -- the number of addresses that are left gets smaller
  induction hleft : k + 1 - n using Nat.strongRecOn generalizing n cur acc with
  | ind left ih =>
    by_cases hdone : k < n
    · have hend : n = k + 1 := by omega
      subst hend
      refine ⟨[], [], ?_, .nil, .nil⟩
      rw [append_nil]
      exact iterate_done (if_pos ((hlast.less_iff hcur).mpr hdone))
    have hfits : Fits n (k + 1) (w - w) := by
      rw [Nat.sub_self]
      exact ⟨one_dvd n, by omega⟩
    have hsingle : IsPrefix w ⟨n, w - w, hfits.1⟩ ⟨cur, w⟩ :=
      ⟨sub_le w w, hcur, by simp⟩
    obtain ⟨B, r, hgrow, hblock, rfl, hstop, hmax⟩ :=
      growSubnet_eq hcur hlast w (le_refl w) hfits hsingle
    obtain ⟨z, hbroadcast, hz⟩ := hblock.broadcastAddress
    obtain ⟨next, hplus, hnext⟩ := hz.plusOne cur
    have hlt := B.start_lt_stop
    have hback : B.stop - 1 + 1 = B.stop := by omega
    rw [hback] at hplus hnext
    have hstep : subnetStep last (cur, acc) =
        if B.stop < 2 ^ w then some (.inl (next, acc ++ [r])) else some (.inr (acc ++ [r])) := by
      rw [subnetStep]
      simp [if_neg (fun hl => hdone ((hlast.less_iff hcur).mp hl)), hcur.ofAddress,
        hcur.ipAddressLength, hgrow, hbroadcast, hplus]
    by_cases hin : B.stop < 2 ^ w
    · rw [if_pos hin] at hstep
      obtain ⟨blocks, ranges, hrun, hgreedy, hranges⟩ :=
        ih (k + 1 - B.stop) (by omega) (hnext hin) hstop (acc ++ [r]) rfl
      refine ⟨B :: blocks, r :: ranges, ?_, .cons rfl hstop hmax hgreedy, .cons hblock hranges⟩
      rw [iterate_next hstep, hrun, append_assoc]
      rfl
    · -- the last address of all is covered
      rw [if_neg hin] at hstep
      have hend : B.stop = k + 1 := by
        have := hlast.lt
        omega
      refine ⟨[B], [r], iterate_done hstep, .cons rfl hstop hmax ?_, .cons hblock .nil⟩
      rw [hend]
      exact .nil

end Loops

/-! ## Ranges and their blocks -/

section Blocks

variable {w a k : Nat} {first last : IPAddress} {blocks : List Block} {ranges : List IPRange}

section

variable (h : List.Forall₂ (IsPrefix w) blocks ranges)
include h

/-- Ranges have the addresses of their blocks. -/
theorem exists_contains_iff {n : Nat} {x : IPAddress}
    (hx : IsAddress w n x) : (∃ r ∈ ranges, r.Contains x) ↔ ∃ B ∈ blocks, B.Contains n := by
  induction h with
  | nil => simp
  | @cons B r blocks ranges hblock h ih =>
    rw [exists_mem_cons_iff, exists_mem_cons_iff, hblock.contains_iff hx, ih]

theorem stop_le_of_mem : ∀ B ∈ blocks, B.stop ≤ 2 ^ w := by
  induction h with
  | nil => exact nofun
  | cons hblock h ih => exact forall_mem_cons.mpr ⟨hblock.stop_le, ih⟩

theorem exists_isPrefix_of_mem : ∀ r ∈ ranges, ∃ B ∈ blocks, IsPrefix w B r := by
  induction h with
  | nil => exact nofun
  | @cons B r blocks ranges hblock h ih =>
    refine forall_mem_cons.mpr ⟨⟨B, mem_cons_self, hblock⟩, fun s hs => ?_⟩
    obtain ⟨C, hC, hprefix⟩ := ih s hs
    exact ⟨C, mem_cons_of_mem _ hC, hprefix⟩

omit h in
/-- Ranges are the interval of addresses if and only if their blocks are that of numbers. -/
theorem coversInterval_iff (hfirst : IsAddress w a first) (hlast : IsAddress w k last)
    (h : List.Forall₂ (IsPrefix w) blocks ranges) :
    CoversInterval ranges first last ↔ Covers blocks a (k + 1) := by
  have hnumbers : ∀ {n x}, IsAddress w n x →
      (((∃ r ∈ ranges, r.Contains x) ↔ ¬ x.less first ∧ ¬ last.less x) ↔
        ((∃ B ∈ blocks, B.Contains n) ↔ a ≤ n ∧ n < k + 1)) := by
    intro n x hx
    rw [exists_contains_iff h hx, hx.less_iff hfirst, hlast.less_iff hx, not_lt, not_lt,
      Nat.lt_succ_iff]
  constructor
  · intro hcovers n
    by_cases hn : n < 2 ^ w
    · obtain ⟨x, hx⟩ := hfirst.exists_of_lt hn
      exact (hnumbers hx).mp (hcovers x hx.hasScope)
    · -- neither the blocks nor the interval reach that far
      refine iff_of_false ?_ ?_
      · rintro ⟨B, hB, hcontains⟩
        exact hn (lt_of_lt_of_le hcontains.2 (stop_le_of_mem h B hB))
      · have hlt := hlast.lt
        omega
  · intro hcovers x hscope
    by_cases hx : ∃ n, IsAddress w n x
    · obtain ⟨n, hx⟩ := hx
      exact (hnumbers hx).mpr (hcovers n)
    · -- an address of another family is neither in a range nor in the interval
      refine iff_of_false ?_ fun hbetween => hx
        (hfirst.of_between hlast hscope hbetween.1 hbetween.2)
      rintro ⟨r, hr, hcontains⟩
      obtain ⟨B, -, hblock⟩ := exists_isPrefix_of_mem h r hr
      exact hx (hblock.isAddress hscope hcontains)

/-- A chain of blocks is a chain of ranges. -/
theorem isChain_ranges (hchain : blocks.IsChain fun B C => C.start = B.stop) :
    ranges.IsChain fun r s => r.host.less s.host ∧ ∃ broadcast,
      r.broadcastAddress = some broadcast ∧ ∀ result,
        ipAddressPlusN broadcast 1 result = some (true, s.host) := by
  induction h with
  | nil => exact .nil
  | @cons B r blocks ranges hr h ih =>
    cases h with
    | nil => exact .singleton r
    | @cons C s blocks ranges hs h =>
      obtain ⟨hnext, hchain⟩ := isChain_cons_cons.mp hchain
      have hlt := B.start_lt_stop
      refine .cons_cons ⟨?_, ?_⟩ (ih hchain)
      · rw [hr.host.less_iff hs.host, hnext]
        exact hlt
      · obtain ⟨y, hbroadcast, hy⟩ := hr.broadcastAddress
        refine ⟨y, hbroadcast, fun result => ?_⟩
        obtain ⟨z, hplus, hz⟩ := hy.plusOne result
        have hback : B.stop - 1 + 1 = C.start := by omega
        rw [hback] at hplus hz
        have hin := hs.host.lt
        rw [hplus, decide_eq_true hin, ((hz hin).eq_iff hs.host).mpr rfl]

end

/-- The prefixes of a cover are of the family of the interval. -/
theorem exists_blocks (hfirst : IsAddress w a first) (hlast : IsAddress w k last)
    (hcanonical : ∀ r ∈ ranges, r.Canonical)
    (hwithin : ∀ r ∈ ranges, ∀ x : IPAddress, x.hasScope = false → r.Contains x →
      ¬ x.less first ∧ ¬ last.less x) :
    ∃ blocks, List.Forall₂ (IsPrefix w) blocks ranges := by
  induction ranges with
  | nil => exact ⟨[], .nil⟩
  | cons r ranges ih =>
    obtain ⟨hr, hcanonical⟩ := forall_mem_cons.mp hcanonical
    obtain ⟨hwithinr, hwithin⟩ := forall_mem_cons.mp hwithin
    obtain ⟨blocks, hblocks⟩ := ih hcanonical hwithin
    obtain ⟨w', B, hblock⟩ := hr.exists_isPrefix
    -- the host is in the range, hence in the interval
    have hhost : r.Contains r.host := (hblock.contains_iff hblock.host).mpr B.contains_start
    obtain ⟨hge, hle⟩ := hwithinr r.host hblock.host.hasScope hhost
    obtain ⟨n, hn⟩ := hfirst.of_between hlast hblock.host.hasScope hge hle
    obtain rfl : w' = w :=
      Option.some.inj (hblock.host.ipAddressLength.symm.trans hn.ipAddressLength)
    exact ⟨B :: blocks, .cons hblock hblocks⟩

/-- The ranges of a greedy list of blocks are a smallest cover. -/
theorem isMinimalCover_of_greedy (hfirst : IsAddress w a first) (hlast : IsAddress w k last)
    (hgreedy : Greedy (k + 1) a blocks) (h : List.Forall₂ (IsPrefix w) blocks ranges) :
    IsMinimalCover first last ranges where
  canonical r hr := by
    obtain ⟨B, -, hblock⟩ := exists_isPrefix_of_mem h r hr
    exact hblock.canonical
  ascending := (isChain_ranges h hgreedy.isChain).imp fun _ _ hrs => hrs.1
  adjacent := (isChain_ranges h hgreedy.isChain).imp fun _ _ hrs => hrs.2
  covers := (coversInterval_iff hfirst hlast h).mpr hgreedy.covers
  minimal others hcanonical hcovers := by
    obtain ⟨otherBlocks, hothers⟩ := exists_blocks hfirst hlast hcanonical fun r hr x hscope hx =>
      (hcovers x hscope).mp ⟨r, hr, hx⟩
    rw [← h.length_eq, ← hothers.length_eq]
    exact hgreedy.length_le ((coversInterval_iff hfirst hlast hothers).mp hcovers)

end Blocks

/-! ## The function -/

/-- The subnets of an interval of addresses are a smallest exact cover by prefixes, and there are
none if the addresses do not bound an interval. -/
theorem intervalToSubnets_isMinimalCover (first last : IPAddress) (hfirst : first.hasScope = false)
    (hlast : last.hasScope = false) :
    if first.addressFamily ≠ last.addressFamily ∨ first.addressFamily = .unspec ∨
      last.less first then
      ipAddressIntervalToSubnets first last = some (false, [])
    else ∃ subnets, ipAddressIntervalToSubnets first last = some (true, subnets) ∧
      IsMinimalCover first last subnets := by
  rw [ipAddressIntervalToSubnets]
  by_cases hfamily : first.addressFamily ≠ last.addressFamily ∨ first.addressFamily = .unspec
  · rw [if_pos hfamily, if_pos (hfamily.imp_right .inl)]
  rw [if_neg hfamily]
  obtain ⟨hsame, hspec⟩ := not_or.mp hfamily
  have hsame := not_not.mp hsame
  obtain ⟨w, a, ha⟩ := exists_isAddress hfirst hspec
  obtain ⟨w', k, hk⟩ := exists_isAddress hlast (hsame ▸ hspec)
  obtain rfl := (addressFamily_eq_iff ha hk).mp hsame
  by_cases hless : last.less first
  · have hrun : iterate (subnetStep last) (first, []) = some [] := iterate_done (if_pos hless)
    rw [if_pos (.inr (.inr hless)), hrun]
    rfl
  rw [if_neg (by simp [hsame, hless, hsame ▸ hspec])]
  have hle : a ≤ k := not_lt.mp fun hlt => hless ((hk.less_iff ha).mpr hlt)
  obtain ⟨blocks, subnets, hrun, hgreedy, hsubnets⟩ :=
    iterate_subnetStep ha hk (le_succ_of_le hle) []
  refine ⟨subnets, ?_, isMinimalCover_of_greedy ha hk hgreedy hsubnets⟩
  rw [hrun]
  -- the interval has an address, so there is a block
  cases hgreedy with
  | nil => omega
  | cons hstart hstop hmax hgreedy =>
    cases hsubnets with
    | cons hblock hsubnets => rfl

/-- All IPv4 addresses but `0.0.0.0`, up to the last one of all. -/
theorem intervalToSubnets_to_last_address :
    ∃ subnets, ipAddressIntervalToSubnets (.ipv4 1) (.ipv4 0xffffffff) = some (true, subnets) ∧
      IsMinimalCover (.ipv4 1) (.ipv4 0xffffffff) subnets := by
  have h := intervalToSubnets_isMinimalCover (.ipv4 1) (.ipv4 0xffffffff) rfl rfl
  rwa [if_neg (by decide)] at h

end

/-! ## `SubtractIPRange` -/

open Gloop.Foundation List BitVec

/-- No address without a scope is in both ranges. -/
def IPRange.Disjoint (r s : IPRange) : Prop :=
  ∀ x : IPAddress, x.hasScope = false → ¬ (r.Contains x ∧ s.Contains x)

/-- The ranges are one of each length that is longer than that of `range` and not longer than that
of `sub`, and with `sub` they are a partition of `range`. -/
structure IsDifference (range sub : IPRange) (diff : List IPRange) : Prop where
  canonical : ∀ r ∈ diff, r.Canonical
  lengths : diff.map IPRange.length =
    (List.range (sub.length - range.length).toNat).map fun i : Nat => sub.length - i
  pairwise : diff.Pairwise IPRange.Disjoint
  disjoint : ∀ r ∈ diff, r.Disjoint sub
  covers : ∀ x : IPAddress, x.hasScope = false →
    ((∃ r ∈ diff, r.Contains x) ∨ sub.Contains x ↔ range.Contains x)

/-! ## Ranges and blocks -/

section Blocks

variable {w : Nat} {B C : Block} {r s : IPRange}

/-- Ranges of disjoint blocks are disjoint. -/
theorem IsPrefix.disjoint (hr : IsPrefix w B r) (hs : IsPrefix w C s) (h : B.Disjoint C) :
    r.Disjoint s := by
  rintro x hscope ⟨hxr, hxs⟩
  obtain ⟨n, hn⟩ := hr.isAddress hscope hxr
  exact h n ⟨(hr.contains_iff hn).mp hxr, (hs.contains_iff hn).mp hxs⟩

/-- A range of a block has no host bits. -/
theorem IsPrefix.truncate (h : IsPrefix w B r) :
    truncateIPAndLength r.host r.length = some (r.host, r.length) := by
  obtain ⟨⟨host, length⟩, htruncate, heq⟩ := Option.map_eq_some_iff.mp h.new
  rw [htruncate, ← heq]

/-- The first address of a range. -/
theorem IsPrefix.networkAddress (h : IsPrefix w B r) : r.networkAddress = some r.host := by
  rw [IPRange.networkAddress, Option.bind_eq_bind, guard_bind h.host.addressFamily_ne, h.truncate]
  exact guard_bind rfl _

theorem IsPrefix.unsafeConstruct (h : IsPrefix w B r) :
    IPRange.unsafeConstruct r.host r.length = some r := by
  rw [IPRange.unsafeConstruct, h.truncate]
  simp [guard]

/-- The blocks of the ranges carry over what is said about them. -/
theorem pairwise_disjoint {blocks : List Block} {ranges : List IPRange}
    (h : List.Forall₂ (IsPrefix w) blocks ranges) (hpairwise : blocks.Pairwise Block.Disjoint) :
    ranges.Pairwise IPRange.Disjoint := by
  induction h with
  | nil => exact .nil
  | @cons B r blocks ranges hr h ih =>
    obtain ⟨hfirst, hrest⟩ := pairwise_cons.mp hpairwise
    refine .cons (fun s hs => ?_) (ih hrest)
    obtain ⟨C, hC, hprefix⟩ := exists_isPrefix_of_mem h s hs
    exact hr.disjoint hprefix (hfirst C hC)

/-- The lengths of ranges follow from the sizes of their blocks. -/
theorem map_length {blocks : List Block} {ranges : List IPRange}
    (h : List.Forall₂ (IsPrefix w) blocks ranges) :
      ranges.map IPRange.length = (blocks.map Block.exp).map fun exp =>
        ((w - exp : Nat) : Int) := by
  induction h with
  | nil => rfl
  | cons hr h ih => rw [map_cons, map_cons, map_cons, ih, hr.length]

end Blocks

/-! ## The loop -/

theorem subnetMask_eq (w k : Nat) : ~~~1#w <<< k = ~~~0#w <<< (k + 1) := by
  have hone : ~~~1#w = ~~~0#w <<< 1 := by
    ext i hi
    simp
  rw [hone, ← shiftLeft_add, add_comm]

/-- The loop pushes the other halves on the way to the block of the range. -/
theorem subtractLoop_eq {w : Nat} {makeAddress : BitVec w → IPAddress}
    (hmake : ∀ a, IsAddress w a.toNat (makeAddress a)) (length len : Nat) (hlen : len ≤ w)
    {B : Block} (hexp : B.exp = w - len) {addr : BitVec w} (haddr : addr.toNat = B.start)
    (acc : List IPRange) : ∃ ranges, subtractLoop makeAddress length len addr (1#w <<< (w - len))
        (~~~1#w <<< (w - len)) acc =
        some (acc ++ ranges) ∧ List.Forall₂ (IsPrefix w) (B.siblings (len - length)) ranges := by
  induction len generalizing B addr acc with
  | zero => exact ⟨[], by rw [subtractLoop, append_nil], by rw [Nat.zero_sub]; exact .nil⟩
  | succ len ih =>
    by_cases hmore : length < len + 1
    · have hup : w - (len + 1) + 1 = w - len := by omega
      have hparent : w - len = B.parent.exp := by
        show w - len = B.exp + 1
        omega
      have hflip : (addr ^^^ 1#w <<< (w - (len + 1))).toNat = B.sibling.start := by
        rw [toNat_xor, haddr, ← twoPow_eq, toNat_twoPow,
          Nat.mod_eq_of_lt (Nat.pow_lt_pow_right (by omega) (by omega)), ← hexp]
        rfl
      have hclear : ((addr ^^^ 1#w <<< (w - (len + 1))) &&& (~~~1#w <<< (w - (len + 1)))).toNat =
          B.parent.start := by
        have htruncate := toNat_truncateBits (addr ^^^ 1#w <<< (w - (len + 1))) len
        have hin := B.parent_contains_iff.mpr (.inl B.sibling.contains_start)
        rw [hflip, hparent, B.parent.contains_iff_div.mp hin, Nat.div_mul_cancel B.parent.aligned,
          truncateBits] at htruncate
        rw [subnetMask_eq, hup, htruncate]
      have hprefix : IsPrefix w B.sibling ⟨makeAddress (addr ^^^ 1#w <<< (w - (len + 1))),
          (len + 1 : Nat)⟩ := by
        refine ⟨hexp.trans_le (Nat.sub_le _ _), hflip ▸ hmake _, ?_⟩
        show ((len + 1 : Nat) : Int) = (w - B.exp : Nat)
        omega
      obtain ⟨ranges, hrun, hranges⟩ := ih (by omega) hparent.symm hclear (acc ++ [_])
      rw [show len + 1 - length = len - length + 1 by omega]
      refine ⟨_ :: ranges, ?_, .cons hprefix hranges⟩
      rw [subtractLoop, if_pos (by omega)]
      dsimp only
      rw [show IPRange.unsafeConstruct _ _ = _ from hprefix.unsafeConstruct, Option.bind_eq_bind,
        Option.bind_some, ← shiftLeft_add, ← shiftLeft_add, hup, hrun, List.append_assoc]
      rfl
    · rw [subtractLoop, if_neg (by omega), Nat.sub_eq_zero_of_le (by omega)]
      exact ⟨[], by rw [append_nil], .nil⟩

/-! ## The function -/

section Function

variable {w w' : Nat} {B C : Block} {r s : IPRange}

/-- `IsProperSubRange` tells whether the second range is smaller and in the first one. -/
theorem isProperSubRange_eq (hr : IsPrefix w B r) (hs : IsPrefix w' C s) :
    ∃ proper, isProperSubRange r s = some proper ∧
      (proper = true ↔ r.length < s.length ∧ w = w' ∧ B.Contains C.start) := by
  rw [isProperSubRange]
  by_cases hlength : r.length < s.length
  · rw [if_pos hlength, hr.isWithinSubnet hs.host]
    exact ⟨_, rfl, by rw [decide_eq_true_eq, and_iff_right hlength]⟩
  · exact ⟨false, if_neg hlength, iff_of_false Bool.false_ne_true fun h => hlength h.1⟩

/-- A proper sub-range leaves the other halves on the way up to the range. -/
theorem subtractIPRange_eq (hr : IsPrefix w B r) (hs : IsPrefix w C s)
    (hlength : r.length < s.length)
    (hproper : isProperSubRange r s = some true) : ∃ diff, subtractIPRange r s = some (true, diff) ∧
      List.Forall₂ (IsPrefix w) (C.siblings (B.exp - C.exp)) diff := by
  have hexp := hr.exp_le
  have hlen := hr.length
  have hlen' := hs.length
  simp only [subtractIPRange, hproper, Option.bind_eq_bind, Option.bind_some, Bool.not_true,
    Bool.false_eq_true, if_false]
  rw [guard_bind (by omega), hs.networkAddress, hlen, hlen']
  rw [show B.exp - C.exp = w - C.exp - (w - B.exp) by omega]
  have hblock : C.exp = w - (w - C.exp) := by omega
  have hhost := hs.host
  generalize hstart : C.start = n at hhost
  generalize s.host = host at hhost
  cases hhost with
  | ipv4 a =>
    obtain ⟨diff, hrun, hdiff⟩ :=
      subtractLoop_eq IsAddress.ipv4 (32 - B.exp) _ (Nat.sub_le 32 C.exp) hblock
      hstart.symm []
    exact ⟨diff, congrArg (· >>= fun diff => some (true, diff)) hrun, hdiff⟩
  | ipv6 a =>
    have hmake : ∀ a : BitVec 128, IsAddress 128 a.toNat (makeIPAddressWithOptionalScopeId a 0) :=
      fun a => by rw [makeIPAddressWithOptionalScopeId_zero]; exact .ipv6 a
    obtain ⟨diff, hrun, hdiff⟩ :=
      subtractLoop_eq hmake (128 - B.exp) _ (Nat.sub_le 128 C.exp) hblock
      hstart.symm []
    exact ⟨diff, congrArg (· >>= fun diff => some (true, diff)) hrun, hdiff⟩

/-- The other halves and the sub-range are a partition of the range. -/
theorem isDifference_of_siblings (hr : IsPrefix w B r) (hs : IsPrefix w C s)
    (hlength : r.length < s.length) (hin : B.Contains C.start) {diff : List IPRange}
    (hdiff : List.Forall₂ (IsPrefix w) (C.siblings (B.exp - C.exp)) diff) :
      IsDifference r s diff := by
  have hexp := hr.exp_le
  have hlen := hr.length
  have hlen' := hs.length
  have hancestor : C.ancestor (B.exp - C.exp) = B :=
    Block.eq_of_common (by rw [C.exp_ancestor]; omega)
      ((C.ancestor_contains_iff _).mpr (.inr C.contains_start)) hin
  refine ⟨fun r' hr' => ?_, ?_, pairwise_disjoint hdiff (C.pairwise_siblings _), fun r' hr' => ?_,
    fun x hscope => ?_⟩
  · obtain ⟨D, -, hD⟩ := exists_isPrefix_of_mem hdiff r' hr'
    exact hD.canonical
  · rw [map_length hdiff, C.exp_siblings, map_map,
      show (s.length - r.length).toNat = B.exp - C.exp by omega]
    refine map_congr_left fun i hi => ?_
    have hlt := mem_range.mp hi
    show ((w - (C.exp + i) : Nat) : Int) = s.length - i
    omega
  · obtain ⟨D, hmem, hD⟩ := exists_isPrefix_of_mem hdiff r' hr'
    exact hD.disjoint hs (C.siblings_disjoint _ D hmem)
  · by_cases hx : ∃ n, IsAddress w n x
    · obtain ⟨n, hn⟩ := hx
      rw [exists_contains_iff hdiff hn, hs.contains_iff hn, hr.contains_iff hn,
        ← C.ancestor_contains_iff, hancestor]
    · refine iff_of_false ?_ fun hin => hx (hr.isAddress hscope hin)
      rintro (⟨r', hr', hin⟩ | hin)
      · obtain ⟨D, -, hD⟩ := exists_isPrefix_of_mem hdiff r' hr'
        exact hx (hD.isAddress hscope hin)
      · exact hx (hs.isAddress hscope hin)

end Function

/-- `SubtractIPRange` returns the difference if the second range is a proper part of the first one,
and nothing otherwise. -/
theorem subtractIPRange_isDifference (range sub : IPRange) (hrange : range.Canonical)
    (hsub : sub.Canonical) : ∃ proper, isProperSubRange range sub = some proper ∧
      (proper = true ↔ range.length < sub.length ∧
        ∀ x : IPAddress, x.hasScope = false → sub.Contains x → range.Contains x) ∧
      if proper then ∃ diff, subtractIPRange range sub = some (true, diff) ∧
        IsDifference range sub diff
      else subtractIPRange range sub = some (false, []) := by
  obtain ⟨w, B, hr⟩ := hrange.exists_isPrefix
  obtain ⟨w', C, hs⟩ := hsub.exists_isPrefix
  obtain ⟨proper, hrun, hproper⟩ := isProperSubRange_eq hr hs
  refine ⟨proper, hrun, hproper.trans (and_congr_right fun hlength => ?_), ?_⟩
  · constructor
    · rintro ⟨rfl, hin⟩ x hscope hx
      obtain ⟨n, hn⟩ := hs.isAddress hscope hx
      have hle : C.exp ≤ B.exp := by
        have := hr.length
        have := hs.length
        omega
      have hcommon := Block.start_le_of_common C.contains_start hin hle
      have hxC := (hs.contains_iff hn).mp hx
      exact (hr.contains_iff hn).mpr ⟨hcommon.1.trans hxC.1, hxC.2.trans_le hcommon.2⟩
    · intro hall
      have hhost := hall _ hs.host.hasScope ((hs.contains_iff hs.host).mpr C.contains_start)
      obtain ⟨n, hn⟩ := hr.isAddress hs.host.hasScope hhost
      obtain rfl : w = w' := Option.some.inj (hn.ipAddressLength.symm.trans hs.host.ipAddressLength)
      exact ⟨rfl, (hr.contains_iff hs.host).mp hhost⟩
  · cases proper with
    | false =>
      rw [subtractIPRange, hrun]
      rfl
    | true =>
      obtain ⟨hlength, rfl, hin⟩ := hproper.mp rfl
      obtain ⟨diff, hdiff, hblocks⟩ := subtractIPRange_eq hr hs hlength hrun
      exact ⟨diff, hdiff, isDifference_of_siblings hr hs hlength hin hblocks⟩

/-- `10.0.0.0/8` without `10.1.0.0/16`. -/
theorem subtractIPRange_ten :
    ∃ diff, subtractIPRange ⟨.ipv4 0x0a000000, 8⟩ ⟨.ipv4 0x0a010000, 16⟩ = some (true, diff) ∧
      IsDifference ⟨.ipv4 0x0a000000, 8⟩ ⟨.ipv4 0x0a010000, 16⟩ diff := by
  obtain ⟨proper, hproper, -, h⟩ :=
    subtractIPRange_isDifference ⟨.ipv4 0x0a000000, 8⟩ ⟨.ipv4 0x0a010000, 16⟩
      ⟨rfl, by decide, by decide, by decide⟩ ⟨rfl, by decide, by decide, by decide⟩
  have htrue : isProperSubRange ⟨.ipv4 0x0a000000, 8⟩ ⟨.ipv4 0x0a010000, 16⟩ =
      some true := by decide
  cases hproper.symm.trans htrue
  exact h

end Gloop.Net

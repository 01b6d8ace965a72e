import Gloop.Foundation.Iterate
import Mathlib.Data.BitVec

/-!
# Model of `IPAddress` and `IPRange`

The bytes of an address in network order are taken as one number. An IPv6 address that is link-local
may have a `scope_id` in its third and fourth group of 16 bits, which `has_scope_` tells. A failed
check and a `LOG(DFATAL)` are `none`.
-/

namespace Gloop.Net

open Gloop.Foundation

/-- What `address_family()` returns. -/
inductive AddressFamily
  | unspec
  | inet
  | inet6
  deriving DecidableEq

/-- The `Variant` of an `IPAddress`. -/
inductive IPAddress
  | uninitialized
  | ipv4 (addr : BitVec 32)
  | ipv6 (addr : BitVec 128) (hasScope : Bool)
  deriving DecidableEq

/-! ## Scope ids -/

/-- `s6_addr16[i]`, in host order. -/
def group (addr : BitVec 128) (i : Nat) : BitVec 16 :=
  (addr >>> (112 - 16 * i)).setWidth 16

variable (addr : BitVec 128)

/-- The address with another number in its third and fourth group. -/
def storeScope (scopeId : BitVec 32) : BitVec 128 :=
  (addr &&& ~~~(0xffffffff#128 <<< 64)) ||| (scopeId.setWidth 128 <<< 64)

/-- `MayUseScopeIds(in6)`: link-local unicast or link-local multicast. -/
def mayUseScopeIds : Bool :=
  group addr 0 &&& 0xffc0#16 = 0xfe80#16 ∨ group addr 0 &&& 0xff0f#16 = 0xff02#16

/-- `MayUseCompactScopeIds(in6)`. -/
def mayUseCompactScopeIds : Bool :=
  (group addr 0 = 0xfe80#16 ∨ group addr 0 = 0xff02#16) ∧ group addr 1 = 0#16

/-- `MayStoreCompactScopeId(in6)`. -/
def mayStoreCompactScopeId : Bool :=
  mayUseCompactScopeIds addr ∧ group addr 2 = 0#16 ∧ group addr 3 = 0#16

/-- The private constructor `IPAddress(addr, scope_id)`. -/
def ofIpv6 (scopeId : BitVec 32) : IPAddress :=
  if scopeId ≠ 0 ∧ mayUseCompactScopeIds addr then .ipv6 (storeScope addr scopeId) true
  else .ipv6 addr false

/-- `MakeIPAddressWithScopeId(addr, scope_id)`, with the message of its `InvalidArgumentError`. -/
def makeIPAddressWithScopeId (scopeId : BitVec 32) : Except String IPAddress :=
  if scopeId = 0 then .ok (ofIpv6 addr 0)
  else if !mayUseScopeIds addr then .error "address does not use scope_ids"
  else if !mayUseCompactScopeIds addr then .error "address cannot use compact scope_ids"
  else if !mayStoreCompactScopeId addr then .error "address cannot safely compact scope_id"
  else .ok (ofIpv6 addr scopeId)

/-! ## Addresses and numbers -/

/-- `ipv6_address()` of the bytes of an IPv6 address, without its `scope_id`. -/
def ipv6Address (hasScope : Bool) : BitVec 128 :=
  if hasScope then storeScope addr 0 else addr

/-- `HostUInt32ToIPAddress(address)`. -/
def hostUInt32ToIPAddress (address : BitVec 32) : IPAddress :=
  .ipv4 address

/-- `UInt128ToIPAddress(bigint)`. -/
def uInt128ToIPAddress (bigint : BitVec 128) : IPAddress :=
  ofIpv6 bigint 0

/-- `MakeIPAddressWithOptionalScopeId(ip6uint, scope_id)`. -/
def makeIPAddressWithOptionalScopeId (ip6uint : BitVec 128) (scopeId : BitVec 32) : IPAddress :=
  match makeIPAddressWithScopeId ip6uint scopeId with
  | .ok value => value
  | .error _ => uInt128ToIPAddress ip6uint

namespace IPAddress

/-- `address_family()`. -/
def addressFamily : IPAddress → AddressFamily
  | uninitialized => .unspec
  | ipv4 _ => .inet
  | ipv6 _ _ => .inet6

/-- `has_scope()` of the `Variant`. -/
def hasScope : IPAddress → Bool
  | ipv6 _ hasScope => hasScope
  | _ => false

/-- `scope_id()`. -/
def scopeId : IPAddress → BitVec 32
  | ipv6 addr true => (addr >>> 64).setWidth 32
  | _ => 0

/-- `ThreeWayCompare_SlowPath(lhs, rhs)`, which compares the addresses before the scope ids. -/
def threeWayCompareSlowPath (a : BitVec 128) (aScope : Bool) (b : BitVec 128) (bScope : Bool) :
    Ordering :=
  (compare (ipv6Address a aScope).toNat (ipv6Address b bScope).toNat).then
    (compare (ipv6 a aScope).scopeId.toNat (ipv6 b bScope).scopeId.toNat)

/-- `ThreeWayCompare(lhs, rhs)`: first by type, then by number. -/
def threeWayCompare : IPAddress → IPAddress → Ordering
  | uninitialized, uninitialized => .eq
  | uninitialized, _ => .lt
  | _, uninitialized => .gt
  | ipv4 a, ipv4 b => compare a.toNat b.toNat
  | ipv4 _, ipv6 _ _ => .lt
  | ipv6 _ _, ipv4 _ => .gt
  | ipv6 a aScope, ipv6 b bScope =>
    if a = b then
      if aScope = bScope then .eq else threeWayCompareSlowPath a aScope b bScope
    else if !aScope && !bScope then
      if a.toNat < b.toNat then .lt else .gt
    else threeWayCompareSlowPath a aScope b bScope

/-- `lhs < rhs`. -/
def less (lhs rhs : IPAddress) : Bool :=
  threeWayCompare lhs rhs = .lt

end IPAddress

/-- `IPAddressLength(ip)`. -/
def ipAddressLength : IPAddress → Option Nat
  | .uninitialized => none
  | .ipv4 _ => some 32
  | .ipv6 _ _ => some 128

/-- `IPAddressPlusN(addr, n, result)`, with what `*result` is afterwards. -/
def ipAddressPlusN (addr : IPAddress) (n : Int) (result : IPAddress) : Option (Bool × IPAddress) :=
  if n = 0 then some (true, addr)
  else
    match addr with
    | .ipv4 a =>
      if n > 2 ^ 32 - 1 ∨ n < -(2 ^ 32 - 1) then some (false, result)
      else
        let sum := hostUInt32ToIPAddress (a + BitVec.ofInt 32 n)
        some (decide (n > 0) == addr.less sum, sum)
    | .ipv6 a scope =>
      let sum := makeIPAddressWithOptionalScopeId
        (ipv6Address a scope + BitVec.ofInt 128 n) addr.scopeId
      some (decide (n > 0) == addr.less sum, sum)
    | .uninitialized => none

/-! ## Ranges -/

/-- `IPRange`: an address without host bits, and the length of its prefix. -/
structure IPRange where
  host : IPAddress
  length : Int
  deriving DecidableEq

/-- `addr & (~0 << (w - length))`. -/
def truncateBits {w : Nat} (addr : BitVec w) (length : Nat) : BitVec w :=
  addr &&& (~~~0#w <<< (w - length))

/-- `addr | ~(~0 << (w - length))`. -/
def fillBits {w : Nat} (addr : BitVec w) (length : Nat) : BitVec w :=
  addr ||| ~~~(~~~0#w <<< (w - length))

/-- `TruncateIPAndLength(addr, length_io)`, with what `*length_io` is afterwards. -/
def truncateIPAndLength (addr : IPAddress) (length : Int) : Option (IPAddress × Int) :=
  match addr with
  | .ipv4 a =>
    if length ≥ 32 then some (addr, 32)
    else if length > 0 then some (hostUInt32ToIPAddress (truncateBits a length.toNat), length)
    else if length = 0 then some (hostUInt32ToIPAddress 0, length)
    else none
  | .ipv6 a scope =>
    if length ≥ 128 then some (addr, 128)
    else if length > 0 then
      some (makeIPAddressWithOptionalScopeId
        (truncateBits (ipv6Address a scope) length.toNat) addr.scopeId, length)
    else if length = 0 then some (ofIpv6 0 0, length)
    else none
  | .uninitialized => some (addr, -1)

namespace IPRange

/-- `IPRange(host, length)`. -/
def new (host : IPAddress) (length : Int) : Option IPRange :=
  (truncateIPAndLength host length).map fun (host, length) => ⟨host, length⟩

/-- `IPRange(host)`. -/
def ofAddress (host : IPAddress) : Option IPRange :=
  if host.addressFamily ≠ .unspec then do
    let length ← ipAddressLength host
    new host length
  else some ⟨.uninitialized, -1⟩

/-- `broadcast_address()`. -/
def broadcastAddress (range : IPRange) : Option IPAddress :=
  match range.host with
  | .ipv4 a =>
    if range.length = 0 then some (hostUInt32ToIPAddress (~~~0))
    else some (hostUInt32ToIPAddress (fillBits a range.length.toNat))
  | .ipv6 a scope =>
    if range.length = 0 then some (uInt128ToIPAddress (~~~0))
    else some (makeIPAddressWithOptionalScopeId (fillBits (ipv6Address a scope) range.length.toNat)
      range.host.scopeId)
  | .uninitialized => none

end IPRange

/-! ## Intervals -/

/-- The inner loop of `IPAddressIntervalToSubnets`, with `n` lengths left: the prefix gets shorter
as long as its addresses are in the interval. -/
def growSubnet (last cur : IPAddress) : Nat → IPRange → Option IPRange
  | 0, curSubnet => some curSubnet
  | len + 1, curSubnet => do
    let candidate ← IPRange.new cur len
    if candidate.host ≠ cur then some curSubnet
    else do
      let broadcast ← candidate.broadcastAddress
      if last.less broadcast then some curSubnet else growSubnet last cur len candidate

/-- A turn of the outer loop of `IPAddressIntervalToSubnets`. -/
def subnetStep (last : IPAddress) (state : IPAddress × List IPRange) :
    Option ((IPAddress × List IPRange) ⊕ List IPRange) :=
  let (cur, coveringSubnets) := state
  if last.less cur then some (.inr coveringSubnets)
  else do
    let subnet ← IPRange.ofAddress cur
    let length ← ipAddressLength cur
    let subnet ← growSubnet last cur length subnet
    let lastCovered ← subnet.broadcastAddress
    let (inSpace, next) ← ipAddressPlusN lastCovered 1 cur
    if inSpace then some (.inl (next, coveringSubnets ++ [subnet]))
    else some (.inr (coveringSubnets ++ [subnet]))

/-- `IPAddressIntervalToSubnets(first_addr, last_addr, covering_subnets)`, with what
`*covering_subnets` is afterwards. -/
def ipAddressIntervalToSubnets (first last : IPAddress) : Option (Bool × List IPRange) :=
  if first.addressFamily ≠ last.addressFamily ∨ first.addressFamily = .unspec then some (false, [])
  else do
    let coveringSubnets ← iterate (subnetStep last) (first, [])
    some (!coveringSubnets.isEmpty, coveringSubnets)

/-! ## Parts of ranges -/

/-- `IsWithinSubnet(haystack, needle)`. -/
def isWithinSubnet (haystack : IPRange) (needle : IPAddress) : Option Bool :=
  if haystack.host.addressFamily = needle.addressFamily then do
    let range ← IPRange.new needle haystack.length
    some (haystack = range)
  else some false

/-- `IsProperSubRange(haystack, needle)`. -/
def isProperSubRange (haystack needle : IPRange) : Option Bool :=
  if haystack.length < needle.length then isWithinSubnet haystack needle.host else some false

/-! ## Indices -/

/-- `IsRangeIndexValid(range, index)`. A shift by 128 bits or more is undefined. -/
def isRangeIndexValid (range : IPRange) (index : BitVec 128) : Option Bool := do
  let bits := (← ipAddressLength range.host) - range.length
  if bits = 128 then some true
  else do
    guard (0 ≤ bits ∧ bits < 128)
    some (index >>> bits.toNat = 0)

/-- `NthAddressInRange(range, index)`. -/
def nthAddressInRange (range : IPRange) (index : BitVec 128) : Option IPAddress := do
  guard (← isRangeIndexValid range index)
  match range.host with
  | .ipv4 addr => some (hostUInt32ToIPAddress ((addr.setWidth 64 + index.setWidth 64).setWidth 32))
  | .ipv6 addr scope =>
    some (makeIPAddressWithOptionalScopeId (ipv6Address addr scope + index) range.host.scopeId)
  | .uninitialized => none

/-- `IndexInRange(range, ip)`. -/
def indexInRange (range : IPRange) (ip : IPAddress) : Option (BitVec 128) := do
  guard (← isWithinSubnet range ip)
  match range.host, ip with
  | .ipv4 addr, .ipv4 a => some ((a - addr).setWidth 128)
  | .ipv6 addr scope, .ipv6 a aScope => some (ipv6Address a aScope - ipv6Address addr scope)
  | _, _ => none

/-! ## Differences -/

namespace IPRange

/-- `network_address()`. -/
def networkAddress (range : IPRange) : Option IPAddress := do
  guard (range.host.addressFamily ≠ .unspec)
  let (host, _) ← truncateIPAndLength range.host range.length
  guard (range.host = host)
  some range.host

/-- `UnsafeConstruct(host, length)`. -/
def unsafeConstruct (host : IPAddress) (length : Int) : Option IPRange := do
  let (truncated, maxLength) ← truncateIPAndLength host length
  guard (host = truncated)
  guard (length = maxLength)
  some ⟨host, length⟩

end IPRange

/-- The loops of `SubtractIPRange`, from `len` down to the length of the range. -/
def subtractLoop {w : Nat} (makeAddress : BitVec w → IPAddress) (rangeLength : Int) :
    Nat → (addr flipMask subnetMask : BitVec w) → List IPRange → Option (List IPRange)
  | 0, _, _, _, diffRange => some diffRange
  | len + 1, addr, flipMask, subnetMask, diffRange =>
    if ((len + 1 : Nat) : Int) > rangeLength then do
      let addr := addr ^^^ flipMask
      let range ← IPRange.unsafeConstruct (makeAddress addr) (len + 1 : Nat)
      subtractLoop makeAddress rangeLength len (addr &&& subnetMask) (flipMask <<< 1)
        (subnetMask <<< 1)
        (diffRange ++ [range])
    else some diffRange

/-- `SubtractIPRange(range, sub_range, diff_range)`, with what `*diff_range` is afterwards. -/
def subtractIPRange (range subRange : IPRange) : Option (Bool × List IPRange) := do
  let proper ← isProperSubRange range subRange
  if !proper then some (false, [])
  else do
    guard (subRange.length ≥ 1)
    let len := subRange.length.toNat
    match ← subRange.networkAddress with
    | .ipv4 addr => do
      let diffRange ← subtractLoop .ipv4 range.length len addr (1#32 <<< (32 - len))
        (~~~1#32 <<< (32 - len)) []
      some (true, diffRange)
    | .ipv6 addr scope => do
      let diffRange ← subtractLoop
        (makeIPAddressWithOptionalScopeId · subRange.host.scopeId) range.length
        len (ipv6Address addr scope) (1#128 <<< (128 - len)) (~~~1#128 <<< (128 - len)) []
      some (true, diffRange)
    | .uninitialized => none

end Gloop.Net

import Gloop.Hash.Crc.Tables

/-!
# `Extend` is polynomial division

The four buffers of the fast loops stand for one register (`Swaths.value`): `buf0` with four words
still to come, `buf1` with three, and so on. Taking in one more word moves every buffer one place up
(`Swaths.push`), and feeds the word to that register (`value_push`); a stride is four such moves,
after which each buffer is back at its place. This holds for `CRC128` too, where the part of a
buffer that is wider than a word is what moves. A zero byte is eight steps of the register. In
`ExtendByZeroes` the low bits of the length go through `Extend`; each further digit multiplies by an
entry of `zeroes_`, which takes the steps of that digit at once (`multiply_eq`).
-/

namespace Gloop.Hash.Crc

section

open Gloop.Foundation Gloop.Foundation.ShiftRegister List Nat CRCImpl Swaths LoHi

/-- The table `table0_` extends by one byte. -/
def CRCImpl.HasByteTable (crc : CRCImpl) : Prop :=
  ∀ i < 256, crc.table0[i]? = some (advances crc.poly 8 i)

/-- The tables with which `Extend` works. -/
structure CRCImpl.Extendable (crc : CRCImpl) : Prop where
  poly_lt : crc.poly < 2 ^ crc.cls.bits
  table0 : crc.HasByteTable
  table : ∀ j < crc.cls.wordSize, ∃ row, crc.table[j]? = some row ∧
    ∀ i < 256, row[i]? = some (advances crc.poly (8 + 24 * crc.cls.wordSize + 8 * j) i)

variable {crc : CRCImpl} {bytes : List Byte} {c : Nat}

theorem and_0xff (n : Nat) : n &&& 0xff = n % 2 ^ 8 :=
  and_two_pow_sub_one_eq_mod n 8

/-! ## Bytes -/

section

variable (h : crc.HasByteTable)
include h

/-- A byte of zeros is eight steps. -/
theorem stepByte_eq (w : Nat) : crc.stepByte w = some (advances crc.poly 8 w) := by
  have hentry := h (w % 2 ^ 8) (mod_lt _ (by decide))
  rw [stepByte, and_0xff, hentry, Option.bind_eq_bind, Option.bind_some, Nat.xor_comm,
    ← advances_eq_low_xor_high]

/-- Bytes of zeros, one after the other. -/
theorem stepBytes_eq (count w : Nat) : (range count).foldlM (fun w _ => crc.stepByte w) w =
      some (advances crc.poly (8 * count) w) := by
  induction count with
  | zero => rfl
  | succ count ih =>
    rw [range_succ, foldlM_append, ih, Option.bind_eq_bind, Option.bind_some, foldlM_cons,
      stepByte_eq h, ← advances_add, add_comm]
    rfl

/-- A word is added and stepped over. -/
theorem stepW_eq (l w : Nat) :
    crc.stepW l w = some (advances crc.poly (8 * crc.cls.wordSize) (w ^^^ l)) :=
  stepBytes_eq h _ _

/-- The table lookup of a byte that is added to the register. -/
theorem table0_lookup (l : Nat) (b : Byte) :
    ∃ entry, crc.table0[(l &&& 0xff) ^^^ b.toNat]? = some entry ∧
      (l >>> 8) ^^^ entry = advances crc.poly 8 (l ^^^ b.toNat) := by
  have hlow : (l &&& 0xff) ^^^ b.toNat = (l ^^^ b.toNat) % 2 ^ 8 := by
    rw [and_0xff, xor_mod_two_pow, mod_eq_of_lt b.isLt]
  have hhigh : l >>> 8 = (l ^^^ b.toNat) >>> 8 := by
    rw [shiftRight_xor_distrib, shiftRight_eq_zero b.toNat 8 b.isLt, xor_zero]
  refine ⟨_, by rw [hlow]; exact h _ (mod_lt _ (by decide)), ?_⟩
  rw [hhigh, Nat.xor_comm, ← advances_eq_low_xor_high]

variable {p : Nat} {s : Swaths × Nat}

omit h in
theorem feedBytes_singleton (poly c : Nat) (b : Byte) :
    feedBytes poly c [b] = advances poly 8 (c ^^^ b.toNat) := by
  rw [feedBytes_eq]
  simp [ofBytes]

theorem step1_eq (hp : p < bytes.length) : crc.step1 bytes (feedBytes crc.poly c (bytes.take p)) p =
      some (feedBytes crc.poly c (bytes.take (p + 1)), p + 1) := by
  have hb := getElem?_eq_getElem hp
  obtain ⟨entry, hentry, hvalue⟩ := table0_lookup h (feedBytes crc.poly c (bytes.take p)) bytes[p]
  rw [step1, hb, Option.bind_eq_bind, Option.bind_some]
  dsimp only
  rw [hentry, take_add_one, hb, Option.toList_some, feedBytes_append, feedBytes_singleton, ← hvalue]
  rfl

/-- Bytes up to an end, one by one. -/
theorem stepsTo_eq {stop : Nat} (hp : p ≤ stop) (hstop : stop ≤ bytes.length) :
    crc.stepsTo bytes stop (feedBytes crc.poly c (bytes.take p)) p =
      some (feedBytes crc.poly c (bytes.take stop), stop) := by
  induction hleft : stop - p generalizing p with
  | zero =>
    obtain rfl : p = stop := by omega
    exact iterate_done (if_pos rfl)
  | succ left ih =>
    have hnext := step1_eq (c := c) h (show p < bytes.length by omega)
    refine (iterate_next ?_).trans (ih (show p + 1 ≤ stop by omega) (by omega))
    dsimp only
    rw [if_neg (by omega), hnext]
    rfl

/-- Bytes up to an alignment are fed one by one. -/
theorem align_spec (pl : Platform) (bytes : List Byte) (c address : Nat) :
    ∃ p ≤ bytes.length,
      crc.align pl address bytes c = some (feedBytes crc.poly c (bytes.take p), p) := by
  rw [align]
  split
  · dsimp only
    split
    next hinside => exact ⟨_, by omega, stepsTo_eq h zero_le (by omega)⟩
    next => exact ⟨0, zero_le, rfl⟩
  · exact ⟨0, zero_le, rfl⟩

end

/-! ## Words -/

/-- The word that stands at a position of the input. -/
def wordAt (bytes : List Byte) (size p : Nat) : Nat :=
  ofBytes ((bytes.drop p).take size)

theorem loadWord_eq {s : Nat} (h : p + (s + 1) * crc.cls.wordSize ≤ bytes.length) :
    crc.loadWord bytes p s = some (wordAt bytes crc.cls.wordSize (p + s * crc.cls.wordSize)) := by
  rw [succ_mul] at h
  exact if_pos (by omega)

variable {size word k : Nat}

/-- A word of the input may be added all at once. -/
theorem feedBytes_take_add (h : p + size ≤ bytes.length) (poly c : Nat) :
    feedBytes poly c (bytes.take (p + size)) =
      advances poly (8 * size) (feedBytes poly c (bytes.take p) ^^^ wordAt bytes size p) := by
  have hlength : ((bytes.drop p).take size).length = size := by
    rw [length_take, length_drop]
    omega
  rw [take_add, feedBytes_append, feedBytes_eq, hlength, wordAt]

/-! ## Swaths -/

/-- The register for which the four buffers stand. -/
def Swaths.value (poly size : Nat) (bufs : Swaths) : Nat :=
  advances poly (8 * size) (bufs.buf3 ^^^ advances poly (8 * size) (bufs.buf2 ^^^
    advances poly (8 * size) (bufs.buf1 ^^^ advances poly (8 * size) bufs.buf0)))

/-- Take in a word: what is above the lowest word of `buf0` belongs to the next buffer, and the rest
of `buf0` is extended by four words. -/
def Swaths.push (poly size : Nat) (bufs : Swaths) (word : Nat) : Swaths :=
  ⟨bufs.buf1 ^^^ (bufs.buf0 >>> (8 * size)), bufs.buf2, bufs.buf3,
    word ^^^ advances poly (32 * size) (bufs.buf0 % 2 ^ (8 * size))⟩

/-- A word that is pushed goes through the register. -/
theorem value_push (poly size : Nat) (bufs : Swaths) (word : Nat) :
    (bufs.push poly size word).value poly size =
      advances poly (8 * size) (bufs.value poly size ^^^ word) := by
  have hsplit : advances poly (8 * size) bufs.buf0 = _ := advances_eq_low_xor_high _ _
  have hfour : ∀ v, advances poly (32 * size) v = advances poly (8 * size) (advances poly (8 * size)
      (advances poly (8 * size) (advances poly (8 * size) v))) := by
    intro v
    rw [← advances_add, ← advances_add, ← advances_add]
    ring_nf
  simp only [value, push, hfour, hsplit, advances_xor]
  ac_rfl

/-- The swaths are put together in the end. -/
theorem combine_eq (h : crc.HasByteTable) (bufs : Swaths) :
    crc.combine bufs = some (bufs.value crc.poly crc.cls.wordSize) := by
  simp [combine, stepW_eq h, value]

theorem wordSize_pos (crc : CRCImpl) : 0 < crc.cls.wordSize := by
  cases h : crc.cls <;> decide

/-- The lowest `k + 1` bytes of a word are its lowest `k` bytes and one more. -/
theorem mod_succ_byte (word k : Nat) :
    word % 2 ^ (8 * (k + 1)) = word % 2 ^ (8 * k) ^^^ ((word >>> (8 * k)) % 2 ^ 8) <<< (8 * k) := by
  have hmod : word % 2 ^ (8 * (k + 1)) % 2 ^ (8 * k) = word % 2 ^ (8 * k) :=
    mod_mod_of_dvd _ (pow_dvd_pow 2 (by omega))
  have hshift : (word % 2 ^ (8 * (k + 1))) >>> (8 * k) = (word >>> (8 * k)) % 2 ^ 8 := by
    rw [shiftRight_eq_div_pow, shiftRight_eq_div_pow, mul_succ, pow_add, mod_mul_right_div_self]
  rw [← hmod, ← hshift, low_xor_high]

/-- After `k` lookups the lowest `k` bytes are extended by four words. -/
theorem swathEntry_eq (h : crc.Extendable) (hword : word < 2 ^ (8 * crc.cls.wordSize))
    (hk : k < crc.cls.wordSize) :
    crc.swathEntry word (advances crc.poly (32 * crc.cls.wordSize) (word % 2 ^ (8 * k))) k =
      some (advances crc.poly (32 * crc.cls.wordSize) (word % 2 ^ (8 * (k + 1)))) := by
  obtain ⟨row, hrow, hentries⟩ := h.table (crc.cls.wordSize - 1 - k) (by omega)
  have hindex : (if k + 1 = crc.cls.wordSize then word >>> (8 * k)
      else (word >>> (8 * k)) &&& 0xff) = (word >>> (8 * k)) % 2 ^ 8 := by
    split
    next hlast =>
      refine (mod_eq_of_lt ?_).symm
      rw [shiftRight_eq_div_pow, Nat.div_lt_iff_lt_mul (Nat.two_pow_pos _), ← pow_add]
      exact hword.trans_eq (congrArg _ (by omega))
    next => exact and_0xff _
  have hsteps : 32 * crc.cls.wordSize =
      8 + 24 * crc.cls.wordSize + 8 * (crc.cls.wordSize - 1 - k) + 8 * k := by omega
  have hentry := hentries ((word >>> (8 * k)) % 2 ^ 8) (mod_lt _ (by decide))
  have hbyte : advances crc.poly (32 * crc.cls.wordSize)
      (((word >>> (8 * k)) % 2 ^ 8) <<< (8 * k)) =
        advances crc.poly (8 + 24 * crc.cls.wordSize + 8 * (crc.cls.wordSize - 1 - k))
        ((word >>> (8 * k)) % 2 ^ 8) := by
    conv_lhs => rw [hsteps]
    rw [advances_add, advances_shiftLeft_self]
  rw [swathEntry, hrow, Option.bind_eq_bind, Option.bind_some, hindex, hentry, mod_succ_byte,
    advances_xor, hbyte]
  rfl

/-- The table advances a word by a stride. -/
theorem swathEntries_eq (h : crc.Extendable) (hword : word < 2 ^ (8 * crc.cls.wordSize)) :
    crc.swathEntries word = some (advances crc.poly (32 * crc.cls.wordSize) word) := by
  obtain ⟨acc, hloop, hacc⟩ := foldlM_range_invariant
    (fun k acc => acc = advances crc.poly (32 * crc.cls.wordSize) (word % 2 ^ (8 * k)))
    (show 0 = _ by rw [Nat.mul_zero, pow_zero, mod_one, advances_zero]) (by
      intro k (hk : k < crc.cls.wordSize) acc hacc
      exact ⟨_, hacc ▸ swathEntry_eq h hword hk, rfl⟩)
  rw [mod_eq_of_lt hword] at hacc
  exact hacc ▸ hloop

/-! ## The loops -/

/-- What the loops keep: the buffers stand for the register after the bytes before `p`, and none is
wider than a register. -/
structure Swept (crc : CRCImpl) (bytes : List Byte) (c : Nat) (s : Swaths × Nat) : Prop where
  le_length : s.2 ≤ bytes.length
  value_eq : s.1.value crc.poly crc.cls.wordSize = feedBytes crc.poly c (bytes.take s.2)
  buf0_lt : s.1.buf0 < 2 ^ crc.cls.bits
  buf1_lt : s.1.buf1 < 2 ^ crc.cls.bits
  buf2_lt : s.1.buf2 < 2 ^ crc.cls.bits
  buf3_lt : s.1.buf3 < 2 ^ crc.cls.bits

theorem wordSize_le_bits (crc : CRCImpl) : 8 * crc.cls.wordSize ≤ crc.cls.bits := by
  cases h : crc.cls <;> decide

theorem word_lt_bits (crc : CRCImpl) (bytes : List Byte) (p : Nat) :
    wordAt bytes crc.cls.wordSize p < 2 ^ crc.cls.bits :=
  (ofBytes_lt _).trans_le (Nat.pow_le_pow_right (by decide)
    ((Nat.mul_le_mul_left _ (length_take_le _ _)).trans (wordSize_le_bits crc)))

/-- The next word of the input, taken into the buffers. -/
def Swaths.pushAt (crc : CRCImpl) (bytes : List Byte) (s : Swaths × Nat) : Swaths × Nat :=
  (s.1.push crc.poly crc.cls.wordSize (wordAt bytes crc.cls.wordSize s.2), s.2 + crc.cls.wordSize)

theorem Swept.pushAt (hs : Swept crc bytes c s) (hpoly : crc.poly < 2 ^ crc.cls.bits)
    (hroom : s.2 + crc.cls.wordSize ≤ bytes.length) : Swept crc bytes c (pushAt crc bytes s) where
  le_length := hroom
  value_eq := by
    have hfeed := feedBytes_take_add hroom crc.poly c
    rw [← hs.value_eq] at hfeed
    exact (value_push _ _ _ _).trans hfeed.symm
  buf0_lt := xor_lt_two_pow hs.buf1_lt
    ((shiftRight_le _ _).trans_lt hs.buf0_lt)
  buf1_lt := hs.buf2_lt
  buf2_lt := hs.buf3_lt
  buf3_lt := xor_lt_two_pow (word_lt_bits _ _ _)
    (advances_lt hpoly ((mod_le _ _).trans_lt hs.buf0_lt) _)

/-- Four words. -/
def Swaths.pushStride (crc : CRCImpl) (bytes : List Byte) (s : Swaths × Nat) : Swaths × Nat :=
  (pushAt crc bytes)^[4] s

theorem pushStride_snd (s : Swaths × Nat) :
    (pushStride crc bytes s).2 = s.2 + kStride * crc.cls.wordSize := by
  simp only [pushStride, Function.iterate_succ, Function.iterate_zero, Function.comp, id, pushAt,
    kStride]
  ring

theorem Swept.pushStride (hs : Swept crc bytes c s) (hpoly : crc.poly < 2 ^ crc.cls.bits)
    (hroom : s.2 + kStride * crc.cls.wordSize ≤ bytes.length) :
    Swept crc bytes c (pushStride crc bytes s) := by
  rw [kStride] at hroom
  have h₁ := hs.pushAt hpoly (by omega)
  have h₂ := h₁.pushAt hpoly (show s.2 + crc.cls.wordSize + crc.cls.wordSize ≤ _ by omega)
  have h₃ := h₂.pushAt hpoly
    (show s.2 + crc.cls.wordSize + crc.cls.wordSize + crc.cls.wordSize ≤ _ by omega)
  exact h₃.pushAt hpoly (show s.2 + crc.cls.wordSize + crc.cls.wordSize + crc.cls.wordSize +
    crc.cls.wordSize ≤ _ by omega)

/-! ### `CRC32` and `CRC64` -/

/-- The registers are not wider than the words. -/
def CRCImpl.Narrow (crc : CRCImpl) : Prop :=
  crc.cls.bits = 8 * crc.cls.wordSize

/-- A swath of a class up to 64 bits. -/
theorem narrowSwath_eq (h : crc.Extendable) (hnarrow : crc.Narrow) {s buf : Nat}
    (hbuf : buf < 2 ^ crc.cls.bits) (hroom : p + (s + 1) * crc.cls.wordSize ≤ bytes.length) :
    crc.narrowSwath bytes p s buf =
      some (wordAt bytes crc.cls.wordSize (p + s * crc.cls.wordSize) ^^^
        advances crc.poly (32 * crc.cls.wordSize) buf) := by
  rw [narrowSwath, loadWord_eq hroom, swathEntries_eq h (hnarrow ▸ hbuf)]
  rfl

theorem pushAt_narrow (hnarrow : crc.Narrow) {buf0 : Nat} (hbuf : buf0 < 2 ^ crc.cls.bits)
    (buf1 buf2 buf3 p : Nat) : pushAt crc bytes (⟨buf0, buf1, buf2, buf3⟩, p) =
      (⟨buf1, buf2, buf3, wordAt bytes crc.cls.wordSize p ^^^
        advances crc.poly (32 * crc.cls.wordSize) buf0⟩, p + crc.cls.wordSize) := by
  rw [hnarrow] at hbuf
  rw [pushAt, push, shiftRight_eq_zero _ _ hbuf, xor_zero, mod_eq_of_lt hbuf]

/-- A word of a class up to 64 bits. -/
theorem narrowWord_eq (h : crc.Extendable) (hnarrow : crc.Narrow) (hs : Swept crc bytes c s)
    (hroom : s.2 + crc.cls.wordSize ≤ bytes.length) :
    crc.narrowWord bytes s = some (pushAt crc bytes s) := by
  obtain ⟨⟨buf0, buf1, buf2, buf3⟩, p⟩ := s
  have hswath : crc.narrowSwath bytes p 0 buf0 = _ := narrowSwath_eq h hnarrow hs.buf0_lt
    (by rw [zero_add, one_mul]; exact hroom)
  rw [Nat.zero_mul] at hswath
  rw [pushAt_narrow hnarrow hs.buf0_lt, narrowWord]
  rw [hswath]
  rfl

theorem pushStride_eq (s : Swaths × Nat) :
    pushStride crc bytes s =
      pushAt crc bytes (pushAt crc bytes (pushAt crc bytes (pushAt crc bytes s))) :=
  rfl

/-- A room of four words holds each of them. -/
theorem room_of_stride {length : Nat} (hroom : p + 4 * size ≤ length) (hk : k < 4) :
    p + (k + 1) * size ≤ length := by
  have hle : (k + 1) * size ≤ 4 * size := Nat.mul_le_mul_right _ hk
  omega

/-- A stride of a class up to 64 bits. -/
theorem narrowStride_eq (h : crc.Extendable) (hnarrow : crc.Narrow) (hs : Swept crc bytes c s)
    (hroom : s.2 + kStride * crc.cls.wordSize ≤ bytes.length) :
    crc.narrowStride bytes s = some (pushStride crc bytes s) := by
  obtain ⟨⟨buf0, buf1, buf2, buf3⟩, p⟩ := s
  have hswath : ∀ k buf, k < 4 → buf < 2 ^ crc.cls.bits → crc.narrowSwath bytes p k buf =
      some (wordAt bytes crc.cls.wordSize (p + k * crc.cls.wordSize) ^^^
        advances crc.poly (32 * crc.cls.wordSize) buf) := fun k buf hk hbuf =>
    narrowSwath_eq h hnarrow hbuf (room_of_stride hroom hk)
  rw [pushStride_eq, pushAt_narrow hnarrow hs.buf0_lt, pushAt_narrow hnarrow hs.buf1_lt,
    pushAt_narrow hnarrow hs.buf2_lt, pushAt_narrow hnarrow hs.buf3_lt]
  simp only [narrowStride, hswath 0 _ (by decide) hs.buf0_lt, hswath 1 _ (by decide) hs.buf1_lt,
    hswath 2 _ (by decide) hs.buf2_lt, hswath 3 _ (by decide) hs.buf3_lt, Option.bind_eq_bind,
      Option.bind_some, kStride]
  ring_nf

/-! ### `CRC128` -/

/-- A swath of the class of 128 bits. -/
theorem wideSwath_eq (h : crc.Extendable) (hwide : crc.cls = .crc128) {s : Nat} (buf : Nat)
    (hroom : p + (s + 1) * crc.cls.wordSize ≤ bytes.length) :
    crc.wideSwath bytes p s buf = some (wordAt bytes crc.cls.wordSize (p + s * crc.cls.wordSize) ^^^
      advances crc.poly (32 * crc.cls.wordSize) (buf % 2 ^ (8 * crc.cls.wordSize))) := by
  have hlow : uint128Low64 buf % 2 ^ 32 = buf % 2 ^ (8 * crc.cls.wordSize) := by
    rw [hwide]
    exact mod_mod_of_dvd _ (pow_dvd_pow 2 (by decide))
  rw [wideSwath, loadWord_eq hroom, hlow, swathEntries_eq h (mod_lt _ (Nat.two_pow_pos _))]
  rfl

/-- A stride of the class of 128 bits. -/
theorem wideStride_eq (h : crc.Extendable) (hwide : crc.cls = .crc128)
    (hroom : s.2 + kStride * crc.cls.wordSize ≤ bytes.length) :
    crc.wideStride bytes s = some (pushStride crc bytes s) := by
  obtain ⟨⟨buf0, buf1, buf2, buf3⟩, p⟩ := s
  have hswath : ∀ k buf, k < 4 → crc.wideSwath bytes p k buf =
      some (wordAt bytes crc.cls.wordSize (p + k * crc.cls.wordSize) ^^^
        advances crc.poly (32 * crc.cls.wordSize) (buf % 2 ^ (8 * crc.cls.wordSize))) :=
          fun k buf hk =>
    wideSwath_eq h hwide buf (room_of_stride hroom hk)
  have hshift : 32 = 8 * crc.cls.wordSize := by rw [hwide]; rfl
  simp only [wideStride, hswath 0 _ (by decide), hswath 1 _ (by decide), hswath 2 _ (by decide),
    hswath 3 _ (by decide), Option.bind_eq_bind, Option.bind_some, pushStride_eq, pushAt, push,
      kStride, ← hshift]
  ring_nf

/-! ### All of them -/

/-- A loop that goes on while enough input is left. -/
theorem whileLeft_swept {enough : Nat → Bool} {body : Swaths × Nat → Option (Swaths × Nat)}
    (hbody : ∀ s, Swept crc bytes c s → enough (bytes.length - s.2) →
      ∃ s', body s = some s' ∧ Swept crc bytes c s' ∧ s.2 < s'.2) (hs : Swept crc bytes c s) :
    ∃ s', whileLeft bytes.length enough body s = some s' ∧ Swept crc bytes c s' := by
  refine iterate_total _ _ (fun s => bytes.length - s.2) (fun s hs => ?_) hs
  split
  next henough =>
    obtain ⟨s', hround, hs', hlt⟩ := hbody s hs henough
    have hend := hs'.le_length
    exact .inl ⟨s', by rw [hround]; rfl, hs', by omega⟩
  next => exact .inr ⟨s, rfl, hs⟩

section Strides

variable {stepStride : Swaths × Nat → Option (Swaths × Nat)} (hpoly : crc.poly < 2 ^ crc.cls.bits)
  (hstride : ∀ s, Swept crc bytes c s → s.2 + kStride * crc.cls.wordSize ≤ bytes.length →
    stepStride s = some (pushStride crc bytes s)) {perRound : Nat}
include hpoly hstride

/-- One round of the prefetching loop. -/
theorem round_spec (hs : Swept crc bytes c s)
    (hroom : s.2 + perRound * (kStride * crc.cls.wordSize) ≤ bytes.length) :
    ∃ s', (range perRound).foldlM (fun s _ => stepStride s) s = some s' ∧ Swept crc bytes c s' ∧
      s'.2 = s.2 + perRound * (kStride * crc.cls.wordSize) := by
  refine foldlM_range_invariant
    (fun k s' => Swept crc bytes c s' ∧ s'.2 = s.2 + k * (kStride * crc.cls.wordSize))
    ⟨hs, by rw [Nat.zero_mul, add_zero]⟩ fun k hk s' ⟨hs', hpos⟩ => ?_
  have hle : (k + 1) * (kStride * crc.cls.wordSize) ≤ perRound * (kStride * crc.cls.wordSize) :=
    Nat.mul_le_mul_right _ hk
  rw [succ_mul] at hle
  have hnext : s'.2 + kStride * crc.cls.wordSize ≤ bytes.length := by omega
  refine ⟨_, hstride s' hs' hnext, hs'.pushStride hpoly hnext, ?_⟩
  rw [pushStride_snd, hpos, succ_mul, add_assoc]

/-- All strides, with and without prefetching. -/
theorem strides_spec (hpositive : 0 < perRound)
    (hround : perRound * (kStride * crc.cls.wordSize) ≤ kPrefetchHorizon)
    (hs : Swept crc bytes c s) :
    ∃ s', crc.strides bytes perRound stepStride s = some s' ∧ Swept crc bytes c s' := by
  have hsize : 0 < kStride * crc.cls.wordSize := mul_pos (by decide) (wordSize_pos crc)
  have hadvance : 0 < perRound * (kStride * crc.cls.wordSize) := mul_pos hpositive hsize
  have hrounds : ∃ s', whileLeft bytes.length (fun left => kPrefetchHorizon < left)
      (fun s => (range perRound).foldlM (fun s _ => stepStride s) s) s = some s' ∧
        Swept crc bytes c s' := by
    refine whileLeft_swept (fun s hs henough => ?_) hs
    have hleft : kPrefetchHorizon < bytes.length - s.2 := of_decide_eq_true henough
    obtain ⟨s', hfold, hs', hpos⟩ := round_spec hpoly hstride hs
      (show s.2 + perRound * (kStride * crc.cls.wordSize) ≤ bytes.length by omega)
    exact ⟨s', hfold, hs', by omega⟩
  obtain ⟨s₁, hloop₁, hs₁⟩ := hrounds
  have hrest : ∃ s', whileLeft bytes.length (fun left => kStride * crc.cls.wordSize ≤
      left) stepStride s₁ =
      some s' ∧ Swept crc bytes c s' := by
    refine whileLeft_swept (fun s hs henough => ?_) hs₁
    have hleft : kStride * crc.cls.wordSize ≤ bytes.length - s.2 := of_decide_eq_true henough
    have hroom : s.2 + kStride * crc.cls.wordSize ≤ bytes.length := by omega
    exact ⟨_, hstride s hs hroom, hs.pushStride hpoly hroom, by rw [pushStride_snd]; omega⟩
  obtain ⟨s₂, hloop₂, hs₂⟩ := hrest
  refine ⟨s₂, ?_, hs₂⟩
  rw [strides, hloop₁]
  exact hloop₂

end Strides

/-- The first four words fill the buffers. -/
theorem loadSwaths_spec (hpoly : crc.poly < 2 ^ crc.cls.bits) (hc : c < 2 ^ crc.cls.bits)
    (hroom : p + kStride * crc.cls.wordSize ≤ bytes.length) :
    ∃ bufs, crc.loadSwaths bytes (feedBytes crc.poly c (bytes.take p)) p = some bufs ∧
      Swept crc bytes c (bufs, p + kStride * crc.cls.wordSize) := by
  have hword : ∀ k < 4, crc.loadWord bytes p k =
      some (wordAt bytes crc.cls.wordSize (p + k * crc.cls.wordSize)) := fun k hk =>
    loadWord_eq (room_of_stride hroom hk)
  refine ⟨_, by simp only [loadSwaths, hword 0 (by decide), hword 1 (by decide),
    hword 2 (by decide), hword 3 (by decide), Option.bind_eq_bind, Option.bind_some]; rfl, ?_⟩
  have hfeed : ∀ k < 4, feedBytes crc.poly c (bytes.take (p + (k + 1) * crc.cls.wordSize)) =
      advances crc.poly (8 * crc.cls.wordSize) (feedBytes crc.poly c
        (bytes.take (p + k * crc.cls.wordSize)) ^^^
          wordAt bytes crc.cls.wordSize (p + k * crc.cls.wordSize)) := by
    intro k hk
    have hroom' := room_of_stride hroom hk
    rw [succ_mul, ← add_assoc] at hroom' ⊢
    exact feedBytes_take_add hroom' _ _
  exact
    { le_length := hroom
      value_eq := by
        dsimp only [value]
        rw [kStride, hfeed 3 (by decide), hfeed 2 (by decide), hfeed 1 (by decide),
          hfeed 0 (by decide),
          Nat.zero_mul, add_zero]
        simp only [Nat.xor_comm]
      buf0_lt := xor_lt_two_pow (word_lt_bits _ _ _) (feedBytes_lt hpoly hc _)
      buf1_lt := word_lt_bits _ _ _
      buf2_lt := word_lt_bits _ _ _
      buf3_lt := word_lt_bits _ _ _ }

/-- The swaths leave a register that has taken in everything before some position. -/
def CRCImpl.SwathsCorrect (crc : CRCImpl) (swaths : List Byte → Nat → Nat → Option (Nat × Nat)) :
    Prop :=
  ∀ bytes c p, c < 2 ^ crc.cls.bits → p ≤ bytes.length →
    ∃ p' ≤ bytes.length, swaths bytes (feedBytes crc.poly c (bytes.take p)) p =
      some (feedBytes crc.poly c (bytes.take p'), p')

/-- The swaths of a class up to 64 bits. -/
theorem narrowSwaths_correct (h : crc.Extendable) (hnarrow : crc.Narrow) {cls : NarrowClass}
    (hpositive : 0 < cls.perRound)
    (hround : cls.perRound * (kStride * crc.cls.wordSize) ≤ kPrefetchHorizon) :
    crc.SwathsCorrect (crc.narrowSwaths cls) := by
  intro bytes c p hc hp
  rw [narrowSwaths]
  split
  next hleft =>
    obtain ⟨bufs, hload, hs⟩ := loadSwaths_spec h.poly_lt hc
      (show p + kStride * crc.cls.wordSize ≤ bytes.length by omega)
    obtain ⟨s₁, hstrides, hs₁⟩ := strides_spec h.poly_lt (fun s hs => narrowStride_eq h hnarrow hs)
      hpositive hround hs
    have hwords : ∃ s', whileLeft bytes.length (fun left => crc.cls.wordSize ≤ left)
        (crc.narrowWord bytes) s₁ = some s' ∧ Swept crc bytes c s' := by
      refine whileLeft_swept (fun s hs henough => ?_) hs₁
      have hleft : crc.cls.wordSize ≤ bytes.length - s.2 := of_decide_eq_true henough
      have hsize := wordSize_pos crc
      have hroom : s.2 + crc.cls.wordSize ≤ bytes.length := by omega
      exact ⟨_, narrowWord_eq h hnarrow hs hroom, hs.pushAt h.poly_lt hroom,
        Nat.lt_add_of_pos_right hsize⟩
    obtain ⟨s₂, hloop, hs₂⟩ := hwords
    refine ⟨s₂.2, hs₂.le_length, ?_⟩
    simp only [hload, hstrides, hloop, combine_eq h.table0, hs₂.value_eq, Option.bind_eq_bind,
      Option.bind_some]
  next => exact ⟨p, hp, rfl⟩

/-- The swaths of the class of 128 bits. -/
theorem wideSwaths_correct (h : crc.Extendable) (hwide : crc.cls = .crc128) :
    crc.SwathsCorrect crc.wideSwaths := by
  intro bytes c p hc hp
  rw [wideSwaths]
  split
  next hleft =>
    obtain ⟨bufs, hload, hs⟩ := loadSwaths_spec h.poly_lt hc
      (show p + kStride * crc.cls.wordSize ≤ bytes.length by omega)
    obtain ⟨s₁, hstrides, hs₁⟩ := strides_spec h.poly_lt (fun s _ => wideStride_eq h hwide)
      (show 0 < 4 by decide) (by rw [hwide]; decide) hs
    refine ⟨s₁.2, hs₁.le_length, ?_⟩
    simp only [hload, hstrides, combine_eq h.table0, hs₁.value_eq, Option.bind_eq_bind,
      Option.bind_some]
  next => exact ⟨p, hp, rfl⟩

/-- The swaths of every class feed their input. -/
theorem swaths_correct (h : crc.Extendable) : crc.SwathsCorrect crc.swaths := by
  rw [swaths]
  cases hcls : crc.cls with
  | crc32 =>
    exact narrowSwaths_correct h (by rw [CRCImpl.Narrow, hcls]; rfl) (by decide)
      (by rw [hcls]; decide)
  | crc64 =>
    exact narrowSwaths_correct h (by rw [CRCImpl.Narrow, hcls]; rfl) (by decide)
      (by rw [hcls]; decide)
  | crc128 => exact wideSwaths_correct h hcls

/-! ## The interface -/

/-- The words in which a caller holds the CRC `c`. -/
def LoHi.ofCrc (c : Nat) : LoHi :=
  ⟨uint128Low64 c, uint128High64 c⟩

theorem makeUint128_ofCrc (c : Nat) : makeUint128 (ofCrc c).hi (ofCrc c).lo = c := by
  rw [ofCrc, makeUint128, uint128High64, shiftRight_eq_div_pow, mul_comm]
  exact div_add_mod _ _

/-- A value that fits can be read back from the two words. -/
theorem register_ofCrc (hc : c < 2 ^ crc.cls.bits) : crc.register (ofCrc c) = c := by
  rw [register]
  cases hcls : crc.cls with
  | crc32 =>
    rw [hcls] at hc
    exact (mod_mod_of_dvd _ (pow_dvd_pow 2 (by decide))).trans (mod_eq_of_lt hc)
  | crc64 =>
    rw [hcls] at hc
    exact mod_eq_of_lt hc
  | crc128 => exact makeUint128_ofCrc c

theorem ofCrc_of_lt (hc : c < 2 ^ 64) : ofCrc c = ⟨c, 0⟩ := by
  rw [ofCrc, uint128Low64, uint128High64, mod_eq_of_lt hc, shiftRight_eq_zero _ _ hc]

/-- A value is written back to the two words. -/
theorem writeBack_ofCrc (hc : c < 2 ^ crc.cls.bits) {l : Nat} (hl : l < 2 ^ crc.cls.bits) :
    crc.writeBack (ofCrc c) l = ofCrc l := by
  rw [writeBack]
  cases hcls : crc.cls with
  | crc32 =>
    rw [hcls] at hc hl
    have hwide : 2 ^ SoftwareClass.crc32.bits ≤ 2 ^ 64 := by decide
    rw [ofCrc_of_lt (hc.trans_le hwide), ofCrc_of_lt (hl.trans_le hwide)]
  | crc64 =>
    rw [hcls] at hc hl
    rw [ofCrc_of_lt hc, ofCrc_of_lt hl]
  | crc128 => rfl

/-- `Extend` feeds the bytes to the CRC. -/
theorem extend_eq (h : crc.Extendable) (pl : Platform) (hc : c < 2 ^ crc.cls.bits) (address : Nat)
    (bytes : List Byte) :
    crc.extend pl (ofCrc c) address bytes = some (ofCrc (feedBytes crc.poly c bytes)) := by
  rw [extend]
  split
  next hempty =>
    obtain rfl : bytes = [] := length_eq_zero_iff.mp (by omega)
    rfl
  next =>
    obtain ⟨p, hp, halign⟩ := align_spec h.table0 pl bytes c address
    obtain ⟨p', hp', hswaths⟩ := swaths_correct h bytes c p hc hp
    have htail := stepsTo_eq (c := c) h.table0 hp' (le_refl bytes.length)
    rw [take_length] at htail
    simp only [register_ofCrc hc, halign, hswaths, htail, Option.bind_eq_bind, Option.bind_some,
      writeBack_ofCrc hc (feedBytes_lt h.poly_lt hc bytes)]

end

/-! ## `ExtendByZeroes` -/

open Gloop.Foundation Gloop.Foundation.ShiftRegister List Nat CRCImpl LoHi

/-- The tables with which `ExtendByZeroes` works. -/
structure CRCImpl.Ready (crc : CRCImpl) : Prop extends crc.Extendable where
  degree_ge : 8 ≤ crc.degree
  degree_le : crc.degree ≤ crc.cls.bits
  poly_lt_degree : crc.poly < 2 ^ crc.degree
  zeroes : ∀ q < 210, crc.zeroes[q]? = some (zeroEntry crc.poly crc.degree 0 q)

variable {crc : CRCImpl} {c : Nat}

theorem CRCImpl.Ready.lt_bits (h : crc.Ready) (hc : c < 2 ^ crc.degree) : c < 2 ^ crc.cls.bits :=
  hc.trans_le (Nat.pow_le_pow_right (by decide) h.degree_le)

/-! ## The multiplication of `CRC32` and `CRC64` -/

theorem and_three (n : Nat) : n &&& 3 = n % 2 ^ 2 :=
  and_two_pow_sub_one_eq_mod n 2

/-- The table for two bits. -/
theorem mtab_lookup (m x : Nat) :
    [0, m, m <<< 1, m <<< 1 ^^^ m][x &&& 3]? = some (carryless 2 x m) := by
  rw [and_three, ← carryless_mod]
  have hlt : x % 2 ^ 2 < 4 := mod_lt _ (by decide)
  generalize x % 2 ^ 2 = y at hlt
  have hcases : y = 0 ∨ y = 1 ∨ y = 2 ∨ y = 3 := by omega
  rcases hcases with rfl | rfl | rfl | rfl
  · simp [carryless]
  · simp [carryless, testBit]
  · simp [carryless, testBit]
  · simp [carryless, testBit, Nat.xor_comm]

/-- Eight bits, two at a time. -/
theorem carryless_eight (v m : Nat) :
    carryless 8 v m = carryless 2 v m ^^^ carryless 2 (v >>> 2) m <<< 2 ^^^
      carryless 2 (v >>> 4) m <<< 4 ^^^ carryless 2 (v >>> 6) m <<< 6 := by
  rw [show 8 = 2 + 2 + 2 + 2 from rfl, carryless_add, carryless_add, carryless_add]

variable {bits l b total n : Nat}

/-- Shifting what fits is not cut off. -/
theorem shiftLeft_mod_of_lt {v w s : Nat} (hv : v < 2 ^ w) (hfits : w + s ≤ bits) :
    (v <<< s) % 2 ^ bits = v <<< s := by
  refine mod_eq_of_lt ?_
  rw [shiftLeft_eq]
  refine lt_of_lt_of_le (Nat.mul_lt_mul_of_pos_right hv (Nat.two_pow_pos s)) ?_
  rw [← pow_add]
  exact Nat.pow_le_pow_right (by decide) hfits

variable (h : crc.Ready)
include h

/-- The product of one byte is added and reduced. -/
theorem multiplyByte_eq (hnarrow : crc.cls.bits ≤ 64) {result entry : Nat}
    (hbits : crc.degree + 8 ≤ bits) (hresult : result < 2 ^ crc.degree)
    (hentry : entry < 2 ^ crc.degree) (l i : Nat) :
    crc.multiplyByte (2 ^ bits) [0, entry <<< 1, (entry <<< 1) <<< 1,
      (entry <<< 1) <<< 1 ^^^ entry <<< 1]
        (result, l) i =
      some (advances crc.poly 8 result ^^^ mulBits crc.poly 8 l entry, l >>> 8) := by
  have hm : entry <<< 1 < 2 ^ (crc.degree + 1) := by
    omega
  have htwo : ∀ v s, s ≤ 6 → (carryless 2 v (entry <<< 1) <<< s) % 2 ^ bits =
      carryless 2 v (entry <<< 1) <<< s := fun v s hs =>
    shiftLeft_mod_of_lt (carryless_lt hm 1 v) (by omega)
  have hsum : result ^^^ carryless 8 l (entry <<< 1) < 2 ^ (crc.degree + 8) :=
    xor_lt_two_pow (hresult.trans_le (Nat.pow_le_pow_right (by decide) (by omega)))
      ((carryless_lt hm 7 l).trans_eq (congrArg _ (by omega)))
  have hhigh : uint128Low64 ((result ^^^ carryless 8 l (entry <<< 1)) >>> 8) =
      (result ^^^ carryless 8 l (entry <<< 1)) >>> 8 := by
    refine mod_eq_of_lt ?_
    rw [shiftRight_eq_div_pow, Nat.div_lt_iff_lt_mul (Nat.two_pow_pos 8), ← pow_add]
    exact hsum.trans_le (Nat.pow_le_pow_right (by decide) (by have := h.degree_le; omega))
  have hlow : uint128Low64 (result ^^^ carryless 8 l (entry <<< 1)) &&& 0xff =
      (result ^^^ carryless 8 l (entry <<< 1)) % 2 ^ 8 := by
    rw [and_0xff]
    exact mod_mod_of_dvd _ (pow_dvd_pow 2 (by decide))
  have hlookup : crc.table0[(result ^^^ carryless 8 l (entry <<< 1)) % 2 ^ 8]? = _ :=
    h.table0 _ (mod_lt _ (by decide))
  rw [← advances_carryless, ← advances_xor, advances_eq_low_xor_high, Nat.xor_comm (advances _ _ _)]
  simp only [multiplyByte, mtab_lookup, htwo _ _ (show 2 ≤ 6 by decide),
    htwo _ _ (show 4 ≤ 6 by decide), htwo _ _ (show 6 ≤ 6 by decide), ← carryless_eight, hlow,
    hhigh, hlookup, Option.bind_eq_bind, Option.bind_some]

/-- Multiplying by an entry of `zeroes_` takes its steps. -/
theorem narrowMultiply_eq (hnarrow : crc.cls.bits ≤ 64) {cls : NarrowClass}
    (hproduct : crc.degree + 8 ≤ cls.productBits) (hword : crc.cls.bits % 8 = 0)
    (hl : l < 2 ^ crc.degree) (n : Nat) :
    crc.narrowMultiply cls l (advances crc.poly n (2 ^ (crc.degree - 1))) =
      some (advances crc.poly n l) := by
  have hge := h.degree_ge
  have hle := h.degree_le
  have hentry := advances_unit_lt (by omega) h.poly_lt_degree n
  have hm : (advances crc.poly n (2 ^ (crc.degree - 1)) <<< 1) % 2 ^ cls.productBits =
      advances crc.poly n (2 ^ (crc.degree - 1)) <<< 1 := shiftLeft_mod_of_lt hentry (by omega)
  have hm2 : ((advances crc.poly n (2 ^ (crc.degree - 1)) <<< 1) <<< 1) % 2 ^ cls.productBits =
      (advances crc.poly n (2 ^ (crc.degree - 1)) <<< 1) <<< 1 := by
    rw [← shiftLeft_add]
    exact shiftLeft_mod_of_lt hentry (by omega)
  -- `l` is moved up to whole bytes, which leaves the product as it is
  obtain ⟨s, hs, hbytes⟩ : ∃ s, (8 - (crc.degree &&& 7)) &&& 7 = s ∧
      8 * ((crc.degree + 7) / 8) = s + crc.degree := by
    rw [show (7 : Nat) = 2 ^ 3 - 1 from rfl, and_two_pow_sub_one_eq_mod, and_two_pow_sub_one_eq_mod]
    exact ⟨_, rfl, by omega⟩
  have hshift : (l <<< s) % 2 ^ crc.cls.bits = l <<< s := shiftLeft_mod_of_lt hl (by omega)
  obtain ⟨⟨result, rest⟩, hloop, hresult⟩ := foldlM_range_invariant
    (fun k (state : Nat × Nat) => state =
      (mulBits crc.poly (8 * k) (l <<< s) (advances crc.poly n (2 ^ (crc.degree - 1))),
        (l <<< s) >>> (8 * k)))
    (show (0, l <<< s) = _ from rfl) (by
      rintro k hk _ rfl
      refine ⟨_, multiplyByte_eq h hnarrow hproduct
        (mulBits_lt h.poly_lt_degree hentry _ _) hentry _ k, ?_⟩
      rw [mul_succ, mulBits_add, shiftRight_add])
  obtain ⟨rfl, -⟩ := Prod.ext_iff.mp hresult
  rw [hbytes, mulBits_shiftLeft, mulBits_advances_unit (by omega) hl] at hloop
  rw [narrowMultiply]
  rw [hm, hm2, hs, hshift, hloop]
  exact congrArg some (mod_eq_of_lt (h.lt_bits (advances_lt h.poly_lt_degree hl n)))

/-- A product with the unit after `n` steps makes `n` steps. -/
theorem multiply_eq (hl : l < 2 ^ crc.degree) (n : Nat) :
    crc.multiply l (advances crc.poly n (2 ^ (crc.degree - 1))) = some (advances crc.poly n l) := by
  have hle := h.degree_le
  have hge := h.degree_ge
  rw [multiply]
  cases hcls : crc.cls with
  | crc32 | crc64 =>
    rw [hcls] at hle
    exact narrowMultiply_eq h (by rw [hcls]; decide)
      (Nat.le_trans (Nat.add_le_add_right hle 8) (by decide)) (by rw [hcls]; decide) hl n
  | crc128 => exact congrArg some (polyMultiply_unit (by omega) hl n)

/-! ## The digits of the length -/

/-- The state of the loop at the place `b` of the length `total`, in units of 256 bytes. -/
def zeroesAt (crc : CRCImpl) (l total b : Nat) : Nat × Nat × Nat :=
  (15 * b, total / 16 ^ b, advances crc.poly (8 * (256 * (total % 16 ^ b))) l)

omit h in
theorem and_fifteen (n : Nat) : n &&& (zeroesBase - 1) = n % 16 :=
  and_two_pow_sub_one_eq_mod n 4

/-- A digit takes its steps. -/
theorem multiplyDigit_eq {d : Nat} (hl : l < 2 ^ crc.degree) (hb : b < 14) (hd : d < 16) :
    crc.multiplyDigit l d (15 * b) = some (advances crc.poly (8 * (256 * (16 ^ b * d))) l) := by
  rw [multiplyDigit]
  split
  next hpositive =>
    have hentry := h.zeroes (15 * b + (d - 1)) (by omega)
    rw [zeroEntry, zeroBytes_eq (by omega), Nat.sub_add_cancel (by omega)] at hentry
    rw [show d + 15 * b - 1 = 15 * b + (d - 1) by omega, hentry, Option.bind_eq_bind,
      Option.bind_some, multiply_eq h hl]
    ring_nf
  next hzero =>
    rw [not_not.mp hzero]
    rfl

/-- A round takes one digit of the length. -/
theorem zeroesRound_eq (hl : l < 2 ^ crc.degree) (htotal : total < 16 ^ 14)
    (hmore : total / 16 ^ b ≠ 0) : crc.zeroesRound (zeroesAt crc l total b) =
      some (.inl (zeroesAt crc l total (b + 1))) := by
  have hb : b < 14 := by
    by_contra hge
    exact hmore (div_eq_of_lt (htotal.trans_le (Nat.pow_le_pow_right (by decide) (by omega))))
  have hdigit := multiplyDigit_eq h
    (advances_lt h.poly_lt_degree hl (8 * (256 * (total % 16 ^ b)))) hb
    (mod_lt (total / 16 ^ b) (by decide))
  rw [← advances_add, ← mul_add, ← mul_add, add_comm, ← mod_mul] at hdigit
  have hquot : (total / 16 ^ b) >>> zeroesBaseLg = total / 16 ^ (b + 1) := by
    rw [shiftRight_eq_div_pow, pow_succ, ← Nat.div_div_eq_div_mul]
    rfl
  rw [zeroesAt, zeroesRound, if_neg hmore, and_fifteen, hdigit, hquot]
  rfl

/-- The loop takes all digits of the length. -/
theorem zeroesLoop_eq (hl : l < 2 ^ crc.degree) (htotal : total < 16 ^ 14) :
    crc.zeroesLoop l total = some (advances crc.poly (8 * (256 * total)) l) := by
  have hstart : (0, total, l) = zeroesAt crc l total 0 := by
    rw [zeroesAt, Nat.pow_zero, Nat.div_one, mod_one]
    rfl
  rw [zeroesLoop, hstart]
  refine iterate_eq (fun s => ∃ b ≤ 14, s = zeroesAt crc l total b) (fun s => 15 * 14 - s.1) ?_
    ⟨0, by decide, rfl⟩
  rintro _ ⟨b, hb, rfl⟩
  by_cases hmore : total / 16 ^ b = 0
  · refine .inr ((if_pos hmore).trans ?_)
    rw [mod_eq_of_lt ((div_eq_zero_iff_lt (Nat.pow_pos (by decide))).mp hmore)]
  · have hlt : b < 14 := by
      by_contra hge
      obtain rfl : b = 14 := by omega
      exact hmore (div_eq_of_lt htotal)
    refine .inl ⟨_, zeroesRound_eq h hl htotal hmore, ⟨b + 1, hlt, rfl⟩, ?_⟩
    simp only [zeroesAt]
    omega

/-! ## The interface -/

omit h in
theorem feedBytes_replicate_zero (poly c n : Nat) :
    feedBytes poly c (replicate n 0) = advances poly (8 * n) c := by
  have hzero : ofBytes (replicate n 0) = 0 := by
    induction n with
    | zero => rfl
    | succ n ih => rw [replicate_succ, ofBytes, ih]; rfl
  rw [feedBytes_eq, length_replicate, hzero, xor_zero]

/-- The part of the length below 256. -/
theorem extendSmallPart_eq (pl : Platform) (hc : c < 2 ^ crc.degree) (n : Nat) :
    crc.extendSmallPart pl (ofCrc c) n = some (ofCrc (advances crc.poly (8 * n) c)) := by
  rw [extendSmallPart]
  split
  next => rw [extend_eq h.toExtendable pl (h.lt_bits hc), feedBytes_replicate_zero]
  next hzero =>
    rw [not_not.mp hzero]
    rfl

/-- The part of the length in multiples of 256. -/
theorem extendLargePart_eq (hc : c < 2 ^ crc.degree) (hn : n < 16 ^ 14) :
    crc.extendLargePart (ofCrc c) n = some (ofCrc (advances crc.poly (8 * (256 * n)) c)) := by
  rw [extendLargePart]
  split
  next =>
    have hafter := h.lt_bits (advances_lt h.poly_lt_degree hc (8 * (256 * n)))
    rw [register_ofCrc (h.lt_bits hc), zeroesLoop_eq h hc hn, Option.bind_eq_bind, Option.bind_some,
      writeBack_ofCrc (h.lt_bits hc) hafter]
  next hzero =>
    rw [not_not.mp hzero]
    rfl

/-- `ExtendByZeroes` takes eight steps for each byte. -/
theorem extendByZeroes_eq (pl : Platform) (hc : c < 2 ^ crc.degree) (hn : n < 2 ^ 63) :
    crc.extendByZeroes pl (ofCrc c) n = some (ofCrc (advances crc.poly (8 * n) c)) := by
  rw [extendByZeroes]
  split
  next hzero =>
    obtain rfl : n = 0 := by omega
    rfl
  next =>
    have hlow : n &&& ((1 <<< smallBits) - 1) = n % 256 := and_two_pow_sub_one_eq_mod n 8
    have hhigh : n >>> smallBits = n / 256 := shiftRight_eq_div_pow n 8
    have hsplit : 8 * (256 * (n / 256)) + 8 * (n % 256) = 8 * n := by omega
    have hlarge := extendLargePart_eq h (advances_lt h.poly_lt_degree hc (8 * (n % 256)))
      (show n / 256 < 16 ^ 14 by omega)
    rw [← advances_add, hsplit] at hlarge
    dsimp only
    rw [Int.toNat_natCast, hlow, hhigh, extendSmallPart_eq h pl hc]
    exact hlarge

end Gloop.Hash.Crc

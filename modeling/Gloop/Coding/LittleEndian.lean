import Gloop.Foundation.BitField

/-!
# Words in memory

`LittleEndian::Load64` and `Store64` at a position of a buffer, and the `Load` and `Store` of
`gtl::Unaligned`, which are little-endian on the targets considered. An access outside the buffer is
`none`.
-/

namespace Gloop.Coding.LittleEndian

open Gloop.Foundation

/-- `LittleEndian::Load64(ptr)`. -/
def load64 (mem : List Byte) (ptr : Nat) : Option (BitVec 64) := do
  let n ← load mem ptr 8
  pure (BitVec.ofNat 64 n)

/-- `LittleEndian::Store64(ptr, v)`. -/
def store64 (mem : List Byte) (ptr : Nat) (v : BitVec 64) : Option (List Byte) :=
  store mem ptr (toBytes v.toNat 8)

/-- `Load()` of a `gtl::Unaligned` integer of `count` bytes. -/
def loadUnaligned (count : Nat) (mem : List Byte) (ptr : Nat) : Option Nat :=
  load mem ptr count

/-- `Store(v)` of a `gtl::Unaligned` integer of `count` bytes, to which `v` is converted. -/
def storeUnaligned (count : Nat) (mem : List Byte) (ptr v : Nat) : Option (List Byte) :=
  store mem ptr (toBytes v count)

variable {mem : List Byte} {ptr : Nat}

theorem load64_eq (h : ptr + 8 ≤ mem.length) :
    load64 mem ptr = some (BitVec.ofNat 64 (field mem (8 * ptr) 64)) := by
  rw [load64, load_eq_some h]
  rfl

/-- The bits of a word that was loaded. -/
theorem getLsbD_load64 (mem : List Byte) (ptr : Nat) {j : Nat} (hj : j < 64) :
    (BitVec.ofNat 64 (field mem (8 * ptr) 64)).getLsbD j = bitAt mem (8 * ptr + j) := by
  rw [BitVec.getLsbD_ofNat, testBit_field, decide_eq_true hj, Bool.true_and, Bool.true_and]

theorem storeUnaligned_spec (count v : Nat) (h : ptr + count ≤ mem.length) :
    ∃ mem', storeUnaligned count mem ptr v = some mem' ∧ Overwrites mem mem' (8 * ptr)
      (8 * count) v :=
  store_toBytes h v

/-- The first `k` entries of an array of integers of `count` bytes are written, and nothing else
is. -/
structure Stored (count : Nat) (mem mem' : List Byte) (p : Nat) (f : Nat → Nat) (k : Nat) :
    Prop where
  frame : Frame mem mem' (8 * p) (8 * (p + count * k))
  entries : ∀ i < k, field mem' (8 * (p + count * i)) (8 * count) = f i % 2 ^ (8 * count)

theorem Stored.zero (count : Nat) (mem : List Byte) (p : Nat) (f : Nat → Nat) :
    Stored count mem mem p f 0 :=
  ⟨Frame.refl mem _ _, fun i hi => absurd hi (Nat.not_lt_zero i)⟩

/-- One more value is stored after the others. -/
theorem Stored.next {count p k : Nat} {mem' : List Byte} {f : Nat → Nat}
    (h : Stored count mem mem' p f k) (hroom : p + count * (k + 1) ≤ mem.length) :
    ∃ mem'', storeUnaligned count mem' (p + count * k) (f k) = some mem'' ∧
      Stored count mem mem'' p f (k + 1) := by
  rw [mul_add] at hroom
  obtain ⟨mem'', hstore, hover⟩ := storeUnaligned_spec count (f k)
    (show p + count * k + count ≤ mem'.length by rw [h.frame.length_eq]; omega)
  refine ⟨mem'', hstore, ?_, fun i hi => ?_⟩
  · have hnext : count * (k + 1) = count * k + count := Nat.mul_succ _ _
    exact (h.frame.mono (le_refl _) (by omega)).trans (hover.frame.mono (by omega) (by omega))
  · rcases Nat.lt_succ_iff_lt_or_eq.mp hi with hlt | rfl
    · have hle : count * (i + 1) ≤ count * k := Nat.mul_le_mul_left _ hlt
      rw [mul_add] at hle
      rw [hover.field_other (.inl (by omega)), h.entries i hlt]
    · exact hover.field_same

end Gloop.Coding.LittleEndian

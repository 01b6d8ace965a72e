import Gloop.Coding.EliasFano.Model
import Gloop.Coding.EliasFano.Append

/-!
# The index that `Encoder::BuildIndex` writes

`highStream` is the stream of ones or zeros that stands in memory from the high bits on, and into
the arrays that follow them. Its index cuts the set bits into blocks of `kD1`. `BlockIndexed` says
what the dense entry of a block, and for a block that is spread out its sparse entries, tell about
the positions of these bits. `nextPos_spec` is about the scan for the next bit, `writeDeltas_spec`
about one block, and `buildIndex_true` and `buildIndex_false` about all of them. The count of sparse
blocks is bounded by the bits that are not indexed: each of them has `kR - kD1` of these bits.
-/

namespace Gloop.Coding.EliasFano

section

open Gloop.Foundation Gloop.Coding.LittleEndian

/-- The ones, or the zeros, from the high bits on. -/
def highStream (one : Bool) (mem : List Byte) (high k : Nat) : Bool :=
  bitAt mem (8 * high + k) == one

/-- The zeros are where there are no ones. -/
theorem highStream_false (mem : List Byte) (high k : Nat) :
    highStream false mem high k = !highStream true mem high k := by
  unfold highStream
  cases bitAt mem (8 * high + k) <;> rfl

/-- The ones are the bits of the memory. -/
theorem highStream_true (mem : List Byte) (high k : Nat) :
    highStream true mem high k = bitAt mem (8 * high + k) := by
  unfold highStream
  cases bitAt mem (8 * high + k) <;> rfl

theorem loadHigh_spec (one : Bool) {mem : List Byte} (high byte : Nat)
    (h : high + byte + 8 ≤ mem.length) : ∃ word, Encoder.loadHigh one mem high byte = some word ∧
      ∀ j < 64, word.getLsbD j = highStream one mem high (8 * byte + j) := by
  have hbit : ∀ j < 64, (BitVec.ofNat 64 (field mem (8 * (high + byte)) 64)).getLsbD j =
      bitAt mem (8 * high + (8 * byte + j)) := by
    intro j hj
    rw [getLsbD_load64 _ _ hj, mul_add, add_assoc]
  rw [Encoder.loadHigh, load64_eq h]
  cases one with
  | true => exact ⟨_, rfl, fun j hj => by rw [highStream_true]; exact hbit j hj⟩
  | false =>
    refine ⟨_, rfl, fun j hj => ?_⟩
    rw [highStream_false, highStream_true]
    show BitVec.getLsbD (~~~_) j = _
    rw [BitVec.getLsbD_not, decide_eq_true hj, Bool.true_and, hbit j hj]

end

open Gloop.Foundation Gloop.Coding.LittleEndian List Option Nat EliasFano.Encoder
variable {e : Encoder} {one : Bool} {s : Nat → Bool} {B T r p : Nat}

/-! ## The scan -/

/-- The cursor is in the word that holds, or comes before, the bit of rank `r`, and bits of lower
rank are cleared from its word. Nothing is known about bits after `B`. -/
structure Encoder.Cursor.At (s : Nat → Bool) (B : Nat) (c : Encoder.Cursor) (r : Nat) : Prop where
  below : rank s (8 * c.byte) ≤ r
  above : r ≤ rank s (8 * c.byte + 64)
  high : ∀ j < 64, 8 * c.byte + j ≤ B →
    c.high.getLsbD j = (s (8 * c.byte + j) && decide (r ≤ rank s (8 * c.byte + j)))

variable {c : Encoder.Cursor}

section

variable (hp : Selects s r p)
include hp

/-- A bit of rank `r` that the cursor has not passed is not before its word. -/
theorem Encoder.Cursor.At.le_pos (h : c.At s B r) : 8 * c.byte ≤ p := by
  by_contra hlt
  have := hp.lt_iff.mp (Nat.lt_of_not_le hlt)
  have := h.below
  omega

/-- If the bit is in the word of the cursor, then that word has it. -/
theorem Encoder.Cursor.At.bit (h : c.At s B r) (hB : p ≤ B)
    (hword : p < 8 * c.byte + 64) : c.high.getLsbD (p - 8 * c.byte) = true := by
  have hle := h.le_pos hp
  rw [h.high _ (by omega) (by omega), Nat.add_sub_cancel' hle, hp.bit, hp.rank_eq,
    decide_eq_true (le_refl r), Bool.and_self]

/-- Bits of the word are at or after the bit of rank `r`. -/
theorem Encoder.Cursor.At.pos_le (h : c.At s B r) {j : Nat}
    (hj : c.high.getLsbD j = true) (hB : 8 * c.byte + j ≤ B) : p ≤ 8 * c.byte + j := by
  rw [h.high j (BitVec.lt_of_getLsbD hj) hB, Bool.and_eq_true, decide_eq_true_eq] at hj
  by_contra hlt
  have := rank_mono s (show 8 * c.byte + j + 1 ≤ p by omega)
  rw [Selects.rank_succ_eq ⟨hj.1, rfl⟩, hp.rank_eq] at this
  omega

/-- A word that is used up is replaced by the next one. -/
theorem nextPosStep_load (hs : ∀ k ≤ B, highStream one e.mem e.ptr.high k = s k)
    (hmem : ∀ byte, 8 * byte ≤ B → e.ptr.high + byte + 8 ≤ e.mem.length)
    (hB : p ≤ B) (hat : c.At s B r) (hzero : c.high = 0#64) :
    ∃ word, e.nextPosStep one c = some (.inl ⟨c.byte + 8, word⟩) ∧
      Encoder.Cursor.At s B ⟨c.byte + 8, word⟩ r ∧ 8 * c.byte + 64 ≤ p := by
  have hlater : 8 * c.byte + 64 ≤ p := by
    by_contra hlt
    have hbit := hat.bit hp hB (Nat.lt_of_not_le hlt)
    rw [hzero, BitVec.getLsbD_zero] at hbit
    cases hbit
  obtain ⟨word, hload, hword⟩ := loadHigh_spec one _ _ (hmem (c.byte + 8) (by omega))
  have hrank : rank s (8 * (c.byte + 8)) = r := by
    have hmono := rank_mono s hlater
    rw [hp.rank_eq] at hmono
    exact le_antisymm hmono hat.above
  refine ⟨word, ?_, ⟨hrank.le, ?_, fun j hj hjB => ?_⟩, hlater⟩
  · rw [nextPosStep, if_pos hzero]
    simp [hload]
  · rw [← hrank]
    exact rank_mono s (le_add_right _ _)
  · rw [hword j hj, hs _ hjB, decide_eq_true, Bool.and_true]
    rw [← hrank]
    exact rank_mono s (le_add_right _ _)

/-- The lowest bit of a word that is not used up is the one looked for. -/
theorem nextPosStep_take (hB : p ≤ B) (hat : c.At s B r) (hzero : c.high ≠ 0#64) :
    ∃ c', e.nextPosStep one c = some (.inr (p, c')) ∧ c'.At s B (r + 1) := by
  have hfirst := selects_countrZero hzero
  have hwidth := hfirst.lt_width
  have hin : p < 8 * c.byte + 64 := by
    by_contra hge
    have := hat.pos_le hp hfirst.bit (by omega)
    omega
  have hbit := hat.bit hp hB hin
  have hle := hat.le_pos hp
  have hlowest : countrZero c.high ≤ p - 8 * c.byte := by
    by_contra hlt
    rw [rank_eq_zero_iff.mp hfirst.rank_eq (p - 8 * c.byte) (Nat.lt_of_not_le hlt)] at hbit
    cases hbit
  have hpos := hat.pos_le hp hfirst.bit (by omega)
  have heq : p = 8 * c.byte + countrZero c.high := by omega
  refine ⟨{ c with high := c.high &&& (c.high - 1#64) }, ?_, ?_, ?_, fun j hj hjB => ?_⟩
  · rw [nextPosStep, if_neg hzero, heq, mul_comm]
  · exact hat.below.trans (le_succ r)
  · exact hp.lt_iff.mp hin
  · show (c.high &&& (c.high - 1#64)).getLsbD j =
      (s (8 * c.byte + j) && decide (r + 1 ≤ rank s (8 * c.byte + j)))
    rw [getLsbD_and_sub_one hfirst, hat.high j hj hjB]
    cases hset : s (8 * c.byte + j) with
    | false => rfl
    | true =>
      have hunique : rank s (8 * c.byte + j) = r ↔ j = countrZero c.high := by
        constructor
        · intro hrank
          have := Selects.unique ⟨hset, hrank⟩ hp
          omega
        · rintro rfl
          rw [← heq, hp.rank_eq]
      rw [Bool.true_and, ← Bool.decide_and]
      apply decide_eq_decide.mpr
      omega

/-- `next_pos` finds the bit of rank `r` and moves on. -/
theorem nextPos_spec (hs : ∀ k ≤ B, highStream one e.mem e.ptr.high k = s k)
    (hmem : ∀ byte, 8 * byte ≤ B → e.ptr.high + byte + 8 ≤ e.mem.length)
    (hB : p ≤ B) (hc : c.At s B r) : ∃ c', e.nextPos one c = some (p, c') ∧ c'.At s B (r + 1) := by
  have hloop : ∃ out, iterate (e.nextPosStep one) c = some out ∧
      (out.1 = p ∧ out.2.At s B (r + 1)) := by
    refine iterate_total (fun c : Encoder.Cursor => c.At s B r) _ (fun c => p + 64 - 8 * c.byte)
      (fun c hat => ?_) hc
    by_cases hzero : c.high = 0#64
    · obtain ⟨word, hstep, hnext, hlater⟩ := nextPosStep_load hp hs hmem hB hat hzero
      refine .inl ⟨_, hstep, hnext, ?_⟩
      show p + 64 - 8 * (c.byte + 8) < p + 64 - 8 * c.byte
      omega
    · obtain ⟨c', hstep, hnext⟩ := nextPosStep_take hp hB hat hzero
      exact .inr ⟨_, hstep, rfl, hnext⟩
  obtain ⟨⟨pos, c'⟩, hrun, rfl, hat⟩ := hloop
  exact ⟨c', hrun, hat⟩

end

/-! ## Blocks -/

/-- The field `base` of a dense entry. -/
def entryBase (mem : List Byte) (entry : Nat) : Nat :=
  field mem (8 * entry) 32

/-- The field `delta[j]` of a dense entry. -/
def entryDelta (mem : List Byte) (entry j : Nat) : Nat :=
  field mem (8 * (entry + 4 + 2 * j)) 16

/-- A sparse entry. -/
def sparseEntry (mem : List Byte) (sparse i : Nat) : Nat :=
  field mem (8 * (sparse + 4 * i)) 32

/-- What the index says about the set bits of block `d`, of which there are `T` in all blocks. The
entry of a dense block has the position of each 32nd bit, and that of a sparse block refers to
sparse entries, below `limit`, for all bits. Both leave out the part of a position that the rank
gives. -/
inductive BlockIndexed (mem : List Byte) (dense sparse limit : Nat) (s : Nat → Bool) (T d : Nat) :
    Prop
  | dense (hzero : entryDelta mem (dense + 20 * d) 0 = 0)
      (hselects : ∀ j < 8, 256 * d + 32 * j < T → Selects s (256 * d + 32 * j)
        (entryBase mem (dense + 20 * d) + 256 * d + entryDelta mem (dense + 20 * d) j))
  | sparse (hne : entryDelta mem (dense + 20 * d) 0 ≠ 0)
      (hlimit : entryBase mem (dense + 20 * d) + 256 ≤ limit)
      (hselects : ∀ k < 256, 256 * d + k < T → Selects s (256 * d + k)
        (sparseEntry mem sparse (entryBase mem (dense + 20 * d) + k) + (256 * d + k)))

/-- A block depends on its entry and on the sparse entries below the limit. -/
theorem BlockIndexed.congr {mem mem' : List Byte} {dense sparse limit limit' d : Nat}
    (h : BlockIndexed mem dense sparse limit s T d) (hlimit : limit ≤ limit')
    (hentry : ∀ j, 8 * (dense + 20 * d) ≤ j → j < 8 * (dense + 20 * (d + 1)) →
      bitAt mem' j = bitAt mem j)
    (hsparse : ∀ j, 8 * sparse ≤ j → j < 8 * (sparse + 4 * limit) → bitAt mem' j = bitAt mem j) :
    BlockIndexed mem' dense sparse limit' s T d := by
  have hbase : entryBase mem' (dense + 20 * d) = entryBase mem (dense + 20 * d) :=
    field_congr fun j hj => hentry _ (by omega) (by omega)
  have hdelta : ∀ j < 8, entryDelta mem' (dense + 20 * d) j = entryDelta mem (dense + 20 * d) j :=
    fun j hj => field_congr fun k hk => hentry _ (by omega) (by omega)
  cases h with
  | dense hzero hselects =>
    refine .dense (by rw [hdelta 0 (by omega), hzero]) fun j hj hT => ?_
    rw [hbase, hdelta j hj]
    exact hselects j hj hT
  | sparse hne hbound hselects =>
    refine .sparse (by rwa [hdelta 0 (by omega)]) (by omega) fun k hk hT => ?_
    have hsame : sparseEntry mem' sparse (entryBase mem (dense + 20 * d) + k) =
        sparseEntry mem sparse (entryBase mem (dense + 20 * d) + k) :=
      field_congr fun j hj => hsparse _ (by omega) (by omega)
    rw [hbase, hsame]
    exact hselects k hk hT

/-- The set bits of a block as `WriteDeltas` gets them: `deltas` are their distances from the first,
filled up with that of the position `B` after the stream, which counts as the bit of rank `T`. -/
structure Block (s : Nat → Bool) (B T d base : Nat) (deltas : List Nat) : Prop where
  sentinel : Selects s T B
  first_lt : 256 * d < T
  length_eq : deltas.length = 256
  first : Selects s (256 * d) base
  selects : ∀ k < 256, Selects s (min (256 * d + k) T) (base + deltas.getD k 0)

/-- Only the bytes from `lo` up to `hi` and those from `sparse` on may differ. -/
structure IndexFrame (mem mem' : List Byte) (lo hi sparse : Nat) : Prop where
  length_eq : mem'.length = mem.length
  bits : ∀ j < 8 * sparse, j < 8 * lo ∨ 8 * hi ≤ j → bitAt mem' j = bitAt mem j

namespace Block

variable {d base : Nat} {deltas : List Nat} (h : Block s B T d base deltas)
include h

theorem start_eq (hT : T < 2 ^ 32) : d * kD1 % 2 ^ 32 = 256 * d := by
  have := h.first_lt
  unfold kD1
  omega

/-- The first delta of a block is zero. -/
theorem delta_zero : deltas.getD 0 0 = 0 := by
  have hfirst := h.selects 0 (by omega)
  rw [add_zero, min_eq_left h.first_lt.le] at hfirst
  have := hfirst.unique h.first
  omega

variable {k : Nat}

/-- All positions of a block are within the stream. -/
theorem position_le (hk : k < 256) : base + deltas.getD k 0 ≤ B :=
  (h.selects k hk).le_of_le h.sentinel (min_le_right _ _)

/-- A bit of a block that is not filled up. -/
theorem selects_of_lt (hk : k < 256) (hT : 256 * d + k < T) :
    Selects s (256 * d + k) (base + deltas.getD k 0) := by
  have hsel := h.selects k hk
  rwa [min_eq_left hT.le] at hsel

/-- The base of a block, without the part that its rank gives, is small. -/
theorem base_sub_le : 256 * d ≤ base ∧ base - 256 * d ≤ B - T := by
  have hle := h.first.le
  have hsub := h.first.sub_le h.sentinel h.first_lt.le
  omega

/-- So are the positions in a block that is spread out. -/
theorem position_sub_le (hk : k < 256) (hspread : 65536 ≤ deltas.getD 255 0) :
    256 * d + k ≤ base + deltas.getD k 0 ∧ base + deltas.getD k 0 - (256 * d + k) ≤ B - T := by
  have hsel := h.selects k hk
  by_cases hT : 256 * d + k < T
  · rw [min_eq_left hT.le] at hsel
    have hle := hsel.le
    have hsub := hsel.sub_le h.sentinel hT.le
    omega
  · rw [min_eq_right (by omega)] at hsel
    have hB := hsel.unique h.sentinel
    have hlast := h.position_le (show 255 < 256 by omega)
    have hbase := h.base_sub_le
    omega

end Block

/-- A difference that does not wrap around. -/
theorem sub64_eq {a b : Nat} (hle : b ≤ a) (ha : a < 2 ^ 64) : sub64 a b = a - b := by
  unfold sub64
  omega

variable {deltas : List Nat}

/-- An element inside of a list. -/
theorem getElem?_eq_getD {i : Nat} (hi : i < deltas.length) :
    deltas[i]? = some (deltas.getD i 0) := by
  rw [getD_eq_getElem?_getD, getElem?_eq_getElem hi]
  rfl

/-- The entry of a dense block gets the base and each 32nd delta. -/
theorem writeDense_spec (base : Nat) {mem : List Byte} {entry : Nat} (hlength : deltas.length = 256)
    (hroom : entry + 20 ≤ mem.length) : ∃ mem', writeDense mem entry base deltas = some mem' ∧
      Frame mem mem' (8 * entry) (8 * (entry + 20)) ∧ entryBase mem' entry = base % 2 ^ 32 ∧
      ∀ j < 8, entryDelta mem' entry j = deltas.getD (32 * j) 0 % 2 ^ 16 := by
  obtain ⟨mem₁, hbase, hover⟩ := storeUnaligned_spec 4 base (show entry + 4 ≤ mem.length by omega)
  have hloop : ∃ mem', (range 8).foldlM (writeDelta entry deltas) mem₁ = some mem' ∧
      Stored 2 mem₁ mem' (entry + 4) (fun j => deltas.getD (32 * j) 0) 8 := by
    refine foldlM_range_invariant
      (fun k m => Stored 2 mem₁ m (entry + 4) (fun j => deltas.getD (32 * j) 0) k)
      (Stored.zero _ _ _ _) fun k hk m hstored => ?_
    obtain ⟨m', hstore, hnext⟩ := hstored.next (by rw [hover.length_eq]; omega)
    refine ⟨m', ?_, hnext⟩
    rw [writeDelta, kD2, getElem?_eq_getD (by omega), mul_comm]
    exact hstore
  obtain ⟨mem', hrun, hstored⟩ := hloop
  refine ⟨mem', ?_, ?_, ?_, fun j hj => hstored.entries j hj⟩
  · rw [writeDense, hbase, hlength]
    exact hrun
  · exact (hover.frame.mono (by omega) (by omega)).trans (hstored.frame.mono (by omega) (by omega))
  · exact (hstored.frame.field_eq (.inl (by omega))).trans hover.field_same

/-- The sparse entries get the positions without their ranks. -/
theorem writeSparse_spec (base : Nat) {start sparseSize : Nat} {mem : List Byte}
    (hlength : deltas.length = 256) (hlimit : sparseSize + 256 ≤ e.opts.maxSparseSize)
    (hmax : e.opts.maxSparseSize < 2 ^ 32)
    (hroom : e.ptr.sparse + 4 * e.opts.maxSparseSize ≤ mem.length)
    (hrank : start + 255 < 2 ^ 32) (hpos : ∀ k < 256, base + deltas.getD k 0 < 2 ^ 64)
    (hfits : ∀ k < 256, start + k ≤ base + deltas.getD k 0 ∧
      base + deltas.getD k 0 - (start + k) < 2 ^ 32) :
    ∃ mem', e.writeSparse base start deltas mem sparseSize = some (mem', sparseSize + 256) ∧
      Stored 4 mem mem' (e.ptr.sparse + 4 * sparseSize)
        (fun k => base + deltas.getD k 0 - (start + k)) 256 := by
  have hloop : ∃ out, (range 256).foldlM (e.writeSparseEntry base start deltas)
      (mem, sparseSize) = some out ∧ (out.2 = sparseSize + 256 ∧
        Stored 4 mem out.1 (e.ptr.sparse + 4 * sparseSize)
          (fun k => base + deltas.getD k 0 - (start + k)) 256) := by
    refine foldlM_range_invariant
      (fun k (out : List Byte × Nat) => out.2 = sparseSize + k ∧
        Stored 4 mem out.1 (e.ptr.sparse + 4 * sparseSize)
          (fun k => base + deltas.getD k 0 - (start + k)) k)
      ⟨rfl, Stored.zero _ _ _ _⟩ ?_
    rintro k hk ⟨m, size⟩ ⟨rfl, hstored⟩
    have hvalue : sub64 (base + deltas.getD k 0) ((start + k) % 2 ^ 32) =
        base + deltas.getD k 0 - (start + k) := by
      rw [mod_eq_of_lt (by omega), sub64_eq (hfits k hk).1 (hpos k hk)]
    have hsmall := (hfits k hk).2
    obtain ⟨m', hstore, hnext⟩ := hstored.next (by omega)
    refine ⟨(m', sparseSize + (k + 1)), ?_, rfl, hnext⟩
    rw [writeSparseEntry]
    rw [getElem?_eq_getD (by omega), bind_eq_bind, bind_some, hvalue, bind_eq_bind,
      guard_bind (by omega),
      show e.ptr.sparse + 4 * (sparseSize + k) = e.ptr.sparse + 4 * sparseSize + 4 * k by omega,
      hstore, bind_eq_bind, bind_some, mod_eq_of_lt (by omega), guard_bind (by omega)]
    rfl
  obtain ⟨⟨mem', size⟩, hrun, hsize, hstored⟩ := hloop
  exact ⟨mem', hrun.trans (by rw [← hsize]), hstored⟩

/-- What the memory and the counts must allow for one block to be written. -/
structure BlockRoom (e : Encoder) (B T d dense sparseSize : Nat) (deltas : List Nat) : Prop where
  ranks : T < 2 ^ 32
  others : B - T < 2 ^ 32
  entry : dense + 20 * (d + 1) ≤ e.ptr.sparse
  memory : e.ptr.sparse + 4 * e.opts.maxSparseSize ≤ e.mem.length
  maxSparse : e.opts.maxSparseSize < 2 ^ 32
  spread : 65536 ≤ deltas.getD 255 0 → sparseSize + 256 ≤ e.opts.maxSparseSize

section WriteDeltas

variable {d base dense sparseSize : Nat} {deltas : List Nat} (hblock : Block s B T d base deltas)
include hblock

/-- The checks of `WriteDeltas` pass. -/
theorem writeDeltas_eq (hT : T < 2 ^ 32) (hothers : B - T < 2 ^ 32) :
    e.writeDeltas base deltas dense d sparseSize =
      if deltas.getD 255 0 < kR then
        (writeDense e.mem (dense + 20 * d) (base - 256 * d) deltas).bind fun mem =>
          some ({ e with mem }, sparseSize)
      else
        (storeUnaligned 4 e.mem (dense + 20 * d) sparseSize).bind fun mem =>
          (storeUnaligned 2 mem (dense + 20 * d + 4) (2 ^ 16 - 1)).bind fun mem =>
            (e.writeSparse base (256 * d) deltas mem sparseSize).bind fun out =>
              some ({ e with mem := out.1 }, out.2) := by
  have hlength := hblock.length_eq
  have hbase := hblock.base_sub_le
  have hend := hblock.position_le (show 0 < 256 by omega)
  have hlast : deltas.getLast? = some (deltas.getD 255 0) := by
    rw [getLast?_eq_getElem?, hlength, getElem?_eq_getD (by omega)]
  rw [writeDeltas, bind_eq_bind, guard_bind (show deltas.length = kD1 from hlength)]
  rw [hblock.start_eq hT, guard_bind hbase.1, hlast,
    sub64_eq hbase.1 (by omega), guard_bind (by omega)]
  rfl

variable (hroom : BlockRoom e B T d dense sparseSize deltas)
include hroom

/-- A block that is not spread out gets a dense entry. -/
theorem writeDeltas_dense (hdense : deltas.getD 255 0 < kR) :
    ∃ mem, e.writeDeltas base deltas dense d sparseSize = some ({ e with mem }, sparseSize) ∧
      Frame e.mem mem (8 * (dense + 20 * d)) (8 * (dense + 20 * (d + 1))) ∧
      BlockIndexed mem dense e.ptr.sparse sparseSize s T d := by
  have hentry := hroom.entry
  have hmemory := hroom.memory
  have hothers := hroom.others
  have hbase := hblock.base_sub_le
  have hlength := hblock.length_eq
  obtain ⟨mem, hwrite, hframe, hentryBase, hdeltas⟩ := writeDense_spec (base - 256 * d) hlength
    (show dense + 20 * d + 20 ≤ e.mem.length by omega)
  rw [mod_eq_of_lt (by omega)] at hentryBase
  -- all deltas are at most the last one
  have hsmall : ∀ j < 8, entryDelta mem (dense + 20 * d) j = deltas.getD (32 * j) 0 := by
    intro j hj
    have hle := (hblock.selects (32 * j) (by omega)).le_of_le (hblock.selects 255 (by omega))
      (by omega)
    rw [hdeltas j hj]
    exact mod_eq_of_lt (lt_of_le_of_lt (le_of_add_le_add_left hle) hdense)
  refine ⟨mem, ?_, hframe.mono (le_refl _) (by omega), .dense ?_ fun j hj hT => ?_⟩
  · rw [writeDeltas_eq hblock hroom.ranks hothers, if_pos hdense, hwrite]
    rfl
  · rw [hsmall 0 (by omega)]
    exact hblock.delta_zero
  · rw [hentryBase, hsmall j hj, Nat.sub_add_cancel hbase.1]
    exact hblock.selects_of_lt (by omega) hT

/-- A block that is spread out gets sparse entries. -/
theorem writeDeltas_sparse (hspread : 65536 ≤ deltas.getD 255 0) :
    ∃ mem, e.writeDeltas base deltas dense d sparseSize = some ({ e with mem }, sparseSize + 256) ∧
      IndexFrame e.mem mem (dense + 20 * d) (dense + 20 * (d + 1)) (e.ptr.sparse + 4 * sparseSize) ∧
      BlockIndexed mem dense e.ptr.sparse (sparseSize + 256) s T d := by
  have hentry := hroom.entry
  have hmemory := hroom.memory
  have hothers := hroom.others
  have hranks := hroom.ranks
  have hfirst := hblock.first_lt
  have hlimit := hroom.spread hspread
  have hmax := hroom.maxSparse
  have hlength := hblock.length_eq
  obtain ⟨mem₁, hstore₁, hover₁⟩ := storeUnaligned_spec 4 sparseSize
    (show dense + 20 * d + 4 ≤ e.mem.length by omega)
  obtain ⟨mem₂, hstore₂, hover₂⟩ := storeUnaligned_spec 2 (2 ^ 16 - 1)
    (show dense + 20 * d + 4 + 2 ≤ mem₁.length by rw [hover₁.length_eq]; omega)
  obtain ⟨mem, hwrite, hstored⟩ := writeSparse_spec base hlength hlimit hmax
    (show e.ptr.sparse + 4 * e.opts.maxSparseSize ≤ mem₂.length by
      rw [hover₂.length_eq, hover₁.length_eq]
      exact hmemory)
    (show 256 * d + 255 < 2 ^ 32 by omega)
    (fun k hk => by have := hblock.position_le hk; omega)
    (fun k hk => by
      have hfits := hblock.position_sub_le hk hspread
      omega)
  have hframe := hstored.frame
  -- the entry is before the sparse entries
  have hentryBase : entryBase mem (dense + 20 * d) = sparseSize := by
    have hfield : field mem (8 * (dense + 20 * d)) 32 = field mem₂ (8 * (dense + 20 * d)) 32 :=
      hframe.field_eq (.inl (by omega))
    rw [entryBase, hfield, hover₂.field_other (.inl (by omega)), hover₁.field_same,
      mod_eq_of_lt (by omega)]
  have hentryDelta : entryDelta mem (dense + 20 * d) 0 = 2 ^ 16 - 1 := by
    have hfield : field mem (8 * (dense + 20 * d + 4 + 2 * 0)) 16 =
        field mem₂ (8 * (dense + 20 * d + 4 + 2 * 0)) 16 :=
      hframe.field_eq (.inl (by omega))
    rw [entryDelta, hfield]
    exact hover₂.field_same
  refine ⟨mem, ?_, ⟨?_, fun j hj hapart => ?_⟩, .sparse ?_ ?_ fun k hk hT => ?_⟩
  · rw [writeDeltas_eq hblock hranks hothers,
      if_neg (show ¬ deltas.getD 255 0 < kR from not_lt.mpr hspread), hstore₁]
    simp only [bind_some, hstore₂, hwrite]
  · rw [hframe.length_eq, hover₂.length_eq, hover₁.length_eq]
  · rw [hframe.bits j (by omega), hover₂.frame.bits j (by omega), hover₁.frame.bits j (by omega)]
  · omega
  · rw [hentryBase]
  · have hfits := hblock.position_sub_le hk hspread
    have hvalue := hstored.entries k hk
    rw [mod_eq_of_lt (by omega)] at hvalue
    rw [hentryBase, sparseEntry,
      show e.ptr.sparse + 4 * (sparseSize + k) = e.ptr.sparse + 4 * sparseSize + 4 * k by omega]
    rw [show field mem (8 * (e.ptr.sparse + 4 * sparseSize + 4 * k)) 32 = _ from hvalue,
      Nat.sub_add_cancel hfits.1]
    exact hblock.selects_of_lt hk hT

/-- `WriteDeltas` indexes a block. A sparse block has `kD1` entries and is spread over `kR` bits. -/
theorem writeDeltas_spec :
    ∃ mem size, e.writeDeltas base deltas dense d sparseSize = some ({ e with mem }, size) ∧
      IndexFrame e.mem mem (dense + 20 * d) (dense + 20 * (d + 1)) (e.ptr.sparse + 4 * sparseSize) ∧
      BlockIndexed mem dense e.ptr.sparse size s T d ∧
      (size = sparseSize ∨ size = sparseSize + 256 ∧ 65536 ≤ deltas.getD 255 0) := by
  by_cases hdense : deltas.getD 255 0 < kR
  · obtain ⟨mem, hrun, hframe, hindexed⟩ := writeDeltas_dense hblock hroom hdense
    exact ⟨mem, sparseSize, hrun, ⟨hframe.length_eq, fun j _ hj => hframe.bits j hj⟩, hindexed,
      .inl rfl⟩
  · have hspread : 65536 ≤ deltas.getD 255 0 := Nat.le_of_not_lt hdense
    obtain ⟨mem, hrun, hframe, hindexed⟩ := writeDeltas_sparse hblock hroom hspread
    exact ⟨mem, sparseSize + 256, hrun, hframe, hindexed, .inr ⟨rfl, hspread⟩⟩

end WriteDeltas

/-! ## All blocks -/

/-- What the memory and the counts must allow for the index of a stream to be written: there are `n`
dense entries, and room for the sparse blocks that can occur after the first `start` entries. -/
structure BuildRoom (e : Encoder) (one : Bool) (s : Nat → Bool) (B T dense n start : Nat) :
    Prop where
  bits_eq : e.opts.bits = B
  positive : 0 < T
  ranks : T < 2 ^ 32
  others : B - T < 2 ^ 32
  sentinel : Selects s T B
  stream : ∀ k ≤ B, highStream one e.mem e.ptr.high k = s k
  words : ∀ byte, 8 * byte ≤ B → e.ptr.high + byte + 8 ≤ e.mem.length
  high_lt : 8 * e.ptr.high + B < 8 * dense
  entries : T ≤ 256 * n
  entries_lt : 256 * n < T + 256
  dense_le : dense + 20 * n ≤ e.ptr.sparse
  memory : e.ptr.sparse + 4 * e.opts.maxSparseSize ≤ e.mem.length
  maxSparse : e.opts.maxSparseSize < 2 ^ 32
  budget : ∀ blocks, 65280 * blocks ≤ B - T → start + 256 * blocks ≤ e.opts.maxSparseSize

/-- The loop of `BuildIndex` at the bit of rank `r`, after `blocks` sparse blocks. -/
structure Encoder.Build.Inv (e : Encoder) (s : Nat → Bool) (B T dense start : Nat)
    (b : Encoder.Build) (r blocks : Nat) : Prop where
  enc_eq : b.enc = { e with mem := b.enc.mem }
  frame : IndexFrame e.mem b.enc.mem dense (dense + 20 * b.i) (e.ptr.sparse + 4 * start)
  pos : Selects s r b.pos
  rank_le : r ≤ T
  rank_eq : r = 256 * b.i + b.deltas.length
  length_le : b.deltas.length ≤ 256
  cursor : b.cursor.At s B (r + 1)
  base : Selects s (256 * b.i) b.base
  deltas : ∀ k < b.deltas.length, Selects s (256 * b.i + k) (b.base + b.deltas.getD k 0)
  indexed : ∀ d < b.i, BlockIndexed b.enc.mem dense e.ptr.sparse b.sparseSize s T d
  size_eq : b.sparseSize = start + 256 * blocks
  budget : 65280 * blocks + 256 * b.i ≤ b.base

section Build

variable {dense n start blocks : Nat} {b : Encoder.Build}

namespace Encoder.Build.Inv

section

variable (h : b.Inv e s B T dense start r blocks)
include h

/-- The pointers stay as they are. -/
theorem ptr_eq : b.enc.ptr = e.ptr := by
  rw [h.enc_eq]

/-- The options stay as they are. -/
theorem opts_eq : b.enc.opts = e.opts := by
  rw [h.enc_eq]

variable (hroom : BuildRoom e one s B T dense n start)
include hroom

/-- The index is written behind the stream. -/
theorem stream : ∀ k ≤ B, highStream one b.enc.mem b.enc.ptr.high k = s k := by
  intro k hk
  have hhigh := hroom.high_lt
  have hdense := hroom.dense_le
  rw [← hroom.stream k hk, highStream, highStream, h.ptr_eq, h.frame.bits _ (by omega) (by omega)]

omit hroom in
/-- A spread block leaves that many bits of the other kind behind. -/
theorem budget_succ (hblock : Block s B T b.i b.base deltas) (hspread : 65536 ≤ deltas.getD 255 0) :
    65280 * blocks + 65280 ≤ B - T := by
  have hlast := (hblock.selects 255 (by omega)).sub_le hblock.sentinel (min_le_right _ _)
  have hbudget := h.budget
  omega

/-- Writing the block that the loop is at. -/
theorem write (hblock : Block s B T b.i b.base deltas) (enc : Encoder)
    (hopts : enc.opts = e.opts) (hptr : enc.ptr = e.ptr) (hlength : enc.mem.length = e.mem.length)
    (hindexed : ∀ d < b.i, BlockIndexed enc.mem dense e.ptr.sparse b.sparseSize s T d) :
    ∃ mem size blocks', enc.writeDeltas b.base deltas dense b.i b.sparseSize =
        some ({ enc with mem }, size) ∧
      IndexFrame enc.mem mem (dense + 20 * b.i) (dense + 20 * (b.i + 1))
      (e.ptr.sparse + 4 * start) ∧ (∀ d < b.i + 1, BlockIndexed mem dense e.ptr.sparse size s T d) ∧
      size = start + 256 * blocks' ∧ 65280 * blocks' ≤ B - T ∧
      (blocks' = blocks ∨ blocks' = blocks + 1 ∧ 65536 ≤ deltas.getD 255 0) := by
  have hfirst := hblock.first_lt
  have hentries := hroom.entries
  have hdense := hroom.dense_le
  have hsize := h.size_eq
  have hblockRoom : BlockRoom enc B T b.i dense b.sparseSize deltas := by
    refine ⟨hroom.ranks, hroom.others, ?_, ?_, ?_, fun hspread => ?_⟩
    · rw [hptr]
      omega
    · rw [hptr, hopts, hlength]
      exact hroom.memory
    · rw [hopts]
      exact hroom.maxSparse
    · have hlimit := hroom.budget (blocks + 1) (h.budget_succ hblock hspread)
      rw [mul_succ, ← add_assoc, ← hsize] at hlimit
      rw [hopts]
      exact hlimit
  obtain ⟨mem, size, hrun, hframe, hnew, hcases⟩ := writeDeltas_spec hblock hblockRoom
  rw [hptr] at hframe hnew
  have hold : ∀ d < b.i, BlockIndexed mem dense e.ptr.sparse size s T d := fun d hd =>
    (hindexed d hd).congr (by omega) (fun j hlo hhi => hframe.bits j (by omega) (by omega))
      (fun j hlo hhi => hframe.bits j hhi (by omega))
  have hall : ∀ d < b.i + 1, BlockIndexed mem dense e.ptr.sparse size s T d := fun d hd => by
    rcases Nat.lt_succ_iff_lt_or_eq.mp hd with hlt | rfl
    · exact hold d hlt
    · exact hnew
  have hframe' : IndexFrame enc.mem mem (dense + 20 * b.i) (dense + 20 * (b.i + 1))
      (e.ptr.sparse + 4 * start) :=
    ⟨hframe.length_eq, fun j hj => hframe.bits j (by omega)⟩
  rcases hcases with rfl | ⟨rfl, hspread⟩
  · have hbase := hblock.base_sub_le
    have hbudget := h.budget
    exact ⟨mem, _, blocks, hrun, hframe', hall, hsize, by omega, .inl rfl⟩
  · exact ⟨mem, _, blocks + 1, hrun, hframe', hall, by omega, h.budget_succ hblock hspread,
      .inr ⟨rfl, hspread⟩⟩

/-- A full block is written, and the next one starts at the current bit. -/
theorem flush : ∃ b' blocks', b.flush dense = some b' ∧ b'.Inv e s B T dense start r blocks' ∧
      b'.deltas.length < 256 ∧ b'.pos = b.pos := by
  by_cases hfull : b.deltas.length = 256
  · have hrank := h.rank_eq
    have hle := h.rank_le
    have hblock : Block s B T b.i b.base b.deltas := by
      refine ⟨hroom.sentinel, by omega, hfull, h.base, fun k hk => ?_⟩
      rw [min_eq_left (by omega)]
      exact h.deltas k (by omega)
    obtain ⟨mem, size, blocks', hrun, hframe, hindexed, hsize, -, hcases⟩ :=
      h.write hroom hblock b.enc h.opts_eq h.ptr_eq h.frame.length_eq h.indexed
    have hstep := h.base.sub_le h.pos (by omega)
    have hlast := (h.deltas 255 (by omega)).lt_of_lt h.pos (by omega)
    have hbudget := h.budget
    refine ⟨⟨{ b.enc with mem }, size, b.i + 1, [], b.cursor, b.pos, b.pos⟩, blocks', ?_,
      ⟨?_, ?_, h.pos, hle, ?_, zero_le _, h.cursor, ?_, ?_, hindexed, hsize, ?_⟩, zero_lt_succ _,
        rfl⟩
    · rw [Encoder.Build.flush, if_pos (show b.deltas.length = kD1 from hfull), hrun]
      rfl
    · rw [h.enc_eq]
    · refine ⟨hframe.length_eq.trans h.frame.length_eq, fun j hj hapart => ?_⟩
      have hapart' : j < 8 * dense ∨ 8 * (dense + 20 * (b.i + 1)) ≤ j := hapart
      rw [hframe.bits j hj (by omega), h.frame.bits j hj (by omega)]
    · show r = 256 * (b.i + 1) + 0
      omega
    · rw [show 256 * (b.i + 1) = r by omega]
      exact h.pos
    · intro k hk
      exact absurd hk (not_lt_zero k)
    · rcases hcases with rfl | ⟨rfl, hspread⟩ <;> lia
  · refine ⟨b, blocks, ?_, h, ?_, rfl⟩
    · rw [Encoder.Build.flush, if_neg (show ¬ b.deltas.length = kD1 from hfull)]
    · exact lt_of_le_of_ne h.length_le hfull

omit hroom in
theorem pos_le (hB : Selects s T B) : b.pos ≤ B :=
  h.pos.le_of_le hB h.rank_le

/-- A round moves on to the next bit. -/
theorem step (hne : b.pos ≠ B) :
    ∃ b' blocks', b.step one dense = some (.inl b') ∧ b'.Inv e s B T dense start (r + 1) blocks' ∧
      b.pos < b'.pos ∧ 0 < b'.deltas.length := by
  obtain ⟨b₁, blocks', hflush, h₁, hlength, hpos⟩ := h.flush hroom
  have hlt : r < T := by
    rcases lt_or_eq_of_le h.rank_le with hlt | rfl
    · exact hlt
    · exact absurd (h.pos.unique hroom.sentinel) hne
  -- after the last bit the sentinel is selected
  obtain ⟨p, hp⟩ : ∃ p, Selects s (r + 1) p := by
    rcases lt_or_eq_of_le (show r + 1 ≤ T from hlt) with hlt' | heq
    · obtain ⟨p, -, hp⟩ := exists_selects (show r + 1 <
        rank s B by rw [hroom.sentinel.rank_eq]; exact hlt')
      exact ⟨p, hp⟩
    · exact ⟨B, heq ▸ hroom.sentinel⟩
  have hpB := hp.le_of_le hroom.sentinel hlt
  obtain ⟨c, hnext, hc⟩ := nextPos_spec hp (h₁.stream hroom) (fun byte hbyte => by
    rw [h₁.ptr_eq, h₁.frame.length_eq]
    exact hroom.words byte hbyte) hpB h₁.cursor
  have hbase := h₁.base.le_of_le h₁.pos (by have := h₁.rank_eq; omega)
  have hdelta : sub64 b₁.pos b₁.base = b₁.pos - b₁.base := by
    have := h₁.pos_le hroom.sentinel
    have := hroom.ranks
    have := hroom.others
    exact sub64_eq hbase (by omega)
  refine ⟨⟨b₁.enc, b₁.sparseSize, b₁.i, b₁.deltas ++ [b₁.pos - b₁.base], c, b₁.base, p⟩, blocks',
    ?_, ⟨h₁.enc_eq, h₁.frame, hp, hlt, ?_, ?_, hc, h₁.base, fun k hk => ?_, h₁.indexed, h₁.size_eq,
      h₁.budget⟩, ?_, ?_⟩
  · rw [Encoder.Build.step, if_neg (by rw [h.opts_eq, hroom.bits_eq]; exact hne), hflush]
    simp [hdelta, hnext]
  · have := h₁.rank_eq
    show r + 1 = 256 * b₁.i + (b₁.deltas ++ [_]).length
    rw [length_append, length_singleton]
    omega
  · rw [length_append, length_singleton]
    omega
  · have hk' : k < b₁.deltas.length + 1 := by simpa using hk
    rcases Nat.lt_succ_iff_lt_or_eq.mp hk' with hlt' | rfl
    · rw [getD_append _ _ _ _ hlt']
      exact h₁.deltas k hlt'
    · rw [getD_append_right _ _ _ _ (Nat.le_refl _), Nat.sub_self, ← h₁.rank_eq]
      show Selects s r (b₁.base + (b₁.pos - b₁.base))
      rw [Nat.add_sub_cancel' hbase]
      exact h₁.pos
  · rw [← hpos]
    exact h₁.pos.lt_of_lt hp (lt_succ_self r)
  · rw [length_append, length_singleton]
    omega

end

end Encoder.Build.Inv

/-- The loop of `BuildIndex` runs to the end of the stream, and leaves a block that is not empty. -/
theorem buildLoop_spec (hroom : BuildRoom e one s B T dense n start)
    (h : b.Inv e s B T dense start 0 blocks) : ∃ b',
      iterate (Encoder.Build.step one dense) b = some b' ∧ ∃ blocks',
        b'.Inv e s B T dense start T blocks' ∧ 0 < b'.deltas.length := by
  refine iterate_total
    (fun b => ∃ r blocks, Encoder.Build.Inv e s B T dense start b r blocks ∧
      (r = 0 ∨ 0 < b.deltas.length))
    _ (fun b => B - b.pos) ?_ ⟨0, blocks, h, .inl rfl⟩
  rintro b ⟨r, blocks, h, hnonempty⟩
  by_cases hend : b.pos = B
  · right
    have hlast : r = T := by
      have hrank := h.pos.rank_eq
      rw [hend, hroom.sentinel.rank_eq] at hrank
      exact hrank.symm
    have hpositive := hroom.positive
    refine ⟨b, ?_, blocks, hlast ▸ h, by omega⟩
    rw [Encoder.Build.step, if_pos (by rw [h.opts_eq, hroom.bits_eq]; exact hend)]
  · left
    obtain ⟨b', blocks', hstep, h', hlt, hnonempty'⟩ := h.step hroom hend
    have := h'.pos_le hroom.sentinel
    exact ⟨b', hstep, ⟨r + 1, blocks', h', .inr hnonempty'⟩, by omega⟩

/-- From its first word, the scan finds all blocks but the last. -/
theorem scan_spec (hroom : BuildRoom e one s B T dense n start) :
    ∃ high base cursor b blocks, loadHigh one e.mem e.ptr.high 0 = some high ∧
      e.nextPos one ⟨0, high⟩ = some (base, cursor) ∧
      iterate (Encoder.Build.step one dense) ⟨e, start, 0, [], cursor, base, base⟩ = some b ∧
      b.Inv e s B T dense start T blocks ∧ 0 < b.deltas.length := by
  obtain ⟨high, hload, hhigh⟩ := loadHigh_spec one e.ptr.high 0 (hroom.words 0 (zero_le _))
  have hcursor : Encoder.Cursor.At s B ⟨0, high⟩ 0 := by
    refine ⟨by simp, zero_le _, fun j hj hjB => ?_⟩
    rw [hhigh j hj, hroom.stream _ hjB, decide_eq_true (Nat.zero_le _), Bool.and_true]
  obtain ⟨base, hbaseB, hbase⟩ :=
    exists_selects (show 0 < rank s B by rw [hroom.sentinel.rank_eq]; exact hroom.positive)
  obtain ⟨cursor, hnext, hcursor'⟩ := nextPos_spec hbase hroom.stream hroom.words hbaseB.le hcursor
  have hinit : Encoder.Build.Inv e s B T dense start ⟨e, start, 0, [], cursor, base, base⟩ 0 0 :=
    ⟨rfl, ⟨rfl, fun _ _ _ => rfl⟩, hbase, zero_le _, rfl, zero_le _, hcursor', hbase,
      fun k hk => absurd hk (not_lt_zero k), fun d hd => absurd hd (not_lt_zero d), rfl, zero_le _⟩
  obtain ⟨b, hrun, blocks, hb, hnonempty⟩ := buildLoop_spec hroom hinit
  exact ⟨high, base, cursor, b, blocks, hload, hnext, hrun, hb, hnonempty⟩

/-- The last block is filled up with the end of the stream. -/
theorem lastBlock (hroom : BuildRoom e one s B T dense n start)
    (h : b.Inv e s B T dense start T blocks) (hnonempty : 0 < b.deltas.length) :
    Block s B T b.i b.base (resize b.deltas kD1 (sub64 B b.base)) ∧ b.i + 1 = n := by
  have hrank := h.rank_eq
  have hlength := h.length_le
  have hbase := h.base.le_of_le hroom.sentinel (by omega)
  have hsub : sub64 B b.base = B - b.base := by
    have := hroom.ranks
    have := hroom.others
    exact sub64_eq hbase (by omega)
  have htake : b.deltas.take kD1 = b.deltas := take_of_length_le hlength
  have hentries := hroom.entries
  have hentriesLt := hroom.entries_lt
  refine ⟨⟨hroom.sentinel, by omega, ?_, h.base, fun k hk => ?_⟩, by omega⟩
  · rw [resize, htake, length_append, length_replicate]
    show b.deltas.length + (256 - b.deltas.length) = 256
    omega
  · rw [resize, htake, hsub]
    by_cases hlt : k < b.deltas.length
    · rw [getD_append _ _ _ _ hlt, min_eq_left (by omega)]
      exact h.deltas k hlt
    have hfill : (replicate (kD1 - b.deltas.length) (B - b.base)).getD
        (k - b.deltas.length) 0 = B - b.base := by
      rw [getD_replicate]
      show k - b.deltas.length < 256 - b.deltas.length
      omega
    rw [getD_append_right _ _ _ _ (by omega), min_eq_right (by omega), hfill,
      Nat.add_sub_cancel' hbase]
    exact hroom.sentinel

/-- What an index that was built tells. -/
structure Indexed (e : Encoder) (mem : List Byte) (s : Nat → Bool) (B T dense n start size : Nat) :
    Prop where
  frame : IndexFrame e.mem mem dense (dense + 20 * n) (e.ptr.sparse + 4 * start)
  blocks : ∀ d < n, BlockIndexed mem dense e.ptr.sparse size s T d
  size_eq : ∃ blocks, size = start + 256 * blocks ∧ 65280 * blocks ≤ B - T

/-- The index of the ones. -/
theorem buildIndex_true (hroom : BuildRoom e true s B T dense n start) :
    ∃ mem size, e.buildIndex true dense start = some ({ e with mem }, size) ∧
      Indexed e mem s B T dense n start size := by
  obtain ⟨high, base, cursor, b, blocks, hload, hnext, hrun, h, hnonempty⟩ := scan_spec hroom
  obtain ⟨hblock, hn⟩ := lastBlock hroom h hnonempty
  obtain ⟨mem, size, blocks', hwrite, hframe, hindexed, hsize, hbudget, -⟩ :=
    h.write hroom hblock b.enc h.opts_eq h.ptr_eq h.frame.length_eq h.indexed
  refine ⟨mem, size, ?_, ⟨hframe.length_eq.trans h.frame.length_eq, fun j hj hapart => ?_⟩,
    fun d hd => hindexed d (by omega), blocks', hsize, hbudget⟩
  · have henc : ({ b.enc with mem } : Encoder) = { e with mem } := by rw [h.enc_eq]
    rw [buildIndex]
    simp [hload, hnext, hrun, hroom.bits_eq, hwrite, henc]
  · rw [hframe.bits j hj (by omega), h.frame.bits j hj (by omega)]

/-- The index of the zeros, for which the bit after the stream is cleared and set again. -/
theorem buildIndex_false {mem₁ : List Byte} (hzeros : e.opts.zeroBits ≠ 0)
    (hunset : e.unsetBit e.opts.bits = some { e with mem := mem₁ })
    (hover : Overwrites e.mem mem₁ (8 * e.ptr.high + B) 1 0)
    (hone : bitAt e.mem (8 * e.ptr.high + B) = true)
    (hroom : BuildRoom { e with mem := mem₁ } false s B T dense n start) :
    ∃ mem size, e.buildIndex false dense start = some ({ e with mem }, size) ∧
      Indexed e mem s B T dense n start size := by
  obtain ⟨high, base, cursor, b, blocks, hload, hnext, hrun, h, hnonempty⟩ := scan_spec hroom
  obtain ⟨hblock, hn⟩ := lastBlock hroom h hnonempty
  have hhigh : 8 * e.ptr.high + B < 8 * dense := hroom.high_lt
  have hdense : dense + 20 * n ≤ e.ptr.sparse := hroom.dense_le
  have hptr : b.enc.ptr = e.ptr := h.ptr_eq
  have hlength : b.enc.mem.length = e.mem.length := h.frame.length_eq.trans hover.length_eq
  have hbyte : b.enc.ptr.high + B / 8 < b.enc.mem.length := by
    have hword : e.ptr.high + B / 8 + 8 ≤ mem₁.length := hroom.words (B / 8) (by omega)
    rw [hptr, hlength, ← hover.length_eq]
    omega
  obtain ⟨mem₂, hset, hover₂⟩ := setBit_spec hbyte
  rw [hptr] at hover₂
  obtain ⟨mem, size, blocks', hwrite, hframe, hindexed, hsize, hbudget, -⟩ :=
    h.write hroom hblock { b.enc with mem := mem₂ } h.opts_eq h.ptr_eq
      (hover₂.length_eq.trans h.frame.length_eq) fun d hd =>
        (h.indexed d hd).congr (le_refl _)
          (fun j hlo hhi => hover₂.frame.bits j (by omega))
          (fun j hlo hhi => hover₂.frame.bits j (.inr (by
            have hlo' : 8 * e.ptr.sparse ≤ j := hlo
            omega)))
  refine ⟨mem, size, ?_, ⟨?_, fun j hj hapart => ?_⟩, fun d hd => hindexed d (by omega), blocks',
    hsize, hbudget⟩
  · have henc : ({ b.enc with mem } : Encoder) = { e with mem } := by rw [h.enc_eq]
    have hbits : e.opts.bits = B := hroom.bits_eq
    rw [hbits] at hunset
    rw [buildIndex, if_neg (fun hboth => hzeros hboth.2)]
    simp [hunset, hload, hnext, hrun, hbits, hset, hwrite, henc]
  · rw [hframe.length_eq, hover₂.length_eq, hlength]
  · have hframe' : bitAt b.enc.mem j = bitAt mem₁ j := h.frame.bits j hj (by omega)
    rw [hframe.bits j hj (by omega), hover₂.bits]
    -- the bit after the stream is set again
    by_cases hlast : j = 8 * e.ptr.high + B
    · rw [if_pos (by omega), hlast, Nat.sub_self, hone]
      rfl
    · rw [if_neg (by omega), hframe', hover.bits, if_neg (by omega)]

end Build

end Gloop.Coding.EliasFano

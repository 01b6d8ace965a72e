import Gloop.Hash.Crc.Extend

/-!
# The CRC objects

`NewInternal` fills the tables in the order in which they need each other: the byte table, with it
the word tables and the entries for zeroes, and with all of these the roll table. It returns an
object for every polynomial that is stored in the bits of its degree (`newInternal_isSome_iff`),
and for every such object (`newInternal_built`) the laws of the interface hold: `Extend` divides,
zeroes can be skipped, CRCs of pieces can be joined, and a window can be moved. All are identities
between steps of the register, which are linear.
-/

namespace Gloop.Hash.Crc

section

open Gloop.Foundation Gloop.Foundation.ShiftRegister List Option Nat Tables IntType
variable {crc : CRCImpl} (pl : Platform)

/-! ## Tables of an object -/

variable {t : Tables}

theorem copyRow_eq {cls : SoftwareClass} {j count : Nat} {f : Nat → Nat}
    (hload : ∀ i < count, t.load j i = some (f i)) (hlt : ∀ i < count, f i < 2 ^ cls.bits) :
    t.copyRow cls j count = some (tabulate count f) := by
  refine mapM_eq_some fun i hi => ?_
  have hi' := mem_range.mp hi
  rw [hload i hi', bind_eq_bind, bind_some, mod_eq_of_lt (hlt i hi')]

/-- What `InitTables` expects of the other fields. -/
structure CRCImpl.Proper (crc : CRCImpl) : Prop where
  degree_ge : 8 ≤ crc.degree
  degree_le : crc.degree ≤ crc.cls.bits
  poly_lt_degree : crc.poly < 2 ^ crc.degree

theorem CRCImpl.Proper.poly_lt (h : crc.Proper) : crc.poly < 2 ^ crc.cls.bits :=
  h.poly_lt_degree.trans_le (Nat.pow_le_pow_right (by decide) h.degree_le)

/-- A byte, extended, fits in a register. -/
theorem CRCImpl.Proper.byte_lt (h : crc.Proper) (n : Nat) {i : Nat} (hi : i < 256) :
    advances crc.poly n i < 2 ^ crc.cls.bits := by
  refine advances_lt h.poly_lt (hi.trans_le ?_) n
  rw [show 256 = 2 ^ 8 from rfl]
  exact Nat.pow_le_pow_right (by decide) (h.degree_ge.trans h.degree_le)

/-- The polynomial is the extension of the highest bit of a byte. -/
theorem poly_eq_advances (poly : Nat) : poly = advances poly 8 128 := by
  have hseven : advances poly 7 (1 <<< 7) = 1 := advances_shiftLeft_self 1 7
  rw [show 8 = 1 + 7 from rfl, advances_add, show 128 = 1 <<< 7 from rfl, hseven]
  exact (Nat.zero_xor poly).symm

/-- The object with its tables, and some roll table. -/
def CRCImpl.withTables (crc : CRCImpl) (roll : List Nat) : CRCImpl :=
  { crc with
    table0 := tabulate 256 (advances crc.poly 8)
    table := tabulate crc.cls.wordSize fun j =>
      tabulate 256 (advances crc.poly (8 + 24 * crc.cls.wordSize + 8 * j))
    zeroes := tabulate 210 (zeroEntry crc.poly crc.degree 0)
    roll := roll }

/-- An object with its tables is ready. -/
theorem withTables_ready (h : crc.Proper) (roll : List Nat) : (crc.withTables roll).Ready where
  poly_lt := h.poly_lt
  table0 := fun _ hi => getElem?_tabulate hi _
  table := fun _ hj => ⟨_, getElem?_tabulate hj _, fun _ hi => getElem?_tabulate hi _⟩
  degree_ge := h.degree_ge
  degree_le := h.degree_le
  poly_lt_degree := h.poly_lt_degree
  zeroes := fun _ hq => getElem?_tabulate hq _

/-- `InitTables` fills the tables and goes on to the roll table. -/
theorem initTables_eq (h : crc.Proper) : ∃ t, t.rows = crc.cls.wordSize ∧ crc.initTables pl =
      (fillRollTable pl (crc.withTables crc.roll) t).bind fun t =>
        (t.copyRow crc.cls 0 256).bind fun roll => some (crc.withTables roll) := by
  have hsize := wordSize_pos crc
  obtain ⟨t₁, hfill₁, hrows₁, hentries₁⟩ := fillWordTable_spec
    (show 1 ≤ (new crc.cls.wordSize).rows from hsize) (poly_eq_advances crc.poly)
  have hrow : t₁.copyRow crc.cls 0 256 = some (tabulate 256 (advances crc.poly 8)) :=
    copyRow_eq (fun i hi => hentries₁ 0 (by decide) i hi) fun i hi => h.byte_lt 8 hi
  have hbytes : CRCImpl.HasByteTable { crc with table0 := tabulate 256 (advances crc.poly 8) } :=
    fun i hi => getElem?_tabulate hi _
  have hsteps : advances crc.poly (8 * (crc.cls.wordSize * (kStride - 1))) crc.poly =
      advances crc.poly (8 + 24 * crc.cls.wordSize) 128 :=
    calc advances crc.poly (8 * (crc.cls.wordSize * (kStride - 1))) crc.poly
        = advances crc.poly (8 * (crc.cls.wordSize * (kStride - 1))) (advances crc.poly 8 128) :=
          congrArg _ (poly_eq_advances crc.poly)
      _ = advances crc.poly (8 * (crc.cls.wordSize * (kStride - 1)) + 8) 128 :=
        (advances_add _ _ _).symm
      _ = advances crc.poly (8 + 24 * crc.cls.wordSize) 128 := by
          congr 1
          rw [kStride]
          omega
  have hlast : (range (crc.cls.wordSize * (kStride - 1))).foldlM
      (fun last _ =>
        CRCImpl.stepByte { crc with table0 := tabulate 256 (advances crc.poly 8) } last)
      (crc.poly % 2 ^ crc.cls.bits) = some (advances crc.poly (8 + 24 * crc.cls.wordSize) 128) :=
    (stepBytes_eq hbytes _ _).trans (by rw [mod_eq_of_lt h.poly_lt, hsteps])
  obtain ⟨t₂, hfill₂, hrows₂, hentries₂⟩ := fillWordTable_spec
    (show crc.cls.wordSize ≤ t₁.rows from hrows₁.symm.le)
    (Eq.refl (advances crc.poly (8 + 24 * crc.cls.wordSize) 128))
  have htable : (range crc.cls.wordSize).mapM (fun j => t₂.copyRow crc.cls j 256) =
      some (crc.withTables []).table :=
    mapM_eq_some fun j hj => copyRow_eq (fun i hi => hentries₂ j (mem_range.mp hj) i hi)
      fun i hi => h.byte_lt _ hi
  obtain ⟨t₃, hfill₃, hfilled⟩ := fillZeroesTable_spec
    (by have := h.degree_ge; omega) h.poly_lt_degree
    (show 0 < t₂.rows by rw [hrows₂, hrows₁]; exact hsize)
  have hzeroes : t₃.copyRow crc.cls 0 210 = some (tabulate 210 (zeroEntry crc.poly crc.degree 0)) :=
    copyRow_eq hfilled.entries fun q _ =>
      (advances_unit_lt (by have := h.degree_ge; omega) h.poly_lt_degree _).trans_le
        (Nat.pow_le_pow_right (by decide) h.degree_le)
  refine ⟨t₃, by rw [hfilled.rows_eq, hrows₂, hrows₁]; rfl, ?_⟩
  rw [CRCImpl.initTables]
  simp only [hfill₁, hrow, hlast, hfill₂, htable, hfill₃, hzeroes, bind_eq_bind, bind_some]
  rfl

/-! ## The roll table -/

/-- The outgoing byte, extended by the window and the incoming byte, together with what moves the
initial value one byte on. -/
def rollEntry (poly length i : Nat) : Nat :=
  advances poly (8 + 8 * length) i ^^^ advances poly (8 * length) (advances poly 8 (poly ^^^ 0x80))

theorem rollEntry_lt (h : crc.Ready) (length : Nat) {i : Nat} (hi : i < 256) :
    rollEntry crc.poly length i < 2 ^ crc.cls.bits := by
  have hbyte : 2 ^ 8 ≤ 2 ^ crc.degree := Nat.pow_le_pow_right (by decide) h.degree_ge
  refine h.lt_bits (xor_lt_two_pow (advances_lt h.poly_lt_degree (hi.trans_le hbyte) _) ?_)
  exact advances_lt h.poly_lt_degree (advances_lt h.poly_lt_degree
    (xor_lt_two_pow h.poly_lt_degree (lt_of_lt_of_le (by decide) hbyte)) _) _

/-- Adding a value to every entry of a row. -/
theorem xorEntries_spec {f : Nat → Nat} (hrows : 0 < t.rows)
    (hload : ∀ i < 256, t.load 0 i = some (f i))
    (v : Nat) : ∃ t', (range 256).foldlM (xorEntry v) t = some t' ∧
      ∀ i < 256, t'.load 0 i = some (f i ^^^ v) := by
  obtain ⟨t', hloop, -, hdone⟩ := foldlM_range_invariant
    (fun k (t' : Tables) => 0 < t'.rows ∧ ∀ i < 256,
      t'.load 0 i = some (if i < k then f i ^^^ v else f i))
    ⟨hrows, fun i hi => by rw [if_neg (Nat.not_lt_zero i)]; exact hload i hi⟩ (by
      intro k (hk : k < 256) t' ⟨hrows, hload⟩
      obtain ⟨t'', hstore, hrows', hload'⟩ := store_eq hrows hk (f k ^^^ v)
      have hround : xorEntry v t' k = some t'' := by
        rw [xorEntry, hload k hk, if_neg (Nat.lt_irrefl k)]
        exact hstore
      refine ⟨t'', hround, hrows'.symm ▸ hrows, fun i hi => ?_⟩
      rw [hload']
      by_cases hik : i = k
      · rw [if_pos ⟨rfl, hik⟩, if_pos (by omega), hik]
      · rw [if_neg (fun h => hik h.2), hload i hi,
          if_congr (show i < k ↔ i < k + 1 by omega) rfl rfl])
  exact ⟨t', hloop, fun i hi => by rw [hdone i hi, if_pos hi]⟩

/-- The table for rolling is filled. -/
theorem fillRollTable_spec (h : crc.Ready) (hrows : 0 < t.rows)
    (hlength : crc.rollLength < 2 ^ 63) : ∃ t', fillRollTable pl crc t = some t' ∧
      ∀ i < 256, t'.load 0 i = some (rollEntry crc.poly crc.rollLength i) := by
  have hcast : cast ⟨64, true⟩ (crc.rollLength : Int) = crc.rollLength := by
    refine cast_eq_self (by decide) ⟨?_, ?_⟩
    · exact le_trans (min_nonpos _) (Int.natCast_nonneg _)
    · rw [IntType.max]
      simp only [if_true]
      omega
  have hempty : crc.empty = LoHi.ofCrc crc.poly := rfl
  have hout := extendByZeroes_eq h pl h.poly_lt_degree hlength
  have hx := extend_eq h.toExtendable pl h.poly_lt pl.x [0x80#8]
  have hfeed : feedBytes crc.poly crc.poly [0x80#8] = advances crc.poly 8 (crc.poly ^^^ 0x80) :=
    feedBytes_singleton _ _ _
  have hbyte : 0x80 < 2 ^ crc.degree :=
    lt_of_lt_of_le (by decide) (Nat.pow_le_pow_right (by decide) h.degree_ge)
  have hback := extendByZeroes_eq h pl
    (advances_lt h.poly_lt_degree (xor_lt_two_pow h.poly_lt_degree hbyte) 8) hlength
  have hlast : advances crc.poly (8 * crc.rollLength) crc.poly =
      advances crc.poly (8 + 8 * crc.rollLength) 128 := by
    rw [add_comm, advances_add, ← poly_eq_advances]
  obtain ⟨t₁, hfill, hrows₁, hentries⟩ := fillWordTable_spec (show 1 ≤ t.rows from hrows) hlast
  obtain ⟨t₂, hxor, hentries₂⟩ := xorEntries_spec (hrows₁.symm ▸ hrows)
    (fun i hi => hentries 0 (by decide) i hi)
    (advances crc.poly (8 * crc.rollLength) (advances crc.poly 8 (crc.poly ^^^ 0x80)))
  refine ⟨t₂, ?_, hentries₂⟩
  rw [fillRollTable]
  simp only [hcast, hempty, hout, hx, hfeed, hback, makeUint128_ofCrc, hfill, bind_eq_bind,
    bind_some]
  exact hxor

/-- A length that is negative as an `int64_t` fails the check of `ExtendByZeroes`. -/
theorem rollLength_lt {t' : Tables} (h : fillRollTable pl crc t = some t')
    (hlength : crc.rollLength < 2 ^ 64) : crc.rollLength < 2 ^ 63 := by
  rw [fillRollTable, bind_eq_bind, bind_eq_some_iff] at h
  obtain ⟨v, hzeroes, -⟩ := h
  rw [CRCImpl.extendByZeroes, bind_eq_bind, guard_bind_eq_some] at hzeroes
  by_contra hge
  have hcast := hzeroes.1
  have hsign : true = true ∧ (2 : Int) ^ (64 - 1) ≤ (crc.rollLength : Int) % 2 ^ 64 :=
    ⟨rfl, by omega⟩
  rw [IntType.cast, if_pos hsign] at hcast
  omega

/-- The object that `InitTables` makes. -/
theorem initTables_eq_some (h : crc.Proper) (hlength : crc.rollLength < 2 ^ 63) :
    crc.initTables pl =
      some (crc.withTables (tabulate 256 (rollEntry crc.poly crc.rollLength))) := by
  have hready := withTables_ready h crc.roll
  obtain ⟨t, hrows, hinit⟩ := initTables_eq pl h
  obtain ⟨t', hfill, hentries⟩ := fillRollTable_spec pl hready
    (show 0 < t.rows by rw [hrows]; exact wordSize_pos _) hlength
  have hroll : t'.copyRow crc.cls 0 256 = _ :=
    copyRow_eq hentries fun i hi => rollEntry_lt hready _ hi
  rw [hinit, hfill, bind_some, hroll]
  rfl

/-! ## Construction -/

/-- The class that `NewInternal` chooses. -/
def classOf (degree : Nat) : SoftwareClass :=
  if degree ≤ 32 then .crc32 else if degree ≤ 64 then .crc64 else .crc128

/-- The fields that `NewInternal` fills in before the tables. -/
def bare (lo hi degree rollLength : Nat) : CRCImpl :=
  { cls := classOf degree, rollLength := rollLength, degree := degree, poly := makeUint128 hi lo,
    table0 := [], table := [], zeroes := [], roll := [] }

variable {lo hi degree rollLength : Nat}

/-- Which arguments `NewInternal` accepts. -/
theorem newInternal_eq_some_iff : newInternal pl lo hi degree rollLength = some crc ↔
      (8 ≤ degree ∧ degree ≤ 128) ∧ (lo ≠ 0 ∨ hi ≠ 0) ∧
        (bare lo hi degree rollLength).initTables pl = some crc := by
  rw [newInternal, bind_eq_bind, guard_bind_eq_some, guard_bind_eq_some]
  rfl

/-- An object without tables has a degree and a polynomial of its class. -/
theorem bare_proper (hdegree : 8 ≤ degree ∧ degree ≤ 128) (hpoly : makeUint128 hi lo < 2 ^ degree) :
    (bare lo hi degree rollLength).Proper where
  degree_ge := hdegree.1
  degree_le := by
    rw [bare, classOf]
    split
    next h => exact h
    next =>
      split
      next h => exact h
      next => exact hdegree.2
  poly_lt_degree := hpoly

/-- What an object has after `NewInternal`. -/
structure CRCImpl.Built (crc : CRCImpl) (poly degree rollLength : Nat) :
    Prop extends crc.Ready where
  poly_eq : crc.poly = poly
  degree_eq : crc.degree = degree
  roll : rollLength < 2 ^ 64 → rollLength < 2 ^ 63 ∧
    ∀ i < 256, crc.roll[i]? = some (rollEntry poly rollLength i)

/-- Every object that `NewInternal` returns has the right tables. -/
theorem newInternal_built (h : newInternal pl lo hi degree rollLength = some crc)
    (hpoly : makeUint128 hi lo < 2 ^ degree) : crc.Built (makeUint128 hi lo) degree rollLength := by
  obtain ⟨hdegree, -, hinit⟩ := (newInternal_eq_some_iff pl).mp h
  have hproper : (bare lo hi degree rollLength).Proper := bare_proper hdegree hpoly
  have hinit' := hinit
  obtain ⟨t, -, htables⟩ := initTables_eq pl hproper
  rw [htables, bind_eq_some_iff] at hinit
  obtain ⟨t', hfill, hrest⟩ := hinit
  rw [bind_eq_some_iff] at hrest
  obtain ⟨roll, -, hrest⟩ := hrest
  obtain rfl := some.inj hrest
  refine { withTables_ready hproper roll with
    poly_eq := rfl
    degree_eq := rfl
    roll := fun hlength => ?_ }
  have hlt : rollLength < 2 ^ 63 := rollLength_lt pl hfill hlength
  rw [initTables_eq_some pl hproper hlt] at hinit'
  obtain rfl : _ = roll := congrArg CRCImpl.roll (some.inj hinit')
  exact ⟨hlt, fun i hi => getElem?_tabulate hi _⟩

/-- `NewInternal` returns an object for every degree and every polynomial but zero, as long as the
roll length is not negative as an `int64_t`. -/
theorem newInternal_isSome_iff (hpoly : makeUint128 hi lo < 2 ^ degree)
    (hlength : rollLength < 2 ^ 64) : (∃ crc, newInternal pl lo hi degree rollLength = some crc) ↔
      (8 ≤ degree ∧ degree ≤ 128) ∧ (lo ≠ 0 ∨ hi ≠ 0) ∧ rollLength < 2 ^ 63 := by
  constructor
  · rintro ⟨crc, h⟩
    obtain ⟨hdegree, hnonzero, -⟩ := (newInternal_eq_some_iff pl).mp h
    exact ⟨hdegree, hnonzero, ((newInternal_built pl h hpoly).roll hlength).1⟩
  · rintro ⟨hdegree, hnonzero, hlt⟩
    exact ⟨_, (newInternal_eq_some_iff pl).mpr
      ⟨hdegree, hnonzero, initTables_eq_some pl (bare_proper hdegree hpoly) hlt⟩⟩

end

/-! ## The laws of the interface -/

open Gloop.Foundation Gloop.Foundation.ShiftRegister List Option Nat
open LoHi (mk ofCrc)
variable {pl : Platform} {crc : CRCImpl} {lo hi degree rollLength c : Nat} {poly : Nat}

section

variable (h : crc.Built poly degree rollLength)
include h

/-- A CRC of the degree of an object, extended. -/
theorem CRCImpl.Built.extend_eq (pl : Platform) (hc : c < 2 ^ degree) (address : Nat)
    (bytes : List Byte) : crc.extend pl (ofCrc c) address bytes =
      some (ofCrc (feedBytes poly c bytes)) := by
  rw [← h.degree_eq] at hc
  rw [Crc.extend_eq h.toExtendable pl (h.lt_bits hc), h.poly_eq]

theorem CRCImpl.Built.poly_lt_two_pow : poly < 2 ^ degree := by
  have hlt := h.poly_lt_degree
  rwa [h.poly_eq, h.degree_eq] at hlt

/-- The CRC of no bytes is the polynomial. -/
theorem CRCImpl.Built.empty_eq : crc.empty = ofCrc poly := by
  rw [CRCImpl.empty, h.poly_eq]
  rfl

/-- `ExtendByZeroes` makes eight steps for each zero. -/
theorem CRCImpl.Built.extendByZeroes_eq (pl : Platform) (hc : c < 2 ^ degree) {n : Nat}
    (hn : n < 2 ^ 63) : crc.extendByZeroes pl (ofCrc c) n =
      some (ofCrc (advances poly (8 * n) c)) := by
  rw [← h.degree_eq] at hc
  rw [Crc.extendByZeroes_eq h.toReady pl hc hn, h.poly_eq]

/-- Pieces, one after the other. -/
theorem CRCImpl.Built.extendPieces_eq (pl : Platform) (hc : c < 2 ^ degree)
    (pieces : List (Nat × List Byte)) :
      pieces.foldlM (fun v piece => crc.extend pl v piece.1 piece.2) (ofCrc c) =
      some (ofCrc (feedBytes poly c (pieces.flatMap Prod.snd))) := by
  induction pieces generalizing c with
  | nil => rfl
  | cons piece pieces ih =>
    rw [foldlM_cons, h.extend_eq pl hc, bind_eq_bind, bind_some,
      ih (feedBytes_lt h.poly_lt_two_pow hc _), flatMap_cons, feedBytes_append]

end

/-- `Extend` gives the remainder that the bits of the input leave one by one, in whatever pieces and
at whatever addresses the input is given. -/
theorem extend_divides (hcrc : newInternal pl lo hi degree rollLength = some crc)
    (hpoly : makeUint128 hi lo < 2 ^ degree) (hc : c < 2 ^ degree) :
    (∀ address bytes, crc.extend pl (ofCrc c) address bytes =
      some (ofCrc (feed (makeUint128 hi lo) c (bytesToBits bytes)))) ∧
    (∀ first second third front back,
      (crc.extend pl (ofCrc c) first front).bind (fun v => crc.extend pl v second back) =
        crc.extend pl (ofCrc c) third (front ++ back)) ∧
    ∀ address (pieces : List (Nat × List Byte)),
      pieces.foldlM (fun v piece => crc.extend pl v piece.1 piece.2) (ofCrc c) =
        crc.extend pl (ofCrc c) address (pieces.flatMap Prod.snd) := by
  have hbuilt := newInternal_built pl hcrc hpoly
  refine ⟨fun address bytes => hbuilt.extend_eq pl hc address bytes,
    fun first second third front back => ?_,
    fun address pieces => ?_⟩
  · rw [hbuilt.extend_eq pl hc, bind_some,
      hbuilt.extend_eq pl (feedBytes_lt hbuilt.poly_lt_two_pow hc front), hbuilt.extend_eq pl hc,
      feedBytes_append]
  · rw [hbuilt.extendPieces_eq pl hc, hbuilt.extend_eq pl hc]

/-- An object to try the laws on. -/
theorem exists_degree_eight (hlength : rollLength < 2 ^ 63) :
    ∃ crc, newInternal ⟨false, 0, 0⟩ 0xd5 0 8 rollLength = some crc :=
  (newInternal_isSome_iff _ (by decide) (by omega)).mpr ⟨by decide, by decide, hlength⟩

/-- An input that is not aligned, and long enough for swaths, words and single bytes. -/
theorem extend_divides_degree_eight : ∃ crc, newInternal ⟨false, 0, 0⟩ 0xd5 0 8 0 = some crc ∧
    crc.extend ⟨false, 0, 0⟩ (ofCrc 0xff) 3 ((List.range 200).map (BitVec.ofNat 8)) =
      some (ofCrc (feed 0xd5 0xff (bytesToBits ((List.range 200).map (BitVec.ofNat 8))))) := by
  obtain ⟨crc, hcrc⟩ := exists_degree_eight (show 0 < 2 ^ 63 by decide)
  exact ⟨crc, hcrc, (extend_divides hcrc (by decide) (by decide)).1 3 _⟩

/-- Skipping zeroes is extending by them. -/
theorem extendByZeroes_extends (hcrc : newInternal pl lo hi degree rollLength = some crc)
    (hpoly : makeUint128 hi lo < 2 ^ degree) (hc : c < 2 ^ degree) {n : Nat} (hn : n < 2 ^ 63)
    (address : Nat) : ∃ v, crc.extendByZeroes pl (ofCrc c) n = some v ∧
      crc.extend pl (ofCrc c) address (List.replicate n 0) = some v := by
  have hbuilt := newInternal_built pl hcrc hpoly
  exact ⟨_, hbuilt.extendByZeroes_eq pl hc hn, by rw [hbuilt.extend_eq pl hc,
    feedBytes_replicate_zero]⟩

/-- A thousand zeros for a polynomial of degree eight. -/
theorem extendByZeroes_extends_degree_eight :
    ∃ crc, newInternal ⟨false, 0, 0⟩ 0xd5 0 8 0 = some crc ∧ ∃ v, crc.extendByZeroes ⟨false, 0, 0⟩
      (ofCrc 0xff) 1000 = some v ∧ crc.extend ⟨false, 0, 0⟩
        (ofCrc 0xff) 0 (List.replicate 1000 0) = some v := by
  obtain ⟨crc, hcrc⟩ := exists_degree_eight (show 0 < 2 ^ 63 by decide)
  exact ⟨crc, hcrc, extendByZeroes_extends hcrc (by decide) (by decide) (by decide) 0⟩

/-! ## Joining -/

theorem ofCrc_xor (a b : Nat) : mk ((ofCrc a).lo ^^^ (ofCrc b).lo) ((ofCrc a).hi ^^^ (ofCrc b).hi) =
      ofCrc (a ^^^ b) := by
  rw [ofCrc, ofCrc, ofCrc, uint128Low64, uint128Low64, uint128Low64, uint128High64,
    uint128High64, uint128High64, xor_mod_two_pow, shiftRight_xor_distrib]

/-- A register that is fed `bytes` instead of another one. -/
theorem feedBytes_change (poly a b : Nat) (bytes : List Byte) : feedBytes poly b bytes =
      advances poly (8 * bytes.length) (b ^^^ a) ^^^ feedBytes poly a bytes := by
  rw [feedBytes_eq, feedBytes_eq, ← advances_xor, Nat.xor_assoc, xor_xor_cancel_left]

/-- The CRCs of two strings give that of their concatenation. -/
theorem concat_joins (hcrc : newInternal pl lo hi degree rollLength = some crc)
    (hpoly : makeUint128 hi lo < 2 ^ degree) (x y : List Byte) (hy : y.length < 2 ^ 63)
    (first second third : Nat) : ∃ px py, crc.extend pl crc.empty first x = some px ∧
      crc.extend pl crc.empty second y = some py ∧ ∃ pxy, crc.concat pl px py y.length = some pxy ∧
        crc.extend pl crc.empty third (x ++ y) = some pxy := by
  have hbuilt := newInternal_built pl hcrc hpoly
  have hx := feedBytes_lt hpoly hpoly x
  rw [hbuilt.empty_eq]
  refine ⟨_, _, hbuilt.extend_eq pl hpoly _ _, hbuilt.extend_eq pl hpoly _ _, _, ?_,
    hbuilt.extend_eq pl hpoly _ _⟩
  rw [CRCImpl.concat, bind_eq_bind, guard_bind (Int.natCast_nonneg _)]
  split
  next hempty =>
    obtain rfl : y = [] := length_eq_zero_iff.mp (by omega)
    rw [append_nil]
  next =>
    dsimp only
    rw [hbuilt.empty_eq, ofCrc_xor, hbuilt.extendByZeroes_eq pl (xor_lt_two_pow hx hpoly) hy,
      bind_eq_bind, bind_some, ofCrc_xor, feedBytes_append, feedBytes_change _ (makeUint128 hi lo)
        (feedBytes _ _ x)]

/-- Two parts for a polynomial of degree eight. -/
theorem concat_joins_degree_eight : ∃ crc, newInternal ⟨false, 0, 0⟩ 0xd5 0 8 0 = some crc ∧
    ∃ px py, crc.extend ⟨false, 0, 0⟩ crc.empty 0 [0x31#8, 0x32#8] = some px ∧
      crc.extend ⟨false, 0, 0⟩ crc.empty 0 [0x33#8] = some py ∧
        ∃ pxy, crc.concat ⟨false, 0, 0⟩ px py 1 = some pxy ∧
          crc.extend ⟨false, 0, 0⟩ crc.empty 0 [0x31#8, 0x32#8, 0x33#8] = some pxy := by
  obtain ⟨crc, hcrc⟩ := exists_degree_eight (show 0 < 2 ^ 63 by decide)
  exact ⟨crc, hcrc, concat_joins hcrc (by decide) [0x31#8, 0x32#8] [0x33#8] (by decide) 0 0 0⟩

/-! ## Rolling -/

/-- The roll table, in the form in which it is used: the outgoing byte took the place of the initial
value `length` bytes ago. -/
theorem rollEntry_eq (poly length i : Nat) : rollEntry poly length i = advances poly (8 * length)
      (advances poly 8 (poly ^^^ i) ^^^ poly) := by
  have htop := poly_eq_advances poly
  rw [rollEntry, add_comm, advances_add, ← advances_xor]
  congr 1
  rw [advances_xor, advances_xor, ← htop]
  ac_rfl

/-- One byte goes out of the window, and one comes in. -/
theorem rollByte_eq (h : crc.Built poly degree rollLength) (hlength : rollLength < 2 ^ 64)
    {s : List Byte} (hs : s.length + 1 = rollLength) (oByte iByte : Byte) :
    crc.rollByte (ofCrc (feedBytes poly poly (oByte :: s))) oByte iByte =
      some (ofCrc (feedBytes poly poly (s ++ [iByte]))) := by
  have hpoly := h.poly_lt_two_pow
  have hlt : ∀ bytes, feedBytes poly poly bytes < 2 ^ crc.cls.bits := fun bytes =>
    h.lt_bits (h.degree_eq.symm ▸ feedBytes_lt hpoly hpoly bytes)
  obtain ⟨entry, hentry, hvalue⟩ := table0_lookup h.table0 (feedBytes poly poly (oByte :: s)) iByte
  have hroll := (h.roll hlength).2 oByte.toNat oByte.isLt
  have hfirst : feedBytes poly poly (oByte :: s) =
      advances poly (8 * s.length) (advances poly 8 (poly ^^^ oByte.toNat) ^^^ poly) ^^^
        feedBytes poly poly s := by
    rw [← feedBytes_change, ← singleton_append, feedBytes_append, feedBytes_singleton]
  have hresult : entry ^^^ (feedBytes poly poly (oByte :: s) >>> 8) ^^^
      rollEntry poly rollLength oByte.toNat = feedBytes poly poly (s ++ [iByte]) := by
    rw [Nat.xor_comm entry, hvalue, h.poly_eq, rollEntry_eq, feedBytes_append, feedBytes_singleton,
      ← hs, show 8 * (s.length + 1) = 8 + 8 * s.length by ring, advances_add, hfirst, Nat.xor_assoc,
      advances_xor, xor_right_comm, Nat.xor_self, Nat.zero_xor]
  rw [CRCImpl.rollByte, register_ofCrc (hlt _), hentry, bind_eq_bind, bind_some, hroll,
    bind_some, hresult, writeBack_ofCrc (hlt _) (hlt _)]

/-- The window after one more byte. -/
theorem window_succ {data : List Byte} {k length : Nat} (hlength : 0 < length)
    (hroom : k + 1 + length ≤ data.length) :
    ∃ s o i, s.length + 1 = length ∧ (data.drop k).take length = o :: s ∧
      (data.drop (k + 1)).take length = s ++ [i] ∧
        (data.zip (data.drop length))[k]? = some (o, i) := by
  obtain ⟨n, rfl⟩ : ∃ n, length = n + 1 := ⟨length - 1, by omega⟩
  have hk : k < data.length := by omega
  have hlast : k + 1 + n < data.length := by omega
  refine ⟨(data.drop (k + 1)).take n, data[k], data[k + 1 + n], ?_, ?_, ?_, ?_⟩
  · rw [length_take, length_drop]
    omega
  · rw [drop_eq_getElem_cons, take_succ_cons]
  · rw [take_add_one, getElem?_drop, getElem?_eq_getElem]
    rfl
  · rw [getElem?_zip_eq_some]
    refine ⟨getElem?_eq_getElem hk, ?_⟩
    rw [getElem?_drop, show n + 1 + k = k + 1 + n by omega]
    exact getElem?_eq_getElem hlast

/-- Rolling along the data keeps the CRC of the window. -/
theorem rollAlong_eq (h : crc.Built poly degree rollLength) (hpositive : 0 < rollLength)
    (hlength : rollLength < 2 ^ 64) (data : List Byte) {k : Nat}
    (hroom : k + rollLength ≤ data.length) :
    ((data.zip (data.drop rollLength)).take k).foldlM (fun v bytes =>
      crc.rollByte v bytes.1 bytes.2)
        (ofCrc (feedBytes poly poly (data.take rollLength))) =
      some (ofCrc (feedBytes poly poly ((data.drop k).take rollLength))) := by
  induction k with
  | zero => rfl
  | succ k ih =>
    obtain ⟨s, o, i, hs, hwindow, hnext, hbytes⟩ := window_succ hpositive hroom
    rw [take_add_one, foldlM_append, ih (by omega), hbytes, bind_eq_bind, bind_some, hwindow, hnext,
      toList_some, foldlM_cons, rollByte_eq h hlength hs]
    rfl

/-- `Roll` moves the window over which the CRC is taken, by one byte and along any data. -/
theorem roll_moves_window (hcrc : newInternal pl lo hi degree rollLength = some crc)
    (hpoly : makeUint128 hi lo < 2 ^ degree) (hpositive : 1 ≤ rollLength)
    (hlength : rollLength < 2 ^ 64) :
    (∀ (s : List Byte) (oByte iByte : Byte) (first second : Nat), s.length = rollLength - 1 →
      ∃ v, crc.extend pl crc.empty first (oByte :: s) = some v ∧
        ∃ v', crc.rollByte v oByte iByte = some v' ∧
          crc.extend pl crc.empty second (s ++ [iByte]) = some v') ∧
    ∀ (data : List Byte) (k first second : Nat), k + rollLength ≤ data.length →
      ∃ v, crc.extend pl crc.empty first (data.take rollLength) = some v ∧
        ∃ v', ((data.zip (data.drop rollLength)).take k).foldlM
            (fun v bytes => crc.rollByte v bytes.1 bytes.2) v = some v' ∧
          crc.extend pl crc.empty second ((data.drop k).take rollLength) = some v' := by
  have hbuilt := newInternal_built pl hcrc hpoly
  rw [hbuilt.empty_eq]
  refine ⟨fun s oByte iByte first second hs => ?_, fun data k first second hroom => ?_⟩
  · exact ⟨_, hbuilt.extend_eq pl hpoly _ _, _, rollByte_eq hbuilt hlength (by omega) oByte iByte,
      hbuilt.extend_eq pl hpoly _ _⟩
  · exact ⟨_, hbuilt.extend_eq pl hpoly _ _, _, rollAlong_eq hbuilt hpositive hlength data hroom,
      hbuilt.extend_eq pl hpoly _ _⟩

/-- A window of two bytes for a polynomial of degree eight. -/
theorem roll_moves_window_degree_eight : ∃ crc, newInternal ⟨false, 0, 0⟩ 0xd5 0 8 2 = some crc ∧
    ∃ v, crc.extend ⟨false, 0, 0⟩ crc.empty 0 [0x31#8, 0x32#8] = some v ∧
      ∃ v', crc.rollByte v 0x31#8 0x33#8 = some v' ∧
        crc.extend ⟨false, 0, 0⟩ crc.empty 0 [0x32#8, 0x33#8] = some v' := by
  obtain ⟨crc, hcrc⟩ := exists_degree_eight (show 2 < 2 ^ 63 by decide)
  exact ⟨crc, hcrc, (roll_moves_window hcrc (by decide) (by decide)
    (by decide)).1 [0x32#8] 0x31#8 0x33#8
    0 0 rfl⟩

end Gloop.Hash.Crc

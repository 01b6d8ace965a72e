import Gloop.Foundation.ShiftRegister
import Gloop.Hash.Crc.Model

/-!
# What the tables hold

Every table entry is a register after some steps: `FillWordTable` puts the steps of the indices
there (`fillWordTable_spec`), and `FillZeroesTable` the steps of the unit (`fillZeroesTable_spec`).
Both loops write only entries that are right, so what is known of a table only grows
(`Tables.Grows`), whatever the table held before.
-/

namespace Gloop.Hash.Crc

open Gloop.Foundation Gloop.Foundation.ShiftRegister List Nat

theorem low64_and_one (v : Nat) : uint128Low64 v &&& 1 ≠ 0 ↔ v % 2 = 1 := by
  rw [uint128Low64, and_one_is_mod]
  omega

/-- The conditional shift in the source is a step of the register. -/
theorem advance_eq (poly v : Nat) :
    (if uint128Low64 v &&& 1 ≠ 0 then (v >>> 1) ^^^ poly else v >>> 1) = advance poly v :=
  if_congr (low64_and_one v) rfl rfl

/-! ## Multiplication -/

theorem and_two_pow_ne_zero (n k : Nat) : n &&& 2 ^ k ≠ 0 ↔ n.testBit k = true := by
  rw [and_two_pow]
  cases n.testBit k <;> simp

/-- A round of the multiplication. -/
theorem polyMultiplyLoop_succ (poly half k result m : Nat) :
    polyMultiplyLoop poly half (2 ^ k) result m =
      polyMultiplyLoop poly half (2 ^ k >>> 1) (result ^^^ (if half.testBit k then m else 0))
        (advance poly m) := by
  rw [polyMultiplyLoop, if_neg (Nat.two_pow_pos k).ne', advance_eq,
    if_congr (and_two_pow_ne_zero _ _) rfl rfl]
  split
  · rfl
  · rw [xor_zero]

/-- The loop multiplies, and advances the second factor. -/
theorem polyMultiplyLoop_eq (poly half k result m : Nat) :
    polyMultiplyLoop poly half (2 ^ k) result m =
      (result ^^^ mulBits poly (k + 1) half m, advances poly (k + 1) m) := by
  induction k generalizing result m with
  | zero =>
    rw [polyMultiplyLoop_succ, polyMultiplyLoop, mulBits_succ]
    exact Prod.ext (congrArg (result ^^^ ·) (xor_zero _).symm) rfl
  | succ k ih =>
    rw [polyMultiplyLoop_succ, pow_succ, shiftRight_one, Nat.mul_div_cancel _ (by decide), ih,
      mulBits_succ (k + 1), Nat.xor_assoc]
    rfl

/-- `PolyMultiply` is the product of registers. -/
theorem polyMultiply_eq {val degree : Nat} (hdegree : 0 < degree) (hval : val < 2 ^ degree)
    (m poly : Nat) : polyMultiply val m poly degree = mulBits poly degree val m := by
  rw [polyMultiply]
  dsimp only
  split
  next hwide =>
    have hbits : degree = 64 + (degree - 64) := by omega
    rw [one_shiftLeft, one_shiftLeft, polyMultiplyLoop_eq, polyMultiplyLoop_eq, zero_xor,
      show degree - 65 + 1 = degree - 64 by omega, mulBits_advances, uint128Low64,
      mulBits_mod (le_refl 64), Nat.xor_comm]
    conv_rhs => rw [hbits]
    exact (mulBits_add 64 (degree - 64) val m).symm
  next hnarrow =>
    have hlow : uint128Low64 val = val :=
      mod_eq_of_lt (hval.trans_le (Nat.pow_le_pow_right (by decide) (by omega)))
    rw [one_shiftLeft, polyMultiplyLoop_eq, Nat.zero_xor, hlow, Nat.sub_add_cancel hdegree]

/-- Multiplying by an extension of the unit extends. -/
theorem polyMultiply_unit {poly val degree : Nat} (hdegree : 0 < degree)
    (hval : val < 2 ^ degree) (n : Nat) :
      polyMultiply val (advances poly n (2 ^ (degree - 1))) poly degree = advances poly n val := by
  rw [polyMultiply_eq hdegree hval, mulBits_advances_unit hdegree hval]

/-! ## Knowledge of a table -/

/-- The cell holds what `f` says. -/
def Tables.Agrees (t : Tables) (f : Nat → Nat → Nat) (j i : Nat) : Prop :=
  t.load j i = some (f j i)

/-- The table has been written according to `f`. -/
structure Tables.Grows (f : Nat → Nat → Nat) (t t' : Tables) : Prop where
  rows_eq : t'.rows = t.rows
  keeps : ∀ {j i}, t.Agrees f j i → t'.Agrees f j i

theorem Tables.Grows.refl (f : Nat → Nat → Nat) (t : Tables) : Tables.Grows f t t :=
  ⟨rfl, id⟩

variable {f : Nat → Nat → Nat}

theorem Tables.Grows.trans {t t' t'' : Tables} (h : Tables.Grows f t t')
    (h' : Tables.Grows f t' t'') : Tables.Grows f t t'' :=
  ⟨h'.rows_eq.trans h.rows_eq, fun hcell => h'.keeps (h.keeps hcell)⟩

theorem Tables.store_eq {t : Tables} {j i : Nat} (hj : j < t.rows) (hi : i < 256) (v : Nat) :
    ∃ t', t.store j i v = some t' ∧ t'.rows = t.rows ∧
      ∀ j' i', t'.load j' i' = if j' = j ∧ i' = i then some v else t.load j' i' := by
  refine ⟨_, if_pos ⟨hj, hi⟩, rfl, fun j' i' => ?_⟩
  rw [Tables.load, Tables.load]
  dsimp only
  by_cases hsame : j' = j ∧ i' = i
  · rw [if_pos hsame, if_pos hsame, if_pos (by rw [hsame.1, hsame.2]; exact ⟨hj, hi⟩)]
  · rw [if_neg hsame, if_neg hsame]

/-- A store of the right value adds an entry. -/
theorem Tables.store_spec {t : Tables} {j i v : Nat} (hj : j < t.rows) (hi : i < 256)
    (hv : v = f j i) : ∃ t', t.store j i v = some t' ∧ Tables.Grows f t t' ∧ t'.Agrees f j i := by
  obtain ⟨t', hstore, hrows, hload⟩ := Tables.store_eq hj hi v
  refine ⟨t', hstore, ⟨hrows, fun {j' i'} hcell => ?_⟩, ?_⟩
  · rw [Tables.Agrees, hload]
    split
    next hsame => rw [hv, hsame.1, hsame.2]
    next => exact hcell
  · rw [Tables.Agrees, hload, if_pos ⟨rfl, rfl⟩, hv]

/-! ## `FillWordTable` -/

/-- The entries of a table for words: the index, extended by `n` bits and the bytes that follow. -/
def wordEntry (poly n j i : Nat) : Nat :=
  advances poly (n + 8 * j) i

variable {poly : Nat}

/-- An entry follows from that of the double index. -/
theorem wordEntry_half (n j i : Nat) :
    advance poly (wordEntry poly n j (i <<< 1)) = wordEntry poly n j i := by
  rw [wordEntry, ← advances_succ_left, advances_succ, advance_shiftLeft, shiftLeft_zero, wordEntry]

/-- The first entry of a row follows from the row before. -/
theorem wordEntry_next_row (n j : Nat) :
    advance poly (wordEntry poly n j 1) = wordEntry poly n (j + 1) 128 := by
  have hunit : advances poly 7 (1 <<< 7) = 1 := advances_shiftLeft_self 1 7
  rw [wordEntry, ← advances_succ_left, wordEntry, show n + 8 * (j + 1) = n + 8 * j + 1 + 7 by ring,
    advances_add _ 7, show 128 = 1 <<< 7 from rfl, hunit]

variable {last n : Nat} {t : Tables} {j : Nat}

theorem shiftRight_128 : ∀ e < 8, 128 >>> e = 2 ^ (7 - e) := by
  decide

/-- An entry for a power of two. -/
theorem fillPower_spec (hj : j < t.rows) (hlast : last = advances poly n 128)
    (hprev : j ≠ 0 → t.Agrees (wordEntry poly n) (j - 1) 1) {e : Nat} (he : e < 8)
    (hdouble : e ≠ 0 → t.Agrees (wordEntry poly n) j (2 ^ (7 - e + 1))) :
    ∃ t', fillPower poly last j t e = some t' ∧ Tables.Grows (wordEntry poly n) t t' ∧
      t'.Agrees (wordEntry poly n) j (2 ^ (7 - e)) := by
  have hbound : 2 ^ (7 - e) < 256 :=
    (Nat.pow_le_pow_right (by decide) (by omega)).trans_lt (show 2 ^ 7 < 256 by decide)
  have htop : 2 ^ (7 - e) = 128 ↔ e = 0 := by
    rw [show 128 = 2 ^ 7 from rfl, Nat.pow_right_inj (by decide)]
    omega
  rw [fillPower, shiftRight_128 e he]
  dsimp only
  by_cases hzero : e = 0
  · subst hzero
    by_cases hrow : j = 0
    · subst hrow
      exact Tables.store_spec hj hbound hlast
    · have hpred := hprev hrow
      rw [if_neg (fun h => hrow h.1), hpred, Option.bind_eq_bind, Option.bind_some,
        advance_eq, wordEntry_next_row, Nat.sub_add_cancel (by omega)]
      exact Tables.store_spec hj hbound rfl
  · have hpred := hdouble hzero
    have hshift : 2 ^ (7 - e + 1) = 2 ^ (7 - e) <<< 1 := by rw [shiftLeft_eq, pow_succ, pow_one]
    rw [hshift] at hpred
    rw [if_neg (fun h => hzero (htop.mp h.2)), if_neg (fun h => hzero (htop.mp h)), hpred,
      Option.bind_eq_bind, Option.bind_some, advance_eq, wordEntry_half]
    exact Tables.store_spec hj hbound rfl

/-- An entry for a sum of powers of two. -/
theorem fillEntry_spec (hj : j < t.rows) {e count : Nat} (he : e < 8) (hcount : count < 2 ^ e - 1)
    (hknown : ∀ i < 2 ^ e + 1 + count, t.Agrees (wordEntry poly n) j i) :
    ∃ t', fillEntry j (2 ^ e) t count = some t' ∧ Tables.Grows (wordEntry poly n) t t' ∧
      ∀ i < 2 ^ e + 1 + (count + 1), t'.Agrees (wordEntry poly n) j i := by
  have hbound : 2 ^ e ≤ 128 := Nat.pow_le_pow_right (by decide) (show e ≤ 7 by omega)
  have hbase := hknown (2 ^ e) (by omega)
  have hrest := hknown (1 + count) (by omega)
  have hentry : wordEntry poly n j (2 ^ e) ^^^ wordEntry poly n j (1 + count) =
      wordEntry poly n j (2 ^ e + 1 + count) := by
    rw [add_assoc, two_pow_add_eq_xor (by omega)]
    exact (advances_xor _ _ _).symm
  obtain ⟨t', hstore, hgrows, hnew⟩ := Tables.store_spec hj (by omega) hentry
  refine ⟨t', ?_, hgrows, fun i hi => ?_⟩
  · rw [fillEntry, hbase, show 2 ^ e + 1 + count - 2 ^ e = 1 + count by omega, hrest]
    exact hstore
  · rcases Nat.lt_succ_iff_lt_or_eq.mp hi with hlt | rfl
    · exact hgrows.keeps (hknown i hlt)
    · exact hnew

/-- The entries below a power of two and the power itself give those below the next one. -/
theorem fillBetween_spec (hj : j < t.rows) {e : Nat} (he : e < 7)
    (hknown : ∀ i < 2 ^ (e + 1) + 1, t.Agrees (wordEntry poly n) j i) :
    ∃ t', fillBetween j t e = some t' ∧ Tables.Grows (wordEntry poly n) t t' ∧
      ∀ i < 2 ^ (e + 2), t'.Agrees (wordEntry poly n) j i := by
  have hpow : 2 <<< e = 2 ^ (e + 1) := by rw [shiftLeft_eq, pow_succ, mul_comm]
  have hdouble : 2 ^ (e + 2) = 2 * 2 ^ (e + 1) := by rw [pow_succ, mul_comm]
  obtain ⟨t', hloop, hgrows, hdone⟩ := foldlM_range_invariant
    (fun count t' => Tables.Grows (wordEntry poly n) t t' ∧
      ∀ i < 2 ^ (e + 1) + 1 + count, t'.Agrees (wordEntry poly n) j i)
    ⟨Tables.Grows.refl _ _, hknown⟩ (by
      intro count (hcount : count < 2 ^ (e + 1) - 1) t' ⟨hgrows, hdone⟩
      obtain ⟨t'', hentry, hgrows', hdone'⟩ := fillEntry_spec (hgrows.rows_eq.symm ▸ hj)
        (by omega) hcount hdone
      exact ⟨t'', hentry, hgrows.trans hgrows', hdone'⟩)
  refine ⟨t', ?_, hgrows, fun i hi => hdone i (by omega)⟩
  rw [fillBetween, hpow]
  exact hloop

/-- The powers of two of a row. -/
theorem fillPowers_spec (hj : j < t.rows) (hlast : last = advances poly n 128)
    (hprev : j ≠ 0 → t.Agrees (wordEntry poly n) (j - 1) 1) :
    ∃ t', (range 8).foldlM (fillPower poly last j) t = some t' ∧
      Tables.Grows (wordEntry poly n) t t' ∧ ∀ e < 8, t'.Agrees (wordEntry poly n) j (2 ^ e) := by
  obtain ⟨t', hloop, hgrows, hdone⟩ := foldlM_range_invariant
    (fun count t' => Tables.Grows (wordEntry poly n) t t' ∧
      ∀ e < 8, 8 - count ≤ e → t'.Agrees (wordEntry poly n) j (2 ^ e))
    ⟨Tables.Grows.refl _ _, fun e he hle => absurd hle (by omega)⟩ (by
      intro count (hcount : count < 8) t' ⟨hgrows, hdone⟩
      obtain ⟨t'', hround, hgrows', hnew⟩ := fillPower_spec (hgrows.rows_eq.symm ▸ hj) hlast
        (fun hne => hgrows.keeps (hprev hne)) hcount
        (fun hne => hdone (7 - count + 1) (by omega) (by omega))
      refine ⟨t'', hround, hgrows.trans hgrows', fun e he hle => ?_⟩
      by_cases heq : e = 7 - count
      · exact heq ▸ hnew
      · exact hgrows'.keeps (hdone e he (by omega)))
  exact ⟨t', hloop, hgrows, fun e he => hdone e he (by omega)⟩

/-- A row is right if the row before it is. -/
theorem fillRow_spec (hj : j < t.rows) (hlast : last = advances poly n 128)
    (hprev : j ≠ 0 → t.Agrees (wordEntry poly n) (j - 1) 1) :
    ∃ t', fillRow poly last t j = some t' ∧ Tables.Grows (wordEntry poly n) t t' ∧
      ∀ i < 256, t'.Agrees (wordEntry poly n) j i := by
  obtain ⟨t₁, hzero, hgrows₁, hcell⟩ := Tables.store_spec hj (by decide)
    (show 0 = wordEntry poly n j 0 from (advances_zero _).symm)
  obtain ⟨t₂, hpowers, hgrows₂, hpower⟩ := fillPowers_spec (hgrows₁.rows_eq.symm ▸ hj) hlast
    (fun hne => hgrows₁.keeps (hprev hne))
  have hstart : ∀ i < 2 ^ 1, t₂.Agrees (wordEntry poly n) j i := by
    intro i hi
    rcases (show i = 0 ∨ i = 1 by omega) with rfl | rfl
    · exact hgrows₂.keeps hcell
    · exact hpower 0 (by decide)
  obtain ⟨t', hloop, hgrows, hdone⟩ := foldlM_range_invariant
    (fun e t' => Tables.Grows (wordEntry poly n) t₂ t' ∧
      ∀ i < 2 ^ (e + 1), t'.Agrees (wordEntry poly n) j i)
    ⟨Tables.Grows.refl _ _, hstart⟩ (by
      intro e (he : e < 7) t' ⟨hgrows, hdone⟩
      have hrows : j < t'.rows := by rw [hgrows.rows_eq, hgrows₂.rows_eq, hgrows₁.rows_eq]; exact hj
      obtain ⟨t'', hround, hgrows', hdone'⟩ := fillBetween_spec hrows he fun i hi => by
        rcases Nat.lt_succ_iff_lt_or_eq.mp hi with hlt | rfl
        · exact hdone i hlt
        · exact hgrows.keeps (hpower (e + 1) (by omega))
      exact ⟨t'', hround, hgrows.trans hgrows', hdone'⟩)
  refine ⟨t', ?_, (hgrows₁.trans hgrows₂).trans hgrows, hdone⟩
  rw [fillRow, hzero, Option.bind_eq_bind, Option.bind_some, hpowers]
  exact hloop

/-- `FillWordTable` puts the extensions of every byte into every row. -/
theorem fillWordTable_spec {wordSize : Nat} (hrows : wordSize ≤ t.rows)
    (hlast : last = advances poly n 128) : ∃ t', fillWordTable poly last wordSize t = some t' ∧
      t'.rows = t.rows ∧ ∀ j < wordSize, ∀ i < 256,
        t'.load j i = some (advances poly (n + 8 * j) i) := by
  obtain ⟨t', hloop, hgrows, hdone⟩ := foldlM_range_invariant
    (fun count t' => Tables.Grows (wordEntry poly n) t t' ∧
      ∀ j < count, ∀ i < 256, t'.Agrees (wordEntry poly n) j i)
    ⟨Tables.Grows.refl _ _, fun j hj => absurd hj (not_lt_zero j)⟩ (by
      intro j (hj : j < wordSize) t' ⟨hgrows, hdone⟩
      obtain ⟨t'', hround, hgrows', hrow⟩ :=
        fillRow_spec (hgrows.rows_eq.symm ▸ hj.trans_le hrows) hlast (fun hne => hdone (j - 1)
          (by omega) 1 (by decide))
      refine ⟨t'', hround, hgrows.trans hgrows', fun k hk i hi => ?_⟩
      rcases Nat.lt_succ_iff_lt_or_eq.mp hk with hlt | rfl
      · exact hgrows'.keeps (hdone k hlt i hi)
      · exact hrow i hi)
  exact ⟨t', hloop, hgrows.rows_eq, hdone⟩

/-! ## `FillZeroesTable` -/

/-- The zero bytes that entry `q` of `zeroes_` stands for. -/
def zeroBytes (q : Nat) : Nat :=
  (q % 15 + 1) * (256 * 16 ^ (q / 15))

/-- The entries of `zeroes_`: the unit, extended by zero bytes. -/
def zeroEntry (poly degree _j q : Nat) : Nat :=
  advances poly (8 * zeroBytes q) (2 ^ (degree - 1))

/-- The lengths in the table of zeros. -/
theorem zeroBytes_eq {b a : Nat} (ha : a < 15) :
    zeroBytes (15 * b + a) = (a + 1) * (256 * 16 ^ b) := by
  rw [zeroBytes, mul_add_mod, mod_eq_of_lt ha, mul_add_div (by decide), div_eq_of_lt ha, add_zero]

/-- `inc_len` runs through fourteen powers of sixteen before it is shifted out of the word. -/
theorem incLen_eq_zero_iff : ∀ b ≤ 14, 2 ^ (8 + 4 * b) % 2 ^ 64 = 0 ↔ b = 14 := by
  decide

theorem incLen_shift : ∀ b < 14,
    ((2 ^ (8 + 4 * b) % 2 ^ 64) <<< zeroesBaseLg) % 2 ^ 64 = 2 ^ (8 + 4 * (b + 1)) % 2 ^ 64 := by
  decide

variable {degree : Nat}

section

variable (hdegree : 0 < degree) (hpoly : poly < 2 ^ degree)
include hdegree hpoly

theorem advances_unit_lt (k : Nat) : advances poly k (2 ^ (degree - 1)) < 2 ^ degree :=
  advances_lt hpoly (Nat.pow_lt_pow_right (by decide) (by omega)) k

/-- The product of two extensions of the unit. -/
theorem polyMultiply_advances (k l : Nat) : polyMultiply (advances poly k (2 ^ (degree - 1)))
      (advances poly l (2 ^ (degree - 1))) poly degree = advances poly (k + l)
        (2 ^ (degree - 1)) := by
  rw [polyMultiply_unit hdegree (advances_unit_lt hdegree hpoly k), add_comm, advances_add]

/-- Squaring doubles the length of the extension. -/
theorem squares_eq (count : Nat) :
    (range count).foldl (fun inc _ => polyMultiply inc inc poly degree)
      (advances poly 1 (2 ^ (degree - 1))) = advances poly (2 ^ count) (2 ^ (degree - 1)) := by
  induction count with
  | zero => rfl
  | succ count ih =>
    rw [range_succ, foldl_append, ih, foldl_cons, foldl_nil,
      polyMultiply_advances hdegree hpoly, pow_succ, mul_two]

/-- What `FillZeroesTable` has written: the first entries, without touching the size. -/
structure ZeroesFilled (poly degree : Nat) (t t' : Tables) (count : Nat) : Prop where
  rows_eq : t'.rows = t.rows
  entries : ∀ q < count, t'.Agrees (zeroEntry poly degree) 0 q

/-- `inc` in the round for the place `b` of the length. -/
def zeroesInc (poly degree b : Nat) : Nat :=
  advances poly (8 * (256 * 16 ^ b)) (2 ^ (degree - 1))

/-- The entry `a` of that round, in the state that the loop is in. -/
def zeroesState (poly degree b a : Nat) (t : Tables) : Tables × Nat × Nat :=
  (t, advances poly (8 * ((a + 1) * (256 * 16 ^ b))) (2 ^ (degree - 1)), 15 * b + a)

variable (hrows : 0 < t.rows) {b : Nat}
include hrows

/-- One more entry of the table of zeros. -/
theorem fillZeroesEntry_spec {a : Nat} (hb : b < 14) (ha : a < 15) {t' : Tables}
    (h : ZeroesFilled poly degree t t' (15 * b + a)) :
    ∃ t'', fillZeroesEntry poly degree (zeroesInc poly degree b)
        (zeroesState poly degree b a t') a =
        some (zeroesState poly degree b (a + 1) t'') ∧
      ZeroesFilled poly degree t t'' (15 * b + (a + 1)) := by
  have hentry : advances poly (8 * ((a + 1) * (256 * 16 ^ b))) (2 ^ (degree - 1)) =
      zeroEntry poly degree 0 (15 * b + a) := by rw [zeroEntry, zeroBytes_eq ha]
  obtain ⟨t'', hstore, hgrows, hnew⟩ := Tables.store_spec (show 0 < t'.rows from h.rows_eq ▸ hrows)
    (by omega) hentry
  have hnext : polyMultiply (advances poly (8 * ((a + 1) * (256 * 16 ^ b))) (2 ^ (degree - 1)))
      (zeroesInc poly degree b) poly degree =
        advances poly (8 * ((a + 1 + 1) * (256 * 16 ^ b))) (2 ^ (degree - 1)) := by
    rw [zeroesInc, polyMultiply_advances hdegree hpoly, ← mul_add, add_mul (a + 1), one_mul]
  refine ⟨t'', ?_, hgrows.rows_eq.trans h.rows_eq, fun q hq => ?_⟩
  · simp only [fillZeroesEntry, zeroesState, hstore, hnext, Option.bind_eq_bind, Option.bind_some,
      add_assoc]
  · rcases Nat.lt_succ_iff_lt_or_eq.mp hq with hlt | rfl
    · exact hgrows.keeps (h.entries q hlt)
    · exact hnew

/-- The fifteen entries for one place of the length. -/
theorem fillZeroesEntries_spec (hb : b < 14) {t' : Tables}
    (h : ZeroesFilled poly degree t t' (15 * b)) : ∃ t'', (range (zeroesBase - 1)).foldlM
        (fillZeroesEntry poly degree (zeroesInc poly degree b))
          (t', zeroesInc poly degree b, 15 * b) =
          some (t'', zeroesInc poly degree (b + 1), 15 * (b + 1)) ∧
      ZeroesFilled poly degree t t'' (15 * (b + 1)) := by
  have hfirst : (t', zeroesInc poly degree b, 15 * b) = zeroesState poly degree b 0 t' := by
    rw [zeroesState, zero_add, one_mul]
    rfl
  have hlast : ∀ t'', zeroesState poly degree b 15 t'' =
      (t'', zeroesInc poly degree (b + 1), 15 * (b + 1)) := by
    intro t''
    rw [zeroesState, zeroesInc]
    ring_nf
  obtain ⟨s, hloop, t'', rfl, hfilled⟩ := foldlM_range_invariant
    (fun a s => ∃ t'', s = zeroesState poly degree b a t'' ∧
      ZeroesFilled poly degree t t'' (15 * b + a))
    ⟨t', rfl, h⟩ (by
      rintro a (ha : a < 15) _ ⟨t'', rfl, hfilled⟩
      obtain ⟨filled, hentry, hfilled'⟩ := fillZeroesEntry_spec hdegree hpoly hrows hb ha hfilled
      exact ⟨_, hentry, filled, rfl, hfilled'⟩)
  exact ⟨t'', hlast t'' ▸ hfirst ▸ hloop, hfilled⟩

/-- The state of the outer loop before the place `b`. -/
def ZeroesLoop (poly degree : Nat) (t : Tables) (b : Nat) (s : Nat × Nat × Tables × Nat) : Prop :=
  b ≤ 14 ∧ ∃ t', s = (2 ^ (8 + 4 * b) % 2 ^ 64, zeroesInc poly degree b, t', 15 * b) ∧
    ZeroesFilled poly degree t t' (15 * b)

/-- One more row of the table of zeros, or the end. -/
theorem fillZeroesRound_spec {s : Nat × Nat × Tables × Nat} (h : ZeroesLoop poly degree t b s) :
    (∃ s', fillZeroesRound poly degree s = some (.inl s') ∧ b < 14 ∧
      ZeroesLoop poly degree t (b + 1) s') ∨ ∃ t',
        fillZeroesRound poly degree s = some (.inr (t', 210)) ∧
          ZeroesFilled poly degree t t' 210 := by
  obtain ⟨hb, t', rfl, hfilled⟩ := h
  rw [fillZeroesRound]
  by_cases hlast : b = 14
  · subst hlast
    exact .inr ⟨t', if_pos (by decide), hfilled⟩
  · obtain ⟨t'', hentries, hfilled'⟩ := fillZeroesEntries_spec hdegree hpoly hrows
      (by omega) hfilled
    refine .inl ⟨_, ?_, by omega, by omega, t'', rfl, hfilled'⟩
    rw [if_neg (fun h => hlast ((incLen_eq_zero_iff b hb).mp h)), hentries,
      ← incLen_shift b (by omega)]
    rfl

end

/-- `FillZeroesTable` writes 210 entries, for fourteen places of the length. -/
theorem fillZeroesTable_spec (hdegree : 1 < degree) (hpoly : poly < 2 ^ degree)
    (hrows : 0 < t.rows) : ∃ t', fillZeroesTable poly degree t = some (t', 210) ∧
      ZeroesFilled poly degree t t' 210 := by
  have hunit : (1 <<< (degree - 1)) >>> 1 = advances poly 1 (2 ^ (degree - 1)) := by
    have hsucc : degree - 1 = degree - 2 + 1 := by omega
    rw [← one_shiftLeft, advances, Function.iterate_one, hsucc, advance_shiftLeft, shiftLeft_add,
      shiftLeft_shiftRight]
  have hstart : ZeroesLoop poly degree t 0 (1 <<< smallBits, zeroesInc poly degree 0, t, 0) :=
    ⟨by decide, t, rfl, rfl, fun q hq => absurd hq (not_lt_zero q)⟩
  obtain ⟨⟨t', j⟩, hloop, rfl, hfilled⟩ := iterate_total
    (fun s => ∃ b, ZeroesLoop poly degree t b s)
    (fun r : Tables × Nat => r.2 = 210 ∧ ZeroesFilled poly degree t r.1 210)
    (fun s => 210 - s.2.2.2) (by
      rintro s ⟨b, hb⟩
      rcases fillZeroesRound_spec (by omega) hpoly hrows hb with
        ⟨s', hround, hlt, hnext⟩ | ⟨t', hround, hfilled⟩
      · refine .inl ⟨s', hround, ⟨b + 1, hnext⟩, ?_⟩
        obtain ⟨-, t', rfl, -⟩ := hb
        obtain ⟨-, t'', rfl, -⟩ := hnext
        dsimp only
        omega
      · exact .inr ⟨(t', 210), hround, rfl, hfilled⟩) ⟨0, hstart⟩
  refine ⟨t', ?_, hfilled⟩
  rw [fillZeroesTable]
  rw [hunit, squares_eq (by omega) hpoly]
  rw [show advances poly (2 ^ (3 + smallBits)) (2 ^ (degree - 1)) = zeroesInc poly degree 0
    from rfl, hloop]
  rfl

end Gloop.Hash.Crc

import Gloop.Foundation.Refinement
import Gloop.InlinedBitVector.Pairs

/-!
# Runs of `InlinedBitVector`

Vectors with names, each with an inline capacity of its own, are changed one at a time and stand for
lists of bits. `refinesUpTo_iff` says up to which size they do so: the loops that count words with
an `int` work for fewer than `2 ^ 31` words, and with more words `Union` leaves bits out.
-/

namespace Gloop.InlinedBitVector

open Gloop.Foundation List Option Function

variable {ι : Type}

/-- A change of a vector. The operands are names. -/
inductive Change (ι : Type)
  | construct (uninit : Nat → BitVec 32) (numBits : Nat)
  | copyConstruct (fresh uninit : Nat → BitVec 32) (src : ι)
  | moveConstruct (uninit : Nat → BitVec 32) (src : ι)
  | assign (uninit : Nat → BitVec 32) (src : ι)
  | moveAssign (uninit : Nat → BitVec 32) (src : ι)
  | resize (uninit : Nat → BitVec 32) (numBits : Nat)
  | clear
  | setBit (index : Nat)
  | clearBit (index : Nat)
  | assignBit (index : Nat) (val : Bool)
  | setBits (start limit : Nat)
  | clearBits (start limit : Nat)
  | union (uninit : Nat → BitVec 32) (other : ι)
  | intersection (other : ι)
  | difference (other : ι)

section Steps

variable [DecidableEq ι]

/-- The vector `x` takes what the vector `src` has. -/
def moveInto (cap : ι → Nat) (uninit : Nat → BitVec 32) (store : ι → InlinedBitVector) (x src : ι) :
    Option (ι → InlinedBitVector) := do
  let (v, other) ← move (cap x) uninit (store src)
  pure (Function.update (Function.update store src other) x v)

/-- Make a change to the vector `x`. A constructor comes after the destructor of the old object. -/
def step (cap : ι → Nat) (store : ι → InlinedBitVector) :
    ι × Change ι → Option (ι → InlinedBitVector)
  | (x, .construct uninit numBits) => do
    let _ ← (store x).checked (cap x)
    (new (cap x) uninit numBits).map (Function.update store x)
  | (x, .copyConstruct fresh uninit src) => do
    let _ ← (store x).checked (cap x)
    ((default (cap x) fresh).assign (cap x) uninit (store src)).map (Function.update store x)
  | (x, .moveConstruct uninit src) => do
    let _ ← (store x).checked (cap x)
    moveInto cap uninit store x src
  | (x, .assign uninit src) =>
    if x = src then some store
    else ((store x).assign (cap x) uninit (store src)).map (Function.update store x)
  | (x, .moveAssign uninit src) =>
    if x = src then ((store x).checked (cap x)).map fun _ => store
    else moveInto cap uninit store x src
  | (x, .resize uninit numBits) =>
    ((store x).resize (cap x) uninit numBits).map (Function.update store x)
  | (x, .clear) => ((store x).clear (cap x)).map (Function.update store x)
  | (x, .setBit index) => ((store x).setBit (cap x) index).map (Function.update store x)
  | (x, .clearBit index) => ((store x).clearBit (cap x) index).map (Function.update store x)
  | (x, .assignBit index val) =>
    ((store x).assignBit (cap x) index val).map (Function.update store x)
  | (x, .setBits start limit) =>
    ((store x).setBits (cap x) start limit).map (Function.update store x)
  | (x, .clearBits start limit) =>
    ((store x).clearBits (cap x) start limit).map (Function.update store x)
  | (x, .union uninit other) =>
    ((store x).union (cap x) uninit (store other)).map (Function.update store x)
  | (x, .intersection other) =>
    ((store x).intersection (cap x) (store other)).map (Function.update store x)
  | (x, .difference other) =>
    ((store x).difference (cap x) (store other)).map (Function.update store x)

/-- What a caller must ensure. No vector is made larger than `maxBits`. Only vectors of one class
are copied and moved, and an object is not constructed from itself. -/
def Allowed (cap : ι → Nat) (maxBits : Nat) (lists : ι → List Bool) : ι × Change ι → Prop
  | (_, .construct _ numBits) => numBits ≤ maxBits
  | (x, .copyConstruct _ _ src) => x ≠ src ∧ cap x = cap src
  | (x, .moveConstruct _ src) => x ≠ src ∧ cap x = cap src
  | (x, .assign _ src) => cap x = cap src
  | (x, .moveAssign _ src) => cap x = cap src
  | (_, .resize _ numBits) => numBits ≤ maxBits
  | (x, .setBit index) => index < (lists x).length
  | (x, .clearBit index) => index < (lists x).length
  | (x, .assignBit index _) => index < (lists x).length
  | (x, .setBits start limit) => start ≤ limit ∧ limit ≤ (lists x).length
  | (x, .clearBits start limit) => start ≤ limit ∧ limit ≤ (lists x).length
  | _ => True

/-- The change of the lists of bits. -/
def specStep (lists : ι → List Bool) : ι × Change ι → ι → List Bool
  | (x, .construct _ numBits) => Function.update lists x (List.replicate numBits false)
  | (x, .copyConstruct _ _ src) => Function.update lists x (lists src)
  | (x, .moveConstruct _ src) => Function.update (Function.update lists src []) x (lists src)
  | (x, .assign _ src) => Function.update lists x (lists src)
  | (x, .moveAssign _ src) => Function.update (Function.update lists src []) x (lists src)
  | (x, .resize _ numBits) => Function.update lists x (resizeBits (lists x) numBits)
  | (x, .clear) => Function.update lists x []
  | (x, .setBit index) => Function.update lists x ((lists x).set index true)
  | (x, .clearBit index) => Function.update lists x ((lists x).set index false)
  | (x, .assignBit index val) => Function.update lists x ((lists x).set index val)
  | (x, .setBits start limit) => Function.update lists x
      ((lists x).mapIdx fun i b => if start ≤ i ∧ i < limit then true else b)
  | (x, .clearBits start limit) => Function.update lists x
      ((lists x).mapIdx fun i b => if start ≤ i ∧ i < limit then false else b)
  | (x, .union _ other) => Function.update lists x
      ((resizeBits (lists x) (max (lists x).length (lists other).length)).mapIdx
        fun i b => b || (lists other).getD i false)
  | (x, .intersection other) => Function.update lists x
      ((lists x).mapIdx fun i b => b && (lists other).getD i false)
  | (x, .difference other) => Function.update lists x
      ((lists x).mapIdx fun i b => b && !(lists other).getD i false)

end Steps

/-- The queries of one vector answer for the list, and all other bits of used words are clear. -/
structure Answers (v : InlinedBitVector) (bits : List Bool) : Prop where
  size_eq : v.size = bits.length
  getBit : ∀ i (hi : i < bits.length), v.getBit i = some bits[i]
  tail : ∃ array, v.words = some array ∧ v.numWords ≤ array.length ∧
    ∀ i, v.size ≤ i → i < 32 * v.numWords → packedBit array i = false
  count : v.count = some (bits.count true)

/-- The queries of two vectors answer for their lists. -/
structure AnswersPair (v other : InlinedBitVector) (bits otherBits : List Bool) : Prop where
  equals : v.equals other = some (decide (bits = otherBits))
  isIntersectionNonEmpty :
    v.isIntersectionNonEmpty other = some ((bits.zip otherBits).any fun (a, b) => a && b)
  hash : bits = otherBits → ∀ (H : Type) (hash : HashState H) (state : H),
    ∃ value, v.abslHashValue hash state = some value ∧ other.abslHashValue hash state = some value

/-- Vectors of at most `maxBits` bits, with any inline capacities and in any memory, answer as lists
of bits do after every sequence of changes. -/
def RefinesUpTo (maxBits : Nat) : Prop :=
  ∀ (ι : Type) [DecidableEq ι] (cap : ι → Nat) (uninit : ι → Nat → BitVec 32)
    (ops : List (ι × Change ι)), Legal (Allowed cap maxBits) specStep (fun _ => []) ops →
    ∃ store, ops.foldlM (step cap) (fun x => default (cap x) (uninit x)) = some store ∧
      (∀ x, (store x).Answers (ops.foldl specStep (fun _ => []) x)) ∧
      ∀ x y, (store x).AnswersPair (store y) (ops.foldl specStep (fun _ => []) x)
        (ops.foldl specStep (fun _ => []) y)

/-! ## Sizes for which the loops work -/

variable {array otherArray : List (BitVec 32)} {nbits otherNbits n : Nat}
  {v other : InlinedBitVector}

variable {bits otherBits : List Bool}

/-- A vector answers all queries as its list does. -/
theorem Represents.answers (h : Represents nbits v bits array) : v.Answers bits where
  size_eq := h.size_eq
  getBit _ hi := h.getBit hi
  tail := by
    refine ⟨array, h.words_eq, by rw [h.numWords_eq]; exact h.fits, fun i hi hi' => ?_⟩
    rw [h.size_eq] at hi
    rw [h.numWords_eq] at hi'
    rw [h.bit i hi', List.getD_eq_default _ _ hi]
  count := h.count

/-- Two vectors answer all queries as their lists do. -/
theorem Represents.answersPair
    (h : Represents nbits v bits array) (hother : Represents otherNbits other otherBits otherArray)
    (hwords : (bits.length + 31) / 32 < 2 ^ 31) : v.AnswersPair other bits otherBits where
  equals := h.equals hother
  isIntersectionNonEmpty := h.isIntersectionNonEmpty hother (by omega)
  hash heq H hash state := by
    subst heq
    exact h.abslHashValue hash state hother

section Steps

variable [DecidableEq ι] {cap : ι → Nat} {maxBits : Nat} {store : ι → InlinedBitVector}
  {lists : ι → List Bool}

/-- The vectors hold the bits of lists that are not too long. -/
def Related (cap : ι → Nat) (maxBits : Nat) (store : ι → InlinedBitVector) (lists : ι → List Bool) :
    Prop :=
  ∀ x, Holds (cap x) (store x) (lists x) ∧ (lists x).length ≤ maxBits

variable (h : Related cap maxBits store lists)
include h

/-- A change of one vector is that of its list. -/
theorem Related.put (x : ι) {bits : List Bool}
    {result : Option InlinedBitVector} (hresult : ∃ v, result = some v ∧ Holds (cap x) v bits)
    (hle : bits.length ≤ maxBits) : ∃ next, result.map (Function.update store x) = some next ∧
      Related cap maxBits next (Function.update lists x bits) := by
  obtain ⟨v, rfl, hv⟩ := hresult
  exact ⟨_, rfl, @related_update_at _ _ _ _
    (fun x v bits => Holds (cap x) v bits ∧ bits.length ≤ maxBits) _ _ h x _ _ ⟨hv, hle⟩⟩

/-- A move leaves an empty vector behind. -/
theorem Related.moveInto {x src : ι} (hcap : cap x = cap src) (uninit : Nat → BitVec 32) :
    ∃ next, moveInto cap uninit store x src = some next ∧
      Related cap maxBits next (Function.update (Function.update lists src []) x (lists src)) := by
  obtain ⟨⟨array, hsrc⟩, hle⟩ := h src
  rw [← hcap] at hsrc
  obtain ⟨v, other, hrun, hv, hother⟩ := hsrc.move uninit
  rw [hcap] at hother
  obtain ⟨_, heq, hfirst⟩ := h.put src ⟨other, rfl, hother⟩ (Nat.zero_le _)
  cases heq
  obtain ⟨_, heq, hboth⟩ := hfirst.put x ⟨v, rfl, hv⟩ hle
  cases heq
  refine ⟨_, ?_, hboth⟩
  rw [InlinedBitVector.moveInto, hrun]
  rfl

omit [DecidableEq ι] in
/-- The invariant that the source checks holds. -/
theorem Related.checked (x : ι) : (store x).checked (cap x) = some (store x) := by
  obtain ⟨⟨array, hx⟩, -⟩ := h x
  exact hx.checked

/-- A change keeps the vectors and the lists together. -/
theorem Related.step (hmax : maxBits ≤ 2 ^ 36 - 32)
    (op : ι × Change ι) (hallowed : Allowed cap maxBits lists op) :
    ∃ next, step cap store op = some next ∧ Related cap maxBits next (specStep lists op) := by
  obtain ⟨x, c⟩ := op
  obtain ⟨⟨array, hx⟩, hlength⟩ := h x
  -- the loops over words count in an `int`
  have hwords : ∀ y, ((lists y).length + 31) / 32 < 2 ^ 31 := fun y => by
    have := (h y).2
    omega
  cases c with
  | construct uninit numBits =>
    have hnum : numBits ≤ maxBits := hallowed
    rw [InlinedBitVector.step, h.checked]
    exact h.put x (new_eq (cap x) uninit (by omega)) (by rwa [length_replicate])
  | copyConstruct fresh uninit src =>
    obtain ⟨⟨srcArray, hsrc⟩, hle⟩ := h src
    obtain ⟨freshArray, hfresh⟩ := holds_default (cap x) fresh
    rw [← (show cap x = cap src from hallowed.2)] at hsrc
    rw [InlinedBitVector.step, h.checked]
    exact h.put x (hfresh.assign hsrc uninit) hle
  | moveConstruct uninit src =>
    rw [InlinedBitVector.step, h.checked]
    exact h.moveInto hallowed.2 uninit
  | assign uninit src =>
    obtain ⟨⟨srcArray, hsrc⟩, hle⟩ := h src
    rw [← (show cap x = cap src from hallowed)] at hsrc
    rw [InlinedBitVector.step]
    split
    next heq =>
      subst heq
      exact ⟨store, rfl, by rwa [specStep, update_eq_self]⟩
    next => exact h.put x (hx.assign hsrc uninit) hle
  | moveAssign uninit src =>
    rw [InlinedBitVector.step]
    split
    next heq =>
      subst heq
      rw [h.checked]
      exact ⟨store, rfl, by rwa [specStep, update_idem, update_eq_self]⟩
    next => exact h.moveInto hallowed uninit
  | resize uninit numBits =>
    have hnum : numBits ≤ maxBits := hallowed
    exact h.put x (hx.resize uninit (by omega)) (by rwa [length_resizeBits])
  | clear => exact h.put x hx.clear (Nat.zero_le _)
  | setBit index => exact h.put x (hx.setBit hallowed) (by rwa [length_set])
  | clearBit index => exact h.put x (hx.clearBit hallowed) (by rwa [length_set])
  | assignBit index val => exact h.put x (hx.assignBit hallowed val) (by rwa [length_set])
  | setBits start limit =>
    exact h.put x (hx.setBits hallowed.1 hallowed.2 (hwords x)) (by rwa [length_mapIdx])
  | clearBits start limit =>
    exact h.put x (hx.clearBits hallowed.1 hallowed.2 (hwords x)) (by rwa [length_mapIdx])
  | union uninit other =>
    obtain ⟨⟨otherArray, hother⟩, hle⟩ := h other
    refine h.put x (hx.union hother uninit (hwords other)) ?_
    rw [length_mapIdx, length_resizeBits]
    omega
  | intersection other =>
    obtain ⟨⟨otherArray, hother⟩, -⟩ := h other
    exact h.put x (hx.intersection hother (hwords x)) (by rwa [length_mapIdx])
  | difference other =>
    obtain ⟨⟨otherArray, hother⟩, -⟩ := h other
    exact h.put x (hx.difference hother (hwords x)) (by rwa [length_mapIdx])

end Steps

/-- Vectors of up to `2 ^ 36 - 32` bits refine lists. -/
theorem refinesUpTo_of_le {maxBits : Nat} (hmax : maxBits ≤ 2 ^ 36 - 32) : RefinesUpTo maxBits := by
  intro ι _ cap uninit ops hlegal
  have hinit : Related cap maxBits (fun x => default (cap x) (uninit x)) fun _ => [] :=
    fun x => ⟨holds_default (cap x) (uninit x), Nat.zero_le _⟩
  have hstep : ∀ store lists (op : ι × Change ι), Related cap maxBits store lists →
      Allowed cap maxBits lists op →
      ∃ next, step cap store op = some next ∧ Related cap maxBits next (specStep lists op) :=
    fun _ _ op h hallowed => h.step hmax op hallowed
  obtain ⟨store, hrun, hrep⟩ := run_refines hstep hinit ops hlegal
  refine ⟨store, hrun, fun x => ?_, fun x y => ?_⟩
  · obtain ⟨⟨array, hx⟩, -⟩ := hrep x
    exact hx.answers
  · obtain ⟨⟨array, hx⟩, hle⟩ := hrep x
    obtain ⟨⟨otherArray, hy⟩, -⟩ := hrep y
    exact hx.answersPair hy (by omega)

/-! ## Larger sizes -/

/-- With `2 ^ 31` words the count of words is a negative `int`, and no word is combined. -/
theorem Represents.unionWords_large
    (h : Represents nbits v bits array) (hother : Represents otherNbits other otherBits otherArray)
    (hwords : (otherBits.length + 31) / 32 = 2 ^ 31) : v.unionWords nbits other = some v := by
  have hint : toInt (2 ^ 31) = -2147483648 := by decide
  simp only [InlinedBitVector.unionWords, h.words_eq, hother.words_eq, hother.numWords_eq, hwords,
    hint, bind_eq_bind, bind_some]
  have hloop : intLoop 0 (fun i : Int => i < -2147483648) (combineWord (· ||| ·) otherArray) array =
      some array := by
    exact iterate_done (by rw [intStep, if_neg (by decide)])
  rw [hloop, bind_some, h.setWords_self, h.checked]

/-- Two vectors of `n` bits, of which the second has its first bit set, and their union. -/
def unionOfTwo (n : Nat) : List (Bool × Change Bool) :=
  [(false, .construct (fun _ => 0) n), (true, .construct (fun _ => 0) n), (true, .setBit 0),
    (false, .union (fun _ => 0) true)]

/-- The run for larger vectors is a legal one. -/
theorem unionOfTwo_legal {maxBits : Nat} (hpos : 0 < n) (hn : n ≤ maxBits) :
    Legal (Allowed (fun _ => 64) maxBits) specStep (fun _ => []) (unionOfTwo n) := by
  refine ⟨hn, hn, ?_, trivial, trivial⟩
  show 0 < (specStep _ (true, .construct (fun _ => 0) n) true).length
  rw [specStep, update_self, length_replicate]
  exact hpos

/-- The union of the lists has the bit. -/
theorem unionOfTwo_spec (hpos : 0 < n) :
    ((unionOfTwo n).foldl specStep (fun _ => []) false)[0]? = some true := by
  simp only [unionOfTwo, foldl_cons, foldl_nil, specStep, update_self,
    update_of_ne (show false ≠ true by decide), getElem?_mapIdx]
  rw [getElem?_eq_getElem (by
      rw [length_resizeBits, length_replicate]
      omega), map_some, getD_eq_getElem?_getD, getElem?_set_self (by rwa [length_replicate]),
    getD_some, Bool.or_true]

/-- The union of the vectors does not have it. -/
theorem unionOfTwo_run (hn : (n + 31) / 32 = 2 ^ 31) :
    ∃ store, (unionOfTwo n).foldlM (step fun _ => 64)
      (fun _ => default 64 fun _ => 0) = some store ∧
      (store false).getBit 0 = some false := by
  obtain ⟨v, hv, array, hrep⟩ := new_eq 64 (fun _ => 0) (show n < 2 ^ 55 by omega)
  have hlength : (List.replicate n false).length = n := List.length_replicate
  obtain ⟨other, hset, otherArray, hother⟩ := hrep.setBit (i := 0) (by omega)
  obtain ⟨fresh, hfresh⟩ := holds_default 64 fun _ => 0
  have hunion : v.union 64 (fun _ => 0) other = some v := by
    rw [InlinedBitVector.union, hrep.size_eq, hother.size_eq, List.length_set, if_neg (lt_irrefl _)]
    exact hrep.unionWords_large hother (by rw [List.length_set, hlength, hn])
  refine ⟨Function.update (Function.update (Function.update
    (Function.update (fun _ => default 64 fun _ => 0) false v) true v) true other) false v, ?_, ?_⟩
  · simp only [unionOfTwo, List.foldlM_cons, List.foldlM_nil, step, hfresh.checked, hv, hset,
      hunion, update_self, update_of_ne (show false ≠ true by decide),
      update_of_ne (show true ≠ false by decide), bind_eq_bind, bind_some, Option.map_some,
        Option.pure_def]
  · rw [update_self, hrep.getBit (by omega), List.getElem_replicate]

/-- At `2 ^ 36 - 31` bits a set bit of the operand is missing from the union. -/
theorem union_leaves_bit_out :
    Legal (Allowed (fun _ => 64) (2 ^ 36 - 31)) specStep (fun _ => []) (unionOfTwo (2 ^ 36 - 31)) ∧
      ((unionOfTwo (2 ^ 36 - 31)).foldl specStep (fun _ => []) false)[0]? = some true ∧
      ∃ store, (unionOfTwo (2 ^ 36 - 31)).foldlM (step fun _ => 64)
          (fun _ => default 64 fun _ => 0) = some store ∧
        (store false).getBit 0 = some false :=
  ⟨unionOfTwo_legal (by omega) (le_refl _), unionOfTwo_spec (by omega), unionOfTwo_run (by omega)⟩

/-- The vectors answer as lists of bits do exactly up to the largest size with fewer than `2 ^ 31`
words. -/
theorem refinesUpTo_iff (maxBits : Nat) : RefinesUpTo maxBits ↔ maxBits ≤ 2 ^ 36 - 32 := by
  refine ⟨fun hrefines => ?_, refinesUpTo_of_le⟩
  by_contra hlarge
  obtain ⟨n, hn⟩ : ∃ n, n = 2 ^ 36 - 31 := ⟨_, rfl⟩
  obtain ⟨store, hrun, hanswers, -⟩ := hrefines Bool (fun _ => 64) (fun _ _ => 0) (unionOfTwo n)
    (unionOfTwo_legal (by omega) (by omega))
  obtain ⟨store', hrun', hbit⟩ := unionOfTwo_run (n := n) (by omega)
  cases hrun.symm.trans hrun'
  -- the list has the bit, so the vector would have to answer with it
  obtain ⟨hi, hget⟩ := List.getElem?_eq_some_iff.mp (unionOfTwo_spec (n := n) (by omega))
  have hanswer := (hanswers false).getBit 0 hi
  rw [hget, hbit] at hanswer
  cases hanswer

end Gloop.InlinedBitVector

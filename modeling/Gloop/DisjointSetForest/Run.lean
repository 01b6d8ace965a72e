import Gloop.DisjointSetForest.Union
import Gloop.Foundation.Refinement

/-!
# Runs of `DisjointSetForest`

A forest keeps to the partition that is generated by the unions performed, as long as it has at most
`2 ^ 31 - 1` sets at any moment: `num_disjoint_sets_` is an `int` (`maintainsPartitionUpTo_iff`).
-/

namespace Gloop.DisjointSetForest

open Gloop.Foundation List Option Finmap
open DisjointSetForest.Partition
    (addAll addAll_cons empty join_addAll join_add_right numSets numSets_le numSets_le_addAll)
open Finset (mem_insert_of_mem mem_insert_self range)

variable {α κ : Type} [DecidableEq κ] {key : α → κ}

variable (key) in
/-- The entries stand for the partition, and the counter for the number of its sets. -/
structure Holds (forest : DisjointSetForest α κ) (P : Partition κ) : Prop where
  represents : Represents key forest.objects P
  count : forest.numDisjointSets = P.numSets

variable (key) in
/-- An operation leads from one partition to another, and keeps representatives. -/
structure Becomes (forest : DisjointSetForest α κ) (P : Partition κ)
    (forest' : DisjointSetForest α κ)
    (P' : Partition κ) : Prop where
  holds : Holds key forest' P'
  keeps : Keeps key forest.objects P forest'.objects P'
  notfound : forest'.notfoundValue = forest.notfoundValue

/-! ## The operations -/

variable {forest : DisjointSetForest α κ} {P : Partition κ} {x : κ} {objects : ObjectMap α κ}
  {maxSets : Nat}

theorem Becomes.refl (h : Holds key forest P) : Becomes key forest P forest P :=
  ⟨h, Keeps.refl _ P, rfl⟩

theorem Becomes.trans {forest₁ forest₂ : DisjointSetForest α κ} {P₁ P₂ : Partition κ}
    (h : Becomes key forest P forest₁ P₁) (h' : Becomes key forest₁ P₁ forest₂ P₂) :
    Becomes key forest P forest₂ P₂ :=
  ⟨h'.holds, h.keeps.trans h'.keeps, h'.notfound.trans h.notfound⟩

variable (key) in
/-- An empty forest holds no sets. -/
theorem holds_empty (notfound : α) : Holds key ⟨∅, 0, notfound⟩ empty := by
  refine ⟨represents_empty, ?_⟩
  rfl

variable (key) in
/-- The counter has room for the element. -/
def Room (P : Partition κ) (x : α) : Prop :=
  key x ∉ P.members → (P.add (key x)).numSets ≤ 2 ^ 31 - 1

section

variable (h : Holds key forest P)
include h

theorem Holds.numSets_add {x : α} (hx : key x ∉ forest.objects) :
    ((P.add (key x)).numSets : Int) = forest.numDisjointSets + 1 := by
  obtain ⟨hrep, -, hcard⟩ := h.represents.insert hx rfl
  rw [hrep.card_roots, h.represents.card_roots] at hcard
  rw [hcard, h.count]
  rfl

/-- `MakeSet` adds an element that is not there. -/
theorem Holds.makeSet (x : α) (hfits : Room key P x) :
    ∃ b forest', forest.makeSet key x = some (b, forest') ∧
      Becomes key forest P forest' (P.add (key x)) ∧ (b = true ↔ key x ∉ P.members) := by
  by_cases hx : key x ∈ forest.objects
  · have hmem := (h.represents.mem_iff _).mp hx
    rw [Partition.add_of_mem hmem]
    refine ⟨false, forest, if_pos hx, .refl h, ?_⟩
    exact iff_of_false Bool.false_ne_true (not_not_intro hmem)
  obtain ⟨hrep, hkeeps, -⟩ := h.represents.insert hx rfl
  have hnew := mt (h.represents.mem_iff _).mpr hx
  have hle := hfits hnew
  have hcount := h.numSets_add hx
  have hinc : increment forest.numDisjointSets = some (forest.numDisjointSets + 1) :=
    if_pos (by omega)
  refine ⟨true, ⟨forest.objects.insert (key x) ⟨x, 0⟩, forest.numDisjointSets + 1,
    forest.notfoundValue⟩, ?_, ⟨⟨hrep, hcount.symm⟩, hkeeps, rfl⟩, iff_of_true rfl hnew⟩
  rw [DisjointSetForest.makeSet, if_neg hx, hinc]
  rfl

/-- A pair of one set makes no difference. -/
theorem Holds.join_of_conn {y : κ} (hx : x ∈ P.members) (hy : y ∈ P.members)
    (hxy : P.Conn x y) : Becomes key forest P forest (P.join x y) := by
  obtain ⟨hrep, hkeeps⟩ := h.represents.join_of_conn hx hy hxy
  refine ⟨⟨hrep, ?_⟩, hkeeps, rfl⟩
  rw [← hrep.card_roots, h.represents.card_roots]
  exact h.count

/-- `UnionHelper` joins the sets of an element and of another one, which may be new. -/
theorem Holds.unionHelper (hx : x ∈ P.members) (y : α) (hfits : Room key P y) :
    ∃ b forest', forest.unionHelper key x y = some (b, forest') ∧
      Becomes key forest P forest' (P.join x (key y)) ∧ (b = true ↔ ¬P.Conn x (key y)) := by
  obtain ⟨b, forest₁, hmake, ⟨⟨hrep₁, hcount₁⟩, hkeeps₁, hnotfound⟩, -⟩ := h.makeSet y hfits
  have hxmem : x ∈ (P.add (key y)).members := mem_insert_of_mem hx
  have hymem : key y ∈ (P.add (key y)).members := mem_insert_self _ _
  obtain ⟨r, objects₂, hfind₂, hxr, hcomp₂⟩ :=
    internalFindSet_spec hrep₁.ranked ((hrep₁.mem_iff x).mpr hxmem)
  obtain ⟨hrep₂, hkeeps₂⟩ := hrep₁.compressed hcomp₂
  obtain ⟨s, objects₃, hfind₃, hys, hcomp₃⟩ :=
    internalFindSet_spec hrep₂.ranked ((hrep₂.mem_iff (key y)).mpr hymem)
  obtain ⟨hrep₃, hkeeps₃⟩ := hrep₂.compressed hcomp₃
  -- the second search compresses paths and leaves the roots as they are
  have hxr₃ : Reaches (parentOf key objects₃) x r :=
    (hcomp₃.reaches x r).mpr ((hcomp₂.reaches x r).mpr hxr)
  have hys₃ : Reaches (parentOf key objects₃) (key y) s := (hcomp₃.reaches _ s).mpr hys
  obtain ⟨rData, hrData, hrKey⟩ := parentOf_eq_some hxr₃.isRoot
  obtain ⟨sData, hsData, hsKey⟩ := parentOf_eq_some hys₃.isRoot
  have hkeeps := hkeeps₁.trans (hkeeps₂.trans hkeeps₃)
  have hconn : r = s ↔ P.Conn x (key y) := hrep₃.connected hxr₃ hys₃
  have hrun : forest.unionHelper key x y =
      if r ≠ s then (link objects₃ r s).map fun objects =>
        (true, { forest₁ with objects := objects, numDisjointSets := forest₁.numDisjointSets - 1 })
      else some (false, { forest₁ with objects := objects₃ }) := by
    simp only [DisjointSetForest.unionHelper, hmake, hfind₂, hfind₃, hrData, hsData, hrKey, hsKey,
      bind_eq_bind, bind_some]
    split
    · exact map_eq_bind.symm
    · rfl
  by_cases hrs : r = s
  · have h₃ : Holds key { forest₁ with objects := objects₃ } (P.add (key y)) := ⟨hrep₃, hcount₁⟩
    have h₄ := h₃.join_of_conn hxmem hymem (hconn.mp hrs)
    rw [join_add_right] at h₄
    exact ⟨false, _, hrun.trans (if_neg (not_not_intro hrs)),
      ⟨h₄.holds, hkeeps.trans h₄.keeps, hnotfound⟩,
      iff_of_false Bool.false_ne_true (not_not_intro (hconn.mp hrs))⟩
  · obtain ⟨objects₄, hlink, hlinked⟩ := link_spec hxr₃.isRoot hys₃.isRoot hrs
    obtain ⟨hrep₄, hkeeps₄, hcard⟩ := hrep₃.linked hxr₃ hys₃ hrs hlinked
    rw [hrep₄.card_roots, hrep₃.card_roots, join_add_right] at hcard
    rw [join_add_right] at hrep₄ hkeeps₄
    refine ⟨true, ⟨objects₄, forest₁.numDisjointSets - 1, forest₁.notfoundValue⟩, ?_,
      ⟨⟨hrep₄, ?_⟩, hkeeps.trans hkeeps₄, hnotfound⟩, iff_of_true rfl (mt hconn.mpr hrs)⟩
    · rw [hrun, if_pos hrs, hlink]
      rfl
    · show forest₁.numDisjointSets - 1 = ((P.join x (key y)).numSets : Int)
      omega

/-- `Union` joins the sets of two elements, which may be new. -/
theorem Holds.union (x y : α) (hx : Room key P x) (hy : Room key (P.add (key x)) y) :
    ∃ b forest', forest.union key x y = some (b, forest') ∧
      Becomes key forest P forest' (P.join (key x) (key y)) ∧
        (b = true ↔ ¬P.Conn (key x) (key y)) := by
  obtain ⟨_, forest₁, hmake, h₁, -⟩ := h.makeSet x hx
  obtain ⟨b, forest₂, hhelper, h₂, hb⟩ := h₁.holds.unionHelper (mem_insert_self _ _) y hy
  rw [Partition.join_add_left] at h₂
  refine ⟨b, forest₂, ?_, h₁.trans h₂, hb⟩
  rw [DisjointSetForest.union, hmake]
  exact hhelper

omit h in
/-- Elements with one parent are in one set. -/
theorem Represents.conn_of_parent (h : Represents key objects P) {y p : κ}
    (hx : parentOf key objects x = some p) (hy : parentOf key objects y = some p) : P.Conn x y := by
  obtain ⟨r, hr⟩ := exists_root h.ranked (parentOf_isSome_iff.mp (h.ranked.isSome hx))
  have hreach : ∀ {z}, parentOf key objects z = some p → Reaches (parentOf key objects) z r := by
    intro z hz
    by_cases hpz : p = z
    · rwa [← hpz]
    · exact .step hz hpz hr
  exact (h.connected (hreach hx) (hreach hy)).mp rfl

/-- A round of a union of many elements. -/
theorem Holds.unionNext {begin : α} (hbegin : key begin ∈ P.members) (next : α)
    (hfits : Room key P next) : ∃ forest', unionNext key begin forest next = some forest' ∧
      Becomes key forest P forest' (P.join (key begin) (key next)) := by
  obtain ⟨b, forest', hhelper, h', -⟩ := h.unionHelper hbegin next hfits
  obtain ⟨beginData, hbeginData⟩ := mem_iff.mp ((h.represents.mem_iff _).mpr hbegin)
  rw [DisjointSetForest.unionNext, hbeginData, bind_eq_bind, bind_some]
  cases hnext : forest.objects.lookup (key next) with
  | none => exact ⟨forest', by rw [hhelper]; rfl, h'⟩
  | some nextData =>
    dsimp only
    split
    next => exact ⟨forest', by rw [hhelper]; rfl, h'⟩
    next hparent =>
      have hmem := (h.represents.mem_iff _).mp (mem_iff.mpr ⟨nextData, hnext⟩)
      have hp : parentOf key forest.objects (key begin) = some (key nextData.parent) := by
        rw [parentOf, hbeginData, map_some, not_not.mp hparent]
      have hq : parentOf key forest.objects (key next) = some (key nextData.parent) := by
        rw [parentOf, hnext, map_some]
      exact ⟨forest, rfl, h.join_of_conn hbegin hmem (h.represents.conn_of_parent hp hq)⟩

end

/-! ## The queries -/

/-- A set has one representative. -/
theorem IsRepr.unique {z : κ} {v w : α} (h : IsRepr key objects z v) (h' : IsRepr key objects z w) :
    v = w := by
  obtain ⟨r, data, hz, hdata, rfl⟩ := h
  obtain ⟨s, data', hz', hdata', rfl⟩ := h'
  rw [hz'.unique hz, hdata] at hdata'
  rw [some.inj hdata']

/-- The representative is a member of its set, and different sets have different ones. -/
theorem Represents.isRepr (h : Represents key objects P) {v : α} (hx : IsRepr key objects x v) :
    Reaches (parentOf key objects) x (key v) ∧ key v ∈ P.members ∧ P.Conn x (key v) := by
  obtain ⟨r, data, hreach, hdata, rfl⟩ := hx
  obtain ⟨data', hdata', hkey⟩ := parentOf_eq_some hreach.isRoot
  cases hdata.symm.trans hdata'
  rw [hkey]
  exact ⟨hreach, h.root_mem hreach.isRoot, h.reaches_conn hreach⟩

/-- Elements have the same representative if they are in one set. -/
theorem Represents.isRepr_eq_iff (h : Represents key objects P) {y : κ} {v w : α}
    (hx : IsRepr key objects x v) (hy : IsRepr key objects y w) : v = w ↔ P.Conn x y := by
  rw [← h.connected (h.isRepr hx).1 (h.isRepr hy).1]
  refine ⟨fun hvw => by rw [hvw], fun hkey => ?_⟩
  obtain ⟨r, data, hreach, hdata, rfl⟩ := hx
  refine IsRepr.unique ⟨r, data, ?_, hdata, rfl⟩ hy
  have hr := (h.isRepr ⟨r, data, hreach, hdata, rfl⟩).1
  rw [hr.unique hreach] at hkey
  rw [hkey]
  exact (h.isRepr hy).1

section

variable (h : Holds key forest P)
include h

/-- `FindSet` returns the representative and keeps the sets. -/
theorem Holds.findSet {x : α} (hx : key x ∈ P.members) :
    ∃ v forest', forest.findSet key x = some (v, forest') ∧ IsRepr key forest.objects (key x) v ∧
      Becomes key forest P forest' P := by
  have hmem := (h.represents.mem_iff _).mpr hx
  obtain ⟨data, hdata⟩ := mem_iff.mp hmem
  obtain ⟨r, objects', hfind, hreach, hcomp⟩ := internalFindSet_spec h.represents.ranked hmem
  obtain ⟨hrep, hkeeps⟩ := h.represents.compressed hcomp
  obtain ⟨rData, hrData, -⟩ := parentOf_eq_some hreach.isRoot
  have hrData' : objects'.lookup r = some rData := (hcomp.root_data r hreach.isRoot).trans hrData
  refine ⟨rData.parent, { forest with objects := objects' }, ?_, ⟨r, rData, hreach, hrData, rfl⟩,
    ⟨hrep, h.count⟩, hkeeps, rfl⟩
  simp [DisjointSetForest.findSet, hdata, hfind, hrData']

/-- `FindSet` returns the value for elements that are not there. -/
theorem Holds.findSet_of_notMem {x : α} (hx : key x ∉ P.members) :
    forest.findSet key x = some (forest.notfoundValue, forest) := by
  have hnone := lookup_eq_none.mpr (mt (h.represents.mem_iff _).mp hx)
  simp only [DisjointSetForest.findSet, hnone]

/-- A rank of zero is a set of one element. -/
theorem Holds.isSingleton_iff (x : α) :
    forest.isSingleton key x = true ↔ ∀ y, P.Conn (key x) y → y = key x := by
  have hrep := h.represents
  by_cases hx : key x ∈ P.members
  · obtain ⟨data, hdata⟩ := mem_iff.mp ((hrep.mem_iff _).mpr hx)
    have hrank := rankOf_of_lookup hdata
    have hparent : parentOf key forest.objects (key x) = some (key data.parent) := by
      rw [parentOf, hdata, map_some]
    have hiff : forest.isSingleton key x = true ↔ key data.parent = key x ∧ data.rank = 0 := by
      simp only [isSingleton, hdata, decide_eq_true_eq]
    rw [hiff]
    constructor
    · rintro ⟨hkey, hzero⟩ y hconn
      rw [hkey] at hparent
      by_contra hne
      have hy : y ∈ P.members := by
        rcases hconn.mem hrep.edges_mem with heq | ⟨-, hy⟩
        · rwa [← heq]
        · exact hy
      obtain ⟨s, hs⟩ := exists_root hrep.ranked ((hrep.mem_iff y).mpr hy)
      have hsx : s = key x := ((hrep.connected (.root hparent) hs).mpr hconn).symm
      subst hsx
      have hlt := hs.rank_lt hrep.ranked hne
      omega
    · intro hall
      obtain ⟨r, hr⟩ := exists_root hrep.ranked ((hrep.mem_iff _).mpr hx)
      have hrx : r = key x := hall r (hrep.reaches_conn hr)
      have hroot : parentOf key forest.objects (key x) = some (key x) := hrx ▸ hr.isRoot
      refine ⟨some.inj (hparent.symm.trans hroot), ?_⟩
      -- the set has one element, which bounds the rank
      have hcard : (classOf P.members P.edges (key x)).card ≤ 1 := by
        rw [Finset.card_le_one]
        intro u hu v hv
        rw [hall u (mem_classOf.mp hu).2, hall v (mem_classOf.mp hv).2]
      have hsize := (hrep.size hroot).trans hcard
      rw [hrank] at hsize
      by_contra hpos
      have htwo : 2 ^ 1 ≤ 2 ^ data.rank := Nat.pow_le_pow_right (by omega) (by omega)
      omega
  · have hnone := lookup_eq_none.mpr (mt (hrep.mem_iff _).mp hx)
    refine iff_of_true (by simp only [isSingleton, hnone]) fun y hconn => ?_
    rcases hconn.mem hrep.edges_mem with heq | ⟨hmem, -⟩
    · exact heq.symm
    · exact absurd hmem hx

end

/-! ## Runs -/

inductive Op (α : Type)
  | makeSet (x : α)
  | union (x y : α)
  | unionMany (elements : List α)
  | findSet (x : α)
  | isSingleton (x : α)
  | clear

variable (key) in
/-- One operation, without what it returns. -/
def step (forest : DisjointSetForest α κ) : Op α → Option (DisjointSetForest α κ)
  | .makeSet x => (forest.makeSet key x).map Prod.snd
  | .union x y => (forest.union key x y).map Prod.snd
  | .unionMany elements => forest.unionMany key elements
  | .findSet x => (forest.findSet key x).map Prod.snd
  | .isSingleton _ => some forest
  | .clear => some forest.clear

variable (key) in
/-- What an operation does to the partition. -/
def specStep (P : Partition κ) : Op α → Partition κ
  | .makeSet x => P.add (key x)
  | .union x y => P.join (key x) (key y)
  | .unionMany [] => P
  | .unionMany (begin :: rest) =>
    rest.foldl (fun P next => P.join (key begin) (key next)) (P.add (key begin))
  | .findSet _ => P
  | .isSingleton _ => P
  | .clear => empty

variable (key) in
/-- The loop of `UnionMany` never has more sets than that. -/
def FitsMany (maxSets : Nat) (begin : α) : Partition κ → List α → Prop
  | _, [] => True
  | P, next :: rest =>
    (P.add (key next)).numSets ≤ maxSets ∧
      FitsMany maxSets begin (P.join (key begin) (key next)) rest

variable (key) in
/-- There are never more sets than that, counted before two of them become one. -/
def Fits (maxSets : Nat) (P : Partition κ) : Op α → Prop
  | .makeSet x => (P.add (key x)).numSets ≤ maxSets
  | .union x y => (P.add (key x)).numSets ≤ maxSets ∧
    ((P.add (key x)).add (key y)).numSets ≤ maxSets
  | .unionMany [] => True
  | .unionMany (begin :: rest) =>
    (P.add (key begin)).numSets ≤ maxSets ∧ FitsMany key maxSets begin (P.add (key begin)) rest
  | .findSet _ => True
  | .isSingleton _ => True
  | .clear => True

/-- The loop of a union of many elements. -/
theorem Holds.unionRest (hmax : maxSets ≤ 2 ^ 31 - 1) {begin : α} (rest : List α)
    (h : Holds key forest P)
    (hbegin : key begin ∈ P.members) (hfits : FitsMany key maxSets begin P rest) :
    ∃ forest', rest.foldlM (DisjointSetForest.unionNext key begin) forest = some forest' ∧
      Becomes key forest P forest'
        (rest.foldl (fun P next => P.join (key begin) (key next)) P) := by
  induction rest generalizing forest P with
  | nil => exact ⟨forest, rfl, .refl h⟩
  | cons next rest ih =>
    obtain ⟨hnext, hrest⟩ := hfits
    obtain ⟨forest₁, hstep, h₁⟩ := h.unionNext hbegin next fun _ => hnext.trans hmax
    obtain ⟨forest₂, hrun, h₂⟩ := ih h₁.holds (mem_insert_self _ _) hrest
    refine ⟨forest₂, ?_, h₁.trans h₂⟩
    rw [foldlM_cons, hstep]
    exact hrun

/-! ## Many unions -/

variable (key) in
/-- `MakeSet(x)` for every element of a range. -/
def makeEach (forest : DisjointSetForest α κ) (elements : List α) :
    Option (DisjointSetForest α κ) :=
  elements.foldlM (fun forest x => (forest.makeSet key x).map Prod.snd) forest

variable (key) in
/-- `Union(begin, x)` for every element of a range. -/
def joinEach (begin : α) (forest : DisjointSetForest α κ) (elements : List α) :
    Option (DisjointSetForest α κ) :=
  elements.foldlM (fun forest x => (forest.union key begin x).map Prod.snd) forest

variable (key) in
/-- What the header says of `UnionMany`: add all elements, and then join each with the first one.
The second pass starts at the first element or, as in the header, at the one after it. -/
def unionEach (fromFirst : Bool) (forest : DisjointSetForest α κ) :
    List α → Option (DisjointSetForest α κ)
  | [] => some forest
  | begin :: rest => do
    let forest ← makeEach key forest (begin :: rest)
    joinEach key begin forest (if fromFirst then begin :: rest else rest)

section

variable {begin : α} {rest elements : List α}

theorem Holds.makeEach (h : Holds key forest P)
    (hroom : (P.addAll (elements.map key)).numSets ≤ 2 ^ 31 - 1) :
    ∃ forest', DisjointSetForest.makeEach key forest elements = some forest' ∧
      Holds key forest' (P.addAll (elements.map key)) := by
  induction elements generalizing forest P with
  | nil => exact ⟨forest, rfl, by simpa [addAll] using h⟩
  | cons x rest ih =>
    rw [map_cons, addAll_cons] at hroom ⊢
    obtain ⟨_, forest₁, hmake, h₁, -⟩ := h.makeSet x fun _ => (numSets_le_addAll _).trans hroom
    obtain ⟨forest₂, hrest, h₂⟩ := ih h₁.holds hroom
    refine ⟨forest₂, ?_, h₂⟩
    rw [DisjointSetForest.makeEach, foldlM_cons, hmake]
    exact hrest

/-- Joining elements that are there needs no room. -/
theorem Holds.joinEach (h : Holds key forest P) (hbegin : key begin ∈ P.members)
    (hmem : ∀ x ∈ elements, key x ∈ P.members) :
    ∃ forest', DisjointSetForest.joinEach key begin forest elements = some forest' ∧
      Holds key forest' (elements.foldl (fun P x => P.join (key begin) (key x)) P) := by
  induction elements generalizing forest P with
  | nil => exact ⟨forest, rfl, h⟩
  | cons x rest ih =>
    have hx := hmem x mem_cons_self
    obtain ⟨_, forest₁, hunion, h₁, -⟩ := h.union begin x (absurd hbegin)
      (absurd (mem_insert_of_mem hx))
    obtain ⟨forest₂, hrest, h₂⟩ := ih h₁.holds (mem_insert_self _ _) fun y hy =>
      mem_insert_of_mem (mem_insert_of_mem (hmem y (mem_cons_of_mem x hy)))
    refine ⟨forest₂, ?_, h₂⟩
    rw [DisjointSetForest.joinEach, foldlM_cons, hunion]
    exact hrest

/-- Every set that `UnionMany` makes on its way is there when all elements have been added. -/
theorem fitsMany_of_addAll {Q : Partition κ} (hQ : Q.numSets ≤ maxSets)
    (hmembers : P.members ⊆ Q.members) (hbegin : key begin ∈ Q.members)
    (hrest : ∀ x ∈ rest, key x ∈ Q.members) (hconn : ∀ x y, Q.Conn x y → P.Conn x y) :
    FitsMany key maxSets begin P rest := by
  induction rest generalizing P with
  | nil => trivial
  | cons next rest ih =>
    have hnext := Finset.insert_subset (hrest next mem_cons_self) hmembers
    have hle : (P.add (key next)).numSets ≤ Q.numSets := numSets_le hnext hconn
    refine ⟨hle.trans hQ, ih (Finset.insert_subset hbegin hnext) ?_ ?_⟩
    · exact fun x hx => hrest x (mem_cons_of_mem next hx)
    · exact fun x y h => Partition.Conn.join (hconn x y h) _ _

/-- Joins add their elements themselves. -/
theorem foldl_join_addAll (begin : α) (rest : List α) (P : Partition κ) :
    rest.foldl (fun P x => P.join (key begin) (key x)) (P.addAll (rest.map key)) =
      rest.foldl (fun P x => P.join (key begin) (key x)) P := by
  induction rest generalizing P with
  | nil => simp [addAll]
  | cons next rest ih =>
    rw [foldl_cons, foldl_cons, map_cons, addAll_cons, join_addAll, join_add_right, ih]

/-- `UnionMany` gives the partition, the elements and the number of sets that the two passes of the
header give, if the counter can count the sets when all elements have been added. -/
theorem unionMany_eq_unionEach (h : Holds key forest P) (elements : List α) (fromFirst : Bool)
    (hroom : (P.addAll (elements.map key)).numSets ≤ 2 ^ 31 - 1) :
    ∃ each many Q, forest.unionEach key fromFirst elements = some each ∧
      forest.unionMany key elements = some many ∧ Holds key each Q ∧ Holds key many Q ∧
      many.numDisjointSets = each.numDisjointSets := by
  cases elements with
  | nil => exact ⟨forest, forest, P, rfl, rfl, h, h, rfl⟩
  | cons begin rest =>
    obtain ⟨added, hadd, hadded⟩ := h.makeEach hroom
    rw [map_cons, addAll_cons] at hroom hadded
    have hbegin : key begin ∈ (P.add (key begin)).members := mem_insert_self _ _
    have hbegin' := Finset.mem_union_right (rest.map key).toFinset hbegin
    have hrest : ∀ x ∈ rest, key x ∈ ((P.add (key begin)).addAll (rest.map key)).members :=
      fun x hx => Finset.mem_union_left _ (mem_toFinset.mpr (mem_map_of_mem hx))
    obtain ⟨_, forest₁, hmake, h₁, -⟩ :=
      h.makeSet begin fun _ => (numSets_le_addAll _).trans hroom
    -- Joining the first element with itself changes no partition.
    have hfirst := (h₁.holds.join_of_conn hbegin hbegin (.refl _)).holds
    obtain ⟨P₁, each, hP₁, hjoin, heach, hmembers, hconn⟩ : ∃ P₁ each, Holds key forest₁ P₁ ∧
        joinEach key begin added (if fromFirst then begin :: rest else rest) = some each ∧
        Holds key each (rest.foldl (fun P x => P.join (key begin) (key x)) P₁) ∧
        P₁.members = (P.add (key begin)).members ∧ ∀ x y, P.Conn x y → P₁.Conn x y := by
      cases fromFirst with
      | false =>
        obtain ⟨each, hjoin, heach⟩ := hadded.joinEach hbegin' hrest
        rw [foldl_join_addAll] at heach
        exact ⟨_, each, h₁.holds, hjoin, heach, rfl, fun _ _ h => h⟩
      | true =>
        obtain ⟨each, hjoin, heach⟩ :=
          hadded.joinEach hbegin' (forall_mem_cons.mpr ⟨hbegin', hrest⟩)
        rw [foldl_cons, join_addAll, foldl_join_addAll] at heach
        exact ⟨_, each, hfirst, hjoin, heach, Partition.members_join hbegin hbegin,
          fun _ _ h => Partition.Conn.join h _ _⟩
    have hfits : FitsMany key (2 ^ 31 - 1) begin P₁ rest :=
      fitsMany_of_addAll hroom (hmembers ▸ Finset.subset_union_right) hbegin' hrest hconn
    obtain ⟨many, hrun, hmany⟩ := hP₁.unionRest (Nat.le_refl _) rest (hmembers ▸ hbegin) hfits
    refine ⟨each, many, _, ?_, ?_, heach, hmany.holds, hmany.holds.count.trans heach.count.symm⟩
    · rw [unionEach, hadd]
      exact hjoin
    · rw [unionMany, hmake]
      exact hrun

/-- Four elements join a forest in which two of them have sets and the others are new. -/
theorem unionMany_eq_unionEach_overlapping : ∃ forest, [.union 1 2, .makeSet 3].foldlM (step id)
    (new 0) = some forest ∧ ∃ each many Q, forest.unionEach id false [2, 5, 3, 5, 7] = some each ∧
      forest.unionMany id [2, 5, 3, 5, 7] = some many ∧ Holds id each Q ∧ Holds id many Q ∧
      many.numDisjointSets = each.numDisjointSets := by
  have hsets {P : Partition Nat} (h : P.members.card ≤ 2 ^ 31 - 1) : P.numSets ≤ 2 ^ 31 - 1 :=
    (numClasses_le_card _ _).trans h
  obtain ⟨_, forest₁, hunion, h₁, -⟩ := (holds_empty id 0).union 1 2 (fun _ => hsets (by decide))
    fun _ => hsets (by decide)
  obtain ⟨_, forest, hmake, h₂, -⟩ := h₁.holds.makeSet 3 fun _ => hsets (by decide)
  refine ⟨forest, ?_, unionMany_eq_unionEach h₂.holds [2, 5, 3, 5, 7] false (hsets (by decide))⟩
  simp [step, new, hunion, hmake]

end

/-- Every operation keeps to the partition. `clear` alone gives up representatives. -/
theorem Holds.step (hmax : maxSets ≤ 2 ^ 31 - 1) (h : Holds key forest P) (op : Op α)
    (hfits : Fits key maxSets P op) : ∃ forest',
      DisjointSetForest.step key forest op = some forest' ∧ Holds key forest' (specStep key P op) ∧
      (op ≠ .clear → Keeps key forest.objects P forest'.objects (specStep key P op)) ∧
      forest'.notfoundValue = forest.notfoundValue := by
  cases op with
  | makeSet x =>
    obtain ⟨b, forest', hrun, ⟨hholds, hkeeps, hnotfound⟩, -⟩ :=
      h.makeSet x fun _ => hfits.trans hmax
    exact ⟨forest', by rw [DisjointSetForest.step, hrun]; rfl, hholds, fun _ => hkeeps, hnotfound⟩
  | union x y =>
    obtain ⟨b, forest', hrun, ⟨hholds, hkeeps, hnotfound⟩, -⟩ :=
      h.union x y (fun _ => hfits.1.trans hmax) fun _ => hfits.2.trans hmax
    exact ⟨forest', by rw [DisjointSetForest.step, hrun]; rfl, hholds, fun _ => hkeeps, hnotfound⟩
  | unionMany elements =>
    cases elements with
    | nil => exact ⟨forest, rfl, h, fun _ => Keeps.refl _ P, rfl⟩
    | cons begin rest =>
      obtain ⟨b, forest₁, hmake, h₁, -⟩ := h.makeSet begin fun _ => hfits.1.trans hmax
      obtain ⟨forest₂, hrun, h₂⟩ :=
        Holds.unionRest hmax rest h₁.holds (mem_insert_self _ _) hfits.2
      have h₃ := h₁.trans h₂
      refine ⟨forest₂, ?_, h₃.holds, fun _ => h₃.keeps, h₃.notfound⟩
      rw [DisjointSetForest.step, DisjointSetForest.unionMany, hmake]
      exact hrun
  | findSet x =>
    by_cases hx : key x ∈ P.members
    · obtain ⟨v, forest', hrun, -, hholds, hkeeps, hnotfound⟩ := h.findSet hx
      exact ⟨forest', by rw [DisjointSetForest.step, hrun]; rfl, hholds, fun _ => hkeeps, hnotfound⟩
    · refine ⟨forest, ?_, h, fun _ => Keeps.refl _ P, rfl⟩
      rw [DisjointSetForest.step, h.findSet_of_notMem hx]
      rfl
  | isSingleton x => exact ⟨forest, rfl, h, fun _ => Keeps.refl _ P, rfl⟩
  | clear => exact ⟨forest.clear, rfl, holds_empty key _, fun hne => absurd rfl hne, rfl⟩

variable (key) in
/-- The forest answers as the partition does, and its next operation does what it should. -/
structure Answers (maxSets : Nat) (notfound : α) (forest : DisjointSetForest α κ)
    (P : Partition κ) : Prop where
  findSet : ∀ x, key x ∈ P.members → ∃ v forest', forest.findSet key x = some (v, forest') ∧
    key v ∈ P.members ∧ P.Conn (key x) (key v)
  findSet_eq_iff : ∀ x y v w forest' forest'', key x ∈ P.members → key y ∈ P.members →
    forest.findSet key x = some (v, forest') → forest.findSet key y = some (w, forest'') →
    (v = w ↔ P.Conn (key x) (key y))
  findSet_of_notMem : ∀ x, key x ∉ P.members → forest.findSet key x = some (notfound, forest)
  isSingleton_iff : ∀ x, forest.isSingleton key x = true ↔ ∀ y, P.Conn (key x) y → y = key x
  numDisjointSets_eq : forest.numDisjointSets = P.numSets
  makeSet_iff : ∀ x, Fits key maxSets P (.makeSet x) → ∃ b forest',
    forest.makeSet key x = some (b, forest') ∧ (b = true ↔ key x ∉ P.members)
  union_iff : ∀ x y, Fits key maxSets P (.union x y) → ∃ b forest',
    forest.union key x y = some (b, forest') ∧ (b = true ↔ ¬P.Conn (key x) (key y))
  findSet_stays : ∀ op forest' x, op ≠ .clear → Fits key maxSets P op →
    step key forest op = some forest' → key x ∈ P.members →
    (∀ y, (specStep key P op).Conn (key x) y → P.Conn (key x) y) →
    (forest'.findSet key x).map Prod.fst = (forest.findSet key x).map Prod.fst
  rank_lt : ∀ x y, parentOf key forest.objects x = some y → y ≠ x →
    rankOf forest.objects x < rankOf forest.objects y
  two_pow_rank_le : ∀ x, x ∈ forest.objects → 2 ^ rankOf forest.objects x ≤ P.members.card

/-- What `FindSet` returns is a representative. -/
theorem Holds.findSet_eq {forest' : DisjointSetForest α κ} (h : Holds key forest P) {x v : α}
    (hx : key x ∈ P.members) (hfind : forest.findSet key x = some (v, forest')) :
    IsRepr key forest.objects (key x) v := by
  obtain ⟨w, forest'', hfind', hrepr, -⟩ := h.findSet hx
  cases hfind.symm.trans hfind'
  exact hrepr

/-- A rank is at most the logarithm of the number of elements. -/
theorem Holds.two_pow_rank_le (h : Holds key forest P) (hx : x ∈ forest.objects) :
    2 ^ rankOf forest.objects x ≤ P.members.card := by
  obtain ⟨r, hr⟩ := exists_root h.represents.ranked hx
  have hle : rankOf forest.objects x ≤ rankOf forest.objects r := by
    by_cases hxr : x = r
    · rw [hxr]
    · exact le_of_lt (hr.rank_lt h.represents.ranked hxr)
  calc
    2 ^ rankOf forest.objects x ≤ 2 ^ rankOf forest.objects r := Nat.pow_le_pow_right (by omega) hle
    _ ≤ (classOf P.members P.edges r).card := h.represents.size hr.isRoot
    _ ≤ P.members.card := Finset.card_le_card fun z hz => (mem_classOf.mp hz).1

/-- Elements stay until the forest is cleared. -/
theorem specStep_mem (P : Partition κ) {op : Op α} (hop : op ≠ .clear) (hx : x ∈ P.members) :
    x ∈ (specStep key P op).members := by
  have hjoin : ∀ (rest : List α) (begin : α) (P : Partition κ), x ∈ P.members →
      x ∈ (rest.foldl (fun P next => P.join (key begin) (key next)) P).members := by
    intro rest begin
    induction rest with
    | nil => exact fun _ h => h
    | cons next rest ih =>
      exact fun P h => ih _ (mem_insert_of_mem (mem_insert_of_mem h))
  cases op with
  | makeSet y => exact mem_insert_of_mem hx
  | union y z => exact mem_insert_of_mem (mem_insert_of_mem hx)
  | unionMany elements =>
    cases elements with
    | nil => exact hx
    | cons begin rest => exact hjoin rest begin _ (mem_insert_of_mem hx)
  | findSet | isSingleton => exact hx
  | clear => exact absurd rfl hop

/-- A forest answers all queries as its partition does. -/
theorem Holds.answers (hmax : maxSets ≤ 2 ^ 31 - 1) (h : Holds key forest P) :
    Answers key maxSets forest.notfoundValue forest P where
  findSet x hx := by
    obtain ⟨v, forest', hfind, hrepr, -⟩ := h.findSet hx
    exact ⟨v, forest', hfind, (h.represents.isRepr hrepr).2⟩
  findSet_eq_iff x y v w forest' forest'' hx hy hfind hfind' :=
    h.represents.isRepr_eq_iff (h.findSet_eq hx hfind) (h.findSet_eq hy hfind')
  findSet_of_notMem x hx := h.findSet_of_notMem hx
  isSingleton_iff := h.isSingleton_iff
  numDisjointSets_eq := h.count
  makeSet_iff x hfits := by
    obtain ⟨b, forest', hrun, -, hb⟩ := h.makeSet x fun _ => hfits.trans hmax
    exact ⟨b, forest', hrun, hb⟩
  union_iff x y hfits := by
    obtain ⟨b, forest', hrun, -, hb⟩ := h.union x y (fun _ => hfits.1.trans hmax) fun _ =>
      hfits.2.trans hmax
    exact ⟨b, forest', hrun, hb⟩
  findSet_stays op forest' x hop hfits hstep hx hsame := by
    obtain ⟨forest'', hstep', hholds, hkeeps, -⟩ := h.step hmax op hfits
    cases hstep.symm.trans hstep'
    obtain ⟨v, _, hfind, hrepr, -⟩ := h.findSet hx
    obtain ⟨w, _, hfind', hrepr', -⟩ := hholds.findSet (specStep_mem P hop hx)
    rw [hfind, hfind', map_some, map_some, hrepr'.unique ((hkeeps hop).2 hrepr hsame)]
  rank_lt _ _ := h.represents.ranked.rank_lt
  two_pow_rank_le _ hx := h.two_pow_rank_le hx

/-- Runs with at most `maxSets` sets at a time maintain the partition of the unions performed. -/
def MaintainsPartitionUpTo (maxSets : Nat) : Prop :=
  ∀ (α κ : Type) [DecidableEq κ] (key : α → κ) (notfound : α) (ops : List (Op α)),
    Legal (Fits key maxSets) (specStep key) empty ops →
    ∃ forest, ops.foldlM (step key) (new notfound) = some forest ∧
      Answers key maxSets notfound forest (ops.foldl (specStep key) empty)

variable (key) in
/-- A legal run of the forest is one of its partition. -/
theorem holds_run (hmax : maxSets ≤ 2 ^ 31 - 1) (notfound : α) (ops : List (Op α))
    (hlegal : Legal (Fits key maxSets) (specStep key) empty ops) :
    ∃ forest, ops.foldlM (step key) (new notfound) = some forest ∧
      Holds key forest (ops.foldl (specStep key) empty) ∧ forest.notfoundValue = notfound := by
  have hstep : ∀ (forest : DisjointSetForest α κ) P op,
      Holds key forest P ∧ forest.notfoundValue = notfound → Fits key maxSets P op →
      ∃ next, step key forest op = some next ∧
        (Holds key next (specStep key P op) ∧ next.notfoundValue = notfound) := by
    intro forest P op h hfits
    obtain ⟨next, hrun, hholds, -, hnotfound⟩ := h.1.step hmax op hfits
    exact ⟨next, hrun, hholds, hnotfound.trans h.2⟩
  exact run_refines hstep ⟨holds_empty key notfound, rfl⟩ ops hlegal

/-- Up to `2 ^ 31 - 1` sets, a forest maintains its partition. -/
theorem maintainsPartitionUpTo_of_le (hmax : maxSets ≤ 2 ^ 31 - 1) :
    MaintainsPartitionUpTo maxSets := by
  intro α κ _ key notfound ops hlegal
  obtain ⟨forest, hrun, hholds, hnotfound⟩ := holds_run key hmax notfound ops hlegal
  exact ⟨forest, hrun, hnotfound ▸ hholds.answers hmax⟩

/-! ## Too many sets -/

/-- A run that makes a set of each of the first numbers. -/
def makeSets (n : Nat) : List (Op Nat) :=
  (List.range n).map .makeSet

theorem makeSets_succ (n : Nat) : makeSets (n + 1) = makeSets n ++ [.makeSet n] := by
  rw [makeSets, range_succ, map_append]
  rfl

/-- The partition after many calls of `MakeSet`. -/
theorem foldl_makeSets (n : Nat) : (makeSets n).foldl (specStep id) empty = ⟨range n, []⟩ := by
  induction n with
  | zero => rfl
  | succ n ih =>
    rw [makeSets_succ, foldl_append, ih, Finset.range_add_one]
    rfl

theorem numSets_range (n : Nat) : (⟨range n, []⟩ : Partition Nat).numSets = n := by
  rw [numSets, numClasses_eq_card (Finset.Subset.refl _), Finset.card_range]
  · exact fun x hx => ⟨x, hx, .refl x⟩
  · exact fun r _ s _ hrs => connected_nil.mp hrs

/-- Many calls of `MakeSet` are legal. -/
theorem makeSets_legal {n : Nat} (hn : n ≤ maxSets) :
    Legal (Fits id maxSets) (specStep id) empty (makeSets n) := by
  induction n with
  | zero => trivial
  | succ n ih =>
    rw [makeSets_succ, legal_append, foldl_makeSets]
    refine ⟨ih (by omega), ?_, trivial⟩
    have hadd : (⟨range n, []⟩ : Partition Nat).add (id n) = ⟨range (n + 1), []⟩ := by
      rw [Finset.range_add_one]
      rfl
    rw [Fits, hadd, numSets_range]
    exact hn

/-- The counter cannot count `2 ^ 31` sets. -/
theorem makeSets_overflows {m : Nat} (hm : m = 2 ^ 31) :
    (makeSets m).foldlM (step id) (new 0) = none := by
  obtain ⟨n, rfl⟩ : ∃ n, m = n + 1 := ⟨m - 1, by omega⟩
  obtain ⟨forest, hrun, hholds, -⟩ :=
    holds_run id (by omega) 0 (makeSets n) (makeSets_legal (le_refl n))
  rw [foldl_makeSets] at hholds
  have hcount := hholds.count
  rw [numSets_range] at hcount
  have hmem : id n ∉ forest.objects := by
    rw [hholds.represents.mem_iff]
    exact fun h => lt_irrefl n (Finset.mem_range.mp h)
  have hstep : step id forest (.makeSet n) = none := by
    rw [step, makeSet, if_neg hmem, increment, if_neg (by omega)]
    rfl
  rw [makeSets_succ, foldlM_append, hrun, bind_eq_bind, bind_some, foldlM_cons, hstep]
  rfl

/-- `2 ^ 31` calls of `MakeSet` with different elements are legal, and the last one overflows. -/
theorem makeSet_overflows_counter :
    ∃ n, n = 2 ^ 31 ∧ Legal (Fits id n) (specStep id) empty (makeSets n) ∧
      (makeSets n).foldlM (step id) (new 0) = none := by
  obtain ⟨n, hn⟩ : ∃ n, n = 2 ^ 31 := ⟨_, rfl⟩
  exact ⟨n, hn, makeSets_legal (le_refl n), makeSets_overflows hn⟩

/-- The forest maintains the partition exactly up to the largest `int` of sets. -/
theorem maintainsPartitionUpTo_iff (maxSets : Nat) :
    MaintainsPartitionUpTo maxSets ↔ maxSets ≤ 2 ^ 31 - 1 := by
  refine ⟨fun h => ?_, maintainsPartitionUpTo_of_le⟩
  by_contra hlarge
  obtain ⟨m, hm⟩ : ∃ m, m = 2 ^ 31 := ⟨_, rfl⟩
  obtain ⟨forest, hrun, -⟩ := h Nat Nat id 0 (makeSets m) (makeSets_legal (by omega))
  cases (makeSets_overflows hm).symm.trans hrun

end Gloop.DisjointSetForest

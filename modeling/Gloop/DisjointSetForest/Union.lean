import Gloop.DisjointSetForest.Model
import Gloop.Foundation.DisjointSets

/-!
# Finding representatives and merging sets

The entries are read as a forest of parent links with ranks. `internalFindSet_spec` says that the
search ends at the root, and that moving the links on the way is `Compressed`: every element still
reaches its root, and the entries of the roots are as before. `Represents` relates the entries to a
partition: an element reaches the same root as another one exactly if the two are connected, and a
root of rank `k` has at least `2 ^ k` elements below it. New elements, moved links and linked roots
keep it. `Keeps` says which representatives stay.
-/

namespace Gloop.DisjointSetForest

section

open Gloop.Foundation Option Function Finmap
variable {α κ : Type} [DecidableEq κ] (key : α → κ)

/-- The parent links. -/
def parentOf (objects : ObjectMap α κ) (x : κ) : Option κ :=
  (objects.lookup x).map fun data => key data.parent

def rankOf (objects : ObjectMap α κ) (x : κ) : Nat :=
  (objects.lookup x).elim 0 ObjectData.rank

variable {key}

/-- A new entry changes one parent. -/
theorem parentOf_insert (objects : ObjectMap α κ) (x : κ) (data : ObjectData α) :
    parentOf key (objects.insert x data) = update (parentOf key objects) x
      (some (key data.parent)) := by
  funext y
  by_cases hy : y = x
  · subst hy
    rw [parentOf, lookup_insert, update_self]
    rfl
  · rw [parentOf, lookup_insert_of_ne _ hy, update_of_ne hy, parentOf]

theorem rankOf_insert (objects : ObjectMap α κ) (x : κ) (data : ObjectData α) :
    rankOf (objects.insert x data) = update (rankOf objects) x data.rank := by
  funext y
  by_cases hy : y = x
  · subst hy
    rw [rankOf, lookup_insert, update_self]
    rfl
  · rw [rankOf, lookup_insert_of_ne _ hy, update_of_ne hy, rankOf]

variable {objects : ObjectMap α κ} {x : κ}

theorem parentOf_isSome_iff : (parentOf key objects x).isSome ↔ x ∈ objects := by
  rw [parentOf, isSome_map, lookup_isSome]

/-- A parent comes from an entry. -/
theorem parentOf_eq_some {y : κ} (h : parentOf key objects x = some y) :
    ∃ data, objects.lookup x = some data ∧ key data.parent = y := by
  rw [parentOf, map_eq_some_iff] at h
  exact h

theorem rankOf_of_lookup {data : ObjectData α} (h : objects.lookup x = some data) :
    rankOf objects x = data.rank := by
  rw [rankOf, h]
  rfl

variable (key) in
/-- The ranks of a forest are bounded. -/
theorem exists_rank_bound (objects : ObjectMap α κ) :
    ∃ bound, ∀ x, (parentOf key objects x).isSome → rankOf objects x ≤ bound := by
  refine ⟨objects.keys.sup (rankOf objects), fun x hx => ?_⟩
  exact Finset.le_sup (mem_keys.mpr (parentOf_isSome_iff.mp hx))

/-- Every element reaches a root, since ranks grow. -/
theorem exists_root (hranked : Ranked (parentOf key objects) (rankOf objects)) (hx : x ∈ objects) :
    ∃ r, Reaches (parentOf key objects) x r := by
  obtain ⟨bound, hbound⟩ := exists_rank_bound key objects
  exact hranked.exists_reaches hbound (parentOf_isSome_iff.mpr hx)

variable (key) in
/-- Links were moved, but every element reaches the same root as before. -/
structure Compressed (objects objects' : ObjectMap α κ) : Prop where
  reaches : ∀ z s, Reaches (parentOf key objects') z s ↔ Reaches (parentOf key objects) z s
  root_data : ∀ r, parentOf key objects r = some r → objects'.lookup r = objects.lookup r
  rank : ∀ x, rankOf objects' x = rankOf objects x
  mem_iff : ∀ x, x ∈ objects' ↔ x ∈ objects
  ranked : Ranked (parentOf key objects) (rankOf objects) → Ranked (parentOf key objects')
    (rankOf objects')

theorem Compressed.refl (objects : ObjectMap α κ) : Compressed key objects objects :=
  ⟨fun _ _ => Iff.rfl, fun _ _ => rfl, fun _ => rfl, fun _ => Iff.rfl, id⟩

/-- Compression keeps the roots. -/
theorem Compressed.isRoot {objects' : ObjectMap α κ} (h : Compressed key objects objects') {r : κ} :
    parentOf key objects' r = some r ↔ parentOf key objects r = some r := by
  constructor
  · intro hr
    exact ((h.reaches r r).mp (.root hr)).isRoot
  · intro hr
    exact ((h.reaches r r).mpr (.root hr)).isRoot

theorem Compressed.trans {objects' objects'' : ObjectMap α κ} (h : Compressed key objects objects')
    (h' : Compressed key objects' objects'') : Compressed key objects objects'' where
  reaches z s := (h'.reaches z s).trans (h.reaches z s)
  root_data r hr := (h'.root_data r (h.isRoot.mpr hr)).trans (h.root_data r hr)
  rank x := (h'.rank x).trans (h.rank x)
  mem_iff x := (h'.mem_iff x).trans (h.mem_iff x)
  ranked hranked := h'.ranked (h.ranked hranked)

/-- One link is moved to its root. -/
theorem compressed_insert {r : κ} {v : α} (h : Reaches (parentOf key objects) x r) (hne : x ≠ r)
    (hv : key v = r) : Compressed key objects (objects.insert x ⟨v, rankOf objects x⟩) := by
  have hparent : parentOf key (objects.insert x ⟨v, rankOf objects x⟩) =
      update (parentOf key objects) x (some r) := by
    rw [parentOf_insert, ← hv]
  have hrank : rankOf (objects.insert x ⟨v, rankOf objects x⟩) = rankOf objects := by
    rw [rankOf_insert, update_eq_self]
  refine ⟨fun z s => ?_, fun s hs => ?_, fun z => by rw [hrank], fun z => ?_, fun hranked => ?_⟩
  · rw [hparent, reaches_compress h]
  · have hsx : s ≠ x := by
      rintro rfl
      exact hne (h.eq_of_root hs).symm
    exact lookup_insert_of_ne _ hsx
  · rw [mem_insert]
    refine ⟨?_, Or.inr⟩
    rintro (rfl | hz)
    · exact parentOf_isSome_iff.mp h.isSome
    · exact hz
  · rw [hparent, hrank]
    refine hranked.update (Or.inr ?_) (fun _ => h.rank_lt hranked hne) fun _ => hranked.rank_lt
    rw [h.isRoot]
    rfl

/-- The entries that a search from `x` may still visit. -/
def above (objects : ObjectMap α κ) (x : κ) : Finset κ :=
  objects.keys.filter (rankOf objects x < rankOf objects ·)

/-- Fewer elements are above one of greater rank. -/
theorem card_above_lt {y : κ} (hy : y ∈ objects) (hlt : rankOf objects x < rankOf objects y) :
    (above objects y).card < (above objects x).card := by
  refine Finset.card_lt_card ⟨fun z hz => ?_, fun hsub => ?_⟩
  · rw [above, Finset.mem_filter] at hz ⊢
    exact ⟨hz.1, hlt.trans hz.2⟩
  · have hmem : y ∈ above objects x := Finset.mem_filter.mpr ⟨mem_keys.mpr hy, hlt⟩
    exact lt_irrefl _ (Finset.mem_filter.mp (hsub hmem)).2

/-- The search ends at the root, because ranks increase along the links. -/
theorem internalFindSetWithin_of_reaches (hranked : Ranked (parentOf key objects) (rankOf objects))
    {r : κ} (h : Reaches (parentOf key objects) x r) {calls : Nat}
    (hcalls : (above objects x).card < calls) :
    ∃ objects', internalFindSetWithin key objects calls x = some (r, objects') ∧
      Compressed key objects objects' := by
  induction h generalizing calls with
  | @root r hr =>
    obtain ⟨calls, rfl⟩ := Nat.exists_eq_succ_of_ne_zero (Nat.ne_zero_of_lt hcalls)
    obtain ⟨data, hdata, hkey⟩ := parentOf_eq_some hr
    refine ⟨objects, ?_, Compressed.refl objects⟩
    rw [internalFindSetWithin, hdata, bind_eq_bind, bind_some, if_neg (not_not_intro hkey)]
    rfl
  | @step x y r hx hyx hy ih =>
    obtain ⟨calls, rfl⟩ := Nat.exists_eq_succ_of_ne_zero (Nat.ne_zero_of_lt hcalls)
    obtain ⟨data, hdata, hkey⟩ := parentOf_eq_some hx
    have hless := card_above_lt (parentOf_isSome_iff.mp hy.isSome) (hranked.rank_lt hx hyx)
    obtain ⟨objects', hfind, hcomp⟩ := ih (hless.trans_le (Nat.le_of_lt_succ hcalls))
    obtain ⟨reprData, hrepr, hreprKey⟩ := parentOf_eq_some hy.isRoot
    have hreach : Reaches (parentOf key objects') x r :=
      (hcomp.reaches x r).mpr (.step hx hyx hy)
    have hxr : x ≠ r := by
      rintro rfl
      exact hyx (some.inj (hx.symm.trans hy.isRoot))
    have hlookup : objects'.lookup r = some reprData := (hcomp.root_data r hy.isRoot).trans hrepr
    have hrank : rankOf objects' x = data.rank := (hcomp.rank x).trans (rankOf_of_lookup hdata)
    refine ⟨objects'.insert x ⟨reprData.parent, data.rank⟩, ?_, ?_⟩
    · rw [internalFindSetWithin, hdata, bind_eq_bind, bind_some,
        if_pos (hkey ▸ hyx), hkey, hfind, bind_eq_bind, bind_some]
      dsimp only
      rw [hlookup]
      rfl
    · rw [← hrank]
      exact hcomp.trans (compressed_insert hreach hxr hreprKey)

/-- Every entry has a representative. -/
theorem internalFindSet_spec (hranked : Ranked (parentOf key objects) (rankOf objects))
    (hx : x ∈ objects) : ∃ r objects', internalFindSet key objects x = some (r, objects') ∧
      Reaches (parentOf key objects) x r ∧ Compressed key objects objects' := by
  obtain ⟨r, hr⟩ := exists_root hranked hx
  obtain ⟨objects', hfind, hcomp⟩ :=
    internalFindSetWithin_of_reaches hranked hr (Finset.card_lt_card (Finset.filter_ssubset.mpr
      ⟨x, mem_keys.mpr hx, lt_irrefl _⟩))
  exact ⟨r, objects', hfind, hr, hcomp⟩

end

open Gloop.Foundation Option Finset Finmap Nat
open Function (update_self update_of_ne update_eq_self update_comm)

/-! ## Partitions -/

/-- Elements, and the pairs that were joined. -/
structure Partition (κ : Type) where
  members : Finset κ
  edges : List (κ × κ)

namespace Partition

variable {κ : Type}

def empty : Partition κ :=
  ⟨∅, []⟩

abbrev Conn (P : Partition κ) : κ → κ → Prop :=
  Connected P.edges

noncomputable def numSets (P : Partition κ) : Nat :=
  numClasses P.members P.edges

variable {P : Partition κ}

/-- The number of sets grows with the elements and shrinks with the connections. -/
theorem numSets_le {Q : Partition κ} (hmembers : P.members ⊆ Q.members)
    (hconn : ∀ x y, Q.Conn x y → P.Conn x y) : P.numSets ≤ Q.numSets :=
  numClasses_le hmembers (hconn _ _)

variable [DecidableEq κ]

/-- A set of its own for a new element. -/
def add (P : Partition κ) (x : κ) : Partition κ :=
  { P with members := insert x P.members }

/-- The sets of two elements become one. -/
def join (P : Partition κ) (x y : κ) : Partition κ :=
  ⟨insert x (insert y P.members), (x, y) :: P.edges⟩

/-- An element that is there is not added again. -/
theorem add_of_mem {x : κ} (hx : x ∈ P.members) : P.add x = P := by
  rw [add, insert_eq_of_mem hx]

/-- A union of members adds none. -/
theorem members_join {x y : κ} (hx : x ∈ P.members) (hy : y ∈ P.members) :
    (P.join x y).members = P.members := by
  rw [join, insert_eq_of_mem hy, insert_eq_of_mem hx]

/-- A union keeps what is connected. -/
theorem Conn.join {u v : κ} (h : P.Conn u v) (x y : κ) : (P.join x y).Conn u v :=
  connected_cons.mpr (Or.inl h)

theorem join_add_right (P : Partition κ) (x y : κ) : (P.add y).join x y = P.join x y := by
  rw [join, join, add, insert_idem]

theorem join_add_left (P : Partition κ) (x y : κ) : (P.add x).join x y = P.join x y := by
  rw [join, join, add, insert_comm y, insert_idem]

/-- A set of its own for each new element of a list. -/
def addAll (P : Partition κ) (l : List κ) : Partition κ :=
  { P with members := l.toFinset ∪ P.members }

theorem addAll_cons (x : κ) (l : List κ) : P.addAll (x :: l) = (P.add x).addAll l := by
  simp [addAll, add]

/-- It does not matter whether elements are added before a join or after it. -/
theorem join_addAll (x y : κ) (l : List κ) : (P.addAll l).join x y = (P.join x y).addAll l := by
  simp only [join, addAll, Finset.union_insert]

/-- Adding elements does not make fewer sets. -/
theorem numSets_le_addAll (l : List κ) : P.numSets ≤ (P.addAll l).numSets :=
  numSets_le Finset.subset_union_right fun _ _ h => h

/-- A union does not depend on the order of its arguments. -/
theorem conn_join_comm (P : Partition κ) (x y u v : κ) :
    (P.join x y).Conn u v ↔ (P.join y x).Conn u v := by
  rw [Conn, Conn, join, join, connected_cons, connected_cons]
  exact or_congr_right or_comm

end Partition

variable {α κ : Type} [DecidableEq κ] {key : α → κ}

/-! ## Forests that stand for a partition -/

variable (key) in
/-- The elements that are their own parents. -/
def roots (objects : ObjectMap α κ) : Finset κ :=
  objects.keys.filter fun x => parentOf key objects x = some x

variable {objects : ObjectMap α κ}

/-- Roots are their own parents. -/
theorem mem_roots {x : κ} : x ∈ roots key objects ↔ parentOf key objects x = some x := by
  rw [roots, mem_filter, mem_keys, ← @parentOf_isSome_iff _ _ _ key]
  refine ⟨And.right, fun h => ⟨?_, h⟩⟩
  rw [h]
  rfl

variable (key) in
structure Represents (objects : ObjectMap α κ) (P : Partition κ) : Prop where
  mem_iff : ∀ x, x ∈ objects ↔ x ∈ P.members
  edges_mem : ∀ e ∈ P.edges, e.1 ∈ P.members ∧ e.2 ∈ P.members
  ranked : Ranked (parentOf key objects) (rankOf objects)
  connected : ∀ {x y r s}, Reaches (parentOf key objects) x r → Reaches (parentOf key objects) y s →
    (r = s ↔ P.Conn x y)
  size : ∀ {r}, parentOf key objects r = some r →
    2 ^ rankOf objects r ≤ (classOf P.members P.edges r).card

variable (key) in
/-- The value that `FindSet` returns. -/
def IsRepr (objects : ObjectMap α κ) (z : κ) (v : α) : Prop :=
  ∃ r data, Reaches (parentOf key objects) z r ∧ objects.lookup r = some data ∧ data.parent = v

variable (key) in
/-- Elements whose set did not grow keep their representative. -/
def Keeps (objects : ObjectMap α κ) (P : Partition κ) (objects' : ObjectMap α κ)
    (P' : Partition κ) : Prop :=
  (∀ {u v}, P.Conn u v → P'.Conn u v) ∧
    ∀ {z v}, IsRepr key objects z v → (∀ u, P'.Conn z u → P.Conn z u) → IsRepr key objects' z v

theorem Keeps.refl (objects : ObjectMap α κ) (P : Partition κ) : Keeps key objects P objects P :=
  ⟨id, fun h _ => h⟩

theorem Keeps.trans {objects objects' objects'' : ObjectMap α κ} {P P' P'' : Partition κ}
    (h : Keeps key objects P objects' P') (h' : Keeps key objects' P' objects'' P'') :
    Keeps key objects P objects'' P'' := by
  refine ⟨fun huv => h'.1 (h.1 huv), fun hz hsame => ?_⟩
  exact h'.2 (h.2 hz fun u hu => hsame u (h'.1 hu)) fun u hu => h.1 (hsame u hu)

/-- An empty forest represents no sets. -/
theorem represents_empty : Represents key (∅ : ObjectMap α κ) Partition.empty where
  mem_iff x := ⟨fun h => absurd h notMem_empty, fun h => absurd h (notMem_empty x)⟩
  edges_mem _ h := nomatch h
  ranked := ⟨fun h => (nomatch h), fun h => (nomatch h)⟩
  connected h := by
    have hsome := h.isSome
    cases hsome
  size h := nomatch h

namespace Represents

variable {objects : ObjectMap α κ} {P : Partition κ} (h : Represents key objects P)

include h

/-- What reaches a root is a member. -/
theorem reaches_mem {x r : κ} (hx : Reaches (parentOf key objects) x r) : x ∈ P.members :=
  (h.mem_iff x).mp (parentOf_isSome_iff.mp hx.isSome)

theorem root_mem {r : κ} (hr : parentOf key objects r = some r) : r ∈ P.members :=
  h.reaches_mem (.root hr)

/-- The root is a member of the set. -/
theorem reaches_conn {x r : κ} (hx : Reaches (parentOf key objects) x r) : P.Conn x r :=
  (h.connected hx (.root hx.isRoot)).mp rfl

/-- There are as many roots as sets. -/
theorem card_roots : (roots key objects).card = P.numSets := by
  refine (numClasses_eq_card (fun r hr => h.root_mem (mem_roots.mp hr)) (fun x hx => ?_) ?_).symm
  · obtain ⟨r, hr⟩ := exists_root h.ranked ((h.mem_iff x).mpr hx)
    exact ⟨r, mem_roots.mpr hr.isRoot, h.reaches_conn hr⟩
  · intro r hr s hs hconn
    exact (h.connected (.root (mem_roots.mp hr)) (.root (mem_roots.mp hs))).mpr hconn

/-- The new edge is between members. -/
theorem edges_join {x y : κ} (hx : x ∈ P.members) (hy : y ∈ P.members) :
    ∀ e ∈ (P.join x y).edges, e.1 ∈ (P.join x y).members ∧ e.2 ∈ (P.join x y).members := by
  rw [Partition.members_join hx hy]
  exact List.forall_mem_cons.mpr ⟨⟨hx, hy⟩, h.edges_mem⟩

/-- Moving links changes neither the partition nor a representative. -/
theorem compressed {objects' : ObjectMap α κ} (hcomp : Compressed key objects objects') :
    Represents key objects' P ∧ Keeps key objects P objects' P := by
  refine ⟨⟨fun x => (hcomp.mem_iff x).trans (h.mem_iff x), h.edges_mem, hcomp.ranked h.ranked, ?_,
    ?_⟩, id, ?_⟩
  · intro x y r s hx hy
    exact h.connected ((hcomp.reaches x r).mp hx) ((hcomp.reaches y s).mp hy)
  · intro r hr
    rw [hcomp.rank]
    exact h.size (hcomp.isRoot.mp hr)
  · rintro z v ⟨r, data, hz, hdata, rfl⟩ -
    exact ⟨r, data, (hcomp.reaches z r).mpr hz, (hcomp.root_data r hz.isRoot).trans hdata, rfl⟩

/-- Only the members and their connections matter. -/
theorem congr {Q : Partition κ} (hmembers : Q.members = P.members)
    (hconn : ∀ u v, Q.Conn u v ↔ P.Conn u v)
    (hedges : ∀ e ∈ Q.edges, e.1 ∈ Q.members ∧ e.2 ∈ Q.members) : Represents key objects Q := by
  refine ⟨fun x => ?_, hedges, h.ranked, fun hx hy => ?_, fun {r} hr => ?_⟩
  · rw [hmembers, h.mem_iff]
  · rw [hconn]
    exact h.connected hx hy
  · exact (h.size hr).trans (card_le_card (classOf_subset hmembers.ge fun z => (hconn r z).mpr))

/-- A union within one set changes nothing. -/
theorem join_of_conn {x y : κ} (hx : x ∈ P.members) (hy : y ∈ P.members) (hxy : P.Conn x y) :
    Represents key objects (P.join x y) ∧ Keeps key objects P objects (P.join x y) := by
  have hconn : ∀ u v, (P.join x y).Conn u v ↔ P.Conn u v := by
    intro u v
    refine connected_cons.trans ⟨?_, Or.inl⟩
    rintro (huv | ⟨hux, hyv⟩ | ⟨huy, hxv⟩)
    · exact huv
    · exact hux.trans (hxy.trans hyv)
    · exact huy.trans (hxy.symm.trans hxv)
  exact ⟨h.congr (Partition.members_join hx hy) hconn (h.edges_join hx hy),
    fun huv => (hconn _ _).mpr huv,
    fun hz _ => hz⟩

/-- A new element is a set of its own. -/
theorem insert {x : κ} {v : α} (hx : x ∉ objects) (hv : key v = x) :
    Represents key (objects.insert x ⟨v, 0⟩) (P.add x) ∧
      Keeps key objects P (objects.insert x ⟨v, 0⟩) (P.add x) ∧
      (roots key (objects.insert x ⟨v, 0⟩)).card = (roots key objects).card + 1 := by
  have hnone : parentOf key objects x = none := by
    rw [parentOf, lookup_eq_none.mpr hx]
    rfl
  have hparent : parentOf key (objects.insert x ⟨v, 0⟩) =
      Function.update (parentOf key objects) x (some x) := by
    rw [parentOf_insert, hv]
  have hreach : ∀ {z s}, Reaches (parentOf key (objects.insert x ⟨v, 0⟩)) z s ↔
      Reaches (parentOf key objects) z s ∨ (z = x ∧ s = x) := by
    rw [hparent]
    exact reaches_insert hnone h.ranked.isSome
  have hmem : x ∉ P.members := fun hmem => hx ((h.mem_iff x).mpr hmem)
  -- no path of the old forest ends at the new element, and no old class contains it
  have hother : ∀ {z r}, Reaches (parentOf key objects) z r → r ≠ x := by
    rintro z r hz rfl
    rw [hz.isRoot] at hnone
    cases hnone
  have hnew : ∀ {z}, z ∈ P.members → ¬P.Conn z x := by
    intro z hz hconn
    rcases hconn.mem h.edges_mem with rfl | ⟨-, hxmem⟩
    · exact hmem hz
    · exact hmem hxmem
  refine ⟨⟨fun z => ?_, fun e he => ?_, ?_, ?_, ?_⟩, ⟨id, ?_⟩, ?_⟩
  · rw [Finmap.mem_insert, h.mem_iff]
    exact mem_insert.symm
  · exact ⟨mem_insert_of_mem (h.edges_mem e he).1, mem_insert_of_mem (h.edges_mem e he).2⟩
  · rw [hparent, rankOf_insert]
    refine h.ranked.update (Or.inl rfl) (fun hne => absurd rfl hne) fun {z w} hzx hz hwz => ?_
    have hwx : w ≠ x := by
      rintro rfl
      have hsome := h.ranked.isSome hz
      rw [hnone] at hsome
      cases hsome
    rw [update_of_ne hzx, update_of_ne hwx]
    exact h.ranked.rank_lt hz hwz
  · intro y z r s hy hz
    rcases hreach.mp hy with hyr | ⟨hyx, hrx⟩ <;> rcases hreach.mp hz with hzs | ⟨hzx, hsx⟩
    · exact h.connected hyr hzs
    · rw [hzx, hsx]
      exact iff_of_false (hother hyr) (hnew (h.reaches_mem hyr))
    · rw [hyx, hrx]
      exact iff_of_false (Ne.symm (hother hzs)) fun hconn => hnew (h.reaches_mem hzs) hconn.symm
    · rw [hyx, hrx, hzx, hsx]
      exact iff_of_true rfl (.refl x)
  · intro r hr
    rw [rankOf_insert]
    by_cases hrx : r = x
    · subst hrx
      rw [update_self]
      exact card_pos.mpr ⟨r, mem_classOf.mpr ⟨mem_insert_self _ _, .refl r⟩⟩
    · rw [hparent, update_of_ne hrx] at hr
      rw [update_of_ne hrx]
      exact (h.size hr).trans (card_le_card (classOf_subset (subset_insert _ _) fun _ => id))
  · rintro z w ⟨r, data, hz, hdata, rfl⟩ -
    refine ⟨r, data, hreach.mpr (Or.inl hz), ?_, rfl⟩
    rw [lookup_insert_of_ne _ (hother hz), hdata]
  · have hroots : roots key (objects.insert x ⟨v, 0⟩) = Insert.insert x (roots key objects) := by
      ext z
      rw [mem_roots, hparent, Finset.mem_insert, mem_roots]
      by_cases hzx : z = x
      · subst hzx
        rw [update_self]
        exact iff_of_true rfl (Or.inl rfl)
      · rw [update_of_ne hzx]
        exact (or_iff_right hzx).symm
    rw [hroots, card_insert_of_notMem]
    rw [mem_roots, hnone]
    rintro ⟨⟩

end Represents

/-! ## Linking two roots -/

variable (key) in
/-- One root became the child of another one, whose rank is higher now. -/
structure Linked (objects objects' : ObjectMap α κ) (child top : κ) : Prop where
  parent : parentOf key objects' = Function.update (parentOf key objects) child (some top)
  rank_other : ∀ {z}, z ≠ top → rankOf objects' z = rankOf objects z
  rank_le : rankOf objects top ≤ rankOf objects' top
  rank_lt : rankOf objects child < rankOf objects' top
  two_pow_rank : 2 ^ rankOf objects' top ≤ 2 ^ rankOf objects child + 2 ^ rankOf objects top
  value : ∀ {z data}, z ≠ child → objects.lookup z = some data →
    ∃ data', objects'.lookup z = some data' ∧ data'.parent = data.parent
  mem_iff : ∀ z, z ∈ objects' ↔ z ∈ objects

theorem mem_insert_of_lookup {x : κ} {data : ObjectData α} (h : objects.lookup x = some data)
    (data' : ObjectData α) (z : κ) : z ∈ objects.insert x data' ↔ z ∈ objects := by
  rw [Finmap.mem_insert]
  refine ⟨?_, Or.inr⟩
  rintro (rfl | hz)
  · exact mem_iff.mpr ⟨data, h⟩
  · exact hz

variable {childData topData : ObjectData α}

/-- The lower tree goes below the higher one. -/
theorem linked_insert {child top : κ}
    (hchild : objects.lookup child = some childData) (htop : objects.lookup top = some topData)
    (hkey : key topData.parent = top) (hlt : childData.rank < topData.rank) :
    Linked key objects (objects.insert child ⟨topData.parent, childData.rank⟩) child top := by
  have hchildRank := rankOf_of_lookup hchild
  have htopRank := rankOf_of_lookup htop
  have hrank : rankOf (objects.insert child ⟨topData.parent, childData.rank⟩) = rankOf objects := by
    rw [rankOf_insert, ← hchildRank, update_eq_self]
  refine ⟨?_, fun _ => by rw [hrank], ?_, ?_, ?_, ?_, mem_insert_of_lookup hchild _⟩
  · rw [parentOf_insert, hkey]
  · rw [hrank]
  · rw [hrank, hchildRank, htopRank]
    exact hlt
  · rw [hrank]
    exact le_add_left _ _
  · intro z data hz hdata
    exact ⟨data, (lookup_insert_of_ne _ hz).trans hdata, rfl⟩

/-- With equal ranks the rank of the upper root grows. -/
theorem linked_insert_insert {child top : κ} (hchild : objects.lookup child = some childData)
    (htop : objects.lookup top = some topData) (hkey : key topData.parent = top) (hne : top ≠ child)
    (heq : topData.rank = childData.rank) :
    Linked key objects ((objects.insert child ⟨topData.parent, childData.rank⟩).insert top
      ⟨topData.parent, topData.rank + 1⟩) child top := by
  have hchildRank := rankOf_of_lookup hchild
  have htopRank := rankOf_of_lookup htop
  have hparent : parentOf key objects top = some top := by
    rw [parentOf, htop, map_some, hkey]
  refine ⟨?_, ?_, ?_, ?_, ?_, ?_, ?_⟩
  · rw [parentOf_insert, parentOf_insert, hkey, update_comm (Ne.symm hne), ← hparent,
      update_eq_self]
  · intro z hz
    rw [rankOf_insert, update_of_ne hz, rankOf_insert, ← hchildRank, update_eq_self]
  · rw [rankOf_insert, update_self, htopRank]
    exact le_succ _
  · rw [rankOf_insert, update_self, hchildRank, ← heq]
    exact lt_succ_self _
  · rw [rankOf_insert, update_self, hchildRank, htopRank, ← heq, pow_succ]
    omega
  · intro z data hz hdata
    by_cases hzt : z = top
    · subst hzt
      refine ⟨_, lookup_insert _, ?_⟩
      rw [some.inj (htop.symm.trans hdata)]
    · refine ⟨data, ?_, rfl⟩
      rw [lookup_insert_of_ne _ hzt, lookup_insert_of_ne _ hz, hdata]
  · intro z
    have hlookup : (objects.insert child ⟨topData.parent, childData.rank⟩).lookup top =
        some topData := by
      rw [lookup_insert_of_ne _ hne, htop]
    rw [mem_insert_of_lookup hlookup, mem_insert_of_lookup hchild]

/-- Of two roots, the one of lower rank gets the other as its parent. -/
theorem link_spec {a b : κ} (ha : parentOf key objects a = some a)
    (hb : parentOf key objects b = some b) (hab : a ≠ b) : ∃ objects',
      link objects a b = some objects' ∧ (Linked key objects objects' a b ∨
        Linked key objects objects' b a) := by
  obtain ⟨aData, haData, haKey⟩ := parentOf_eq_some ha
  obtain ⟨bData, hbData, hbKey⟩ := parentOf_eq_some hb
  have hlink : link objects a b = if aData.rank < bData.rank then
      some (objects.insert a ⟨bData.parent, aData.rank⟩)
    else if aData.rank = bData.rank then
      some ((objects.insert b ⟨aData.parent, bData.rank⟩).insert a ⟨aData.parent, aData.rank + 1⟩)
    else some (objects.insert b ⟨aData.parent, bData.rank⟩) := by
    rw [link, haData, hbData]
    rfl
  rcases lt_trichotomy aData.rank bData.rank with hlt | heq | hgt
  · exact ⟨_, hlink.trans (if_pos hlt), Or.inl (linked_insert haData hbData hbKey hlt)⟩
  · refine ⟨_, hlink.trans ((if_neg (by omega)).trans (if_pos heq)), Or.inr ?_⟩
    exact linked_insert_insert hbData haData haKey hab heq
  · refine ⟨_, hlink.trans ((if_neg (by omega)).trans (if_neg (by omega))), Or.inr ?_⟩
    exact linked_insert hbData haData haKey hgt

namespace Linked

variable {objects objects' : ObjectMap α κ} {P : Partition κ} (h : Represents key objects P)
  {child top x y : κ} (hlinked : Linked key objects objects' child top)
  (hx : Reaches (parentOf key objects) x child) (hy : Reaches (parentOf key objects) y top)
  (hne : child ≠ top)

include hlinked hx hy hne

/-- What reached the child now reaches the other root. -/
theorem reaches_iff {z s : κ} : Reaches (parentOf key objects') z s ↔
    (Reaches (parentOf key objects) z s ∧ s ≠ child) ∨
      (Reaches (parentOf key objects) z child ∧ s = top) := by
  rw [hlinked.parent]
  exact reaches_link hx.isRoot hy.isRoot hne

include h

omit hx in
/-- Ranks still grow along the paths. -/
theorem ranked : Ranked (parentOf key objects') (rankOf objects') := by
  rw [hlinked.parent]
  refine h.ranked.update (Or.inr ?_) (fun _ => ?_) fun {z w} _ hz hwz => ?_
  · rw [hy.isRoot]
    rfl
  · rw [hlinked.rank_other hne]
    exact hlinked.rank_lt
  · have hztop : z ≠ top := by
      rintro rfl
      exact hwz (some.inj (hz.symm.trans hy.isRoot))
    have hlt := h.ranked.rank_lt hz hwz
    rw [hlinked.rank_other hztop]
    by_cases hw : w = top
    · subst hw
      exact lt_of_lt_of_le hlt hlinked.rank_le
    · rwa [hlinked.rank_other hw]

/-- Which elements reach the child is decided by the element `x` below it. -/
theorem eq_iff_conn {u v r s : κ} (hu : Reaches (parentOf key objects') u r)
    (hv : Reaches (parentOf key objects') v s) : r = s ↔ (P.join x y).Conn u v := by
  have hconn : (P.join x y).Conn u v ↔ P.Conn u v ∨ (P.Conn u x ∧ P.Conn y v) ∨
      (P.Conn u y ∧ P.Conn x v) :=
    connected_cons
  have hchild : ∀ {z t}, Reaches (parentOf key objects) z t → (t = child ↔ P.Conn z x) :=
    fun hz => h.connected hz hx
  have htop : ∀ {z t}, Reaches (parentOf key objects) z t → (t = top ↔ P.Conn z y) :=
    fun hz => h.connected hz hy
  rw [hconn]
  rcases (hlinked.reaches_iff hx hy hne).mp hu with ⟨hur, hrc⟩ | ⟨huc, rfl⟩ <;>
    rcases (hlinked.reaches_iff hx hy hne).mp hv with ⟨hvs, hsc⟩ | ⟨hvc, rfl⟩
  · rw [h.connected hur hvs]
    refine ⟨Or.inl, ?_⟩
    rintro (huv | ⟨hux, -⟩ | ⟨-, hxv⟩)
    · exact huv
    · exact absurd ((hchild hur).mpr hux) hrc
    · exact absurd ((hchild hvs).mpr hxv.symm) hsc
  · rw [htop hur]
    refine ⟨fun huy => Or.inr (Or.inr ⟨huy, ((hchild hvc).mp rfl).symm⟩), ?_⟩
    rintro (huv | ⟨hux, -⟩ | ⟨huy, -⟩)
    · exact absurd ((h.connected hur hvc).mpr huv) hrc
    · exact absurd ((hchild hur).mpr hux) hrc
    · exact huy
  · rw [eq_comm, htop hvs]
    refine ⟨fun hvy => Or.inr (Or.inl ⟨(hchild huc).mp rfl, hvy.symm⟩), ?_⟩
    rintro (huv | ⟨-, hyv⟩ | ⟨-, hxv⟩)
    · exact absurd ((h.connected hvs huc).mpr huv.symm) hsc
    · exact hyv.symm
    · exact absurd ((hchild hvs).mpr hxv.symm) hsc
  · exact iff_of_true rfl (Or.inl ((h.connected huc hvc).mp rfl))

/-- The set of the upper root has the elements of both. -/
theorem two_pow_rank_le {r : κ} (hr : parentOf key objects' r = some r) :
    2 ^ rankOf objects' r ≤ (classOf P.members ((x, y) :: P.edges) r).card := by
  have hsub : classOf P.members P.edges r ⊆ classOf P.members ((x, y) :: P.edges) r :=
    classOf_subset (Finset.Subset.refl _) fun _ hconn => connected_cons.mpr (Or.inl hconn)
  by_cases hrtop : r = top
  · subst hrtop
    have hytop : P.Conn r y := (h.reaches_conn hy).symm
    have hmoved : classOf P.members P.edges child ⊆ classOf P.members ((x, y) :: P.edges) r := by
      intro z hz
      obtain ⟨hz, hconn⟩ := mem_classOf.mp hz
      have hxz : P.Conn x z := (h.reaches_conn hx).trans hconn
      exact mem_classOf.mpr ⟨hz, connected_cons.mpr (Or.inr (Or.inr ⟨hytop, hxz⟩))⟩
    have hdisjoint : Disjoint (classOf P.members P.edges child) (classOf P.members P.edges r) := by
      rw [disjoint_left]
      intro z hz hz'
      have hconn : P.Conn child r := (mem_classOf.mp hz).2.trans (mem_classOf.mp hz').2.symm
      exact hne ((h.connected (.root hx.isRoot) (.root hy.isRoot)).mpr hconn)
    calc
      2 ^ rankOf objects' r ≤ 2 ^ rankOf objects child + 2 ^ rankOf objects r :=
        hlinked.two_pow_rank
      _ ≤ (classOf P.members P.edges child).card + (classOf P.members P.edges r).card :=
        Nat.add_le_add (h.size hx.isRoot) (h.size hy.isRoot)
      _ = (classOf P.members P.edges child ∪ classOf P.members P.edges r).card :=
        (card_union_of_disjoint hdisjoint).symm
      _ ≤ (classOf P.members ((x, y) :: P.edges) r).card :=
        card_le_card (union_subset hmoved hsub)
  · rcases (hlinked.reaches_iff hx hy hne).mp (.root hr) with ⟨hroot, -⟩ | ⟨-, htop⟩
    · rw [hlinked.rank_other hrtop]
      exact (h.size hroot.isRoot).trans (card_le_card hsub)
    · exact absurd htop hrtop

/-- Linking the roots of two elements joins their sets. -/
theorem keeps : Keeps key objects P objects' (P.join x y) := by
  refine ⟨fun huv => huv.join x y, ?_⟩
  rintro z v ⟨r, data, hz, hdata, rfl⟩ hsame
  have hrc : r ≠ child := by
    rintro rfl
    -- the set of `z` now has `y` too
    have hzx : P.Conn z x := (h.connected hz hx).mp rfl
    have hzy : P.Conn z y := hsame y (connected_cons.mpr (Or.inr (Or.inl ⟨hzx, .refl y⟩)))
    exact hne ((h.connected hz hy).mpr hzy)
  obtain ⟨data', hdata', hparent⟩ := hlinked.value hrc hdata
  exact ⟨r, data', (hlinked.reaches_iff hx hy hne).mpr (Or.inl ⟨hz, hrc⟩), hdata', hparent⟩

omit h hy in
theorem card_roots : (roots key objects').card + 1 = (roots key objects).card := by
  have hroots : roots key objects' = (roots key objects).erase child := by
    ext z
    rw [mem_roots, hlinked.parent, Finset.mem_erase, mem_roots]
    by_cases hz : z = child
    · subst hz
      rw [update_self]
      exact iff_of_false (fun heq => hne (some.inj heq).symm) fun hand => hand.1 rfl
    · rw [update_of_ne hz]
      exact (and_iff_right hz).symm
  rw [hroots]
  exact card_erase_add_one (mem_roots.mpr hx.isRoot)

/-- Linking the roots of two sets merges the sets. -/
theorem represents : Represents key objects' (P.join x y) := by
  have hmembers := Partition.members_join (h.reaches_mem hx) (h.reaches_mem hy)
  refine ⟨fun z => ?_, h.edges_join (h.reaches_mem hx) (h.reaches_mem hy), hlinked.ranked h hy hne,
    hlinked.eq_iff_conn h hx hy hne, ?_⟩
  · rw [hmembers, hlinked.mem_iff, h.mem_iff]
  · intro r hr
    rw [hmembers]
    exact hlinked.two_pow_rank_le h hx hy hne hr

end Linked

/-- Which of the two roots is on top makes no difference to the partition. -/
theorem Represents.linked {objects objects' : ObjectMap α κ} {P : Partition κ}
    (h : Represents key objects P) {x y r s : κ} (hx : Reaches (parentOf key objects) x r)
    (hy : Reaches (parentOf key objects) y s) (hne : r ≠ s)
    (hlinked : Linked key objects objects' r s ∨ Linked key objects objects' s r) :
    Represents key objects' (P.join x y) ∧ Keeps key objects P objects' (P.join x y) ∧
      (roots key objects').card + 1 = (roots key objects).card := by
  rcases hlinked with hlinked | hlinked
  · exact ⟨hlinked.represents h hx hy hne, hlinked.keeps h hx hy hne, hlinked.card_roots hx hne⟩
  · have hrep := hlinked.represents h hy hx (Ne.symm hne)
    have hkeeps := hlinked.keeps h hy hx (Ne.symm hne)
    have hmembers : (P.join x y).members = (P.join y x).members := insert_comm x y P.members
    refine ⟨hrep.congr hmembers (P.conn_join_comm x y)
      (h.edges_join (h.reaches_mem hx) (h.reaches_mem hy)),
      ⟨fun huv => huv.join x y, fun hz hsame => hkeeps.2 hz fun u hu => ?_⟩,
      hlinked.card_roots hy (Ne.symm hne)⟩
    exact hsame u ((P.conn_join_comm x y _ u).mpr hu)

end Gloop.DisjointSetForest

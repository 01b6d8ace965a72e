import Mathlib.Data.Fintype.Powerset

/-!
# Forests of parent links and the partitions they stand for

A link leads from an element to its parent, and a root is its own parent. `Reaches` follows the
links to a root; it does not change when a link is moved to the root that it leads to
(`reaches_compress`), and moving the link of a root to another root merges two trees
(`reaches_link`). `Connected` is the partition generated by a list of pairs.
-/

namespace Gloop.Foundation

open Option Finset

open Function (update_self update_of_ne update_eq_self)

variable {κ : Type*}

/-! ## Following links -/

/-- The links lead from an element to a root. -/
inductive Reaches (parent : κ → Option κ) : κ → κ → Prop
  | root {r : κ} : parent r = some r → Reaches parent r r
  | step {x y r : κ} : parent x = some y → y ≠ x → Reaches parent y r → Reaches parent x r

variable {x r : κ} {edges : List (κ × κ)} {parent : κ → Option κ}

section

variable (h : Reaches parent x r)
include h

theorem Reaches.isRoot : parent r = some r := by
  induction h with
  | root h => exact h
  | step _ _ _ ih => exact ih

/-- Paths from one node end at one root. -/
theorem Reaches.unique {s : κ} (h' : Reaches parent x s) : r = s := by
  induction h with
  | root hr =>
    cases h' with
    | root => rfl
    | step hx hne _ => exact absurd (some.inj (hx.symm.trans hr)) hne
  | step hx hne _ ih =>
    cases h' with
    | root hs => exact absurd (some.inj (hx.symm.trans hs)) hne
    | step hx' _ hy => exact ih (some.inj (hx'.symm.trans hx) ▸ hy)

theorem Reaches.eq_of_root (hx : parent x = some x) : r = x :=
  h.unique (.root hx)

/-- A node that reaches a root is in the forest. -/
theorem Reaches.isSome : (parent x).isSome := by
  cases h with
  | root hx => rw [hx]; rfl
  | step hx _ _ => rw [hx]; rfl

end

/-- Links stay within the forest and lead to higher ranks. -/
structure Ranked (parent : κ → Option κ) (rank : κ → Nat) : Prop where
  isSome : ∀ {x y}, parent x = some y → (parent y).isSome
  rank_lt : ∀ {x y}, parent x = some y → y ≠ x → rank x < rank y

/-- Ranks grow along a path. -/
theorem Reaches.rank_lt {rank : κ → Nat} (hranked : Ranked parent rank)
    (h : Reaches parent x r) (hne : x ≠ r) : rank x < rank r := by
  induction h with
  | root => exact absurd rfl hne
  | @step x y r hx hyx hy ih =>
    have hlt := hranked.rank_lt hx hyx
    by_cases hyr : y = r
    · rwa [hyr] at hlt
    · exact lt_trans hlt (ih hyr)

/-- Ranks are bounded, so the links end. -/
theorem Ranked.exists_reaches {rank : κ → Nat} (h : Ranked parent rank)
    {bound : Nat} (hbound : ∀ x, (parent x).isSome → rank x ≤ bound) (hx : (parent x).isSome) :
    ∃ r, Reaches parent x r := by
  -- every link reduces the distance from the bound
  induction hgap : bound - rank x using Nat.strongRecOn generalizing x with
  | ind gap ih =>
    obtain ⟨y, hy⟩ := isSome_iff_exists.mp hx
    by_cases hyx : y = x
    · subst hyx
      exact ⟨y, .root hy⟩
    · have hlt := h.rank_lt hy hyx
      have hle := hbound y (h.isSome hy)
      obtain ⟨r, hr⟩ := ih (bound - rank y) (by omega) (h.isSome hy) rfl
      exact ⟨r, .step hy hyx hr⟩

section Updates

variable [DecidableEq κ] {parent : κ → Option κ}

/-- A link may be set if it leads to a higher rank, and the other links still do. -/
theorem Ranked.update {rank rank' : κ → Nat} (h : Ranked parent rank) {y : κ}
    (hy : y = x ∨ (parent y).isSome) (hlt : y ≠ x → rank' x < rank' y)
    (hother : ∀ {z w}, z ≠ x → parent z = some w → w ≠ z → rank' z < rank' w) :
    Ranked (Function.update parent x (some y)) rank' := by
  have hsome : ∀ {z}, z = x ∨ (parent z).isSome → (Function.update parent x (some y) z).isSome := by
    intro z hz
    by_cases hzx : z = x
    · subst hzx
      rw [update_self]
      rfl
    · rw [update_of_ne hzx]
      exact hz.resolve_left hzx
  constructor
  · intro z w hz
    by_cases hzx : z = x
    · subst hzx
      rw [update_self] at hz
      cases hz
      exact hsome hy
    · rw [update_of_ne hzx] at hz
      exact hsome (Or.inr (h.isSome hz))
  · intro z w hz hwz
    by_cases hzx : z = x
    · subst hzx
      rw [update_self] at hz
      cases hz
      exact hlt hwz
    · rw [update_of_ne hzx] at hz
      exact hother hzx hz hwz

variable {z s : κ}

/-- A link may be moved to the root that it leads to. -/
theorem reaches_compress (h : Reaches parent x r) :
    Reaches (Function.update parent x (some r)) z s ↔ Reaches parent z s := by
  by_cases hxr : x = r
  · subst hxr
    rw [← h.isRoot, update_eq_self]
  constructor
  · intro hz
    induction hz with
    | @root z hz =>
      by_cases hzx : z = x
      · subst hzx
        rw [update_self] at hz
        exact absurd (some.inj hz).symm hxr
      · rw [update_of_ne hzx] at hz
        exact .root hz
    | @step z y s hz hne _ ih =>
      by_cases hzx : z = x
      · -- the only new step leads to a root, where the path ends
        subst hzx
        rw [update_self] at hz
        have hs := ih.eq_of_root (some.inj hz ▸ h.isRoot)
        rwa [hs, ← some.inj hz]
      · rw [update_of_ne hzx] at hz
        exact .step hz hne ih
  · intro hz
    induction hz with
    | @root z hz =>
      have hzx : z ≠ x := by
        rintro rfl
        exact hxr (h.eq_of_root hz).symm
      exact .root (by rwa [update_of_ne hzx])
    | @step z y s hz hne hy ih =>
      by_cases hzx : z = x
      · subst hzx
        have hs : s = r := (Reaches.step hz hne hy).unique h
        subst hs
        refine .step (update_self _ _ _) (Ne.symm hxr) (.root ?_)
        rw [update_of_ne (Ne.symm hxr)]
        exact h.isRoot
      · exact .step (by rwa [update_of_ne hzx]) hne ih

/-- A root that is linked to another root takes its tree there. -/
theorem reaches_link {a b : κ} (ha : parent a = some a) (hb : parent b = some b) (hab : a ≠ b) :
    Reaches (Function.update parent a (some b)) z s ↔
      (Reaches parent z s ∧ s ≠ a) ∨ (Reaches parent z a ∧ s = b) := by
  have hb' : Function.update parent a (some b) b = some b := by
    rwa [update_of_ne (Ne.symm hab)]
  constructor
  · intro hz
    induction hz with
    | @root z hz =>
      have hza : z ≠ a := by
        rintro rfl
        rw [update_self] at hz
        exact hab (some.inj hz).symm
      rw [update_of_ne hza] at hz
      exact Or.inl ⟨.root hz, hza⟩
    | @step z y s hz hne hy ih =>
      by_cases hza : z = a
      · subst hza
        rw [update_self] at hz
        cases some.inj hz
        exact Or.inr ⟨.root ha, hy.eq_of_root hb'⟩
      · rw [update_of_ne hza] at hz
        rcases ih with ⟨hs, hsa⟩ | ⟨hs, hsb⟩
        · exact Or.inl ⟨.step hz hne hs, hsa⟩
        · exact Or.inr ⟨.step hz hne hs, hsb⟩
  · -- proper steps do not start at the root `a`, so the link leaves them
    have hstep : ∀ {z y : κ}, parent z = some y → y ≠ z →
      Function.update parent a (some b) z = some y := by
      intro z y hz hne
      rw [update_of_ne, hz]
      rintro rfl
      exact hne (some.inj (hz.symm.trans ha))
    have hmoved : ∀ {z r : κ}, Reaches parent z r → r = a →
        Reaches (Function.update parent a (some b)) z b := by
      intro z r hz hr
      induction hz with
      | root =>
        subst hr
        exact .step (update_self _ _ _) (Ne.symm hab) (.root hb')
      | step hz hne _ ih => exact .step (hstep hz hne) hne (ih hr)
    rintro (⟨hz, hsa⟩ | ⟨hz, hsb⟩)
    · induction hz with
      | root hz => exact .root (by rwa [update_of_ne hsa])
      | step hz hne _ ih => exact .step (hstep hz hne) hne (ih hsa)
    · rw [hsb]
      exact hmoved hz rfl

/-- A new root is a tree of its own. -/
theorem reaches_insert (hx : parent x = none)
    (hclosed : ∀ {y z}, parent y = some z → (parent z).isSome) :
      Reaches (Function.update parent x (some x)) z s ↔ Reaches parent z s ∨ (z = x ∧ s = x) := by
  have hroot : Function.update parent x (some x) x = some x := update_self _ _ _
  constructor
  · intro hz
    induction hz with
    | @root z hz =>
      by_cases hzx : z = x
      · exact Or.inr ⟨hzx, hzx⟩
      · rw [update_of_ne hzx] at hz
        exact Or.inl (.root hz)
    | @step z y s hz hne _ ih =>
      have hzx : z ≠ x := by
        rintro rfl
        exact hne (some.inj (hz.symm.trans hroot))
      rw [update_of_ne hzx] at hz
      rcases ih with ih | ⟨rfl, -⟩
      · exact Or.inl (.step hz hne ih)
      · have hsome := hclosed hz
        rw [hx] at hsome
        cases hsome
  · have hold : ∀ {z y : κ}, parent z = some y → Function.update parent x (some x) z = some y := by
      intro z y hz
      rw [update_of_ne, hz]
      rintro rfl
      cases hx.symm.trans hz
    rintro (hz | ⟨rfl, rfl⟩)
    · induction hz with
      | root hz => exact .root (hold hz)
      | step hz hne _ ih => exact .step (hold hz) hne ih
    · exact .root hroot

end Updates

/-! ## The partition generated by pairs -/

/-- Two elements are joined by a chain of pairs. -/
def Connected (edges : List (κ × κ)) : κ → κ → Prop :=
  Relation.EqvGen fun a b => (a, b) ∈ edges

theorem Connected.refl (x : κ) : Connected edges x x :=
  Relation.EqvGen.refl x

theorem Connected.symm {y : κ} (h : Connected edges x y) : Connected edges y x :=
  Relation.EqvGen.symm _ _ h

theorem Connected.trans {y z : κ} (h : Connected edges x y) (h' : Connected edges y z) :
    Connected edges x z :=
  Relation.EqvGen.trans _ _ _ h h'

/-- Without edges, everything is on its own. -/
theorem connected_nil {y : κ} : Connected ([] : List (κ × κ)) x y ↔ x = y := by
  constructor
  · intro h
    induction h with
    | rel _ _ h => cases h
    | refl => rfl
    | symm _ _ _ ih => exact ih.symm
    | trans _ _ _ _ _ ih ih' => exact ih.trans ih'
  · rintro rfl
    exact .refl x

/-- A further pair merges two classes. -/
theorem connected_cons {y u v : κ} : Connected ((x, y) :: edges) u v ↔ Connected edges u v ∨
      (Connected edges u x ∧ Connected edges y v) ∨
        (Connected edges u y ∧ Connected edges x v) := by
  have hmono : ∀ {u v}, Connected edges u v → Connected ((x, y) :: edges) u v := by
    intro u v h
    have hle : (fun a b => (a, b) ∈ edges) ≤ fun a b => (a, b) ∈ (x, y) :: edges :=
      fun _ _ he => List.mem_cons_of_mem _ he
    exact Relation.EqvGen.mono hle u v h
  have hpair : Connected ((x, y) :: edges) x y := .rel _ _ List.mem_cons_self
  constructor
  · intro h
    induction h with
    | rel u v h =>
      rcases List.mem_cons.mp h with h | h
      · cases h
        exact Or.inr (Or.inl ⟨.refl x, .refl y⟩)
      · exact Or.inl (.rel u v h)
    | refl u => exact Or.inl (.refl u)
    | symm u v _ ih =>
      rcases ih with h | ⟨h, h'⟩ | ⟨h, h'⟩
      · exact Or.inl h.symm
      · exact Or.inr (Or.inr ⟨h'.symm, h.symm⟩)
      · exact Or.inr (Or.inl ⟨h'.symm, h.symm⟩)
    | trans u v w _ _ ih ih' =>
      -- of two passages over the new edge at most one remains
      rcases ih with h | ⟨h, h'⟩ | ⟨h, h'⟩ <;> rcases ih' with k | ⟨k, k'⟩ | ⟨k, k'⟩
      · exact Or.inl (h.trans k)
      · exact Or.inr (Or.inl ⟨h.trans k, k'⟩)
      · exact Or.inr (Or.inr ⟨h.trans k, k'⟩)
      · exact Or.inr (Or.inl ⟨h, h'.trans k⟩)
      · exact Or.inr (Or.inl ⟨h, k'⟩)
      · exact Or.inl (h.trans k')
      · exact Or.inr (Or.inr ⟨h, h'.trans k⟩)
      · exact Or.inl (h.trans k')
      · exact Or.inr (Or.inr ⟨h, k'⟩)
  · rintro (h | ⟨h, h'⟩ | ⟨h, h'⟩)
    · exact hmono h
    · exact (hmono h).trans (hpair.trans (hmono h'))
    · exact (hmono h).trans (hpair.symm.trans (hmono h'))

/-- Elements of no pair are connected to nothing else. -/
theorem Connected.mem {members : Finset κ} (hedges : ∀ e ∈ edges, e.1 ∈ members ∧ e.2 ∈ members)
    {y : κ} (h : Connected edges x y) : x = y ∨ (x ∈ members ∧ y ∈ members) := by
  induction h with
  | rel x y h => exact Or.inr (hedges _ h)
  | refl x => exact Or.inl rfl
  | symm x y _ ih =>
    rcases ih with h | ⟨hx, hy⟩
    · exact Or.inl h.symm
    · exact Or.inr ⟨hy, hx⟩
  | trans x y z _ _ ih ih' =>
    rcases ih with rfl | ⟨hx, hy⟩
    · exact ih'
    · rcases ih' with rfl | ⟨-, hz⟩
      · exact Or.inr ⟨hx, hy⟩
      · exact Or.inr ⟨hx, hz⟩

section Classes

open Classical

/-- The members connected to an element. -/
noncomputable def classOf (members : Finset κ) (edges : List (κ × κ)) (x : κ) : Finset κ :=
  members.filter (Connected edges x)

/-- The class of an element has the members connected to it. -/
theorem mem_classOf {members : Finset κ} {y : κ} :
    y ∈ classOf members edges x ↔ y ∈ members ∧ Connected edges x y :=
  mem_filter

/-- More members and more edges make larger classes. -/
theorem classOf_subset {members members' : Finset κ} {edges' : List (κ × κ)}
    (hmembers : members ⊆ members') (hconn : ∀ y, Connected edges x y → Connected edges' x y) :
    classOf members edges x ⊆ classOf members' edges' x :=
  fun y hy => mem_classOf.mpr ⟨hmembers (mem_classOf.mp hy).1, hconn y (mem_classOf.mp hy).2⟩

/-- The number of classes. -/
noncomputable def numClasses (members : Finset κ) (edges : List (κ × κ)) : Nat :=
  (members.image (classOf members edges)).card

/-- There are no more classes than members. -/
theorem numClasses_le_card (members : Finset κ) (edges : List (κ × κ)) :
    numClasses members edges ≤ members.card :=
  card_image_le

/-- Classes are counted by elements that meet every class once. -/
theorem numClasses_eq_card {members roots : Finset κ} (hroots : roots ⊆ members)
    (hcover : ∀ x ∈ members, ∃ r ∈ roots, Connected edges x r)
    (hunique : ∀ r ∈ roots, ∀ s ∈ roots, Connected edges r s → r = s) :
    numClasses members edges = roots.card := by
  have hclass : ∀ {x r}, Connected edges x r →
      classOf members edges x = classOf members edges r := by
    intro x r h
    ext y
    rw [mem_classOf, mem_classOf]
    exact and_congr_right fun _ => ⟨h.symm.trans, h.trans⟩
  have himage : members.image (classOf members edges) = roots.image (classOf members edges) := by
    apply Finset.Subset.antisymm
    · intro c hc
      obtain ⟨x, hx, rfl⟩ := mem_image.mp hc
      obtain ⟨r, hr, hxr⟩ := hcover x hx
      exact mem_image.mpr ⟨r, hr, (hclass hxr).symm⟩
    · exact image_subset_image hroots
  rw [numClasses, himage, card_image_of_injOn]
  intro r hr s hs heq
  refine hunique r hr s hs ?_
  have hmem : s ∈ classOf members edges s := mem_classOf.mpr ⟨hroots hs, .refl s⟩
  exact (mem_classOf.mp (heq ▸ hmem)).2

/-- Fewer elements that are connected more often have no more classes. -/
theorem numClasses_le {members members' : Finset κ} {edges' : List (κ × κ)}
    (hmembers : members ⊆ members') (hconn : ∀ {x y}, Connected edges' x y → Connected edges x y) :
    numClasses members edges ≤ numClasses members' edges' := by
  -- What the old class of an element touches is its new class.
  let touched (c : Finset κ) := members.filter fun y => ∃ z ∈ c, Connected edges z y
  have htouched : ∀ x ∈ members, touched (classOf members' edges' x) = classOf members edges x := by
    intro x hx
    ext y
    simp only [touched, classOf, mem_filter, and_congr_right_iff]
    refine fun _ => ⟨fun ⟨z, ⟨_, hxz⟩, hzy⟩ => (hconn hxz).trans hzy, fun hxy => ?_⟩
    exact ⟨x, ⟨hmembers hx, .refl x⟩, hxy⟩
  refine (card_le_card ?_).trans (card_image_le (s := members'.image _) (f := touched))
  intro c hc
  obtain ⟨x, hx, rfl⟩ := mem_image.mp hc
  exact mem_image.mpr ⟨_, mem_image_of_mem _ (hmembers hx), htouched x hx⟩

end Classes

end Gloop.Foundation

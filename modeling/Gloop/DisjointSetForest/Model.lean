import Mathlib.Data.Finmap

/-!
# `DisjointSetForest` of `util/set/disjoint_set_forest.h`

Every element has an entry in a hash map with its parent and a rank. `FindSet` moves the links on
its way to the root, and `Union` links the root of lower rank to the other one. Elements that
`EqualKey` takes for the same have the same `key`. A pointer to an entry is the key of the entry,
since the nodes of the map stay where they are.
-/

namespace Gloop

/-- An entry of the forest. -/
structure ObjectData (α : Type) where
  parent : α
  rank : Nat

/-- The map from elements to their entries. -/
abbrev ObjectMap (α κ : Type) := Finmap fun _ : κ => ObjectData α

structure DisjointSetForest (α κ : Type) where
  objects : ObjectMap α κ
  numDisjointSets : Int
  notfoundValue : α

namespace DisjointSetForest

variable {α κ : Type} [DecidableEq κ] (key : α → κ)

def new (notfoundValue : α) : DisjointSetForest α κ :=
  ⟨∅, 0, notfoundValue⟩

variable (forest : DisjointSetForest α κ)

def clear : DisjointSetForest α κ :=
  { forest with objects := ∅, numDisjointSets := 0 }

/-- The increment of an `int`, which must not overflow. -/
def increment (n : Int) : Option Int :=
  if n < 2 ^ 31 - 1 then some (n + 1) else none

/-- Go up to the root, with at most the given number of nested calls, and move all links on the way
there. -/
def internalFindSetWithin (objects : ObjectMap α κ) : Nat → κ → Option (κ × ObjectMap α κ)
  | 0, _ => none
  | calls + 1, x => do
    let data ← objects.lookup x
    if key data.parent ≠ x then
      let (repr, objects) ← internalFindSetWithin objects calls (key data.parent)
      let reprData ← objects.lookup repr
      return (repr, objects.insert x ⟨reprData.parent, data.rank⟩)
    else
      return (x, objects)

/-- Go up to the root and move all links on the way there. A search that visits more entries than
there are goes round in circles, and the source does not return from it. -/
def internalFindSet (objects : ObjectMap α κ) (x : κ) : Option (κ × ObjectMap α κ) :=
  internalFindSetWithin key objects objects.keys.card x

def findSet (x : α) : Option (α × DisjointSetForest α κ) :=
  match forest.objects.lookup (key x) with
  | none => some (forest.notfoundValue, forest)
  | some _ => do
    let (repr, objects) ← internalFindSet key forest.objects (key x)
    let reprData ← objects.lookup repr
    return (reprData.parent, { forest with objects := objects })

def isSingleton (x : α) : Bool :=
  match forest.objects.lookup (key x) with
  | none => true
  | some data => key data.parent = key x ∧ data.rank = 0

def makeSet (x : α) : Option (Bool × DisjointSetForest α κ) :=
  if key x ∈ forest.objects then some (false, forest)
  else do
    let n ← increment forest.numDisjointSets
    let objects := forest.objects.insert (key x) ⟨x, 0⟩
    return (true, { forest with objects := objects, numDisjointSets := n })

/-- The root of lower rank gets the other root as its parent. -/
def link (objects : ObjectMap α κ) (xRepr yRepr : κ) : Option (ObjectMap α κ) := do
  let xData ← objects.lookup xRepr
  let yData ← objects.lookup yRepr
  if xData.rank < yData.rank then
    return objects.insert xRepr ⟨yData.parent, xData.rank⟩
  else
    let objects := objects.insert yRepr ⟨xData.parent, yData.rank⟩
    if xData.rank = yData.rank then
      return objects.insert xRepr ⟨xData.parent, xData.rank + 1⟩
    else
      return objects

/-- Merge the sets of `x`, which has an entry, and `y`. -/
def unionHelper (x : κ) (y : α) : Option (Bool × DisjointSetForest α κ) := do
  let (_, forest) ← forest.makeSet key y
  let (xRepr, objects) ← internalFindSet key forest.objects x
  let (yRepr, objects) ← internalFindSet key objects (key y)
  let xData ← objects.lookup xRepr
  let yData ← objects.lookup yRepr
  if key xData.parent ≠ key yData.parent then
    let objects ← link objects xRepr yRepr
    return (true, { forest with objects := objects, numDisjointSets := forest.numDisjointSets - 1 })
  else
    return (false, { forest with objects := objects })

def union (x y : α) : Option (Bool × DisjointSetForest α κ) := do
  let (_, forest) ← forest.makeSet key x
  forest.unionHelper key (key x) y

/-- A round of the loop of `UnionManyIterator`. Elements with one parent need no `Union`. -/
def unionNext (begin : α) (forest : DisjointSetForest α κ) (next : α) :
    Option (DisjointSetForest α κ) := do
  let beginData ← forest.objects.lookup (key begin)
  match forest.objects.lookup (key next) with
  | none => (forest.unionHelper key (key begin) next).map Prod.snd
  | some nextData =>
    if key beginData.parent ≠ key nextData.parent then
      (forest.unionHelper key (key begin) next).map Prod.snd
    else
      some forest

def unionMany : List α → Option (DisjointSetForest α κ)
  | [] => some forest
  | begin :: rest => do
    let (_, forest) ← forest.makeSet key begin
    rest.foldlM (unionNext key begin) forest

end DisjointSetForest

end Gloop

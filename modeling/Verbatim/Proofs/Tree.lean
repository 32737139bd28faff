import Verbatim.Item.Walk

/-!
# Induction over trees

A tree nests items in lists of items and in lists of entries. Its traversals are written with one helper for each kind of
list; here each helper is a `map`, a `flatMap` or a sum, so that proofs need the cases of an item only.
-/

namespace Verbatim

open List

/-! ## Helpers on lists -/

section Lists

variable {α β : Type}

/-- A helper that changes one member after the other is a `map`. -/
theorem eq_map_of_cons {h : List α → List β} {f : α → β} (nil : h [] = []) (cons : ∀ x xs, h (x :: xs) = f x :: h xs)
    (xs : List α) : h xs = xs.map f := by
  induction xs with
  | nil => exact nil
  | cons x xs ih => rw [cons, ih, map_cons]

/-- A helper that collects from one member after the other is a `flatMap`. -/
theorem eq_flatMap_of_cons {h : List α → List β} {f : α → List β} (nil : h [] = [])
    (cons : ∀ x xs, h (x :: xs) = f x ++ h xs) (xs : List α) : h xs = xs.flatMap f := by
  induction xs with
  | nil => exact nil
  | cons x xs ih => rw [cons, ih, flatMap_cons]

end Lists

namespace Item

variable {P : Item → Prop} {x : Item}

/-! ## The induction principle -/

/-- A property that every item inherits from its members holds of all items. -/
@[elab_as_elim]
theorem inductionOn (x : Item) (scalar : ∀ i s, P (.scalar i s)) (array : ∀ i f vs, (∀ v ∈ vs, P v) → P (.array i f vs))
    (inlineTable : ∀ i f es, (∀ e ∈ es, P e.item) → P (.inlineTable i f es))
    (table : ∀ i f es, (∀ e ∈ es, P e.item) → P (.table i f es))
    (arrayOfTables : ∀ i ts, (∀ t ∈ ts, P t) → P (.arrayOfTables i ts)) : P x := by
  -- the motives of the nested lists say that all their members have the property
  refine @Item.rec P (fun vs => ∀ v ∈ vs, P v) (fun es => ∀ e ∈ es, P e.item) (fun e => P e.item)
    scalar array inlineTable table arrayOfTables ?_ ?_ ?_ ?_ ?_ x
  · intro v hv
    cases hv
  · intro v vs hv hvs w hw
    rcases mem_cons.mp hw with rfl | hw
    · exact hv
    · exact hvs w hw
  · intro e he
    cases he
  · intro e es he hes d hd
    rcases mem_cons.mp hd with rfl | hd
    · exact he
    · exact hes d hd
  · intro k x p n l hx
    exact hx

/-! ## Helpers of traversals -/

@[simp] theorem unwrapEach_eq (vs : List Item) : unwrapEach vs = vs.map unwrap := eq_map_of_cons rfl (fun _ _ => rfl) vs

@[simp] theorem unwrapFields_eq (es : List (Entry Item)) :
    unwrapFields es = es.map fun e => (e.name, e.item.unwrap) := eq_map_of_cons rfl (fun _ _ => rfl) es

@[simp] theorem freezeEach_eq (b : Bool) (vs : List Item) : freezeEach b vs = vs.map (freeze b) :=
  eq_map_of_cons rfl (fun _ _ => rfl) vs

@[simp] theorem freezeEntries_eq (b : Bool) (es : List (Entry Item)) :
    freezeEntries b es = es.map fun e => { e with item := e.item.freeze b } := eq_map_of_cons rfl (fun _ _ => rfl) es

@[simp] theorem copiedEach_eq (vs : List Item) : copiedEach vs = vs.map copied := eq_map_of_cons rfl (fun _ _ => rfl) vs

@[simp] theorem copiedEntries_eq (es : List (Entry Item)) :
    copiedEntries es = es.map fun e => { e with item := e.item.copied } := eq_map_of_cons rfl (fun _ _ => rfl) es

@[simp] theorem detachEach_eq (source : List Char) (vs : List Item) :
    detachEach source vs = vs.map (detach source) := eq_map_of_cons rfl (fun _ _ => rfl) vs

/-- An entry with all its references resolved. -/
def detachEntry (source : List Char) (e : Entry Item) : Entry Item :=
  ⟨e.key.detach source, e.item.detach source, e.dottedPath.map fun ks => ks.map (Key.detach source), e.position, e.newline⟩

@[simp] theorem detachEntries_eq (source : List Char) (es : List (Entry Item)) :
    detachEntries source es = es.map (detachEntry source) := eq_map_of_cons rfl (fun _ _ => rfl) es

@[simp] theorem visitsEach_eq (vs : List Item) : visitsEach vs = vs.flatMap visits := eq_flatMap_of_cons rfl (fun _ _ => rfl) vs

/-- The visits of an entry: the keys as written, then the item. -/
def entryVisits (e : Entry Item) : List Visit :=
  .entry e.name :: (keyVisits (e.dottedPath.getD []) ++ e.key.visits ++ e.item.visits)

@[simp] theorem visitsEntries_eq (es : List (Entry Item)) : visitsEntries es = es.flatMap entryVisits := by
  induction es with
  | nil => rfl
  | cons e es ih =>
    simp only [visitsEntries, ih, flatMap_cons, entryVisits, Entry.name, cons_append, append_assoc]

/-! ## Items below an item -/

def children : Item → List Item
  | .scalar .. => []
  | .array _ _ vs => vs
  | .inlineTable _ _ es => es.map Entry.item
  | .table _ _ es => es.map Entry.item
  | .arrayOfTables _ ts => ts

/-- An item stands within another one: it is that item, or it stands within a member of it. -/
inductive Within (y : Item) : Item → Prop where
  | self : Within y y
  | child {x z : Item} (h : z ∈ x.children) (hy : Within y z) : Within y x

theorem Within.trans (hz : Within z y) (hy : Within y x) : Within z x := by
  induction hy with
  | self => exact hz
  | child hmem _ ih => exact .child hmem ih

theorem within_iff : Within y x ↔ y = x ∨ ∃ z ∈ x.children, Within y z := by
  constructor
  · intro h
    cases h with
    | self => exact .inl rfl
    | child hz hy => exact .inr ⟨_, hz, hy⟩
  · rintro (rfl | ⟨z, hz, hy⟩)
    · exact .self
    · exact .child hz hy

theorem forall_within_iff : (∀ y, Within y x → P y) ↔ P x ∧ ∀ z ∈ x.children, ∀ y, Within y z → P y := by
  constructor
  · exact fun h => ⟨h x .self, fun z hz y hy => h y (.child hz hy)⟩
  · rintro ⟨hself, hmembers⟩ y hy
    rcases within_iff.mp hy with rfl | ⟨z, hz, hy⟩
    · exact hself
    · exact hmembers z hz y hy

/-- A property that every item inherits from its members, whatever kind it is of, holds of all items. -/
theorem childInduction (step : ∀ x, (∀ z ∈ x.children, P z) → P x) (x : Item) : P x := by
  refine inductionOn x (fun i s => step _ (by simp [children])) (fun i f vs ih => step _ ih) ?_ ?_ (fun i ts ih => step _ ih)
  · intro i f es ih
    exact step _ fun z hz => by
      obtain ⟨e, he, rfl⟩ := mem_map.mp hz
      exact ih e he
  · intro i f es ih
    exact step _ fun z hz => by
      obtain ⟨e, he, rfl⟩ := mem_map.mp hz
      exact ih e he

/-! ## Folding a tree -/

mutual

/-- What is collected from a tree, from its members up: `place` is what comes from an entry with its place, and `f` says what
becomes of what the members of an item have together. -/
def fold {α : Type} (place : Option Int → Item → List α) (f : Item → List α → List α) : Item → List α
  | .scalar i s => f (.scalar i s) []
  | .array i g vs => f (.array i g vs) (foldEach place f vs)
  | .inlineTable i g es => f (.inlineTable i g es) (foldEntries place f es)
  | .table i g es => f (.table i g es) (foldEntries place f es)
  | .arrayOfTables i ts => f (.arrayOfTables i ts) (foldEach place f ts)

def foldEach {α : Type} (place : Option Int → Item → List α) (f : Item → List α → List α) : List Item → List α
  | [] => []
  | x :: xs => fold place f x ++ foldEach place f xs

def foldEntries {α : Type} (place : Option Int → Item → List α) (f : Item → List α → List α) : List (Entry Item) → List α
  | [] => []
  | ⟨_, x, _, n, _⟩ :: es => place n x ++ fold place f x ++ foldEntries place f es

end

section Fold

variable {α : Type} (place : Option Int → Item → List α) (f : Item → List α → List α)

theorem foldEach_eq (xs : List Item) : foldEach place f xs = xs.flatMap (fold place f) :=
  eq_flatMap_of_cons rfl (fun _ _ => rfl) xs

theorem foldEntries_eq (es : List (Entry Item)) :
    foldEntries place f es = es.flatMap fun e => place e.position e.item ++ e.item.fold place f :=
  eq_flatMap_of_cons rfl (fun _ _ => rfl) es

/-- What is collected from an item, if the places of entries do not count. -/
theorem fold_eq (x : Item) :
    x.fold (fun _ _ => []) f = f x (x.children.flatMap (fold (fun _ _ => []) f)) := by
  cases x with
  | scalar i s => rfl
  | inlineTable i g es => rw [fold, foldEntries_eq, children, flatMap_map]; rfl
  | table i g es => rw [fold, foldEntries_eq, children, flatMap_map]; rfl
  | _ => rw [fold, foldEach_eq]; rfl

/-- The text around an item does not count. -/
theorem fold_withDecor {f : Item → List α → List α} {d : Decor} (h : f (x.withDecor d) = f x) :
    (x.withDecor d).fold place f = x.fold place f := by
  cases x <;> exact congrFun h _

end Fold

def mapMembers (g : Item → Item) : Item → Item
  | .scalar i s => .scalar i s
  | .array i f vs => .array i f (vs.map g)
  | .inlineTable i f es => .inlineTable i f (es.map fun e => { e with item := g e.item })
  | .table i f es => .table i f (es.map fun e => { e with item := g e.item })
  | .arrayOfTables i ts => .arrayOfTables i (ts.map g)

@[simp] theorem children_mapMembers (g : Item → Item) (x : Item) : (x.mapMembers g).children = x.children.map g := by
  cases x <;> simp [mapMembers, children]

@[simp] theorem info_mapMembers (g : Item → Item) (x : Item) : (x.mapMembers g).info = x.info := by
  cases x <;> rfl

@[simp] theorem mapMembers_id (x : Item) : x.mapMembers id = x := by
  cases x <;> simp [mapMembers]

theorem mapMembers_mapMembers (g h : Item → Item) (x : Item) : (x.mapMembers g).mapMembers h = x.mapMembers (h ∘ g) := by
  cases x <;> simp [mapMembers]

theorem mapMembers_congr (h : ∀ z ∈ x.children, g z = g' z) : x.mapMembers g = x.mapMembers g' := by
  have hentries : ∀ es : List (Entry Item), (∀ e ∈ es, g e.item = g' e.item) →
      (es.map fun e => { e with item := g e.item }) = es.map fun e => { e with item := g' e.item } :=
    fun es hes => map_congr_left fun e he => by rw [hes e he]
  cases x with
  | scalar i s => rfl
  | inlineTable i f es => exact congrArg _ (hentries es fun e he => h _ (mem_map_of_mem he))
  | table i f es => exact congrArg _ (hentries es fun e he => h _ (mem_map_of_mem he))
  | _ => exact congrArg _ (map_congr_left h)

/-- An item with other members, one for each of its own. -/
def withMembers : Item → List Item → Item
  | .scalar i s, _ => .scalar i s
  | .array i f _, xs => .array i f xs
  | .inlineTable i f es, xs => .inlineTable i f (es.zipWith (fun e x => { e with item := x }) xs)
  | .table i f es, xs => .table i f (es.zipWith (fun e x => { e with item := x }) xs)
  | .arrayOfTables i _, xs => .arrayOfTables i xs

theorem mapMembers_eq (g : Item → Item) (x : Item) : x.mapMembers g = x.withMembers (x.children.map g) := by
  cases x <;> simp [mapMembers, withMembers, children, zipWith_map_right, zipWith_self]

end Verbatim.Item

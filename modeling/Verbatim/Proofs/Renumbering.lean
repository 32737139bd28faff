import Mathlib.Data.List.Forall2
import Verbatim.Proofs.Rereading

/-!
# Trees that are written alike

A number decides where a table is written, but it is not written itself. So other numbers make no difference as long as any
two tables with lines come in the same order. Nor does it matter whether a table with entry lines counts as implied.
-/

namespace Verbatim

open List Render Item

/-! ## Numberings -/

namespace Render

section Order

variable {α : Type}

/-- Of the elements that count, the order by numbers does not change with the numbers if any two of them stay in order. -/
theorem filter_mergeSort_congr {p q : α → Int} {keep : α → Bool} {xs : List α}
    (h : xs.Pairwise fun a b => keep a = true → keep b = true → (p a ≤ p b ↔ q a ≤ q b)) :
    (xs.mergeSort fun a b => p a ≤ p b).filter keep = (xs.mergeSort fun a b => q a ≤ q b).filter keep := by
  induction xs with
  | nil => simp
  | cons a xs ih =>
    obtain ⟨ha, hxs⟩ := pairwise_cons.mp h
    obtain ⟨hp, hp'⟩ := mergeSort_cons_eq p a xs
    obtain ⟨hq, hq'⟩ := mergeSort_cons_eq q a xs
    have hrest := ih hxs
    rw [hp', hq', filter_append, filter_append, filter_cons, filter_cons]
    cases hkeep : keep a with
    | false =>
      rw [if_neg (by decide), if_neg (by decide), ← filter_append, ← filter_append, ← hp, ← hq]
      exact hrest
    | true =>
      -- of what counts, the same elements are less than `a`
      have hpart : ∀ s s' : α → Bool, (∀ b ∈ (xs.mergeSort fun a b => q a ≤ q b).filter keep, s b = s' b) →
          ((xs.mergeSort fun a b => p a ≤ p b).filter s).filter keep =
            ((xs.mergeSort fun a b => q a ≤ q b).filter s').filter keep := by
        intro s s' hs
        rw [filter_comm, hrest, filter_congr hs, filter_comm]
      have hless : ∀ b ∈ (xs.mergeSort fun a b => q a ≤ q b).filter keep, decide (p a ≤ p b) = decide (q a ≤ q b) := by
        intro b hb
        obtain ⟨hb, hkeepb⟩ := mem_filter.mp hb
        exact decide_eq_decide.mpr (ha b (mem_mergeSort.mp hb) hkeep hkeepb)
      rw [if_pos rfl, if_pos rfl, hpart _ _ hless, hpart _ _ fun b hb => congrArg not (hless b hb)]

/-- Parts with the same lines come in the same order if any two parts with lines do. -/
theorem flatMap_byPosition_congr {β : Type} {f : α → List β} {xs ys : List (Int × α)}
    (hlines : xs.map (fun x => f x.2) = ys.map fun y => f y.2)
    (horder : (xs.zip ys).Pairwise fun a b => f a.2.2 ≠ [] → f b.2.2 ≠ [] → (a.1.1 ≤ b.1.1 ↔ a.2.1 ≤ b.2.1)) :
    (byPosition xs).flatMap f = (byPosition ys).flatMap f := by
  have hlength : xs.length = ys.length := by simpa using congrArg List.length hlines
  have hzip : ∀ z ∈ xs.zip ys, f z.1.2 = f z.2.2 := by
    have hmaps : Forall₂ Eq (xs.map fun x => f x.2) (ys.map fun y => f y.2) := by
      rw [hlines]
      exact forall₂_same.mpr fun _ _ => rfl
    have hforall := forall₂_map_right_iff.mp (forall₂_map_left_iff.mp hmaps)
    exact fun z hz => (forall₂_iff_zip.mp hforall).2 hz
  -- both orders are orders of the pairs
  have hpairs : ∀ (pick : (Int × α) × (Int × α) → Int × α), (∀ z ∈ xs.zip ys, f (pick z).2 = f z.2.2) →
      (byPosition ((xs.zip ys).map pick)).flatMap f =
        (((xs.zip ys).mergeSort fun a b => (pick a).1 ≤ (pick b).1).filter fun z => !(f z.2.2).isEmpty).flatMap
          fun z => f z.2.2 := by
    intro pick hpick
    have hsort : ((xs.zip ys).map pick).mergeSort (fun a b => a.1 ≤ b.1) =
        ((xs.zip ys).mergeSort fun a b => (pick a).1 ≤ (pick b).1).map pick :=
      (map_mergeSort (f := pick) (s := fun a b => a.1 ≤ b.1) fun _ _ _ _ => rfl).symm
    have hempty : ∀ zs : List ((Int × α) × (Int × α)),
        (zs.filter fun z => !(f z.2.2).isEmpty).flatMap (fun z => f z.2.2) = zs.flatMap fun z => f z.2.2 := by
      intro zs
      rw [flatMap_def, flatMap_def, ← flatten_filter_not_isEmpty (L := zs.map _), filter_map]
      rfl
    rw [byPosition, hsort, map_map, flatMap_map, hempty]
    exact flatMap_congr fun z hz => hpick z (mem_mergeSort.mp hz)
  have hxs := hpairs Prod.fst hzip
  have hys := hpairs Prod.snd fun _ _ => rfl
  rw [map_fst_zip (Nat.le_of_eq hlength)] at hxs
  rw [map_snd_zip (Nat.le_of_eq hlength.symm)] at hys
  rw [hxs, hys]
  refine congrArg (List.flatMap _) (filter_mergeSort_congr (horder.imp fun {a b} h ha hb => h ?_ ?_))
  · simpa using ha
  · simpa using hb

end Order

end Render

/-! ## Trees without numbers -/

/-- The form of a table without its number. -/
def TableForm.unplaced (f : TableForm) (es : List (Entry Item)) : TableForm :=
  { f with position := none, implicit := f.implicit && !es.any hasBodyLine }

namespace Item

mutual

/-- A tree without the numbers of its tables. -/
def unplaced : Item → Item
  | .table i f es => .table i (f.unplaced es) (unplacedEntries es)
  | .inlineTable i f es => .inlineTable i f (unplacedEntries es)
  | .arrayOfTables i ts => .arrayOfTables i (unplacedEach ts)
  | .scalar i s => .scalar i s
  | .array i f vs => .array i f vs

def unplacedEach : List Item → List Item
  | [] => []
  | x :: xs => unplaced x :: unplacedEach xs

def unplacedEntries : List (Entry Item) → List (Entry Item)
  | [] => []
  | ⟨k, x, p, n, l⟩ :: es => ⟨k, unplaced x, p, n, l⟩ :: unplacedEntries es

end

/-- An entry without the numbers of tables. -/
def unplacedEntry (e : Entry Item) : Entry Item := { e with item := e.item.unplaced }

@[simp] theorem unplacedEach_eq (xs : List Item) : unplacedEach xs = xs.map unplaced := eq_map_of_cons rfl (fun _ _ => rfl) xs

@[simp] theorem unplacedEntries_eq (es : List (Entry Item)) : unplacedEntries es = es.map unplacedEntry :=
  eq_map_of_cons rfl (fun _ _ => rfl) es

@[simp] theorem isValue_unplaced (x : Item) : x.unplaced.isValue = x.isValue := by
  cases x <;> rfl

@[simp] theorem isTable_unplaced (x : Item) : x.unplaced.isTable = x.isTable := by
  cases x <;> rfl

@[simp] theorem isDotted_unplaced (x : Item) : x.unplaced.isDotted = x.isDotted := by
  cases x <;> rfl

theorem entries_unplaced (x : Item) : x.unplaced.entries = x.entries.map unplacedEntry := by
  cases x <;> simp [unplaced, entries]

/-- The forms of tables are no data. -/
@[simp] theorem unwrap_unplaced (x : Item) : x.unplaced.unwrap = x.unwrap := by
  induction x using inductionOn with
  | scalar i s => rfl
  | array i f vs ih => rfl
  | arrayOfTables i ts ih => simpa [unplaced, unwrap] using ih
  | _ => simpa [unplaced, unwrap, unplacedEntry, Entry.name] using ‹∀ e ∈ _, _›

end Item

namespace Render

open Item

variable {source : Option (List Char)}

/-! ## Lines -/

private theorem bodyIn_unplaced (path : List Key) (es : List (Entry Item)) :
    bodyIn path (es.map unplacedEntry) = (bodyIn path es).map (Prod.map id unplacedEntry) := by
  induction es using entriesInduction generalizing path with
  | step es below =>
    rw [bodyIn_eq, bodyIn_eq, flatMap_map, map_flatMap]
    refine flatMap_congr fun e he => ?_
    simp only [entryBody, unplacedEntry, isDotted_unplaced, isValue_unplaced, entries_unplaced, below e he]
    split
    · rfl
    · split <;> rfl

private theorem bodyLines_unplaced
    (h : ∀ l ∈ bodyIn [] es, valueRepr source l.2.item.unplaced = valueRepr source l.2.item) :
    (bodyLines source [] 0 (es.map unplacedEntry)).1 = (bodyLines source [] 0 es).1 := by
  have hdecor : ∀ x : Item, x.unplaced.decor? = x.decor? := fun x => by cases x <;> rfl
  rw [bodyLines_eq, bodyLines_eq, bodyIn_unplaced, numbered_map _ fun _ => rfl]
  simp only [map_map]
  refine map_congr_left fun l hl => congrArg (Prod.mk _) ?_
  simp only [valueLine, unplacedEntry, Prod.map, hdecor, h _ (mem_numbered hl).1, id_eq]

private theorem valueRepr_unplaced (x : Item) : valueRepr source x.unplaced = valueRepr source x := by
  induction x using valueInduction with
  | inlineTable i f es ih => simp only [unplaced, valueRepr, unplacedEntries_eq, bodyLines_unplaced ih]
  | _ => rfl

/-- What is written of a table. -/
def Section.view (source : Option (List Char)) (s : Section) : List ((Layout → Bool → Rendered) × Option String) :=
  (sectionLines source s).map (WrittenLine.view source)

/-! ## Tables -/

/-- A table of a tree without numbers. -/
def Section.unplaced (s : Section) : Section :=
  { s with form := s.form.unplaced s.entries, entries := s.entries.map unplacedEntry }

theorem any_hasBodyLine_unplaced (es : List (Entry Item)) : (es.map unplacedEntry).any hasBodyLine = es.any hasBodyLine := by
  rw [any_map]
  congr
  funext e
  simp only [Function.comp_def, hasBodyLine, unplacedEntry, isValue_unplaced, isTable_unplaced, isDotted_unplaced]

theorem Section.view_unplaced (s : Section) : s.unplaced.view source = s.view source := by
  have hbody : (bodyLines source [] 0 s.unplaced.entries).1 = (bodyLines source [] 0 s.entries).1 :=
    bodyLines_unplaced fun l _ => valueRepr_unplaced l.2.item
  have hheader : s.unplaced.hasHeader = s.hasHeader := by
    rw [Section.hasHeader, Section.hasHeader, Section.unplaced, any_hasBodyLine_unplaced]
    cases hany : s.entries.any hasBodyLine <;> simp [TableForm.unplaced, hany]
  have hview : (WrittenLine.header s.unplaced).view source = (WrittenLine.header s).view source := rfl
  have hroot : s.unplaced.isRoot = s.isRoot := rfl
  simp only [Section.view, sectionLines, hbody, hheader, hroot]
  split
  · rfl
  · split
    · rw [map_cons, map_cons, hview]
    · rfl

theorem sectionsIn_unplaced (x : Item) (path : List Key) (isArray isRoot : Bool) :
    sectionsIn path isArray isRoot x.unplaced = (sectionsIn path isArray isRoot x).map Section.unplaced := by
  induction x using inductionOn generalizing path isArray isRoot with
  | table i f es ih =>
    simp only [unplaced, sectionsIn, sectionsBelow_eq, unplacedEntries_eq, flatMap_map, map_cons, map_flatMap,
      Section.unplaced]
    exact congrArg _ (flatMap_congr fun e he => ih e he _ _ _)
  | arrayOfTables i ts ih =>
    simp only [unplaced, sectionsIn, sectionsEach_eq, unplacedEach_eq, flatMap_map, map_flatMap]
    exact flatMap_congr fun t ht => ih t ht _ _ _
  | _ => rfl

end Render

/-- Trees that differ in the numbers of their tables only are written alike if any two tables with lines come in one order. -/
theorem Render.renderTree_of_unplaced (h : x.unplaced = y.unplaced) (horder : ((sections [] false true 0 x).1.zip (sections []
      false true 0 y).1).Pairwise fun a b => a.2.2.view source ≠ [] → b.2.2.view source ≠ [] → (a.1.1 ≤ b.1.1 ↔ a.2.1 ≤
      b.2.1)) (layout : Layout) (trailing : Option SpanText) :
    renderTree layout source x trailing = renderTree layout source y trailing := by
  have hviews : ∀ z : Item, (sections [] false true 0 z).1.map (fun t => t.2.view source) =
      (sections [] false true 0 z.unplaced).1.map fun t => t.2.view source := by
    intro z
    rw [sections_eq, sections_eq, map_numbered (Section.view source), map_numbered (Section.view source), sectionsIn_unplaced,
      map_map]
    exact map_congr_left fun t _ => (Section.view_unplaced t).symm
  have hlines : (sections [] false true 0 x).1.map (fun t => t.2.view source) =
      (sections [] false true 0 y).1.map fun t => t.2.view source := by
    rw [hviews x, hviews y, h]
  have hwritten : (writtenLines source x).map (WrittenLine.view source) =
      (writtenLines source y).map (WrittenLine.view source) := by
    rw [writtenLines, writtenLines, map_flatMap, map_flatMap]
    exact flatMap_byPosition_congr hlines horder
  simp only [renderTree, linesText_congr hwritten]

/-- A tree that can be read back is written like one with other numbers, if any two headers come in one order. -/
theorem Rereadable.renderTree_eq (h : Rereadable source limit es')
    (hes : es.map unplacedEntry = es'.map unplacedEntry)
    (hfirst : ∀ z ∈ (entrySections [] 0 es).1.zip (entrySections [] 0 es').1, z.2.2.hasHeader = true → 0 ≤ z.1.1) (horder :
      ((entrySections [] 0 es).1.zip (entrySections [] 0 es').1).Pairwise fun a b => a.2.2.hasHeader = true → b.2.2.hasHeader
      = true → (a.1.1 ≤ b.1.1 ↔ a.2.1 ≤ b.2.1)) (i : Info) (hf : f.position = some 0) (layout : Layout)
    (trailing : Option SpanText) :
    renderTree layout source (.table i f es) trailing = renderTree layout source (.table i f es') trailing := by
  have hheader : ∀ t ∈ (entrySections [] 0 es').1, t.2.view source ≠ [] → t.2.hasHeader = true := by
    intro t ht hview
    rw [Render.Section.view, sectionLines, (h.stands 0 t ht).notRoot] at hview
    simpa using hview
  have hmem : ∀ z ∈ (entrySections [] 0 es).1.zip (entrySections [] 0 es').1,
      z.2 ∈ (entrySections [] 0 es').1 := fun z hz => (of_mem_zip hz).2
  refine renderTree_of_unplaced ?_ ?_ layout trailing
  · simp only [unplaced, unplacedEntries_eq, hes, TableForm.unplaced, ← any_hasBodyLine_unplaced es]
    rw [any_hasBodyLine_unplaced]
  · rw [sections_table, sections_table, hf, Option.getD_some, zip_cons_cons, pairwise_cons]
    refine ⟨fun z hz _ hview => ?_, horder.imp_of_mem fun {a b} ha hb hab hva hvb =>
      hab (hheader _ (hmem a ha) hva) (hheader _ (hmem b hb) hvb)⟩
    -- the root comes first in both orders
    have hz' := hheader _ (hmem z hz) hview
    have htime : z.2.1 ∈ timesIn es' := h.times_eq 0 ▸ mem_map_of_mem (mem_filter.mpr ⟨hmem z hz, hz'⟩)
    exact iff_of_true (hfirst z hz hz') (Int.le_of_lt (h.positive _ htime))

end Verbatim

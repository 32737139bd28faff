import Mathlib.Data.List.Perm.Basic
import Verbatim.Document
import Verbatim.Proofs.Tree

/-!
# The parts of a written tree

The lines of a table and the tables of a tree are lists that are numbered one after the other, where what has no number of its
own takes the one met last. Numbers decide the order of writing.
-/

namespace Verbatim

open List Item

variable {α : Type} {e : Entry Item}

namespace Render

/-! ## Joining -/

@[simp] theorem join_ok (s t : String) : join (.ok s) (.ok t) = .ok (s ++ t) := rfl

theorem join_assoc (a b c : Rendered) : join (join a b) c = join a (join b c) := by
  cases a with
  | error e => rfl
  | ok s =>
    cases b with
    | error e => rfl
    | ok t =>
      cases c with
      | error e => rfl
      | ok u => simp only [join_ok, String.append_assoc]

@[simp] theorem join_empty (a : Rendered) : join (.ok "") a = a := by
  cases a with
  | error e => rfl
  | ok s => simp only [join_ok, String.empty_append]

theorem joinAll_append (as bs : List Rendered) : joinAll (as ++ bs) = join (joinAll as) (joinAll bs) := by
  induction as with
  | nil => exact (join_empty _).symm
  | cons a as ih => simp only [cons_append, joinAll, ih, join_assoc]

/-! ## Ordering -/

theorem map_byPosition (f : α → β) (xs : List (Int × α)) : (byPosition xs).map f = byPosition (xs.map (Prod.map id f)) := by
  have hsort := map_mergeSort (r := fun a b => decide (a.1 ≤ b.1)) (s := fun a b => decide (a.1 ≤ b.1))
    (f := Prod.map id f) (l := xs) fun _ _ _ _ => rfl
  simp only [byPosition, ← hsort, map_map]
  rfl

theorem perm_byPosition (xs : List (Int × α)) : (byPosition xs).Perm (xs.map Prod.snd) :=
  (mergeSort_perm xs _).map Prod.snd

theorem pairwise_mergeSort_position (xs : List (Int × α)) :
    (xs.mergeSort fun a b => a.1 ≤ b.1).Pairwise fun a b => a.1 ≤ b.1 := by
  have hsorted : (xs.mergeSort fun a b => a.1 ≤ b.1).Pairwise fun a b => decide (a.1 ≤ b.1) = true := by
    apply pairwise_mergeSort
    · intro a b c hab hbc
      simp only [decide_eq_true_eq] at *
      omega
    · intro a b
      simp only [Bool.or_eq_true, decide_eq_true_eq]
      omega
  exact hsorted.imp fun h => by simpa using h

/-- An element comes before those that are not less than it and were behind it. -/
theorem mergeSort_cons_eq (r : α → Int) (a : α) (xs : List α) :
    ((xs.mergeSort fun a b => r a ≤ r b) = ((xs.mergeSort fun a b => r a ≤ r b).filter fun b => !decide (r a ≤ r b)) ++
      (xs.mergeSort fun a b => r a ≤ r b).filter fun b => r a ≤ r b) ∧
    ((a :: xs).mergeSort fun a b => r a ≤ r b) = ((xs.mergeSort fun a b => r a ≤ r b).filter fun b => !decide (r a ≤ r b)) ++
      a :: (xs.mergeSort fun a b => r a ≤ r b).filter fun b => r a ≤ r b := by
  have htrans : ∀ a b c : α, decide (r a ≤ r b) = true → decide (r b ≤ r c) = true → decide (r a ≤ r c) = true := by
    simpa using fun a b c hab hbc => Int.le_trans hab hbc
  have htotal : ∀ a b : α, (decide (r a ≤ r b) || decide (r b ≤ r a)) = true := by
    simpa using fun a b => Int.le_total (r a) (r b)
  obtain ⟨l₁, l₂, hcons, htail, hl₁⟩ := mergeSort_cons htrans htotal a xs
  have hsorted := pairwise_mergeSort htrans htotal (a :: xs)
  rw [hcons, pairwise_append, pairwise_cons] at hsorted
  have hl₂ := hsorted.2.1.1
  rw [hcons, htail, filter_append, filter_append, filter_eq_self.mpr hl₁, filter_eq_self.mpr hl₂,
    filter_eq_nil_iff.mpr (by simpa using hl₂), filter_eq_nil_iff.mpr (by simpa using hl₁)]
  simp

/-- Lines with different positions have one order only. -/
theorem byPosition_of_perm {xs ys : List (Int × α)} (h : xs.Perm ys) (hys : ys.Pairwise fun a b => a.1 < b.1) :
    byPosition xs = ys.map Prod.snd := by
  have hle : ys.Pairwise fun a b => a.1 ≤ b.1 := hys.imp fun hab => Int.le_of_lt hab
  have hperm : (xs.mergeSort fun a b => a.1 ≤ b.1).Perm ys := (mergeSort_perm xs _).trans h
  -- a position occurs once, so equal positions mean the same line
  have hinj : ∀ a ∈ ys, ∀ b ∈ ys, a.1 ≤ b.1 → b.1 ≤ a.1 → a = b := by
    have hforth : ys.Pairwise fun a b => a.1 ≤ b.1 → b.1 ≤ a.1 → a = b :=
      hys.imp fun hlt _ hge => absurd hge (by omega)
    have hback : ys.Pairwise (flip fun a b => a.1 ≤ b.1 → b.1 ≤ a.1 → a = b) :=
      hys.imp fun hlt hge _ => absurd hge (by omega)
    intro a ha b hb
    exact hforth.forall_of_forall_of_flip (fun _ _ _ _ => rfl) hback ha hb
  rw [byPosition]
  congr 1
  exact hperm.eq_of_pairwise (fun a b ha hb => hinj a (hperm.mem_iff.mp ha) b hb) (pairwise_mergeSort_position xs) hle

/-! ## Numbers -/

/-- Elements with their numbers. One that has no number of its own takes that of the element before it. -/
def numbered (number : α → Option Int) (last : Int) : List α → List (Int × α)
  | [] => []
  | a :: as => ((number a).getD last, a) :: numbered number ((number a).getD last) as

/-- The number met last. -/
def lastNumber (number : α → Option Int) (last : Int) : List α → Int
  | [] => last
  | a :: as => lastNumber number ((number a).getD last) as

section Numbers

variable {number : α → Option Int} {last : Int}

theorem numbered_append (as bs : List α) : numbered number last (as ++ bs) =
    numbered number last as ++ numbered number (lastNumber number last as) bs := by
  induction as generalizing last with
  | nil => rfl
  | cons a as ih => simp only [cons_append, numbered, lastNumber, ih]

theorem lastNumber_append (as bs : List α) :
    lastNumber number last (as ++ bs) = lastNumber number (lastNumber number last as) bs := by
  induction as generalizing last with
  | nil => rfl
  | cons a as ih => simp only [cons_append, lastNumber, ih]

theorem map_numbered (g : α → β) (as : List α) : (numbered number last as).map (fun t => g t.2) = as.map g := by
  induction as generalizing last with
  | nil => rfl
  | cons a as ih => rw [numbered, map_cons, map_cons, ih]

theorem map_snd_numbered (as : List α) : (numbered number last as).map Prod.snd = as := (map_numbered id as).trans (map_id as)

theorem numbered_map (g : α → β) (h : ∀ a, number' (g a) = number a) (as : List α) :
    numbered number' last (as.map g) = (numbered number last as).map (Prod.map id g) := by
  induction as generalizing last with
  | nil => rfl
  | cons a as ih => simp only [map_cons, numbered, h, ih, Prod.map_apply, id_eq]

/-- Where every element has a number of its own, the others do not matter. -/
theorem numbered_of_isSome (h : ∀ a ∈ as, (number a).isSome = true) :
    numbered number last as = as.map fun a => ((number a).getD 0, a) := by
  induction as generalizing last with
  | nil => rfl
  | cons a as ih =>
    obtain ⟨ha, has⟩ := forall_mem_cons.mp h
    obtain ⟨n, hn⟩ := Option.isSome_iff_exists.mp ha
    simp only [numbered, map_cons, hn, Option.getD_some, ih has]

/-- What does not depend on the number met last needs no numbers. -/
theorem flatMap_numbered {g : Int × α → List β} (h : ∀ a ∈ as, ∀ last, g ((number a).getD last, a) = g' a) :
    (numbered number last as).flatMap g = as.flatMap g' := by
  induction as generalizing last with
  | nil => rfl
  | cons a as ih =>
    obtain ⟨ha, has⟩ := forall_mem_cons.mp h
    rw [numbered, flatMap_cons, flatMap_cons, ha, ih has]

/-- Where no element brings another number, there is only one. -/
theorem fst_of_mem_numbered (h : ∀ a ∈ as, (number a).getD last = last) : ∀ t ∈ numbered number last as, t.1 = last := by
  induction as with
  | nil => exact forall_mem_nil _
  | cons a as ih =>
    obtain ⟨ha, has⟩ := forall_mem_cons.mp h
    rw [numbered, ha, forall_mem_cons]
    exact ⟨rfl, ih has⟩

theorem mem_numbered (h : t ∈ numbered number last as) : t.2 ∈ as ∧ ∃ last', t.1 = (number t.2).getD last' := by
  induction as generalizing last with
  | nil => cases h
  | cons a as ih =>
    rcases mem_cons.mp h with rfl | h
    · exact ⟨mem_cons_self, last, rfl⟩
    · exact ⟨mem_cons_of_mem _ (ih h).1, (ih h).2⟩

end Numbers

/-! ## Tables -/

def Section.number (s : Section) : Option Int := s.form.position

mutual

/-- The tables of a tree in the order of the tree. The path leads to the item. -/
def sectionsIn (path : List Key) (isArray isRoot : Bool) : Item → List Section
  | .table _ f es => ⟨f, es, path, isArray, isRoot⟩ :: sectionsBelow path es
  | .arrayOfTables _ ts => sectionsEach path ts
  | .scalar .. | .array .. | .inlineTable .. => []

def sectionsBelow (path : List Key) : List (Entry Item) → List Section
  | [] => []
  | ⟨k, x, _, _, _⟩ :: es => sectionsIn (path ++ [k]) false false x ++ sectionsBelow path es

def sectionsEach (path : List Key) : List Item → List Section
  | [] => []
  | x :: xs => sectionsIn path true false x ++ sectionsEach path xs

end

@[simp] theorem sectionsBelow_eq (path : List Key) (es : List (Entry Item)) :
    sectionsBelow path es = es.flatMap fun e => sectionsIn (path ++ [e.key]) false false e.item :=
  eq_flatMap_of_cons rfl (fun _ _ => rfl) es

@[simp] theorem sectionsEach_eq (path : List Key) (ts : List Item) :
    sectionsEach path ts = ts.flatMap (sectionsIn path true false) := eq_flatMap_of_cons rfl (fun _ _ => rfl) ts

private theorem entrySections_eq_of (h : ∀ e ∈ es, ∀ last, sections (path ++ [e.key]) false false last e.item = (numbered
      Section.number last (sectionsIn (path ++ [e.key]) false false e.item), lastNumber Section.number last (sectionsIn (path
      ++ [e.key]) false false e.item))) (last : Int) :
    entrySections path last es =
      (numbered Section.number last (sectionsBelow path es), lastNumber Section.number last (sectionsBelow path es)) := by
  induction es generalizing last with
  | nil => rfl
  | cons e es ih =>
    obtain ⟨he, hes⟩ := forall_mem_cons.mp h
    simp only [entrySections, sectionsBelow, he, ih hes, numbered_append, lastNumber_append]

/-- The tables of a tree are numbered one after the other. -/
theorem sections_eq (x : Item) (path : List Key) (isArray isRoot : Bool) (last : Int) :
    sections path isArray isRoot last x = (numbered Section.number last (sectionsIn path isArray isRoot x),
      lastNumber Section.number last (sectionsIn path isArray isRoot x)) := by
  induction x using inductionOn generalizing path isArray isRoot last with
  | table i f es ih =>
    simp only [sections, sectionsIn, entrySections_eq_of fun e he last => ih e he (path ++ [e.key]) false false last]
    rfl
  | arrayOfTables i ts ih =>
    rw [sections, sectionsIn]
    induction ts generalizing last with
    | nil => rfl
    | cons t ts ihts =>
      obtain ⟨ht, hts⟩ := forall_mem_cons.mp ih
      simp only [elementSections, sectionsEach, ht, ihts hts, numbered_append, lastNumber_append]
  | _ => rfl

theorem entrySections_eq (path : List Key) (last : Int) (es : List (Entry Item)) :
    (entrySections path last es).1 = numbered Section.number last (sectionsBelow path es) := by
  rw [entrySections_eq_of fun e _ => sections_eq e.item _ _ _]

theorem sections_table (i : Info) (f : TableForm) (es : List (Entry Item)) (path : List Key) (isArray isRoot : Bool)
    (last : Int) : (sections path isArray isRoot last (.table i f es)).1 =
      (f.position.getD last, ⟨f, es, path, isArray, isRoot⟩) :: (entrySections path (f.position.getD last) es).1 := by
  rw [sections]

theorem writtenLines_eq (source : Option (List Char)) (root : Item) : writtenLines source root =
    (byPosition (numbered Section.number 0 (sectionsIn [] false true root))).flatMap (sectionLines source) := by
  rw [writtenLines, sections_eq]

/-! ## Texts of lines -/

/-- What is written of a line. -/
def WrittenLine.view (source : Option (List Char)) (l : WrittenLine) : (Layout → Bool → Rendered) × Option String :=
  (l.text source, l.newline)

theorem linesText_congr (h : ls.map (WrittenLine.view source) = ls'.map (WrittenLine.view other))
    (layout : Layout) (isFirst unterminated : Bool) :
    linesText source layout isFirst unterminated ls = linesText other layout isFirst unterminated ls' := by
  induction ls generalizing isFirst unterminated ls' with
  | nil => rw [map_eq_nil_iff.mp h.symm, linesText, linesText]
  | cons l ls ih =>
    obtain ⟨l', ls', rfl, hl, hls⟩ := map_eq_cons_iff.mp h.symm
    obtain ⟨htext, hnewline⟩ := Prod.mk.inj hl
    have htext : l'.text other layout isFirst = l.text source layout isFirst := congrFun (congrFun htext layout) isFirst
    simp only [linesText, htext, hnewline]
    rw [ih hls.symm]

end Render

/-! ## Bodies -/

open Render

/-- The lines of a body, with the keys of the dotted tables that lead to them. -/
def bodyIn (path : List Key) : List (Entry Item) → List (List Key × Entry Item)
  | [] => []
  | ⟨k, x, p, n, l⟩ :: es =>
    (match x with
      | .table _ f sub => if f.dotted then bodyIn (path ++ [k]) sub else []
      | .arrayOfTables .. => []
      | .inlineTable i f sub =>
        if f.dotted then bodyIn (path ++ [k]) sub else [(path, ⟨k, .inlineTable i f sub, p, n, l⟩)]
      | .array i f vs => [(path, ⟨k, .array i f vs, p, n, l⟩)]
      | .scalar i s => [(path, ⟨k, .scalar i s, p, n, l⟩)]) ++ bodyIn path es

def entryBody (path : List Key) (e : Entry Item) : List (List Key × Entry Item) :=
  if e.item.isDotted then bodyIn (path ++ [e.key]) e.item.entries
  else if e.item.isValue then [(path, e)]
  else []

theorem bodyIn_cons (path : List Key) (e : Entry Item) (es : List (Entry Item)) :
    bodyIn path (e :: es) = entryBody path e ++ bodyIn path es := by
  obtain ⟨k, x, p, n, l⟩ := e
  cases x <;> simp [bodyIn, entryBody, isDotted, isValue, entries]

theorem bodyIn_eq (path : List Key) (es : List (Entry Item)) : bodyIn path es = es.flatMap (entryBody path) := by
  induction es with
  | nil => rw [bodyIn, flatMap_nil]
  | cons e es ih => rw [bodyIn_cons, ih, flatMap_cons]

theorem mem_bodyIn : l ∈ bodyIn path es ↔ ∃ e ∈ es, l ∈ entryBody path e := by
  rw [bodyIn_eq, mem_flatMap]

theorem entryBody_dotted (path : List Key) (h : e.item.isDotted = true) :
    entryBody path e = bodyIn (path ++ [e.key]) e.item.entries := if_pos h

theorem entryBody_value (path : List Key) (hd : e.item.isDotted = false) (hv : e.item.isValue = true) :
    entryBody path e = [(path, e)] := by
  simp [entryBody, hd, hv]

theorem entryBody_table (path : List Key) (hd : e.item.isDotted = false) (hv : e.item.isValue = false) :
    entryBody path e = [] := by
  simp [entryBody, hd, hv]

theorem entryBody_of_not_hasBodyLine (path : List Key) (h : hasBodyLine e = false) : entryBody path e = [] := by
  obtain ⟨k, x, p, n, l⟩ := e
  cases x with
  | table i f sub => exact entryBody_table path h rfl
  | arrayOfTables i ts => exact entryBody_table path rfl rfl
  | _ => cases h

theorem bodyIn_eq_nil (h : es.any hasBodyLine = false) (path : List Key) : bodyIn path es = [] := by
  rw [bodyIn_eq, flatMap_eq_nil_iff]
  exact fun e he => entryBody_of_not_hasBodyLine path (Bool.eq_false_iff.mpr (any_eq_false.mp h e he))

/-- A property that entries inherit from the entries below them holds of all entries. -/
theorem entriesInduction {P : List (Entry Item) → Prop} (step : ∀ es, (∀ e ∈ es, P e.item.entries) → P es)
    (es : List (Entry Item)) : P es := by
  have hitem : ∀ x : Item, P x.entries := by
    intro x
    induction x using childInduction with
    | step x ih =>
      refine step _ fun e he => ih e.item ?_
      cases x with
      | scalar | array | arrayOfTables => cases he
      | inlineTable i f es | table i f es => exact mem_map_of_mem he
  exact hitem (.table {} {} es)

/-! ## Entry lines -/

def Render.valueLine (source : Option (List Char)) (path : List Key) (e : Entry Item) : BodyLine :=
  ⟨entryKeys path e.dottedPath e.key, e.item.decor?.getD {}, valueRepr source e.item, e.newline⟩

/-- A property that values inherit from their elements, or from the lines that stand in them, holds of all items. -/
@[elab_as_elim]
theorem Item.valueInduction {P : Item → Prop} (x : Item) (scalar : ∀ i s, P (.scalar i s))
    (array : ∀ i f vs, (∀ v ∈ vs, P v) → P (.array i f vs))
    (inlineTable : ∀ i f es, (∀ l ∈ bodyIn [] es, P l.2.item) → P (.inlineTable i f es))
    (table : ∀ i f es, P (.table i f es)) (arrayOfTables : ∀ i ts, P (.arrayOfTables i ts)) : P x := by
  have hbody : ∀ es : List (Entry Item), (∀ e ∈ es, P e.item ∧ ∀ path, ∀ l ∈ bodyIn path e.item.entries, P l.2.item) →
      ∀ path, ∀ l ∈ bodyIn path es, P l.2.item := by
    intro es h path l hl
    obtain ⟨e, he, hl⟩ := mem_bodyIn.mp hl
    rw [entryBody] at hl
    split at hl
    · exact (h e he).2 _ l hl
    · split at hl
      · exact mem_singleton.mp hl ▸ (h e he).1
      · cases hl
  have h : P x ∧ ∀ path, ∀ l ∈ bodyIn path x.entries, P l.2.item := by
    induction x using inductionOn with
    | scalar i s => exact ⟨scalar i s, hbody [] (forall_mem_nil _)⟩
    | array i f vs ih => exact ⟨array i f vs fun v hv => (ih v hv).1, hbody [] (forall_mem_nil _)⟩
    | inlineTable i f es ih => exact ⟨inlineTable i f es (hbody es ih []), hbody es ih⟩
    | table i f es ih => exact ⟨table i f es, hbody es ih⟩
    | arrayOfTables i ts ih => exact ⟨arrayOfTables i ts, hbody [] (forall_mem_nil _)⟩
  exact h.1

/-- The lines of a body are those of its entries, numbered one after the other. -/
theorem Render.bodyLines_eq (source : Option (List Char)) (path : List Key) (last : Int) (es : List (Entry Item)) :
    bodyLines source path last es =
      ((numbered (fun l => l.2.position) last (bodyIn path es)).map (Prod.map id fun l => valueLine source l.1 l.2),
        lastNumber (fun l => l.2.position) last (bodyIn path es)) := by
  induction es using entriesInduction generalizing path last with
  | step es below =>
    induction es generalizing last with
    | nil => simp [bodyLines, bodyIn, numbered, lastNumber]
    | cons e es ih =>
      obtain ⟨hown, hrest⟩ := forall_mem_cons.mp below
      rw [bodyIn_cons, numbered_append, lastNumber_append, map_append]
      obtain ⟨k, x, p, n, l⟩ := e
      cases x with
      | table i f sub | inlineTable i f sub =>
        cases hd : f.dotted with
        | true =>
          simp only [entries] at hown
          simp [bodyLines, entryBody, isDotted, entries, hd, ih hrest, hown]
        | false =>
          simp [bodyLines, entryBody, isDotted, isValue, hd, ih hrest, numbered, lastNumber, valueLine, decor?]
      | _ => simp [bodyLines, entryBody, isDotted, isValue, ih hrest, numbered, lastNumber, valueLine, decor?]

/-- The lines of a body in the order of writing. -/
theorem Render.exists_perm_bodyIn (source : Option (List Char)) (es : List (Entry Item)) :
    ∃ ls : List (List Key × Entry Item), ls.Perm (bodyIn [] es) ∧
      byPosition (bodyLines source [] 0 es).1 = ls.map fun l => valueLine source l.1 l.2 := by
  refine ⟨byPosition (numbered (fun l => l.2.position) 0 (bodyIn [] es)), ?_, ?_⟩
  · have hperm := perm_byPosition (numbered (fun l => l.2.position) 0 (bodyIn [] es))
    rwa [map_snd_numbered] at hperm
  · rw [bodyLines_eq, map_byPosition]

end Verbatim

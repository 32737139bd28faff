import Verbatim.Proofs.EditStep
import Verbatim.Proofs.ReadItems

/-!
# Edits of one document happen in one place

A workspace puts the new version of an item wherever its label stands. In a workspace with a single document and nothing held
every label stands in one place, so an edit replaces the item at the end of its path and leaves the rest of the tree as it is.
What items remember does not matter to the text and the data of a document, so the trees are compared without it.
-/

namespace Verbatim

open List Item Workspace

variable {w : Workspace} {d : Document} {P : Item → Prop}

namespace Item

variable {x y z x' news : Item} {pre post : List (Entry Item)} {e : Entry Item} {path : List Segment} {next : Nat}
  {xs : List Item}

/-! ## The item at the end of a path -/

def updateFirst (name : String) (g : Entry Item → Entry Item) : List (Entry Item) → List (Entry Item)
  | [] => []
  | e :: es => if e.name == name then g e :: es else e :: updateFirst name g es

/-- The tree with another item at the end of a path. -/
def replaceAt : Item → List Segment → Item → Item
  | _, [], z => z
  | x, .name s :: path, z => x.withEntries (updateFirst s (fun e => { e with item := e.item.replaceAt path z }) x.entries)
  | x, .position n :: path, z =>
    match x.elements? with
    | none => x
    | some ys =>
      match position? ys.length n with
      | none => x
      | some i => x.withElements (ys.modify i fun y => y.replaceAt path z)
  | x, .other :: _, _ => x

theorem updateFirst_append (hname : e.name = name) (hpre : ∀ d ∈ pre, d.name ≠ name) :
    updateFirst name g (pre ++ e :: post) = pre ++ g e :: post := by
  induction pre with
  | nil => simp [updateFirst, hname]
  | cons d pre ih =>
    rw [forall_mem_cons] at hpre
    have hd : (d.name == name) = false := by simpa using hpre.1
    rw [cons_append, updateFirst, hd, ih hpre.2]
    rfl

private theorem modify_length_append (g : α → α) (pre post : List α) (y : α) :
    (pre ++ y :: post).modify pre.length g = pre ++ g y :: post := by
  induction pre with
  | nil => rfl
  | cons x pre ih => simpa using ih

/-- An item with another member in one place. -/
inductive Replaced (y z : Item) : Item → Item → Prop where
  | here : Replaced y z y z
  | array {i : Info} {f : ArrayForm} {pre post : List Item} {v v' : Item} (h : Replaced y z v v') :
      Replaced y z (.array i f (pre ++ v :: post)) (.array i f (pre ++ v' :: post))
  | inlineTable {i : Info} {f : InlineForm} {pre post : List (Entry Item)} {e : Entry Item} {v' : Item}
      (h : Replaced y z e.item v') :
      Replaced y z (.inlineTable i f (pre ++ e :: post)) (.inlineTable i f (pre ++ { e with item := v' } :: post))
  | table {i : Info} {f : TableForm} {pre post : List (Entry Item)} {e : Entry Item} {v' : Item}
      (h : Replaced y z e.item v') :
      Replaced y z (.table i f (pre ++ e :: post)) (.table i f (pre ++ { e with item := v' } :: post))
  | arrayOfTables {i : Info} {pre post : List Item} {t t' : Item} (h : Replaced y z t t') :
      Replaced y z (.arrayOfTables i (pre ++ t :: post)) (.arrayOfTables i (pre ++ t' :: post))

theorem replaceAt_name (hes : x.entries = pre ++ e :: post) (hname : e.name = name) (hpre : ∀ d ∈ pre, d.name ≠ name) :
    x.replaceAt (.name name :: path) z =
      x.withEntries (pre ++ { e with item := e.item.replaceAt path z } :: post) := by
  rw [replaceAt, hes, updateFirst_append hname hpre]

theorem replaceAt_position {n : Int} {pre post : List Item} (hys : x.elements? = some (pre ++ y :: post))
    (hn : position? (pre ++ y :: post).length n = some pre.length) :
    x.replaceAt (.position n :: path) z = x.withElements (pre ++ y.replaceAt path z :: post) := by
  rw [replaceAt, hys]
  simp only [hn, modify_length_append]

theorem isMapping_mapMembers (g : Item → Item) (x : Item) : (x.mapMembers g).isMapping = x.isMapping := by
  cases x <;> rfl

theorem elements?_mapMembers (g : Item → Item) (x : Item) : (x.mapMembers g).elements? = x.elements?.map (map g) := by
  cases x <;> rfl

private theorem zipWith_items (g : Item → Item) (pre post : List (Entry Item)) (e : Entry Item) (z : Item) :
    (pre ++ e :: post).zipWith (fun e x => { e with item := x })
      ((pre.map Entry.item).map g ++ z :: (post.map Entry.item).map g) =
      pre.map (onItem g) ++ { onItem g e with item := z } :: post.map (onItem g) := by
  simp only [map_map, zipWith_append, length_map, zipWith_cons_cons, zipWith_map_right,
    zipWith_self]
  rfl

/-- A step of a path leads to one of the members. Another item at the end of the path changes that member only, also after
all members have been changed. -/
theorem exists_members (h : x.step s = .ok y) : ∃ pre post, x.children = pre ++ y :: post ∧
    ∀ (g : Item → Item) (path : List Segment) (z : Item),
      (x.mapMembers g).replaceAt (s :: path) z = x.withMembers (pre.map g ++ (g y).replaceAt path z :: post.map g) := by
  rcases step_eq_ok h with ⟨name, pre, post, e, rfl, hmapping, hes, hname, hpre, rfl⟩ | ⟨n, pre, post, rfl, hys, hn⟩
  · refine ⟨pre.map Entry.item, post.map Entry.item, ?_, fun g path z => ?_⟩
    · rw [← map_cons, ← map_append, ← hes]
      cases x <;> first | rfl | cases hmapping
    · have hentries : (x.mapMembers g).entries = pre.map (onItem g) ++ onItem g e :: post.map (onItem g) := by
        rw [entries_mapMembers, hes, map_append, map_cons]
      rw [replaceAt_name hentries hname (by simpa [onItem, Entry.name] using hpre)]
      cases x with
      | table i f es =>
        cases hes
        exact congrArg (table i f) (zipWith_items g pre post e _).symm
      | inlineTable i f es =>
        cases hes
        exact congrArg (inlineTable i f) (zipWith_items g pre post e _).symm
      | _ => cases hmapping
  · refine ⟨pre, post, by cases x <;> cases hys <;> rfl, fun g path z => ?_⟩
    have helements : (x.mapMembers g).elements? = some (pre.map g ++ g y :: post.map g) := by
      rw [elements?_mapMembers, hys, Option.map_some, map_append, map_cons]
    rw [replaceAt_position helements (by simpa using hn)]
    cases x <;> cases hys <;> rfl

/-- The item at the end of a path stands in one place, where another one can stand. -/
theorem replaced_replaceAt (h : x.follow path = .ok y) : Replaced y z x (x.replaceAt path z) := by
  induction path generalizing x with
  | nil =>
    cases h
    exact .here
  | cons s path ih =>
    obtain ⟨w, hw, hrest⟩ := follow_cons_eq_ok h
    rcases step_eq_ok hw with ⟨name, pre, post, e, rfl, hmapping, hes, hname, hpre, rfl⟩ | ⟨n, pre, post, rfl, hys, hn⟩
    · rw [replaceAt_name hes hname hpre]
      cases x with
      | table i f es =>
        cases hes
        exact .table (ih hrest)
      | inlineTable i f es =>
        cases hes
        exact .inlineTable (ih hrest)
      | _ => cases hmapping
    · rw [replaceAt_position hys hn]
      cases x with
      | array i f vs =>
        cases hys
        exact .array (ih hrest)
      | arrayOfTables i ts =>
        cases hys
        exact .arrayOfTables (ih hrest)
      | _ => cases hys

theorem Replaced.self (h : Replaced y y x x') : x' = x := by
  induction h with
  | here => rfl
  | array _ ih => rw [ih]
  | inlineTable _ ih => rw [ih]
  | table _ ih => rw [ih]
  | arrayOfTables _ ih => rw [ih]

section

variable (h : Replaced y z x x')

include h

theorem Replaced.within : y.Within x := by
  induction h with
  | here => exact .self
  | array _ ih => exact .child (by simp [children]) ih
  | inlineTable _ ih => exact .child (mem_map.mpr ⟨_, by simp, rfl⟩) ih
  | table _ ih => exact .child (mem_map.mpr ⟨_, by simp, rfl⟩) ih
  | arrayOfTables _ ih => exact .child (by simp [children]) ih

/-- Other members in one place leave the text around an item. -/
theorem Replaced.decor? (hyz : z.decor? = y.decor?) : x'.decor? = x.decor? := by
  cases h with
  | here => exact hyz
  | _ => rfl

theorem Replaced.isDotted (hyz : z.isDotted = y.isDotted) : x'.isDotted = x.isDotted := by
  cases h with
  | here => exact hyz
  | _ => rfl

theorem Replaced.isValue (hyz : z.isValue = y.isValue) : x'.isValue = x.isValue := by
  cases h with
  | here => exact hyz
  | _ => rfl

end

/-! ## Grafting in one place -/

theorem version?_eq_none (h : l ∉ news.labels) : version? l news.versions = none := by
  rw [version?, lookup_eq_none_iff]
  intro p hp
  rw [bne_iff_ne]
  rintro rfl
  exact h (mem_map_of_mem hp)

private theorem graft_members (h : ∀ l ∈ xs.flatMap labels, l ∉ news.labels) : ∀ x ∈ xs, x.graft news.versions = x :=
  fun x hx => graft_of_disjoint fun l hl => h l (mem_flatMap.mpr ⟨x, hx, hl⟩)

private theorem map_graft_middle {v : Item} {pre post : List Item} (hpre : ∀ l ∈ pre.flatMap labels, l ∉ news.labels)
    (hpost : ∀ l ∈ post.flatMap labels, l ∉ news.labels) :
    (pre ++ v :: post).map (graft news.versions) = pre ++ v.graft news.versions :: post := by
  rw [map_append, map_cons, map_congr_left (graft_members hpre), map_congr_left (graft_members hpost),
    map_id', map_id']

/-- The labels around a member are not among those of its versions. -/
private theorem labels_around {pre post : List Item} (hx : x.labels.Nodup)
    (hchildren : x.children = pre ++ v :: post) (hy : ∀ l ∈ y.labels, l ∈ v.labels)
    (hnew : ∀ l ∈ z.labels, l ∈ y.labels ∨ l ∉ x.labels) :
    x.info.label ∉ z.labels ∧ (∀ l ∈ pre.flatMap labels, l ∉ z.labels) ∧ (∀ l ∈ post.flatMap labels, l ∉ z.labels) ∧
      v.labels.Nodup ∧ ∀ l ∈ z.labels, l ∈ y.labels ∨ l ∉ v.labels := by
  have hlabels : x.labels = x.info.label :: (pre.flatMap labels ++ (v.labels ++ post.flatMap labels)) := by
    rw [labels_eq, hchildren, flatMap_append, flatMap_cons]
  rw [hlabels] at hx hnew
  simp only [nodup_cons, nodup_append, mem_append, mem_cons] at hx hnew
  obtain ⟨hself, -, ⟨hv, -, hvpost⟩, hprev⟩ := hx
  refine ⟨fun hmem => ?_, fun l hl hmem => ?_, fun l hl hmem => ?_, hv, fun l hl => ?_⟩
  · rcases hnew _ hmem with hold | hfresh
    · exact hself (.inr (.inl (hy _ hold)))
    · exact hfresh (.inl rfl)
  · rcases hnew _ hmem with hold | hfresh
    · exact hprev l hl l (.inl (hy l hold)) rfl
    · exact hfresh (.inr (.inl hl))
  · rcases hnew _ hmem with hold | hfresh
    · exact hvpost l (hy l hold) l hl rfl
    · exact hfresh (.inr (.inr (.inr hl)))
  · exact (hnew l hl).imp_right fun hfresh hmem => hfresh (.inr (.inr (.inl hmem)))

theorem labels_of_follow (h : x.follow path = .ok y) : ∀ l ∈ y.labels, l ∈ x.labels := by
  intro l hl
  obtain ⟨p, hp, rfl⟩ := mem_map.mp hl
  obtain ⟨hlabel, hwithin⟩ := mem_versions.mp (show (p.1, p.2) ∈ y.versions from hp)
  exact mem_map.mpr ⟨p, mem_versions.mpr ⟨hlabel, hwithin.trans (within_of_follow h)⟩, rfl⟩

/-- In a tree of distinct labels the versions of an item go to its place only. -/
theorem graft_eq_replaceAt (hx : x.labels.Nodup) (h : x.follow path = .ok y) (hlabel : z.info.label = y.info.label)
    (hnew : ∀ l ∈ z.labels, l ∈ y.labels ∨ l ∉ x.labels) : x.graft z.versions = x.replaceAt path z := by
  induction path generalizing x with
  | nil =>
    cases h
    rw [graft_eq, version?, versions_eq z, hlabel, lookup_cons_self, Option.getD_some, replaceAt]
  | cons s path ih =>
    obtain ⟨w, hw, h⟩ := follow_cons_eq_ok h
    have hy := labels_of_follow h
    obtain ⟨pre, post, hchildren, hreplace⟩ := exists_members hw
    obtain ⟨hself, hbefore, hafter, hnodup, hnew⟩ := labels_around hx hchildren hy hnew
    have hplace := hreplace id path z
    rw [mapMembers_id, map_id, map_id, id_eq] at hplace
    rw [hplace, graft_eq, version?_eq_none hself, Option.getD_none, ← ih hnodup h hnew, mapMembers_eq, hchildren,
      map_graft_middle hbefore hafter]

/-! ## Trees of which nothing is remembered -/

/-- An entry of whose item nothing is remembered. -/
def strippedEntry (e : Entry Item) : Entry Item := { e with item := e.item.stripped }

theorem stripped_eq (x : Item) : x.stripped = (x.mapMembers stripped).withInfo {} := reworded_eq (fun _ => {}) x

@[simp] theorem entries_stripped (x : Item) : x.stripped.entries = x.entries.map strippedEntry := by
  rw [stripped_eq]
  cases x <;> rfl

@[simp] theorem elements?_stripped (x : Item) : x.stripped.elements? = x.elements?.map (map stripped) := by
  rw [stripped_eq]
  cases x <;> rfl

@[simp] theorem isMapping_stripped (x : Item) : x.stripped.isMapping = x.isMapping := by
  rw [stripped_eq]
  cases x <;> rfl

theorem stripped_withEntries (x : Item) (es : List (Entry Item)) :
    (x.withEntries es).stripped = x.stripped.withEntries (es.map strippedEntry) := by
  rw [stripped_eq, stripped_eq x]
  cases x <;> rfl

theorem stripped_withElements (x : Item) (xs : List Item) :
    (x.withElements xs).stripped = x.stripped.withElements (xs.map stripped) := by
  rw [stripped_eq, stripped_eq x]
  cases x <;> rfl

theorem stripped_withDecor (x : Item) (d : Decor) : (x.withDecor d).stripped = x.stripped.withDecor d := by
  rw [stripped_eq, stripped_eq x]
  cases x <;> rfl

@[simp] theorem name_strippedEntry (e : Entry Item) : (strippedEntry e).name = e.name := rfl

theorem findNamed?_stripped (name : String) (es : List (Entry Item)) :
    findNamed? name (es.map strippedEntry) = (findNamed? name es).map strippedEntry := by
  rw [findNamed?, findNamed?, find?_map]
  rfl

/-- The items remember nothing, so they have no labels. -/
theorem labels_stripped (x : Item) : ∀ l ∈ x.stripped.labels, l = 0 := by
  intro l hl
  obtain ⟨p, hp, rfl⟩ := mem_map.mp hl
  obtain ⟨hlabel, hwithin⟩ := mem_versions.mp (show (p.1, p.2) ∈ x.stripped.versions from hp)
  obtain ⟨z, -, hz⟩ := within_reworded hwithin
  rw [hlabel, hz, info_reworded]

private theorem stripped_labelledEach (hxs : ∀ x ∈ xs, ∀ next, (x.labelled next).1.stripped = x.stripped) (next : Nat) :
    (labelledEach next xs).1.map stripped = xs.map stripped := by
  induction xs generalizing next with
  | nil => rfl
  | cons x xs ih =>
    rw [forall_mem_cons] at hxs
    simp only [labelledEach, map_cons]
    rw [hxs.1, ih hxs.2]

private theorem stripped_labelledEntries (hes : ∀ e ∈ es, ∀ next, (e.item.labelled next).1.stripped = e.item.stripped)
    (next : Nat) : (labelledEntries next es).1.map strippedEntry = es.map strippedEntry := by
  induction es generalizing next with
  | nil => rfl
  | cons e es ih =>
    rw [forall_mem_cons] at hes
    simp only [labelledEntries, map_cons, strippedEntry]
    rw [hes.1]
    exact congrArg _ (ih hes.2 _)

@[simp] theorem stripped_labelled (next : Nat) (x : Item) : (x.labelled next).1.stripped = x.stripped := by
  induction x using inductionOn generalizing next with
  | scalar i s => rfl
  | array i f vs ih =>
    rw [stripped_eq, stripped_eq (.array i f vs)]
    exact congrArg (array {} f) (stripped_labelledEach ih _)
  | inlineTable i f es ih =>
    rw [stripped_eq, stripped_eq (.inlineTable i f es)]
    exact congrArg (inlineTable {} f) (stripped_labelledEntries ih _)
  | table i f es ih =>
    rw [stripped_eq, stripped_eq (.table i f es)]
    exact congrArg (table {} f) (stripped_labelledEntries ih _)
  | arrayOfTables i ts ih =>
    rw [stripped_eq, stripped_eq (.arrayOfTables i ts)]
    exact congrArg (arrayOfTables {}) (stripped_labelledEach ih _)

/-! ## Rewording along a path -/

/-- A step depends on the names of entries and on the order of elements only. -/
theorem step_map (hmapping : x'.isMapping = x.isMapping)
    (hentries : x'.entries.map (fun e => (e.name, e.item)) = x.entries.map fun e => (e.name, g e.item))
    (helements : x'.elements? = x.elements?.map (map g)) (s : Segment) : x'.step s = (x.step s).map g := by
  cases s with
  | name name =>
    have hget : x'.get? name = (x.get? name).map g := by
      have hfind := congrArg (fun ps => (ps.find? fun p => p.1 == name).map Prod.snd) hentries
      simpa [get?, entryNamed?, findNamed?, find?_map, Function.comp_def] using hfind
    simp only [step, hmapping, hget]
    split
    · cases x.get? name <;> rfl
    · rfl
  | position n =>
    simp only [step, helements]
    cases x.elements? with
    | none => rfl
    | some ys =>
      simp only [Option.map_some, length_map, getElem?_map]
      cases position? ys.length n with
      | none => rfl
      | some i => cases hi : ys[i]? <;> simp [hi, Except.map]
  | other => rfl

theorem step_mapMembers (g : Item → Item) (x : Item) (s : Segment) : (x.mapMembers g).step s = (x.step s).map g := by
  have hentries : (x.mapMembers g).entries.map (fun e => (e.name, e.item)) = x.entries.map fun e => (e.name, g e.item) := by
    rw [entries_mapMembers, map_map]
    rfl
  exact step_map (isMapping_mapMembers g x) hentries (elements?_mapMembers g x) s

section Reworded

variable (r : Info → Info) (f : SpanText → SpanText)

theorem isMapping_reworded (x : Item) : (x.reworded r f).isMapping = x.isMapping := by
  cases x <;> rfl

theorem elements?_reworded (x : Item) : (x.reworded r f).elements? = x.elements?.map (map (reworded r f)) := by
  cases x <;> simp [reworded, elements?]

theorem withEntries_reworded (x : Item) (es : List (Entry Item)) :
    (x.withEntries es).reworded r f = (x.reworded r f).withEntries (es.map (rewordedEntry r f)) := by
  cases x <;> simp [reworded, withEntries]

theorem withElements_reworded (x : Item) (xs : List Item) :
    (x.withElements xs).reworded r f = (x.reworded r f).withElements (xs.map (reworded r f)) := by
  cases x <;> simp [reworded, withElements]

theorem findNamed?_reworded (name : String) (es : List (Entry Item)) :
    findNamed? name (es.map (rewordedEntry r f)) = (findNamed? name es).map (rewordedEntry r f) := by
  rw [findNamed?, findNamed?, find?_map]
  rfl

theorem step_reworded (x : Item) (s : Segment) : (x.reworded r f).step s = (x.step s).map (reworded r f) := by
  have hentries : (x.reworded r f).entries.map (fun e => (e.name, e.item)) =
      x.entries.map fun e => (e.name, e.item.reworded r f) := by
    rw [entries_reworded, map_map]
    rfl
  exact step_map (isMapping_reworded r f x) hentries (elements?_reworded r f x) s

theorem follow_reworded (x : Item) (path : List Segment) :
    (x.reworded r f).follow path = (x.follow path).map (reworded r f) := by
  induction path generalizing x with
  | nil => rfl
  | cons s path ih =>
    rw [follow, follow, step_reworded]
    cases x.step s with
    | error e => rfl
    | ok y => exact ih y

private theorem updateFirst_reworded (name : String) (hg : ∀ e, rewordedEntry r f (g e) = g' (rewordedEntry r f e))
    (es : List (Entry Item)) :
    (updateFirst name g es).map (rewordedEntry r f) = updateFirst name g' (es.map (rewordedEntry r f)) := by
  induction es with
  | nil => rfl
  | cons e es ih =>
    rw [map_cons, updateFirst, updateFirst]
    have hname : (rewordedEntry r f e).name = e.name := rfl
    rw [hname]
    cases e.name == name with
    | true => exact congrArg (· :: _) (hg e)
    | false => exact congrArg (_ :: ·) ih

private theorem modify_reworded (hg : ∀ x, (g x).reworded r f = g' (x.reworded r f)) (i : Nat) (xs : List Item) :
    (xs.modify i g).map (reworded r f) = (xs.map (reworded r f)).modify i g' := by
  induction xs generalizing i with
  | nil => cases i <;> rfl
  | cons x xs ih =>
    cases i with
    | zero => simp [hg]
    | succ i => simp [ih]

theorem replaceAt_reworded (x z : Item) (path : List Segment) :
    (x.replaceAt path z).reworded r f = (x.reworded r f).replaceAt path (z.reworded r f) := by
  induction path generalizing x with
  | nil => rfl
  | cons s path ih =>
    cases s with
    | name name =>
      rw [replaceAt, replaceAt, withEntries_reworded, entries_reworded]
      refine congrArg (withEntries · _) (updateFirst_reworded r f name (fun e => ?_) _)
      simp only [rewordedEntry, ih]
    | position n =>
      rw [replaceAt, replaceAt, elements?_reworded]
      cases x.elements? with
      | none => rfl
      | some ys =>
        simp only [Option.map_some, length_map]
        cases position? ys.length n with
        | none => rfl
        | some i =>
          simp only [withElements_reworded]
          exact congrArg (withElements · _) (modify_reworded r f ih i ys)
    | other => rfl

end Reworded

theorem follow_stripped (h : x.follow path = .ok y) : x.stripped.follow path = .ok y.stripped := by
  rw [stripped, follow_reworded, h]
  rfl

theorem stripped_replaceAt (x z : Item) (path : List Segment) :
    (x.replaceAt path z).stripped = x.stripped.replaceAt path z.stripped := replaceAt_reworded ..

/-! ## Changes -/

@[simp] theorem decor?_stripped (x : Item) : x.stripped.decor? = x.decor? := by
  rw [stripped_eq]
  cases x <;> rfl

@[simp] theorem isValue_stripped (x : Item) : x.stripped.isValue = x.isValue := isValue_reworded ..

@[simp] theorem isInlineTable_stripped (x : Item) : x.stripped.isInlineTable = x.isInlineTable := by
  rw [stripped_eq]
  cases x <;> rfl

@[simp] theorem isArrayOfTables_stripped (x : Item) : x.stripped.isArrayOfTables = x.isArrayOfTables := by
  rw [stripped_eq]
  cases x <;> rfl

theorem stripped_replacing (old new : Item) : (replacing old new).stripped = replacing old.stripped new.stripped := by
  rw [replacing, replacing, decor?_stripped, decor?_stripped, isValue_stripped, isValue_stripped]
  split
  · split
    · exact stripped_withDecor new _
    · rfl
  · rfl

/-- An item remembers nothing if its own information and its members do not. -/
theorem stripped_new (hinfo : x.info = {}) (hmembers : ∀ z ∈ x.children, z.stripped = z) : x.stripped = x := by
  have hsame : x.mapMembers stripped = x.mapMembers id := mapMembers_congr hmembers
  rw [stripped_eq, hsame, mapMembers_id]
  cases x <;> cases hinfo <;> rfl

/-- Plain data becomes items that remember nothing. -/
theorem convertible_new : Convertible (fun _ => False) fun x => x.stripped = x where
  kept _ h := h.elim
  copied _ h := h.elim
  replacing old new hold hnew := by rw [stripped_replacing, hold, hnew]
  scalar _ _ _ := rfl
  array _ h := stripped_new rfl fun v hv => (h v hv).1
  inlineTable _ _ h := stripped_new rfl (forall_mem_map.mpr fun e he => (h e he).1)
  table _ _ h := stripped_new rfl (forall_mem_map.mpr h)
  arrayOfTables _ _ h := stripped_new rfl fun t ht => (h t ht).1

theorem place_stripped (name : String) (y : Item) (es : List (Entry Item)) :
    (place name y es).map strippedEntry = place name y.stripped (es.map strippedEntry) := by
  rw [place, place, findNamed?_stripped]
  cases findNamed? name es with
  | none => simp [strippedEntry]
  | some d =>
    simp only [Option.map_some, updateEntry, map_map]
    refine map_congr_left fun e he => ?_
    rw [Function.comp_apply, Function.comp_apply, name_strippedEntry]
    cases e.name == name with
    | true => simp [strippedEntry, stripped_replacing]
    | false => rfl

theorem labels_withDecor (d : Decor) (x : Item) : (x.withDecor d).labels = x.labels := by
  rw [labels_eq, labels_eq x]
  cases x <;> rfl

theorem labels_replacing (old new : Item) : (replacing old new).labels = new.labels := by
  rw [replacing]
  split
  · split
    · exact labels_withDecor _ _
    · rfl
  · rfl

variable {P : Item → Prop}

theorem eraseEntry_stripped (name : String) (x : Item) :
    (eraseEntry name x.entries).map strippedEntry = eraseEntry name x.stripped.entries := by
  rw [entries_stripped, eraseEntry, eraseEntry, filter_map]
  rfl

theorem append_stripped (x y : Item) :
    (x.elements?.getD [] ++ [y]).map stripped = x.stripped.elements?.getD [] ++ [y.stripped] := by
  rw [map_append, map_singleton, elements?_stripped]
  cases x.elements? <;> rfl

/-- New members that remember nothing make a change that can be seen without what items remember. -/
theorem Change.stripped (hP : ∀ y, P y → y.stripped = y) (h : Change P x x') : Change P x.stripped x'.stripped := by
  cases h with
  | place name y hx hy hvalue =>
    rw [stripped_withEntries, place_stripped, hP y hy, ← entries_stripped]
    exact .place name y (by simpa using hx) hy (by simpa using hvalue)
  | erase name =>
    rw [stripped_withEntries, eraseEntry_stripped]
    exact .erase name
  | append y hy hkind =>
    rw [stripped_withElements, append_stripped, hP y hy]
    exact .append y hy (by simpa using hkind)

theorem info_withEntries (es : List (Entry Item)) (x : Item) : (x.withEntries es).info = x.info := by
  cases x <;> rfl

theorem info_withElements (xs : List Item) (x : Item) : (x.withElements xs).info = x.info := by
  cases x <;> rfl

/-- The labels of a table are its own and those of its entries. -/
theorem labels_withEntries (hx : x.isMapping = true) (es : List (Entry Item)) :
    (x.withEntries es).labels = x.info.label :: es.flatMap fun e => e.item.labels := by
  rw [labels_eq, info_withEntries]
  cases x with
  | table i f sub => simp [withEntries, children, flatMap_map]
  | inlineTable i f sub => simp [withEntries, children, flatMap_map]
  | _ => cases hx

theorem withEntries_of_not_mapping (hx : x.isMapping = false) (es : List (Entry Item)) : x.withEntries es = x := by
  cases x <;> first | rfl | cases hx

theorem withEntries_entries (x : Item) : x.withEntries x.entries = x := by
  cases x <;> rfl

/-- The labels that are there after a change were there before it. -/
theorem Change.labels (hP : ∀ y, P y → ∀ l ∈ y.labels, l = 0) (h : Change P x x') :
    x'.info = x.info ∧ (x'.labels.filter (· ≠ 0)).Sublist x.labels := by
  have hnew : ∀ y, P y → y.labels.filter (· ≠ 0) = [] :=
    fun y hy => filter_eq_nil_iff.mpr fun l hl => by simpa using hP y hy l hl
  have hself : (x.info.label :: x.entries.flatMap fun e => e.item.labels).Sublist x.labels := by
    cases hx : x.isMapping with
    | true => rw [← labels_withEntries hx, withEntries_entries]
    | false =>
      rw [labels_eq]
      cases x with
      | table i f es => cases hx
      | inlineTable i f es => cases hx
      | _ => simp [entries]
  cases h with
  | place name y hx hy hvalue =>
    refine ⟨info_withEntries .., ?_⟩
    rw [labels_withEntries hx]
    refine (Sublist.trans ?_ (filter_sublist (p := fun l => decide (l ≠ 0)))).trans hself
    rw [filter_cons, filter_cons]
    have hentries : (((Item.place name y x.entries).flatMap fun e => e.item.labels).filter (· ≠ 0)).Sublist
        ((x.entries.flatMap fun e => e.item.labels).filter (· ≠ 0)) := by
      rw [Item.place]
      split
      · rw [flatMap_append, flatMap_singleton, filter_append, hnew y hy, append_nil]
      · rw [updateEntry]
        generalize x.entries = es
        -- an entry keeps its labels or loses all of them
        induction es with
        | nil => exact .slnil
        | cons e es ih =>
          rw [map_cons, flatMap_cons, flatMap_cons, filter_append, filter_append]
          refine Sublist.append ?_ ih
          split
          · rw [labels_replacing, hnew y hy]
            exact nil_sublist _
          · exact Sublist.refl _
    split
    · exact hentries.cons_cons _
    · exact hentries
  | erase name =>
    refine ⟨info_withEntries .., ?_⟩
    cases hx : x.isMapping with
    | false =>
      rw [withEntries_of_not_mapping hx]
      exact filter_sublist
    | true =>
      rw [labels_withEntries hx]
      have hsub : ((eraseEntry name x.entries).flatMap fun e => e.item.labels).Sublist
          (x.entries.flatMap fun e => e.item.labels) := filter_sublist.flatMap _
      exact filter_sublist.trans ((hsub.cons_cons _).trans hself)
  | append y hy hkind =>
    refine ⟨info_withElements .., ?_⟩
    have happend : ∀ xs : List Item, (((xs ++ [y]).flatMap labels).filter (· ≠ 0)).Sublist (xs.flatMap labels) := by
      intro xs
      rw [flatMap_append, flatMap_singleton, filter_append, hnew y hy, append_nil]
      exact filter_sublist
    have hcons : ∀ ls ls' : List Nat, (ls.filter (· ≠ 0)).Sublist ls' →
        ((x.info.label :: ls).filter (· ≠ 0)).Sublist (x.info.label :: ls') := by
      intro ls ls' hls
      rw [filter_cons]
      split
      · exact hls.cons_cons _
      · exact hls.cons _
    rw [labels_eq, labels_eq x, info_withElements]
    cases x with
    | array i f vs => exact hcons _ _ (happend vs)
    | arrayOfTables i ts => exact hcons _ _ (happend ts)
    | _ => exact hcons _ _ filter_sublist

theorem Replaced.labels (h : Replaced y z x x') :
    ∃ pre post, x.labels = pre ++ y.labels ++ post ∧ x'.labels = pre ++ z.labels ++ post := by
  -- a member in the middle, with the labels around it
  have hmiddle : ∀ {x x' v v' : Item} (before after : List Item), x'.info = x.info → x.children = before ++ v :: after →
      x'.children = before ++ v' :: after →
      (∃ pre post, v.labels = pre ++ y.labels ++ post ∧ v'.labels = pre ++ z.labels ++ post) →
      ∃ pre post, x.labels = pre ++ y.labels ++ post ∧ x'.labels = pre ++ z.labels ++ post := by
    rintro x x' v v' before after hinfo hx hx' ⟨pre, post, hv, hv'⟩
    refine ⟨x.info.label :: (before.flatMap Item.labels ++ pre), post ++ after.flatMap Item.labels, ?_, ?_⟩
    · rw [labels_eq, hx]
      simp [hv]
    · rw [labels_eq, hx', hinfo]
      simp [hv']
  induction h with
  | here => exact ⟨[], [], by simp, by simp⟩
  | array h ih => exact hmiddle _ _ rfl rfl rfl ih
  | @inlineTable i f pre post e v' h ih =>
    exact hmiddle (pre.map Entry.item) (post.map Entry.item) rfl (by simp [children]) (by simp [children]) ih
  | @table i f pre post e v' h ih =>
    exact hmiddle (pre.map Entry.item) (post.map Entry.item) rfl (by simp [children]) (by simp [children]) ih
  | arrayOfTables h ih => exact hmiddle _ _ rfl rfl rfl ih

/-- A changed item gets new labels where it has none; it then goes to one place of a tree of distinct labels, and the labels
stay distinct. -/
theorem Distinct.graft {bound : Nat} {y' : Item} (hx : x.Distinct bound) (h : x.follow path = .ok y)
    (hinfo : y'.info = y.info) (hlabels : (y'.labels.filter (· ≠ 0)).Sublist y.labels) :
    x.graft (y'.labelled bound).1.versions = x.replaceAt path (y'.labelled bound).1 ∧
      (x.replaceAt path (y'.labelled bound).1).Distinct (y'.labelled bound).2 := by
  obtain ⟨pre, post, hxlabels, hnewlabels⟩ := (replaced_replaceAt (z := (y'.labelled bound).1) h).labels
  have hy : ∀ l ∈ y.labels, l ∈ x.labels := labels_of_follow h
  have hself : y.info.label ∈ y.labels := by simp [labels_eq y]
  have hpos := hx.range _ (hy _ hself)
  have hlt : ∀ l ∈ y'.labels, l < bound := by
    intro l hl
    by_cases hzero : l = 0
    · omega
    · exact (hx.range l (hy l (hlabels.subset (by simp [hl, hzero])))).2
  have hnodup : (y'.labels.filter (· ≠ 0)).Nodup := by
    refine hlabels.nodup (hx.nodup.sublist ?_)
    rw [hxlabels]
    exact (sublist_append_right _ _).trans (sublist_append_left _ _)
  have hdistinct := distinct_labelled (show 0 < bound by omega) hnodup hlt
  have hnext : bound ≤ (y'.labelled bound).2 := by
    rw [(labels_labelled bound y').2]
    omega
  -- a label of the changed item is one of the item or a new one
  have hcases : ∀ l ∈ (y'.labelled bound).1.labels, l ∈ y.labels ∨ bound ≤ l := by
    intro l hl
    rw [(labels_labelled bound y').1] at hl
    rcases mem_relabelled hl with ⟨hmem, hne⟩ | ⟨hle, -⟩
    · exact .inl (hlabels.subset (by simp [hmem, hne]))
    · exact .inr hle
  have hlabel : (y'.labelled bound).1.info.label = y.info.label := by
    rw [info_labelled, freshInfo, hinfo, if_neg (by omega)]
  refine ⟨graft_eq_replaceAt hx.nodup h hlabel fun l hl => (hcases l hl).imp_right fun hle hmem => ?_, ?_, ?_⟩
  · have := hx.range l hmem
    omega
  · have hxnodup := hx.nodup
    have hxrange := hx.range
    rw [hxlabels] at hxnodup hxrange
    rw [hnewlabels]
    simp only [nodup_append, mem_append] at hxnodup hxrange ⊢
    obtain ⟨⟨hpre, -, hprey⟩, hpost, hypost⟩ := hxnodup
    refine ⟨⟨hpre, hdistinct.nodup, ?_⟩, hpost, ?_⟩
    · rintro l hl _ hz rfl
      rcases hcases l hz with hy | hle
      · exact hprey l hl l hy rfl
      · have := hxrange l (.inl (.inl hl))
        omega
    · rintro l hl _ hp rfl
      rcases hl with hl | hz
      · exact hypost l (.inl hl) l hp rfl
      · rcases hcases l hz with hy | hle
        · exact hypost l (.inr hy) l hp rfl
        · have := hxrange l (.inr hp)
          omega
  · intro l hl
    rw [hnewlabels, mem_append, mem_append] at hl
    have hold : l ∈ x.labels → 0 < l ∧ l < (y'.labelled bound).2 :=
      fun hmem => ⟨(hx.range l hmem).1, Nat.lt_of_lt_of_le (hx.range l hmem).2 hnext⟩
    rcases hl with (hl | hl) | hl
    · exact hold (by simp [hxlabels, hl])
    · exact hdistinct.range l hl
    · exact hold (by simp [hxlabels, hl])

theorem Unlabelled.labels (h : x.Unlabelled) : ∀ l ∈ x.labels, l = 0 := by
  intro l hl
  obtain ⟨p, hp, rfl⟩ := mem_map.mp hl
  obtain ⟨hlabel, hwithin⟩ := mem_versions.mp (show (p.1, p.2) ∈ x.versions from hp)
  rw [hlabel, h p.2 hwithin]

theorem Unlabelled.reworded (h : x.Unlabelled) (hr : ∀ i : Info, (r i).label = i.label) (f : SpanText → SpanText) :
    (x.reworded r f).Unlabelled := by
  intro y hy
  obtain ⟨z, hz, rfl⟩ := within_reworded hy
  rw [info_reworded, hr, h z hz]

end Item

/-! ## One document -/

namespace Workspace

/-- A workspace with one document and nothing held. -/
structure Single (w : Workspace) (d : Document) : Prop where
  documents : w.documents = [("main", { content := .document d })]
  held : w.held = []
  distinct : d.root.Distinct w.next

/-- A changed item replaces the one at the end of its path. -/
theorem Single.commit (h : Single w d) (hx : d.root.follow path = .ok x) (hinfo : x'.info = x.info)
    (hlabels : (x'.labels.filter (· ≠ 0)).Sublist x.labels) :
    Single (w.commit x') { d with root := d.root.replaceAt path (x'.labelled w.next).1 } := by
  obtain ⟨hgraft, hdistinct⟩ := h.distinct.graft hx hinfo hlabels
  refine ⟨?_, ?_, hdistinct⟩
  · rw [Workspace.commit, h.documents, ← hgraft]
    rfl
  · rw [Workspace.commit, h.held]
    rfl

/-- The document after one edit: the tree is the same but for one item, which the edit changed. -/
theorem Single.apply (hnew : ∀ y, P y → y.stripped = y) {w' : Workspace} {e : Edit} (h : Single w d) (he : e.Brings P)
    (hw : e.apply w = .ok w') :
    ∃ root, Single w' { d with root } ∧ (root.stripped = d.root.stripped ∨ ∃ path y y',
      d.root.stripped.follow path = .ok y ∧ y.Change P y' ∧ root.stripped = d.root.stripped.replaceAt path y') := by
  rcases Edit.apply_cases he hw with rfl | ⟨x, x', hfind, rfl, ⟨-, hchange⟩ | ⟨-, rfl⟩⟩
  · exact ⟨d.root, h, .inl rfl⟩
  · have hfollow := follow_of_find h.documents h.held hfind
    have hunlabelled : ∀ y, P y → ∀ l ∈ y.labels, l = 0 := fun y hy => hnew y hy ▸ y.labels_stripped
    obtain ⟨hinfo, hlabels⟩ := hchange.labels hunlabelled
    refine ⟨_, h.commit hfollow hinfo hlabels, .inr ⟨_, _, _, follow_stripped hfollow, hchange.stripped hnew, ?_⟩⟩
    rw [stripped_replaceAt, stripped_labelled]
  · have hfollow := follow_of_find h.documents h.held hfind
    refine ⟨_, h.commit hfollow rfl filter_sublist, .inl ?_⟩
    rw [stripped_replaceAt, stripped_labelled]
    exact (replaced_replaceAt (follow_stripped hfollow)).self

/-- What every change of one item keeps, a sequence of edits keeps. -/
theorem Single.edited_of_brings (hnew : ∀ y, P y → y.stripped = y) {Inv : Item → Prop} (step : ∀ x path y y', Inv x → x.follow
      path = .ok y → y.Change P y' → Inv (x.replaceAt path y')) {es : List Edit} (h : Single w d) (hes : ∀ e ∈ es, e.Brings P)
    (hinv : Inv d.root.stripped) : ∃ root, Single (w.edited es) { d with root } ∧ Inv root.stripped := by
  induction es generalizing w d with
  | nil => exact ⟨d.root, h, hinv⟩
  | cons e es ih =>
    rw [forall_mem_cons] at hes
    rw [edited]
    split
    · next w' hw =>
      obtain ⟨root, hw', hroot⟩ := h.apply hnew hes.1 hw
      refine ih (d := { d with root }) hw' hes.2 ?_
      rcases hroot with hsame | ⟨path, y, y', hfollow, hchange, hroot⟩
      · exact hsame.symm ▸ hinv
      · exact hroot.symm ▸ step _ path y y' hinv hfollow hchange
    · exact ih h hes.2 hinv

theorem Single.edited {given : Item → Prop} (hP : Convertible given P) (hnew : ∀ y, P y → y.stripped = y)
    {Inv : Item → Prop} (step : ∀ x path y y', Inv x → x.follow path = .ok y → y.Change P y' → Inv (x.replaceAt path y'))
    (h : Single w d) (hes : ∀ e ∈ es, e.Carries given) :
    Inv d.root.stripped → ∃ root, Single (w.edited es) { d with root } ∧ Inv root.stripped :=
  h.edited_of_brings hnew step fun e he => (hes e he).brings hP

theorem single_put (h : d.root.Unlabelled) :
    Single (({} : Workspace).put "main" { content := .document d }) { d with root := (d.root.labelled 1).1 } := by
  refine ⟨rfl, rfl, distinct_labelled Nat.one_pos ?_ fun l hl => ?_⟩
  · rw [filter_eq_nil_iff.mpr fun l hl => by simpa using h.labels l hl]
    exact nodup_nil
  · rw [h.labels l hl]
    exact Nat.one_pos

/-- A new document is alone in its workspace. -/
theorem single_create : ∃ root, Single (({} : Workspace).create "main" true) { root } ∧
    root.stripped = emptyRoot.stripped :=
  ⟨_, single_put (unlabelled_iff.mpr ⟨rfl, forall_mem_nil _⟩), stripped_labelled ..⟩

theorem single_parse (h : ({} : Workspace).parse "main" options source true = .ok w) :
    ∃ o s, options.resolve .reader = .ok o ∧ Verbatim.parse o.readOptions source = .ok s ∧
      Single w { s.toDocument with root := (s.toDocument.root.labelled 1).1 } := by
  rw [parse] at h
  obtain ⟨o, ho, h⟩ := bind_eq_ok.mp h
  obtain ⟨s, hs, h⟩ := bind_eq_ok.mp h
  cases h
  have hparse := mapError_eq_ok.mp hs
  obtain ⟨text, mode, root, trailing, -, -, hread, rfl⟩ := parse_eq_ok hparse
  refine ⟨o, _, ho, hparse, single_put ?_⟩
  -- handing over keeps the labels, of which there are none
  have hunlabelled := readTree_unlabelled hread
  rw [Snapshot.toDocument]
  dsimp only
  rw [freeze_eq_reworded, detach_eq_reworded]
  refine Unlabelled.reworded (Unlabelled.reworded hunlabelled ?_ _) ?_ _ <;> exact fun _ => rfl

end Workspace

end Verbatim

import Verbatim.Proofs.Placement
import Verbatim.Proofs.Tree

/-!
# Trees with other values

Where a line goes in a tree does not depend on the values there. So a tree with other values in it is put together by the same
steps, from lines with those values; and what the values of a tree hold together is what the lines hold.
-/

namespace Verbatim

open List Render Item

variable {x fresh : Item} {es es' x' : List (Entry Item)} {f : TableForm} {leaf : Entry Item} {ks : List Key} {ls : List Line}

def Item.onItem (g : Item → Item) (e : Entry Item) : Entry Item := { e with item := g e.item }

/-- Tables, and whatever dotted keys made, are there for the sake of what is in them. -/
def Item.isFrame (x : Item) : Bool := !x.isValue || x.isDotted

namespace Item

theorem isValue_mapMembers (g : Item → Item) (x : Item) : (x.mapMembers g).isValue = x.isValue := by cases x <;> rfl

theorem isTable_of_isValue (h : x.isValue = true) : x.isTable = false := by
  cases x with
  | table i f es => cases h
  | _ => rfl

theorem isDotted_mapMembers (g : Item → Item) (x : Item) : (x.mapMembers g).isDotted = x.isDotted := by cases x <;> rfl

theorem entries_mapMembers (g : Item → Item) (x : Item) : (x.mapMembers g).entries = x.entries.map (onItem g) := by
  cases x <;> rfl

theorem names_onItem (g : Item → Item) (es : List (Entry Item)) : (es.map (onItem g)).map Entry.name = es.map Entry.name := by
  rw [map_map]
  rfl

end Item

/-! ## Changing values -/

/-- A map of items that leaves tables as they are but for their members, and makes values of values. -/
structure ValueMap (g : Item → Item) : Prop where
  frame : ∀ x : Item, x.isFrame = true → g x = x.mapMembers g
  isValue : ∀ x : Item, x.isFrame = false → (g x).isValue = true
  notDotted : ∀ x : Item, x.isFrame = false → (g x).isDotted = false

namespace ValueMap

open Item

variable {g : Item → Item} (hg : ValueMap g)
include hg

theorem isValue_eq (x : Item) : (g x).isValue = x.isValue := by
  cases hx : x.isFrame with
  | true => rw [hg.frame x hx, isValue_mapMembers]
  | false =>
    rw [hg.isValue x hx]
    simp only [isFrame, Bool.or_eq_false_iff, Bool.not_eq_false'] at hx
    exact hx.1.symm

theorem isDotted_eq (x : Item) : (g x).isDotted = x.isDotted := by
  cases hx : x.isFrame with
  | true => rw [hg.frame x hx, isDotted_mapMembers]
  | false =>
    rw [hg.notDotted x hx]
    simp only [isFrame, Bool.or_eq_false_iff] at hx
    exact hx.2.symm

theorem table (i : Info) (f : TableForm) (es : List (Entry Item)) : g (.table i f es) = .table i f (es.map (onItem g)) :=
  hg.frame _ rfl

theorem arrayOfTables (i : Info) (ts : List Item) : g (.arrayOfTables i ts) = .arrayOfTables i (ts.map g) := hg.frame _ rfl

theorem entries_of_isDotted (h : x.isDotted = true) : (g x).entries = x.entries.map (onItem g) := by
  rw [hg.frame x (by simp [isFrame, h]), entries_mapMembers]

theorem withEntries_of_isDotted (h : x.isDotted = true) (sub : List (Entry Item)) :
    g (x.withEntries sub) = (g x).withEntries (sub.map (onItem g)) := by
  have hframe : ∀ y : Item, y.isDotted = true → g y = y.mapMembers g := fun y hy => hg.frame y (by simp [isFrame, hy])
  rw [hframe x h, hframe _ ((isDottedTable h).dotted sub)]
  cases x with
  | inlineTable i f es => rfl
  | table i f es => rfl
  | _ => cases h

theorem isTable_eq (x : Item) : (g x).isTable = x.isTable := by
  cases x with
  | table i f es => rw [hg.table]; rfl
  | arrayOfTables i ts => rw [hg.arrayOfTables]; rfl
  | _ => exact isTable_of_isValue (hg.isValue_eq _)

theorem hasBodyLine_eq (e : Entry Item) : hasBodyLine (onItem g e) = hasBodyLine e := by
  simp only [hasBodyLine, onItem, hg.isValue_eq, hg.isDotted_eq, hg.isTable_eq]

theorem any_hasBodyLine (es : List (Entry Item)) :
    (es.map (onItem g)).any hasBodyLine = es.any hasBodyLine := by
  rw [any_map]
  exact congrArg es.any (funext hg.hasBodyLine_eq)

end ValueMap

section Mapped

open Item

variable {g : Item → Item} (hg : ValueMap g)
include hg

theorem Dotting.mapped (h : Dotting es) : Dotting (es.map (onItem g)) := by
  induction h with
  | @intro es names lines below ih =>
    refine .intro (by rwa [names_onItem]) ?_ ?_ <;> simp only [forall_mem_map]
    · intro e he hd hv
      exact lines e he ((hg.isDotted_eq e.item).symm.trans hd) ((hg.isValue_eq e.item).symm.trans hv)
    · intro e he hd
      have hd : e.item.isDotted = true := (hg.isDotted_eq e.item).symm.trans hd
      rw [onItem, hg.entries_of_isDotted hd]
      exact ih e he hd

theorem Item.Sound.mapped (h : x.Sound) : (g x).Sound := by
  cases x with
  | table i f sub =>
    rw [hg.table]
    refine h.imp id fun ⟨himplicit, hnone⟩ => ⟨himplicit, fun hd => ?_⟩
    rw [hg.any_hasBodyLine]
    exact hnone hd
  | arrayOfTables i ts =>
    rw [hg.arrayOfTables]
    intro t ht
    obtain ⟨u, hu, rfl⟩ := mem_map.mp ht
    obtain ⟨j, f, sub, rfl, hheader⟩ := h u hu
    exact ⟨j, f, sub.map (onItem g), hg.table j f sub, hheader⟩
  | inlineTable i f es => exact sound_of_isValue (hg.isValue_eq _) ((hg.isDotted_eq _).trans h)
  | _ => exact sound_of_isValue (hg.isValue_eq _) (hg.isDotted_eq _)

theorem Built.mapped (h : Built es) : Built (es.map (onItem g)) := by
  induction h with
  | @intro es dotting sound below ih =>
    refine .intro (dotting.mapped hg) ?_ ?_ <;> simp only [forall_mem_map]
    · exact fun e he => (sound e he).mapped hg
    · intro e he sub hsub
      have hsound := sound e he
      have hih := ih e he
      rw [onItem] at hsub
      generalize e.item = x at hsound hih hsub
      cases x with
      | table i f es =>
        rw [hg.table, bodies, mem_singleton] at hsub
        rw [hsub]
        exact hih es (mem_singleton.mpr rfl)
      | arrayOfTables i ts =>
        rw [hg.arrayOfTables, bodies, map_map] at hsub
        obtain ⟨t, ht, rfl⟩ := mem_map.mp hsub
        obtain ⟨j, f, sub, rfl, -⟩ := hsound t ht
        rw [Function.comp, hg.table]
        exact hih sub (mem_map.mpr ⟨_, ht, rfl⟩)
      | _ =>
        rw [bodies_of_isValue (hg.isValue_eq _)] at hsub
        cases hsub

/-- The way through a tree with other values leads to the same table. -/
theorem Item.LeadsTo.mapped (h : x.LeadsTo f sub rebuild) :
    ∃ rebuild', (g x).LeadsTo f (sub.map (onItem g)) rebuild' ∧
      ∀ sub', g (rebuild sub') = rebuild' (sub'.map (onItem g)) := by
  cases h with
  | @table i =>
    refine ⟨Item.table i f, ?_, fun sub' => hg.table i f sub'⟩
    rw [hg.table]
    exact .table
  | @element i j ts =>
    refine ⟨fun sub' => .arrayOfTables i (ts.map g ++ [.table j f sub']), ?_, fun sub' => ?_⟩
    · rw [hg.arrayOfTables, map_append, map_singleton, hg.table]
      exact .element
    · rw [hg.arrayOfTables, map_append, map_singleton, hg.table]

theorem Below.mapped (hchange : ∀ f x x', change f x x' → change' f (x.map (onItem g)) (x'.map (onItem g)))
    (h : Below change f names es es') : Below change' f names (es.map (onItem g)) (es'.map (onItem g)) := by
  induction h with
  | here hlocal => exact .here (hchange _ _ _ hlocal)
  | @enter f f' pre post sub sub' e names rebuild item rest ih =>
    obtain ⟨rebuild', hitem, hrebuild⟩ := item.mapped hg
    simp only [map_append, map_cons]
    have hnew : onItem g { e with item := rebuild sub' } = { onItem g e with item := rebuild' (sub'.map (onItem g)) } := by
      simp only [onItem, hrebuild]
    rw [hnew]
    exact .enter (e := onItem g e) hitem ih

/-- A header brings no values along. -/
theorem Header.freshEntry_mapped (h : Header) (ks : List Key) : onItem g (h.freshEntry ks) = h.freshEntry ks := by
  have htable : g (h.table []) = h.table [] := hg.table ..
  induction ks with
  | nil =>
    simp only [onItem, Header.freshEntry]
    split
    · rw [hg.arrayOfTables, map_singleton, htable]
    · rw [htable]
  | cons k ks ih =>
    have hitem : (h.freshEntry (k :: ks)).item = .table {} { implicit := true } [h.freshEntry ks] := rfl
    rw [onItem, hitem, hg.table, map_singleton, ih]
    rfl

theorem HeaderChange.mapped {h : Header} {rest : List Key} {x : List (Entry Item)} (hchange : HeaderChange h rest x x') :
    HeaderChange h rest (x.map (onItem g)) (x'.map (onItem g)) := by
  cases hchange with
  | fresh absent =>
    rw [map_append, map_singleton, h.freshEntry_mapped hg]
    exact .fresh (by rwa [names_onItem])
  | @promote pre post sub e i f single name item implied notDotted =>
    simp only [map_append, map_cons]
    have hnew : onItem g { e with item := h.table sub } = { onItem g e with item := h.table (sub.map (onItem g)) } := by
      simp only [onItem, Header.table, hg.table]
    rw [hnew]
    exact .promote (e := onItem g e) single name (by rw [onItem, item, hg.table]) implied notDotted
  | @append pre post e i ts array name item =>
    simp only [map_append, map_cons]
    have htable : g (h.table []) = h.table [] := hg.table ..
    have hnew : onItem g { e with item := .arrayOfTables i (ts ++ [h.table []]) } =
        { onItem g e with item := .arrayOfTables i (ts.map g ++ [h.table []]) } := by
      simp only [onItem, hg.arrayOfTables, map_append, map_singleton, htable]
    rw [hnew]
    exact .append (e := onItem g e) array name (by rw [onItem, item, hg.arrayOfTables])

theorem DottedRun.mapped (hfresh : fresh.isDotted = true) (hempty : fresh.entries = []) (h : DottedRun fresh leaf ks es es') :
    DottedRun fresh (onItem g leaf) ks (es.map (onItem g)) (es'.map (onItem g)) := by
  induction h with
  | leaf absent =>
    rw [map_append, map_singleton]
    exact .leaf (by rwa [names_onItem])
  | @make k ks es sub absent rest ih =>
    have hself : g fresh = fresh := by
      rw [hg.frame fresh (by simp [isFrame, hfresh])]
      cases fresh with
      | table i f es => exact congrArg (table i f) (by rw [show es = [] from hempty]; rfl)
      | inlineTable i f es => exact congrArg (inlineTable i f) (by rw [show es = [] from hempty]; rfl)
      | scalar i s => rfl
      | _ => cases hfresh
    have hnew : onItem g { key := k.bare, item := fresh.withEntries sub } =
        { key := k.bare, item := fresh.withEntries (sub.map (onItem g)) } := by
      simp only [onItem, hg.withEntries_of_isDotted hfresh, hself]
    rw [map_append, map_singleton, hnew]
    exact .make (by rwa [names_onItem]) ih
  | @enter k ks pre post sub e name dotted rest ih =>
    simp only [map_append, map_cons]
    have hnew : onItem g { e with item := e.item.withEntries sub } =
        { onItem g e with item := (onItem g e).item.withEntries (sub.map (onItem g)) } := by
      simp only [onItem, hg.withEntries_of_isDotted dotted]
    rw [hnew]
    rw [← hg.entries_of_isDotted dotted] at ih
    exact .enter (e := onItem g e) name ((hg.isDotted_eq e.item).trans dotted) ih

end Mapped

/-- A line with its value changed. -/
def Line.mapped (g : Item → Item) : Line → Line
  | .header h => .header h
  | .entry l => .entry { l with value := g l.value }

theorem EntryChange.mapped (hg : ValueMap g) {x : List (Entry Item)} (h : EntryChange open_ l f x x') :
    EntryChange open_ { l with value := g l.value } f (x.map (onItem g)) (x'.map (onItem g)) :=
  ⟨h.1, h.2.mapped hg rfl rfl⟩

/-! ## Collecting from trees -/

/-- What entries have together: what comes from them with their places, and what their items have. -/
def collected {α : Type} (place : Option Int → Item → List α) (m : Item → List α) (es : List (Entry Item)) : List α :=
  es.flatMap fun e => place e.position e.item ++ m e.item

/-- Something that is collected from entries that have a place, from tables that have a header, and from values. -/
structure TreeMeasure {α : Type} (place : Option Int → Item → List α) (form : Info → TableForm → List α) (m : Item → List α) : Prop where
  table : ∀ i f es, m (.table i f es) = form i f ++ collected place m es
  arrayOfTables : ∀ i ts, m (.arrayOfTables i ts) = ts.flatMap m
  dotted : ∀ x : Item, x.isDotted = true → m x = collected place m x.entries
  implied : ∀ (i : Info) (f : TableForm), f.implicit = true → form i f = []
  unplaced : ∀ x, place none x = []
  frames : ∀ p (x y : Item), x.isFrame = true → y.isFrame = true → place p x = place p y

def Line.measured {α : Type} (place : Option Int → Item → List α) (form : Info → TableForm → List α) (m : Item → List α) : Line → List α
  | .header h => form { span := some h.span } h.form
  | .entry l => place (some l.number) l.value ++ m l.value

/-- What one entry gains by another item, the entries gain. -/
theorem collected_replaced {place : Option Int → Item → List α} (hplace : place e.position y = place e.position e.item)
    (h : (m y).Perm (m e.item ++ added)) :
    (collected place m (pre ++ { e with item := y } :: post)).Perm (collected place m (pre ++ e :: post) ++ added) := by
  simp only [collected, flatMap_append, flatMap_cons, append_assoc, hplace]
  refine Perm.append_left _ (Perm.append_left _ ((h.append_right _).trans ?_))
  rw [append_assoc]
  exact perm_append_comm.append_left _

section Measured

open Item

variable {α : Type} {place : Option Int → Item → List α} {form : Info → TableForm → List α} {m : Item → List α}
  (hm : TreeMeasure place form m)
include hm

theorem DottedRun.collected (hfresh : IsDottedTable fresh) (h : DottedRun fresh leaf ks es es') :
    (collected place m es').Perm (collected place m es ++ (place leaf.position leaf.item ++ m leaf.item)) := by
  induction h with
  | leaf absent => simp [Verbatim.collected]
  | @make k ks es sub absent rest ih =>
    have hitem : m (fresh.withEntries sub) = Verbatim.collected place m sub := by
      rw [hm.dotted _ (hfresh.dotted sub), hfresh.entries]
    simp only [Verbatim.collected, flatMap_append, flatMap_singleton, hitem, hm.unplaced, nil_append] at ih ⊢
    exact ih.append_left _
  | @enter k ks pre post sub e name dotted rest ih =>
    have htable := isDottedTable dotted
    have hnew : m (e.item.withEntries sub) = Verbatim.collected place m sub := by
      rw [hm.dotted _ (htable.dotted sub), htable.entries]
    rw [← hm.dotted _ dotted, ← hnew] at ih
    exact collected_replaced (hm.frames _ _ _ (by simp [isFrame, htable.dotted]) (by simp [isFrame, dotted])) ih

theorem HeaderChange.collected {h : Header} {rest : List Key} {x : List (Entry Item)} (hchange : HeaderChange h rest x x') :
    (collected place m x').Perm (collected place m x ++ form { span := some h.span } h.form) := by
  have htable : ∀ sub, m (h.table sub) = form { span := some h.span } h.form ++ Verbatim.collected place m sub := fun sub => hm.table ..
  have hnone : m (h.table []) = form { span := some h.span } h.form := (htable []).trans (append_nil _)
  cases hchange with
  | fresh absent =>
    have hfresh : ∀ ks, place (h.freshEntry ks).position (h.freshEntry ks).item ++ m (h.freshEntry ks).item = form { span := some h.span } h.form := by
      intro ks
      induction ks with
      | nil =>
        rw [Header.freshEntry]
        dsimp only
        rw [hm.unplaced, nil_append]
        split
        · rw [hm.arrayOfTables, flatMap_singleton, hnone]
        · exact hnone
      | cons k ks ih =>
        have hitem : (h.freshEntry (k :: ks)).item = .table {} { implicit := true } [h.freshEntry ks] := rfl
        have hposition : (h.freshEntry (k :: ks)).position = none := rfl
        rw [hitem, hposition, hm.unplaced, hm.table, hm.implied _ _ rfl, Verbatim.collected, flatMap_singleton, ih]
        rfl
    simp [Verbatim.collected, hfresh]
  | @promote pre post sub e i f single name item implied notDotted =>
    refine collected_replaced (hm.frames _ _ _ rfl (by rw [item]; rfl)) ?_
    rw [htable, item, hm.table, hm.implied _ _ implied]
    exact perm_append_comm
  | @append pre post e i ts array name item =>
    refine collected_replaced (hm.frames _ _ _ rfl (by rw [item]; rfl)) ?_
    rw [item, hm.arrayOfTables, hm.arrayOfTables, flatMap_append, flatMap_singleton, hnone]

/-- What one table gains, the tree gains. -/
theorem Below.collected
    (hchange : ∀ f x x', change f x x' → (collected place m x').Perm (collected place m x ++ added))
    (h : Below change f names es es') : (collected place m es').Perm (collected place m es ++ added) := by
  induction h with
  | here hlocal => exact hchange _ _ _ hlocal
  | @enter f f' pre post sub sub' e names rebuild item rest ih =>
    have hitem : (rebuild sub').isFrame = true ∧ e.item.isFrame = true ∧ (m (rebuild sub')).Perm (m e.item ++ added) := by
      generalize e.item = x at item ⊢
      cases item with
      | table =>
        rw [hm.table, hm.table, append_assoc]
        exact ⟨rfl, rfl, ih.append_left _⟩
      | @element i j ts =>
        simp only [hm.arrayOfTables, flatMap_append, flatMap_singleton, hm.table, append_assoc]
        exact ⟨rfl, rfl, (ih.append_left _).append_left _⟩
    exact collected_replaced (hm.frames _ _ _ hitem.1 hitem.2.1) hitem.2.2

theorem Assembly.collected_add {a a' : Assembly} (ha : a.Ready f) (hl : l.Proper) (hadd : a.add l = .ok a') :
    (∃ f', a'.Ready f') ∧
      (collected place m a'.entries).Perm (collected place m a.entries ++ l.measured place form m) := by
  cases l with
  | header h =>
    obtain ⟨hready, -, lead, rest, -, hbelow⟩ := Assembly.add_header ha hadd
    exact ⟨⟨_, hready⟩, hbelow.collected hm fun _ x x' hchange => hchange.collected hm⟩
  | entry l =>
    obtain ⟨hready, -, hbelow⟩ := Assembly.add_entry ha hl hadd
    exact ⟨⟨_, hready⟩, hbelow.collected hm fun _ x x' hchange => hchange.2.collected hm isDottedTable_dottedTable⟩

theorem Assembly.collected_addAll {a a' : Assembly} (ha : a.Ready f) (hls : ∀ l ∈ ls, l.Proper) (hadd : a.addAll ls = .ok a') :
    (collected place m a'.entries).Perm (collected place m a.entries ++ ls.flatMap (Line.measured place form m)) := by
  induction ls generalizing a f with
  | nil =>
    cases hadd
    simp
  | cons l ls ih =>
    rw [forall_mem_cons] at hls
    rw [Assembly.addAll] at hadd
    split at hadd
    · cases hadd
    · next a₁ hl =>
      obtain ⟨⟨f', hready⟩, hperm⟩ := Assembly.collected_add hm ha hls.1 hl
      refine (ih hready hls.2 hadd).trans ((hperm.append_right _).trans ?_)
      rw [append_assoc, flatMap_cons]

/-- What an assembled tree has is what its lines bring. -/
theorem assemble_collected {root : Item} (hls : ∀ l ∈ ls, l.Proper) (h : assemble ls = .ok root) :
    (m root).Perm (form {} rootForm ++ ls.flatMap (Line.measured place form m)) := by
  rw [assemble] at h
  split at h
  · cases h
  · next a hadd =>
    cases h
    have hroot : emptyRoot.withEntries a.entries = .table {} rootForm a.entries := rfl
    rw [hroot, hm.table]
    exact (Assembly.collected_addAll hm Assembly.ready_empty hls hadd).append_left _

end Measured

/-! ## Collecting from values -/

/-- Something that is collected from values: of tables, and of what dotted keys made, it is what their members have. -/
def ValueMeasure {α : Type} (m : Item → List α) : Prop := ∀ x : Item, x.isFrame = true → m x = x.children.flatMap m

/-- What the items of entries have together. -/
def gathered {α : Type} (m : Item → List α) (es : List (Entry Item)) : List α := es.flatMap fun e => m e.item

def Line.values : Line → List Item
  | .header _ => []
  | .entry l => [l.value]

section Values

variable {α : Type} {m : Item → List α} (hm : ValueMeasure m)
include hm

theorem ValueMeasure.treeMeasure : TreeMeasure (fun _ _ => []) (fun _ _ => []) m where
  table i f es := by
    rw [hm _ rfl, children, flatMap_map]
    rfl
  arrayOfTables i ts := hm _ rfl
  dotted x hx := by
    rw [hm x (by simp [isFrame, hx])]
    cases x with
    | inlineTable i f es => exact flatMap_map ..
    | table i f es => exact flatMap_map ..
    | _ => cases hx
  implied _ _ _ := rfl
  unplaced _ := rfl
  frames _ _ _ _ _ := rfl

theorem DottedRun.gathered (hfresh : IsDottedTable fresh) (h : DottedRun fresh leaf ks es es') :
    (gathered m es').Perm (gathered m es ++ m leaf.item) :=
  h.collected hm.treeMeasure hfresh

/-- The values of an assembled tree are those of its lines. -/
theorem assemble_gathered (hls : ∀ l ∈ ls, l.Proper) (h : assemble ls = .ok root) :
    (m root).Perm (ls.flatMap fun l => l.values.flatMap m) := by
  refine (assemble_collected hm.treeMeasure hls h).trans (.of_eq (flatMap_congr fun l _ => ?_))
  cases l with
  | header h => rfl
  | entry l => exact (flatMap_singleton ..).symm

end Values

end Verbatim

import Verbatim.Proofs.RecordedOrder

/-!
# The shape of a tree that was read

Three kinds of lines make a tree, and each runs through tables that earlier lines made: a header through implied tables and
the last elements of arrays, an entry line and an entry of an inline table through dotted tables. The shape of the tree is
what all of them keep.

## Main definitions

- `ShapedValue`, `ShapedInline` - values, and the entries of an inline table.
- `Shaped` - the entries of a table, with the names that lead there.

## Main statements

- `readTree_shaped` - the tree of a text is shaped.
- `parseTree_shaped` - so is every tree that the tree builder accepts.
-/

namespace Verbatim

open List

variable {x : Item} {dotted : List String} {e : Entry Item} {es : List (Entry Item)} {limit : Nat} {o : Owner}

/-! ## Values -/

mutual

/-- Arrays and inline tables hold values, and no value is dotted. -/
inductive ShapedValue : Item → Prop where
  | scalar {i : Info} {s : Scalar} : ShapedValue (.scalar i s)
  | array {i : Info} {f : ArrayForm} {vs : List Item} (members : ∀ v ∈ vs, ShapedValue v) : ShapedValue (.array i f vs)
  | inlineTable {i : Info} {f : InlineForm} {es : List (Entry Item)} (plain : f.dotted = false)
      (entries : ∀ e ∈ es, ShapedInline [] e) : ShapedValue (.inlineTable i f es)

/-- An entry of an inline table holds a value, to which its key path leads, or a dotted inline table that is not empty. The
names lead through the dotted tables around it. -/
inductive ShapedInline : List String → Entry Item → Prop where
  | value {dotted : List String} {e : Entry Item} (item : ShapedValue e.item) (lead : e.lead = dotted) : ShapedInline dotted e
  | dotted {dotted : List String} {e : Entry Item} {i : Info} {f : InlineForm} {es : List (Entry Item)}
      (item : e.item = .inlineTable i f es) (isDotted : f.dotted = true) (nonempty : es ≠ [])
      (below : ∀ d ∈ es, ShapedInline (dotted ++ [e.name]) d) : ShapedInline dotted e

end

theorem ShapedValue.isDotted (h : ShapedValue x) : x.isDotted = false := by
  cases h with
  | inlineTable plain => exact plain
  | _ => rfl

theorem ShapedValue.withDecor (d : Decor) (h : ShapedValue x) : ShapedValue (x.withDecor d) := by
  cases h with
  | scalar => exact .scalar
  | array members => exact .array members
  | inlineTable plain entries => exact .inlineTable plain entries

/-- An entry below its dotted key keeps the shape of an inline table. -/
theorem DottedRun.shaped {leaf : Entry Item} (hleaf : ShapedValue leaf.item)
    (h : DottedRun dottedInlineTable leaf ks es es') (hlead : leaf.lead = dotted ++ ks.map Key.name)
    (hes : ∀ e ∈ es, ShapedInline dotted e) : es' ≠ [] ∧ ∀ e ∈ es', ShapedInline dotted e := by
  induction h generalizing dotted with
  | leaf absent =>
    rw [map_nil, append_nil] at hlead
    exact ⟨by simp, forall_mem_append.mpr ⟨hes, forall_mem_singleton.mpr (.value hleaf hlead)⟩⟩
  | @make k ks es sub absent rest ih =>
    have hlead : leaf.lead = dotted ++ [k.name] ++ ks.map Key.name := by simpa using hlead
    obtain ⟨hne, hsub⟩ := ih hlead (by simp)
    exact ⟨by simp, forall_mem_append.mpr ⟨hes, forall_mem_singleton.mpr (.dotted rfl rfl hne hsub)⟩⟩
  | @enter k ks pre post sub e name isDotted rest ih =>
    simp only [forall_mem_append, forall_mem_cons] at hes ⊢
    refine ⟨by simp, hes.1, ?_, hes.2.2⟩
    -- a dotted entry is no value
    cases hes.2.1 with
    | value item => cases isDotted.symm.trans item.isDotted
    | dotted item isDotted nonempty below =>
      obtain ⟨key, x, path, position, newline⟩ := e
      cases item
      have hlead : leaf.lead = dotted ++ [key.name] ++ ks.map Key.name := by
        simpa [show key.name = k.name from name] using hlead
      obtain ⟨hne, hsub⟩ := ih hlead below
      exact .dotted rfl isDotted hne hsub

theorem valueItem_shaped {levels depth : Nat} (h : valueItem limit levels depth s = .ok (v, s')) :
    ShapedValue v := by
  refine valueItem_forall (I := fun es => ∀ e ∈ es, ShapedInline [] e) (fun d hv => hv.withDecor d) (fun _ _ _ => .scalar)
    (fun _ _ _ _ _ _ hvs => .array hvs) (fun _ _ _ _ hf hes => .inlineTable hf hes) (by simp) ?_ h
  intro leaf ks es es' hrun hleaf hlead hes
  exact (hrun.shaped hleaf hlead hes).2

/-! ## Tables -/

/-- The entries of a table, with the names that lead to it from the root and those of the dotted tables that lead to it from
the table in whose body its entries stand. -/
inductive Shaped : List String → List String → List (Entry Item) → Prop where
  | intro {path dotted : List String} {es : List (Entry Item)}
      -- an entry is found by the name of its key only
      (names : (es.map Entry.name).Nodup)
      (values : ∀ e ∈ es, e.item.isValue = true → ShapedValue e.item ∧ e.lead = dotted)
      (arrays : ∀ e ∈ es, ∀ i ts, e.item = .arrayOfTables i ts →
        ts ≠ [] ∧ ∀ t ∈ ts, ∃ j f sub, t = .table j f sub ∧ f.headerKeys.isSome = true)
      (forms : ∀ e ∈ es, ∀ i f sub, e.item.HasTable i f sub → f.Recorded (path ++ [e.name]))
      (implied : ∀ e ∈ es, ∀ i f sub, e.item.HasTable i f sub → f.implicit = true → f.dotted = false →
        sub.any Render.hasBodyLine = false)
      (dottedTables : ∀ e ∈ es, ∀ i f sub, e.item.HasTable i f sub → f.dotted = true → sub ≠ [])
      (below : ∀ e ∈ es, ∀ i f sub, e.item.HasTable i f sub →
        Shaped (path ++ [e.name]) (Law.dottedPrefix f dotted e.name) sub) : Shaped path dotted es

/-- A tree with a root of its own. -/
def ShapedRoot (root : Item) : Prop := ∃ es, root = .table {} rootForm es ∧ Shaped [] [] es

private theorem Arranged.hasTable (h : Arranged o es) (he : e ∈ es) (hhas : e.item.HasTable i f sub) :
    ∃ o', Arranged o' sub := by
  obtain ⟨key, x, path, position, newline⟩ := e
  cases hhas with
  | self => exact ⟨_, ((h _ he).tables rfl).2⟩
  | element hmem => exact ⟨_, ((h _ he).elements rfl).2.2.2 _ hmem⟩

/-- A dotted table has no header of its own, so a line below it made it. -/
private theorem Arranged.dotted_ne_nil (h : Arranged o es) (he : e ∈ es) (hitem : e.item = .table i f sub)
    (hd : f.dotted = true) : sub ≠ [] := by
  rintro rfl
  have hdotted : e.item.isDotted = true := hitem ▸ hd
  rcases ((h e he).tables (hitem ▸ rfl)).1 with htimes | ⟨q, d, hpath⟩
  · refine htimes ?_
    rw [hitem, Item.times_table, timesIn, flatMap_nil, append_nil, TableForm.time?, hd]
    rfl
  · cases hpath with
    | value mem isValue plain =>
      rw [mem_singleton.mp mem, hdotted] at plain
      cases plain
    | dotted mem isDotted below =>
      rw [mem_singleton.mp mem, hitem] at below
      cases below <;> contradiction

/-- What the lines record and the order in which they came give a table its shape. -/
private theorem Law.Holds.shaped (h : (Law.recorded ShapedValue).Holds path dotted es) (hbuilt : Built es)
    (harranged : Arranged o es) : Shaped path dotted es := by
  induction h generalizing o with
  | @intro path dotted es entry tables below ih =>
    refine .intro hbuilt.dotting.names ?_ ?_ (fun e he i f sub hhas => (tables e he i f sub hhas).2) ?_ ?_ ?_
    · intro e he hv
      obtain ⟨hlead, hitem, -⟩ := (entry e he).line hv
      exact ⟨hitem, hlead⟩
    · intro e he i ts hitem
      refine ⟨((harranged e he).elements hitem).1, fun t ht => ?_⟩
      have hsound := hbuilt.sound he
      rw [hitem] at hsound
      obtain ⟨j, f, sub, rfl, hheader⟩ := hsound t ht
      refine ⟨j, f, sub, rfl, ?_⟩
      have hform := (tables e he j f sub (hitem ▸ .element ht)).2
      cases hkeys : f.headerKeys with
      | some ks => rfl
      | none => cases hheader.explicit.symm.trans (hform.bare hkeys)
    · intro e he i f sub hhas himplicit hd
      rcases (hbuilt.hasTable he hhas).2 with hheader | ⟨-, hnone⟩
      · cases hheader.explicit.symm.trans himplicit
      · exact hnone hd
    · intro e he i f sub hhas hd
      cases hitem : e.item with
      | table j g sub' =>
        rw [hitem] at hhas
        cases hhas
        exact harranged.dotted_ne_nil he hitem hd
      | arrayOfTables j ts =>
        have hsound := hbuilt.sound he
        rw [hitem] at hhas hsound
        cases hhas with
        | element hmem =>
          obtain ⟨j', f', sub', heq, hheader⟩ := hsound _ hmem
          cases heq
          cases hheader.notDotted.symm.trans hd
      | _ =>
        rw [hitem] at hhas
        cases hhas
    · intro e he i f sub hhas
      obtain ⟨o', hsub⟩ := harranged.hasTable he hhas
      exact ih e he i f sub hhas (hbuilt.hasTable he hhas).1 hsub

theorem readTree_shaped (h : readTree limit source = .ok (root, trailing)) : ShapedRoot root := by
  obtain ⟨hroot, hbuilt, hholds⟩ :=
    Law.holds_recorded (P := ShapedValue) (fun hv d => (valueItem_shaped hv).withDecor d) h
  exact ⟨_, hroot, hholds.shaped hbuilt (readTree_ordered h).1⟩

/-- **Every tree that the tree builder accepts is shaped.** Headers spell the paths to their tables and key paths those to
their values, implied tables hold tables only, dotted tables and arrays of tables are not empty, and values hold values. -/
theorem parseTree_shaped {options : ReadOptions} {source : List Char} {root : Item} {trailing : SpanText}
    (h : parseTree options source = .ok (root, trailing)) : ShapedRoot root := by
  rw [parseTree] at h
  split at h
  · next tree hread =>
    cases h
    exact readTree_shaped hread
  · cases h

theorem parseTree_shaped_scattered :
    ∃ tree, parseTree {} scatteredText.toList = .ok tree ∧ ShapedRoot tree.1 := by
  have hok : (parseTree {} scatteredText.toList).isOk = true := by decide +kernel
  cases h : parseTree {} scatteredText.toList with
  | error e =>
    rw [h] at hok
    cases hok
  | ok tree => exact ⟨tree, rfl, parseTree_shaped h⟩

end Verbatim

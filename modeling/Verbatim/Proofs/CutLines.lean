import Verbatim.Proofs.LineTexts

/-!
# Deleted lines

An entry that is deleted takes its lines along, wherever in the text they stand: its own line, or the headers and lines of
the tables below it. All other lines keep their places, and so their order and their characters.

## Main definitions

- `Entry.HasLine` - the numbers of the lines of an entry.

## Main statements

- `Replaced.loses` - a tree without an entry has lost the lines of that entry.
- `Workspace.erase_cuts_lines` - deleting an entry cuts its lines out of the text.
-/

namespace Verbatim

open List Render Item

variable {es sub : List (Entry Item)} {i : Info} {f : TableForm} {N : Int → Prop} {e : Entry Item}

/-- An entry has a line of a number: its own, the header of a table below it or a line of such a table. -/
inductive Entry.HasLine : Entry Item → Int → Prop where
  | value {e : Entry Item} {n : Int} (isValue : e.item.isValue = true) (position : e.position = some n) : HasLine e n
  | header {e : Entry Item} {n : Int} {i : Info} {f : TableForm} {sub : List (Entry Item)} (table : e.item.HasTable i f sub)
      (explicit : f.implicit = false) (position : f.position = some n) : HasLine e n
  | inner {e d : Entry Item} {n : Int} {i : Info} {f : TableForm} {sub : List (Entry Item)} (table : e.item.HasTable i f sub)
      (mem : d ∈ sub) (line : HasLine d n) : HasLine e n

variable (source : Option (List Char))

/-! ## The lines of an entry -/

namespace Entry

variable {e : Entry Item} {n : Int}

private theorem hasLine_value (hv : e.item.isValue = true) : e.HasLine n ↔ e.position = some n := by
  refine ⟨?_, .value hv⟩
  rintro (⟨-, hn⟩ | ⟨htable, -, -⟩ | ⟨htable, -, -⟩)
  · exact hn
  · cases hv.symm.trans htable.isValue
  · cases hv.symm.trans htable.isValue

private theorem hasLine_tables (hv : e.item.isValue = false) : e.HasLine n ↔ ∃ i f sub, e.item.HasTable i f sub ∧
    ((f.implicit = false ∧ f.position = some n) ∨ ∃ d ∈ sub, d.HasLine n) := by
  constructor
  · rintro (⟨hv', -⟩ | ⟨htable, hexplicit, hn⟩ | ⟨htable, hmem, hline⟩)
    · cases hv.symm.trans hv'
    · exact ⟨_, _, _, htable, .inl ⟨hexplicit, hn⟩⟩
    · exact ⟨_, _, _, htable, .inr ⟨_, hmem, hline⟩⟩
  · rintro ⟨i, f, sub, htable, ⟨hexplicit, hn⟩ | ⟨d, hmem, hline⟩⟩
    · exact .header htable hexplicit hn
    · exact .inner htable hmem hline

end Entry

private theorem Built.value_line (h : Built es) (he : e ∈ es) (hv : e.item.isValue = true) :
    e.item.isDotted = false ∧ ∃ n, e.position = some n := by
  have hd : e.item.isDotted = false := by
    have hsound := h.sound he
    generalize e.item = x at hv hsound
    cases x with
    | inlineTable => exact hsound
    | table => cases hv
    | _ => rfl
  cases h.dotting with
  | intro _ lines => exact ⟨hd, Option.isSome_iff_exists.mp (lines e he hd hv)⟩

private theorem numbers_table (isArray isRoot : Bool) (i : Info) (f : TableForm) (sub : List (Entry Item)) :
    (placed source isArray isRoot (.table i f sub)).map Placed.number =
      (if f.implicit then [] else f.position.getD 0 :: (bodyIn [] sub).map lineNumber) ++
        sub.flatMap fun d => (placed source false false d.item).map Placed.number := by
  rw [placed, placedBelow_eq, map_append, map_flatMap]
  split <;> simp [openedAt, placedLine, Placed.number, Function.comp_def]

/-- Only a dotted table has lines in the body around it. -/
private theorem entryBody_of_table (hitem : e.item = .table i f sub) (path : List Key) :
    entryBody path e = if f.dotted then bodyIn (path ++ [e.key]) sub else [] := by
  simp [entryBody, hitem, isDotted, isValue, entries]

/-- The lines of a table: its header and the lines of its entries, which stand in the body around it if it is dotted. -/
private theorem numbers_iff (hform : f.IsHeader ∨ (f.implicit = true ∧ (f.dotted = false → sub.any hasBodyLine = false)))
    (hsub : ∀ d ∈ sub, ∀ path, d.HasLine n ↔ n ∈ (entryBody path d).map lineNumber ∨ n ∈ (placed source false false
      d.item).map Placed.number) (isArray isRoot : Bool) (path : List Key) :
    (f.dotted = true ∧ n ∈ (bodyIn path sub).map lineNumber) ∨
        n ∈ (placed source isArray isRoot (.table i f sub)).map Placed.number ↔
      (f.implicit = false ∧ f.position = some n) ∨ ∃ d ∈ sub, d.HasLine n := by
  have hlines : ∀ path, (∃ d ∈ sub, d.HasLine n) ↔ n ∈ (bodyIn path sub).map lineNumber ∨
      n ∈ sub.flatMap fun d => (placed source false false d.item).map Placed.number := by
    intro path
    rw [bodyIn_eq, map_flatMap, mem_flatMap, mem_flatMap, ← exists_or]
    exact exists_congr fun d => by rw [← and_or_left, and_congr_right fun hd => hsub d hd path]
  rw [numbers_table, mem_append]
  rcases hform with hheader | ⟨himplicit, hnone⟩
  · obtain ⟨p, hp⟩ := Option.isSome_iff_exists.mp hheader.placed
    rw [hlines []]
    simp [hheader.explicit, hheader.notDotted, hp, eq_comm, or_assoc]
  · rw [hlines path]
    cases hd : f.dotted with
    | true => simp [himplicit]
    | false => simp [himplicit, bodyIn_eq_nil (hnone hd)]

/-- The lines of an entry are those that are written for it. -/
theorem Built.hasLine_iff (h : Built es) (he : e ∈ es) (path : List Key) (n : Int) :
    e.HasLine n ↔
      n ∈ (entryBody path e).map lineNumber ∨ n ∈ (placed source false false e.item).map Placed.number := by
  induction h generalizing e path with
  | @intro es dotting sound below ih =>
    have hbuilt : Built es := .intro dotting sound below
    -- what is written for a table below the entry
    have htable : ∀ {i f sub}, e.item.HasTable i f sub → ∀ isArray path, _ := fun {i f sub} hhas isArray path =>
      numbers_iff source (i := i) (n := n) (hbuilt.hasTable he hhas).2
        (fun d hd path => ih e he sub hhas.mem_bodies hd path) isArray false path
    have hsound := sound e he
    obtain ⟨key, x, dottedPath, position, newline⟩ := e
    cases x with
    | table i f sub =>
      have hown : n ∈ (entryBody path ⟨key, .table i f sub, dottedPath, position, newline⟩).map lineNumber ↔
          f.dotted = true ∧ n ∈ (bodyIn (path ++ [key]) sub).map lineNumber := by
        rw [entryBody_of_table rfl]
        split <;> simp [*]
      rw [Entry.hasLine_tables rfl, hown, htable .self]
      constructor
      · rintro ⟨_, _, _, hhas, h⟩
        cases hhas
        exact h
      · exact fun h => ⟨_, _, _, .self, h⟩
    | arrayOfTables i ts =>
      rw [Entry.hasLine_tables rfl, entryBody_table path rfl rfl, placed, placedEach_eq, map_flatMap,
        mem_flatMap]
      simp only [map_nil, not_mem_nil, false_or]
      constructor
      · rintro ⟨_, _, _, hhas, h⟩
        have hnumbers := (htable hhas true path).mpr h
        cases hhas with
        | element hmem =>
          obtain ⟨j, f, sub, heq, hheader⟩ := hsound _ hmem
          cases heq
          refine ⟨_, hmem, hnumbers.resolve_left fun hd => ?_⟩
          cases hheader.notDotted.symm.trans hd.1
      · rintro ⟨t, ht, hn⟩
        obtain ⟨j, f, sub, rfl, -⟩ := hsound t ht
        exact ⟨_, _, _, .element ht, (htable (.element ht) true path).mp (.inr hn)⟩
    | _ =>
      obtain ⟨hplain, m, hm⟩ := hbuilt.value_line he rfl
      cases hm
      rw [Entry.hasLine_value rfl, entryBody_value path hplain rfl, placed_of_isValue source rfl]
      simp [lineNumber, eq_comm]

/-! ## Trees without an entry -/

/-- A tree has lost the lines of some numbers. Those of a dotted table stood in the body around it. -/
def Loses (N : Int → Prop) (x x' : Item) : Prop :=
  ∃ B : List Placed, (∀ isArray isRoot, (placed source isArray isRoot x).Perm (placed source isArray isRoot x' ++ B)) ∧
    ∀ path, ∃ A, (bodyIn path x.entries).Perm (bodyIn path x'.entries ++ A) ∧
      ∀ n, N n ↔ (x.isDotted = true ∧ n ∈ A.map lineNumber) ∨ n ∈ B.map Placed.number

/-- A table loses what its entries lose. -/
private theorem loses_table
    (hform : f.IsHeader ∨ (f.implicit = true ∧ (f.dotted = false → sub.any hasBodyLine = false)))
    (hbelow : (placedBelow source sub).Perm (placedBelow source sub' ++ B)) (hown : ∀ path, ∃ A, (bodyIn path sub).Perm
      (bodyIn path sub' ++ A) ∧ ∀ n, N n ↔ n ∈ A.map lineNumber ∨ n ∈ B.map Placed.number) :
    Loses source N (.table i f sub) (.table i f sub') := by
  rcases hform with hheader | ⟨himplicit, hnone⟩
  · obtain ⟨A, hA, hN⟩ := hown []
    refine ⟨((A.map (placedLine source)).map fun l => ((f.position.getD 0, l.1), .body l.2)) ++ B, fun isArray isRoot => ?_, fun path => ?_⟩
    · simp only [placed, hheader.explicit, Bool.false_eq_true, if_false, openedAt]
      refine ((((hA.map _).map _).cons _).append hbelow).trans ?_
      simp only [map_append, cons_append, append_assoc]
      exact ((perm_append_comm_assoc ..).append_left _).cons _
    · obtain ⟨A', hA', -⟩ := hown path
      refine ⟨A', hA', fun n => ?_⟩
      simp [hN, isDotted, hheader.notDotted, placedLine, Placed.number, Function.comp_def]
  · refine ⟨B, fun isArray isRoot => by simpa [placed, himplicit] using hbelow, fun path => ?_⟩
    obtain ⟨A, hA, hN⟩ := hown path
    refine ⟨A, hA, fun n => ?_⟩
    cases hd : f.dotted with
    | true => simp [hN, isDotted, hd]
    | false =>
      -- a table that is only implied has no entry lines to lose
      rw [bodyIn_eq_nil (hnone hd), nil_perm, append_eq_nil_iff] at hA
      simp [hN, hA.2]

/-- An entry that is deleted takes its lines along. -/
private theorem loses_erase
    (hform : f.IsHeader ∨ (f.implicit = true ∧ (f.dotted = false → (pre ++ e :: post).any hasBodyLine = false)))
    (hes : Built (pre ++ e :: post)) : Loses source e.HasLine (.table i f (pre ++ e :: post)) (.table i f (pre ++ post)) := by
  have hcut : ∀ {α : Type} (g : Entry Item → List α),
      ((pre ++ e :: post).flatMap g).Perm ((pre ++ post).flatMap g ++ g e) := by
    intro α g
    simp only [flatMap_append, flatMap_cons, append_assoc]
    exact perm_append_comm.append_left _
  refine loses_table source (B := placed source false false e.item) hform ?_ fun path =>
    ⟨_, by simpa only [bodyIn_eq] using hcut _, hes.hasLine_iff source (by simp) path⟩
  simp only [placedBelow_eq]
  exact hcut _

private theorem Built.sublist (h : Built es) (hes : es'.Sublist es) : Built es' := by
  obtain ⟨⟨hnames, hlines, hdotted⟩, hsound, hbelow⟩ := h
  exact ⟨⟨hnames.sublist (hes.map _), fun e he => hlines e (hes.subset he), fun e he => hdotted e (hes.subset he)⟩,
    fun e he => hsound e (hes.subset he), fun e he => hbelow e (hes.subset he)⟩

theorem hasBodyLine_eq_or (e : Entry Item) : hasBodyLine e = (e.item.isValue || e.item.isDotted) := by
  obtain ⟨key, x, path, position, newline⟩ := e
  cases x <;> simp [hasBodyLine, isValue, isDotted, isTable]

private theorem perm_flatMap_replace {α β : Type} {g : β → List α} {e d : β} {A : List α} (h : (g e).Perm (g d ++ A))
    (pre post : List β) :
    ((pre ++ e :: post).flatMap g).Perm ((pre ++ d :: post).flatMap g ++ A) := by
  simp only [flatMap_append, flatMap_cons, append_assoc]
  refine ((h.append_right _).trans ?_).append_left _
  rw [append_assoc]
  exact perm_append_comm.append_left _

/-- What the table loses in which the entries change, the tree loses. -/
theorem Item.Replaced.loses {es' : List (Entry Item)} {x x' : Item} (h : Replaced (.table i f es) (.table i f es') x x')
    (hhere : (Item.table i f es).Sound → Built es →
      (Item.table i f es').Sound ∧ Built es' ∧ Loses source N (.table i f es) (.table i f es')) (hvalues : x.HoldsValues)
    (hsound : x.Sound) (hbodies : ∀ sub ∈ x.bodies, Built sub) :
    x'.Sound ∧ (∀ sub ∈ x'.bodies, Built sub) ∧ Loses source N x x' := by
  induction h with
  | here =>
    obtain ⟨hsound', hbuilt', hloses⟩ := hhere hsound (hbodies es (mem_singleton.mpr rfl))
    exact ⟨hsound', forall_mem_singleton.mpr hbuilt', hloses⟩
  | @array j g pre post v v' h ih => cases hvalues.isValue_eq_false (Replaced.array (i := j) (f := g) h).within rfl
  | @inlineTable j g pre post e v' h ih =>
    cases hvalues.isValue_eq_false (Replaced.inlineTable (i := j) (f := g) h).within rfl
  | @table j g pre post e v' h ih =>
    have hsub : Built (pre ++ e :: post) := hbodies _ (mem_singleton.mpr rfl)
    have he : e ∈ pre ++ e :: post := by simp
    have hholds : e.item.HoldsValues := fun y z hy => hvalues y z (.child (mem_map.mpr ⟨e, he, rfl⟩) hy)
    have hv : e.item.isValue = false := hholds.isValue_eq_false h.within rfl
    have hv' : v'.isValue = false := (h.isValue rfl).trans hv
    have hd' : v'.isDotted = e.item.isDotted := h.isDotted rfl
    obtain ⟨hsound', hbodies', B, hplaced, hlines⟩ := ih hholds (hsub.sound he) fun sub => hsub.tables he
    have hdotting : v'.isDotted = true → Dotting v'.entries := by
      intro hd
      refine (hbodies' v'.entries ?_).dotting
      cases v' with
      | table => exact mem_singleton.mpr rfl
      | inlineTable => cases hv'
      | _ => cases hd
    have hline : hasBodyLine { e with item := v' } = hasBodyLine e := by
      rw [hasBodyLine_eq_or, hasBodyLine_eq_or, hv, hv', hd']
    refine ⟨?_, forall_mem_singleton.mpr (hsub.replace (d := { e with item := v' }) rfl
      (fun _ hv => nomatch hv'.symm.trans hv) hdotting hsound' hbodies'), loses_table source hsound (B := B) ?_ fun path => ?_⟩
    · simpa only [Sound, any_append, any_cons, hline] using hsound
    · rw [placedBelow_eq, placedBelow_eq]
      exact perm_flatMap_replace (d := { e with item := v' }) (g := fun d => placed source false false d.item)
        (hplaced false false) pre post
    · obtain ⟨A, hA, hN⟩ := hlines (path ++ [e.key])
      have hbody : ∀ A, (entryBody path e).Perm (entryBody path { e with item := v' } ++ A) →
          (bodyIn path (pre ++ e :: post)).Perm (bodyIn path (pre ++ { e with item := v' } :: post) ++ A) := by
        intro A hA
        simpa only [bodyIn_eq] using perm_flatMap_replace hA pre post
      cases hd : e.item.isDotted with
      | true =>
        refine ⟨A, hbody A ?_, fun n => by simpa [hd] using hN n⟩
        rw [entryBody_dotted path hd, entryBody_dotted path (e := { e with item := v' }) (hd'.trans hd)]
        exact hA
      | false =>
        refine ⟨[], hbody [] ?_, fun n => by simpa [hd] using hN n⟩
        rw [entryBody_table path hd hv, entryBody_table path (e := { e with item := v' }) (hd'.trans hd) hv']
        exact .nil
  | @arrayOfTables j pre post t t' h ih =>
    obtain ⟨k, g, sub, rfl, hheader⟩ := hsound t (by simp)
    obtain ⟨sub', rfl⟩ : ∃ sub', t' = .table k g sub' := by
      cases h with
      | here => exact ⟨_, rfl⟩
      | table => exact ⟨_, rfl⟩
    have hholds : (Item.table k g sub).HoldsValues := fun y z hy => hvalues y z (.child (by simp [children]) hy)
    obtain ⟨-, hbodies', B, hplaced, hlines⟩ := ih hholds (.inl hheader) (forall_mem_singleton.mpr (hbodies sub (by simp [bodies, entries])))
    refine ⟨?_, ?_, B, fun isArray isRoot => ?_, fun path => ⟨[], by simp [entries], fun n => ?_⟩⟩
    · intro u hu
      rcases mem_append.mp hu with hu | hu
      · exact hsound u (mem_append_left _ hu)
      · rcases mem_cons.mp hu with rfl | hu
        · exact ⟨k, g, sub', rfl, hheader⟩
        · exact hsound u (mem_append_right _ (mem_cons_of_mem _ hu))
    · intro u hu
      simp only [bodies, map_append, map_cons, mem_append, mem_cons] at hu hbodies
      rcases hu with hu | rfl | hu
      · exact hbodies u (.inl hu)
      · exact hbodies' _ (mem_singleton.mpr rfl)
      · exact hbodies u (.inr (.inr hu))
    · rw [placed, placed, placedEach_eq, placedEach_eq]
      exact perm_flatMap_replace (hplaced true false) pre post
    · obtain ⟨A, -, hN⟩ := hlines path
      simpa [Item.isDotted, hheader.notDotted] using hN n

/-! ## Deleting -/

/-- What is left is what has other numbers than what is lost, if no number is given twice. -/
private theorem perm_filter_lost {xs ys B : List Placed} [DecidablePred N] (h : xs.Perm (ys ++ B))
    (hnodup : (xs.map Placed.number).Nodup) (hN : ∀ n, N n ↔ n ∈ B.map Placed.number) :
    ys.Perm (xs.filter fun x => ¬ N x.number) := by
  rw [(h.map _).nodup_iff, map_append, nodup_append] at hnodup
  have hys : ys.filter (fun x => ¬ N x.number) = ys := by
    refine filter_eq_self.mpr fun x hx => decide_eq_true fun hlost => ?_
    exact hnodup.2.2 _ (mem_map_of_mem hx) _ ((hN _).mp hlost) rfl
  have hB : B.filter (fun x => ¬ N x.number) = [] := by
    refine filter_eq_nil_iff.mpr fun x hx => ?_
    simpa using (hN _).mpr (mem_map_of_mem hx)
  have hfilter := h.filter fun x => ¬ N x.number
  rw [filter_append, hys, hB, append_nil] at hfilter
  exact hfilter.symm

theorem eraseEntry_append (he : e.name = name) (hnames : ((pre ++ e :: post).map Entry.name).Nodup) :
    eraseEntry name (pre ++ e :: post) = pre ++ post := by
  rw [map_append, map_cons, nodup_append, nodup_cons] at hnames
  have hkeep : ∀ es : List (Entry Item), name ∉ es.map Entry.name → es.filter (fun d => d.name != name) = es := by
    intro es hes
    refine filter_eq_self.mpr fun d hd => bne_iff_ne.mpr fun heq => ?_
    exact hes (heq ▸ mem_map_of_mem hd)
  rw [eraseEntry, filter_append, filter_cons, hkeep pre, hkeep post]
  · simp [he]
  · exact he ▸ hnames.2.1.1
  · exact fun hmem => hnames.2.2 _ hmem _ (mem_cons_self ..) he.symm

open Classical in
/-- The tree of a text without an entry is written as the lines of the text that the entry does not have. -/
theorem readTree_erased {limit : Nat} {source : List Char}
    (hread : readTree limit source = .ok (root, trailing)) (hx : root.follow path = .ok (.table i f es))
    (he : findNamed? name es = some e) :
    ∃ lines tail, LineTexts limit ⟨.start source, 0⟩ lines tail ∧
      ∀ layout, renderTree layout (some source) (root.replaceAt path (.table i f (eraseEntry name es))) (some trailing) =
        .ok (String.ofList ((lines.filter fun l => ¬ e.HasLine l.1.number).flatMap Prod.snd ++ tail)) := by
  obtain ⟨lines, tail, sub, xs, h⟩ := readTree_laidOut hread
  obtain ⟨pre, post, rfl⟩ := append_of_mem (mem_of_findNamed? he)
  refine ⟨lines, tail, h.texts, ?_⟩
  have hreplaced := replaced_replaceAt (z := .table i f (eraseEntry name (pre ++ e :: post))) hx
  generalize root.replaceAt path _ = root' at hreplaced ⊢
  obtain rfl := h.table
  obtain ⟨sub', rfl⟩ : ∃ sub', root' = .table {} rootForm sub' := by
    cases hreplaced with
    | _ => exact ⟨_, rfl⟩
  obtain ⟨-, hbuilt, B, hplaced, hlost⟩ := hreplaced.loses (some source) (N := e.HasLine) (by
      intro hsound hes
      rw [eraseEntry_append (name_of_findNamed? he) hes.dotting.names]
      have hsub : (pre ++ post).Sublist (pre ++ e :: post) := (sublist_cons_self e post).append_left pre
      refine ⟨hsound.imp_right (And.imp_right fun hnone hd => ?_), hes.sublist hsub, loses_erase (some source) hsound hes⟩
      exact any_eq_false.mpr fun d hd' => any_eq_false.mp (hnone hd) d (hsub.subset hd'))
    (readTree_holdsValues hread) (.inl isHeader_rootForm) (forall_mem_singleton.mpr h.built)
  obtain ⟨A, -, hN⟩ := hlost []
  have hkept := perm_filter_lost (h.perm.symm.trans (hplaced false true))
    (pairwise_map.mpr (h.numbers.imp Int.ne_of_lt)) fun n => by
    simpa [Item.isDotted, rootForm] using hN n
  -- the opening of the root is still there
  have hzero : ¬ e.HasLine (Placed.number ((0, 0), .opening rootForm false true)) := by
    have hroot : ((0, 0), .opening rootForm false true) ∈ placed (some source) false true (.table {} rootForm sub') := by
      simp [placed, openedAt, rootForm]
    exact of_decide_eq_true (mem_filter.mp (hkept.mem_iff.mp hroot)).2
  rw [filter_cons, if_pos (decide_eq_true hzero)] at hkept
  have hsub : (xs.filter fun x => ¬ e.HasLine x.number).Sublist xs := filter_sublist
  have hmarks := writtenLines_marks (some source) isHeader_rootForm (hbuilt _ (mem_singleton.mpr rfl)) hkept
    (h.sorted.sublist (hsub.cons_cons _)) (fun x hx => h.nonneg x (hsub.subset hx))
    fun x hx => isLine_of_placed (some source) h.places x (hsub.subset hx)
  refine renderTree_written h.texts (Cursor.start_on source) h.rest filter_sublist ?_
  have hplaces := h.places
  rw [forall₂_map_left_iff] at hplaces
  have hfiltered := rel_filter (p := fun l => ¬ e.HasLine l.1.number) (q := fun x => ¬ e.HasLine x.number)
    (fun l x hl => by simp only [hl.2]) hplaces
  rw [← forall₂_map_right_iff (R := fun (p : Line × List Char) m => p.1.Marked (some source) m), hmarks,
    forall₂_map_right_iff]
  exact hfiltered.imp fun l x hl => hl.1

namespace Workspace

open Classical in
/-- **Deletion cuts lines.** The text of a document in which an entry of a table is deleted is the text that was read
without the lines of the entry. All other lines, and what follows the last one, stand as they stood. -/
theorem erase_cuts_lines {options : OptionsArgument} {o : OptionSet} {text : String} {w : Workspace} {root x : Item}
    {trailing : SpanText} {path : List Segment} {name : String} {e : Entry Item} (ho : options.resolve .reader = .ok o)
    (hw : ({} : Workspace).parse "main" options (.text text) true = .ok w)
    (hread : readTree o.readOptions.maxNesting text.toList = .ok (root, trailing)) (hx : root.follow path = .ok x)
    (htable : x.isTable = true) (he : x.entryNamed? name = some e) :
    ∃ w' d lines tail, w.erase { path } name = .ok w' ∧ w'.slot "main" = .ok { content := .document d } ∧
      LineTexts o.readOptions.maxNesting ⟨.start text.toList, 0⟩ lines tail ∧
      text.toList = lines.flatMap Prod.snd ++ tail ∧ ∀ layout, d.render layout =
        .ok (String.ofList ((lines.filter fun l => ¬ e.HasLine l.1.number).flatMap Prod.snd ++ tail)) := by
  obtain ⟨i, f, es, y, rfl, hy, hfrozen, -, hentries, hedit⟩ := parse_edited ho hw hread hx htable
  have hnamed : (y.entryNamed? name).isSome = true := by
    rw [entryNamed?, ← Option.isSome_map (f := strippedEntry), ← findNamed?_stripped, hentries, findNamed?_reworded,
      Option.isSome_map, show findNamed? name es = some e from he]
    rfl
  have herase : y.erase name = .ok (y.withEntries (eraseEntry name y.entries)) := by
    obtain ⟨d, hd⟩ := Option.isSome_iff_exists.mp hnamed
    simp [Item.erase, editable, hfrozen, hd, bind, Except.bind]
  have hlabels := ((Change.erase (P := fun _ => False) (x := y) name).labels fun _ h => h.elim).2
  obtain ⟨d, hslot, hrender⟩ := hedit _ (eraseEntry name es) hlabels (by
    rw [eraseEntry_stripped, entries_stripped, hentries, eraseEntry, filter_map]
    rfl)
  obtain ⟨lines, tail, hlines, hwritten⟩ := readTree_erased hread hx he
  refine ⟨_, d, lines, tail, ?_, hslot, hlines, hlines.text, fun layout => (hrender layout).trans (hwritten layout)⟩
  simp [erase, hy, bind, Except.bind, herase, Except.mapError, Except.map]

/-- The lines of a table stand on both sides of another table. -/
def interleavedText : String := "[a]\nx = 1\n[b]\n[a.c]\n#"

open Classical in
theorem erase_cuts_lines_interleaved : ∃ w w' d, ∃ e : Entry Item, ∃ lines tail,
    ({} : Workspace).parse "main" .unset (.text interleavedText) true = .ok w ∧ w.erase {} "a" = .ok w' ∧
      w'.slot "main" = .ok { content := .document d } ∧ LineTexts 64 ⟨.start interleavedText.toList, 0⟩ lines tail ∧
        interleavedText.toList = lines.flatMap Prod.snd ++ tail ∧ ∀ layout, d.render layout =
          .ok (String.ofList ((lines.filter fun l => ¬ e.HasLine l.1.number).flatMap Prod.snd ++ tail)) := by
  have hparse : (({} : Workspace).parse "main" .unset (.text interleavedText) true).toOption.isSome = true := by
    decide +kernel
  have hfound : ((readTree 64 interleavedText.toList).toOption.map fun r =>
      r.1.isTable && (r.1.entryNamed? "a").isSome) = some true := by
    decide +kernel
  obtain ⟨w, hw⟩ := Option.isSome_iff_exists.mp hparse
  obtain ⟨⟨root, trailing⟩, hread, hroot⟩ := Option.map_eq_some_iff.mp hfound
  obtain ⟨htable, hnamed⟩ := Bool.and_eq_true_iff.mp hroot
  obtain ⟨e, he⟩ := Option.isSome_iff_exists.mp hnamed
  obtain ⟨set, hset, hoptions⟩ := OptionsArgument.resolve_unset
  rw [toOption_eq_some] at hw hread
  have hfollow : root.follow [] = .ok root := rfl
  obtain ⟨w', d, lines, tail, h⟩ := erase_cuts_lines hset hw (by rw [hoptions]; exact hread) hfollow htable he
  rw [hoptions] at h
  exact ⟨w, w', d, e, lines, tail, hw, h⟩

end Workspace

end Verbatim

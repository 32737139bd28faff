import Verbatim.Proofs.CutLines
import Verbatim.Proofs.ScalarEdits
import Verbatim.Proofs.WholeLines

/-!
# Inserted lines

A new entry has no number, so its line comes behind the line that stands before it in the tree: the last line of the entries
before it, or the header of its table. All other lines keep their places, and so their order and their characters.

## Main definitions

- `Grown` - entries with one more, which stands below dotted tables.

## Main statements

- `Workspace.assign_inserts_line` - a new key inserts one line into the text.
-/

namespace Verbatim

open List Render Item Verbatim

variable {e : Entry Item} {es es' sub sub' : List (Entry Item)} {keys : List Key} {i : Info} {f : TableForm}
  {source : Option (List Char)}

namespace Render

/-! ## Sorting -/

/-- One more element leaves the others in their order. It comes behind those before it that are not greater. -/
theorem mergeSort_middle {α : Type} (r : α → Int) (x₀ : α) (as bs : List α) :
    ∃ before after, ((as ++ bs).mergeSort fun a b => r a ≤ r b) = before ++ after ∧
      (∀ x, r x = r x₀ → ((as ++ x :: bs).mergeSort fun a b => r a ≤ r b) = before ++ x :: after) ∧
      ∀ a ∈ as, r a ≤ r x₀ → a ∈ before := by
  induction as with
  | nil =>
    refine ⟨_, _, (mergeSort_cons_eq r x₀ bs).1, fun x hx => ?_, by simp⟩
    rw [nil_append, (mergeSort_cons_eq r x bs).2, hx]
  | cons a as ih =>
    obtain ⟨before, after, hsort, hmiddle, hmem⟩ := ih
    have hcons := fun xs => (mergeSort_cons_eq r a xs).2
    by_cases hle : r a ≤ r x₀
    · refine ⟨(before ++ after).filter (fun b => !decide (r a ≤ r b)) ++ a :: before.filter (fun b => r a ≤ r b),
        after.filter (fun b => r a ≤ r b), ?_, fun x hx => ?_, ?_⟩
      · simp [hcons, hsort]
      · simp [hcons, hmiddle x hx, hx, hle]
      · refine forall_mem_cons.mpr ⟨fun _ => by simp, fun b hb hbx => ?_⟩
        simp [hmem b hb hbx]
        omega
    · refine ⟨before.filter (fun b => !decide (r a ≤ r b)), after.filter (fun b => !decide (r a ≤ r b)) ++
        a :: (before ++ after).filter (fun b => r a ≤ r b), ?_, fun x hx => ?_, ?_⟩
      · simp [hcons, hsort]
      · simp [hcons, hmiddle x hx, hx, hle]
      · refine forall_mem_cons.mpr ⟨fun h => absurd h hle, fun b hb hbx => ?_⟩
        simp [hmem b hb hbx]
        omega

/-! ## Tables and their lines -/

/-- What of a table is written. -/
structure Opened where
  form : TableForm
  isArray : Bool
  isRoot : Bool
  /-- The lines of its body, if the table is written. -/
  body : Option (List (List Key × Entry Item))

def Section.opened (s : Section) : Opened :=
  ⟨s.form, s.isArray, s.isRoot, if s.isRoot || s.hasHeader then some (bodyIn [] s.entries) else none⟩

variable (source) in
/-- The lines of a body with their numbers, in the order of writing. -/
def orderedBody (b : List (List Key × Entry Item)) : List (Int × BodyLine) :=
  ((numbered (fun l => l.2.position) 0 b).map (Prod.map id fun l => valueLine source l.1 l.2)).mergeSort
    fun a b => a.1 ≤ b.1

variable (source) in
def Opened.ordered (n : Int) (t : Opened) : List Placed :=
  t.body.elim [] fun b => openedAt n t.form t.isArray t.isRoot (orderedBody source b)

theorem sectionOrdered_eq (ps : Int × Section) : sectionOrdered source ps = ps.2.opened.ordered source ps.1 := by
  rw [sectionOrdered, Opened.ordered, Section.opened, bodyLines_eq]
  split <;> rfl

/-- The places of lines depend on what is written of the tables only. -/
theorem writtenPlaces_eq (ss : List Section) : writtenPlaces source (numbered Section.number 0 ss) =
    ((numbered (fun t : Opened => t.form.position) 0 (ss.map Section.opened)).mergeSort fun a b => a.1 ≤ b.1).flatMap
      fun t => t.2.ordered source t.1 := by
  have hnumbered : numbered (fun t : Opened => t.form.position) 0 (ss.map Section.opened) =
      (numbered Section.number 0 ss).map (Prod.map id Section.opened) := numbered_map Section.opened (fun _ => rfl) ss
  rw [hnumbered, ← map_mergeSort (f := Prod.map id Section.opened) (r := fun a b => a.1 ≤ b.1) fun _ _ _ _ => rfl,
    flatMap_map, writtenPlaces]
  exact flatMap_congr fun t _ => sectionOrdered_eq t

/-- Other lines in one table leave the lines of the other tables where they are. -/
theorem writtenPlaces_middle (source : Option (List Char)) {ss ss' : List Section} {before after : List Opened}
    (h : ss.map Section.opened = before ++ t :: after) (h' : ss'.map Section.opened = before ++ t' :: after)
    (hform : t'.form = t.form) (hp : t.form.position = some p) :
    ∃ ys zs, writtenPlaces source (numbered Section.number 0 ss) = ys ++ (t.ordered source p ++ zs) ∧
      writtenPlaces source (numbered Section.number 0 ss') = ys ++ (t'.ordered source p ++ zs) := by
  rw [writtenPlaces_eq, writtenPlaces_eq, h, h', numbered_append, numbered_append, numbered, numbered, hform, hp,
    Option.getD_some]
  obtain ⟨ys, zs, -, hmiddle, -⟩ := mergeSort_middle Prod.fst (p, t)
    (numbered (fun t : Opened => t.form.position) 0 before) (numbered (fun t : Opened => t.form.position) p after)
  refine ⟨ys.flatMap fun t => t.2.ordered source t.1, zs.flatMap fun t => t.2.ordered source t.1, ?_, ?_⟩
  · rw [hmiddle (p, t) rfl, flatMap_append, flatMap_cons]
  · rw [hmiddle (p, t') rfl, flatMap_append, flatMap_cons]

end Render

/-! ## Dotted tables have lines -/

/-- Every dotted table below entries has a line. -/
inductive Occupied : List (Entry Item) → Prop where
  | intro {es : List (Entry Item)} (dotted : ∀ e ∈ es, e.item.isDotted = true → ∀ path, bodyIn path e.item.entries ≠ [])
      (below : ∀ e ∈ es, ∀ sub ∈ e.item.bodies, Occupied sub) : Occupied es

theorem occupied_iff : Occupied es ↔ ∀ e ∈ es, (e.item.isDotted = true → ∀ path, bodyIn path e.item.entries ≠ []) ∧
    ∀ sub ∈ e.item.bodies, Occupied sub := by
  constructor
  · rintro ⟨dotted, below⟩ e he
    exact ⟨dotted e he, below e he⟩
  · exact fun h => ⟨fun e he => (h e he).1, fun e he => (h e he).2⟩

theorem occupied_nil : Occupied [] := ⟨by simp, by simp⟩

theorem Occupied.append (h : Occupied es) (hd : e.item.isDotted = true → ∀ path, bodyIn path e.item.entries ≠ [])
    (hbelow : ∀ sub ∈ e.item.bodies, Occupied sub) : Occupied (es ++ [e]) := by
  rw [occupied_iff, forall_mem_append, forall_mem_singleton]
  exact ⟨occupied_iff.mp h, hd, hbelow⟩

theorem Occupied.replace (h : Occupied (pre ++ e :: post))
    (hd : d.item.isDotted = true → ∀ path, bodyIn path d.item.entries ≠ []) (hbelow : ∀ sub ∈ d.item.bodies, Occupied sub) :
    Occupied (pre ++ d :: post) := by
  rw [occupied_iff, forall_mem_append, forall_mem_cons] at h ⊢
  exact ⟨h.1, ⟨hd, hbelow⟩, h.2.2⟩

theorem Below.occupied (hbuilt : ∀ f x x', change f x x' → Built x → Built x') (hquiet : Quiet change)
    (hchange : ∀ f x x', change f x x' → Built x → Occupied x → Occupied x') (h : Below change f names es es')
    (hes : Built es) (ho : Occupied es) : Occupied es' := by
  induction h with
  | here hlocal => exact hchange _ _ _ hlocal hes ho
  | @enter f f' pre post sub sub' e names rebuild item rest ih =>
    have he : e ∈ pre ++ e :: post := by simp
    have hsub := hes.tables he item.mem_bodies
    obtain ⟨hdotted, hbelow⟩ := occupied_iff.mp ho e he
    refine ho.replace (fun hd path => ?_) fun y hy => ?_
    · -- no line is added to a dotted table on the way
      have hold : e.item.isDotted = true := (item.isDotted_other sub').symm.trans hd
      obtain ⟨i, g, y, hitem, -, himplicit⟩ := (hes.sound he).dotted hold
      have hform : f'.implicit = true := by
        rw [hitem] at item
        cases item
        exact himplicit
      rw [((item.other sub').of_isDotted hd).2, ((rest.built hbuilt hquiet hsub).2 fun _ => hform).2 path,
        ← (item.of_isDotted hold).2]
      exact hdotted hold path
    · rcases item.mem_bodies_other hy with rfl | hy
      · exact ih hsub (hbelow _ item.mem_bodies)
      · exact hbelow y hy

theorem Header.occupied_freshEntry (h : Header) (ks : List Key) : (h.freshEntry ks).item.isDotted = false ∧
    ∀ sub ∈ (h.freshEntry ks).item.bodies, Occupied sub := by
  induction ks with
  | nil =>
    cases harray : h.isArray <;>
      simp [Header.freshEntry, harray, isDotted, Header.table, bodies, entries, occupied_nil]
  | cons k ks ih =>
    refine ⟨rfl, forall_mem_singleton.mpr ?_⟩
    exact occupied_nil.append (fun hd => by cases ih.1.symm.trans hd) ih.2

theorem HeaderChange.occupied (hchange : HeaderChange h rest es es') (ho : Occupied es) : Occupied es' := by
  cases hchange with
  | fresh absent =>
    obtain ⟨hd, hbelow⟩ := h.occupied_freshEntry rest
    exact ho.append (fun hd' => by cases hd.symm.trans hd') hbelow
  | @promote pre post sub e i f single name item implied notDotted =>
    refine ho.replace (fun hd => by cases hd) (forall_mem_singleton.mpr ?_)
    exact (occupied_iff.mp ho e (by simp)).2 sub (by simp [item, bodies])
  | @append pre post e i ts array name item =>
    have hts := (occupied_iff.mp ho e (by simp)).2
    rw [item] at hts
    refine ho.replace (fun hd => by cases hd) ?_
    rw [bodies, map_append, forall_mem_append]
    exact ⟨hts, forall_mem_singleton.mpr occupied_nil⟩

/-- An entry line is one more line of the dotted tables that it stands below. -/
theorem DottedRun.occupied {leaf : Entry Item} (hd : leaf.item.isDotted = false)
    (hv : leaf.item.isValue = true) (h : DottedRun dottedTable leaf ks es es') (hes : Built es) (ho : Occupied es) :
    Occupied es' := by
  have hlines : ∀ {ks es es'}, DottedRun dottedTable leaf ks es es' → ∀ path, bodyIn path es' ≠ [] := by
    intro ks es es' h path hnil
    obtain ⟨keys, -, hperm⟩ := h.lines isDottedTable_dottedTable hd hv path
    simp [hnil] at hperm
  induction h with
  | leaf absent =>
    refine ho.append (fun hd' => by cases hd.symm.trans hd') ?_
    simp [bodies_of_isValue hv]
  | @make k ks es sub absent rest ih =>
    exact ho.append (fun _ => hlines rest) (forall_mem_singleton.mpr (ih Built.nil occupied_nil))
  | @enter k ks pre post sub e name dotted rest ih =>
    have he : e ∈ pre ++ e :: post := by simp
    obtain ⟨i, f, sub₀, hitem, -, -⟩ := (hes.sound he).dotted dotted
    obtain ⟨key, x, p, n, l⟩ := e
    cases hitem
    exact ho.replace (fun _ => hlines rest) (forall_mem_singleton.mpr
      (ih (hes.tables he (mem_singleton.mpr rfl)) ((occupied_iff.mp ho _ he).2 _ (mem_singleton.mpr rfl))))

/-- In the tree of a text every dotted table has a line. -/
theorem readTree_occupied {limit : Nat} {source : List Char}
    (h : readTree limit source = .ok (root, trailing)) : Occupied root.entries := by
  obtain ⟨ls, hrun, hassemble⟩ := readTree_eq_ok h
  obtain ⟨hproper, -, -⟩ := hrun.proper (Cursor.start_on source)
  refine (assemble_induction hproper hassemble occupied_nil fun l hl a a' g ha hadd ho => ?_).2.2
  cases l with
  | header h =>
    obtain ⟨-, -, lead, rest, -, hbelow⟩ := Assembly.add_header ha hadd
    exact hbelow.occupied (fun _ _ _ hchange hx => hchange.built hx) (quiet_headerChange h rest)
      (fun _ _ _ hchange _ => hchange.occupied) ha.built ho
  | entry l =>
    have hl := hproper _ hl
    obtain ⟨-, -, hbelow⟩ := Assembly.add_entry ha hl hadd
    exact hbelow.occupied (fun _ _ _ hchange hx => hchange.built hl hx) (quiet_entryChange ha.header l)
      (fun _ _ _ hchange hx => hchange.2.occupied hl.2 hl.1 hx) ha.built ho

/-! ## One more entry -/

/-- Entries with one more, at the end of those of a table to which dotted tables lead. -/
inductive Grown (e : Entry Item) : List Key → List (Entry Item) → List (Entry Item) → Prop where
  | here {es : List (Entry Item)} : Grown e [] es (es ++ [e])
  | into {pre post sub sub' : List (Entry Item)} {d : Entry Item} {i : Info} {f : TableForm} {keys : List Key}
      (item : d.item = .table i f sub) (dotted : f.dotted = true) (rest : Grown e keys sub sub') :
      Grown e (d.key :: keys) (pre ++ d :: post) (pre ++ { d with item := .table i f sub' } :: post)

/-- The line of a new entry comes behind the lines of the entries before it. -/
theorem Grown.bodyIn (h : Grown e keys es es') (hv : e.item.isValue = true) (hd : e.item.isDotted = false)
    (ho : Occupied es) (path : List Key) : ∃ as bs, bodyIn path es = as ++ bs ∧
      bodyIn path es' = as ++ (path ++ keys, e) :: bs ∧ (as = [] → bs = []) := by
  induction h generalizing path with
  | @here es =>
    refine ⟨_, [], (append_nil _).symm, ?_, fun _ => rfl⟩
    rw [bodyIn_eq, bodyIn_eq, flatMap_append, flatMap_singleton, entryBody_value path hd hv, append_nil]
  | @into pre post sub sub' d i f keys item dotted rest ih =>
    obtain ⟨hlines, hbelow⟩ := occupied_iff.mp ho d (by simp)
    obtain ⟨as, bs, hsub, hsub', hempty⟩ := ih (hbelow sub (by simp [item, bodies])) (path ++ [d.key])
    have hbody : entryBody path d = Verbatim.bodyIn (path ++ [d.key]) sub := by
      rw [entryBody_dotted path (item ▸ dotted), item]
      rfl
    have hbody' : entryBody path { d with item := .table i f sub' } = Verbatim.bodyIn (path ++ [d.key]) sub' :=
      entryBody_dotted path (e := { d with item := .table i f sub' }) dotted
    refine ⟨Verbatim.bodyIn path pre ++ as, bs ++ Verbatim.bodyIn path post, ?_, ?_, fun hnil => ?_⟩
    · rw [bodyIn_eq, flatMap_append, flatMap_cons, hbody, hsub, bodyIn_eq, bodyIn_eq]
      simp
    · rw [bodyIn_eq, flatMap_append, flatMap_cons, hbody', hsub', bodyIn_eq, bodyIn_eq]
      simp
    · -- the dotted table has a line, and so one before the new one
      obtain ⟨-, rfl⟩ := append_eq_nil_iff.mp hnil
      rw [item] at hlines
      exact absurd (by rw [entries, hsub, hempty rfl, append_nil]) (hlines dotted (path ++ [d.key]))

/-- A dotted table has no lines of its own, so the tables below stay as they are. -/
theorem Grown.sectionsBelow (h : Grown e keys es es') (hv : e.item.isValue = true) (path : List Key) :
    (sectionsBelow path es').map Section.opened = (sectionsBelow path es).map Section.opened := by
  induction h generalizing path with
  | @here es =>
    have hnone : sectionsIn (path ++ [e.key]) false false e.item = [] := by
      cases hx : e.item with
      | table => cases hx ▸ hv
      | arrayOfTables => cases hx ▸ hv
      | _ => rfl
    simp [hnone]
  | @into pre post sub sub' d i f keys item dotted rest ih =>
    simpa [item, sectionsIn, Section.opened, Section.hasHeader, dotted] using ih (path ++ [d.key])

/-- The tables of a tree whose entries change in one table: those of that table come in place of its entries, and all other
tables have the lines they had. -/
theorem Item.Replaced.opened (h : Replaced (.table i f es) (.table i f es') x x') (hf : f.IsHeader)
    (hbelow : ∀ path, (sectionsBelow path es').map Section.opened = (sectionsBelow path es).map Section.opened)
    (hvalues : x.HoldsValues) (path : List Key) (isArray isRoot : Bool) :
    (∃ before after a r, (sectionsIn path isArray isRoot x).map Section.opened =
        before ++ ⟨f, a, r, some (bodyIn [] es)⟩ :: after ∧
      (sectionsIn path isArray isRoot x').map Section.opened = before ++ ⟨f, a, r, some (bodyIn [] es')⟩ :: after ∧
      (r = true → isRoot = true ∧ x = .table i f es)) ∧
    (x.isDotted = true → ∀ path, bodyIn path x'.entries = bodyIn path x.entries) := by
  induction h generalizing path isArray isRoot with
  | here =>
    refine ⟨⟨[], (sectionsBelow path es).map Section.opened, isArray, isRoot, ?_, ?_, fun hr => ⟨hr, rfl⟩⟩,
      fun hd => by cases hf.notDotted.symm.trans hd⟩
    · rw [sectionsIn, map_cons, nil_append, Section.opened, Section.hasHeader, hf.explicit, hf.notDotted, if_pos (by simp)]
    · rw [sectionsIn, map_cons, nil_append, hbelow, Section.opened, Section.hasHeader, hf.explicit, hf.notDotted,
        if_pos (by simp)]
  | @array j g pre post v v' h ih => cases hvalues.isValue_eq_false (Replaced.array (i := j) (f := g) h).within rfl
  | @inlineTable j g pre post e v' h ih =>
    cases hvalues.isValue_eq_false (Replaced.inlineTable (i := j) (f := g) h).within rfl
  | @table j g pre post e v' h ih =>
    have hholds : e.item.HoldsValues := fun y z hy => hvalues y z (.child (mem_map.mpr ⟨e, by simp, rfl⟩) hy)
    have hv : e.item.isValue = false := hholds.isValue_eq_false h.within rfl
    have hv' : v'.isValue = false := (h.isValue rfl).trans hv
    have hd' : v'.isDotted = e.item.isDotted := h.isDotted rfl
    obtain ⟨⟨before, after, a, r, hold, hnew, hroot⟩, hbody⟩ := ih hholds (path ++ [e.key]) false false
    have hline : hasBodyLine { e with item := v' } = hasBodyLine e := by
      rw [hasBodyLine_eq_or, hasBodyLine_eq_or, hv, hv', hd']
    have hlines : ∀ path, bodyIn path (pre ++ { e with item := v' } :: post) =
        bodyIn path (pre ++ e :: post) := by
      intro path
      have hentry : entryBody path { e with item := v' } = entryBody path e := by
        cases hd : e.item.isDotted with
        | true =>
          rw [entryBody_dotted path hd, entryBody_dotted path (e := { e with item := v' }) (hd'.trans hd)]
          exact hbody hd _
        | false => rw [entryBody_table path hd hv, entryBody_table path (e := { e with item := v' }) (hd'.trans hd) hv']
      simp only [bodyIn_eq, flatMap_append, flatMap_cons, hentry]
    refine ⟨⟨Section.opened ⟨g, pre ++ e :: post, path, isArray, isRoot⟩ ::
      ((sectionsBelow path pre).map Section.opened ++ before), after ++ (sectionsBelow path post).map Section.opened,
      a, r, ?_, ?_, fun hr => by cases (hroot hr).1⟩, fun _ => hlines⟩
    · simp [sectionsIn, hold]
    · simp [sectionsIn, hnew, Section.opened, Section.hasHeader, hline, hlines]
  | @arrayOfTables j pre post t t' h ih =>
    have hholds : t.HoldsValues := fun y z hy => hvalues y z (.child (by simp [children]) hy)
    obtain ⟨⟨before, after, a, r, hold, hnew, hroot⟩, -⟩ := ih hholds path true false
    refine ⟨⟨(sectionsEach path pre).map Section.opened ++ before, after ++ (sectionsEach path post).map Section.opened,
      a, r, ?_, ?_, fun hr => by cases (hroot hr).1⟩, fun hd => by cases hd⟩
    · simp [sectionsIn, hold]
    · simp [sectionsIn, hnew]

/-- A new entry of a table is a new line in the body of the nearest table around it that no dotted key made. -/
theorem exists_grown {x : Item} (hx : x.follow path = .ok (.table i f es)) (hvalues : x.HoldsValues)
    (hsound : x.Sound) (hbodies : ∀ sub ∈ x.bodies, Built sub ∧ Occupied sub) (e : Entry Item) :
    ∃ lead keys j g sub sub', path = lead ++ keys.map (fun k => .name k.name) ∧ x.follow lead = .ok (.table j g sub) ∧
      x.replaceAt path (.table i f (es ++ [e])) = x.replaceAt lead (.table j g sub') ∧ Grown e keys sub sub' ∧
      (g.dotted = true → lead = []) ∧ (keys = [] → g = f) ∧ (table j g sub).Sound ∧ Built sub ∧ Occupied sub := by
  induction path generalizing x with
  | nil =>
    cases hx
    exact ⟨[], [], i, f, es, _, rfl, rfl, rfl, .here, fun _ => rfl, fun _ => rfl, hsound,
      hbodies es (mem_singleton.mpr rfl)⟩
  | cons s path ih =>
    obtain ⟨y, hy, hrest⟩ := follow_cons_eq_ok hx
    have hnot : x.isValue = false := hvalues.isValue_eq_false (Workspace.within_of_follow hx) rfl
    rcases step_eq_ok hy with ⟨name, pre, post, d, rfl, hmapping, hes, hname, hpre, rfl⟩ | ⟨n, pre, post, rfl, hys, hn⟩
    · obtain ⟨j₀, g₀, es₀, rfl⟩ : ∃ j₀ g₀ es₀, x = .table j₀ g₀ es₀ := by
        cases x with
        | table => exact ⟨_, _, _, rfl⟩
        | inlineTable => cases hnot
        | _ => cases hmapping
      obtain rfl : es₀ = pre ++ d :: post := hes
      obtain ⟨hbuilt, hoccupied⟩ := hbodies _ (mem_singleton.mpr rfl)
      have hd : d ∈ pre ++ d :: post := by simp
      obtain ⟨lead, keys, j, g, sub, sub', rfl, hlead, hreplace, hgrown, hdotted, hkeys, hown, hlines⟩ := ih hrest
        (fun y z hy => hvalues y z (.child (mem_map.mpr ⟨d, hd, rfl⟩) hy)) (hbuilt.sound hd)
        fun sub hsub => ⟨hbuilt.tables hd hsub, (occupied_iff.mp hoccupied d hd).2 sub hsub⟩
      cases hg : g.dotted with
      | false =>
        refine ⟨.name name :: lead, keys, j, g, sub, sub', rfl, ?_, ?_, hgrown, fun h => (by cases hg.symm.trans h), hkeys,
          hown, hlines⟩
        · rw [follow, hy]
          exact hlead
        · rw [replaceAt_name rfl hname hpre, replaceAt_name rfl hname hpre, hreplace]
      | true =>
        -- the table is dotted, so the line stands in the body around it
        obtain rfl := hdotted hg
        have hitem : d.item = .table j g sub := Except.ok.inj hlead
        refine ⟨[], d.key :: keys, j₀, g₀, pre ++ d :: post, pre ++ { d with item := .table j g sub' } :: post, ?_, rfl, ?_,
          .into hitem hg hgrown, fun _ => rfl, fun hnil => (by cases hnil), hsound, hbuilt, hoccupied⟩
        · rw [← hname]
          rfl
        · rw [replaceAt_name rfl hname hpre, hreplace]
          rfl
    · obtain ⟨j₀, rfl⟩ : ∃ j₀, x = .arrayOfTables j₀ (pre ++ y :: post) := by
        cases x with
        | arrayOfTables => exact ⟨_, congrArg _ (Option.some.inj hys)⟩
        | array => cases hnot
        | _ => cases hys
      have hmem : y ∈ pre ++ y :: post := by simp
      obtain ⟨j₁, g₁, es₁, rfl, hheader⟩ := hsound y hmem
      obtain ⟨lead, keys, j, g, sub, sub', rfl, hlead, hreplace, hgrown, hdotted, hkeys, hown, hlines⟩ := ih hrest
        (fun y z hy => hvalues y z (.child (by simp [children]) hy)) (.inl hheader)
        (forall_mem_singleton.mpr (hbodies es₁ (mem_map.mpr ⟨_, hmem, rfl⟩)))
      refine ⟨.position n :: lead, keys, j, g, sub, sub', rfl, ?_, ?_, hgrown, fun hg => ?_, hkeys, hown, hlines⟩
      · rw [follow, hy]
        exact hlead
      · rw [replaceAt_position hys hn, replaceAt_position hys hn, hreplace]
      · obtain rfl := hdotted hg
        cases hlead
        cases hheader.notDotted.symm.trans hg

/-! ## The new line -/

namespace Render

theorem exists_lastNumber (number : α → Option Int) (last : Int) (h : as ≠ []) :
    ∃ t ∈ numbered number last as, t.1 = lastNumber number last as := by
  obtain ⟨as, a, rfl⟩ := (eq_nil_or_concat as).resolve_left h
  refine ⟨(lastNumber number last (as.concat a), a), ?_, rfl⟩
  rw [concat_eq_append, numbered_append, lastNumber_append]
  exact mem_append_right _ (mem_singleton.mpr rfl)

/-- A line without a number is written behind the line before it. -/
theorem orderedBody_insert (source : Option (List Char)) (hl : l.2.position = none) (as bs : List (List Key × Entry Item)) :
    ∃ before after n, orderedBody source (as ++ bs) = before ++ after ∧
      orderedBody source (as ++ l :: bs) = before ++ (n, valueLine source l.1 l.2) :: after ∧ (before = [] → as = []) := by
  simp only [orderedBody, numbered_append, numbered, hl, Option.getD_none, map_append, map_cons]
  obtain ⟨before, after, hold, hnew, hmem⟩ := mergeSort_middle Prod.fst
    (lastNumber (fun l => l.2.position) 0 as, valueLine source l.1 l.2) _ _
  refine ⟨before, after, _, hold, hnew _ rfl, fun hnil => ?_⟩
  by_contra hne
  obtain ⟨t, ht, heq⟩ := exists_lastNumber (fun l => l.2.position) 0 hne
  have := hmem _ (mem_map_of_mem ht) (Int.le_of_eq heq)
  rw [hnil] at this
  cases this

end Render

variable {limit : Nat} {source : List Char} {root : Item} {trailing : SpanText} {lines : List (Line × List Char)}
  {tail : List Char} {top : List (Entry Item)} {xs : List Placed}

/-- One more entry is one more line behind a line of the same table. -/
theorem LaidOut.grown (h : LaidOut limit source root trailing lines tail top xs) {root' : Item}
    (hreplaced : Replaced (.table i f sub) (.table i f sub') root root') (hf : f.IsHeader) (hvalues : root.HoldsValues)
    (hgrown : Grown e keys sub sub') (hsub : Built sub) (ho : Occupied sub) (hv : e.item.isValue = true)
    (hd : e.item.isDotted = false) (hposition : e.position = none) :
    ∃ front back, xs = front ++ back ∧ (writtenLines (some source) root').map WrittenLine.mark =
        front.map Prod.snd ++ .body (valueLine (some source) keys e) :: back.map Prod.snd ∧
      (∀ x ∈ front.getLast?, f.position = some x.number ∨ x.number ∈ (bodyIn [] sub).map lineNumber) ∧
      (front = [] → root = .table i f sub ∧ bodyIn [] sub = []) := by
  obtain ⟨p, hp⟩ := Option.isSome_iff_exists.mp hf.placed
  obtain ⟨as, bs, hold, hnew, hempty⟩ := hgrown.bodyIn hv hd ho []
  obtain ⟨⟨before, after, a, r, hss, hss', hroot⟩, -⟩ := hreplaced.opened hf (hgrown.sectionsBelow hv) hvalues [] false true
  obtain ⟨ys, zs, hW, hW'⟩ := writtenPlaces_middle (some source) hss hss' rfl hp
  obtain ⟨pre, post, n, hbody, hbody', hfirst⟩ := orderedBody_insert (some source) (l := ([] ++ keys, e)) hposition as bs
  have hplaces : writtenPlaces (some source) (numbered Section.number 0 (sectionsIn [] false true root)) =
      ((0, 0), .opening rootForm false true) :: xs := by
    have hperm := h.perm
    rw [h.table, ← sections_placed (some source) isHeader_rootForm h.built 0, ← h.table, sections_eq] at hperm
    exact writtenPlaces_of_perm (some source) hperm h.sorted (forall_mem_cons.mpr ⟨Int.le_refl 0, h.nonneg⟩)
  have hopened : ∀ ls ls', openedAt p f a r (ls ++ ls') =
      openedAt p f a r ls ++ ls'.map fun l => ((p, l.1), .body l.2) := fun ls ls' => by simp [openedAt]
  simp only [Opened.ordered, Option.elim_some, hold, hbody, hopened, ← append_assoc ys] at hW
  simp only [Opened.ordered, Option.elim_some, hnew, hbody', hopened, ← append_assoc ys, map_cons] at hW'
  rw [hplaces] at hW
  generalize hback : post.map (fun l => (((p, l.1), .body l.2) : Placed)) = back at hW hW'
  -- the line of the table that the new one follows
  obtain ⟨front, hfront, rfl⟩ : ∃ front, ys ++ openedAt p f a r pre = ((0, 0), .opening rootForm false true) :: front ∧
      xs = front ++ (back ++ zs) := by
    cases hcase : ys ++ openedAt p f a r pre with
    | nil => simp [openedAt] at hcase
    | cons y front =>
      rw [hcase, append_assoc, cons_append] at hW
      obtain ⟨rfl, rfl⟩ := List.cons.inj hW
      exact ⟨front, rfl, rfl⟩
  refine ⟨front, back ++ zs, rfl, ?_, fun x hx => ?_, fun hnil => ?_⟩
  · have hkeep : ∀ ps, ps ⊆ front ++ (back ++ zs) → (ps.map Prod.snd).filter LineMark.isLine = ps.map Prod.snd :=
      fun ps hps => filter_eq_self.mpr (forall_mem_map.mpr fun x hx => isLine_of_placed (some source) h.places x (hps hx))
    rw [writtenLines_eq, marks_writtenPlaces, hW', hfront, append_assoc, cons_append, cons_append, map_cons,
      filter_cons_of_neg (by decide), map_append, filter_append, hkeep front (subset_append_left ..), map_cons,
      filter_cons_of_pos rfl, hkeep _ (subset_append_right ..)]
    rfl
  · have hlast : (openedAt p f a r pre).getLast? = some x := by
      rw [← getLast?_append_of_ne_nil ys (by simp [openedAt]), hfront, getLast?_cons, hx]
      rfl
    rcases mem_cons.mp (mem_of_getLast? hlast) with rfl | hmem
    · exact .inl hp
    · obtain ⟨l, hl, rfl⟩ := mem_map.mp hmem
      have hl : l ∈ orderedBody (some source) (bodyIn [] sub) := by
        rw [hold, hbody]
        exact mem_append_left _ hl
      rw [orderedBody, numbered_of_isSome (hsub.dotting.isSome_position []), mem_mergeSort, map_map] at hl
      obtain ⟨d, hd, rfl⟩ := mem_map.mp hl
      exact .inr (mem_map_of_mem hd)
  · rw [hnil, openedAt] at hfront
    cases ys with
    | nil =>
      obtain ⟨hopening, hpre⟩ := List.cons.inj hfront
      obtain ⟨-, -, -, hr⟩ : p = 0 ∧ f = rootForm ∧ a = false ∧ r = true := by simpa using hopening
      have has := hfirst (map_eq_nil_iff.mp hpre)
      exact ⟨(hroot hr).2, by rw [hold, has, hempty has, append_nil]⟩
    | cons y ys => simp at hfront

/-- Lines of a text with a new line between them. -/
theorem renderTree_inserted {before after : List (Line × List Char)}
    (h : LineTexts limit ⟨.start source, 0⟩ (before ++ after) tail)
    (htrailing : optionalText (some source) "" (some trailing) = .ok (String.ofList tail))
    (hws : writtenLines (some source) root = ws ++ w :: ws')
    (hbefore : Forall₂ (fun p w => Line.Marked (some source) p.1 w.mark) before ws)
    (hafter : Forall₂ (fun p w => Line.Marked (some source) p.1 w.mark) after ws')
    (htext : ∀ isFirst, w.text (some source) layout isFirst = .ok t) (hnewline : w.newline = none) :
    renderTree layout (some source) root (some trailing) = .ok (String.ofList (before.flatMap Prod.snd) ++
      (if before.getLast?.any fun p => p.1.newline == "" then layout.newline else "") ++ (t ++ layout.newline) ++
      String.ofList (after.flatMap Prod.snd ++ tail)) := by
  have hs := Cursor.start_on source
  obtain ⟨hwritten, hclosed, -⟩ := h.written hs
  have hfront := linesText_written hbefore (fun p hp => hwritten p (mem_append_left _ hp))
    (hclosed.sublist (sublist_append_left ..)) layout true
  have hback := linesText_written hafter (fun p hp => hwritten p (mem_append_right _ hp))
    (hclosed.sublist (sublist_append_right ..)) layout false
  -- a terminator without characters changes nothing
  have hnone : (if layout.newline == "" then layout.newline else "") = "" := by
    split
    · next hempty => exact eq_of_beq hempty
    · rfl
  obtain ⟨last, hrest, hlast⟩ : ∃ last, linesText (some source) layout false (layout.newline == "") ws' =
      .ok (String.ofList (after.flatMap Prod.snd), last) ∧
        (if last && String.ofList tail != "" then layout.newline else "") = "" := by
    cases hafter with
    | nil =>
      refine ⟨_, rfl, ?_⟩
      split
      · next hempty => exact eq_of_beq (Bool.and_eq_true_iff.mp hempty).1
      · rfl
    | cons hp hps =>
      obtain ⟨own, rest, hown, hrest, htext⟩ := linesText_cons_eq_ok.mp hback
      refine ⟨_, linesText_cons_eq_ok.mpr ⟨own, rest, hown, hrest, by rw [hnone]; exact htext⟩, ?_⟩
      rw [h.closed hs (sublist_append_right ..)]
      rfl
  have hlines := linesText_append_eq_ok.mpr ⟨_, _, _, hfront,
    linesText_cons_eq_ok.mpr ⟨t, _, htext _, by rw [hnewline]; exact hrest, rfl⟩, rfl⟩
  simp only [renderTree, hws, hlines, htrailing, hlast, hnewline]
  simp [String.append_assoc, String.ofList_append]

theorem keyPathText_concat (hk : k.decor.after = none) (source : Option (List Char)) (ks : List Key) (before after : String) :
    keyPathText source before after (ks ++ [k]) = join (keyPathText source before "" (ks ++ [k])) (.ok after) := by
  induction ks generalizing before with
  | nil => simp [keyPathText, keyText, joinAll, hk, optionalText, join_assoc]
  | cons k' ks ih =>
    obtain ⟨c, cs, hcs⟩ := exists_cons_of_ne_nil (concat_ne_nil k ks)
    rw [hcs] at ih
    simp only [cons_append, hcs, keyPathText, joinAll, ih, join_assoc]
    simp [join_ok]

/-- The text of a line with a new entry. -/
theorem text_valueLine (hy : y.decor? = some {}) (hliteral : valueRepr (some source) y = .ok literal)
    (hpath : keyPathText (some source) "" "" (keys ++ [({ name } : Key)]) = .ok pathText) (isFirst : Bool) :
    WrittenLine.text (some source) layout isFirst (.body (valueLine (some source) keys { key := { name }, item := y })) =
      .ok (pathText ++ " = " ++ literal) := by
  simp only [WrittenLine.text, valueLine, entryKeys, Option.getD_none, keyPathText_concat, hpath, BodyLine.valueText, hy, hliteral,
    optionalText, joinAll, join_ok, Option.getD_some]
  rw [show " = " = " " ++ ("=" ++ " ") from rfl]
  simp only [String.append_assoc, String.append_empty]

/-- With its source at hand, a key path is always written. -/
theorem exists_keyPathText (source : List Char) (before after : String) (ks : List Key) :
    ∃ t, keyPathText (some source) before after ks = .ok t := by
  have hspan : ∀ default t, ∃ u, optionalText (some source) default t = .ok u := by
    rintro default (_ | (t | s)) <;> exact ⟨_, rfl⟩
  have hkey : ∀ before after k, ∃ t, keyText (some source) before after k = .ok t := by
    intro before after k
    obtain ⟨t, ht⟩ := hspan before k.decor.before
    obtain ⟨u, hu⟩ := hspan after k.decor.after
    obtain ⟨v, hv⟩ : ∃ v, keyRepr (some source) k = .ok v := by
      rw [keyRepr]
      split
      · exact hspan _ _
      · exact ⟨_, rfl⟩
    simp [keyText, joinAll, ht, hu, hv]
  induction ks generalizing before with
  | nil => exact ⟨_, rfl⟩
  | cons k ks ih =>
    cases ks with
    | nil => exact hkey before after k
    | cons k' ks =>
      obtain ⟨t, ht⟩ := hkey before "" k
      obtain ⟨u, hu⟩ := ih ""
      simp [keyPathText, joinAll, ht, hu]

/-- A new line follows a line of the table in whose body it stands. -/
structure StandsBehind (root : Item) (i : Info) (f : TableForm) (sub : List (Entry Item)) (before : List (Line × List Char)) :
    Prop where
  /-- The line before the new one is the header of the table or a line of its body. -/
  last : ∀ p ∈ before.getLast?, f.position = some (p.1.number : Int) ∨ (p.1.number : Int) ∈ (bodyIn [] sub).map lineNumber
  /-- Only the first line of a root without lines has none before it. -/
  first : before = [] → root = .table i f sub ∧ bodyIn [] sub = []

/-- The tree of a text with one more scalar is written as the text with one more line. -/
theorem readTree_grown (name : String) (hread : readTree limit source = .ok (root, trailing))
    (hx : root.follow path = .ok (.table i f es)) (hwritten : (table i f es).isImplied = false) (hy : y.NewScalar)
    (hliteral : valueRepr (some source) y = .ok literal) :
    ∃ lead keys j g sub sub' before after tail pathText, path = lead ++ keys.map (fun k => .name k.name) ∧
      root.follow lead = .ok (.table j g sub) ∧ g.dotted = false ∧ Grown { key := { name }, item := y } keys sub sub' ∧
      keyPathText (some source) "" "" (keys ++ [({ name } : Key)]) = .ok pathText ∧
      LineTexts limit ⟨.start source, 0⟩ (before ++ after) tail ∧ StandsBehind root j g sub before ∧ ∀ layout,
        renderTree layout (some source) (root.replaceAt path (.table i f (es ++ [{ key := { name }, item := y }])))
            (some trailing) = .ok (String.ofList (before.flatMap Prod.snd) ++
          (if before.getLast?.any fun p => p.1.newline == "" then layout.newline else "") ++
          (pathText ++ " = " ++ literal ++ layout.newline) ++ String.ofList (after.flatMap Prod.snd ++ tail)) := by
  obtain ⟨lines, tail, top, xs, h⟩ := readTree_laidOut hread
  have hvalues := readTree_holdsValues hread
  have htop := readTree_occupied hread
  obtain ⟨lead, keys, j, g, sub, sub', hpath, hlead, hreplace, hgrown, hdotted, hkeys, hsound, hsub, ho⟩ :=
    exists_grown hx hvalues (h.table ▸ .inl isHeader_rootForm)
      (by rw [h.table] at htop ⊢; exact forall_mem_singleton.mpr ⟨h.built, htop⟩) { key := { name }, item := y }
  have hg : g.dotted = false := by
    rw [Bool.eq_false_iff]
    intro hg
    obtain rfl := hdotted hg
    cases h.table.symm.trans (Except.ok.inj hlead)
    cases hg
  have hheader : g.IsHeader := by
    refine hsound.resolve_right ?_
    rintro ⟨himplicit, hnone⟩
    cases hgrown with
    | here => simp [isImplied, ← hkeys rfl, himplicit, hg] at hwritten
    | into item dotted =>
      have hnone := hnone hg
      simp [hasBodyLine, item, isDotted, isTable, dotted] at hnone
  obtain ⟨front, back, rfl, hmarks, hlast, hfirst⟩ := h.grown (replaced_replaceAt hlead) hheader hvalues hgrown hsub ho
    hy.isValue (by cases hy; rfl) rfl
  rw [← hreplace] at hmarks
  have hplaces := h.places
  rw [forall₂_map_left_iff] at hplaces
  have hbefore := forall₂_take_append _ _ _ hplaces
  have hafter := forall₂_drop_append _ _ _ hplaces
  obtain ⟨ws, ws₁, hws, hwsf, hws₁⟩ := map_eq_append_iff.mp hmarks
  obtain ⟨w, ws', rfl, hw, hwsb⟩ := map_eq_cons_iff.mp hws₁
  obtain ⟨pathText, hpathText⟩ := exists_keyPathText source "" "" (keys ++ [({ name } : Key)])
  obtain rfl : w = .body (valueLine (some source) keys { key := { name }, item := y }) := by
    cases w with
    | header => cases hw
    | body l => exact congrArg _ (LineMark.body.inj hw)
  have hmarked : ∀ {ps : List (Line × List Char)} {xs : List Placed} {ws : List WrittenLine},
      Forall₂ (fun p x => Line.PlacedAt (some source) p.1 x) ps xs → ws.map WrittenLine.mark = xs.map Prod.snd →
        Forall₂ (fun p w => Line.Marked (some source) p.1 w.mark) ps ws := by
    intro ps xs ws h hws
    rw [← forall₂_map_right_iff (R := fun (p : Line × List Char) m => p.1.Marked (some source) m), hws, forall₂_map_right_iff]
    exact h.imp fun _ _ h => h.1
  refine ⟨lead, keys, j, g, sub, sub', lines.take front.length, lines.drop front.length, tail, pathText, hpath, hlead, hg,
    hgrown, hpathText, by rw [take_append_drop]; exact h.texts, ⟨fun p hp => ?_, fun hnil => ?_⟩, fun layout => ?_⟩
  · obtain ⟨ps, hps⟩ := getLast?_eq_some_iff.mp hp
    rw [hps] at hbefore
    obtain ⟨x, rest, hx, hrest, hdrop⟩ := forall₂_cons_right_iff.mp (forall₂_drop_append _ _ _ hbefore.flip)
    rw [← hx.2]
    refine hlast x ?_
    rw [← take_append_drop ps.length front, hdrop, forall₂_nil_right_iff.mp hrest]
    simp
  · rw [hnil, forall₂_nil_left_iff] at hbefore
    exact hfirst hbefore
  · refine renderTree_inserted (by rw [take_append_drop]; exact h.texts) h.rest hws (hmarked hbefore hwsf) (hmarked hafter hwsb)
      (text_valueLine hy.decor? hliteral hpathText) rfl

namespace Workspace

/-- **A new key inserts one line.** A string, a truth value or an integer is assigned to a new name in a table of a document
that was read: the root, a table with a header, an element of an array of tables or a dotted table. The document is written
as the text that was read with one line inserted. The line has the keys of the dotted tables that lead to the new entry from
the nearest table that is none. It comes right behind the header of that table or a line of its body, or at the very
beginning if that is a root without lines. Where the line before it has no terminator, it brings one along. -/
theorem assign_inserts_line {options : OptionsArgument} {o : OptionSet} {text : String} {w : Workspace} {root x : Item}
    {trailing : SpanText} {path : List Segment} {name : String} {data : Input} (ho : options.resolve .reader = .ok o)
    (hw : ({} : Workspace).parse "main" options (.text text) true = .ok w)
    (hread : readTree o.readOptions.maxNesting text.toList = .ok (root, trailing)) (hx : root.follow path = .ok x)
    (htable : x.isTable = true) (hwritten : x.isImplied = false) (habsent : x.entryNamed? name = none) (simple : data.Simple)
    (leaf : data.isLeaf = true) :
    ∃ w' d y literal lead keys i f sub sub' before after tail pathText, w.assign { path } name data = .ok w' ∧
      w'.slot "main" = .ok { content := .document d } ∧ ofValue data = .ok y ∧ valueRepr none y = .ok literal ∧
      path = lead ++ keys.map (fun k => .name k.name) ∧ root.follow lead = .ok (.table i f sub) ∧ f.dotted = false ∧
      Grown { key := { name }, item := y } keys sub sub' ∧
      keyPathText (some text.toList) "" "" (keys ++ [({ name } : Key)]) = .ok pathText ∧
      LineTexts o.readOptions.maxNesting ⟨.start text.toList, 0⟩ (before ++ after) tail ∧
      text.toList = (before ++ after).flatMap Prod.snd ++ tail ∧ StandsBehind root i f sub before ∧
      ∀ layout, d.render layout = .ok (String.ofList (before.flatMap Prod.snd) ++
        (if before.getLast?.any fun p => p.1.newline == "" then layout.newline else "") ++
        (pathText ++ " = " ++ literal ++ layout.newline) ++ String.ofList (after.flatMap Prod.snd ++ tail)) := by
  obtain ⟨i, f, es, z, rfl, hz, hfrozen, hmapping, hentries, hedit⟩ := parse_edited ho hw hread hx htable
  obtain ⟨y, hy, hvalue, hmember⟩ := simple.newScalar leaf
  obtain ⟨literal, hliteral⟩ := hy.exists_literal
  have hassign : z.assign name data = .ok (z.withEntries (place name y z.entries)) := by
    simp [Item.assign, editable, hfrozen, coerced_eq hvalue hmember simple.not_item, bind, Except.bind]
  have hlabels := ((Change.place name y hmapping hy.loose fun _ => hy.isValue).labels fun y hy => hy.unlabelled.labels).2
  obtain ⟨d, hslot, hrender⟩ := hedit _ (es ++ [{ key := { name }, item := y }]) hlabels (by
    rw [place_stripped, hy.stripped, hentries, place, findNamed?_reworded, show findNamed? name es = none from habsent, map_append]
    cases hy
    rfl)
  obtain ⟨lead, keys, j, g, sub, sub', before, after, tail, pathText, hpath, hlead, hg, hgrown, hpathText, hlines, hfollows,
    hinserted⟩ := readTree_grown name hread hx hwritten hy (hliteral _)
  refine ⟨_, d, y, _, lead, keys, j, g, sub, sub', before, after, tail, pathText, ?_, hslot, hvalue, hliteral none, hpath, hlead,
    hg, hgrown, hpathText, hlines, hlines.text, hfollows, fun layout => (hrender layout).trans (hinserted layout)⟩
  simp [assign, hz, bind, Except.bind, hassign, Except.mapError, Except.map]

/-- The new line of a dotted table stands between two lines of the root. -/
theorem assign_inserts_line_dotted : ∃ w w' d, ∃ before after : List (Line × List Char), ∃ tail pathText,
    ({} : Workspace).parse "main" .unset (.text "x.y = 1\nz = 2 # c") true = .ok w ∧
      w.assign { path := [.name "x"] } "k" (.boolean true) = .ok w' ∧ w'.slot "main" = .ok { content := .document d } ∧
      "x.y = 1\nz = 2 # c".toList = (before ++ after).flatMap Prod.snd ++ tail ∧
      ∀ layout, d.render layout = .ok (String.ofList (before.flatMap Prod.snd) ++
        (if before.getLast?.any fun p => p.1.newline == "" then layout.newline else "") ++
        (pathText ++ " = " ++ "true" ++ layout.newline) ++ String.ofList (after.flatMap Prod.snd ++ tail)) := by
  have hparse : (({} : Workspace).parse "main" .unset (.text "x.y = 1\nz = 2 # c") true).toOption.isSome = true := by
    decide +kernel
  have hfound : ((readTree 64 "x.y = 1\nz = 2 # c".toList).toOption.bind fun r =>
      (r.1.follow [.name "x"]).toOption.map fun x => x.isTable && !x.isImplied && (x.entryNamed? "k").isNone) = some true := by
    decide +kernel
  obtain ⟨w, hw⟩ := Option.isSome_iff_exists.mp hparse
  obtain ⟨⟨root, trailing⟩, hread, hx⟩ := Option.bind_eq_some_iff.mp hfound
  obtain ⟨x, hx, hkind⟩ := Option.map_eq_some_iff.mp hx
  simp only [Bool.and_eq_true, Bool.not_eq_true', Option.isNone_iff_eq_none] at hkind
  obtain ⟨set, hset, hoptions⟩ := OptionsArgument.resolve_unset
  rw [toOption_eq_some] at hw hread hx
  obtain ⟨w', d, y, literal, _, _, _, _, _, _, before, after, tail, pathText, hassign, hslot, hy, hliteral, -, -, -, -, -, -, htext, -,
    hrender⟩ := assign_inserts_line hset hw (by rw [hoptions]; exact hread) hx hkind.1.1 hkind.1.2 hkind.2 (.boolean true) rfl
  cases hy
  cases hliteral
  exact ⟨w, w', d, before, after, tail, pathText, hw, hassign, hslot, htext, hrender⟩

end Workspace

end Verbatim

import Verbatim.Item.Assemble
import Verbatim.Proofs.Dotting

/-!
# Where a line comes to stand in the tree

A line changes the tree in one place. A header leads through tables, and through the last table of an array of tables, to
the place where its table is new, implied so far, or one more table of an array; an entry line leads to the open table. What
holds of such a change in one table holds of the tree around it.
-/

namespace Verbatim

open List Item Render Key

variable {names : List String} {x' es' x sub sub' es pre post : List (Entry Item)} {g f : TableForm} {l : EntryLine}
  {h : Header} {rest : List Key} {e : Entry Item}

/-! ## Tables on the way -/

/-- An item leads to a table: it is the table, or an array of tables with that table last. The table has a form and entries,
and with other entries it makes another item. -/
inductive Item.LeadsTo : Item → TableForm → List (Entry Item) → (List (Entry Item) → Item) → Prop where
  /-- The table itself. -/
  | table {i : Info} {f : TableForm} {sub : List (Entry Item)} : LeadsTo (.table i f sub) f sub (.table i f)
  /-- The last table of an array of tables. -/
  | element {i j : Info} {ts : List Item} {f : TableForm} {sub : List (Entry Item)} :
      LeadsTo (.arrayOfTables i (ts ++ [.table j f sub])) f sub fun sub' => .arrayOfTables i (ts ++ [.table j f sub'])

/-- The table at a path of names, beginning with a table of a form and entries. -/
inductive Opens : TableForm → List (Entry Item) → List String → TableForm → List (Entry Item) → Prop where
  | here {f : TableForm} {es : List (Entry Item)} : Opens f es [] f es
  | enter {f f' g : TableForm} {pre post sub x : List (Entry Item)} {e : Entry Item} {names : List String}
      {rebuild : List (Entry Item) → Item} (item : e.item.LeadsTo f' sub rebuild) (rest : Opens f' sub names g x) :
      Opens f (pre ++ e :: post) (e.name :: names) g x

/-- A change of the table at a path of names, and of the tables around it for its sake. -/
inductive Below (change : TableForm → List (Entry Item) → List (Entry Item) → Prop) :
    TableForm → List String → List (Entry Item) → List (Entry Item) → Prop where
  | here {f : TableForm} {es es' : List (Entry Item)} (here : change f es es') : Below change f [] es es'
  | enter {f f' : TableForm} {pre post sub sub' : List (Entry Item)} {e : Entry Item} {names : List String}
      {rebuild : List (Entry Item) → Item} (item : e.item.LeadsTo f' sub rebuild)
      (rest : Below change f' names sub sub') :
      Below change f (e.name :: names) (pre ++ e :: post) (pre ++ { e with item := rebuild sub' } :: post)

namespace Item.LeadsTo

variable {x : Item} {f : TableForm} {sub sub' : List (Entry Item)} {rebuild : List (Entry Item) → Item}

theorem rebuild_self (h : x.LeadsTo f sub rebuild) : rebuild sub = x := by cases h <;> rfl

/-- With other entries in it the item leads to those. -/
theorem other (h : x.LeadsTo f sub rebuild) (sub' : List (Entry Item)) : (rebuild sub').LeadsTo f sub' rebuild := by
  cases h with
  | table => exact .table
  | element => exact .element

theorem isValue (h : x.LeadsTo f sub rebuild) : x.isValue = false := by cases h <;> rfl

theorem isDotted_other (h : x.LeadsTo f sub rebuild) (sub' : List (Entry Item)) :
    (rebuild sub').isDotted = x.isDotted := by
  cases h <;> rfl

/-- Only a table is dotted, so a dotted item is the table that it leads to. -/
theorem of_isDotted (h : x.LeadsTo f sub rebuild) (hd : x.isDotted = true) : f.dotted = true ∧ x.entries = sub := by
  cases h with
  | table => exact ⟨hd, rfl⟩
  | element => cases hd

theorem hasBodyLine_other (h : x.LeadsTo f sub rebuild) (sub' : List (Entry Item)) (e : Entry Item) :
    hasBodyLine { e with item := rebuild sub' } = hasBodyLine { e with item := x } := by
  cases h <;> rfl

end Item.LeadsTo

/-! ## What is true of every table -/

/-- The form of a table with a header line of its own. -/
structure TableForm.IsHeader (f : TableForm) : Prop where
  explicit : f.implicit = false
  notDotted : f.dotted = false
  /-- The header line has a number. -/
  placed : f.position.isSome = true

/-- A table has a header, or no entry line of its own unless it is dotted; the members of an array of tables have headers,
and no inline table is dotted. -/
def Item.Sound : Item → Prop
  | .table _ f sub => f.IsHeader ∨ (f.implicit = true ∧ (f.dotted = false → sub.any hasBodyLine = false))
  | .arrayOfTables _ ts => ∀ t ∈ ts, ∃ j f sub, t = .table j f sub ∧ f.IsHeader
  | .inlineTable _ f _ => f.dotted = false
  | _ => True

theorem Item.sound_of_isValue {x : Item} (hv : x.isValue = true) (hd : x.isDotted = false) : x.Sound := by
  cases x with
  | table i f es => cases hv
  | arrayOfTables i ts => cases hv
  | inlineTable i f es => exact hd
  | _ => exact True.intro

/-- What a dotted key made is a table that is only implied. -/
theorem Item.Sound.dotted {x : Item} (hx : x.Sound) (hd : x.isDotted = true) :
    ∃ i f sub, x = .table i f sub ∧ f.dotted = true ∧ f.implicit = true := by
  cases x with
  | inlineTable i f es => exact absurd (hx.symm.trans hd) (by simp)
  | table i f es =>
    refine ⟨i, f, es, rfl, hd, ?_⟩
    rcases hx with hheader | ⟨himplicit, -⟩
    · exact absurd (hheader.notDotted.symm.trans hd) (by simp)
    · exact himplicit
  | _ => cases hd

/-- The entries of the tables of an item. -/
def Item.bodies : Item → List (List (Entry Item))
  | .table _ _ sub => [sub]
  | .arrayOfTables _ ts => ts.map entries
  | _ => []

theorem Item.bodies_of_isValue {x : Item} (hv : x.isValue = true) : x.bodies = [] := by
  cases x with
  | table i f es => cases hv
  | arrayOfTables i ts => cases hv
  | _ => rfl

/-- What is true of the entries of every table while lines are added. -/
inductive Built : List (Entry Item) → Prop where
  | intro {es : List (Entry Item)} (dotting : Dotting es) (sound : ∀ e ∈ es, e.item.Sound)
      (below : ∀ e ∈ es, ∀ sub ∈ e.item.bodies, Built sub) : Built es

theorem Item.LeadsTo.mem_bodies {x : Item} (h : x.LeadsTo f sub rebuild) :
    sub ∈ x.bodies := by
  cases h with
  | table => simp [bodies]
  | element => simp [bodies, entries]

/-- A table on the way has a header or is only implied. -/
theorem Item.LeadsTo.form {x : Item} (h : x.LeadsTo f sub rebuild) (hx : x.Sound) :
    f.IsHeader ∨ (f.implicit = true ∧ (f.dotted = false → sub.any hasBodyLine = false)) := by
  cases h with
  | table => exact hx
  | @element i j ts f sub =>
    obtain ⟨j', f', sub', heq, hf⟩ := hx (.table j f sub) (by simp)
    cases heq
    exact .inl hf

namespace Built

variable {es pre post : List (Entry Item)} {e d : Entry Item}

theorem dotting (h : Built es) : Dotting es := by
  cases h with
  | intro hdotting _ _ => exact hdotting

theorem sound (h : Built es) (he : e ∈ es) : e.item.Sound := by
  cases h with
  | intro _ hsound _ => exact hsound e he

theorem tables (h : Built es) (he : e ∈ es) (hsub : sub ∈ e.item.bodies) : Built sub := by
  cases h with
  | intro _ _ hbelow => exact hbelow e he sub hsub

theorem nil : Built [] := .intro Dotting.nil (by simp) (by simp)

/-- A further entry with a name of its own. -/
theorem append (h : Built es) (hname : e.name ∉ es.map Entry.name)
    (hline : e.item.isDotted = false → e.item.isValue = true → e.position.isSome = true)
    (hdotting : e.item.isDotted = true → Dotting e.item.entries) (hsound : e.item.Sound)
    (hbelow : ∀ sub ∈ e.item.bodies, Built sub) : Built (es ++ [e]) := by
  obtain ⟨hdottings, hsounds, hbelows⟩ := h
  refine .intro (hdottings.append hname hline hdotting) ?_ ?_
  · exact forall_mem_append.mpr ⟨hsounds, forall_mem_singleton.mpr hsound⟩
  · exact forall_mem_append.mpr ⟨hbelows, forall_mem_singleton.mpr hbelow⟩

/-- Another entry of the same name in place of one. -/
theorem replace (h : Built (pre ++ e :: post)) (hname : d.name = e.name)
    (hline : d.item.isDotted = false → d.item.isValue = true → d.position.isSome = true)
    (hdotting : d.item.isDotted = true → Dotting d.item.entries) (hsound : d.item.Sound)
    (hbelow : ∀ sub ∈ d.item.bodies, Built sub) : Built (pre ++ d :: post) := by
  obtain ⟨hdottings, hsounds, hbelows⟩ := h
  simp only [forall_mem_append, forall_mem_cons] at hsounds hbelows
  refine .intro (hdottings.replace hname hline hdotting) ?_ ?_ <;> simp only [forall_mem_append, forall_mem_cons]
  · exact ⟨hsounds.1, hsound, hsounds.2.2⟩
  · exact ⟨hbelows.1, hbelow, hbelows.2.2⟩

end Built

/-! ## Changes below -/

/-- A change below tables that have no header keeps the entry lines of those. -/
def Quiet (change : TableForm → List (Entry Item) → List (Entry Item) → Prop) : Prop :=
  ∀ f x x', change f x x' → Built x → f.implicit = true →
    x'.any hasBodyLine = x.any hasBodyLine ∧
      ∀ path, bodyIn path x' = bodyIn path x

variable {change : TableForm → List (Entry Item) → List (Entry Item) → Prop}

namespace Item.LeadsTo

variable {x : Item} {f : TableForm} {sub : List (Entry Item)} {rebuild : List (Entry Item) → Item}

theorem sound_other (h : x.LeadsTo f sub rebuild) (hx : x.Sound) (hany : f.implicit = true → sub'.any hasBodyLine =
      sub.any hasBodyLine) : (rebuild sub').Sound := by
  cases h with
  | table =>
    rcases hx with hheader | ⟨himplicit, hnone⟩
    · exact .inl hheader
    · exact .inr ⟨himplicit, fun hd => (hany himplicit).trans (hnone hd)⟩
  | @element i j ts f sub =>
    intro t ht
    rcases mem_append.mp ht with ht | ht
    · exact hx t (mem_append_left _ ht)
    · obtain ⟨j', f', x', heq, hf⟩ := hx (.table j f sub) (by simp)
      cases heq
      exact ⟨j, f, sub', mem_singleton.mp ht, hf⟩

theorem mem_bodies_other (h : x.LeadsTo f sub rebuild) (hy : y ∈ (rebuild sub').bodies) : y = sub' ∨ y ∈ x.bodies := by
  cases h with
  | table => exact .inl (by simpa [bodies] using hy)
  | @element i j ts f sub =>
    rw [bodies, map_append, mem_append] at hy
    rcases hy with hy | hy
    · exact .inr (by simpa [bodies] using .inl (by simpa using hy))
    · exact .inl (by simpa [entries] using hy)

/-- An entry keeps its lines if the entries below it do, which matters only where a dotted key made the table. -/
theorem entryBody_other (h : e.item.LeadsTo f sub rebuild)
    (hlines : f.dotted = true → ∀ path, bodyIn path sub' = bodyIn path sub) (path : List Key) :
    entryBody path { e with item := rebuild sub' } = entryBody path e := by
  have hdotted := h.isDotted_other sub'
  cases hd : e.item.isDotted with
  | true =>
    obtain ⟨hf, hentries⟩ := h.of_isDotted hd
    have hentries' := ((h.other sub').of_isDotted (hdotted.trans hd)).2
    have hnew := entryBody_dotted path (e := { e with item := rebuild sub' }) (hdotted.trans hd)
    rw [hnew, entryBody_dotted path hd, hentries, hentries', hlines hf]
  | false =>
    have hnew := entryBody_table path (e := { e with item := rebuild sub' }) (hdotted.trans hd) (h.other sub').isValue
    rw [hnew, entryBody_table path hd h.isValue]

end Item.LeadsTo

/-- A change keeps what is true of every table. Below a table it also keeps the entry lines of that table. -/
theorem Below.built (hchange : ∀ f x x', change f x x' → Built x → Built x') (hquiet : Quiet change)
    (h : Below change f names es es') (hes : Built es) :
    Built es' ∧ ((names = [] → f.implicit = true) →
      es'.any hasBodyLine = es.any hasBodyLine ∧
        ∀ path, bodyIn path es' = bodyIn path es) := by
  induction h with
  | here hlocal => exact ⟨hchange _ _ _ hlocal hes, fun himplicit => hquiet _ _ _ hlocal hes (himplicit rfl)⟩
  | @enter f f' pre post sub sub' e names rebuild item rest ih =>
    have he : e ∈ pre ++ e :: post := by simp
    have hsub := hes.tables he item.mem_bodies
    obtain ⟨hsub', hkept⟩ := ih hsub
    have hform := item.form (hes.sound he)
    -- a dotted table is only implied, so the entry lines below it stay as they are
    have hlines : f'.dotted = true → ∀ path, bodyIn path sub' = bodyIn path sub := by
      intro hd
      rcases hform with hheader | ⟨himplicit, -⟩
      · exact absurd (hheader.notDotted.symm.trans hd) (by simp)
      · exact (hkept fun _ => himplicit).2
    refine ⟨hes.replace rfl ?_ ?_ ?_ ?_, fun _ => ⟨?_, fun path => ?_⟩⟩
    · intro _ hv
      exact absurd ((item.other sub').isValue.symm.trans hv) (by simp)
    · intro hd
      rw [((item.other sub').of_isDotted hd).2]
      exact hsub'.dotting
    · exact item.sound_other (hes.sound he) fun himplicit => (hkept fun _ => himplicit).1
    · intro y hy
      rcases item.mem_bodies_other hy with rfl | hy
      · exact hsub'
      · exact hes.tables he hy
    · simp only [any_append, any_cons, item.hasBodyLine_other]
    · simp only [bodyIn_eq, flatMap_append, flatMap_cons, item.entryBody_other hlines path]

/-- A change keeps the tables on the way to it. -/
theorem Below.opens (h : Below change f names es es') :
    ∃ g x x', change g x x' ∧ Opens f es names g x ∧ Opens f es' names g x' := by
  induction h with
  | here hlocal => exact ⟨_, _, _, hlocal, .here, .here⟩
  | @enter f f' pre post sub sub' e names rebuild item rest ih =>
    obtain ⟨g, x, x', hlocal, hopen, hopen'⟩ := ih
    exact ⟨g, x, x', hlocal, .enter item hopen, .enter (e := { e with item := rebuild sub' }) (item.other sub') hopen'⟩

theorem Opens.trans (h : Opens f es names g x) (h' : Opens g x names' k y) : Opens f es (names ++ names') k y := by
  induction h with
  | here => exact h'
  | enter item rest ih => exact .enter item (ih h')

/-! ## Entry lines -/

theorem isDottedTable_dottedTable : IsDottedTable dottedTable := isDottedTable rfl

/-- An entry below its dotted key keeps what is true of every table. -/
theorem DottedRun.built {leaf : Entry Item} (hd : leaf.item.isDotted = false) (hv : leaf.item.isValue = true)
    (hn : leaf.position.isSome = true) (h : DottedRun dottedTable leaf ks es es') (hes : Built es) :
    Built es' := by
  induction h with
  | leaf absent =>
    refine hes.append absent (fun _ _ => hn) (by simp [hd]) (sound_of_isValue hv hd) ?_
    simp [bodies_of_isValue hv]
  | @make k ks es sub absent rest ih =>
    have hsub := ih Built.nil
    refine hes.append absent (fun hdotted => nomatch hdotted) (fun _ => hsub.dotting)
      (.inr ⟨rfl, fun hdotted => nomatch hdotted⟩) ?_
    intro y hy
    rw [mem_singleton.mp hy]
    exact hsub
  | @enter k ks pre post sub e name dotted rest ih =>
    have he : e ∈ pre ++ e :: post := by simp
    obtain ⟨i, f, sub₀, hitem, hf, himplicit⟩ := (hes.sound he).dotted dotted
    obtain ⟨key, x, p, n, l⟩ := e
    cases hitem
    have hsub := ih (hes.tables he (mem_singleton.mpr rfl))
    refine hes.replace rfl (fun hdotted => ?_) (fun _ => hsub.dotting) (.inr ⟨himplicit, fun hdotted => ?_⟩) ?_
    · exact absurd (hdotted.symm.trans hf) (by simp)
    · exact absurd (hdotted.symm.trans hf) (by simp)
    · exact forall_mem_singleton.mpr hsub

/-- What an entry line does to the open table, whose form is given. -/
def EntryChange (open_ : TableForm) (l : EntryLine) (f : TableForm) (x x' : List (Entry Item)) : Prop :=
  f = open_ ∧ DottedRun dottedTable l.entry l.path x x'

theorem attachEntry_below (hopen : Opens f es names g x) (hes : Built es) (h : attachEntry l names es = .ok es') :
    Below (EntryChange g l) f names es es' := by
  induction hopen generalizing es' with
  | here => exact .here ⟨rfl, insertDotted_run hes.dotting (by simpa only [attachEntry] using h)⟩
  | @enter f f' g pre post sub x e names rebuild item rest ih =>
    have he : e ∈ pre ++ e :: post := by simp
    have hsub := hes.tables he item.mem_bodies
    have hfind := findNamed?_of_mem hes.dotting.names he
    obtain ⟨pre', post', hes', hupdate⟩ := updateEntry_of_find hes.dotting.names hfind
    rw [hes']
    simp only [attachEntry, hfind] at h
    obtain ⟨key, y, p, n, t⟩ := e
    have hitem := item
    cases item with
    | table =>
      simp only at h
      split at h
      · cases h
      · next sub' hsub' =>
        cases h
        rw [hupdate]
        exact .enter hitem (ih hsub hsub')
    | element =>
      simp only [List.getLast?_concat, dropLast_concat] at h
      split at h
      · cases h
      · next sub' hsub' =>
        cases h
        rw [hupdate]
        exact .enter hitem (ih hsub hsub')

/-! ## Header lines -/

def Header.form (h : Header) : TableForm :=
  { decor := h.decor, position := some h.number, headerKeys := some h.keys, newline := some h.newline }

theorem Header.isHeader_form (h : Header) : h.form.IsHeader := ⟨rfl, rfl, rfl⟩

/-- The entry of a header where nothing stands yet, below implied tables for the leading segments. -/
def Header.freshEntry (h : Header) : List Key → Entry Item
  | [] =>
    { key := h.leaf.bare
      item :=
        if h.isArray then .arrayOfTables { span := some ⟨h.span.start, h.span.start + 2⟩ } [h.table []] else h.table [] }
  | k :: ks => { key := k.bare, item := impliedTable.withEntries [h.freshEntry ks] }

/-- What a header does to the table that its way ends in. -/
inductive HeaderChange (h : Header) : List Key → List (Entry Item) → List (Entry Item) → Prop where
  /-- Nothing stands under the next name. -/
  | fresh {rest : List Key} {x : List (Entry Item)} (absent : (h.freshEntry rest).name ∉ x.map Entry.name) :
      HeaderChange h rest x (x ++ [h.freshEntry rest])
  /-- A table that was only implied gets its header. -/
  | promote {pre post sub : List (Entry Item)} {e : Entry Item} {i : Info} {f : TableForm} (single : h.isArray = false)
      (name : e.name = h.leaf.name) (item : e.item = .table i f sub) (implied : f.implicit = true)
      (notDotted : f.dotted = false) :
      HeaderChange h [] (pre ++ e :: post) (pre ++ { e with item := h.table sub } :: post)
  /-- An array of tables gets one more. -/
  | append {pre post : List (Entry Item)} {e : Entry Item} {i : Info} {ts : List Item} (array : h.isArray = true)
      (name : e.name = h.leaf.name) (item : e.item = .arrayOfTables i ts) :
      HeaderChange h [] (pre ++ e :: post) (pre ++ { e with item := .arrayOfTables i (ts ++ [h.table []]) } :: post)

theorem placeHeader_change (hes : Built es) (hplace : placeHeader h es = .ok es') : HeaderChange h [] es es' := by
  rw [placeHeader] at hplace
  dsimp only at hplace
  split at hplace
  · next harray =>
    split at hplace
    · next hfind =>
      cases hplace
      have hfresh := @HeaderChange.fresh h [] es (findNamed?_eq_none_iff.mp hfind)
      simpa only [Header.freshEntry, harray, if_true] using hfresh
    · next e hfind =>
      split at hplace
      · next i ts hitem =>
        cases hplace
        have hname := name_of_findNamed? hfind
        obtain ⟨pre, post, rfl, hupdate⟩ := updateEntry_of_find hes.dotting.names hfind
        rw [hupdate]
        exact .append harray hname hitem
      · cases hplace
  · next harray =>
    split at hplace
    · next hfind =>
      cases hplace
      have hfresh := @HeaderChange.fresh h [] es (findNamed?_eq_none_iff.mp hfind)
      simpa only [Header.freshEntry, harray, Bool.false_eq_true, if_false] using hfresh
    · next e hfind =>
      split at hplace
      · next i f sub hitem =>
        split at hplace
        · next himplied =>
          cases hplace
          have hname := name_of_findNamed? hfind
          obtain ⟨pre, post, rfl, hupdate⟩ := updateEntry_of_find hes.dotting.names hfind
          rw [hupdate]
          simp only [Bool.and_eq_true, Bool.not_eq_true'] at himplied
          exact .promote (by simpa using harray) hname hitem himplied.1 himplied.2
        · cases hplace
      · cases hplace

theorem attachHeader_nil (h : Header) (ks : List Key) : attachHeader h ks [] = .ok [h.freshEntry ks] := by
  induction ks with
  | nil =>
    cases harray : h.isArray <;> simp [attachHeader, placeHeader, findNamed?, Header.freshEntry, harray]
  | cons k ks ih => simp [attachHeader, findNamed?, ih, Header.freshEntry]

/-- A header changes one table, which lies on its way. -/
theorem attachHeader_below {ks : List Key} (f : TableForm) (hes : Built es) (hattach : attachHeader h ks es = .ok es') :
    ∃ lead rest, ks = lead ++ rest ∧ Below (fun _ => HeaderChange h rest) f (lead.map name) es es' := by
  induction ks generalizing es es' f with
  | nil => exact ⟨[], [], rfl, .here (placeHeader_change hes (by simpa only [attachHeader] using hattach))⟩
  | cons k ks ih =>
    rw [attachHeader] at hattach
    split at hattach
    · next hfind =>
      simp only [attachHeader_nil] at hattach
      cases hattach
      exact ⟨[], k :: ks, rfl, .here (.fresh (findNamed?_eq_none_iff.mp hfind))⟩
    · next e hfind =>
      have he := mem_of_findNamed? hfind
      have hname := name_of_findNamed? hfind
      obtain ⟨pre, post, rfl, hupdate⟩ := updateEntry_of_find hes.dotting.names hfind
      -- both ways on change the entries of the table that the item leads to
      have henter : ∀ f' sub sub' rebuild, e.item.LeadsTo f' sub rebuild → attachHeader h ks sub = .ok sub' →
          ∃ lead rest, k :: ks = lead ++ rest ∧
            Below (fun _ => HeaderChange h rest) f (lead.map name) (pre ++ e :: post)
              (pre ++ { e with item := rebuild sub' } :: post) := by
        intro f' sub sub' rebuild item hsub
        obtain ⟨lead, rest, rfl, hbelow⟩ := ih f' (hes.tables he item.mem_bodies) hsub
        refine ⟨k :: lead, rest, rfl, ?_⟩
        rw [map_cons, ← hname]
        exact .enter item hbelow
      obtain ⟨key, y, p, n, t⟩ := e
      split at hattach
      · next i f' sub hitem =>
        split at hattach
        · cases hattach
        · next sub' hsub =>
          cases hattach
          rw [hupdate]
          cases hitem
          exact henter f' sub sub' _ .table hsub
      · next i ts hitem =>
        split at hattach
        · next j f' sub hlast =>
          split at hattach
          · cases hattach
          · next sub' hsub =>
            cases hattach
            rw [hupdate]
            cases hitem
            obtain ⟨us, rfl⟩ := List.getLast?_eq_some_iff.mp hlast
            rw [dropLast_concat]
            exact henter f' sub sub' _ .element hsub
        · cases hattach
      · cases hattach

/-! ## What lines keep -/

/-- The table of a header where nothing stands yet: it has no entry lines, and what is true of every table is true below
it. -/
structure BringsTables (e : Entry Item) : Prop where
  isValue : e.item.isValue = false
  notDotted : e.item.isDotted = false
  /-- Its tables have headers or no entry lines. -/
  sound : e.item.Sound
  /-- So have those below it. -/
  built : ∀ sub ∈ e.item.bodies, Built sub

theorem BringsTables.hasBodyLine (h : BringsTables e) : hasBodyLine e = false := by
  simp [Render.hasBodyLine, h.isValue, h.notDotted]

theorem BringsTables.entryBody (h : BringsTables e) (path : List Key) : entryBody path e = [] :=
  entryBody_table path h.notDotted h.isValue

theorem BringsTables.append (h : BringsTables e) (hes : Built es) (hname : e.name ∉ es.map Entry.name) :
    Built (es ++ [e]) := by
  refine hes.append hname (fun _ hv => ?_) (fun hd => ?_) h.sound h.built
  · exact absurd (h.isValue.symm.trans hv) (by simp)
  · exact absurd (h.notDotted.symm.trans hd) (by simp)

theorem BringsTables.replace (h : BringsTables d) (hes : Built (pre ++ e :: post)) (hname : d.name = e.name) :
    Built (pre ++ d :: post) := by
  refine hes.replace hname (fun _ hv => ?_) (fun hd => ?_) h.sound h.built
  · exact absurd (h.isValue.symm.trans hv) (by simp)
  · exact absurd (h.notDotted.symm.trans hd) (by simp)

theorem Header.bringsTables_freshEntry (h : Header) (ks : List Key) : BringsTables (h.freshEntry ks) := by
  induction ks with
  | nil =>
    cases harray : h.isArray with
    | true =>
      have hitem : (h.freshEntry []).item = .arrayOfTables { span := some ⟨h.span.start, h.span.start + 2⟩ } [h.table []] := by
        simp [Header.freshEntry, harray]
      refine ⟨by rw [hitem]; rfl, by rw [hitem]; rfl, ?_, ?_⟩
      · rw [hitem]
        intro t ht
        exact ⟨_, h.form, [], mem_singleton.mp ht, h.isHeader_form⟩
      · rw [hitem]
        intro sub hsub
        rw [mem_singleton.mp hsub]
        exact Built.nil
    | false =>
      have hitem : (h.freshEntry []).item = h.table [] := by simp [Header.freshEntry, harray]
      refine ⟨by rw [hitem]; rfl, by rw [hitem]; rfl, ?_, ?_⟩
      · rw [hitem]
        exact .inl h.isHeader_form
      · rw [hitem]
        intro sub hsub
        rw [mem_singleton.mp hsub]
        exact Built.nil
  | cons k ks ih =>
    refine ⟨rfl, rfl, .inr ⟨rfl, fun _ => ?_⟩, ?_⟩
    · simp [ih.hasBodyLine]
    · intro sub hsub
      rw [mem_singleton.mp hsub]
      exact ih.append Built.nil (by simp)

/-- A table that was only implied, with its header. -/
private theorem bringsTables_promote (h : Header) (hes : Built (pre ++ e :: post)) (item : e.item = .table i f sub) :
    BringsTables { e with item := h.table sub } := by
  refine ⟨rfl, rfl, .inl h.isHeader_form, fun y hy => ?_⟩
  rw [mem_singleton.mp hy]
  exact hes.tables (e := e) (by simp) (by simp [item, bodies])

private theorem bringsTables_append (h : Header) (hes : Built (pre ++ e :: post)) (item : e.item = .arrayOfTables i ts) :
    BringsTables { e with item := .arrayOfTables i (ts ++ [h.table []]) } := by
  refine ⟨rfl, rfl, fun t ht => ?_, fun y hy => ?_⟩
  · rcases mem_append.mp ht with ht | ht
    · have hsound := hes.sound (e := e) (by simp)
      rw [item] at hsound
      exact hsound t ht
    · exact ⟨_, h.form, [], mem_singleton.mp ht, h.isHeader_form⟩
  · rw [bodies, map_append, mem_append] at hy
    rcases hy with hy | hy
    · exact hes.tables (e := e) (by simp) (by rw [item]; exact hy)
    · rw [mem_singleton.mp hy]
      exact Built.nil

theorem HeaderChange.built (hchange : HeaderChange h rest x x') (hx : Built x) : Built x' := by
  cases hchange with
  | fresh absent => exact (h.bringsTables_freshEntry rest).append hx absent
  | promote single name item implied notDotted => exact (bringsTables_promote h hx item).replace hx rfl
  | append array name item => exact (bringsTables_append h hx item).replace hx rfl

/-- A header adds no entry line to a body. -/
theorem HeaderChange.quiet (hchange : HeaderChange h rest x x') (hx : Built x) :
    x'.any hasBodyLine = x.any hasBodyLine ∧ ∀ path, bodyIn path x' = bodyIn path x := by
  cases hchange with
  | fresh absent =>
    have hfresh := h.bringsTables_freshEntry rest
    exact ⟨by simp [hfresh.hasBodyLine], fun path => by simp [bodyIn_eq, hfresh.entryBody]⟩
  | @promote pre post sub e i f single name item implied notDotted =>
    have hnew := bringsTables_promote h hx item
    have hbody : hasBodyLine e = false := by simp [hasBodyLine, item, isValue, isDotted, notDotted]
    exact ⟨by simp [hnew.hasBodyLine, hbody],
      fun path => by simp [bodyIn_eq, hnew.entryBody, entryBody_of_not_hasBodyLine path hbody]⟩
  | @append pre post e i ts array name item =>
    have hnew := bringsTables_append h hx item
    have hbody : hasBodyLine e = false := by simp [hasBodyLine, item, isValue, isDotted]
    exact ⟨by simp [hnew.hasBodyLine, hbody],
      fun path => by simp [bodyIn_eq, hnew.entryBody, entryBody_of_not_hasBodyLine path hbody]⟩

theorem Header.opens_freshEntry (h : Header) (ks : List Key) (g : TableForm) (pre : List (Entry Item)) :
    Opens g (pre ++ [h.freshEntry ks]) (ks.map name ++ [h.leaf.name]) h.form [] := by
  induction ks generalizing g pre with
  | nil =>
    cases harray : h.isArray with
    | true =>
      have hitem : (h.freshEntry []).item.LeadsTo h.form [] fun sub => .arrayOfTables
          { span := some ⟨h.span.start, h.span.start + 2⟩ } ([] ++ [.table { span := some h.span } h.form sub]) := by
        simp only [Header.freshEntry, harray, if_true]
        exact @Item.LeadsTo.element _ _ [] h.form []
      exact .enter hitem .here
    | false =>
      have hitem : (h.freshEntry []).item.LeadsTo h.form [] (.table { span := some h.span } h.form) := by
        simp only [Header.freshEntry, harray, Bool.false_eq_true, if_false]
        exact .table
      exact .enter hitem .here
  | cons k ks ih => exact .enter (e := h.freshEntry (k :: ks)) .table (ih _ [])

theorem HeaderChange.opens (hchange : HeaderChange h rest x x') (g : TableForm) :
    ∃ y, Opens g x' (rest.map name ++ [h.leaf.name]) h.form y := by
  cases hchange with
  | fresh absent => exact ⟨[], h.opens_freshEntry rest g x⟩
  | @promote pre post sub e i f single name item implied notDotted =>
    refine ⟨sub, ?_⟩
    rw [← name]
    exact .enter (e := { e with item := h.table sub }) .table .here
  | @append pre post e i ts array name item =>
    refine ⟨[], ?_⟩
    rw [← name]
    exact .enter (e := { e with item := .arrayOfTables i (ts ++ [h.table []]) }) .element .here

/-! ## Trees under construction -/

def rootForm : TableForm := { position := some 0 }

theorem isHeader_rootForm : rootForm.IsHeader := ⟨rfl, rfl, rfl⟩

/-- A tree to which lines can be added: the open table is there and has a header, or is the root. -/
structure Assembly.Ready (a : Assembly) (g : TableForm) : Prop where
  /-- What is true of every table. -/
  built : Built a.entries
  /-- The open table is at its path. -/
  opens : ∃ x, Opens rootForm a.entries a.current g x
  header : g.IsHeader

theorem Assembly.ready_empty : ({} : Assembly).Ready rootForm := ⟨Built.nil, ⟨[], .here⟩, isHeader_rootForm⟩

/-- An entry line holds a value. -/
def Line.Proper : Line → Prop
  | .header _ => True
  | .entry l => l.value.isValue = true ∧ l.value.isDotted = false

theorem quiet_headerChange (h : Header) (rest : List Key) : Quiet fun _ => HeaderChange h rest :=
  fun _ _ _ hchange hx _ => hchange.quiet hx

theorem quiet_entryChange (hg : g.IsHeader) (l : EntryLine) : Quiet (EntryChange g l) := by
  rintro f x x' ⟨rfl, -⟩ - himplicit
  exact absurd (hg.explicit.symm.trans himplicit) (by simp)

theorem EntryChange.built (hl : (Line.entry l).Proper) (h : EntryChange g l f x x') (hx : Built x) : Built x' := DottedRun.built hl.2 hl.1 rfl h.2 hx

/-- What a header line does to a tree. -/
theorem Assembly.add_header {a a' : Assembly} (ha : a.Ready g) (hadd : a.add (.header h) = .ok a') :
    a'.Ready h.form ∧ a'.current = h.keys.map name ∧ ∃ lead rest, h.path = lead ++ rest ∧
      Below (fun _ => HeaderChange h rest) rootForm (lead.map name) a.entries a'.entries := by
  rw [Assembly.add] at hadd
  split at hadd
  · cases hadd
  · next es hattach =>
    cases hadd
    obtain ⟨lead, rest, hpath, hbelow⟩ := attachHeader_below rootForm ha.built hattach
    refine ⟨⟨?_, ?_, h.isHeader_form⟩, rfl, lead, rest, hpath, hbelow⟩
    · exact (hbelow.built (fun _ _ _ hchange hx => hchange.built hx) (quiet_headerChange h rest) ha.built).1
    · obtain ⟨k, x, x', hchange, -, hopen⟩ := hbelow.opens
      obtain ⟨y, hy⟩ := hchange.opens k
      have hkeys : h.keys.map name = lead.map name ++ (rest.map name ++ [h.leaf.name]) := by
        simp [Header.keys, hpath]
      exact ⟨y, hkeys ▸ hopen.trans hy⟩

theorem Assembly.add_entry {a a' : Assembly} (ha : a.Ready g) (hl : (Line.entry l).Proper) (hadd : a.add (.entry l) = .ok a') :
    a'.Ready g ∧ a'.current = a.current ∧ Below (EntryChange g l) rootForm a.current a.entries a'.entries := by
  rw [Assembly.add] at hadd
  split at hadd
  · cases hadd
  · next es hattach =>
    cases hadd
    obtain ⟨x, hopen⟩ := ha.opens
    have hbelow := attachEntry_below hopen ha.built hattach
    refine ⟨⟨?_, ?_, ha.header⟩, rfl, hbelow⟩
    · exact (hbelow.built (fun _ _ _ hchange hx => hchange.built hl hx) (quiet_entryChange ha.header l) ha.built).1
    · obtain ⟨k, y, y', ⟨rfl, -⟩, -, hopen'⟩ := hbelow.opens
      exact ⟨y', hopen'⟩

end Verbatim

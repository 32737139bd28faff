import Mathlib.Data.List.Nodup
import Verbatim.Proofs.DocumentData
import Verbatim.Proofs.RoundTrip

/-!
# Laws of the tables of a tree

What a line records goes to one place of the tree and stays there: the text of a header in the form of its table, the text of
an entry line in its entry. So a law that speaks of the form of each table and of each entry line on its own, and of the names
that lead there, holds of a whole tree if it holds of each line that the tree was put together from.
-/

namespace Verbatim

open List Item Key

variable {x root : Item} {i : Info} {f : TableForm} {es es' sub : List (Entry Item)} {path dotted : List String}
  {ls : List Line} {limit : Nat} {source : List Char} {trailing : SpanText} {s : Numbered}

/-- An item is a table, or an array that has it as one of its tables. -/
inductive Item.HasTable : Item → Info → TableForm → List (Entry Item) → Prop where
  | self {i : Info} {f : TableForm} {es : List (Entry Item)} : HasTable (.table i f es) i f es
  /-- A table of an array of tables. -/
  | element {i j : Info} {f : TableForm} {es : List (Entry Item)} {ts : List Item} (h : .table j f es ∈ ts) :
      HasTable (.arrayOfTables i ts) j f es

theorem Item.HasTable.isValue (h : x.HasTable i f es) : x.isValue = false := by
  cases h <;> rfl

theorem Item.HasTable.mem_bodies (h : x.HasTable i f es) : es ∈ x.bodies := by
  cases h with
  | self => exact mem_singleton.mpr rfl
  | element hmem => exact mem_map.mpr ⟨_, hmem, rfl⟩

/-- A law of the forms of tables and of entry lines. -/
structure Law where
  /-- What tables and arrays of tables may remember. -/
  info : Info → Prop
  /-- The forms of tables and what these remember, by the names that lead to a table from the root, and for the elements of
  arrays of tables. -/
  form : List String → Bool → Info → TableForm → Prop
  /-- The entry lines, by the names of the dotted tables that lead to a line from the table in whose body it stands. -/
  line : List String → Entry Item → Prop
  /-- The keys of tables. -/
  member : Key → Prop
  /-- A table that has been read remembers its place at most. -/
  info_read : ∀ span, info { span }
  /-- Tables that longer headers imply are lawful. -/
  form_implied : ∀ path, form path false {} { implicit := true }
  /-- Tables that dotted keys make are lawful. -/
  form_dotted : ∀ path, form path false {} { implicit := true, dotted := true }
  /-- No entry line holds an inline table that a dotted key made. -/
  plain : ∀ dotted e, line dotted e → e.item.isDotted = false

namespace Law

variable {path dotted : List String} {e : Entry Item}

variable {L : Law}

/-- What the law says of an entry itself: an entry line is lawful, and a table or array of tables has nothing but its key. -/
structure EntryHolds (L : Law) (dotted : List String) (e : Entry Item) : Prop where
  line : e.item.isValue = true → L.line dotted e
  member : e.item.isValue = false → e = { key := e.key, item := e.item } ∧ L.member e.key ∧ L.info e.item.info

/-- The names of the dotted tables that lead to the entries of a table, in whose body they stand. -/
def dottedPrefix (f : TableForm) (dotted : List String) (name : String) : List String :=
  if f.dotted then dotted ++ [name] else []

/-- The law holds of all entries and of the tables below them. -/
inductive Holds (L : Law) : List String → List String → List (Entry Item) → Prop where
  | intro {path dotted : List String} {es : List (Entry Item)} (entry : ∀ e ∈ es, L.EntryHolds dotted e)
      (tables : ∀ e ∈ es, ∀ i f sub, e.item.HasTable i f sub →
        L.info i ∧ L.form (path ++ [e.name]) e.item.isArrayOfTables i f)
      (below : ∀ e ∈ es, ∀ i f sub, e.item.HasTable i f sub →
        Holds L (path ++ [e.name]) (dottedPrefix f dotted e.name) sub) : Holds L path dotted es

/-- What the law says of an entry and of the tables below it. -/
structure Covers (L : Law) (path dotted : List String) (e : Entry Item) : Prop where
  entry : L.EntryHolds dotted e
  tables : ∀ i f sub, e.item.HasTable i f sub → L.info i ∧ L.form (path ++ [e.name]) e.item.isArrayOfTables i f
  below : ∀ i f sub, e.item.HasTable i f sub → L.Holds (path ++ [e.name]) (dottedPrefix f dotted e.name) sub

theorem holds_iff : L.Holds path dotted es ↔ ∀ e ∈ es, L.Covers path dotted e := by
  constructor
  · rintro ⟨entry, tables, below⟩ e he
    exact ⟨entry e he, tables e he, below e he⟩
  · exact fun h => ⟨fun e he => (h e he).entry, fun e he => (h e he).tables, fun e he => (h e he).below⟩

theorem holds_nil : L.Holds path dotted [] := holds_iff.mpr (by simp)

theorem Holds.append (h : L.Holds path dotted es) (he : L.Covers path dotted e) : L.Holds path dotted (es ++ [e]) := by
  rw [holds_iff] at h ⊢
  rw [forall_mem_append, forall_mem_singleton]
  exact ⟨h, he⟩

theorem Holds.replace (h : L.Holds path dotted (pre ++ e :: post)) (hd : L.Covers path dotted d) :
    L.Holds path dotted (pre ++ d :: post) := by
  simp only [holds_iff, forall_mem_append, forall_mem_cons] at h ⊢
  exact ⟨h.1, hd, h.2.2⟩

theorem covers_line (hv : e.item.isValue = true) (h : L.line dotted e) :
    L.Covers path dotted e where
  entry := ⟨fun _ => h, fun hnot => by simp [hv] at hnot⟩
  tables _ _ _ htable := absurd htable.isValue (by simp [hv])
  below _ _ _ htable := absurd htable.isValue (by simp [hv])

/-- An entry with a table in place of its item. -/
theorem covers_table (hplain : e = { key := e.key, item := e.item }) (hkey : L.member e.key) (hi : L.info i)
    (hf : L.form (path ++ [e.name]) false i f) (hsub : L.Holds (path ++ [e.name]) (dottedPrefix f dotted e.name) sub) :
    L.Covers path dotted { e with item := .table i f sub } where
  entry := ⟨Bool.noConfusion, fun _ => ⟨by rw [hplain], hkey, hi⟩⟩
  tables _ _ _ htable := by
    cases htable
    exact ⟨hi, hf⟩
  below _ _ _ htable := by
    cases htable
    exact hsub

theorem covers_arrayOfTables (hplain : e = { key := e.key, item := e.item }) (hkey : L.member e.key)
    (hi : L.info i) (hts : ∀ j f sub, .table j f sub ∈ ts → L.info j ∧ L.form (path ++ [e.name]) true j f ∧ L.Holds (path ++
      [e.name]) (dottedPrefix f dotted e.name) sub) : L.Covers path dotted { e with item := .arrayOfTables i ts } where
  entry := ⟨Bool.noConfusion, fun _ => ⟨by rw [hplain], hkey, hi⟩⟩
  tables _ _ _ htable := by
    cases htable with
    | element h => exact ⟨(hts _ _ _ h).1, (hts _ _ _ h).2.1⟩
  below _ _ _ htable := by
    cases htable with
    | element h => exact (hts _ _ _ h).2.2

/-- The table that an item leads to, with other entries. -/
theorem Covers.rebuild {sub' : List (Entry Item)} {rebuild : List (Entry Item) → Item} (h : L.Covers path dotted e)
    (item : e.item.LeadsTo f sub rebuild) (hsub : L.Holds (path ++ [e.name]) (dottedPrefix f dotted e.name) sub') :
    L.Covers path dotted { e with item := rebuild sub' } := by
  obtain ⟨hplain, hkey, hinfo⟩ := h.entry.member item.isValue
  obtain ⟨key, x, p, n, l⟩ := e
  cases item with
  | table =>
    obtain ⟨hi, hf⟩ := h.tables _ _ _ .self
    exact covers_table (e := ⟨key, _, p, n, l⟩) hplain hkey hi hf hsub
  | @element i j ts =>
    refine covers_arrayOfTables (e := ⟨key, _, p, n, l⟩) hplain hkey hinfo fun j' g y hy => ?_
    rcases mem_append.mp hy with hy | hy
    · have htable : (arrayOfTables i (ts ++ [.table j f sub])).HasTable j' g y := .element (mem_append_left _ hy)
      exact ⟨(h.tables _ _ _ htable).1, (h.tables _ _ _ htable).2, h.below _ _ _ htable⟩
    · cases mem_singleton.mp hy
      have htable : (arrayOfTables i (ts ++ [.table j f sub])).HasTable j f sub := .element (by simp)
      exact ⟨(h.tables _ _ _ htable).1, (h.tables _ _ _ htable).2, hsub⟩

end Law

/-! ## Changes that keep a law -/

variable {L : Law}

/-- A change below a table keeps a law if it keeps it in the table that it changes. -/
theorem Below.holds (hchange : ∀ g x x' dotted, change g x x' → (g.dotted = false → dotted = []) →
      L.Holds (path ++ names) dotted x → L.Holds (path ++ names) dotted x') (h : Below change f names es es')
    (hdotted : f.dotted = false → dotted = []) (hes : L.Holds path dotted es) : L.Holds path dotted es' := by
  induction h generalizing path dotted with
  | here hlocal => simpa using hchange _ _ _ dotted hlocal hdotted (by simpa using hes)
  | @enter f f' pre post sub sub' e names rebuild item rest ih =>
    have he := Law.holds_iff.mp hes e (by simp)
    -- the entries of the table on the way
    have hsub : L.Holds (path ++ [e.name]) (Law.dottedPrefix f' dotted e.name) sub := by
      obtain ⟨key, x, p, n, l⟩ := e
      cases item with
      | table => exact he.below _ _ _ .self
      | element => exact he.below _ _ _ (.element (mem_append_right _ (mem_singleton.mpr rfl)))
    refine hes.replace (he.rebuild item (ih ?_ ?_ hsub))
    · intro g x x' q hlocal hq hx
      simp only [append_assoc, singleton_append] at hx ⊢
      exact hchange g x x' q hlocal hq hx
    · intro hnot
      rw [Law.dottedPrefix, hnot]
      rfl

/-- An entry line below its dotted key keeps a law. -/
theorem DottedRun.holds {leaf : Entry Item} (hv : leaf.item.isValue = true)
    (h : DottedRun dottedTable leaf ks es es') (hleaf : L.line (dotted ++ ks.map name) leaf)
    (hkeys : ∀ k ∈ ks, L.member k.bare) (hes : L.Holds path dotted es) : L.Holds path dotted es' := by
  induction h generalizing path dotted with
  | leaf absent => exact hes.append (Law.covers_line hv (by simpa using hleaf))
  | @make k ks es sub absent rest ih =>
    rw [forall_mem_cons] at hkeys
    have hsub := @ih (path ++ [k.name]) (dotted ++ [k.name]) (by simpa using hleaf) hkeys.2 Law.holds_nil
    exact hes.append (Law.covers_table (e := { key := k.bare, item := dottedTable }) rfl hkeys.1 (L.info_read none)
      (L.form_dotted _) hsub)
  | @enter k ks pre post sub e name isDotted rest ih =>
    rw [forall_mem_cons] at hkeys
    have he := Law.holds_iff.mp hes e (by simp)
    have hvalue : e.item.isValue = false := by
      cases hvalue : e.item.isValue with
      | false => rfl
      | true => exact absurd isDotted (by simp [L.plain _ _ (he.entry.line hvalue)])
    obtain ⟨hplain, hkey, -⟩ := he.entry.member hvalue
    obtain ⟨key, x, p, n, l⟩ := e
    cases x with
    | table i f es =>
      have hf : f.dotted = true := isDotted
      have hprefix : Law.dottedPrefix f dotted key.name = dotted ++ [k.name] := by
        rw [Law.dottedPrefix, hf, if_pos rfl, ← name]
        rfl
      obtain ⟨hi, hform⟩ := he.tables _ _ _ .self
      have hbelow := he.below _ _ _ .self
      have hsub := ih (by rw [Entry.name, hprefix]; simpa using hleaf) hkeys.2 hbelow
      exact hes.replace (Law.covers_table (e := ⟨key, _, p, n, l⟩) hplain hkey hi hform hsub)
    | arrayOfTables i ts => cases isDotted
    | _ => cases hvalue

def Law.Admits (L : Law) : Line → Prop
  | .header h => L.form (h.keys.map name) h.isArray { span := some h.span } h.form ∧ ∀ k ∈ h.keys, L.member k.bare
  | .entry l => L.line (l.path.map name) l.entry ∧ ∀ k ∈ l.path, L.member k.bare

private theorem Header.covers_freshEntry {h : Header}
    (hform : L.form (path ++ rest.map name ++ [h.leaf.name]) h.isArray { span := some h.span } h.form)
    (hkeys : ∀ k ∈ rest ++ [h.leaf], L.member k.bare) :
    L.Covers path dotted (h.freshEntry rest) := by
  induction rest generalizing path dotted with
  | nil =>
    have hleaf : L.member h.leaf.bare := hkeys _ (by simp)
    cases harray : h.isArray with
    | true =>
      have hform : L.form (path ++ [h.leaf.name]) true { span := some h.span } h.form := by simpa [harray] using hform
      simp only [Header.freshEntry, harray, if_true]
      refine Law.covers_arrayOfTables (e := { key := h.leaf.bare, item := impliedTable }) rfl hleaf (L.info_read _) ?_
      intro j f sub htable
      cases mem_singleton.mp htable
      exact ⟨L.info_read _, hform, Law.holds_nil⟩
    | false =>
      have hform : L.form (path ++ [h.leaf.name]) false { span := some h.span } h.form := by simpa [harray] using hform
      simp only [Header.freshEntry, harray, Bool.false_eq_true, if_false]
      exact Law.covers_table (e := { key := h.leaf.bare, item := impliedTable }) rfl hleaf (L.info_read _) hform
        Law.holds_nil
  | cons k rest ih =>
    simp only [cons_append, forall_mem_cons] at hkeys
    have hrest := @ih (path ++ [k.name]) [] (by simpa using hform) hkeys.2
    exact Law.covers_table (e := { key := k.bare, item := impliedTable }) rfl hkeys.1 (L.info_read none) (L.form_implied _)
      (Law.holds_nil.append hrest)

/-- A header keeps a law that holds of it. -/
theorem HeaderChange.holds {h : Header} {rest : List Key} {x x' : List (Entry Item)} (hchange : HeaderChange h rest x x')
    (hform : L.form (path ++ rest.map name ++ [h.leaf.name]) h.isArray { span := some h.span } h.form)
    (hkeys : ∀ k ∈ rest ++ [h.leaf], L.member k.bare)
    (hx : L.Holds path dotted x) : L.Holds path dotted x' := by
  cases hchange with
  | fresh absent => exact hx.append (Header.covers_freshEntry hform hkeys)
  | @promote pre post sub e i f single name item implied notDotted =>
    have he := Law.holds_iff.mp hx e (by simp)
    obtain ⟨hplain, hkey, -⟩ := he.entry.member (by rw [item]; rfl)
    have hsub := he.below _ _ _ (item ▸ Item.HasTable.self)
    rw [Law.dottedPrefix, notDotted] at hsub
    have hform : L.form (path ++ [e.name]) false { span := some h.span } h.form := by simpa [name, single] using hform
    exact hx.replace (Law.covers_table hplain hkey (L.info_read _) hform hsub)
  | @append pre post e i ts array name item =>
    have he := Law.holds_iff.mp hx e (by simp)
    obtain ⟨hplain, hkey, hinfo⟩ := he.entry.member (by rw [item]; rfl)
    rw [item] at hinfo
    refine hx.replace (Law.covers_arrayOfTables hplain hkey hinfo fun j f sub htable => ?_)
    rcases mem_append.mp htable with htable | htable
    · have hold : e.item.HasTable j f sub := item ▸ .element htable
      obtain ⟨hj, hf⟩ := he.tables _ _ _ hold
      rw [item] at hf
      exact ⟨hj, hf, he.below _ _ _ hold⟩
    · cases mem_singleton.mp htable
      have hform : L.form (path ++ [e.name]) true { span := some h.span } h.form := by simpa [name, array] using hform
      exact ⟨L.info_read _, hform, Law.holds_nil⟩

/-! ## Trees of lines -/

theorem Law.holds_add {a a' : Assembly} (ha : a.Ready g) (hl : l.Proper) (hline : L.Admits l)
    (hadd : a.add l = .ok a') (h : L.Holds [] [] a.entries) : L.Holds [] [] a'.entries := by
  cases l with
  | header hd =>
    obtain ⟨-, -, lead, rest, hpath, hbelow⟩ := Assembly.add_header ha hadd
    obtain ⟨hform, hkeys⟩ := hline
    rw [Header.keys, hpath] at hform hkeys
    refine hbelow.holds (fun g x x' dotted hchange _ hx => hchange.holds ?_ ?_ hx) (fun _ => rfl) h
    · simpa using hform
    · exact fun k hk => hkeys k (by simpa using .inr (by simpa using hk))
  | entry e =>
    obtain ⟨-, -, hbelow⟩ := Assembly.add_entry ha hl hadd
    obtain ⟨hleaf, hkeys⟩ := hline
    refine hbelow.holds (fun g' x x' dotted hchange hdotted hx => ?_) (fun _ => rfl) h
    obtain ⟨rfl, hrun⟩ := hchange
    rw [hdotted ha.header.notDotted] at hx ⊢
    exact hrun.holds hl.1 (by simpa using hleaf) hkeys hx

/-- What is true without entries, and stays true with every line, is true of the tree that the lines make. -/
theorem assemble_induction {P : List (Entry Item) → Prop} (hproper : ∀ l ∈ ls, l.Proper) (h : assemble ls = .ok root)
    (nil : P []) (add : ∀ l ∈ ls, ∀ (a a' : Assembly) g, a.Ready g → a.add l = .ok a' → P a.entries → P a'.entries) :
    root = .table {} rootForm root.entries ∧ Built root.entries ∧ P root.entries := by
  have hall : ∀ {a a' : Assembly} {g : TableForm}, a.Ready g → P a.entries → a.addAll ls = .ok a' →
      Built a'.entries ∧ P a'.entries := by
    clear h
    induction ls with
    | nil =>
      intro a a' g ha hP hadd
      cases hadd
      exact ⟨ha.built, hP⟩
    | cons l ls ih =>
      intro a a' g ha hP hadd
      rw [forall_mem_cons] at hproper add
      rw [Assembly.addAll] at hadd
      split at hadd
      · cases hadd
      · next b hb =>
        obtain ⟨g', hb'⟩ := Assembly.ready_add ha hproper.1 hb
        exact ih hproper.2 add.2 hb' (add.1 a b g ha hb hP) hadd
  rw [assemble] at h
  split at h
  · cases h
  · next a ha =>
    cases h
    exact ⟨rfl, hall Assembly.ready_empty nil ha⟩

/-- A law that holds of all lines holds of the tree that they make. -/
theorem Law.holds_assemble (hproper : ∀ l ∈ ls, l.Proper) (hlines : ∀ l ∈ ls, L.Admits l) (h : assemble ls = .ok root) :
    root = .table {} rootForm root.entries ∧ Built root.entries ∧ L.Holds [] [] root.entries :=
  assemble_induction hproper h holds_nil fun l hl _ _ _ ha hadd => holds_add ha (hproper l hl) (hlines l hl) hadd

theorem LinesRun.admits (hadmits : ∀ s s' l, s.cursor.On source → lineAt limit s = .ok (l, s') → L.Admits l)
    (h : LinesRun limit s ls trailing) (hs : s.cursor.On source) : ∀ l ∈ ls, L.Admits l := by
  induction h with
  | done hend => simp
  | line hend hline hrest ih =>
    have hreaches := (lineAt_kept .nothing hs hline).reaches
    exact forall_mem_cons.mpr ⟨hadmits _ _ _ hs hline, ih (hreaches.on hs)⟩

/-- A law that holds of all lines of a text holds of its tree. -/
theorem Law.holds_readTree (hadmits : ∀ s s' l, s.cursor.On source →
      lineAt limit s = .ok (l, s') → L.Admits l) (h : readTree limit source = .ok (root, trailing)) :
    root = .table {} rootForm root.entries ∧ Built root.entries ∧ L.Holds [] [] root.entries := by
  obtain ⟨ls, hrun, hassemble⟩ := readTree_eq_ok h
  have hstart := Cursor.start_on source
  exact holds_assemble (hrun.proper hstart).1 (hrun.admits hadmits hstart) hassemble

/-! ## From tables to all items -/

/-- A table below an entry has a header or is only implied, and what is true of every table is true of it. -/
theorem Built.hasTable (h : Built es) (he : e ∈ es) (hhas : e.item.HasTable i f sub) :
    Built sub ∧ (f.IsHeader ∨ (f.implicit = true ∧ (f.dotted = false → sub.any Render.hasBodyLine = false))) := by
  refine ⟨h.tables he hhas.mem_bodies, ?_⟩
  have hsound := h.sound he
  generalize e.item = x at *
  cases hhas with
  | self => exact hsound
  | element hmem =>
    obtain ⟨j, g, sub', heq, hheader⟩ := hsound _ hmem
    cases heq
    exact .inl hheader

/-- What lawful lines and lawful tables have, all items of a lawful tree have. -/
theorem Law.Holds.forall_within {Q : Item → Prop} (hvalue : ∀ dotted e, L.line dotted e → ∀ y, y.Within e.item → Q y)
    (htable : ∀ i path isArray dotted f es, L.info i → L.form path isArray i f → L.Holds path dotted es → Built es →
      Q (.table i f es))
    (harray : ∀ i ts, L.info i → (∀ j f sub, .table j f sub ∈ ts → ∃ path, L.form path true j f) →
      (arrayOfTables i ts).Sound → Q (.arrayOfTables i ts)) (h : L.Holds path dotted es) (hes : Built es) : ∀ e ∈ es, ∀ y, y.Within e.item → Q y := by
  induction h with
  | @intro path dotted es entry tables below ih =>
    intro e he y hy
    -- a table below the entry, and what stands in it
    have hbelow : ∀ i f sub, e.item.HasTable i f sub → y.Within (.table i f sub) → Q y := by
      intro i f sub hhas hy
      have hsub := (hes.hasTable he hhas).1
      rcases within_iff.mp hy with rfl | ⟨z, hz, hy⟩
      · exact htable i _ _ _ f sub (tables e he i f sub hhas).1 (tables e he i f sub hhas).2 (below e he i f sub hhas) hsub
      · obtain ⟨d, hd, rfl⟩ := mem_map.mp hz
        exact ih e he i f sub hhas hsub d hd y hy
    cases hv : e.item.isValue with
    | true => exact hvalue dotted e ((entry e he).line hv) y hy
    | false =>
      obtain ⟨-, -, hinfo⟩ := (entry e he).member hv
      have hsound := hes.sound he
      have htables := tables e he
      generalize e.item = x at *
      cases x with
      | table i f sub => exact hbelow i f sub .self hy
      | arrayOfTables i ts =>
        rcases within_iff.mp hy with rfl | ⟨t, ht, hy⟩
        · exact harray i ts hinfo (fun j f sub hj => ⟨_, (htables j f sub (.element hj)).2⟩) hsound
        · obtain ⟨j, f, sub, rfl, -⟩ := hsound t ht
          exact hbelow j f sub (.element ht) hy
      | _ => cases hv

/-! ## What is true of every text -/

theorem exists_withAfter (t : SpanText) (d : Decor) (v : Item) : ∃ d', withAfter t (v.withDecor d) = v.withDecor d' := by
  rw [withAfter]
  split
  · exact ⟨_, withDecor_withDecor ..⟩
  · exact ⟨d, rfl⟩

/-- The names of the leading segments of an entry line. -/
def Entry.lead (e : Entry Item) : List String := (e.dottedPath.getD []).map Key.name

theorem lead_dottedPathOf (path : List Key) : ((dottedPathOf path).getD []).map name = path.map name := by
  cases path <;> rfl

/-- How an array ends: in an empty one there is no comma, and nothing stands behind a last element without one. -/
structure ArrayForm.Closes (f : ArrayForm) (vs : List Item) : Prop where
  empty : vs = [] → f.trailingComma = false
  last : vs ≠ [] → f.trailingComma = false → f.trailing = .empty

theorem ArrayRun.closes {inner : Numbered → ScannedValue} {comma last : Bool}
    (h : ArrayRun inner comma s vs trailing last d) :
    (vs = [] → last = comma) ∧ (vs ≠ [] → last = false → trailing = .empty) := by
  induction h with
  | close => simp
  | last => simp
  | @more comma last s s₂ d v vs trailing _ _ _ _ ih =>
    refine ⟨by simp, fun _ hlast => ih.2 (fun hnil => ?_) hlast⟩
    cases (ih.1 hnil).symm.trans hlast

/-- What arrays inherit from their members, and inline tables from their entries, holds of every value. The entries of an
inline table come one after the other, each below its dotted key. -/
theorem valueItem_forall {P : Item → Prop} {I : List (Entry Item) → Prop} (hdecor : ∀ {v} d, P v → P (v.withDecor d))
    (hscalar : ∀ i s, i.label = 0 → P (.scalar i s)) (harray : ∀ i f vs, i.label = 0 → i.span.isSome = true → f.Closes vs → (∀
      v ∈ vs, P v) → P (.array i f vs)) (hinline : ∀ i f es, i.label = 0 → f.dotted = false → I es → P (.inlineTable i f es))
    (hnil : I []) (hstep : ∀ {leaf ks es es'}, DottedRun dottedInlineTable leaf ks es es' → P leaf.item → leaf.lead = ks.map
      Key.name → I es → I es')
    (h : valueItem limit levels depth s = .ok (v, s')) : P v := by
  refine (valueItem_induction (P := fun _ v _ => P v ∧ v.isDotted = false) ?_ ?_ ?_ ?_ h).1
  · exact fun s d value _ _ => ⟨hscalar _ _ rfl, rfl⟩
  · intro inner s vs trailing comma d hinner _ hrun
    have hvs := hrun.forall_mem fun s v s' decor hv => hdecor decor (hinner s v s' hv).1
    have hcloses := hrun.closes
    exact ⟨harray _ _ _ rfl rfl ⟨hcloses.1, hcloses.2⟩ hvs, rfl⟩
  · exact fun s _ _ => ⟨hinline _ _ _ rfl rfl hnil, rfl⟩
  · intro inner s es d hinner _ hrun
    -- the run of a dotted key needs that the tables of dotted keys are well formed
    have hes := hrun.invariant (I := fun es => Dotting es ∧ I es) (fun es s es' s' hentry hes => ?_) ⟨Dotting.nil, hnil⟩
    · exact ⟨hinline _ _ _ rfl rfl hes.2, rfl⟩
    · obtain ⟨path, leaf, c₁, c₂, w, s₃, -, -, hw, hinsert, -⟩ := inlineEntry_eq_ok hentry
      obtain ⟨hP, hd⟩ := hinner _ _ _ hw
      obtain ⟨decor, hw'⟩ := exists_withAfter (.between s₃.cursor.pos s₃.cursor.skipBlanks.pos)
        ⟨some (.between c₂.pos c₂.skipBlanks.pos), none⟩ w
      rw [hw'] at hinsert
      have hrun := insertDotted_run hes.1 hinsert
      have hplain : (w.withDecor decor).isDotted = false := (isDotted_withDecor ..).trans hd
      exact ⟨hrun.dotting isDottedTable_dottedInlineTable hplain rfl hes.1,
        hstep hrun (hdecor _ hP) (lead_dottedPathOf path) hes.2⟩

/-- The form of a table as it was read: a header spells the path to its table, and other tables are only implied. -/
structure TableForm.Recorded (path : List String) (f : TableForm) : Prop where
  header : ∀ ks ∈ f.headerKeys, ks.map name = path ∧ f.implicit = false ∧ f.dotted = false
  bare : f.headerKeys = none → f.implicit = true

theorem label_read (span : Option Span) : ({ span } : Info).label = 0 := rfl

/-- What every text keeps whose values have a property: headers spell the paths to their tables, the key paths of entry lines
spell the paths to their entries, and nothing has a label. -/
def Law.recorded (P : Item → Prop) : Law where
  info i := i.label = 0
  form path _ _ f := f.Recorded path
  line dotted e := e.lead = dotted ∧ P e.item ∧ e.item.isDotted = false
  member _ := True
  info_read := label_read
  form_implied _ := ⟨nofun, fun _ => rfl⟩
  form_dotted _ := ⟨nofun, fun _ => rfl⟩
  plain _ _ h := h.2.2

theorem Law.holds_recorded (hP : ∀ {s v s'}, valueItem limit openLevels 0 s = .ok (v, s') → ∀ d, P (v.withDecor d))
    (h : readTree limit source = .ok (root, trailing)) :
    root = .table {} rootForm root.entries ∧ Built root.entries ∧ (recorded P).Holds [] [] root.entries := by
  refine holds_readTree (fun s s' l hs hline => ?_) h
  have hproper := (lineAt_kept .nothing hs hline).proper
  rcases lineAt_cases hline with ⟨-, hline⟩ | ⟨-, hline⟩
  · obtain ⟨path, leaf, c₁, c₂, c₃, c₄, newline, c₆, what, what', isArray, -, -, -, -, -, -, rfl, -⟩ := headerLine_eq_ok hline
    exact ⟨⟨fun ks hks => Option.some.inj hks ▸ ⟨rfl, rfl, rfl⟩, nofun⟩, fun _ _ => trivial⟩
  · obtain ⟨path, leaf, c₁, c₂, w, s₃, newline, c₅, -, -, hw, -, rfl, -⟩ := entryLine_eq_ok hline
    obtain ⟨decor, hw'⟩ := exists_withAfter (.between s₃.cursor.pos s₃.cursor.skipBlanks.skipComment.pos)
      ⟨some (.between c₂.pos c₂.skipBlanks.pos), none⟩ w
    rw [hw'] at hproper ⊢
    exact ⟨⟨lead_dottedPathOf path, hP hw decor, hproper.2⟩, fun _ _ => trivial⟩

end Verbatim

import Verbatim.Proofs.Deletion
import Verbatim.Proofs.Renumbering

/-!
# Tables that are written on their own

A table that is written as a document of its own keeps the headers and key paths that were recorded for the whole document. The
key paths of its lines begin at the table itself, so they are still right if no dotted key made the table; headers are right
only if the table is the root. So a table without headers below it is written as a text that is parsed again.

## Main statements

- `Workspace.bare_table_reads_back` - a table of a document that was read is parsed again.
- `Workspace.bare_table_keeps_headers` - a table with a header below it is not.
-/

namespace Verbatim

open List DataReader Render Item

variable {source : Option (List Char)} {limit : Nat} {path path' dotted : List Key} {o : Owner} {es sub : List (Entry Item)}
  {e : Entry Item} {i : Info} {f : TableForm}

/-- In an item there are no tables but those that dotted keys made. -/
def Item.OnlyDotted (x : Item) : Prop := ∀ t ∈ x.tables, t.1.dotted = true

namespace Item.OnlyDotted

variable {x : Item} (h : x.OnlyDotted)
include h

/-- A table of the item. -/
theorem hasTable (hx : x.HasTable i f sub) : f.dotted = true ∧ ∀ e ∈ sub, e.item.OnlyDotted := by
  have hall : ∀ t ∈ (table i f sub).tables, t.1.dotted = true := by
    cases hx with
    | self => exact h
    | element hmem =>
      refine fun t ht => h t ?_
      rw [tables, tablesEach_eq]
      exact mem_flatMap_of_mem hmem ht
  rw [tables, tablesBelow_eq, forall_mem_cons, forall_mem_flatMap] at hall
  exact hall

theorem times_eq : x.times = [] := by
  rw [times, filterMap_eq_nil_iff]
  intro t ht
  simp [TableForm.time?, h t ht]

end Item.OnlyDotted

/-- Where there are no headers all tables are dotted ones. -/
theorem Fits.onlyDotted (h : Fits o e) (htimes : e.item.times = []) : e.item.OnlyDotted := by
  induction h with
  | @value o e isValue =>
    generalize e.item = x at isValue
    cases x with
    | table | arrayOfTables => cases isValue
    | _ => exact forall_mem_nil _
  | @table o e i f sub item dotted inhabited below ih =>
    have hnone := htimes
    rw [item, times_table, append_eq_nil_iff] at hnone
    rw [item, OnlyDotted, Item.tables, tablesBelow_eq, forall_mem_cons, forall_mem_flatMap]
    refine ⟨?_, fun d hd => ih d hd (flatMap_eq_nil_iff.mp hnone.2 d hd)⟩
    -- the table has no header, so there is a line for it
    obtain ⟨q, d, hline⟩ := inhabited.resolve_left (absurd htimes)
    cases hline with
    | value mem isValue =>
      rw [mem_singleton.mp mem, item] at isValue
      cases isValue
    | dotted mem isDotted =>
      rw [mem_singleton.mp mem, item] at isDotted
      exact isDotted
  | arrayOfTables item nonempty headed =>
    obtain ⟨t, ht⟩ := exists_mem_of_ne_nil _ nonempty
    obtain ⟨p, hp, -⟩ := headed t ht
    rw [item, times_arrayOfTables, flatMap_eq_nil_iff] at htimes
    exact absurd (time?_mem_times hp) (by rw [htimes t ht]; simp)

/-- Where there are no headers it does not matter how the table is reached. -/
theorem LegibleEntry.moved (h : LegibleEntry source limit path dotted e) (he : e.item.OnlyDotted) :
    LegibleEntry source limit path' dotted e := by
  induction h generalizing path' with
  | value line value => exact .value line value
  | frame notValue entry key tables _ ih =>
    refine .frame notValue entry key (fun i f sub hx => ⟨fun hd => ?_, (tables i f sub hx).2⟩) fun i f sub hx d hd => ?_
    · cases hd.symm.trans (he.hasTable hx).1
    · exact ih i f sub hx d hd ((he.hasTable hx).2 d hd)

/-- Where there are no headers it does not matter which header the lines follow. -/
theorem Fits.moved (h : Fits o e) (he : e.item.OnlyDotted) (b : Int × List String) : Fits (some b) e := by
  induction h generalizing b with
  | value isValue plain => exact .value isValue plain (by simp)
  | @table o e i f sub item dotted inhabited below ih =>
    obtain ⟨hd, hsub⟩ := he.hasTable (item ▸ HasTable.self)
    refine .table item (fun _ => ⟨b, rfl, by simp [he.times_eq]⟩) inhabited ?_
    rw [Owner.enter, if_pos (by rw [item]; exact hd)]
    exact fun d hd => ih d hd (hsub d hd) _
  | arrayOfTables item nonempty headed sorted elements => exact .arrayOfTables item nonempty headed sorted elements

/-- The entries of a table without headers below it can be read back as those of a root. -/
theorem Settled.rereadable_alone (h : Settled source limit path [] o es) (htimes : timesIn es = []) :
    Rereadable source limit es := by
  have hes : ∀ e ∈ es, e.item.OnlyDotted := fun e he => (h.arranged e he).onlyDotted (flatMap_eq_nil_iff.mp htimes e he)
  exact ⟨fun e he => (h.legible e he).moved (hes e he), h.orderly, ⟨by simp [htimes], by simp [htimes]⟩,
    fun e he => (h.arranged e he).moved (hes e he) _, by simp [htimes]⟩

/-- The number of a table without headers below it does not matter to its text. -/
theorem Rereadable.renderTree_alone (h : Rereadable source limit es) (htimes : timesIn es = []) (layout : Layout)
    (trailing : Option SpanText) : renderTree layout source (.table i f es) trailing =
      renderTree layout source (.table i { f with position := some 0 } es) trailing := by
  have hquiet : ∀ last, ∀ t ∈ (entrySections [] last es).1, t.2.view source = [] := by
    intro last t ht
    have hmem : (t.2.form, t.2.entries) ∈ es.flatMap fun e => e.item.tables := by
      rw [← entrySections_tables [] last es]
      exact mem_map_of_mem ht
    obtain ⟨e, he, hmem⟩ := mem_flatMap.mp hmem
    have hdotted : t.2.form.dotted = true := (h.arranged e he).onlyDotted (flatMap_eq_nil_iff.mp htimes e he) _ hmem
    simp [Section.view, sectionLines, (h.stands last t ht).notRoot, Section.hasHeader, hdotted]
  refine renderTree_of_unplaced (by simp only [unplaced, TableForm.unplaced]) ?_ layout trailing
  -- of any two tables at least one has no lines
  rw [sections_table, sections_table, zip_cons_cons, pairwise_cons]
  refine ⟨fun z hz _ hview => absurd (hquiet _ _ (of_mem_zip hz).2) hview, ?_⟩
  exact pairwise_of_forall_mem_list fun z hz _ _ hview => absurd (hquiet _ _ (of_mem_zip hz).2) hview

/-- Within a value there are values only. -/
theorem ValueLegible.isValue_of_within {place : Option (List Key)} {levels : Nat}
    (h : ValueLegible source place limit levels x) (hy : Within y x) : y.isValue = true := by
  induction h with
  | scalar =>
    cases hy with
    | self => rfl
    | child hz => cases hz
  | array _ _ _ _ ih =>
    cases hy with
    | self => rfl
    | child hz hy => exact ih _ hz hy
  | inlineTable _ _ _ _ _ ih | dotted _ _ _ _ ih =>
    cases hy with
    | self => rfl
    | child hz hy =>
      obtain ⟨e, he, rfl⟩ := mem_map.mp hz
      exact ih e he hy

/-- The entries of a table in a tree that can be read back. -/
theorem Item.Rereads.table (h : x.Rereads source limit) (hwithin : Within (.table i f es) x) (hplain : f.dotted = false) :
    ∃ path o, Settled source limit path [] o es := by
  rcases h.stands hwithin with rfl | hstands
  · cases h with
    | root _ _ _ entries => exact ⟨_, _, entries.settled⟩
  · cases hstands with
    | @entry _ _ _ e settled item =>
      have hes := settled.table (mem_singleton_self e) item
      rw [hplain, if_neg Bool.false_ne_true] at hes
      exact ⟨_, _, hes⟩
    | inner settled isValue within =>
      cases ((settled.legible _ (mem_singleton_self _)).values isValue).2.isValue_of_within within
    | element settled =>
      cases settled with
      | intro _ _ _ entries => exact ⟨_, _, entries⟩

namespace Workspace

/-- **Tables on their own read back.** Any table of a document that was read, unless a dotted key made it, is written as a
document of its own. If the table is the root, or there are no headers below it, the text is parsed again, with the data of the
table up to the order of names within tables. -/
theorem bare_table_reads_back {options : OptionsArgument} {set : OptionSet} {src : Source} {w : Workspace}
    (hoptions : options.resolve .reader = .ok set) (hvalidate : set.readOptions.validate = true)
    (hw : ({} : Workspace).parse "main" options src true = .ok w) {l : Locator} {x : Item} (hx : w.find l = .ok x)
    (htable : x.isTable = true) (hplain : x.isDotted = false) (hheaders : l.path = [] ∨ timesIn x.entries = [])
    {layout : Layout} (hnewline : IsNewline layout.newline.toList) (hseparator : Trivia layout.separator.toList) :
    ∃ text s, renderTable layout x = .ok text ∧ Verbatim.parse set.readOptions (.text text) = .ok s ∧
      Data.Same s.root.unwrap x.unwrap := by
  obtain ⟨d, halone, hread⟩ := alone_read hoptions hvalidate hw
  have hroot := (hread none).1
  have hfollow := follow_stripped (halone.follow hx)
  have hrender : renderTable layout x = renderTree layout none x.stripped none := by
    cases x with
    | table => rw [renderTree_stripped, renderTable]
    | _ => cases htable
  have hdata : x.stripped.unwrap = x.unwrap := unwrap_reworded ..
  rw [hrender, ← hdata]
  rcases hheaders with hpath | htimes
  · -- the root
    rw [hpath] at hfollow
    have hx : d.root.stripped = x.stripped := Except.ok.inj hfollow
    rw [hx] at hroot
    generalize x.stripped = y at hroot
    cases hroot with
    | root first plain explicit entries => exact entries.parses hnewline hseparator _ first (by simp)
  · generalize hy : x.stripped = y at hfollow
    cases y with
    | table i f es =>
      have hplain : f.dotted = false := by
        rw [← hplain, ← isDotted_reworded (fun _ => {}) id x, ← stripped, hy, isDotted]
      have htimes : timesIn es = [] := by
        have hentries : es = x.entries.map (rewordedEntry (fun _ => {}) id) := by
          rw [← entries_reworded, ← stripped, hy, entries]
        rw [hentries, timesIn_reworded, htimes]
      obtain ⟨path, o, hes⟩ := hroot.table (within_of_follow hfollow) hplain
      have hes := hes.rereadable_alone htimes
      rw [hes.renderTree_alone htimes]
      exact hes.parses hnewline hseparator i rfl (by simp)
    | _ =>
      rw [← isTable_reworded (fun _ => {}) id x, ← stripped, hy] at htable
      cases htable

set_option maxRecDepth 20000 in
/-- A table of an array of tables, with a dotted key and a comment. -/
theorem bare_table_reads_back_element : ∃ w x text s,
    ({} : Workspace).parse "main" .unset (.text "[[t]]\n# c\na.b = 1\na.d = []") true = .ok w ∧
      w.find { path := [.name "t", .position 0] } = .ok x ∧ renderTable {} x = .ok text ∧
        Verbatim.parse {} (.text text) = .ok s ∧ Data.Same s.root.unwrap x.unwrap := by
  have hrun : (do
      let w ← ({} : Workspace).parse "main" .unset (.text "[[t]]\n# c\na.b = 1\na.d = []") true
      let x ← w.find { path := [.name "t", .position 0] }
      pure (x.isTable && !x.isDotted && (timesIn x.entries).isEmpty) : Except Failure Bool).toOption = some true := by
    cbv
  obtain ⟨w, hw, hrun⟩ := bind_eq_ok.mp (toOption_eq_some.mp hrun)
  obtain ⟨x, hx, hrun⟩ := bind_eq_ok.mp hrun
  simp only [pure, Except.pure, Except.ok.injEq, Bool.and_eq_true, Bool.not_eq_true', List.isEmpty_iff] at hrun
  obtain ⟨⟨htable, hplain⟩, htimes⟩ := hrun
  obtain ⟨set, hset, hread⟩ := OptionsArgument.resolve_unset
  obtain ⟨text, s, h⟩ := bare_table_reads_back hset (by rw [hread]) hw hx htable hplain (.inr htimes) isNewline_default
    trivia_default
  rw [hread] at h
  exact ⟨w, x, text, s, hw, hx, h⟩

set_option maxRecDepth 20000 in
/-- A table is written with the header below it as it stands in the whole document, so the text has one more level. -/
theorem bare_table_keeps_headers : (do
      let w ← ({} : Workspace).parse "main" .unset (.text "[a]\n[a.b]\nx = 1\n") true
      let x ← w.find { path := [.name "a"] }
      .ok ((renderTable {} x).toOption, x.unwrap) : Except Failure (Option String × Plain)).toOption =
        some (some "[a.b]\nx = 1\n", .table [("b", .table [("x", .integer 1)])]) ∧
    (Verbatim.parse {} (.text "[a.b]\nx = 1\n")).toOption.map (fun s => s.root.unwrap) =
      some (.table [("a", .table [("b", .table [("x", .integer 1)])])]) := by
  constructor <;> cbv

end Workspace

end Verbatim

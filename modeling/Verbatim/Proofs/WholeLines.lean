import Mathlib
import Verbatim.Proofs.OnePlace

/-!
# Every entry is written once, on a line of its own

A tree is written table by table. The lines of a table are its header and the entries of its body, which are its own values and
those of the dotted tables below it. So every value of the tree is written in exactly one body, behind the header of that body.
A line ends in its terminator; if it has none, the next line brings one along. Hence no two lines are glued together.

## Main statements

- `Item.tables`, `Item.valueEntries`, `Render.bodyEntries` - the tables of a tree, its entries, and those of one body.
- `Item.Lined` - trees whose lines are whole.
- `Render.startsLines` - each of its lines begins at the beginning of a line.
- `Workspace.writes_whole_lines` - whatever edits a document goes through, its entries are written once and on lines of their
  own.
-/

namespace Verbatim

open List Item

variable {x : Item} {e : Entry Item} {es : List (Entry Item)} {f : TableForm} {source : Option (List Char)} {layout : Layout}
  {isFirst unterminated : Bool} {text : String}

/-! ## What is to be written -/

namespace Item

mutual

/-- All tables of a tree: what each has besides its entries, and the entries. -/
def tables : Item → List (TableForm × List (Entry Item))
  | .table _ f es => (f, es) :: tablesBelow es
  | .arrayOfTables _ ts => tablesEach ts
  | .scalar .. | .array .. | .inlineTable .. => []

def tablesEach : List Item → List (TableForm × List (Entry Item))
  | [] => []
  | x :: xs => tables x ++ tablesEach xs

def tablesBelow : List (Entry Item) → List (TableForm × List (Entry Item))
  | [] => []
  | ⟨_, x, _, _, _⟩ :: es => tables x ++ tablesBelow es

end

/-- The tables that no dotted key made. -/
def plainTables (x : Item) : List (TableForm × List (Entry Item)) := x.tables.filter fun t => !t.1.dotted

mutual

/-- The entries of a tree that hold values, reached through tables and arrays of tables. -/
def valueEntries : Item → List (Entry Item)
  | .table _ _ es => valueEntriesIn es
  | .arrayOfTables _ ts => valueEntriesEach ts
  | .scalar .. | .array .. | .inlineTable .. => []

def valueEntriesEach : List Item → List (Entry Item)
  | [] => []
  | x :: xs => valueEntries x ++ valueEntriesEach xs

/-- Such entries among entries and below them. -/
def valueEntriesIn : List (Entry Item) → List (Entry Item)
  | [] => []
  | ⟨k, x, p, n, l⟩ :: es => (if x.isValue then [⟨k, x, p, n, l⟩] else valueEntries x) ++ valueEntriesIn es

end

theorem tablesEach_eq (xs : List Item) : tablesEach xs = xs.flatMap tables := eq_flatMap_of_cons rfl (fun _ _ => rfl) xs

theorem tablesBelow_eq (es : List (Entry Item)) : tablesBelow es = es.flatMap fun e => e.item.tables :=
  eq_flatMap_of_cons rfl (fun _ _ => rfl) es

theorem tables_of_isValue (h : x.isValue = true) : x.tables = [] := by
  cases x with
  | table i f es => cases h
  | arrayOfTables i ts => cases h
  | _ => rfl

theorem valueEntriesEach_eq (xs : List Item) : valueEntriesEach xs = xs.flatMap valueEntries :=
  eq_flatMap_of_cons rfl (fun _ _ => rfl) xs

theorem valueEntriesIn_eq (es : List (Entry Item)) :
    valueEntriesIn es = es.flatMap fun e => if e.item.isValue then [e] else e.item.valueEntries :=
  eq_flatMap_of_cons rfl (fun _ _ => rfl) es

end Item

namespace Render

mutual

/-- The entries that an entry of a table stands for in its body, each with the keys of the dotted tables that lead to it: a
value stands for itself, a dotted table for the entries below it. -/
def itemEntries (path : List Key) (k : Key) (entry : Item → Entry Item) : Item → List (List Key × Entry Item)
  | .table _ f sub => if f.dotted then bodyEntries (path ++ [k]) sub else []
  | .arrayOfTables .. => []
  | x => [(path, entry x)]

/-- The entries in the body of a table: its own values and those of the dotted tables below it. -/
def bodyEntries (path : List Key) : List (Entry Item) → List (List Key × Entry Item)
  | [] => []
  | ⟨k, x, p, n, l⟩ :: es => itemEntries path k (fun y => ⟨k, y, p, n, l⟩) x ++ bodyEntries path es

end

/-- A table with the entries of its body, in the order in which they are written. -/
structure Block where
  table : Section
  /-- The entries, each with the keys of the dotted tables that lead to it. -/
  entries : List (List Key × Entry Item)

/-- The lines of a block: the header, which the root does not have, then the entries. -/
def Block.lines (source : Option (List Char)) (b : Block) : List WrittenLine :=
  (if !b.table.isRoot && b.table.hasHeader then [.header b.table] else []) ++
    b.entries.map fun e => .body (valueLine source e.1 e.2)

/-- A tree is written block by block, and each of its entries once. -/
structure InBlocks (source : Option (List Char)) (root : Item) (blocks : List Block) : Prop where
  /-- The lines are those of the blocks, one block after the other. -/
  lines : writtenLines source root = blocks.flatMap (Block.lines source)
  /-- There is one block for each table that no dotted key made. -/
  tables : (blocks.map fun b => (b.table.form, b.table.entries)).Perm root.plainTables
  /-- In the block of a table stand the entries of its body. -/
  bodies : ∀ b ∈ blocks, b.entries.Perm (bodyEntries [] b.table.entries)
  /-- All entries of the tree are written, each once. -/
  entries : (blocks.flatMap fun b => b.entries.map Prod.snd).Perm root.valueEntries
  /-- Entries of other tables than the root stand behind a header. -/
  headers : ∀ b ∈ blocks, b.table.isRoot = false → b.entries ≠ [] → b.table.hasHeader = true
  /-- One block is that of the root. -/
  root : (blocks.filter fun b => b.table.isRoot).map (fun b => b.table.entries) = [root.entries]

/-- A text after which a new line begins. -/
def AtLineStart (s : String) : Prop := s = "" ∨ ∃ t, s = t ++ "\n"

/-- Every line of a document, and the text that follows the last one, is written where a line begins. -/
structure StartsLines (layout : Layout) (source : Option (List Char)) (root : Item) (trailing : SpanText) (text : String) :
    Prop where
  /-- A line begins behind the text of the lines before it. -/
  lines : ∀ before l after, writtenLines source root = before ++ l :: after → ∃ lead unterminated own rest,
    linesText source layout true false before = .ok (lead, unterminated) ∧
    l.text source layout before.isEmpty = .ok own ∧
    text = lead ++ (if unterminated then layout.newline else "") ++ own ++ rest ∧
    AtLineStart (lead ++ (if unterminated then layout.newline else ""))
  /-- The rest begins behind the text of all lines. -/
  trailing : ∃ lead tail, optionalText source "" (some trailing) = .ok tail ∧ text = lead ++ tail ∧
    (tail ≠ "" → AtLineStart lead)

end Render

/-! ## Trees whose lines are whole -/

/-- A recorded terminator is empty or ends a line. -/
def LineBreak (newline : Option String) : Prop := ∀ s ∈ newline, s = "" ∨ ∃ t, s = t ++ "\n"

/-- Recorded terminators end lines, and nothing in a table but a table is dotted. -/
inductive Item.Lined : Item → Prop where
  | value {x : Item} (isValue : x.isValue = true) : Lined x
  | table {i : Info} {f : TableForm} {es : List (Entry Item)} (header : LineBreak f.newline)
      (lines : ∀ e ∈ es, LineBreak e.newline) (plain : ∀ e ∈ es, e.item.isValue = true → e.item.isDotted = false)
      (members : ∀ e ∈ es, Lined e.item) : Lined (.table i f es)
  | arrayOfTables {i : Info} {ts : List Item} (elements : ∀ t ∈ ts, t.isTable = true ∧ t.isDotted = false)
      (members : ∀ t ∈ ts, Lined t) : Lined (.arrayOfTables i ts)

namespace Item.Lined

theorem table_iff : Lined (.table i f es) ↔ LineBreak f.newline ∧ ∀ e ∈ es,
    LineBreak e.newline ∧ (e.item.isValue = true → e.item.isDotted = false) ∧ Lined e.item := by
  constructor
  · intro h
    cases h with
    | value isValue => cases isValue
    | table header lines plain members => exact ⟨header, fun e he => ⟨lines e he, plain e he, members e he⟩⟩
  · intro h
    exact .table h.1 (fun e he => (h.2 e he).1) (fun e he => (h.2 e he).2.1) fun e he => (h.2 e he).2.2

theorem arrayOfTables_iff : Lined (.arrayOfTables i ts) ↔ ∀ t ∈ ts, (t.isTable = true ∧ t.isDotted = false) ∧ Lined t := by
  constructor
  · intro h
    cases h with
    | value isValue => cases isValue
    | arrayOfTables elements members => exact fun t ht => ⟨elements t ht, members t ht⟩
  · exact fun h => .arrayOfTables (fun t ht => (h t ht).1) fun t ht => (h t ht).2

/-- All tables of the tree are such trees. -/
theorem of_tables (h : Lined x) : ∀ t ∈ x.tables, Lined (.table {} t.1 t.2) := by
  induction h with
  | @value x isValue =>
    cases x with
    | table i f es => cases isValue
    | arrayOfTables i ts => cases isValue
    | _ => simp [tables]
  | @table i f es header lines plain members ih =>
    rw [tables, tablesBelow_eq, forall_mem_cons]
    refine ⟨.table header lines plain members, fun t ht => ?_⟩
    obtain ⟨e, he, ht⟩ := mem_flatMap.mp ht
    exact ih e he t ht
  | arrayOfTables elements members ih =>
    rw [tables, tablesEach_eq]
    intro t ht
    obtain ⟨x, hx, ht⟩ := mem_flatMap.mp ht
    exact ih x hx t ht

end Item.Lined

/-! ## Bodies -/

namespace Render

/-- An item is a value, a table or an array of tables. -/
theorem kinds (x : Item) :
    x.isValue = true ∨ (x.isValue = false ∧ x.isTable = true) ∨
      (x.isValue = false ∧ x.isTable = false ∧ x.isDotted = false ∧ x.isArrayOfTables = true) := by
  cases x <;> simp [isValue, isTable, isDotted, isArrayOfTables]

theorem bodyEntries_eq_bodyIn (h : x.Lined) (hx : x.isTable = true) (path : List Key) :
    bodyEntries path x.entries = bodyIn path x.entries := by
  induction h generalizing path with
  | @value x isValue =>
    cases x with
    | table i f es => cases isValue
    | _ => cases hx
  | arrayOfTables _ _ => cases hx
  | @table i f es header lines plain members ih =>
    simp only [entries]
    clear header lines
    induction es with
    | nil => simp [bodyEntries, bodyIn]
    | cons e es ihes =>
      rw [forall_mem_cons] at plain members
      obtain ⟨k, y, p, n, l⟩ := e
      rw [bodyEntries, bodyIn_cons, ihes plain.2 members.2 (fun d hd => ih d (mem_cons_of_mem _ hd)) rfl]
      refine congrArg (· ++ _) ?_
      cases y with
      | table j g sub =>
        have hsub : bodyEntries (path ++ [k]) sub = bodyIn (path ++ [k]) sub :=
          ih ⟨k, .table j g sub, p, n, l⟩ mem_cons_self rfl (path ++ [k])
        rw [itemEntries, hsub]
        rfl
      | inlineTable j g sub => exact (entryBody_value path (plain.1 rfl) rfl).symm
      | _ => rfl

/-! ## Blocks -/

/-- The tables of a tree are those of its sectionsIn. -/
theorem sectionsIn_tables (x : Item) (path : List Key) (isArray isRoot : Bool) :
    (sectionsIn path isArray isRoot x).map (fun s => (s.form, s.entries)) = x.tables := by
  induction x using inductionOn generalizing path isArray isRoot with
  | table i f es ih =>
    rw [sectionsIn, sectionsBelow_eq, tables, tablesBelow_eq, map_cons, map_flatMap]
    exact congrArg _ (flatMap_congr fun e he => ih e he _ _ _)
  | arrayOfTables i ts ih =>
    rw [sectionsIn, sectionsEach_eq, tables, tablesEach_eq, map_flatMap]
    exact flatMap_congr fun t ht => ih t ht _ _ _
  | _ => rfl

/-- Only the root is marked as such. -/
theorem sectionsIn_isRoot (x : Item) (path : List Key) (isArray : Bool) : ∀ s ∈ sectionsIn path isArray false x, s.isRoot = false := by
  induction x using inductionOn generalizing path isArray with
  | table i f es ih =>
    rw [sectionsIn, sectionsBelow_eq, forall_mem_cons, forall_mem_flatMap]
    exact ⟨rfl, fun e he => ih e he _ _⟩
  | arrayOfTables i ts ih =>
    rw [sectionsIn, sectionsEach_eq, forall_mem_flatMap]
    exact fun t ht => ih t ht _ _
  | _ => simp [sectionsIn]

/-- The entries of a body, without the keys that lead to them. -/
def bodyValues (es : List (Entry Item)) : List (Entry Item) := (bodyIn [] es).map Prod.snd

/-- The keys that lead to the entries of a body do not matter to what entries these are. -/
theorem bodyIn_values (path : List Key) (es : List (Entry Item)) : (bodyIn path es).map Prod.snd = bodyValues es := by
  rw [bodyValues]
  generalize [] = path'
  induction es using entriesInduction generalizing path path' with
  | step es below =>
    rw [bodyIn_eq, bodyIn_eq, map_flatMap, map_flatMap]
    refine flatMap_congr fun e he => ?_
    rw [entryBody, entryBody]
    split
    · exact below e he _ _
    · split <;> rfl

theorem bodyValues_cons (e : Entry Item) (es : List (Entry Item)) :
    bodyValues (e :: es) =
      (if e.item.isDotted then bodyValues e.item.entries else if e.item.isValue then [e] else []) ++ bodyValues es := by
  rw [bodyValues, bodyIn_cons, map_append, entryBody]
  refine congrArg (· ++ _) ?_
  split
  · exact bodyIn_values _ _
  · split <;> rfl

/-- The entries of a tree are those of the bodies of the tables that no dotted key made. -/
theorem valueEntries_perm (h : x.Lined) (hx : x.isValue = false) :
    x.valueEntries.Perm ((if x.isDotted then bodyValues x.entries else []) ++ x.plainTables.flatMap fun t => bodyValues t.2) := by
  induction h with
  | value isValue => exact absurd (hx.symm.trans isValue) (by simp)
  | @table i f es header lines plain members ih =>
    -- what stands in the body of the table, and what stands in the bodies of the tables below it
    have hentries : (valueEntriesIn es).Perm
        (bodyValues es ++ ((tablesBelow es).filter fun t => !t.1.dotted).flatMap fun t => bodyValues t.2) := by
      clear header lines hx
      induction es with
      | nil => simp [valueEntriesIn, bodyValues, bodyIn, tablesBelow]
      | cons e es ihes =>
        rw [forall_mem_cons] at plain members
        have hrest := ihes plain.2 members.2 fun d hd => ih d (mem_cons_of_mem _ hd)
        rw [valueEntriesIn_eq, flatMap_cons, ← valueEntriesIn_eq, bodyValues_cons, tablesBelow_eq,
          flatMap_cons, ← tablesBelow_eq, filter_append, flatMap_append]
        have hown : (if e.item.isValue then [e] else e.item.valueEntries).Perm
            ((if e.item.isDotted then bodyValues e.item.entries else if e.item.isValue then [e] else []) ++
              e.item.plainTables.flatMap fun t => bodyValues t.2) := by
          cases hv : e.item.isValue with
          | true => simp [plainTables, tables_of_isValue hv, plain.1 hv]
          | false => exact ih e mem_cons_self hv
        refine (hown.append hrest).trans ?_
        rw [append_assoc, append_assoc]
        exact (perm_append_comm_assoc _ _ _).append_left _
    rw [plainTables, tables, valueEntries]
    cases hf : f.dotted with
    | true => simpa [isDotted, entries, hf] using hentries
    | false => simpa [isDotted, entries, hf] using hentries
  | @arrayOfTables i ts elements members ih =>
    rw [valueEntries, valueEntriesEach_eq, plainTables, tables, tablesEach_eq, filter_flatMap,
      flatMap_assoc]
    refine Perm.flatMap_left _ fun t ht => ?_
    have htable : t.isValue = false := by
      have := (elements t ht).1
      cases t <;> first | rfl | cases this
    have := ih t ht htable
    rwa [(elements t ht).2] at this

/-- The lines of sections are those of blocks, one block for each section that no dotted key made. -/
theorem exists_blocks (source : Option (List Char)) {ss : List Section}
    (hroot : ∀ s ∈ ss, s.isRoot = true → s.form.dotted = false) :
    ∃ blocks : List Block, ss.flatMap (sectionLines source) = blocks.flatMap (Block.lines source) ∧
      blocks.map Block.table = ss.filter (fun s => !s.form.dotted) ∧
      (∀ b ∈ blocks, b.entries.Perm (bodyIn [] b.table.entries)) ∧
      ∀ b ∈ blocks, b.table.isRoot = false → b.entries ≠ [] → b.table.hasHeader = true := by
  induction ss with
  | nil => exact ⟨[], rfl, rfl, by simp, by simp⟩
  | cons s ss ih =>
    rw [forall_mem_cons] at hroot
    obtain ⟨blocks, hlines, htables, hbodies, hheaders⟩ := ih hroot.2
    cases hdotted : s.form.dotted with
    | true =>
      have hno : s.isRoot = false := by
        cases hr : s.isRoot with
        | false => rfl
        | true => exact absurd ((hroot.1 hr).symm.trans hdotted) (by simp)
      refine ⟨blocks, ?_, ?_, hbodies, hheaders⟩
      · rw [flatMap_cons, hlines]
        simp [sectionLines, Section.hasHeader, hno, hdotted]
      · simpa [hdotted] using htables
    | false =>
      obtain ⟨entries, hperm, hbody⟩ := exists_perm_bodyIn source s.entries
      -- a table without a header has nothing in its body
      have hempty : s.hasHeader = false → entries = [] := by
        intro hno
        rw [Section.hasHeader, hdotted, Bool.not_false, Bool.true_and, Bool.or_eq_false_iff] at hno
        rw [bodyIn_eq_nil hno.2] at hperm
        exact hperm.eq_nil
      refine ⟨⟨s, entries⟩ :: blocks, ?_, by simp [hdotted, htables], forall_mem_cons.mpr ⟨hperm, hbodies⟩,
        forall_mem_cons.mpr ⟨fun _ hne => ?_, hheaders⟩⟩
      · rw [flatMap_cons, flatMap_cons, hlines]
        refine congrArg (· ++ _) ?_
        simp only [sectionLines, Block.lines, hbody, map_map]
        cases hr : s.isRoot with
        | true => simp [Function.comp_def]
        | false =>
          cases hh : s.hasHeader with
          | true => simp [Function.comp_def]
          | false => simp [hempty hh]
      · cases hh : s.hasHeader with
        | true => rfl
        | false => exact absurd (hempty hh) hne

/-- A tree whose lines are whole is written block by block, and each of its entries once. -/
theorem exists_inBlocks {i : Info} (h : Lined (.table i f es)) (hf : f.dotted = false) (source : Option (List Char)) :
    ∃ blocks, InBlocks source (.table i f es) blocks := by
  obtain ⟨ss, hss⟩ : ∃ ss, byPosition (numbered Section.number 0 (sectionsIn [] false true (.table i f es))) = ss := ⟨_, rfl⟩
  have hperm : ss.Perm (⟨f, es, [], false, true⟩ :: sectionsBelow [] es) := by
    have := perm_byPosition (numbered Section.number 0 (sectionsIn [] false true (.table i f es)))
    rwa [map_snd_numbered, hss, sectionsIn] at this
  have hbelow : ∀ s ∈ sectionsBelow [] es, s.isRoot = false := fun s hs =>
    sectionsIn_isRoot (.table i f es) [] false s (mem_cons_of_mem _ hs)
  have htables := sectionsIn_tables (.table i f es) [] false true
  have hlined : ∀ s ∈ ss, Lined (.table {} s.form s.entries) := by
    intro s hs
    refine h.of_tables (s.form, s.entries) ?_
    rw [← htables]
    exact mem_map_of_mem (f := fun s : Section => (s.form, s.entries)) (hperm.mem_iff.mp hs)
  have hroot : ∀ s ∈ ss, s.isRoot = true → s.form.dotted = false := by
    intro s hs hr
    rcases mem_cons.mp (hperm.mem_iff.mp hs) with rfl | hs
    · exact hf
    · exact absurd ((hbelow s hs).symm.trans hr) (by simp)
  obtain ⟨blocks, hlines, hblocks, hbodies, hheaders⟩ := exists_blocks source hroot
  -- the tables of the blocks, in any order
  have hplain : (blocks.map fun b => (b.table.form, b.table.entries)).Perm (table i f es).plainTables := by
    have hmap : (blocks.map fun b => (b.table.form, b.table.entries)) =
        (blocks.map Block.table).map fun s => (s.form, s.entries) := by simp [Function.comp_def]
    rw [hmap, hblocks, plainTables, ← htables, filter_map]
    exact (hperm.filter fun s => !s.form.dotted).map fun s => (s.form, s.entries)
  refine ⟨blocks, by rw [writtenLines_eq, hss, hlines], hplain, fun b hb => ?_, ?_, hheaders, ?_⟩
  · have htable : b.table ∈ blocks.map Block.table := mem_map_of_mem hb
    rw [hblocks] at htable
    have hbody := bodyEntries_eq_bodyIn (hlined _ (mem_filter.mp htable).1) rfl []
    rw [entries] at hbody
    exact hbody ▸ hbodies b hb
  · have hvalues := valueEntries_perm h rfl
    simp only [isDotted, hf, Bool.false_eq_true, if_false, nil_append] at hvalues
    refine Perm.trans ?_ hvalues.symm
    refine Perm.trans ?_ (hplain.flatMap_right _)
    rw [flatMap_map]
    exact Perm.flatMap_left _ fun b hb => (hbodies b hb).map Prod.snd
  · have hroots : (blocks.filter fun b => b.table.isRoot).map Block.table =
        [(⟨f, es, [], false, true⟩ : Section)] := by
      have hcomp : (blocks.filter fun b => b.table.isRoot).map Block.table =
          (blocks.map Block.table).filter fun s => s.isRoot := by rw [filter_map]; rfl
      rw [hcomp, hblocks, filter_filter]
      have hfilter := hperm.filter fun s => s.isRoot && !s.form.dotted
      have hnone : (sectionsBelow [] es).filter (fun s => s.isRoot && !s.form.dotted) = [] :=
        filter_eq_nil_iff.mpr fun s hs => by simp [hbelow s hs]
      rw [filter_cons_of_pos (by simp [hf]), hnone] at hfilter
      exact hfilter.eq_singleton
    have := congrArg (List.map Section.entries) hroots
    simpa [Function.comp_def, entries] using this

/-! ## Lines -/

theorem AtLineStart.append (h : AtLineStart t) (hs : t = "" → AtLineStart s) : AtLineStart (s ++ t) := by
  rcases h with rfl | ⟨u, rfl⟩
  · simpa using hs rfl
  · exact .inr ⟨s ++ u, by rw [String.append_assoc]⟩

theorem linesText_cons_eq_ok {l : WrittenLine} {after : Bool} :
    linesText source layout isFirst unterminated (l :: ls) = .ok (text, after) ↔
      ∃ own rest, l.text source layout isFirst = .ok own ∧
        linesText source layout false (l.newline.getD layout.newline == "") ls = .ok (rest, after) ∧
        text = (if unterminated then layout.newline else "") ++ own ++ l.newline.getD layout.newline ++ rest := by
  rw [linesText]
  cases l.text source layout isFirst with
  | error e => simp
  | ok own =>
    dsimp only
    cases linesText source layout false (l.newline.getD layout.newline == "") ls with
    | error e => simp
    | ok r => simp [Prod.ext_iff, and_comm, eq_comm]

/-- Where the text of lines stops: behind a terminator, unless the last line has none. -/
theorem linesText_start (hlayout : ∃ t, layout.newline = t ++ "\n") (hls : ∀ l ∈ ls, LineBreak l.newline) {after : Bool}
    (h : linesText source layout isFirst unterminated ls = .ok (text, after)) (lead : String)
    (hlead : unterminated = false → AtLineStart lead) : after = false → AtLineStart (lead ++ text) := by
  induction ls generalizing isFirst unterminated lead text with
  | nil =>
    cases h
    simpa using hlead
  | cons l ls ih =>
    rw [forall_mem_cons] at hls
    obtain ⟨own, rest, -, hrest, rfl⟩ := linesText_cons_eq_ok.mp h
    have hline := ih hls.2 hrest
      (lead ++ (if unterminated then layout.newline else "") ++ own ++ l.newline.getD layout.newline) fun hterminated => ?_
    · simpa [String.append_assoc] using hline
    · -- a terminator that is there ends the line
      refine AtLineStart.append ?_ fun hempty => absurd hempty (by simpa using hterminated)
      cases hnewline : l.newline with
      | none => exact .inr hlayout
      | some t => exact hls.1 t hnewline

theorem linesText_append_eq_ok {before after : List WrittenLine} {last : Bool} :
    linesText source layout isFirst unterminated (before ++ after) = .ok (text, last) ↔
      ∃ lead between rest, linesText source layout isFirst unterminated before = .ok (lead, between) ∧
        linesText source layout (isFirst && before.isEmpty) between after = .ok (rest, last) ∧ text = lead ++ rest := by
  induction before generalizing isFirst unterminated text with
  | nil =>
    refine ⟨fun h => ⟨"", unterminated, text, rfl, by simpa using h, by simp⟩, ?_⟩
    rintro ⟨_, _, rest, ⟨⟩, hrest, rfl⟩
    simpa using hrest
  | cons l ls ih =>
    simp only [cons_append, linesText_cons_eq_ok, ih]
    constructor
    · rintro ⟨own, -, hown, ⟨lead, between, rest, hlead, hrest, rfl⟩, rfl⟩
      exact ⟨_, between, rest, ⟨own, lead, hown, hlead, rfl⟩, by simpa using hrest, by simp [String.append_assoc]⟩
    · rintro ⟨-, between, rest, ⟨own, lead, hown, hlead, rfl⟩, hrest, rfl⟩
      exact ⟨own, _, hown, ⟨lead, between, rest, hlead, by simpa using hrest, rfl⟩, by simp [String.append_assoc]⟩

theorem bodyIn_newline (h : x.Lined) (hx : x.isTable = true) (path : List Key) :
    ∀ l ∈ bodyIn path x.entries, LineBreak l.2.newline := by
  induction h generalizing path with
  | @value x isValue =>
    cases x with
    | table i f es => cases isValue
    | _ => cases hx
  | arrayOfTables _ _ => cases hx
  | @table i f es header lines plain members ih =>
    intro l hl
    obtain ⟨e, he, hl⟩ := mem_bodyIn.mp hl
    rw [entryBody] at hl
    rcases kinds e.item with hv | ⟨hv, htable⟩ | ⟨hv, -, hd, -⟩
    · rw [plain e he hv, if_neg Bool.false_ne_true, if_pos hv, mem_singleton] at hl
      exact hl ▸ lines e he
    · rw [hv] at hl
      split at hl
      · exact ih e he htable _ l hl
      · cases hl
    · rw [hd, hv] at hl
      cases hl

/-- The lines of a tree whose lines are whole end in terminators. -/
theorem writtenLines_newline (h : x.Lined) (source : Option (List Char)) :
    ∀ l ∈ writtenLines source x, LineBreak l.newline := by
  intro l hl
  rw [writtenLines_eq] at hl
  obtain ⟨s, hs, hl⟩ := mem_flatMap.mp hl
  rw [(perm_byPosition _).mem_iff, map_snd_numbered] at hs
  have hlined : Lined (.table {} s.form s.entries) := by
    refine h.of_tables (s.form, s.entries) ?_
    rw [← sectionsIn_tables x [] false true]
    exact mem_map_of_mem (f := fun s : Section => (s.form, s.entries)) hs
  obtain ⟨entries, hperm, hbody⟩ := exists_perm_bodyIn source s.entries
  have hlines : ∀ b ∈ byPosition (bodyLines source [] 0 s.entries).1, LineBreak b.newline := by
    rw [hbody, forall_mem_map]
    exact fun e he => bodyIn_newline hlined rfl [] e (hperm.mem_iff.mp he)
  simp only [sectionLines] at hl
  split at hl
  · obtain ⟨b, hb, rfl⟩ := mem_map.mp hl
    exact hlines b hb
  · split at hl
    · rcases mem_cons.mp hl with rfl | hl
      · exact (Lined.table_iff.mp hlined).1
      · obtain ⟨b, hb, rfl⟩ := mem_map.mp hl
        exact hlines b hb
    · cases hl

/-- Behind lines, and behind the terminator that the last one may lack, a line begins. -/
theorem atLineStart_terminated (hlayout : ∃ t, layout.newline = t ++ "\n") (hls : ∀ l ∈ ls, LineBreak l.newline)
    (h : linesText source layout isFirst false ls = .ok (text, unterminated)) :
    AtLineStart (text ++ (if unterminated then layout.newline else "")) := by
  cases unterminated with
  | true =>
    obtain ⟨t, ht⟩ := hlayout
    exact .inr ⟨text ++ t, by rw [if_pos rfl, ht, String.append_assoc]⟩
  | false => simpa using linesText_start hlayout hls h "" (fun _ => .inl rfl) rfl

/-- Each line of such a tree begins where a line begins. -/
theorem startsLines (h : x.Lined) (hlayout : ∃ t, layout.newline = t ++ "\n") {trailing : SpanText}
    (htext : renderTree layout source x (some trailing) = .ok text) : StartsLines layout source x trailing text := by
  rw [renderTree] at htext
  have hbreaks := writtenLines_newline h source
  split at htext
  · cases htext
  · next all unterminated hall =>
    split at htext
    · cases htext
    · next tail htail =>
      cases htext
      refine ⟨fun before l after hsplit => ?_, ⟨_, tail, htail, rfl, fun hne => ?_⟩⟩
      · rw [hsplit] at hall hbreaks
        obtain ⟨lead, between, rest, hlead, hrest, rfl⟩ := linesText_append_eq_ok.mp hall
        obtain ⟨own, rest', hown, -, rfl⟩ := linesText_cons_eq_ok.mp hrest
        refine ⟨lead, between, own, l.newline.getD layout.newline ++ rest' ++
          (if unterminated && tail != "" then layout.newline else "") ++ tail, hlead, by simpa using hown,
          by simp only [String.append_assoc], ?_⟩
        exact atLineStart_terminated hlayout (fun l hl => hbreaks l (mem_append_left _ hl)) hlead
      · have hstart := atLineStart_terminated hlayout hbreaks hall
        have htail : (tail != "") = true := by simpa using hne
        rwa [htail, Bool.and_true]

end Render

/-! ## Edits -/

namespace Item

/-- A rewording does not change where lines begin and end. -/
theorem lined_reworded (r : Info → Info) (g : SpanText → SpanText) : (x.reworded r g).Lined ↔ x.Lined := by
  induction x using inductionOn with
  | table i f es ih =>
    rw [reworded, rewordedEntries_eq, Lined.table_iff, Lined.table_iff, forall_mem_map]
    refine and_congr Iff.rfl (forall₂_congr fun e he => ?_)
    simp only [rewordedEntry, isValue_reworded, isDotted_reworded, ih e he]
  | arrayOfTables i ts ih =>
    rw [reworded, rewordedEach_eq, Lined.arrayOfTables_iff, Lined.arrayOfTables_iff, forall_mem_map]
    refine forall₂_congr fun t ht => ?_
    simp only [isTable_reworded, isDotted_reworded, ih t ht]
  | _ => exact ⟨fun _ => .value rfl, fun _ => .value rfl⟩

/-- Two items that can stand in the same places. -/
structure SameKind (x y : Item) : Prop where
  isValue : y.isValue = x.isValue
  isTable : y.isTable = x.isTable
  isDotted : y.isDotted = x.isDotted

/-- Another item of the same kind in one place. -/
theorem Replaced.lined (h : Replaced y z x x') (hkind : SameKind y z) (hz : y.Lined → z.Lined) :
    SameKind x x' ∧ (x.Lined → x'.Lined) := by
  induction h with
  | here => exact ⟨hkind, hz⟩
  | array _ ih => exact ⟨⟨rfl, rfl, rfl⟩, fun _ => .value rfl⟩
  | inlineTable _ ih => exact ⟨⟨rfl, rfl, rfl⟩, fun _ => .value rfl⟩
  | @table i f pre post e v' _ ih =>
    refine ⟨⟨rfl, rfl, rfl⟩, ?_⟩
    simp only [Lined.table_iff, forall_mem_append, forall_mem_cons]
    rintro ⟨hheader, hpre, ⟨hline, hplain, hmember⟩, hpost⟩
    exact ⟨hheader, hpre, ⟨hline, fun hv => ih.1.isDotted.trans (hplain (ih.1.isValue.symm.trans hv)), ih.2 hmember⟩, hpost⟩
  | @arrayOfTables i pre post t t' _ ih =>
    refine ⟨⟨rfl, rfl, rfl⟩, ?_⟩
    simp only [Lined.arrayOfTables_iff, forall_mem_append, forall_mem_cons]
    rintro ⟨hpre, ⟨helement, hmember⟩, hpost⟩
    exact ⟨hpre, ⟨⟨ih.1.isTable.trans helement.1, ih.1.isDotted.trans helement.2⟩, ih.2 hmember⟩, hpost⟩

/-- An item that conversion makes: nothing is remembered of it, its lines are whole, and no dotted key made it. -/
structure NewLined (x : Item) : Prop where
  stripped : x.stripped = x
  lined : x.Lined
  plain : x.isDotted = false

theorem NewLined.replacing (h : NewLined new) : NewLined (replacing old new) := by
  rw [Item.replacing]
  split
  · next hvalue _ _ =>
    split
    · simp only [Bool.and_eq_true] at hvalue
      exact ⟨by rw [stripped_withDecor, h.stripped], .value (by simpa using hvalue.2), by simpa using h.plain⟩
    · exact h
  · exact h

/-- Plain data becomes such items. -/
theorem convertible_newLined : Convertible (fun _ => False) NewLined where
  kept _ hx := hx.elim
  copied _ hx := hx.elim
  replacing _ _ _ hnew := hnew.replacing
  scalar kind value _ := ⟨rfl, .value rfl, rfl⟩
  array vs hvs := ⟨convertible_new.array vs fun v hv => ⟨(hvs v hv).1.stripped, (hvs v hv).2⟩, .value rfl, rfl⟩
  inlineTable es hnew hes :=
    ⟨convertible_new.inlineTable es hnew fun e he => ⟨(hes e he).1.stripped, (hes e he).2⟩, .value rfl, rfl⟩
  table es hnew hes := by
    have hbreak : ∀ e ∈ es, LineBreak e.newline := by
      intro e he
      rw [hnew.plain e he]
      exact fun t ht => nomatch ht
    exact ⟨convertible_new.table es hnew fun e he => (hes e he).stripped,
      .table (fun t ht => nomatch ht) hbreak (fun e he _ => (hes e he).plain) fun e he => (hes e he).lined, rfl⟩
  arrayOfTables ts hfilled hts := ⟨convertible_new.arrayOfTables ts hfilled fun t ht => ⟨(hts t ht).1.stripped, (hts t ht).2⟩,
    .arrayOfTables (fun t ht => ⟨(hts t ht).2, (hts t ht).1.plain⟩) fun t ht => (hts t ht).1.lined, rfl⟩

theorem sameKind_withEntries (x : Item) (es : List (Entry Item)) : SameKind x (x.withEntries es) := by
  cases x <;> exact ⟨rfl, rfl, rfl⟩

theorem sameKind_withElements (x : Item) (xs : List Item) : SameKind x (x.withElements xs) := by
  cases x <;> exact ⟨rfl, rfl, rfl⟩

/-- An edit with such items keeps the kind of the item that it changes, and keeps lines whole. -/
theorem Change.lined (h : Change NewLined x x') : SameKind x x' ∧ (x.Lined → x'.Lined) := by
  cases h with
  | place name y hx hy hvalue =>
    refine ⟨sameKind_withEntries .., fun hlined => ?_⟩
    cases x with
    | table i f es =>
      rw [Lined.table_iff] at hlined
      refine Lined.table_iff.mpr ⟨hlined.1, fun e he => ?_⟩
      rcases mem_place_cases he with he | ⟨d, hd, rfl⟩ | rfl
      · exact hlined.2 e he
      · have hnew : NewLined (d.item.replacing y) := hy.replacing
        exact ⟨(hlined.2 d hd).1, fun _ => hnew.plain, hnew.lined⟩
      · exact ⟨(fun t ht => nomatch ht), fun _ => hy.plain, hy.lined⟩
    | inlineTable i f es => exact .value rfl
    | _ => cases hx
  | erase name =>
    refine ⟨sameKind_withEntries .., fun hlined => ?_⟩
    cases x with
    | table i f es =>
      rw [Lined.table_iff] at hlined
      exact Lined.table_iff.mpr ⟨hlined.1, fun e he => hlined.2 e (mem_filter.mp he).1⟩
    | inlineTable i f es => exact .value rfl
    | scalar i s => exact hlined
    | array i f vs => exact hlined
    | arrayOfTables i ts => exact hlined
  | append y hy hkind =>
    refine ⟨sameKind_withElements .., fun hlined => ?_⟩
    cases x with
    | arrayOfTables i ts =>
      rw [Lined.arrayOfTables_iff] at hlined
      refine Lined.arrayOfTables_iff.mpr (forall_mem_append.mpr ⟨hlined, ?_⟩)
      exact forall_mem_singleton.mpr ⟨⟨hkind, hy.plain⟩, hy.lined⟩
    | array i f vs => exact .value rfl
    | scalar i s => exact hlined
    | inlineTable i f es => exact hlined
    | table i f es => exact hlined

end Item

/-! ## Documents that were read -/

/-- The law of whole lines. -/
def lineLaw : Law where
  info _ := True
  form _ _ _ f := LineBreak f.newline
  line _ e := LineBreak e.newline ∧ e.item.isDotted = false
  member _ := True
  info_read _ := trivial
  form_implied _ _ ht := nomatch ht
  form_dotted _ _ ht := nomatch ht
  plain _ _ h := h.2

theorem lineBreak_lineEnd (h : lineEnd behind c = .ok (newline, d)) : LineBreak (some newline) := by
  intro t ht
  cases ht
  rw [lineEnd] at h
  split at h
  · cases h
    exact .inl rfl
  · cases h
    exact .inr ⟨"", rfl⟩
  · cases h
    exact .inr ⟨"\r", rfl⟩
  · cases h

theorem lineLaw_admits {limit : Nat} {source : List Char} (hs : s.cursor.On source)
    (h : lineAt limit s = .ok (l, s')) : lineLaw.Admits l := by
  have hproper := (lineAt_kept .nothing hs h).proper
  rcases lineAt_cases h with ⟨-, h⟩ | ⟨-, h⟩
  · obtain ⟨path, leaf, c₁, c₂, c₃, c₄, newline, c₆, what, what', isArray, -, -, -, -, -, hend, rfl, -⟩ := headerLine_eq_ok h
    exact ⟨lineBreak_lineEnd hend, fun _ _ => trivial⟩
  · obtain ⟨path, leaf, c₁, c₂, w, s₃, newline, c₅, -, -, -, hend, rfl, -⟩ := entryLine_eq_ok h
    exact ⟨⟨lineBreak_lineEnd hend, hproper.2⟩, fun _ _ => trivial⟩

/-- Lines that are whole make a tree whose lines are whole. -/
theorem Law.Holds.lined (h : lineLaw.Holds path dotted es) (hes : Built es) (i : Info) (hf : LineBreak f.newline) :
    Lined (.table i f es) := by
  induction h generalizing i f with
  | @intro path dotted es entry tables below ih =>
    have hmembers : ∀ e ∈ es, e.item.Lined := by
      intro e he
      have hsound := hes.sound he
      have hbelow := fun i f sub hhas hsub => ih e he i f sub hhas (hes.tables he hsub) i (tables e he i f sub hhas).2
      generalize e.item = x at hsound hbelow
      cases x with
      | table j g sub => exact hbelow j g sub .self (mem_singleton.mpr rfl)
      | arrayOfTables j ts =>
        refine .arrayOfTables (fun t ht => ?_) fun t ht => ?_ <;> obtain ⟨k, g, sub, rfl, hheader⟩ := hsound t ht
        · exact ⟨rfl, hheader.notDotted⟩
        · exact hbelow k g sub (.element ht) (mem_map.mpr ⟨_, ht, rfl⟩)
      | _ => exact .value rfl
    refine .table hf (fun e he => ?_) (fun e he hv => ((entry e he).line hv).2) hmembers
    cases hv : e.item.isValue with
    | true => exact ((entry e he).line hv).1
    | false =>
      rw [((entry e he).member hv).1]
      exact fun t ht => nomatch ht

theorem readTree_lined {limit : Nat} {source : List Char}
    (h : readTree limit source = .ok (root, trailing)) : root.Lined := by
  obtain ⟨hroot, hbuilt, hholds⟩ := lineLaw.holds_readTree (fun s s' l hs hline => lineLaw_admits hs hline) h
  rw [hroot]
  exact hholds.lined hbuilt {} fun t ht => nomatch ht

/-! ## The main statement -/

namespace Workspace

/-- The document that a session begins with: a new one or one that was read. -/
inductive Begins : Workspace → Prop where
  | new : Begins (({} : Workspace).create "main" true)
  | read {options : OptionsArgument} {source : Source} {w : Workspace}
      (h : ({} : Workspace).parse "main" options source true = .ok w) : Begins w

/-- A root is a table with whole lines that no dotted key made. -/
structure LinedRoot (x : Item) : Prop where
  lined : x.Lined
  isTable : x.isTable = true
  plain : x.isDotted = false

theorem linedRoot_reworded (r : Info → Info) (g : SpanText → SpanText) : LinedRoot (x.reworded r g) ↔ LinedRoot x := by
  constructor
  · rintro ⟨h, ht, hp⟩
    exact ⟨(lined_reworded r g).mp h, by simpa using ht, by simpa using hp⟩
  · rintro ⟨h, ht, hp⟩
    exact ⟨(lined_reworded r g).mpr h, by simpa using ht, by simpa using hp⟩

theorem Begins.single (h : Begins w) : ∃ d, Single w d ∧ LinedRoot d.root.stripped := by
  cases h with
  | new =>
    obtain ⟨root, hsingle, hroot⟩ := single_create
    refine ⟨_, hsingle, ?_⟩
    rw [hroot]
    refine (linedRoot_reworded ..).mpr ⟨.table ?_ ?_ ?_ ?_, rfl, rfl⟩
    · exact fun t ht => nomatch ht
    all_goals exact forall_mem_nil _
  | read h =>
    obtain ⟨o, s, -, hparse, hsingle⟩ := single_parse h
    refine ⟨_, hsingle, ?_⟩
    obtain ⟨text, mode, tree, trailing, -, -, hread, rfl⟩ := parse_eq_ok hparse
    dsimp only
    rw [stripped_labelled]
    -- neither freezing nor handing over says anything about lines
    rw [Snapshot.toDocument]
    dsimp only
    rw [freeze_eq_reworded, detach_eq_reworded]
    refine (linedRoot_reworded ..).mpr ((linedRoot_reworded ..).mpr ((linedRoot_reworded ..).mpr ?_))
    obtain ⟨htree, -, -⟩ := lineLaw.holds_readTree (fun s s' l hs hline => lineLaw_admits hs hline) hread
    have hlined := readTree_lined hread
    rw [htree] at hlined ⊢
    exact ⟨hlined, rfl, rfl⟩

/-- **Whole lines.** Whatever plain data a new or a read document is given and whatever is deleted from it, the tables of the
document are written one after the other, each entry once, in the body of its table and behind the header of that; and every
line begins where a line begins. -/
theorem writes_whole_lines {w : Workspace} (hw : Begins w) {es : List Edit} (hes : ∀ e ∈ es, e.Carries fun _ => False) :
    ∃ d, (w.edited es).slot "main" = .ok { content := .document d } ∧
      (∀ source, ∃ blocks, Render.InBlocks source d.root blocks) ∧
      ∀ layout text, layout.newline = "\n" ∨ layout.newline = "\r\n" → d.render layout = .ok text →
        Render.StartsLines layout (d.source.map String.toList) d.root d.trailing text := by
  obtain ⟨d, hsingle, hroot⟩ := hw.single
  have hstep : ∀ x path y y', LinedRoot x → x.follow path = .ok y → y.Change NewLined y' →
      LinedRoot (x.replaceAt path y') := by
    intro x path y y' hx hfollow hchange
    obtain ⟨hkind, hlined⟩ := hchange.lined
    obtain ⟨hkind, hlined⟩ := (replaced_replaceAt hfollow).lined hkind hlined
    exact ⟨hlined hx.lined, hkind.isTable.trans hx.isTable, hkind.isDotted.trans hx.plain⟩
  obtain ⟨root, hsingle, hroot⟩ := hsingle.edited convertible_newLined (fun y hy => hy.stripped) hstep hes hroot
  obtain ⟨hlined, htable, hplain⟩ := (linedRoot_reworded ..).mp hroot
  refine ⟨{ d with root }, ?_, fun source => ?_, fun layout text hnewline htext => ?_⟩
  · rw [slot, hsingle.documents]
    rfl
  · cases root with
    | table i f es => exact Render.exists_inBlocks hlined hplain source
    | _ => cases htable
  · apply Render.startsLines hlined _ htext
    rcases hnewline with h | h
    · exact ⟨"", h⟩
    · exact ⟨"\r", h⟩

set_option maxRecDepth 20000 in
/-- In a document with a dotted key and two tables, one of them not terminated, both tables gain an entry and one goes. -/
theorem writes_whole_lines_read : ∃ w d, ({} : Workspace).parse "main" .unset
      (.text "a.b = 1\n[t] # t\nc = 2\n\n[u]\nd = 3") true = .ok w ∧
    (w.edited [.assign { path := [.name "u"] } "e" (.list []), .erase {} "t",
      .assign { path := [.name "a"] } "f" (.boolean true)]).slot "main" = .ok { content := .document d } ∧
    (∀ source, ∃ blocks, Render.InBlocks source d.root blocks) ∧
    Render.StartsLines {} (d.source.map String.toList) d.root d.trailing "a.b = 1\na.f = true\n\n[u]\nd = 3\ne = []\n" := by
  have hrun : (do
      let w ← ({} : Workspace).parse "main" .unset (.text "a.b = 1\n[t] # t\nc = 2\n\n[u]\nd = 3") true
      let s ← (w.edited [.assign { path := [.name "u"] } "e" (.list []), .erase {} "t",
        .assign { path := [.name "a"] } "f" (.boolean true)]).slot "main"
      s.render {} : Except Failure String).toOption = some "a.b = 1\na.f = true\n\n[u]\nd = 3\ne = []\n" := by
    cbv
  obtain ⟨w, hw, hrun⟩ := bind_eq_ok.mp (toOption_eq_some.mp hrun)
  obtain ⟨s, hs, hrun⟩ := bind_eq_ok.mp hrun
  have hplain : ∀ e ∈ ([.assign { path := [.name "u"] } "e" (.list []), .erase {} "t",
      .assign { path := [.name "a"] } "f" (.boolean true)] : List Edit), e.Carries fun _ => False := by
    simp only [forall_mem_cons]
    exact ⟨.list (forall_mem_nil _), trivial, .leaf rfl, forall_mem_nil _⟩
  obtain ⟨d, hd, hblocks, hstarts⟩ := writes_whole_lines (.read hw) hplain
  cases hs.symm.trans hd
  exact ⟨w, d, hw, hd, hblocks, hstarts {} _ (.inl rfl) (mapError_eq_ok.mp hrun)⟩

end Workspace

end Verbatim

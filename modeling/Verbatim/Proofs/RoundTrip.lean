import Mathlib.Data.List.Forall2
import Verbatim.Parsing
import Verbatim.Program
import Verbatim.Proofs.Composed
import Verbatim.Proofs.Detachment
import Verbatim.Proofs.LineOrder
import Verbatim.Proofs.ValueText

/-!
# A text that was read is written back exactly

Every line keeps the characters from the end of the line before it to its own end, and the lines of a tree are written in
the order in which they were read. What follows the last line is kept beside the tree. So the tree of a text is written as
that text, whatever the layout for new lines is, and a tree with new values as the text with their spellings in it.

## Main statements

- `readTree_exchanged` - so is the tree of a text, but for new values.
- `parseText_render` - a snapshot is written as its source.
- `parse_render_exact` - a text that is read comes back exactly, from the snapshot and from the document.
-/

namespace Verbatim

open List Render Cursor
open Item (exchanged sites)

variable {s s' : Numbered} {l : Line} {limit : Nat} {trailing : SpanText} {root : Item} {options : ReadOptions}

variable {source : List Char} {r : Exchange}

/-! ## Lines -/

theorem spells_lineEnd (h : lineEnd behind c = .ok (newline, d)) :
    ∃ t, newline = String.ofList t ∧ c.Spells t d ∧ (t = [] → d.rest = []) := by
  rw [lineEnd] at h
  split at h
  · next hrest =>
    cases h
    exact ⟨[], rfl, Spells.refl c, fun _ => hrest⟩
  · next hrest =>
    cases h
    exact ⟨['\n'], rfl, spells_next (by simp [startsWith, hrest]), by simp⟩
  · next hrest =>
    cases h
    exact ⟨['\r', '\n'], rfl, spells_of_startsWith (by simp [startsWith, hrest]), by simp⟩
  · cases h

/-- A line was read between two places and is written as what stands there, but for new values in it. -/
structure LineKept (source : List Char) (r : Exchange) (s : Numbered) (l : Line) (s' : Numbered) : Prop where
  /-- An entry line holds a value. -/
  proper : l.Proper
  /-- Lines are numbered in order. -/
  ascends : s.number < l.number
  /-- The number of the line is the last one given. -/
  number : l.number = s'.number
  /-- The line was read between the places. -/
  reaches : s.cursor.Reaches s'.cursor
  /-- The line is written as it was read. -/
  written : ∃ e t, s.cursor.Reaches e ∧ e.Spells l.newline.toList s'.cursor ∧ (l.newline = "" → s'.cursor.rest = []) ∧
    Rewritten source r.spell s.cursor.pos e.pos (l.values.flatMap (sites r.value)) t ∧ ∀ text, r.texts text →
      ∀ w : WrittenLine, (l.mapped (exchanged r.value)).Marked (some text) w.mark →
        w.newline = some l.newline ∧ ∀ layout isFirst, w.text (some text) layout isFirst = .ok (String.ofList (t text))

/-- A header is written as it was read. -/
private theorem headerLine_kept (hb : before.On source) (h₀ : before.Reaches s.cursor)
    (hbracket : s.cursor.startsWith ['['] = true) (h : headerLine before.pos s = .ok (l, s')) :
    LineKept source r ⟨before, s.number⟩ l s' := by
  obtain ⟨path, leaf, c₁, c₂, c₄, newline, c₆, isArray, hopen, hkeys, hclose, hend, rfl, rfl⟩ := headerLine_spells hbracket h
  have hs := h₀.on hb
  have hc₂ := hkeys.reaches.on (hopen.on hs)
  have h₄ := c₄.reaches_skipBlanks.trans (reaches_skipComment _)
  obtain ⟨t, hpath, hpathText⟩ := hkeys.text r.spell (hopen.on hs) (.refl _) rfl
  obtain ⟨nl, rfl, hnl, hlast⟩ := spells_lineEnd hend
  have hall := (((h₀.trans ⟨_, hopen⟩).trans hkeys.reaches).trans ⟨_, hclose⟩).trans h₄
  have hkept := (Rewritten.ref source r.spell h₀).append ((Rewritten.kept r.spell hs hopen).append
    (hpath.append ((Rewritten.kept r.spell hc₂ hclose).append (.ref source r.spell h₄))))
  refine ⟨trivial, Nat.lt_succ_self _, rfl, hall.trans ⟨_, hnl⟩, _, _, hall, by simpa [Line.newline] using hnl,
    by simpa [Line.newline] using hlast, hkept, fun text _ w hw => ?_⟩
  cases w with
  | body l => cases hw
  | header sec =>
    obtain ⟨hform, harray, -⟩ := LineMark.opening.inj hw
    refine ⟨by simp [WrittenLine.newline, Line.newline, hform, Header.form], fun layout isFirst => ?_⟩
    simp only [WrittenLine.text, hform, harray, Header.form, Header.keys, Option.getD_some, optionalText_between, hpathText,
      ← ofList_openingBrackets, ← ofList_closingBrackets]
    simp only [joinAll, join_ok, String.ofList_append, String.append_empty]

/-- An entry line is written as it was read. -/
private theorem entryLine_kept (hb : before.On source) (h₀ : before.Reaches s.cursor)
    (h : entryLine limit before.pos s = .ok (l, s')) : LineKept source r ⟨before, s.number⟩ l s' := by
  obtain ⟨path, leaf, c₁, c₂, w, s₃, newline, c₅, hkeys, hequals, hw, hend, rfl, rfl⟩ := entryLine_eq_ok h
  obtain ⟨nl, rfl, hnl, hlast⟩ := spells_lineEnd hend
  obtain ⟨hreaches, hnumber, v, hv', hv, hd, t, ht, hrecorded⟩ := entry_text (keepsText_valueItem r limit openLevels 0) hb h₀ hkeys
    hequals hw (s₃.cursor.reaches_skipBlanks.trans (reaches_skipComment _))
  rw [hv']
  have hall := h₀.trans hreaches
  refine ⟨⟨hv, hd⟩, Nat.lt_succ_of_le hnumber, rfl, hall.trans ⟨_, hnl⟩, _, t, hall, by simpa [Line.newline] using hnl,
    by simpa [Line.newline] using hlast, by simpa [Line.values] using ht, fun text htext w hw => ?_⟩
  cases w with
  | header sec =>
    obtain ⟨keys, -, hmark⟩ := hw
    cases hmark
  | body b =>
    obtain ⟨keys, hnil, hmark⟩ := hw
    cases hmark
    exact ⟨rfl, fun layout isFirst => hrecorded keys _ _ hnil text htext "" " " " " ""⟩

theorem lineAt_kept (r : Exchange) (hs : s.cursor.On source) (h : lineAt limit s = .ok (l, s')) :
    LineKept source r s l s' := by
  rcases lineAt_cases h with ⟨hbracket, h⟩ | ⟨-, h⟩
  · exact headerLine_kept (s := { s with cursor := s.cursor.skipTrivia }) hs s.cursor.reaches_skipTrivia hbracket h
  · exact entryLine_kept (s := { s with cursor := s.cursor.skipTrivia }) hs s.cursor.reaches_skipTrivia h

/-! ## Whole texts -/

theorem LinesRun.proper (h : LinesRun limit s ls trailing) (hs : s.cursor.On source) :
    (∀ l ∈ ls, l.Proper) ∧ (∀ l ∈ ls, s.number < l.number) ∧ ls.Pairwise fun l l' => l.number < l'.number := by
  induction h with
  | done hend => simp
  | @line s s' l ls trailing hend hline hrest ih =>
    have hkept := lineAt_kept .nothing hs hline
    obtain ⟨hproper, hnumbers, hpairwise⟩ := ih (hkept.reaches.on hs)
    refine ⟨forall_mem_cons.mpr ⟨hkept.proper, hproper⟩, forall_mem_cons.mpr ⟨hkept.ascends, ?_⟩,
      pairwise_cons.mpr ⟨?_, hpairwise⟩⟩
    · intro l' hl'
      exact Nat.lt_trans hkept.ascends (hkept.number ▸ hnumbers l' hl')
    · intro l' hl'
      exact hkept.number ▸ hnumbers l' hl'

/-- All lines are written as they were read. A line without a terminator ends the text, so nothing follows it. -/
theorem LinesRun.text (r : Exchange) (h : LinesRun limit s ls trailing) (hs : s.cursor.On source) :
    ∃ (c d : Cursor) (t : List Char → List Char), c.On source ∧ c.Reaches d ∧ d.rest = [] ∧ trailing = .between c.pos d.pos ∧
      Rewritten source r.spell s.cursor.pos c.pos (ls.flatMap fun l => l.values.flatMap (sites r.value)) t ∧
      ∀ text, r.texts text → ∀ ws : List WrittenLine,
        Forall₂ (fun l w => Line.Marked (some text) l w.mark) (ls.map (Line.mapped (exchanged r.value))) ws →
        ∀ layout isFirst unterminated, (unterminated = true → s.cursor.rest = []) →
          ∃ open?, linesText (some text) layout isFirst unterminated ws = .ok (String.ofList (t text), open?) ∧
            (open? = true → c.rest = []) := by
  induction h with
  | @done s hend =>
    refine ⟨_, _, _, hs, s.cursor.reaches_skipTrivia, isEmpty_iff.mp hend, rfl, Rewritten.kept r.spell hs (.refl _), ?_⟩
    intro text _ ws hws layout isFirst unterminated hopen
    cases hws
    exact ⟨unterminated, rfl, hopen⟩
  | @line s s' l ls trailing hend hline hrest ih =>
    have hkept := lineAt_kept r hs hline
    obtain ⟨e, t₁, hreaches, hnewline, hlast, ht₁, htext₁⟩ := hkept.written
    obtain ⟨c, d, t, hc, hcd, hd, htrailing, ht, htexts⟩ := ih (hkept.reaches.on hs)
    have hwritten := (ht₁.append (Rewritten.kept r.spell (hreaches.on hs) hnewline)).append ht
    refine ⟨c, d, _, hc, hcd, hd, htrailing, by simpa using hwritten, ?_⟩
    intro text htext ws hws layout isFirst unterminated hopen
    cases hws with
    | cons hw hws =>
      rename_i w ws
      obtain ⟨hterminator, htext₁⟩ := htext₁ text htext w hw
      -- a text with a line in it is not at its end
      have hclosed : unterminated = false := by
        cases unterminated with
        | false => rfl
        | true => simp [Cursor.skipTrivia, Cursor.atEnd, Cursor.drop, hopen rfl] at hend
      obtain ⟨open?, hlines, hopen'⟩ := htexts text htext ws hws layout false (l.newline == "") fun hempty =>
        hlast (by simpa using hempty)
      refine ⟨open?, ?_, hopen'⟩
      simp [hclosed, linesText, htext₁, hterminator, hlines, String.ofList_append, String.append_assoc]

/-- The tree of a text is put together from the lines that are scanned. -/
theorem readTree_iff : readTree limit source = .ok (root, trailing) ↔
    ∃ ls, sourceLines limit source = (ls, .ok trailing) ∧ assemble ls = .ok root := by
  rw [readTree]
  rcases hscan : sourceLines limit source with ⟨ls, last⟩
  constructor
  · intro h
    dsimp only at h
    split at h
    · cases h
    · next root' hassemble =>
      split at h <;> cases h
      exact ⟨ls, rfl, hassemble⟩
  · rintro ⟨ls', hls, hassemble⟩
    cases hls
    simp only [hassemble]

theorem readTree_eq_ok (h : readTree limit source = .ok (root, trailing)) :
    ∃ ls, LinesRun limit ⟨.start source, 0⟩ ls trailing ∧ assemble ls = .ok root := by
  obtain ⟨ls, hscan, hassemble⟩ := readTree_iff.mp h
  exact ⟨ls, scanLines_run hscan, hassemble⟩

/-- The tree of a text is written as that text, with the spellings of new values in the places of the old ones, and with what
references lead to in their places. -/
theorem readTree_exchanged (r : Exchange) (h : readTree limit source = .ok (root, trailing)) :
    ∃ t, Rewritten source r.spell 0 source.length (root.sites r.value) t ∧ ∀ text, r.texts text → ∀ layout,
      renderTree layout (some text) (root.exchanged r.value) (some trailing) = .ok (String.ofList (t text)) := by
  obtain ⟨ls, hrun, hassemble⟩ := readTree_eq_ok h
  have hstart := start_on source
  obtain ⟨hproper, hnumbers, hpairwise⟩ := hrun.proper hstart
  obtain ⟨c, d, t, hc, hcd, hd, rfl, ht, htexts⟩ := hrun.text r hstart
  have hend : d.pos = source.length := by
    obtain ⟨hle, hrest⟩ := hcd.on hc
    have := drop_eq_nil_iff.mp (hrest.symm.trans hd)
    omega
  have hsites := assemble_gathered (Item.valueMeasure_sites (σ := r.value)) hproper hassemble
  have hall := (ht.append (.ref source r.spell hcd)).perm (by simpa using hsites.symm)
  refine ⟨_, hend ▸ hall, fun text htext layout => ?_⟩
  have hmarks := assemble_marks (some text) r.valueMap hproper hnumbers hpairwise hassemble
  rw [forall₂_map_right_iff] at hmarks
  obtain ⟨open?, hlines, hopen⟩ := htexts text htext _ hmarks layout true false (by simp)
  simp only [renderTree, hlines, optionalText_between]
  have hno : (open? && String.ofList (slice text ⟨c.pos, d.pos⟩) != "") = false := by
    cases hopen? : open? with
    | false => rfl
    | true =>
      obtain ⟨u, hu⟩ := hcd
      have hlength := hu.length_eq
      rw [hopen hopen?] at hlength
      have hpos := hu.pos
      have hsame : d.pos - c.pos = 0 := by
        simp only [length_nil] at hlength
        omega
      simp [slice, hsame]
  rw [hno, ← hend, String.ofList_append]
  simp

/-- The tree of a text is written as that text. -/
theorem readTree_render (h : readTree limit source = .ok (root, trailing)) (layout : Layout) :
    renderTree layout (some source) root (some trailing) = .ok (String.ofList source) := by
  obtain ⟨t, ht, hrender⟩ := readTree_exchanged .nothing h
  have hrender := hrender source trivial layout
  rw [Exchange.nothing, Item.sites_nothing] at ht
  rwa [Exchange.nothing, Item.exchanged_nothing, ht.eq_slice, slice_whole] at hrender

/-! ## Snapshots and documents -/

/-- A tree is written the same whether it is read-only or not. -/
theorem renderTree_freeze (layout : Layout) (source : List Char) (b : Bool) (x : Item) (trailing : Option SpanText) :
    renderTree layout (some source) (x.freeze b) trailing = renderTree layout (some source) x trailing := by
  have hfrozen := @renderTree_detach source none layout (x.freeze b) trailing
  rw [← hfrozen, Item.detach_freeze, renderTree_detach]

/-- What a text gives that is read: its tree, which is read-only from then on. -/
theorem parseText_eq_ok {mode : SourceMode} {s : Snapshot} (h : parseText options mode source = .ok s) :
    ∃ root trailing, (options.validate = true → validate source = .ok ()) ∧
      readTree options.maxNesting source = .ok (root, trailing) ∧
        s = ⟨root.freeze true, trailing, String.ofList source, mode⟩ := by
  rw [parseText] at h
  split at h
  · cases h
  · next hvalid =>
    split at h
    · cases h
    · next root trailing htree =>
      cases h
      refine ⟨root, trailing, fun hvalidate => by rwa [if_pos hvalidate] at hvalid, ?_, rfl⟩
      rw [parseTree] at htree
      split at htree
      · next tree hread =>
        cases htree
        exact hread
      · cases htree

theorem parse_eq_ok {src : Source} {s : Snapshot} (h : parse options src = .ok s) :
    ∃ text mode root trailing, src.load options.encoding = .ok (text, mode) ∧
      (options.validate = true → validate text = .ok ()) ∧ readTree options.maxNesting text = .ok (root, trailing) ∧
        s = ⟨root.freeze true, trailing, String.ofList text, mode⟩ := by
  rw [parse] at h
  split at h
  · cases h
  · next text mode hload =>
    obtain ⟨root, trailing, hvalid, hread, hs⟩ := parseText_eq_ok h
    exact ⟨text, mode, root, trailing, hload, hvalid, hread, hs⟩

theorem parseText_render {options : ReadOptions} {mode : SourceMode} {s : Snapshot}
    (h : parseText options mode source = .ok s) (layout : Layout) :
    s.source = String.ofList source ∧ s.render layout = .ok (String.ofList source) ∧
      s.toDocument.render layout = .ok (String.ofList source) := by
  obtain ⟨root, trailing, -, hread, rfl⟩ := parseText_eq_ok h
  have hrender : renderTree layout (some source) (root.freeze true) (some trailing) = .ok (String.ofList source) := by
    rw [renderTree_freeze, readTree_render hread]
  refine ⟨rfl, ?_, ?_⟩
  · simpa [Snapshot.render] using hrender
  · have hdetach := @renderTree_detach source (some source) layout (root.freeze true) (some trailing)
    rw [hrender] at hdetach
    simpa [Snapshot.toDocument, Document.render] using hdetach

theorem parse_render {src : Source} {s : Snapshot} (h : parse options src = .ok s) (layout : Layout) :
    s.render layout = .ok s.source ∧ s.toDocument.render layout = .ok s.source := by
  rw [parse] at h
  split at h
  · cases h
  · next text mode hload =>
    obtain ⟨hsource, hsnapshot, hdocument⟩ := parseText_render h layout
    exact ⟨hsource ▸ hsnapshot, hsource ▸ hdocument⟩

/-! ## Checking a file -/

namespace Job

variable {α β : Type} {a : α} {b : β} {log : Log} {t t' : Terminal}

/-- A job gives a result at some terminal. -/
def Gives {α : Type} (job : Job α) (a : α) : Prop := ∃ t t', job.run.run t = (.ok a, t')

/-- Jobs one after the other. -/
theorem bind_run {x : Job α} (h : (x >>= f).run.run t = (.ok b, t')) :
    ∃ a t₁, x.run.run t = (.ok a, t₁) ∧ (f a).run.run t₁ = (.ok b, t') := by
  simp only [bind, ExceptT.bind, ExceptT.run, ExceptT.mk, StateT.bind, StateT.run] at h
  rcases hx : x t with ⟨_ | a, t₁⟩
  · rw [hx] at h
    cases h
  · rw [hx] at h
    exact ⟨a, t₁, hx, h⟩

theorem tryCatch_run {x : Job α} (h : (tryCatch x f).run.run t = (.ok a, t')) :
    x.run.run t = (.ok a, t') ∨ ∃ e t₁, (f e).run.run t₁ = (.ok a, t') := by
  simp only [tryCatch, tryCatchThe, MonadExceptOf.tryCatch, ExceptT.tryCatch, bind, ExceptT.run, ExceptT.mk, StateT.bind,
    StateT.run] at h
  rcases hx : x t with ⟨e | a, t₁⟩
  · rw [hx] at h
    exact .inr ⟨e, t₁, h⟩
  · rw [hx] at h
    exact .inl (hx.trans h)

theorem lift_run {r : Except Failure α} (h : (lift r).run.run t = (.ok a, t')) : r = .ok a := by
  cases r with
  | error e => cases h
  | ok b =>
    cases h
    rfl

theorem source_run {path : String} (h : (Job.source log path).run.run t = (.ok src, t')) :
    (∃ bytes, t.store.read (normalPath path) = .ok bytes ∧ src = .bytes bytes) ∨
      ∀ options, (parse options src).isOk = false := by
  obtain ⟨t₀, t₁, hget, h⟩ := bind_run h
  cases hget
  split at h
  · next bytes hread =>
    obtain ⟨-, -, -, h⟩ := bind_run h
    cases h
    exact .inl ⟨bytes, hread, rfl⟩
  all_goals
    cases h
    exact .inr fun _ => rfl

/-- A file that gives a snapshot is read and parsed. -/
theorem snapshotOfFile_run {path : String} {s : Snapshot} (h : (snapshotOfFile log options path).run.run t = (.ok s, t')) :
    ∃ bytes, t.store.read (normalPath path) = .ok bytes ∧ parse options (.bytes bytes) = .ok s := by
  obtain ⟨src, t₁, hsrc, h⟩ := bind_run h
  obtain ⟨s', t₂, hs, h⟩ := bind_run h
  obtain ⟨-, -, -, h⟩ := bind_run h
  cases h
  have hparse : parse options src = .ok s := mapError_eq_ok.mp (lift_run hs)
  rcases source_run hsrc with ⟨bytes, hread, rfl⟩ | hfails
  · exact ⟨bytes, hread, hparse⟩
  · have := hfails options
    rw [hparse] at this
    cases this

theorem document_run {s : Snapshot} (h : (document log s).run.run t = (.ok d, t')) : d = s.toDocument := by
  obtain ⟨-, -, -, h⟩ := bind_run h
  obtain ⟨-, -, -, h⟩ := bind_run h
  cases h
  rfl

theorem rendered_run {r : Rendered} (h : (rendered log r).run.run t = (.ok text, t')) : r = .ok text := by
  obtain ⟨text', t₁, hlift, h⟩ := bind_run h
  obtain ⟨-, -, -, h⟩ := bind_run h
  cases h
  exact mapError_eq_ok.mp (lift_run hlift)

end Job

/-- A file that is checked is in order or given up, and never found changed. -/
theorem checkFile_row {log : Log} (h : (checkFile log options file).Gives row) :
    row.1 = [.string file, .string "ok", .string ""] ∨ ∃ note, row.1 = [.string file, .string "error", .string note] := by
  obtain ⟨t, t', h⟩ := h
  rcases Job.tryCatch_run h with h | ⟨e, t₁, h⟩
  · obtain ⟨s, t₁, hs, h⟩ := Job.bind_run h
    obtain ⟨d, t₂, hd, h⟩ := Job.bind_run h
    obtain ⟨text, t₃, htext, h⟩ := Job.bind_run h
    cases h
    obtain ⟨bytes, -, hparse⟩ := Job.snapshotOfFile_run hs
    obtain rfl := Job.document_run hd
    -- the text that comes back is the source
    have hsource := (parse_render hparse {}).2.symm.trans (Job.rendered_run htext)
    cases hsource
    exact .inl (by simp [writtenRow])
  · rw [failedRow] at h
    split at h
    · cases h
    · next r hr =>
      obtain ⟨-, -, -, h⟩ := Job.bind_run h
      cases h
      exact .inr ⟨r.text, rfl⟩
/-! ## The main statement -/

/-- **Exact round trip.** A text that is read comes back exactly, from the snapshot and from the document that it is handed
over to, whatever the options and the layout are. So a file that is checked is never found changed. -/
theorem parse_render_exact :
    (∀ (options : ReadOptions) (layout : Layout) (text : String) (s : Snapshot), parse options (.text text) = .ok s →
      s.render layout = .ok text ∧ s.toDocument.render layout = .ok text) ∧
    ∀ (log : Log) (options : ReadOptions) (file : String) (row : CheckRow), (checkFile log options file).Gives row →
      row.1 = [.string file, .string "ok", .string ""] ∨
        ∃ note, row.1 = [.string file, .string "error", .string note] := by
  refine ⟨fun options layout text s h => ?_, fun log options file row h => checkFile_row h⟩
  obtain ⟨-, hsnapshot, hdocument⟩ := @parseText_render text.toList options _ s h layout
  simp only [String.ofList_toList] at hsnapshot hdocument
  exact ⟨hsnapshot, hdocument⟩

/-- Headers out of order, dotted keys that take turns, nested inline tables, both line terminators and no terminator at the
end. -/
def scatteredText : String :=
  "[a.b] # first\r\nx.p = [1 ,2,]\n y = 1\nx . q = \x7b r.s = \x7bt=1\x7d, u = 2, r.v = 3 \x7d\n\n[[c]]\n[a]\nz = 'é'\n[[c]]\n[c.d]\r\n# end"

def emptyFile : Terminal := { store := ⟨[("a.toml", .file [])]⟩ }

theorem parse_render_scattered :
    (∃ s, parse {} (.text scatteredText) = .ok s ∧
      s.render {} = .ok scatteredText ∧ s.toDocument.render {} = .ok scatteredText) ∧
    ∃ row, (checkFile ⟨.warning, false, "-", none, ""⟩ {} "a.toml").Gives row ∧
      (row.1 = [.string "a.toml", .string "ok", .string ""] ∨
        ∃ note, row.1 = [.string "a.toml", .string "error", .string note]) := by
  refine ⟨?_, ?_⟩
  · cases h : parse {} (.text scatteredText) with
    | error e =>
      have hok : (parse {} (.text scatteredText)).isOk = true := by decide +kernel
      rw [h] at hok
      cases hok
    | ok s => exact ⟨s, rfl, parse_render_exact.1 _ _ _ s h⟩
  · have hok : ((checkFile ⟨.warning, false, "-", none, ""⟩ {} "a.toml").run.run emptyFile).1.isOk = true := by
      decide +kernel
    cases h : (checkFile ⟨.warning, false, "-", none, ""⟩ {} "a.toml").run.run emptyFile with
    | mk result after =>
      rw [h] at hok
      cases result with
      | error e => cases hok
      | ok row => exact ⟨row, ⟨_, after, h⟩, parse_render_exact.2 _ _ _ row ⟨_, after, h⟩⟩

end Verbatim

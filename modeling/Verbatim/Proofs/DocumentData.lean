import Verbatim.Proofs.RoundTrip
import Verbatim.Proofs.ValueData

/-!
# A tree has the data of its text

The lines of a text are put together to a tree; the statements of the same text are read as data. A line and its statement
make the same change, each in its own terms, so the data of the tree is the data that the strict reader finds, with all
keys in the same order.

## Main statements

- `Line.place` - what a line does to the data and to the path of the open table.
- `readTree_unwrap` - a tree has the data of its text.
- `parse_unwrap_data` - so has the snapshot of a text that was checked.
-/

namespace Verbatim

open List DataReader Cursor Item

variable {a a' : Assembly} {l : Line} {d : Cursor} {limit : Nat}

/-! ## Lines as changes of the data -/

/-- The data with one more line, and the path of the table that is open behind it. -/
def Line.place (data : Fields) (header : List String) : Line → Option (Fields × List String)
  | .header h => (data.atPath true h.placeData (h.path.map Key.name)).map fun data' => (data', h.keys.map Key.name)
  | .entry l =>
    (data.atPath true (Fields.add? l.leaf.name l.value.unwrap) (header ++ l.path.map Key.name)).map fun data' =>
      (data', header)

/-- The tree with one more line has the data that the line makes. -/
theorem Assembly.add_place (ha : a.Ready g) (hl : l.Proper) (hadd : a.add l = .ok a') :
    l.place (unwrapFields a.entries) a.current = some (unwrapFields a'.entries, a'.current) := by
  cases l with
  | header h =>
    obtain ⟨-, hcurrent, lead, rest, hkeys, hbelow⟩ := Assembly.add_header ha hadd
    have hpath := hbelow.atPath (fun f x x' hchange hx => hchange.atPath hx) ha.built
    rw [← Fields.atPath_append, ← map_append, ← hkeys] at hpath
    rw [Line.place, hpath, hcurrent]
    rfl
  | entry l =>
    obtain ⟨-, hcurrent, hbelow⟩ := Assembly.add_entry ha hl hadd
    have hpath := hbelow.atPath
      (fun f x x' hchange hx => hchange.2.atPath isDottedTable_dottedTable hx.dotting true) ha.built
    rw [← Fields.atPath_append] at hpath
    rw [Line.place, hcurrent]
    exact congrArg (Option.map _) hpath

theorem Assembly.ready_add (ha : a.Ready g) (hl : l.Proper) (hadd : a.add l = .ok a') : ∃ g', a'.Ready g' := by
  cases l with
  | header h => exact ⟨_, (Assembly.add_header ha hadd).1⟩
  | entry l => exact ⟨_, (Assembly.add_entry ha hl hadd).1⟩

/-! ## Lines and statements -/

def Line.statement : Line → Statement
  | .header h => if h.isArray then .array (h.keys.map Key.name) else .table (h.keys.map Key.name)
  | .entry l => .entry ((l.path ++ [l.leaf]).map Key.name) l.value.unwrap

/-- A statement makes the data that its line makes. -/
theorem Line.place_of_accept? (h : l.statement.accept? st = some st') :
    l.place st.data st.header = some (st'.data, st'.header) := by
  cases l with
  | header head =>
    rw [Line.statement] at h
    cases harray : head.isArray with
    | true =>
      rw [harray, if_pos rfl] at h
      obtain ⟨data, -, hdata, rfl⟩ := Statement.accept?_array.mp h
      rw [Header.keys, map_append, map_singleton, getLastD_concat, dropLast_concat] at hdata
      simp only [Line.place, Header.placeData, harray, if_true, hdata, Option.map_some]
    | false =>
      rw [harray, if_neg (by decide)] at h
      obtain ⟨data, -, -, hdata, rfl⟩ := Statement.accept?_table.mp h
      rw [Header.keys, map_append, map_singleton, Fields.atPath_append] at hdata
      simp only [Line.place, Header.placeData, harray, Bool.false_eq_true, if_false, hdata, Option.map_some]
  | entry l =>
    obtain ⟨data, -, -, hdata, rfl⟩ := Statement.accept?_entry.mp h
    rw [map_append, map_singleton, getLastD_concat, dropLast_concat] at hdata
    simp only [Line.place, hdata, Option.map_some]

theorem statements_nil (st : Reading) (h : d.rest = []) : statements st d = .ok st := by
  have hrest : (d.skipWhile isBlank).rest = [] := by rw [skipWhile, h]; rfl
  rw [statements]
  simp only [hrest]

/-- Behind a line and its statement, both texts go on at the same place. -/
theorem lineEnd_joins {behind newline : String} {c c' b : Cursor} (hj : c.Joins d)
    (hc : lineEnd behind c.skipBlanks.skipComment = .ok (newline, c')) (hd : afterStatement b d st = .ok st') :
    ∃ d', c'.Joins d' ∧ statements st d' = .ok st' ∧ entriesMet st d' = entriesAfter b d st := by
  obtain ⟨e, he, hend⟩ := afterStatement_eq_ok hd
  rcases (hj.skipBlanks.skipComment he).lineEnd hc with ⟨hnil, hc'⟩ | ⟨u, hu, hjoins⟩
  · rcases hend with ⟨-, rfl⟩ | ⟨hnewline, -⟩
    · refine ⟨e, by rw [Joins, hnil, hc']; rfl, statements_nil _ hnil, ?_⟩
      have hblank : (e.skipWhile isBlank).rest = [] := by rw [skipWhile, hnil]; rfl
      rw [entriesMet, entriesAfter]
      simp only [hblank, he, hnil]
    · rw [startsWith, hnil] at hnewline
      cases hnewline
  · rcases hend with ⟨hnil, -⟩ | ⟨-, hless, hrest⟩
    · rw [hu] at hnil
      cases hnil
    · refine ⟨_, hjoins, hrest, ?_⟩
      rw [entriesAfter]
      simp only [he, hu, hless, if_true]

/-- A header line makes the statement that is spelled in its place. -/
theorem headerLine_joins (hj : s.cursor.Joins d) (hbracket : d.startsWith ['['] = true)
    (hs : headerLine before s = .ok (l, s')) (hd : statementAt d = some (m, d')) :
    l.statement = m ∧ ∃ (c : Cursor) (behind newline : String), c.Joins d' ∧
      lineEnd behind c.skipBlanks.skipComment = .ok (newline, s'.cursor) := by
  obtain ⟨path, leaf, c₁, c₂, c₃, c₄, newline, c₆, what, what', isArray, harray, rfl, hrun, hclose, hclose', hend, rfl, rfl⟩ :=
    headerLine_eq_ok hs
  have hsame := hj.startsWith_eq (w := ['[', '[']) (by simp)
  obtain ⟨names, e, hpath, -, rfl, rfl⟩ := (statementAt_header hbracket (hsame.symm.trans harray.symm)).mp hd
  have hspells := spells_expectChar hclose
  cases isArray with
  | true =>
    have hstart := hj.spells (spells_of_startsWith harray.symm) (by simp)
    obtain ⟨hjoins, rfl⟩ := hrun.joins hstart hpath
    exact ⟨rfl, c₄, _, newline, hjoins.spells (hspells.trans (spells_expectChar hclose')) (by simp), hend⟩
  | false =>
    have hstart := hj.next (by decide) ((hj.startsWith_iff (by decide) (by decide)).mpr hbracket)
    obtain ⟨hjoins, rfl⟩ := hrun.joins hstart hpath
    cases hclose'
    exact ⟨rfl, c₃, _, newline, hjoins.spells hspells (by simp), hend⟩

theorem entryLine_joins (hj : s.cursor.Joins d)
    (hx : d.rest = x :: u) (hblank : isBlank x = false) (hno : d.startsWith ['['] = false)
    (hs : entryLine limit before s = .ok (l, s')) (hd : statementAt d = some (m, d')) :
    l.statement = m ∧ ∃ (c : Cursor) (behind newline : String), c.Joins d' ∧
      lineEnd behind c.skipBlanks.skipComment = .ok (newline, s'.cursor) := by
  obtain ⟨names, w, hvalue', rfl⟩ := (statementAt_entry hno).mp hd
  have hskip : d.skipWhile isBlank = d := skipWhile_of_head (by rw [hx]; exact fun y hy => Option.some.inj hy ▸ hblank)
  rw [← hskip] at hvalue'
  obtain ⟨path, leaf, c₁, c₂, v, s₃, newline, c₅, hkeys, hequals, hv, hend, rfl, rfl⟩ := entryLine_eq_ok hs
  obtain ⟨hjoins, rfl, rfl, -, -⟩ :=
    keyedValue_joins (agrees_valueItem limit openLevels 0 nestingLevels) hj hkeys hequals hv hvalue'
  refine ⟨?_, s₃.cursor, _, newline, hjoins, hend⟩
  simp only [Line.statement, unwrap_withAfter, unwrap_withDecor]

/-- A line makes the statement that is spelled in its place, and the next ones begin at the same place. -/
theorem lineAt_joins (hj : s.cursor.Joins d) (hs : lineAt limit s = .ok (l, s')) (he : e.rest = triviaRest false d.rest)
    (hx : e.rest = x :: u) (hblank : isBlank x = false) (hspelled : statementAt e = some (m, e'))
    (hafter : afterStatement b e' st = .ok st') :
    l.statement = m ∧ ∃ d', s'.cursor.Joins d' ∧ statements st d' = .ok st' ∧ entriesMet st d' = entriesAfter b e' st := by
  have hhere : s.cursor.skipTrivia.Joins e := hj.triviaRest he
  have hsame := hhere.startsWith_eq (w := ['[']) (by simp)
  rcases lineAt_cases hs with ⟨hbracket, hs⟩ | ⟨hbracket, hs⟩
  · obtain ⟨hstatement, c, behind, newline, hjoins, hend⟩ := headerLine_joins (s := { s with cursor := s.cursor.skipTrivia })
      hhere (hsame.symm.trans hbracket) hs hspelled
    exact ⟨hstatement, lineEnd_joins hjoins hend hafter⟩
  · obtain ⟨hstatement, c, behind, newline, hjoins, hend⟩ := entryLine_joins (s := { s with cursor := s.cursor.skipTrivia })
      hhere hx hblank (hsame.symm.trans hbracket) hs hspelled
    exact ⟨hstatement, lineEnd_joins hjoins hend hafter⟩

/-! ## Whole texts -/

/-- All lines of a text make the data that its statements make. -/
theorem LinesRun.unwrap (h : LinesRun limit s ls trailing) (hs : s.cursor.On source) (hj : s.cursor.Joins d)
    (hd : statements st d = .ok st') (ha : a.Ready g) (hadd : a.addAll ls = .ok a') (hdata : unwrapFields a.entries = st.data)
    (hheader : a.current = st.header) : unwrapFields a'.entries = st'.data := by
  induction h generalizing d st a g with
  | @done s atEnd =>
    cases hadd
    have hend : triviaRest false d.rest = [] := by
      rw [Joins] at hj
      have hnil : s.cursor.skipTrivia.rest = [] := isEmpty_iff.mp atEnd
      rw [hj, ← joinReturns_drop_triviaLength]
      exact congrArg Text.joinReturns hnil
    rcases statements_eq_ok hd with ⟨-, rfl, -⟩ | ⟨e, x, u, -, -, -, he, hx, -⟩
    · exact hdata
    · rw [he, hend] at hx
      cases hx
  | @line s s' l ls trailing notAtEnd line rest ih =>
    rcases statements_eq_ok hd with ⟨hend, -⟩ | ⟨e, x, u, m, st₁, e', he, hx, hblank, -, hspelled, haccept, b, hafter, -⟩
    · -- something other than blanks and comments is left
      rw [Joins] at hj
      rw [hj, ← joinReturns_drop_triviaLength, Text.joinReturns_eq_nil] at hend
      have hsome : s.cursor.skipTrivia.atEnd = true := isEmpty_iff.mpr hend
      rw [notAtEnd] at hsome
      cases hsome
    · obtain ⟨rfl, d', hj', hd', -⟩ := lineAt_joins hj line he hx hblank hspelled hafter
      have hkept := lineAt_kept .nothing hs line
      rw [Assembly.addAll] at hadd
      split at hadd
      · cases hadd
      · next a₁ hline =>
        have hplace' := Assembly.add_place ha hkept.proper hline
        rw [hdata, hheader, Line.place_of_accept? haccept] at hplace'
        obtain ⟨hdata', hheader'⟩ := Prod.mk.inj (Option.some.inj hplace')
        obtain ⟨g', ha₁⟩ := Assembly.ready_add ha hkept.proper hline
        exact ih (hkept.reaches.on hs) hj' hd' ha₁ hadd hdata'.symm hheader'.symm

theorem readTree_unwrap (h : readTree limit source = .ok (root, trailing))
    (hread : readDocument source = .ok data) : root.unwrap = .table data := by
  have hstatements : ∃ st, statements {} (.start (Text.joinReturns source)) = .ok st ∧ st.data = data := by
    rw [readDocument] at hread
    split at hread
    · cases hread
    · next st hst => exact ⟨st, hst, Except.ok.inj hread⟩
  obtain ⟨st, hst, rfl⟩ := hstatements
  obtain ⟨ls, hrun, hassemble⟩ := readTree_eq_ok h
  rw [assemble] at hassemble
  split at hassemble
  · cases hassemble
  · next a hadd =>
    cases hassemble
    have hdata := hrun.unwrap (start_on source) (Joins.start source) hst Assembly.ready_empty hadd rfl rfl
    rw [← hdata]
    rfl

theorem Item.unwrap_freeze (b : Bool) (x : Item) : (x.freeze b).unwrap = x.unwrap := by
  rw [← unwrap_detach [] (x.freeze b), detach_freeze, unwrap_detach]

theorem validate_eq_ok (h : validate source = .ok ()) : ∃ data, readDocument source = .ok data := by
  rw [validate] at h
  split at h
  · next data hdata => exact ⟨data, hdata⟩
  · cases h
  · cases h
  · cases h

theorem validate_of_readDocument (h : readDocument source = .ok data) : validate source = .ok () := by
  rw [validate, h]

/-- **Data agreement.** A text that is checked and read has, as a snapshot and as a document, the data that the strict
reader finds in it, with all keys in the same order. -/
theorem parse_unwrap_data {options : ReadOptions} {source : Source} {s : Snapshot} (hvalidate : options.validate = true)
    (h : parse options source = .ok s) :
    ∃ text mode data, source.load options.encoding = .ok (text, mode) ∧ readDocument text = .ok data ∧
      s.root.unwrap = .table data ∧ s.toDocument.root.unwrap = .table data := by
  rw [parse] at h
  split at h
  · cases h
  · next text mode hload =>
    rw [parseText, if_pos hvalidate] at h
    split at h
    · cases h
    · next hvalid =>
      obtain ⟨data, hdata⟩ := validate_eq_ok hvalid
      split at h
      · cases h
      · next root trailing htree =>
        cases h
        have hread : readTree options.maxNesting text = .ok (root, trailing) := by
          rw [parseTree] at htree
          split at htree
          · next tree hread =>
            cases htree
            exact hread
          · cases htree
        have hunwrap : (root.freeze true).unwrap = .table data := by
          rw [unwrap_freeze, readTree_unwrap hread hdata]
        exact ⟨text, mode, data, hload, hdata, hunwrap, (unwrap_detach _ _).trans hunwrap⟩

/-- Both line terminators, tables out of order, dotted keys in and out of inline tables, strings over several lines and a
date with a time behind a space. -/
def mixedText : String :=
  "a.b = 1\r\n[t.u]\r\nk = \"\"\"\r\nx\\\r\n y\"\"\"\"\r\n[[p]]\nq.'r' = 1979-05-27 07:32:00 # then\n[t]\ns = \x7bm.n = [1, 'z'], m.o = 0x1F\x7d\n[[p]]"

theorem parse_unwrap_mixed :
    ∃ s, ({} : ReadOptions).validate = true ∧ parse {} (.text mixedText) = .ok s ∧
      ∃ text mode data, (Source.text mixedText).load ({} : ReadOptions).encoding = .ok (text, mode) ∧
        readDocument text = .ok data ∧ s.root.unwrap = .table data ∧ s.toDocument.root.unwrap = .table data := by
  cases h : parse {} (.text mixedText) with
  | error e =>
    have hok : (parse {} (.text mixedText)).isOk = true := by decide +kernel
    rw [h] at hok
    cases hok
  | ok s => exact ⟨s, rfl, rfl, parse_unwrap_data rfl h⟩

end Verbatim

import Verbatim.KeyPath
import Verbatim.Proofs.SpelledValues

/-!
# Key paths are read completely

A key path is read as a line of its own, with a value behind it. Whatever the segments are, the scanner of lines finds one
entry in that line, below tables that have the names of the leading segments and one entry each.

## Main definitions

- `IsSegment` - a text that the strict reader takes whole for a key.
- `KeyText` - segments between points, with blanks around them.

## Main statements

- `key_texts_split` - the names of a key path are those of its segments.
-/

namespace Verbatim

open List DataReader Text Cursor

variable {a t u : List Char} {name : String} {names : List String}

/-! ## Texts of key paths -/

/-- A text that the strict reader takes whole for a key. -/
def IsSegment (t : List Char) (name : String) : Prop := ∃ d, keyPart (.start t) = .ok (name, d) ∧ d.rest = []

/-- A key path: segments between points, with blanks around them. -/
inductive KeyText : List Char → List String → Prop where
  | last {a t b : List Char} {name : String} (before : Blanks a) (segment : IsSegment t name) (after : Blanks b) :
      KeyText (a ++ (t ++ b)) [name]
  /-- A segment with a point and more segments behind it. -/
  | point {a t b u : List Char} {name : String} {names : List String} (before : Blanks a) (segment : IsSegment t name)
      (after : Blanks b) (rest : KeyText u names) : KeyText (a ++ (t ++ (b ++ '.' :: u))) (name :: names)

/-- A segment is a bare key or a string on one line. -/
theorem IsSegment.form (h : IsSegment t name) : KeyForm t name := by
  obtain ⟨d, hd, hnil⟩ := h
  cases t with
  | nil => cases hd
  | cons x u =>
    by_cases hquoted : x = '"' ∨ x = '\''
    · obtain ⟨literal, rfl⟩ := exists_markOf hquoted
      obtain ⟨text, hstring, rfl⟩ := (keyPart_quoted_iff (startsWith_singleton.mpr ⟨u, rfl⟩)).mp hd
      obtain ⟨v, hv, hrun⟩ := lineString_run hstring
      obtain rfl : u = v := by rwa [hnil, append_nil] at hv
      exact .quoted hrun
    · rw [not_or] at hquoted
      by_cases hbare : isBareKeyChar x = true
      · have hkey : keyPart (.start (x :: u)) = .ok (String.ofList ((x :: u).takeWhile isBareKeyChar), _) := if_pos hbare
        rw [hkey] at hd
        cases hd
        have hall : ∀ y ∈ x :: u, isBareKeyChar y = true := dropWhile_eq_nil_iff.mp hnil
        rw [takeWhile_eq_self_iff.mpr hall]
        exact .bare (by simp) hall
      · simp only [keyPart, Cursor.start, hbare, hquoted.1, hquoted.2, if_false] at hd
        cases hd

/-- A written key is a segment. -/
theorem isSegment_key (name : String) : IsSegment (Literal.key name).toList name :=
  have hplain := (Literal.keyForm name).plain
  (keySpelled_key name).read (.start (Literal.key name).toList) []
    (by rw [append_nil, joinReturns_eq_self fun x hx => (hplain x hx).2]; rfl) (by rintro x ⟨⟩)

/-- Written keys with points between them are a key path. -/
theorem keyText_intercalate (h : names ≠ []) : KeyText (".".intercalate (names.map Literal.key)).toList names := by
  induction names with
  | nil => exact absurd rfl h
  | cons name names ih =>
    cases names with
    | nil => simpa using KeyText.last .nil (isSegment_key name) .nil
    | cons name' names => simpa using KeyText.point .nil (isSegment_key name) .nil (ih (by simp))

/-- The strict reader finds the names of a key path, behind the blanks at its head and with more blanks behind it. -/
theorem KeyText.spelled (h : KeyText t names) :
    ∃ a u, t = a ++ u ∧ Blanks a ∧ ∀ b, Blanks b → PathSpelled (u ++ b) names := by
  induction h with
  | last before segment after =>
    refine ⟨_, _, rfl, before, fun b hb => ?_⟩
    rw [append_assoc]
    exact .last segment.form.spelled (forall_mem_append.mpr ⟨after, hb⟩)
  | point before segment after _ ih =>
    obtain ⟨a', u, rfl, ha', hu⟩ := ih
    refine ⟨_, _, rfl, before, fun b hb => ?_⟩
    simpa using PathSpelled.cons segment.form.spelled after ha' (hu b hb)

/-! ## A text of one entry -/

/-- A text of one entry, with blanks before it, is one line. -/
theorem sourceLines_entry (ha : Blanks a) (hu : StatementSpelled limit u (.entry names v))
    (hkey : ∀ x ∈ u.head?, x ≠ '[') :
    ∃ l trailing, sourceLines limit (a ++ u) = ([.entry l], .ok trailing) ∧ (Line.entry l).statement = .entry names v := by
  obtain ⟨x, w, rfl, hblank, hfeed, hreturn, hcomment⟩ := hu.head
  -- both readers begin the line behind the blanks
  have hskip : ((start (joinReturns (a ++ x :: w))).skipWhile isBlank).rest = joinReturns (x :: w) :=
    skipWhile_joinReturns ha rfl (by rw [joinReturns_cons_of_ne _ hreturn]; rintro y ⟨⟩; exact hblank)
  have htrivia := triviaRest_skipBlanks (start (joinReturns (a ++ x :: w)))
  generalize (start (joinReturns (a ++ x :: w))).skipWhile isBlank = e at hskip htrivia
  have hx : e.rest = x :: joinReturns w := hskip.trans (joinReturns_cons_of_ne _ hreturn)
  have hhere : (start (a ++ x :: w)).skipTrivia.Joins e := (Joins.start _).triviaRest (by
    rw [← htrivia, hx, triviaRest]
    simp [isBlankOrNewline, hblank, hfeed, hcomment])
  have hno : e.startsWith ['['] = false := by
    simp [startsWith, hx, List.isPrefixOf, (hkey x rfl).symm]
  have hrest : e.rest = joinReturns (x :: w ++ []) := by rwa [append_nil]
  obtain ⟨d, hstatement, hend⟩ := hu.read e [] hrest (by rintro y ⟨⟩)
  have hnil : (d.skipWhile isBlank).rest = [] := by rw [skipWhile, hend]; rfl
  have hcomment' : DataReader.skipComment (d.skipWhile isBlank) = .ok (d.skipWhile isBlank) :=
    skipComment_of_ne (by rw [startsWith, hnil]; rfl)
  have hafter : afterStatement e d {} = .ok {} := by
    rw [afterStatement, hcomment']
    simp only [hnil]
  have hnests := hu.nests {} e [] hrest (by rintro y ⟨⟩) hno
  obtain ⟨l, s, hline, -⟩ := entryLine_accepts limit 0 (s := ⟨(start (a ++ x :: w)).skipTrivia, 0⟩) hhere hx hblank hno
    hstatement hafter hnests
  obtain ⟨hl, c, behind, newline, hc, hlineEnd⟩ := entryLine_joins hhere hx hblank hno hline hstatement
  -- nothing follows the line
  have hdone : s.cursor.rest = [] := by
    rcases (hc.skipBlanks.skipComment hcomment').lineEnd hlineEnd with ⟨-, hdone⟩ | ⟨v, hv, -⟩
    · exact hdone
    · rw [hnil] at hv
      cases hv
  have hlast : scanLines limit s = ([], .ok (.between s.cursor.pos s.cursor.skipTrivia.pos)) := by
    rw [scanLines, if_pos (by simp [atEnd, skipTrivia, Cursor.drop, hdone])]
  have hmore : (start (a ++ x :: w)).skipTrivia.atEnd = false := by
    rw [Bool.eq_false_iff, ne_eq, atEnd, List.isEmpty_iff, ← hhere.rest_eq_nil, hx]
    simp
  have hfirst : lineAt limit ⟨start (a ++ x :: w), 0⟩ = .ok (l, s) := by
    rw [lineAt]
    dsimp only
    rw [hhere.startsWith_eq (by simp), hno]
    exact hline
  have hlength : s.cursor.rest.length < (start (a ++ x :: w)).rest.length := by
    rw [hdone]
    exact length_pos_iff.mpr (by simp [start])
  have hlines := scanLines_cons hmore hfirst hlength hlast
  cases l with
  | header h =>
    rw [Line.statement] at hl
    split at hl <;> cases hl
  | entry l => exact ⟨l, _, hlines, hl⟩

/-! ## The tree of one entry -/

namespace Item

theorem leadingPath?_freeze (b : Bool) (x : Item) : (x.freeze b).leadingPath? = x.leadingPath? := by
  induction x using inductionOn with
  | table i f es ih =>
    cases es with
    | nil => rfl
    | cons e es => simp only [freeze, freezeEntries, leadingPath?, leadingEntries?, ih e mem_cons_self]
  | _ => rfl

end Item

/-- The names on the way to an entry below its dotted key, where nothing else stands. -/
theorem insertDotted_nil (leaf : Entry Item) (path : List Key) :
    ∃ es, insertDotted dottedTable leaf path [] = .ok es ∧
      Item.leadingEntries? es = leaf.item.leadingPath?.map (path.map Key.name ++ leaf.name :: ·) := by
  induction path with
  | nil => exact ⟨[leaf], rfl, rfl⟩
  | cons k path ih =>
    obtain ⟨es, hes, hnames⟩ := ih
    refine ⟨[{ key := k.bare, item := dottedTable.withEntries es }], ?_, ?_⟩
    · rw [insertDotted, hes]
      rfl
    · show (Item.leadingEntries? es).map (k.name :: ·) = _
      rw [hnames, Option.map_map]
      rfl

theorem Item.leadingPath?_of_unwrap {x : Item} (h : x.unwrap = .integer n) : x.leadingPath? = some [] := by
  cases x with
  | table i f es => cases h
  | _ => rfl

/-- Without the strict reader, a text of one entry has a tree of one entry. -/
theorem parseText_entry {v : Plain} (hv : v = .integer n) (ha : Blanks a)
    (hu : StatementSpelled 64 u (.entry names v)) (hkey : ∀ x ∈ u.head?, x ≠ '[') (mode : SourceMode) :
    ∃ s, parseText { validate := false } mode (a ++ u) = .ok s ∧ s.root.leadingPath? = some names := by
  obtain ⟨l, trailing, hlines, hl⟩ := sourceLines_entry ha hu hkey
  obtain ⟨es, hes, hnames⟩ := insertDotted_nil l.entry l.path
  have hadd : ({} : Assembly).add (.entry l) = .ok ⟨es, []⟩ := by
    rw [Assembly.add, attachEntry, hes]
  have htree : readTree 64 (a ++ u) = .ok (Item.emptyRoot.withEntries es, trailing) := by
    simp only [readTree, hlines, assemble, Assembly.addAll, hadd]
  refine ⟨⟨(Item.emptyRoot.withEntries es).freeze true, trailing, String.ofList (a ++ u), mode⟩, ?_, ?_⟩
  · simp only [parseText, parseTree, htree, Bool.false_eq_true, if_false]
  · obtain ⟨hpath, hvalue⟩ : (l.path ++ [l.leaf]).map Key.name = names ∧ l.value.unwrap = v := by
      simpa [Line.statement] using hl
    have hleaf : l.entry.item.leadingPath? = some [] := Item.leadingPath?_of_unwrap (hvalue.trans hv)
    rw [Item.leadingPath?_freeze]
    show Item.leadingEntries? es = _
    rw [hnames, hleaf, ← hpath, map_append]
    rfl

/-- The names of a key path are those of its segments. -/
theorem KeyText.split (h : KeyText text.toList names) : splitKeyPath text = .ok names := by
  obtain ⟨a, u, htext, ha, hu⟩ := h.spelled
  have hpath := hu [' '] blanks_space
  obtain ⟨x, w, hx, hstart⟩ := hpath.head
  have hzero : ScalarSpelled "0".toList (.integer 0) := by
    obtain ⟨t, ht, hzero⟩ := scalarSpelled_literal (.integer (n := 0) (by decide +kernel))
    have hsmall : Literal.tooManyDigits 0 = false := by decide +kernel
    have hliteral : Literal.ofPlain (.integer 0) = .ok "0" := by
      simp only [Literal.ofPlain, Literal.scalar?, hsmall, Bool.false_eq_true, if_false]
      rfl
    rw [hliteral] at ht
    exact Except.ok.inj ht ▸ hzero
  have hentry := statementSpelled_entry hpath blanks_space (hzero.value 64 nestingLevels)
  obtain ⟨s, hs, hnames⟩ := parseText_entry rfl ha hentry
    (by rw [hx]; rintro y ⟨⟩; exact (plain_of_isKeyStart hstart).2.2.2.2.1) .borrowed
  have hread : readKeyPath text = .ok s := by
    rw [readKeyPath, ← hs, String.toList_append, htext, append_assoc, append_assoc]
    rfl
  rw [splitKeyPath, hread]
  simp only [hnames]

/-- **Key paths.** The names of a key path are those of its segments, and written keys with points between them are read back. -/
theorem key_texts_split :
    (∀ text names, KeyText text.toList names → splitKeyPath text = .ok names) ∧
      ∀ names : List String, names ≠ [] → splitKeyPath (".".intercalate (names.map Literal.key)) = .ok names :=
  ⟨fun _ _ h => h.split, fun _ h => (keyText_intercalate h).split⟩

theorem key_texts_split_quoted :
    KeyText " a . \"b\\n.\" .'c = #'.\"\"".toList ["a", "b\n.", "c = #", ""] ∧
      splitKeyPath " a . \"b\\n.\" .'c = #'.\"\"" = .ok ["a", "b\n.", "c = #", ""] ∧
      splitKeyPath (".".intercalate (["", "x.y"].map Literal.key)) = .ok ["", "x.y"] := by
  have htext : " a . \"b\\n.\" .'c = #'.\"\"".toList =
      " ".toList ++ ("a".toList ++ (" ".toList ++ '.' :: (" ".toList ++ ("\"b\\n.\"".toList ++ (" ".toList ++ '.' ::
        ([] ++ ("'c = #'".toList ++ ([] ++ '.' :: ([] ++ ("\"\"".toList ++ [])))))))))) := by decide +kernel
  have ha : IsSegment "a".toList "a" := ⟨⟨1, []⟩, by decide +kernel, rfl⟩
  have hb : IsSegment "\"b\\n.\"".toList "b\n." := ⟨⟨6, []⟩, by decide +kernel, rfl⟩
  have hc : IsSegment "'c = #'".toList "c = #" := ⟨⟨7, []⟩, by decide +kernel, rfl⟩
  have hd : IsSegment "\"\"".toList "" := ⟨⟨2, []⟩, by decide +kernel, rfl⟩
  have hkey : KeyText " a . \"b\\n.\" .'c = #'.\"\"".toList ["a", "b\n.", "c = #", ""] := by
    rw [htext]
    exact .point blanks_space ha blanks_space (.point blanks_space hb blanks_space (.point .nil hc .nil (.last .nil hd .nil)))
  exact ⟨hkey, key_texts_split.1 _ _ hkey, key_texts_split.2 ["", "x.y"] (by simp)⟩

/-! ## Texts of several lines -/

/-- A key path is one line. -/
theorem KeyText.line (h : KeyText t names) : '\n' ∉ t := by
  have hblanks : ∀ {a : List Char}, Blanks a → '\n' ∉ a := fun ha hmem => absurd (ha _ hmem) (by decide)
  have hsegment : ∀ {t : List Char} {name : String}, IsSegment t name → '\n' ∉ t := fun h hmem => (h.form.plain _ hmem).1 rfl
  induction h with
  | last before segment after => simp [hblanks before, hsegment segment, hblanks after]
  | point before segment after rest ih => simp [hblanks before, hsegment segment, hblanks after, ih]

/-- A text of two lines is read as the key path of the first one. -/
theorem second_line_splits : splitKeyPath "a = 1\nb" = .ok ["a"] ∧ ∀ names, ¬KeyText "a = 1\nb".toList names :=
  ⟨by decide +kernel, fun _ h => h.line (by decide)⟩

end Verbatim

import Verbatim.Proofs.Joined

/-!
# Steps of the strict reader

What each step of the strict reader does where it succeeds, as equations on its cursors.
-/

namespace Verbatim.DataReader

open List Cursor Fields

variable {c d : Cursor} {x : Char} {t u : List Char} {inner : Cursor → Step Plain} {path : List String} {v : Plain}
  {s s' : Reading}

/-! ## Values -/

theorem skipWhile_of_head (h : ∀ x ∈ c.rest.head?, p x = false) : c.skipWhile p = c := by
  obtain ⟨pos, rest⟩ := c
  cases rest with
  | nil => rfl
  | cons x rest => simp [skipWhile, h x rfl]

theorem valueWith_scalar (inner : Cursor → Step Plain) (hc : c.rest = x :: u) (hx : x ≠ '[' ∧ x ≠ '\x7b') :
    valueWith inner c = scalar c := by
  have harray : c.startsWith ['['] = false := by simp [startsWith, hc, isPrefixOf, hx.1.symm]
  have htable : c.startsWith ['\x7b'] = false := by simp [startsWith, hc, isPrefixOf, hx.2.symm]
  rw [valueWith, harray, htable]
  rfl

theorem value_scalar (levels : Nat) (hc : c.rest = x :: u) (hx : x ≠ '[' ∧ x ≠ '\x7b') : value levels c = scalar c := by
  cases levels with
  | _ => exact valueWith_scalar _ hc hx

theorem keyValue_iff :
    keyValue inner c = .ok ((path, v), d) ↔ ∃ e t, keyPath c = .ok (path, e) ∧ e.rest = '=' :: t ∧
      inner (e.next.skipWhile isBlank) = .ok (v, d) := by
  rw [keyValue]
  constructor
  · intro h
    split at h
    · cases h
    · next p e hpath =>
      split at h
      · next t ht =>
        split at h
        · cases h
        · next w g hinner =>
          cases h
          exact ⟨e, t, hpath, ht, hinner⟩
      · cases h
  · rintro ⟨e, t, hpath, ht, hinner⟩
    simp only [hpath, ht, hinner]

/-! ## Key paths -/

/-- A key path is one segment, or a segment, a point and a key path. -/
theorem keyPath_eq_ok (h : keyPath c = .ok (names, d)) :
    ∃ name e, keyPart c = .ok (name, e) ∧
      (((e.skipWhile isBlank).startsWith ['.'] = false ∧ names = [name] ∧ d = e.skipWhile isBlank) ∨
        ((e.skipWhile isBlank).startsWith ['.'] = true ∧ ∃ names', names = name :: names' ∧
          keyPath ((e.skipWhile isBlank).next.skipWhile isBlank) = .ok (names', d))) := by
  rw [keyPath] at h
  split at h
  · cases h
  · next name e hpart =>
    refine ⟨name, e, hpart, ?_⟩
    dsimp only at h
    split at h
    · next t ht =>
      split at h
      · split at h
        · cases h
        · next names' g hrest =>
          cases h
          exact .inr ⟨startsWith_singleton.mpr ⟨t, ht⟩, names', rfl, hrest⟩
      · cases h
    · next hpoint =>
      cases h
      refine .inl ⟨?_, rfl, rfl⟩
      rw [Bool.eq_false_iff]
      intro hstarts
      obtain ⟨t, ht⟩ := startsWith_singleton.mp hstarts
      exact hpoint t ht

/-! ## Arrays -/

/-- The elements of an array from any place where one may begin, up to behind the closing bracket. -/
def arrayRest (inner : Cursor → Step Plain) (c : Cursor) : Step (List Plain) :=
  match skipBlanks c with
  | .error f => .error f
  | .ok d => if d.startsWith [']'] then .ok ([], d.next) else arrayElements inner d

theorem array_eq_ok (h : array inner c = .ok (v, d)) : ∃ vs, v = .list vs ∧ arrayRest inner c.next = .ok (vs, d) := by
  rw [array] at h
  split at h
  · cases h
  · next e he =>
    rw [arrayRest, he]
    dsimp only
    split at h
    · next hclose =>
      cases h
      exact ⟨[], rfl, by rw [if_pos hclose]⟩
    · next hclose =>
      rw [if_neg hclose]
      split at h
      · cases h
      · next vs e' hvs =>
        cases h
        exact ⟨vs, rfl, hvs⟩

/-- An element is the last one, or a comma and the rest of the array follow. -/
theorem arrayElements_eq_ok (h : arrayElements inner c = .ok (vs, d)) :
    ∃ v c₁ c₂, inner c = .ok (v, c₁) ∧ skipBlanks c₁ = .ok c₂ ∧
      ((c₂.startsWith [']'] = true ∧ vs = [v] ∧ d = c₂.next) ∨
        (c₂.startsWith [','] = true ∧ ∃ vs', vs = v :: vs' ∧ arrayRest inner c₂.next = .ok (vs', d))) := by
  revert h
  fun_cases arrayElements inner c with
  | case1 | case2 | case4 | case6 | case8 | case9 => nofun
  | case3 v c₁ hinner c₂ hblanks t ht =>
    rintro ⟨⟩
    exact ⟨v, c₁, c₂, hinner, hblanks, .inl ⟨startsWith_singleton.mpr ⟨t, ht⟩, rfl, rfl⟩⟩
  | case5 v c₁ hinner c₂ hblanks t ht c₃ hblanks' hclose =>
    rintro ⟨⟩
    refine ⟨v, c₁, c₂, hinner, hblanks, .inr ⟨startsWith_singleton.mpr ⟨t, ht⟩, [], rfl, ?_⟩⟩
    simp only [arrayRest, hblanks', if_pos hclose]
  | case7 v c₁ hinner c₂ hblanks t ht c₃ hblanks' hclose _ vs' e hrest =>
    rintro ⟨⟩
    refine ⟨v, c₁, c₂, hinner, hblanks, .inr ⟨startsWith_singleton.mpr ⟨t, ht⟩, vs', rfl, ?_⟩⟩
    simp only [arrayRest, hblanks', if_neg hclose, hrest]

/-! ## Inline tables -/

/-- Adding to an inline table: no value on the way is closed, and the name is new in the table at its path. -/
theorem addInline_eq_ok (h : addInline marks fields path v c = .ok fields') :
    marks.isClosed path = false ∧
      fields.atPath false (add? (path.getLastD "") v) path.dropLast = some fields' := by
  rw [addInline] at h
  split at h
  · cases h
  · next hclosed =>
    split at h
    · cases h
    · split at h
      · cases h
      · next hadd =>
        cases h
        exact ⟨by simpa using hclosed, hadd⟩

/-- An entry is the last one, or a comma and further entries follow. -/
theorem inlineEntries_eq_ok (h : inlineEntries inner marks fields c = .ok (fields', d)) :
    ∃ path v c₁ fields₁, keyValue inner c = .ok ((path, v), c₁) ∧ marks.isClosed path = false ∧
      fields.atPath false (add? (path.getLastD "") v) path.dropLast = some fields₁ ∧
      (((c₁.skipWhile isBlank).startsWith ['\x7d'] = true ∧ fields' = fields₁ ∧ d = (c₁.skipWhile isBlank).next) ∨
        ((c₁.skipWhile isBlank).startsWith [','] = true ∧
          inlineEntries inner (if isContainer v then marks.close path else marks) fields₁
            ((c₁.skipWhile isBlank).next.skipWhile isBlank) = .ok (fields', d))) := by
  rw [inlineEntries] at h
  split at h
  · cases h
  · next path v c₁ hvalue =>
    split at h
    · cases h
    · next fields₁ hadd =>
      obtain ⟨hclosed, hadd⟩ := addInline_eq_ok hadd
      refine ⟨path, v, c₁, fields₁, hvalue, hclosed, hadd, ?_⟩
      dsimp only at h
      split at h
      · next t ht =>
        cases h
        exact .inl ⟨startsWith_singleton.mpr ⟨t, ht⟩, rfl, rfl⟩
      · next t ht =>
        split at h
        · exact .inr ⟨startsWith_singleton.mpr ⟨t, ht⟩, h⟩
        · cases h
      · cases h

theorem inlineTable_eq_ok (h : inlineTable inner c = .ok (v, d)) :
    ((c.next.skipWhile isBlank).startsWith ['\x7d'] = true ∧ v = .table [] ∧ d = (c.next.skipWhile isBlank).next) ∨
      ((c.next.skipWhile isBlank).startsWith ['\x7d'] = false ∧ ∃ fields, v = .table fields ∧
        inlineEntries inner .blank [] (c.next.skipWhile isBlank) = .ok (fields, d)) := by
  rw [inlineTable] at h
  split at h
  · next hclose =>
    cases h
    exact .inl ⟨hclose, rfl, rfl⟩
  · next hclose =>
    split at h
    · cases h
    · next fields e hentries =>
      cases h
      exact .inr ⟨by simpa using hclose, fields, rfl, hentries⟩

/-! ## Statements -/

/-- A statement without its spelling. -/
inductive Statement where
  /-- A header that opens a table. -/
  | table (path : List String)
  /-- A header that appends a table to an array of tables. -/
  | array (path : List String)
  | entry (path : List String) (v : Plain)

/-- What has been read with one more statement, if it is accepted. -/
def Statement.accept? (s : Reading) : Statement → Option Reading
  | .table path =>
    if s.settle.marks.isDeclared path || s.settle.marks.isClosed path then none
    else
      (s.data.atPath true some path).map fun data =>
        { s.settle with data := data, marks := s.settle.marks.declare path, header := path }
  | .array path =>
    if s.settle.marks.isClosed path then none
    else
      (s.data.atPath true (grow? (path.getLastD "")) path.dropLast).map fun data =>
        { s.settle with data := data, marks := (s.settle.marks.forget path).declare path, header := path }
  | .entry path v =>
    if (dottedParents s.header path).any (s.marks.isDeclared ·) || s.marks.isClosed (s.header ++ path.dropLast) then none
    else
      (s.data.atPath true (add? (path.getLastD "") v) (s.header ++ path.dropLast)).map fun data =>
        { s with
          data := data
          marks := if isContainer v then s.marks.close (s.header ++ path) else s.marks
          pending := s.pending ++ dottedParents s.header path }

/-- A table header is accepted if its path is neither declared nor closed. -/
theorem Statement.accept?_table :
    (Statement.table path).accept? s = some s' ↔ ∃ data, s.settle.marks.isDeclared path = false ∧
      s.settle.marks.isClosed path = false ∧ s.data.atPath true some path = some data ∧
      s' = { s.settle with data := data, marks := s.settle.marks.declare path, header := path } := by
  rw [accept?]
  constructor
  · intro h
    split at h
    · cases h
    · next hmarks =>
      rw [Bool.or_eq_true, not_or] at hmarks
      obtain ⟨data, hdata, rfl⟩ := Option.map_eq_some_iff.mp h
      exact ⟨data, by simpa using hmarks.1, by simpa using hmarks.2, hdata, rfl⟩
  · rintro ⟨data, hdeclared, hclosed, hdata, rfl⟩
    simp only [hdeclared, hclosed, hdata, Bool.or_false, Bool.false_eq_true, if_false, Option.map_some]

/-- A header of an array of tables is accepted if its path is not closed; all marks below it are dropped. -/
theorem Statement.accept?_array :
    (Statement.array path).accept? s = some s' ↔ ∃ data, s.settle.marks.isClosed path = false ∧
      s.data.atPath true (grow? (path.getLastD "")) path.dropLast = some data ∧
      s' = { s.settle with data := data, marks := (s.settle.marks.forget path).declare path, header := path } := by
  rw [accept?]
  constructor
  · intro h
    split at h
    · cases h
    · next hclosed =>
      obtain ⟨data, hdata, rfl⟩ := Option.map_eq_some_iff.mp h
      exact ⟨data, by simpa using hclosed, hdata, rfl⟩
  · rintro ⟨data, hclosed, hdata, rfl⟩
    simp only [hclosed, hdata, Bool.false_eq_true, if_false, Option.map_some]

/-- An entry is accepted if no table of its dotted key is declared, nothing on its way is closed, and its name is new. -/
theorem Statement.accept?_entry :
    (Statement.entry path v).accept? s = some s' ↔ ∃ data,
      (∀ p ∈ dottedParents s.header path, s.marks.isDeclared p = false) ∧
      s.marks.isClosed (s.header ++ path.dropLast) = false ∧
      s.data.atPath true (add? (path.getLastD "") v) (s.header ++ path.dropLast) = some data ∧
      s' = { s with
        data := data
        marks := if isContainer v then s.marks.close (s.header ++ path) else s.marks
        pending := s.pending ++ dottedParents s.header path } := by
  rw [accept?]
  constructor
  · intro h
    split at h
    · cases h
    · next hmarks =>
      rw [Bool.or_eq_true, not_or] at hmarks
      obtain ⟨data, hdata, rfl⟩ := Option.map_eq_some_iff.mp h
      refine ⟨data, ?_, by simpa using hmarks.2, hdata, rfl⟩
      intro p hp
      simpa using any_eq_false.mp (by simpa using hmarks.1) p hp
  · rintro ⟨data, hparents, hclosed, hdata, rfl⟩
    have hany : (dottedParents s.header path).any (s.marks.isDeclared ·) = false := by
      rw [any_eq_false]
      intro p hp
      simp [hparents p hp]
    simp only [hany, hclosed, hdata, Bool.or_false, Bool.false_eq_true, if_false, Option.map_some]

theorem keyValueStatement_iff :
    keyValueStatement s c = .ok (s', d) ↔ ∃ path v, keyValue (value nestingLevels) c = .ok ((path, v), d) ∧
      (Statement.entry path v).accept? s = some s' := by
  simp only [Statement.accept?_entry]
  constructor
  · intro h
    rw [keyValueStatement] at h
    split at h
    · cases h
    · next path v e hvalue =>
      dsimp only at h
      split at h
      · cases h
      · next hparents =>
        split at h
        · cases h
        · next hclosed =>
          split at h
          · cases h
          · next data hdata =>
            cases h
            refine ⟨path, v, hvalue, data, ?_, by simpa using hclosed, hdata, rfl⟩
            intro p hp
            simpa using find?_eq_none.mp hparents p hp
  · rintro ⟨path, v, hvalue, data, hparents, hclosed, hdata, rfl⟩
    have hfind : (dottedParents s.header path).find? (s.marks.isDeclared ·) = none := by
      rw [find?_eq_none]
      intro p hp
      simp [hparents p hp]
    simp only [keyValueStatement, hvalue, hfind, hclosed, hdata, Bool.false_eq_true, if_false]

theorem tableStatement_iff :
    tableStatement s.settle c = .ok (s', d) ↔ ∃ path e, keyPath (c.next.skipWhile isBlank) = .ok (path, e) ∧
      e.startsWith [']'] = true ∧ d = e.next ∧ (Statement.table path).accept? s = some s' := by
  simp only [Statement.accept?_table]
  constructor
  · intro h
    rw [tableStatement] at h
    split at h
    · cases h
    · next path e hpath =>
      split at h
      · cases h
      · next hmarks =>
        split at h
        · cases h
        · next data hdata =>
          split at h
          · next hclose =>
            cases h
            rw [Bool.or_eq_true, not_or] at hmarks
            exact ⟨path, e, hpath, hclose, rfl, data, by simpa using hmarks.1, by simpa using hmarks.2, hdata, rfl⟩
          · cases h
  · rintro ⟨path, e, hpath, hclose, rfl, data, hdeclared, hclosed, hdata, rfl⟩
    have hdata' : s.settle.data.atPath true some path = some data := hdata
    simp only [tableStatement, hpath, hdeclared, hclosed, hdata', hclose, Bool.or_false, Bool.false_eq_true, if_false,
      if_true]

theorem arrayStatement_iff :
    arrayStatement s.settle c = .ok (s', d) ↔ ∃ path e, keyPath ((c.drop 2).skipWhile isBlank) = .ok (path, e) ∧
      e.startsWith [']', ']'] = true ∧ d = e.drop 2 ∧ (Statement.array path).accept? s = some s' := by
  simp only [Statement.accept?_array]
  constructor
  · intro h
    rw [arrayStatement] at h
    split at h
    · cases h
    · next path e hpath =>
      split at h
      · cases h
      · next hclosed =>
        split at h
        · cases h
        · next data hdata =>
          split at h
          · next hclose =>
            cases h
            exact ⟨path, e, hpath, hclose, rfl, data, by simpa using hclosed, hdata, rfl⟩
          · cases h
  · rintro ⟨path, e, hpath, hclose, rfl, data, hclosed, hdata, rfl⟩
    have hdata' : s.settle.data.atPath true (grow? (path.getLastD "")) path.dropLast = some data := hdata
    simp only [arrayStatement, hpath, hclosed, hdata', hclose, Bool.false_eq_true, if_false, if_true]

/-- A header is read if its key path and its closing brackets are, and if it is accepted. -/
theorem headerStatement_iff (isArray : Bool) :
    (if isArray then arrayStatement s.settle c else tableStatement s.settle c) = .ok (s', d) ↔
      ∃ path e, keyPath ((c.drop (if isArray then 2 else 1)).skipWhile isBlank) = .ok (path, e) ∧
        e.startsWith (replicate (if isArray then 2 else 1) ']') = true ∧ d = e.drop (if isArray then 2 else 1) ∧
        (if isArray then Statement.array path else .table path).accept? s = some s' := by
  cases isArray with
  | true => exact arrayStatement_iff
  | false => exact tableStatement_iff

theorem statement_header (h : d.startsWith ['['] = true) :
    statement st d = if d.startsWith ['[', '['] then arrayStatement st.settle d else tableStatement st.settle d := by
  obtain ⟨u, hu⟩ := startsWith_singleton.mp h
  have htwo : d.startsWith ['[', '['] = d.next.startsWith ['['] := by
    rw [Cursor.startsWith, Cursor.startsWith, Cursor.next, Cursor.drop, hu]
    rfl
  rw [statement, hu, htwo]
  rfl

/-- The statement that is spelled at a cursor, whatever has been read before. -/
def statementAt (c : Cursor) : Option (Statement × Cursor) :=
  if c.startsWith ['['] then
    let isArray := c.startsWith ['[', '[']
    let n := if isArray then 2 else 1
    match keyPath ((c.drop n).skipWhile isBlank) with
    | .error _ => none
    | .ok (path, d) =>
      if d.startsWith (replicate n ']') then some (if isArray then .array path else .table path, d.drop n) else none
  else
    match keyValue (value nestingLevels) c with
    | .error _ => none
    | .ok ((path, v), d) => some (.entry path v, d)

/-- A header has one bracket or two on each side. -/
theorem statementAt_header (h : c.startsWith ['['] = true)
    (harray : c.startsWith ['[', '['] = isArray) :
    statementAt c = some (l, d) ↔ ∃ path e, keyPath ((c.drop (if isArray then 2 else 1)).skipWhile isBlank) = .ok (path, e) ∧
      e.startsWith (replicate (if isArray then 2 else 1) ']') = true ∧
      l = (if isArray then .array path else .table path) ∧ d = e.drop (if isArray then 2 else 1) := by
  rw [statementAt, if_pos h]
  simp only [harray]
  constructor
  · intro h
    split at h
    · cases h
    · next path e hpath =>
      by_cases hclose : e.startsWith (replicate (if isArray then 2 else 1) ']') = true
      · rw [if_pos hclose] at h
        cases h
        exact ⟨path, e, hpath, hclose, rfl, rfl⟩
      · rw [if_neg hclose] at h
        cases h
  · rintro ⟨path, e, hpath, hclose, rfl, rfl⟩
    simp only [hpath, hclose, if_true]

theorem statementAt_entry (h : c.startsWith ['['] = false) :
    statementAt c = some (l, d) ↔ ∃ path v, keyValue (value nestingLevels) c = .ok ((path, v), d) ∧ l = .entry path v := by
  rw [statementAt, h, if_neg Bool.false_ne_true]
  constructor
  · intro h
    split at h
    · cases h
    · next path v e hvalue =>
      cases h
      exact ⟨path, v, hvalue, rfl⟩
  · rintro ⟨path, v, hvalue, rfl⟩
    simp only [hvalue]

/-- A key begins with a character of bare keys or with a quotation mark. -/
theorem keyPath_head (hx : c.rest = x :: u) (h : keyPath c = .ok (path, d)) :
    (isBareKeyChar x || x == '"' || x == '\'') = true := by
  obtain ⟨name, e, hpart, -⟩ := keyPath_eq_ok h
  rw [keyPart, hx] at hpart
  dsimp only at hpart
  by_cases hbare : isBareKeyChar x = true
  · rw [hbare]
    rfl
  · rw [if_neg hbare] at hpart
    by_cases hliteral : x = '\''
    · simp [hliteral]
    · by_cases hbasic : x = '"'
      · simp [hbasic]
      · rw [if_neg hliteral, if_neg hbasic] at hpart
        cases hpart

/-- A statement is read if one is spelled and it is accepted. -/
theorem statement_iff (hx : c.rest = x :: u) (hcomment : x ≠ '#') :
    statement s c = .ok (s', d) ↔ ∃ l, statementAt c = some (l, d) ∧ l.accept? s = some s' := by
  cases hbracket : c.startsWith ['['] with
  | true =>
    rw [statement_header hbracket, headerStatement_iff]
    simp only [statementAt_header hbracket rfl]
    constructor
    · rintro ⟨path, e, hpath, hclose, rfl, haccept⟩
      exact ⟨_, ⟨path, e, hpath, hclose, rfl, rfl⟩, haccept⟩
    · rintro ⟨-, ⟨path, e, hpath, hclose, rfl, rfl⟩, haccept⟩
      exact ⟨path, e, hpath, hclose, rfl, haccept⟩
  | false =>
    have hno : x ≠ '[' := by
      rintro rfl
      rw [startsWith_singleton.mpr ⟨u, hx⟩] at hbracket
      cases hbracket
    simp only [statementAt_entry hbracket]
    constructor
    · intro h
      rw [statement, hx] at h
      dsimp only at h
      split at h
      · obtain ⟨path, v, hvalue, haccept⟩ := keyValueStatement_iff.mp h
        exact ⟨_, ⟨path, v, hvalue, rfl⟩, haccept⟩
      · cases h
    · rintro ⟨-, ⟨path, v, hvalue, rfl⟩, haccept⟩
      obtain ⟨e, -, hpath, -⟩ := keyValue_iff.mp hvalue
      rw [statement, hx]
      dsimp only
      rw [if_pos (keyPath_head hx hpath)]
      exact keyValueStatement_iff.mpr ⟨path, v, hvalue, haccept⟩

/-- What follows a statement on its line: blanks, a comment, and a line feed or the end of the text. -/
def afterStatement (c d : Cursor) (s : Reading) : Except Fault Reading :=
  match skipComment (d.skipWhile isBlank) with
  | .error f => .error f
  | .ok e =>
    match e.rest with
    | [] => .ok s
    | '\n' :: _ => if e.next.rest.length < c.rest.length then statements s e.next else fail .expectedLineEnd e
    | _ => fail .expectedLineEnd e

theorem afterStatement_eq_ok (h : afterStatement c d s = .ok s') :
    ∃ e, skipComment (d.skipWhile isBlank) = .ok e ∧ ((e.rest = [] ∧ s' = s) ∨
      (e.startsWith ['\n'] = true ∧ e.next.rest.length < c.rest.length ∧ statements s e.next = .ok s')) := by
  rw [afterStatement] at h
  split at h
  · cases h
  · next e he =>
    refine ⟨e, he, ?_⟩
    split at h
    · next hnil =>
      cases h
      exact .inl ⟨hnil, rfl⟩
    · next t ht =>
      split at h
      · next hlt => exact .inr ⟨startsWith_singleton.mpr ⟨t, ht⟩, hlt, h⟩
      · cases h
    · cases h

theorem afterStatement_end (s : Reading) (h : skipComment (d.skipWhile isBlank) = .ok e) (he : e.rest = []) :
    afterStatement c d s = .ok s := by
  rw [afterStatement, h]
  dsimp only
  rw [he]

theorem afterStatement_stray (s : Reading) (h : skipComment (d.skipWhile isBlank) = .ok e) (he : e.rest = y :: t)
    (hy : y ≠ '\n') : afterStatement c d s = fail .expectedLineEnd e := by
  rw [afterStatement, h]
  dsimp only
  rw [he]
  split
  · next heq => cases heq
  · next heq => exact absurd (cons.inj heq).1 hy
  · rfl

theorem skipComment_of_ne (h : c.startsWith ['#'] = false) : skipComment c = .ok c := by
  rw [skipComment]
  split
  · next t ht =>
    rw [startsWith_singleton.mpr ⟨t, ht⟩] at h
    cases h
  · rfl

theorem statements_line (hc : (c.skipWhile isBlank).rest = x :: t) (hx : x ≠ '\n') :
    statements s c = (match statement s (c.skipWhile isBlank) with
      | .error f => .error f
      | .ok (s', d) => afterStatement c d s') := by
  rw [statements]
  split
  · next hnil => rw [hc] at hnil; cases hnil
  · next u hline =>
    rw [hc] at hline
    exact absurd (cons.inj hline).1 hx
  · rfl

/-- Blanks within a line are passed over with the others. -/
theorem triviaRest_skipBlanks (c : Cursor) :
    triviaRest false (c.skipWhile isBlank).rest = triviaRest false c.rest := by
  show triviaRest false (c.rest.dropWhile isBlank) = _
  induction c.rest with
  | nil => rfl
  | cons x t ih =>
    rw [dropWhile_cons]
    split
    · next hx => rw [ih, triviaRest, if_pos (by simp [isBlankOrNewline, hx])]
    · rfl

/-! ## Entries met -/

/-- An entry that the reader meets: what it has read before, and where the entry begins. -/
structure EntryMet where
  before : Reading
  place : Cursor

/-- The entries that the reader meets from a cursor to the end of the text. -/
def entriesMet (s : Reading) (c : Cursor) : List EntryMet :=
  let c₁ := c.skipWhile isBlank
  match c₁.rest with
  | [] => []
  | '\n' :: _ => if c₁.next.rest.length < c.rest.length then entriesMet s c₁.next else []
  | x :: _ =>
    let here : List EntryMet := if x = '[' ∨ x = '#' then [] else [⟨s, c₁⟩]
    match statement s c₁ with
    | .error _ => here
    | .ok (s', c₂) =>
      match skipComment (c₂.skipWhile isBlank) with
      | .error _ => here
      | .ok c₃ =>
        match c₃.rest with
        | '\n' :: _ => if c₃.next.rest.length < c.rest.length then here ++ entriesMet s' c₃.next else here
        | _ => here
termination_by c.rest.length

/-- The entries that the reader meets on the lines behind a statement. -/
def entriesAfter (c d : Cursor) (s : Reading) : List EntryMet :=
  match skipComment (d.skipWhile isBlank) with
  | .error _ => []
  | .ok e =>
    match e.rest with
    | '\n' :: _ => if e.next.rest.length < c.rest.length then entriesMet s e.next else []
    | _ => []

theorem entriesMet_line (hc : (c.skipWhile isBlank).rest = x :: t) (hx : x ≠ '\n')
    (hstatement : statement s (c.skipWhile isBlank) = .ok (s', d)) :
    entriesMet s c = (if x = '[' ∨ x = '#' then [] else [⟨s, c.skipWhile isBlank⟩]) ++ entriesAfter c d s' := by
  rw [entriesMet]
  split
  · next hnil => rw [hc] at hnil; cases hnil
  · next u hline =>
    rw [hc] at hline
    exact absurd (cons.inj hline).1 hx
  · next y u _ hy =>
    obtain rfl : x = y := (cons.inj (hc.symm.trans hy)).1
    simp only [hstatement, entriesAfter]
    cases skipComment (d.skipWhile isBlank) with
    | error f => simp
    | ok e =>
      dsimp only
      split
      · split <;> simp
      · simp

/-- Either nothing but blanks, comments and line feeds is left, or a statement follows them and then the rest of its
line. -/
theorem statements_eq_ok (h : statements s c = .ok s') :
    (triviaRest false c.rest = [] ∧ s' = s ∧ entriesMet s c = []) ∨
      ∃ e x u l s₁ e₁, e.rest = triviaRest false c.rest ∧ e.rest = x :: u ∧ isBlank x = false ∧ x ≠ '#' ∧
        statementAt e = some (l, e₁) ∧ l.accept? s = some s₁ ∧ ∃ b, afterStatement b e₁ s₁ = .ok s' ∧
          entriesMet s c = (if x = '[' then [] else [⟨s, e⟩]) ++ entriesAfter b e₁ s₁ := by
  generalize hn : c.rest.length = n
  induction n using Nat.strongRecOn generalizing c with
  | ind n ih =>
    subst hn
    have htrivia := triviaRest_skipBlanks c
    cases hrest : (c.skipWhile isBlank).rest with
    | nil =>
      rw [statements] at h
      simp only [hrest] at h
      cases h
      refine .inl ⟨by rw [← htrivia, hrest]; rfl, rfl, ?_⟩
      rw [entriesMet]
      simp only [hrest]
    | cons x u =>
      have hblank : isBlank x = false := of_dropWhile_eq_cons hrest
      rw [hrest] at htrivia
      by_cases hline : x = '\n'
      · -- an empty line
        subst hline
        have hnext : (c.skipWhile isBlank).next.rest = u := by rw [Cursor.next, Cursor.drop, hrest]; rfl
        rw [statements] at h
        simp only [hrest] at h
        split at h
        · next hlt =>
          have hrec := ih _ hlt h rfl
          have hmet : entriesMet s c = entriesMet s (c.skipWhile isBlank).next := by
            rw [entriesMet]
            simp only [hrest, if_pos hlt]
          rw [hnext] at hrec
          rwa [← htrivia, hmet]
        · cases h
      · rw [statements_line hrest hline] at h
        by_cases hcomment : x = '#'
        · -- a line with nothing but a comment
          subst hcomment
          have hstatement : statement s (c.skipWhile isBlank) = .ok (s, c.skipWhile isBlank) := by
            rw [statement, hrest]
            rfl
          rw [hstatement] at h
          obtain ⟨e, he, hend⟩ := afterStatement_eq_ok h
          have hcursor : (c.skipWhile isBlank).skipWhile isBlank = c.skipWhile isBlank :=
            skipWhile_of_head (by rw [hrest]; exact fun x hx => Option.some.inj hx ▸ hblank)
          rw [hcursor] at he
          have hleft := rest_of_skipComment he
          rw [if_pos (startsWith_singleton.mpr ⟨u, hrest⟩), hrest, dropWhile_cons_of_pos (by decide)] at hleft
          have hpassed : triviaRest false e.rest = triviaRest false c.rest := by
            rw [hleft, triviaRest_comment, ← htrivia]
            rfl
          rcases hend with ⟨hnil, rfl⟩ | ⟨hnewline, hlt, hnext⟩
          · refine .inl ⟨by rw [← hpassed, hnil]; rfl, rfl, ?_⟩
            rw [entriesMet_line hrest hline hstatement, if_pos (.inr rfl), entriesAfter, hcursor, he]
            simp only [hnil, nil_append]
          · obtain ⟨t, ht⟩ := startsWith_singleton.mp hnewline
            have hnextRest : e.next.rest = t := by rw [Cursor.next, Cursor.drop, ht]; rfl
            have hrec := ih _ hlt hnext rfl
            have hmet : entriesMet s c = entriesMet s e.next := by
              rw [entriesMet_line hrest hline hstatement, if_pos (.inr rfl), entriesAfter, hcursor, he]
              simp only [ht, if_pos hlt, nil_append]
            rw [hnextRest] at hrec
            rw [← hpassed, ht, hmet]
            exact hrec
        · have hstop : triviaRest false (x :: u) = x :: u := by
            rw [triviaRest, if_neg (by simp [isBlankOrNewline, hblank, hline]), if_neg hcomment]
          split at h
          · cases h
          · next s₁ e₁ hstatement =>
            have hmet := entriesMet_line hrest hline hstatement
            simp only [hcomment, or_false] at hmet
            obtain ⟨l, hspelled, haccept⟩ := (statement_iff hrest hcomment).mp hstatement
            exact .inr ⟨c.skipWhile isBlank, x, u, l, s₁, e₁, by rw [hrest, ← htrivia, hstop], hrest, hblank, hcomment,
              hspelled, haccept, c, h, hmet⟩

end Verbatim.DataReader

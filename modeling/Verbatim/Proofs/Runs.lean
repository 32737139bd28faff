import Verbatim.Line.Scan

/-!
# Runs of the scanner

What a successful scan went through, as a derivation with one rule for each way on. Facts about key paths, arrays, inline
tables and the lines of a text are inductions over these.
-/

namespace Verbatim

variable {limit before : Nat} {d s s' : Numbered} {inner : Numbered → ScannedValue} {trailing : SpanText}
  {es es' : List (Entry Item)} {v : Item} {l : Line}

/-! ## Key paths -/

/-- The segment behind a cursor whose name ends at another one. The text from `before` on belongs to it. -/
def segmentKey (before : Nat) (c : Cursor) (name : String) (d : Cursor) : Key :=
  ⟨name, some (.between c.skipBlanks.pos d.pos),
    ⟨some (.between before c.skipBlanks.pos), some (.between d.pos d.skipBlanks.pos)⟩⟩

/-- A key path was read from one cursor to another. -/
inductive KeyRun : Nat → Cursor → List Key → Key → Cursor → Prop where
  /-- The last segment, behind which no point stands. -/
  | last {before : Nat} {c d : Cursor} {name : String} (key : simpleKey c.skipBlanks = .ok (name, d))
      (noPoint : d.skipBlanks.startsWith ['.'] = false) : KeyRun before c [] (segmentKey before c name d) d.skipBlanks
  /-- A segment and the point behind it. -/
  | more {before : Nat} {c d e : Cursor} {name : String} {path : List Key} {leaf : Key}
      (key : simpleKey c.skipBlanks = .ok (name, d)) (point : d.skipBlanks.startsWith ['.'] = true)
      (rest : KeyRun d.skipBlanks.next.pos d.skipBlanks.next path leaf e) :
      KeyRun before c (segmentKey before c name d :: path) leaf e

theorem keySegments_run {c d : Cursor} (h : keySegments before c = .ok ((path, leaf), d)) :
    KeyRun before c path leaf d := by
  fun_induction keySegments before c generalizing path leaf d with
  | case1 | case2 | case4 => cases h
  | case3 =>
    rename_i hkey _ _ _ hpoint _ _ _ _ _ hrest ih
    cases h
    exact .more hkey hpoint (ih hrest)
  | case5 =>
    rename_i hkey _ _ _ hpoint
    cases h
    exact .last hkey (by simpa using hpoint)

/-! ## Arrays -/

/-- An element with the text before it and behind it. -/
def placedElement (before start stop after : Nat) (v : Item) : Item :=
  v.withDecor ⟨some (.between before start), some (.between stop after)⟩

/-- The members of an array were read up to its closing bracket. -/
inductive ArrayRun (inner : Numbered → ScannedValue) : Bool → Numbered → List Item → SpanText → Bool → Numbered → Prop where
  /-- The closing bracket. -/
  | close {comma : Bool} {s : Numbered} (bracket : s.cursor.skipTrivia.startsWith [']'] = true) :
      ArrayRun inner comma s [] (.between s.cursor.pos s.cursor.skipTrivia.pos) comma
        { s with cursor := s.cursor.skipTrivia.next }
  /-- The last element, without a comma behind it. -/
  | last {comma : Bool} {s s₂ : Numbered} {v : Item} (noBracket : s.cursor.skipTrivia.startsWith [']'] = false)
      (value : inner { s with cursor := s.cursor.skipTrivia } = .ok (v, s₂))
      (bracket : s₂.cursor.skipTrivia.startsWith [']'] = true) :
      ArrayRun inner comma s
        [placedElement s.cursor.pos s.cursor.skipTrivia.pos s₂.cursor.pos s₂.cursor.skipTrivia.pos v] .empty false
        { s₂ with cursor := s₂.cursor.skipTrivia.next }
  /-- An element and the comma behind it. -/
  | more {comma last : Bool} {s s₂ d : Numbered} {v : Item} {vs : List Item} {trailing : SpanText}
      (noBracket : s.cursor.skipTrivia.startsWith [']'] = false)
      (value : inner { s with cursor := s.cursor.skipTrivia } = .ok (v, s₂))
      (separator : s₂.cursor.skipTrivia.startsWith [','] = true)
      (rest : ArrayRun inner true { s₂ with cursor := s₂.cursor.skipTrivia.next } vs trailing last d) :
      ArrayRun inner comma s
        (placedElement s.cursor.pos s.cursor.skipTrivia.pos s₂.cursor.pos s₂.cursor.skipTrivia.pos v :: vs) trailing
        last d

theorem arrayMembers_run (h : arrayMembers inner comma s = .ok (vs, trailing, last, d)) :
    ArrayRun inner comma s vs trailing last d := by
  fun_induction arrayMembers inner comma s generalizing vs trailing last d with
  | case1 =>
    rename_i hbracket
    cases h
    exact .close hbracket
  | case2 | case3 | case5 | case7 => cases h
  | case4 =>
    rename_i hbracket _ _ hvalue _ _ _ hcomma _ _ _ _ _ _ hrest ih
    cases h
    exact .more (by simpa using hbracket) hvalue hcomma (ih hrest)
  | case6 =>
    rename_i hbracket _ _ hvalue _ _ _ _ hclose
    cases h
    exact .last (by simpa using hbracket) hvalue hclose

/-- Every element of an array is a value that was read, with the text around it. -/
theorem ArrayRun.forall_mem {comma last : Bool} {vs : List Item} (h : ArrayRun inner comma s vs trailing last d)
    {P : Item → Prop} (hP : ∀ s v s' decor, inner s = .ok (v, s') → P (v.withDecor decor)) : ∀ v ∈ vs, P v := by
  induction h with
  | close _ => simp
  | last _ hvalue _ => exact List.forall_mem_singleton.mpr (hP _ _ _ _ hvalue)
  | more _ hvalue _ _ ih => exact List.forall_mem_cons.mpr ⟨hP _ _ _ _ hvalue, ih⟩

/-! ## Inline tables -/

/-- The entries of an inline table were read up to its closing brace. -/
inductive InlineRun (inner : Numbered → ScannedValue) :
    List (Entry Item) → Numbered → List (Entry Item) → Numbered → Prop where
  /-- The last entry and the closing brace. -/
  | last {es es' : List (Entry Item)} {s s' : Numbered} (entry : inlineEntry inner es s = .ok (es', s'))
      (brace : s'.cursor.startsWith ['\x7d'] = true) : InlineRun inner es s es' { s' with cursor := s'.cursor.next }
  /-- An entry and the comma behind it. -/
  | more {es es' es'' : List (Entry Item)} {s s' d : Numbered} (entry : inlineEntry inner es s = .ok (es', s'))
      (comma : s'.cursor.startsWith [','] = true)
      (rest : InlineRun inner es' { s' with cursor := s'.cursor.next } es'' d) : InlineRun inner es s es'' d

theorem inlineMembers_run (h : inlineMembers inner es s = .ok (es', d)) : InlineRun inner es s es' d := by
  fun_induction inlineMembers inner es s with
  | case1 | case3 | case5 => cases h
  | case2 _ _ _ _ hentry hcomma _ _ ih => exact .more hentry hcomma (ih h)
  | case4 _ _ _ _ hentry _ hbrace =>
    cases h
    exact .last hentry hbrace

/-- What every entry keeps, the entries of an inline table keep. -/
theorem InlineRun.invariant {I : List (Entry Item) → Prop}
    (step : ∀ es s es' s', inlineEntry inner es s = .ok (es', s') → I es → I es') (h : InlineRun inner es s es' d)
    (hes : I es) : I es' := by
  induction h with
  | last entry _ => exact step _ _ _ _ entry hes
  | more entry _ _ ih => exact ih (step _ _ _ _ entry hes)

theorem decoratedValue_eq_ok (h : decoratedValue inner s = .ok (v, s')) :
    ∃ w, inner { s with cursor := s.cursor.skipBlanks } = .ok (w, s') ∧
      v = w.withDecor ⟨some (.between s.cursor.pos s.cursor.skipBlanks.pos), none⟩ := by
  rw [decoratedValue] at h
  split at h
  · cases h
  · next w s₁ hread =>
    cases h
    exact ⟨w, hread, rfl⟩

/-- What does not depend on the text around an item stays with other text behind it. -/
theorem apply_withAfter {β : Type} {m : Item → β} (h : ∀ d x, m (Item.withDecor d x) = m x) (t : SpanText) (v : Item) :
    m (withAfter t v) = m v := by
  rw [withAfter]
  split
  · exact h ..
  · rfl

theorem inlineEntry_eq_ok (h : inlineEntry inner es s = .ok (es', s')) :
    ∃ path leaf c₁ c₂ w s₃, KeyRun s.cursor.pos s.cursor path leaf c₁ ∧ expectChar '=' "'=' after key" c₁ = .ok c₂ ∧
      inner ⟨c₂.skipBlanks, s.number⟩ = .ok (w, s₃) ∧
      insertDotted dottedInlineTable
        ⟨leaf, withAfter (.between s₃.cursor.pos s₃.cursor.skipBlanks.pos)
          (w.withDecor ⟨some (.between c₂.pos c₂.skipBlanks.pos), none⟩), dottedPathOf path, some (s₃.number + 1 : Nat),
          none⟩ path es = .ok es' ∧
      s' = ⟨s₃.cursor.skipBlanks, s₃.number + 1⟩ := by
  revert h
  fun_cases inlineEntry inner es s with
  | case1 | case2 | case3 | case4 => nofun
  | case5 =>
    rename_i path leaf c₁ hkeys c₂ hequals v s₃ hvalue _ _ _ _ es₁ hinsert
    rintro ⟨⟩
    obtain ⟨w, hread, rfl⟩ := decoratedValue_eq_ok hvalue
    exact ⟨path, leaf, c₁, c₂, w, s₃, keySegments_run hkeys, hequals, hread, hinsert, rfl⟩

theorem arrayItem_eq_ok (h : arrayItem inner s = .ok (v, s')) :
    ∃ vs trailing comma, arrayMembers inner false { s with cursor := s.cursor.next } = .ok (vs, trailing, comma, s') ∧
      v = .array { span := some ⟨s.cursor.pos, s'.cursor.pos⟩ } { trailing, trailingComma := comma } vs := by
  rw [arrayItem] at h
  split at h
  · cases h
  · next vs trailing comma d hmembers =>
    cases h
    exact ⟨vs, trailing, comma, hmembers, rfl⟩

/-- An inline table is empty, or it has entries. -/
theorem inlineTableItem_eq_ok (h : inlineTableItem inner s = .ok (v, s')) :
    (s.cursor.next.skipBlanks.startsWith ['\x7d'] = true ∧
      v = .inlineTable { span := some ⟨s.cursor.pos, s.cursor.next.skipBlanks.next.pos⟩ }
        { preamble := .between s.cursor.next.pos s.cursor.next.skipBlanks.pos } [] ∧
      s' = { s with cursor := s.cursor.next.skipBlanks.next }) ∨
    (s.cursor.next.skipBlanks.startsWith ['\x7d'] = false ∧ ∃ es,
      inlineMembers inner [] { s with cursor := s.cursor.next } = .ok (es, s') ∧
      v = .inlineTable { span := some ⟨s.cursor.pos, s'.cursor.pos⟩ } {} es) := by
  rw [inlineTableItem] at h
  dsimp only at h
  split at h
  · next hclose =>
    cases h
    exact .inl ⟨hclose, rfl, rfl⟩
  · next hclose =>
    split at h
    · cases h
    · next es d hmembers =>
      cases h
      exact .inr ⟨by simpa using hclose, es, hmembers, rfl⟩

/-! ## Values -/

/-- The scalar between two cursors. -/
def scalarAt (c d : Cursor) (value : Plain) : Item :=
  .scalar { span := some ⟨c.pos, d.pos⟩ } { kind := scalarKind value, value, repr := some (.between c.pos d.pos) }

/-- A scalar ends at a cursor: a string, or what the characters of other scalars spell. -/
def ScalarEnds (c d : Cursor) : Prop :=
  ∃ x u, c.rest = x :: u ∧ ((x = '"' ∨ x = '\'') ∧ stringEnd x c = .ok d ∨ isScalarChar x = true ∧ scalarEnd c = .ok d)

theorem scalarBetween_eq_ok {c d e : Cursor} (h : scalarBetween c d = .ok (v, e)) :
    ∃ value, spelledValue (textBetween c d) c.pos = .ok value ∧ v = scalarAt c d value ∧ e = d := by
  rw [scalarBetween] at h
  split at h
  · cases h
  · next value hvalue =>
    cases h
    exact ⟨value, hvalue, rfl, rfl⟩

/-- How a value was read: as a scalar up to its end, as an array or as an inline table. -/
theorem valueItemWith_cases (h : valueItemWith limit depth inner s = .ok (v, s')) :
    (∃ d value, ScalarEnds s.cursor d ∧ spelledValue (textBetween s.cursor d) s.cursor.pos = .ok value ∧
      v = scalarAt s.cursor d value ∧ s' = { s with cursor := d }) ∨
    (depth < limit ∧ s.cursor.startsWith ['['] = true ∧ arrayItem inner s = .ok (v, s')) ∨
    (depth < limit ∧ s.cursor.startsWith ['\x7b'] = true ∧ inlineTableItem inner s = .ok (v, s')) := by
  rw [valueItemWith] at h
  split at h
  · cases h
  · next x rest hrest =>
    have hx : s.cursor.startsWith [x] = true := by simp [Cursor.startsWith, hrest]
    split at h
    · cases h
    · split at h
      · next hopen =>
        split at h
        · cases h
        · next hlimit =>
          have hdepth : depth < limit := by omega
          split at h
          · next hbracket => exact .inr (.inl ⟨hdepth, hbracket ▸ hx, h⟩)
          · next hbracket => exact .inr (.inr ⟨hdepth, hopen.resolve_left hbracket ▸ hx, h⟩)
      · left
        split at h
        · cases h
        · next w d hscalar =>
          cases h
          split at hscalar
          · next hmark =>
            rw [stringItem] at hscalar
            split at hscalar
            · cases hscalar
            · next e hend =>
              obtain ⟨value, hvalue, rfl, rfl⟩ := scalarBetween_eq_ok hscalar
              exact ⟨_, value, ⟨x, rest, hrest, .inl ⟨hmark, hend⟩⟩, hvalue, rfl, rfl⟩
          · rw [scalarItem] at hscalar
            split at hscalar
            · next hchar =>
              split at hscalar
              · cases hscalar
              · next e hend =>
                obtain ⟨value, hvalue, rfl, rfl⟩ := scalarBetween_eq_ok hscalar
                exact ⟨_, value, ⟨x, rest, hrest, .inr ⟨hchar, hend⟩⟩, hvalue, rfl, rfl⟩
            · cases hscalar

/-- What containers inherit from their members, and scalars have, holds of every value. -/
theorem valueItem_induction {P : Numbered → Item → Numbered → Prop}
    (scalar : ∀ s d value, ScalarEnds s.cursor d →
      spelledValue (textBetween s.cursor d) s.cursor.pos = .ok value → P s (scalarAt s.cursor d value) { s with cursor := d })
    (array : ∀ inner s vs trailing comma d, (∀ s v s', inner s = .ok (v, s') → P s v s') →
      s.cursor.startsWith ['['] = true → ArrayRun inner false { s with cursor := s.cursor.next } vs trailing comma d →
      P s (.array { span := some ⟨s.cursor.pos, d.cursor.pos⟩ } { trailing, trailingComma := comma } vs) d)
    (empty : ∀ s, s.cursor.startsWith ['\x7b'] = true → s.cursor.next.skipBlanks.startsWith ['\x7d'] = true →
      P s (.inlineTable { span := some ⟨s.cursor.pos, s.cursor.next.skipBlanks.next.pos⟩ }
        { preamble := .between s.cursor.next.pos s.cursor.next.skipBlanks.pos } [])
        { s with cursor := s.cursor.next.skipBlanks.next })
    (inlineTable : ∀ inner s es d, (∀ s v s', inner s = .ok (v, s') → P s v s') → s.cursor.startsWith ['\x7b'] = true →
      InlineRun inner [] { s with cursor := s.cursor.next } es d →
      P s (.inlineTable { span := some ⟨s.cursor.pos, d.cursor.pos⟩ } {} es) d)
    {levels depth : Nat} (h : valueItem limit levels depth s = .ok (v, s')) : P s v s' := by
  have hwith : ∀ inner depth s v s', (∀ s v s', inner s = .ok (v, s') → P s v s') →
      valueItemWith limit depth inner s = .ok (v, s') → P s v s' := by
    intro inner depth s v s' hinner h
    rcases valueItemWith_cases h with ⟨d, value, hend, hvalue, rfl, rfl⟩ | ⟨-, hopen, h⟩ | ⟨-, hopen, h⟩
    · exact scalar s d value hend hvalue
    · obtain ⟨vs, trailing, comma, hmembers, rfl⟩ := arrayItem_eq_ok h
      exact array inner s vs trailing comma s' hinner hopen (arrayMembers_run hmembers)
    · rcases inlineTableItem_eq_ok h with ⟨hclose, rfl, rfl⟩ | ⟨-, es, hmembers, rfl⟩
      · exact empty s hopen hclose
      · exact inlineTable inner s es s' hinner hopen (inlineMembers_run hmembers)
  induction levels generalizing depth s v s' with
  | zero =>
    refine hwith _ depth s v s' (fun s v s' hread => ?_) h
    cases hread
  | succ levels ih => exact hwith _ depth s v s' (fun s v s' h => ih h) h

/-! ## Lines -/

theorem headerLine_eq_ok (h : headerLine before s = .ok (l, s')) :
    ∃ path leaf c₁ c₂ c₃ c₄ newline c₆ what what' isArray, isArray = s.cursor.startsWith ['[', '['] ∧
      c₁ = s.cursor.drop (if isArray then 2 else 1) ∧ KeyRun c₁.pos c₁ path leaf c₂ ∧ expectChar ']' what c₂ = .ok c₃ ∧
      (if isArray then expectChar ']' what' c₃ else .ok c₃) = .ok c₄ ∧
      lineEnd "the table header" c₄.skipBlanks.skipComment = .ok (newline, c₆) ∧
      l = .header ⟨path, leaf, isArray,
        ⟨some (.between before s.cursor.pos), some (.between c₄.pos c₄.skipBlanks.skipComment.pos)⟩, newline, s.number + 1,
        ⟨s.cursor.pos, c₄.pos⟩⟩ ∧
      s' = ⟨c₆, s.number + 1⟩ := by
  revert h
  fun_cases headerLine before s with
  | case1 | case2 | case3 | case4 => nofun
  | case5 =>
    rename_i path leaf c₂ hkeys c₃ hclose c₄ hclose' _ newline c₆ hend _ _
    rintro ⟨⟩
    exact ⟨path, leaf, _, c₂, c₃, c₄, newline, c₆, _, _, _, rfl, rfl, keySegments_run hkeys, hclose, hclose', hend, rfl, rfl⟩

theorem entryLine_eq_ok (h : entryLine limit before s = .ok (l, s')) :
    ∃ path leaf c₁ c₂ w s₃ newline c₅, KeyRun before s.cursor path leaf c₁ ∧
      expectChar '=' "'=' after key" c₁ = .ok c₂ ∧
      valueItem limit openLevels 0 ⟨c₂.skipBlanks, s.number⟩ = .ok (w, s₃) ∧
      lineEnd "a value" s₃.cursor.skipBlanks.skipComment = .ok (newline, c₅) ∧
      l = .entry ⟨path, leaf, withAfter (.between s₃.cursor.pos s₃.cursor.skipBlanks.skipComment.pos)
        (w.withDecor ⟨some (.between c₂.pos c₂.skipBlanks.pos), none⟩), newline, s₃.number + 1, s.cursor.pos⟩ ∧
      s' = ⟨c₅, s₃.number + 1⟩ := by
  revert h
  fun_cases entryLine limit before s with
  | case1 | case2 | case3 | case4 => nofun
  | case5 =>
    rename_i path leaf c₁ hkeys c₂ hequals v s₃ hvalue _ _ newline c₅ hend _ _
    rintro ⟨⟩
    obtain ⟨w, hread, rfl⟩ := decoratedValue_eq_ok hvalue
    exact ⟨path, leaf, c₁, c₂, w, s₃, newline, c₅, keySegments_run hkeys, hequals, hread, hend, rfl, rfl⟩

/-- The line behind blanks, comments and empty lines. -/
def lineAt (limit : Nat) (s : Numbered) : Except SyntaxFault (Line × Numbered) :=
  let here : Numbered := { s with cursor := s.cursor.skipTrivia }
  if here.cursor.startsWith ['['] then headerLine s.cursor.pos here else entryLine limit s.cursor.pos here

theorem lineAt_cases (h : lineAt limit s = .ok (l, s')) :
    (s.cursor.skipTrivia.startsWith ['['] = true ∧
      headerLine s.cursor.pos { s with cursor := s.cursor.skipTrivia } = .ok (l, s')) ∨
    (s.cursor.skipTrivia.startsWith ['['] = false ∧
      entryLine limit s.cursor.pos { s with cursor := s.cursor.skipTrivia } = .ok (l, s')) := by
  rw [lineAt] at h
  dsimp only at h
  split at h
  · next hbracket => exact .inl ⟨hbracket, h⟩
  · next hbracket => exact .inr ⟨by simpa using hbracket, h⟩

theorem scanLines_cons (hmore : s.cursor.skipTrivia.atEnd = false) (hline : lineAt limit s = .ok (l, s'))
    (hless : s'.cursor.rest.length < s.cursor.rest.length) (hrest : scanLines limit s' = (ls, .ok trailing)) :
    scanLines limit s = (l :: ls, .ok trailing) := by
  rw [lineAt] at hline
  dsimp only at hline
  rw [scanLines]
  simp only [hmore, Bool.false_eq_true, if_false, hline, if_pos hless, hrest]

/-- The lines of a text were read up to its end. -/
inductive LinesRun (limit : Nat) : Numbered → List Line → SpanText → Prop where
  | done {s : Numbered} (atEnd : s.cursor.skipTrivia.atEnd = true) :
      LinesRun limit s [] (.between s.cursor.pos s.cursor.skipTrivia.pos)
  | line {s s' : Numbered} {l : Line} {ls : List Line} {trailing : SpanText}
      (notAtEnd : s.cursor.skipTrivia.atEnd = false) (line : lineAt limit s = .ok (l, s'))
      (rest : LinesRun limit s' ls trailing) : LinesRun limit s (l :: ls) trailing

theorem scanLines_run (h : scanLines limit s = (ls, .ok trailing)) : LinesRun limit s ls trailing := by
  fun_induction scanLines limit s generalizing ls trailing with
  | case1 =>
    rename_i hend
    cases h
    exact .done hend
  | case2 | case4 => cases h
  | case3 =>
    rename_i hend _ _ _ _ hline _ _ _ hrest ih
    cases h
    exact .line (by simpa using hend) hline (ih hrest)

end Verbatim

import Mathlib.Algebra.Ring.Nat
import Verbatim.Parsing
import Verbatim.Proofs.Joined

/-!
# Places of faults

Every step of the scanner leaves the end of the text where it is, and a fault never lies behind it. So the line and the
column that are reported are a place in the source, and the line that is shown is the one at that place.

## Main statements

- `Cursor.Leads` - where a step leads; one lemma for every step of the scanner.
- `Text.splitAtNewline_at` - the line and the column of a position.
- `parse_fault_in_source` - a reported place lies in the source.
-/

namespace Verbatim

open List Cursor DataReader Text

variable {α : Type} {c d : Cursor} {limit : Nat} {inner : Numbered → ScannedValue} {s : Numbered}

namespace Cursor

/-- The position behind the last character. -/
def stop (c : Cursor) : Nat := c.pos + c.rest.length

@[grind! .] theorem pos_le_stop (c : Cursor) : c.pos ≤ c.stop := Nat.le_add_right ..

theorem Reaches.stop_eq (h : c.Reaches d) : d.stop = c.stop := by
  obtain ⟨t, ht⟩ := h
  rw [stop, stop, ht.pos, ht.length_eq, Nat.add_assoc]

/-- A cursor ahead on the same text. -/
@[grind =] def Ahead (c d : Cursor) : Prop := c.pos ≤ d.pos ∧ d.stop = c.stop

theorem Reaches.ahead (h : c.Reaches d) : c.Ahead d := ⟨h.le, h.stop_eq⟩

@[grind! .] theorem ahead_drop (n : Nat) : c.Ahead (c.drop n) := (c.reaches_drop n).ahead

@[grind! .] theorem ahead_next : c.Ahead c.next := ahead_drop 1

@[grind! .] theorem ahead_skipWhile (p : Char → Bool) : c.Ahead (c.skipWhile p) := (c.reaches_skipWhile p).ahead

@[grind! .] theorem ahead_skipBlanks : c.Ahead c.skipBlanks := ahead_skipWhile _

@[grind! .] theorem ahead_skipTrivia : c.Ahead c.skipTrivia := ahead_drop _

@[grind! .] theorem ahead_skipComment : c.Ahead c.skipComment := c.reaches_skipComment.ahead

/-- A step from a cursor leads ahead on the same text, or meets a fault that does not lie behind its end. -/
@[grind =] def Leads (c : Cursor) (place : α → Cursor) : Except SyntaxFault α → Prop
  | .ok a => c.Ahead (place a)
  | .error f => f.offset ≤ c.stop

theorem Leads.of_ahead (h : d.Leads place r) (hahead : c.Ahead d) : c.Leads place r := by
  cases r <;> grind

end Cursor

attribute [local grind =] SyntaxCause.at

/-! ## Keys -/

theorem stringEnd_leads (mark : Char) (c : Cursor) : c.Leads id (stringEnd mark c) := by
  grind [stringEnd]

theorem quotedName_fault (h : quotedName mark text offset = .error f) : f.offset = offset := by
  grind [quotedName]

theorem simpleKey_leads (c : Cursor) : c.Leads Prod.snd (simpleKey c) := by
  have hend := stringEnd_leads
  have hname := @quotedName_fault
  grind [simpleKey]

theorem expectChar_leads (x : Char) (what : String) (c : Cursor) : c.Leads id (expectChar x what c) := by
  grind [expectChar]

theorem keySegments_leads (before : Nat) (c : Cursor) : c.Leads Prod.snd (keySegments before c) := by
  have hkey := simpleKey_leads
  fun_induction keySegments before c with grind

/-! ## Values -/

theorem scalarEnd_leads (c : Cursor) : c.Leads id (scalarEnd c) := by
  grind [scalarEnd]

theorem spelledValue_fault (h : spelledValue text offset = .error f) : f.offset = offset := by
  grind [spelledValue]

theorem scalarBetween_leads (h : c.Ahead d) : c.Leads Prod.snd (scalarBetween c d) := by
  have hvalue := @spelledValue_fault
  grind [scalarBetween]

/-- A reader of values leads on from every cursor. -/
def Leading (inner : Numbered → ScannedValue) : Prop := ∀ s : Numbered, s.cursor.Leads (fun v => v.2.cursor) (inner s)

section

variable (h : Leading inner)

include h

theorem Leading.arrayMembers (comma : Bool) (s : Numbered) :
    s.cursor.Leads (fun m => m.2.2.2.cursor) (arrayMembers inner comma s) := by
  simp only [Leading] at h
  fun_induction Verbatim.arrayMembers inner comma s with grind

theorem Leading.decorated : Leading (decoratedValue inner) := by
  simp only [Leading] at h ⊢
  grind [decoratedValue]

theorem Leading.inlineEntry (es : List (Entry Item)) (s : Numbered) :
    s.cursor.Leads (fun m => m.2.cursor) (inlineEntry inner es s) := by
  have hkeys := keySegments_leads
  have hequals := expectChar_leads
  have hvalue : ∀ s : Numbered, s.cursor.Leads (fun v => v.2.cursor) (decoratedValue inner s) := h.decorated
  simp only [Verbatim.inlineEntry]
  split <;> [grind; split <;> grind]

theorem Leading.inlineMembers (es : List (Entry Item)) (s : Numbered) :
    s.cursor.Leads (fun m => m.2.cursor) (inlineMembers inner es s) := by
  have hentry := h.inlineEntry
  fun_induction Verbatim.inlineMembers inner es s with
  | case2 es s es' s' hs' hcomma s'' hlt ih => exact ih.of_ahead (by grind)
  | _ => grind

theorem Leading.valueItemWith (limit depth : Nat) : Leading (valueItemWith limit depth inner) := by
  have harray := h.arrayMembers
  have htable := h.inlineMembers
  have hstring := stringEnd_leads
  have hscalar := scalarEnd_leads
  have hbetween := @scalarBetween_leads
  intro s
  grind [Verbatim.valueItemWith, arrayItem, inlineTableItem, stringItem, scalarItem]

end

theorem valueItem_leading (limit levels depth : Nat) : Leading (valueItem limit levels depth) := by
  induction levels generalizing depth with
  | zero => exact Leading.valueItemWith (fun s => by grind) limit depth
  | succ levels ih => exact (ih (depth + 1)).valueItemWith limit depth

/-! ## Lines -/

theorem lineEnd_leads (behind : String) (c : Cursor) : c.Leads Prod.snd (lineEnd behind c) := by
  grind [lineEnd]

theorem entryLine_leads (limit before : Nat) (s : Numbered) :
    s.cursor.Leads (fun l => l.2.cursor) (entryLine limit before s) := by
  have hkeys := keySegments_leads
  have hequals := expectChar_leads
  have hvalue : ∀ s : Numbered, s.cursor.Leads (fun v => v.2.cursor) (decoratedValue (valueItem limit openLevels 0) s) :=
    (valueItem_leading limit openLevels 0).decorated
  have hend := lineEnd_leads
  simp only [entryLine]
  split <;> [grind; split <;> grind]

theorem headerLine_leads (before : Nat) (s : Numbered) : s.cursor.Leads (fun l => l.2.cursor) (headerLine before s) := by
  have hkeys := keySegments_leads
  have hclose := expectChar_leads
  have hend := lineEnd_leads
  simp only [headerLine]
  split <;> [grind; split <;> grind]

/-- The position at which a line begins. -/
def Line.start : Line → Nat
  | .header h => h.span.start
  | .entry l => l.offset

theorem lineAt_leads (limit : Nat) (s : Numbered) : s.cursor.Leads (fun l => l.2.cursor) (lineAt limit s) := by
  simp only [lineAt]
  split
  · exact (headerLine_leads _ _).of_ahead ahead_skipTrivia
  · exact (entryLine_leads _ _ _).of_ahead ahead_skipTrivia

theorem lineAt_start (h : lineAt limit s = .ok (l, s')) : l.start = s.cursor.skipTrivia.pos := by
  rcases lineAt_cases h with ⟨-, h⟩ | ⟨-, h⟩
  · obtain ⟨path, leaf, c₁, c₂, c₃, c₄, newline, c₆, what, what', isArray, -, -, -, -, -, -, rfl, -⟩ := headerLine_eq_ok h
    rfl
  · obtain ⟨path, leaf, c₁, c₂, w, s₃, newline, c₅, -, -, -, -, rfl, -⟩ := entryLine_eq_ok h
    rfl

/-- Lines begin on the text, and the fault behind them lies there. -/
theorem scanLines_leads (limit : Nat) (s : Numbered) :
    (∀ l ∈ (scanLines limit s).1, l.start ≤ s.cursor.stop) ∧
      ∀ f, (scanLines limit s).2 = .error f → f.offset ≤ s.cursor.stop := by
  generalize hn : s.cursor.rest.length = n
  induction n using Nat.strongRecOn generalizing s with
  | ind n ih =>
    subst hn
    have hline := lineAt_leads limit s
    have hstart := @lineAt_start limit s
    rw [scanLines]
    dsimp only
    rw [lineAt] at hline hstart
    dsimp only at hline hstart
    split
    · exact ⟨forall_mem_nil _, fun _ hf => by cases hf⟩
    · split
      · grind
      · split
        · next l s' hl hlt =>
          have := ih _ hlt s' rfl
          grind
        · grind

/-! ## The place in the source -/

namespace Text

theorem splitAtNewline_cons (x : Char) (t : List Char) :
    ∃ l ls, splitAtNewline t = l :: ls ∧ splitAtNewline (x :: t) = if x = '\n' then [] :: l :: ls else (x :: l) :: ls := by
  have hne : splitAtNewline t ≠ [] := by
    cases t with
    | nil => exact cons_ne_nil _ _
    | cons y t =>
      rw [splitAtNewline]
      split
      · exact cons_ne_nil _ _
      · split <;> exact cons_ne_nil _ _
  obtain ⟨l, ls, hsplit⟩ := exists_cons_of_ne_nil hne
  exact ⟨l, ls, hsplit, by rw [splitAtNewline, hsplit]⟩

/-- The line and the column of a position: whole lines stand before it, and as much of a line as the column says. -/
theorem splitAtNewline_at {source : List Char} {pos : Nat} (h : pos ≤ source.length) :
    ∃ before l after k, splitAtNewline source = before ++ l :: after ∧ k ≤ l.length ∧
      lineColumn source pos = (before.length + 1, k + 1) ∧ pos = (before.map fun b => b.length + 1).sum + k ∧
      splitAtNewline (source.drop pos) = l.drop k :: after := by
  induction pos with
  | zero =>
    obtain ⟨l, ls, hsplit, -⟩ := splitAtNewline_cons 'x' source
    exact ⟨[], l, ls, 0, hsplit, Nat.zero_le _, rfl, rfl, hsplit⟩
  | succ pos ih =>
    obtain ⟨before, l, after, k, hsplit, hk, hplace, hpos, hahead⟩ := ih (Nat.le_of_succ_le h)
    -- the step goes over one character: a line feed ends the line, any other one belongs to it
    obtain ⟨x, hx⟩ : ∃ x, source.drop pos = x :: source.drop (pos + 1) := ⟨_, drop_eq_getElem_cons h⟩
    have htake : source.take (pos + 1) = source.take pos ++ [x] := by
      rw [← take_append_drop pos (source.take (pos + 1)), take_take, drop_take, hx]
      simp
    obtain ⟨l', ls, hrest, hcons⟩ := splitAtNewline_cons x (source.drop (pos + 1))
    rw [← hx, hahead] at hcons
    simp only [lineColumn, Prod.mk.injEq, Nat.add_right_cancel_iff] at hplace ⊢
    rw [htake, count_append, hplace.1, reverse_append]
    by_cases hline : x = '\n'
    · subst hline
      obtain ⟨hend, rfl⟩ := cons.inj (hcons.trans (if_pos rfl))
      have hlength : l.length ≤ k := drop_eq_nil_iff.mp hend
      refine ⟨before ++ [l], l', ls, 0, by simpa using hsplit, Nat.zero_le _, by simp, ?_, hrest⟩
      simp only [map_append, map_cons, map_nil, sum_append, sum_cons, sum_nil]
      omega
    · obtain ⟨hmore, rfl⟩ := cons.inj (hcons.trans (if_neg hline))
      have hless := congrArg length hmore
      rw [length_drop, length_cons] at hless
      refine ⟨before, l, after, k + 1, hsplit, by omega, by simp [hline, hplace.2], by omega, ?_⟩
      rw [hrest, ← drop_drop, hmore]
      rfl

end Text

theorem Assembly.addAll_fault {a : Assembly} (h : a.addAll ls = .error f) :
    ∃ l ∈ ls, f.offset = l.start := by
  induction ls generalizing a with
  | nil => cases h
  | cons l ls ih =>
    rw [addAll] at h
    split at h
    · next f' hf =>
      cases h
      refine ⟨l, mem_cons_self, ?_⟩
      cases l <;> simp only [add] at hf <;> split at hf <;> cases hf <;> rfl
    · obtain ⟨l', hl', hstart⟩ := ih h
      exact ⟨l', mem_cons_of_mem _ hl', hstart⟩

/-- No fault lies behind the end of the text. -/
theorem readTree_fault {source : List Char} (h : readTree limit source = .error f) :
    f.offset ≤ source.length := by
  obtain ⟨hlines, hlast⟩ := scanLines_leads limit ⟨.start source, 0⟩
  have hend : (Cursor.start source).stop = source.length := Nat.zero_add _
  rw [readTree] at h
  dsimp only [sourceLines] at h
  split at h
  · next f' hf =>
    cases h
    rw [assemble] at hf
    split at hf
    · next f' hadd =>
      cases hf
      obtain ⟨l, hl, hstart⟩ := Assembly.addAll_fault hadd
      exact hstart ▸ hend ▸ hlines l hl
    · cases hf
  · split at h
    · next f' hf =>
      cases h
      exact hend ▸ hlast _ hf
    · cases h

/-- A report with a line has the place of the fault. -/
theorem SyntaxFault.place_eq {f : SyntaxFault} (h : f.failure source = .refused e)
    (hline : e.place.line = some line) :
    e.place = ⟨some ((lineColumn source f.offset).1 : Nat), some ((lineColumn source f.offset).2 : Nat),
      sourceLine? source (lineColumn source f.offset).1⟩ := by
  rw [failure] at h
  split at h <;> cases h
  · cases hline
  · rfl

/-- A place in a text: the line is one of the lines between line feeds, the column lies in that line or directly behind it,
and the line is shown without the carriage returns at its end. The offset is the position of the place. -/
def FaultPlace.LiesIn (source : List Char) (offset : Nat) (p : FaultPlace) : Prop :=
  ∃ (before : List (List Char)) (l : List Char) (after : List (List Char)) (column : Nat),
    splitAtNewline source = before ++ l :: after ∧ p.line = some ((before.length + 1 : Nat) : Int) ∧
      p.column = some (column : Int) ∧ 1 ≤ column ∧ column ≤ l.length + 1 ∧
      p.context = some (String.ofList (dropTrailingReturns l)) ∧
      offset + 1 = (before.map fun b => b.length + 1).sum + column

/-- **Places of faults.** The line, the column and the shown line that are reported for a text, read without the strict
reader, are those of a place in the text, the one at which the fault was met. -/
theorem parse_fault_in_source {options : ReadOptions} (hvalidate : options.validate = false) {text : String}
    {e : ParsingError} (h : parse options (.text text) = .error (.refused e)) {line : Int} (hline : e.place.line = some line) :
    ∃ f, readTree options.maxNesting text.toList = .error f ∧ e.place.LiesIn text.toList f.offset := by
  simp only [parse, Source.load, parseText, hvalidate, Bool.false_eq_true, if_false, parseTree] at h
  split at h
  · next e' he =>
    cases h
    split at he
    · cases he
    · next f hf =>
      obtain ⟨before, l, after, k, hsplit, hk, hplace, hpos, -⟩ := Text.splitAtNewline_at (readTree_fault hf)
      have hshown : sourceLine? text.toList (before.length + 1) = some (String.ofList (Text.dropTrailingReturns l)) := by
        simp [sourceLine?, hsplit]
      refine ⟨f, hf, ?_⟩
      rw [SyntaxFault.place_eq (Except.error.inj he) hline, hplace]
      exact ⟨before, l, after, k + 1, hsplit, rfl, rfl, by omega, by omega, hshown, by omega⟩
  · cases h

/-- The string in the second line is never closed, which is reported at its quotation mark. -/
theorem parse_fault_in_source_string :
    ∃ e f, parse { validate := false } (.text "a = 1\r\nb = \"x\r\n") = .error (.refused e) ∧ e.place.line = some 2 ∧
      readTree 64 "a = 1\r\nb = \"x\r\n".toList = .error f ∧ e.place.LiesIn "a = 1\r\nb = \"x\r\n".toList f.offset := by
  have hreport : (match parse { validate := false } (.text "a = 1\r\nb = \"x\r\n") with
      | .error (.refused e) => e.place.line
      | _ => none) = some 2 := by decide +kernel
  split at hreport
  · next e h =>
    obtain ⟨f, hf, hplace⟩ := parse_fault_in_source rfl h hreport
    exact ⟨e, f, h, hreport, hf, hplace⟩
  · cases hreport

/-! ## The line that the strict reader's report shows -/

namespace Text

/-- No displayed line ends but at a line feed, with or without a carriage return before it. -/
def BreaksAtLineFeeds (source : List Char) : Prop := ∀ x ∈ joinReturns source, isLineBreak x = true → x = '\n'

instance (source : List Char) : Decidable (BreaksAtLineFeeds source) := decidableBAll _ _

theorem splitAtNewline_append (ha : '\n' ∉ a) (t : List Char) :
    splitAtNewline (a ++ '\n' :: t) = a :: splitAtNewline t ∧ splitAtNewline a = [a] := by
  induction a with
  | nil => simp [splitAtNewline]
  | cons x a ih =>
    obtain ⟨hx, ha⟩ := not_or.mp (mt mem_cons.mpr ha)
    obtain ⟨hsplit, hall⟩ := ih ha
    simp [splitAtNewline, Ne.symm hx, hsplit, hall]

theorem dropTrailingReturns_of_notMem (ha : '\r' ∉ a) :
    dropTrailingReturns a = a ∧ dropTrailingReturns (a ++ ['\r']) = a := by
  have hstop : a.reverse.dropWhile (· == '\r') = a.reverse := by
    cases hreverse : a.reverse with
    | nil => rfl
    | cons x u =>
      have hx : x ∈ a := mem_reverse.mp (hreverse ▸ mem_cons_self)
      exact dropWhile_cons_of_neg (by simpa using ne_of_mem_of_not_mem hx ha)
  simp [dropTrailingReturns, hstop]

/-- Where only line feeds break lines, the displayed lines are those between line feeds, but for an empty one at the end. -/
theorem splitLinesFrom_eq (hline : ∀ x ∈ line, isLineBreak x = false) (ht : BreaksAtLineFeeds t) :
    ∃ rest, (splitAtNewline (line.reverse ++ t)).map dropTrailingReturns = splitLinesFrom line t ++ rest ∧
      (rest = [] ∨ rest = [[]]) := by
  have hplain : ∀ {line : List Char}, (∀ x ∈ line, isLineBreak x = false) → '\n' ∉ line.reverse ∧ '\r' ∉ line.reverse :=
    fun h => ⟨fun hx => (nomatch h _ (mem_reverse.mp hx)), fun hx => (nomatch h _ (mem_reverse.mp hx))⟩
  fun_induction splitLinesFrom line t with
  | case1 line hempty =>
    obtain rfl := isEmpty_iff.mp hempty
    exact ⟨[[]], rfl, .inr rfl⟩
  | case2 line hempty =>
    obtain ⟨hfeed, hreturn⟩ := hplain hline
    refine ⟨[], ?_, .inl rfl⟩
    rw [append_nil, (splitAtNewline_append hfeed []).2, map_singleton, (dropTrailingReturns_of_notMem hreturn).1, append_nil]
  | case3 line rest ih =>
    obtain ⟨hfeed, hreturn⟩ := hplain hline
    obtain ⟨more, hmore, hcases⟩ := ih (forall_mem_nil _) fun x hx => ht x (mem_cons_of_mem _ hx)
    refine ⟨more, ?_, hcases⟩
    have hsplit := (splitAtNewline_append (a := line.reverse ++ ['\r']) (by simpa using hfeed) rest).1
    rw [append_assoc] at hsplit
    rw [show line.reverse ++ '\r' :: '\n' :: rest = line.reverse ++ (['\r'] ++ '\n' :: rest) from rfl, hsplit, map_cons,
      (dropTrailingReturns_of_notMem hreturn).2, cons_append, ← hmore]
    rfl
  | case4 line c rest hno hbreak ih =>
    obtain ⟨hfeed, hreturn⟩ := hplain hline
    rw [BreaksAtLineFeeds, joinReturns.eq_3 _ _ hno, forall_mem_cons] at ht
    obtain rfl := ht.1 hbreak
    obtain ⟨more, hmore, hcases⟩ := ih (forall_mem_nil _) ht.2
    refine ⟨more, ?_, hcases⟩
    rw [(splitAtNewline_append hfeed rest).1, map_cons, (dropTrailingReturns_of_notMem hreturn).1, cons_append, ← hmore]
    rfl
  | case5 line c rest hno hbreak ih =>
    rw [BreaksAtLineFeeds, joinReturns.eq_3 _ _ hno, forall_mem_cons] at ht
    obtain ⟨more, hmore, hcases⟩ := ih (forall_mem_cons.mpr ⟨Bool.eq_false_iff.mpr hbreak, hline⟩) ht.2
    rw [reverse_cons, append_assoc] at hmore
    exact ⟨more, hmore, hcases⟩

end Text

/-- What a report shows of a line is the line between line feeds, or nothing. -/
theorem displayedLine?_eq (h : Text.BreaksAtLineFeeds source) (line : Nat) :
    displayedLine? source line = sourceLine? source line ∨
      displayedLine? source line = none ∧ (line = 0 ∨ sourceLine? source line = some "") := by
  obtain ⟨rest, hlines, hrest⟩ := splitLinesFrom_eq (forall_mem_nil _) h
  have hsource : sourceLine? source line = ((splitLines source ++ rest)[line - 1]?).map String.ofList := by
    rw [splitLines, ← hlines, getElem?_map, Option.map_map]
    rfl
  rw [displayedLine?, hsource]
  by_cases hzero : line = 0
  · exact .inr ⟨if_pos hzero, .inl hzero⟩
  · rw [if_neg hzero]
    rcases Nat.lt_or_ge (line - 1) (splitLines source).length with hlt | hge
    · exact .inl (by rw [getElem?_append_left hlt])
    · rw [getElem?_append_right hge, getElem?_eq_none hge]
      rcases hrest with rfl | rfl
      · exact .inl rfl
      · cases line - 1 - (splitLines source).length with
        | zero => exact .inr ⟨rfl, .inr rfl⟩
        | succ n => exact .inl rfl

/-- **The line that is shown.** Where a text breaks its lines at line feeds only, the report of a refused text shows the line of
its number, without the carriage returns at its end. It shows none only if the number is 0 or the line is empty or missing. -/
theorem refused_text_shows_line {options : ReadOptions} {text : String} (hbreaks : Text.BreaksAtLineFeeds text.toList)
    {e : ParsingError} (h : parse options (.text text) = .error (.refused e)) {line : Int} (hline : e.place.line = some line) :
    ∃ n : Nat, line = n ∧ (e.place.context = sourceLine? text.toList n ∨
      e.place.context = none ∧ (n = 0 ∨ sourceLine? text.toList n = some "")) := by
  simp only [parse, Source.load, parseText] at h
  split at h
  · next e' he =>
    cases h
    split at he
    · -- the strict reader refuses the text
      rw [validate] at he
      split at he <;> cases he
      · cases hline
      · rw [refusal] at hline ⊢
        split at hline
        · cases hline
        · next n column _ =>
          cases hline
          exact ⟨n, rfl, displayedLine?_eq hbreaks n⟩
    · cases he
  · split at h
    · next e' he =>
      cases h
      rw [parseTree] at he
      split at he
      · cases he
      · next f hf =>
        have hplace := SyntaxFault.place_eq (Except.error.inj he) hline
        rw [hplace] at hline ⊢
        cases hline
        exact ⟨_, rfl, .inl rfl⟩
    · cases h

/-- The place in a report, if a text is refused. -/
def reportedPlace? : Except ParseFailure Snapshot → Option FaultPlace
  | .error (.refused e) => some e.place
  | _ => none

theorem refused_of_reportedPlace? (h : reportedPlace? r = some p) : ∃ e, r = .error (.refused e) ∧ e.place = p := by
  unfold reportedPlace? at h
  split at h
  · exact ⟨_, rfl, Option.some.inj h⟩
  · cases h

/-- The second of two lines with carriage returns, whose key is taken. -/
theorem refused_text_shows_line_twice : ∃ e, parse {} (.text "a = 1\r\na = 2\r\n") = .error (.refused e) ∧
    e.place = ⟨some 2, some 6, some "a = 2"⟩ ∧ ∃ n : Nat, (2 : Int) = n ∧
      (e.place.context = sourceLine? "a = 1\r\na = 2\r\n".toList n ∨
        e.place.context = none ∧ (n = 0 ∨ sourceLine? "a = 1\r\na = 2\r\n".toList n = some "")) := by
  obtain ⟨e, h, hplace⟩ := refused_of_reportedPlace? (r := parse {} (.text "a = 1\r\na = 2\r\n"))
    (p := ⟨some 2, some 6, some "a = 2"⟩) (by decide +kernel)
  exact ⟨e, h, hplace, refused_text_shows_line (by decide) h (by rw [hplace])⟩

/-- A line separator in a comment is no line feed: the report names the third line and shows the second one. -/
theorem separator_shifts_shown_line : ∃ e, parse {} (.text "# a\u2028b\nx = 1\nx = 2\n") = .error (.refused e) ∧
    e.place = ⟨some 3, some 6, some "x = 1"⟩ ∧ sourceLine? "# a\u2028b\nx = 1\nx = 2\n".toList 3 = some "x = 2" := by
  obtain ⟨e, h, hplace⟩ := refused_of_reportedPlace? (r := parse {} (.text "# a\u2028b\nx = 1\nx = 2\n"))
    (p := ⟨some 3, some 6, some "x = 1"⟩) (by decide +kernel)
  exact ⟨e, h, hplace, by decide +kernel⟩

end Verbatim

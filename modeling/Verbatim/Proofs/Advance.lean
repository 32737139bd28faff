import Verbatim.Proofs.FaultPlaces
import Verbatim.Proofs.StringEnd

/-!
# Reading goes on to the end

Every loop of the scanner moves on with each turn, and no turn leaves the text. A value inside an array or an inline table
begins behind the opening bracket. So no text keeps the scanner busy for ever, and no loop ends because it stands still.

## Main definitions

- `Turn` - one turn of a loop that neither ends the loop nor fails.
- `stringStep` - one turn of the search for the end of a string.

## Main statements

- `scanner_advances` - the loops of the scanner come to an end on every text.
-/

namespace Verbatim

open List Cursor

variable {c d : Cursor} {limit : Nat} {inner inner' : Numbered → ScannedValue} {s s' : Numbered} {v : Item}
  {es es' : List (Entry Item)}

/-! ## Turns -/

/-- One step over blanks, a comment or a line terminator. -/
def triviaStep? (c : Cursor) : Option Cursor :=
  match c.rest with
  | [] => none
  | '\r' :: '\n' :: _ => some (c.drop 2)
  | x :: _ => if DataReader.isBlankOrNewline x then some c.next else if x = '#' then some c.skipComment else none

/-- One turn of a loop of the scanner that neither ends the loop nor fails, and the place at which the next one begins. -/
inductive Turn (limit : Nat) : Cursor → Cursor → Prop where
  | trivia {c d : Cursor} (step : triviaStep? c = some d) : Turn limit c d
  /-- A segment of a key path and the point behind it. -/
  | segment {c d : Cursor} {name : String} (key : simpleKey c.skipBlanks = .ok (name, d))
      (point : d.skipBlanks.startsWith ['.'] = true) : Turn limit c d.skipBlanks.next
  /-- An element of an array and the comma behind it. -/
  | element {levels depth : Nat} {s s' : Numbered} {v : Item}
      (value : valueItem limit levels depth { s with cursor := s.cursor.skipTrivia } = .ok (v, s'))
      (comma : s'.cursor.skipTrivia.startsWith [','] = true) : Turn limit s.cursor s'.cursor.skipTrivia.next
  /-- An entry of an inline table and the comma behind it. -/
  | entry {levels depth : Nat} {s s' : Numbered} {es es' : List (Entry Item)}
      (entry : inlineEntry (valueItem limit levels depth) es s = .ok (es', s'))
      (comma : s'.cursor.startsWith [','] = true) : Turn limit s.cursor s'.cursor.next
  /-- A line of the text. -/
  | line {s s' : Numbered} {l : Line} (line : lineAt limit s = .ok (l, s')) : Turn limit s.cursor s'.cursor

namespace Cursor

/-- A cursor further on, on the same text. -/
@[grind =] def Before (c d : Cursor) : Prop := c.pos < d.pos ∧ d.stop = c.stop

@[grind →] theorem Before.less (h : c.Before d) : d.rest.length < c.rest.length := by
  simp only [Before, stop] at h
  omega

@[grind →] theorem before_next (h : c.startsWith [x] = true) : c.Before c.next := by
  have hpos := (spells_next h).pos
  rw [length_singleton] at hpos
  exact ⟨by omega, ahead_next.2⟩

end Cursor

theorem triviaStep?_before (h : triviaStep? c = some d) : c.Before d := by
  rw [triviaStep?] at h
  split at h
  · cases h
  · next u hrest =>
    cases h
    exact ⟨by simp [Cursor.drop, hrest], (ahead_drop 2).2⟩
  · next x u _ hrest =>
    have hstart : c.startsWith [x] = true := startsWith_singleton.mpr ⟨u, hrest⟩
    split at h
    · cases h
      exact before_next hstart
    · split at h
      · next hx =>
        cases h
        subst hx
        refine ⟨?_, ahead_skipComment.2⟩
        rw [skipComment, if_pos hstart, hrest, commentLength_cons (by decide) (by simp)]
        simp [Cursor.drop, hrest]
      · cases h

theorem expectChar_before (h : expectChar x what c = .ok d) : c.Before d := by
  have hspells := spells_expectChar h
  exact ⟨by simp [hspells.pos], Reaches.stop_eq ⟨_, hspells⟩⟩

theorem lineAt_before (h : lineAt limit s = .ok (l, s')) : s.cursor.Before s'.cursor := by
  have hskip := @ahead_skipTrivia s.cursor
  rcases lineAt_cases h with ⟨-, h⟩ | ⟨-, h⟩
  · obtain ⟨path, leaf, c₁, c₂, c₃, c₄, newline, c₆, what, what', isArray, -, rfl, hkeys, hclose, hclose', hend, -, rfl⟩ :=
      headerLine_eq_ok h
    have hkeys := hkeys.reaches.ahead
    have hclose := expectChar_before hclose
    have hend' := lineEnd_leads "the table header" c₄.skipBlanks.skipComment
    have hclose'' := expectChar_leads ']' what' c₃
    grind
  · obtain ⟨path, leaf, c₁, c₂, w, s₃, newline, c₅, hkeys, hequals, hvalue, hend, -, rfl⟩ := entryLine_eq_ok h
    have hkeys := hkeys.reaches.ahead
    have hequals := expectChar_before hequals
    have hvalue' := valueItem_leading limit openLevels 0 ⟨c₂.skipBlanks, s.number⟩
    have hend' := lineEnd_leads "a value" s₃.cursor.skipBlanks.skipComment
    grind

theorem Turn.isBefore (h : Turn limit c d) : c.Before d := by
  cases h with
  | trivia step => exact triviaStep?_before step
  | segment key point =>
    have hleads := simpleKey_leads c.skipBlanks
    rw [key] at hleads
    grind
  | @element levels depth s s' v value comma =>
    have hleads := valueItem_leading limit levels depth { s with cursor := s.cursor.skipTrivia }
    rw [value] at hleads
    grind
  | @entry levels depth s s' es es' entry comma =>
    have hleads := (valueItem_leading limit levels depth).inlineEntry es s
    rw [entry] at hleads
    grind
  | line line => exact lineAt_before line

/-! ## Blanks, comments and line terminators -/

theorem Cursor.drop_add (c : Cursor) (m n : Nat) : c.drop (m + n) = (c.drop m).drop n := by
  simp only [drop, drop_drop, length_drop, mk.injEq, and_true]
  omega

theorem triviaLength_comment (t : List Char) :
    triviaLength true t = commentLength t + triviaLength false (t.drop (commentLength t)) := by
  induction t with
  | nil => rfl
  | cons x t ih =>
    by_cases hn : x = '\n'
    · subst hn
      simp [commentLength, triviaLength, DataReader.isBlankOrNewline]
    · by_cases hr : x = '\r' ∧ t.head? = some '\n'
      · obtain ⟨rfl, ht⟩ := hr
        obtain ⟨u, rfl⟩ := head?_eq_some_iff.mp ht
        simp [commentLength, triviaLength]
      · rw [commentLength_cons hn hr, drop_succ_cons, triviaLength, if_pos rfl, show (x != '\n') = true by simpa using hn, ih]
        · omega
        · rintro u rfl rfl
          exact hr ⟨rfl, rfl⟩

/-- Blanks, comments and line terminators are passed one by one. -/
theorem skipTrivia_eq (c : Cursor) : c.skipTrivia = (triviaStep? c).elim c skipTrivia := by
  have hstep : ∀ m, (c.drop m).skipTrivia = c.drop (m + triviaLength false (c.rest.drop m)) := fun m => (drop_add ..).symm
  have hstay : c.drop 0 = c := by simp [Cursor.drop]
  rw [triviaStep?, skipTrivia]
  split
  · next hrest => rw [hrest, triviaLength, hstay, Option.elim_none]
  · next u hrest =>
    rw [hrest, triviaLength, Option.elim_some, hstep, hrest, Nat.add_comm]
    rfl
  · next x u hcrlf hrest =>
    rw [hrest, triviaLength.eq_3 _ _ _ hcrlf, if_neg Bool.false_ne_true]
    split
    · rw [Option.elim_some, Cursor.next, hstep, hrest, Nat.add_comm]
      rfl
    · split
      · next hx =>
        subst hx
        rw [Option.elim_some, skipComment, if_pos (startsWith_singleton.mpr ⟨u, hrest⟩), hstep, hrest,
          commentLength_cons (by decide) (by simp), drop_succ_cons, triviaLength_comment, Nat.add_right_comm]
      · exact hstay

/-! ## Strings -/

/-- How many characters one turn of the search for the end of a string goes on. With escapes, a backslash and the next
character are passed together. -/
def stringStep? (mark : Char) (lines : Bool) : List Char → Option Nat
  | [] => none
  | x :: t =>
    if lines = false ∧ (x = '\n' ∨ x = '\r') then none
    else if mark = '"' ∧ x = '\\' then some 2
    else if (if lines then [mark, mark, mark] else [mark]).isPrefixOf (x :: t) then none
    else some 1

/-- The number of characters before the closing mark or marks. -/
def stringBody (mark : Char) (lines : Bool) (t : List Char) : Option Nat :=
  if lines then multilineBody mark (mark == '"') t else lineBody mark (mark == '"') t

/-- The search goes on behind the characters of the turn. It leaves the text only behind a backslash at its end, and
then finds no end. -/
theorem stringBody_step (h : stringStep? mark lines t = some k) :
    0 < k ∧ k ≤ t.length + 1 ∧ stringBody mark lines t = (stringBody mark lines (t.drop k)).map (· + k) := by
  cases t with
  | nil => cases h
  | cons x t =>
    rw [stringStep?] at h
    split at h
    · cases h
    · next hline =>
      split at h
      · next hescape =>
        cases h
        obtain ⟨rfl, rfl⟩ := hescape
        cases t with
        | nil => cases lines <;> decide
        | cons y t => cases lines <;> simp [stringBody, lineBody_cons, multilineBody_cons]
      · next hescape =>
        by_cases hclose : (if lines then [mark, mark, mark] else [mark]).isPrefixOf (x :: t) = true
        · rw [if_pos hclose] at h
          cases h
        · rw [if_neg hclose] at h
          cases h
          have hescape : ¬((mark == '"') = true ∧ x = '\\') := by simpa using hescape
          refine ⟨Nat.one_pos, by simp, ?_⟩
          cases lines with
          | false =>
            have hmark : x ≠ mark := fun hx => hclose (by simp [hx])
            have hbody := lineBody_cons mark (mark == '"') x t
            rw [if_neg (by simpa using hline), if_neg hescape, if_neg hmark] at hbody
            exact hbody
          | true =>
            have hbody := multilineBody_cons mark (mark == '"') x t
            rw [if_neg hescape] at hbody
            exact hbody.trans (if_neg hclose)

/-! ## Loops without a bound -/

/-- A key path goes on behind the point of its first segment. -/
theorem keySegments_turn (hkey : simpleKey c.skipBlanks = .ok (name, d)) (hpoint : d.skipBlanks.startsWith ['.'] = true) :
    keySegments before c = (keySegments d.skipBlanks.next.pos d.skipBlanks.next).map
      (Prod.map (Prod.map (segmentKey before c name d :: ·) id) id) := by
  have hless := (@Turn.segment 0 _ _ _ hkey hpoint).isBefore.less
  rw [keySegments]
  simp only [hkey, hpoint, if_true, if_pos hless]
  cases keySegments d.skipBlanks.next.pos d.skipBlanks.next <;> rfl

/-- An array goes on behind the comma of its first element. -/
theorem arrayMembers_turn (comma : Bool) (hmore : s.cursor.skipTrivia.startsWith [']'] = false)
    (hvalue : valueItem limit levels depth { s with cursor := s.cursor.skipTrivia } = .ok (v, s'))
    (hcomma : s'.cursor.skipTrivia.startsWith [','] = true) :
    arrayMembers (valueItem limit levels depth) comma s =
      (arrayMembers (valueItem limit levels depth) true { s' with cursor := s'.cursor.skipTrivia.next }).map
        (Prod.map (placedElement s.cursor.pos s.cursor.skipTrivia.pos s'.cursor.pos s'.cursor.skipTrivia.pos v :: ·) id) := by
  have hless := (Turn.element hvalue hcomma).isBefore.less
  rw [arrayMembers]
  simp only [hmore, Bool.false_eq_true, if_false, hvalue, hcomma, if_true, if_pos hless]
  cases arrayMembers (valueItem limit levels depth) true { s' with cursor := s'.cursor.skipTrivia.next } <;> rfl

/-- An inline table goes on behind the comma of its first entry. -/
theorem inlineMembers_turn (hentry : inlineEntry (valueItem limit levels depth) es s = .ok (es', s'))
    (hcomma : s'.cursor.startsWith [','] = true) : inlineMembers (valueItem limit levels depth) es s =
      inlineMembers (valueItem limit levels depth) es' { s' with cursor := s'.cursor.next } := by
  have hless := (Turn.entry hentry hcomma).isBefore.less
  rw [inlineMembers]
  simp only [hentry, hcomma, if_true, if_pos hless]

/-- A text goes on behind its first line. -/
theorem scanLines_turn (hmore : s.cursor.skipTrivia.atEnd = false) (hline : lineAt limit s = .ok (l, s')) :
    scanLines limit s = Prod.map (l :: ·) id (scanLines limit s') := by
  have hless := (Turn.line hline).isBefore.less
  rw [lineAt] at hline
  dsimp only at hline
  rw [scanLines]
  simp only [hmore, Bool.false_eq_true, if_false, hline, if_pos hless]
  rfl

/-! ## Nested values -/

/-- Two readers of values do the same behind a cursor. -/
def AgreeBehind (c : Cursor) (inner inner' : Numbered → ScannedValue) : Prop :=
  ∀ s : Numbered, c.Before s.cursor → inner s = inner' s

theorem arrayMembers_congr (hinner : Leading inner) (h : AgreeBehind c inner inner') (comma : Bool) (hs : c.Before s.cursor) :
    arrayMembers inner comma s = arrayMembers inner' comma s := by
  have hread : ∀ s : Numbered, c.Before s.cursor → inner s = inner' s := h
  have hlead : ∀ s : Numbered, s.cursor.Leads (fun v => v.2.cursor) (inner s) := hinner
  fun_induction arrayMembers inner comma s with grind [arrayMembers]

theorem inlineEntry_congr (h : AgreeBehind c inner inner') (hs : c.Before s.cursor) :
    inlineEntry inner es s = inlineEntry inner' es s := by
  have hread : ∀ s : Numbered, c.Before s.cursor → inner s = inner' s := h
  have hkeys := keySegments_leads s.cursor.pos s.cursor
  have hequals := @expectChar_before
  grind [inlineEntry, decoratedValue]

theorem inlineMembers_congr (hinner : Leading inner) (h : AgreeBehind c inner inner') (hs : c.Before s.cursor) :
    inlineMembers inner es s = inlineMembers inner' es s := by
  have hentry : ∀ (s : Numbered) es, c.Before s.cursor → inlineEntry inner es s = inlineEntry inner' es s :=
    fun s es hs => inlineEntry_congr h hs
  have hlead := hinner.inlineEntry
  fun_induction inlineMembers inner es s with grind [inlineMembers]

/-- The members of a container are read behind its opening bracket. -/
theorem valueItemWith_congr (hinner : Leading inner) (h : AgreeBehind s.cursor inner inner') (limit depth : Nat) :
    valueItemWith limit depth inner s = valueItemWith limit depth inner' s := by
  cases hrest : s.cursor.rest with
  | nil => simp only [valueItemWith, hrest]
  | cons x u =>
    have hnext : s.cursor.Before s.cursor.next := before_next (startsWith_singleton.mpr ⟨u, hrest⟩)
    have harray : arrayItem inner s = arrayItem inner' s := by
      rw [arrayItem, arrayItem, arrayMembers_congr hinner h false hnext]
    have htable : inlineTableItem inner s = inlineTableItem inner' s := by
      rw [inlineTableItem, inlineTableItem, inlineMembers_congr hinner h hnext]
    simp only [valueItemWith, hrest, harray, htable]

/-- Nested values are read behind the bracket, so no more levels are opened than there are characters. -/
theorem valueItem_level_succ (h : s.cursor.rest.length ≤ levels) :
    valueItem limit (levels + 1) depth s = valueItem limit levels depth s := by
  induction levels generalizing depth s with
  | zero =>
    have hrest : s.cursor.rest = [] := length_eq_zero_iff.mp (Nat.le_zero.mp h)
    simp only [valueItem, valueItemWith, hrest]
  | succ levels ih =>
    refine valueItemWith_congr (valueItem_leading limit (levels + 1) (depth + 1)) (fun s' hs' => ?_) limit depth
    exact ih (Nat.le_of_lt_succ (Nat.lt_of_lt_of_le hs'.less h))

/-! ## Reading ends -/

/-- The loops of the scanner go on and come to an end on every text. -/
structure GoesOn (limit : Nat) : Prop where
  /-- A turn of a loop moves on and does not leave the text. -/
  turn : ∀ c d, Turn limit c d → c.pos < d.pos ∧ d.pos ≤ c.stop ∧ d.stop = c.stop
  trivia : ∀ c, c.skipTrivia = (triviaStep? c).elim c skipTrivia
  /-- The search for the end of a string moves on. It can leave the text by one character, and finds no end then. -/
  string : ∀ mark lines t k, stringStep? mark lines t = some k → 0 < k ∧ k ≤ t.length + 1 ∧
    (t.length < k → stringBody mark lines t = none) ∧
    stringBody mark lines t = (stringBody mark lines (t.drop k)).map (· + k)
  segment : ∀ before c name d, simpleKey c.skipBlanks = .ok (name, d) → d.skipBlanks.startsWith ['.'] = true →
    keySegments before c = (keySegments d.skipBlanks.next.pos d.skipBlanks.next).map
      (Prod.map (Prod.map (segmentKey before c name d :: ·) id) id)
  element : ∀ levels depth comma s v s', s.cursor.skipTrivia.startsWith [']'] = false →
    valueItem limit levels depth { s with cursor := s.cursor.skipTrivia } = .ok (v, s') →
    s'.cursor.skipTrivia.startsWith [','] = true → arrayMembers (valueItem limit levels depth) comma s =
      (arrayMembers (valueItem limit levels depth) true { s' with cursor := s'.cursor.skipTrivia.next }).map
        (Prod.map (placedElement s.cursor.pos s.cursor.skipTrivia.pos s'.cursor.pos s'.cursor.skipTrivia.pos v :: ·) id)
  entry : ∀ levels depth es s es' s', inlineEntry (valueItem limit levels depth) es s = .ok (es', s') →
    s'.cursor.startsWith [','] = true → inlineMembers (valueItem limit levels depth) es s =
      inlineMembers (valueItem limit levels depth) es' { s' with cursor := s'.cursor.next }
  line : ∀ s l s', s.cursor.skipTrivia.atEnd = false → lineAt limit s = .ok (l, s') →
    scanLines limit s = Prod.map (l :: ·) id (scanLines limit s')
  /-- A value inside another one begins behind the opening bracket: what a reader does before does not count. -/
  nested : ∀ levels depth s inner, AgreeBehind s.cursor (valueItem limit levels (depth + 1)) inner →
    valueItem limit (levels + 1) depth s = valueItemWith limit depth inner s
  /-- So no more levels are opened than there are characters. -/
  levels : ∀ levels depth s, s.cursor.rest.length ≤ levels →
    valueItem limit (levels + 1) depth s = valueItem limit levels depth s
  /-- Reading ends in a tree or in a fault on the text. -/
  result : ∀ source, (∃ tree, readTree limit source = .ok tree) ∨
    ∃ f, readTree limit source = .error f ∧ f.offset ≤ source.length

/-- **Reading ends on every text.** Each turn of a loop of the scanner moves on and stays on the text, the loops do what their
turns do one after the other, and nested values begin behind the brackets around them. So a text is read to its end, or up
to a fault. -/
theorem scanner_advances (limit : Nat) : GoesOn limit where
  turn _ _ h := ⟨h.isBefore.1, h.isBefore.2 ▸ pos_le_stop _, h.isBefore.2⟩
  trivia := skipTrivia_eq
  string _ _ _ _ h := by
    obtain ⟨hpos, hle, hbody⟩ := stringBody_step h
    refine ⟨hpos, hle, fun hlt => ?_, hbody⟩
    have hnil : ∀ mark lines, stringBody mark lines [] = none := by
      intro mark lines
      cases lines <;> rfl
    rw [hbody, drop_of_length_le (Nat.le_of_lt hlt), hnil, Option.map_none]
  segment _ _ _ _ := keySegments_turn
  element _ _ comma _ _ _ := arrayMembers_turn comma
  entry _ _ _ _ _ _ := inlineMembers_turn
  line _ _ _ := scanLines_turn
  nested levels depth _ _ h := valueItemWith_congr (valueItem_leading limit levels (depth + 1)) h limit depth
  levels _ _ _ := valueItem_level_succ
  result source := by
    cases h : readTree limit source with
    | ok tree => exact .inl ⟨tree, rfl⟩
    | error f => exact .inr ⟨f, rfl, readTree_fault h⟩

end Verbatim

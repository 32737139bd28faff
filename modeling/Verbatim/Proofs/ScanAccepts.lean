import Verbatim.Proofs.Standing
import Verbatim.Proofs.ValueData

/-!
# The scanner accepts what the strict reader accepts

Where the strict reader takes a key path or a value, the scanner of lines takes one too, provided that what follows cannot
belong to it. The strict reader stops at the end of the longest token and complains about the rest later; the scanner looks
for the end of the token first. Behind every key path and every value of an accepted text stands something that ends both.
-/

namespace Verbatim

open List DataReader

variable {c d d' : Cursor} {x : Char} {r : List Char} {w : Plain} {names : List String} {limit : Nat}
  {inner inner' : Cursor → Step Plain}

/-! ## Keys -/

/-- No quotation mark follows. -/
def NoMark (r : List Char) : Prop := ∀ x ∈ r.head?, x ≠ '"' ∧ x ≠ '\''

theorem NoMark.of_skipBlanks (h : NoMark (c.skipWhile isBlank).rest) : NoMark c.rest := by
  intro x hx
  obtain ⟨u, hu⟩ := List.head?_eq_some_iff.mp hx
  by_cases hblank : isBlank x = true
  · constructor <;>
    · rintro rfl
      exact absurd hblank (by decide)
  · -- the first character is no blank, so none is skipped
    refine h x ?_
    rw [Cursor.skipWhile, hu, List.dropWhile_cons_of_neg hblank]
    rfl

theorem noMark_of_startsWith (h : c.startsWith [x] = true) (hx : x ≠ '"' ∧ x ≠ '\'') : NoMark c.rest := by
  obtain ⟨u, hu⟩ := Cursor.startsWith_singleton.mp h
  intro y hy
  rw [hu] at hy
  obtain rfl : x = y := Option.some.inj hy
  exact hx

/-- The scanner takes every segment of a key path that the strict reader takes. -/
theorem simpleKey_accepts (hj : c.Joins d) (hd : keyPart d = .ok (name, d')) (hfollow : NoMark d'.rest) :
    ∃ name' c', simpleKey c = .ok (name', c') := by
  rcases hrest : d.rest with _ | ⟨x, u⟩
  · rw [keyPart, hrest] at hd
    cases hd
  have hne : x ≠ '\n' := by
    rintro rfl
    rw [keyPart, hrest] at hd
    cases hd
  obtain ⟨t, ht, -⟩ := Text.of_joinReturns_eq_cons (hj.symm.trans hrest) hne
  rw [simpleKey, ht]
  dsimp only
  by_cases hquoted : x = '"' ∨ x = '\''
  · obtain ⟨literal, rfl⟩ := exists_markOf hquoted
    have hplain := markOf_plain literal
    have hmark : c.startsWith [markOf literal] = true := Cursor.startsWith_singleton.mpr ⟨t, ht⟩
    have hmark' : d.startsWith [markOf literal] = true := Cursor.startsWith_singleton.mpr ⟨u, hrest⟩
    obtain ⟨text, hstring, rfl⟩ := (keyPart_quoted_iff hmark').mp hd
    have hfollow' : ∀ y ∈ d'.rest.head?, y ≠ markOf literal := by
      intro y hy
      exact markOf_ne (hfollow y hy)
    -- one mark behind the opening one closes the key, and no third one follows
    obtain ⟨v, hv, hrun⟩ := lineString_run hstring
    have hthree : d.startsWith (List.replicate 3 (markOf literal)) = false := by
      have hnext : d.next.rest = u := by rw [Cursor.next, Cursor.drop, hrest]; rfl
      obtain ⟨pos, rest⟩ := d
      dsimp only at hrest
      rw [hrest, ← hnext, hv]
      exact hrun.startsWith_eq hfollow' pos
    have hone : c.startsWith (List.replicate 3 (markOf literal)) = false := by
      rw [hj.startsWith_eq (by simp [hplain])]
      exact hthree
    have hvalue : stringValue d = .ok (text, d') := by
      rw [stringValue_of_mark hmark' hthree]
      exact hstring
    obtain ⟨c', hc'⟩ := stringEnd_of_stringValue hj hmark hvalue hfollow'
    have hone' : c.startsWith [markOf literal, markOf literal, markOf literal] = false := hone
    rw [if_pos hquoted, hone', if_neg Bool.false_ne_true]
    obtain ⟨-, w, hspells, hlegal, hrun'⟩ := lineString_joins hj hmark hone hc' hstring
    simp only [hc', hspells.textBetween_eq, quotedName]
    cases literal with
    | true => exact ⟨_, _, rfl⟩
    | false =>
      have hread := readKey_of_run hrun' fun y hy => (hlegal y hy).2
      simp only [markOf, Bool.false_eq_true, if_false, hread]
      exact ⟨_, _, rfl⟩
  · have hbare : isBareKeyChar x = true := by
      rw [not_or] at hquoted
      by_contra hno
      simp only [keyPart, hrest, hno, hquoted.1, hquoted.2, if_false] at hd
      cases hd
    rw [if_neg hquoted, if_pos hbare]
    exact ⟨_, _, rfl⟩

/-- The scanner takes every key path that the strict reader takes. -/
theorem keySegments_accepts (before : Nat) (hj : c.Joins d) (hd : keyPath (d.skipWhile isBlank) = .ok (names, d'))
    (hfollow : NoMark d'.rest) : ∃ path leaf c', keySegments before c = .ok ((path, leaf), c') := by
  -- a segment and its point leave less of the text
  induction hn : c.rest.length using Nat.strong_induction_on generalizing before c d names with
  | _ n ih =>
    subst hn
    obtain ⟨name, e, hpart, hrest⟩ := keyPath_eq_ok hd
    have hbehind : NoMark e.rest := by
      apply NoMark.of_skipBlanks
      rcases hrest with ⟨-, -, rfl⟩ | ⟨hpoint, -⟩
      · exact hfollow
      · exact noMark_of_startsWith hpoint (by decide)
    obtain ⟨name', c₂, hkey⟩ := simpleKey_accepts hj.skipBlanks hpart hbehind
    have hjoins := (simpleKey_joins hj.skipBlanks hkey hpart).1.skipBlanks
    have hpoint := hjoins.startsWith_eq (w := ['.']) (by simp)
    rw [keySegments]
    simp only [hkey]
    rcases hrest with ⟨hno, -, -⟩ | ⟨hyes, names', -, hmore⟩
    · rw [hpoint, if_neg (by simpa using hno)]
      exact ⟨_, _, _, rfl⟩
    · have hpoint' : c₂.skipBlanks.startsWith ['.'] = true := hpoint.trans hyes
      have hless : c₂.skipBlanks.next.rest.length < c.rest.length := by
        obtain ⟨t₁, h₁⟩ := c.reaches_skipBlanks
        obtain ⟨t₂, h₂⟩ := reaches_simpleKey hkey
        obtain ⟨t₃, h₃⟩ := c₂.reaches_skipBlanks
        have hlength := (((h₁.trans h₂).trans h₃).trans (Cursor.spells_next hpoint')).length_eq
        simp only [List.length_append, List.length_singleton] at hlength
        omega
      obtain ⟨path, leaf, c', hc'⟩ := ih _ hless c₂.skipBlanks.next.pos (hjoins.next (by decide) hpoint') hmore rfl
      rw [if_pos hpoint', if_pos hless]
      simp only [hc']
      exact ⟨_, _, _, rfl⟩

/-! ## Scalars -/

/-- What follows a value ends it: past blanks comes the end of the text, a line feed, a comment, a comma or a bracket. -/
def Stops (r : List Char) : Prop :=
  ∀ x ∈ (r.dropWhile isBlank).head?, x = '\n' ∨ x = '#' ∨ x = ',' ∨ x = ']' ∨ x = '\x7d'

theorem Stops.not_head (h : Stops r) (hx : x ∈ (r.dropWhile isBlank).head?) (hscalar : isScalarChar x = true) : False := by
  rcases h x hx with rfl | rfl | rfl | rfl | rfl <;> exact absurd hscalar (by decide)

theorem Stops.noMark (h : Stops c.rest) : NoMark c.rest := by
  refine NoMark.of_skipBlanks fun x hx => ?_
  rcases h x hx with rfl | rfl | rfl | rfl | rfl <;> decide

theorem stops_of_skipBlanks (h : (c.skipWhile isBlank).startsWith [x] = true)
    (hx : x = '\n' ∨ x = '#' ∨ x = ',' ∨ x = ']' ∨ x = '\x7d') : Stops c.rest := by
  intro y hy
  obtain ⟨u, hu⟩ := Cursor.startsWith_singleton.mp h
  rw [show c.rest.dropWhile isBlank = x :: u from hu] at hy
  obtain rfl : x = y := Option.some.inj hy
  exact hx

/-- Past blanks, comments and line feeds a value is ended by what comes then. -/
theorem stops_of_trivia (hc : skipBlanks c = .ok c') (h : c'.startsWith [x] = true) (hx : x = ',' ∨ x = ']') :
    Stops c.rest := by
  intro y hy
  by_cases hy' : y = '\n' ∨ y = '#'
  · rcases hy' with rfl | rfl
    · exact .inl rfl
    · exact .inr (.inl rfl)
  · obtain ⟨u, hu⟩ := Cursor.startsWith_singleton.mp h
    obtain ⟨t, ht⟩ := List.head?_eq_some_iff.mp hy
    have hblank := Cursor.of_dropWhile_eq_cons ht
    have hrest := Cursor.rest_of_skipBlanks hc
    rw [← triviaRest_skipBlanks, Cursor.skipWhile] at hrest
    simp only [ht, Cursor.triviaRest, isBlankOrNewline, hblank, beq_iff_eq, Bool.false_or] at hrest
    rw [not_or] at hy'
    simp only [hy'.1, hy'.2, if_false, hu] at hrest
    obtain rfl := (List.cons.inj hrest).1
    rcases hx with rfl | rfl
    · exact .inr (.inr (.inl rfl))
    · exact .inr (.inr (.inr (.inl rfl)))

theorem ends_joinReturns (h : Ends r) : Ends (Text.joinReturns r) := by
  intro y hy
  rcases Text.joinReturns_cases r with ⟨-, hr⟩ | ⟨u, -, hr⟩ | ⟨z, u, hz, -, hr⟩
  · rw [hr] at hy
    cases hy
  · rw [hr] at hy
    cases hy
    decide
  · rw [hr] at hy
    exact h y (by rw [hz]; exact hy)

/-- Every scalar that is no string begins with a character of scalars. -/
theorem bareScalar_head (hd : bareScalar d = .ok (w, d')) : ∃ x u, d.rest = x :: u ∧ isScalarChar x = true := by
  by_contra hno
  have hends : Ends d.rest := by
    intro x hx
    obtain ⟨u, hu⟩ := List.head?_eq_some_iff.mp hx
    by_contra hscalar
    exact hno ⟨x, u, hu, by simpa using hscalar⟩
  -- the reader would take the empty text for a scalar
  obtain ⟨e, he, -⟩ := bareScalar_of_append (t := []) hends (fun h => by cases h) 0 d.pos hd
  have hnone : (bareScalar ⟨0, []⟩).isOk = false := by decide +kernel
  rw [he] at hnone
  cases hnone

/-- Of a word of a scalar the strict reader takes all, if what follows ends a value. -/
theorem BareToken.spelledValue (h : BareToken t r) (hd : d.rest = t ++ Text.joinReturns r)
    (hread : bareScalar d = .ok (w, d')) (hstops : Stops d'.rest) (offset : Nat) : spelledValue t offset = .ok w := by
  have hno : isDateShape t = true → ∀ u, Text.joinReturns r = ' ' :: u → localTime? u = none := by
    intro hdate u hu
    by_contra hsome
    obtain ⟨time, htime⟩ := Option.ne_none_iff_exists'.mp hsome
    have hshape := isTimeShape_of_localTime? hu htime
    rw [h.date hdate] at hshape
    cases hshape
  obtain ⟨pos, rest⟩ := d
  dsimp only at hd
  subst hd
  obtain ⟨e, he, hrest⟩ := bareScalar_of_append (ends_joinReturns h.ends) hno 4 pos hread
  have hnil : e.rest = [] := by
    by_contra hne
    obtain ⟨n, rfl⟩ := bareScalar_eq_ok he
    -- the last character is one of scalars, so another one of them comes first past blanks
    have hlast : ∀ x ∈ (t.drop n).getLast?, isBlank x = false := by
      intro x hx
      rw [List.getLast?_drop] at hx
      split at hx
      · cases hx
      · exact isBlank_of_isScalarChar (h.last x hx)
    obtain ⟨y, u, hy⟩ : ∃ y u, (t.drop n).dropWhile isBlank = y :: u := by
      cases hdrop : (t.drop n).dropWhile isBlank with
      | cons y u => exact ⟨y, u, rfl⟩
      | nil =>
        rw [List.dropWhile_eq_nil_iff] at hdrop
        have hmem := List.getLast_mem hne
        have hblank := hdrop _ hmem
        rw [hlast _ (List.getLast?_eq_some_getLast hne)] at hblank
        cases hblank
    have hmem : y ∈ t := by
      apply List.mem_of_mem_drop (i := n)
      apply (List.dropWhile_sublist _).subset
      rw [hy]
      exact List.mem_cons_self
    have hscalar : isScalarChar y = true := by
      rcases h.chars y hmem with hy' | rfl
      · exact hy'
      · exact absurd (Cursor.of_dropWhile_eq_cons hy) (by decide)
    refine hstops.not_head (x := y) ?_ hscalar
    rw [hrest]
    show y ∈ ((t.drop n ++ Text.joinReturns r).dropWhile isBlank).head?
    rw [List.dropWhile_append, hy]
    rfl
  obtain ⟨x, hx, hscalar⟩ := h.head
  obtain ⟨u, rfl⟩ := List.head?_eq_some_iff.mp hx
  have hplain : ∀ y ∈ x :: u, y ≠ '\r' := by
    intro y hy
    rcases h.chars y hy with hy | rfl
    · rintro rfl
      exact absurd hy (by decide)
    · decide
  have hjoined := Text.joinReturns_eq_self hplain
  have hvalue : value nestingLevels ⟨4, Text.joinReturns (x :: u)⟩ = .ok (w, e) := by
    rw [hjoined, value_bare _ rfl hscalar]
    exact he
  have hhead : ∀ y ∈ (Text.joinReturns (x :: u)).head?, isBlank y = false := by
    intro y hy
    rw [hjoined] at hy
    obtain rfl : x = y := Option.some.inj hy
    exact isBlank_of_isScalarChar hscalar
  rw [Verbatim.spelledValue, readScalar_of_value hhead hvalue hnil]

/-- Digits of other scripts behind a date and a space do not end a value. -/
theorem scalarEnd_ne_error (hj : c.Joins d) (hd : bareScalar d = .ok (w, d')) (hstops : Stops d'.rest) (f : SyntaxFault) :
    scalarEnd c ≠ .error f := by
  intro herror
  simp only [scalarEnd] at herror
  split at herror
  · next hshape =>
    split at herror
    · next hpos =>
      rw [Bool.and_eq_true] at hshape
      have htoken : textBetween c (c.skipWhile isScalarChar) = c.rest.takeWhile isScalarChar :=
        (c.spells_skipWhile _).textBetween_eq
      rw [htoken] at hshape
      have hchars : ∀ x ∈ c.rest.takeWhile isScalarChar, isScalarChar x = true := fun x hx => List.mem_takeWhile_imp hx
      have hsplit : c.rest = c.rest.takeWhile isScalarChar ++ (c.skipWhile isScalarChar).rest := c.rest_skipWhile _
      generalize c.rest.takeWhile isScalarChar = t at hshape hchars hsplit
      generalize hr : (c.skipWhile isScalarChar).rest = r at hshape hsplit
      obtain ⟨a, u, rfl, hdigit⟩ : ∃ a u, r = ' ' :: a :: u ∧ Text.isDecimalDigit a = true := by
        have hshape' := hshape.2
        rw [isTimeShape.eq_def] at hshape'
        split at hshape'
        · next a b e f u =>
          rw [List.all_cons, Bool.and_eq_true] at hshape'
          exact ⟨a, b :: ':' :: e :: f :: u, rfl, hshape'.1⟩
        · cases hshape'
      -- nothing behind the space is a character of scalars
      have hforeign : isScalarChar a = false := by
        have hnext : (c.skipWhile isScalarChar).next.rest = a :: u := by rw [Cursor.next, Cursor.drop, hr]; rfl
        by_contra hscalar
        rw [Cursor.skipWhile, hnext, List.takeWhile_cons_of_pos (by simpa using hscalar)] at hpos
        simp at hpos
      have hne : ∀ {x : Char}, Text.isDecimalDigit x = false → a ≠ x := by
        rintro x hx rfl
        exact absurd (hdigit.symm.trans hx) (by decide)
      have hjoined : Text.joinReturns (' ' :: a :: u) = ' ' :: a :: Text.joinReturns u := by
        rw [Text.joinReturns_cons_of_ne _ (by decide), Text.joinReturns_cons_of_ne _ (hne (by decide +kernel))]
      have hplain : ∀ x ∈ t, x ≠ '\r' := by
        rintro x hx rfl
        exact absurd (hchars _ hx) (by decide)
      rw [Cursor.Joins, hsplit, Text.joinReturns_append _ hplain, hjoined] at hj
      have hno : isDateShape t = true → ∀ v, ' ' :: a :: Text.joinReturns u = ' ' :: v → localTime? v = none := by
        intro _ v hv
        obtain rfl := (List.cons.inj hv).2
        by_contra hsome
        obtain ⟨time, htime⟩ := Option.ne_none_iff_exists'.mp hsome
        rw [localTime?] at htime
        simp only [Option.bind_eq_bind, Option.bind_eq_some_iff] at htime
        obtain ⟨⟨hour, v⟩, hhour, -⟩ := htime
        obtain ⟨a', b', hab, ha', -⟩ := of_twoDigits? hhour
        obtain rfl := (List.cons.inj hab).1
        rw [isScalarChar_of_isDecimal ha'] at hforeign
        cases hforeign
      obtain ⟨pos, rest⟩ := d
      dsimp only at hj
      subst hj
      obtain ⟨e, he, hrest⟩ := bareScalar_of_append (by simp [Ends, isScalarChar]) hno 4 pos hd
      obtain ⟨n, rfl⟩ := bareScalar_eq_ok he
      have hrest' : d'.rest = t.drop n ++ ' ' :: a :: Text.joinReturns u := hrest
      cases hdrop : t.drop n with
      | cons y v =>
        have hscalar : isScalarChar y = true := by
          apply hchars
          apply List.mem_of_mem_drop (i := n)
          rw [hdrop]
          exact List.mem_cons_self
        refine hstops.not_head (x := y) ?_ hscalar
        have hblank : isBlank y = false := isBlank_of_isScalarChar hscalar
        rw [hrest', hdrop, List.cons_append, List.dropWhile_cons_of_neg (by simp [hblank])]
        rfl
      | nil =>
        have hblank : ¬isBlank a = true := by
          simp only [isBlank, Bool.or_eq_true, beq_iff_eq, not_or]
          exact ⟨hne (by decide +kernel), hne (by decide +kernel)⟩
        have hhead : a ∈ (d'.rest.dropWhile isBlank).head? := by
          rw [hrest', hdrop, List.nil_append, List.dropWhile_cons_of_pos (by decide), List.dropWhile_cons_of_neg hblank]
          rfl
        rcases hstops a hhead with h | h | h | h | h <;> exact hne (by decide +kernel) h
    · cases herror
  · cases herror

/-- The scanner takes every scalar that the strict reader takes. -/
theorem scalarEnd_accepts (hj : c.Joins d) (hd : bareScalar d = .ok (w, d')) (hstops : Stops d'.rest) :
    ∃ x u c', c.rest = x :: u ∧ isScalarChar x = true ∧ scalarEnd c = .ok c' ∧
      ∀ offset, spelledValue (textBetween c c') offset = .ok w := by
  obtain ⟨x, u, hx, hscalar⟩ := bareScalar_head hd
  have hne : x ≠ '\n' := ne_of_isScalarChar hscalar (by decide)
  obtain ⟨t, ht, -⟩ := Text.of_joinReturns_eq_cons (hj.symm.trans hx) hne
  cases hend : scalarEnd c with
  | error f => exact absurd hend (scalarEnd_ne_error hj hd hstops f)
  | ok c' =>
    refine ⟨x, t, c', ht, hscalar, rfl, fun offset => ?_⟩
    obtain ⟨token, hspells, htoken⟩ := scalarEnd_token ht hscalar hend
    have hplain : ∀ y ∈ token, y ≠ '\r' := by
      intro y hy
      rcases htoken.chars y hy with hy | rfl
      · rintro rfl
        exact absurd hy (by decide)
      · decide
    rw [hspells.textBetween_eq]
    refine htoken.spelledValue ?_ hd hstops offset
    rw [hj, hspells.rest, Text.joinReturns_append _ hplain]

/-! ## Readers that accept what others accept -/

/-- The scanner takes a value wherever the strict reader takes one and something follows that ends it. -/
def Accepts (read : Numbered → ScannedValue) (inner : Cursor → Step Plain) : Prop :=
  ∀ s d w d', s.cursor.Joins d → inner d = .ok (w, d') → Stops d'.rest →
    ∃ v s', read s = .ok (v, s') ∧ s.cursor.Reaches s'.cursor

theorem scalarBetween_accepts (h : spelledValue (textBetween c d) c.pos = .ok w) : ∃ v, scalarBetween c d = .ok (v, d) := by
  rw [scalarBetween, h]
  exact ⟨_, rfl⟩

/-- Scalars of all kinds are taken, whatever is said about containers. -/
theorem valueItemWith_accepts_scalar (limit depth : Nat) (read : Numbered → ScannedValue) :
    Accepts (valueItemWith limit depth read) scalar := by
  intro s d w d' hj hd hstops
  by_cases hquoted : ∃ literal, d.startsWith [markOf literal] = true
  · obtain ⟨literal, hmark'⟩ := hquoted
    have hplain := markOf_plain literal
    have hmark : s.cursor.startsWith [markOf literal] = true := (hj.startsWith_iff hplain.1 hplain.2).mpr hmark'
    obtain ⟨text, hstring, -⟩ := (scalar_string_iff hmark').mp hd
    obtain ⟨c', hc'⟩ := stringEnd_of_stringValue hj hmark hstring fun x hx => markOf_ne (hstops.noMark x hx)
    obtain ⟨-, hvalue⟩ := spelledValue_string s.cursor.pos hj hmark hc' hd
    obtain ⟨v, hv⟩ := scalarBetween_accepts hvalue
    obtain ⟨u, hu⟩ := Cursor.startsWith_singleton.mp hmark
    refine ⟨v, { s with cursor := c' }, ?_, reaches_stringEnd hc'⟩
    have hmark₁ : ¬(markOf literal = '\r' ∨ markOf literal = '\n' ∨ markOf literal = '#') := by cases literal <;> decide
    have hmark₂ : ¬(markOf literal = '[' ∨ markOf literal = '\x7b') := by cases literal <;> decide
    have hmark₃ : markOf literal = '"' ∨ markOf literal = '\'' := by cases literal <;> decide
    simp only [valueItemWith, hu, hmark₁, hmark₂, hmark₃, if_true, if_false, stringItem, hc', hv]
  · have hbare : scalar d = bareScalar d := by
      have hmarks : (d.startsWith ['"'] || d.startsWith ['\'']) = false := by
        rw [Bool.or_eq_false_iff]
        constructor
        · by_contra h
          exact hquoted ⟨false, Bool.not_eq_false _ ▸ h⟩
        · by_contra h
          exact hquoted ⟨true, Bool.not_eq_false _ ▸ h⟩
      rw [scalar, hmarks, if_neg Bool.false_ne_true]
    rw [hbare] at hd
    obtain ⟨x, u, c', hx, hscalar, hend, hvalue⟩ := scalarEnd_accepts hj hd hstops
    obtain ⟨v, hv⟩ := scalarBetween_accepts (hvalue s.cursor.pos)
    refine ⟨v, { s with cursor := c' }, ?_, reaches_scalarEnd hend⟩
    have hne : ∀ {y : Char}, isScalarChar y = false → x ≠ y := fun hy => ne_of_isScalarChar hscalar hy
    have hx₁ : ¬(x = '\r' ∨ x = '\n' ∨ x = '#') := by
      rintro (h | h | h)
      · exact hne (by decide) h
      · exact hne (by decide) h
      · exact hne (by decide) h
    have hx₂ : ¬(x = '[' ∨ x = '\x7b') := by
      rintro (h | h)
      · exact hne (by decide) h
      · exact hne (by decide) h
    have hx₃ : ¬(x = '"' ∨ x = '\'') := by
      rintro (h | h)
      · exact hne (by decide) h
      · exact hne (by decide) h
    simp only [valueItemWith, hx, hx₁, hx₂, hx₃, if_false, scalarItem, hscalar, if_true, hend, hv]

section Containers

variable {s : Numbered} {d d' : Cursor} {w : Plain} {marks : Marks} {es : List (Entry Item)} {fields : Fields}

variable {read : Numbered → ScannedValue} {inner : Cursor → Step Plain}

/-! ## Arrays -/

/-- The scanner takes the members of every array that the strict reader takes. -/
theorem arrayMembers_accepts (haccepts : Accepts read inner) (hagrees : Agrees read inner) (comma : Bool)
    (hj : s.cursor.Joins d) (hd : arrayRest inner d = .ok (ws, d')) :
    ∃ vs trailing last s', arrayMembers read comma s = .ok (vs, trailing, last, s') ∧ s.cursor.Reaches s'.cursor := by
  -- every element and its comma leave less of the text
  induction hn : s.cursor.rest.length using Nat.strong_induction_on generalizing s d ws comma with
  | _ n ih =>
    subst hn
    rw [arrayRest] at hd
    split at hd
    · cases hd
    · next e hskip =>
      have hjoins := hj.skipTrivia hskip
      have hbracket := hjoins.startsWith_eq (w := [']']) (by simp)
      obtain ⟨t₁, h₁⟩ := s.cursor.reaches_skipTrivia
      rw [arrayMembers]
      split at hd
      · next hclose =>
        have hclose' : s.cursor.skipTrivia.startsWith [']'] = true := hbracket.trans hclose
        rw [if_pos hclose']
        exact ⟨_, _, _, _, rfl, _, h₁.trans (Cursor.spells_next hclose')⟩
      · next hopen =>
        have hopen' : ¬s.cursor.skipTrivia.startsWith [']'] = true := by rw [hbracket]; exact hopen
        rw [if_neg hopen']
        obtain ⟨w, e₁, e₂, hvalue, hskip₂, hrest⟩ := arrayElements_eq_ok hd
        have hstops : Stops e₁.rest := by
          rcases hrest with ⟨hclose, -⟩ | ⟨hcomma, -⟩
          · exact stops_of_trivia hskip₂ hclose (.inr rfl)
          · exact stops_of_trivia hskip₂ hcomma (.inl rfl)
        obtain ⟨v, s₂, hread, t₂, h₂⟩ :=
          haccepts { s with cursor := s.cursor.skipTrivia } e w e₁ hjoins hvalue hstops
        obtain ⟨hjoins₁, -⟩ := hagrees _ _ _ _ _ _ hjoins hread hvalue
        have hjoins₂ := hjoins₁.skipTrivia hskip₂
        obtain ⟨t₃, h₃⟩ := s₂.cursor.reaches_skipTrivia
        have hcomma := hjoins₂.startsWith_eq (w := [',']) (by simp)
        have hclose := hjoins₂.startsWith_eq (w := [']']) (by simp)
        simp only [hread]
        rcases hrest with ⟨hyes, -⟩ | ⟨hyes, ws', -, hmore⟩
        · have hclose' : s₂.cursor.skipTrivia.startsWith [']'] = true := hclose.trans hyes
          have hno : ¬s₂.cursor.skipTrivia.startsWith [','] = true := by
            obtain ⟨u, hu⟩ := Cursor.startsWith_singleton.mp hclose'
            rw [Cursor.startsWith, hu]
            exact Bool.false_ne_true
          rw [if_neg hno, if_pos hclose']
          exact ⟨_, _, _, _, rfl, _, ((h₁.trans h₂).trans h₃).trans (Cursor.spells_next hclose')⟩
        · have hcomma' : s₂.cursor.skipTrivia.startsWith [','] = true := hcomma.trans hyes
          have hall := ((h₁.trans h₂).trans h₃).trans (Cursor.spells_next hcomma')
          have hless : s₂.cursor.skipTrivia.next.rest.length < s.cursor.rest.length := by
            have hlength := hall.length_eq
            simp only [length_append, length_singleton] at hlength
            omega
          obtain ⟨vs, trailing, last, s', hs', hreaches⟩ := ih _ hless true
            (s := { s₂ with cursor := s₂.cursor.skipTrivia.next }) (hjoins₂.next (by decide) hcomma') hmore rfl
          rw [if_pos hcomma', if_pos hless]
          simp only [hs']
          exact ⟨_, _, _, _, rfl, Cursor.Reaches.trans ⟨_, hall⟩ hreaches⟩

theorem arrayItem_accepts (haccepts : Accepts read inner) (hagrees : Agrees read inner) (hj : s.cursor.Joins d)
    (hbracket : s.cursor.startsWith ['['] = true) (hd : array inner d = .ok (w, d')) :
    ∃ v s', arrayItem read s = .ok (v, s') ∧ s.cursor.Reaches s'.cursor := by
  obtain ⟨ws, -, hmembers⟩ := array_eq_ok hd
  obtain ⟨vs, trailing, last, s', hs', hreaches⟩ := arrayMembers_accepts haccepts hagrees false
    (s := { s with cursor := s.cursor.next }) (hj.next (by decide) hbracket) hmembers
  rw [arrayItem, hs']
  exact ⟨_, _, rfl, Cursor.Reaches.trans ⟨_, Cursor.spells_next hbracket⟩ hreaches⟩

/-! ## Inline tables -/

theorem expectChar_accepts (what : String) (h : c.startsWith [x] = true) : expectChar x what c = .ok c.next := by
  obtain ⟨u, hu⟩ := Cursor.startsWith_singleton.mp h
  simp [expectChar, Cursor.peek?, hu]

theorem keyedValue_accepts (haccepts : Accepts read inner) (before : Nat) (what : String) (hj : s.cursor.Joins d)
    (hd : keyValue inner (d.skipWhile isBlank) = .ok ((names, w), d')) (hstops : Stops d'.rest) :
    ∃ path leaf c₁ c₂ v s', keySegments before s.cursor = .ok ((path, leaf), c₁) ∧ expectChar '=' what c₁ = .ok c₂ ∧
      read { s with cursor := c₂.skipBlanks } = .ok (v, s') ∧ ∃ t, 0 < t.length ∧ s.cursor.Spells t s'.cursor := by
  obtain ⟨e, t, hpath, hequals, hvalue⟩ := keyValue_iff.mp hd
  have hequals' : e.startsWith ['='] = true := Cursor.startsWith_singleton.mpr ⟨t, hequals⟩
  obtain ⟨path, leaf, c₁, hkeys⟩ := keySegments_accepts before hj hpath
    (noMark_of_startsWith hequals' (by decide))
  have hrun := keySegments_run hkeys
  have hjoins := (hrun.joins hj hpath).1
  have hequals₁ : c₁.startsWith ['='] = true := (hjoins.startsWith_iff (by decide) (by decide)).mpr hequals'
  have hjoins₂ := (hjoins.next (by decide) hequals₁).skipBlanks
  obtain ⟨v, s', hread, hreaches⟩ := haccepts { s with cursor := c₁.next.skipBlanks } _ _ _ hjoins₂ hvalue hstops
  obtain ⟨t₁, h₁⟩ := hrun.reaches
  obtain ⟨t₂, h₂⟩ := c₁.next.reaches_skipBlanks.trans hreaches
  refine ⟨path, leaf, c₁, c₁.next, v, s', hkeys, expectChar_accepts what hequals₁, hread, _, ?_,
    (h₁.trans (Cursor.spells_next hequals₁)).trans h₂⟩
  rw [length_append, length_append, length_singleton]
  omega

/-- Every container among the entries of an inline table is closed to changes, and everything else among them is a plain
value or a table that a dotted key made. -/
def Sealed (marks : Marks) (es : List (Entry Item)) : Prop :=
  ∀ p x, Stands es p x →
    x.standing = .dotted ∨ x.standing = .plain ∨ (x.standing = .container ∧ marks.isClosed p = true)

theorem Sealed.nil (marks : Marks) : Sealed marks [] := fun _ _ h => absurd h Stands.not_nil

/-- An entry that the strict reader adds can be put below its dotted key: a table on its way that no dotted key made would be
closed. -/
theorem Sealed.insertDotted (hsealed : Sealed marks es) (hes : Named es) (leaf : Entry Item)
    (hclosed : marks.isClosed (path.map Key.name ++ [leaf.name]) = false)
    (hadd : Fields.atPath false (Fields.add? leaf.name w) (path.map Key.name) (Item.unwrapFields es) = some fields) :
    ∃ es', insertDotted dottedInlineTable leaf path es = .ok es' := by
  refine insertDotted_accepts _ leaf hes (fun p x hp hx => ?_) hadd
  obtain ⟨q, hq⟩ := hp
  rw [← hq] at hadd hclosed
  have hcontainer : isContainer x.unwrap = true := by
    rcases hx.unwrap_of_atPath hes hadd with ⟨sub, hsub⟩ | ⟨hlists, -⟩
    · rw [hsub]
      rfl
    · cases hlists
  rcases hsealed p x hx with hdotted | hplain | ⟨-, hclosed'⟩
  · exact hdotted
  · exact absurd hplain (Item.standing_ne_plain hcontainer)
  · rw [append_assoc, Marks.isClosed_append p _ _ hclosed'] at hclosed
    cases hclosed

/-- With one more entry, and its value closed if it is a container, all containers are closed again. -/
theorem Sealed.add (hsealed : Sealed marks es) (hrun : DottedRun dottedInlineTable leaf path es es')
    (hv : leaf.item.isValue = true) (hd : leaf.item.isDotted = false) :
    Sealed (if isContainer leaf.item.unwrap then marks.close (path.map Key.name ++ [leaf.name]) else marks) es' := by
  have hmono : ∀ p, marks.isClosed p = true →
      (if isContainer leaf.item.unwrap then marks.close (path.map Key.name ++ [leaf.name]) else marks).isClosed p = true := by
    intro p hp
    split
    · rw [Marks.isClosed_close, hp, Bool.true_or]
    · exact hp
  intro p y hy
  rcases hrun.stands isDottedTable_dottedInlineTable (fun sub => Item.not_enters_of_isValue hv hd) hy with
    ⟨x, hx, hstanding⟩ | ⟨-, hdotted⟩ | ⟨rfl, rfl⟩
  · rw [hstanding]
    exact (hsealed p x hx).imp_right (Or.imp_right (And.imp_right (hmono p)))
  · exact .inl hdotted
  · rw [Item.standing_of_isValue hv hd]
    split
    · refine .inr (.inr ⟨rfl, ?_⟩)
      rw [Marks.isClosed_close]
      simp
    · exact .inr (.inl rfl)

section

variable (haccepts : Accepts read inner) (hagrees : Agrees read inner)

include haccepts hagrees

/-- The scanner takes every entry of an inline table that the strict reader takes. -/
theorem inlineEntry_accepts (hsealed : Sealed marks es)
    (hnamed : Named es) (hes : Dotting es) (hj : s.cursor.Joins d)
    (hd : keyValue inner (d.skipWhile isBlank) = .ok ((names, w), d')) (hstops : Stops d'.rest)
    (hclosed : marks.isClosed names = false) (hadd : Fields.atPath false (Fields.add? (names.getLastD "") w) names.dropLast
      (Item.unwrapFields es) = some fields) :
    ∃ es' s', inlineEntry read es s = .ok (es', s') ∧ s.cursor.Reaches s'.cursor ∧
      Sealed (if isContainer w then marks.close names else marks) es' ∧ Named es' := by
  obtain ⟨path, leaf, c₁, c₂, v, s₃, hkeys, hequals, hvalue, t, -, ht⟩ :=
    keyedValue_accepts haccepts s.cursor.pos "'=' after key" hj hd hstops
  obtain ⟨-, rfl, hunwrap, hv, hdotted⟩ := keyedValue_joins hagrees hj (keySegments_run hkeys) hequals hvalue hd
  rw [map_append, map_singleton] at hclosed hadd ⊢
  rw [getLastD_concat, dropLast_concat] at hadd
  let decor : Decor := ⟨some (.between c₂.pos c₂.skipBlanks.pos), some (.between s₃.cursor.pos s₃.cursor.skipBlanks.pos)⟩
  let entry : Entry Item :=
    { key := leaf, item := v.withDecor decor, dottedPath := dottedPathOf path,
      position := some ((s₃.number + 1 : Nat) : Int), newline := none }
  obtain ⟨es', hinsert⟩ := hsealed.insertDotted hnamed entry hclosed hadd
  have hentry : inlineEntry read es s = .ok (es', ⟨s₃.cursor.skipBlanks, s₃.number + 1⟩) := by
    rw [inlineEntry]
    simp only [hkeys, hequals, decoratedValue, hvalue, withAfter_withDecor hv]
    rw [show insertDotted dottedInlineTable _ path es = .ok es' from hinsert]
  have hrun := insertDotted_run hes hinsert
  have hv' : entry.item.isValue = true := (Item.isValue_withDecor _ v).trans hv
  have hdotted' : entry.item.isDotted = false := (Item.isDotted_withDecor _ v).trans hdotted
  have hsealed' := hsealed.add hrun hv' hdotted'
  rw [show entry.item.unwrap = w from (Item.unwrap_withDecor _ v).trans hunwrap] at hsealed'
  exact ⟨es', _, hentry, Cursor.Reaches.trans ⟨t, ht⟩ s₃.cursor.reaches_skipBlanks, hsealed',
    hrun.named isDottedTable_dottedInlineTable (fun sub => Item.not_enters_of_isValue hv' hdotted') hnamed⟩

/-- The scanner takes the entries of every inline table that the strict reader takes. -/
theorem inlineMembers_accepts (hsealed : Sealed marks es)
    (hnamed : Named es) (hes : Dotting es) (hj : s.cursor.Joins d)
    (hd : inlineEntries inner marks (Item.unwrapFields es) (d.skipWhile isBlank) = .ok (fields, d')) :
    ∃ es' s', inlineMembers read es s = .ok (es', s') ∧ s.cursor.Reaches s'.cursor := by
  -- every entry and its comma leave less of the text
  induction hn : s.cursor.rest.length using Nat.strong_induction_on generalizing s d es marks with
  | _ n ih =>
    subst hn
    obtain ⟨names, w, e, fields₁, hvalue, hclosed, hadd, hrest⟩ := inlineEntries_eq_ok hd
    have hstops : Stops e.rest := by
      rcases hrest with ⟨hbrace, -⟩ | ⟨hcomma, -⟩
      · exact stops_of_skipBlanks hbrace (by decide)
      · exact stops_of_skipBlanks hcomma (by decide)
    obtain ⟨es₁, s₁, hentry, ⟨t, ht⟩, hsealed₁, hnamed₁⟩ :=
      inlineEntry_accepts haccepts hagrees hsealed hnamed hes hj hvalue hstops hclosed hadd
    obtain ⟨hjoins, hes₁, hpath⟩ := inlineEntry_joins hagrees hes hj hentry hvalue
    cases hadd.symm.trans hpath
    have hcomma := hjoins.startsWith_eq (w := [',']) (by simp)
    have hbrace := hjoins.startsWith_eq (w := ['\x7d']) (by simp)
    rw [inlineMembers]
    simp only [hentry]
    rcases hrest with ⟨hyes, -⟩ | ⟨hyes, hmore⟩
    · have hbrace' : s₁.cursor.startsWith ['\x7d'] = true := hbrace.trans hyes
      have hno : ¬s₁.cursor.startsWith [','] = true := by
        obtain ⟨u, hu⟩ := Cursor.startsWith_singleton.mp hbrace'
        rw [Cursor.startsWith, hu]
        exact Bool.false_ne_true
      rw [if_neg hno, if_pos hbrace']
      exact ⟨_, _, rfl, _, ht.trans (Cursor.spells_next hbrace')⟩
    · have hcomma' : s₁.cursor.startsWith [','] = true := hcomma.trans hyes
      have hall := ht.trans (Cursor.spells_next hcomma')
      have hless : s₁.cursor.next.rest.length < s.cursor.rest.length := by
        have hlength := hall.length_eq
        simp only [length_append, length_singleton] at hlength
        omega
      obtain ⟨es', s', hs', hreaches⟩ := ih _ hless (s := { s₁ with cursor := s₁.cursor.next }) hsealed₁ hnamed₁ hes₁
        (hjoins.next (by decide) hcomma') hmore rfl
      rw [if_pos hcomma', if_pos hless]
      exact ⟨es', s', hs', Cursor.Reaches.trans ⟨_, hall⟩ hreaches⟩

theorem inlineTableItem_accepts (hj : s.cursor.Joins d)
    (hbrace : s.cursor.startsWith ['\x7b'] = true) (hd : inlineTable inner d = .ok (w, d')) :
    ∃ v s', inlineTableItem read s = .ok (v, s') ∧ s.cursor.Reaches s'.cursor := by
  have hnext := hj.next (by decide) hbrace
  have hclose := hnext.skipBlanks.startsWith_eq (w := ['\x7d']) (by simp)
  have hopen := Cursor.spells_next hbrace
  rw [inlineTableItem]
  rcases inlineTable_eq_ok hd with ⟨hyes, -, -⟩ | ⟨hno, fields, -, hentries⟩
  · have hclose' : s.cursor.next.skipBlanks.startsWith ['\x7d'] = true := hclose.trans hyes
    simp only [hclose', if_true]
    exact ⟨_, _, rfl,
      (Cursor.Reaches.trans ⟨_, hopen⟩ s.cursor.next.reaches_skipBlanks).trans ⟨_, Cursor.spells_next hclose'⟩⟩
  · have hclose' : ¬s.cursor.next.skipBlanks.startsWith ['\x7d'] = true := by
      rw [hclose, hno]
      exact Bool.false_ne_true
    obtain ⟨es, s', hs', hreaches⟩ := inlineMembers_accepts haccepts hagrees (Sealed.nil .blank) Named.nil Dotting.nil
      (s := { s with cursor := s.cursor.next }) hnext hentries
    simp only [hclose', if_false, hs', Bool.false_eq_true]
    exact ⟨_, _, rfl, Cursor.Reaches.trans ⟨_, hopen⟩ hreaches⟩

/-! ## Values -/

/-- A value is taken if its members are, and if one more level may be opened. -/
theorem valueItemWith_accepts (hdepth : depth < limit) :
    Accepts (valueItemWith limit depth read) (valueWith inner) := by
  intro s d w d' hj hd hstops
  rw [valueWith] at hd
  split at hd
  · next hbracket =>
    have hbracket' := (hj.startsWith_iff (by decide) (by decide)).mpr hbracket
    obtain ⟨u, hu⟩ := Cursor.startsWith_singleton.mp hbracket'
    simp only [valueItemWith, hu]
    rw [if_neg (by decide), if_pos (by decide), if_neg (by omega), if_pos trivial]
    exact arrayItem_accepts haccepts hagrees hj hbracket' hd
  · split at hd
    · next hbrace =>
      have hbrace' := (hj.startsWith_iff (by decide) (by decide)).mpr hbrace
      obtain ⟨u, hu⟩ := Cursor.startsWith_singleton.mp hbrace'
      simp only [valueItemWith, hu]
      rw [if_neg (by decide), if_pos (by decide), if_neg (by omega), if_neg (by decide)]
      exact inlineTableItem_accepts haccepts hagrees hj hbrace' hd
    · exact valueItemWith_accepts_scalar limit depth read s d w d' hj hd hstops

end

end Containers

namespace DataReader

/-- A value in which values nest at most `levels` deep, and arrays and inline tables at most `limit` deep. -/
def valueWithin : (limit levels : Nat) → Cursor → Step Plain
  | 0, _ => fun c => if c.startsWith ['['] || c.startsWith ['\x7b'] then fail .tooDeep c else scalar c
  | _ + 1, 0 => valueWith (fail .tooDeep)
  | limit + 1, levels + 1 => valueWith (valueWithin limit levels)

section

variable (h : ∀ c r, inner c = .ok r → inner' c = .ok r)

include h

/-- What a reader accepts with one reader of members it accepts with any other that accepts more. -/
theorem arrayElements_mono {r : List Plain × Cursor}
    (hc : arrayElements inner c = .ok r) : arrayElements inner' c = .ok r := by
  fun_induction arrayElements inner c generalizing r with
  | case1 | case2 | case4 | case6 | case8 | case9 => cases hc
  | case3 | case5 | case7 =>
    rw [arrayElements]
    grind

theorem keyValue_mono {r : (List String × Plain) × Cursor}
    (hc : keyValue inner c = .ok r) : keyValue inner' c = .ok r := by
  obtain ⟨⟨path, v⟩, d⟩ := r
  obtain ⟨e, t, hpath, hequals, hvalue⟩ := keyValue_iff.mp hc
  exact keyValue_iff.mpr ⟨e, t, hpath, hequals, h _ _ hvalue⟩

theorem inlineEntries_mono {marks : Marks} {fields : Fields}
    {r : Fields × Cursor} (hc : inlineEntries inner marks fields c = .ok r) :
    inlineEntries inner' marks fields c = .ok r := by
  fun_induction inlineEntries inner marks fields c with
  | case1 | case2 | case5 | case6 => cases hc
  | case3 | case4 =>
    rw [inlineEntries]
    grind [keyValue_mono]

theorem valueWith_mono {r : Plain × Cursor} (hc : valueWith inner c = .ok r) :
    valueWith inner' c = .ok r := by
  rw [valueWith] at hc ⊢
  split at hc
  · next hbracket =>
    rw [if_pos hbracket]
    rw [array] at hc ⊢
    split at hc
    · cases hc
    · next c₁ hskip =>
      split at hc
      · next hclose => rw [if_pos hclose]; exact hc
      · next hclose =>
        split at hc
        · cases hc
        · next vs d hvs =>
          rw [if_neg hclose, arrayElements_mono h hvs]
          exact hc
  · next hbracket =>
    rw [if_neg hbracket]
    split at hc
    · next hbrace =>
      rw [if_pos hbrace]
      rw [inlineTable] at hc ⊢
      split at hc
      · next hclose => rw [if_pos hclose]; exact hc
      · next hclose =>
        split at hc
        · cases hc
        · next fields d hfields =>
          rw [if_neg hclose, inlineEntries_mono h hfields]
          exact hc
    · next hbrace => rw [if_neg hbrace]; exact hc

end

/-- A limit only refuses values. -/
theorem value_of_valueWithin {levels : Nat} {r : Plain × Cursor} (h : valueWithin limit levels c = .ok r) :
    value levels c = .ok r := by
  induction levels generalizing limit c r with
  | zero =>
    cases limit with
    | zero => exact scalar_of_valueWithin h
    | succ limit => exact h
  | succ levels ih =>
    cases limit with
    | zero => exact scalar_of_valueWithin h
    | succ limit => exact valueWith_mono (fun c r => ih) h
where
  /-- Without room for containers the value is a scalar. -/
  scalar_of_valueWithin {levels levels' : Nat} {c : Cursor} {r : Plain × Cursor}
      (h : valueWithin 0 levels c = .ok r) : value levels' c = .ok r := by
    rw [valueWithin] at h
    dsimp only at h
    split at h
    · cases h
    · next hno =>
      rw [Bool.or_eq_true, not_or] at hno
      cases levels' <;>
      · rw [value, valueWith, if_neg hno.1, if_neg hno.2]
        exact h

end DataReader

theorem accepts_valueItem_scalar (limit levels depth : Nat) :
    Accepts (valueItem limit levels depth) (valueWithin 0 levels) := by
  intro s d w d' hj hd hstops
  have hd' : scalar d = .ok (w, d') := by
    rw [valueWithin] at hd
    dsimp only at hd
    split at hd
    · cases hd
    · exact hd
  cases levels <;> exact valueItemWith_accepts_scalar limit depth _ s d w d' hj hd' hstops

theorem agrees_valueWithin (limit levels depth room : Nat) :
    Agrees (valueItem limit levels depth) (valueWithin room levels) := by
  intro s d v s' w d' hj hs hd
  exact agrees_valueItem limit levels depth levels s d v s' w d' hj hs (value_of_valueWithin hd)

/-- Where the scanner may open as many containers as the strict reader, values are taken. -/
theorem accepts_valueItem (hroom : depth + room ≤ limit) :
    Accepts (valueItem limit levels depth) (valueWithin room levels) := by
  induction levels generalizing depth room with
  | zero =>
    cases room with
    | zero => exact accepts_valueItem_scalar limit 0 depth
    | succ room =>
      -- a container at the last level is empty
      refine valueItemWith_accepts (fun s d w d' _ hd => ?_) (fun s d v s' w d' _ _ hd => ?_) (by omega)
      · cases hd
      · cases hd
  | succ levels ih =>
    cases room with
    | zero => exact accepts_valueItem_scalar limit (levels + 1) depth
    | succ room =>
      exact valueItemWith_accepts (ih (by omega)) (agrees_valueWithin limit levels (depth + 1) room) (by omega)

end Verbatim

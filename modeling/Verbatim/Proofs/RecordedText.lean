import Verbatim.Proofs.Legible

/-!
# Recorded texts are what their places ask for

The scanner records the text of every piece without looking into comments, and takes the marks of a string for what they are.
Where the strict reader takes the same text, each recorded piece is legible: between statements and between the elements of
an array stand blanks, line terminators and comments, a key is spelled so that its name is found, and so is a scalar.
-/

namespace Verbatim

open List DataReader Text Cursor

variable {t u source r : List Char} {c d e c' d' : Cursor} {x : Char}

/-! ## References -/

/-- The reference to what stands between two cursors shows it. -/
theorem shows_between (hc : c.On source) (h : c.Spells t d) (ht : P t) :
    (SpanText.between c.pos d.pos).Shows (some source) P := by
  refine ⟨t, ?_, ht⟩
  have htext := Render.optionalText_between source "" c.pos d.pos
  rw [Render.optionalText, h.slice_eq hc] at htext
  split at htext
  · next hresolve => rw [hresolve, Except.ok.inj htext]
  · cases htext

/-! ## Comments without control characters -/

/-- The comments among the blanks and line feeds at the head of a text have no control characters. The flag says whether the
text begins within a comment. -/
def legalTrivia : Bool → List Char → Bool
  | _, [] => true
  | true, x :: t => if x = '\n' then legalTrivia false t else !isIllegalInLine x && legalTrivia true t
  | false, x :: t =>
    if isBlankOrNewline x then legalTrivia false t
    else if x = '#' then legalTrivia true t
    else true

theorem legalTrivia_dropWhile (hp : ∀ x, p x = true → isBlankOrNewline x = true) (t : List Char) :
    legalTrivia false (t.dropWhile p) = legalTrivia false t := by
  induction t with
  | nil => rfl
  | cons x t ih =>
    by_cases hx : p x = true
    · rw [dropWhile_cons_of_pos hx, ih, legalTrivia, if_pos (hp x hx)]
    · rw [dropWhile_cons_of_neg hx]

/-- A comment goes up to the next line feed. -/
theorem legalTrivia_comment (hlegal : ∀ x ∈ t.takeWhile (· != '\n'), isIllegalInLine x = false)
    (h : legalTrivia false (t.dropWhile (· != '\n')) = true) : legalTrivia true t = true := by
  induction t with
  | nil => rfl
  | cons x t ih =>
    by_cases hx : x = '\n'
    · subst hx
      exact h
    · rw [takeWhile_cons_of_pos (by simpa using hx), forall_mem_cons] at hlegal
      rw [dropWhile_cons_of_pos (by simpa using hx)] at h
      simp [legalTrivia, hx, hlegal.1, ih hlegal.2 h]

/-- A comment that the strict reader passes over has no control characters. -/
private theorem legal_of_skipComment (hc : c.rest = '#' :: t) (h : DataReader.skipComment c = .ok d) :
    (∀ x ∈ t.takeWhile (· != '\n'), isIllegalInLine x = false) ∧ d.rest = t.dropWhile (· != '\n') := by
  have hrest := rest_of_skipComment h
  rw [if_pos (startsWith_singleton.mpr ⟨t, hc⟩), hc, dropWhile_cons_of_pos (by decide)] at hrest
  refine ⟨?_, hrest⟩
  rw [DataReader.skipComment] at h
  simp only [hc] at h
  split at h
  · cases h
  · next hbad =>
    have hnext : c.next.rest = t := by rw [Cursor.next, Cursor.drop, hc]; rfl
    rw [hnext] at hbad
    exact firstBad_eq_ok.mp hbad

/-- Between the members of an array the strict reader takes no other comments. -/
theorem legalTrivia_of_skipBlanks (h : DataReader.skipBlanks d = .ok d') : legalTrivia false d.rest = true := by
  generalize hn : d.rest.length = n
  induction n using Nat.strongRecOn generalizing d with
  | ind n ih =>
    subst hn
    rw [DataReader.skipBlanks] at h
    split at h
    · cases h
    · next e he =>
      rw [← legalTrivia_dropWhile (fun _ => id) d.rest]
      cases hrest : d.rest.dropWhile isBlankOrNewline with
      | nil => rfl
      | cons x t =>
        have hx : isBlankOrNewline x = false := of_dropWhile_eq_cons hrest
        by_cases hcomment : x = '#'
        · subst hcomment
          obtain ⟨hlegal, hleft⟩ := @legal_of_skipComment t (d.skipWhile isBlankOrNewline) e hrest he
          -- the number sign was passed, so less is left
          have hlt : e.rest.length < d.rest.length := by
            have h₁ := (dropWhile_sublist (p := (· != '\n')) (l := t)).length_le
            have h₂ := (dropWhile_sublist (p := isBlankOrNewline) (l := d.rest)).length_le
            rw [hrest, length_cons] at h₂
            rw [hleft]
            omega
          rw [if_pos hlt] at h
          rw [legalTrivia, if_neg (by decide), if_pos rfl]
          exact legalTrivia_comment hlegal (hleft ▸ ih _ hlt h rfl)
        · rw [legalTrivia, if_neg (by simp [hx]), if_neg hcomment]

/-- Nor does it between statements. -/
theorem legalTrivia_of_statements (h : statements s c = .ok s') : legalTrivia false c.rest = true := by
  generalize hn : c.rest.length = n
  induction n using Nat.strongRecOn generalizing c with
  | ind n ih =>
    subst hn
    rw [← @legalTrivia_dropWhile isBlank (fun x hx => by simp [isBlankOrNewline, hx]) c.rest]
    cases hrest : c.rest.dropWhile isBlank with
    | nil => rfl
    | cons x u =>
      have hskip : (c.skipWhile isBlank).rest = x :: u := hrest
      by_cases hline : x = '\n'
      · -- an empty line
        subst hline
        have hnext : (c.skipWhile isBlank).next.rest = u := by rw [Cursor.next, Cursor.drop, hskip]; rfl
        rw [statements] at h
        simp only [hskip] at h
        split at h
        · next hlt => exact hnext ▸ ih _ hlt h rfl
        · cases h
      · by_cases hcomment : x = '#'
        · -- a line with nothing but a comment
          subst hcomment
          rw [statements_line hskip hline] at h
          have hstatement : statement s (c.skipWhile isBlank) = .ok (s, c.skipWhile isBlank) := by
            rw [statement, hskip]
            rfl
          rw [hstatement] at h
          obtain ⟨e, he, hend⟩ := afterStatement_eq_ok h
          have hcursor : (c.skipWhile isBlank).skipWhile isBlank = c.skipWhile isBlank :=
            skipWhile_of_head (by rw [hskip]; rintro _ ⟨⟩; decide)
          rw [hcursor] at he
          obtain ⟨hlegal, hleft⟩ := legal_of_skipComment hskip he
          rw [legalTrivia, if_neg (by decide), if_pos rfl]
          refine legalTrivia_comment hlegal ?_
          rw [← hleft]
          rcases hend with ⟨hnil, -⟩ | ⟨hnewline, hlt, hnext⟩
          · rw [hnil]
            rfl
          · obtain ⟨t, ht⟩ := startsWith_singleton.mp hnewline
            have hnextRest : e.next.rest = t := by rw [Cursor.next, Cursor.drop, ht]; rfl
            rw [ht, legalTrivia, if_pos (by decide), ← hnextRest]
            exact ih _ hlt hnext rfl
        · have hblank : isBlank x = false := of_dropWhile_eq_cons hrest
          rw [legalTrivia, if_neg (by simp [isBlankOrNewline, hblank, hline]), if_neg hcomment]

/-! ## Recorded gaps -/

/-- What the scanner passes over: at the end of the text, a comment may lack its terminator. -/
private def Gap (t r : List Char) : Prop := Tail t ∧ (r ≠ [] → Trivia t)

/-- What is left of a comment, and the gap behind it. -/
private def GapInComment (t r : List Char) : Prop :=
  ∃ u v, t = u ++ v ∧ (∀ x ∈ u, isIllegalInLine x = false) ∧
    (v = [] ∧ r = [] ∨ ∃ newline w, v = newline ++ w ∧ IsNewline newline ∧ Gap w r)

private theorem Gap.nil (r : List Char) : Gap [] r := ⟨Trivia.nil.tail, fun _ => .nil⟩

private theorem Gap.line (h : Gap t r) (hremark : remark = [] ∨ IsComment remark) (hnewline : IsNewline newline) :
    Gap (remark ++ (newline ++ t)) r := by
  obtain ⟨⟨a, b, rfl, ha, hb⟩, htrivia⟩ := h
  refine ⟨⟨remark ++ (newline ++ a), b, by simp, .line hremark hnewline ha, hb⟩, fun hr => .line hremark hnewline (htrivia hr)⟩

private theorem Gap.blank (h : Gap t r) (hx : isBlank x = true) : Gap (x :: t) r := by
  obtain ⟨⟨a, b, rfl, ha, hb⟩, htrivia⟩ := h
  exact ⟨⟨x :: a, b, rfl, .blank hx ha, hb⟩, fun hr => .blank hx (htrivia hr)⟩

/-- A number sign begins a comment. -/
private theorem GapInComment.gap (h : GapInComment t r) : Gap ('#' :: t) r := by
  obtain ⟨u, v, rfl, hu, ⟨rfl, rfl⟩ | ⟨newline, w, rfl, hnewline, hgap⟩⟩ := h
  · exact ⟨⟨[], '#' :: u, by simp, .nil, .inr ⟨u, rfl, hu⟩⟩, fun hr => absurd rfl hr⟩
  · exact hgap.line (.inr ⟨u, rfl, hu⟩) hnewline

private theorem legalTrivia_cons (hcrlf : ∀ u, x = '\r' → t = '\n' :: u → False)
    (h : legalTrivia inComment (joinReturns (x :: t)) = true) : legalTrivia inComment (x :: joinReturns t) = true := by
  rwa [joinReturns_cons] at h
  rintro ⟨rfl, ht⟩
  obtain ⟨u, rfl⟩ := List.head?_eq_some_iff.mp ht
  exact hcrlf u rfl rfl

/-- What the scanner passes over is a gap if its comments have no control characters. -/
private theorem gap_triviaLength (inComment : Bool) (t : List Char) (h : legalTrivia inComment (joinReturns t) = true) :
    if inComment then GapInComment (t.take (triviaLength inComment t)) (t.drop (triviaLength inComment t))
    else Gap (t.take (triviaLength inComment t)) (t.drop (triviaLength inComment t)) := by
  fun_induction triviaLength inComment t with
  | case1 inComment =>
    cases inComment with
    | false => exact Gap.nil []
    | true => exact ⟨[], [], rfl, by simp, .inl ⟨rfl, rfl⟩⟩
  | case2 inComment rest ih =>
    have hrest : legalTrivia false (joinReturns rest) = true := by
      have hjoin : joinReturns ('\r' :: '\n' :: rest) = '\n' :: joinReturns rest := rfl
      rw [hjoin] at h
      cases inComment <;> simpa [legalTrivia, isBlankOrNewline] using h
    have hgap : Gap (rest.take (triviaLength false rest)) (rest.drop (triviaLength false rest)) := ih hrest
    cases inComment with
    | false => exact hgap.line (.inl rfl) (.inr rfl)
    | true => exact ⟨[], _, rfl, by simp, .inr ⟨['\r', '\n'], _, rfl, .inr rfl, hgap⟩⟩
  | case3 x rest hcrlf ih =>
    have h := legalTrivia_cons hcrlf h
    by_cases hx : x = '\n'
    · subst hx
      exact ⟨[], _, rfl, by simp, .inr ⟨['\n'], _, rfl, .inl rfl, ih (by simpa [legalTrivia] using h)⟩⟩
    · have hne : (x != '\n') = true := by simpa using hx
      simp only [legalTrivia, if_neg hx, Bool.and_eq_true, Bool.not_eq_eq_eq_not, Bool.not_true] at h
      simp only [hne] at ih ⊢
      obtain ⟨u, v, heq, hu, hv⟩ := ih h.2
      exact ⟨x :: u, v, by simp [heq], forall_mem_cons.mpr ⟨h.1, hu⟩, hv⟩
  | case4 inComment x rest hcrlf hno hblank ih =>
    obtain rfl : inComment = false := by simpa using hno
    have h := legalTrivia_cons hcrlf h
    rw [legalTrivia, if_pos hblank] at h
    have hgap : Gap (rest.take (triviaLength false rest)) (rest.drop (triviaLength false rest)) := ih h
    simp only [isBlankOrNewline, Bool.or_eq_true, beq_iff_eq] at hblank
    rcases hblank with hblank | rfl
    · exact hgap.blank hblank
    · exact hgap.line (.inl rfl) (.inl rfl)
  | case5 inComment rest hno hcrlf hblank ih =>
    obtain rfl : inComment = false := by simpa using hno
    have h := legalTrivia_cons hcrlf h
    rw [legalTrivia, if_neg hblank, if_pos rfl] at h
    exact GapInComment.gap (ih h)
  | case6 inComment x rest hcrlf hno hblank hcomment =>
    obtain rfl : inComment = false := by simpa using hno
    exact Gap.nil _

/-- Blanks, comments and line terminators that the scanner passes over. -/
theorem spells_skipTrivia (hj : c.Joins d) (h : legalTrivia false d.rest = true) :
    ∃ t, c.Spells t c.skipTrivia ∧ Tail t ∧ (c.skipTrivia.rest ≠ [] → Trivia t) := by
  rw [hj] at h
  exact ⟨_, c.spells_drop _, gap_triviaLength false c.rest h⟩

/-- Blanks that the scanner passes over. -/
theorem spells_skipBlanks (c : Cursor) : ∃ t, c.Spells t c.skipBlanks ∧ Blanks t :=
  ⟨_, c.spells_skipWhile isBlank, fun _ hx => mem_takeWhile_imp hx⟩

/-- A comment ends before its line terminator. -/
private theorem take_commentLength (t : List Char) : t.take (commentLength t) = (joinReturns t).takeWhile (· != '\n') := by
  induction t with
  | nil => rfl
  | cons x t ih =>
    by_cases hn : x = '\n'
    · subst hn
      rfl
    · by_cases hr : x = '\r' ∧ t.head? = some '\n'
      · obtain ⟨rfl, ht⟩ := hr
        obtain ⟨u, rfl⟩ := List.head?_eq_some_iff.mp ht
        rfl
      · rw [commentLength_cons hn hr, take_succ_cons, ih, joinReturns_cons hr,
          takeWhile_cons_of_pos (by simpa using hn)]

/-- Blanks and a comment behind a statement. -/
theorem spells_lineTail (hj : c.Joins d) (h : DataReader.skipComment (d.skipWhile isBlank) = .ok e) :
    ∃ t, c.Spells t c.skipBlanks.skipComment ∧ Tail t := by
  obtain ⟨a, ha, hblanks⟩ := spells_skipBlanks c
  have hskip := hj.skipBlanks
  rw [Cursor.skipComment]
  split
  · next hcomment =>
    obtain ⟨u, hu⟩ := startsWith_singleton.mp ((hskip.startsWith_iff (by decide) (by decide)).mp hcomment)
    obtain ⟨hlegal, -⟩ := legal_of_skipComment hu h
    refine ⟨_, ha.trans (c.skipBlanks.spells_drop _), a, _, rfl, hblanks.trivia, .inr ⟨u.takeWhile (· != '\n'), ?_, hlegal⟩⟩
    rw [take_commentLength, ← hskip, hu, takeWhile_cons_of_pos (by decide)]
  · exact ⟨a, ha, hblanks.trivia.tail⟩

/-! ## Keys -/

/-- A key that both readers find is legible, with what stands around it. -/
private theorem segmentKey_legible {t₀ : List Char} {lead : List Char → Prop} {b : Cursor}
    (hb : b.On source) (hbc : b.Spells t₀ c) (hlead : ∀ t, Blanks t → lead (t₀ ++ t)) (hj : c.Joins d)
    (key : simpleKey c.skipBlanks = .ok (name, e)) (hd : keyPart (d.skipWhile isBlank) = .ok (name', d')) :
    (segmentKey b.pos c name e).Legible (some source) lead := by
  obtain ⟨t, ht, hblanks⟩ := spells_skipBlanks c
  obtain ⟨-, -, u, hu, hform⟩ := simpleKey_joins hj.skipBlanks key hd
  obtain ⟨v, hv, hblanks'⟩ := spells_skipBlanks e
  have hc := ht.on (hbc.on hb)
  refine ⟨?_, ?_, ?_⟩
  · rintro _ ⟨⟩
    exact shows_between hc hu hform.spelled
  · rintro _ ⟨⟩
    exact shows_between hb (hbc.trans ht) (hlead t hblanks)
  · rintro _ ⟨⟩
    exact shows_between (hu.on hc) hv hblanks'

/-- A key path that both readers find is legible. What stands before it belongs to its first key. -/
theorem KeyRun.legible {t₀ : List Char} {lead : List Char → Prop} {b : Cursor}
    (h : KeyRun b.pos c path leaf c') (hb : b.On source) (hbc : b.Spells t₀ c)
    (hlead : ∀ t, Blanks t → lead (t₀ ++ t)) (hj : c.Joins d) (hd : keyPath (d.skipWhile isBlank) = .ok (names, d')) :
    PathLegible (some source) lead (path ++ [leaf]) := by
  generalize hbefore : b.pos = before at h
  induction h generalizing b t₀ lead d names with
  | @last before c e name key noPoint =>
    subst hbefore
    obtain ⟨name', e', hpart, -⟩ := keyPath_eq_ok hd
    exact ⟨segmentKey_legible hb hbc hlead hj key hpart, by simp⟩
  | @more before c e c' name path leaf key point rest ih =>
    subst hbefore
    obtain ⟨name', e', hpart, hrest⟩ := keyPath_eq_ok hd
    have hkey := segmentKey_legible hb hbc hlead hj key hpart
    obtain ⟨hjoins, rfl, -⟩ := simpleKey_joins hj.skipBlanks key hpart
    have hpoint := hjoins.skipBlanks.startsWith_eq (w := ['.']) (by simp)
    rw [point] at hpoint
    rcases hrest with ⟨hpoint', -⟩ | ⟨-, names', rfl, hnames⟩
    · rw [← hpoint] at hpoint'
      cases hpoint'
    · have hon : e.skipBlanks.next.On source :=
        (hbc.on hb |> (reaches_skipBlanks c).on |> (reaches_simpleKey key).on |> (reaches_skipBlanks e).on
          |> (reaches_drop _ 1).on)
      have hpath := ih hon (.refl _) (fun t ht => ht) (hjoins.skipBlanks.next (by decide) point) hnames rfl
      refine ⟨hkey, ?_⟩
      cases path with
      | nil => simpa [PathLegible] using hpath
      | cons k path => exact forall_mem_cons.mpr hpath

/-! ## Scalars -/

/-- A string that both readers find is spelled by what stands there. -/
private theorem scalarSpelled_of_stringEnd (hj : c.Joins d) (hmark : c.startsWith [markOf literal] = true)
    (hc : stringEnd (markOf literal) c = .ok c') (hd : scalar d = .ok (w, d')) : ∃ t, c.Spells t c' ∧ ScalarSpelled t w := by
  have hplain := markOf_plain literal
  obtain ⟨text, hstring, rfl⟩ := (scalar_string_iff ((hj.startsWith_iff hplain.1 hplain.2).mp hmark)).mp hd
  obtain ⟨-, t, ht, hlast⟩ := spells_stringEnd hj hmark hc hstring
  obtain ⟨-, hreads⟩ := stringEnd_joins hj hmark hc hstring
  rw [ht.textBetween_eq] at hreads
  refine ⟨t, ht, @scalarSpelled_string t literal text ?_ hlast hreads⟩
  -- no string is read from nothing
  obtain ⟨u, hu⟩ := startsWith_singleton.mp hmark
  cases t with
  | nil =>
    obtain ⟨q, hq⟩ := hreads [] (by simp) 0
    cases hq
  | cons x t =>
    have hrest := ht.rest
    rw [hu, cons_append] at hrest
    rw [List.head?_cons, (List.cons.inj hrest).1]

/-- Any other scalar that has a value on its own is spelled by what stands there. -/
private theorem scalarSpelled_of_scalarEnd (hx : c.rest = x :: u) (hscalar : isScalarChar x = true)
    (hc : scalarEnd c = .ok c') (hv : spelledValue (textBetween c c') offset = .ok v) :
    ∃ t, c.Spells t c' ∧ ScalarSpelled t v := by
  obtain ⟨t, ht, htoken⟩ := scalarEnd_token hx hscalar hc
  rw [ht.textBetween_eq] at hv
  obtain ⟨d, hbare, hd⟩ := htoken.takenWhole hv
  exact ⟨t, ht, scalarSpelled_bare htoken.head (fun y hy => (htoken.plain y hy).1) hbare hd⟩

/-- A scalar that both readers find is legible. -/
theorem ScalarEnds.legible {value w : Plain} (h : ScalarEnds c c') (hon : c.On source) (hj : c.Joins d)
    (hvalue : spelledValue (textBetween c c') c.pos = .ok value) (hd : scalar d = .ok (w, d')) (limit levels : Nat) :
    ValueLegible (some source) none limit levels (scalarAt c c' value) := by
  obtain ⟨-, rfl⟩ := h.joins hj hvalue hd
  have hspelled : ∃ t, c.Spells t c' ∧ ScalarSpelled t value := by
    obtain ⟨x, u, hx, ⟨hquoted, hend⟩ | ⟨hscalar, hend⟩⟩ := h
    · obtain ⟨literal, rfl⟩ := exists_markOf hquoted
      exact scalarSpelled_of_stringEnd hj (startsWith_singleton.mpr ⟨u, hx⟩) hend hd
    · exact scalarSpelled_of_scalarEnd hx hscalar hend hvalue
  obtain ⟨t, ht, hspelled⟩ := hspelled
  exact .scalar (shows_between hon ht hspelled)

end Verbatim

import Verbatim.Proofs.Spelling

/-!
# Two readers on one text

A text is read twice: as it is, for its lines, and with the carriage returns before line feeds left out, for its data. The
two cursors stand at the same place if what is ahead of the one is what is ahead of the other with those returns left out.
Blanks, comments and line terminators move both to the same place again.
-/

namespace Verbatim

open List DataReader Cursor Text

variable {p : Char → Bool} {x : Char} {t : List Char} {d d' c : Cursor}

namespace Text

variable {x : Char} {a t u : List Char}

/-! ## Texts without returns -/

theorem joinReturns_cons (h : ¬(x = '\r' ∧ t.head? = some '\n')) : joinReturns (x :: t) = x :: joinReturns t := by
  rw [joinReturns]
  rintro rest rfl rfl
  exact h ⟨rfl, rfl⟩

theorem joinReturns_cons_of_ne (t : List Char) (h : x ≠ '\r') : joinReturns (x :: t) = x :: joinReturns t :=
  joinReturns_cons fun hx => h hx.1

/-- How the joined text goes on, by cases on the text. -/
theorem joinReturns_cases (t : List Char) :
    (t = [] ∧ joinReturns t = []) ∨ (∃ u, t = '\r' :: '\n' :: u ∧ joinReturns t = '\n' :: joinReturns u) ∨
      ∃ x u, t = x :: u ∧ ¬(x = '\r' ∧ u.head? = some '\n') ∧ joinReturns t = x :: joinReturns u := by
  cases t with
  | nil => exact .inl ⟨rfl, rfl⟩
  | cons x u =>
    by_cases h : x = '\r' ∧ u.head? = some '\n'
    · obtain ⟨rfl, hu⟩ := h
      cases u with
      | nil => cases hu
      | cons y u =>
        cases hu
        exact .inr (.inl ⟨u, rfl, rfl⟩)
    · exact .inr (.inr ⟨x, u, rfl, h, joinReturns_cons h⟩)

theorem joinReturns_eq_nil : joinReturns t = [] ↔ t = [] := by
  rcases joinReturns_cases t with ⟨rfl, h⟩ | ⟨u, rfl, h⟩ | ⟨x, u, rfl, -, h⟩ <;> simp [h]

/-- Any other character than a line feed stands for itself. -/
theorem of_joinReturns_eq_cons (h : joinReturns t = x :: u) (hx : x ≠ '\n') : ∃ t', t = x :: t' ∧ u = joinReturns t' := by
  rcases joinReturns_cases t with ⟨rfl, h'⟩ | ⟨v, rfl, h'⟩ | ⟨y, v, rfl, -, h'⟩
  · rw [h'] at h
    cases h
  · rw [h'] at h
    cases h
    exact absurd rfl hx
  · rw [h'] at h
    cases h
    exact ⟨v, rfl, rfl⟩

/-- A line feed stands for a line terminator of either form. -/
theorem of_joinReturns_eq_newline (h : joinReturns t = '\n' :: u) :
    (∃ t', t = '\n' :: t' ∧ u = joinReturns t') ∨ ∃ t', t = '\r' :: '\n' :: t' ∧ u = joinReturns t' := by
  rcases joinReturns_cases t with ⟨rfl, h'⟩ | ⟨v, rfl, h'⟩ | ⟨y, v, rfl, -, h'⟩
  · rw [h'] at h
    cases h
  · rw [h'] at h
    cases h
    exact .inr ⟨v, rfl, rfl⟩
  · rw [h'] at h
    cases h
    exact .inl ⟨v, rfl, rfl⟩

theorem joinReturns_append (b : List Char) (h : ∀ x ∈ a, x ≠ '\r') : joinReturns (a ++ b) = a ++ joinReturns b := by
  induction a with
  | nil => rfl
  | cons x a ih =>
    rw [cons_append, joinReturns_cons_of_ne _ (h x (mem_cons_self ..)),
      ih fun y hy => h y (mem_cons_of_mem _ hy), cons_append]

/-- Nothing is joined across a place behind any other character than a return. -/
theorem joinReturns_append_of_getLast (b : List Char) (h : a.getLast? ≠ some '\r') :
    joinReturns (a ++ b) = joinReturns a ++ joinReturns b := by
  fun_induction joinReturns a with
  | case1 => rfl
  | case2 rest ih =>
    have hlast : rest.getLast? ≠ some '\r' := fun hrest => h (by simp [List.getLast?_cons, hrest])
    exact congrArg ('\n' :: ·) (ih hlast)
  | case3 x rest hno ih =>
    cases rest with
    | nil =>
      have hx : x ≠ '\r' := fun hx => h (by rw [hx]; rfl)
      exact joinReturns_cons_of_ne b hx
    | cons y rest =>
      have hcrlf : ¬(x = '\r' ∧ (y :: rest ++ b).head? = some '\n') := by
        rintro ⟨hx, hy⟩
        cases hy
        exact hno rest hx rfl
      rw [cons_append, joinReturns_cons hcrlf, ih (by simpa using h)]
      rfl

theorem joinReturns_eq_self (h : ∀ x ∈ a, x ≠ '\r') : joinReturns a = a := by
  simpa [joinReturns] using joinReturns_append [] h

theorem of_joinReturns_eq_append (h : joinReturns t = u ++ s) (hu : ∀ x ∈ u, x ≠ '\n') :
    ∃ t', t = u ++ t' ∧ s = joinReturns t' := by
  induction u generalizing t with
  | nil => exact ⟨t, rfl, h.symm⟩
  | cons x u ih =>
    obtain ⟨t₁, rfl, h₁⟩ := of_joinReturns_eq_cons h (hu x (mem_cons_self ..))
    obtain ⟨t₂, rfl, h₂⟩ := ih h₁.symm fun y hy => hu y (mem_cons_of_mem _ hy)
    exact ⟨t₂, rfl, h₂⟩

/-- A class without line feeds and returns finds the same run in both texts. -/
theorem takeWhile_joinReturns (hr : p '\r' = false) (hn : p '\n' = false) (t : List Char) :
    (joinReturns t).takeWhile p = t.takeWhile p := by
  induction t with
  | nil => rfl
  | cons x t ih =>
    rcases joinReturns_cases (x :: t) with ⟨h, -⟩ | ⟨u, h, h'⟩ | ⟨y, u, h, -, h'⟩
    · cases h
    · cases h
      rw [h', takeWhile_cons_of_neg (by simp [hn]), takeWhile_cons_of_neg (by simp [hr])]
    · cases h
      rw [h', takeWhile_cons, takeWhile_cons, ih]

theorem dropWhile_joinReturns (hr : p '\r' = false) (hn : p '\n' = false) (t : List Char) :
    (joinReturns t).dropWhile p = joinReturns (t.dropWhile p) := by
  induction t with
  | nil => rfl
  | cons x t ih =>
    rcases joinReturns_cases (x :: t) with ⟨h, -⟩ | ⟨u, h, h'⟩ | ⟨y, u, h, -, h'⟩
    · cases h
    · cases h
      rw [h', dropWhile_cons_of_neg (by simp [hn]), dropWhile_cons_of_neg (by simp [hr]), h']
    · cases h
      rw [h', dropWhile_cons, dropWhile_cons, ih]
      split
      · rfl
      · exact h'.symm

end Text

namespace Cursor

/-! ## Cursors on both texts -/

/-- The second cursor stands where the first one does, on the text with the returns before line feeds left out. -/
def Joins (c d : Cursor) : Prop := d.rest = joinReturns c.rest

namespace Joins

variable {c d : Cursor}

theorem start (source : List Char) : (start source).Joins (.start (joinReturns source)) := rfl

section

variable (h : c.Joins d)

include h

theorem skipWhile (hr : p '\r' = false) (hn : p '\n' = false) : (c.skipWhile p).Joins (d.skipWhile p) := by
  rw [Joins] at h
  simp only [Joins, skipWhile, h]
  exact dropWhile_joinReturns hr hn _

theorem skipBlanks : c.skipBlanks.Joins (d.skipWhile isBlank) := h.skipWhile rfl rfl

theorem rest_eq_nil : d.rest = [] ↔ c.rest = [] := by
  rw [Joins] at h
  rw [h, joinReturns_eq_nil]

/-- The next characters agree, line terminators apart. -/
theorem startsWith_eq (hw : ∀ x ∈ w, x ≠ '\r' ∧ x ≠ '\n') : c.startsWith w = d.startsWith w := by
  rw [Joins] at h
  rw [Bool.eq_iff_iff, startsWith, startsWith, isPrefixOf_iff_prefix, isPrefixOf_iff_prefix, h]
  constructor
  · rintro ⟨u, hu⟩
    exact ⟨joinReturns u, by rw [← hu, joinReturns_append _ fun x hx => (hw x hx).1]⟩
  · rintro ⟨u, hu⟩
    obtain ⟨t, ht, -⟩ := of_joinReturns_eq_append hu.symm fun x hx => (hw x hx).2
    exact ⟨t, ht.symm⟩

theorem startsWith_iff (hr : x ≠ '\r') (hn : x ≠ '\n') :
    c.startsWith [x] = true ↔ d.startsWith [x] = true := by
  rw [h.startsWith_eq (by simp [hr, hn])]

theorem next (hr : x ≠ '\r') (hx : c.startsWith [x] = true) : c.next.Joins d.next := by
  obtain ⟨u, hu⟩ := startsWith_singleton.mp hx
  rw [Joins, hu, joinReturns_cons_of_ne _ hr] at h
  rw [Joins, next, next, drop, drop, h, hu]
  rfl

/-- Both cursors pass the same characters. -/
theorem spells (hs : c.Spells w c') (hw : ∀ x ∈ w, x ≠ '\r') : c'.Joins (d.drop w.length) := by
  rw [Joins, hs.rest, joinReturns_append _ hw] at h
  rw [Joins, drop, h, drop_left]

end

end Joins

/-! ## Comments and empty lines -/

/-- What blanks, comments and line feeds leave of a text. -/
def triviaRest : Bool → List Char → List Char
  | _, [] => []
  | true, x :: t => triviaRest (x != '\n') t
  | false, x :: t =>
    if isBlankOrNewline x then triviaRest false t
    else if x = '#' then triviaRest true t
    else x :: t

private theorem not_crlf (h : ∀ u, x = '\r' → t = '\n' :: u → False) : ¬(x = '\r' ∧ t.head? = some '\n') := by
  rintro ⟨hx, ht⟩
  obtain ⟨u, hu⟩ := List.head?_eq_some_iff.mp ht
  exact h u hx hu

theorem joinReturns_drop_triviaLength (inComment : Bool) (t : List Char) :
    joinReturns (t.drop (triviaLength inComment t)) = triviaRest inComment (joinReturns t) := by
  fun_induction triviaLength inComment t with
  | case1 inComment => cases inComment <;> rfl
  | case2 inComment rest ih =>
    rw [drop_succ_cons, drop_succ_cons, ih]
    cases inComment <;> rfl
  | case3 x rest hcrlf ih => rw [drop_succ_cons, ih, joinReturns_cons (not_crlf hcrlf), triviaRest]
  | case4 inComment x rest hcrlf hno hblank ih =>
    have hno : inComment = false := by simpa using hno
    subst hno
    rw [drop_succ_cons, ih, joinReturns_cons (not_crlf hcrlf), triviaRest, if_pos hblank]
  | case5 inComment rest hno hblank =>
    rename_i ih
    have hno : inComment = false := by simpa using hno
    subst hno
    rw [drop_succ_cons, ih, joinReturns_cons_of_ne _ (by decide)]
    rfl
  | case6 inComment x rest hcrlf hno hblank hcomment =>
    have hno : inComment = false := by simpa using hno
    subst hno
    rw [drop_zero, joinReturns_cons (not_crlf hcrlf), triviaRest, if_neg hblank, if_neg hcomment]

theorem triviaRest_dropWhile (t : List Char) :
    triviaRest false (t.dropWhile isBlankOrNewline) = triviaRest false t := by
  induction t with
  | nil => rfl
  | cons x t ih =>
    rw [dropWhile_cons]
    split
    · next hblank => rw [ih, triviaRest, if_pos hblank]
    · rfl

/-- A comment goes up to the next line feed, and that counts as a blank. -/
theorem triviaRest_comment (t : List Char) : triviaRest false (t.dropWhile (· != '\n')) = triviaRest true t := by
  induction t with
  | nil => rfl
  | cons x t ih =>
    rw [dropWhile_cons]
    split
    · next hx => rw [ih, triviaRest, hx]
    · next hx =>
      have hx : x = '\n' := by simpa using hx
      subst hx
      rfl

theorem drop_length_takeWhile (p : Char → Bool) (t : List Char) :
    t.drop (t.takeWhile p).length = t.dropWhile p := by
  have h := takeWhile_append_dropWhile (p := p) (l := t)
  calc t.drop (t.takeWhile p).length
      = (t.takeWhile p ++ t.dropWhile p).drop (t.takeWhile p).length := by rw [h]
    _ = t.dropWhile p := drop_left

theorem of_dropWhile_eq_cons (h : t.dropWhile p = x :: u) : p x = false := by
  have hx := List.head?_dropWhile_not p t
  rw [h] at hx
  exact hx

theorem rest_of_skipComment (h : DataReader.skipComment d = .ok d') :
    d'.rest = if d.startsWith ['#'] then d.rest.dropWhile (· != '\n') else d.rest := by
  rw [DataReader.skipComment] at h
  split at h
  · next t hrest =>
    dsimp only at h
    split at h
    · cases h
    · cases h
      have hcomment : d.startsWith ['#'] = true := startsWith_singleton.mpr ⟨t, hrest⟩
      have hnext : d.next.rest = t := by rw [next, drop, hrest]; rfl
      rw [if_pos hcomment, drop, hnext, hrest, dropWhile_cons_of_pos (by decide)]
      exact drop_length_takeWhile _ t
  · next hno =>
    cases h
    rw [if_neg]
    intro hcomment
    obtain ⟨t, ht⟩ := startsWith_singleton.mp hcomment
    exact hno t ht

/-- Skipping blanks, line feeds and comments leaves what it should. -/
theorem rest_of_skipBlanks (h : DataReader.skipBlanks d = .ok d') : d'.rest = triviaRest false d.rest := by
  generalize hn : d.rest.length = n
  induction n using Nat.strongRecOn generalizing d with
  | ind n ih =>
    rw [DataReader.skipBlanks] at h
    split at h
    · cases h
    · next e he =>
      have hrest := rest_of_skipComment he
      by_cases hcomment : (d.skipWhile isBlankOrNewline).startsWith ['#'] = true
      · rw [if_pos hcomment] at hrest
        obtain ⟨t, ht⟩ := startsWith_singleton.mp hcomment
        have ht' : d.rest.dropWhile isBlankOrNewline = '#' :: t := ht
        have htrivia : triviaRest false e.rest = triviaRest false d.rest := by
          rw [hrest, triviaRest_comment, ← triviaRest_dropWhile d.rest, ht, ht']
          rfl
        -- the number sign was passed, so less is left
        have hlt : e.rest.length < d.rest.length := by
          have h₁ := (dropWhile_sublist (p := (· != '\n')) (l := t)).length_le
          have h₂ := (dropWhile_sublist (p := isBlankOrNewline) (l := d.rest)).length_le
          rw [ht', length_cons] at h₂
          rw [hrest, ht, dropWhile_cons_of_pos (by decide)]
          omega
        rw [if_pos hlt] at h
        subst hn
        rw [ih _ hlt h rfl, htrivia]
      · rw [if_neg hcomment] at hrest
        have hstop : triviaRest false d.rest = e.rest := by
          rw [← triviaRest_dropWhile, hrest]
          show triviaRest false (d.rest.dropWhile isBlankOrNewline) = d.rest.dropWhile isBlankOrNewline
          cases hu : d.rest.dropWhile isBlankOrNewline with
          | nil => rfl
          | cons x t =>
            have hx : x ≠ '#' := fun hx => hcomment (startsWith_singleton.mpr ⟨t, hx ▸ hu⟩)
            rw [triviaRest, if_neg (by simp [of_dropWhile_eq_cons hu]), if_neg hx]
        split at h
        · next hlt =>
          subst hn
          rw [ih _ hlt h rfl, hrest]
          exact triviaRest_dropWhile d.rest
        · cases h
          exact hstop.symm

/-- Blanks, comments and line terminators bring both cursors to the same place. -/
theorem Joins.triviaRest (h : c.Joins d) (he : e.rest = triviaRest false d.rest) : c.skipTrivia.Joins e := by
  rw [Joins] at h ⊢
  rw [he, h, skipTrivia, drop, joinReturns_drop_triviaLength]

theorem Joins.skipTrivia (h : c.Joins d) (hd : DataReader.skipBlanks d = .ok d') : c.skipTrivia.Joins d' := h.triviaRest (rest_of_skipBlanks hd)

/-! ## Ends of lines -/

theorem commentLength_cons (hn : x ≠ '\n') (hr : ¬(x = '\r' ∧ t.head? = some '\n')) :
    commentLength (x :: t) = commentLength t + 1 := by
  have hbody : (x :: t).takeWhile (· != '\n') = x :: t.takeWhile (· != '\n') :=
    takeWhile_cons_of_pos (by simpa using hn)
  rw [commentLength, commentLength, hbody]
  cases ht : t.takeWhile (· != '\n') with
  | cons y b =>
    simp only [length_cons, Nat.add_lt_add_iff_right, List.getLast?_cons_cons]
    split <;> omega
  | nil =>
    -- the comment ends with this character
    cases t with
    | nil => simp
    | cons z u =>
      have hz : z = '\n' := by
        rw [takeWhile_cons] at ht
        split at ht
        · cases ht
        · next hz => simpa using hz
      have hx : x ≠ '\r' := fun hx => hr ⟨hx, by rw [hz]; rfl⟩
      simp [hx]

/-- A comment ends before its line terminator, of which the return is left out. -/
theorem joinReturns_drop_commentLength (t : List Char) :
    joinReturns (t.drop (commentLength t)) = (joinReturns t).dropWhile (· != '\n') := by
  induction t with
  | nil => rfl
  | cons x t ih =>
    rcases joinReturns_cases (x :: t) with ⟨h, -⟩ | ⟨u, h, h'⟩ | ⟨y, u, h, hr, h'⟩
    · cases h
    · cases h
      rw [h', dropWhile_cons_of_neg (by decide)]
      simp [commentLength, h']
    · cases h
      by_cases hn : x = '\n'
      · subst hn
        rw [h', dropWhile_cons_of_neg (by decide)]
        simp [commentLength, h']
      · rw [commentLength_cons hn hr, drop_succ_cons, ih, h', dropWhile_cons_of_pos (by simpa using hn)]

theorem Joins.skipComment (h : c.Joins d) (hd : DataReader.skipComment d = .ok d') : c.skipComment.Joins d' := by
  have hrest := rest_of_skipComment hd
  have hiff := h.startsWith_iff (x := '#') (by decide) (by decide)
  rw [Joins] at h ⊢
  rw [hrest, Cursor.skipComment]
  by_cases hcomment : c.startsWith ['#'] = true
  · rw [if_pos hcomment, if_pos (hiff.mp hcomment), h, drop, joinReturns_drop_commentLength]
  · rw [if_neg hcomment, if_neg fun hd => hcomment (hiff.mpr hd), h]

/-- A line ends at the same place for both cursors, and the next line begins at the same place. -/
theorem Joins.lineEnd (h : c.Joins d) (hc : lineEnd behind c = .ok (newline, c')) :
    (d.rest = [] ∧ c'.rest = []) ∨ ∃ u, d.rest = '\n' :: u ∧ c'.Joins d.next := by
  rw [Joins] at h
  rw [Verbatim.lineEnd] at hc
  split at hc
  · next hrest =>
    cases hc
    exact .inl ⟨by rw [h, hrest]; rfl, hrest⟩
  · next t hrest =>
    cases hc
    have hd : d.rest = '\n' :: joinReturns t := by rw [h, hrest]; rfl
    exact .inr ⟨_, hd, by rw [Joins, Cursor.next, Cursor.next, Cursor.drop, Cursor.drop, hd, hrest]; rfl⟩
  · next t hrest =>
    cases hc
    have hd : d.rest = '\n' :: joinReturns t := by rw [h, hrest]; rfl
    exact .inr ⟨_, hd, by rw [Joins, Cursor.next, Cursor.drop, Cursor.drop, hd, hrest]; rfl⟩
  · cases hc

end Cursor

end Verbatim

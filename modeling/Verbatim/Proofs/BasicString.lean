import Verbatim.Proofs.Joined

/-!
# Basic strings as the strict reader sees them

The grammar of basic strings as derivations: which characters a string takes up and which text it spells. The strict reader
accepts exactly these, whatever follows.
-/

namespace Verbatim.DataReader

open List Cursor

variable {lines : Bool} {t u text piece : List Char} {c d : Cursor}

/-! ## The grammar -/

/-- The grammar of basic strings from behind the opening mark on. The flag says whether the string may have several lines;
the first text is what it takes up, the second one what it spells. -/
inductive BasicRun : Bool → List Char → List Char → Prop where
  | close : BasicRun false ['"'] []
  | closeLines : BasicRun true ['"', '"', '"'] []
  /-- An escape of two characters. -/
  | short {lines : Bool} {y z : Char} {u text : List Char} (escape : simpleEscape? y = some z)
      (rest : BasicRun lines u text) : BasicRun lines ('\\' :: y :: u) (z :: text)
  /-- An escape with hexadecimal digits. -/
  | hex {lines : Bool} {y : Char} {width n : Nat} {digits u text : List Char}
      (mark : (y = 'u' ∧ width = 4) ∨ (y = 'U' ∧ width = 8)) (length : digits.length = width)
      (number : hexNumber? digits = some n) (valid : isScalarValue n = true) (rest : BasicRun lines u text) :
      BasicRun lines ('\\' :: y :: (digits ++ u)) (Char.ofNat n :: text)
  /-- A backslash at the end of a line, with all blanks and line feeds behind it. -/
  | join {blanks gap u text : List Char} (blank : blanks.all isBlank = true) (gaps : gap.all isBlankOrNewline = true)
      (stop : ∀ x ∈ u.head?, isBlankOrNewline x = false) (rest : BasicRun true u text) :
      BasicRun true ('\\' :: (blanks ++ '\n' :: (gap ++ u))) text
  /-- Any other character that is allowed. -/
  | char {lines : Bool} {x : Char} {u text : List Char} (noEscape : x ≠ '\\')
      (mark : x = '"' → lines = true ∧ ['"', '"'].isPrefixOf u = false)
      (legal : x ≠ '"' → (if lines then isIllegalInLines x else isIllegalInLine x) = false)
      (rest : BasicRun lines u text) : BasicRun lines (x :: u) (x :: text)

theorem BasicRun.ne_nil (h : BasicRun lines u text) : u ≠ [] := by
  cases h <;> simp

theorem BasicRun.two_le_length (h : BasicRun true u text) : 2 ≤ u.length := by
  cases h with
  | closeLines => decide
  | short _ rest =>
    have := length_pos_iff.mpr rest.ne_nil
    simp
  | hex _ _ _ _ rest => simp
  | join _ _ _ rest =>
    simp only [length_cons, length_append]
    omega
  | char _ _ _ rest =>
    have := length_pos_iff.mpr rest.ne_nil
    simp only [length_cons]
    omega

/-- What stands at the head of a text of some length does not depend on what follows it. -/
theorem isPrefixOf_append_of_le {w : List Char} (h : w.length ≤ u.length) (r : List Char) :
    w.isPrefixOf (u ++ r) = w.isPrefixOf u := by
  induction w generalizing u with
  | nil => simp
  | cons x w ih =>
    cases u with
    | nil => simp at h
    | cons y u => simp only [cons_append, List.isPrefixOf, ih (by simpa using h)]

/-! ## What the reader accepts -/

theorem hexChar_eq_ok (h : hexChar width c = .ok (piece, d)) :
    ∃ digits n, c.rest = digits ++ d.rest ∧ digits.length = width ∧ hexNumber? digits = some n ∧
      isScalarValue n = true ∧ piece = [Char.ofNat n] := by
  rw [hexChar] at h
  split at h
  · next n hn =>
    split at h
    · cases h
    · next hlength =>
      split at h
      · next hvalid =>
        cases h
        exact ⟨c.rest.take width, n, (take_append_drop width c.rest).symm, by simpa using hlength, hn, hvalid, rfl⟩
      · cases h
  · cases h

theorem hexChar_append (hn : hexNumber? digits = some n) (hvalid : isScalarValue n = true) (q : Nat) (r : List Char) :
    hexChar digits.length ⟨q, digits ++ r⟩ = .ok ([Char.ofNat n], ⟨q + digits.length, r⟩) := by
  simp [hexChar, hn, hvalid, Cursor.drop]

/-- The part of a line join behind the backslash and the character after it. -/
theorem lineJoin_eq_ok (hx : isBlankOrNewline x = true) (h : lineJoin c x = .ok (piece, d)) (hd : d.rest ≠ []) :
    piece = [] ∧ (∀ y ∈ d.rest.head?, isBlankOrNewline y = false) ∧ ∃ blanks gap, blanks.all isBlank = true ∧
      gap.all isBlankOrNewline = true ∧ x :: c.rest = blanks ++ '\n' :: (gap ++ d.rest) := by
  have hstop : ∀ t : List Char, ∀ y ∈ (t.dropWhile isBlankOrNewline).head?, isBlankOrNewline y = false := by
    intro t y hy
    obtain ⟨u, hu⟩ := List.head?_eq_some_iff.mp hy
    exact of_dropWhile_eq_cons hu
  rw [lineJoin] at h
  split at h
  · next hn =>
    cases h
    refine ⟨rfl, hstop _, [], c.rest.takeWhile isBlankOrNewline, rfl, all_takeWhile, ?_⟩
    rw [hn, nil_append, ← rest_skipWhile]
  · next hn =>
    dsimp only at h
    split at h
    · next hrest =>
      cases h
      exact absurd hrest hd
    · next t hrest =>
      cases h
      have ht : (c.skipWhile isBlank).next.rest = t := by rw [Cursor.next, Cursor.drop, hrest]; rfl
      have hblank : isBlank x = true := by simpa [isBlankOrNewline, hn] using hx
      refine ⟨rfl, hstop _, x :: c.rest.takeWhile isBlank, t.takeWhile isBlankOrNewline, by simp [hblank],
        all_takeWhile, ?_⟩
      have hsplit := c.rest_skipWhile isBlank
      rw [hrest] at hsplit
      have htail := (c.skipWhile isBlank).next.rest_skipWhile isBlankOrNewline
      rw [ht] at htail
      rw [cons_append, ← htail, ← hsplit]
    · cases h

/-- The ways that an escape can go. -/
theorem escape_eq_ok (hc : c.rest = '\\' :: t) (h : escape lines c = .ok (piece, d)) (hd : d.rest ≠ []) :
    (∃ y z, simpleEscape? y = some z ∧ t = y :: d.rest ∧ piece = [z]) ∨
      (∃ y width digits n, ((y = 'u' ∧ width = 4) ∨ (y = 'U' ∧ width = 8)) ∧ digits.length = width ∧
        hexNumber? digits = some n ∧ isScalarValue n = true ∧ t = y :: (digits ++ d.rest) ∧ piece = [Char.ofNat n]) ∨
      (lines = true ∧ piece = [] ∧ (∀ y ∈ d.rest.head?, isBlankOrNewline y = false) ∧ ∃ blanks gap,
        blanks.all isBlank = true ∧ gap.all isBlankOrNewline = true ∧ t = blanks ++ '\n' :: (gap ++ d.rest)) := by
  have hnext : c.next.rest = t := by rw [Cursor.next, Cursor.drop, hc]; rfl
  have hbehind : (c.drop 2).rest = t.tail := by rw [Cursor.drop, hc]; simp
  rw [escape] at h
  rw [peek?, hnext] at h
  split at h
  · cases h
  · next x hx =>
    obtain ⟨u, rfl⟩ := List.head?_eq_some_iff.mp hx
    rw [tail_cons] at hbehind
    split at h
    · next hjoin =>
      simp only [Bool.and_eq_true] at hjoin
      obtain ⟨hpiece, hstop, blanks, gap, hblanks, hgap, heq⟩ := lineJoin_eq_ok hjoin.2 h hd
      rw [hbehind] at heq
      exact .inr (.inr ⟨hjoin.1, hpiece, hstop, blanks, gap, hblanks, hgap, heq⟩)
    · split at h
      · next hu =>
        obtain ⟨digits, n, hrest, hlength, hnumber, hvalid, rfl⟩ := hexChar_eq_ok h
        rw [hbehind] at hrest
        exact .inr (.inl ⟨x, 4, digits, n, .inl ⟨hu, rfl⟩, hlength, hnumber, hvalid, by rw [hrest], rfl⟩)
      · split at h
        · next hU =>
          obtain ⟨digits, n, hrest, hlength, hnumber, hvalid, rfl⟩ := hexChar_eq_ok h
          rw [hbehind] at hrest
          exact .inr (.inl ⟨x, 8, digits, n, .inr ⟨hU, rfl⟩, hlength, hnumber, hvalid, by rw [hrest], rfl⟩)
        · split at h
          · next z hz =>
            cases h
            exact .inl ⟨x, z, hz, by rw [hbehind], rfl⟩
          · cases h

/-- The reader accepts only what the grammar allows. -/
theorem basicBody_run (h : basicBody lines c = .ok (text, d)) : ∃ u, c.rest = u ++ d.rest ∧ BasicRun lines u text := by
  generalize hn : c.rest.length = n
  induction n using Nat.strongRecOn generalizing c text with
  | ind n ih =>
    subst hn
    rw [basicBody] at h
    split at h
    · cases h
    · next x t hrest =>
      split at h
      · next hclose =>
        cases h
        obtain ⟨rfl, hlines⟩ := hclose
        have hlines : lines = false := by simpa using hlines
        subst hlines
        exact ⟨['"'], by rw [hrest, Cursor.next, Cursor.drop, hrest]; rfl, .close⟩
      · next hclose =>
        split at h
        · next hmarks =>
          cases h
          have hlines : lines = true := by simpa [hmarks.1] using hclose
          subst hlines
          exact ⟨_, (Cursor.spells_of_startsWith hmarks.2).rest, .closeLines⟩
        · next hmarks =>
          split at h
          · next hslash =>
            subst hslash
            split at h
            · cases h
            · next piece e hescape =>
              split at h
              · next hlt =>
                split at h
                · cases h
                · next text' d' hbody =>
                  cases h
                  obtain ⟨u, hu, hrun⟩ := ih _ hlt hbody rfl
                  have hne : e.rest ≠ [] := by simp [hu, hrun.ne_nil]
                  rcases escape_eq_ok hrest hescape hne with ⟨y, z, hz, rfl, rfl⟩ |
                    ⟨y, width, digits, n, hmark, hlength, hnumber, hvalid, rfl, rfl⟩ |
                    ⟨rfl, rfl, hstop, blanks, gap, hblanks, hgap, rfl⟩
                  · exact ⟨_, by rw [hrest, hu]; rfl, .short hz hrun⟩
                  · exact ⟨_, by rw [hrest, hu]; simp, .hex hmark hlength hnumber hvalid hrun⟩
                  · refine ⟨_, by rw [hrest, hu]; simp, .join hblanks hgap (fun y hy => hstop y ?_) hrun⟩
                    rw [hu, List.head?_append, hy]
                    rfl
              · cases h
          · next hslash =>
            -- The condition holds a choice of its own, so the two cases are named by hand.
            by_cases hlegal : x ≠ '"' ∧ (if lines then isIllegalInLines x else isIllegalInLine x) = true
            · rw [if_pos hlegal] at h
              cases h
            · rw [if_neg hlegal] at h
              split at h
              · cases h
              · next text' d' hbody =>
                cases h
                have hlt : (⟨c.pos + 1, t⟩ : Cursor).rest.length < c.rest.length := by simp [hrest]
                obtain ⟨u, hu, hrun⟩ := ih _ hlt hbody rfl
                have hu : t = u ++ d.rest := hu
                refine ⟨x :: u, by rw [hrest, hu]; rfl, .char hslash (fun hx => ?_) (fun hx => ?_) hrun⟩
                · have hlines : lines = true := by simpa [hx] using hclose
                  subst hlines
                  refine ⟨rfl, ?_⟩
                  have hno : ¬ ['"', '"'].isPrefixOf t = true := by
                    simpa [hx, startsWith, hrest, List.isPrefixOf] using hmarks
                  have hle : ['"', '"'].length ≤ u.length := hrun.two_le_length
                  rwa [hu, isPrefixOf_append_of_le hle, Bool.not_eq_true] at hno
                · simpa [hx] using hlegal

/-! ## Whatever follows -/

private theorem escape_short (h : simpleEscape? y = some z) (p : Nat) (r : List Char) :
    ∃ q, escape lines ⟨p, '\\' :: y :: r⟩ = .ok ([z], ⟨q, r⟩) := by
  have hblank : isBlankOrNewline y = false ∧ y ≠ 'u' ∧ y ≠ 'U' := by
    unfold simpleEscape? at h
    split at h <;> first | decide | cases h
  refine ⟨p + min 2 (r.length + 2), ?_⟩
  simp [escape, Cursor.next, Cursor.drop, Cursor.peek?, hblank.1, hblank.2.1, hblank.2.2, h]

private theorem escape_hex (mark : (y = 'u' ∧ width = 4) ∨ (y = 'U' ∧ width = 8))
    (length : digits.length = width) (number : hexNumber? digits = some n) (valid : isScalarValue n = true) (p : Nat)
    (r : List Char) : ∃ q, escape lines ⟨p, '\\' :: y :: (digits ++ r)⟩ = .ok ([Char.ofNat n], ⟨q, r⟩) := by
  have hchar := hexChar_append number valid (drop 2 ⟨p, '\\' :: y :: (digits ++ r)⟩).pos r
  refine ⟨_, Eq.trans ?_ hchar⟩
  rcases mark with ⟨rfl, hw⟩ | ⟨rfl, hw⟩
  · rw [length, hw]
    simp [escape, Cursor.next, Cursor.drop, Cursor.peek?, isBlankOrNewline, isBlank]
  · rw [length, hw]
    simp [escape, Cursor.next, Cursor.drop, Cursor.peek?, isBlankOrNewline, isBlank]

private theorem dropWhile_append_of_all {p : Char → Bool} {a b : List Char} (ha : a.all p = true)
    (hb : ∀ x ∈ b.head?, p x = false) : (a ++ b).dropWhile p = b := by
  rw [dropWhile_append_of_pos (all_eq_true.mp ha)]
  cases b with
  | nil => rfl
  | cons x b => exact dropWhile_cons_of_neg (by simp [hb x rfl])

private theorem escape_join {blanks gap : List Char} (blank : blanks.all isBlank = true)
    (gaps : gap.all isBlankOrNewline = true) (stop : ∀ x ∈ t.head?, isBlankOrNewline x = false) (p : Nat) :
    ∃ c, escape true ⟨p, '\\' :: (blanks ++ '\n' :: (gap ++ t))⟩ = .ok ([], c) ∧ c.rest = t := by
  have hgap := dropWhile_append_of_all gaps stop
  cases blanks with
  | nil => exact ⟨(drop 2 ⟨p, '\\' :: '\n' :: (gap ++ t)⟩).skipWhile isBlankOrNewline, rfl, hgap⟩
  | cons x blanks =>
    simp only [all_cons, Bool.and_eq_true] at blank
    have hx : x ≠ '\n' := by
      rintro rfl
      exact absurd blank.1 (by decide)
    have hblank : isBlankOrNewline x = true := by simp [isBlankOrNewline, blank.1]
    generalize hc : drop 2 ⟨p, '\\' :: (x :: blanks ++ '\n' :: (gap ++ t))⟩ = c
    -- the rest of the blanks ends at the line feed
    have hblanks : (c.skipWhile isBlank).rest = '\n' :: (gap ++ t) := by
      rw [← hc]
      exact dropWhile_append_of_all blank.2 (by simp [isBlank])
    refine ⟨(c.skipWhile isBlank).next.skipWhile isBlankOrNewline, ?_, ?_⟩
    · have hescape : escape true ⟨p, '\\' :: (x :: blanks ++ '\n' :: (gap ++ t))⟩ = lineJoin c x := by
        rw [escape, ← hc]
        simp [Cursor.next, Cursor.drop, Cursor.peek?, hblank]
      rw [hescape, lineJoin, if_neg hx]
      dsimp only
      rw [hblanks]
      rfl
    · have hnext : (c.skipWhile isBlank).next.rest = gap ++ t := by
        rw [Cursor.next, Cursor.drop, hblanks]
        rfl
      rw [skipWhile, hnext]
      exact hgap

private theorem basicBody_escape (hescape : escape lines ⟨p, '\\' :: t⟩ = .ok (piece, c)) (hle : c.rest.length ≤ t.length)
    (hbody : basicBody lines c = .ok (text, d)) : basicBody lines ⟨p, '\\' :: t⟩ = .ok (piece ++ text, d) := by
  rw [basicBody]
  have hlt : c.rest.length < ('\\' :: t).length := Nat.lt_succ_of_le hle
  simp only [hescape, hbody, hlt, if_true]
  rfl

private theorem basicBody_char (hx : x ≠ '\\') (mark : x = '"' → lines = true ∧ ['"', '"'].isPrefixOf t = false)
    (legal : x ≠ '"' → (if lines then isIllegalInLines x else isIllegalInLine x) = false)
    (hbody : basicBody lines ⟨p + 1, t⟩ = .ok (text, d)) : basicBody lines ⟨p, x :: t⟩ = .ok (x :: text, d) := by
  rw [basicBody]
  have hclose : ¬(x = '"' ∧ (!lines) = true) := by
    rintro ⟨hmark, hlines⟩
    simp [(mark hmark).1] at hlines
  have hmarks : ¬(x = '"' ∧ startsWith ['"', '"', '"'] ⟨p, x :: t⟩ = true) := by
    rintro ⟨rfl, hmarks⟩
    have hno : ['"', '"'].isPrefixOf t = true := hmarks
    rw [(mark rfl).2] at hno
    cases hno
  have hlegal : ¬(x ≠ '"' ∧ (if lines then isIllegalInLines x else isIllegalInLine x) = true) := by
    rintro ⟨hne, hbad⟩
    rw [legal hne] at hbad
    cases hbad
  dsimp only
  rw [if_neg hclose, if_neg hmarks, if_neg hx, if_neg hlegal, hbody]

/-- Whatever follows a string, the reader ends it at the same place and finds the same text. -/
theorem BasicRun.read (h : BasicRun lines u text) (r : List Char) (p : Nat) :
    ∃ q, basicBody lines ⟨p, u ++ r⟩ = .ok (text, ⟨q, r⟩) := by
  induction h generalizing p with
  | close => exact ⟨p + min 1 (r.length + 1), by rw [basicBody]; rfl⟩
  | closeLines => exact ⟨p + min 3 (r.length + 3), by rw [basicBody]; rfl⟩
  | @short lines y z u text escape rest ih =>
    obtain ⟨q, hq⟩ := @escape_short lines _ _ escape p (u ++ r)
    obtain ⟨e, he⟩ := ih q
    exact ⟨e, basicBody_escape hq (by simp) he⟩
  | @hex lines y width n digits u text mark length number valid rest ih =>
    obtain ⟨q, hq⟩ := @escape_hex lines _ _ _ _ mark length number valid p (u ++ r)
    obtain ⟨e, he⟩ := ih q
    rw [← append_assoc] at hq
    exact ⟨e, basicBody_escape hq (by simp; omega) he⟩
  | @join blanks gap u text blank gaps stop rest ih =>
    have hstop : ∀ x ∈ (u ++ r).head?, isBlankOrNewline x = false := by
      cases u with
      | nil => exact absurd rfl rest.ne_nil
      | cons x u => exact stop
    obtain ⟨⟨q, t⟩, hq, rfl⟩ := escape_join blank gaps hstop p
    obtain ⟨e, he⟩ := ih q
    refine ⟨e, ?_⟩
    have hread := basicBody_escape hq (by simp; omega) he
    simpa using hread
  | @char lines x u text noEscape mark legal rest ih =>
    obtain ⟨e, he⟩ := ih (p + 1)
    refine ⟨e, basicBody_char noEscape (fun hx => ?_) legal he⟩
    -- two characters of the string follow, so what comes behind it makes no closing marks
    obtain ⟨rfl, hno⟩ := mark hx
    have hle : ['"', '"'].length ≤ u.length := rest.two_le_length
    exact ⟨rfl, (isPrefixOf_append_of_le hle r).trans hno⟩

end Verbatim.DataReader

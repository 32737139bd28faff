import Verbatim.Proofs.StringRun

/-!
# Where strings end

The scanner of lines looks for the end of a string without decoding it. Where the strict reader accepts a string, both end
it at the same place, carriage returns before line feeds left out.
-/

namespace Verbatim

open List DataReader Cursor Text

variable {x y mark : Char} {t u text : List Char} {literal escapes : Bool} {c d c' d' : Cursor}

/-! ## Passing over characters -/

theorem lineBody_cons (mark : Char) (escapes : Bool) (x : Char) (t : List Char) :
    lineBody mark escapes (x :: t) =
      if x = '\n' ∨ x = '\r' then none
      else if escapes = true ∧ x = '\\' then (if t = [] then none else (lineBody mark escapes t.tail).map (· + 2))
      else if x = mark then some 0
      else (lineBody mark escapes t).map (· + 1) := by
  cases t <;> rfl

theorem multilineBody_cons (mark : Char) (escapes : Bool) (x : Char) (t : List Char) :
    multilineBody mark escapes (x :: t) =
      if escapes = true ∧ x = '\\' then (if t = [] then none else (multilineBody mark escapes t.tail).map (· + 2))
      else if [mark, mark, mark].isPrefixOf (x :: t) then some 0
      else (multilineBody mark escapes t).map (· + 1) := by
  cases t <;> rfl

theorem lineBody_append (t : List Char) (ha : ∀ x ∈ a, x ≠ '\n' ∧ x ≠ '\r' ∧ x ≠ mark ∧ (escapes = true → x ≠ '\\')) :
    lineBody mark escapes (a ++ t) = (lineBody mark escapes t).map (· + a.length) := by
  induction a with
  | nil => simp
  | cons x a ih =>
    obtain ⟨hn, hr, hmark, hslash⟩ := ha x (mem_cons_self ..)
    have hline : ¬(x = '\n' ∨ x = '\r') := by simp [hn, hr]
    have hescape : ¬(escapes = true ∧ x = '\\') := fun h => hslash h.1 h.2
    rw [cons_append, lineBody_cons, if_neg hline, if_neg hescape, if_neg hmark, ih fun y hy => ha y (mem_cons_of_mem _ hy), Option.map_map]
    rfl

theorem multilineBody_append (t : List Char) (ha : ∀ x ∈ a, x ≠ mark ∧ (escapes = true → x ≠ '\\')) :
    multilineBody mark escapes (a ++ t) = (multilineBody mark escapes t).map (· + a.length) := by
  induction a with
  | nil => simp
  | cons x a ih =>
    obtain ⟨hmark, hslash⟩ := ha x (mem_cons_self ..)
    have hescape : ¬(escapes = true ∧ x = '\\') := fun h => hslash h.1 h.2
    have hmarks : ¬[mark, mark, mark].isPrefixOf (x :: (a ++ t)) = true := by simp [isPrefixOf, Ne.symm hmark]
    rw [cons_append, multilineBody_cons, if_neg hescape, if_neg hmarks, ih fun y hy => ha y (mem_cons_of_mem _ hy), Option.map_map]
    rfl

theorem hexValue?_isSome (h : hexNumber? digits = some n) : ∀ x ∈ digits, (hexValue? x).isSome = true := by
  have hfold : ∀ (start : Option Nat), (digits.foldl (fun n c => do return (← n) * 16 + (← hexValue? c)) start).isSome →
      start.isSome ∧ ∀ x ∈ digits, (hexValue? x).isSome = true := by
    clear h
    induction digits with
    | nil => exact fun start h => ⟨h, by simp⟩
    | cons x digits ih =>
      intro start h
      obtain ⟨hstart, hrest⟩ := ih _ h
      cases start with
      | none => cases hstart
      | some m =>
        cases hx : hexValue? x with
        | none => simp [hx] at hstart
        | some k =>
          refine ⟨rfl, fun y hy => ?_⟩
          rcases mem_cons.mp hy with rfl | hy
          · rw [hx]
            rfl
          · exact hrest y hy
  exact (hfold (some 0) (by rw [← hexNumber?, h]; rfl)).2

theorem plain_of_hexValue? (h : (hexValue? x).isSome = true) : x ≠ '\n' ∧ x ≠ '\r' ∧ x ≠ '"' ∧ x ≠ '\\' := by
  refine ⟨?_, ?_, ?_, ?_⟩ <;>
  · rintro rfl
    exact absurd h (by decide)

/-! ## Strings on one line -/

theorem lineBody_markOf (literal : Bool) (t : List Char) :
    lineBody (markOf literal) (markOf literal == '"') (markOf literal :: t) = some 0 := by
  rw [lineBody_cons]
  cases literal <;> rfl

private theorem plain_of_simpleEscape? (h : simpleEscape? y = some z) : y ≠ '\n' ∧ y ≠ '\r' := by
  refine ⟨?_, ?_⟩ <;>
  · rintro rfl
    exact absurd h (by simp [simpleEscape?])

private theorem plain_of_legal (h : isIllegalInLine x = false) : x ≠ '\n' ∧ x ≠ '\r' := by
  refine ⟨?_, ?_⟩ <;>
  · rintro rfl
    exact absurd h (by decide)

private theorem lineBody_escape : lineBody '"' true ('\\' :: y :: t) = (lineBody '"' true t).map (· + 2) := by
  rw [lineBody_cons, if_neg (by decide), if_pos ⟨rfl, rfl⟩, if_neg (by simp)]
  rfl

/-- A basic string on one line has no line terminator, and the scanner finds its closing mark. -/
theorem DataReader.BasicRun.scan_line (h : BasicRun false u text) (s : List Char) :
    (∀ x ∈ u, x ≠ '\n' ∧ x ≠ '\r') ∧ ∃ n, u.length = n + 1 ∧ lineBody '"' true (u ++ s) = some n := by
  generalize hlines : false = lines at h
  induction h with
  | close => exact ⟨by simp, 0, rfl, lineBody_markOf false s⟩
  | closeLines => cases hlines
  | @short lines y z u text escape rest ih =>
    obtain ⟨hplain, n, hlength, hscan⟩ := ih hlines
    refine ⟨?_, n + 2, by simp [hlength], by rw [List.cons_append, List.cons_append, lineBody_escape, hscan]; rfl⟩
    simp only [List.forall_mem_cons]
    exact ⟨by decide, plain_of_simpleEscape? escape, hplain⟩
  | @hex lines y width n digits u text mark length number valid rest ih =>
    obtain ⟨hplain, m, hlength, hscan⟩ := ih hlines
    have hdigits := fun x hx => plain_of_hexValue? (hexValue?_isSome number x hx)
    refine ⟨?_, m + digits.length + 2, by simp only [List.length_cons, List.length_append, hlength]; omega, ?_⟩
    · simp only [List.forall_mem_cons, List.forall_mem_append]
      refine ⟨by decide, ?_, fun x hx => ⟨(hdigits x hx).1, (hdigits x hx).2.1⟩, hplain⟩
      rcases mark with ⟨rfl, -⟩ | ⟨rfl, -⟩ <;> decide
    · rw [List.cons_append, List.cons_append, lineBody_escape, List.append_assoc,
        lineBody_append _ fun x hx => ⟨(hdigits x hx).1, (hdigits x hx).2.1, (hdigits x hx).2.2.1, fun _ => (hdigits x hx).2.2.2⟩,
        hscan]
      rfl
  | join => cases hlines
  | @char lines x u text noEscape mark legal rest ih =>
    subst hlines
    obtain ⟨hplain, n, hlength, hscan⟩ := ih rfl
    have hmark : x ≠ '"' := fun hx => absurd (mark hx).1 (by decide)
    have hx := plain_of_legal (legal hmark)
    refine ⟨by simpa [hx] using hplain, n + 1, by simp [hlength], ?_⟩
    have hpass := @lineBody_append '"' true [x] (u ++ s) (by simp [hx, hmark, noEscape])
    rw [hscan] at hpass
    exact hpass

theorem DataReader.LineRun.scan (h : LineRun literal u text) (s : List Char) :
    (∀ x ∈ u, x ≠ '\n' ∧ x ≠ '\r') ∧
      ∃ n, u.length = n + 1 ∧ lineBody (markOf literal) (markOf literal == '"') (u ++ s) = some n := by
  cases literal with
  | false => exact BasicRun.scan_line h s
  | true =>
    obtain ⟨rfl, hrun⟩ := h
    have hplain := fun x hx => plain_of_legal (hrun.legal x hx)
    refine ⟨?_, text.length, by simp, ?_⟩
    · simp only [forall_mem_append]
      exact ⟨hplain, by simp⟩
    · rw [append_assoc, lineBody_append]
      · exact congrArg (Option.map (· + text.length)) (lineBody_markOf true s) |>.trans (by simp)
      · refine fun x hx => ⟨(hplain x hx).1, (hplain x hx).2, ?_, fun h => by cases h⟩
        rintro rfl
        exact hrun.mark_not_mem hx

theorem markOf_plain (literal : Bool) : markOf literal ≠ '\r' ∧ markOf literal ≠ '\n' := by cases literal <;> decide

/-- Both readers end a string on one line at the same place. -/
theorem lineString_joins (hj : c.Joins d) (hmark : c.startsWith [markOf literal] = true)
    (hone : c.startsWith (replicate 3 (markOf literal)) = false) (hc : stringEnd (markOf literal) c = .ok c')
    (hd : lineString literal d = .ok (text, d')) :
    c'.Joins d' ∧ ∃ u, c.Spells (markOf literal :: u) c' ∧ (∀ x ∈ u, x ≠ '\n' ∧ x ≠ '\r') ∧ LineRun literal u text := by
  obtain ⟨u, hu, hrun⟩ := lineString_run hd
  have hnext := hj.next (markOf_plain literal).1 hmark
  rw [Joins, hu] at hnext
  obtain ⟨hplain, n, hlength, -⟩ := hrun.scan []
  obtain ⟨t, ht, hrest⟩ := of_joinReturns_eq_append hnext.symm fun x hx => (hplain x hx).1
  obtain ⟨-, m, hm, hscan⟩ := hrun.scan t
  -- the scanner passes over as many characters as the string has
  rw [stringEnd] at hc
  have hthree : c.startsWith [markOf literal, markOf literal, markOf literal] = false := hone
  simp only [hthree, Bool.false_eq_true, if_false, ht, hscan] at hc
  cases hc
  have hspells := c.next.spells_drop (m + 1)
  rw [ht, ← hm, take_left] at hspells
  have hend : (c.next.drop (m + 1)).rest = t := by rw [Cursor.drop, ht, ← hm]; simp
  refine ⟨by rw [Joins, hrest, hend], u, ?_, hplain, hrun⟩
  rw [← hm]
  exact (spells_next hmark).trans hspells

/-! ## Strings of several lines -/

private theorem multilineBody_escape : multilineBody '"' true ('\\' :: y :: t) = (multilineBody '"' true t).map (· + 2) := by
  rw [multilineBody_cons, if_pos ⟨rfl, rfl⟩, if_neg (by simp)]
  rfl

theorem multilineBody_markOf (literal : Bool) (t : List Char) :
    multilineBody (markOf literal) (markOf literal == '"') (List.replicate 3 (markOf literal) ++ t) = some 0 := by
  rw [List.replicate_succ, List.cons_append, multilineBody_cons]
  cases literal <;> simp [markOf, List.replicate]

private theorem plain_of_blank (h : isBlankOrNewline x = true) : x ≠ '"' ∧ x ≠ '\\' := by
  refine ⟨?_, ?_⟩ <;>
  · rintro rfl
    exact absurd h (by decide)

/-- The scanner finds the closing marks of a basic string of several lines. -/
theorem DataReader.BasicRun.scan_lines (h : BasicRun lines u text) (hlines : lines = true) (s : List Char) :
    ∃ a, u = a ++ ['"', '"', '"'] ∧ multilineBody '"' true (u ++ s) = some a.length := by
  induction h with
  | close => cases hlines
  | closeLines => exact ⟨[], rfl, multilineBody_markOf false s⟩
  | @short lines y z u text escape rest ih =>
    obtain ⟨a, rfl, hscan⟩ := ih hlines
    refine ⟨'\\' :: y :: a, rfl, ?_⟩
    rw [cons_append, cons_append, multilineBody_escape, hscan]
    rfl
  | @hex lines y width n digits u text mark length number valid rest ih =>
    obtain ⟨a, rfl, hscan⟩ := ih hlines
    have hdigits := fun x hx => plain_of_hexValue? (hexValue?_isSome number x hx)
    refine ⟨'\\' :: y :: (digits ++ a), by simp, ?_⟩
    rw [cons_append, cons_append, multilineBody_escape, append_assoc,
      multilineBody_append _ fun x hx => ⟨(hdigits x hx).2.2.1, fun _ => (hdigits x hx).2.2.2⟩, hscan]
    simp only [Option.map_some, length_cons, length_append, Option.some.injEq]
    omega
  | @join blanks gap u text blank gaps stop rest ih =>
    obtain ⟨a, rfl, hscan⟩ := ih rfl
    have hgap : ∀ x ∈ blanks ++ '\n' :: gap, isBlankOrNewline x = true := by
      simp only [all_eq_true] at blank gaps
      simp only [forall_mem_append, forall_mem_cons]
      exact ⟨fun x hx => by simp [isBlankOrNewline, blank x hx], rfl, gaps⟩
    have hsplit : ∀ t, blanks ++ '\n' :: (gap ++ t) = (blanks ++ '\n' :: gap) ++ t := by simp
    rw [hsplit]
    -- the backslash hides the first of the blanks, and the others are passed over
    obtain ⟨y, w, hw⟩ : ∃ y w, blanks ++ '\n' :: gap = y :: w := exists_cons_of_ne_nil (by simp)
    rw [hw] at hgap ⊢
    have hplain := fun x hx => plain_of_blank (hgap x (mem_cons_of_mem _ hx))
    refine ⟨'\\' :: y :: (w ++ a), by simp, ?_⟩
    rw [cons_append, cons_append, cons_append, multilineBody_escape, append_assoc,
      multilineBody_append _ fun x hx => ⟨(hplain x hx).1, fun _ => (hplain x hx).2⟩, hscan]
    simp only [Option.map_some, length_cons, length_append, Option.some.injEq]
    omega
  | @char lines x u text noEscape mark legal rest ih =>
    subst hlines
    obtain ⟨a, rfl, hscan⟩ := ih rfl
    refine ⟨x :: a, rfl, ?_⟩
    have hno : ¬['"', '"', '"'].isPrefixOf (x :: (a ++ ['"', '"', '"'] ++ s)) = true := by
      intro hmarks
      obtain ⟨hx, hmarks⟩ := (Bool.and_eq_true _ _).mp hmarks
      have hle : ['"', '"'].length ≤ (a ++ ['"', '"', '"']).length := by simp
      rw [isPrefixOf_append_of_le hle, (mark (beq_iff_eq.mp hx).symm).2] at hmarks
      cases hmarks
    rw [List.cons_append, multilineBody_cons, if_neg (by simp [noEscape]), if_neg hno, hscan]
    rfl

theorem multilineBody_literal (mark : Char) (t : List Char) :
    multilineBody mark false t = (before? [mark, mark, mark] t).map List.length := by
  induction t with
  | nil => rfl
  | cons x t ih =>
    rw [multilineBody_cons, if_neg (by simp), before?, ih]
    split
    · rfl
    · rw [Option.map_map, Option.map_map]
      rfl

theorem DataReader.BlockRun.scan (h : BlockRun literal u text) (s : List Char) :
    ∃ a, u = a ++ List.replicate 3 (markOf literal) ∧
      multilineBody (markOf literal) (markOf literal == '"') (u ++ s) = some a.length := by
  cases literal with
  | false => exact BasicRun.scan_lines h rfl s
  | true =>
    obtain ⟨rfl, hrun⟩ := h
    refine ⟨text, rfl, ?_⟩
    have hbefore := hrun.before s
    rw [← append_assoc] at hbefore
    exact (multilineBody_literal '\'' _).trans (by rw [hbefore]; rfl)

/-- Leaving out returns before line feeds does not move the end of a string of several lines. -/
theorem multilineBody_joinReturns (hr : mark ≠ '\r') (hn : mark ≠ '\n')
    (h : multilineBody mark escapes (joinReturns t) = some n) :
    ∃ m, multilineBody mark escapes t = some m ∧ joinReturns (t.drop m) = (joinReturns t).drop n := by
  generalize hlength : t.length = k
  induction k using Nat.strongRecOn generalizing t n with
  | ind k ih =>
    subst hlength
    -- a line terminator is passed over in either form
    have hpass : ∀ w u : List Char, (∀ x ∈ w, x = '\r' ∨ x = '\n') →
        multilineBody mark escapes (w ++ u) = (multilineBody mark escapes u).map (· + w.length) := by
      intro w u hw
      refine multilineBody_append u fun x hx => ?_
      rcases hw x hx with rfl | rfl
      · exact ⟨hr.symm, fun _ => by decide⟩
      · exact ⟨hn.symm, fun _ => by decide⟩
    rcases joinReturns_cases t with ⟨rfl, hjoin⟩ | ⟨u, rfl, hjoin⟩ | ⟨x, u, rfl, -, hjoin⟩
    · cases h
    · rw [hjoin, ← singleton_append, hpass _ _ (by simp)] at h
      obtain ⟨n, hn', rfl⟩ := Option.map_eq_some_iff.mp h
      obtain ⟨m, hm, hdrop⟩ := ih u.length (by simp only [length_cons]; omega) hn' rfl
      exact ⟨m + 2, by rw [show '\r' :: '\n' :: u = ['\r', '\n'] ++ u from rfl, hpass _ _ (by simp), hm]; rfl,
        by rw [hjoin]; exact hdrop⟩
    · rw [hjoin, multilineBody_cons] at h
      rw [hjoin, multilineBody_cons]
      split at h
      · next hescape =>
        rw [if_pos hescape]
        split at h
        · cases h
        · next hne =>
          obtain ⟨n, hn', rfl⟩ := Option.map_eq_some_iff.mp h
          -- the hidden character may be the return of a line terminator
          rcases joinReturns_cases u with ⟨rfl, hu⟩ | ⟨v, rfl, hu⟩ | ⟨y, v, rfl, -, hu⟩
          · exact absurd hu hne
          · rw [hu] at hn' ⊢
            obtain ⟨m, hm, hdrop⟩ := ih v.length (by simp; omega) hn' rfl
            refine ⟨m + 3, ?_, hdrop⟩
            rw [if_neg (by simp), tail_cons, ← singleton_append, hpass _ _ (by simp), hm]
            rfl
          · rw [hu] at hn' ⊢
            obtain ⟨m, hm, hdrop⟩ := ih v.length (by simp only [length_cons]; omega) hn' rfl
            exact ⟨m + 2, by rw [if_neg (by simp), tail_cons, hm]; rfl, hdrop⟩
      · next hescape =>
        rw [if_neg hescape]
        have hmarks : [mark, mark, mark].isPrefixOf (x :: u) = [mark, mark, mark].isPrefixOf (x :: joinReturns u) :=
          Joins.startsWith_eq (c := ⟨0, x :: u⟩) (d := ⟨0, x :: joinReturns u⟩) hjoin.symm
            (by simp [hr, hn])
        rw [hmarks]
        split at h
        · next hyes =>
          cases h
          exact ⟨0, if_pos hyes, hjoin⟩
        · next hno =>
          rw [if_neg hno]
          obtain ⟨n, hn', rfl⟩ := Option.map_eq_some_iff.mp h
          obtain ⟨m, hm, hdrop⟩ := ih u.length (by simp) hn' rfl
          exact ⟨m + 1, by rw [hm]; rfl, hdrop⟩

/-- Of a run of at most two marks, the reader takes all. -/
theorem rest_of_extraMarks {inner : List Char} (h : extraMarks mark inner e = (text, d))
    (hle : (e.rest.takeWhile (· == mark)).length ≤ 2) :
    d.rest = e.rest.dropWhile (· == mark) := by
  obtain ⟨n, hn, -, hrest, hstop⟩ := @extraMarks_eq inner mark e
  rw [h] at hrest hstop
  dsimp only at hrest hstop
  have hmarks : ∀ x ∈ replicate n mark, (x == mark) = true := by simp
  have hhead : ∀ x ∈ d.rest.head?, ¬(x == mark) = true := by
    intro x hx hmark
    have hx' : x = mark := by simpa using hmark
    -- with less than two marks taken, none is left
    have htwo : n = 2 := by
      by_contra hne
      exact hstop (by omega) x hx hx'
    obtain ⟨u, hu⟩ := head?_eq_some_iff.mp hx
    rw [hrest, hu, takeWhile_append_of_pos hmarks, takeWhile_cons_of_pos (p := (· == mark)) hmark] at hle
    simp only [length_append, length_replicate, length_cons] at hle
    omega
  rw [hrest, dropWhile_append_of_pos hmarks]
  cases hd : d.rest with
  | nil => rfl
  | cons x u => rw [dropWhile_cons_of_neg (p := (· == mark)) (hhead x (by rw [hd]; rfl))]

section

variable (hj : c.Joins d)

include hj

/-- The scanner finds the closing marks of a string of several lines where the strict reader does, on the text with returns
as on the one without. -/
theorem multilineString_scan (hmarks : c.startsWith (replicate 3 (markOf literal)) = true)
    (hd : multilineString literal d = .ok (text, d')) :
    ∃ m t e inner, multilineBody (markOf literal) (markOf literal == '"') (c.drop 3).rest = some m ∧
      ((c.drop 3).drop m).rest = List.replicate 3 (markOf literal) ++ t ∧ e.rest = Text.joinReturns t ∧
      extraMarks (markOf literal) inner e = (text, d') := by
  have hplain := markOf_plain literal
  obtain ⟨t, ht⟩ := List.isPrefixOf_iff_prefix.mp hmarks
  rw [Cursor.Joins, ← ht, Text.joinReturns_append _ (by simp [hplain.1])] at hj
  obtain ⟨e, inner, hbody, hextra⟩ := multilineString_eq_ok hd
  obtain ⟨u, hu, hrun⟩ := blockBody_run hbody
  obtain ⟨lead, hlead, hskip⟩ := blockStart_rest (by simp) hj
  obtain ⟨a, rfl, hscan⟩ := hrun.scan e.rest
  have hjoined : multilineBody (markOf literal) (markOf literal == '"') (joinReturns t) =
      some (a.length + lead.length) := by
    rw [hlead, hu, multilineBody_append, hscan]
    · rfl
    · rcases hskip with rfl | ⟨rfl, -⟩
      · simpa using hplain.2.symm
      · simp
  obtain ⟨m, hm, hdrop⟩ := multilineBody_joinReturns hplain.1 hplain.2 hjoined
  have hsplit : joinReturns t = (lead ++ a) ++ (replicate 3 (markOf literal) ++ e.rest) := by
    rw [hlead, hu]
    simp
  rw [hsplit, Nat.add_comm, ← length_append, drop_left] at hdrop
  obtain ⟨t', ht', hrest⟩ := of_joinReturns_eq_append hdrop (by simp [hplain.2])
  have hinside : (c.drop 3).rest = t := by rw [Cursor.drop, ← ht]; simp
  refine ⟨m, t', e, inner, by rw [hinside]; exact hm, ?_, hrest, hextra⟩
  rw [Cursor.drop, hinside]
  exact ht'

/-- Both readers end a string of several lines at the same place. -/
theorem multilineString_joins (hmarks : c.startsWith (replicate 3 (markOf literal)) = true)
    (hc : stringEnd (markOf literal) c = .ok c') (hd : multilineString literal d = .ok (text, d')) :
    c'.Joins d' ∧ ∃ v, c.Spells (v ++ [markOf literal]) c' := by
  have hplain := markOf_plain literal
  obtain ⟨m, t', e, inner, hm, hclose, hrest, hextra⟩ := multilineString_scan hj hmarks hd
  -- of the run of marks at the end the scanner takes all, and there are at most two behind the closing ones
  have hthree : c.startsWith [markOf literal, markOf literal, markOf literal] = true := hmarks
  have hrun₃ : ∀ x ∈ replicate 3 (markOf literal), (x == markOf literal) = true := by simp
  rw [stringEnd] at hc
  simp only [hthree, if_true, hm] at hc
  split at hc
  · cases hc
  · next hfive =>
    cases hc
    rw [hclose, takeWhile_append_of_pos hrun₃, length_append, length_replicate] at hfive
    have hclass := takeWhile_joinReturns (p := (· == markOf literal)) (by simpa using hplain.1.symm)
      (by simpa using hplain.2.symm) t'
    have hjoins := dropWhile_joinReturns (p := (· == markOf literal)) (by simpa using hplain.1.symm)
      (by simpa using hplain.2.symm) t'
    have hd' : d'.rest = e.rest.dropWhile (· == markOf literal) := by
      refine rest_of_extraMarks hextra ?_
      rw [hrest, hclass]
      omega
    have htail := ((c.drop 3).drop m).spells_drop (((c.drop 3).drop m).rest.takeWhile (· == markOf literal)).length
    refine ⟨?_, ?_⟩
    · rw [Cursor.Joins, hd', hrest, hjoins, Cursor.drop, hclose]
      show _ = joinReturns (drop _ _)
      rw [drop_length_takeWhile, dropWhile_append_of_pos hrun₃]
    · -- the last piece is a run of marks
      obtain ⟨n, hn⟩ : ∃ n, (replicate 3 (markOf literal) ++ t').takeWhile (· == markOf literal) =
          replicate n (markOf literal) ++ [markOf literal] := by
        refine ⟨(t'.takeWhile (· == markOf literal)).length + 2, ?_⟩
        rw [← replicate_succ', takeWhile_append_of_pos hrun₃, eq_replicate_iff]
        refine ⟨by rw [length_append, length_replicate]; omega, fun x hx => ?_⟩
        rcases mem_append.mp hx with hx | hx
        · exact (mem_replicate.mp hx).2
        · simpa using mem_takeWhile_imp hx
      rw [← prefix_iff_eq_take.mp (List.takeWhile_prefix _)] at htail
      have hspells := ((c.spells_drop 3).trans ((c.drop 3).spells_drop m)).trans htail
      rw [hclose, hn, ← append_assoc] at hspells
      rw [hclose, hn]
      exact ⟨_, hspells⟩

/-- The scanner finds the end of every string that the strict reader accepts, unless further marks follow. -/
theorem stringEnd_of_stringValue (hmark : c.startsWith [markOf literal] = true)
    (hd : stringValue d = .ok (text, d')) (hfollow : ∀ x ∈ d'.rest.head?, x ≠ markOf literal) :
    ∃ c', stringEnd (markOf literal) c = .ok c' := by
  have hplain := markOf_plain literal
  have hmark' : d.startsWith [markOf literal] = true := (hj.startsWith_iff hplain.1 hplain.2).mp hmark
  have hmarks := hj.startsWith_eq (w := replicate 3 (markOf literal)) (by simp [hplain])
  by_cases hthree : c.startsWith (replicate 3 (markOf literal)) = true
  · rw [stringValue_of_marks (List.isPrefixOf_iff_prefix.mp (hmarks ▸ hthree))] at hd
    obtain ⟨m, t, e, inner, hm, hclose, hrest, hextra⟩ := multilineString_scan hj hthree hd
    -- the reader takes at most two further marks and leaves none, so the run of marks has at most five
    obtain ⟨n, hn, -, hmore, -⟩ := @extraMarks_eq inner (markOf literal) e
    rw [hextra] at hmore
    have hrun : ∀ k, ∀ x ∈ replicate k (markOf literal), (x == markOf literal) = true := by simp
    have hstop : d'.rest.takeWhile (· == markOf literal) = [] := by
      cases hd' : d'.rest with
      | nil => rfl
      | cons x u =>
        have hx : x ≠ markOf literal := hfollow x (by rw [hd']; rfl)
        simp [hx]
    have hclass := takeWhile_joinReturns (p := (· == markOf literal)) (by simpa using hplain.1.symm)
      (by simpa using hplain.2.symm) t
    have hcount : (t.takeWhile (· == markOf literal)).length ≤ 2 := by
      rw [← hclass, ← hrest, hmore, takeWhile_append_of_pos (hrun n), hstop]
      simpa using hn
    have hthree' : c.startsWith [markOf literal, markOf literal, markOf literal] = true := hthree
    rw [stringEnd]
    simp only [hthree', if_true, hm]
    rw [if_neg]
    · exact ⟨_, rfl⟩
    · rw [hclose, takeWhile_append_of_pos (hrun 3), length_append, length_replicate]
      omega
  · have hno : c.startsWith (replicate 3 (markOf literal)) = false := by simpa using hthree
    rw [stringValue_of_mark hmark' (hmarks ▸ hno)] at hd
    obtain ⟨u, hu, hrun⟩ := lineString_run hd
    have hnext := hj.next hplain.1 hmark
    rw [Joins, hu] at hnext
    obtain ⟨hlegal, -⟩ := hrun.scan []
    obtain ⟨t, ht, -⟩ := of_joinReturns_eq_append hnext.symm fun x hx => (hlegal x hx).1
    obtain ⟨-, m, -, hscan⟩ := hrun.scan t
    have hthree' : c.startsWith [markOf literal, markOf literal, markOf literal] = false := hno
    rw [stringEnd]
    simp only [hthree', Bool.false_eq_true, if_false, ht, hscan]
    exact ⟨_, rfl⟩

/-- Both readers end a string at the same place, and what stands between does not end with a return. -/
theorem spells_stringEnd (hmark : c.startsWith [markOf literal] = true)
    (hc : stringEnd (markOf literal) c = .ok c') (hd : stringValue d = .ok (text, d')) :
    c'.Joins d' ∧ ∃ v, c.Spells v c' ∧ v.getLast? ≠ some '\r' := by
  have hplain := markOf_plain literal
  have hmark' : d.startsWith [markOf literal] = true := (hj.startsWith_iff hplain.1 hplain.2).mp hmark
  have hmarks := hj.startsWith_eq (w := replicate 3 (markOf literal)) (by simp [hplain])
  by_cases hthree : c.startsWith (replicate 3 (markOf literal)) = true
  · rw [stringValue_of_marks (List.isPrefixOf_iff_prefix.mp (hmarks ▸ hthree))] at hd
    obtain ⟨hjoins, v, hv⟩ := multilineString_joins hj hthree hc hd
    exact ⟨hjoins, _, hv, by simp [hplain.1]⟩
  · have hno : c.startsWith (replicate 3 (markOf literal)) = false := by simpa using hthree
    rw [stringValue_of_mark hmark' (hmarks ▸ hno)] at hd
    obtain ⟨hjoins, u, hu, hlegal, -⟩ := lineString_joins hj hmark hno hc hd
    refine ⟨hjoins, _, hu, fun hlast => ?_⟩
    rcases mem_cons.mp (mem_of_getLast? hlast) with hx | hx
    · exact hplain.1 hx.symm
    · exact (hlegal _ hx).2 rfl

/-- Both readers end a string at the same place, and what stands between spells the same text anywhere else. -/
theorem stringEnd_joins (hmark : c.startsWith [markOf literal] = true)
    (hc : stringEnd (markOf literal) c = .ok c') (hd : stringValue d = .ok (text, d')) :
    c'.Joins d' ∧ Reads stringValue (joinReturns (textBetween c c')) text := by
  have hplain := markOf_plain literal
  have hmark' : d.startsWith [markOf literal] = true := (hj.startsWith_iff hplain.1 hplain.2).mp hmark
  obtain ⟨hjoins, v, hv, hlast⟩ := spells_stringEnd hj hmark hc hd
  refine ⟨hjoins, ?_⟩
  obtain ⟨t, ht, hreads⟩ := stringValue_reads hmark' hd
  rw [Joins, hv.rest, joinReturns_append_of_getLast _ hlast, ht] at hj
  have hrest : d'.rest = joinReturns c'.rest := hjoins
  rw [hrest] at hj
  rw [hv.textBetween_eq, ← append_cancel_right hj]
  exact hreads

end

end Verbatim

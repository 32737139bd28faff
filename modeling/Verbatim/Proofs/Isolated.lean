import Verbatim.Proofs.ReaderSteps
import Verbatim.Proofs.StringEnd
import Verbatim.Proofs.TokenEnd

/-!
# Values and keys on their own

A scalar is decoded by reading a small document that holds nothing else, and so is a quoted key. What such a reading gives
is what the strict reader finds in the whole document.
-/

namespace Verbatim

variable {c d c' d' : Cursor} {r t u : List Char} {literal : Bool} {v : Plain}

namespace DataReader

variable {x : Char} {c : Cursor} {t u : List Char} {v : Plain}

theorem scalar_string_iff (hc : c.startsWith [markOf literal] = true) :
    scalar c = .ok (v, d) ↔ ∃ text, stringValue c = .ok (text, d) ∧ v = .string (String.ofList text) := by
  obtain ⟨t, ht⟩ := Cursor.startsWith_singleton.mp hc
  have hmarks : (c.startsWith ['"'] || c.startsWith ['\'']) = true := by
    cases literal <;> simp [Cursor.startsWith, ht, markOf, List.isPrefixOf]
  rw [scalar, if_pos hmarks]
  cases stringValue c with
  | error f => simp
  | ok r =>
    constructor
    · intro h
      cases h
      exact ⟨_, rfl, rfl⟩
    · rintro ⟨text, htext, rfl⟩
      cases htext
      rfl

theorem scalar_bare (hc : c.rest = x :: u) (hx : isScalarChar x = true) : scalar c = bareScalar c := by
  have hstart : ∀ {y}, isScalarChar y = false → c.startsWith [y] = false := fun hy => by
    simp [Cursor.startsWith, hc, List.isPrefixOf, (ne_of_isScalarChar hx hy).symm]
  rw [scalar, hstart (by decide), hstart (by decide)]
  rfl

theorem value_bare (levels : Nat) (hc : c.rest = x :: u) (hx : isScalarChar x = true) : value levels c = bareScalar c :=
  (value_scalar levels hc ⟨ne_of_isScalarChar hx (by decide), ne_of_isScalarChar hx (by decide)⟩).trans (scalar_bare hc hx)

theorem isBlank_of_isScalarChar (h : isScalarChar x = true) : isBlank x = false := by
  have hspace : x ≠ ' ' := ne_of_isScalarChar h (by decide)
  have htab : x ≠ '\t' := ne_of_isScalarChar h (by decide)
  simp [isBlank, hspace, htab]

/-! ## A value on its own -/

private theorem keyPath_v (t : List Char) :
    keyPath ⟨0, "v = ".toList ++ t⟩ = .ok (["v"], ⟨2, '=' :: ' ' :: t⟩) := by
  rw [keyPath]
  rfl

private theorem keyValueStatement_v (h : ∀ x ∈ t.head?, isBlank x = false) :
    keyValueStatement {} ⟨0, "v = ".toList ++ t⟩ = (match value nestingLevels ⟨4, t⟩ with
      | .error f => .error f
      | .ok (v, d) =>
        .ok ({ data := [("v", v)], marks := if isContainer v then Marks.blank.close ["v"] else .blank }, d)) := by
  have hvalue : (Cursor.next ⟨2, '=' :: ' ' :: t⟩).skipWhile isBlank = ⟨4, t⟩ := by
    cases t with
    | nil => rfl
    | cons x t =>
      have hx : isBlank x = false := h x rfl
      have hspace : isBlank ' ' = true := rfl
      simp [Cursor.next, Cursor.drop, Cursor.skipWhile, hx, hspace]
  rw [keyValueStatement, keyValue, keyPath_v]
  dsimp only
  rw [hvalue]
  cases value nestingLevels ⟨4, t⟩ with
  | _ => rfl

private theorem statements_v (h : ∀ x ∈ t.head?, isBlank x = false) :
    statements {} ⟨0, "v = ".toList ++ t⟩ = (match value nestingLevels ⟨4, t⟩ with
      | .error f => .error f
      | .ok (v, d) => afterStatement ⟨0, "v = ".toList ++ t⟩ d
        { data := [("v", v)], marks := if isContainer v then Marks.blank.close ["v"] else .blank }) := by
  have hc : Cursor.skipWhile isBlank ⟨0, "v = ".toList ++ t⟩ = ⟨0, "v = ".toList ++ t⟩ := rfl
  have hstatement : statement {} ⟨0, "v = ".toList ++ t⟩ = keyValueStatement {} ⟨0, "v = ".toList ++ t⟩ := rfl
  rw [statements_line (x := 'v') (by rw [hc]; rfl) (by decide), hc, hstatement, keyValueStatement_v h]
  cases value nestingLevels ⟨4, t⟩ <;> rfl

/-- A text that is a value and nothing else has that value. -/
theorem readScalar_of_value (h : ∀ x ∈ (Text.joinReturns token).head?, isBlank x = false)
    (hv : value nestingLevels ⟨4, Text.joinReturns token⟩ = .ok (v, d)) (hd : d.rest = []) : readScalar token = .ok v := by
  have hjoin : Text.joinReturns ("v = ".toList ++ token) = "v = ".toList ++ Text.joinReturns token :=
    Text.joinReturns_append _ (by simp)
  have hrest : (d.skipWhile isBlank).rest = [] := by rw [Cursor.skipWhile, hd]; rfl
  have hcomment : skipComment (d.skipWhile isBlank) = .ok (d.skipWhile isBlank) :=
    skipComment_of_ne (by rw [Cursor.startsWith, hrest]; rfl)
  rw [readScalar, readDocument, hjoin, Cursor.start, statements_v h, hv]
  dsimp only
  rw [afterStatement_end _ hcomment hrest]
  rfl

/-- A scalar that is no string is read by moving on. -/
theorem bareScalar_eq_ok (h : bareScalar c = .ok (v, d)) : ∃ n, d = c.drop n := by
  have hword : ∀ {α : Type} {table : List (List Char × α)} {w : α} {e : Cursor}, word? table c = some (w, e) →
      ∃ n, e = c.drop n := by
    intro α table w e hw
    obtain ⟨entry, -, heq⟩ := Option.map_eq_some_iff.mp hw
    cases heq
    exact ⟨_, rfl⟩
  rw [bareScalar] at h
  split at h
  · next hw =>
    cases h
    exact hword hw
  split at h
  · cases h
    exact ⟨_, rfl⟩
  · cases h
  split at h
  · cases h
    exact ⟨_, rfl⟩
  split at h
  · split at h
    · cases h
    · cases h
      exact ⟨_, rfl⟩
  split at h
  · next hw =>
    cases h
    exact hword hw
  · cases h

/-- Of a word that has a value on its own, the reader takes all. -/
theorem bareScalar_of_readScalar (hplain : ∀ x ∈ t, x ≠ '\r' ∧ x ≠ '\n' ∧ x ≠ '#')
    (hhead : ∃ x ∈ t.head?, isScalarChar x = true) (hlast : ∀ x ∈ t.getLast?, isBlank x = false) (hv : readScalar t = .ok v) :
    ∃ d, bareScalar ⟨4, t⟩ = .ok (v, d) ∧ d.rest = [] := by
  obtain ⟨x, hx, hscalar⟩ := hhead
  obtain ⟨u, rfl⟩ := List.head?_eq_some_iff.mp hx
  have hjoin : Text.joinReturns ("v = ".toList ++ x :: u) = "v = ".toList ++ x :: u := by
    rw [Text.joinReturns_append _ (by simp), Text.joinReturns_eq_self fun y hy => (hplain y hy).1]
  rw [readScalar, readDocument, hjoin, Cursor.start, statements_v (by simpa using isBlank_of_isScalarChar hscalar),
    value_bare _ rfl hscalar] at hv
  cases hbare : bareScalar ⟨4, x :: u⟩ with
  | error f =>
    rw [hbare] at hv
    cases hv
  | ok r =>
    obtain ⟨w, d⟩ := r
    rw [hbare] at hv
    obtain ⟨n, rfl⟩ := bareScalar_eq_ok hbare
    generalize he : (Cursor.drop n ⟨4, x :: u⟩).skipWhile isBlank = e
    have hrest : e.rest = ((x :: u).drop n).dropWhile isBlank := by rw [← he]; rfl
    have hmem : ∀ y ∈ e.rest, y ∈ x :: u := fun y hy =>
      List.mem_of_mem_drop ((List.dropWhile_sublist (p := isBlank)).subset (hrest ▸ hy))
    have hcomment : skipComment ((Cursor.drop n ⟨4, x :: u⟩).skipWhile isBlank) = .ok e := by
      rw [he, skipComment_of_ne]
      rw [Bool.eq_false_iff]
      intro hsharp
      obtain ⟨z, hz⟩ := Cursor.startsWith_singleton.mp hsharp
      exact (hplain '#' (hmem '#' (by simp [hz]))).2.2 rfl
    dsimp only at hv
    cases hleft : e.rest with
    | nil =>
      rw [afterStatement_end _ hcomment hleft] at hv
      cases hv
      refine ⟨_, rfl, ?_⟩
      -- nothing but blanks is left, and the word does not end with one
      rw [hrest, List.dropWhile_eq_nil_iff] at hleft
      show (x :: u).drop n = []
      by_contra hsome
      have hend := hleft _ (List.getLast_mem hsome)
      rw [List.getLast_drop, hlast _ (List.getLast?_eq_some_getLast _)] at hend
      cases hend
    | cons y z =>
      rw [afterStatement_stray _ hcomment hleft (hplain y (hmem y (by simp [hleft]))).2.1] at hv
      cases hv

/-! ## A key on its own -/

theorem keyPart_quoted_iff (hc : c.startsWith [markOf literal] = true) :
    keyPart c = .ok (name, d) ↔ ∃ text, lineString literal c = .ok (text, d) ∧ name = String.ofList text := by
  obtain ⟨t, ht⟩ := Cursor.startsWith_singleton.mp hc
  have hpart : keyPart c = (lineString literal c).map fun r => (String.ofList r.1, r.2) := by
    rw [keyPart, ht]
    cases hstring : lineString literal c <;> cases literal <;> simp_all [markOf, lineString, isBareKeyChar, Except.map]
  rw [hpart]
  cases lineString literal c with
  | error f => simp [Except.map]
  | ok r =>
    constructor
    · intro h
      cases h
      exact ⟨_, rfl, rfl⟩
    · rintro ⟨text, htext, rfl⟩
      cases htext
      rfl

private theorem value_zero (q : Nat) : value nestingLevels ⟨q, ['0']⟩ = .ok (.integer 0, ⟨q + 1, []⟩) := by
  rw [value_bare _ rfl (by decide)]
  rfl

/-- A quoted key on its own names what it spells. -/
theorem readKey_of_run (h : BasicRun false u text) (hplain : ∀ x ∈ u, x ≠ '\r') :
    readKey ('"' :: u) = .ok (some (String.ofList text)) := by
  have hjoin : Text.joinReturns ('"' :: u ++ " = 0".toList) = '"' :: (u ++ " = 0".toList) :=
    Text.joinReturns_eq_self (by simpa [or_imp, forall_and] using hplain)
  obtain ⟨q, hq⟩ := h.read " = 0".toList (Cursor.next ⟨0, '"' :: (u ++ " = 0".toList)⟩).pos
  have hpart : keyPart ⟨0, '"' :: (u ++ " = 0".toList)⟩ = .ok (String.ofList text, ⟨q, " = 0".toList⟩) :=
    (@keyPart_quoted_iff _ false _ _ (Cursor.startsWith_singleton.mpr ⟨_, rfl⟩)).mpr ⟨text, hq, rfl⟩
  have hpath : keyPath ⟨0, '"' :: (u ++ " = 0".toList)⟩ = .ok ([String.ofList text], ⟨q + 1, "= 0".toList⟩) := by
    rw [keyPath, hpart]
    rfl
  have hline : statement {} ⟨0, '"' :: (u ++ " = 0".toList)⟩ =
      .ok ({ data := [(String.ofList text, .integer 0)] }, ⟨q + 4, []⟩) := by
    have hvalue : keyValue (value nestingLevels) ⟨0, '"' :: (u ++ " = 0".toList)⟩ =
        .ok (([String.ofList text], .integer 0), ⟨q + 4, []⟩) :=
      keyValue_iff.mpr ⟨_, _, hpath, rfl, value_zero (q + 3)⟩
    show keyValueStatement {} ⟨0, '"' :: (u ++ " = 0".toList)⟩ = _
    rw [keyValueStatement, hvalue]
    rfl
  have hc : Cursor.skipWhile isBlank ⟨0, '"' :: (u ++ " = 0".toList)⟩ = ⟨0, '"' :: (u ++ " = 0".toList)⟩ := rfl
  have hcomment : skipComment (Cursor.skipWhile isBlank ⟨q + 4, []⟩) = .ok ⟨q + 4, []⟩ := rfl
  rw [readKey, readDocument, hjoin, Cursor.start, statements_line (x := '"') (by rw [hc]) (by decide), hc, hline]
  dsimp only
  rw [afterStatement_end _ hcomment rfl]
  rfl

end DataReader

open DataReader

/-! ## Scalars of a document -/

/-- A string has the value that the strict reader finds, and both end it at the same place. -/
theorem spelledValue_string (offset : Nat) (hj : c.Joins d) (hmark : c.startsWith [markOf literal] = true)
    (hc : stringEnd (markOf literal) c = .ok c') (hd : scalar d = .ok (w, d')) :
    c'.Joins d' ∧ spelledValue (textBetween c c') offset = .ok w := by
  have hplain := markOf_plain literal
  have hmark' := (hj.startsWith_iff hplain.1 hplain.2).mp hmark
  obtain ⟨text, hstring, rfl⟩ := (scalar_string_iff hmark').mp hd
  obtain ⟨hjoins, hreads⟩ := stringEnd_joins hj hmark hc hstring
  refine ⟨hjoins, ?_⟩
  obtain ⟨q, hq⟩ := hreads [] (by simp) 4
  rw [List.append_nil] at hq
  -- the text between the cursors begins with the mark
  obtain ⟨t, ht⟩ := reaches_stringEnd hc
  obtain ⟨u, hu⟩ := Cursor.startsWith_singleton.mp hmark
  rw [ht.textBetween_eq] at hq ⊢
  cases t with
  | nil => cases hq
  | cons y t =>
    obtain rfl : markOf literal = y := (List.cons.inj (hu.symm.trans ht.rest)).1
    have hhead : Text.joinReturns (markOf literal :: t) = markOf literal :: Text.joinReturns t :=
      Text.joinReturns_cons_of_ne t hplain.1
    have hblank : isBlank (markOf literal) = false := by cases literal <;> rfl
    have hvalue : value nestingLevels ⟨4, Text.joinReturns (markOf literal :: t)⟩ = _ :=
      (value_scalar _ hhead (by cases literal <;> decide)).trans
        ((scalar_string_iff (Cursor.startsWith_singleton.mpr ⟨_, hhead⟩)).mpr ⟨text, hq, rfl⟩)
    rw [spelledValue, readScalar_of_value (by simpa [hhead] using hblank) hvalue rfl]

theorem length_of_isDateShape (h : isDateShape t = true) : t.length = 10 := by
  rw [isDateShape.eq_def] at h
  split at h
  · rfl
  · cases h

/-- A word of a scalar, as the scanner finds it. -/
structure BareToken (t r : List Char) : Prop where
  /-- It begins with a character of scalars. -/
  head : ∃ x ∈ t.head?, isScalarChar x = true
  /-- It ends with one. -/
  last : ∀ x ∈ t.getLast?, isScalarChar x = true
  /-- All its characters are such, a space apart. -/
  chars : ∀ x ∈ t, isScalarChar x = true ∨ x = ' '
  /-- No such character follows. -/
  ends : Ends r
  /-- If it is a date, no time follows. -/
  date : isDateShape t = true → isTimeShape r = false

theorem ends_dropWhile (t : List Char) : Ends (t.dropWhile isScalarChar) := by
  intro x hx
  obtain ⟨u, hu⟩ := List.head?_eq_some_iff.mp hx
  exact Cursor.of_dropWhile_eq_cons hu

theorem scalarEnd_token (hx : c.rest = x :: u) (hscalar : isScalarChar x = true) (h : scalarEnd c = .ok d) :
    ∃ t, c.Spells t d ∧ BareToken t d.rest := by
  rw [scalarEnd] at h
  have hspells := c.spells_skipWhile isScalarChar
  have hword : c.rest.takeWhile isScalarChar = x :: u.takeWhile isScalarChar := by
    rw [hx, List.takeWhile_cons_of_pos hscalar]
  have hall : ∀ y ∈ c.rest.takeWhile isScalarChar, isScalarChar y = true := fun y hy => List.mem_takeWhile_imp hy
  simp only [hspells.textBetween_eq] at h
  split at h
  · next hdate =>
    simp only [Bool.and_eq_true] at hdate
    -- a space and a time belong to the word
    split at h
    · cases h
    · next hmore =>
      cases h
      have hspace : (c.skipWhile isScalarChar).startsWith [' '] = true := by
        obtain ⟨-, htime⟩ := hdate
        rw [isTimeShape.eq_def] at htime
        split at htime
        · next heq => exact Cursor.startsWith_singleton.mpr ⟨_, heq⟩
        · cases htime
      have htime := (c.skipWhile isScalarChar).next.spells_skipWhile isScalarChar
      have htimes : ∀ y ∈ (c.skipWhile isScalarChar).next.rest.takeWhile isScalarChar, isScalarChar y = true :=
        fun y hy => List.mem_takeWhile_imp hy
      have hne : (c.skipWhile isScalarChar).next.rest.takeWhile isScalarChar ≠ [] := by
        intro hnil
        rw [hnil] at htime
        exact hmore htime.pos
      refine ⟨_, hspells.trans ((Cursor.spells_next hspace).trans htime), ⟨x, by rw [hword]; rfl, hscalar⟩, ?_, ?_,
        ends_dropWhile _, ?_⟩
      · intro y hy
        rw [List.getLast?_append, List.getLast?_append, List.getLast?_eq_some_getLast hne, Option.some_or, Option.some_or] at hy
        exact htimes y (Option.some.inj hy ▸ List.getLast_mem hne)
      · intro y hy
        simp only [List.mem_append, List.mem_singleton] at hy
        rcases hy with hy | hy | hy
        · exact .inl (hall y hy)
        · exact .inr hy
        · exact .inl (htimes y hy)
      · intro hshape
        have hten := length_of_isDateShape hdate.1
        have hlong := length_of_isDateShape hshape
        rw [List.length_append, List.length_append, hten, List.length_singleton] at hlong
        omega
  · next hdate =>
    cases h
    refine ⟨_, hspells, ⟨x, by rw [hword]; rfl, hscalar⟩, fun y hy => hall y (List.mem_of_getLast? hy),
      fun y hy => .inl (hall y hy), ends_dropWhile c.rest, fun hshape => ?_⟩
    simpa [hshape] using hdate

/-- A time that follows a space has the shape of one. -/
theorem isTimeShape_of_localTime? (hr : Text.joinReturns r = ' ' :: u) (h : localTime? u = some time) :
    isTimeShape r = true := by
  obtain ⟨r₁, rfl, rfl⟩ := Text.of_joinReturns_eq_cons hr (by decide)
  rw [localTime?] at h
  simp only [Option.bind_eq_bind, Option.bind_eq_some_iff] at h
  obtain ⟨⟨hour, v⟩, hhour, ⟨minute, w⟩, hminute, -⟩ := h
  obtain ⟨a, b, hab, ha, hb, -⟩ := of_twoDigits? hhour
  rw [colonDigits?.eq_def] at hminute
  split at hminute
  · next v' hv =>
    obtain ⟨e, f, hef, he, hf, -⟩ := of_twoDigits? hminute
    have hplain : ∀ {x}, isDecimal x = true → x ≠ '\n' := by
      rintro x hx rfl
      exact absurd hx (by decide)
    rw [show v = ':' :: v' from hv, hef] at hab
    -- digits and colons stand in both texts
    obtain ⟨t, rfl, -⟩ := Text.of_joinReturns_eq_append (u := [a, b, ':', e, f]) (s := w) hab
      (by simp [hplain ha, hplain hb, hplain he, hplain hf])
    simp [isTimeShape, isDecimalDigit_of_isDecimal ha, isDecimalDigit_of_isDecimal hb, isDecimalDigit_of_isDecimal he,
      isDecimalDigit_of_isDecimal hf]
  · cases hminute

theorem BareToken.plain (h : BareToken t r) : ∀ x ∈ t, x ≠ '\r' ∧ x ≠ '\n' ∧ x ≠ '#' := by
  intro x hx
  rcases h.chars x hx with hx | rfl
  · refine ⟨?_, ?_, ?_⟩ <;>
    · rintro rfl
      exact absurd hx (by decide)
  · decide

/-- Of a word with a value, the strict reader takes all. -/
theorem BareToken.takenWhole (h : BareToken t r) (hv : spelledValue t offset = .ok v) :
    ∃ d, bareScalar ⟨4, t⟩ = .ok (v, d) ∧ d.rest = [] := by
  have hread : readScalar t = .ok v := by
    rw [spelledValue] at hv
    split at hv
    · next hok =>
      cases hv
      exact hok
    · cases hv
    · cases hv
    · cases hv
  exact bareScalar_of_readScalar h.plain h.head (fun y hy => isBlank_of_isScalarChar (h.last y hy)) hread

/-- Any other scalar has the value that the strict reader finds, and both end it at the same place. -/
theorem spelledValue_bare (hj : c.Joins d) (hx : c.rest = x :: u) (hscalar : isScalarChar x = true)
    (hc : scalarEnd c = .ok c') (hv : spelledValue (textBetween c c') offset = .ok v) (hd : scalar d = .ok (w, d')) :
    c'.Joins d' ∧ v = w := by
  obtain ⟨t, hspells, htoken⟩ := scalarEnd_token hx hscalar hc
  rw [hspells.textBetween_eq] at hv
  obtain ⟨e, hbare, he⟩ := htoken.takenWhole hv
  -- in the document another character than one of scalars follows
  have hends : Ends (Text.joinReturns c'.rest) := by
    intro y hy
    rcases Text.joinReturns_cases c'.rest with ⟨-, hr⟩ | ⟨r, -, hr⟩ | ⟨z, r, hc', -, hr⟩
    · rw [hr] at hy
      cases hy
    · rw [hr] at hy
      cases hy
      decide
    · rw [hr] at hy
      exact htoken.ends y (by rw [hc']; exact hy)
  have hno : isDateShape t = true → ∀ r, Text.joinReturns c'.rest = ' ' :: r → localTime? r = none := by
    intro hdate r hr
    by_contra hsome
    obtain ⟨time, htime⟩ := Option.ne_none_iff_exists'.mp hsome
    have hshape := isTimeShape_of_localTime? hr htime
    rw [htoken.date hdate] at hshape
    cases hshape
  obtain ⟨y, hy, hychar⟩ := htoken.head
  obtain ⟨t', rfl⟩ := List.head?_eq_some_iff.mp hy
  obtain ⟨e', hread', he'⟩ := bareScalar_append hends hno 4 d.pos hbare
  rw [he, List.nil_append] at he'
  rw [Cursor.Joins, hspells.rest, Text.joinReturns_append _ fun y hy => (htoken.plain y hy).1] at hj
  rw [scalar_bare hj hychar] at hd
  obtain ⟨pos, rest⟩ := d
  dsimp only at hj hread'
  rw [hj] at hd
  cases hread'.symm.trans hd
  exact ⟨he', rfl⟩

/-! ## Keys of a document -/

/-- How a key is written: as a bare word or as a string on one line. -/
inductive KeyForm : List Char → String → Prop where
  | bare {t : List Char} (ne : t ≠ []) (chars : ∀ x ∈ t, isBareKeyChar x = true) : KeyForm t (String.ofList t)
  | quoted {literal : Bool} {u text : List Char} (run : LineRun literal u text) :
      KeyForm (markOf literal :: u) (String.ofList text)

/-- A key stands on one line. -/
theorem KeyForm.plain (h : KeyForm t name) : ∀ x ∈ t, x ≠ '\n' ∧ x ≠ '\r' := by
  cases h with
  | bare ne chars =>
    refine fun x hx => ⟨?_, ?_⟩ <;>
    · rintro rfl
      exact absurd (chars _ hx) (by decide)
  | @quoted literal u text run =>
    refine List.forall_mem_cons.mpr ⟨?_, (run.scan []).1⟩
    cases literal <;> decide

/-- Both readers find the same name in a segment of a key path and end it at the same place. -/
theorem simpleKey_joins (hj : c.Joins d) (hc : simpleKey c = .ok (name, c')) (hd : keyPart d = .ok (name', d')) :
    c'.Joins d' ∧ name = name' ∧ ∃ t, c.Spells t c' ∧ KeyForm t name := by
  rw [simpleKey] at hc
  split at hc
  · cases hc
  · next x u hx =>
    split at hc
    · next hquoted =>
      obtain ⟨literal, rfl⟩ := exists_markOf hquoted
      have hmark : c.startsWith [markOf literal] = true := Cursor.startsWith_singleton.mpr ⟨u, hx⟩
      have hplain := markOf_plain literal
      split at hc
      · cases hc
      · next hone =>
        split at hc
        · cases hc
        · next e hend =>
          split at hc
          · cases hc
          · next n hname =>
            cases hc
            obtain ⟨text, hstring, rfl⟩ :=
              (keyPart_quoted_iff ((hj.startsWith_iff hplain.1 hplain.2).mp hmark)).mp hd
            have hone' : c.startsWith (List.replicate 3 (markOf literal)) = false := Bool.not_eq_true _ ▸ hone
            obtain ⟨hjoins, v, hspells, hlegal, hrun⟩ := lineString_joins hj hmark hone' hend hstring
            suffices hsame : name = String.ofList text from ⟨hjoins, hsame, _, hspells, hsame ▸ .quoted hrun⟩
            rw [hspells.textBetween_eq, quotedName] at hname
            cases literal with
            | false =>
              rw [if_neg (by decide)] at hname
              have hread := readKey_of_run hrun fun y hy => (hlegal y hy).2
              rw [show markOf false = '"' from rfl, hread] at hname
              exact (Except.ok.inj hname).symm
            | true =>
              obtain ⟨rfl, -⟩ := hrun
              rw [if_pos (show markOf true = '\'' from rfl)] at hname
              have hname := (Except.ok.inj hname).symm
              simpa using hname
    · next hquoted =>
      split at hc
      · next hbare =>
        cases hc
        have hplain : x ≠ '\r' := by
          rintro rfl
          exact absurd hbare (by decide)
        have hrest : d.rest = x :: Text.joinReturns u := by
          rw [Cursor.Joins, hx, Text.joinReturns_cons_of_ne u hplain] at hj
          exact hj
        simp only [keyPart, hrest, hbare, if_true] at hd
        cases hd
        have hjoins := hj.skipWhile (p := isBareKeyChar) rfl rfl
        refine ⟨hjoins, ?_, _, c.spells_skipWhile isBareKeyChar, .bare ?_ fun y hy => List.mem_takeWhile_imp hy⟩
        · rw [← hrest, hj, Text.takeWhile_joinReturns rfl rfl]
        · rw [hx, List.takeWhile_cons_of_pos hbare]
          exact List.cons_ne_nil _ _
      · cases hc

end Verbatim

import Verbatim.Proofs.SpelledText

/-!
# Keys and values that the strict reader finds

A key or a value keeps its meaning in every place where something follows that ends it. Each kind of piece says so for all
texts that may follow, so that pieces are put together without looking into them. Carriage returns before line feeds are left
out on the way.
-/

namespace Verbatim

open List DataReader Text Cursor

variable {c : Cursor} {x : Char} {a b r t u w : List Char} {v : Plain} {path : List String} {vs : List Plain}
  {fs : List (List String × Plain)} {fields fields' : Fields}

/-- A reader finds a value in a piece of text, wherever it stands, if what follows ends it. -/
def Finds {α : Type} (read : Cursor → Step α) (ends : List Char → Prop) (t : List Char) (v : α) : Prop :=
  ∀ c r, c.rest = joinReturns (t ++ r) → ends (joinReturns r) → ∃ d, read c = .ok (v, d) ∧ d.rest = joinReturns r

/-- The next character is passed. -/
private theorem rest_next (hc : c.rest = joinReturns (x :: t)) (hx : x ≠ '\r') :
    c.rest = x :: joinReturns t ∧ c.next.rest = joinReturns t := by
  rw [joinReturns_cons_of_ne t hx] at hc
  exact ⟨hc, by rw [Cursor.next, Cursor.drop, hc]; rfl⟩

/-! ## Keys -/

/-- The first character of a key. -/
def isKeyStart (x : Char) : Bool := isBareKeyChar x || x == '"' || x == '\''

theorem plain_of_isKeyStart (h : isKeyStart x = true) :
    isBlank x = false ∧ x ≠ '\r' ∧ x ≠ '\n' ∧ x ≠ '#' ∧ x ≠ '[' ∧ x ≠ '\x7d' := by
  refine ⟨?_, ?_, ?_, ?_, ?_, ?_⟩
  · rw [Bool.eq_false_iff]
    intro hx
    rcases Bool.or_eq_true _ _ ▸ hx with hx | hx <;>
    · rw [beq_iff_eq] at hx
      subst hx
      exact absurd h (by decide)
  all_goals
    rintro rfl
    exact absurd h (by decide)

/-- A piece of text spells a key. -/
structure KeySpelled (t : List Char) (name : String) : Prop where
  /-- It begins like a key. -/
  head : ∃ x u, t = x :: u ∧ isKeyStart x = true
  /-- The strict reader finds the name. -/
  read : Finds keyPart KeyEnds t name

/-- A piece of text spells a key path. -/
structure PathSpelled (t : List Char) (names : List String) : Prop where
  head : ∃ x u, t = x :: u ∧ isKeyStart x = true
  read : Finds keyPath PathEnds t names

theorem KeyForm.spelled (h : KeyForm t name) : KeySpelled t name := by
  have hplain : ∀ x ∈ t, x ≠ '\r' := fun x hx => (h.plain x hx).2
  cases h with
  | bare ne chars =>
    obtain ⟨x, u, rfl⟩ := exists_cons_of_ne_nil ne
    refine ⟨⟨x, u, rfl, by simp [isKeyStart, chars x]⟩, fun c r hc hr => ?_⟩
    rw [joinReturns_append r hplain] at hc
    obtain ⟨htake, hdrop⟩ := takeWhile_of_ends chars fun y hy => (hr y hy).1
    rw [← hc] at htake hdrop
    refine ⟨c.skipWhile isBareKeyChar, ?_, hdrop⟩
    rw [keyPart, htake]
    simp only [hc, cons_append, chars x mem_cons_self, if_true]
  | @quoted literal u text run =>
    refine ⟨⟨markOf literal, u, rfl, by cases literal <;> rfl⟩, fun c r hc _ => ?_⟩
    rw [joinReturns_append r hplain] at hc
    obtain ⟨pos, rest⟩ := c
    obtain rfl : rest = markOf literal :: (u ++ joinReturns r) := hc
    obtain ⟨q, hq⟩ := run.read (joinReturns r) pos
    exact ⟨⟨q, joinReturns r⟩, (keyPart_quoted_iff (startsWith_singleton.mpr ⟨_, rfl⟩)).mpr ⟨text, hq, rfl⟩, rfl⟩

theorem keySpelled_key (name : String) : KeySpelled (Literal.key name).toList name := (Literal.keyForm name).spelled

/-- Blanks and what follows a key path end a key. -/
private theorem keyEnds_blanks (hb : Blanks b) (hr : KeyEnds (joinReturns r)) : KeyEnds (joinReturns (b ++ r)) := by
  rw [joinReturns_blanks hb]
  cases b with
  | nil => exact hr
  | cons x b =>
    rintro y ⟨⟩
    have hx := hb x (by simp)
    constructor
    · rw [Bool.eq_false_iff]
      intro hbare
      have := (plain_of_isKeyStart (x := x) (by simp [isKeyStart, hbare])).1
      rw [hx] at this
      cases this
    · rintro rfl
      exact absurd hx (by decide)

theorem skipWhile_joinReturns (hb : Blanks b) (hc : c.rest = joinReturns (b ++ r))
    (hr : ∀ x ∈ (joinReturns r).head?, isBlank x = false) : (c.skipWhile isBlank).rest = joinReturns r := by
  rw [joinReturns_blanks hb] at hc
  rw [Cursor.skipWhile, hc, List.dropWhile_append_of_pos hb]
  cases h : joinReturns r with
  | nil => rfl
  | cons x u => rw [List.dropWhile_cons_of_neg (by simp [hr x (by rw [h]; rfl)])]

theorem PathSpelled.last (h : KeySpelled t name) (hb : Blanks b) : PathSpelled (t ++ b) [name] where
  head := by
    obtain ⟨x, u, rfl, hx⟩ := h.head
    exact ⟨x, u ++ b, rfl, hx⟩
  read := by
    intro c r hc hr
    rw [List.append_assoc] at hc
    obtain ⟨d, hd, hrest⟩ := h.read c (b ++ r) hc (keyEnds_blanks hb (hr.keyEnds))
    have hskip := skipWhile_joinReturns hb hrest fun x hx => (hr.head x hx).1
    refine ⟨_, ?_, hskip⟩
    rw [keyPath, hd]
    dsimp only
    rw [hskip]
    split
    · next heq => exact absurd rfl (hr.head '.' (by rw [heq]; rfl)).2
    · rfl

/-- A key, a point and a key path are a key path, with blanks around the point. -/
theorem PathSpelled.cons (h : KeySpelled t name) (hb : Blanks b) (hb' : Blanks b') (hu : PathSpelled u names) :
    PathSpelled (t ++ (b ++ '.' :: (b' ++ u))) (name :: names) where
  head := by
    obtain ⟨x, u, rfl, hx⟩ := h.head
    exact ⟨x, _, rfl, hx⟩
  read := by
    intro c r hc hr
    obtain ⟨y, w, rfl, hy⟩ := hu.head
    obtain ⟨hblank, hreturn, -⟩ := plain_of_isKeyStart hy
    rw [List.append_assoc, List.append_assoc, List.cons_append, List.append_assoc] at hc
    have hpoint : joinReturns ('.' :: (b' ++ (y :: w ++ r))) = '.' :: joinReturns (b' ++ (y :: w ++ r)) :=
      joinReturns_cons_of_ne _ (by decide)
    obtain ⟨d, hd, hrest⟩ := h.read c _ hc (keyEnds_blanks hb (by rw [hpoint]; exact keyEnds_point _))
    have hskip := skipWhile_joinReturns hb hrest (by rw [hpoint]; rintro x ⟨⟩; rfl)
    obtain ⟨hpoint', hnext⟩ := rest_next hskip (by decide)
    have hskip' := skipWhile_joinReturns hb' hnext (by
      rw [List.cons_append, joinReturns_cons_of_ne _ hreturn]
      rintro x ⟨⟩
      exact hblank)
    obtain ⟨e, he, hend⟩ := hu.read _ r hskip' hr
    refine ⟨e, ?_, hend⟩
    have hless : ((d.skipWhile isBlank).next.skipWhile isBlank).rest.length < c.rest.length := by
      have h₁ := length_joinReturns_append t (b ++ '.' :: (b' ++ (y :: w ++ r)))
      have h₂ := length_joinReturns_append b ('.' :: (b' ++ (y :: w ++ r)))
      have h₃ := length_joinReturns_append b' (y :: w ++ r)
      rw [hpoint, List.length_cons] at h₂
      rw [hskip', hc]
      omega
    rw [keyPath, hd]
    dsimp only
    split
    · rw [if_pos hless, he]
    · next hno => exact absurd hpoint' (hno _)

/-! ## Scalars -/

/-- A piece of text spells a scalar. -/
structure ScalarSpelled (t : List Char) (v : Plain) : Prop where
  /-- It begins like a value, and not like a container. -/
  head : ∃ x u, t = x :: u ∧ isBlankOrNewline x = false ∧ x ≠ '#' ∧ x ≠ ']' ∧ x ≠ '\r' ∧ x ≠ '[' ∧ x ≠ '\x7b'
  /-- The strict reader finds the scalar. -/
  read : Finds scalar Stops t v

/-- A piece of text spells a value for some reader of values. -/
structure ValueSpelled (read : Cursor → Step Plain) (t : List Char) (v : Plain) : Prop where
  /-- It begins like a value. -/
  head : BeginsValue t
  /-- The reader finds the value. -/
  found : Finds read Stops t v

/-- A scalar is found at any depth. -/
theorem ScalarSpelled.value (h : ScalarSpelled t v) (limit levels : Nat) : ValueSpelled (valueWithin limit levels) t v := by
  obtain ⟨x, u, rfl, hblank, hcomment, hbracket, hreturn, hopen, hbrace⟩ := h.head
  refine ⟨⟨x, u, rfl, hblank, hcomment, hbracket, hreturn⟩, fun c r hc hr => ?_⟩
  have hhead : c.rest = x :: joinReturns (u ++ r) := hc.trans (joinReturns_cons_of_ne _ hreturn)
  have hno {y : Char} (hy : x ≠ y) : c.startsWith [y] = false := by
    rw [Bool.eq_false_iff]
    intro hstarts
    obtain ⟨w, hw⟩ := Cursor.startsWith_singleton.mp hstarts
    exact hy (List.cons.inj (hhead.symm.trans hw)).1
  have hscalar : valueWithin limit levels c = scalar c := by
    cases limit with
    | zero => simp [valueWithin, hno hopen, hno hbrace]
    | succ limit => cases levels <;> exact valueWith_scalar _ hhead ⟨hopen, hbrace⟩
  rw [hscalar]
  exact h.read c r hc hr

/-- What ends a value continues no scalar. -/
theorem Stops.valueEnds (h : Stops r) : ValueEnds r := by
  intro x hx
  cases r with
  | nil => cases hx
  | cons y r =>
    cases hx
    by_cases hblank : isBlank x = true
    · refine ⟨?_, ?_, ?_⟩
      · rw [Bool.eq_false_iff]
        intro hscalar
        exact absurd hblank (by rw [isBlank_of_isScalarChar hscalar]; decide)
      all_goals
        rintro rfl
        exact absurd hblank (by decide)
    · rw [Bool.not_eq_true] at hblank
      have := h x (by rw [List.dropWhile_cons_of_neg (by simp [hblank])]; rfl)
      rcases this with rfl | rfl | rfl | rfl | rfl <;> decide

theorem scalarSpelled_literal (h : v.SimpleScalar) : ∃ t, Literal.ofPlain v = .ok t ∧ ScalarSpelled t.toList v := by
  obtain ⟨t, ht, hread⟩ := readable_scalar h
  obtain ⟨x, u, hx, hblank, hcomment, hbracket, hreturn⟩ := hread.head
  have hcontainer : x ≠ '[' ∧ x ≠ '\x7b' := by
    -- a text that begins like a container is read as one
    obtain ⟨d, hd, -⟩ := hread.read 0 ⟨0, t.toList⟩ [] (by simp) (by simp [ValueEnds])
    constructor
    · rintro rfl
      rw [DataReader.value, valueWith, if_pos (Cursor.startsWith_singleton.mpr ⟨u, hx⟩)] at hd
      obtain ⟨vs, rfl, -⟩ := array_eq_ok hd
      cases h
    · rintro rfl
      rw [DataReader.value, valueWith, if_neg (by simp [Cursor.startsWith, hx]),
        if_pos (Cursor.startsWith_singleton.mpr ⟨u, hx⟩)] at hd
      rcases inlineTable_eq_ok hd with ⟨-, rfl, -⟩ | ⟨-, fields, rfl, -⟩ <;> cases h
  refine ⟨t, ht, ⟨x, u, hx, hblank, hcomment, hbracket, hreturn, hcontainer⟩, fun c r hc hr => ?_⟩
  rw [joinReturns_append r fun y hy => (hread.plain y hy).2] at hc
  have hhead : c.rest = x :: (u ++ joinReturns r) := by rw [hc, hx]; rfl
  have := hread.read 0 c _ hc hr.valueEnds
  rwa [value_scalar 0 hhead hcontainer] at this

theorem scalarSpelled_string (hmark : t.head? = some (markOf literal)) (hlast : t.getLast? ≠ some '\r')
    (h : Reads stringValue (joinReturns t) text) : ScalarSpelled t (.string (String.ofList text)) where
  head := by
    obtain ⟨x, u, rfl⟩ : ∃ x u, t = x :: u := by cases t <;> simp at hmark ⊢
    cases hmark
    exact ⟨_, _, rfl, by cases literal <;> decide⟩
  read := by
    intro c r hc hr
    obtain ⟨pos, rest⟩ := c
    cases hc
    rw [joinReturns_append_of_getLast r hlast]
    obtain ⟨q, hq⟩ := h (joinReturns r) (fun x hx => (hr.valueEnds x hx).2) pos
    obtain ⟨x, u, rfl⟩ : ∃ x u, t = x :: u := by cases t <;> simp at hmark ⊢
    cases hmark
    refine ⟨⟨q, joinReturns r⟩, (@scalar_string_iff _ literal _ _ ?_).mpr ⟨text, hq, rfl⟩, rfl⟩
    refine Cursor.startsWith_singleton.mpr ⟨joinReturns u ++ joinReturns r, ?_⟩
    rw [joinReturns_cons_of_ne _ (markOf_plain literal).1]
    rfl

/-- Behind a date no time follows where a value ends. -/
private theorem Stops.noTime (h : Stops r) (hr : r = ' ' :: u) : localTime? u = none := by
  cases htime : twoDigits? 0 24 u with
  | none => simp [localTime?, htime]
  | some n =>
    obtain ⟨a, b, hu, ha, -⟩ := of_twoDigits? htime
    have hscalar := isScalarChar_of_isDecimal ha
    refine (h.not_head (x := a) ?_ hscalar).elim
    rw [hr, hu, List.dropWhile_cons_of_pos rfl, List.dropWhile_cons_of_neg (by simp [isBlank_of_isScalarChar hscalar])]
    rfl

/-- Any other scalar that is read by itself spells its value. -/
theorem scalarSpelled_bare (hhead : ∃ x ∈ t.head?, isScalarChar x = true) (hplain : ∀ x ∈ t, x ≠ '\r')
    (h : bareScalar ⟨p, t⟩ = .ok (v, d)) (hd : d.rest = []) : ScalarSpelled t v := by
  obtain ⟨x, hx, hscalar⟩ := hhead
  obtain ⟨y, u, rfl⟩ : ∃ y u, t = y :: u := by cases t <;> simp at hx ⊢
  cases hx
  have hne {y : Char} (hy : isScalarChar y = false) : x ≠ y := ne_of_isScalarChar hscalar hy
  refine ⟨⟨x, u, rfl, ?_, hne rfl, hne rfl, hne rfl, hne rfl, hne rfl⟩, fun c r hc hr => ?_⟩
  · rw [isBlankOrNewline, isBlank_of_isScalarChar hscalar, Bool.false_or, beq_eq_false_iff_ne]
    exact hne rfl
  · obtain ⟨pos, rest⟩ := c
    rw [joinReturns_append r hplain] at hc
    cases hc
    rw [scalar_bare rfl hscalar]
    have hread := bareScalar_append (fun y hy => (hr.valueEnds y hy).1) (fun _ u hu => hr.noTime hu) p pos h
    rwa [hd, List.nil_append] at hread

/-! ## Arrays -/

variable {inner : Cursor → Step Plain}

/-- The rest of an array behind one of its elements: further elements with commas before them, up to the closing bracket. A
comma may follow the last one. -/
inductive ElementsSpelled (inner : Cursor → Step Plain) : List Char → List Plain → Prop where
  /-- The closing bracket follows. -/
  | close {t : List Char} (gap : Trivia t) : ElementsSpelled inner (t ++ [']']) []
  /-- A comma and the closing bracket follow. -/
  | comma {t t' : List Char} (gap : Trivia t) (gap' : Trivia t') : ElementsSpelled inner (t ++ ',' :: (t' ++ [']'])) []
  /-- Another element follows. -/
  | next {t t' u w : List Char} {v : Plain} {vs : List Plain} (gap : Trivia t) (gap' : Trivia t') (value : ValueSpelled inner u v)
      (rest : ElementsSpelled inner w vs) : ElementsSpelled inner (t ++ ',' :: (t' ++ (u ++ w))) (v :: vs)

private theorem stops_cons (r : List Char) (hx : x = ',' ∨ x = ']' ∨ x = '\x7d') : Stops (joinReturns (x :: r)) := by
  rw [joinReturns_cons_of_ne r (by rintro rfl; simp at hx)]
  intro y hy
  rw [List.dropWhile_cons_of_neg (by rcases hx with rfl | rfl | rfl <;> decide)] at hy
  cases hy
  rcases hx with rfl | rfl | rfl <;> simp

private theorem stopsTrivia_cons (r : List Char) (hx : x = ',' ∨ x = ']') : StopsTrivia (joinReturns (x :: r)) := by
  rw [joinReturns_cons_of_ne r (by rintro rfl; simp at hx)]
  rintro y ⟨⟩
  rcases hx with rfl | rfl <;> decide

theorem ElementsSpelled.stops (h : ElementsSpelled inner w vs) (r : List Char) : Stops (joinReturns (w ++ r)) := by
  cases h with
  | close gap =>
    rw [List.append_assoc]
    exact gap.stops (stops_cons _ (by simp))
  | comma gap | next gap =>
    rw [List.append_assoc]
    exact gap.stops (stops_cons _ (by simp))

private theorem joinReturns_beginsValue (h : BeginsValue t) (r : List Char) :
    ∃ x u, joinReturns (t ++ r) = x :: u ∧ isBlankOrNewline x = false ∧ x ≠ '#' ∧ x ≠ ']' ∧ x ≠ '\r' := by
  obtain ⟨x, u, rfl, hx⟩ := h
  exact ⟨x, joinReturns (u ++ r), joinReturns_cons_of_ne _ hx.2.2.2, hx⟩

/-- Where an element has been read, the rest of its array is read, too. -/
theorem ElementsSpelled.read (h : ElementsSpelled inner w vs) (r : List Char) (hv : inner c = .ok (v, c₁))
    (hc : c₁.rest = joinReturns (w ++ r)) (hless : c₁.rest.length ≤ c.rest.length) :
    ∃ d, arrayElements inner c = .ok (v :: vs, d) ∧ d.rest = joinReturns r := by
  induction h generalizing c c₁ v with
  | @close t gap =>
    rw [List.append_assoc] at hc
    obtain ⟨c₂, hskip, hrest⟩ := gap.skipBlanks (stopsTrivia_cons _ (.inr rfl)) hc
    obtain ⟨hhead, hnext⟩ := rest_next hrest (by decide)
    refine ⟨c₂.next, ?_, hnext⟩
    rw [arrayElements, hv]
    simp only [hskip, hhead]
  | @comma t t' gap gap' =>
    rw [List.append_assoc, List.cons_append, List.append_assoc] at hc
    obtain ⟨c₂, hskip, hrest⟩ := gap.skipBlanks (stopsTrivia_cons _ (.inl rfl)) hc
    obtain ⟨hhead, hnext⟩ := rest_next hrest (by decide)
    obtain ⟨c₃, hskip', hrest'⟩ := gap'.skipBlanks (stopsTrivia_cons _ (.inr rfl)) hnext
    obtain ⟨hhead', hnext'⟩ := rest_next hrest' (by decide)
    refine ⟨c₃.next, ?_, hnext'⟩
    rw [arrayElements, hv]
    simp only [hskip, hhead, hskip']
    rw [if_pos (Cursor.startsWith_singleton.mpr ⟨_, hhead'⟩)]
  | @next t t' u w v' vs gap gap' value rest ih =>
    rw [List.append_assoc, List.cons_append, List.append_assoc, List.append_assoc] at hc
    obtain ⟨c₂, hskip, hrest⟩ := gap.skipBlanks (stopsTrivia_cons _ (.inl rfl)) hc
    obtain ⟨hhead, hnext⟩ := rest_next hrest (by decide)
    obtain ⟨x, u', hx, hblank, hcomment, hbracket, hreturn⟩ := joinReturns_beginsValue value.head (w ++ r)
    obtain ⟨c₃, hskip', hrest'⟩ := gap'.skipBlanks (by rw [hx]; rintro y ⟨⟩; exact ⟨hblank, hcomment, hreturn⟩) hnext
    obtain ⟨c₄, hread, hrest₄⟩ := value.found c₃ (w ++ r) hrest' (rest.stops r)
    have hless₄ : c₄.rest.length ≤ c₃.rest.length := by
      have := length_joinReturns_append u (w ++ r)
      rw [hrest₄, hrest']
      omega
    obtain ⟨d, hd, hend⟩ := ih hread hrest₄ hless₄
    refine ⟨d, ?_, hend⟩
    have hless' : c₃.rest.length < c.rest.length := by
      have h₁ := length_joinReturns_append t (',' :: (t' ++ (u ++ (w ++ r))))
      have h₂ := length_joinReturns_append t' (u ++ (w ++ r))
      rw [joinReturns_cons_of_ne _ (by decide), List.length_cons] at h₁
      rw [hc] at hless
      rw [hrest']
      omega
    rw [arrayElements, hv]
    simp only [hskip, hhead, hskip']
    rw [if_neg (by simp [Cursor.startsWith, hrest', hx, hbracket.symm]), if_pos hless', hd]

/-- An array without elements. -/
theorem valueSpelled_empty (gap : Trivia t) : ValueSpelled (valueWith inner) ('[' :: (t ++ [']'])) (.list []) where
  head := ⟨_, _, rfl, by decide⟩
  found := by
    intro c r hc hr
    rw [List.cons_append, List.append_assoc] at hc
    obtain ⟨hhead, hnext⟩ := rest_next hc (by decide)
    obtain ⟨c₁, hskip, hrest⟩ := gap.skipBlanks (stopsTrivia_cons _ (.inr rfl)) hnext
    obtain ⟨hhead₁, hnext₁⟩ := rest_next hrest (by decide)
    refine ⟨c₁.next, ?_, hnext₁⟩
    rw [valueWith, if_pos (Cursor.startsWith_singleton.mpr ⟨_, hhead⟩), array, hskip]
    dsimp only
    rw [if_pos (Cursor.startsWith_singleton.mpr ⟨_, hhead₁⟩)]

/-- An array of values. -/
theorem ElementsSpelled.value (gap : Trivia t) (hv : ValueSpelled inner u v) (h : ElementsSpelled inner w vs) :
    ValueSpelled (valueWith inner) ('[' :: (t ++ (u ++ w))) (.list (v :: vs)) where
  head := ⟨_, _, rfl, by decide⟩
  found := by
    intro c r hc hr
    rw [List.cons_append, List.append_assoc, List.append_assoc] at hc
    obtain ⟨hhead, hnext⟩ := rest_next hc (by decide)
    obtain ⟨x, u', hx, hblank, hcomment, hbracket, hreturn⟩ := joinReturns_beginsValue hv.head (w ++ r)
    obtain ⟨c₁, hskip, hrest⟩ := gap.skipBlanks (by rw [hx]; rintro y ⟨⟩; exact ⟨hblank, hcomment, hreturn⟩) hnext
    obtain ⟨c₂, hread, hrest₂⟩ := hv.found c₁ (w ++ r) hrest (h.stops r)
    have hless : c₂.rest.length ≤ c₁.rest.length := by
      have := length_joinReturns_append u (w ++ r)
      rw [hrest₂, hrest]
      omega
    obtain ⟨d, hd, hend⟩ := h.read r hread hrest₂ hless
    refine ⟨d, ?_, hend⟩
    rw [valueWith, if_pos (Cursor.startsWith_singleton.mpr ⟨_, hhead⟩), array, hskip]
    dsimp only
    rw [if_neg (by simp [Cursor.startsWith, hrest, hx, hbracket.symm]), hd]

/-! ## Inline tables -/

/-- The fields of an inline table with further entries, if all are accepted. -/
def addFields (marks : Marks) (fields : Fields) : List (List String × Plain) → Option Fields
  | [] => some fields
  | (path, v) :: more =>
    if marks.isClosed path then none
    else
      (fields.atPath false (Fields.add? (path.getLastD "") v) path.dropLast).bind fun fields' =>
        addFields (if isContainer v then marks.close path else marks) fields' more

/-- The entries of an inline table from the first one up to the closing brace. -/
inductive FieldsSpelled (inner : Cursor → Step Plain) : List Char → List (List String × Plain) → Prop where
  /-- The last entry. -/
  | last {b a a' u : List Char} {path : List String} {v : Plain} (key : PathSpelled b path) (before : Blanks a)
      (value : ValueSpelled inner u v) (behind : Blanks a') :
      FieldsSpelled inner (b ++ '=' :: (a ++ (u ++ (a' ++ ['\x7d'])))) [(path, v)]
  /-- Another entry follows. -/
  | next {b a a' a₁ u w : List Char} {path : List String} {v : Plain} {more : List (List String × Plain)}
      (key : PathSpelled b path) (before : Blanks a) (value : ValueSpelled inner u v) (behind : Blanks a') (lead : Blanks a₁)
      (rest : FieldsSpelled inner w more) :
      FieldsSpelled inner (b ++ '=' :: (a ++ (u ++ (a' ++ ',' :: (a₁ ++ w))))) ((path, v) :: more)

theorem FieldsSpelled.head (h : FieldsSpelled inner w fs) : ∃ x u, w = x :: u ∧ isKeyStart x = true := by
  cases h with
  | last key | next key =>
    obtain ⟨x, u, rfl, hx⟩ := key.head
    exact ⟨x, _, rfl, hx⟩

/-- A table stands at every path at which something can be changed. -/
private theorem atPath_some (h : fields.atPath false f p = some fields') : ∃ t, fields.atPath false some p = some t := by
  induction p generalizing fields fields' with
  | nil => exact ⟨fields, rfl⟩
  | cons k ks ih =>
    rw [Fields.atPath] at h ⊢
    split at h
    · obtain ⟨sub, hsub, -⟩ := Option.map_eq_some_iff.mp h
      obtain ⟨t, ht⟩ := ih hsub
      simp [ht]
    · obtain ⟨sub, hsub, -⟩ := Option.map_eq_some_iff.mp h
      obtain ⟨t, ht⟩ := ih hsub
      simp [ht]
    · cases h
    · cases h

theorem addInline_of (c : Cursor) (hclosed : marks.isClosed path = false)
    (h : fields.atPath false (Fields.add? (path.getLastD "") v) path.dropLast = some fields') :
    addInline marks fields path v c = .ok fields' := by
  obtain ⟨t, ht⟩ := atPath_some h
  simp only [addInline, hclosed, ht, h, Bool.false_eq_true, if_false]

/-- A key path, an equals sign and a value with blanks between them. -/
private theorem keyValue_spelled (key : PathSpelled b path) (before : Blanks a) (value : ValueSpelled inner u v)
    (hc : c.rest = joinReturns (b ++ '=' :: (a ++ (u ++ r)))) (hr : Stops (joinReturns r)) :
    ∃ d, keyValue inner c = .ok ((path, v), d) ∧ d.rest = joinReturns r := by
  have hequals : joinReturns ('=' :: (a ++ (u ++ r))) = '=' :: joinReturns (a ++ (u ++ r)) :=
    joinReturns_cons_of_ne _ (by decide)
  obtain ⟨e, he, hrest⟩ := key.read c _ hc ⟨_, .inl hequals⟩
  obtain ⟨hhead, hnext⟩ := rest_next hrest (by decide)
  obtain ⟨x, t, hx, hblank, -⟩ := joinReturns_beginsValue value.head r
  have hskip := skipWhile_joinReturns before hnext (by
    rw [hx]
    rintro y ⟨⟩
    rw [isBlankOrNewline, Bool.or_eq_false_iff] at hblank
    exact hblank.1)
  obtain ⟨d, hd, hend⟩ := value.found _ r hskip hr
  exact ⟨d, keyValue_iff.mpr ⟨e, _, he, hhead, hd⟩, hend⟩

theorem FieldsSpelled.read (h : FieldsSpelled inner w fs) (r : List Char) (hadd : addFields marks fields fs = some fields')
    (hc : c.rest = joinReturns (w ++ r)) :
    ∃ d, inlineEntries inner marks fields c = .ok (fields', d) ∧ d.rest = joinReturns r := by
  induction h generalizing marks fields c with
  | @last b a a' u path v key before value behind =>
    rw [addFields] at hadd
    split at hadd
    · cases hadd
    next hclosed =>
    obtain ⟨fields₁, hfields, hrest⟩ := Option.bind_eq_some_iff.mp hadd
    cases hrest
    simp only [append_assoc, cons_append, nil_append] at hc
    obtain ⟨c₁, hkey, hrest₁⟩ := keyValue_spelled key before value hc
      (behind.trivia.stops (stops_cons _ (.inr (.inr rfl))))
    have hskip := skipWhile_joinReturns behind hrest₁ (by
      rw [joinReturns_cons_of_ne _ (by decide)]
      rintro x ⟨⟩
      rfl)
    obtain ⟨hhead, hnext⟩ := rest_next hskip (by decide)
    refine ⟨_, ?_, hnext⟩
    rw [inlineEntries, hkey]
    simp only [addInline_of c₁ (Bool.not_eq_true _ ▸ hclosed) hfields, hhead]
  | @next b a a' a₁ u w path v more key before value behind lead rest ih =>
    rw [addFields] at hadd
    split at hadd
    · cases hadd
    next hclosed =>
    obtain ⟨fields₁, hfields, hmore⟩ := Option.bind_eq_some_iff.mp hadd
    simp only [append_assoc, cons_append] at hc
    obtain ⟨c₁, hkey, hrest₁⟩ := keyValue_spelled key before value hc
      (behind.trivia.stops (stops_cons _ (.inl rfl)))
    have hskip := skipWhile_joinReturns behind hrest₁ (by
      rw [joinReturns_cons_of_ne _ (by decide)]
      rintro x ⟨⟩
      rfl)
    obtain ⟨hhead, hnext⟩ := rest_next hskip (by decide)
    have hskip' := skipWhile_joinReturns lead hnext (by
      obtain ⟨x, t, rfl, hx⟩ := rest.head
      obtain ⟨hblank, hreturn, -⟩ := plain_of_isKeyStart hx
      rw [cons_append, joinReturns_cons_of_ne _ hreturn]
      rintro y ⟨⟩
      exact hblank)
    obtain ⟨d, hd, hend⟩ := ih hmore hskip'
    refine ⟨d, ?_, hend⟩
    have hless : ((c₁.skipWhile isBlank).next.skipWhile isBlank).rest.length < c.rest.length := by
      have h₁ := length_joinReturns_append (b ++ '=' :: (a ++ (u ++ a'))) (',' :: (a₁ ++ (w ++ r)))
      have h₂ := length_joinReturns_append a₁ (w ++ r)
      rw [joinReturns_cons_of_ne _ (by decide), length_cons] at h₁
      simp only [append_assoc, cons_append] at h₁
      rw [hskip', hc]
      omega
    rw [inlineEntries, hkey]
    simp only [addInline_of c₁ (Bool.not_eq_true _ ▸ hclosed) hfields, hhead]
    rw [if_pos hless, hd]

private theorem valueWith_inline (hc : c.rest = '\x7b' :: t) : valueWith inner c = inlineTable inner c := by
  rw [valueWith, if_neg (by simp [startsWith, hc]), if_pos (startsWith_singleton.mpr ⟨_, hc⟩)]

/-- An inline table without entries. -/
theorem valueSpelled_noFields (gap : Blanks a) :
    ValueSpelled (valueWith inner) ('\x7b' :: (a ++ ['\x7d'])) (.table []) where
  head := ⟨_, _, rfl, by decide⟩
  found := by
    intro c r hc hr
    rw [cons_append, append_assoc] at hc
    obtain ⟨hhead, hnext⟩ := rest_next hc (by decide)
    have hskip := skipWhile_joinReturns gap hnext (by
      rw [cons_append, joinReturns_cons_of_ne _ (by decide)]
      rintro x ⟨⟩
      rfl)
    obtain ⟨hhead₁, hnext₁⟩ := rest_next hskip (by decide)
    refine ⟨_, ?_, hnext₁⟩
    rw [valueWith_inline hhead, inlineTable]
    rw [if_pos (startsWith_singleton.mpr ⟨_, hhead₁⟩)]

/-- An inline table of entries that are accepted. -/
theorem FieldsSpelled.value (gap : Blanks a) (h : FieldsSpelled inner w fs) (hadd : addFields .blank [] fs = some fields) :
    ValueSpelled (valueWith inner) ('\x7b' :: (a ++ w)) (.table fields) where
  head := ⟨_, _, rfl, by decide⟩
  found := by
    intro c r hc hr
    rw [cons_append, append_assoc] at hc
    obtain ⟨hhead, hnext⟩ := rest_next hc (by decide)
    obtain ⟨x, t, hw, hx⟩ := h.head
    obtain ⟨hblank, hreturn, -, -, -, hbrace⟩ := plain_of_isKeyStart hx
    have hfirst : joinReturns (w ++ r) = x :: joinReturns (t ++ r) := by
      rw [hw, cons_append, joinReturns_cons_of_ne _ hreturn]
    have hskip := skipWhile_joinReturns gap hnext (by
      rw [hfirst]
      rintro y ⟨⟩
      exact hblank)
    obtain ⟨d, hd, hend⟩ := h.read r hadd hskip
    refine ⟨d, ?_, hend⟩
    rw [valueWith_inline hhead, inlineTable]
    rw [if_neg (by simp [startsWith, hskip, hfirst, hbrace.symm]), hd]

/-! ## Statements -/

theorem statementSpelled_entry (key : PathSpelled b path) (before : Blanks a)
    (value : ValueSpelled (valueWithin limit nestingLevels) u v) :
    StatementSpelled limit (b ++ '=' :: (a ++ u)) (.entry path v) := by
  obtain ⟨x, t, hb, hx⟩ := key.head
  obtain ⟨hblank, hreturn, hfeed, hcomment, hbracket, -⟩ := plain_of_isKeyStart hx
  have hread : ∀ c r, c.rest = joinReturns (b ++ '=' :: (a ++ u) ++ r) → EndsLine (joinReturns r) →
      ∃ d, keyValue (valueWithin limit nestingLevels) c = .ok ((path, v), d) ∧ d.rest = joinReturns r := by
    intro c r hc hr
    rw [append_assoc, cons_append, append_assoc] at hc
    exact keyValue_spelled key before value hc hr.stops
  refine ⟨⟨x, t ++ '=' :: (a ++ u), by rw [hb]; rfl, hblank, hfeed, hreturn, hcomment⟩, fun c r hc hr => ?_, fun s c r hc hr _ => ?_⟩
  · obtain ⟨d, hd, hrest⟩ := hread c r hc hr
    refine ⟨d, (statementAt_entry ?_).mpr ⟨path, v, keyValue_mono (fun c r => value_of_valueWithin) hd, rfl⟩, hrest⟩
    rw [hb, cons_append, cons_append, joinReturns_cons_of_ne _ hreturn] at hc
    simp [startsWith, hc, isPrefixOf, hbracket.symm]
  · obtain ⟨d, hd, -⟩ := hread c r hc hr
    rw [EntryMet.nestsWithin, hd]
    rfl

/-- A key path between brackets spells a header. -/
theorem statementSpelled_header (isArray : Bool) (lead : Blanks a) (key : PathSpelled b path) :
    StatementSpelled limit
      (replicate (if isArray then 2 else 1) '[' ++ (a ++ (b ++ replicate (if isArray then 2 else 1) ']')))
      (if isArray then .array path else .table path) := by
  obtain ⟨x, t, hb, hx⟩ := key.head
  obtain ⟨hblank, hreturn, -, -, hbracket, -⟩ := plain_of_isKeyStart hx
  have hopen (c : Cursor) (r : List Char)
      (hc : c.rest = joinReturns (replicate (if isArray then 2 else 1) '[' ++
        (a ++ (b ++ replicate (if isArray then 2 else 1) ']')) ++ r)) :
      c.rest = replicate (if isArray then 2 else 1) '[' ++
        joinReturns (a ++ (b ++ (replicate (if isArray then 2 else 1) ']' ++ r))) := by
    rw [hc, append_assoc, joinReturns_append _ (by simp +contextual [mem_replicate])]
    simp only [append_assoc]
  refine ⟨?_, fun c r hc hr => ?_, fun s c r hc hr hno => ?_⟩
  · cases isArray <;> exact ⟨'[', _, rfl, by decide⟩
  · have hrest := hopen c r hc
    have hdrop : (c.drop (if isArray then 2 else 1)).rest =
        joinReturns (a ++ (b ++ (replicate (if isArray then 2 else 1) ']' ++ r))) := by
      rw [Cursor.drop, hrest]
      cases isArray <;> rfl
    have hskip := skipWhile_joinReturns lead hdrop (by
      rw [hb, cons_append, joinReturns_cons_of_ne _ hreturn]
      rintro y ⟨⟩
      exact hblank)
    have hclose : joinReturns (replicate (if isArray then 2 else 1) ']' ++ r) =
        replicate (if isArray then 2 else 1) ']' ++ joinReturns r :=
      joinReturns_append _ (by simp +contextual [mem_replicate])
    obtain ⟨e, he, hend⟩ := key.read _ _ hskip (by
      rw [hclose]
      cases isArray <;> exact ⟨_, .inr rfl⟩)
    rw [hclose] at hend
    refine ⟨e.drop (if isArray then 2 else 1), (statementAt_header ?_ ?_).mpr ⟨path, e, he, ?_, rfl, rfl⟩, ?_⟩
    · cases isArray <;> simp [startsWith, hrest, replicate]
    · cases isArray with
      | true => simp [startsWith, hrest, replicate]
      | false =>
        -- what follows the bracket is a blank or begins a key
        have hnext : ∃ y w, joinReturns (a ++ (b ++ (replicate 1 ']' ++ r))) = y :: w ∧ y ≠ '[' := by
          rw [joinReturns_blanks lead, hb, cons_append, joinReturns_cons_of_ne _ hreturn]
          cases a with
          | nil => exact ⟨x, _, rfl, hbracket⟩
          | cons y a =>
            refine ⟨y, _, rfl, ?_⟩
            rintro rfl
            exact absurd (lead '[' (by simp)) (by decide)
        obtain ⟨y, w, hy, hne⟩ := hnext
        simp only [Bool.false_eq_true, if_false] at hrest
        rw [hy] at hrest
        simp [startsWith, hrest, replicate, isPrefixOf, hne.symm]
    · cases isArray <;> simp [startsWith, hend, replicate]
    · rw [Cursor.drop, hend]
      cases isArray <;> rfl
  · rw [Bool.eq_false_iff] at hno
    refine absurd ?_ hno
    have hrest := hopen c r hc
    cases isArray <;> simp [startsWith, hrest, replicate]

end Verbatim

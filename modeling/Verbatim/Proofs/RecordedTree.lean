import Verbatim.Proofs.RecordedValues
import Verbatim.Proofs.Rereading
import Verbatim.Proofs.TreeLaw

/-!
# Trees are legible as they are read

A line that the scanner and the strict reader take has legible texts: the key path of a header or of an entry, the value, what
stands before the line and what ends it. What a line records goes to one place of the tree and stays there, so the tree of a
text that the strict reader takes is legible.
-/

namespace Verbatim

open List DataReader Render Cursor

variable {s s' : Numbered} {l : Line} {b d : Cursor} {m : Statement} {st st' : Reading}

variable {limit : Nat}

/-! ## The law -/

/-- The form of a table whose header, if it has one, is legible. -/
structure TableForm.Legible (source : Option (List Char)) (names : List String) (f : TableForm) : Prop where
  keys : ∀ ks ∈ f.headerKeys, PathLegible source Blanks ks ∧ ks.map Key.name = names
  decor : f.decor.Legible source Trivia Tail
  newline : Terminator f.newline
  /-- A table with a header has a number. -/
  placed : f.dotted = true ∨ f.implicit = true ∨ f.position.isSome = true

/-- Forms, entry lines and keys with legible texts. An entry line is given with the names of the dotted tables that lead to
it, since its own key path has those names. -/
def legibleLaw (source : Option (List Char)) (limit : Nat) : Law where
  info _ := True
  form names _ _ f := f.Legible source names
  line names e := ValueLegible source none limit nestingLevels e.item ∧
    ∀ keys : List Key, keys.map Key.name = names → LineLegible source Trivia Tail keys e
  member k := k.Legible source Blanks
  info_read _ := trivial
  form_implied _ := ⟨by rintro ks ⟨⟩, Decor.legible_empty, by rintro s ⟨⟩, .inr (.inl rfl)⟩
  form_dotted _ := ⟨by rintro ks ⟨⟩, Decor.legible_empty, by rintro s ⟨⟩, .inl rfl⟩
  plain _ _ h := h.1.isDotted

/-- A tree that keeps the law is legible. -/
theorem Law.Holds.legible (h : (legibleLaw source limit).Holds names dotted es)
    (hpath : ∀ k ∈ path, k.Legible source Blanks) (hnames : path.map Key.name = names)
    (hdotted : ∀ k ∈ ks, k.Legible source Blanks) (hkeys : ks.map Key.name = dotted) :
    Legible source limit path ks es := by
  induction h generalizing path ks with
  | @intro names dotted es entry tables below ih =>
    intro e he
    cases hv : e.item.isValue with
    | true => exact .value (((entry e he).line hv).2 ks hkeys) ((entry e he).line hv).1
    | false =>
      obtain ⟨hbare, hkey, -⟩ := (entry e he).member hv
      -- the keys that lead to the tables below the entry
      have hlead : ∀ ks : List Key, (∀ k ∈ ks, k.Legible source Blanks) → ∀ k ∈ ks ++ [e.key], k.Legible source Blanks := by
        intro ks hks
        rw [forall_mem_append, forall_mem_singleton]
        exact ⟨hks, hkey⟩
      have hname : (path ++ [e.key]).map Key.name = names ++ [e.name] := by
        rw [map_append, hnames]
        rfl
      refine .frame hv ?_ hkey (fun i f sub hx => ?_) fun i f sub hx => ?_
      · rw [hbare]
        exact (entryLegible_bare (hlead ks hdotted)).imp fun _ hu => hu.trivia
      · have hform := (tables e he i f sub hx).2
        refine ⟨fun _ => ⟨by simp, ?_, fun ks hks => ((hform.keys ks hks).2).trans hname.symm, hform.decor, hform.newline⟩,
          hform.placed⟩
        cases hks : f.headerKeys with
        | none => exact pathLegible_of_forall (hlead path hpath)
        | some ks => exact (hform.keys ks hks).1
      · have hbelow := @ih e he i f sub hx (path ++ [e.key])
        split
        · next hd =>
          refine hbelow (hlead path hpath) hname (hlead ks hdotted) ?_
          rw [Law.dottedPrefix, if_pos hd, map_append, hkeys]
          rfl
        · next hd =>
          refine hbelow (hlead path hpath) hname (forall_mem_nil _) ?_
          rw [Law.dottedPrefix, if_neg hd]
          rfl

/-! ## Lines -/

variable {source : List Char}

theorem terminator_of_lineEnd {behind newline : String} (h : lineEnd behind c = .ok (newline, c')) :
    newline = "" ∨ IsNewline newline.toList := by
  rw [lineEnd] at h
  split at h
  · cases h
    exact .inl rfl
  · cases h
    exact .inr (.inl rfl)
  · cases h
    exact .inr (.inr rfl)
  · cases h

/-- A header that both readers take is legible. -/
private theorem headerLine_legible {before : Cursor} (hb : before.On source)
    (h₀ : before.Spells t₀ s.cursor) (ht₀ : Trivia t₀) (hj : s.cursor.Joins d) (hbracket : d.startsWith ['['] = true)
    (hs : headerLine before.pos s = .ok (l, s')) (hd : statementAt d = some (m, d'))
    (hafter : afterStatement b d' st = .ok st') : (legibleLaw (some source) limit).Admits l := by
  obtain ⟨path, leaf, c₁, c₂, c₃, c₄, newline, c₆, what, what', isArray, harray, rfl, hrun, hclose, hclose', hend, rfl, rfl⟩ :=
    headerLine_eq_ok hs
  have hsame := hj.startsWith_eq (w := ['[', '[']) (by simp)
  obtain ⟨names, e, hpath, -, -, rfl⟩ := (statementAt_header hbracket (hsame.symm.trans harray.symm)).mp hd
  have hspells := spells_expectChar hclose
  have hon := h₀.on hb
  obtain ⟨e', he', -⟩ := afterStatement_eq_ok hafter
  -- one bracket or two on each side
  obtain ⟨hopen, hon₁, hc₄⟩ : (s.cursor.drop (if isArray then 2 else 1)).Joins (d.drop (if isArray then 2 else 1)) ∧
      (s.cursor.drop (if isArray then 2 else 1)).On source ∧
      c₂.Spells (List.replicate (if isArray then 2 else 1) ']') c₄ := by
    refine ⟨?_, (reaches_drop _ _).on hon, ?_⟩
    · cases isArray with
      | true => exact hj.spells (spells_of_startsWith harray.symm) (by simp)
      | false => exact hj.next (by decide) ((hj.startsWith_iff (by decide) (by decide)).mpr hbracket)
    · cases isArray with
      | true => exact hspells.trans (spells_expectChar hclose')
      | false =>
        cases hclose'
        exact hspells
  have hlegible := hrun.legible hon₁ (.refl _) (fun t ht => ht) hopen hpath
  obtain ⟨hjoins, -⟩ := hrun.joins hopen hpath
  have hend₄ := hjoins.spells hc₄ (by cases isArray <;> simp)
  rw [length_replicate] at hend₄
  obtain ⟨t, ht, htail⟩ := spells_lineTail hend₄ he'
  have hon₄ := hc₄.on (hrun.reaches.on hon₁)
  refine ⟨⟨?_, ⟨?_, ?_⟩, ?_, .inr (.inr rfl)⟩, hlegible.bare Blanks⟩
  · rintro ks ⟨⟩
    exact ⟨hlegible, rfl⟩
  · rintro _ ⟨⟩
    exact shows_between hb h₀ ht₀
  · rintro _ ⟨⟩
    exact shows_between hon₄ ht htail
  · rintro _ ⟨⟩
    exact terminator_of_lineEnd hend

/-- An entry line that both readers take is legible. -/
private theorem entryLine_legible {before : Cursor}
    (hb : before.On source) (h₀ : before.Spells t₀ s.cursor) (ht₀ : Trivia t₀) (hj : s.cursor.Joins d) (hx : d.rest = x :: u)
    (hblank : isBlank x = false) (hno : d.startsWith ['['] = false) (hs : entryLine limit before.pos s = .ok (l, s'))
    (hd : statementAt d = some (m, d')) (hafter : afterStatement b d' st = .ok st') :
    (legibleLaw (some source) limit).Admits l := by
  obtain ⟨names, w, hvalue', -⟩ := (statementAt_entry hno).mp hd
  have hskip : d.skipWhile isBlank = d := skipWhile_of_head (by rw [hx]; exact fun y hy => Option.some.inj hy ▸ hblank)
  rw [← hskip] at hvalue'
  obtain ⟨path, leaf, c₁, c₂, v, s₃, newline, c₅, hkeys, hequals, hvalue, hend, rfl, rfl⟩ := entryLine_eq_ok hs
  obtain ⟨hpath, hbefore, hlegible, hon₃, hjoins⟩ := keyedValue_legible (agrees_valueItem limit openLevels 0 nestingLevels)
    (readsLegibly_valueItem source limit openLevels 0 nestingLevels) (readsAhead_valueItem source limit openLevels 0) hb h₀
    (fun t ht => ht₀.append (Blanks.trivia ht)) hkeys hequals hvalue hj hvalue'
  obtain ⟨e', he', -⟩ := afterStatement_eq_ok hafter
  obtain ⟨t, ht, htail⟩ := spells_lineTail hjoins he'
  refine ⟨⟨?_, fun keys hnames => ?_⟩, fun k hk => hpath.bare Blanks k (mem_append_left _ hk)⟩
  · show ValueLegible _ none _ _ (withAfter _ _)
    rw [withAfter_withDecor hlegible.isValue]
    exact hlegible.withDecor _
  · rw [EntryLine.entry, withAfter_withDecor hlegible.isValue]
    exact lineLegible_of_keys hpath hlegible.isValue hbefore (shows_between hon₃ ht htail)
      (by rintro _ ⟨⟩; exact terminator_of_lineEnd hend) hnames

/-- A line that both readers take is legible. -/
theorem lineAt_legible (hs : s.cursor.On source) (hj : s.cursor.Joins d) (hline : lineAt limit s = .ok (l, s'))
    (hd : statements st d = .ok st') (he : e.rest = triviaRest false d.rest) (hx : e.rest = x :: u)
    (hblank : isBlank x = false) (hspelled : statementAt e = some (m, e')) (hafter : afterStatement b e' st₁ = .ok st') :
    (legibleLaw (some source) limit).Admits l := by
  have hhere : s.cursor.skipTrivia.Joins e := hj.triviaRest he
  obtain ⟨t, ht, -, htrivia⟩ := spells_skipTrivia hj (legalTrivia_of_statements hd)
  have htrivia := htrivia fun hnil => by
    rw [(hhere.rest_eq_nil).mpr hnil] at hx
    cases hx
  have hsame := hhere.startsWith_eq (w := ['[']) (by simp)
  rcases lineAt_cases hline with ⟨hbracket, hline⟩ | ⟨hbracket, hline⟩
  · exact headerLine_legible (s := { s with cursor := s.cursor.skipTrivia }) hs ht htrivia hhere (hsame.symm.trans hbracket)
      hline hspelled hafter
  · exact entryLine_legible (s := { s with cursor := s.cursor.skipTrivia }) hs ht htrivia hhere hx hblank
      (hsame.symm.trans hbracket) hline hspelled hafter

/-! ## Whole texts -/

/-- The lines of a text that the strict reader takes are legible, and so is what follows them. -/
theorem LinesRun.legible (h : LinesRun limit s ls trailing) (hs : s.cursor.On source) (hj : s.cursor.Joins d)
    (hd : statements st d = .ok st') :
    (∀ l ∈ ls, (legibleLaw (some source) limit).Admits l) ∧ trailing.Shows (some source) Tail := by
  induction h generalizing d st with
  | @done s atEnd =>
    obtain ⟨t, ht, htail, -⟩ := spells_skipTrivia hj (legalTrivia_of_statements hd)
    exact ⟨by simp, shows_between hs ht htail⟩
  | @line s s' l ls trailing notAtEnd line rest ih =>
    rcases statements_eq_ok hd with ⟨hend, -⟩ | ⟨e, x, u, m, st₁, e', he, hx, hblank, -, hspelled, -, b, hafter, -⟩
    · -- something other than blanks and comments is left
      rw [(atEnd_of_joins hj).mpr hend] at notAtEnd
      cases notAtEnd
    · have hlegible := lineAt_legible hs hj line hd he hx hblank hspelled hafter
      obtain ⟨-, d', hj', hd', -⟩ := lineAt_joins hj line he hx hblank hspelled hafter
      obtain ⟨hls, htrailing⟩ := ih ((lineAt_kept .nothing hs line).reaches.on hs) hj' hd'
      exact ⟨forall_mem_cons.mpr ⟨hlegible, hls⟩, htrailing⟩

/-- The tree of a text that the strict reader takes is legible, and so is what follows its last line. -/
theorem readTree_legible (h : readTree limit source = .ok (root, trailing))
    (hread : readDocument source = .ok data) :
    root = .table {} rootForm root.entries ∧ Built root.entries ∧ Legible (some source) limit [] [] root.entries ∧
      trailing.Shows (some source) Tail := by
  obtain ⟨ls, hrun, hassemble⟩ := readTree_eq_ok h
  have hstatements : ∃ st, statements {} (.start (Text.joinReturns source)) = .ok st := by
    rw [readDocument] at hread
    split at hread
    · cases hread
    · next st hst => exact ⟨st, hst⟩
  obtain ⟨st, hst⟩ := hstatements
  have hon : (start source).On source := start_on source
  obtain ⟨hls, htrailing⟩ := hrun.legible hon (.start source) hst
  obtain ⟨hroot, hbuilt, hholds⟩ := Law.holds_assemble (hrun.proper hon).1 hls hassemble
  exact ⟨hroot, hbuilt, hholds.legible (forall_mem_nil _) rfl (forall_mem_nil _) rfl, htrailing⟩

end Verbatim

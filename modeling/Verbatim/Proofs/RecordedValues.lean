import Verbatim.Proofs.RecordedText

/-!
# Values are legible as they are read

A value that both the scanner and the strict reader take is legible, at every depth: the texts between the elements of an
array are passed over by both, and the entries of an inline table keep their key paths below the dotted tables that those
make.
-/

namespace Verbatim

open List DataReader Cursor

variable {v : Item} {c d' d : Cursor} {w : Plain} {s s' : Numbered}

/-! ## Texts around values -/

theorem ValueLegible.withDecor (h : ValueLegible source place limit levels x) (d : Decor) :
    ValueLegible source place limit levels (x.withDecor d) := by
  cases h with
  | scalar spelling => exact .scalar spelling
  | array room decor trailing elements => exact .array room decor trailing elements
  | inlineTable plain room preamble body members => exact .inlineTable plain room preamble body members
  | dotted isDotted nonempty body members => exact .dotted isDotted nonempty body members

/-- A key without the text around it stands anywhere. -/
theorem Key.Legible.bare {source : Option (List Char)} {k : Key} (h : k.Legible source lead) (lead' : List Char → Prop) :
    k.bare.Legible source lead' where
  repr := h.repr
  before := by rintro t ⟨⟩
  after := by rintro t ⟨⟩

/-- The keys of a key path, without the text around them. -/
theorem PathLegible.bare {source : Option (List Char)} {ks : List Key} (h : PathLegible source lead ks)
    (lead' : List Char → Prop) : ∀ k ∈ ks, k.bare.Legible source lead' := by
  cases ks with
  | nil => simp
  | cons k ks => exact forall_mem_cons.mpr ⟨h.1.bare lead', fun k' hk' => (h.2 k' hk').bare lead'⟩

/-- An entry as it was read has its key path, wherever dotted tables of the same names lead to it. -/
theorem lineLegible_of_keys {source : Option (List Char)} {tail : List Char → Prop} {leaf : Key} {before after : SpanText}
    {position : Option Int} {newline : Option String} (hkeys : PathLegible source lead (path ++ [leaf]))
    (hv : v.isValue = true) (hbefore : before.Shows source Blanks) (hafter : after.Shows source tail)
    (hnewline : ∀ s ∈ newline, s = "" ∨ IsNewline s.toList) {keys : List Key} (hnames : keys.map Key.name = path.map Key.name) :
    LineLegible source lead tail keys
      ⟨leaf, v.withDecor ⟨some before, some after⟩, dottedPathOf path, position, newline⟩ where
  keys := by
    rwa [entryKeys_dottedPathOf leaf fun hpath => by simpa [hpath] using hnames]
  names := by
    intro ks hks
    rw [dottedPathOf] at hks
    split at hks
    · cases hks
    · cases hks
      exact hnames.symm
  decor := by
    rw [Item.decor?_withDecor _ hv]
    rintro _ ⟨⟩
    exact ⟨by rintro _ ⟨⟩; exact hbefore, by rintro _ ⟨⟩; exact hafter⟩
  newline := hnewline

/-! ## Readers -/

/-- What a reader of values gives is legible wherever the strict reader succeeds, too. -/
def ReadsLegibly (source : List Char) (limit levels : Nat) (read : Numbered → ScannedValue) (inner : Cursor → Step Plain) :
    Prop :=
  ∀ s d v s' w d', s.cursor.On source → s.cursor.Joins d → read s = .ok (v, s') → inner d = .ok (w, d') →
    ValueLegible (some source) none limit levels v

/-- A reader moves along the text, and finds nothing where nothing is ahead. -/
structure ReadsAhead (source : List Char) (read : Numbered → ScannedValue) : Prop where
  on : ∀ s v s', s.cursor.On source → read s = .ok (v, s') → s'.cursor.On source
  /-- Something was ahead. -/
  ahead : ∀ s v s', read s = .ok (v, s') → s.cursor.rest ≠ []

variable {read : Numbered → ScannedValue} {inner : Cursor → Step Plain}

theorem keyedValue_legible (hagrees : Agrees read inner) (hread : ReadsLegibly source limit levels read inner)
    (hahead : ReadsAhead source read) {t₀ : List Char} {b c₁ c₂ : Cursor}
    (hb : b.On source) (hbc : b.Spells t₀ c) (hlead : ∀ t, Blanks t → lead (t₀ ++ t))
    (hkeys : KeyRun b.pos c path leaf c₁) (hequals : expectChar '=' what c₁ = .ok c₂)
    (hvalue : read ⟨c₂.skipBlanks, n⟩ = .ok (v, s₃)) (hj : c.Joins d)
    (hd : keyValue inner (d.skipWhile isBlank) = .ok ((names, w), d')) :
    PathLegible (some source) lead (path ++ [leaf]) ∧ (SpanText.between c₂.pos c₂.skipBlanks.pos).Shows (some source) Blanks ∧
      ValueLegible (some source) none limit levels v ∧ s₃.cursor.On source ∧ s₃.cursor.Joins d' := by
  obtain ⟨e, t, hpath, ht, hinner⟩ := keyValue_iff.mp hd
  have hlegible := hkeys.legible hb hbc hlead hj hpath
  obtain ⟨hjoins, -⟩ := hkeys.joins hj hpath
  have hspells := spells_expectChar hequals
  have hon : c₂.On source := hspells.on (hkeys.reaches.on (hbc.on hb))
  have hjoins₂ : c₂.Joins e.next := by
    have hrest := hspells.rest
    have hc₁ : e.rest = Text.joinReturns c₁.rest := hjoins
    rw [hrest, singleton_append, Text.joinReturns_cons_of_ne _ (by decide)] at hc₁
    rw [Cursor.Joins, Cursor.next, Cursor.drop, hc₁]
    rfl
  obtain ⟨u, hu, hblanks⟩ := spells_skipBlanks c₂
  have hon' : c₂.skipBlanks.On source := hu.on hon
  obtain ⟨hend, -⟩ := hagrees _ _ _ _ _ _ hjoins₂.skipBlanks hvalue hinner
  exact ⟨hlegible, shows_between hon hu hblanks, hread _ _ _ _ _ _ hon' hjoins₂.skipBlanks hvalue hinner,
    hahead.on _ _ _ hon' hvalue, hend⟩

/-! ## Arrays -/

/-- The gap before a place where something follows. -/
private theorem gap_shows (hon : c.On source) (hj : c.Joins d) (hd : DataReader.skipBlanks d = .ok d')
    (hne : c.skipTrivia.rest ≠ []) :
    (SpanText.between c.pos c.skipTrivia.pos).Shows (some source) Trivia ∧ c.skipTrivia.On source := by
  obtain ⟨t, ht, -, htrivia⟩ := spells_skipTrivia hj (legalTrivia_of_skipBlanks hd)
  exact ⟨shows_between hon ht (htrivia hne), ht.on hon⟩

private theorem rest_ne_nil (h : c.startsWith [x] = true) : c.rest ≠ [] := by
  obtain ⟨u, hu⟩ := startsWith_singleton.mp h
  simp [hu]

/-- An element of an array with the gaps around it. -/
private def ElementLegible (source : List Char) (limit levels : Nat) (x : Item) : Prop :=
  ValueLegible (some source) none limit levels x ∧ ∀ d ∈ x.decor?, d.Legible (some source) Trivia Trivia

private theorem placedElement_legible (hagrees : Agrees read inner) (hread : ReadsLegibly source limit levels read inner)
    (hahead : ReadsAhead source read) (hon : s.cursor.On source)
    (hj : s.cursor.Joins d) (hblanks : DataReader.skipBlanks d = .ok e)
    (value : read { s with cursor := s.cursor.skipTrivia } = .ok (v, s₂)) (hinner : inner e = .ok (w, e₁))
    (hblanks₂ : DataReader.skipBlanks e₁ = .ok e₂) (hx : s₂.cursor.skipTrivia.startsWith [x] = true) :
    ElementLegible source limit levels
        (placedElement s.cursor.pos s.cursor.skipTrivia.pos s₂.cursor.pos s₂.cursor.skipTrivia.pos v) ∧
      s₂.cursor.skipTrivia.On source ∧ s₂.cursor.skipTrivia.Joins e₂ := by
  have hjoins := hj.skipTrivia hblanks
  obtain ⟨hbefore, hon₁⟩ := gap_shows hon hj hblanks (hahead.ahead _ _ _ value)
  obtain ⟨hend, -⟩ := hagrees _ _ _ _ _ _ hjoins value hinner
  have hlegible := hread _ _ _ _ _ _ hon₁ hjoins value hinner
  obtain ⟨hafter, hon₂⟩ := gap_shows (hahead.on _ _ _ hon₁ value) hend hblanks₂ (rest_ne_nil hx)
  refine ⟨⟨hlegible.withDecor _, ?_⟩, hon₂, hend.skipTrivia hblanks₂⟩
  rw [placedElement, Item.decor?_withDecor _ hlegible.isValue]
  rintro _ ⟨⟩
  exact ⟨by rintro _ ⟨⟩; exact hbefore, by rintro _ ⟨⟩; exact hafter⟩

/-- The members of an array are legible, and so is the gap before its closing bracket. -/
private theorem ArrayRun.legible (hagrees : Agrees read inner) (hread : ReadsLegibly source limit levels read inner)
    (hahead : ReadsAhead source read) {comma last : Bool}
    (h : ArrayRun read comma s vs trailing last s') (hon : s.cursor.On source) (hj : s.cursor.Joins d)
    (hd : arrayRest inner d = .ok (ws, d')) :
    (∀ x ∈ vs, ElementLegible source limit levels x) ∧ trailing.Shows (some source) Trivia := by
  induction h generalizing d ws with
  | @close comma s bracket =>
    rw [arrayRest] at hd
    split at hd
    · cases hd
    · next e he => exact ⟨by simp, (gap_shows hon hj he (rest_ne_nil bracket)).1⟩
  | @last comma s s₂ v noBracket value bracket =>
    rw [arrayRest] at hd
    split at hd
    · cases hd
    · next e he =>
      rw [← (hj.skipTrivia he).startsWith_eq (by simp), noBracket, if_neg (by decide)] at hd
      obtain ⟨w, e₁, e₂, hinner, hblanks, -⟩ := arrayElements_eq_ok hd
      obtain ⟨helement, -⟩ := placedElement_legible hagrees hread hahead hon hj he value hinner hblanks bracket
      exact ⟨by simpa using helement, [], rfl, .nil⟩
  | @more comma last s s₂ s' v vs trailing noBracket value separator rest ih =>
    rw [arrayRest] at hd
    split at hd
    · cases hd
    · next e he =>
      rw [← (hj.skipTrivia he).startsWith_eq (by simp), noBracket, if_neg (by decide)] at hd
      obtain ⟨w, e₁, e₂, hinner, hblanks, hrest⟩ := arrayElements_eq_ok hd
      obtain ⟨helement, hon₂, hend⟩ := placedElement_legible hagrees hread hahead hon hj he value hinner hblanks separator
      rcases hrest with ⟨hclose, -⟩ | ⟨-, ws', rfl, hws⟩
      · -- a comma is no bracket
        obtain ⟨t, ht⟩ := startsWith_singleton.mp separator
        rw [← hend.startsWith_eq (by simp), startsWith, ht] at hclose
        cases hclose
      · obtain ⟨hvs, htrailing⟩ := ih ((spells_next separator).on hon₂) (hend.next (by decide) separator) hws
        exact ⟨forall_mem_cons.mpr ⟨helement, hvs⟩, htrailing⟩

/-- Where nothing can be read there are no members. -/
private theorem ArrayRun.room {comma last : Bool}
    (h : ArrayRun read comma s vs trailing last s') (hagrees : Agrees read inner) (hj : s.cursor.Joins d)
    (hd : arrayRest inner d = .ok (ws, d')) (hne : vs ≠ []) : ∃ c r, inner c = .ok r := by
  obtain ⟨-, hdata⟩ := h.joins hagrees hj hd
  have hws : ws ≠ [] := by simpa [← hdata] using hne
  rw [arrayRest] at hd
  split at hd
  · cases hd
  · split at hd
    · cases hd
      exact absurd rfl hws
    · obtain ⟨w, e₁, e₂, hinner, -⟩ := arrayElements_eq_ok hd
      exact ⟨_, _, hinner⟩

private theorem arrayItem_legible (hagrees : Agrees read inner) (hread : ReadsLegibly source limit (levels - 1) read inner)
    (hahead : ReadsAhead source read) (hroom : ∀ c r, inner c = .ok r → 0 < levels) (hon : s.cursor.On source)
    (hj : s.cursor.Joins d) (hbracket : s.cursor.startsWith ['['] = true) (hs : arrayItem read s = .ok (v, s'))
    (hd : array inner d = .ok (w, d')) : ValueLegible (some source) none (limit + 1) levels v := by
  obtain ⟨vs, trailing, comma, hmembers, rfl⟩ := arrayItem_eq_ok hs
  obtain ⟨ws, rfl, hws⟩ := array_eq_ok hd
  have hnext : ({ s with cursor := s.cursor.next } : Numbered).cursor.Joins d.next := hj.next (by decide) hbracket
  have hrun := arrayMembers_run hmembers
  obtain ⟨hvs, htrailing⟩ := hrun.legible hagrees hread hahead ((spells_next hbracket).on hon) hnext hws
  refine .array (fun hne => ?_) (fun x hx => (hvs x hx).2) htrailing fun x hx => (hvs x hx).1
  obtain ⟨c, r, hinner⟩ := hrun.room hagrees hnext hws hne
  exact hroom c r hinner

/-! ## Inline tables -/

/-- The entries of an inline table, or of a dotted one to which keys lead, are legible. -/
structure InlineLegible (source : Option (List Char)) (limit levels : Nat) (path : List Key) (es : List (Entry Item)) :
    Prop where
  body : InlineBody source path es
  members : ∀ e ∈ es, ValueLegible source (e.below path) limit levels e.item

namespace InlineLegible

variable {e d : Entry Item}

theorem nil (hkeys : ∀ k ∈ path, k.Legible text Blanks) : InlineLegible text limit levels path [] :=
  ⟨⟨.nil, hkeys, by simp⟩, by simp⟩

/-- A further entry with a name of its own. -/
theorem append (h : InlineLegible text limit levels path es) (hname : e.name ∉ es.map Entry.name)
    (hline : LineLegible text Blanks Blanks path e)
    (hvalue : ValueLegible text (e.below path) limit levels e.item) : InlineLegible text limit levels path (es ++ [e]) := by
  refine ⟨⟨?_, h.body.keys, ?_⟩, ?_⟩
  · rw [map_append, map_singleton, nodup_append]
    refine ⟨h.body.names, nodup_singleton _, ?_⟩
    rintro x hx y hy rfl
    exact hname (mem_singleton.mp hy ▸ hx)
  · intro x hx
    rcases mem_append.mp hx with hx | hx
    · exact h.body.lines x hx
    · obtain rfl := mem_singleton.mp hx
      exact hline
  · intro x hx
    rcases mem_append.mp hx with hx | hx
    · exact h.members x hx
    · obtain rfl := mem_singleton.mp hx
      exact hvalue

/-- Another entry of the same name in place of one. -/
theorem replace (h : InlineLegible text limit levels path (pre ++ e :: post)) (hname : d.name = e.name)
    (hline : LineLegible text Blanks Blanks path d)
    (hvalue : ValueLegible text (d.below path) limit levels d.item) :
    InlineLegible text limit levels path (pre ++ d :: post) := by
  have hmem : ∀ x ∈ pre ++ d :: post, x = d ∨ x ∈ pre ++ e :: post := by
    intro x hx
    simp only [mem_append, mem_cons] at hx ⊢
    tauto
  refine ⟨⟨?_, h.body.keys, ?_⟩, ?_⟩
  · simpa [hname] using h.body.names
  · intro x hx
    rcases hmem x hx with rfl | hx
    · exact hline
    · exact h.body.lines x hx
  · intro x hx
    rcases hmem x hx with rfl | hx
    · exact hvalue
    · exact h.members x hx

end InlineLegible

/-- An entry that is put below its dotted key keeps the entries legible. -/
theorem DottedRun.inlineLegible {text : Option (List Char)} {leaf : Entry Item}
    (h : DottedRun dottedInlineTable leaf ks es es') (hd : leaf.item.isDotted = false)
    (hvalue : ValueLegible text none limit levels leaf.item) (hline : ∀ keys : List Key, keys.map Key.name = (path ++ ks).map
      Key.name → LineLegible text Blanks Blanks keys leaf) (hkeys : ∀ k ∈ ks, k.bare.Legible text Blanks)
    (hes : InlineLegible text limit levels path es) : InlineLegible text limit levels path es' ∧ es' ≠ [] := by
  induction h generalizing path with
  | @leaf es absent =>
    refine ⟨hes.append absent (hline path (by simp)) ?_, by simp⟩
    rwa [Entry.below, if_neg (by simp [hd])]
  | @make k ks es sub absent rest ih =>
    obtain ⟨hk, hks⟩ := forall_mem_cons.mp hkeys
    have hpath : ∀ k' ∈ path ++ [k.bare], k'.Legible text Blanks := by
      rw [forall_mem_append, forall_mem_singleton]
      exact ⟨hes.body.keys, hk⟩
    obtain ⟨hsub, hne⟩ := ih (fun keys hnames => hline keys (by simpa [Key.bare] using hnames)) hks (.nil hpath)
    refine ⟨hes.append absent ⟨entryLegible_bare hpath, ?_⟩ ?_, by simp⟩
    · rintro _ ⟨⟩
      exact Decor.legible_empty
    · exact .dotted rfl hne hsub.body hsub.members
  | @enter k ks pre post sub e name dotted rest ih =>
    obtain ⟨hk, hks⟩ := forall_mem_cons.mp hkeys
    have hmember := hes.members e (by simp)
    rw [Entry.below, if_pos dotted] at hmember
    generalize hx : e.item = x at hmember rest ih dotted
    cases hmember with
    | @dotted i f sub₀ _ _ _ isDotted nonempty body members =>
      obtain ⟨hsub, hne⟩ := @ih (path ++ [e.key])
        (fun keys hnames => hline keys (by simpa [← name, Entry.name] using hnames)) hks ⟨body, members⟩
      have hdotted : ((Item.inlineTable i f sub₀).withEntries sub).isDotted = true := dotted
      have hline := hes.body.lines e (by simp)
      refine ⟨hes.replace rfl ⟨⟨hline.keys, hline.names, hline.newline⟩, ?_⟩ ?_, by simp⟩
      · have hdecor := hline.decor
        rw [hx] at hdecor
        exact hdecor
      · rw [Entry.below, if_pos hdotted]
        exact .dotted isDotted hne hsub.body hsub.members

section

variable (hagrees : Agrees read inner)

include hagrees

/-- An entry of an inline table keeps the entries legible. -/
private theorem inlineEntry_legible (hread : ReadsLegibly source limit levels read inner)
    (hahead : ReadsAhead source read) {names : List String} (hdotting : Dotting es)
    (hes : InlineLegible (some source) limit levels [] es) (hon : s.cursor.On source) (hj : s.cursor.Joins d)
    (hs : inlineEntry read es s = .ok (es', s')) (hd : keyValue inner (d.skipWhile isBlank) = .ok ((names, w), d')) :
    InlineLegible (some source) limit levels [] es' ∧ s'.cursor.On source := by
  obtain ⟨path, leaf, c₁, c₂, v, s₃, hkeys, hequals, hvalue, hinsert, rfl⟩ := inlineEntry_eq_ok hs
  obtain ⟨hpath, hbefore, hlegible, hon₃, -⟩ := keyedValue_legible hagrees hread hahead hon (.refl _) (fun t ht => ht) hkeys
    hequals hvalue hj hd
  obtain ⟨t, ht, hblanks⟩ := spells_skipBlanks s₃.cursor
  have hafter := shows_between (P := Blanks) hon₃ ht hblanks
  rw [withAfter_withDecor hlegible.isValue] at hinsert
  have hrun := insertDotted_run hdotting hinsert
  have hd' : (v.withDecor ⟨some (.between c₂.pos c₂.skipBlanks.pos),
      some (.between s₃.cursor.pos s₃.cursor.skipBlanks.pos)⟩).isDotted = false := by
    rw [Item.isDotted_withDecor, hlegible.isDotted]
  refine ⟨(hrun.inlineLegible hd' (hlegible.withDecor _) (fun keys hnames => ?_) ?_ hes).1, ht.on hon₃⟩
  · exact lineLegible_of_keys hpath hlegible.isValue hbefore hafter (by rintro s ⟨⟩) (by simpa using hnames)
  · exact fun k hk => hpath.bare Blanks k (mem_append_left _ hk)

private theorem InlineRun.legible (hread : ReadsLegibly source limit levels read inner)
    (hahead : ReadsAhead source read) (h : InlineRun read es s es' s') (hdotting : Dotting es)
    (hes : InlineLegible (some source) limit levels [] es) (hon : s.cursor.On source) (hj : s.cursor.Joins d)
    (hd : inlineEntries inner marks (Item.unwrapFields es) (d.skipWhile isBlank) = .ok (fields, d')) :
    InlineLegible (some source) limit levels [] es' := by
  induction h generalizing d marks with
  | @last es es' s s' entry brace =>
    obtain ⟨path, w, e, fields₁, hvalue, -⟩ := inlineEntries_eq_ok hd
    exact (inlineEntry_legible hagrees hread hahead hdotting hes hon hj entry hvalue).1
  | @more es es₁ es' s s₁ s' entry comma rest ih =>
    obtain ⟨path, w, e, fields₁, hvalue, -, hadd, hrest⟩ := inlineEntries_eq_ok hd
    obtain ⟨hend, hdotting₁, hpath⟩ := inlineEntry_joins hagrees hdotting hj entry hvalue
    obtain ⟨hes₁, hon₁⟩ := inlineEntry_legible hagrees hread hahead hdotting hes hon hj entry hvalue
    cases hadd.symm.trans hpath
    rcases hrest with ⟨hbrace, -⟩ | ⟨-, hentries⟩
    · -- a comma is no brace
      obtain ⟨t, ht⟩ := startsWith_singleton.mp comma
      rw [← hend.startsWith_eq (by simp), startsWith, ht] at hbrace
      cases hbrace
    · exact ih hdotting₁ hes₁ ((spells_next comma).on hon₁) (hend.next (by decide) comma) hentries

private theorem inlineTableItem_legible
    (hread : ReadsLegibly source limit (levels - 1) read inner) (hahead : ReadsAhead source read)
    (hroom : ∀ c r, inner c = .ok r → 0 < levels) (hon : s.cursor.On source) (hj : s.cursor.Joins d)
    (hbrace : s.cursor.startsWith ['\x7b'] = true) (hs : inlineTableItem read s = .ok (v, s'))
    (hd : inlineTable inner d = .ok (w, d')) : ValueLegible (some source) none (limit + 1) levels v := by
  have hnext := hj.next (by decide) hbrace
  have hon' := (spells_next hbrace).on hon
  have hclose := hnext.skipBlanks.startsWith_eq (w := ['\x7d']) (by simp)
  rcases inlineTableItem_eq_ok hs with ⟨-, rfl, -⟩ | ⟨hentries, es, hmembers, rfl⟩
  · obtain ⟨t, ht, hblanks⟩ := spells_skipBlanks s.cursor.next
    exact .inlineTable rfl (by simp) (shows_between hon' ht hblanks) ⟨.nil, by simp, by simp⟩ (by simp)
  · rcases inlineTable_eq_ok hd with ⟨hyes, -⟩ | ⟨-, fields, rfl, hfields⟩
    · rw [← hclose, hentries] at hyes
      cases hyes
    · have hstart : ({ s with cursor := s.cursor.next } : Numbered).cursor.Joins d.next := hnext
      have hes := (inlineMembers_run hmembers).legible hagrees hread hahead Dotting.nil (.nil (by simp)) hon' hstart hfields
      refine .inlineTable rfl (fun _ => ?_) ⟨[], rfl, Blanks.nil⟩ hes.body hes.members
      obtain ⟨path, w, e, fields₁, hvalue, -⟩ := inlineEntries_eq_ok hfields
      obtain ⟨_, _, -, -, hinner⟩ := keyValue_iff.mp hvalue
      exact hroom _ _ hinner

/-! ## Values -/

theorem readsLegibly_valueItemWith
    (hread : ReadsLegibly source (limit - (depth + 1)) (levels - 1) read inner) (hahead : ReadsAhead source read)
    (hroom : ∀ c r, inner c = .ok r → 0 < levels) :
    ReadsLegibly source (limit - depth) levels (valueItemWith limit depth read) (valueWith inner) := by
  intro s d v s' w d' hon hj hs hd
  have hless : depth < limit → limit - depth = limit - (depth + 1) + 1 := by omega
  rcases valueWith_cases hj hs hd with ⟨e, value, hends, hvalue, rfl, -, hd⟩ | ⟨hdepth, hopen, hs, hd⟩ | ⟨hdepth, hopen, hs, hd⟩
  · exact hends.legible hon hj hvalue hd _ _
  · rw [hless hdepth]
    exact arrayItem_legible hagrees hread hahead hroom hon hj hopen hs hd
  · rw [hless hdepth]
    exact inlineTableItem_legible hagrees hread hahead hroom hon hj hopen hs hd

end

private theorem valueItemWith_ahead (h : valueItemWith limit depth read s = .ok (v, s')) : s.cursor.rest ≠ [] := by
  intro hnil
  rw [valueItemWith] at h
  simp only [hnil] at h
  cases h

theorem readsAhead_valueItem (source : List Char) (limit m depth : Nat) : ReadsAhead source (valueItem limit m depth) where
  on := by
    intro s v s' hon h
    exact (keepsText_valueItem .nothing limit m depth s v s' h hon).reaches.on hon
  ahead := by
    intro s v s' h
    cases m with
    | _ => exact valueItemWith_ahead h

/-- Values are legible at any depth, as far as containers may nest there and as far as the strict reader goes. -/
theorem readsLegibly_valueItem (source : List Char) (limit m depth n : Nat) :
    ReadsLegibly source (limit - depth) n (valueItem limit m depth) (value n) := by
  induction m generalizing depth n with
  | zero =>
    -- containers are opened, but nothing in them is read
    have hnone : ∀ inner k l, ReadsLegibly source k l (fun s => SyntaxCause.tooDeep.at s.cursor.pos) inner := by
      intro inner k l s d v s' w d' hon hj hs
      cases hs
    have hagrees : ∀ inner, Agrees (fun s => SyntaxCause.tooDeep.at s.cursor.pos) inner := by
      intro inner s d v s' w d' hj hs
      cases hs
    have hahead : ReadsAhead source fun s => SyntaxCause.tooDeep.at s.cursor.pos :=
      ⟨(by intro s v s' hon hs; cases hs), (by intro s v s' hs; cases hs)⟩
    cases n with
    | zero => exact readsLegibly_valueItemWith (hagrees _) (hnone _ _ _) hahead (by intro c r hc; cases hc)
    | succ n => exact readsLegibly_valueItemWith (hagrees _) (hnone _ _ _) hahead (by simp)
  | succ m ih =>
    cases n with
    | zero =>
      refine readsLegibly_valueItemWith (fun s d v s' w d' hj hs hd => ?_) (fun s d v s' w d' hon hj hs hd => ?_)
        (readsAhead_valueItem source limit m (depth + 1)) (by intro c r hc; cases hc)
      · cases hd
      · cases hd
    | succ n =>
      exact readsLegibly_valueItemWith (agrees_valueItem limit m (depth + 1) n) (ih (depth + 1) n)
        (readsAhead_valueItem source limit m (depth + 1)) (by simp)

end Verbatim

import Verbatim.Proofs.Bodies

/-!
# Values that are read back as they are written

A value is legible if every piece of text that it keeps is what its place asks for: keys and scalars are spelled so that the
strict reader finds them, and between them stand blanks, or in an array also comments and line terminators. Then the text of
the value is read back as the data of the value, whatever mixture of recorded text and defaults it is.
-/

namespace Verbatim

open List DataReader Render Item

variable {lead tail lead' : List Char → Prop} {k : Key} {ks path : List Key} {x : Item} {limit levels : Nat}

variable {source : Option (List Char)}

/-! ## Texts -/

/-- A text, a reference being looked up in the source, has a property. -/
def SpanText.Shows (source : Option (List Char)) (P : List Char → Prop) (t : SpanText) : Prop :=
  ∃ u, t.resolve source = .ok (String.ofList u) ∧ P u

theorem SpanText.Shows.imp {P Q : List Char → Prop} {t : SpanText} (h : t.Shows source P) (hPQ : ∀ u, P u → Q u) :
    t.Shows source Q := by
  obtain ⟨u, hu, hP⟩ := h
  exact ⟨u, hu, hPQ u hP⟩

/-- A text that may be missing is written with its default. -/
theorem optionalText_shows (default : String) (h : ∀ t ∈ o, t.Shows source P) (hdefault : P default.toList) :
    ∃ u, optionalText source default o = .ok (String.ofList u) ∧ P u := by
  cases o with
  | none => exact ⟨default.toList, by rw [optionalText, String.ofList_toList], hdefault⟩
  | some t =>
    obtain ⟨u, hu, hP⟩ := h t rfl
    exact ⟨u, by rw [optionalText, hu], hP⟩

@[simp] theorem Render.join_ofList (s t : List Char) :
    join (.ok (String.ofList s)) (.ok (String.ofList t)) = .ok (String.ofList (s ++ t)) := by
  rw [join_ok, String.ofList_append]

/-! ## Keys -/

/-- A key whose texts spell its name, with blanks behind it. What stands before it depends on its place. -/
structure Key.Legible (source : Option (List Char)) (lead : List Char → Prop) (k : Key) : Prop where
  repr : ∀ t ∈ k.repr, t.Shows source (KeySpelled · k.name)
  before : ∀ t ∈ k.decor.before, t.Shows source lead
  after : ∀ t ∈ k.decor.after, t.Shows source Blanks

theorem Key.Legible.imp (h : k.Legible source lead) (himp : ∀ u, lead u → lead' u) : k.Legible source lead' :=
  ⟨h.repr, fun t ht => (h.before t ht).imp himp, h.after⟩

def PathLegible (source : Option (List Char)) (lead : List Char → Prop) : List Key → Prop
  | [] => True
  | k :: ks => k.Legible source lead ∧ ∀ k' ∈ ks, k'.Legible source Blanks

theorem PathLegible.imp (h : PathLegible source lead ks) (himp : ∀ u, lead u → lead' u) : PathLegible source lead' ks := by
  cases ks with
  | nil => trivial
  | cons k ks => exact ⟨h.1.imp himp, h.2⟩

theorem pathLegible_of_forall (h : ∀ k ∈ ks, k.Legible source Blanks) : PathLegible source Blanks ks := by
  cases ks with
  | nil => trivial
  | cons k ks => exact forall_mem_cons.mp h

theorem Key.Legible.keyRepr (h : k.Legible source lead) :
    ∃ t, keyRepr source k = .ok (String.ofList t) ∧ KeySpelled t k.name := by
  rw [Render.keyRepr]
  cases hrepr : k.repr with
  | none => exact ⟨_, by rw [String.ofList_toList], keySpelled_key k.name⟩
  | some t =>
    obtain ⟨u, hu, hspelled⟩ := h.repr t hrepr
    exact ⟨u, by simp [optionalText, hu], hspelled⟩

theorem Key.Legible.keyText (h : k.Legible source lead) (before after : String) (hbefore : lead before.toList)
    (hafter : Blanks after.toList) :
    ∃ a t b, keyText source before after k = .ok (String.ofList (a ++ (t ++ b))) ∧ lead a ∧ KeySpelled t k.name ∧ Blanks b := by
  obtain ⟨a, ha, hlead⟩ := optionalText_shows before h.before hbefore
  obtain ⟨t, ht, hspelled⟩ := h.keyRepr
  obtain ⟨b, hb, hblanks⟩ := optionalText_shows after h.after hafter
  refine ⟨a, t, b, ?_, hlead, hspelled, hblanks⟩
  simp [Render.keyText, joinAll, ha, ht, hb]

/-- A key path is written so that its names are read back. -/
theorem keyPathText_legible (before after : String) (hbefore : lead before.toList) (hafter : Blanks after.toList)
    (hne : ks ≠ []) (h : PathLegible source lead ks) :
    ∃ a b, keyPathText source before after ks = .ok (String.ofList (a ++ b)) ∧ lead a ∧ PathSpelled b (ks.map Key.name) := by
  induction ks generalizing lead before with
  | nil => exact absurd rfl hne
  | cons k ks ih =>
    cases ks with
    | nil =>
      obtain ⟨a, t, b, htext, ha, ht, hb⟩ := h.1.keyText before after hbefore hafter
      exact ⟨a, t ++ b, htext, ha, .last ht hb⟩
    | cons k' ks =>
      obtain ⟨a, t, b, htext, ha, ht, hb⟩ := h.1.keyText before "" hbefore Blanks.nil
      obtain ⟨hk', hks⟩ := forall_mem_cons.mp h.2
      obtain ⟨b', u, hrest, hb', hu⟩ := ih "" Blanks.nil (cons_ne_nil _ _) ⟨hk', hks⟩
      refine ⟨a, t ++ (b ++ '.' :: (b' ++ u)), ?_, ha, .cons ht hb hb' hu⟩
      simp [keyPathText, joinAll, htext, hrest, String.append_assoc]

/-! ## Lines -/

/-- The text around a value has a property before the value and another one behind it. -/
structure Decor.Legible (source : Option (List Char)) (lead tail : List Char → Prop) (d : Decor) : Prop where
  before : ∀ t ∈ d.before, t.Shows source lead
  after : ∀ t ∈ d.after, t.Shows source tail

theorem Decor.legible_empty : ({} : Decor).Legible source lead tail :=
  ⟨by rintro t ⟨⟩, by rintro t ⟨⟩⟩

/-- An entry whose key path can stand on a line. What stands before the key depends on where the entry stands. The keys lead
to the entry through dotted tables. -/
structure EntryLegible (source : Option (List Char)) (lead : List Char → Prop) (path : List Key) (e : Entry Item) : Prop where
  keys : PathLegible source lead (entryKeys path e.dottedPath e.key)
  /-- A key path as written has the names of the dotted tables. -/
  names : ∀ ks ∈ e.dottedPath, ks.map Key.name = path.map Key.name
  newline : ∀ s ∈ e.newline, s = "" ∨ IsNewline s.toList

/-- An entry line: between the key path and the value stand blanks only. What stands behind the value depends on where the
entry stands. -/
structure LineLegible (source : Option (List Char)) (lead tail : List Char → Prop) (path : List Key) (e : Entry Item) : Prop
    extends EntryLegible source lead path e where
  decor : ∀ d ∈ e.item.decor?, d.Legible source Blanks tail

/-- An entry of which nothing is recorded but its key. -/
theorem entryLegible_bare (hkeys : ∀ k' ∈ path ++ [k], k'.Legible source Blanks) :
    EntryLegible source Blanks path { key := k, item := x } :=
  ⟨pathLegible_of_forall hkeys, by rintro ks ⟨⟩, by rintro s ⟨⟩⟩

theorem EntryLegible.imp (h : EntryLegible source lead path e) (himp : ∀ u, lead u → lead' u) :
    EntryLegible source lead' path e :=
  ⟨h.keys.imp himp, h.names, h.newline⟩

theorem LineLegible.names_eq (h : LineLegible source lead tail path e) :
    (entryKeys path e.dottedPath e.key).map Key.name = lineNames (path, e) := by
  rw [entryKeys, map_append, lineNames]
  cases hd : e.dottedPath with
  | none => rfl
  | some ks => rw [Option.getD_some, h.names ks hd]; rfl

theorem entryKeys_ne_nil (path : List Key) (p : Option (List Key)) (k : Key) : entryKeys path p k ≠ [] := by
  simp [entryKeys]

/-- The text around an item; where it has none, nothing is recorded. -/
theorem getD_decor_legible (h : ∀ d ∈ x.decor?, d.Legible source lead tail) :
    (x.decor?.getD {}).Legible source lead tail := by
  cases hd : x.decor? with
  | none => exact ⟨by rintro t ⟨⟩, by rintro t ⟨⟩⟩
  | some d => exact h d hd

/-! ## Values -/

/-- The text of a value is read back as its data. -/
def Item.Spells (source : Option (List Char)) (read : Cursor → Step Plain) (x : Item) : Prop :=
  ∃ t w, valueRepr source x = .ok (String.ofList t) ∧ ValueSpelled read t w ∧ Data.Same w x.unwrap

/-- The spelling of a scalar, or its literal, stands for its value. -/
def Scalar.Legible (source : Option (List Char)) (s : Scalar) : Prop :=
  match s.repr with
  | some t => t.Shows source (ScalarSpelled · s.value)
  | none => s.value.SimpleScalar

theorem Scalar.Legible.spells (h : s.Legible source) (i : Info) (limit levels : Nat) :
    (scalar i s).Spells source (valueWithin limit levels) := by
  rw [Scalar.Legible] at h
  split at h
  · next t ht =>
    obtain ⟨u, hu, hspelled⟩ := h
    exact ⟨u, s.value, by simp [valueRepr, ht, optionalText, hu], hspelled.value limit levels, .refl _⟩
  · next hnone =>
    obtain ⟨t, ht, hspelled⟩ := scalarSpelled_literal h
    exact ⟨t.toList, s.value, by simp [valueRepr, hnone, ht], hspelled.value limit levels, .refl _⟩

variable {read : Cursor → Step Plain}

/-- The elements behind an element of an array, up to the closing bracket. -/
private theorem elementsSpelled (hvs : ∀ x ∈ vs, x.Spells source read)
    (hdecor : ∀ x ∈ vs, ∀ d ∈ x.decor?, d.Legible source Trivia Trivia) (comma : Bool) (htrailing : Trivia trailing)
    (hgap : Trivia gap) :
    ∃ t ws, joinAll (elementTexts source false vs) = .ok (String.ofList t) ∧
      ElementsSpelled read (gap ++ (t ++ ((if comma then [','] else []) ++ (trailing ++ [']'])))) ws ∧
      Forall₂ Data.Same ws (vs.map unwrap) := by
  induction vs generalizing gap with
  | nil =>
    refine ⟨[], [], by rw [elementTexts]; rfl, ?_, .nil⟩
    cases comma with
    | true => exact .comma hgap htrailing
    | false =>
      rw [nil_append, if_neg Bool.false_ne_true, nil_append, ← append_assoc]
      exact .close (hgap.append htrailing)
  | cons x vs ih =>
    obtain ⟨hx, hvs⟩ := forall_mem_cons.mp hvs
    obtain ⟨hd, hdecor⟩ := forall_mem_cons.mp hdecor
    have hlegible := getD_decor_legible hd
    obtain ⟨a, ha, hlead⟩ := optionalText_shows " " hlegible.before blanks_space.trivia
    obtain ⟨u, w, hu, hspelled, hsame⟩ := hx
    obtain ⟨b, hb, htail⟩ := optionalText_shows "" hlegible.after Trivia.nil
    obtain ⟨t, ws, ht, helements, hsames⟩ := ih hvs hdecor htail
    refine ⟨',' :: (a ++ (u ++ (b ++ t))), w :: ws, ?_, ?_, .cons hsame hsames⟩
    · simp [elementTexts, joinAll, ha, hu, hb, ht, String.append_assoc]
    · have := ElementsSpelled.next hgap hlead hspelled helements
      simpa using this

/-- An array is read back if its elements are. -/
theorem spells_array (hvs : ∀ x ∈ vs, x.Spells source read)
    (hdecor : ∀ x ∈ vs, ∀ d ∈ x.decor?, d.Legible source Trivia Trivia) (htrailing : f.trailing.Shows source Trivia) :
    (array i f vs).Spells source (valueWith read) := by
  obtain ⟨trailing, ht, htrivia⟩ := htrailing
  have htext : optionalText source "" (some f.trailing) = .ok (String.ofList trailing) := by rw [optionalText, ht]
  cases vs with
  | nil =>
    refine ⟨'[' :: (trailing ++ [']']), .list [], ?_, valueSpelled_empty htrivia, ?_⟩
    · simp [valueRepr, elementTexts, joinAll, htext]
    · rw [unwrap, unwrapEach]
      exact .refl _
  | cons x vs =>
    obtain ⟨hx, hvs⟩ := forall_mem_cons.mp hvs
    obtain ⟨hd, hdecor⟩ := forall_mem_cons.mp hdecor
    have hlegible := getD_decor_legible hd
    obtain ⟨a, ha, hlead⟩ := optionalText_shows "" hlegible.before Trivia.nil
    obtain ⟨u, w, hu, hspelled, hsame⟩ := hx
    obtain ⟨b, hb, htail⟩ := optionalText_shows "" hlegible.after Trivia.nil
    obtain ⟨t, ws, ht, helements, hsames⟩ := elementsSpelled hvs hdecor f.trailingComma htrivia htail
    refine ⟨_, .list (w :: ws), ?_, helements.value hlead hspelled, ?_⟩
    · cases hcomma : f.trailingComma <;>
        simp [valueRepr, elementTexts, joinAll, ha, hu, hb, ht, htext, hcomma, String.append_assoc]
    · rw [unwrap, unwrapEach_eq]
      exact .list (.cons hsame hsames)

/-- The entries of an inline table, in the order of writing. -/
private theorem fieldsSpelled (hne : ls ≠ [])
    (hls : ∀ l ∈ ls, LineLegible source Blanks Blanks l.1 l.2 ∧ l.2.item.Spells source read) :
    ∃ t a w fs, joinAll (inlineParts source (ls.map fun l => valueLine source l.1 l.2)) = .ok (String.ofList t) ∧
      t ++ ['\x7d'] = a ++ w ∧ Blanks a ∧ FieldsSpelled read w fs ∧ Forall₂ Speaks ls fs := by
  induction ls with
  | nil => exact absurd rfl hne
  | cons l ls ih =>
    obtain ⟨⟨hline, u, v, hu, hspelled, hsame⟩, hls⟩ := forall_mem_cons.mp hls
    obtain ⟨a, b, hkeys, ha, hb⟩ := keyPathText_legible " " " " blanks_space blanks_space (entryKeys_ne_nil _ _ _) hline.keys
    rw [hline.names_eq] at hb
    have hdecor := getD_decor_legible hline.decor
    obtain ⟨a₁, ha₁, hbefore⟩ := optionalText_shows " " hdecor.before blanks_space
    cases ls with
    | nil =>
      obtain ⟨a₂, ha₂, hafter⟩ := optionalText_shows " " hdecor.after blanks_space
      refine ⟨a ++ (b ++ '=' :: (a₁ ++ (u ++ a₂))), a, _, _, ?_, ?_, ha, .last hb hbefore hspelled hafter,
        .cons ⟨rfl, hsame⟩ .nil⟩
      · simp [inlineParts, joinAll, valueLine, BodyLine.valueText, hkeys, ha₁, hu, ha₂, String.append_assoc]
      · simp
    | cons l' ls =>
      obtain ⟨t, a', w, fs, ht, hw, ha', hfields, hspeaks⟩ := ih (cons_ne_nil _ _) hls
      obtain ⟨a₂, ha₂, hafter⟩ := optionalText_shows "" hdecor.after Blanks.nil
      have hpart : joinAll [keyPathText source " " " " (valueLine source l.1 l.2).keys, .ok "=",
          (valueLine source l.1 l.2).valueText source " " "", .ok ","] =
            .ok (String.ofList (a ++ (b ++ '=' :: (a₁ ++ (u ++ (a₂ ++ [',']))))) ) := by
        simp [joinAll, valueLine, BodyLine.valueText, hkeys, ha₁, hu, ha₂, String.append_assoc]
      refine ⟨a ++ (b ++ '=' :: (a₁ ++ (u ++ (a₂ ++ ',' :: t)))), a, _, _, ?_, ?_, ha,
        .next hb hbefore hspelled hafter ha' hfields, .cons ⟨rfl, hsame⟩ hspeaks⟩
      · rw [map_cons] at ht
        rw [map_cons, map_cons, inlineParts, joinAll, hpart, ht, join_ofList]
        · simp
        · exact cons_ne_nil _ _
      · simp [hw]

/-- An inline table is read back if its entries are. -/
theorem spells_inlineTable (hes : Orderly es) (hfilled : Filled es) (htimes : timesIn es = [])
    (hlines : ∀ l ∈ bodyIn [] es, LineLegible source Blanks Blanks l.1 l.2 ∧ l.2.item.Spells source read)
    (hpreamble : f.preamble.Shows source Blanks) : (inlineTable i f es).Spells source (valueWith read) := by
  obtain ⟨ls, hperm, hwritten⟩ := exists_perm_bodyIn source es
  rw [Item.Spells, valueRepr, hwritten]
  cases hls : ls with
  | nil =>
    obtain ⟨preamble, hresolve, hblanks⟩ := hpreamble
    refine ⟨'\x7b' :: (preamble ++ ['\x7d']), .table [], ?_, valueSpelled_noFields hblanks, ?_⟩
    · simp [inlineText, joinAll, optionalText, hresolve]
    · have hempty : es = [] := by
        rw [eq_nil_iff_forall_not_mem]
        intro e he
        obtain ⟨q, d, hq⟩ := hfilled.lines he
        obtain ⟨ks, hks, -⟩ := (hq.mono (by simpa using he)).mem_bodyIn []
        rw [← hperm.mem_iff, hls] at hks
        cases hks
      rw [hempty]
      exact .refl _
  | cons l ls' =>
    rw [← hls]
    have hne : ls ≠ [] := by simp [hls]
    obtain ⟨t, a, w, fs, ht, hw, ha, hfields, hspeaks⟩ :=
      fieldsSpelled hne fun l hl => hlines l (hperm.mem_iff.mp hl)
    obtain ⟨fields, hadd, hsame⟩ := addFields_body hes hfilled htimes hperm hspeaks
    refine ⟨'\x7b' :: (a ++ w), .table fields, ?_, hfields.value ha hadd, hsame⟩
    have hinline : inlineText source f.preamble (ls.map fun l => valueLine source l.1 l.2) =
        joinAll [.ok "\x7b", joinAll (inlineParts source (ls.map fun l => valueLine source l.1 l.2)), .ok "\x7d"] := by
      rw [inlineText]
      simpa using hne
    rw [hinline, ht, ← hw]
    simp [joinAll]

/-! ## Values at every depth -/

/-- What the entries of an inline table must be, or those of a dotted one in it. The keys lead to the entries through dotted
tables. -/
structure InlineBody (source : Option (List Char)) (path : List Key) (es : List (Entry Item)) : Prop where
  names : (es.map Entry.name).Nodup
  /-- The keys that lead to the entries. -/
  keys : ∀ k ∈ path, k.Legible source Blanks
  /-- The entries, also those that stand for a dotted key and are not written themselves. -/
  lines : ∀ e ∈ es, LineLegible source Blanks Blanks path e

/-- The keys that lead to the entries below a dotted entry. -/
def Entry.below (path : List Key) (e : Entry Item) : Option (List Key) :=
  if e.item.isDotted then some (path ++ [e.key]) else none

/-- A value whose texts are what they must be, in which containers nest at most so deep and values at most so deep. A dotted
inline table is no value; it is given with the keys that lead to its entries. -/
inductive ValueLegible (source : Option (List Char)) : Option (List Key) → Nat → Nat → Item → Prop where
  | scalar {i : Info} {s : Scalar} {limit levels : Nat} (spelling : s.Legible source) :
      ValueLegible source none limit levels (.scalar i s)
  | array {i : Info} {f : ArrayForm} {vs : List Item} {limit levels : Nat} (room : vs ≠ [] → 0 < levels)
      (decor : ∀ x ∈ vs, ∀ d ∈ x.decor?, d.Legible source Trivia Trivia) (trailing : f.trailing.Shows source Trivia)
      (elements : ∀ x ∈ vs, ValueLegible source none limit (levels - 1) x) :
      ValueLegible source none (limit + 1) levels (.array i f vs)
  | inlineTable {i : Info} {f : InlineForm} {es : List (Entry Item)} {limit levels : Nat} (plain : f.dotted = false)
      (room : es ≠ [] → 0 < levels) (preamble : f.preamble.Shows source Blanks) (body : InlineBody source [] es)
      (members : ∀ e ∈ es, ValueLegible source (e.below []) limit (levels - 1) e.item) :
      ValueLegible source none (limit + 1) levels (.inlineTable i f es)
  | dotted {i : Info} {f : InlineForm} {es : List (Entry Item)} {path : List Key} {limit levels : Nat}
      (isDotted : f.dotted = true) (nonempty : es ≠ []) (body : InlineBody source path es)
      (members : ∀ e ∈ es, ValueLegible source (e.below path) limit levels e.item) :
      ValueLegible source (some path) limit levels (.inlineTable i f es)

/-- The entries of an inline table are read back. -/
private structure InlineRead (source : Option (List Char)) (read : Cursor → Step Plain) (path : List Key)
    (es : List (Entry Item)) : Prop where
  orderly : Orderly es
  filled : Filled es
  times : timesIn es = []
  lines : ∀ l ∈ bodyIn path es, LineLegible source Blanks Blanks l.1 l.2 ∧ l.2.item.Spells source read

/-- A dotted inline table whose entries are read back. -/
private inductive DottedRead (source : Option (List Char)) (read : Cursor → Step Plain) (path : List Key) : Item → Prop where
  | intro {i : Info} {f : InlineForm} {es : List (Entry Item)} (isDotted : f.dotted = true) (nonempty : es ≠ [])
      (entries : InlineRead source read path es) : DottedRead source read path (.inlineTable i f es)

private theorem InlineBody.inlineRead (h : InlineBody source path es)
    (hvalues : ∀ e ∈ es, e.item.isDotted = false → e.item.isValue = true ∧ e.item.Spells source read)
    (hdotted : ∀ e ∈ es, e.item.isDotted = true → DottedRead source read (path ++ [e.key]) e.item) :
    InlineRead source read path es := by
  have hvalue : ∀ e ∈ es, e.item.isValue = true := by
    intro e he
    cases hd : e.item.isDotted with
    | false => exact (hvalues e he hd).1
    | true =>
      have := hdotted e he hd
      generalize e.item = x at this
      cases this
      rfl
  have hsplits : ∀ e ∈ es, ∀ sub, e.item.Splits sub → e.item.isDotted = true := by
    intro e he sub hsub
    have hv := hvalue e he
    generalize e.item = x at hsub hv
    cases hsub with
    | table => cases hv
    | inlineTable dotted _ => exact dotted
  refine ⟨.intro h.names (fun e he hd => ?_) fun e he sub hsub => ?_, .intro (fun e he => ?_) fun e he hd => ?_, ?_, fun l hl => ?_⟩
  · have := hdotted e he hd
    generalize e.item = x at this
    cases this with
    | intro isDotted nonempty entries => exact .inlineTable isDotted entries.times
  · have hv := hvalue e he
    generalize hx : e.item = x at hsub hv
    cases hsub with
    | splits hsub =>
      have := hdotted e he (hsplits e he sub (hx ▸ hsub))
      rw [← hsub.entries_eq]
      rw [hx] at this
      cases this with
      | intro _ _ entries => exact entries.orderly
    | element => cases hv
  · cases hd : e.item.isDotted with
    | false => exact ⟨_, e, .value (mem_singleton_self _) (hvalue e he) hd⟩
    | true =>
      have := hdotted e he hd
      generalize hx : e.item = x at this
      cases this with
      | @intro i f sub isDotted nonempty entries =>
        obtain ⟨d, hmem⟩ := exists_mem_of_ne_nil sub nonempty
        obtain ⟨q, d', hq⟩ := entries.filled.lines hmem
        refine ⟨_, d', .dotted (mem_singleton_self e) hd (q := q) ?_⟩
        rw [hx]
        exact hq.mono (by simpa [Item.entries] using hmem)
  · have := hdotted e he hd
    generalize e.item = x at this
    cases this with
    | intro _ _ entries => exact entries.filled
  · rw [timesIn, flatMap_eq_nil_iff]
    exact fun e he => times_of_isValue (hvalue e he)
  · obtain ⟨e, he, hl⟩ := mem_bodyIn.mp hl
    cases hd : e.item.isDotted with
    | false =>
      rw [entryBody_value path hd (hvalue e he), mem_singleton] at hl
      subst hl
      exact ⟨h.lines e he, (hvalues e he hd).2⟩
    | true =>
      rw [entryBody_dotted path hd] at hl
      have := hdotted e he hd
      generalize e.item = x at this hl
      cases this with
      | intro _ _ entries => exact entries.lines l hl

private theorem valueWithin_succ (limit levels : Nat) (h : 0 < levels) :
    valueWithin (limit + 1) levels = valueWith (valueWithin limit (levels - 1)) := by
  obtain ⟨levels, rfl⟩ := Nat.exists_eq_add_one_of_ne_zero (show levels ≠ 0 by omega)
  rfl

private theorem exists_valueWith (limit levels : Nat) : ∃ read, valueWithin (limit + 1) levels = valueWith read := by
  cases levels with
  | _ => exact ⟨_, rfl⟩

private theorem ValueLegible.cases_read {place : Option (List Key)} (h : ValueLegible source place limit levels x) :
    (place = none → x.isDotted = false ∧ x.isValue = true ∧ x.Spells source (valueWithin limit levels)) ∧
      ∀ path, place = some path → DottedRead source (valueWithin limit levels) path x := by
  induction h with
  | scalar spelling => exact ⟨fun _ => ⟨rfl, rfl, spelling.spells _ _ _⟩, by rintro path ⟨⟩⟩
  | @array i f vs limit levels room decor trailing elements ih =>
    refine ⟨fun _ => ⟨rfl, rfl, ?_⟩, by rintro path ⟨⟩⟩
    by_cases hvs : vs = []
    · subst hvs
      obtain ⟨read, hread⟩ := exists_valueWith limit levels
      rw [hread]
      exact spells_array (by simp) (by simp) trailing
    · rw [valueWithin_succ limit levels (room hvs)]
      exact spells_array (fun x hx => ((ih x hx).1 rfl).2.2) decor trailing
  | @inlineTable i f es limit levels plain room preamble body members ih =>
    refine ⟨fun _ => ⟨plain, rfl, ?_⟩, by rintro path ⟨⟩⟩
    have hread : InlineRead source (valueWithin limit (levels - 1)) [] es :=
      body.inlineRead (fun e he hd => ((ih e he).1 (by simp [Entry.below, hd])).2)
        fun e he hd => (ih e he).2 _ (by simp [Entry.below, hd])
    by_cases hes : es = []
    · subst hes
      obtain ⟨read, hread⟩ := exists_valueWith limit levels
      rw [hread]
      exact spells_inlineTable (.intro .nil (by simp) (by simp)) (.intro (by simp) (by simp)) rfl (by simp [bodyIn]) preamble
    · rw [valueWithin_succ limit levels (room hes)]
      exact spells_inlineTable hread.orderly hread.filled hread.times hread.lines preamble
  | @dotted i f es path limit levels isDotted nonempty body members ih =>
    refine ⟨by rintro ⟨⟩, ?_⟩
    rintro _ ⟨⟩
    exact .intro isDotted nonempty (body.inlineRead (fun e he hd => ((ih e he).1 (by simp [Entry.below, hd])).2)
      fun e he hd => (ih e he).2 _ (by simp [Entry.below, hd]))

section

variable (h : ValueLegible source none limit levels x)

include h

/-- A legible value is read back as its data. -/
theorem ValueLegible.spells : x.Spells source (valueWithin limit levels) := (h.cases_read.1 rfl).2.2

theorem ValueLegible.isValue : x.isValue = true := (h.cases_read.1 rfl).2.1

theorem ValueLegible.isDotted : x.isDotted = false := (h.cases_read.1 rfl).1

end

end Verbatim

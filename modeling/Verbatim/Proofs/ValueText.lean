import Verbatim.Proofs.Dotting
import Verbatim.Proofs.Exchange

/-!
# Values are written as they were read

A value keeps every character that it was read from: its own in its spelling, and those of its members in their spellings
and in the text around them. The entries of an inline table are scattered over dotted tables and come back in the order of
their numbers. If there are new values in it by now, they are written in the places of the old ones.
-/

namespace Verbatim

open List Cursor Render Item

open Item (exchanged sites onItem)

variable {v : Item} {s s' : Numbered} {c d : Cursor} {path : List Key} {es : List (Entry Item)}

variable {source : List Char} {r : Exchange}

/-! ## Keys -/

/-- One segment is written as the text between its places. -/
private theorem keyText_segmentKey (text : List Char) (b : Nat) (name : String) (before after : String) :
    keyText (some text) before after (segmentKey b c name d) =
      .ok (String.ofList (slice text ⟨b, c.skipBlanks.pos⟩ ++
        (slice text ⟨c.skipBlanks.pos, d.pos⟩ ++ slice text ⟨d.pos, d.skipBlanks.pos⟩))) := by
  simp [keyText, keyRepr, segmentKey, joinAll, String.ofList_append]

/-- A key path is written as it was read, whatever the defaults are; what stands before it belongs to its first segment. -/
theorem KeyRun.text {before : Nat} {b : Cursor} (spell : Span → List Char) (h : KeyRun before c path leaf d)
    (hb : b.On source) (hbc : b.Reaches c) (hbefore : before = b.pos) :
    ∃ t, Rewritten source spell b.pos d.pos [] t ∧ ∀ text before after,
      keyPathText (some text) before after (path ++ [leaf]) = .ok (String.ofList (t text)) := by
  induction h generalizing b with
  | @last _ c d name hkey hpoint =>
    subst hbefore
    have hsegment := (Rewritten.ref source spell (hbc.trans c.reaches_skipBlanks)).append
      ((Rewritten.ref source spell (reaches_simpleKey hkey)).append (.ref source spell d.reaches_skipBlanks))
    exact ⟨_, hsegment, fun text before after => keyText_segmentKey text b.pos name before after⟩
  | @more _ c d e name path leaf hkey hpoint hrest ih =>
    subst hbefore
    have hsegment := (Rewritten.ref source spell (hbc.trans c.reaches_skipBlanks)).append
      ((Rewritten.ref source spell (reaches_simpleKey hkey)).append (.ref source spell d.reaches_skipBlanks))
    have hd := ((hbc.trans c.reaches_skipBlanks).trans ((reaches_simpleKey hkey).trans d.reaches_skipBlanks)).on hb
    have hpoint := spells_next hpoint
    obtain ⟨t, ht, htext⟩ := ih (hpoint.on hd) (.refl _) rfl
    refine ⟨_, hsegment.append ((Rewritten.kept spell hd hpoint).append ht), fun text before after => ?_⟩
    rw [cons_append, keyPathText_cons _ _ _ _ (by simp), keyText_segmentKey, htext]
    simp [joinAll, String.ofList_append, String.append_assoc]

/-! ## Values with text around them -/

@[simp] theorem valueRepr_withDecor (source : Option (List Char)) (d : Decor) (v : Item) :
    valueRepr source (v.withDecor d) = valueRepr source v := by
  cases v <;> simp only [withDecor, valueRepr]

/-- The text behind a value that was read after blanks. -/
theorem withAfter_withDecor (h : v.isValue = true) (b t : SpanText) :
    withAfter t (v.withDecor ⟨some b, none⟩) = v.withDecor ⟨some b, some t⟩ := by
  rw [withAfter, decor?_withDecor _ h]
  cases v <;> rfl

/-! ## Readers that keep the text -/

/-- A value was read between two places and is written as what stands there, but for new values in it. -/
structure KeptText (source : List Char) (r : Exchange) (s : Numbered) (v : Item) (s' : Numbered) : Prop where
  reaches : s.cursor.Reaches s'.cursor
  /-- It is written as it was read. -/
  written : ∃ t, Rewritten source r.spell s.cursor.pos s'.cursor.pos (v.sites r.value) t ∧ ∀ text, r.texts text →
    valueRepr (some text) (v.exchanged r.value) = .ok (String.ofList (t text))
  isValue : v.isValue = true
  notDotted : v.isDotted = false
  span : v.info.span = some ⟨s.cursor.pos, s'.cursor.pos⟩
  /-- Numbers are given in order. -/
  number : s.number ≤ s'.number

/-- A reader of values keeps the text. -/
def KeepsText (source : List Char) (r : Exchange) (read : Numbered → ScannedValue) : Prop :=
  ∀ s v s', read s = .ok (v, s') → s.cursor.On source → KeptText source r s v s'

variable {inner : Numbered → ScannedValue}

/-- A value with its span is written as it was read if its members are: it is new as a whole, or there are new values in it. -/
theorem keptText_of_members (hreaches : s.cursor.Reaches s'.cursor) (hspan : v.info.span = some ⟨s.cursor.pos, s'.cursor.pos⟩)
    (hlt : s.cursor.pos < s'.cursor.pos) (hv : v.isValue = true) (hd : v.isDotted = false) (hnumber : s.number ≤ s'.number)
    (hmembers : Rewritten source r.spell s.cursor.pos s'.cursor.pos (v.children.flatMap (sites r.value)) t)
    (hrepr : ∀ text, r.texts text → valueRepr (some text) (v.mapMembers (exchanged r.value)) = .ok (String.ofList (t text))) :
    KeptText source r s v s' := by
  refine ⟨hreaches, ?_, hv, hd, hspan, hnumber⟩
  have hframe : v.isFrame = false := by simp [isFrame, hv, hd]
  rw [exchanged_eq, sites_eq, newValue?, hframe, if_neg Bool.false_ne_true, hspan, Option.bind_some]
  cases hnew : r.value ⟨s.cursor.pos, s'.cursor.pos⟩ with
  | none => exact ⟨t, hmembers, hrepr⟩
  | some y =>
    refine ⟨_, Rewritten.site hlt, fun text htext => ?_⟩
    rw [Option.map_some, Option.getD_some, valueRepr_withDecor]
    exact (r.spelled htext).repr hnew

/-! ## Scalars -/

theorem reaches_scalarEnd (h : scalarEnd c = .ok d) : c.Reaches d := by
  simp only [scalarEnd] at h
  split at h
  · split at h
    · cases h
    · cases h
      exact ((c.reaches_skipWhile _).trans (reaches_drop _ 1)).trans (reaches_skipWhile _ _)
  · cases h
    exact c.reaches_skipWhile _

theorem spelledValue_nil (offset : Nat) (v : Plain) : spelledValue [] offset ≠ .ok v := by
  have hread : (DataReader.readScalar []).isOk = false := by decide +kernel
  intro h
  rw [spelledValue] at h
  cases hscalar : DataReader.readScalar [] with
  | ok w =>
    rw [hscalar] at hread
    cases hread
  | error e =>
    rw [hscalar] at h
    cases e <;> cases h

/-- A scalar is spelled with something. -/
theorem spelledValue_lt (hcd : c.Reaches d) (h : spelledValue (textBetween c d) c.pos = .ok value) : c.pos < d.pos := by
  obtain ⟨t, ht⟩ := hcd
  have hne : t ≠ [] := by
    rintro rfl
    rw [ht.textBetween_eq] at h
    exact spelledValue_nil _ _ h
  have hpos := ht.pos
  have hlength := length_pos_iff.mpr hne
  omega

theorem ScalarEnds.reaches (h : ScalarEnds c d) : c.Reaches d := by
  obtain ⟨x, u, -, ⟨-, hend⟩ | ⟨-, hend⟩⟩ := h
  · exact reaches_stringEnd hend
  · exact reaches_scalarEnd hend

theorem keptText_scalar (hend : ScalarEnds s.cursor d)
    (hvalue : spelledValue (textBetween s.cursor d) s.cursor.pos = .ok value) :
    KeptText source r s (scalarAt s.cursor d value) { s with cursor := d } := by
  have hreaches := hend.reaches
  exact keptText_of_members hreaches rfl (spelledValue_lt hreaches hvalue) rfl rfl (Nat.le_refl _) (.ref source r.spell hreaches)
    fun text _ => optionalText_between text "" _ _

/-! ## Arrays -/

/-- The text of an element with a comma before it unless it is the first. -/
private theorem element_text (hv : v.isValue = true) (hrepr : valueRepr (some text) v = .ok (String.ofList t)) (a b c d : Nat)
    (first : Bool) (vs : List Item) :
    elementTexts (some text) first (placedElement a b c d v :: vs) =
      .ok ((if first then "" else ",") ++ String.ofList (slice text ⟨a, b⟩ ++ (t ++ slice text ⟨c, d⟩))) ::
        elementTexts (some text) false vs := by
  simp only [elementTexts, placedElement, decor?_withDecor _ hv, Option.getD_some, valueRepr_withDecor, hrepr,
    optionalText_between]
  simp [joinAll, String.ofList_append]

theorem exchanged_placedElement (σ : Span → Option Item) (a b c d : Nat) (v : Item) :
    (placedElement a b c d v).exchanged σ = placedElement a b c d (v.exchanged σ) := exchanged_withDecor ..

/-- The members of an array are written as they were read. A comma before them, or behind the last one, is written with
the element that follows it, or by itself. -/
theorem ArrayRun.text (hinner : KeepsText source r inner) {comma last : Bool} {d : Numbered}
    (h : ArrayRun inner comma s vs trailing last d) (hs : s.cursor.On source) :
    s.number ≤ d.number ∧ ∃ e t, s.cursor.Reaches e ∧ e.Spells [']'] d.cursor ∧
      Rewritten source r.spell s.cursor.pos e.pos (vs.flatMap (sites r.value)) t ∧ ∀ text, r.texts text →
      joinAll [joinAll (elementTexts (some text) (!comma) (vs.map (exchanged r.value))),
        .ok (if last && (comma || !vs.isEmpty) then "," else ""),
        optionalText (some text) "" (some trailing)] =
      .ok ((if comma then "," else "") ++ String.ofList (t text)) := by
  induction h with
  | @close comma s hbracket =>
    have hgap := s.cursor.reaches_skipTrivia
    refine ⟨Nat.le_refl _, _, _, hgap, spells_next hbracket, .ref source r.spell hgap, fun text _ => ?_⟩
    rw [optionalText_between]
    cases comma <;> simp [elementTexts, joinAll]
  | @last comma s s₂ v hno hvalue hbracket =>
    have h₁ := s.cursor.reaches_skipTrivia
    obtain ⟨h₂, ⟨t, hwritten, hrepr⟩, hv, -, -, hnumber⟩ := hinner _ _ _ hvalue (h₁.on hs)
    have h₃ := s₂.cursor.reaches_skipTrivia
    have hv' : (v.exchanged r.value).isValue = true := (r.valueMap.isValue_eq v).trans hv
    have hkept := (Rewritten.ref source r.spell h₁).append (hwritten.append (.ref source r.spell h₃))
    refine ⟨hnumber, _, _, (h₁.trans h₂).trans h₃, spells_next hbracket,
      by simpa [placedElement, sites_withDecor] using hkept, fun text htext => ?_⟩
    rw [map_singleton, exchanged_placedElement, element_text hv' (hrepr text htext), optionalText_empty]
    cases comma <;> simp [elementTexts, joinAll]
  | @more comma last s s₂ d v vs trailing hno hvalue hcomma hrest ih =>
    have h₁ := s.cursor.reaches_skipTrivia
    obtain ⟨h₂, ⟨t, hwritten, hrepr⟩, hv, -, -, hnumber⟩ := hinner _ _ _ hvalue (h₁.on hs)
    have h₃ := s₂.cursor.reaches_skipTrivia
    have hs₂ := ((h₁.trans h₂).trans h₃).on hs
    have hv' : (v.exchanged r.value).isValue = true := (r.valueMap.isValue_eq v).trans hv
    have hcomma := spells_next hcomma
    obtain ⟨hnumber', e, t', hreaches, hclose, hrest', htext'⟩ := ih (hcomma.on hs₂)
    have hkept := ((Rewritten.ref source r.spell h₁).append (hwritten.append (.ref source r.spell h₃))).append
      ((Rewritten.kept r.spell hs₂ hcomma).append hrest')
    refine ⟨Nat.le_trans hnumber hnumber', e, _, (((h₁.trans h₂).trans h₃).trans ⟨_, hcomma⟩).trans hreaches, hclose,
      by simpa [placedElement, sites_withDecor] using hkept, fun text htext => ?_⟩
    have htext' := htext' text htext
    rw [map_cons, exchanged_placedElement, element_text hv' (hrepr text htext), joinAll, joinAll,
      join_assoc]
    -- what follows the element is the text of the rest, which begins with its comma
    have hflag : (last && (comma || !(placedElement s.cursor.pos s.cursor.skipTrivia.pos s₂.cursor.pos
        s₂.cursor.skipTrivia.pos v :: vs).isEmpty)) = (last && (true || !vs.isEmpty)) := by simp
    rw [hflag]
    rw [joinAll] at htext'
    simp only [Bool.not_true] at htext'
    rw [htext']
    cases comma <;> simp [String.ofList_append, String.append_assoc]

theorem keptText_array (hinner : KeepsText source r inner) (hs : s.cursor.On source)
    (hbracket : s.cursor.startsWith ['['] = true) {vs : List Item} {trailing : SpanText} {comma : Bool}
    (h : ArrayRun inner false { s with cursor := s.cursor.next } vs trailing comma s') :
    KeptText source r s (.array { span := some ⟨s.cursor.pos, s'.cursor.pos⟩ } { trailing, trailingComma := comma } vs) s' := by
  have hopen := spells_next hbracket
  obtain ⟨hnumber, e, t, hreaches, hclose, hwritten, htext⟩ := h.text hinner (hopen.on hs)
  have hall : s.cursor.Reaches s'.cursor := (Reaches.trans ⟨_, hopen⟩ hreaches).trans ⟨_, hclose⟩
  have hlt : s.cursor.pos < s'.cursor.pos := by
    have hopened := hopen.pos
    have hclosed := hclose.pos
    have hle := hwritten.le
    simp only [length_singleton] at hopened hclosed hle
    omega
  have hkept := ((Rewritten.kept r.spell hs hopen).append hwritten).append
    (Rewritten.kept r.spell (hreaches.on (hopen.on hs)) hclose)
  refine keptText_of_members hall rfl hlt rfl rfl hnumber (by simpa [children] using hkept) fun text htext' => ?_
  have hsplit := joinAll_append [joinAll (elementTexts (some text) true (vs.map (exchanged r.value))),
    .ok (if comma && !vs.isEmpty then "," else ""), optionalText (some text) "" (some trailing)] [.ok "]"]
  have htext := htext text htext'
  simp only [Bool.not_false, Bool.false_or] at htext
  rw [htext] at hsplit
  simp only [mapMembers, valueRepr, isEmpty_map]
  rw [joinAll]
  simp only [cons_append, nil_append] at hsplit
  rw [hsplit]
  simp [joinAll, String.ofList_append]

/-! ## Entries -/

/-- An entry line is written as a text, whatever the defaults are. -/
def RecordedLine (r : Exchange) (keys : List Key) (e : Entry Item) (t : List Char → List Char) : Prop :=
  ∀ text, r.texts text → ∀ before after before' after',
    joinAll [keyPathText (some text) before after (valueLine (some text) keys e).keys, .ok "=",
      (valueLine (some text) keys e).valueText (some text) before' after'] = .ok (String.ofList (t text))

theorem entryKeys_dottedPathOf (leaf : Key) (h : path = [] → ks = []) :
    entryKeys ks (dottedPathOf path) leaf = path ++ [leaf] := by
  cases path with
  | nil => simp [entryKeys, dottedPathOf, h rfl]
  | cons k ks => simp [entryKeys, dottedPathOf]

section

variable (hinner : KeepsText source r inner)

include hinner

/-- An entry with a key path is written as it was read, whatever the defaults are; what stands before it belongs to its
first key. -/
theorem entry_text {b c₁ c₂ c₄ : Cursor}
    (hb : b.On source) (hbc : b.Reaches c) (hrun : KeyRun b.pos c path leaf c₁)
    (hequals : expectChar '=' what c₁ = .ok c₂) (hread : inner ⟨c₂.skipBlanks, n⟩ = .ok (v, s₃)) (h₄ : s₃.cursor.Reaches c₄) :
    c.Reaches c₄ ∧ n ≤ s₃.number ∧ ∃ w, withAfter (.between s₃.cursor.pos c₄.pos)
        (v.withDecor ⟨some (.between c₂.pos c₂.skipBlanks.pos), none⟩) = w ∧ w.isValue = true ∧ w.isDotted = false ∧
      ∃ t, Rewritten source r.spell b.pos c₄.pos (w.sites r.value) t ∧
        ∀ keys position newline, (path = [] → keys = []) →
          RecordedLine r keys ⟨leaf, w.exchanged r.value, dottedPathOf path, position, newline⟩ t := by
  obtain ⟨t₁, hpath, hpathText⟩ := hrun.text r.spell hb hbc rfl
  have hc₁ := hrun.reaches.on (hbc.on hb)
  have h₂ := spells_expectChar hequals
  have hu := c₂.reaches_skipBlanks
  obtain ⟨h₃, ⟨t₃, hwritten, hrepr⟩, hv, hd, -, hnumber⟩ := hinner _ _ _ hread (hu.on (h₂.on hc₁))
  refine ⟨((hrun.reaches.trans ⟨_, h₂⟩).trans hu).trans (h₃.trans h₄), hnumber, _, withAfter_withDecor hv _ _, by simpa using hv,
    by simpa using hd, ?_⟩
  rw [exchanged_withDecor, sites_withDecor]
  have hkept := (hpath.append (Rewritten.kept r.spell hc₁ h₂)).append
    ((Rewritten.ref source r.spell hu).append (hwritten.append (.ref source r.spell h₄)))
  refine ⟨_, by simpa using hkept, ?_⟩
  intro keys position newline hnil text htext before after before' after'
  have hdecor := decor?_withDecor ⟨some (.between c₂.pos c₂.skipBlanks.pos), some (.between s₃.cursor.pos c₄.pos)⟩
    ((r.valueMap.isValue_eq v).trans hv)
  simp only [valueLine, Render.BodyLine.valueText, entryKeys_dottedPathOf leaf hnil, hdecor, Option.getD_some,
    valueRepr_withDecor, hrepr text htext, hpathText, optionalText_between]
  simp [joinAll, String.ofList_append]

/-! ## Inline tables -/

/-- An entry of an inline table is one more line, numbered behind the entries read so far. -/
theorem inlineEntry_text (hs : s.cursor.On source) (hes : Dotting es)
    (h : inlineEntry inner es s = .ok (es', s')) :
    Dotting es' ∧ s.number < s'.number ∧ s.cursor.Reaches s'.cursor ∧ ∃ keys e new t,
      Rewritten source r.spell s.cursor.pos s'.cursor.pos new t ∧ RecordedLine r keys e t ∧ e.position = some (s'.number : Int) ∧
      (gathered (sites r.value) es').Perm (gathered (sites r.value) es ++ new) ∧
      (bodyIn [] (es'.map (onItem (exchanged r.value)))).Perm
        (bodyIn [] (es.map (onItem (exchanged r.value))) ++ [(keys, e)]) := by
  obtain ⟨path, leaf, c₁, c₂, w, s₃, hkeys, hequals, hw, hinsert, rfl⟩ := inlineEntry_eq_ok h
  obtain ⟨hreaches, hnumber, v, hv', hv, hd, t, ht, hrecorded⟩ :=
    entry_text hinner hs (.refl _) hkeys hequals hw s₃.cursor.reaches_skipBlanks
  rw [hv'] at hinsert
  have hrun := insertDotted_run hes hinsert
  obtain ⟨keys, hnil, hperm⟩ := (hrun.mapped r.valueMap rfl rfl).lines isDottedTable_dottedInlineTable
    ((r.valueMap.isDotted_eq _).trans hd) ((r.valueMap.isValue_eq _).trans hv) []
  exact ⟨hrun.dotting isDottedTable_dottedInlineTable hd rfl hes, Nat.lt_succ_of_le hnumber, hreaches, keys, _, _, t, ht,
    hrecorded keys _ _ hnil, rfl, hrun.gathered valueMeasure_sites isDottedTable_dottedInlineTable, hperm⟩

/-- The entries of an inline table are lines in the order of their numbers, written as they were read. -/
theorem InlineRun.text {d : Numbered} (h : InlineRun inner es s es' d)
    (hs : s.cursor.On source) (hes : Dotting es) :
    s.number ≤ d.number ∧ Dotting es' ∧ ∃ bs e new t, bs ≠ [] ∧ s.cursor.Reaches e ∧ e.Spells ['\x7d'] d.cursor ∧
      Rewritten source r.spell s.cursor.pos e.pos new t ∧
      bs.Pairwise (fun a b => lineNumber a < lineNumber b) ∧ (∀ b ∈ bs, (s.number : Int) < lineNumber b) ∧
      (∀ text, r.texts text → joinAll (inlineParts (some text)
        ((bs.map (placedLine (some text))).map Prod.snd)) = .ok (String.ofList (t text))) ∧
      (gathered (sites r.value) es').Perm (gathered (sites r.value) es ++ new) ∧
      (bodyIn [] (es'.map (onItem (exchanged r.value)))).Perm (bodyIn [] (es.map (onItem (exchanged r.value))) ++ bs) := by
  induction h with
  | @last es es' s s' hentry hbrace =>
    obtain ⟨hes', hlt, hreaches, keys, e, new, t, ht, hrecorded, hposition, hnew, hperm⟩ :=
      inlineEntry_text hinner hs hes hentry
    refine ⟨Nat.le_of_lt hlt, hes', [(keys, e)], _, new, t, by simp, hreaches, spells_next hbrace, ht,
      by simp, ?_, fun text htext => ?_, hnew, hperm⟩
    · simpa [lineNumber, hposition] using hlt
    · simp only [map_cons, map_nil, inlineParts, placedLine, hrecorded text htext]
      simp [joinAll]
  | @more es es' es'' s s' d hentry hcomma hrest ih =>
    obtain ⟨hes', hlt, hreaches, keys, e, new, t, ht, hrecorded, hposition, hnew, hperm⟩ :=
      inlineEntry_text hinner hs hes hentry
    have hcomma := spells_next hcomma
    have hs' := hreaches.on hs
    obtain ⟨hle, hes'', bs, c, new', t', hbs, hreaches', hclose, ht', hsorted, hafter, htexts, hnew', hperm'⟩ :=
      ih (hcomma.on hs') hes'
    have hnumber : lineNumber (keys, e) = (s'.number : Int) := by simp [lineNumber, hposition]
    have hafter : ∀ b ∈ bs, (s'.number : Int) < lineNumber b := hafter
    refine ⟨Nat.le_trans (Nat.le_of_lt hlt) hle, hes'', (keys, e) :: bs, c, new ++ new', _,
      by simp, (hreaches.trans ⟨_, hcomma⟩).trans hreaches', hclose,
      by simpa using ht.append ((Rewritten.kept r.spell hs' hcomma).append ht'), ?_, ?_, fun text htext => ?_, ?_, ?_⟩
    · exact pairwise_cons.mpr ⟨fun b hb => hnumber ▸ hafter b hb, hsorted⟩
    · refine forall_mem_cons.mpr ⟨hnumber ▸ Int.ofNat_lt.mpr hlt, fun b hb => ?_⟩
      exact Int.lt_trans (Int.ofNat_lt.mpr hlt) (hafter b hb)
    · obtain ⟨b', bs', rfl⟩ := exists_cons_of_ne_nil hbs
      have hparts : joinAll [keyPathText (some text) " " " " (valueLine (some text) keys e).keys, .ok "=",
          (valueLine (some text) keys e).valueText (some text) " " "", .ok ","] =
          .ok (String.ofList (t text ++ [','])) := by
        have hsplit := joinAll_append [keyPathText (some text) " " " " (valueLine (some text) keys e).keys,
          .ok "=", (valueLine (some text) keys e).valueText (some text) " " ""] [.ok ","]
        rw [hrecorded text htext] at hsplit
        refine hsplit.trans ?_
        simp [joinAll, String.ofList_append]
      have htexts := htexts text htext
      simp only [map_cons] at htexts ⊢
      rw [inlineParts, joinAll, placedLine, hparts, htexts]
      · simp [String.ofList_append, String.append_assoc]
      · simp
    · refine hnew'.trans ?_
      have := hnew.append_right new'
      rwa [append_assoc] at this
    · refine hperm'.trans ?_
      have := hperm.append_right bs
      rwa [append_assoc] at this

end

theorem keptText_empty (hs : s.cursor.On source) (hbrace : s.cursor.startsWith ['\x7b'] = true)
    (hclose : s.cursor.next.skipBlanks.startsWith ['\x7d'] = true) :
    KeptText source r s (.inlineTable { span := some ⟨s.cursor.pos, s.cursor.next.skipBlanks.next.pos⟩ }
      { preamble := .between s.cursor.next.pos s.cursor.next.skipBlanks.pos } [])
      { s with cursor := s.cursor.next.skipBlanks.next } := by
  have hopen := spells_next hbrace
  have hgap := s.cursor.next.reaches_skipBlanks
  have hclose := spells_next hclose
  have hkept := (Rewritten.kept r.spell hs hopen).append
    ((Rewritten.ref source r.spell hgap).append (Rewritten.kept r.spell (hgap.on (hopen.on hs)) hclose))
  have hlt : s.cursor.pos < s.cursor.next.skipBlanks.next.pos := by
    obtain ⟨t, ht⟩ := hgap
    have hopened := hopen.pos
    rw [hclose.pos, ht.pos, hopened]
    simp
    omega
  refine keptText_of_members ((Reaches.trans ⟨_, hopen⟩ hgap).trans ⟨_, hclose⟩) rfl hlt rfl rfl (Nat.le_refl _) hkept
    fun text _ => ?_
  simp only [mapMembers, map_nil, valueRepr, bodyLines, byPosition, mergeSort_nil,
    inlineText, optionalText_between]
  simp [joinAll, String.ofList_append]

theorem keptText_inlineTable (hinner : KeepsText source r inner) (hs : s.cursor.On source)
    (hbrace : s.cursor.startsWith ['\x7b'] = true) (h : InlineRun inner [] { s with cursor := s.cursor.next } es s') :
    KeptText source r s (.inlineTable { span := some ⟨s.cursor.pos, s'.cursor.pos⟩ } {} es) s' := by
  have hopen := spells_next hbrace
  obtain ⟨hle, hes, bs, e, new, t, hbs, hreaches, hclose, ht, hsorted, -, htexts, hnew, hperm⟩ :=
    h.text hinner (hopen.on hs) Dotting.nil
  have hlt : s.cursor.pos < s'.cursor.pos := by
    have hopened := hopen.pos
    have hclosed := hclose.pos
    have hrest := ht.le
    simp only [length_singleton] at hopened hclosed hrest
    omega
  have hkept := ((Rewritten.kept r.spell hs hopen).append (ht.perm hnew.symm)).append
    (Rewritten.kept r.spell (hreaches.on (hopen.on hs)) hclose)
  refine keptText_of_members ((Reaches.trans ⟨_, hopen⟩ hreaches).trans ⟨_, hclose⟩) rfl hlt rfl rfl hle
    (by simpa [children, gathered, flatMap_map] using hkept) fun text htext => ?_
  have hsorted : (bs.map (placedLine (some text))).Pairwise fun a b => a.1 < b.1 := pairwise_map.mpr hsorted
  have hlines := byPosition_of_perm (hperm.map (placedLine (some text))) (by simpa [bodyIn] using hsorted)
  rw [← (hes.mapped r.valueMap).bodyLines_eq (some text) [] 0] at hlines
  obtain ⟨b, bs, rfl⟩ := exists_cons_of_ne_nil hbs
  show inlineText _ _ (byPosition (bodyLines _ [] 0 (es.map (onItem (exchanged r.value)))).1) = _
  rw [hlines]
  simp only [map_nil, bodyIn, nil_append]
  rw [map_cons, map_cons, inlineText, ← map_cons, ← map_cons, htexts text htext]
  · simp [joinAll, String.ofList_append]
  · simp

/-! ## All values -/

/-- Every value is written as it was read. -/
theorem keepsText_valueItem (r : Exchange) (limit levels depth : Nat) : KeepsText source r (valueItem limit levels depth) := by
  intro s v s' h
  refine valueItem_induction (P := fun s v s' => s.cursor.On source → KeptText source r s v s') ?_ ?_ ?_ ?_ h
  · exact fun s d value hend hvalue hs => keptText_scalar hend hvalue
  · exact fun inner s vs trailing comma d hinner hbracket hrun hs => keptText_array hinner hs hbracket hrun
  · exact fun s hbrace hclose hs => keptText_empty hs hbrace hclose
  · exact fun inner s es d hinner hbrace hrun hs => keptText_inlineTable hinner hs hbrace hrun

end Verbatim

import Verbatim.Proofs.FieldPaths
import Verbatim.Proofs.Isolated
import Verbatim.Proofs.ValueText

/-!
# Values have the data that the strict reader finds

The scanner of lines and the strict reader go over the same text, with other functions and other limits. Where both
succeed they stop at the same place, and the item of the one has the data of the other.
-/

namespace Verbatim

open DataReader Cursor Item

variable {c d d' : Cursor} {names : List String} {s s' : Numbered} {v : Item} {w : Plain}

/-! ## Key paths -/

/-- Both readers find the same names in a key path and end it at the same place. -/
theorem KeyRun.joins (h : KeyRun before c path leaf c') (hj : c.Joins d)
    (hd : keyPath (d.skipWhile isBlank) = .ok (names, d')) : c'.Joins d' ∧ names = (path ++ [leaf]).map Key.name := by
  induction h generalizing d names with
  | @last before c e name key noPoint =>
    obtain ⟨name', e', hpart, hrest⟩ := keyPath_eq_ok hd
    obtain ⟨hjoins, rfl, -⟩ := simpleKey_joins hj.skipBlanks key hpart
    have hpoint := hjoins.skipBlanks.startsWith_eq (w := ['.']) (by simp)
    rw [noPoint] at hpoint
    rcases hrest with ⟨-, rfl, rfl⟩ | ⟨hpoint', -⟩
    · exact ⟨hjoins.skipBlanks, rfl⟩
    · rw [← hpoint] at hpoint'
      cases hpoint'
  | @more before c e c' name path leaf key point rest ih =>
    obtain ⟨name', e', hpart, hrest⟩ := keyPath_eq_ok hd
    obtain ⟨hjoins, rfl, -⟩ := simpleKey_joins hj.skipBlanks key hpart
    have hpoint := hjoins.skipBlanks.startsWith_eq (w := ['.']) (by simp)
    rw [point] at hpoint
    rcases hrest with ⟨hpoint', -⟩ | ⟨-, names', rfl, hnames⟩
    · rw [← hpoint] at hpoint'
      cases hpoint'
    · obtain ⟨hend, rfl⟩ := ih (hjoins.skipBlanks.next (by decide) point) hnames
      exact ⟨hend, rfl⟩

/-! ## Readers that agree -/

/-- Where both readers succeed they stop at the same place with the same data, and the item is a plain value. -/
def Agrees (read : Numbered → ScannedValue) (inner : Cursor → Step Plain) : Prop :=
  ∀ s d v s' w d', s.cursor.Joins d → read s = .ok (v, s') → inner d = .ok (w, d') →
    s'.cursor.Joins d' ∧ v.unwrap = w ∧ v.isValue = true ∧ v.isDotted = false

namespace Item

@[simp] theorem unwrap_withDecor (d : Decor) (v : Item) : (v.withDecor d).unwrap = v.unwrap := by
  cases v <;> rfl

end Item

theorem unwrap_withAfter (t : SpanText) (v : Item) : (withAfter t v).unwrap = v.unwrap :=
  apply_withAfter unwrap_withDecor t v

theorem isDotted_withAfter (t : SpanText) (v : Item) : (withAfter t v).isDotted = v.isDotted :=
  apply_withAfter isDotted_withDecor t v

variable {read : Numbered → ScannedValue} {inner : Cursor → Step Plain}

theorem keyedValue_joins (hagrees : Agrees read inner)
    (hj : c.Joins d) (hkeys : KeyRun before c path leaf c₁) (hequals : expectChar '=' what c₁ = .ok c₂)
    (hread : read { s with cursor := c₂.skipBlanks } = .ok (v, s'))
    (hd : keyValue inner (d.skipWhile isBlank) = .ok ((names, w), d')) :
    s'.cursor.Joins d' ∧ names = (path ++ [leaf]).map Key.name ∧ v.unwrap = w ∧ v.isValue = true ∧ v.isDotted = false := by
  obtain ⟨e, t, hpath, ht, hinner⟩ := keyValue_iff.mp hd
  obtain ⟨hjoins, rfl⟩ := hkeys.joins hj hpath
  have hspells := spells_expectChar hequals
  have hequal : c₁.startsWith ['='] = true :=
    (hjoins.startsWith_iff (by decide) (by decide)).mpr (startsWith_singleton.mpr ⟨t, ht⟩)
  have hnext : c₂.rest = c₁.next.rest := by
    obtain ⟨u, hu⟩ := startsWith_singleton.mp hequal
    rw [next, drop, hspells.rest]
    rfl
  have hjoins₂ : c₂.Joins e.next := by
    rw [Joins, hnext]
    exact hjoins.next (by decide) hequal
  obtain ⟨hend, hdata, hv, hdotted⟩ := hagrees _ _ _ _ _ _ hjoins₂.skipBlanks hread hinner
  exact ⟨hend, rfl, hdata, hv, hdotted⟩

/-! ## Arrays -/

theorem unwrap_placedElement (before start stop after : Nat) (v : Item) :
    (placedElement before start stop after v).unwrap = v.unwrap := unwrap_withDecor _ v

section

variable (hagrees : Agrees read inner)

include hagrees

/-- The members of an array have the data that the strict reader finds. -/
theorem ArrayRun.joins {comma last : Bool}
    (h : ArrayRun read comma s vs trailing last s') (hj : s.cursor.Joins d)
    (hd : arrayRest inner d = .ok (ws, d')) : s'.cursor.Joins d' ∧ vs.map unwrap = ws := by
  induction h generalizing d ws with
  | @close comma s bracket =>
    rw [arrayRest] at hd
    split at hd
    · cases hd
    · next e he =>
      have hjoins := hj.skipTrivia he
      rw [if_pos ((hjoins.startsWith_iff (by decide) (by decide)).mp bracket)] at hd
      cases hd
      exact ⟨hjoins.next (by decide) bracket, rfl⟩
  | @last comma s s₂ v noBracket value bracket =>
    rw [arrayRest] at hd
    split at hd
    · cases hd
    · next e he =>
      have hjoins := hj.skipTrivia he
      rw [← hjoins.startsWith_eq (by simp), noBracket, if_neg (by decide)] at hd
      obtain ⟨w, e₁, e₂, hinner, hblanks, hrest⟩ := arrayElements_eq_ok hd
      obtain ⟨hend, hdata, -⟩ := hagrees _ _ _ _ _ _ hjoins value hinner
      have hend₂ := hend.skipTrivia hblanks
      rcases hrest with ⟨-, rfl, rfl⟩ | ⟨hcomma, -⟩
      · exact ⟨hend₂.next (by decide) bracket, by simp [unwrap_placedElement, hdata]⟩
      · -- a bracket is no comma
        obtain ⟨t, ht⟩ := startsWith_singleton.mp bracket
        rw [← hend₂.startsWith_eq (by simp), startsWith, ht] at hcomma
        cases hcomma
  | @more comma last s s₂ s' v vs trailing noBracket value separator rest ih =>
    rw [arrayRest] at hd
    split at hd
    · cases hd
    · next e he =>
      have hjoins := hj.skipTrivia he
      rw [← hjoins.startsWith_eq (by simp), noBracket, if_neg (by decide)] at hd
      obtain ⟨w, e₁, e₂, hinner, hblanks, hrest⟩ := arrayElements_eq_ok hd
      obtain ⟨hend, hdata, -⟩ := hagrees _ _ _ _ _ _ hjoins value hinner
      have hend₂ := hend.skipTrivia hblanks
      rcases hrest with ⟨hclose, -⟩ | ⟨-, ws', rfl, hws⟩
      · obtain ⟨t, ht⟩ := startsWith_singleton.mp separator
        rw [← hend₂.startsWith_eq (by simp), startsWith, ht] at hclose
        cases hclose
      · obtain ⟨hclose, rfl⟩ := ih (hend₂.next (by decide) separator) hws
        exact ⟨hclose, by simp [unwrap_placedElement, hdata]⟩

theorem agrees_arrayItem (hj : s.cursor.Joins d) (hbracket : s.cursor.startsWith ['['] = true)
    (hs : arrayItem read s = .ok (v, s')) (hd : array inner d = .ok (w, d')) :
    s'.cursor.Joins d' ∧ v.unwrap = w ∧ v.isValue = true ∧ v.isDotted = false := by
  obtain ⟨vs, trailing, comma, hmembers, rfl⟩ := arrayItem_eq_ok hs
  obtain ⟨ws, rfl, hws⟩ := array_eq_ok hd
  have hnext : ({ s with cursor := s.cursor.next } : Numbered).cursor.Joins d.next := hj.next (by decide) hbracket
  obtain ⟨hend, rfl⟩ := (arrayMembers_run hmembers).joins hagrees hnext hws
  exact ⟨hend, by simp [unwrap], rfl, rfl⟩

/-! ## Inline tables -/

/-- An entry of an inline table has the data that the strict reader finds, put at the same path. -/
theorem inlineEntry_joins (hes : Dotting es) (hj : s.cursor.Joins d)
    (hs : inlineEntry read es s = .ok (es', s')) (hd : keyValue inner (d.skipWhile isBlank) = .ok ((names, w), d')) :
    s'.cursor.Joins (d'.skipWhile isBlank) ∧ Dotting es' ∧
      Fields.atPath false (Fields.add? (names.getLastD "") w) names.dropLast (unwrapFields es) =
        some (unwrapFields es') := by
  obtain ⟨path, leaf, c₁, c₂, x, s₃, hkeys, hequals, hx, hinsert, rfl⟩ := inlineEntry_eq_ok hs
  obtain ⟨hend, rfl, rfl, hv, hdotted⟩ := keyedValue_joins hagrees hj hkeys hequals hx hd
  rw [withAfter_withDecor hv] at hinsert
  have hrun := insertDotted_run hes hinsert
  refine ⟨hend.skipBlanks, hrun.dotting isDottedTable_dottedInlineTable (by simpa using hdotted) rfl hes, ?_⟩
  have hpath := hrun.atPath isDottedTable_dottedInlineTable hes false
  simpa [Entry.name] using hpath

/-- The entries of an inline table have the data that the strict reader finds. -/
theorem InlineRun.joins (h : InlineRun read es s es' s') (hes : Dotting es)
    (hj : s.cursor.Joins d) (hd : inlineEntries inner marks (unwrapFields es) (d.skipWhile isBlank) = .ok (fields, d')) :
    s'.cursor.Joins d' ∧ unwrapFields es' = fields := by
  induction h generalizing d marks with
  | @last es es' s s' entry brace =>
    obtain ⟨path, w, e, fields₁, hvalue, -, hadd, hrest⟩ := inlineEntries_eq_ok hd
    obtain ⟨hend, -, hpath⟩ := inlineEntry_joins hagrees hes hj entry hvalue
    cases hadd.symm.trans hpath
    rcases hrest with ⟨-, rfl, rfl⟩ | ⟨hcomma, -⟩
    · exact ⟨hend.next (by decide) brace, rfl⟩
    · -- a brace is no comma
      obtain ⟨t, ht⟩ := startsWith_singleton.mp brace
      rw [← hend.startsWith_eq (by simp), startsWith, ht] at hcomma
      cases hcomma
  | @more es es₁ es' s s₁ s' entry comma rest ih =>
    obtain ⟨path, w, e, fields₁, hvalue, -, hadd, hrest⟩ := inlineEntries_eq_ok hd
    obtain ⟨hend, hes₁, hpath⟩ := inlineEntry_joins hagrees hes hj entry hvalue
    cases hadd.symm.trans hpath
    rcases hrest with ⟨hbrace, -⟩ | ⟨-, hentries⟩
    · obtain ⟨t, ht⟩ := startsWith_singleton.mp comma
      rw [← hend.startsWith_eq (by simp), startsWith, ht] at hbrace
      cases hbrace
    · exact ih hes₁ (hend.next (by decide) comma) hentries

theorem agrees_inlineTableItem (hj : s.cursor.Joins d)
    (hbrace : s.cursor.startsWith ['\x7b'] = true) (hs : inlineTableItem read s = .ok (v, s'))
    (hd : inlineTable inner d = .ok (w, d')) :
    s'.cursor.Joins d' ∧ v.unwrap = w ∧ v.isValue = true ∧ v.isDotted = false := by
  have hnext := hj.next (by decide) hbrace
  have hclose := hnext.skipBlanks.startsWith_eq (w := ['\x7d']) (by simp)
  rcases inlineTableItem_eq_ok hs with ⟨hempty, rfl, rfl⟩ | ⟨hentries, es, hmembers, rfl⟩
  · rcases inlineTable_eq_ok hd with ⟨-, rfl, rfl⟩ | ⟨hno, -⟩
    · exact ⟨hnext.skipBlanks.next (by decide) hempty, rfl, rfl, rfl⟩
    · rw [← hclose, hempty] at hno
      cases hno
  · rcases inlineTable_eq_ok hd with ⟨hyes, -⟩ | ⟨-, fields, rfl, hfields⟩
    · rw [← hclose, hentries] at hyes
      cases hyes
    · have hstart : ({ s with cursor := s.cursor.next } : Numbered).cursor.Joins d.next := hnext
      obtain ⟨hend, rfl⟩ := (inlineMembers_run hmembers).joins hagrees Dotting.nil hstart hfields
      exact ⟨hend, rfl, rfl, rfl⟩

end

/-! ## Values -/

/-- Both readers take a value for one of the same kind. -/
theorem valueWith_cases (hj : s.cursor.Joins d) (hs : valueItemWith limit depth read s = .ok (v, s'))
    (hd : valueWith inner d = .ok (w, d')) :
    (∃ e value, ScalarEnds s.cursor e ∧ spelledValue (textBetween s.cursor e) s.cursor.pos = .ok value ∧
      v = scalarAt s.cursor e value ∧ s' = { s with cursor := e } ∧ scalar d = .ok (w, d')) ∨
    (depth < limit ∧ s.cursor.startsWith ['['] = true ∧ arrayItem read s = .ok (v, s') ∧ array inner d = .ok (w, d')) ∨
    (depth < limit ∧ s.cursor.startsWith ['\x7b'] = true ∧ inlineTableItem read s = .ok (v, s') ∧
      inlineTable inner d = .ok (w, d')) := by
  have hahead : ∀ {x}, s.cursor.startsWith [x] = true → x ≠ '\r' → x ≠ '\n' → d.startsWith [x] = true :=
    fun hx hreturn hfeed => (hj.startsWith_iff hreturn hfeed).mp hx
  rcases valueItemWith_cases hs with ⟨e, value, hends, hvalue, hv, hs'⟩ | ⟨hdepth, hopen, hs⟩ | ⟨hdepth, hopen, hs⟩
  · refine .inl ⟨e, value, hends, hvalue, hv, hs', ?_⟩
    obtain ⟨x, u, hx, hends⟩ := hends
    have hother : x ≠ '\r' ∧ x ≠ '\n' ∧ x ≠ '[' ∧ x ≠ '\x7b' := by
      rcases hends with ⟨rfl | rfl, -⟩ | ⟨hchar, -⟩
      · decide
      · decide
      · refine ⟨?_, ?_, ?_, ?_⟩ <;> rintro rfl <;> revert hchar <;> decide
    obtain ⟨u', hx'⟩ := startsWith_singleton.mp
      (hahead (startsWith_singleton.mpr ⟨u, hx⟩) hother.1 hother.2.1)
    rwa [valueWith_scalar inner hx' hother.2.2] at hd
  · rw [valueWith, if_pos (hahead hopen (by decide) (by decide))] at hd
    exact .inr (.inl ⟨hdepth, hopen, hs, hd⟩)
  · have hbrace := hahead hopen (by decide) (by decide)
    obtain ⟨u', hx'⟩ := startsWith_singleton.mp hbrace
    have hno : ¬ d.startsWith ['['] = true := by simp [startsWith, hx', List.isPrefixOf]
    rw [valueWith, if_neg hno, if_pos hbrace] at hd
    exact .inr (.inr ⟨hdepth, hopen, hs, hd⟩)

/-- Both readers find the same scalar. -/
theorem ScalarEnds.joins {e : Cursor} {value : Plain} (h : ScalarEnds c e) (hj : c.Joins d)
    (hvalue : spelledValue (textBetween c e) c.pos = .ok value) (hd : scalar d = .ok (w, d')) : e.Joins d' ∧ value = w := by
  obtain ⟨x, u, hx, ⟨hquoted, hend⟩ | ⟨hchar, hend⟩⟩ := h
  · obtain ⟨literal, rfl⟩ := exists_markOf hquoted
    obtain ⟨hjoins, hw⟩ := spelledValue_string c.pos hj (startsWith_singleton.mpr ⟨u, hx⟩) hend hd
    exact ⟨hjoins, Except.ok.inj (hvalue.symm.trans hw)⟩
  · exact spelledValue_bare hj hx hchar hend hvalue hd

theorem agrees_valueItemWith (hagrees : Agrees read inner) (limit depth : Nat) :
    Agrees (valueItemWith limit depth read) (valueWith inner) := by
  intro s d v s' w d' hj hs hd
  rcases valueWith_cases hj hs hd with ⟨e, value, hends, hvalue, rfl, rfl, hd⟩ | ⟨-, hopen, hs, hd⟩ | ⟨-, hopen, hs, hd⟩
  · obtain ⟨hjoins, rfl⟩ := hends.joins hj hvalue hd
    exact ⟨hjoins, rfl, rfl, rfl⟩
  · exact agrees_arrayItem hagrees hj hopen hs hd
  · exact agrees_inlineTableItem hagrees hj hopen hs hd

/-- Values agree at any depth: the limits decide only whether a reader succeeds. -/
theorem agrees_valueItem (limit m depth n : Nat) : Agrees (valueItem limit m depth) (value n) := by
  induction m generalizing depth n with
  | zero =>
    have hinner : ∀ inner, Agrees (fun s => SyntaxCause.tooDeep.at s.cursor.pos) inner := by
      intro inner s d v s' w d' hj hs
      cases hs
    cases n with
    | zero => exact agrees_valueItemWith (hinner _) limit depth
    | succ n => exact agrees_valueItemWith (hinner _) limit depth
  | succ m ih =>
    cases n with
    | zero =>
      refine agrees_valueItemWith (fun s d v s' w d' hj hs hd => ?_) limit depth
      cases hd
    | succ n => exact agrees_valueItemWith (ih (depth + 1) n) limit depth

end Verbatim

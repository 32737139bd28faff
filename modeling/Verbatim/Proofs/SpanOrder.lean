import Mathlib.Data.List.Nodup
import Mathlib.Data.List.Pairwise
import Verbatim.Proofs.TreeLaw

/-!
# Every value has a span of its own

A value is read from one place of the text, and no two values are read from the same place: one that stands within another
begins behind the bracket of that, and one that follows another begins behind its end. So the span of a value tells where it
stands in the tree. Headers and entries are numbered when they are read to their end, so the numbers tell the order of the
text.
-/

namespace Verbatim

open List Cursor Item

variable {s s' d : Numbered} {trailing : SpanText} {es es' : List (Entry Item)} {limit : Nat} {x y : Item}

/-! ## The spans of a tree -/

namespace Item

/-- The spans of all values of a tree. -/
def valueSpans : Item → List Span :=
  fold (fun _ _ => []) fun x inner => (if x.isFrame then [] else x.info.span.toList) ++ inner

theorem valueSpans_eq (x : Item) :
    x.valueSpans = (if x.isFrame then [] else x.info.span.toList) ++ x.children.flatMap valueSpans := fold_eq ..

theorem valueMeasure_valueSpans : ValueMeasure valueSpans := by
  intro x hx
  rw [valueSpans_eq, hx]
  rfl

theorem valueSpans_withDecor (d : Decor) (x : Item) : (x.withDecor d).valueSpans = x.valueSpans :=
  fold_withDecor _ (by cases x <;> rfl)

/-- What an entry with a number counts for: the number, and the span of its value. -/
def numberedEntry (number : Option Int) (x : Item) : List (Int × Option Span) :=
  number.toList.map fun n => (n, if x.isFrame then none else x.info.span)

/-- What a table with a header counts for: the number and the span of the header. -/
def numberedHeader (i : Info) (f : TableForm) : List (Int × Option Span) :=
  if f.implicit || f.dotted then [] else f.position.toList.map fun n => (n, i.span)

/-- All numbers in a tree, those of header tables and those of entries, also in inline tables: each with the span of the header
or of the value that it was given for. -/
def numbered : Item → List (Int × Option Span) :=
  fold numberedEntry fun x inner =>
    match x with
    | .table i f _ => numberedHeader i f ++ inner
    | .scalar .. | .array .. | .inlineTable .. | .arrayOfTables .. => inner

theorem numbered_table (i : Info) (f : TableForm) (es : List (Entry Item)) :
    (table i f es).numbered = numberedHeader i f ++ collected numberedEntry numbered es := by
  rw [numbered, fold, foldEntries_eq]
  rfl

theorem treeMeasure_numbered : TreeMeasure numberedEntry numberedHeader numbered where
  table := numbered_table
  arrayOfTables i ts := by rw [numbered, fold, foldEach_eq]
  dotted x hx := by
    cases x with
    | inlineTable i f es =>
      rw [numbered, fold, foldEntries_eq]
      rfl
    | table i f es =>
      have hnone : numberedHeader i f = [] := if_pos (by simp [show f.dotted = true from hx])
      rw [numbered_table, hnone]
      rfl
    | _ => cases hx
  implied i f hf := if_pos (by simp [hf])
  unplaced _ := rfl
  frames p x y hx hy := by simp [numberedEntry, hx, hy]

theorem numberedEntry_withDecor (number : Option Int) (d : Decor) (x : Item) :
    numberedEntry number (x.withDecor d) = numberedEntry number x := by cases x <;> rfl

theorem numbered_withDecor (d : Decor) (x : Item) (h : x.isValue = true) : (x.withDecor d).numbered = x.numbered := by
  cases x with
  | table i f es => cases h
  | _ => rfl

end Item

open Item (valueSpans numbered numberedEntry numberedHeader)

/-! ## Spans in different places -/

/-- Numbers in the order in which they are given, each when the text up to the end of a span is read. -/
def Counted (a b : Numbered) (ns : List (Int × Span)) : Prop :=
  ns.Pairwise (fun m n => m.1 < n.1 ∧ m.2.stop < n.2.stop) ∧
    ∀ n ∈ ns, a.number < n.1 ∧ n.1 ≤ b.number ∧ a.cursor.pos < n.2.stop ∧ n.2.stop ≤ b.cursor.pos

/-- Between two places of a text, values were read that begin in different places, and entries were numbered one after the
other. -/
structure Spread (a b : Numbered) (ss : List Span) (ns : List (Int × Option Span)) : Prop where
  reaches : a.cursor.Reaches b.cursor
  number : a.number ≤ b.number
  nodup : ss.Nodup
  bound : ∀ s ∈ ss, a.cursor.pos ≤ s.start ∧ s.start < b.cursor.pos
  counted : ∃ ms, Counted a b ms ∧ ns.Perm (ms.map fun m => (m.1, some m.2))

namespace Spread

variable {a b c : Numbered} {ss us : List Span} {ms ns : List (Int × Option Span)}

theorem skip (h : a.cursor.Reaches b.cursor) (hnumber : a.number ≤ b.number) : Spread a b [] [] :=
  ⟨h, hnumber, nodup_nil, forall_mem_nil _, [], ⟨.nil, forall_mem_nil _⟩, .nil⟩

theorem perm (h : Spread a b ss ns) (hss : us.Perm ss) (hns : ms.Perm ns) : Spread a b us ms := by
  obtain ⟨ks, hks, hperm⟩ := h.counted
  exact ⟨h.reaches, h.number, hss.nodup_iff.mpr h.nodup, fun s hs => h.bound s (hss.mem_iff.mp hs), ks, hks, hns.trans hperm⟩

theorem append (h : Spread a b ss ms) (h' : Spread b c us ns) : Spread a c (ss ++ us) (ms ++ ns) := by
  have hab := h.reaches.le
  have hbc := h'.reaches.le
  have hnumber := h.number
  have hnumber' := h'.number
  obtain ⟨js, ⟨hjs, hj⟩, hperm⟩ := h.counted
  obtain ⟨ks, ⟨hks, hk⟩, hperm'⟩ := h'.counted
  refine ⟨h.reaches.trans h'.reaches, by omega, nodup_append.mpr ⟨h.nodup, h'.nodup, ?_⟩, ?_, js ++ ks,
    ⟨pairwise_append.mpr ⟨hjs, hks, ?_⟩, ?_⟩, by simpa using hperm.append hperm'⟩
  · rintro s hs _ hu rfl
    have := h.bound s hs
    have := h'.bound s hu
    omega
  · simp only [forall_mem_append]
    refine ⟨fun s hs => ?_, fun s hs => ?_⟩
    · have := h.bound s hs
      omega
    · have := h'.bound s hs
      omega
  · intro m hm n hn
    have := hj m hm
    have := hk n hn
    omega
  · simp only [forall_mem_append]
    refine ⟨fun n hn => ?_, fun n hn => ?_⟩
    · have := hj n hn
      omega
    · have := hk n hn
      omega

/-- A number is given once a value is read, when more may have been read behind it. -/
theorem next {s : Span} (h : Spread a b ss ns) (hstop : s.stop = b.cursor.pos) (hlt : a.cursor.pos < s.stop)
    (hns : ∀ m : Int × Span, (m.1, some m.2) ∈ ns → m.2.stop < s.stop) (hreaches : b.cursor.Reaches c.cursor)
    (hnumber : c.number = b.number + 1) : Spread a c ss (((c.number : Int), some s) :: ns) := by
  have hle := hreaches.le
  have hab := h.number
  obtain ⟨ms, ⟨hms, hm⟩, hperm⟩ := h.counted
  refine ⟨h.reaches.trans hreaches, by omega, h.nodup, fun s hs => ?_, ms ++ [((c.number : Int), s)],
    ⟨pairwise_append.mpr ⟨hms, pairwise_singleton .., ?_⟩, ?_⟩, ?_⟩
  · have := h.bound s hs
    omega
  · intro m hmem n hn
    obtain rfl := mem_singleton.mp hn
    refine ⟨?_, hns m (hperm.mem_iff.mpr (mem_map_of_mem hmem))⟩
    have := hm m hmem
    dsimp only
    omega
  · simp only [forall_mem_append, forall_mem_singleton]
    refine ⟨fun n hn => ?_, by omega, by omega, hlt, by omega⟩
    have := hm n hn
    omega
  · rw [map_append]
    exact (hperm.cons _).trans (perm_append_singleton ..).symm

end Spread

variable {source : List Char} {inner : Numbered → ScannedValue} {v : Item}

/-- A value was read between two places, which its span tells. All values of it were read from different places there, and
the numbers in it were given before its end. -/
structure SpreadValue (s : Numbered) (v : Item) (s' : Numbered) : Prop where
  spread : Spread s s' v.valueSpans v.numbered
  within : ∀ m : Int × Span, (m.1, some m.2) ∈ v.numbered → m.2.stop < s'.cursor.pos
  span : v.info.span = some ⟨s.cursor.pos, s'.cursor.pos⟩
  isValue : v.isValue = true
  notDotted : v.isDotted = false

/-- A value whose members are read between its brackets. -/
theorem Spread.value {e : Cursor} {t u : List Char} (hopen : s.cursor.Spells t s.cursor.next) (ht : t.length = 1)
    (h : Spread { s with cursor := s.cursor.next } ⟨e, s'.number⟩ (v.children.flatMap valueSpans) v.numbered)
    (hclose : e.Spells u s'.cursor) (hu : u.length = 1) (hspan : v.info.span = some ⟨s.cursor.pos, s'.cursor.pos⟩)
    (hvalue : v.isValue = true) (hdotted : v.isDotted = false) : SpreadValue s v s' := by
  have hnext := hopen.pos
  have hlast := hclose.pos
  have hle := h.reaches.le
  obtain ⟨hreaches, hnumber, hnodup, hbound, ms, ⟨hms, hm⟩, hperm⟩ := h
  rw [ht] at hnext
  rw [hu] at hlast
  dsimp only at hle hnumber hbound hm
  have hspans : v.valueSpans = ⟨s.cursor.pos, s'.cursor.pos⟩ :: v.children.flatMap valueSpans := by
    have hframe : v.isFrame = false := by simp [isFrame, hvalue, hdotted]
    rw [valueSpans_eq, hframe, hspan]
    rfl
  refine ⟨⟨(Reaches.trans ⟨_, hopen⟩ hreaches).trans ⟨_, hclose⟩, hnumber, ?_, ?_, ms, ⟨hms, fun n hn => ?_⟩, hperm⟩,
    fun m hmem => ?_, hspan, hvalue, hdotted⟩
  · rw [hspans, nodup_cons]
    refine ⟨fun hs => ?_, hnodup⟩
    have : s.cursor.next.pos ≤ s.cursor.pos := (hbound _ hs).1
    omega
  · rw [hspans, forall_mem_cons]
    refine ⟨by dsimp only; omega, fun p hp => ?_⟩
    have := hbound p hp
    omega
  · have := hm n hn
    omega
  · obtain ⟨n, hn, heq⟩ := mem_map.mp (hperm.mem_iff.mp hmem)
    have := hm n hn
    simp only [Prod.mk.injEq, Option.some.injEq] at heq
    rw [← heq.2]
    omega

/-- The number of an entry is given behind its value and the text after that. -/
theorem SpreadValue.entry (h : SpreadValue s v s') (hreaches : s'.cursor.Reaches d.cursor)
    (hnumber : d.number = s'.number + 1) :
    Spread s d v.valueSpans (numberedEntry (some (d.number : Nat)) v ++ v.numbered) := by
  have hframe : v.isFrame = false := by simp [isFrame, h.isValue, h.notDotted]
  have hself : (⟨s.cursor.pos, s'.cursor.pos⟩ : Span) ∈ v.valueSpans := by
    rw [valueSpans_eq, hframe, h.span]
    exact mem_cons_self
  have hlt := h.spread.bound _ hself
  have hnext := h.spread.next (s := ⟨s.cursor.pos, s'.cursor.pos⟩) rfl (Nat.lt_of_le_of_lt hlt.1 hlt.2) h.within hreaches hnumber
  simpa [numberedEntry, hframe, h.span] using hnext

section

variable (hinner : ∀ s v s', inner s = .ok (v, s') → SpreadValue s v s')

include hinner

theorem ArrayRun.spread {comma last : Bool} {vs : List Item}
    (h : ArrayRun inner comma s vs trailing last d) : ∃ e : Cursor, e.Spells [']'] d.cursor ∧
      Spread s ⟨e, d.number⟩ (vs.flatMap valueSpans) (vs.flatMap numbered) := by
  induction h with
  | @close comma s bracket =>
    exact ⟨_, spells_next bracket, .skip (reaches_skipTrivia _) (Nat.le_refl _)⟩
  | @last comma s s₂ v _ hvalue bracket =>
    have hv := hinner _ _ _ hvalue
    have hbefore : Spread s ⟨s.cursor.skipTrivia, s.number⟩ [] [] := .skip s.cursor.reaches_skipTrivia (Nat.le_refl _)
    refine ⟨_, spells_next bracket, ?_⟩
    have hafter : Spread s₂ ⟨s₂.cursor.skipTrivia, s₂.number⟩ [] [] := .skip s₂.cursor.reaches_skipTrivia (Nat.le_refl _)
    simpa [placedElement, valueSpans_withDecor, numbered_withDecor _ _ hv.isValue] using
      (hbefore.append hv.spread).append hafter
  | @more comma last s s₂ d v vs trailing _ hvalue separator _ ih =>
    have hv := hinner _ _ _ hvalue
    obtain ⟨e, hclose, hrest⟩ := ih
    have hbefore : Spread s ⟨s.cursor.skipTrivia, s.number⟩ [] [] := .skip s.cursor.reaches_skipTrivia (Nat.le_refl _)
    have hafter : Spread s₂ ⟨s₂.cursor.skipTrivia.next, s₂.number⟩ [] [] :=
      .skip (s₂.cursor.reaches_skipTrivia.trans ⟨_, spells_next separator⟩) (Nat.le_refl _)
    refine ⟨e, hclose, ?_⟩
    simpa [placedElement, valueSpans_withDecor, numbered_withDecor _ _ hv.isValue] using
      ((hbefore.append hv.spread).append hafter).append hrest

/-- An entry of an inline table adds the spans of its value and its number. -/
private theorem inlineEntry_spread
    (h : inlineEntry inner es s = .ok (es', s')) (hes : Dotting es) :
    Dotting es' ∧ ∃ ss ns, Spread s s' ss ns ∧ (gathered valueSpans es').Perm (gathered valueSpans es ++ ss) ∧
      (collected numberedEntry numbered es').Perm (collected numberedEntry numbered es ++ ns) := by
  obtain ⟨path, leaf, c₁, c₂, w, s₃, hkeys, hequals, hw, hinsert, rfl⟩ := inlineEntry_eq_ok h
  have hv := hinner _ _ _ hw
  have hbefore : Spread s ⟨c₂.skipBlanks, s.number⟩ [] [] :=
    .skip ((hkeys.reaches.trans ⟨_, spells_expectChar hequals⟩).trans c₂.reaches_skipBlanks) (Nat.le_refl _)
  have hrun := insertDotted_run hes hinsert
  have hspans := hrun.gathered valueMeasure_valueSpans isDottedTable_dottedInlineTable
  have hnumbers := hrun.collected treeMeasure_numbered isDottedTable_dottedInlineTable
  rw [withAfter_withDecor hv.isValue] at hspans hnumbers hrun
  refine ⟨hrun.dotting isDottedTable_dottedInlineTable (by simpa using hv.notDotted) rfl hes, _, _, ?_, hspans, hnumbers⟩
  have hentry := hv.entry (d := ⟨s₃.cursor.skipBlanks, s₃.number + 1⟩) s₃.cursor.reaches_skipBlanks rfl
  rw [valueSpans_withDecor, numbered_withDecor _ _ hv.isValue, numberedEntry_withDecor]
  exact hbefore.append hentry

theorem InlineRun.spread (h : InlineRun inner es s es' d)
    (hes : Dotting es) :
    ∃ (e : Cursor) (ss : _) (ns : _), e.Spells ['}'] d.cursor ∧ Spread s ⟨e, d.number⟩ ss ns ∧
      (gathered valueSpans es').Perm (gathered valueSpans es ++ ss) ∧
      (collected numberedEntry numbered es').Perm (collected numberedEntry numbered es ++ ns) := by
  induction h with
  | last entry brace =>
    obtain ⟨-, ss, ns, hspread, hspans, hnumbers⟩ := inlineEntry_spread hinner entry hes
    exact ⟨_, ss, ns, spells_next brace, hspread, hspans, hnumbers⟩
  | @more es es' es'' s s' d entry comma _ ih =>
    obtain ⟨hes', ss, ns, hspread, hspans, hnumbers⟩ := inlineEntry_spread hinner entry hes
    obtain ⟨e, us, ms, hclose, hrest, hspans', hnumbers'⟩ := ih hes'
    have hcomma : Spread s' { s' with cursor := s'.cursor.next } [] [] := .skip ⟨_, spells_next comma⟩ (Nat.le_refl _)
    refine ⟨e, ss ++ us, ns ++ ms, hclose, by simpa using (hspread.append hcomma).append hrest, ?_, ?_⟩
    · rw [← append_assoc]
      exact hspans'.trans (hspans.append_right _)
    · rw [← append_assoc]
      exact hnumbers'.trans (hnumbers.append_right _)

end

/-- All values of a value are read from different places, and what is in it is numbered in order. -/
theorem valueItem_spread (h : valueItem limit levels depth s = .ok (v, s')) : SpreadValue s v s' := by
  refine valueItem_induction (P := SpreadValue) ?_ ?_ ?_ ?_ h
  · intro s d value hend hvalue
    have hlt := spelledValue_lt hend.reaches hvalue
    refine ⟨⟨hend.reaches, Nat.le_refl _, nodup_singleton _, ?_, [], ⟨.nil, forall_mem_nil _⟩, .nil⟩, nofun, rfl, rfl,
      rfl⟩
    exact forall_mem_singleton.mpr ⟨Nat.le_refl _, hlt⟩
  · intro inner s vs trailing comma d hinner hopen hrun
    obtain ⟨e, hclose, hspread⟩ := hrun.spread hinner
    refine Spread.value (spells_next hopen) rfl ?_ hclose rfl rfl rfl rfl
    rw [numbered, fold, foldEach_eq]
    exact hspread
  · intro s hopen hclose
    exact Spread.value (spells_next hopen) rfl (.skip (reaches_skipBlanks _) (Nat.le_refl _))
      (spells_next hclose) rfl rfl rfl rfl
  · intro inner s es d hinner hopen hrun
    obtain ⟨e, ss, ns, hclose, hspread, hspans, hnumbers⟩ := hrun.spread hinner Dotting.nil
    refine Spread.value (spells_next hopen) rfl ?_ hclose rfl rfl rfl rfl
    rw [numbered, fold, foldEntries_eq, children, flatMap_map]
    exact hspread.perm hspans hnumbers

private theorem lineAt_spread {l : Line} (h : lineAt limit s = .ok (l, s')) :
    Spread s s' (l.values.flatMap valueSpans) (l.measured numberedEntry numberedHeader numbered) := by
  have htrivia := s.cursor.reaches_skipTrivia
  rcases lineAt_cases h with ⟨hbracket, h⟩ | ⟨-, h⟩
  · obtain ⟨path, leaf, c₁, c₂, c₄, newline, c₆, isArray, hopen, hkeys, hclose, hend, rfl, rfl⟩ := headerLine_spells hbracket h
    obtain ⟨nl, -, hnl, -⟩ := spells_lineEnd hend
    have hafter := (c₄.reaches_skipBlanks.trans (reaches_skipComment _)).trans ⟨_, hnl⟩
    have hkeysEnd := (htrivia.trans ⟨_, hopen⟩).trans hkeys.reaches
    have hbefore : Spread s ⟨c₄, s.number⟩ [] [] := .skip (hkeysEnd.trans ⟨_, hclose⟩) (Nat.le_refl _)
    refine hbefore.next (s := ⟨s.cursor.skipTrivia.pos, c₄.pos⟩) (c := ⟨c₆, s.number + 1⟩) rfl ?_ nofun hafter rfl
    have hle := hkeysEnd.le
    have hpos := hclose.pos
    have hlength : 0 < (closingBrackets isArray).length := by cases isArray <;> decide
    dsimp only
    omega
  · obtain ⟨path, leaf, c₁, c₂, w, s₃, newline, c₅, hkeys, hequals, hw, hend, rfl, rfl⟩ := entryLine_eq_ok h
    have hv := valueItem_spread hw
    have hbefore : Spread s ⟨c₂.skipBlanks, s.number⟩ [] [] :=
      .skip (htrivia.trans ((hkeys.reaches.trans ⟨_, spells_expectChar hequals⟩).trans c₂.reaches_skipBlanks)) (Nat.le_refl _)
    obtain ⟨nl, -, hnl, -⟩ := spells_lineEnd hend
    have hafter := (s₃.cursor.reaches_skipBlanks.trans (reaches_skipComment _)).trans ⟨_, hnl⟩
    have hentry := hv.entry (d := ⟨c₅, s₃.number + 1⟩) hafter rfl
    rw [Line.values, flatMap_singleton, Line.measured, withAfter_withDecor hv.isValue, valueSpans_withDecor,
      numbered_withDecor _ _ hv.isValue, numberedEntry_withDecor]
    exact hbefore.append hentry

theorem LinesRun.spread (h : LinesRun limit s ls trailing) :
    ∃ d, Spread s d (ls.flatMap fun l => l.values.flatMap valueSpans)
      (ls.flatMap (Line.measured numberedEntry numberedHeader numbered)) := by
  induction h with
  | done _ => exact ⟨_, .skip (.refl _) (Nat.le_refl _)⟩
  | line _ hline _ ih =>
    obtain ⟨d, hrest⟩ := ih
    exact ⟨d, by simpa only [flatMap_cons] using (lineAt_spread hline).append hrest⟩

/-- All values of a text are read from different places of it. -/
theorem readTree_spread (h : readTree limit source = .ok (root, trailing)) : root.valueSpans.Nodup := by
  obtain ⟨ls, hrun, hassemble⟩ := readTree_eq_ok h
  obtain ⟨d, hspread⟩ := hrun.spread
  have hperm := assemble_gathered valueMeasure_valueSpans (hrun.proper (start_on source)).1 hassemble
  exact hperm.nodup_iff.mpr hspread.nodup

/-- What is numbered in a text is numbered in the order in which the values and headers end there. -/
theorem readTree_numbered (h : readTree limit source = .ok (root, trailing)) :
    ∃ ns : List (Int × Span), root.numbered.Perm ((0, none) :: ns.map fun n => (n.1, some n.2)) ∧
      ns.Pairwise (fun m n => m.1 < n.1 ∧ m.2.stop < n.2.stop) ∧ ∀ n ∈ ns, 0 < n.1 := by
  obtain ⟨ls, hrun, hassemble⟩ := readTree_eq_ok h
  obtain ⟨d, hspread⟩ := hrun.spread
  obtain ⟨ns, ⟨hns, hbound⟩, hperm⟩ := hspread.counted
  have hroot := assemble_collected treeMeasure_numbered (hrun.proper (start_on source)).1 hassemble
  exact ⟨ns, hroot.trans (hperm.cons _), hns, fun n hn => (hbound n hn).1⟩

/-! ## One place for each span -/

namespace Item

/-- The span of a value stands among those of every tree that holds the value. -/
theorem mem_valueSpans {s : Span} (hy : Within y x) (hvalue : y.isFrame = false) (hs : y.info.span = some s) :
    s ∈ x.valueSpans := by
  induction hy with
  | self =>
    rw [valueSpans_eq, hvalue, hs]
    exact mem_cons_self
  | child hz _ ih =>
    rw [valueSpans_eq]
    exact mem_append_right _ (mem_flatMap.mpr ⟨_, hz, ih⟩)

theorem valueSpans_of_within (hy : Within y x) : ∀ s ∈ y.valueSpans, s ∈ x.valueSpans := by
  induction hy with
  | self => exact fun _ hs => hs
  | child hz _ ih =>
    intro s hs
    rw [valueSpans_eq]
    exact mem_append_right _ (mem_flatMap.mpr ⟨_, hz, ih s hs⟩)

theorem nodup_valueSpans (h : x.valueSpans.Nodup) (hy : Within y x) : y.valueSpans.Nodup := by
  induction hy with
  | self => exact h
  | child hz _ ih =>
    rw [valueSpans_eq] at h
    exact ih ((nodup_flatMap.mp (nodup_append.mp h).2.1).1 _ hz)

/-- What stands in different members has different spans. -/
theorem disjoint_members (h : x.valueSpans.Nodup) (hz : z ∈ x.children) (hz' : z' ∈ x.children) (hne : z ≠ z') :
    z.valueSpans.Disjoint z'.valueSpans := by
  rw [valueSpans_eq] at h
  have hmembers := (nodup_append.mp h).2.1
  have : Std.Symm (Function.onFun List.Disjoint valueSpans) := ⟨fun _ _ hdisjoint _ hv hw => hdisjoint hw hv⟩
  exact (nodup_flatMap.mp hmembers).2.forall hz hz' hne

/-- If all spans are distinct, a span tells which value it is. -/
theorem eq_of_span {z : Item} {s : Span} (h : x.valueSpans.Nodup) (hy : Within y x) (hz : Within z x)
    (hyvalue : y.isFrame = false) (hzvalue : z.isFrame = false) (hys : y.info.span = some s) (hzs : z.info.span = some s) :
    y = z := by
  induction x using childInduction with
  | step x ih =>
    -- below a member there is no value with the span of the item itself
    have hself : ∀ {v w : Item}, v ∈ x.children → Within w v → w.isFrame = false → w.info.span = some s →
        x.isFrame = false → x.info.span = some s → False := by
      intro v w hv hw hwvalue hws hxvalue hxs
      rw [valueSpans_eq, hxvalue, hxs] at h
      refine (nodup_cons.mp h).1 (mem_flatMap.mpr ⟨v, hv, mem_valueSpans hw hwvalue hws⟩)
    rcases within_iff.mp hy with rfl | ⟨v, hv, hyv⟩ <;> rcases within_iff.mp hz with rfl | ⟨w, hw, hzw⟩
    · rfl
    · exact (hself hw hzw hzvalue hzs hyvalue hys).elim
    · exact (hself hv hyv hyvalue hys hzvalue hzs).elim
    · by_cases hvw : v = w
      · subst hvw
        exact ih v hv (nodup_valueSpans h (.child hv .self)) hyv hzw
      · have hdisjoint := disjoint_members h hv hw hvw
        exact (hdisjoint (mem_valueSpans hyv hyvalue hys) (mem_valueSpans hzw hzvalue hzs)).elim

end Item

end Verbatim

import Verbatim.Proofs.SpanOrder

/-!
# The nesting limit only filters

How deep arrays and inline tables may stand in each other decides whether a text is read, and nothing else: a reader with a
lower limit reads a value if a reader with a higher one does and the value does not nest deeper than the limit.

## Main statements

- `Item.levels` - the levels on which the arrays and inline tables of a tree stand.
- `valueItem_follows`, `valueItem_levels` - a limit admits a value exactly if it admits its levels.
- `readTree_limit_iff` - the same for texts.
-/

namespace Verbatim

open List Item

variable {limit limit' depth k : Nat} {s s' d : Numbered} {es es' : List (Entry Item)} {read other : Numbered → ScannedValue}
  {P : Nat → Prop} {trailing : SpanText} {v : Item} {ls : List Line}

/-! ## Levels -/

namespace Item

/-- An array, or an inline table that no dotted key made. -/
def opens : Item → Bool
  | .array .. => true
  | .inlineTable _ f _ => !f.dotted
  | .scalar .. | .table .. | .arrayOfTables .. => false

/-- The levels on which the arrays and inline tables of a tree stand: how many of them stand around each, and one for itself.
What dotted keys made is no level. -/
def levels : Item → List Nat := fold (fun _ _ => []) fun x inner => if x.opens then 1 :: inner.map (· + 1) else inner

theorem levels_eq (x : Item) :
    x.levels = if x.opens then 1 :: (x.children.flatMap levels).map (· + 1) else x.children.flatMap levels := fold_eq ..

theorem valueMeasure_levels : ValueMeasure levels := by
  intro x hx
  rw [levels_eq, if_neg]
  cases x with
  | inlineTable i f es => simpa [opens, isFrame, isDotted, isValue] using hx
  | _ => simp_all [opens, isFrame, isDotted, isValue]

theorem levels_withDecor (decor : Decor) (x : Item) : (x.withDecor decor).levels = x.levels :=
  fold_withDecor _ (by cases x <;> rfl)

theorem levels_withAfter (t : SpanText) (x : Item) : (withAfter t x).levels = x.levels := apply_withAfter levels_withDecor t x

end Item

open Item (levels)

/-- A container stands on one level, and what it holds on the next ones. -/
theorem Item.forall_levels {x : Item} (hx : x.opens = true) (h : ∀ n ∈ x.levels, depth + n ≤ limit) :
    depth < limit ∧ ∀ n ∈ x.children.flatMap levels, depth + 1 + n ≤ limit := by
  rw [levels_eq, if_pos hx, forall_mem_cons, forall_mem_map] at h
  refine ⟨h.1, fun n hn => ?_⟩
  have := h.2 n hn
  omega

/-! ## Members -/

/-- What one reader reads, another one reads as well if its levels are admitted. -/
def Follows (P : Nat → Prop) (read other : Numbered → ScannedValue) : Prop :=
  ∀ s v s', read s = .ok (v, s') → (∀ n ∈ v.levels, P n) → other s = .ok (v, s')

theorem arrayMembers_follows (h : Follows P read other) {vs : List Item}
    (hread : arrayMembers read comma s = .ok (vs, trailing, last, d)) (hvs : ∀ v ∈ vs, ∀ n ∈ v.levels, P n) :
    arrayMembers other comma s = .ok (vs, trailing, last, d) := by
  fun_induction arrayMembers read comma s generalizing vs trailing last d with
  | case1 => grind [arrayMembers]
  | case2 | case3 | case5 | case7 => cases hread
  | case4 | case6 => grind [arrayMembers, levels_withDecor, Follows]

/-- An entry below its dotted key brings in the levels of its value. -/
theorem insertDotted_levels (hes : Dotting es) (h : insertDotted dottedInlineTable leaf path es = .ok es') :
    (gathered levels es').Perm (gathered levels es ++ leaf.item.levels) :=
  (insertDotted_run hes h).gathered valueMeasure_levels isDottedTable_dottedInlineTable

theorem inlineEntry_follows (h : Follows P read other) (hes : Dotting es) (hread : inlineEntry read es s = .ok (es', s'))
    (hwithin : ∀ n ∈ gathered levels es', P n) : inlineEntry other es s = .ok (es', s') := by
  rw [inlineEntry] at hread
  dsimp only at hread
  split at hread
  · cases hread
  · next path leaf c₁ hkeys =>
    split at hread
    · cases hread
    · next c₂ hequals =>
      split at hread
      · cases hread
      · next v s₃ hvalue =>
        split at hread
        · cases hread
        · next es₁ hinsert =>
          cases hread
          obtain ⟨w, hw, rfl⟩ := decoratedValue_eq_ok hvalue
          have hlevels := insertDotted_levels hes hinsert
          rw [levels_withAfter, levels_withDecor] at hlevels
          have hother := h _ _ _ hw fun n hn => hwithin n (hlevels.mem_iff.mpr (mem_append_right _ hn))
          simp only [inlineEntry, hkeys, hequals, decoratedValue, hother, hinsert]

theorem inlineEntry_levels (hplain : ∀ s v s', read s = .ok (v, s') → v.isDotted = false) (hes : Dotting es)
    (h : inlineEntry read es s = .ok (es', s')) :
    Dotting es' ∧ ∃ s v s', read s = .ok (v, s') ∧ (gathered levels es').Perm (gathered levels es ++ v.levels) := by
  obtain ⟨path, leaf, c₁, c₂, w, s₃, -, -, hw, hinsert, -⟩ := inlineEntry_eq_ok h
  have hlevels := insertDotted_levels hes hinsert
  rw [levels_withAfter, levels_withDecor] at hlevels
  refine ⟨(insertDotted_run hes hinsert).dotting isDottedTable_dottedInlineTable ?_ rfl hes, _, w, s₃, hw, hlevels⟩
  simpa [isDotted_withAfter] using hplain _ _ _ hw

theorem inlineMembers_follows (h : Follows P read other) (hplain : ∀ s v s', read s = .ok (v, s') → v.isDotted = false)
    (hes : Dotting es) (hread : inlineMembers read es s = .ok (es', d)) (hwithin : ∀ n ∈ gathered levels es', P n) :
    inlineMembers other es s = .ok (es', d) := by
  fun_induction inlineMembers read es s with
  | case1 | case3 | case5 => cases hread
  | case2 es s es₁ s₁ hentry hcomma s₂ hlt ih =>
    have hes₁ := (inlineEntry_levels hplain hes hentry).1
    -- what is in the inline table stays there
    have hkept : Dotting es' ∧ gathered levels es₁ ⊆ gathered levels es' := by
      refine (inlineMembers_run hread).invariant (I := fun es => Dotting es ∧ gathered levels es₁ ⊆ gathered levels es) ?_
        ⟨hes₁, Subset.refl _⟩
      rintro es s es' s' hentry ⟨hes, hkept⟩
      obtain ⟨hes', -, v, -, -, hperm⟩ := inlineEntry_levels hplain hes hentry
      exact ⟨hes', fun n hn => hperm.mem_iff.mpr (mem_append_left _ (hkept hn))⟩
    have hother := inlineEntry_follows h hes hentry fun n hn => hwithin n (hkept.2 hn)
    rw [inlineMembers]
    simp only [hother, hcomma, if_true]
    rw [if_pos hlt]
    exact ih hes₁ hread
  | case4 es s es₁ s₁ hentry hcomma hbrace =>
    cases hread
    have hother := inlineEntry_follows h hes hentry hwithin
    rw [inlineMembers]
    simp [hother, hcomma, hbrace]

/-! ## Values -/

theorem arrayItem_follows (h : Follows (depth + 1 + · ≤ limit) read other) (hread : arrayItem read s = .ok (v, s'))
    (hwithin : ∀ n ∈ v.levels, depth + n ≤ limit) : depth < limit ∧ arrayItem other s = .ok (v, s') := by
  obtain ⟨vs, t, comma, hmembers, rfl⟩ := arrayItem_eq_ok hread
  obtain ⟨hdepth, hmember⟩ := forall_levels rfl hwithin
  have hother := arrayMembers_follows h hmembers fun v hv n hn => hmember n (mem_flatMap.mpr ⟨v, hv, hn⟩)
  exact ⟨hdepth, by simp only [arrayItem, hother]⟩

theorem inlineTableItem_follows (h : Follows (depth + 1 + · ≤ limit) read other)
    (hplain : ∀ s v s', read s = .ok (v, s') → v.isDotted = false) (hread : inlineTableItem read s = .ok (v, s'))
    (hwithin : ∀ n ∈ v.levels, depth + n ≤ limit) : depth < limit ∧ inlineTableItem other s = .ok (v, s') := by
  rcases inlineTableItem_eq_ok hread with ⟨hclose, rfl, rfl⟩ | ⟨hclose, es, hmembers, rfl⟩
  · exact ⟨(forall_levels rfl hwithin).1, by simp only [inlineTableItem, hclose, if_true]⟩
  · obtain ⟨hdepth, hmember⟩ := forall_levels rfl hwithin
    rw [children, flatMap_map] at hmember
    have hother := inlineMembers_follows h hplain .nil hmembers hmember
    exact ⟨hdepth, by simp [inlineTableItem, hclose, hother]⟩

/-- A value that is read is read with every limit that admits its levels. -/
theorem valueItem_follows (limit limit' levels depth : Nat) :
    Follows (depth + · ≤ limit') (valueItem limit levels depth) (valueItem limit' levels depth) := by
  have hwith : ∀ {depth read other}, Follows (depth + 1 + · ≤ limit') read other →
      (∀ s v s', read s = .ok (v, s') → v.isDotted = false) →
      Follows (depth + · ≤ limit') (valueItemWith limit depth read) (valueItemWith limit' depth other) := by
    intro depth read other h hplain s v s' hread hwithin
    rw [valueItemWith] at hread ⊢
    split at hread
    · cases hread
    · split at hread
      · cases hread
      · next x rest hrest hline =>
        simp only [hline, if_false]
        split at hread
        · next hopen =>
          split at hread
          · cases hread
          · split at hread
            · next hbracket =>
              obtain ⟨hdepth, hother⟩ := arrayItem_follows h hread hwithin
              rw [if_pos hopen, if_neg (by omega), if_pos hbracket, hother]
            · next hbracket =>
              obtain ⟨hdepth, hother⟩ := inlineTableItem_follows h hplain hread hwithin
              rw [if_pos hopen, if_neg (by omega), if_neg hbracket, hother]
        · next hopen => rwa [if_neg hopen]
  induction levels generalizing depth with
  | zero => exact hwith (fun _ _ _ h => by cases h) fun _ _ _ h => by cases h
  | succ levels ih => exact hwith (ih _) fun s v s' h => (valueItem_spread h).notDotted

/-- No level of a value that is read is beyond the limit. -/
theorem valueItem_levels {levels : Nat} (h : valueItem limit levels depth s = .ok (v, s')) :
    ∀ n ∈ v.levels, depth + n ≤ limit := by
  have hwith : ∀ {depth inner s v s'}, (∀ s v s', inner s = .ok (v, s') → v.isDotted = false ∧ ∀ n ∈ v.levels, depth + 1 + n ≤ limit) →
      valueItemWith limit depth inner s = .ok (v, s') → ∀ n ∈ v.levels, depth + n ≤ limit := by
    intro depth inner s v s' hinner h
    -- the limit was checked at the bracket, and the members stand one level deeper
    have hopens : depth < limit → v.opens = true → (∀ n ∈ v.children.flatMap Item.levels, depth + 1 + n ≤ limit) →
        ∀ n ∈ v.levels, depth + n ≤ limit := by
      intro hdepth hv hmembers
      rw [Item.levels_eq, if_pos hv, forall_mem_cons, forall_mem_map]
      exact ⟨hdepth, fun n hn => by have := hmembers n hn; omega⟩
    rcases valueItemWith_cases h with ⟨e, value, -, -, rfl, -⟩ | ⟨hdepth, -, h⟩ | ⟨hdepth, -, h⟩
    · exact forall_mem_nil _
    · obtain ⟨vs, t, comma, hmembers, rfl⟩ := arrayItem_eq_ok h
      refine hopens hdepth rfl (forall_mem_flatMap.mpr ?_)
      exact (arrayMembers_run hmembers).forall_mem fun s v s' decor hv => by
        rw [Item.levels_withDecor]
        exact (hinner s v s' hv).2
    · rcases inlineTableItem_eq_ok h with ⟨-, rfl, -⟩ | ⟨-, es, hmembers, rfl⟩
      · exact hopens hdepth rfl (forall_mem_nil _)
      · refine hopens hdepth rfl ?_
        rw [Item.children, flatMap_map]
        refine ((inlineMembers_run hmembers).invariant
          (I := fun es => Dotting es ∧ ∀ n ∈ gathered Item.levels es, depth + 1 + n ≤ limit) ?_
          ⟨.nil, forall_mem_nil _⟩).2
        rintro es s es' s' hentry ⟨hes, hwithin⟩
        obtain ⟨hes', _, v, _, hv, hperm⟩ := inlineEntry_levels (fun s v s' h => (hinner s v s' h).1) hes hentry
        refine ⟨hes', fun n hn => ?_⟩
        exact (mem_append.mp (hperm.mem_iff.mp hn)).elim (hwithin n) ((hinner _ _ _ hv).2 n)
  induction levels generalizing depth s v s' with
  | zero => exact hwith (fun s v s' h => by cases h) h
  | succ levels ih => exact hwith (fun s v s' h => ⟨(valueItem_spread h).notDotted, ih h⟩) h

/-! ## Texts -/

def Line.levels (l : Line) : List Nat := l.values.flatMap Item.levels

theorem lineAt_levels (h : lineAt limit s = .ok (l, s')) : ∀ n ∈ l.levels, n ≤ limit := by
  rcases lineAt_cases h with ⟨-, h⟩ | ⟨-, h⟩
  · obtain ⟨path, leaf, c₁, c₂, c₃, c₄, newline, c₆, what, what', isArray, -, -, -, -, -, -, rfl, -⟩ := headerLine_eq_ok h
    exact forall_mem_nil _
  · obtain ⟨path, leaf, c₁, c₂, w, s₃, newline, c₅, -, -, hw, -, rfl, -⟩ := entryLine_eq_ok h
    rw [Line.levels, Line.values, flatMap_singleton, Item.levels_withAfter, Item.levels_withDecor]
    simpa using valueItem_levels hw

theorem lineAt_follows (h : lineAt limit s = .ok (l, s')) (hwithin : ∀ n ∈ l.levels, n ≤ limit') :
    lineAt limit' s = .ok (l, s') := by
  rw [lineAt] at h ⊢
  dsimp only at h ⊢
  split at h
  · next hbracket => rwa [if_pos hbracket]
  · next hbracket =>
    rw [if_neg hbracket]
    rw [entryLine] at h
    dsimp only at h
    split at h
    · cases h
    · next path leaf c₁ hkeys =>
      split at h
      · cases h
      · next c₂ hequals =>
        split at h
        · cases h
        · next v s₃ hvalue =>
          split at h
          · cases h
          · next newline c₅ hend =>
            cases h
            obtain ⟨w, hw, rfl⟩ := decoratedValue_eq_ok hvalue
            rw [Line.levels, Line.values, flatMap_singleton, Item.levels_withAfter, Item.levels_withDecor] at hwithin
            have hother := valueItem_follows limit limit' openLevels 0 _ _ _ hw (by simpa using hwithin)
            simp only [entryLine, hkeys, hequals, decoratedValue, hother, hend]

theorem LinesRun.levels (h : LinesRun limit s ls trailing) : ∀ n ∈ ls.flatMap Line.levels, n ≤ limit := by
  induction h with
  | done _ => exact forall_mem_nil _
  | line _ hline _ ih =>
    rw [flatMap_cons, forall_mem_append]
    exact ⟨lineAt_levels hline, ih⟩

theorem scanLines_follows (h : scanLines limit s = (ls, .ok trailing)) (hwithin : ∀ n ∈ ls.flatMap Line.levels, n ≤ limit') :
    scanLines limit' s = (ls, .ok trailing) := by
  fun_induction scanLines limit s generalizing ls trailing with
  | case1 =>
    rename_i hend
    cases h
    rw [scanLines, if_pos hend]
  | case2 | case4 => cases h
  | case3 s =>
    rename_i hend _ _ _ _ hline hlt _ _ hrest ih
    cases h
    rw [flatMap_cons, forall_mem_append] at hwithin
    exact scanLines_cons (by simpa using hend) (lineAt_follows (s := s) hline hwithin.1) hlt (ih hrest hwithin.2)

theorem sourceLines_levels (h : sourceLines limit source = (ls, .ok trailing)) (hassemble : assemble ls = .ok root) :
    root.levels.Perm (ls.flatMap Line.levels) :=
  assemble_gathered Item.valueMeasure_levels ((scanLines_run h).proper (Cursor.start_on source)).1 hassemble

/-- A text is read with every limit that admits the levels of its tree. -/
theorem readTree_follows (h : readTree limit source = .ok (root, trailing)) (hwithin : ∀ n ∈ root.levels, n ≤ limit') :
    readTree limit' source = .ok (root, trailing) := by
  rw [readTree_iff] at h ⊢
  obtain ⟨ls, hls, hassemble⟩ := h
  have hperm := sourceLines_levels hls hassemble
  exact ⟨ls, scanLines_follows hls fun n hn => hwithin n (hperm.mem_iff.mpr hn), hassemble⟩

/-- **The nesting limit only filters.** A text is read with a lower limit if it is read with a higher one and no array or inline
table of its tree stands on a level beyond the lower limit, and then the tree and the trailing text are the same. -/
theorem readTree_limit_iff (hle : limit ≤ limit') (source : List Char) (root : Item) (trailing : SpanText) :
    readTree limit source = .ok (root, trailing) ↔
      readTree limit' source = .ok (root, trailing) ∧ ∀ n ∈ root.levels, n ≤ limit := by
  constructor
  · intro h
    obtain ⟨ls, hls, hassemble⟩ := readTree_iff.mp h
    have hlevels : ∀ n ∈ root.levels, n ≤ limit := fun n hn =>
      (scanLines_run hls).levels n ((sourceLines_levels hls hassemble).mem_iff.mp hn)
    exact ⟨readTree_follows h fun n hn => Nat.le_trans (hlevels n hn) hle, hlevels⟩
  · rintro ⟨h, hlevels⟩
    exact readTree_follows h hlevels

/-- The array within an inline table stands on the second level, so a limit of one leaves the text out. -/
theorem readTree_limit_one : 1 ≤ 2 ∧ ∃ root trailing, readTree 2 "a = \x7bb.c = [1]\x7d".toList = .ok (root, trailing) ∧
    root.levels = [1, 2] ∧ readTree 1 "a = \x7bb.c = [1]\x7d".toList ≠ .ok (root, trailing) := by
  refine ⟨by decide, ?_⟩
  have hlevels : (readTree 2 "a = \x7bb.c = [1]\x7d".toList).toOption.map (·.1.levels) = some [1, 2] := by decide +kernel
  rcases hread : readTree 2 "a = \x7bb.c = [1]\x7d".toList with f | ⟨root, trailing⟩
  · rw [hread] at hlevels
    cases hlevels
  · rw [hread] at hlevels
    have hroot : root.levels = [1, 2] := Option.some.inj hlevels
    refine ⟨root, trailing, rfl, hroot, fun h => ?_⟩
    have hbound := ((readTree_limit_iff (by decide : 1 ≤ 2) _ root trailing).mp h).2 2 (by simp [hroot])
    omega

end Verbatim

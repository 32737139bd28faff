import Verbatim.Proofs.Progress
import Verbatim.Proofs.SpelledValues

/-!
# The lines of a body

The body of a table holds the values of the table and of the dotted tables below it, each on a line of its own. Lines are
told apart by the names that lead to them, and none of these paths is the beginning of another one. So the entries of an
inline table can be read in any order.
-/

namespace Verbatim

open List DataReader Render

variable {path : List Key} {l : List Key × Entry Item} {es : List (Entry Item)}

/-! ## Lines and their names -/

def lineNames (l : List Key × Entry Item) : List String := l.1.map Key.name ++ [l.2.name]

/-- Every line of a body is found behind its names. -/
theorem bodyPath_of_mem (h : l ∈ bodyIn path es) :
    ∃ ks, l.1 = path ++ ks ∧ BodyPath es (ks.map Key.name ++ [l.2.name]) l.2 := by
  induction es using entriesInduction generalizing path with
  | step es below =>
    obtain ⟨e, he, hl⟩ := mem_bodyIn.mp h
    cases hd : e.item.isDotted with
    | true =>
      rw [entryBody_dotted path hd] at hl
      obtain ⟨ks, hks, hpath⟩ := below e he hl
      refine ⟨e.key :: ks, by rw [hks, append_assoc]; rfl, .dotted he hd hpath⟩
    | false =>
      cases hv : e.item.isValue with
      | true =>
        rw [entryBody_value path hd hv, mem_singleton] at hl
        subst hl
        exact ⟨[], (append_nil _).symm, .value he hv hd⟩
      | false =>
        rw [entryBody_table path hd hv] at hl
        cases hl

theorem BodyPath.mem_bodyIn (h : BodyPath es q d) (path : List Key) :
    ∃ ks, (path ++ ks, d) ∈ bodyIn path es ∧ q = ks.map Key.name ++ [d.name] := by
  induction h generalizing path with
  | value mem isValue plain =>
    refine ⟨[], Verbatim.mem_bodyIn.mpr ⟨_, mem, ?_⟩, rfl⟩
    rw [entryBody_value path plain isValue, append_nil]
    exact mem_singleton_self _
  | @dotted es e d q mem isDotted below ih =>
    obtain ⟨ks, hks, rfl⟩ := ih (path ++ [e.key])
    refine ⟨e.key :: ks, Verbatim.mem_bodyIn.mpr ⟨_, mem, ?_⟩, rfl⟩
    rw [entryBody_dotted path isDotted]
    rwa [append_assoc] at hks

/-- No line leads on to another one. -/
theorem BodyPath.eq_of_prefix (h : BodyPath es q d) (h' : BodyPath es q' d') (hes : Orderly es) (hq : q <+: q') :
    q = q' ∧ d = d' := by
  induction h generalizing q' with
  | @value es e mem isValue plain =>
    obtain ⟨e', he', q'', rfl, h'⟩ := h'.of_mem
    obtain ⟨t, ht⟩ := hq
    obtain rfl := hes.eq_of_name mem he' (List.cons.inj ht).1
    obtain ⟨hq, rfl, -⟩ := h'.single_value plain
    exact ⟨hq.symm, rfl⟩
  | @dotted es e d q mem isDotted below ih =>
    obtain ⟨e', he', q'', rfl, h'⟩ := h'.of_mem
    obtain ⟨t, ht⟩ := hq
    obtain rfl := hes.eq_of_name mem he' (List.cons.inj ht).1
    obtain ⟨q₁, hq₁, hbelow⟩ := h'.single_dotted isDotted
    cases hq₁
    obtain ⟨rfl, rfl⟩ := ih hbelow (hes.lower mem (.splits (hes.splits mem isDotted))) ⟨t, (List.cons.inj ht).2⟩
    exact ⟨rfl, rfl⟩

private theorem lineNames_entryBody (h : l ∈ entryBody path e) : ∃ u, lineNames l = path.map Key.name ++ e.name :: u := by
  have hl : l ∈ bodyIn path [e] := mem_bodyIn.mpr ⟨e, mem_singleton_self _, h⟩
  obtain ⟨ks, hks, hpath⟩ := bodyPath_of_mem hl
  obtain ⟨e', he', u, hu, -⟩ := hpath.of_mem
  obtain rfl := mem_singleton.mp he'
  exact ⟨u, by rw [lineNames, hks, map_append, append_assoc, hu]⟩

/-- No two lines of a body have the same names. -/
theorem nodup_lineNames (hes : Orderly es) (path : List Key) : ((bodyIn path es).map lineNames).Nodup := by
  induction es using entriesInduction generalizing path with
  | step es below =>
    rw [bodyIn_eq, map_flatMap, nodup_flatMap]
    refine ⟨fun e he => ?_, ?_⟩
    · cases hd : e.item.isDotted with
      | true =>
        rw [entryBody_dotted path hd]
        exact below e he (hes.lower he (.splits (hes.splits he hd))) _
      | false =>
        cases hv : e.item.isValue with
        | true =>
          rw [entryBody_value path hd hv]
          exact nodup_singleton _
        | false =>
          rw [entryBody_table path hd hv]
          exact nodup_nil
    · refine (pairwise_map.mp hes.names).imp fun hne => ?_
      intro names hnames hnames'
      obtain ⟨l, hl, rfl⟩ := mem_map.mp hnames
      obtain ⟨l', hl', heq⟩ := mem_map.mp hnames'
      obtain ⟨u, hu⟩ := lineNames_entryBody hl
      obtain ⟨u', hu'⟩ := lineNames_entryBody hl'
      rw [hu, hu'] at heq
      exact hne (List.cons.inj (append_cancel_left heq)).1.symm

/-! ## Bodies in any order -/

/-- Every entry of a body has a line, and so has every entry of its dotted tables. -/
inductive Filled : List (Entry Item) → Prop where
  | intro {es : List (Entry Item)} (lines : ∀ e ∈ es, ∃ q d, BodyPath [e] q d)
      (below : ∀ e ∈ es, e.item.isDotted = true → Filled e.item.entries) : Filled es

namespace Filled

variable {es : List (Entry Item)} {e : Entry Item}

theorem lines (h : Filled es) (he : e ∈ es) : ∃ q d, BodyPath [e] q d := by
  cases h with
  | intro lines below => exact lines e he

end Filled

/-- A body is met when all its lines are. -/
theorem Filled.met (h : Filled es) (hsaid : ∀ q d, BodyPath es q d → g.line o q) : ∀ e ∈ es, Met g o e := by
  induction h generalizing o with
  | @intro es lines below ih =>
    intro e he
    obtain ⟨q, d, hq⟩ := lines e he
    have hdotted : e.item.isValue = false → e.item.isDotted = true := by
      intro hv
      rw [← Bool.not_eq_false]
      intro hd
      rw [(hq.single_value hd).2.2] at hv
      cases hv
    have harray : ∀ i ts, e.item ≠ .arrayOfTables i ts := by
      intro i ts hitem
      have := hdotted (by rw [hitem]; rfl)
      rw [hitem] at this
      cases this
    refine .intro (.inr ⟨q, d, hq, hsaid q d (hq.mono (by simpa using he))⟩) (fun i ts hitem => absurd hitem (harray i ts))
      (fun sub hsub => ?_) fun i ts hitem => absurd hitem (harray i ts)
    have hd : e.item.isDotted = true := by
      generalize hitem : e.item = x at hsub
      cases hsub with
      | table => rw [← hitem]; exact hdotted (by rw [hitem]; rfl)
      | inlineTable dotted noHeader => exact dotted
    rw [← hsub.entries_eq]
    exact ih e he hd fun q d hq => (Progress.line_enter_dotted hd q).mpr (hsaid _ d (.dotted he hd hq))

/-- What has been met of a body that stands by itself. -/
def Progress.ofLines (said : List String → Prop) : Progress := ⟨(· = 0), fun p q => p = 0 ∧ said q⟩

theorem Progress.say_ofLines (said : List String → Prop) (q : List String) :
    (Progress.ofLines said).say 0 q = .ofLines fun q' => said q' ∨ q' = q := by
  simp only [say, ofLines, Progress.mk.injEq, true_and]
  funext p' q'
  exact propext (and_or_left).symm

/-- A line with the value that was read for it. -/
def Speaks (l : List Key × Entry Item) (v : List String × Plain) : Prop :=
  v.1 = lineNames l ∧ Data.Same v.2 l.2.item.unwrap

/-- Lines that have not been met yet are accepted one after the other. -/
private theorem addFields_run (hes : Orderly es) (htimes : timesIn es = []) {ls : List (List Key × Entry Item)}
    {vs : List (List String × Plain)} (hvs : Forall₂ Speaks ls vs) (hlines : ∀ l ∈ ls, BodyPath es (lineNames l) l.2)
    (hnodup : (ls.map lineNames).Nodup) {said : List String → Prop} (hnew : ∀ l ∈ ls, ¬said (lineNames l))
    (hsaid : ∀ q, said q → ∃ d, BodyPath es q d) {marks : Marks}
    (hmarks : ∀ p, marks.isClosed p = true → ∃ q, said q ∧ q <+: p) {fields : Fields}
    (hfields : ReflectsIn (.ofLines said) (some (0, [])) es fields) :
    ∃ fields', addFields marks fields vs = some fields' ∧
      ReflectsIn (.ofLines fun q => said q ∨ q ∈ ls.map lineNames) (some (0, [])) es fields' := by
  induction hvs generalizing said marks fields with
  | nil => exact ⟨fields, rfl, by simpa using hfields⟩
  | @cons l v ls vs hv _ ih =>
    obtain ⟨path, w⟩ := v
    obtain ⟨rfl, hsame⟩ : path = lineNames l ∧ Data.Same w l.2.item.unwrap := hv
    have hpath := hlines l mem_cons_self
    have hopen : marks.isClosed (lineNames l) = false := by
      rw [Bool.eq_false_iff]
      intro hclosed
      obtain ⟨q, hq, hprefix⟩ := hmarks _ hclosed
      obtain ⟨d, hd⟩ := hsaid q hq
      obtain ⟨rfl, -⟩ := hd.eq_of_prefix hpath hes hprefix
      exact hnew l mem_cons_self hq
    have hfresh : ¬(Progress.ofLines said).spoken 0 ([] ++ lineNames l) := fun h => hnew l mem_cons_self h.2
    have hcovered : (Progress.ofLines said).Covered := fun p q h => h.1
    obtain ⟨fields₁, hadd, hfields₁⟩ := hpath.add hes (by simp [htimes]) hfresh hcovered hsame hfields false
    rw [← hpath.getLastD_eq] at hadd
    rw [nil_append, Progress.say_ofLines] at hfields₁
    have hmarks₁ : ∀ p, (if isContainer w then marks.close (lineNames l) else marks).isClosed p = true →
        ∃ q, (said q ∨ q = lineNames l) ∧ q <+: p := by
      intro p hp
      have hcases : marks.isClosed p = true ∨ lineNames l <+: p := by
        split at hp
        · rw [Marks.isClosed_close, Bool.or_eq_true, Bool.and_eq_true, isPrefixOf_iff_prefix] at hp
          exact hp.imp_right And.right
        · exact .inl hp
      rcases hcases with hp | hp
      · obtain ⟨q, hq, hprefix⟩ := hmarks p hp
        exact ⟨q, .inl hq, hprefix⟩
      · exact ⟨_, .inr rfl, hp⟩
    rw [map_cons, nodup_cons] at hnodup
    obtain ⟨fields', hmore, hfields'⟩ := @ih (fun l' hl' => hlines l' (mem_cons_of_mem _ hl')) hnodup.2
      (fun q => said q ∨ q = lineNames l)
      (fun l' hl' h => h.elim (hnew l' (mem_cons_of_mem _ hl')) fun heq => hnodup.1 (heq ▸ mem_map_of_mem hl'))
      (fun q hq => hq.elim (hsaid q) fun heq => ⟨_, heq ▸ hpath⟩) _ hmarks₁ _ hfields₁
    refine ⟨fields', ?_, by simpa [or_assoc] using hfields'⟩
    rw [addFields, if_neg (by simp [hopen]), hadd]
    exact hmore

/-- The entries of an inline table are accepted in any order, and make its data. -/
theorem addFields_body (hes : Orderly es) (hfilled : Filled es) (htimes : timesIn es = []) (hls : ls.Perm (bodyIn [] es))
    (hvs : Forall₂ Speaks ls vs) :
    ∃ fields, addFields .blank [] vs = some fields ∧ Data.Same (.table fields) (.table (Item.unwrapFields es)) := by
  have hlines : ∀ l ∈ ls, BodyPath es (lineNames l) l.2 := by
    intro l hl
    obtain ⟨ks, hks, hpath⟩ := bodyPath_of_mem (hls.mem_iff.mp hl)
    rwa [lineNames, hks]
  have hstart : ReflectsIn (.ofLines fun _ => False) (some (0, [])) es [] := by
    refine reflectsIn_nil fun e he h => ?_
    rcases h with ⟨p, hp, -⟩ | ⟨q, d, -, h⟩
    · have : p ∈ timesIn es := mem_timesIn.mpr ⟨e, he, hp⟩
      rw [htimes] at this
      cases this
    · exact h.2
  have hblank : ∀ p, Marks.blank.isClosed p = true → ∃ q, False ∧ q <+: p := by
    intro p hp
    rw [Marks.isClosed_blank] at hp
    cases hp
  obtain ⟨fields, hadd, hfields⟩ := addFields_run hes htimes hvs hlines
    ((hls.map lineNames).nodup_iff.mpr (nodup_lineNames hes [])) (fun _ _ h => h) (fun _ h => h.elim) hblank hstart
  refine ⟨fields, hadd, hfields.same (hfilled.met fun q d hq => ?_) hes⟩
  obtain ⟨ks, hks, rfl⟩ := hq.mem_bodyIn []
  exact ⟨rfl, .inr (mem_map.mpr ⟨_, hls.mem_iff.mpr hks, rfl⟩)⟩

end Verbatim

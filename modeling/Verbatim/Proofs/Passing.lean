import Verbatim.Proofs.Settled

/-!
# Changes that are passed on

A scalar that is put under a name takes the line of what stood there, or a new line; in an inline table it takes the place of a
value, or stands behind all others. Either way the table can be read back as before. What is changed in one place of a tree is
passed on to the tables around it, up to the root.
-/

namespace Verbatim

open List DataReader Render Item

variable {levels : Nat} {o : Owner} {y x x' z : Item} {i : Info}

/-! ## New scalars -/

/-- A scalar as assigning makes it: only its value is there. -/
inductive Item.NewScalar : Item → Prop where
  | intro {kind : ScalarKind} {v : Plain} (simple : v.SimpleScalar) : NewScalar (.scalar {} { kind, value := v })

namespace Item

/-- An item is put behind all others, or in the place of the only entry of its name. -/
theorem place_cases (name : String) (y : Item) (hnames : (es.map Entry.name).Nodup) :
    (name ∉ es.map Entry.name ∧ place name y es = es ++ [{ key := { name }, item := y }]) ∨
    ∃ pre e post, es = pre ++ e :: post ∧ e.name = name ∧
      place name y es = pre ++ { e with item := replacing e.item y } :: post := by
  by_cases hmem : name ∈ es.map Entry.name
  · obtain ⟨e, he, hname⟩ := mem_map.mp hmem
    obtain ⟨pre, post, rfl⟩ := append_of_mem he
    refine .inr ⟨pre, e, post, rfl, hname, place_of_mem hname ?_ ?_⟩
    all_goals
      rw [map_append, map_cons, nodup_append, nodup_cons] at hnames
      intro d hd heq
    · exact hnames.2.2 _ (mem_map_of_mem hd) _ mem_cons_self (heq.trans hname.symm)
    · exact hnames.2.1.1 (mem_map.mpr ⟨d, hd, heq.trans hname.symm⟩)
  · refine .inl ⟨hmem, ?_⟩
    rw [place, findNamed?_eq_none_iff.mpr hmem]

namespace NewScalar

variable {y : Item} (hy : y.NewScalar)

include hy

theorem isValue : y.isValue = true := by
  cases hy
  rfl

theorem decor? : y.decor? = some {} := by
  cases hy
  rfl

theorem stripped : y.stripped = y := by
  cases hy
  rfl

theorem legible : ValueLegible source none limit levels y := by
  cases hy with
  | intro simple => exact .scalar simple

theorem exists_literal : ∃ lit, ∀ source, Render.valueRepr source y = .ok (String.ofList lit) := by
  have hlegible : ValueLegible none none 0 0 y := hy.legible
  obtain ⟨lit, -, hlit, -⟩ := hlegible.spells
  cases hy
  exact ⟨lit, fun _ => hlit⟩

/-- A scalar takes over the text around the value that it replaces. -/
theorem replacing_cases (old : Item) : replacing old y = y ∨
    ∃ d, old.isValue = true ∧ old.decor? = some d ∧ replacing old y = y.withDecor d := by
  cases hv : old.isValue with
  | false =>
    left
    rw [replacing, hv]
    rfl
  | true =>
    cases hd : old.decor? with
    | none =>
      left
      rw [replacing, hd]
      split
      · next heq _ => cases heq
      · rfl
    | some d =>
      refine .inr ⟨d, rfl, rfl, ?_⟩
      rw [replacing, hv, hy.isValue, hd, hy.decor?]
      rfl

theorem replacing_legible (old : Item) : ValueLegible source none limit levels (replacing old y) := by
  rcases hy.replacing_cases old with heq | ⟨d, -, -, heq⟩ <;> rw [heq]
  · exact hy.legible
  · exact hy.legible.withDecor d

/-- The text around a scalar is what it was, or there is none. -/
theorem replacing_decor {lead tail : List Char → Prop}
    (hold : old.isValue = true → ∀ d ∈ old.decor?, d.Legible source lead tail) :
    ∀ d ∈ (replacing old y).decor?, d.Legible source lead tail := by
  rcases hy.replacing_cases old with heq | ⟨d, hv, hd, heq⟩ <;> rw [heq]
  · rw [hy.decor?]
    rintro _ ⟨⟩
    exact Decor.legible_empty
  · rw [decor?_withDecor _ hy.isValue]
    rintro _ ⟨⟩
    exact hold hv d hd

theorem times_replacing (old : Item) : (replacing old y).times = [] :=
  times_of_isValue ((isValue_replacing old y).trans hy.isValue)

end NewScalar

/-- A scalar brings in no header. -/
theorem NewScalar.times_place (hy : y.NewScalar) (name : String) (es : List (Entry Item)) :
    (timesIn (place name y es)).Sublist (timesIn es) := by
  rw [place]
  split
  · rw [timesIn_append, timesIn_cons, timesIn_nil, times_of_isValue hy.isValue]
    simp
  · rw [updateEntry]
    clear * - hy
    induction es with
    | nil => exact Sublist.refl _
    | cons e es ih =>
      rw [map_cons, timesIn_cons, timesIn_cons]
      refine Sublist.append ?_ ih
      split
      · rw [hy.times_replacing]
        exact nil_sublist _
      · exact Sublist.refl _

end Item

theorem Key.legible_new (name : String) (lead : List Char → Prop) : Key.Legible source lead { name } :=
  ⟨by rintro t ⟨⟩, by rintro t ⟨⟩, by rintro t ⟨⟩⟩

theorem keys_legible_new (hks : ∀ k ∈ ks, k.Legible source Blanks) (name : String) :
    ∀ k ∈ ks ++ [({ name } : Key)], k.Legible source Blanks := by
  rw [forall_mem_append, forall_mem_singleton]
  exact ⟨hks, Key.legible_new name _⟩

theorem EntryLegible.withItem (h : EntryLegible source lead path e) (x : Item) :
    EntryLegible source lead path { e with item := x } :=
  ⟨h.keys, h.names, h.newline⟩

/-- A scalar is put under a name in a table in whose body lines stand. -/
theorem Settled.place (h : Settled source limit path dotted o es) (hy : y.NewScalar) (ho : o ≠ none) (name : String) :
    Settled source limit path dotted o (place name y es) := by
  rcases place_cases name y h.orderly.names with ⟨hmem, hplace⟩ | ⟨pre, e, post, rfl, -, hplace⟩ <;> rw [hplace]
  · refine h.append hmem (settled_value h.pathKeys h.dottedKeys ?_ ?_ hy.legible ho)
    · exact (entryLegible_bare (keys_legible_new h.dottedKeys name)).imp fun _ hu => hu.trivia
    · rw [hy.decor?]
      rintro _ ⟨⟩
      exact Decor.legible_empty
  · have he : e ∈ pre ++ e :: post := by simp
    refine h.replace rfl (settled_value h.pathKeys h.dottedKeys ((h.entryLegible he).withItem _) ?_
      (hy.replacing_legible e.item) ho)
    exact hy.replacing_decor fun hv => ((h.legible _ he).values hv).1.decor

/-- A scalar is put under a name in an inline table. -/
theorem InlineLegible.place (h : InlineLegible source limit levels path es) (hy : y.NewScalar) (name : String) :
    InlineLegible source limit levels path (place name y es) := by
  have hbelow : ∀ d : Entry Item, d.item.NewScalar → d.below path = none := by
    intro d hd
    generalize hx : d.item = x at hd
    cases hd
    rw [Entry.below, hx]
    rfl
  rcases place_cases name y h.body.names with ⟨hmem, hplace⟩ | ⟨pre, e, post, rfl, -, hplace⟩ <;> rw [hplace]
  · refine h.append hmem ⟨entryLegible_bare (keys_legible_new h.body.keys name), ?_⟩ ?_
    · rw [hy.decor?]
      rintro _ ⟨⟩
      exact Decor.legible_empty
    · rw [hbelow _ hy]
      exact hy.legible
  · have hline := h.body.lines e (by simp)
    refine h.replace rfl ⟨hline.toEntryLegible.withItem _, hy.replacing_decor fun _ => hline.decor⟩ ?_
    have hlegible : ValueLegible source none limit levels (replacing e.item y) := hy.replacing_legible e.item
    rwa [Entry.below, if_neg (by rw [hlegible.isDotted]; exact Bool.false_ne_true)]

/-! ## Items in the place of others -/

namespace Item

/-- Whether a table is there only because longer headers imply it. -/
def isImplied : Item → Bool
  | .table _ f _ => f.implicit && !f.dotted
  | _ => false

theorem isImplied_stripped (x : Item) : x.stripped.isImplied = x.isImplied := by
  cases x <;> rfl

/-- An item of the same kind can be read back in the place of another one, which can be read back there. If it may hold
something where the other one was empty, the limit of nesting must leave room for it. -/
inductive Adapts (source : Option (List Char)) (grows : Prop) : Item → Item → Prop where
  | value {y z : Item} (isValue : y.isValue = true) (isValue' : z.isValue = true) (isDotted : z.isDotted = y.isDotted)
      (decor : z.decor? = y.decor?) (legible : ∀ {keys : Option (List Key)} {limit levels : Nat},
        (grows → limit ≤ levels) → ValueLegible source keys limit levels y → ValueLegible source keys limit levels z) :
      Adapts source grows y z
  /-- A table with other entries. Lines can stand in it, unless it is only implied. -/
  | table {i : Info} {f : TableForm} {es es' : List (Entry Item)} (times : (timesIn es').Sublist (timesIn es))
      (entries : ∀ {limit : Nat} {path dotted : List Key} {o : Owner}, ((f.implicit && !f.dotted) = false → o ≠ none) →
        Settled source limit path dotted o es →
          Settled source limit path dotted o es' ∧ ((f.implicit || f.dotted) = true → es' ≠ [])) :
      Adapts source grows (.table i f es) (.table i f es')

namespace Adapts

variable {y z : Item} (h : Adapts source grows y z)
include h

theorem decor? : z.decor? = y.decor? := by
  cases h with
  | value _ _ _ decor => exact decor
  | table => rfl

theorem isDotted : z.isDotted = y.isDotted := by
  cases h with
  | value _ _ isDotted => exact isDotted
  | table => rfl

theorem isValue : z.isValue = y.isValue := by
  cases h with
  | value isValue isValue' => exact isValue'.trans isValue.symm
  | table => rfl

theorem times_sublist : z.times.Sublist y.times := by
  cases h with
  | value _ isValue' => simp [times_of_isValue isValue']
  | table times =>
    simp only [times_table]
    exact (Sublist.refl _).append times

end Adapts

/-- An inline table in which other entries are read back. -/
theorem adapts_inlineTable {f : InlineForm} (hgrows : es = [] → es' ≠ [] → grows) (hes : ∀ {limit levels : Nat} {path : List
      Key}, InlineLegible source limit levels path es → InlineLegible source limit levels path es' ∧ (f.dotted = true → es' ≠
      [])) : Adapts source grows (.inlineTable i f es) (.inlineTable i f es') := by
  refine .value rfl rfl rfl rfl fun hroom hx => ?_
  cases hx with
  | inlineTable plain room preamble body members =>
    have hnew := (hes ⟨body, members⟩).1
    refine .inlineTable plain (fun hne => ?_) preamble hnew.body hnew.members
    by_cases hes : es = []
    · have hroom := hroom (hgrows hes hne)
      omega
    · exact room hes
  | dotted isDotted nonempty body members =>
    obtain ⟨hnew, hne⟩ := hes ⟨body, members⟩
    exact .dotted isDotted (hne isDotted) hnew.body hnew.members

theorem place_ne_nil (name : String) (y : Item) (hnames : (es.map Entry.name).Nodup) : place name y es ≠ [] := by
  rcases place_cases name y hnames with ⟨-, heq⟩ | ⟨pre, e, post, -, -, heq⟩ <;> rw [heq] <;> simp

/-- A scalar is assigned to a table or an inline table. -/
theorem adapts_place (hy : y.isMapping = true) (hv : v.NewScalar) (himplied : y.isImplied = false) (name : String) :
    Adapts source True y (y.withEntries (place name v y.entries)) := by
  cases y with
  | inlineTable i f es =>
    exact adapts_inlineTable (fun _ _ => trivial) fun h => ⟨h.place hv name, fun _ => place_ne_nil name v h.body.names⟩
  | table i f es =>
    exact .table (hv.times_place name es) fun ho h =>
      ⟨h.place hv (ho himplied) name, fun _ => place_ne_nil name v h.orderly.names⟩
  | _ => cases hy

/-! ## Within a value -/

/-- What changes in one place of a value keeps the value legible. -/
theorem Replaced.valueLegible (hz : Adapts source grows y z) (h : Replaced y z x x') {keys : Option (List Key)}
    (hx : ValueLegible source keys limit levels x) (hroom : grows → limit ≤ levels) :
    ValueLegible source keys limit levels x' := by
  induction h generalizing keys limit levels with
  | here =>
    cases hz with
    | value _ _ _ _ legible => exact legible hroom hx
    | table => cases hx
  | @array i f pre post v v' hreplaced ih =>
    cases hx with
    | array room decor trailing elements =>
      refine .array (fun _ => room (by simp)) ?_ trailing ?_ <;> rw [forall_mem_append, forall_mem_cons] at *
      · exact ⟨decor.1, by rw [hreplaced.decor? hz.decor?]; exact decor.2.1, decor.2.2⟩
      · exact ⟨elements.1, ih elements.2.1 fun hgrows => Nat.le_sub_one_of_lt (hroom hgrows), elements.2.2⟩
  | @inlineTable i f pre post e v' hreplaced ih =>
    have hstep : ∀ {limit levels : Nat} {path : List Key}, (grows → limit ≤ levels) →
        InlineLegible source limit levels path (pre ++ e :: post) →
          InlineLegible source limit levels path (pre ++ { e with item := v' } :: post) := by
      intro limit levels path hroom h
      have hline := h.body.lines e (by simp)
      refine h.replace rfl ⟨hline.toEntryLegible.withItem v', by rw [hreplaced.decor? hz.decor?]; exact hline.decor⟩ ?_
      rw [Entry.below, hreplaced.isDotted hz.isDotted]
      exact ih (h.members e (by simp)) hroom
    cases hx with
    | inlineTable plain room preamble body members =>
      have hnew := hstep (fun hgrows => Nat.le_sub_one_of_lt (hroom hgrows)) ⟨body, members⟩
      exact .inlineTable plain (fun _ => room (by simp)) preamble hnew.body hnew.members
    | dotted isDotted nonempty body members =>
      have hnew := hstep hroom ⟨body, members⟩
      exact .dotted isDotted (by simp) hnew.body hnew.members
  | _ => cases hx

/-! ## In the tables around -/

/-- An item may stand in the place of another one, wherever that stands in a tree whose headers have numbers of some kind. Its
headers come where headers of the other one came, as far as the tree can tell. -/
structure Passes (source : Option (List Char)) (limit : Nat) (known : Int → Prop) (x x' : Item) : Prop where
  /-- Its headers. -/
  times : ∀ p' ∈ x'.times, ∃ p ∈ x.times, p ≤ p' ∧ ∀ q, known q → p < q → p' < q
  /-- As the item of an entry. -/
  entry : ∀ {path dotted : List Key} {o : Owner} {e : Entry Item}, e.item = x → (∀ q ∈ x.times, known q) →
    Settled source limit path dotted o [e] → Settled source limit path dotted o [{ e with item := x' }]
  /-- As a table of an array of tables. -/
  element : ∀ {path : List Key}, (∀ q ∈ x.times, known q) → SettledElement source limit path x →
    SettledElement source limit path x'

theorem passes_value (hx : x.isValue = true) (hx' : x'.isValue = true) (hdecor : x'.decor? = x.decor?)
    (hvalue : ValueLegible source none limit nestingLevels x → ValueLegible source none limit nestingLevels x') :
    Passes source limit known x x' where
  times := by simp [times_of_isValue hx']
  entry := by
    rintro path dotted o e rfl - h
    have he := mem_singleton_self e
    obtain ⟨hline, hlegible⟩ := (h.legible e he).values hx
    exact settled_value h.pathKeys h.dottedKeys (hline.toEntryLegible.withItem x') (by rw [hdecor]; exact hline.decor)
      (hvalue hlegible) ((h.arranged e he).values hx).2
  element := by
    rintro path - ⟨⟩
    cases hx

end Item

theorem Settled.withEntries (h : Settled source limit path dotted o [e]) (hx : e.item = .table i f sub)
    (hlater : f.dotted = true → ∀ b ∈ o, (∀ p ∈ timesIn sub, b.1 < p) → ∀ p ∈ timesIn sub', b.1 < p)
    (hne : f.time? = none → sub' ≠ [])
    (hsub : Settled source limit (path ++ [e.key]) (if f.dotted then dotted ++ [e.key] else []) (o.enter e) sub') :
    Settled source limit path dotted o [{ e with item := .table i f sub' }] := by
  have he := mem_singleton_self e
  have hv : e.item.isValue = false := by rw [hx]; rfl
  have htable : e.item.HasTable i f sub := by
    rw [hx]
    exact .self
  have henter : o.enter { e with item := .table i f sub' } = o.enter e := by
    rw [Owner.enter, Owner.enter, hx]
    rfl
  obtain ⟨hentry, hkey⟩ := (h.legible e he).frames hv
  obtain ⟨hheader, hplaced, -⟩ := (h.legible e he).tables htable
  refine settled_table h.pathKeys h.dottedKeys (hentry.withItem _) hkey rfl hheader hplaced (fun hd => ?_) hne (by rw [henter]; exact hsub)
  obtain ⟨-, b, hb, hlt⟩ := (h.arranged e he).dotted (by rw [hx]; exact hd)
  refine ⟨b, hb, hlater hd b hb fun p hp => hlt p ?_⟩
  rw [hx, times_table]
  exact mem_append_right _ hp

theorem Settled.withElements (h : Settled source limit path dotted o [e]) (hx : e.item = .arrayOfTables i ts) (hne : ts' ≠ [])
    (hts : ∀ t ∈ ts', SettledElement source limit (path ++ [e.key]) t)
    (hsorted : ts'.Pairwise fun t u => ∀ p ∈ t.times, ∀ p' ∈ u.times, p < p') :
    Settled source limit path dotted o [{ e with item := .arrayOfTables i ts' }] := by
  have he := mem_singleton_self e
  obtain ⟨hentry, hkey⟩ := (h.legible e he).frames (by rw [hx]; rfl)
  exact settled_arrayOfTables h.pathKeys h.dottedKeys (hentry.withItem _) hkey rfl hne hts hsorted

namespace Item

variable {known : Int → Prop} {i : Info}

section Table

variable {v' : Item}

/-- The headers of a table in which one entry changes. -/
private theorem Passes.times_entries (h : Passes source limit known e.item v') :
    ∀ p' ∈ timesIn (pre ++ { e with item := v' } :: post), ∃ p ∈ timesIn (pre ++ e :: post), p ≤ p' ∧
      ∀ q, known q → p < q → p' < q := by
  intro p' hp'
  simp only [timesIn_append, timesIn_cons, mem_append] at hp' ⊢
  rcases hp' with hp' | hp' | hp'
  · exact ⟨p', .inl hp', Int.le_refl _, fun q _ hq => hq⟩
  · obtain ⟨p, hp, hnear⟩ := h.times p' hp'
    exact ⟨p, .inr (.inl hp), hnear⟩
  · exact ⟨p', .inr (.inr hp'), Int.le_refl _, fun q _ hq => hq⟩

private theorem known_entry (h : ∀ q ∈ (table i f (pre ++ e :: post)).times, known q) : ∀ q ∈ e.item.times, known q := by
  intro q hq
  refine h q ?_
  simp [times_table, hq]

/-- A change of one entry is passed on to its table. -/
theorem Passes.table (h : Passes source limit known e.item v') : Passes source limit known (.table i f (pre ++ e :: post))
    (.table i f (pre ++ { e with item := v' } :: post)) where
  times := by
    intro p' hp'
    rw [times_table, mem_append] at hp'
    rcases hp' with hp' | hp'
    · exact ⟨p', by rw [times_table]; exact mem_append_left _ hp', Int.le_refl _, fun q _ hq => hq⟩
    · obtain ⟨p, hp, hnear⟩ := h.times_entries p' hp'
      exact ⟨p, by rw [times_table]; exact mem_append_right _ hp, hnear⟩
  entry := by
    intro path dotted o d hd hknown hsettled
    have hsub := hsettled.table (mem_singleton_self d) hd
    refine hsettled.withEntries hd (fun _ b _ hlt p' hp' => ?_) (by simp) (hsub.replace rfl (h.entry rfl ?_ (hsub.entry ?_)))
    · obtain ⟨p, hp, hle, -⟩ := h.times_entries p' hp'
      exact Int.lt_of_lt_of_le (hlt p hp) hle
    · exact known_entry hknown
    · simp
  element := by
    rintro path hknown ⟨time, header, first, entries⟩
    refine .intro time header (fun p' hp' => ?_) (entries.replace rfl (h.entry rfl (known_entry hknown) (entries.entry ?_)))
    · obtain ⟨p, hp, hle, -⟩ := h.times_entries p' hp'
      exact Int.lt_of_lt_of_le (first p hp) hle
    · simp

end Table

/-- A change of one table is passed on to its array. -/
theorem Passes.arrayOfTables (h : Passes source limit known t t') :
    Passes source limit known (.arrayOfTables i (pre ++ t :: post)) (.arrayOfTables i (pre ++ t' :: post)) where
  times := by
    intro p' hp'
    simp only [times_arrayOfTables, flatMap_append, flatMap_cons, mem_append] at hp' ⊢
    rcases hp' with hp' | hp' | hp'
    · exact ⟨p', .inl hp', Int.le_refl _, fun q _ hq => hq⟩
    · obtain ⟨p, hp, hnear⟩ := h.times p' hp'
      exact ⟨p, .inr (.inl hp), hnear⟩
    · exact ⟨p', .inr (.inr hp'), Int.le_refl _, fun q _ hq => hq⟩
  entry := by
    intro path dotted o d hd hknown hsettled
    have hmem := mem_singleton_self d
    have hsorted := ((hsettled.arranged d hmem).elements hd).2.2.1
    have hknown' : ∀ u ∈ pre ++ t :: post, ∀ q ∈ u.times, known q := by
      intro u hu q hq
      refine hknown q ?_
      rw [times_arrayOfTables]
      exact mem_flatMap.mpr ⟨u, hu, hq⟩
    refine hsettled.withElements hd (by simp) ?_ ?_
    · rw [forall_mem_append, forall_mem_cons]
      refine ⟨fun u hu => hsettled.element hmem hd (by simp [hu]), ?_, fun u hu => hsettled.element hmem hd (by simp [hu])⟩
      exact h.element (hknown' t (by simp)) (hsettled.element hmem hd (by simp))
    · -- the changed table comes behind those before it and, up to known numbers, before those behind it
      rw [pairwise_append, pairwise_cons] at hsorted ⊢
      obtain ⟨hpre, ⟨hhead, hpost⟩, hcross⟩ := hsorted
      refine ⟨hpre, ⟨fun u hu p' hp' q hq => ?_, hpost⟩, fun u hu w hw => ?_⟩
      · obtain ⟨p, hp, -, hnear⟩ := h.times p' hp'
        exact hnear q (hknown' u (by simp [hu]) q hq) (hhead u hu p hp q hq)
      · rcases mem_cons.mp hw with rfl | hw
        · intro q hq p' hp'
          obtain ⟨p, hp, hle, -⟩ := h.times p' hp'
          exact Int.lt_of_lt_of_le (hcross u hu t (by simp) q hq p hp) hle
        · exact hcross u hu w (by simp [hw])
  element := by
    rintro path - ⟨⟩

/-! ## In a whole tree -/

/-- The body in which the values of a table stand that is not only implied. -/
theorem enter_ne_none (h : Settled source limit path dotted o [e]) (hx : e.item = .table i f es)
    (himplied : (f.implicit && !f.dotted) = false) : o.enter e ≠ none := by
  have he := mem_singleton_self e
  rw [Owner.enter]
  cases hd : e.item.isDotted with
  | true =>
    obtain ⟨-, b, hb, -⟩ := (h.arranged e he).dotted hd
    rw [if_pos rfl, Option.mem_def.mp hb]
    simp
  | false =>
    obtain ⟨-, hplaced, -⟩ := (h.legible e he).tables (by rw [hx]; exact .self)
    rw [hx, isDotted] at hd
    rw [hd, Bool.not_false, Bool.and_true] at himplied
    rw [hd, himplied] at hplaced
    simp only [Bool.false_eq_true, false_or] at hplaced
    obtain ⟨p, hp⟩ := Option.isSome_iff_exists.mp hplaced
    rw [if_neg Bool.false_ne_true, hx, owner, time?, TableForm.time?, hd, himplied, hp]
    simp

theorem passes_table (htimes : (timesIn es').Sublist (timesIn es)) (hentries : ∀ {path dotted : List Key} {o : Owner},
      ((f.implicit && !f.dotted) = false → o ≠ none) → Settled source limit path dotted o es → Settled source limit path
      dotted o es' ∧ ((f.implicit || f.dotted) = true → es' ≠ [])) :
    Passes source limit known (.table i f es) (.table i f es') := by
  refine ⟨fun p hp => ⟨p, ?_, Int.le_refl _, fun _ _ hq => hq⟩, ?_, ?_⟩
  · rw [times_table, mem_append] at hp ⊢
    exact hp.imp_right fun hp => htimes.subset hp
  · intro path dotted o e hx _ h
    obtain ⟨hes', hne⟩ := hentries (enter_ne_none h hx) (h.table (mem_singleton_self e) hx)
    refine h.withEntries hx (fun _ b _ hlt p hp => hlt p (htimes.subset hp)) (fun htime => hne ?_) hes'
    obtain ⟨-, hplaced, -⟩ := (h.legible e (mem_singleton_self e)).tables (by rw [hx]; exact .self)
    by_contra hf
    rw [Bool.not_eq_true, Bool.or_eq_false_iff] at hf
    simp [TableForm.time?, hf.1, hf.2, Option.isSome_iff_ne_none] at hplaced htime
    exact hplaced htime
  · rintro path - ⟨time, header, first, entries⟩
    exact .intro time header (fun p hp => first p (htimes.subset hp)) (hentries (by simp) entries).1

/-- What changes in one place of an item is passed on to the item. -/
theorem Replaced.passes (hz : Adapts source grows y z) (hlimit : grows → limit ≤ nestingLevels) (h : Replaced y z x x') :
    Passes source limit known x x' := by
  have hvalue : ∀ {x x' : Item}, Replaced y z x x' → x.isValue = true → Passes source limit known x x' := by
    intro x x' h hx
    exact passes_value hx ((h.isValue hz.isValue).trans hx) (h.decor? hz.decor?) fun hx => h.valueLegible hz hx hlimit
  induction h with
  | here =>
    cases hz with
    | value isValue => exact hvalue .here isValue
    | table times entries => exact passes_table times entries
  | array h _ => exact hvalue (.array h) rfl
  | inlineTable h _ => exact hvalue (.inlineTable h) rfl
  | table _ ih => exact ih.table
  | arrayOfTables _ ih => exact ih.arrayOfTables

/-- With fewer headers in one place there are fewer headers around it. -/
theorem Replaced.times_sublist (h : Replaced y z x x') (hyz : z.times.Sublist y.times) : x'.times.Sublist x.times := by
  induction h with
  | here => exact hyz
  | array => exact Sublist.refl _
  | inlineTable => exact Sublist.refl _
  | table _ ih =>
    simp only [times_table, timesIn_append, timesIn_cons]
    exact (Sublist.refl _).append ((Sublist.refl _).append (ih.append (Sublist.refl _)))
  | arrayOfTables _ ih =>
    simp only [times_arrayOfTables, flatMap_append, flatMap_cons]
    exact (Sublist.refl _).append (ih.append (Sublist.refl _))

end Item

/-- The entries of the root can be read back if they have no other headers than before. -/
theorem Settled.rereadable (h : Settled source limit [] [] home es') (hsub : (timesIn es').Sublist (timesIn es))
    (hes : Rereadable source limit es) : Rereadable source limit es' where
  legible := h.legible
  orderly := h.orderly
  separate := ⟨hes.separate.nodup.sublist hsub, fun b hb hmem => hes.separate.owner b hb (hsub.subset hmem)⟩
  arranged := h.arranged
  positive := fun p hp => hes.positive p (hsub.subset hp)

/-- A tree with another item in one place can be read back. -/
theorem Item.Rereads.replaceAt (h : x.Rereads source limit) (hfollow : x.follow segments = .ok y)
    (hz : Adapts source grows y z) (hlimit : grows → limit ≤ nestingLevels) :
    (x.replaceAt segments z).Rereads source limit := by
  have hreplaced : Replaced y z x _ := replaced_replaceAt hfollow
  generalize x.replaceAt segments z = x' at hreplaced
  cases h with
  | @root i f es first plain explicit entries =>
    generalize hx : table i f es = x at hreplaced
    cases hreplaced with
    | here =>
      subst hx
      cases hz with
      | value isValue => cases isValue
      | table times hentries =>
        have hsettled := (hentries (fun _ => by simp [home]) entries.settled).1
        exact .root first plain explicit (hsettled.rereadable times entries)
    | @table j g pre post e v' hreplaced =>
      cases hx
      have hpasses : Passes source limit (fun _ => True) e.item v' := hreplaced.passes hz hlimit
      have hentry := hpasses.entry rfl (fun _ _ => trivial) (entries.settled.entry (e := e) (by simp))
      have hsettled : Settled source limit [] [] home (pre ++ { e with item := v' } :: post) :=
        entries.settled.replace rfl hentry
      refine .root first plain explicit (hsettled.rereadable ?_ entries)
      simp only [timesIn_append, timesIn_cons]
      exact (Sublist.refl _).append ((hreplaced.times_sublist hz.times_sublist).append (Sublist.refl _))
    | _ => cases hx

end Verbatim

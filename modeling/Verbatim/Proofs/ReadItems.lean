import Verbatim.Proofs.TreeLaw

/-!
# Items as they are read

Whatever a text is read as, every item of its tree is *regular*: it has no label, its entries are found by their names, and
arrays and dotted inline tables have the forms that the reader gives them. Moreover every text that it has refers to something
in the source, and a value or a header has the span of its spelling.

## Main statements

- `Item.IsRegular`, `Item.IsRead` - what is true of every item that was read.
- `readTree_read` - it is.
-/

namespace Verbatim

open List Cursor Render Key Item

open Item (entryTexts)

variable {x root : Item} {i : Info} {f : TableForm} {es es' : List (Entry Item)} {limit a : Nat} {source : List Char}
  {trailing : SpanText} {c d : Cursor}

/-! ## References -/

/-- Something stands in the source where a text refers to. -/
def SpanText.In (source : List Char) (t : SpanText) : Prop := ∀ s ∈ t.span?, s.start < s.stop ∧ s.stop ≤ source.length

theorem SpanText.in_between (hc : c.On source) (h : c.Reaches d) : (between c.pos d.pos).In source := by
  obtain ⟨t, ht⟩ := h
  have hpos := ht.pos
  have hle := (ht.on hc).1
  intro s hs
  rw [between] at hs
  split at hs
  · cases hs
  · cases hs
    dsimp only
    omega

theorem SpanText.in_empty : SpanText.empty.In source := nofun

theorem Key.texts_bare {k : Key} (h : t ∈ k.bare.texts) : t ∈ k.texts :=
  mem_append_left _ (by simpa [texts, bare, Decor.texts] using h)

/-- The texts of every segment of a key path refer to the source. -/
theorem KeyRun.texts {before : Nat} {b : Cursor} (h : KeyRun before c path leaf d)
    (hb : b.On source) (hbc : b.Reaches c) (hbefore : before = b.pos) :
    ∀ k ∈ path ++ [leaf], ∀ t ∈ k.texts, t.In source := by
  -- the text before a segment, its name, and the text behind it
  have hsegment : ∀ {b c d : Cursor} {name : String}, b.On source → b.Reaches c → simpleKey c.skipBlanks = .ok (name, d) →
      ∀ t ∈ (segmentKey b.pos c name d).texts, t.In source := by
    intro b c d name hb hbc hkey
    have hc := hbc.trans c.reaches_skipBlanks
    have hd := hc.trans (reaches_simpleKey hkey)
    simp only [Key.texts, segmentKey, Decor.texts, Option.toList_some, forall_mem_append, forall_mem_singleton]
    exact ⟨SpanText.in_between (hc.on hb) (reaches_simpleKey hkey), SpanText.in_between hb hc,
      SpanText.in_between (hd.on hb) d.reaches_skipBlanks⟩
  induction h generalizing b with
  | last hkey _ =>
    subst hbefore
    exact forall_mem_singleton.mpr (hsegment hb hbc hkey)
  | @more _ c d e name path leaf hkey hpoint _ ih =>
    subst hbefore
    have hd := (hbc.trans c.reaches_skipBlanks).trans ((reaches_simpleKey hkey).trans d.reaches_skipBlanks)
    exact forall_mem_cons.mpr ⟨hsegment hb hbc hkey, ih ((hd.trans ⟨_, spells_next hpoint⟩).on hb) (.refl _) rfl⟩

/-! ## Items -/

/-- No item of the tree has a label. -/
def Item.Unlabelled (x : Item) : Prop := ∀ y : Item, y.Within x → y.info.label = 0

theorem Item.unlabelled_iff : x.Unlabelled ↔ x.info.label = 0 ∧ ∀ z ∈ x.children, z.Unlabelled := forall_within_iff

/-- An item has no label, its entries are found by their names, an array stands in a place of its own, and an inline table that
a dotted key made does not. -/
structure Item.IsRegular (x : Item) : Prop where
  label : x.info.label = 0
  names : (x.entries.map Entry.name).Nodup
  noSpan : x.isValue = true → x.isDotted = true → x.info.span = none
  array : ∀ {i f vs}, x = .array i f vs → i.span.isSome = true ∧ f.Closes vs

/-- Every item of the tree is regular. -/
def Item.Regular (x : Item) : Prop := ∀ y : Item, y.Within x → y.IsRegular

/-- A header with its brackets, as it is written, stands in the place that its table remembers. -/
def TableForm.Spelled (source : List Char) (isArray : Bool) (i : Info) (f : TableForm) : Prop :=
  ∀ ks ∈ f.headerKeys, ∃ span, i.span = some span ∧
    joinAll [.ok (if isArray then "[[" else "["), keyPathText (some source) "" "" ks,
      .ok (if isArray then "]]" else "]")] = .ok (String.ofList (slice source span))

/-- A regular item whose texts refer to the source. As a value it stands there as it is spelled, and so do the headers of the
tables in it. -/
structure Item.IsRead (source : List Char) (x : Item) : Prop extends x.IsRegular where
  texts : ∀ t ∈ x.ownTexts, t.In source
  members : x.isValue = true → ∀ z ∈ x.children, z.isValue = true
  spelled : x.isFrame = false → ∃ span, x.info.span = some span ∧
    valueRepr (some source) x = .ok (String.ofList (slice source span))
  headers : ∀ {i f es}, .table i f es ∈ x.children → f.Spelled source x.isArrayOfTables i

/-- Every item of the tree was read. -/
def Item.Read (source : List Char) (x : Item) : Prop := ∀ y : Item, y.Within x → y.IsRead source

/-- The entries of an inline table: they are found by their names, and their keys and values were read. -/
structure EntriesRead (source : List Char) (es : List (Entry Item)) : Prop where
  names : (es.map Entry.name).Nodup
  texts : ∀ e ∈ es, ∀ t ∈ entryTexts e, t.In source
  isValue : ∀ e ∈ es, e.item.isValue = true
  items : ∀ e ∈ es, e.item.Read source

theorem EntriesRead.nil : EntriesRead source [] :=
  ⟨nodup_nil, forall_mem_nil _, forall_mem_nil _, forall_mem_nil _⟩

namespace Item

theorem read_iff : x.Read source ↔ x.IsRead source ∧ ∀ z ∈ x.children, z.Read source := forall_within_iff

/-- What makes a value that was read: its own parts, and the values in it. -/
theorem read_value (hregular : x.IsRegular) (htexts : ∀ t ∈ x.ownTexts, t.In source) (hspelled : x.isFrame = false → ∃ span,
      x.info.span = some span ∧ valueRepr (some source) x = .ok (String.ofList (slice source span)))
    (hvalues : ∀ z ∈ x.children, z.isValue = true) (hmembers : ∀ z ∈ x.children, z.Read source) : x.Read source :=
  read_iff.mpr ⟨⟨hregular, htexts, fun _ => hvalues, hspelled, fun hz => nomatch hvalues _ hz⟩, hmembers⟩

theorem Read.withDecor {d : Decor} (h : x.Read source) (hv : x.isValue = true) (hd : ∀ t ∈ d.texts, t.In source) :
    (x.withDecor d).Read source := by
  obtain ⟨⟨⟨hlabel, hnames, hspan, harray⟩, htexts, hvalues, hspelled, -⟩, hmembers⟩ := read_iff.mp h
  have hspelled : (x.withDecor d).isFrame = false → ∃ span, (x.withDecor d).info.span = some span ∧
      valueRepr (some source) (x.withDecor d) = .ok (String.ofList (slice source span)) := by
    rw [valueRepr_withDecor]
    cases x <;> exact hspelled
  cases x with
  | scalar i s =>
    rw [ownTexts, forall_mem_append] at htexts
    exact read_value ⟨hlabel, hnames, hspan, by rintro _ _ _ ⟨⟩⟩ (forall_mem_append.mpr ⟨htexts.1, hd⟩) hspelled (hvalues hv) hmembers
  | array i f vs =>
    rw [ownTexts, forall_mem_cons] at htexts
    obtain ⟨hi, hf⟩ := harray rfl
    exact read_value ⟨hlabel, hnames, hspan, by rintro _ _ _ ⟨⟩; exact ⟨hi, hf.empty, hf.last⟩⟩
      (forall_mem_cons.mpr ⟨htexts.1, hd⟩) hspelled (hvalues hv) hmembers
  | inlineTable i f es =>
    rw [ownTexts, forall_mem_append, forall_mem_cons] at htexts
    exact read_value ⟨hlabel, hnames, hspan, by rintro _ _ _ ⟨⟩⟩
      (forall_mem_append.mpr ⟨forall_mem_cons.mpr ⟨htexts.1.1, hd⟩, htexts.2⟩) hspelled (hvalues hv) hmembers
  | _ => cases hv

theorem Read.entriesRead (h : x.Read source) (hv : x.isValue = true) : EntriesRead source x.entries := by
  obtain ⟨hself, hmembers⟩ := read_iff.mp h
  have htexts := hself.texts
  cases x with
  | inlineTable i f es =>
    rw [ownTexts, forall_mem_append, forall_mem_flatMap] at htexts
    exact ⟨hself.names, htexts.2, forall_mem_map.mp (hself.members hv), forall_mem_map.mp hmembers⟩
  | scalar i s => exact .nil
  | array i f vs => exact .nil
  | _ => cases hv

theorem isValue_withEntries (x : Item) (es : List (Entry Item)) : (x.withEntries es).isValue = x.isValue := by
  cases x <;> rfl

/-- An inline table that a dotted key made may have other entries, since it has no spelling of its own. -/
theorem Read.withEntries (h : x.Read source) (hv : x.isValue = true) (hd : x.isDotted = true) (hes : EntriesRead source es) :
    (x.withEntries es).Read source := by
  obtain ⟨⟨⟨hlabel, -, hspan, -⟩, htexts, -, -, -⟩, -⟩ := read_iff.mp h
  cases x with
  | inlineTable i f sub =>
    rw [ownTexts, forall_mem_append] at htexts
    refine read_value ⟨hlabel, hes.names, hspan, by rintro _ _ _ ⟨⟩⟩ ?_ (fun hframe => ?_) (forall_mem_map.mpr hes.isValue)
      (forall_mem_map.mpr hes.items)
    · exact forall_mem_append.mpr ⟨htexts.1, forall_mem_flatMap.mpr hes.texts⟩
    · simp [isFrame, withEntries, isDotted] at hframe hd
      cases hd.symm.trans hframe.2
  | table i f es => cases hv
  | arrayOfTables i ts => cases hv
  | _ => cases hd

end Item

theorem EntriesRead.append (h : EntriesRead source es) (habsent : e.name ∉ es.map Entry.name)
    (htexts : ∀ t ∈ entryTexts e, t.In source) (hv : e.item.isValue = true) (hitem : e.item.Read source) :
    EntriesRead source (es ++ [e]) where
  names := by
    rw [map_append]
    exact concat_eq_append ▸ Nodup.concat habsent h.names
  texts := forall_mem_append.mpr ⟨h.texts, forall_mem_singleton.mpr htexts⟩
  isValue := forall_mem_append.mpr ⟨h.isValue, forall_mem_singleton.mpr hv⟩
  items := forall_mem_append.mpr ⟨h.items, forall_mem_singleton.mpr hitem⟩

/-! ## Values -/

theorem read_dottedInlineTable : dottedInlineTable.Read source :=
  read_value ⟨rfl, nodup_nil, fun _ _ => rfl, nofun⟩ (forall_mem_singleton.mpr SpanText.in_empty) nofun nofun
    nofun

theorem DottedRun.read {leaf : Entry Item} (h : DottedRun dottedInlineTable leaf ks es es')
    (hleaf : leaf.item.Read source) (hv : leaf.item.isValue = true) (htexts : ∀ t ∈ entryTexts leaf, t.In source)
    (hkeys : ∀ k ∈ ks, ∀ t ∈ k.texts, t.In source) (hes : EntriesRead source es) : EntriesRead source es' := by
  induction h with
  | leaf absent => exact hes.append absent htexts hv hleaf
  | @make k ks es sub absent rest ih =>
    rw [forall_mem_cons] at hkeys
    exact hes.append absent (fun t ht => hkeys.1 t (texts_bare ht)) rfl
      (read_dottedInlineTable.withEntries rfl rfl (ih hkeys.2 .nil))
  | @enter k ks pre post sub e name dotted rest ih =>
    rw [forall_mem_cons] at hkeys
    obtain ⟨hnames, hown, hisValue, hitems⟩ := hes
    simp only [forall_mem_append, forall_mem_cons] at hown hisValue hitems
    have hsub := ih hkeys.2 (hitems.2.1.entriesRead hisValue.2.1)
    constructor
    · simpa [Entry.name] using hnames
    all_goals simp only [forall_mem_append, forall_mem_cons]
    · exact hown
    · exact ⟨hisValue.1, (isValue_withEntries ..).trans hisValue.2.1, hisValue.2.2⟩
    · exact ⟨hitems.1, hitems.2.1.withEntries hisValue.2.1 dotted hsub, hitems.2.2⟩

/-- A value was read between two places, with everything in it. -/
def ReadsValue (source : List Char) (s : Numbered) (v : Item) (s' : Numbered) : Prop :=
  s.cursor.On source → KeptText source .nothing s v s' ∧ v.Read source

variable {inner : Numbered → ScannedValue} {s s' : Numbered} {v : Item}

/-- The item of an entry, with the text around it. -/
theorem ReadsValue.withAfter {c₂ c₄ : Cursor} (hread : ReadsValue source ⟨c₂.skipBlanks, n⟩ v s') (hc₂ : c₂.On source)
    (h₄ : s'.cursor.Reaches c₄) : ∃ w, Verbatim.withAfter (.between s'.cursor.pos c₄.pos)
      (v.withDecor ⟨some (.between c₂.pos c₂.skipBlanks.pos), none⟩) = w ∧ w.isValue = true ∧ w.isDotted = false ∧ w.Read source := by
  have hu := c₂.reaches_skipBlanks
  obtain ⟨hkept, hv⟩ := hread (hu.on hc₂)
  refine ⟨_, withAfter_withDecor hkept.isValue _ _, by simpa using hkept.isValue, by simpa using hkept.notDotted,
    hv.withDecor hkept.isValue ?_⟩
  simp only [Decor.texts, Option.toList_some, forall_mem_append, forall_mem_singleton]
  exact ⟨SpanText.in_between hc₂ hu, SpanText.in_between ((hu.trans hkept.reaches).on hc₂) h₄⟩

theorem entryTexts_dottedPathOf (path : List Key) (leaf : Key) (position : Option Int) (newline : Option String) :
    entryTexts ⟨leaf, v, dottedPathOf path, position, newline⟩ = (path ++ [leaf]).flatMap texts := by
  cases path <;> simp [entryTexts, dottedPathOf]

theorem ArrayRun.read (hinner : ∀ s v s', inner s = .ok (v, s') → ReadsValue source s v s') {comma last : Bool}
    (h : ArrayRun inner comma s vs trailing last s') (hs : s.cursor.On source) :
    (∀ v ∈ vs, v.isValue = true ∧ v.Read source) ∧ trailing.In source := by
  -- an element with the text around it
  have helement : ∀ {s s₂ : Numbered} {v w : Item}, s.cursor.On source →
      inner { s with cursor := s.cursor.skipTrivia } = .ok (v, s₂) →
      placedElement s.cursor.pos s.cursor.skipTrivia.pos s₂.cursor.pos s₂.cursor.skipTrivia.pos v = w →
      s₂.cursor.skipTrivia.On source ∧ w.isValue = true ∧ w.Read source := by
    rintro s s₂ v _ hs hvalue rfl
    have h₁ := s.cursor.reaches_skipTrivia
    have h₃ := s₂.cursor.reaches_skipTrivia
    obtain ⟨hkept, hv⟩ := hinner _ _ _ hvalue (h₁.on hs)
    have hs₂ := (h₁.trans hkept.reaches).on hs
    refine ⟨h₃.on hs₂, by simpa [placedElement] using hkept.isValue, hv.withDecor hkept.isValue ?_⟩
    simp only [Decor.texts, Option.toList_some, forall_mem_append, forall_mem_singleton]
    exact ⟨SpanText.in_between hs h₁, SpanText.in_between hs₂ h₃⟩
  induction h with
  | @close comma s hbracket => exact ⟨forall_mem_nil _, SpanText.in_between hs s.cursor.reaches_skipTrivia⟩
  | last hno hvalue hbracket => exact ⟨forall_mem_singleton.mpr (helement hs hvalue rfl).2, SpanText.in_empty⟩
  | more hno hvalue hcomma hrest ih =>
    obtain ⟨hs₂, hv⟩ := helement hs hvalue rfl
    obtain ⟨hvs, htrailing⟩ := ih ((spells_next hcomma).on hs₂)
    exact ⟨forall_mem_cons.mpr ⟨hv, hvs⟩, htrailing⟩

theorem InlineRun.read (hinner : ∀ s v s', inner s = .ok (v, s') → ReadsValue source s v s') (h : InlineRun inner es s es' s')
    (hs : s.cursor.On source) (hes : EntriesRead source es) (hdotting : Dotting es) : EntriesRead source es' := by
  have hentry : ∀ {es es' s s'}, s.cursor.On source → Dotting es → EntriesRead source es →
      inlineEntry inner es s = .ok (es', s') → s'.cursor.On source ∧ Dotting es' ∧ EntriesRead source es' := by
    intro es es' s s' hs hdotting hes h
    obtain ⟨path, leaf, c₁, c₂, w, s₃, hkeys, hequals, hw, hinsert, rfl⟩ := inlineEntry_eq_ok h
    have hc₂ := (spells_expectChar hequals).on (hkeys.reaches.on hs)
    have hs₃ := ((hinner _ _ _ hw) (c₂.reaches_skipBlanks.on hc₂)).1.reaches.on (c₂.reaches_skipBlanks.on hc₂)
    obtain ⟨v, hv', hvalue, hd, hv⟩ := (hinner _ _ _ hw).withAfter hc₂ s₃.cursor.reaches_skipBlanks
    rw [hv'] at hinsert
    have hrun := insertDotted_run hdotting hinsert
    have htexts := hkeys.texts hs (.refl _) rfl
    refine ⟨s₃.cursor.reaches_skipBlanks.on hs₃, hrun.dotting isDottedTable_dottedInlineTable hd rfl hdotting,
      hrun.read hv hvalue ?_ (fun k hk => htexts k (mem_append_left _ hk)) hes⟩
    rw [entryTexts_dottedPathOf]
    exact forall_mem_flatMap.mpr htexts
  induction h with
  | last h _ => exact (hentry hs hdotting hes h).2.2
  | more h hcomma _ ih =>
    obtain ⟨hs', hdotting', hes'⟩ := hentry hs hdotting hes h
    exact ih ((spells_next hcomma).on hs') hes' hdotting'

/-- What makes a value that was read: it is spelled in its place, and its members were read. -/
theorem KeptText.read (h : KeptText source .nothing s v s') (hregular : v.IsRegular) (htexts : ∀ t ∈ v.ownTexts, t.In source)
    (hvalues : ∀ z ∈ v.children, z.isValue = true) (hmembers : ∀ z ∈ v.children, z.Read source) : v.Read source := by
  refine read_value hregular htexts (fun _ => ⟨_, h.span, ?_⟩) hvalues hmembers
  obtain ⟨t, ht, hrepr⟩ := h.written
  have hrepr := hrepr source trivial
  rw [Exchange.nothing, sites_nothing] at ht
  rwa [Exchange.nothing, exchanged_nothing, ht.eq_slice] at hrepr

theorem valueItem_read {levels depth : Nat} (h : valueItem limit levels depth s = .ok (v, s')) :
    ReadsValue source s v s' := by
  refine valueItem_induction (P := ReadsValue source) ?_ ?_ ?_ ?_ h
  · intro s d value hend hvalue hs
    have hkept : KeptText source .nothing s _ _ := keptText_scalar hend hvalue
    refine ⟨hkept, hkept.read ⟨rfl, nodup_nil, nofun, nofun⟩ ?_ nofun nofun⟩
    exact forall_mem_singleton.mpr (SpanText.in_between hs hend.reaches)
  · intro inner s vs trailing comma d hinner hbracket hrun hs
    have hkept := keptText_array (r := .nothing) (fun s v s' hv hs => (hinner s v s' hv hs).1) hs hbracket hrun
    obtain ⟨hvs, htrailing⟩ := hrun.read hinner ((spells_next hbracket).on hs)
    refine ⟨hkept, hkept.read ⟨rfl, nodup_nil, nofun, ?_⟩ (forall_mem_singleton.mpr htrailing)
      (fun v hv => (hvs v hv).1) fun v hv => (hvs v hv).2⟩
    rintro _ _ _ ⟨⟩
    exact ⟨rfl, hrun.closes.1, hrun.closes.2⟩
  · intro s hbrace hclose hs
    have hkept := keptText_empty (r := .nothing) hs hbrace hclose
    have hpreamble := SpanText.in_between ((spells_next hbrace).on hs) s.cursor.next.reaches_skipBlanks
    exact ⟨hkept, hkept.read ⟨rfl, nodup_nil, nofun, nofun⟩ (forall_mem_singleton.mpr hpreamble) nofun nofun⟩
  · intro inner s es d hinner hbrace hrun hs
    have hkept := keptText_inlineTable (r := .nothing) (fun s v s' hv hs => (hinner s v s' hv hs).1) hs hbrace hrun
    have hes := hrun.read hinner ((spells_next hbrace).on hs) .nil .nil
    refine ⟨hkept, hkept.read ⟨rfl, hes.names, nofun, nofun⟩ ?_ (forall_mem_map.mpr hes.isValue)
      (forall_mem_map.mpr hes.items)⟩
    exact forall_mem_cons.mpr ⟨SpanText.in_empty, forall_mem_flatMap.mpr hes.texts⟩

/-! ## Trees -/

/-- What every line of a text gives to the tree: texts that refer to the text, values that were read, and headers that stand in
their places. -/
def readLaw (source : List Char) : Law where
  info i := i.label = 0
  form _ isArray i f := (∀ t ∈ f.decor.texts ++ (f.headerKeys.getD []).flatMap texts, t.In source) ∧
    f.Spelled source isArray i
  line _ e := (∀ t ∈ entryTexts e, t.In source) ∧ e.item.Read source ∧ e.item.isDotted = false
  member k := ∀ t ∈ k.texts, t.In source
  info_read := label_read
  form_implied _ := ⟨nofun, nofun⟩
  form_dotted _ := ⟨nofun, nofun⟩
  plain _ _ h := h.2.2

theorem readLaw_admits (hs : s.cursor.On source) (h : lineAt limit s = .ok (l, s')) : (readLaw source).Admits l := by
  have h₀ := s.cursor.reaches_skipTrivia
  rcases lineAt_cases h with ⟨hbracket, h⟩ | ⟨-, h⟩
  · obtain ⟨path, leaf, c₁, c₂, c₄, newline, c₆, isArray, hopen, hkeys, hclose, -, rfl, -⟩ := headerLine_spells hbracket h
    have hc₁ := hopen.on (h₀.on hs)
    have hc₄ := hclose.on (hkeys.reaches.on hc₁)
    have htexts := hkeys.texts hc₁ (.refl _) rfl
    refine ⟨⟨?_, ?_⟩, fun k hk t ht => htexts k hk t (texts_bare ht)⟩
    · simp only [Header.form, Decor.texts, Option.toList_some, Option.getD_some, forall_mem_append, forall_mem_singleton]
      exact ⟨⟨SpanText.in_between hs h₀, SpanText.in_between hc₄ (c₄.reaches_skipBlanks.trans (reaches_skipComment _))⟩,
        forall_mem_flatMap.mpr htexts⟩
    · rintro _ ⟨⟩
      obtain ⟨t, ht, htext⟩ := hkeys.text (fun _ => []) hc₁ (.refl _) rfl
      obtain ⟨u, hu⟩ := hkeys.reaches
      refine ⟨_, rfl, ?_⟩
      rw [((hopen.trans hu).trans hclose).slice_eq (h₀.on hs), Header.keys, htext, ht.eq_slice, hu.slice_eq hc₁]
      simp only [← ofList_openingBrackets, ← ofList_closingBrackets, joinAll, join_ok, String.ofList_append,
        String.append_assoc, String.append_empty]
  · obtain ⟨path, leaf, c₁, c₂, w, s₃, newline, c₅, hkeys, hequals, hw, -, rfl, -⟩ := entryLine_eq_ok h
    have hc₂ := (spells_expectChar hequals).on (hkeys.reaches.on (h₀.on hs))
    obtain ⟨v, hv', -, hd, hv⟩ := (valueItem_read hw).withAfter hc₂
      (s₃.cursor.reaches_skipBlanks.trans (reaches_skipComment _))
    have htexts := hkeys.texts hs h₀ rfl
    rw [hv']
    refine ⟨⟨?_, hv, hd⟩, fun k hk t ht => htexts k (mem_append_left _ hk) t (texts_bare ht)⟩
    exact (entryTexts_dottedPathOf ..).symm ▸ forall_mem_flatMap.mpr htexts

/-- The tables of a lawful tree were read. -/
theorem Law.Holds.isRead (h : (readLaw source).Holds path dotted es) (hbuilt : Built es) (hlabel : i.label = 0)
    (hown : ∀ t ∈ f.decor.texts ++ (f.headerKeys.getD []).flatMap texts, t.In source) :
    (table i f es).IsRead source := by
  refine ⟨⟨hlabel, hbuilt.dotting.names, nofun, nofun⟩, forall_mem_append.mpr ⟨hown, ?_⟩, nofun, nofun, fun hz => ?_⟩
  · refine forall_mem_flatMap.mpr fun e he => ?_
    have hcovers := (Law.holds_iff.mp h e he).entry
    cases hv : e.item.isValue with
    | true => exact (hcovers.line hv).1
    | false =>
      obtain ⟨hplain, hkey, -⟩ := hcovers.member hv
      rw [hplain]
      exact hkey
  · obtain ⟨e, he, heq⟩ := mem_map.mp hz
    have htables := (Law.holds_iff.mp h e he).tables
    rw [heq] at htables
    exact (htables _ _ _ .self).2.2

section

variable (h : readTree limit source = .ok (root, trailing))

include h

/-- In the tree of a text, every item was read. -/
theorem readTree_read : root.Read source := by
  obtain ⟨hroot, hbuilt, hholds⟩ := Law.holds_readTree (L := readLaw source) (fun s s' l hs hline => readLaw_admits hs hline) h
  rw [hroot]
  refine read_iff.mpr ⟨hholds.isRead hbuilt rfl nofun, forall_mem_map.mpr fun e he y hy => ?_⟩
  refine hholds.forall_within (Q := Item.IsRead source) ?_ ?_ ?_ hbuilt e he y hy
  · exact fun dotted e hline => hline.2.1
  · exact fun i path isArray dotted f es hlabel hform hes hbuilt => hes.isRead hbuilt hlabel hform.1
  · intro i ts hlabel hforms _
    exact ⟨⟨hlabel, nodup_nil, nofun, nofun⟩, nofun, nofun, nofun, fun hz => (hforms _ _ _ hz).choose_spec.2⟩

theorem readTree_regular : root.Regular :=
  fun y hy => (readTree_read h y hy).toIsRegular

theorem readTree_unlabelled : root.Unlabelled :=
  fun y hy => (readTree_read h y hy).label

end

/-- All that stands in a value of the tree is a value. -/
def Item.HoldsValues (x : Item) : Prop := ∀ y z : Item, y.Within x → y.isValue = true → z.Within y → z.isValue = true

theorem Item.HoldsValues.isValue_eq_false {y : Item} (h : x.HoldsValues) (hy : y.Within x) (hv : y.isValue = false) :
    x.isValue = false :=
  Bool.eq_false_iff.mpr fun hx => nomatch hv.symm.trans (h x y .self hx hy)

theorem readTree_holdsValues (h : readTree limit source = .ok (root, trailing)) : root.HoldsValues := by
  intro y z hy hv hz
  induction hz with
  | self => exact hv
  | child hz _ ih => exact ih (.trans (.child hz .self) hy) ((readTree_read h _ hy).members hv _ hz)

/-! ## Where values and headers stand -/

/-- **The span of a value is where it is spelled, and the span of a header is where that stands.** Every value of a tree that
was read has a span, but for the inline tables that dotted keys made, and its spelling is what the span refers to. A header
stands with its brackets, two for the elements of an array of tables, where its table has its span. -/
theorem readTree_spelled (h : readTree limit source = .ok (root, trailing)) {y : Item} (hy : y.Within root) :
    (y.isValue = true → (y.info.span.isSome = true ↔ y.isDotted = false) ∧
      ∀ span ∈ y.info.span, valueRepr (some source) y = .ok (String.ofList (slice source span))) ∧
    ∀ i f es ks, Item.table i f es ∈ y.children → f.headerKeys = some ks →
      ∃ span path, i.span = some span ∧ keyPathText (some source) "" "" ks = .ok path ∧
        String.ofList (slice source span) = (if y.isArrayOfTables then "[[" else "[") ++ path ++
          (if y.isArrayOfTables then "]]" else "]") := by
  obtain ⟨⟨-, -, hnoSpan, -⟩, -, -, hspelled, hheaders⟩ := readTree_read h y hy
  refine ⟨fun hv => ?_, fun i f es ks hz hks => ?_⟩
  · cases hd : y.isDotted with
    | true => simp [hnoSpan hv hd]
    | false =>
      obtain ⟨span, hspan, hrepr⟩ := hspelled (by simp [Item.isFrame, hv, hd])
      simp only [hspan, Option.isSome_some, Option.mem_def, Option.some.injEq, forall_eq', hrepr, and_self]
  · obtain ⟨span, hspan, htext⟩ := hheaders hz ks hks
    obtain ⟨path, hpath⟩ : ∃ path, keyPathText (some source) "" "" ks = .ok path := by
      cases hpath : keyPathText (some source) "" "" ks with
      | ok path => exact ⟨path, rfl⟩
      | error e => simp [joinAll, hpath, join] at htext
    rw [hpath] at htext
    refine ⟨span, path, hspan, hpath, ?_⟩
    simpa [joinAll, String.append_assoc] using htext.symm

/-- An array in an element of an array of tables. -/
theorem readTree_spelled_array : ∃ root trailing y, readTree 9 "[[a]]\nx = [\x7bb.c = 2\x7d]".toList = .ok (root, trailing) ∧
    y.Within root ∧ y.isValue = true ∧ y.info.span = some ⟨10, 21⟩ ∧
    valueRepr (some "[[a]]\nx = [\x7bb.c = 2\x7d]".toList) y = .ok "[\x7bb.c = 2\x7d]" := by
  have hrun : (readTree 9 "[[a]]\nx = [\x7bb.c = 2\x7d]".toList).toOption.map (fun r =>
      ((r.1.children.flatMap Item.children).flatMap Item.children).map fun y => (y.isValue, y.info.span)) =
      some [(true, some ⟨10, 21⟩)] := by decide +kernel
  rcases hread : readTree 9 "[[a]]\nx = [\x7bb.c = 2\x7d]".toList with f | ⟨root, trailing⟩
  · rw [hread] at hrun
    cases hrun
  · rw [hread] at hrun
    obtain ⟨y, hy, hpair⟩ := map_eq_singleton_iff.mp (Option.some.inj hrun)
    obtain ⟨hv, hspan⟩ := Prod.mk.inj hpair
    have hmem : y ∈ (root.children.flatMap Item.children).flatMap Item.children := hy ▸ mem_singleton.mpr rfl
    obtain ⟨z, hz, hyz⟩ := mem_flatMap.mp hmem
    obtain ⟨w, hw, hzw⟩ := mem_flatMap.mp hz
    have hwithin : y.Within root := .child hw (.child hzw (.child hyz .self))
    exact ⟨root, trailing, y, rfl, hwithin, hv, hspan, ((readTree_spelled hread hwithin).1 hv).2 ⟨10, 21⟩ hspan⟩

/-! ## The source is tiled -/

theorem readTree_trailing (h : readTree limit source = .ok (root, trailing)) : trailing.In source := by
  obtain ⟨ls, hrun, -⟩ := readTree_eq_ok h
  obtain ⟨c, d, -, hc, hcd, -, rfl, -⟩ := hrun.text .nothing (start_on source)
  exact SpanText.in_between hc hcd

theorem length_slice (h : b ≤ text.length) : (slice text ⟨a, b⟩).length = b - a := by
  simp only [slice, length_take, length_drop]
  omega

theorem slice_append_right (u : List Char) (b : Nat) (h : t.length ≤ a) :
    slice (t ++ u) ⟨a, b⟩ = slice u ⟨a - t.length, b - t.length⟩ := by
  have hlength : b - t.length - (a - t.length) = b - a := by omega
  rw [slice, slice, drop_append, drop_eq_nil_of_le h, nil_append, hlength]

/-- Where spans have other texts of the same lengths, each of these stands in its place. -/
theorem slice_spliced (h : Ascending a b refs) (hb : b ≤ source.length)
    (hspell : ∀ r ∈ refs, (spell r).length = r.stop - r.start) :
    ∀ r ∈ refs, slice (spliced source spell a b refs) ⟨r.start - a, r.stop - a⟩ = spell r := by
  induction refs generalizing a with
  | nil => exact forall_mem_nil _
  | cons r refs ih =>
    obtain ⟨hstart, hlt, hrest⟩ := h
    rw [forall_mem_cons] at hspell ⊢
    have hle := hrest.le
    have hbefore : (slice source ⟨a, r.start⟩).length = r.start - a := length_slice (by omega)
    refine ⟨?_, fun u hu => ?_⟩
    · have hlength : r.stop - a - (r.start - a) = (spell r).length := by omega
      rw [spliced, append_assoc, slice_append_right _ _ (Nat.le_of_eq hbefore), hbefore, hlength, Nat.sub_self]
      simp [slice]
    · have hu' := hrest.le_start u hu
      have hlength : (slice source ⟨a, r.start⟩ ++ spell r).length = r.stop - a := by
        rw [length_append]
        omega
      have hstart : u.start - a - (r.stop - a) = u.start - r.stop := by omega
      have hstop : u.stop - a - (r.stop - a) = u.stop - r.stop := by omega
      rw [spliced, slice_append_right _ _ (by omega), hlength, hstart, hstop]
      exact ih hrest hspell.2 u hu

/-- **References tile the source.** Every reference that is collected from a tree leads to something in the source. What is
written of the snapshot depends on the source at references one behind the other only, and there each stands at its own place:
over another source of the same length just these pieces differ. -/
theorem readTree_tiled (h : readTree limit source = .ok (root, trailing)) :
    (∀ span ∈ root.spans (some trailing), span.start < span.stop ∧ span.stop ≤ source.length) ∧
    ∃ refs, Ascending 0 source.length refs ∧ ∀ text : List Char, text.length = source.length → ∀ mode layout,
      ∃ out, Snapshot.render layout ⟨root.freeze true, trailing, String.ofList text, mode⟩ = .ok (String.ofList out) ∧
        out = spliced source (slice text) 0 source.length refs ∧ ∀ ref ∈ refs, slice out ref = slice text ref := by
  constructor
  · intro span hspan
    rcases Item.ownTexts_of_spans hspan with ⟨y, hy, ht⟩ | rfl
    · exact (readTree_read h y hy).texts _ ht span rfl
    · exact readTree_trailing h span rfl
  · obtain ⟨t, ht, hrender⟩ := readTree_exchanged .nothing h
    rw [Exchange.nothing, Item.sites_nothing] at ht
    obtain ⟨refs, hrefs, htext⟩ := ht.refs
    refine ⟨refs, hrefs, fun text hlength mode layout => ⟨_, ?_, rfl, ?_⟩⟩
    · have hrender := hrender text trivial layout
      rw [Exchange.nothing, Item.exchanged_nothing, htext] at hrender
      rw [Snapshot.render, String.toList_ofList, renderTree_freeze, hrender]
    · have hlengths : ∀ r ∈ refs, (slice text r).length = r.stop - r.start := fun r hr =>
        length_slice (hlength ▸ hrefs.stop_le r hr)
      simpa using slice_spliced hrefs (Nat.le_refl _) hlengths

/-- A text with a dotted key, a comment and no terminator at its end. -/
theorem readTree_tiled_dotted : ∃ root trailing, readTree 9 "a.b = 1 # c\n# d".toList = .ok (root, trailing) ∧
    root.spans (some trailing) = [⟨0, 1⟩, ⟨0, 1⟩, ⟨2, 3⟩, ⟨3, 4⟩, ⟨6, 7⟩, ⟨5, 6⟩, ⟨7, 11⟩, ⟨12, 15⟩] ∧
    (∀ span ∈ root.spans (some trailing), span.start < span.stop ∧ span.stop ≤ 15) ∧
    ∃ refs, Ascending 0 15 refs ∧ ∀ text : List Char, text.length = 15 → ∀ mode layout,
      ∃ out, Snapshot.render layout ⟨root.freeze true, trailing, String.ofList text, mode⟩ = .ok (String.ofList out) ∧
        out = spliced "a.b = 1 # c\n# d".toList (slice text) 0 15 refs ∧ ∀ ref ∈ refs, slice out ref = slice text ref := by
  have hrun : (readTree 9 "a.b = 1 # c\n# d".toList).toOption.map (fun r => r.1.spans (some r.2)) =
      some [⟨0, 1⟩, ⟨0, 1⟩, ⟨2, 3⟩, ⟨3, 4⟩, ⟨6, 7⟩, ⟨5, 6⟩, ⟨7, 11⟩, ⟨12, 15⟩] := by decide +kernel
  rcases hread : readTree 9 "a.b = 1 # c\n# d".toList with f | ⟨root, trailing⟩
  · rw [hread] at hrun
    cases hrun
  · rw [hread] at hrun
    exact ⟨root, trailing, rfl, Option.some.inj hrun, readTree_tiled hread⟩

end Verbatim

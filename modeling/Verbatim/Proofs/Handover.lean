import Verbatim.Proofs.OnePlace
import Verbatim.Proofs.RecordedOrder

/-!
# Documents that were read can be read back

A document is made of a snapshot by rewording its tree: the references become texts, and nothing is remembered that matters to
the text. The tree of the snapshot can be read back, and rewording keeps that.
-/

namespace Verbatim

open List DataReader Render Item

/-! ## Shape -/

section Shape

variable {x : Item} {es sub : List (Entry Item)} {o : Owner} {r : Info → Info} {f : SpanText → SpanText}

theorem names_rewordedEntry (es : List (Entry Item)) : (es.map (rewordedEntry r f)).map Entry.name = es.map Entry.name := by
  rw [map_map]
  rfl

theorem Item.time?_reworded (x : Item) : (x.reworded r f).time? = x.time? := by
  cases x <;> rfl

theorem Item.times_reworded (x : Item) : (x.reworded r f).times = x.times := by
  induction x using inductionOn with
  | table i t es ih =>
    rw [reworded, rewordedEntries_eq, times_table, times_table, timesIn, timesIn, flatMap_map]
    exact congrArg _ (flatMap_congr ih)
  | arrayOfTables i ts ih =>
    rw [reworded, rewordedEach_eq, times_arrayOfTables, times_arrayOfTables, flatMap_map]
    exact flatMap_congr ih
  | _ => rfl

/-- The numbers of the headers stay. -/
theorem timesIn_reworded (es : List (Entry Item)) : timesIn (es.map (rewordedEntry r f)) = timesIn es := by
  rw [timesIn, timesIn, flatMap_map]
  exact flatMap_congr fun e _ => times_reworded e.item

theorem Owner.enter_reworded (o : Owner) (e : Entry Item) : o.enter (rewordedEntry r f e) = o.enter e := by
  simp only [Owner.enter, owner, rewordedEntry, isDotted_reworded, time?_reworded]
  rfl

theorem BodyPath.reworded (h : BodyPath es q d) : BodyPath (es.map (rewordedEntry r f)) q (rewordedEntry r f d) := by
  induction h with
  | value mem isValue plain =>
    exact .value (mem_map_of_mem mem) ((isValue_reworded ..).trans isValue) ((isDotted_reworded ..).trans plain)
  | @dotted es e d q mem isDotted below ih =>
    refine .dotted (e := rewordedEntry r f e) (mem_map_of_mem mem) ((isDotted_reworded ..).trans isDotted) ?_
    rw [rewordedEntry, entries_reworded]
    exact ih

theorem Item.splits_reworded : (x.reworded r f).Splits sub ↔ ∃ es, x.Splits es ∧ sub = es.map (rewordedEntry r f) := by
  cases x with
  | table i t es =>
    rw [reworded, rewordedEntries_eq]
    constructor
    · rintro ⟨⟩
      exact ⟨es, .table, rfl⟩
    · rintro ⟨_, ⟨⟩, rfl⟩
      exact .table
  | inlineTable i t es =>
    rw [reworded, rewordedEntries_eq]
    constructor
    · rintro (_ | ⟨dotted, noHeader⟩)
      exact ⟨es, .inlineTable dotted (timesIn_reworded es ▸ noHeader), rfl⟩
    · rintro ⟨_, (_ | ⟨dotted, noHeader⟩), rfl⟩
      exact .inlineTable dotted ((timesIn_reworded es).trans noHeader)
  | _ =>
    rw [reworded]
    constructor
    · rintro ⟨⟩
    · rintro ⟨_, ⟨⟩, -⟩

theorem Item.leads_of_reworded (h : (x.reworded r f).Leads sub) : ∃ es, x.Leads es ∧ sub = es.map (rewordedEntry r f) := by
  generalize hy : x.reworded r f = y at h
  cases h with
  | splits h =>
    obtain ⟨es, h, hes⟩ := splits_reworded.mp (hy ▸ h)
    exact ⟨es, .splits h, hes⟩
  | element mem h =>
    cases x with
    | arrayOfTables i ts =>
      rw [reworded, rewordedEach_eq] at hy
      cases hy
      obtain ⟨t, ht, rfl⟩ := mem_map.mp mem
      obtain ⟨es, h, hes⟩ := splits_reworded.mp h
      exact ⟨es, .element ht h, hes⟩
    | _ => cases hy

/-- Names stay distinct. -/
theorem Orderly.reworded (h : Orderly es) : Orderly (es.map (rewordedEntry r f)) := by
  induction h with
  | @intro es names splits below ih =>
    refine .intro (names_rewordedEntry es ▸ names) ?_ ?_ <;> rw [forall_mem_map] <;> intro e he
    · intro hd
      exact splits_reworded.mpr ⟨_, splits e he ((isDotted_reworded ..).symm.trans hd), entries_reworded ..⟩
    · intro sub hsub
      obtain ⟨sub, hlead, rfl⟩ := leads_of_reworded hsub
      exact ih e he sub hlead

theorem Separate.reworded (h : Separate o es) : Separate o (es.map (rewordedEntry r f)) where
  nodup := timesIn_reworded es ▸ h.nodup
  owner := timesIn_reworded es ▸ h.owner

/-- The numbers of the headers fit the tree as before. -/
theorem Fits.reworded (h : Fits o e) : Fits o (rewordedEntry r f e) := by
  induction h with
  | value isValue plain owned => exact .value ((isValue_reworded ..).trans isValue) ((isDotted_reworded ..).trans plain) owned
  | @table o e i g sub item dotted inhabited below ih =>
    refine .table (by rw [rewordedEntry, item, Item.reworded, rewordedEntries_eq]) ?_ ?_ ?_
    · simpa [rewordedEntry, times_reworded] using dotted
    · rcases inhabited with htimes | ⟨q, d, hq⟩
      · exact .inl (by rwa [rewordedEntry, times_reworded])
      · exact .inr ⟨q, _, hq.reworded⟩
    · rw [Owner.enter_reworded, forall_mem_map]
      exact ih
  | @arrayOfTables o e i ts item nonempty headed sorted elements ih =>
    refine .arrayOfTables (by rw [rewordedEntry, item, Item.reworded, rewordedEach_eq]) (by simpa using nonempty) ?_ ?_ ?_
    · simpa [time?_reworded, entries_reworded, timesIn_reworded] using headed
    · simpa [pairwise_map, times_reworded] using sorted
    · rw [forall_mem_map]
      intro t ht
      rw [Item.owner, time?_reworded, entries_reworded, forall_mem_map]
      exact ih t ht

end Shape

/-! ## Texts -/

section Texts

variable {path : List Key} {x : Item} {es : List (Entry Item)}

variable {r : Info → Info} {f : SpanText → SpanText} {source other : Option (List Char)} {lead tail P : List Char → Prop}
  {limit levels : Nat}

section

variable (hf : Resolves f source other)

include hf

theorem SpanText.Shows.reworded (h : t.Shows source P) : (f t).Shows other P := by
  obtain ⟨u, hu, hP⟩ := h
  exact ⟨u, (hf t).trans hu, hP⟩

/-- The same of a text that may be missing. -/
theorem SpanText.Shows.reworded_option {o : Option SpanText}
    (h : ∀ t ∈ o, t.Shows source P) : ∀ t ∈ o.map f, t.Shows other P := by
  intro t ht
  obtain ⟨u, hu, rfl⟩ := Option.map_eq_some_iff.mp ht
  exact (h u hu).reworded hf

theorem Decor.Legible.reworded {d : Decor} (h : d.Legible source lead tail) :
    (d.reworded f).Legible other lead tail :=
  ⟨SpanText.Shows.reworded_option hf h.before, SpanText.Shows.reworded_option hf h.after⟩

theorem Key.Legible.reworded {k : Key} (h : k.Legible source lead) :
    (k.reworded f).Legible other lead :=
  ⟨SpanText.Shows.reworded_option hf h.repr, SpanText.Shows.reworded_option hf h.before,
    SpanText.Shows.reworded_option hf h.after⟩

theorem PathLegible.reworded {ks : List Key} (h : PathLegible source lead ks) :
    PathLegible other lead (ks.map (Key.reworded f)) := by
  cases ks with
  | nil => trivial
  | cons k ks => exact ⟨h.1.reworded hf, forall_mem_map.mpr fun k' hk' => (h.2 k' hk').reworded hf⟩

end

theorem names_reworded (f : SpanText → SpanText) (ks : List Key) :
    (ks.map (Key.reworded f)).map Key.name = ks.map Key.name := by
  rw [map_map]
  rfl

/-- The names of a key path that may be missing. -/
private theorem names_reworded_option {p : Option (List Key)} (h : ∀ ks ∈ p, ks.map Key.name = path.map Key.name) :
    ∀ ks ∈ p.map fun ks => ks.map (Key.reworded f), ks.map Key.name = (path.map (Key.reworded f)).map Key.name := by
  intro ks hks
  obtain ⟨ks', hks', rfl⟩ := Option.map_eq_some_iff.mp hks
  rw [names_reworded, names_reworded, h ks' hks']

section

variable (hf : Resolves f source other)

include hf

theorem EntryLegible.reworded {e : Entry Item} (h : EntryLegible source lead path e) :
    EntryLegible other lead (path.map (Key.reworded f)) (rewordedEntry r f e) where
  keys := by
    rw [rewordedEntry, entryKeys_reworded]
    exact h.keys.reworded hf
  names := names_reworded_option h.names
  newline := h.newline

/-- The text around an item that may have none. -/
private theorem decor_reworded_option (h : ∀ d ∈ x.decor?, d.Legible source lead tail) :
    ∀ d ∈ (x.reworded r f).decor?, d.Legible other lead tail := by
  intro d hd
  cases x <;> cases hd <;> exact (h _ rfl).reworded hf

theorem LineLegible.reworded (h : LineLegible source lead tail path e) :
    LineLegible other lead tail (path.map (Key.reworded f)) (rewordedEntry r f e) :=
  ⟨h.toEntryLegible.reworded hf, decor_reworded_option hf h.decor⟩

theorem Render.HeaderLegible.reworded {g : TableForm} (h : HeaderLegible source path g) :
    HeaderLegible other (path.map (Key.reworded f))
      { g with decor := g.decor.reworded f, headerKeys := g.headerKeys.map fun ks => ks.map (Key.reworded f) } where
  nonempty := by simpa using h.nonempty
  keys := by
    have hkeys := h.keys.reworded hf
    cases hks : g.headerKeys <;> rw [hks] at hkeys <;> exact hkeys
  names := names_reworded_option h.names
  decor := h.decor.reworded hf
  newline := h.newline

theorem Scalar.Legible.reworded {s : Scalar} (h : s.Legible source) :
    Scalar.Legible other { s with repr := s.repr.map f, decor := s.decor.reworded f } := by
  rw [Scalar.Legible] at h ⊢
  dsimp only
  cases hs : s.repr with
  | none =>
    rw [hs] at h
    exact h
  | some t =>
    rw [hs] at h
    exact SpanText.Shows.reworded hf h

end

private theorem below_reworded (path : List Key) (e : Entry Item) :
    (rewordedEntry r f e).below (path.map (Key.reworded f)) = (e.below path).map fun ks => ks.map (Key.reworded f) := by
  rw [Entry.below, Entry.below, rewordedEntry, isDotted_reworded]
  split
  · rw [Option.map_some, map_append]
    rfl
  · rfl

private theorem InlineBody.reworded (hf : Resolves f source other) (h : InlineBody source path es) :
    InlineBody other (path.map (Key.reworded f)) (es.map (rewordedEntry r f)) where
  names := by
    rw [names_rewordedEntry]
    exact h.names
  keys := forall_mem_map.mpr fun k hk => (h.keys k hk).reworded hf
  lines := forall_mem_map.mpr fun e he => (h.lines e he).reworded hf

theorem ValueLegible.reworded (hf : Resolves f source other) {place : Option (List Key)}
    (h : ValueLegible source place limit levels x) :
    ValueLegible other (place.map fun ks => ks.map (Key.reworded f)) limit levels (x.reworded r f) := by
  induction h with
  | scalar spelling => exact .scalar (spelling.reworded hf)
  | array room decor trailing elements ih =>
    rw [Item.reworded, Item.rewordedEach_eq]
    refine .array (fun hne => room (by simpa using hne)) ?_ (trailing.reworded hf) (forall_mem_map.mpr ih)
    exact forall_mem_map.mpr fun x hx => decor_reworded_option hf (decor x hx)
  | inlineTable plain room preamble body members ih =>
    rw [Item.reworded, Item.rewordedEntries_eq]
    refine .inlineTable plain (fun hne => room (by simpa using hne)) (preamble.reworded hf) (body.reworded hf) ?_
    rw [forall_mem_map]
    intro e he
    have hbelow := below_reworded (r := r) (f := f) [] e
    rw [map_nil] at hbelow
    rw [hbelow]
    exact ih e he
  | dotted isDotted nonempty body members ih =>
    rw [Item.reworded, Item.rewordedEntries_eq]
    refine .dotted isDotted (by simpa using nonempty) (body.reworded hf) ?_
    rw [forall_mem_map]
    intro e he
    rw [below_reworded]
    exact ih e he

/-! ## Trees -/

private theorem hasTable_reworded (h : (x.reworded r f).HasTable j g sub) :
    ∃ i t es, x.HasTable i t es ∧ sub = es.map (rewordedEntry r f) ∧
      g = { t with decor := t.decor.reworded f, headerKeys := t.headerKeys.map fun ks => ks.map (Key.reworded f) } := by
  cases x with
  | table i t es =>
    rw [reworded, rewordedEntries_eq] at h
    cases h
    exact ⟨i, t, es, .self, rfl, rfl⟩
  | arrayOfTables i ts =>
    rw [reworded, rewordedEach_eq] at h
    cases h with
    | element hmem =>
      obtain ⟨t, ht, heq⟩ := mem_map.mp hmem
      cases t with
      | table i t es =>
        rw [reworded, rewordedEntries_eq] at heq
        cases heq
        exact ⟨i, t, es, .element ht, rfl, rfl⟩
      | _ => cases heq
  | _ => cases h

/-- A legible tree stays legible. -/
theorem LegibleEntry.reworded (hf : Resolves f source other) {dotted : List Key} (h : LegibleEntry source limit path dotted e) :
    LegibleEntry other limit (path.map (Key.reworded f)) (dotted.map (Key.reworded f)) (rewordedEntry r f e) := by
  induction h with
  | value line value => exact .value (line.reworded hf) (value.reworded hf)
  | @frame path dotted e notValue entry key tables below ih =>
    have hpath : ∀ ks : List Key, ks.map (Key.reworded f) ++ [(rewordedEntry r f e).key] = (ks ++ [e.key]).map (Key.reworded f) :=
      fun ks => by rw [map_append]; rfl
    refine .frame ((isValue_reworded ..).trans notValue) (entry.reworded hf) (key.reworded hf) (fun j g sub hx => ?_)
      fun j g sub hx => ?_
    · obtain ⟨i, t, sub, ht, rfl, rfl⟩ := hasTable_reworded hx
      rw [hpath]
      exact (tables i t sub ht).imp_left fun hheader hd => (hheader hd).reworded hf
    · obtain ⟨i, t, sub, ht, rfl, rfl⟩ := hasTable_reworded hx
      have hbelow := ih i t sub ht
      rw [hpath, hpath, forall_mem_map]
      cases hd : t.dotted <;> rw [hd] at hbelow <;> exact hbelow

/-- A tree that can be read back still can be with other texts that resolve alike. -/
theorem Rereadable.reworded (hf : Resolves f source other) (h : Rereadable source limit es) :
    Rereadable other limit (es.map (rewordedEntry r f)) where
  legible := forall_mem_map.mpr fun e he => (h.legible e he).reworded hf
  orderly := h.orderly.reworded
  separate := h.separate.reworded
  arranged := forall_mem_map.mpr fun e he => (h.arranged e he).reworded
  positive := timesIn_reworded es ▸ h.positive

end Texts

/-! ## Documents -/

/-- The root of a tree that can be read back. -/
inductive Item.Rereads (source : Option (List Char)) (limit : Nat) : Item → Prop where
  /-- A table without a header, written before all others. -/
  | root {i : Info} {f : TableForm} {es : List (Entry Item)} (first : f.position = some 0) (plain : f.dotted = false)
      (explicit : f.implicit = false) (entries : Rereadable source limit es) : Rereads source limit (.table i f es)

/-- The tree of a document that was read can be read back, and so can what follows its last line. -/
theorem Snapshot.rereadable (hvalidate : options.validate = true) (h : parse options src = .ok s) (other : Option (List Char)) :
    s.toDocument.root.stripped.Rereads other options.maxNesting ∧ s.toDocument.trailing.Shows other Tail := by
  obtain ⟨text, mode, root, trailing, -, hvalid, hread, rfl⟩ := parse_eq_ok h
  obtain ⟨data, hdata⟩ := validate_eq_ok (hvalid hvalidate)
  obtain ⟨hroot, hes, htrailing⟩ := readTree_rereadable hread hdata
  have hresolves := resolves_detach text other
  simp only [Snapshot.toDocument, String.toList_ofList]
  rw [freeze_eq_reworded, detach_eq_reworded, stripped, reworded_reworded, reworded_reworded, hroot,
    reworded, rewordedEntries_eq]
  exact ⟨.root rfl rfl rfl (hes.reworded hresolves), htrailing.reworded hresolves⟩

/-- A document whose tree can be read back is parsed again, with its data. -/
theorem Item.Rereads.parses {d : Document}
    (h : d.root.stripped.Rereads (d.source.map String.toList) options.maxNesting)
    (htrailing : d.trailing.Shows (d.source.map String.toList) Tail)
    (hnewline : IsNewline layout.newline.toList) (hseparator : Trivia layout.separator.toList) :
    ∃ text s, d.render layout = .ok text ∧ parse options (.text text) = .ok s ∧ Data.Same s.root.unwrap d.root.unwrap := by
  generalize hroot : d.root.stripped = root at h
  cases h with
  | @root i f es first plain explicit entries =>
    have hshows : ∀ t ∈ some d.trailing, t.Shows (d.source.map String.toList) Tail := by
      rintro t ⟨⟩
      exact htrailing
    obtain ⟨text, s, htext, hs, hsame⟩ := entries.parses hnewline hseparator i first hshows
    refine ⟨text, s, ?_, hs, ?_⟩
    · rw [Document.render, ← renderTree_stripped, hroot, htext]
    · rw [← unwrap_reworded (fun _ => {}) id d.root]
      rw [stripped] at hroot
      rw [hroot]
      exact hsame

end Verbatim

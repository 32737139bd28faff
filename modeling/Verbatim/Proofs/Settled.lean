import Verbatim.Proofs.Handover
import Verbatim.Proofs.InPlace

/-!
# Tables whose entries can be read back

Whether a tree can be read back is decided entry by entry: each entry must be legible, its names distinct and its headers in
order, where it stands. So an entry may be put in the place of another one, or behind all others, if it can stand there by
itself.
-/

namespace Verbatim

open List DataReader Render Item

variable {source : Option (List Char)} {limit : Nat} {path dotted : List Key} {o : Owner} {es sub sub' : List (Entry Item)}
  {e : Entry Item} {i : Info} {f : TableForm} {ts : List Item}

/-- The entries of a table can be read back. The first keys lead to the table from the root, the second ones through dotted
tables from the table in whose body its values stand, which is given as well. -/
structure Settled (source : Option (List Char)) (limit : Nat) (path dotted : List Key) (o : Owner) (es : List (Entry Item)) :
    Prop where
  /-- The keys that lead to the table. -/
  pathKeys : ∀ k ∈ path, k.Legible source Blanks
  /-- Those that lead to it through dotted tables. -/
  dottedKeys : ∀ k ∈ dotted, k.Legible source Blanks
  legible : Legible source limit path dotted es
  orderly : Orderly es
  arranged : Arranged o es

/-- A table of an array of tables can be read back. The keys lead to the array. -/
inductive SettledElement (source : Option (List Char)) (limit : Nat) (path : List Key) : Item → Prop where
  /-- A table with a header that comes before those below it. -/
  | intro {i : Info} {f : TableForm} {sub : List (Entry Item)} {p : Int} (time : f.time? = some p)
      (header : HeaderLegible source path f) (first : ∀ p' ∈ timesIn sub, p < p')
      (entries : Settled source limit path [] (some (p, [])) sub) : SettledElement source limit path (.table i f sub)

theorem Rereadable.settled (h : Rereadable source limit es) : Settled source limit [] [] home es :=
  ⟨forall_mem_nil _, forall_mem_nil _, h.legible, h.orderly, h.arranged⟩

theorem TableForm.isSome_position (h : f.time? = some p) : f.dotted = false ∧ f.position.isSome = true := by
  rw [TableForm.time?] at h
  split at h
  · cases h
  · next hplain =>
    rw [Bool.or_eq_true, not_or] at hplain
    exact ⟨Bool.eq_false_iff.mpr hplain.1, by rw [h]; rfl⟩

/-! ## Entries that are met -/

/-- An entry that fits is met by a header, or by a line if there is a body around it. -/
theorem Fits.marked (h : Fits o e) : e.item.times ≠ [] ∨ (o ≠ none ∧ ∃ q d, BodyPath [e] q d) := by
  cases h with
  | value isValue plain owned => exact .inr ⟨owned, _, _, .value (mem_singleton_self e) isValue plain⟩
  | table item dotted inhabited =>
    refine inhabited.imp_right fun ⟨q, d, hq⟩ => ⟨?_, q, d, hq⟩
    cases hd : e.item.isDotted with
    | true =>
      obtain ⟨b, hb, -⟩ := dotted (by rw [item] at hd; exact hd)
      exact Option.ne_none_iff_exists'.mpr ⟨b, hb⟩
    | false =>
      -- only a value is met by a line of its own
      obtain ⟨-, -, hv⟩ := hq.single_value hd
      rw [item] at hv
      cases hv
  | arrayOfTables item nonempty headed =>
    obtain ⟨t, ht⟩ := exists_mem_of_ne_nil _ nonempty
    obtain ⟨p, hp, -⟩ := headed t ht
    exact .inl (ne_nil_of_mem (times_of_element item ht p (time?_mem_times hp)))

/-- A table with a header or with entries is met. -/
theorem inhabited_of_ne_nil (hx : e.item = .table i f sub) (hsub : Arranged (o.enter e) sub)
    (hne : f.time? = none → sub ≠ []) : e.item.times ≠ [] ∨ ∃ q d, BodyPath [e] q d := by
  have htimes : e.item.times = f.time?.toList ++ timesIn sub := by rw [hx, times_table]
  cases htime : f.time? with
  | some p => exact .inl (by simp [htimes, htime])
  | none =>
    obtain ⟨d, hd⟩ := exists_mem_of_ne_nil sub (hne htime)
    rcases (hsub d hd).marked with h | ⟨ho, q, d', hq⟩
    · obtain ⟨p, hp⟩ := exists_mem_of_ne_nil _ h
      left
      rw [htimes]
      exact ne_nil_of_mem (mem_append_right _ (mem_timesIn.mpr ⟨d, hd, hp⟩))
    · -- the line stands in the body around the table, so a dotted key made the table
      have hdotted : e.item.isDotted = true := by
        cases hed : e.item.isDotted with
        | true => rfl
        | false =>
          rw [Owner.enter, hed, if_neg Bool.false_ne_true, hx, owner, time?, htime] at ho
          exact absurd rfl ho
      refine .inr ⟨e.name :: q, d', .dotted (mem_singleton_self e) hdotted ?_⟩
      rw [hx]
      exact hq.mono (by simpa [entries] using hd)

namespace Settled

/-! ## Entries by themselves -/

/-- Fewer entries. -/
theorem subset (h : Settled source limit path dotted o es) (hsub : ∀ d ∈ sub, d ∈ es)
    (hnames : (sub.map Entry.name).Nodup) : Settled source limit path dotted o sub where
  pathKeys := h.pathKeys
  dottedKeys := h.dottedKeys
  legible d hd := h.legible d (hsub d hd)
  orderly := .intro hnames (fun _ hd hdotted => h.orderly.splits (hsub _ hd) hdotted)
    fun _ hd _ hlead => h.orderly.lower (hsub _ hd) hlead
  arranged d hd := h.arranged d (hsub d hd)

theorem entry (h : Settled source limit path dotted o es) (he : e ∈ es) : Settled source limit path dotted o [e] :=
  h.subset (by simpa using he) (nodup_singleton _)

/-- Entries that can be read back one by one can be read back together if their names are distinct. -/
theorem of_entries (hpath : ∀ k ∈ path, k.Legible source Blanks) (hdotted : ∀ k ∈ dotted, k.Legible source Blanks)
    (hnames : (es.map Entry.name).Nodup) (hes : ∀ e ∈ es, Settled source limit path dotted o [e]) :
    Settled source limit path dotted o es where
  pathKeys := hpath
  dottedKeys := hdotted
  legible d hd := (hes d hd).legible d (mem_singleton_self d)
  orderly := .intro hnames (fun d hd hdotted => (hes d hd).orderly.splits (mem_singleton_self d) hdotted)
    fun d hd _ hlead => (hes d hd).orderly.lower (mem_singleton_self d) hlead
  arranged d hd := (hes d hd).arranged d (mem_singleton_self d)

/-- A further entry with a name of its own. -/
theorem append (h : Settled source limit path dotted o es) (hname : e.name ∉ es.map Entry.name)
    (he : Settled source limit path dotted o [e]) : Settled source limit path dotted o (es ++ [e]) := by
  refine of_entries h.pathKeys h.dottedKeys ?_ ?_
  · rw [map_append, map_singleton, ← concat_eq_append]
    exact h.orderly.names.concat hname
  · rw [forall_mem_append, forall_mem_singleton]
    exact ⟨fun d hd => h.entry hd, he⟩

/-- Another entry of the same name in the place of one. -/
theorem replace (h : Settled source limit path dotted o (pre ++ e :: post)) (hname : d.name = e.name)
    (hd : Settled source limit path dotted o [d]) : Settled source limit path dotted o (pre ++ d :: post) := by
  refine of_entries h.pathKeys h.dottedKeys ?_ ?_
  · have hnames := h.orderly.names
    rw [map_append, map_cons] at hnames ⊢
    rwa [hname]
  · rw [forall_mem_append, forall_mem_cons]
    exact ⟨fun c hc => h.entry (by simp [hc]), hd, fun c hc => h.entry (by simp [hc])⟩

section

variable (h : Settled source limit path dotted o es) (he : e ∈ es)

include h he

/-- Whatever an entry holds, a line could stand in its place. -/
theorem entryLegible : EntryLegible source Trivia dotted e := by
  cases h.legible e he with
  | value line => exact line.toEntryLegible
  | frame _ entry => exact entry

/-! ## Tables below -/

/-- The entries of a table among the entries. -/
theorem table (hx : e.item = .table i f sub) :
    Settled source limit (path ++ [e.key]) (if f.dotted then dotted ++ [e.key] else []) (o.enter e) sub := by
  have htable : e.item.HasTable i f sub := by
    rw [hx]
    exact .self
  obtain ⟨-, hkey⟩ := (h.legible e he).frames (by rw [hx]; rfl)
  have hkeys : ∀ ks : List Key, (∀ k ∈ ks, k.Legible source Blanks) → ∀ k ∈ ks ++ [e.key], k.Legible source Blanks := by
    intro ks hks
    rw [forall_mem_append, forall_mem_singleton]
    exact ⟨hks, hkey⟩
  refine ⟨hkeys path h.pathKeys, ?_, ((h.legible e he).tables htable).2.2, h.orderly.lower he (.splits (by rw [hx]; exact .table)), ?_⟩
  · split
    · exact hkeys dotted h.dottedKeys
    · exact forall_mem_nil _
  · have harranged := ((h.arranged e he).tables (by rw [hx]; rfl)).2
    rwa [hx] at harranged

/-- A table of an array of tables among the entries. -/
theorem element (hx : e.item = .arrayOfTables i ts) (ht : t ∈ ts) :
    SettledElement source limit (path ++ [e.key]) t := by
  obtain ⟨-, hheaded, -, helements⟩ := (h.arranged e he).elements hx
  obtain ⟨p, hp, hfirst⟩ := hheaded t ht
  obtain ⟨-, hkey⟩ := (h.legible e he).frames (by rw [hx]; rfl)
  cases t with
  | table j g sub =>
    have htable : e.item.HasTable j g sub := by
      rw [hx]
      exact .element ht
    obtain ⟨hplain, -⟩ := TableForm.isSome_position hp
    obtain ⟨hheaders, -, hlower⟩ := (h.legible e he).tables htable
    rw [hplain] at hlower
    refine .intro hp (hheaders hplain) hfirst ⟨?_, forall_mem_nil _, hlower, ?_, ?_⟩
    · rw [forall_mem_append, forall_mem_singleton]
      exact ⟨h.pathKeys, hkey⟩
    · exact h.orderly.lower he (by rw [hx]; exact .element ht .table)
    · have harranged := helements _ ht
      rw [owner, hp] at harranged
      exact harranged
  | _ => cases hp

end

end Settled

/-! ## Entries of each kind -/

section Kinds

variable (hpath : ∀ k ∈ path, k.Legible source Blanks) (hdotted : ∀ k ∈ dotted, k.Legible source Blanks)
  (hentry : EntryLegible source Trivia dotted e)

include hpath hdotted hentry

theorem settled_value (hdecor : ∀ d ∈ e.item.decor?, d.Legible source Blanks Tail)
    (hvalue : ValueLegible source none limit nestingLevels e.item) (ho : o ≠ none) :
    Settled source limit path dotted o [e] := by
  have hv := hvalue.isValue
  refine ⟨hpath, hdotted, forall_mem_singleton.mpr (.value ⟨hentry, hdecor⟩ hvalue), .intro (nodup_singleton _) ?_ ?_,
    forall_mem_singleton.mpr (.value hv hvalue.isDotted ho)⟩ <;> rw [forall_mem_singleton]
  · exact fun hno => Bool.noConfusion (hvalue.isDotted.symm.trans hno)
  · intro sub hsub
    have hd := hvalue.isDotted
    generalize e.item = x at hsub hv hd
    cases hsub with
    | splits hsplits =>
      cases hsplits with
      | table => cases hv
      | inlineTable dotted _ => exact Bool.noConfusion (hd.symm.trans dotted)
    | element => cases hv

variable (hkey : e.key.Legible source Blanks)

include hkey

/-- A table. If it has no header of its own, it has entries. -/
theorem settled_table (hx : e.item = .table i f sub) (hheader : f.dotted = false → HeaderLegible source (path ++ [e.key]) f)
    (hplaced : f.dotted = true ∨ f.implicit = true ∨ f.position.isSome = true)
    (hlater : f.dotted = true → ∃ b ∈ o, ∀ p ∈ timesIn sub, b.1 < p) (hne : f.time? = none → sub ≠ [])
    (hsub : Settled source limit (path ++ [e.key]) (if f.dotted then dotted ++ [e.key] else []) (o.enter e) sub) :
    Settled source limit path dotted o [e] := by
  have hv : e.item.isValue = false := by rw [hx]; rfl
  have htimes : e.item.times = f.time?.toList ++ timesIn sub := by rw [hx, times_table]
  have hself : ∀ {j : Info} {g : TableForm} {sub₁ : List (Entry Item)}, e.item.HasTable j g sub₁ → g = f ∧ sub₁ = sub := by
    intro j g sub₁ h
    rw [hx] at h
    cases h
    exact ⟨rfl, rfl⟩
  refine ⟨hpath, hdotted, forall_mem_singleton.mpr (.frame hv hentry hkey ?_ ?_), .intro (nodup_singleton _) ?_ ?_,
    forall_mem_singleton.mpr ?_⟩
  · intro j g sub₁ h
    obtain ⟨rfl, rfl⟩ := hself h
    exact ⟨hheader, hplaced⟩
  · intro j g sub₁ h
    obtain ⟨rfl, rfl⟩ := hself h
    exact hsub.legible
  · rw [forall_mem_singleton, hx]
    exact fun _ => .table
  · rw [forall_mem_singleton, hx]
    intro sub₁ h
    cases h with
    | splits h =>
      cases h
      exact hsub.orderly
  · refine .table hx (fun hd => ?_) ?_ hsub.arranged
    · obtain ⟨b, hb, hlt⟩ := hlater hd
      refine ⟨b, hb, fun p hp => hlt p ?_⟩
      rw [htimes, TableForm.time?, hd] at hp
      exact hp
    · exact inhabited_of_ne_nil hx hsub.arranged hne

theorem settled_arrayOfTables (hx : e.item = .arrayOfTables i ts) (hne : ts ≠ [])
    (hts : ∀ t ∈ ts, SettledElement source limit (path ++ [e.key]) t)
    (hsorted : ts.Pairwise fun t u => ∀ p ∈ t.times, ∀ p' ∈ u.times, p < p') :
    Settled source limit path dotted o [e] := by
  have hv : e.item.isValue = false := by rw [hx]; rfl
  have helement : ∀ {j : Info} {g : TableForm} {sub : List (Entry Item)}, e.item.HasTable j g sub → ∃ p, g.time? = some p ∧
      HeaderLegible source (path ++ [e.key]) g ∧ Settled source limit (path ++ [e.key]) [] (some (p, [])) sub := by
    intro j g sub h
    rw [hx] at h
    cases h with
    | element hmem =>
      have := hts _ hmem
      cases this with
      | intro time header first entries => exact ⟨_, time, header, entries⟩
  refine ⟨hpath, hdotted, forall_mem_singleton.mpr (.frame hv hentry hkey ?_ ?_), .intro (nodup_singleton _) ?_ ?_,
    forall_mem_singleton.mpr ?_⟩
  · intro j g sub h
    obtain ⟨p, hp, hheader, -⟩ := helement h
    exact ⟨fun _ => hheader, .inr (.inr (TableForm.isSome_position hp).2)⟩
  · intro j g sub h
    obtain ⟨p, hp, -, hsub⟩ := helement h
    rw [(TableForm.isSome_position hp).1]
    exact hsub.legible
  · rw [forall_mem_singleton, hx]
    nofun
  · rw [forall_mem_singleton, hx]
    intro sub h
    cases h with
    | splits h => cases h
    | @element _ _ t _ hmem h =>
      have := hts _ hmem
      cases this with
      | intro time header first entries =>
        cases h
        exact entries.orderly
  · refine .arrayOfTables hx hne (fun t ht => ?_) hsorted fun t ht => ?_
    · cases hts t ht with
      | intro time header first entries => exact ⟨_, time, first⟩
    · cases hts t ht with
      | intro time header first entries =>
        rw [owner, time?, time]
        exact entries.arranged

end Kinds

/-! ## Within a tree -/

/-- An item stands in a tree that can be read back: as the item of an entry, within a value of an entry, or as a table of an
array of tables. -/
inductive Item.Stands (source : Option (List Char)) (limit : Nat) (y : Item) : Prop where
  | entry {path dotted : List Key} {o : Owner} {e : Entry Item} (settled : Settled source limit path dotted o [e])
      (item : e.item = y) : Stands source limit y
  | inner {path dotted : List Key} {o : Owner} {e : Entry Item} (settled : Settled source limit path dotted o [e])
      (isValue : e.item.isValue = true) (within : Within y e.item) : Stands source limit y
  | element {path : List Key} (settled : SettledElement source limit path y) : Stands source limit y

/-- Whatever stands below an item that stands in such a tree stands there, too. -/
theorem Item.Stands.within (h : x.Stands source limit) (hy : Within y x) : y.Stands source limit := by
  induction hy with
  | self => exact h
  | @child x z hz hy ih =>
    cases h with
    | inner settled isValue within => exact .inner settled isValue (Within.trans (.child hz hy) within)
    | element settled =>
      obtain ⟨time, header, first, entries⟩ := settled
      obtain ⟨d, hd, rfl⟩ := mem_map.mp hz
      exact ih (.entry (entries.entry hd) rfl)
    | @entry path dotted o e settled item =>
      have he := mem_singleton_self e
      cases x with
      | table i f sub =>
        obtain ⟨d, hd, rfl⟩ := mem_map.mp hz
        exact ih (.entry ((settled.table he item).entry hd) rfl)
      | arrayOfTables i ts => exact ih (.element (settled.element he item hz))
      | _ => exact .inner settled (by rw [item]; rfl) (by rw [item]; exact .child hz hy)

/-- What stands below the root of a tree that can be read back. -/
theorem Item.Rereads.stands (h : x.Rereads source limit) (hy : Within y x) : y = x ∨ y.Stands source limit := by
  cases h with
  | root first plain explicit entries =>
    cases hy with
    | self => exact .inl rfl
    | child hz hy =>
      obtain ⟨e, he, rfl⟩ := mem_map.mp hz
      exact .inr (Stands.within (.entry (entries.settled.entry he) rfl) hy)

end Verbatim

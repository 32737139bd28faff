import Verbatim.Line.Value
import Verbatim.Proofs.Writing

/-!
# Lines below dotted tables

A dotted key puts its entry below dotted tables, and the entries there are lines of the table around them. Whatever the
dotted tables are, a new entry adds exactly one line to that body.
-/

namespace Verbatim

open List Item

variable {fresh : Item} {leaf e : Entry Item} {ks : List Key} {es' es : List (Entry Item)}

namespace Item

variable {name : String}

/-! ## Entries by name -/

theorem name_of_findNamed? (h : findNamed? name es = some e) : e.name = name := by
  have := List.find?_some h
  simpa using this

theorem mem_of_findNamed? (h : findNamed? name es = some e) : e ∈ es := mem_of_find?_eq_some h

theorem findNamed?_eq_none_iff : findNamed? name es = none ↔ name ∉ es.map Entry.name := by
  simp only [findNamed?, List.find?_eq_none, mem_map, not_exists, not_and, beq_iff_eq]

/-- Where names are distinct, every entry is the one of its name. -/
theorem findNamed?_of_mem (hnames : (es.map Entry.name).Nodup) (he : e ∈ es) : findNamed? e.name es = some e := by
  induction es with
  | nil => cases he
  | cons d es ih =>
    rw [map_cons, nodup_cons] at hnames
    rcases mem_cons.mp he with rfl | he
    · simp [findNamed?]
    · have hd : d.name ≠ e.name := fun heq => hnames.1 (heq ▸ mem_map_of_mem he)
      have := ih hnames.2 he
      simpa [findNamed?, hd] using this

theorem updateEntry_of_not_mem (f : Entry Item → Entry Item) (h : name ∉ es.map Entry.name) :
    updateEntry name f es = es := by
  rw [updateEntry, map_congr_left, map_id]
  intro e he
  have hne : e.name ≠ name := fun heq => h (heq ▸ mem_map_of_mem he)
  simp [hne]

/-- The entry of a name stands in one place, and changing it changes that place only. -/
theorem updateEntry_of_find (hnames : (es.map Entry.name).Nodup) (h : findNamed? name es = some e) :
    ∃ pre post, es = pre ++ e :: post ∧ ∀ f, updateEntry name f es = pre ++ f e :: post := by
  induction es with
  | nil => cases h
  | cons d es ih =>
    rw [map_cons, nodup_cons] at hnames
    by_cases hd : d.name = name
    · have he : d = e := by simpa [findNamed?, hd] using h
      subst he
      refine ⟨[], es, rfl, fun f => ?_⟩
      have hrest := updateEntry_of_not_mem f (hd ▸ hnames.1)
      simpa [updateEntry, hd] using hrest
    · have hrest : findNamed? name es = some e := by simpa [findNamed?, hd] using h
      obtain ⟨pre, post, hes, hupdate⟩ := ih hnames.2 hrest
      refine ⟨d :: pre, post, by rw [hes]; rfl, fun f => ?_⟩
      have := hupdate f
      simp only [updateEntry, map_cons, cons_append, beq_iff_eq, if_neg hd] at this ⊢
      rw [this]

end Item

/-! ## Bodies with dotted tables -/

/-- Names are distinct and lines have positions, in a table and in the dotted tables below it. -/
inductive Dotting : List (Entry Item) → Prop where
  | intro {es : List (Entry Item)} (names : (es.map Entry.name).Nodup)
      (lines : ∀ e ∈ es, e.item.isDotted = false → e.item.isValue = true → e.position.isSome = true)
      (below : ∀ e ∈ es, e.item.isDotted = true → Dotting e.item.entries) : Dotting es

namespace Dotting

variable {es pre post : List (Entry Item)} {e d : Entry Item}

theorem names (h : Dotting es) : (es.map Entry.name).Nodup := by
  cases h with
  | intro hnames _ _ => exact hnames

theorem below_of_mem (h : Dotting es) (he : e ∈ es) (hd : e.item.isDotted = true) : Dotting e.item.entries := by
  cases h with
  | intro _ _ hbelow => exact hbelow e he hd

theorem nil : Dotting [] := .intro (by simp) (by simp) (by simp)

/-- A further entry with a name of its own. -/
theorem append (h : Dotting es) (hname : e.name ∉ es.map Entry.name)
    (hline : e.item.isDotted = false → e.item.isValue = true → e.position.isSome = true)
    (hbelow : e.item.isDotted = true → Dotting e.item.entries) : Dotting (es ++ [e]) := by
  obtain ⟨hnames, hlines, hbelows⟩ := h
  refine .intro ?_ ?_ ?_
  · rw [map_append, map_singleton, nodup_append]
    refine ⟨hnames, by simp, ?_⟩
    intro a ha b hb hab
    rw [mem_singleton.mp hb] at hab
    exact hname (hab ▸ ha)
  · exact forall_mem_append.mpr ⟨hlines, forall_mem_singleton.mpr hline⟩
  · exact forall_mem_append.mpr ⟨hbelows, forall_mem_singleton.mpr hbelow⟩

/-- Another entry of the same name in place of one. -/
theorem replace (h : Dotting (pre ++ e :: post)) (hname : d.name = e.name)
    (hline : d.item.isDotted = false → d.item.isValue = true → d.position.isSome = true)
    (hbelow : d.item.isDotted = true → Dotting d.item.entries) : Dotting (pre ++ d :: post) := by
  obtain ⟨hnames, hlines, hbelows⟩ := h
  simp only [forall_mem_append, forall_mem_cons] at hlines hbelows
  refine .intro (by simpa [hname] using hnames) ?_ ?_ <;> simp only [forall_mem_append, forall_mem_cons]
  · exact ⟨hlines.1, hline, hlines.2.2⟩
  · exact ⟨hbelows.1, hbelow, hbelows.2.2⟩

end Dotting

def lineNumber (l : List Key × Entry Item) : Int := l.2.position.getD 0

def Render.placedLine (source : Option (List Char)) (l : List Key × Entry Item) : Int × Render.BodyLine :=
  (lineNumber l, Render.valueLine source l.1 l.2)

theorem Dotting.isSome_position (h : Dotting es) (path : List Key) : ∀ l ∈ bodyIn path es, l.2.position.isSome = true := by
  induction h generalizing path with
  | intro _ hlines _ ih =>
    intro l hl
    obtain ⟨e, he, hl⟩ := mem_bodyIn.mp hl
    cases hd : e.item.isDotted with
    | true =>
      rw [entryBody_dotted path hd] at hl
      exact ih e he hd _ l hl
    | false =>
      rw [entryBody, hd, if_neg Bool.false_ne_true] at hl
      split at hl
      · next hv => exact mem_singleton.mp hl ▸ hlines e he hd hv
      · cases hl

/-- The lines of a body have the positions of their entries, whatever position was met before. -/
theorem Dotting.bodyLines_eq (h : Dotting es) (source : Option (List Char)) (path : List Key) (last : Int) :
    (Render.bodyLines source path last es).1 = (bodyIn path es).map (Render.placedLine source) := by
  rw [Render.bodyLines_eq, Render.numbered_of_isSome (h.isSome_position path), map_map]
  rfl

/-! ## Entries below their dotted keys -/

/-- A table that a dotted key makes: it takes entries and stays dotted whatever they are. -/
structure IsDottedTable (fresh : Item) : Prop where
  dotted : ∀ sub, (fresh.withEntries sub).isDotted = true
  entries : ∀ sub, (fresh.withEntries sub).entries = sub

/-- A dotted item is a table or inline table, so it takes entries. -/
theorem Item.isDottedTable (h : x.isDotted = true) : IsDottedTable x := by
  cases x with
  | inlineTable i f es => exact ⟨fun _ => h, fun _ => rfl⟩
  | table i f es => exact ⟨fun _ => h, fun _ => rfl⟩
  | _ => cases h

theorem isDottedTable_dottedInlineTable : IsDottedTable dottedInlineTable := isDottedTable rfl

/-- An entry was put below the tables of its dotted key. -/
inductive DottedRun (fresh : Item) (leaf : Entry Item) : List Key → List (Entry Item) → List (Entry Item) → Prop where
  /-- The end of the key path, where the name is new. -/
  | leaf {es : List (Entry Item)} (absent : leaf.name ∉ es.map Entry.name) : DottedRun fresh leaf [] es (es ++ [leaf])
  /-- A new dotted table. -/
  | make {k : Key} {ks : List Key} {es sub : List (Entry Item)} (absent : k.name ∉ es.map Entry.name)
      (rest : DottedRun fresh leaf ks [] sub) :
      DottedRun fresh leaf (k :: ks) es (es ++ [{ key := k.bare, item := fresh.withEntries sub }])
  /-- A dotted table that is there. -/
  | enter {k : Key} {ks : List Key} {pre post sub : List (Entry Item)} {e : Entry Item} (name : e.name = k.name)
      (dotted : e.item.isDotted = true) (rest : DottedRun fresh leaf ks e.item.entries sub) :
      DottedRun fresh leaf (k :: ks) (pre ++ e :: post) (pre ++ { e with item := e.item.withEntries sub } :: post)

theorem insertDotted_run (h : Dotting es) (hinsert : insertDotted fresh leaf ks es = .ok es') :
    DottedRun fresh leaf ks es es' := by
  induction ks generalizing es es' with
  | nil =>
    rw [insertDotted] at hinsert
    split at hinsert
    · cases hinsert
    · next hfind =>
      cases hinsert
      exact .leaf (findNamed?_eq_none_iff.mp hfind)
  | cons k ks ih =>
    rw [insertDotted] at hinsert
    split at hinsert
    · next hfind =>
      split at hinsert
      · cases hinsert
      · next sub hsub =>
        cases hinsert
        exact .make (findNamed?_eq_none_iff.mp hfind) (ih Dotting.nil hsub)
    · next e hfind =>
      split at hinsert
      · next hdotted =>
        split at hinsert
        · cases hinsert
        · next sub hsub =>
          cases hinsert
          have hbelow := h.below_of_mem (mem_of_findNamed? hfind) hdotted
          obtain ⟨pre, post, rfl, hupdate⟩ := updateEntry_of_find h.names hfind
          rw [hupdate]
          exact .enter (name_of_findNamed? hfind) hdotted (ih hbelow hsub)
      · cases hinsert

/-- The body of a table stays in order when an entry is put below its dotted key. -/
theorem DottedRun.dotting (hfresh : IsDottedTable fresh) (hd : leaf.item.isDotted = false) (hn : leaf.position.isSome = true)
    (h : DottedRun fresh leaf ks es es') (hes : Dotting es) : Dotting es' := by
  induction h with
  | leaf absent => exact hes.append absent (fun _ _ => hn) (by simp [hd])
  | @make k ks es sub absent rest ih =>
    have hsub := ih Dotting.nil
    exact hes.append absent (by simp [hfresh.dotted]) (fun _ => by rwa [hfresh.entries])
  | @enter k ks pre post sub e name dotted rest ih =>
    have htable := isDottedTable dotted
    have hsub := ih (hes.below_of_mem (by simp) dotted)
    exact hes.replace rfl (by simp [htable.dotted]) (fun _ => by rwa [htable.entries])

/-- An entry that is put below its dotted key is one more line. -/
theorem DottedRun.lines (hfresh : IsDottedTable fresh) (hd : leaf.item.isDotted = false) (hv : leaf.item.isValue = true)
    (path : List Key) (h : DottedRun fresh leaf ks es es') :
    ∃ keys, (ks = [] → keys = path) ∧ (bodyIn path es').Perm (bodyIn path es ++ [(keys, leaf)]) := by
  simp only [bodyIn_eq]
  induction h generalizing path with
  | leaf absent => exact ⟨path, fun _ => rfl, by simp [entryBody_value path hd hv]⟩
  | @make k ks es sub absent rest ih =>
    obtain ⟨keys, -, hperm⟩ := ih (path ++ [k.bare])
    refine ⟨keys, by simp, ?_⟩
    rw [flatMap_append, flatMap_singleton, entryBody_dotted path (hfresh.dotted sub), hfresh.entries, bodyIn_eq]
    exact hperm.append_left _
  | @enter k ks pre post sub e name dotted rest ih =>
    have htable := isDottedTable dotted
    obtain ⟨keys, -, hperm⟩ := ih (path ++ [e.key])
    refine ⟨keys, by simp, ?_⟩
    have hold := entryBody_dotted path dotted
    have hnew := entryBody_dotted path (e := { e with item := e.item.withEntries sub }) (htable.dotted sub)
    rw [htable.entries] at hnew
    simp only [flatMap_append, flatMap_cons, hold, hnew, bodyIn_eq, append_assoc]
    -- the new line moves behind the lines of the later entries
    refine Perm.append_left _ ((hperm.append_right _).trans ?_)
    rw [append_assoc]
    exact perm_append_comm.append_left _

end Verbatim

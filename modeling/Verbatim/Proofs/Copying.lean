import Verbatim.Proofs.ReadDocument
import Verbatim.Proofs.ScalarEdits

/-!
# Values that are copied to a new name

A value of a document that was read keeps the text around it when it is copied. Under a new name of the root it stands on a
line of its own, and there it can be read back, wherever in the document it was, unless a line ends in the text before it. A
table is different: its copy keeps the keys of its header.

## Main statements

- `Item.Rereads.portable` - the values of a document that can be read back are legible on lines of their own.
- `Workspace.copied_value_reads_back` - a document that was read, with one of its values copied, is parsed again.
- `Workspace.copied_table_repeats_header` - a document with one of its tables copied.
-/

namespace Verbatim

open List DataReader Render Item

variable {source : Option (List Char)} {limit levels : Nat} {x y : Item}

/-! ## Values within values -/

/-- A legible value may stand where more levels are left. -/
theorem ValueLegible.mono {place : Option (List Key)} (h : ValueLegible source place limit levels x)
    (hlimit : limit ≤ limit') (hlevels : levels ≤ levels') : ValueLegible source place limit' levels' x := by
  induction h generalizing limit' levels' with
  | scalar spelling => exact .scalar spelling
  | array room decor trailing _ ih =>
    obtain ⟨n, rfl⟩ : ∃ n, limit' = n + 1 := ⟨limit' - 1, by omega⟩
    exact .array (fun hne => Nat.lt_of_lt_of_le (room hne) hlevels) decor trailing fun x hx => ih x hx (by omega) (by omega)
  | inlineTable plain room preamble body _ ih =>
    obtain ⟨n, rfl⟩ : ∃ n, limit' = n + 1 := ⟨limit' - 1, by omega⟩
    exact .inlineTable plain (fun hne => Nat.lt_of_lt_of_le (room hne) hlevels) preamble body
      fun e he => ih e he (by omega) (by omega)
  | dotted isDotted nonempty body _ ih =>
    exact .dotted isDotted nonempty body fun e he => ih e he hlimit hlevels

theorem Decor.Legible.imp {lead lead' tail tail' : List Char → Prop} {d : Decor} (h : d.Legible source lead tail)
    (hlead : ∀ u, lead u → lead' u) (htail : ∀ u, tail u → tail' u) : d.Legible source lead' tail' :=
  ⟨fun t ht => (h.before t ht).imp hlead, fun t ht => (h.after t ht).imp htail⟩

/-- Where no line ends there are only blanks. -/
theorem Trivia.blanks (h : Trivia t) (hline : '\n' ∉ t) : Blanks t := by
  induction h with
  | nil => exact Blanks.nil
  | blank isBlank _ ih => exact forall_mem_cons.mpr ⟨isBlank, ih fun hmem => hline (mem_cons_of_mem _ hmem)⟩
  | line _ terminator _ _ => exact absurd (by rcases terminator with rfl | rfl <;> simp) hline

namespace Item

/-- A value that can stand on a line of its own, but for what stands before it. -/
structure Portable (source : Option (List Char)) (limit : Nat) (x : Item) : Prop where
  value : ValueLegible source none limit nestingLevels x
  decor : ∀ d ∈ x.decor?, d.Legible source Trivia Tail

/-- The values within a legible value. A dotted inline table is none. -/
theorem portable_of_valueLegible {place : Option (List Key)} {limit' : Nat} (h : ValueLegible source place limit levels x)
    (hlimit : limit ≤ limit') (hlevels : levels ≤ nestingLevels) (hdecor : ∀ d ∈ x.decor?, d.Legible source Trivia Tail)
    (hy : Within y x) (hplain : y.isDotted = false) : y.Portable source limit' := by
  induction h with
  | scalar spelling =>
    cases hy with
    | self => exact ⟨.scalar spelling, hdecor⟩
    | child hz => cases hz
  | array room decor trailing elements ih =>
    cases hy with
    | self => exact ⟨(ValueLegible.array room decor trailing elements).mono hlimit hlevels, hdecor⟩
    | child hz hy =>
      refine ih _ hz (by omega) (by omega) (fun d hd => ?_) hy
      exact (decor _ hz d hd).imp (fun _ hu => hu) fun _ hu => hu.tail
  | inlineTable plain room preamble body members ih =>
    cases hy with
    | self => exact ⟨(ValueLegible.inlineTable plain room preamble body members).mono hlimit hlevels, hdecor⟩
    | child hz hy =>
      obtain ⟨e, he, rfl⟩ := mem_map.mp hz
      refine ih e he (by omega) (by omega) (fun d hd => ?_) hy
      exact ((body.lines e he).decor d hd).imp (fun _ hu => hu.trivia) fun _ hu => hu.trivia.tail
  | dotted isDotted nonempty body members ih =>
    cases hy with
    | self => exact Bool.noConfusion (isDotted.symm.trans hplain)
    | child hz hy =>
      obtain ⟨e, he, rfl⟩ := mem_map.mp hz
      refine ih e he hlimit hlevels (fun d hd => ?_) hy
      exact ((body.lines e he).decor d hd).imp (fun _ hu => hu.trivia) fun _ hu => hu.trivia.tail

/-! ## Values within tables -/

/-- The values of a document that can be read back. -/
theorem Rereads.portable (h : x.Rereads source limit) (hy : Within y x) (hvalue : y.isValue = true)
    (hplain : y.isDotted = false) : y.Portable source limit := by
  have hinner : ∀ {path dotted : List Key} {o : Owner} {e : Entry Item}, Settled source limit path dotted o [e] →
      e.item.isValue = true → Within y e.item → y.Portable source limit := by
    intro path dotted o e h hx hy
    have he := mem_singleton_self e
    obtain ⟨hline, hlegible⟩ := (h.legible _ he).values hx
    refine portable_of_valueLegible hlegible (Nat.le_refl _) (Nat.le_refl _) (fun d hd => ?_) hy hplain
    exact (hline.decor d hd).imp (fun _ hu => hu.trivia) fun _ hu => hu
  rcases h.stands hy with rfl | hstands
  · cases h
    cases hvalue
  · cases hstands with
    | entry settled item =>
      subst item
      exact hinner settled hvalue .self
    | inner settled isValue within => exact hinner settled isValue within
    | element settled =>
      cases settled
      cases hvalue

/-! ## A further line of the root -/

/-- Whether a value begins on the line of its key: no line ends in the text before it. -/
def startsOnLine (x : Item) : Bool :=
  match x.decor?.bind Decor.before with
  | some (.owned s) => !s.toList.contains '\n'
  | _ => true

/-- The text around a copy of a value that begins on the line of its key. -/
theorem Portable.decor_blanks (h : x.stripped.Portable source limit) (howns : x.OwnsText) (hline : x.startsOnLine = true) :
    ∀ d ∈ x.stripped.decor?, d.Legible source Blanks Tail := by
  intro d hd
  refine ⟨fun t ht => ?_, (h.decor d hd).after⟩
  obtain ⟨u, hu, htrivia⟩ := (h.decor d hd).before t ht
  refine ⟨u, hu, htrivia.blanks ?_⟩
  rw [stripped, decor?_reworded] at hd
  obtain ⟨c, hc, rfl⟩ := Option.map_eq_some_iff.mp hd
  obtain ⟨t, hbefore, rfl⟩ := Option.map_eq_some_iff.mp ht
  -- the text is not a reference, so it is written whatever the source
  cases t with
  | owned s =>
    cases hu
    rw [startsOnLine, hc, Option.bind_some, hbefore] at hline
    simpa using hline
  | ref span =>
    have hmem : SpanText.ref span ∈ c.texts := by simp [Decor.texts, hbefore]
    cases howns.decor hc _ hmem

theorem Rereads.isInlineTable (h : x.Rereads source limit) : x.isInlineTable = false := by
  cases h
  rfl

/-- A value is put under a new name of the root. -/
theorem Rereads.append (h : x.Rereads source limit) (hvalue : ValueLegible source none limit nestingLevels y)
    (hdecor : ∀ d ∈ y.decor?, d.Legible source Blanks Tail) (hname : name ∉ x.entries.map Entry.name) :
    (x.withEntries (place name y x.entries)).Rereads source limit := by
  cases h with
  | @root i f es first plain explicit entries =>
    have hsettled := entries.settled.append (e := { key := { name }, item := y }) hname
      (settled_value (forall_mem_nil _) (forall_mem_nil _)
        ((entryLegible_bare (keys_legible_new (forall_mem_nil _) name)).imp fun _ hu => hu.trivia) hdecor hvalue
        (by simp [home]))
    have hplace : place name y es = es ++ [{ key := { name }, item := y }] := by
      rw [place, findNamed?_eq_none_iff.mpr (show name ∉ es.map Entry.name from hname)]
    rw [withEntries, Item.entries, hplace]
    refine .root first plain explicit (hsettled.rereadable ?_ entries)
    rw [timesIn_append, timesIn_cons, timesIn_nil, times_of_isValue hvalue.isValue]
    simp

end Item

namespace Workspace

/-- **Copied values read back.** A value of a document that was read is put under a new name of the root. If no line ends in the
text before it, the document is written as a text that is parsed again, with the data of the document up to the order of names
within tables. -/
theorem copied_value_reads_back {options : OptionsArgument} {set : OptionSet} {src : Source} {w : Workspace}
    (hoptions : options.resolve .reader = .ok set) (hvalidate : set.readOptions.validate = true)
    (hw : ({} : Workspace).parse "main" options src true = .ok w) {l : Locator} {x root : Item} {name : String}
    (hx : w.find l = .ok x) (hvalue : x.isValue = true) (hplain : x.isDotted = false) (hline : x.startsOnLine = true)
    (hroot : w.findMapping {} = .ok root) (hname : root.get? name = none) {layout : Layout}
    (hnewline : IsNewline layout.newline.toList) (hseparator : Trivia layout.separator.toList) :
    ∃ w' d text s, w.assign {} name (.item x) = .ok w' ∧ w'.slot "main" = .ok { content := .document d } ∧
      d.render layout = .ok text ∧ Verbatim.parse set.readOptions (.text text) = .ok s ∧
        Data.Same s.root.unwrap d.root.unwrap := by
  obtain ⟨d, halone, hrereads, htrailing⟩ := alone_parse hoptions hvalidate hw
  have hportable := hrereads.portable (within_of_follow (follow_stripped (halone.follow hx)))
    (by simpa using hvalue) (by rwa [stripped, isDotted_reworded])
  have hfollow : d.root = root := Except.ok.inj (halone.follow (findMapping_eq_ok.mp hroot).1)
  subst hfollow
  have hcoerced : d.root.coerced (.item x) = .ok x.copied := by
    have htable := hrereads.isInlineTable
    rw [isInlineTable_stripped] at htable
    rw [coerced, htable, if_neg Bool.false_ne_true]
    rfl
  obtain ⟨w', root', hw', halone', heq⟩ := halone.assign hroot hcoerced (halone.ownsText_find hx).loose_copied
    (fun _ => (isValue_copied x).trans hvalue) name
  have hnew : name ∉ d.root.stripped.entries.map Entry.name := by
    rw [get?, Option.map_eq_none_iff] at hname
    simpa using findNamed?_eq_none_iff.mp hname
  have hrereads' : root'.stripped.Rereads (d.source.map String.toList) set.readOptions.maxNesting := by
    rw [heq, stripped_copied]
    exact hrereads.append hportable.value (hportable.decor_blanks (halone.ownsText_find hx) hline) hnew
  obtain ⟨text, s, h⟩ := halone'.reads_back hrereads' htrailing hnewline hseparator
  exact ⟨w', { d with root := root' }, text, s, hw', h⟩

set_option maxRecDepth 20000 in
/-- The first value of an array is an inline table with a comment behind it. -/
theorem copied_value_reads_back_element : ∃ w x w' d text s,
    ({} : Workspace).parse "main" .unset (.text "[t]\nl = [ \x7bk = true\x7d # c\n, false ]") true = .ok w ∧
      w.find { path := [.name "t", .name "l", .position 0] } = .ok x ∧ w.assign {} "b" (.item x) = .ok w' ∧
        w'.slot "main" = .ok { content := .document d } ∧ d.render {} = .ok text ∧
          Verbatim.parse {} (.text text) = .ok s ∧ Data.Same s.root.unwrap d.root.unwrap := by
  have hrun : (do
      let w ← ({} : Workspace).parse "main" .unset (.text "[t]\nl = [ \x7bk = true\x7d # c\n, false ]") true
      let x ← w.find { path := [.name "t", .name "l", .position 0] }
      let root ← w.findMapping {}
      pure (x.isValue && !x.isDotted && x.startsOnLine && (root.get? "b").isNone) : Except Failure Bool).toOption =
        some true := by
    cbv
  obtain ⟨w, hw, hrun⟩ := bind_eq_ok.mp (toOption_eq_some.mp hrun)
  obtain ⟨x, hx, hrun⟩ := bind_eq_ok.mp hrun
  obtain ⟨root, hroot, hrun⟩ := bind_eq_ok.mp hrun
  simp only [pure, Except.pure, Except.ok.injEq, Bool.and_eq_true, Bool.not_eq_true', Option.isNone_iff_eq_none] at hrun
  obtain ⟨⟨⟨hvalue, hplain⟩, hline⟩, hname⟩ := hrun
  obtain ⟨set, hset, hread⟩ := OptionsArgument.resolve_unset
  obtain ⟨w', d, text, s, h⟩ := copied_value_reads_back hset (by rw [hread]) hw hx hvalue hplain hline hroot hname isNewline_default
    trivia_default
  rw [hread] at h
  exact ⟨w, x, w', d, text, s, hw, hx, h⟩

set_option maxRecDepth 20000 in
/-- The copy of a table is written with the header of the table, and a text with two such headers is not parsed. -/
theorem copied_table_repeats_header : (do
      let w ← ({} : Workspace).parse "main" .unset (.text "[a]\n") true
      let x ← w.find { path := [.name "a"] }
      let w ← w.assign {} "b" (.item x)
      let d ← w.document? "main"
      .ok (d.render {}).toOption : Except Failure (Option String)).toOption = some (some "[a]\n[a]\n") ∧
    (Verbatim.parse {} (.text "[a]\n[a]\n")).toOption = none := by
  constructor
  · cbv
  · decide +kernel

end Workspace

end Verbatim

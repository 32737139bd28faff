import Verbatim.Proofs.Passing
import Verbatim.Proofs.ReadDocument

/-!
# Scalars assigned to a document that was read

Whatever scalars the tables and inline tables of a document are given, one after the other, the document is written as a text
that is parsed again, and the data that comes out is that of the document. Only tables that longer headers imply are left out:
such a table gets a header when it gets a line.

## Main statements

- `Workspace.Alone.scalars` - scalars that are assigned one after the other keep a document that can be read back.
- `Workspace.scalar_edits_read_back` - a document that was read and given scalars is parsed again.
-/

namespace Verbatim

open DataReader Render Item

variable {source : Option (List Char)} {limit : Nat} {known : Int → Prop}

/-! ## Assignments in a workspace -/

theorem Item.NewScalar.loose {v : Item} (h : v.NewScalar) : v.Loose := by
  cases h
  exact (convertible_insertable.scalar _ _ trivial).loose

/-- Data that is the same as a value and as a member becomes the same item whatever it is put in. -/
theorem Item.coerced_eq (hvalue : ofValue d = .ok v) (hmember : ofMember d = .ok v) (hd : d.isItem = false) (x : Item) :
    x.coerced d = .ok v := by
  rw [coerced, hvalue, hmember, ite_self]
  exact congrArg Except.ok (ownedFor_of_not_item hd v)

/-- Strings, truth values and integers become scalars. -/
theorem Data.Simple.newScalar (hd : d.Simple) (hleaf : d.isLeaf = true) :
    ∃ v : Item, v.NewScalar ∧ ofValue d = .ok v ∧ ofMember d = .ok v := by
  cases hd with
  | string s => exact ⟨_, .intro (.string s), rfl, rfl⟩
  | boolean b => exact ⟨_, .intro (.boolean b), rfl, rfl⟩
  | integer digits => exact ⟨_, .intro (.integer digits), rfl, rfl⟩
  | _ => cases hleaf

namespace Workspace

/-- An edit assigns a string, a truth value or an integer to a table or inline table that is there, unless longer headers only
imply the table. -/
inductive Edit.IsScalar (w : Workspace) : Edit → Prop where
  | intro {l : Locator} {x : Item} {name : String} {data : Input} (simple : data.Simple) (leaf : data.isLeaf = true)
      (found : w.findMapping l = .ok x) (written : x.isImplied = false) : IsScalar w (.assign l name data)

/-- Scalars are assigned one after the other, each to a table that is not only implied when it is its turn. -/
inductive ScalarEdits : Workspace → List Edit → Prop where
  | nil {w : Workspace} : ScalarEdits w []
  | cons {w : Workspace} {e : Edit} {es : List Edit} (first : e.IsScalar w) (rest : ScalarEdits (w.edited [e]) es) :
      ScalarEdits w (e :: es)

/-- One assignment of a scalar is carried out and keeps a document that can be read back. -/
theorem Alone.scalar {w : Workspace} {d : Document} {e : Edit} (h : Alone w d) (he : e.IsScalar w)
    (hd : d.root.stripped.Rereads source limit) (hlimit : limit ≤ nestingLevels) :
    ∃ w' root, e.apply w = .ok w' ∧ Alone w' { d with root } ∧ root.stripped.Rereads source limit := by
  cases he with
  | @intro l x name data simple leaf found written =>
    obtain ⟨v, hv, hvalue, hmember⟩ := simple.newScalar leaf
    obtain ⟨w', root, hw', halone, hroot⟩ := h.assign found (coerced_eq hvalue hmember simple.not_item x) hv.loose
      (fun _ => hv.isValue) name
    refine ⟨w', root, hw', halone, ?_⟩
    rw [hroot, hv.stripped]
    exact hd.replaceAt (follow_stripped (h.follow (findMapping_eq_ok.mp found).1)) (adapts_place
      ((isMapping_stripped x).trans (findMapping_eq_ok.mp found).2) hv (x.isImplied_stripped.trans written) name)
      fun _ => hlimit

/-- Scalars that are assigned one after the other keep a document that can be read back. -/
theorem Alone.scalars {w : Workspace} {d : Document} {es : List Edit} (h : Alone w d) (hes : ScalarEdits w es)
    (hd : d.root.stripped.Rereads source limit) (hlimit : limit ≤ nestingLevels) :
    ∃ w' root, es.foldlM (fun w e => e.apply w) w = .ok w' ∧ Alone w' { d with root } ∧
      root.stripped.Rereads source limit := by
  induction hes generalizing d with
  | nil => exact ⟨_, d.root, rfl, h, hd⟩
  | @cons w e es first rest ih =>
    obtain ⟨w₁, root, hw₁, halone, hroot⟩ := h.scalar first hd hlimit
    have hedited : w.edited [e] = w₁ := by
      rw [Workspace.edited, hw₁]
      rfl
    rw [hedited] at ih
    obtain ⟨w', root', hw', h'⟩ := ih halone hroot
    exact ⟨w', root', by rw [List.foldlM_cons]; exact bind_eq_ok.mpr ⟨w₁, hw₁, hw'⟩, h'⟩

/-- **Scalars read back.** Whatever scalars a document that was read is given, one after the other, every assignment is carried
out, and the document is written as a text that is parsed again, with the data of the document up to the order of names within
tables. -/
theorem scalar_edits_read_back {options : OptionsArgument} {set : OptionSet} {src : Source} {w : Workspace}
    (hoptions : options.resolve .reader = .ok set) (hvalidate : set.readOptions.validate = true)
    (hdepth : set.readOptions.maxNesting ≤ nestingLevels) (hw : ({} : Workspace).parse "main" options src true = .ok w)
    {edits : List Edit} (hedits : ScalarEdits w edits) {layout : Layout} (hnewline : IsNewline layout.newline.toList)
    (hseparator : Trivia layout.separator.toList) :
    ∃ w' d text s, edits.foldlM (fun w e => e.apply w) w = .ok w' ∧ w'.slot "main" = .ok { content := .document d } ∧
      d.render layout = .ok text ∧ Verbatim.parse set.readOptions (.text text) = .ok s ∧
        Data.Same s.root.unwrap d.root.unwrap := by
  obtain ⟨d, halone, hroot, htrailing⟩ := alone_parse hoptions hvalidate hw
  obtain ⟨w', root, hw', halone', hroot'⟩ := halone.scalars hedits hroot hdepth
  obtain ⟨text, s, h⟩ := halone'.reads_back hroot' htrailing hnewline hseparator
  exact ⟨w', { d with root }, text, s, hw', h⟩

/-- Scalars for a dotted table, for an inline table in an array of tables, and in the place of a table. -/
def mixedScalars : List Edit :=
  [.assign { path := [.name "a", .name "x"] } "z w" (.boolean true),
    .assign { path := [.name "t", .position 0, .name "k"] } "n" (.string "v"), .assign {} "b" (.boolean false)]

set_option maxRecDepth 20000 in
theorem scalar_edits_read_back_mixed : ∃ w w' d text s,
    ({} : Workspace).parse "main" .unset (.text "[a]\nx.y = 1\n[[t]]\nk = \x7b\x7d\n[b.c]") true = .ok w ∧
      ScalarEdits w mixedScalars ∧ mixedScalars.foldlM (fun w e => e.apply w) w = .ok w' ∧
        w'.slot "main" = .ok { content := .document d } ∧ d.render {} = .ok text ∧ Verbatim.parse {} (.text text) = .ok s ∧ Data.Same s.root.unwrap d.root.unwrap := by
  have hrun : (do
      let w ← ({} : Workspace).parse "main" .unset (.text "[a]\nx.y = 1\n[[t]]\nk = \x7b\x7d\n[b.c]") true
      let x₁ ← w.findMapping { path := [.name "a", .name "x"] }
      let w₁ ← w.assign { path := [.name "a", .name "x"] } "z w" (.boolean true)
      let x₂ ← w₁.findMapping { path := [.name "t", .position 0, .name "k"] }
      let w₂ ← w₁.assign { path := [.name "t", .position 0, .name "k"] } "n" (.string "v")
      let x₃ ← w₂.findMapping {}
      let w₃ ← w₂.assign {} "b" (.boolean false)
      pure (x₁.isImplied || x₂.isImplied || x₃.isImplied) : Except Failure Bool).toOption = some false := by
    cbv
  obtain ⟨w, hw, hrun⟩ := bind_eq_ok.mp (toOption_eq_some.mp hrun)
  obtain ⟨x₁, hx₁, hrun⟩ := bind_eq_ok.mp hrun
  obtain ⟨w₁, hw₁, hrun⟩ := bind_eq_ok.mp hrun
  obtain ⟨x₂, hx₂, hrun⟩ := bind_eq_ok.mp hrun
  obtain ⟨w₂, hw₂, hrun⟩ := bind_eq_ok.mp hrun
  obtain ⟨x₃, hx₃, hrun⟩ := bind_eq_ok.mp hrun
  obtain ⟨w₃, hw₃, hrun⟩ := bind_eq_ok.mp hrun
  simp only [pure, Except.pure, Except.ok.injEq, Bool.or_eq_false_iff] at hrun
  obtain ⟨⟨h₁, h₂⟩, h₃⟩ := hrun
  have hstep : ∀ {w w' : Workspace} {e : Edit}, e.apply w = .ok w' → w.edited [e] = w' := by
    intro w w' e h
    rw [Workspace.edited, h]
    rfl
  have hedits : ScalarEdits w mixedScalars := by
    refine .cons (.intro (.boolean true) rfl hx₁ h₁) ?_
    rw [hstep (e := .assign _ _ _) hw₁]
    refine .cons (.intro (.string "v") rfl hx₂ h₂) ?_
    rw [hstep (e := .assign _ _ _) hw₂]
    exact .cons (.intro (.boolean false) rfl hx₃ h₃) .nil
  have hset : ∃ set : OptionSet, OptionsArgument.unset.resolve .reader = .ok set ∧ set.readOptions = {} :=
    ⟨_, rfl, by decide +kernel⟩
  obtain ⟨set, hset, hread⟩ := hset
  have hnewline : IsNewline ({} : Layout).newline.toList := .inl rfl
  have hseparator : Trivia ({} : Layout).separator.toList := Tail.trivia (t := []) Trivia.nil.tail (.inl rfl)
  obtain ⟨w', d, text, s, h⟩ := scalar_edits_read_back hset (by rw [hread]) (by rw [hread]; decide) hw hedits hnewline hseparator
  rw [hread] at h
  exact ⟨w, w', d, text, s, hw, hedits, h⟩

set_option maxRecDepth 20000 in
/-- A table in the place of a scalar is written with the comment of the key within its header. -/
theorem table_keeps_comment : (do
      let w ← ({} : Workspace).parse "main" .unset (.text "# c\na = 1\n") true
      let w ← w.assign {} "a" (.table [("k", .boolean true)])
      let d ← w.document? "main"
      .ok (d.render {}).toOption : Except Failure (Option String)).toOption = some (some "[# c\na ]\nk = true\n") ∧
    (Verbatim.parse {} (.text "[# c\na ]\nk = true\n")).toOption = none := by
  constructor
  · cbv
  · decide +kernel

set_option maxRecDepth 20000 in
/-- A table that was only implied gets a header, which is written before the dotted key that the table stands below. -/
theorem implied_table_header_early : (do
      let w ← ({} : Workspace).parse "main" .unset (.text "[t.s]\n[t]\nx.y = 1\n[t.x.i.j]\n") true
      let w ← w.assign { path := [.name "t", .name "x", .name "i"] } "k" (.boolean true)
      let d ← w.document? "main"
      .ok (d.render {}).toOption : Except Failure (Option String)).toOption =
        some (some "[t.s]\n\n[t.x.i]\nk = true\n[t]\nx.y = 1\n[t.x.i.j]\n") ∧
    (Verbatim.parse {} (.text "[t.s]\n\n[t.x.i]\nk = true\n[t]\nx.y = 1\n[t.x.i.j]\n")).toOption = none := by
  constructor
  · cbv
  · decide +kernel

end Workspace

end Verbatim

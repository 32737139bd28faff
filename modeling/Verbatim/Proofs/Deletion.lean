import Verbatim.Proofs.Passing
import Verbatim.Proofs.ReadDocument

/-!
# Deleted entries

An entry that is deleted takes away its line or its headers and nothing else, so what is left can be read back. Only a container
that is written through its entries alone - a table that longer headers or dotted keys made, or an inline table that a dotted key
made - is lost with the last of them.

## Main statements

- `Workspace.deletion_reads_back` - a document that was read and from which an entry is deleted is parsed again.
- `Workspace.emptied_table_lost` - a table that was written through one entry is lost with it.
-/

namespace Verbatim

open List DataReader Render Item

variable {source : Option (List Char)}

/-- Fewer entries of an inline table. -/
theorem InlineLegible.sublist {levels : Nat} (h : InlineLegible source limit levels path es)
    (hsub : es'.Sublist es) : InlineLegible source limit levels path es' where
  body := ⟨h.body.names.sublist (hsub.map _), h.body.keys, fun e he => h.body.lines e (hsub.subset he)⟩
  members e he := h.members e (hsub.subset he)

namespace Item

/-- Whether a container is written through its entries only: it has neither a header nor brackets. -/
def isUnwritten : Item → Bool
  | .table _ f _ => f.implicit || f.dotted
  | .inlineTable _ f _ => f.dotted
  | _ => false

theorem isUnwritten_stripped (x : Item) : x.stripped.isUnwritten = x.isUnwritten := by
  cases x <;> rfl

theorem timesIn_sublist (h : es'.Sublist es) : (timesIn es').Sublist (timesIn es) := by
  induction h with
  | slnil => exact Sublist.refl _
  | cons e _ ih =>
    rw [timesIn_cons]
    exact ih.trans (sublist_append_right _ _)
  | cons_cons e _ ih =>
    rw [timesIn_cons, timesIn_cons]
    exact (Sublist.refl _).append ih

/-- A container can be read back without one of its entries, unless it is written through that entry only. -/
theorem adapts_erase (hy : y.isMapping = true) (hkept : y.isUnwritten = true → eraseEntry name y.entries ≠ []) :
    Adapts source False y (y.withEntries (eraseEntry name y.entries)) := by
  have hsub : ∀ es : List (Entry Item), (eraseEntry name es).Sublist es := fun _ => filter_sublist
  cases y with
  | inlineTable i f es =>
    refine adapts_inlineTable (fun hes hne => hne ?_) fun h => ⟨h.sublist (hsub es), hkept⟩
    rw [entries, hes]
    rfl
  | table i f es =>
    exact .table (timesIn_sublist (hsub es)) fun _ h =>
      ⟨h.subset (fun d hd => (hsub es).subset hd) (h.orderly.names.sublist ((hsub es).map _)), hkept⟩
  | _ => cases hy

end Item

namespace Workspace

/-- **Deletions read back.** Any entry of a document that was read is deleted, unless the table or inline table around it is
written through this entry only. Then the document is written as a text that is parsed again, with the data of the document up
to the order of names within tables. -/
theorem deletion_reads_back {options : OptionsArgument} {set : OptionSet} {src : Source} {w : Workspace}
    (hoptions : options.resolve .reader = .ok set) (hvalidate : set.readOptions.validate = true)
    (hw : ({} : Workspace).parse "main" options src true = .ok w) {l : Locator} {x : Item} {name : String}
    (hx : w.findMapping l = .ok x) (hname : name ∈ x.entries.map Entry.name)
    (hkept : x.isUnwritten = true → eraseEntry name x.entries ≠ []) {layout : Layout}
    (hnewline : IsNewline layout.newline.toList) (hseparator : Trivia layout.separator.toList) :
    ∃ w' d text s, w.erase l name = .ok w' ∧ w'.slot "main" = .ok { content := .document d } ∧
      d.render layout = .ok text ∧ Verbatim.parse set.readOptions (.text text) = .ok s ∧
        Data.Same s.root.unwrap d.root.unwrap := by
  obtain ⟨d, halone, hroot, htrailing⟩ := alone_parse hoptions hvalidate hw
  obtain ⟨w', root, hw', halone', heq⟩ := halone.erase hx hname
  obtain ⟨hfind, hmapping⟩ := findMapping_eq_ok.mp hx
  have hkept' : x.stripped.isUnwritten = true → eraseEntry name x.stripped.entries ≠ [] := by
    rw [isUnwritten_stripped, entries_stripped]
    intro hunwritten hnil
    rw [eraseEntry, filter_map, map_eq_nil_iff] at hnil
    exact hkept hunwritten hnil
  have hroot' : root.stripped.Rereads (d.source.map String.toList) set.readOptions.maxNesting := by
    rw [heq]
    exact hroot.replaceAt (follow_stripped (halone.follow hfind))
      (adapts_erase ((isMapping_stripped x).trans hmapping) hkept') False.elim
  obtain ⟨text, s, h⟩ := halone'.reads_back hroot' htrailing hnewline hseparator
  exact ⟨w', { d with root }, text, s, hw', h⟩

set_option maxRecDepth 20000 in
/-- One of two entries of an inline table that a dotted key made. -/
theorem deletion_reads_back_dotted : ∃ w w' d text s,
    ({} : Workspace).parse "main" .unset (.text "[a]\nx.y = \x7bp.q = 1, p.r = 2\x7d\n[a.b]") true = .ok w ∧
      w.erase { path := [.name "a", .name "x", .name "y", .name "p"] } "q" = .ok w' ∧
        w'.slot "main" = .ok { content := .document d } ∧ d.render {} = .ok text ∧
          Verbatim.parse {} (.text text) = .ok s ∧ Data.Same s.root.unwrap d.root.unwrap := by
  have hrun : (do
      let w ← ({} : Workspace).parse "main" .unset (.text "[a]\nx.y = \x7bp.q = 1, p.r = 2\x7d\n[a.b]") true
      let x ← w.findMapping { path := [.name "a", .name "x", .name "y", .name "p"] }
      pure (x.entries.map Entry.name) : Except Failure (List String)).toOption = some ["q", "r"] := by
    cbv
  obtain ⟨w, hw, hrun⟩ := bind_eq_ok.mp (toOption_eq_some.mp hrun)
  obtain ⟨x, hx, hrun⟩ := bind_eq_ok.mp hrun
  simp only [pure, Except.pure, Except.ok.injEq] at hrun
  obtain ⟨set, hset, hread⟩ := OptionsArgument.resolve_unset
  have hkept : eraseEntry "q" x.entries ≠ [] := by
    intro hnil
    have hnames := congrArg (List.filter (· != "q")) hrun
    rw [filter_map, show x.entries.filter ((· != "q") ∘ Entry.name) = [] from hnil] at hnames
    cases hnames
  obtain ⟨w', d, text, s, h⟩ := deletion_reads_back hset (by rw [hread]) hw hx (by simp [hrun]) (fun _ => hkept) isNewline_default
    trivia_default
  rw [hread] at h
  exact ⟨w, w', d, text, s, hw, h⟩

set_option maxRecDepth 20000 in
/-- A table that a dotted key made is in the document after the deletion of its only entry, and not in its text. -/
theorem emptied_table_lost : (do
      let w ← ({} : Workspace).parse "main" .unset (.text "a.b = 1\n") true
      let w ← w.erase { path := [.name "a"] } "b"
      let d ← w.document? "main"
      .ok ((d.render {}).toOption, d.root.unwrap) : Except Failure (Option String × Plain)).toOption =
        some (some "", .table [("a", .table [])]) ∧
    (Verbatim.parse {} (.text "")).toOption.map (fun s => s.root.unwrap) = some (.table []) := by
  constructor <;> cbv

end Workspace

end Verbatim

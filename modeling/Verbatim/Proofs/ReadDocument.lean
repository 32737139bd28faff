import Verbatim.Proofs.Handover
import Verbatim.Proofs.InPlace

/-!
# Edits of a document that was read

A document that was read owns its text, so none of its items refuses an edit. An edit that finds its item and can use its data
is carried out: the item gets its new version where it stands, and the rest of the document stays what it is.
-/

namespace Verbatim

open DataReader Render Item

/-- An item that owns its text and that no workspace knows, as plain data and copies give it. -/
structure Item.Loose (x : Item) : Prop where
  ownsText : x.OwnsText
  unlabelled : x.Unlabelled

namespace Item

theorem Insertable.loose {x : Item} (h : x.Insertable) : x.Loose := ⟨h.ownsText, h.unlabelled⟩

theorem OwnsText.loose_copied {x : Item} (h : x.OwnsText) : x.copied.Loose := by
  refine ⟨h.copied, fun y hy => ?_⟩
  rw [copied_eq_reworded] at hy
  obtain ⟨z, -, rfl⟩ := within_reworded hy
  rw [info_reworded]

theorem Change.imp (h : Change P x x') (hPQ : ∀ y, P y → Q y) : Change Q x x' := by
  cases h with
  | place name y hx hy hvalue => exact .place name y hx (hPQ y hy) hvalue
  | erase name => exact .erase name
  | append y hy hkind => exact .append y (hPQ y hy) hkind

theorem OwnsText.editable_eq {x : Item} (h : x.OwnsText) : x.editable = .ok x := by
  rw [editable, (h x .self).editable]
  rfl

end Item

theorem isNewline_default : IsNewline ({} : Layout).newline.toList := .inl rfl

theorem trivia_default : Trivia ({} : Layout).separator.toList := Tail.trivia (t := []) Trivia.nil.tail (.inl rfl)

namespace Workspace

/-- A workspace with one document, which owns its text. -/
structure Alone (w : Workspace) (d : Document) : Prop extends Single w d where
  ownsText : d.root.OwnsText

/-- A document that was read is alone. Its tree and what follows its last line can be read back, whatever the source. -/
theorem alone_read {options : OptionsArgument} {set : OptionSet}
    (hoptions : options.resolve .reader = .ok set) (hvalidate : set.readOptions.validate = true)
    (hw : ({} : Workspace).parse "main" options src true = .ok w) :
    ∃ d, Alone w d ∧ ∀ source, d.root.stripped.Rereads source set.readOptions.maxNesting ∧ d.trailing.Shows source Tail := by
  obtain ⟨set', s, hset', hs, hsingle⟩ := single_parse hw
  cases hoptions.symm.trans hset'
  refine ⟨_, ⟨hsingle, (owning_toDocument s).1.labelled 1⟩, ?_⟩
  rw [stripped_labelled]
  exact s.rereadable hvalidate hs

/-- The same for the source of the document. -/
theorem alone_parse {options : OptionsArgument} {set : OptionSet}
    (hoptions : options.resolve .reader = .ok set) (hvalidate : set.readOptions.validate = true)
    (hw : ({} : Workspace).parse "main" options src true = .ok w) :
    ∃ d, Alone w d ∧ d.root.stripped.Rereads (d.source.map String.toList) set.readOptions.maxNesting ∧
      d.trailing.Shows (d.source.map String.toList) Tail := by
  obtain ⟨d, halone, hread⟩ := alone_read hoptions hvalidate hw
  exact ⟨d, halone, hread _⟩

namespace Alone

variable {w : Workspace} {d : Document} {l : Locator} {x : Item}

section

variable (h : Alone w d)

include h

theorem follow (hx : w.find l = .ok x) : d.root.follow l.path = .ok x := follow_of_find h.documents h.held hx

theorem ownsText_find (hx : w.find l = .ok x) : x.OwnsText :=
  h.ownsText.within (within_of_follow (h.follow hx))

theorem commit (hx : w.find l = .ok x) (hchange : x.Change Loose x') :
    ∃ root, Alone (w.commit x') { d with root } ∧ root.stripped = d.root.stripped.replaceAt l.path x'.stripped := by
  obtain ⟨hinfo, hlabels⟩ := hchange.labels fun y hy => hy.unlabelled.labels
  have hx' : x'.OwnsText := (h.ownsText_find hx).change (hchange.imp fun y hy => hy.ownsText)
  refine ⟨_, ⟨h.toSingle.commit (h.follow hx) hinfo hlabels, ?_⟩, ?_⟩
  · dsimp only
    rw [← (h.distinct.graft (h.follow hx) hinfo hlabels).1]
    exact h.ownsText.graft (hx'.labelled _)
  · rw [stripped_replaceAt, stripped_labelled]

/-- Data that has a form in a table is put under a name. -/
theorem assign {y : Item} (hx : w.findMapping l = .ok x) (hy : x.coerced data = .ok y)
    (hloose : y.Loose) (hvalue : x.isInlineTable = true → y.isValue = true) (name : String) :
    ∃ w' root, w.assign l name data = .ok w' ∧ Alone w' { d with root } ∧
      root.stripped = d.root.stripped.replaceAt l.path
        (x.stripped.withEntries (place name y.stripped x.stripped.entries)) := by
  obtain ⟨hfind, hmapping⟩ := findMapping_eq_ok.mp hx
  obtain ⟨root, hroot, heq⟩ := h.commit hfind (.place name y hmapping hloose hvalue)
  refine ⟨_, root, ?_, hroot, ?_⟩
  · have hassign : x.assign name data = .ok (x.withEntries (place name y x.entries)) :=
      bind_eq_ok.mpr ⟨x, (h.ownsText_find hfind).editable_eq, bind_eq_ok.mpr ⟨y, hy, rfl⟩⟩
    exact bind_eq_ok.mpr ⟨x, hx, map_eq_ok.mpr ⟨_, mapError_eq_ok.mpr hassign, rfl⟩⟩
  · rw [heq, stripped_withEntries, place_stripped, entries_stripped]

theorem erase {name : String} (hx : w.findMapping l = .ok x) (hname : name ∈ x.entries.map Entry.name) :
    ∃ w' root, w.erase l name = .ok w' ∧ Alone w' { d with root } ∧ root.stripped =
      d.root.stripped.replaceAt l.path (x.stripped.withEntries (eraseEntry name x.stripped.entries)) := by
  obtain ⟨hfind, -⟩ := findMapping_eq_ok.mp hx
  obtain ⟨root, hroot, heq⟩ := h.commit hfind (.erase name)
  refine ⟨_, root, ?_, hroot, ?_⟩
  · have herase : x.erase name = .ok (x.withEntries (eraseEntry name x.entries)) := by
      refine bind_eq_ok.mpr ⟨x, (h.ownsText_find hfind).editable_eq, ?_⟩
      rw [entryNamed?]
      split
      · next hnone => exact absurd hname (findNamed?_eq_none_iff.mp hnone)
      · rfl
    exact bind_eq_ok.mpr ⟨x, hx, map_eq_ok.mpr ⟨_, mapError_eq_ok.mpr herase, rfl⟩⟩
  · rw [heq, stripped_withEntries, eraseEntry_stripped]

/-- Data that has a form in an array, or in an array of tables, is put behind the elements. -/
theorem append {y : Item} (hx : w.findArray l = .ok x)
    (hy : (if x.isArrayOfTables then ofTable data else (ofValue data).map (ownedFor data)) = .ok y)
    (hloose : y.Loose) (hkind : if x.isArrayOfTables then y.isTable = true else y.isValue = true) :
    ∃ n w' root, w.append l data = .ok (n, w') ∧ Alone w' { d with root } ∧ root.stripped =
      d.root.stripped.replaceAt l.path (x.stripped.withElements (x.stripped.elements?.getD [] ++ [y.stripped])) := by
  have hfind := (findArray_eq_ok.mp hx).1
  obtain ⟨root, hroot, heq⟩ := h.commit hfind (.append y hloose hkind)
  refine ⟨((x.withElements (x.elements?.getD [] ++ [y])).elements?.getD []).length, _, root, ?_, hroot, ?_⟩
  · have happend : x.append data = .ok (x.withElements (x.elements?.getD [] ++ [y])) := by
      refine bind_eq_ok.mpr ⟨x, (h.ownsText_find hfind).editable_eq, ?_⟩
      rw [hy]
    exact bind_eq_ok.mpr ⟨x, hx, bind_eq_ok.mpr ⟨_, mapError_eq_ok.mpr happend, rfl⟩⟩
  · rw [heq, stripped_withElements, append_stripped]

/-- A document whose tree can be read back is written as a text that is parsed, with the data of the document. -/
theorem reads_back (hroot : d.root.stripped.Rereads (d.source.map String.toList) options.maxNesting)
    (htrailing : d.trailing.Shows (d.source.map String.toList) Tail) (hnewline : IsNewline layout.newline.toList)
    (hseparator : Trivia layout.separator.toList) :
    ∃ text s, w.slot "main" = .ok { content := .document d } ∧ d.render layout = .ok text ∧
      Verbatim.parse options (.text text) = .ok s ∧ Data.Same s.root.unwrap d.root.unwrap := by
  obtain ⟨text, s, htext, hs, hsame⟩ := hroot.parses htrailing hnewline hseparator
  refine ⟨text, s, ?_, htext, hs, hsame⟩
  rw [slot, h.documents]
  rfl

end

end Alone

end Workspace

end Verbatim

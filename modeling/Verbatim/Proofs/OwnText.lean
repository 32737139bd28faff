import Mathlib.Logic.Relation
import Verbatim.Proofs.EditStep
import Verbatim.Proofs.RoundTrip

/-!
# Editable documents own their text

A tree *owns its text* if no reference is left in it and none of its items is read-only. Detaching makes such trees, and
edits keep them as long as the items that they bring in own their text as well. So whatever is done to a workspace, its
editable documents own their text if nothing but items of editable documents is put into them, and they are written the same
whatever source they remember. An item of a snapshot brings its references along.

## Main statements

- `Item.OwnsText` - a tree without references in which every item is editable.
- `Workspace.Step`, `Workspace.Owning` - what can be done to a workspace, and what it keeps.
- `Workspace.documents_own_text` - the editable documents of every run own their text.
- `Workspace.snapshot_item_refers` - a run in which an item of a snapshot is put into a document.
-/

namespace Verbatim

open List Item

variable {x : Item} {s : Slot}

namespace Item

variable {x new : Item}

/-! ## Trees that own their text -/

/-- No text of the item itself is a reference, and it can be edited. -/
structure OwnsItself (x : Item) : Prop where
  texts : ∀ t ∈ x.ownTexts, t.isRef = false
  editable : x.frozen = false

/-- No reference is left in the tree, and none of its items is read-only. -/
def OwnsText (x : Item) : Prop := ∀ y, Within y x → y.OwnsItself

theorem ownsText_iff : OwnsText x ↔ x.OwnsItself ∧ ∀ z ∈ x.children, OwnsText z := forall_within_iff

theorem OwnsText.child (h : OwnsText x) (hz : z ∈ x.children) : OwnsText z := fun y hy => h y (.child hz hy)

theorem OwnsText.within (h : OwnsText x) (hy : Within y x) : OwnsText y := fun _ hz => h _ (hz.trans hy)

/-- No reference is collected from a tree that owns its text. -/
theorem OwnsText.spans (h : OwnsText x) (htrailing : trailing.isRef = false) : x.spans (some trailing) = [] := by
  refine eq_nil_iff_forall_not_mem.mpr fun span hspan => ?_
  rcases ownTexts_of_spans hspan with ⟨y, hy, ht⟩ | rfl
  · cases (h y hy).texts _ ht
  · cases htrailing

/-! ## Changes that keep the text owned -/

/-- A rewording that gives owned texts and editable items owns its text. -/
theorem ownsText_reworded (hr : ∀ i, (r i).frozen = false) (hf : ∀ y, Within y x → ∀ t ∈ y.ownTexts, (f t).isRef = false) :
    OwnsText (x.reworded r f) := by
  intro y hy
  obtain ⟨z, hz, rfl⟩ := within_reworded hy
  refine ⟨?_, ?_⟩
  · rw [ownTexts_reworded, forall_mem_map]
    exact hf z hz
  · rw [frozen, info_reworded]
    exact hr _

theorem ownsText_detach (source : List Char) (x : Item) : OwnsText (x.detach source) := by
  rw [detach_eq_reworded]
  exact ownsText_reworded (fun _ => rfl) fun _ _ t _ => SpanText.isRef_detach source t

theorem OwnsText.copied (h : OwnsText x) : OwnsText x.copied := by
  rw [copied_eq_reworded]
  exact ownsText_reworded (fun _ => rfl) fun y hy => (h y hy).texts

/-- Items whose own parts are the same but for text around them, with the same members. -/
private theorem OwnsText.withDecor (h : OwnsText x) (hd : ∀ t ∈ d.texts, t.isRef = false) : OwnsText (x.withDecor d) := by
  obtain ⟨⟨htexts, hfrozen⟩, hmembers⟩ := ownsText_iff.mp h
  refine ownsText_iff.mpr ⟨⟨?_, ?_⟩, ?_⟩
  · cases x <;>
      simp only [withDecor, ownTexts, forall_mem_append, forall_mem_cons] at htexts ⊢
    case scalar => exact ⟨htexts.1, hd⟩
    case array => exact ⟨htexts.1, hd⟩
    case inlineTable => exact ⟨⟨htexts.1.1, hd⟩, htexts.2⟩
    case table => exact ⟨⟨hd, htexts.1.2⟩, htexts.2⟩
    case arrayOfTables => exact htexts
  · cases x <;> exact hfrozen
  · cases x <;> exact hmembers

theorem OwnsText.decor (h : OwnsText x) (hd : x.decor? = some d) : ∀ t ∈ d.texts, t.isRef = false := by
  have htexts := (h x .self).texts
  cases x <;> cases hd <;> simp only [ownTexts, forall_mem_append, forall_mem_cons] at htexts
  case scalar => exact htexts.2
  case array => exact htexts.2
  case inlineTable => exact htexts.1.2
  case table => exact htexts.1.1

/-- The text that an item takes over from the one it replaces is owned as well. -/
theorem OwnsText.replacing (hold : OwnsText old) (hnew : OwnsText new) : OwnsText (replacing old new) := by
  rw [Item.replacing]
  split
  · next d d' _ hd _ =>
    split
    · exact hnew.withDecor (hold.decor hd)
    · exact hnew
  · exact hnew

private theorem entryTexts_new (h : NewEntries es) (he : e ∈ es) : entryTexts e = [] := by
  rw [h.plain e he]
  rfl

/-- Data whose items own their text becomes an item that owns its text. -/
theorem convertible_ownsText : Convertible OwnsText OwnsText where
  kept _ h := h
  copied _ h := h.copied
  replacing _ _ hold hnew := hold.replacing hnew
  scalar kind value _ := ownsText_iff.mpr ⟨⟨by simp [ownTexts, Decor.texts], rfl⟩, by simp [children]⟩
  array vs h := ownsText_iff.mpr ⟨⟨by simp [ownTexts, Decor.texts, SpanText.empty, SpanText.isRef], rfl⟩, fun v hv => (h v hv).1⟩
  inlineTable es hnew h := by
    refine ownsText_iff.mpr ⟨⟨?_, rfl⟩, ?_⟩
    · simp only [ownTexts, forall_mem_append, forall_mem_flatMap]
      refine ⟨by simp [Decor.texts, SpanText.empty, SpanText.isRef], fun e he => ?_⟩
      simp [entryTexts_new hnew he]
    · rw [children, forall_mem_map]
      exact fun e he => (h e he).1
  table es hnew h := by
    refine ownsText_iff.mpr ⟨⟨?_, rfl⟩, ?_⟩
    · simp only [ownTexts, forall_mem_append, forall_mem_flatMap]
      refine ⟨by simp [Decor.texts], fun e he => ?_⟩
      simp [entryTexts_new hnew he]
    · rw [children, forall_mem_map]
      exact h
  arrayOfTables ts _ h := ownsText_iff.mpr ⟨⟨by simp [ownTexts], rfl⟩, fun t ht => (h t ht).1⟩

/-- The keys of an entry and the item under them own their text. -/
def EntryOwns (e : Entry Item) : Prop := (∀ t ∈ entryTexts e, t.isRef = false) ∧ OwnsText e.item

theorem OwnsText.entry (h : OwnsText x) (he : e ∈ x.entries) : EntryOwns e := by
  obtain ⟨⟨htexts, -⟩, hmembers⟩ := ownsText_iff.mp h
  cases x <;> simp only [entries, not_mem_nil] at he <;>
    simp only [ownTexts, forall_mem_append, forall_mem_flatMap] at htexts
  all_goals exact ⟨htexts.2 e he, hmembers _ (mem_map_of_mem he)⟩

/-- Other entries of owned text in place of the entries of a table. -/
theorem OwnsText.withEntries (h : OwnsText x) (hes : ∀ e ∈ es, EntryOwns e) : OwnsText (x.withEntries es) := by
  obtain ⟨⟨htexts, hfrozen⟩, -⟩ := ownsText_iff.mp h
  have hmembers : ∀ z ∈ es.map Entry.item, OwnsText z := by
    rw [forall_mem_map]
    exact fun e he => (hes e he).2
  have hkeys : ∀ t ∈ es.flatMap entryTexts, t.isRef = false := forall_mem_flatMap.mpr fun e he => (hes e he).1
  cases x with
  | inlineTable i f es' =>
    simp only [ownTexts, forall_mem_append] at htexts
    exact ownsText_iff.mpr ⟨⟨forall_mem_append.mpr ⟨htexts.1, hkeys⟩, hfrozen⟩, hmembers⟩
  | table i f es' =>
    simp only [ownTexts, forall_mem_append] at htexts
    exact ownsText_iff.mpr ⟨⟨forall_mem_append.mpr ⟨forall_mem_append.mpr htexts.1, hkeys⟩, hfrozen⟩, hmembers⟩
  | _ => exact h

theorem OwnsText.withElements (h : OwnsText x) (hys : ∀ y ∈ ys, OwnsText y) : OwnsText (x.withElements ys) := by
  obtain ⟨⟨htexts, hfrozen⟩, -⟩ := ownsText_iff.mp h
  cases x with
  | array i f vs => exact ownsText_iff.mpr ⟨⟨htexts, hfrozen⟩, hys⟩
  | arrayOfTables i ts => exact ownsText_iff.mpr ⟨⟨htexts, hfrozen⟩, hys⟩
  | _ => exact h

/-- An edit that brings in owned text keeps the text owned. -/
theorem OwnsText.change (h : OwnsText x) (hx : Change OwnsText x x') : OwnsText x' := by
  cases hx with
  | place name y _ hy _ =>
    refine h.withEntries fun e he => ?_
    rcases mem_place_cases he with he | ⟨d, hd, rfl⟩ | rfl
    · exact h.entry he
    · obtain ⟨hkeys, hold⟩ := h.entry hd
      exact ⟨hkeys, hold.replacing hy⟩
    · exact ⟨by simp [entryTexts, Key.texts, Decor.texts], hy⟩
  | erase name => exact h.withEntries fun e he => h.entry (mem_filter.mp he).1
  | append y hy _ =>
    refine h.withElements fun z hz => ?_
    rcases mem_append.mp hz with hz | hz
    · refine h.child ?_
      cases x <;> first | exact hz | cases hz
    · rw [mem_singleton.mp hz]
      exact hy

theorem frozen_labelled (next : Nat) (x : Item) : (x.labelled next).1.frozen = x.frozen := by
  rw [frozen, info_labelled, freshInfo]
  split <;> rfl

theorem OwnsText.labelled (h : OwnsText x) (next : Nat) : OwnsText (x.labelled next).1 := by
  have hentries : ∀ (es : List (Entry Item)) (next : Nat),
      (labelledEntries next es).1.flatMap entryTexts = es.flatMap entryTexts := by
    intro es
    induction es with
    | nil => exact fun _ => rfl
    | cons e es ih =>
      intro next
      simp only [labelledEntries, flatMap_cons, ih]
      rfl
  intro y hy
  obtain ⟨z, n, hz, -, rfl⟩ := within_labelled hy
  obtain ⟨htexts, hfrozen⟩ := h z hz
  refine ⟨?_, (frozen_labelled n z).trans hfrozen⟩
  cases z <;> simpa only [Item.labelled, ownTexts, hentries] using htexts

theorem ownTexts_mapMembers (g : Item → Item) (x : Item) : (x.mapMembers g).ownTexts = x.ownTexts := by
  cases x <;> simp only [mapMembers, ownTexts, flatMap_map] <;> rfl

/-- Putting versions that own their text in a tree that owns its text. -/
theorem OwnsText.graft (hx : OwnsText x) (hnew : OwnsText new) : OwnsText (x.graft new.versions) := by
  intro y hy
  rcases within_graft hy with hy | ⟨z, hz, rfl, -⟩
  · exact hnew y hy
  · obtain ⟨htexts, hfrozen⟩ := hx z hz
    exact ⟨by rwa [ownTexts_mapMembers], by rwa [frozen, info_mapMembers]⟩

/-! ## Snapshots -/

/-- Every item of the tree is read-only or owns its text, as the items of a snapshot do. -/
def Guarded (x : Item) : Prop := ∀ y, Within y x → y.frozen = true ∨ y.OwnsText

theorem guarded_freeze (x : Item) : Guarded (x.freeze true) := by
  intro y hy
  rw [freeze_eq_reworded] at hy
  obtain ⟨z, -, rfl⟩ := within_reworded hy
  rw [frozen, info_reworded]
  exact .inl rfl

theorem OwnsText.guarded (h : OwnsText x) : Guarded x := fun _ hy => .inr (h.within hy)

theorem Guarded.labelled (h : Guarded x) (next : Nat) : Guarded (x.labelled next).1 := by
  intro y hy
  obtain ⟨z, n, hz, -, rfl⟩ := within_labelled hy
  exact (h z hz).imp (frozen_labelled n z).trans fun howns => howns.labelled n

theorem Guarded.graft (hx : Guarded x) (hnew : OwnsText new) : Guarded (x.graft new.versions) := by
  intro y hy
  rcases within_graft hy with hy | ⟨z, hz, hmap, hgraft⟩
  · exact .inr (hnew.within hy)
  · rcases hx z hz with hfrozen | howns
    · rw [hmap, frozen, info_mapMembers]
      exact .inl hfrozen
    · exact .inr (hgraft ▸ howns.graft hnew)

end Item

/-! ## Writing owned text -/

private theorem detach_of_not_ref {t : SpanText} (source : List Char) (h : t.isRef = false) : t.detach source = t := by
  cases t with
  | owned s => rfl
  | ref s => cases h

/-- Detaching a tree that owns its text leaves its text as it is. -/
theorem Item.OwnsText.reworded_detach (h : x.OwnsText) (r : Info → Info) (source : List Char) :
    x.reworded r (SpanText.detach source) = x.reworded r id :=
  reworded_congr fun y hy t ht => detach_of_not_ref source ((h y hy).texts t ht)

namespace Render

/-- A tree that owns its text is written the same whatever the source. -/
theorem renderTree_ownsText (h : x.OwnsText) (htrailing : trailing.isRef = false) (layout : Layout)
    (source other : Option (List Char)) :
    renderTree layout source x (some trailing) = renderTree layout other x (some trailing) := by
  have hempty : ∀ any : Option (List Char),
      renderTree layout any x (some trailing) = renderTree layout (some []) x (some trailing) := by
    intro any
    have hany := @renderTree_reworded id (SpanText.detach []) (some []) any (resolves_detach [] any) layout x (some trailing)
    rwa [h.reworded_detach, reworded_id, Option.map_some, detach_of_not_ref [] htrailing] at hany
  rw [hempty source, hempty other]

end Render

/-! ## Workspaces -/

/-- What is kept of a document of a workspace: an editable one owns its text, and a snapshot is guarded. -/
def Slot.Owning (s : Slot) : Prop :=
  match s.content with
  | .document d => d.root.OwnsText ∧ d.trailing.isRef = false
  | .snapshot x => x.root.Guarded
  | .consumed _ => True

theorem Slot.Owning.root (h : s.Owning) (hx : s.root = .ok x) : x.Guarded := by
  rw [Slot.root] at hx
  split at hx
  · cases hx
  · cases hx
  · next y hcontent _ =>
    cases hx
    rwa [Owning, hcontent] at h
  · next d hcontent _ =>
    cases hx
    rw [Owning, hcontent] at h
    exact h.1.guarded

/-- Changing the root to something made from the root. -/
theorem Slot.mapRoot_of_root (g : Item → Item) (h : s.root = .ok x) : s.mapRoot (fun _ => g x) = s.mapRoot g := by
  obtain ⟨content, broken⟩ := s
  cases content <;> cases broken <;> cases h <;> rfl

/-- A change that keeps owned text and guarded trees keeps what is known of a document. -/
theorem Slot.Owning.mapRoot (h : s.Owning) (howns : ∀ x, x.OwnsText → (g x).OwnsText)
    (hguarded : ∀ x, x.Guarded → (g x).Guarded) : (s.mapRoot g).Owning := by
  unfold Slot.mapRoot
  split
  · next x hcontent =>
    rw [Owning, hcontent] at h
    exact hguarded _ h
  · exact h
  · next d hcontent =>
    rw [Owning, hcontent] at h
    exact ⟨howns _ h.1, h.2⟩

namespace Workspace

variable {x : Item} {w : Workspace}

/-- Every editable document of the workspace owns its text, and every snapshot is guarded. -/
structure Owning (w : Workspace) : Prop where
  held : w.held = []
  slots : ∀ name s, (name, s) ∈ w.documents → s.Owning

theorem mem_putNamed {α : Type} {name n : String} {x y : α} {l : List (String × α)} (h : (n, y) ∈ putNamed name x l) :
    y = x ∨ (n, y) ∈ l := by
  induction l with
  | nil =>
    cases mem_singleton.mp h
    exact .inl rfl
  | cons p l ih =>
    rw [putNamed] at h
    split at h
    · rcases mem_cons.mp h with h | h
      · cases h
        exact .inl rfl
      · exact .inr (mem_cons_of_mem _ h)
    · rcases mem_cons.mp h with h | h
      · exact .inr (h ▸ mem_cons_self)
      · exact (ih h).imp id (mem_cons_of_mem _)

theorem Owning.put (h : w.Owning) (name : String) (hs : s.Owning) : (w.put name s).Owning := by
  rw [Workspace.put]
  split
  · refine ⟨h.held, fun n t ht => ?_⟩
    rcases mem_putNamed ht with rfl | ht
    · exact hs
    · exact h.slots n t ht
  · next root hroot =>
    refine ⟨h.held, fun n t ht => ?_⟩
    rcases mem_putNamed ht with rfl | ht
    · rw [Slot.mapRoot_of_root (fun x => (x.labelled w.next).1) hroot]
      exact hs.mapRoot (fun _ hx => hx.labelled w.next) fun _ hx => hx.labelled w.next
    · exact h.slots n t ht

/-- A new version that owns its text can be put in all places. -/
theorem Owning.commit (h : w.Owning) (hx : x.OwnsText) : (w.commit x).Owning := by
  have hnew := hx.labelled w.next
  refine ⟨by simp [Workspace.commit, h.held], fun n t ht => ?_⟩
  obtain ⟨⟨m, s⟩, hs, heq⟩ := mem_map.mp ht
  cases heq
  exact (h.slots _ s hs).mapRoot (fun _ hy => hy.graft hnew) fun _ hy => hy.graft hnew

/-- What is found in such a workspace is read-only or owns its text. -/
theorem Owning.find (h : w.Owning) (hx : w.find l = .ok x) : x.frozen = true ∨ x.OwnsText := by
  obtain ⟨y, hy, hx⟩ := bind_eq_ok.mp hx
  rw [start] at hy
  split at hy
  · simp [h.held] at hy
  · obtain ⟨s, hs, hy⟩ := bind_eq_ok.mp hy
    rw [slot] at hs
    split at hs
    · next t hlookup =>
      cases hs
      obtain ⟨before, after, hsplit, -⟩ := lookup_eq_some_iff.mp hlookup
      have hslot := h.slots l.document s (by simp [hsplit])
      exact hslot.root hy x (within_of_follow (mapError_eq_ok.mp hx))
    · cases hs

/-! ## Runs -/

/-- The items of the editable documents of a workspace. -/
def Offers (w : Workspace) (x : Item) : Prop :=
  ∃ name s d, (name, s) ∈ w.documents ∧ s.content = .document d ∧ x.Within d.root

/-- What can be done to a workspace: documents are read, made new and handed over, and entries and elements are set, appended
and deleted, with plain data and with items of editable documents. -/
inductive Step (w : Workspace) : Workspace → Prop where
  /-- A source is read. -/
  | parse {name : String} {options : OptionsArgument} {source : Source} {editable : Bool} {w' : Workspace}
      (h : w.parse name options source editable = .ok w') : Step w w'
  | create (name : String) (editable : Bool) : Step w (w.create name editable)
  | wrap {name : String} {d : Input} {w' : Workspace} (hd : d.Carries w.Offers) (h : w.wrap name d = .ok w') : Step w w'
  /-- A snapshot becomes a document. -/
  | handOver {name target : String} {w' : Workspace} (h : w.handOver name target true = .ok w') : Step w w'
  /-- An entry or element is set, appended, deleted or taken out. -/
  | edit {e : Edit} {w' : Workspace} (he : e.Carries w.Offers) (hd : e.isDefault = false) (h : e.apply w = .ok w') : Step w w'

theorem Owning.offers (h : w.Owning) (hx : w.Offers x) : x.OwnsText := by
  obtain ⟨name, s, d, hs, hcontent, hwithin⟩ := hx
  have hslot := h.slots name s hs
  rw [Slot.Owning, hcontent] at hslot
  exact hslot.1.within hwithin

theorem owning_toDocument (s : Snapshot) : ({ content := .document s.toDocument } : Slot).Owning :=
  ⟨ownsText_detach _ _, SpanText.isRef_detach _ _⟩

theorem owning_empty : ({ content := .document {} } : Slot).Owning :=
  ⟨ownsText_iff.mpr ⟨⟨by simp [emptyRoot, ownTexts, Decor.texts], rfl⟩, by simp [emptyRoot, children]⟩, rfl⟩

/-- Whatever is done to a workspace, its editable documents keep owning their text. -/
theorem Owning.step {w' : Workspace} (h : w.Owning) (hstep : Step w w') : w'.Owning := by
  cases hstep with
  | @parse name options source editable _ hw =>
    obtain ⟨o, -, hw⟩ := bind_eq_ok.mp hw
    obtain ⟨s, hs, hw⟩ := bind_eq_ok.mp hw
    cases hw
    obtain ⟨text, mode, root, trailing, -, -, -, rfl⟩ := parse_eq_ok (mapError_eq_ok.mp hs)
    refine h.put name ?_
    cases editable with
    | true => exact owning_toDocument _
    | false => exact guarded_freeze root
  | create name editable =>
    refine h.put name ?_
    cases editable with
    | true => exact owning_empty
    | false => exact guarded_freeze emptyRoot
  | @wrap name d _ hd hw =>
    unfold Workspace.wrap at hw
    split at hw
    · cases hw
      exact h.put name owning_empty
    · next x =>
      split at hw
      · cases hw
        cases hd with
        | leaf hleaf => cases hleaf
        | item hx => exact h.put name ⟨h.offers hx, rfl⟩
      · cases hw
    · cases hw
  | @handOver name target _ hw =>
    obtain ⟨s, hs, hw⟩ := bind_eq_ok.mp hw
    split at hw
    · cases hw
    · cases hw
    · next x hcontent =>
      obtain ⟨root, -, hw⟩ := bind_eq_ok.mp hw
      cases hw
      have hconsumed : { w with documents := putNamed name { content := .consumed x.mode } w.documents }.Owning := by
        refine ⟨h.held, fun n t ht => ?_⟩
        rcases mem_putNamed ht with rfl | ht
        · trivial
        · exact h.slots n t ht
      exact (hconsumed.put target (owning_toDocument x)).commit (owning_toDocument x).1
  | @edit e _ he hd hw =>
    have hcarries : e.Carries OwnsText := by
      cases e <;> first | exact Data.Carries.imp (fun _ => h.offers) he | trivial
    rcases Edit.apply_cases (hcarries.brings convertible_ownsText) hw with rfl | ⟨x, x', hx, rfl, hchange⟩
    · exact h
    · rcases hchange with ⟨hfrozen, hchange⟩ | ⟨hdefault, -⟩
      · -- an item that can be edited is none of a snapshot
        have howns : x.OwnsText := (h.find hx).resolve_left (by simp [hfrozen])
        exact h.commit (howns.change hchange)
      · rw [hd] at hdefault
        cases hdefault

theorem Owning.run (h : w.Owning) (hrun : Relation.ReflTransGen Step w w') : w'.Owning := by
  induction hrun with
  | refl => exact h
  | tail _ hstep ih => exact ih.step hstep

/-- **Editable documents own their text.** Whatever is read, made, handed over and edited, with plain data and with items of
editable documents, no editable document ever holds a reference or a read-only item, so its text does not depend on the
source that it remembers. -/
theorem documents_own_text {w : Workspace} (hrun : Relation.ReflTransGen Step {} w) {name : String} {s : Slot} {d : Document}
    (hs : (name, s) ∈ w.documents) (hd : s.content = .document d) :
    d.spans = [] ∧ (∀ x : Item, x.Within d.root → x.frozen = false) ∧
      ∀ (layout : Layout) (source : Option String), { d with source }.render layout = d.render layout := by
  have hempty : ({} : Workspace).Owning := ⟨rfl, by simp⟩
  have hslot := (hempty.run hrun).slots name s hs
  rw [Slot.Owning, hd] at hslot
  obtain ⟨howns, htrailing⟩ := hslot
  exact ⟨howns.spans htrailing, fun x hx => (howns x hx).editable,
    fun layout source => Render.renderTree_ownsText howns htrailing layout _ _⟩

def document? (w : Workspace) (name : String) : Except Failure Document := do
  match (← w.slot name).content with
  | .document d => .ok d
  | _ => .error (.misfit name)

theorem document?_eq_ok (h : w.document? name = .ok d) : ∃ s, (name, s) ∈ w.documents ∧ s.content = .document d := by
  obtain ⟨s, hs, hd⟩ := bind_eq_ok.mp h
  rw [slot] at hs
  split at hs
  · next t hlookup =>
    cases hs
    obtain ⟨before, after, hsplit, -⟩ := lookup_eq_some_iff.mp hlookup
    refine ⟨s, by simp [hsplit], ?_⟩
    split at hd
    · next hcontent =>
      cases hd
      exact hcontent
    · cases hd
  · cases hs

/-- An item of an editable document is put into another one, which was handed over. -/
theorem documents_own_text_shared : ∃ w d, Relation.ReflTransGen Step {} w ∧ w.document? "main" = .ok d ∧
    d.render {} = .ok "a = [ 2 ] # two\n" ∧ d.spans = [] ∧ (∀ x : Item, x.Within d.root → x.frozen = false) ∧
      ∀ (layout : Layout) (source : Option String), { d with source }.render layout = d.render layout := by
  have hrun : (do
      let w₁ ← ({} : Workspace).parse "first" .unset (.text "a = 1\n") false
      let w₂ ← w₁.handOver "first" "main" true
      let w₃ ← w₂.parse "other" .unset (.text "b = [ 2 ] # two\n") true
      let e ← w₃.document? "other"
      let x ← (e.root.follow [.name "b"]).mapError .path
      let w₄ ← w₃.assign {} "a" (.item x)
      let d ← w₄.document? "main"
      (d.render {}).mapError .render : Except Failure String).toOption = some "a = [ 2 ] # two\n" := by
    decide +kernel
  obtain ⟨w₁, h₁, hrun⟩ := bind_eq_ok.mp (toOption_eq_some.mp hrun)
  obtain ⟨w₂, h₂, hrun⟩ := bind_eq_ok.mp hrun
  obtain ⟨w₃, h₃, hrun⟩ := bind_eq_ok.mp hrun
  obtain ⟨e, he, hrun⟩ := bind_eq_ok.mp hrun
  obtain ⟨x, hx, hrun⟩ := bind_eq_ok.mp hrun
  obtain ⟨w₄, h₄, hrun⟩ := bind_eq_ok.mp hrun
  obtain ⟨d, hd, hrun⟩ := bind_eq_ok.mp hrun
  obtain ⟨s, hs, hcontent⟩ := document?_eq_ok he
  have hoffer : w₃.Offers x := ⟨"other", s, e, hs, hcontent, within_of_follow (mapError_eq_ok.mp hx)⟩
  have hassign : Step w₃ w₄ := .edit (e := .assign {} "a" (.item x)) (.item hoffer) rfl h₄
  have hsteps : Relation.ReflTransGen Step {} w₄ :=
    .tail (.tail (.tail (.single (.parse h₁)) (.handOver h₂)) (.parse h₃)) hassign
  obtain ⟨t, ht, htcontent⟩ := document?_eq_ok hd
  exact ⟨w₄, d, hsteps, hd, mapError_eq_ok.mp hrun, documents_own_text hsteps ht htcontent⟩

/-- An item of a snapshot brings its references along: they are read in the text of the document that it is put into, and
without that text the document cannot be written. -/
theorem snapshot_item_refers : (do
      let w ← ({} : Workspace).parse "main" .unset (.text "a = 1\n") true
      let w ← w.parse "other" .unset (.text "b = 2\n") false
      let x ← w.find { document := "other", path := [.name "b"] }
      let w ← w.assign {} "a" (.item x)
      let d ← w.document? "main"
      .ok (x.unwrap.integerValue?, d.spans, (d.render {}).toOption, ({ d with source := none }.render {}).toOption) :
        Except Failure (Option Int × List Span × Option String × Option String)).toOption =
    some (some 2, [⟨4, 5⟩, ⟨3, 4⟩], some "a = 1\n", none) := by
  decide +kernel

end Workspace

end Verbatim

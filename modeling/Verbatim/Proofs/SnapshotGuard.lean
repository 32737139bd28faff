import Mathlib.Data.List.Nodup
import Mathlib.Logic.Relation
import Verbatim.Proofs.NamedLists
import Verbatim.Proofs.OnePlace
import Verbatim.Proofs.OwnText

/-!
# Guarded snapshots

A workspace puts a new version of an item wherever the label of the item stands, so a snapshot stays as it is as long as no
new version has the label of one of its items. New versions come from edits, which read-only items refuse, from documents
that are read or made, and from snapshots that are handed over.
-/

namespace Verbatim

open List Item

namespace Item

variable {x y new : Item}

/-! ## Labels of shared trees -/

private theorem labelledEach_of_labels (h : ∀ x ∈ xs, ∀ n, x.labelled n = (x, n)) (next : Nat) :
    labelledEach next xs = (xs, next) := by
  induction xs generalizing next with
  | nil => rfl
  | cons x xs ih =>
    obtain ⟨hx, hxs⟩ := forall_mem_cons.mp h
    simp only [labelledEach, hx next, ih hxs next]

private theorem labelledEntries_of_labels (h : ∀ e ∈ es, ∀ n, e.item.labelled n = (e.item, n)) (next : Nat) :
    labelledEntries next es = (es, next) := by
  induction es generalizing next with
  | nil => rfl
  | cons e es ih =>
    obtain ⟨he, hes⟩ := forall_mem_cons.mp h
    simp only [labelledEntries, he next, ih hes next]

/-- A tree whose items all have labels keeps them. -/
theorem labelled_of_labels (h : ∀ y, Within y x → y.info.label ≠ 0) (next : Nat) : x.labelled next = (x, next) := by
  induction x using childInduction generalizing next with
  | step x ih =>
    have hself := h x .self
    have hmembers : ∀ z ∈ x.children, ∀ n, z.labelled n = (z, n) := fun z hz n => ih z hz (fun y hy => h y (.child hz hy)) n
    cases x <;> simp only [info, children, forall_mem_map] at hself hmembers <;>
      simp only [labelled, freshInfo, freshNext, if_neg hself]
    case array => rw [labelledEach_of_labels hmembers]
    case inlineTable => rw [labelledEntries_of_labels hmembers]
    case table => rw [labelledEntries_of_labels hmembers]
    case arrayOfTables => rw [labelledEach_of_labels hmembers]

/-! ## New versions -/

/-- Every item within has no label yet or is one of those that are known. -/
def Familiar (known : Item → Prop) (x : Item) : Prop := ∀ y, Within y x → y.info.label = 0 ∨ known y

theorem familiar_iff :
    Familiar known x ↔ (x.info.label = 0 ∨ known x) ∧ ∀ z ∈ x.children, Familiar known z := forall_within_iff

/-- A new item: it has no label, and the items below it have none or are known. -/
structure Fresh (known : Item → Prop) (x : Item) : Prop where
  label : x.info.label = 0
  members : ∀ z ∈ x.children, Familiar known z

variable {known : Item → Prop}

theorem Fresh.familiar (h : Fresh known x) : Familiar known x := familiar_iff.mpr ⟨.inl h.label, h.members⟩

theorem children_withDecor (d : Decor) (x : Item) : (x.withDecor d).children = x.children := by
  cases x <;> rfl

theorem Fresh.replacing (h : Fresh known new) (old : Item) : Fresh known (replacing old new) := by
  unfold Item.replacing
  split
  · split
    · refine ⟨?_, ?_⟩
      · have hinfo : ∀ d : Decor, (new.withDecor d).info = new.info := by cases new <;> intro d <;> rfl
        rw [hinfo, h.label]
      · rw [children_withDecor]
        exact h.members
    · exact h
  · exact h

theorem fresh_copied (x : Item) : Fresh known x.copied := by
  have hlabels : ∀ y, Within y x.copied → y.info.label = 0 := by
    intro y hy
    rw [copied_eq_reworded] at hy
    obtain ⟨z, -, rfl⟩ := within_reworded hy
    rw [info_reworded]
  exact ⟨hlabels _ .self, fun z hz y hy => .inl (hlabels y (.child hz hy))⟩

/-- Conversion makes new items around those that are known. An item that is known stays itself in an array only, where
nothing about it is changed. -/
theorem convertible_familiar (hknown : ∀ x y, known x → Within y x → known y) :
    Convertible known (Familiar known) (Fresh known) where
  kept x hx := fun y hy => .inr (hknown x y hx hy)
  copied x _ := fresh_copied x
  weaken _ h := h.familiar
  replacing old _ _ hnew := hnew.replacing old
  scalar _ _ _ := ⟨rfl, by simp [children]⟩
  array _ h := ⟨rfl, fun v hv => (h v hv).1⟩
  inlineTable _ _ h := ⟨rfl, forall_mem_map.mpr fun e he => (h e he).1.familiar⟩
  table _ _ h := ⟨rfl, forall_mem_map.mpr fun e he => (h e he).familiar⟩
  arrayOfTables _ _ h := ⟨rfl, fun t ht => (h t ht).1.familiar⟩

/-- A changed item keeps its label, and what stands below it is new or known. -/
structure Renews (known : Item → Prop) (x x' : Item) : Prop where
  info : x'.info = x.info
  members : ∀ z ∈ x'.children, Familiar known z

theorem mem_children_of_entry (he : e ∈ x.entries) : e.item ∈ x.children := by
  cases x <;> first | exact mem_map_of_mem he | cases he

theorem mem_children_of_element (hy : y ∈ x.elements?.getD []) : y ∈ x.children := by
  cases x <;> first | exact hy | cases hy

theorem children_withEntries (hx : x.isMapping = true) (es : List (Entry Item)) :
    (x.withEntries es).children = es.map Entry.item := by
  cases x <;> first | rfl | cases hx

theorem children_withElements (hx : x.elements?.isSome = true) (xs : List Item) : (x.withElements xs).children = xs := by
  cases x <;> first | rfl | cases hx

theorem withElements_of_not_array (hx : x.elements?.isSome = false) (xs : List Item) : x.withElements xs = x := by
  cases x <;> first | rfl | cases hx

section

variable (hx : ∀ z ∈ x.children, Familiar known z)

include hx

theorem renews_withEntries (hes : ∀ e ∈ es, Familiar known e.item) :
    Renews known x (x.withEntries es) := by
  refine ⟨info_withEntries es x, ?_⟩
  cases hmapping : x.isMapping with
  | true =>
    rw [children_withEntries hmapping]
    exact forall_mem_map.mpr hes
  | false =>
    rw [withEntries_of_not_mapping hmapping]
    exact hx

theorem Change.renews (h : Change (Fresh known) x x') : Renews known x x' := by
  have hentries : ∀ e ∈ x.entries, Familiar known e.item := fun e he => hx _ (mem_children_of_entry he)
  cases h with
  | place name y _ hy _ =>
    apply renews_withEntries hx
    intro e he
    rcases mem_place_cases he with he | ⟨d, -, rfl⟩ | rfl
    · exact hentries e he
    · exact (hy.replacing d.item).familiar
    · exact hy.familiar
  | erase name => exact renews_withEntries hx fun e he => hentries e (mem_filter.mp he).1
  | append y hy _ =>
    refine ⟨info_withElements _ x, ?_⟩
    cases harray : x.elements?.isSome with
    | true =>
      rw [children_withElements harray]
      intro z hz
      rcases mem_append.mp hz with hz | hz
      · exact hx z (mem_children_of_element hz)
      · rw [mem_singleton.mp hz]
        exact hy.familiar
    | false =>
      rw [withElements_of_not_array harray]
      exact hx

theorem Renews.refl : Renews known x x := ⟨rfl, hx⟩

end

theorem Renews.trans (hxy : Renews known x y) (hyz : Renews known y z) : Renews known x z :=
  ⟨hyz.info.trans hxy.info, hyz.members⟩

end Item

/-! ## Where items are found -/

namespace Slot

theorem root_mapRoot (g : Item → Item) (s : Slot) : (s.mapRoot g).root = s.root.map g := by
  obtain ⟨content, broken⟩ := s
  cases content <;> cases broken <;> rfl

theorem broken_mapRoot (g : Item → Item) (s : Slot) : (s.mapRoot g).broken = s.broken := by
  obtain ⟨content, broken⟩ := s
  cases content <;> rfl

end Slot

namespace Workspace

variable {w : Workspace} {name : String} {s : Slot} {x y new root : Item} {l : Locator} {next : Nat}

theorem slot_eq_ok : w.slot name = .ok s ↔ w.documents.lookup name = some s := by
  unfold slot
  cases w.documents.lookup name <;> simp

/-- The items that can be found in a workspace: those within the root of a document or within a held item. -/
def Knows (w : Workspace) (x : Item) : Prop := ∃ l root, w.start l = .ok root ∧ x.Within root

theorem Knows.within (h : w.Knows x) (hy : y.Within x) : w.Knows y := by
  obtain ⟨l, root, hroot, hx⟩ := h
  exact ⟨l, root, hroot, hy.trans hx⟩

theorem knows_of_find (h : w.find l = .ok x) : w.Knows x := by
  obtain ⟨root, hroot, hx⟩ := bind_eq_ok.mp h
  exact ⟨l, root, hroot, within_of_follow (mapError_eq_ok.mp hx)⟩

/-- A path starts at the root of a document or at a held item. -/
theorem start_eq_ok : w.start l = .ok root ↔
    (l.held = none ∧ ∃ s, w.documents.lookup l.document = some s ∧ s.root = .ok root) ∨
      ∃ name, l.held = some name ∧ w.held.lookup name = some root := by
  unfold start
  cases l.held with
  | none =>
    simp only [bind_eq_ok, slot_eq_ok, reduceCtorEq, false_and, exists_false, or_false, true_and]
  | some name =>
    cases hlookup : w.held.lookup name <;> simp [hlookup]

theorem knows_of_slot (hs : w.documents.lookup name = some s) (hroot : s.root = .ok root) (hx : x.Within root) :
    w.Knows x :=
  ⟨{ document := name }, root, start_eq_ok.mpr (.inl ⟨rfl, s, hs, hroot⟩), hx⟩

/-! ## Guarded snapshots -/

/-- A snapshot stands under a name. -/
def Keeps (w : Workspace) (name : String) (s : Snapshot) : Prop := w.documents.lookup name = some { content := .snapshot s }

theorem Keeps.knows {s : Snapshot} (h : w.Keeps name s) (hx : x.Within s.root) : w.Knows x := knows_of_slot h rfl hx

/-- Every item of a snapshot is read-only, and no other item has its label. -/
structure Guards (w : Workspace) : Prop where
  next_pos : 0 < w.next
  /-- No name stands for two documents. -/
  names : (w.documents.map Prod.fst).Nodup
  /-- No name stands for two held items. -/
  heldNames : (w.held.map Prod.fst).Nodup
  /-- The roots of documents are tables. -/
  whole : ∀ p ∈ w.documents, p.2.broken = none
  /-- Items that can be found have labels. -/
  labels : ∀ x, w.Knows x → 0 < x.info.label ∧ x.info.label < w.next
  /-- The items of snapshots are read-only. -/
  frozen : ∀ name s, w.Keeps name s → ∀ x : Item, x.Within s.root → x.frozen = true
  /-- What has the label of such an item is that item. -/
  alone : ∀ name s, w.Keeps name s → ∀ x y : Item, x.Within s.root → w.Knows y → y.info.label = x.info.label → y = x
  /-- No two snapshots have an item in common. -/
  apart : ∀ name s, w.Keeps name s → ∀ name' s', w.Keeps name' s' → name ≠ name' →
    ∀ x y : Item, x.Within s.root → y.Within s'.root → x.info.label ≠ y.info.label

theorem Guards.labelled (h : w.Guards) (hx : w.Knows x) (next : Nat) : x.labelled next = (x, next) := by
  apply labelled_of_labels
  intro y hy
  have := (h.labels y (hx.within hy)).1
  omega

/-- Versions that can be put in all places: they have labels, and where they have that of an item of a snapshot they are that
item. -/
structure Admits (w : Workspace) (new : Item) (next : Nat) : Prop where
  next_le : w.next ≤ next
  labels : ∀ z : Item, z.Within new → 0 < z.info.label ∧ z.info.label < next
  agree : ∀ name s, w.Keeps name s → ∀ x z : Item, x.Within s.root → z.Within new → z.info.label = x.info.label → z = x

/-- The workspace with versions put in all places. -/
def grafted (w : Workspace) (new : Item) (next : Nat) : Workspace where
  documents := w.documents.map fun (n, s) => (n, s.mapRoot (graft new.versions))
  held := w.held.map fun (n, y) => (n, y.graft new.versions)
  next

theorem commit_eq_grafted (w : Workspace) (x : Item) :
    w.commit x = w.grafted (x.labelled w.next).1 (x.labelled w.next).2 := rfl

theorem start_grafted (h : (w.grafted new next).start l = .ok root) :
    ∃ old, w.start l = .ok old ∧ root = old.graft new.versions := by
  rcases start_eq_ok.mp h with ⟨hheld, s, hs, hroot⟩ | ⟨name, hheld, hroot⟩
  · rw [grafted, lookup_map, Option.map_eq_some_iff] at hs
    obtain ⟨t, ht, rfl⟩ := hs
    rw [Slot.root_mapRoot] at hroot
    obtain ⟨old, hold, rfl⟩ := map_eq_ok.mp hroot
    exact ⟨old, start_eq_ok.mpr (.inl ⟨hheld, t, ht, hold⟩), rfl⟩
  · rw [grafted, lookup_map, Option.map_eq_some_iff] at hroot
    obtain ⟨old, hold, rfl⟩ := hroot
    exact ⟨old, start_eq_ok.mpr (.inr ⟨name, hheld, hold⟩), rfl⟩

/-- An item that is found afterwards is one of a version or takes the place of one that was found before. -/
theorem knows_grafted (h : (w.grafted new next).Knows y) :
    y.Within new ∨ ∃ z, w.Knows z ∧ y.info = z.info ∧ y = z.graft new.versions := by
  obtain ⟨l, root, hroot, hy⟩ := h
  obtain ⟨old, hold, rfl⟩ := start_grafted hroot
  exact (within_graft hy).imp_right fun ⟨z, hz, hmap, heq⟩ => ⟨z, ⟨l, old, hold, hz⟩, hmap ▸ info_mapMembers .., heq⟩

/-- Snapshots stay as they are when such versions are put in all places. -/
theorem Admits.keeps_iff (h : w.Admits new next) {s : Snapshot} : (w.grafted new next).Keeps name s ↔ w.Keeps name s := by
  have hsame : ∀ t, w.Keeps name t → t.root.graft new.versions = t.root := fun t ht =>
    graft_of_agree fun y z hy hz => h.agree name t ht y z hy hz
  unfold Keeps
  rw [grafted, lookup_map, Option.map_eq_some_iff]
  constructor
  · rintro ⟨⟨content, broken⟩, hlookup, heq⟩
    cases content with
    | snapshot t =>
      cases heq
      simp only [hsame t hlookup]
      exact hlookup
    | _ => cases heq
  · intro hlookup
    refine ⟨_, hlookup, ?_⟩
    simp only [Slot.mapRoot, hsame s hlookup]

theorem Guards.grafted (h : w.Guards) (hnew : w.Admits new next) :
    (w.grafted new next).Guards where
  next_pos := Nat.lt_of_lt_of_le h.next_pos hnew.next_le
  names := by simpa [Workspace.grafted, Function.comp_def] using h.names
  heldNames := by simpa [Workspace.grafted, Function.comp_def] using h.heldNames
  whole p hp := by
    obtain ⟨q, hq, rfl⟩ := mem_map.mp hp
    exact (Slot.broken_mapRoot ..).trans (h.whole q hq)
  labels y hy := by
    rcases knows_grafted hy with hy | ⟨z, hz, hinfo, -⟩
    · exact hnew.labels y hy
    · rw [hinfo]
      have := h.labels z hz
      have := hnew.next_le
      exact ⟨by omega, show z.info.label < next by omega⟩
  frozen name s hs x hx := h.frozen name s (hnew.keeps_iff.mp hs) x hx
  alone name s hs x y hx hy hlabel := by
    have hs := hnew.keeps_iff.mp hs
    rcases knows_grafted hy with hy | ⟨z, hz, hinfo, rfl⟩
    · exact hnew.agree name s hs x y hx hy hlabel
    · -- the item was that item of the snapshot before, and nothing in it changed
      obtain rfl := h.alone name s hs x z hx hz (hinfo ▸ hlabel)
      exact graft_of_agree fun v z' hv hz' => hnew.agree name s hs v z' (hv.trans hx) hz'
  apart name s hs name' s' hs' := h.apart name s (hnew.keeps_iff.mp hs) name' s' (hnew.keeps_iff.mp hs')

/-! ## Items that touch no snapshot -/

/-- An item without a label, an item that can be found, or an item with a label that no item of a snapshot has. -/
def Harmless (w : Workspace) (z : Item) : Prop :=
  z.info.label = 0 ∨ w.Knows z ∨
    (0 < z.info.label ∧ z.info.label < w.next ∧
      ∀ name s, w.Keeps name s → ∀ x : Item, x.Within s.root → x.info.label ≠ z.info.label)

theorem Harmless.label_lt (h : w.Guards) (hz : w.Harmless z) : z.info.label < w.next := by
  rcases hz with hz | hz | ⟨-, hz, -⟩
  · rw [hz]
    exact h.next_pos
  · exact (h.labels z hz).2
  · exact hz

theorem label_labelled (n : Nat) (z : Item) :
    (z.labelled n).1.info.label = if z.info.label = 0 then n else z.info.label := by
  rw [info_labelled, freshInfo]
  split <;> rfl

/-- A labelled tree has the labels of the tree and new ones. -/
theorem label_of_within_labelled (hx : ∀ z : Item, z.Within x → z.info.label < next) (hy : y.Within (x.labelled next).1) :
    y.info.label < (x.labelled next).2 := by
  have hmem := label_mem_labels hy
  rw [(labels_labelled next x).1] at hmem
  rw [(labels_labelled next x).2]
  rcases mem_relabelled hmem with ⟨hold, -⟩ | ⟨-, hlt⟩
  · obtain ⟨⟨l, z⟩, hz, hl⟩ := mem_map.mp hold
    obtain ⟨hlabel, hz⟩ := mem_versions.mp hz
    have := hx z hz
    have : l = y.info.label := hl
    omega
  · exact hlt

/-- Versions made of harmless items can be put in all places. -/
theorem Guards.admits (h : w.Guards) (hx : ∀ z : Item, z.Within x → w.Harmless z) :
    w.Admits (x.labelled w.next).1 (x.labelled w.next).2 where
  next_le := by
    rw [(labels_labelled w.next x).2]
    omega
  labels y hy := by
    refine ⟨?_, label_of_within_labelled (fun z hz => (hx z hz).label_lt h) hy⟩
    obtain ⟨z, n, hz, hn, rfl⟩ := within_labelled hy
    have := h.next_pos
    rw [label_labelled]
    split <;> omega
  agree name s hs v y hv hy hlabel := by
    obtain ⟨z, n, hz, hn, rfl⟩ := within_labelled hy
    have hv' := (h.labels v (hs.knows hv)).2
    have hpos := (h.labels v (hs.knows hv)).1
    rw [label_labelled] at hlabel
    rcases hx z hz with hzero | hknown | ⟨hz, -, hother⟩
    · -- a new label is larger than all others
      rw [if_pos hzero] at hlabel
      omega
    · rw [h.labelled hknown]
      refine h.alone name s hs v z hv hknown ?_
      rwa [if_neg (by have := (h.labels z hknown).1; omega)] at hlabel
    · rw [if_neg (by omega)] at hlabel
      exact absurd hlabel.symm (hother name s hs v hv)

/-- A new version that is harmless leaves snapshots as they are. -/
theorem Guards.commit (h : w.Guards) (hx : ∀ z : Item, z.Within x → w.Harmless z) :
    (w.commit x).Guards ∧ ∀ name s, (w.commit x).Keeps name s ↔ w.Keeps name s := by
  rw [commit_eq_grafted]
  exact ⟨h.grafted (h.admits hx), fun name s => (h.admits hx).keeps_iff⟩

/-- A document under a name. A snapshot among the new documents has new labels only. -/
theorem Guards.putSlot (h : w.Guards) (hwhole : s.broken = none) (hnext : w.next ≤ next)
    (hroot : ∀ root, s.root = .ok root → w.Admits root next)
    (hsnapshot : ∀ t, s = { content := .snapshot t } → t.root.labels.Nodup ∧
      ∀ x : Item, x.Within t.root → x.frozen = true ∧ w.next ≤ x.info.label) :
    { w with documents := putNamed name s w.documents, next }.Guards := by
  have hknows : ∀ y, { w with documents := putNamed name s w.documents, next }.Knows y →
      (∃ root, s.root = .ok root ∧ y.Within root) ∨ w.Knows y := by
    rintro y ⟨l, root, hstart, hy⟩
    rcases start_eq_ok.mp hstart with ⟨hheld, t, ht, htroot⟩ | hheld
    · rw [lookup_putNamed] at ht
      split at ht
      · cases ht
        exact .inl ⟨root, htroot, hy⟩
      · exact .inr ⟨l, root, start_eq_ok.mpr (.inl ⟨hheld, t, ht, htroot⟩), hy⟩
    · exact .inr ⟨l, root, start_eq_ok.mpr (.inr hheld), hy⟩
  have hkeeps : ∀ n t, { w with documents := putNamed name s w.documents, next }.Keeps n t →
      (n = name ∧ s = { content := .snapshot t }) ∨ (n ≠ name ∧ w.Keeps n t) := by
    intro n t ht
    rw [Keeps, lookup_putNamed] at ht
    split at ht
    · next hn => exact .inl ⟨hn, Option.some.inj ht⟩
    · next hn => exact .inr ⟨hn, ht⟩
  constructor
  case next_pos => exact Nat.lt_of_lt_of_le h.next_pos hnext
  case names => exact nodup_putNamed h.names name s
  case heldNames => exact h.heldNames
  case whole =>
    rintro ⟨n, t⟩ ht
    rcases mem_putNamed ht with rfl | ht
    · exact hwhole
    · exact h.whole _ ht
  case labels =>
    intro y hy
    rcases hknows y hy with ⟨root, hok, hy⟩ | hy
    · exact (hroot root hok).labels y hy
    · have := h.labels y hy
      exact ⟨this.1, show y.info.label < next by omega⟩
  case frozen =>
    intro n t ht x hx
    rcases hkeeps n t ht with ⟨-, hs⟩ | ⟨-, ht⟩
    · exact ((hsnapshot t hs).2 x hx).1
    · exact h.frozen n t ht x hx
  case alone =>
    intro n t ht x y hx hy hlabel
    rcases hkeeps n t ht with ⟨-, rfl⟩ | ⟨-, ht⟩ <;> rcases hknows y hy with ⟨root, hok, hy⟩ | hy
    · cases hok
      exact eq_of_label (hsnapshot t rfl).1 hy hx hlabel
    · have := (h.labels y hy).2
      have := ((hsnapshot t rfl).2 x hx).2
      omega
    · exact (hroot root hok).agree n t ht x y hx hy hlabel
    · exact h.alone n t ht x y hx hy hlabel
  case apart =>
    intro n t ht n' t' ht' hne x y hx hy hlabel
    rcases hkeeps n t ht with ⟨hn, hs⟩ | ⟨-, ht⟩ <;> rcases hkeeps n' t' ht' with ⟨hn', hs'⟩ | ⟨-, ht'⟩
    · exact hne (hn.trans hn'.symm)
    · have := (h.labels y (ht'.knows hy)).2
      have := ((hsnapshot t hs).2 x hx).2
      omega
    · have := (h.labels x (ht.knows hx)).2
      have := ((hsnapshot t' hs').2 y hy).2
      omega
    · exact h.apart n t ht n' t' ht' hne x y hx hy hlabel

/-- A document whose root is harmless under a name; the root of a snapshot is read-only and has no labels yet. -/
theorem Guards.put (h : w.Guards) (root : Item) (hroot : s.root = .ok root)
    (hharmless : ∀ z : Item, z.Within root → w.Harmless z)
    (hsnapshot : ∀ t, s.content = .snapshot t → ∀ z : Item, z.Within root → z.frozen = true ∧ z.info.label = 0) :
    (w.put name s).Guards := by
  unfold Workspace.put
  rw [hroot]
  have hadmits := h.admits hharmless
  have hwhole : s.broken = none := by
    obtain ⟨content, broken⟩ := s
    cases content <;> cases broken <;> first | rfl | cases hroot
  refine h.putSlot ((Slot.broken_mapRoot ..).trans hwhole) hadmits.next_le ?_ ?_
  · intro root' hroot'
    rw [Slot.root_mapRoot, hroot] at hroot'
    cases hroot'
    exact hadmits
  · intro t ht
    obtain ⟨content, broken⟩ := s
    cases content with
    | snapshot t' =>
      cases ht
      have hlabels : ∀ l ∈ root.labels, l = 0 := Unlabelled.labels fun z hz => (hsnapshot t' rfl z hz).2
      refine ⟨?_, fun y hy => ?_⟩
      · show (root.labelled w.next).1.labels.Nodup
        rw [(labels_labelled w.next root).1]
        apply nodup_relabelled
        · rw [filter_eq_nil_iff.mpr fun l hl => by simp [hlabels l hl]]
          exact nodup_nil
        · intro l hl
          rw [hlabels l hl]
          exact h.next_pos
      · obtain ⟨z, n, hz, hn, rfl⟩ := within_labelled (show y.Within (root.labelled w.next).1 from hy)
        obtain ⟨hfrozen, hzero⟩ := hsnapshot t' rfl z hz
        rw [label_labelled, if_pos hzero, Item.frozen, Item.info_labelled, Item.freshInfo, if_pos hzero]
        exact ⟨hfrozen, hn⟩
    | _ => cases ht

theorem lookup_put (hn : n ≠ name) : (w.put name s).documents.lookup n = w.documents.lookup n := by
  unfold Workspace.put
  split <;> rw [lookup_putNamed, if_neg hn]

end Workspace

end Verbatim

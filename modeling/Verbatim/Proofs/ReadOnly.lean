import Verbatim.Proofs.SnapshotGuard

/-!
# Snapshots are read-only

The items of a snapshot refuse edits. So a snapshot stays as it was read whatever is done to its items, to documents that are
wrapped around its table, to copies of its items and to the documents that hold them, until it is handed over. From then on
it answers nothing.

## Main statements

- `Workspace.Operation`, `Workspace.Use` - what is done to containers, and what else is done in a workspace.
- `Workspace.snapshots_stay_as_read` - a snapshot stays as it was read until it is handed over.
-/

namespace Verbatim.Workspace

open List Item

variable {w w' : Workspace} {o : Operation} {x : Item} {im name : String} {s : Snapshot}

/-! ## Operations on containers -/

/-- What can be done to a container. -/
inductive Operation where
  | assign (l : Locator) (name : String) (d : Input)
  | erase (l : Locator) (name : String)
  | pop (l : Locator) (name : String) (default : Option Input)
  | popFirst (l : Locator)
  | clear (l : Locator)
  | assignAll (l : Locator) (d : Input)
  | setDefault (l : Locator) (name : String) (d : Input)
  | append (l : Locator) (d : Input)

namespace Operation

/-- The container that an operation is about. -/
def target : Operation → Locator
  | .assign l .. | .erase l _ | .pop l .. | .popFirst l | .clear l | .assignAll l _ | .setDefault l .. | .append l _ => l

/-- The workspace after a result, which is the same as before if there is none, and what is reported. -/
def outcome (w : Workspace) : Except Failure Workspace → Workspace × Except Failure Unit
  | .ok w' => (w', .ok ())
  | .error e => (w, .error e)

/-- The workspace after an operation, and what the operation reports. -/
def perform (w : Workspace) : Operation → Workspace × Except Failure Unit
  | .assign l name d => outcome w (w.assign l name d)
  | .erase l name => outcome w (w.erase l name)
  | .pop l name default => outcome w ((w.pop l name default).map Prod.snd)
  | .popFirst l => outcome w ((w.popFirst l).map fun r => r.2.2)
  | .clear l => outcome w (w.clear l)
  | .assignAll l d => w.assignAll l d
  | .setDefault l name d => outcome w ((w.setDefault l name d).map Prod.snd)
  | .append l d => outcome w ((w.append l d).map Prod.snd)

/-- Whether a container is of the kind that an operation is for. -/
def fits (x : Item) : Operation → Bool
  | .append .. => x.elements?.isSome
  | _ => x.isMapping

/-- Whether an operation is about to change the contents of a container. Only taking out what is not there, setting nothing and
leaving a default alone do not. -/
def writes (x : Item) : Operation → Bool
  | .assign .. | .erase .. | .append .. => true
  | .pop _ name _ => (x.get? name).isSome
  | .popFirst _ | .clear _ => !x.entries.isEmpty
  | .assignAll _ d => (d.pairs?.getD []).length != 0
  | .setDefault _ name _ => (x.get? name).isNone

/-- The data that an operation brings in carries items of one kind only. -/
def Carries (given : Item → Prop) : Operation → Prop
  | .assign _ _ d | .assignAll _ d | .setDefault _ _ d | .append _ d => d.Carries given
  | .erase .. | .pop .. | .popFirst _ | .clear _ => True

end Operation

/-! ## What an operation makes of a container -/

section Renewal

variable {x x' : Item} {d : Input} {name : String}

variable {known : Item → Prop}

/-- The container after an operation: the same, or one that can be edited with new or known items in it. -/
def Renewal (known : Item → Prop) (x x' : Item) : Prop := Item.Renews known x x' ∧ (x' = x ∨ x.frozen = false)

theorem renewal_of_change (hx : ∀ z ∈ x.children, Item.Familiar known z)
    (h : x.frozen = false ∧ x.Change (Item.Fresh known) x') : Renewal known x x' := ⟨h.2.renews hx, .inr h.1⟩

theorem namedPairs_eq (es : List (Input × Input)) : Data.namedPairs className es = namedBy es := by
  induction es with
  | nil => rfl
  | cons e es ih =>
    unfold Data.namedPairs
    rw [ih]
    rfl

/-- The data of the entries that a mapping gives carries what the mapping carries. -/
theorem carries_pairs (hknown : ∀ x y, known x → Item.Within y x → known y) (hd : d.Carries known) (hes : d.pairs? = some es) :
    ∀ e ∈ es, e.2.Carries known := by
  cases hd with
  | leaf hleaf => cases d <;> simp only [Data.isLeaf, Bool.false_eq_true] at hleaf <;> cases hes
  | @item x hx =>
    have hes : (if x.isMapping then some (x.entries.map fun e => (e.name, Data.item e.item)) else none) = some es := hes
    split at hes
    · cases hes
      intro e he
      obtain ⟨e', he', rfl⟩ := mem_map.mp he
      exact .item (hknown x _ hx (.child (mem_children_of_entry he') .self))
    · cases hes
  | table members =>
    cases hes
    exact members
  | mapping members =>
    cases hes
    rw [namedPairs_eq]
    exact forall_mem_map.mpr members
  | _ => cases hes

/-- Setting entries one after the other, up to the first that is refused. -/
theorem assignAll_renewal (hknown : ∀ x y, known x → Item.Within y x → known y) (hes : ∀ e ∈ es, e.2.Carries known)
    (hmapping : x.isMapping = true) (hx : ∀ z ∈ x.children, Item.Familiar known z) : Renewal known x (x.assignAll es).1 := by
  induction es generalizing x with
  | nil => exact ⟨.refl hx, .inl rfl⟩
  | cons e es ih =>
    obtain ⟨hd, hes⟩ := forall_mem_cons.mp hes
    unfold Item.assignAll
    split
    · exact ⟨.refl hx, .inl rfl⟩
    · next x' hassign =>
      obtain ⟨hfrozen, hchange⟩ := assign_change ((convertible_familiar hknown).brings hd) hmapping hassign
      have hrenews := hchange.renews hx
      have hmapping' : x'.isMapping = true := by
        obtain ⟨y, hy, h⟩ := bind_eq_ok.mp hassign
        obtain ⟨-, rfl⟩ := editable_cases hy
        obtain ⟨z, -, h⟩ := bind_eq_ok.mp h
        cases h
        cases y <;> first | rfl | cases hmapping
      exact ⟨hrenews.trans (ih hes hmapping' hrenews.members).1, .inr hfrozen⟩

theorem clear_renewal (hx : ∀ z ∈ x.children, Item.Familiar known z) (h : x.clear = .ok x') : Renewal known x x' := by
  unfold Item.clear at h
  split at h
  · cases h
    exact ⟨.refl hx, .inl rfl⟩
  · obtain ⟨y, hy, rfl⟩ := map_eq_ok.mp h
    obtain ⟨hfrozen, rfl⟩ := editable_cases hy
    exact ⟨renews_withEntries hx (forall_mem_nil _), .inr hfrozen⟩

theorem popFirst_renewal (hx : ∀ z ∈ x.children, Item.Familiar known z) (h : x.popFirst = .ok (name, y, x')) :
    Renewal known x x' := by
  unfold Item.popFirst at h
  split at h
  · cases h
  · obtain ⟨⟨z, x''⟩, hpop, ⟨⟩⟩ := map_eq_ok.mp h
    unfold Item.pop at hpop
    split at hpop
    · cases hpop
    · obtain ⟨x'', herase, ⟨⟩⟩ := map_eq_ok.mp hpop
      exact renewal_of_change hx (erase_change herase)

end Renewal

/-- What an operation can do: nothing, or put a new version of its container in all places. -/
theorem Operation.perform_cases (ho : o.Carries w.Knows) :
    (o.perform w).1 = w ∨ ∃ x x', w.find o.target = .ok x ∧ (o.perform w).1 = w.commit x' ∧ Renewal w.Knows x x' := by
  have hknown : ∀ x y, w.Knows x → Item.Within y x → w.Knows y := fun x y hx hy => hx.within hy
  -- what stands below a container that is found can be found
  have hmembers : ∀ x, w.find o.target = .ok x → ∀ z ∈ x.children, Item.Familiar w.Knows z :=
    fun x hx z hz y hy => .inr ((knows_of_find hx).within (.child hz hy))
  have hcommit : ∀ {r : Except Failure Workspace}, o.perform w = outcome w r →
      (∀ w', r = .ok w' → w' = w ∨ ∃ x x', w.find o.target = .ok x ∧ w' = w.commit x' ∧ Renewal w.Knows x x') →
      (o.perform w).1 = w ∨ ∃ x x', w.find o.target = .ok x ∧ (o.perform w).1 = w.commit x' ∧ Renewal w.Knows x x' := by
    intro r hr h
    rw [hr]
    cases r with
    | error e => exact .inl rfl
    | ok w' => exact h w' rfl
  have hedit : ∀ e : Edit, o.perform w = outcome w (e.apply w) → o.target = e.target → e.Carries w.Knows →
      (o.perform w).1 = w ∨ ∃ x x', w.find o.target = .ok x ∧ (o.perform w).1 = w.commit x' ∧ Renewal w.Knows x x' := by
    intro e hperform htarget he
    refine hcommit hperform fun w' h => ?_
    rcases Edit.apply_cases (he.brings (convertible_familiar hknown)) h with rfl | ⟨x, x', hx, rfl, hchange⟩
    · exact .inl rfl
    · rw [← htarget] at hx
      refine .inr ⟨x, x', hx, rfl, ?_⟩
      rcases hchange with hchange | ⟨-, rfl⟩
      · exact renewal_of_change (hmembers x hx) hchange
      · exact ⟨.refl (hmembers _ hx), .inl rfl⟩
  cases o with
  | assign l name d => exact hedit (.assign l name d) rfl rfl ho
  | erase l name => exact hedit (.erase l name) rfl rfl ho
  | pop l name default => exact hedit (.pop l name default) rfl rfl ho
  | setDefault l name d => exact hedit (.setDefault l name d) rfl rfl ho
  | append l d => exact hedit (.append l d) rfl rfl ho
  | popFirst l =>
    refine hcommit rfl fun w' h => ?_
    obtain ⟨⟨name, y, w₁⟩, hpop, rfl⟩ := map_eq_ok.mp h
    obtain ⟨x, hx, hpop⟩ := bind_eq_ok.mp hpop
    have hfind := (findMapping_eq_ok.mp hx).1
    obtain ⟨⟨name', y', x'⟩, hx', hpop⟩ := bind_eq_ok.mp hpop
    cases hpop
    exact .inr ⟨x, x', hfind, rfl, popFirst_renewal (hmembers x hfind) (mapError_eq_ok.mp hx')⟩
  | clear l =>
    refine hcommit rfl fun w' h => ?_
    obtain ⟨x, hx, h⟩ := bind_eq_ok.mp h
    obtain ⟨x', hx', rfl⟩ := map_eq_ok.mp h
    have hfind := (findMapping_eq_ok.mp hx).1
    exact .inr ⟨x, x', hfind, rfl, clear_renewal (hmembers x hfind) (mapError_eq_ok.mp hx')⟩
  | assignAll l d =>
    simp only [perform, Workspace.assignAll]
    split
    · exact .inl rfl
    · next x hx =>
      obtain ⟨hfind, hmapping⟩ := findMapping_eq_ok.mp hx
      split
      · exact .inl rfl
      · next es hes =>
        exact .inr ⟨x, _, hfind, rfl, assignAll_renewal hknown (carries_pairs hknown ho hes) hmapping (hmembers x hfind)⟩

/-- New versions of containers are harmless: a container of a snapshot stays the same, and no other has its label. -/
theorem Guards.harmless (h : w.Guards) (hx : w.Knows x) (hx' : Renewal w.Knows x x') :
    ∀ z : Item, z.Within x' → w.Harmless z := by
  obtain ⟨hrenews, hsame⟩ := hx'
  intro z hz
  rcases within_iff.mp hz with rfl | ⟨c, hc, hz⟩
  · rcases hsame with rfl | hfrozen
    · exact .inr (.inl hx)
    · obtain ⟨hpos, hlt⟩ := h.labels x hx
      rw [← hrenews.info] at hpos hlt
      refine .inr (.inr ⟨hpos, hlt, fun name s hs v hv hlabel => ?_⟩)
      rw [hrenews.info] at hlabel
      obtain rfl := h.alone name s hs v x hv hx hlabel.symm
      rw [h.frozen name s hs x hv] at hfrozen
      cases hfrozen
  · exact (hrenews.members c hc z hz).imp_right .inl

/-- An operation leaves snapshots as they are. -/
theorem Guards.perform (h : w.Guards) (ho : o.Carries w.Knows) :
    (o.perform w).1.Guards ∧ ∀ name s, (o.perform w).1.Keeps name s ↔ w.Keeps name s := by
  rcases Operation.perform_cases ho with hsame | ⟨x, x', hx, hw, hrenewal⟩
  · rw [hsame]
    exact ⟨h, fun name s => .rfl⟩
  · rw [hw]
    exact h.commit (h.harmless (knows_of_find hx) hrenewal)

/-! ## Operations on items of snapshots -/

/-- The first entry of a container is found under its name. -/
theorem get?_first (h : x.entries = e :: es) : x.get? e.name = some e.item := by
  unfold get? entryNamed? findNamed?
  rw [h, List.find?_cons_of_pos (by simp)]
  rfl

/-- An operation that is about to change a read-only container is refused. -/
theorem Operation.report_frozen (hx : w.find o.target = .ok x) (hfrozen : x.frozen = true) (hfits : o.fits x = true)
    (hwrites : o.writes x = true) : (o.perform w).2 = .error (.edit (.readOnly x.typeName)) := by
  have hedit : ∀ e : Edit, w.find e.target = .ok x → e.fits x = true → e.writes x = true →
      (outcome w (e.apply w)).2 = .error (.edit (.readOnly x.typeName)) := by
    intro e hx hfits hwrites
    rw [Edit.apply_eq_error.mpr (.objection hx hfits (.readOnly hfrozen hwrites))]
    rfl
  cases o with
  | assign l name d => exact hedit (.assign l name d) hx hfits hwrites
  | erase l name => exact hedit (.erase l name) hx hfits hwrites
  | pop l name default => exact hedit (.pop l name default) hx hfits hwrites
  | setDefault l name d => exact hedit (.setDefault l name d) hx hfits hwrites
  | append l d => exact hedit (.append l d) hx hfits hwrites
  | popFirst l =>
    have hfound : w.findMapping l = .ok x := findMapping_eq_ok.mpr ⟨hx, hfits⟩
    have hne : x.entries ≠ [] := by simpa [writes] using hwrites
    obtain ⟨e, es, hes⟩ := exists_cons_of_ne_nil hne
    simp only [perform, Workspace.popFirst, hfound, bind, Except.bind, Item.popFirst, hes, Item.pop, get?_first hes,
      Item.erase_eq_error.mpr (.inl ⟨hfrozen, rfl⟩)]
    rfl
  | clear l =>
    have hfound : w.findMapping l = .ok x := findMapping_eq_ok.mpr ⟨hx, hfits⟩
    have hne : x.entries.isEmpty = false := by simpa [writes] using hwrites
    simp only [perform, Workspace.clear, hfound, bind, Except.bind, Item.clear, hne, Bool.false_eq_true, if_false,
      Item.editable, hfrozen, if_true]
    rfl
  | assignAll l d =>
    have hfound : w.findMapping l = .ok x := findMapping_eq_ok.mpr ⟨hx, hfits⟩
    cases hpairs : d.pairs? with
    | none => simp [writes, hpairs] at hwrites
    | some es =>
      have hne : es ≠ [] := by simpa [writes, hpairs] using hwrites
      obtain ⟨e, es, rfl⟩ := exists_cons_of_ne_nil hne
      simp only [perform, Workspace.assignAll, hfound, hpairs, Item.assignAll,
        Item.assign_eq_error.mpr (.inl ⟨hfrozen, rfl⟩)]
      rfl

/-! ## Refused edits -/

def Edit.operation : Edit → Operation
  | .assign l name d => .assign l name d
  | .erase l name => .erase l name
  | .pop l name default => .pop l name default
  | .setDefault l name d => .setDefault l name d
  | .append l d => .append l d

/-- Putting an item of a snapshot back where it stands changes nothing. -/
theorem Guards.commit_self (h : w.Guards) (hs : w.Keeps name s) (hx : x.Within s.root) : w.commit x = w := by
  have hgraft : ∀ y : Item, (∀ z : Item, z.Within y → w.Knows z) → y.graft x.versions = y := by
    intro y hy
    apply graft_of_agree
    intro v z hv hz hlabel
    exact (h.alone name s hs z v (hz.trans hx) (hy v hv) hlabel.symm).symm
  have hdocuments : ∀ p ∈ w.documents, (p.1, p.2.mapRoot (graft x.versions)) = p := by
    rintro ⟨n, ⟨content, broken⟩⟩ ht
    have hlookup := lookup_of_mem h.names ht
    obtain rfl : broken = none := h.whole _ ht
    cases content with
    | consumed mode => rfl
    | snapshot t => simp only [Slot.mapRoot, hgraft t.root fun z hz => knows_of_slot hlookup rfl hz]
    | document d => simp only [Slot.mapRoot, hgraft d.root fun z hz => knows_of_slot hlookup rfl hz]
  have hheld : ∀ p ∈ w.held, (p.1, p.2.graft x.versions) = p := by
    rintro ⟨n, y⟩ hy
    rw [hgraft y fun z hz => ⟨{ held := some n }, y, start_eq_ok.mpr (.inr ⟨n, rfl, lookup_of_mem h.heldNames hy⟩), hz⟩]
  rw [commit_eq_grafted, h.labelled (hs.knows hx)]
  unfold Workspace.grafted
  rw [map_congr_left hdocuments, map_congr_left hheld, map_id', map_id']

/-- An operation on an item of a snapshot changes nothing, and it is refused if it is about to change the contents. -/
theorem Guards.refuses (h : w.Guards) (hs : w.Keeps name s) (ho : o.Carries w.Knows) (hx : w.find o.target = .ok x)
    (hwithin : x.Within s.root) :
    (o.perform w).1 = w ∧
      (o.fits x = true → o.writes x = true → (o.perform w).2 = .error (.edit (.readOnly x.typeName))) := by
  have hfrozen := h.frozen name s hs x hwithin
  refine ⟨?_, fun hfits hwrites => Operation.report_frozen hx hfrozen hfits hwrites⟩
  rcases Operation.perform_cases ho with hsame | ⟨y, y', hy, hw, -, hsame⟩
  · exact hsame
  · obtain rfl : x = y := Except.ok.inj (hx.symm.trans hy)
    rcases hsame with rfl | hthawed
    · exact hw.trans (h.commit_self hs hwithin)
    · rw [hfrozen] at hthawed
      cases hthawed

/-! ## Everything that is done in a workspace -/

/-- What is done in a workspace while a snapshot is in use under a name: other documents are read, made, wrapped around tables
and handed over, items are held, and containers are changed with items from anywhere. -/
inductive Use (im : String) (w : Workspace) : Workspace → Prop where
  /-- A source is read. -/
  | parse {name : String} {options : OptionsArgument} {source : Source} {editable : Bool} {w' : Workspace}
      (hname : name ≠ im) (h : w.parse name options source editable = .ok w') : Use im w w'
  | create {name : String} (hname : name ≠ im) (editable : Bool) : Use im w (w.create name editable)
  | wrap {name : String} {d : Input} {w' : Workspace} (hname : name ≠ im) (hd : d.Carries w.Knows)
      (h : w.wrap name d = .ok w') : Use im w w'
  /-- Another snapshot becomes a document. -/
  | handOver {name target : String} {w' : Workspace} (hname : name ≠ im) (htarget : target ≠ im)
      (h : w.handOver name target true = .ok w') : Use im w w'
  | hold {l : Locator} {name : String} {x : Item} {w' : Workspace} (h : w.hold l name = .ok (x, w')) : Use im w w'
  /-- An operation is done to a container, successfully or not. -/
  | operation {o : Operation} (ho : o.Carries w.Knows) : Use im w (o.perform w).1

/-- What is known of the document of a name: the same snapshot is there, or it was handed over. -/
structure Untouched (im : String) (w w' : Workspace) : Prop where
  keeps : ∀ s, w.Keeps im s → w'.Keeps im s
  consumed : ∀ mode, w.documents.lookup im = some { content := .consumed mode } →
    w'.documents.lookup im = some { content := .consumed mode }

theorem Untouched.trans (h : Untouched im w w') (h' : Untouched im w' w'') : Untouched im w w'' :=
  ⟨fun s hs => h'.keeps s (h.keeps s hs), fun mode hmode => h'.consumed mode (h.consumed mode hmode)⟩

theorem untouched_of_lookup (h : w'.documents.lookup im = w.documents.lookup im) : Untouched im w w' :=
  ⟨fun _ hs => h.trans hs, fun _ hmode => h.trans hmode⟩

theorem untouched_put (hname : name ≠ im) (w : Workspace) (s : Slot) : Untouched im w (w.put name s) :=
  untouched_of_lookup (lookup_put hname.symm)

theorem Guards.untouched_commit (h : w.Guards) (hx : ∀ z : Item, z.Within x → w.Harmless z) (im : String) :
    Untouched im w (w.commit x) := by
  refine ⟨fun s hs => ((h.commit hx).2 im s).mpr hs, fun mode hmode => ?_⟩
  rw [commit_eq_grafted, Workspace.grafted, lookup_map, hmode]
  rfl

/-- The root of a document that is read or made is harmless: it has no labels yet. -/
theorem harmless_of_unlabelled (h : root.Unlabelled) : ∀ z : Item, z.Within root → w.Harmless z := fun z hz => .inl (h z hz)

theorem unlabelled_freeze (h : x.Unlabelled) (b : Bool) : (x.freeze b).Unlabelled := by
  rw [freeze_eq_reworded]
  apply h.reworded
  exact fun _ => rfl

theorem unlabelled_detach (h : x.Unlabelled) (source : List Char) : (x.detach source).Unlabelled := by
  rw [detach_eq_reworded]
  apply h.reworded
  exact fun _ => rfl

theorem frozen_of_within_freeze {z : Item} (h : z.Within (x.freeze true)) : z.frozen = true := by
  rw [freeze_eq_reworded] at h
  obtain ⟨y, -, rfl⟩ := within_reworded h
  rw [frozen, info_reworded]

/-- A snapshot whose tree is read-only and has no labels yet, or the document of such a snapshot, can be put under a name. -/
theorem Guards.put_new (h : w.Guards) (name : String) (editable : Bool) (hs : s.root.Unlabelled)
    (hfrozen : ∀ z : Item, z.Within s.root → z.frozen = true) (hd : d.root.Unlabelled) :
    (w.put name { content := if editable then .document d else .snapshot s }).Guards := by
  cases editable with
  | true =>
    exact h.put d.root rfl (harmless_of_unlabelled hd) fun t ht => by cases ht
  | false =>
    exact h.put s.root rfl (harmless_of_unlabelled hs) fun t _ z hz => ⟨hfrozen z hz, hs z hz⟩

theorem unlabelled_emptyRoot : emptyRoot.Unlabelled :=
  unlabelled_iff.mpr ⟨rfl, by simp [emptyRoot, children]⟩

/-- What handing a snapshot over does: the snapshot is marked as handed over, and its items become those of a document. -/
theorem handOver_eq_ok (h : w.Guards) (hw : w.handOver name target true = .ok w') :
    ∃ s, w.Keeps name s ∧
      w' = (({ w with documents := putNamed name { content := .consumed s.mode } w.documents }.put target
        { content := .document s.toDocument }).commit s.toDocument.root) := by
  obtain ⟨⟨content, broken⟩, hslot, hw⟩ := bind_eq_ok.mp hw
  have hlookup := slot_eq_ok.mp hslot
  cases content with
  | snapshot s =>
    obtain ⟨root, hroot, hw⟩ := bind_eq_ok.mp hw
    obtain ⟨before, after, hsplit, -⟩ := lookup_eq_some_iff.mp hlookup
    have hbroken : broken = none := h.whole (name, ⟨.snapshot s, broken⟩) (by simp [hsplit])
    subst hbroken
    cases hw
    exact ⟨s, hlookup, rfl⟩
  | _ => cases hw

/-- Handing a snapshot over leaves the other snapshots as they are. -/
theorem Guards.handOver (h : w.Guards) (hw : w.handOver name target true = .ok w') :
    w'.Guards ∧ ∀ im, im ≠ target →
      (im ≠ name → Untouched im w w') ∧ (im = name → ∃ mode, w'.documents.lookup im = some { content := .consumed mode }) := by
  obtain ⟨s, hs, rfl⟩ := handOver_eq_ok h hw
  let w₁ : Workspace := { w with documents := putNamed name { content := .consumed s.mode } w.documents }
  have hlookup₁ : ∀ n, w₁.documents.lookup n = if n = name then some { content := .consumed s.mode } else w.documents.lookup n :=
    fun n => lookup_putNamed name n _ w.documents
  have hkeeps₁ : ∀ n t, w₁.Keeps n t → n ≠ name ∧ w.Keeps n t := by
    intro n t ht
    rw [Keeps, hlookup₁] at ht
    split at ht
    · cases ht
    · next hn => exact ⟨hn, ht⟩
  have h₁ : w₁.Guards := h.putSlot rfl le_rfl (fun _ h => by cases h) fun _ h => by cases h
  -- the items of the new document have the labels of the snapshot, which no other snapshot has
  have hlabel : ∀ z : Item, z.Within s.toDocument.root → ∃ v : Item, v.Within s.root ∧ z.info.label = v.info.label := by
    intro z hz
    rw [Snapshot.toDocument, detach_eq_reworded] at hz
    obtain ⟨v, hv, rfl⟩ := within_reworded hz
    exact ⟨v, hv, by rw [info_reworded]; rfl⟩
  have hharmless : ∀ w₂ : Workspace, w.next ≤ w₂.next → (∀ n t, w₂.Keeps n t → n ≠ name ∧ w.Keeps n t) →
      ∀ z : Item, z.Within s.toDocument.root → w₂.Harmless z := by
    intro w₂ hnext hkeeps z hz
    obtain ⟨v, hv, hlabel⟩ := hlabel z hz
    have hv' := h.labels v (hs.knows hv)
    refine .inr (.inr ⟨by omega, by omega, fun n t ht x hx => ?_⟩)
    rw [hlabel]
    obtain ⟨hn, ht⟩ := hkeeps n t ht
    exact h.apart n t ht name s hs hn x v hx hv
  let w₂ := w₁.put target { content := .document s.toDocument }
  have h₂ : w₂.Guards := h₁.put s.toDocument.root rfl (hharmless w₁ le_rfl hkeeps₁) fun t ht => by cases ht
  have hnext₂ : w.next ≤ w₂.next := by
    show w.next ≤ (s.toDocument.root.labelled w.next).2
    rw [(labels_labelled _ _).2]
    omega
  have hkeeps₂ : ∀ n t, w₂.Keeps n t → n ≠ name ∧ w.Keeps n t := by
    intro n t ht
    by_cases hn : n = target
    · rw [Keeps, hn] at ht
      have hdocument : w₂.documents.lookup target =
          some { content := .document { s.toDocument with root := (s.toDocument.root.labelled w.next).1 } } := by
        show (putNamed target _ w₁.documents).lookup target = _
        rw [lookup_putNamed, if_pos rfl]
        rfl
      rw [hdocument] at ht
      cases ht
    · rw [Keeps, show w₂.documents.lookup n = w₁.documents.lookup n from lookup_put hn] at ht
      exact hkeeps₁ n t ht
  have hharmless₂ := hharmless w₂ hnext₂ hkeeps₂
  refine ⟨(h₂.commit hharmless₂).1, fun im him => ⟨fun hne => ?_, fun heq => ⟨s.mode, ?_⟩⟩⟩
  · have huntouched₁ : Untouched im w w₁ := untouched_of_lookup (by rw [hlookup₁, if_neg hne])
    exact (huntouched₁.trans (untouched_put him.symm w₁ _)).trans (h₂.untouched_commit hharmless₂ im)
  · apply (h₂.untouched_commit hharmless₂ im).consumed
    rw [show w₂.documents.lookup im = w₁.documents.lookup im from lookup_put him, hlookup₁, if_pos heq]

/-- Whatever is done in a workspace, snapshots stay guarded, and a snapshot that is in use stays the same. -/
theorem Guards.use (h : w.Guards) (huse : Use im w w') : w'.Guards ∧ Untouched im w w' := by
  cases huse with
  | @parse name options source editable _ hname hw =>
    obtain ⟨o, -, hw⟩ := bind_eq_ok.mp hw
    obtain ⟨s, hs, hw⟩ := bind_eq_ok.mp hw
    cases hw
    obtain ⟨text, mode, root, trailing, -, -, hread, rfl⟩ := parse_eq_ok (mapError_eq_ok.mp hs)
    have hroot := unlabelled_freeze (readTree_unlabelled hread) true
    exact ⟨h.put_new name editable hroot (fun z hz => frozen_of_within_freeze hz) (unlabelled_detach hroot _),
      untouched_put hname w _⟩
  | @create name hname editable =>
    have hroot := unlabelled_freeze unlabelled_emptyRoot true
    exact ⟨h.put_new name editable hroot (fun z hz => frozen_of_within_freeze hz) unlabelled_emptyRoot,
      untouched_put hname w _⟩
  | @wrap name d _ hname hd hw =>
    unfold Workspace.wrap at hw
    split at hw
    · cases hw
      exact ⟨h.put_new name true (s := .empty) (unlabelled_freeze unlabelled_emptyRoot true)
        (fun z hz => frozen_of_within_freeze hz) unlabelled_emptyRoot, untouched_put hname w _⟩
    · next x =>
      split at hw
      · cases hw
        cases hd with
        | leaf hleaf => cases hleaf
        | item hx =>
          exact ⟨h.put x rfl (fun z hz => .inr (.inl (hx.within hz))) (fun t ht => by cases ht),
            untouched_put hname w _⟩
      · cases hw
    · cases hw
  | @handOver name target _ hname htarget hw =>
    obtain ⟨hguards, hother⟩ := h.handOver hw
    exact ⟨hguards, (hother im htarget.symm).1 hname.symm⟩
  | @hold l name x _ hw =>
    obtain ⟨y, hy, hw⟩ := bind_eq_ok.mp hw
    cases hw
    -- whoever holds an item can find no other items than before
    have hknows : ∀ z, { w with held := putNamed name x w.held }.Knows z → w.Knows z := by
      rintro z ⟨l', root, hstart, hz⟩
      rcases start_eq_ok.mp hstart with hdocument | ⟨n, hheld, hlookup⟩
      · exact ⟨l', root, start_eq_ok.mpr (.inl hdocument), hz⟩
      · rw [lookup_putNamed] at hlookup
        split at hlookup
        · cases hlookup
          exact (knows_of_find hy).within hz
        · exact ⟨l', root, start_eq_ok.mpr (.inr ⟨n, hheld, hlookup⟩), hz⟩
    refine ⟨⟨h.next_pos, h.names, nodup_putNamed h.heldNames name x, h.whole, fun z hz => h.labels z (hknows z hz), h.frozen,
      fun n s hs v z hv hz => h.alone n s hs v z hv (hknows z hz), h.apart⟩, untouched_of_lookup rfl⟩
  | operation ho =>
    obtain ⟨hguards, hkeeps⟩ := h.perform ho
    refine ⟨hguards, fun s hs => (hkeeps im s).mpr hs, fun mode hmode => ?_⟩
    rcases Operation.perform_cases ho with hsame | ⟨x, x', hx, hw, hrenewal⟩
    · rw [hsame]
      exact hmode
    · rw [hw]
      exact (h.untouched_commit (h.harmless (knows_of_find hx) hrenewal) im).consumed mode hmode

/-- So it is after a whole run. -/
theorem Guards.run (h : w.Guards) (hrun : Relation.ReflTransGen (Use im) w w') : w'.Guards ∧ Untouched im w w' := by
  induction hrun with
  | refl => exact ⟨h, fun _ hs => hs, fun _ hmode => hmode⟩
  | tail _ huse ih =>
    obtain ⟨hguards, huntouched⟩ := ih.1.use huse
    exact ⟨hguards, ih.2.trans huntouched⟩

/-! ## The main statement -/

/-- What a snapshot answers as long as it is in use: its root, what follows the last line, and the text that was read, which
is also the text that it is written as. -/
structure AsRead (w : Workspace) (im : String) (root : Item) (trailing : SpanText) (text : String) : Prop where
  root : (do (← w.slot im).root) = .ok root
  trailing : (do (← w.slot im).trailing) = .ok trailing
  raw : (do (← w.slot im).raw) = .ok text
  render : ∀ layout, (do (← w.slot im).render layout) = .ok text

/-- What a snapshot answers once it was handed over: it has no root and no text any more, nothing can be looked up in it, and it
cannot be handed over again. -/
structure Spent (w : Workspace) (im : String) : Prop where
  root : (do (← w.slot im).root) = .error .consumed
  trailing : (do (← w.slot im).trailing) = .error .consumed
  raw : (do (← w.slot im).raw) = .error .consumed
  render : ∀ layout, (do (← w.slot im).render layout) = .error .consumed
  find : ∀ path, w.find { document := im, path } = .error .consumed
  findMapping : ∀ path, w.findMapping { document := im, path } = .error .consumed
  findEntry : ∀ path name, w.findEntry { document := im, path } name = .error .consumed
  handOver : ∀ target detached, w.handOver im target detached = .error .consumed

theorem spent_of_lookup (h : w.documents.lookup im = some { content := .consumed mode }) :
    w.Spent im := by
  have hslot : w.slot im = .ok { content := .consumed mode } := slot_eq_ok.mpr h
  have hfind : ∀ path, w.find { document := im, path } = .error .consumed := by
    intro path
    simp only [find, start, hslot, bind, Except.bind]
    rfl
  constructor
  case find => exact hfind
  case findMapping =>
    intro path
    simp only [findMapping, hfind, bind, Except.bind]
  case findEntry =>
    intro path name
    simp only [findEntry, findMapping, hfind, bind, Except.bind]
  case handOver =>
    intro target detached
    simp only [handOver, hslot, bind, Except.bind]
  all_goals
    try intro layout
    simp only [hslot, bind, Except.bind]
    rfl

/-- A snapshot can be handed over, and has answered nothing since. -/
theorem Guards.handOver_keeps (h : w.Guards) (hs : w.Keeps im s) (htarget : target ≠ im) :
    ∃ w', w.handOver im target true = .ok w' ∧
      ∀ w'', Relation.ReflTransGen (Use im) w' w'' → w''.Spent im := by
  have hslot : w.slot im = .ok { content := .snapshot s } := slot_eq_ok.mpr hs
  have hok : ∃ w', w.handOver im target true = .ok w' := by
    unfold Workspace.handOver
    rw [hslot]
    exact ⟨_, rfl⟩
  obtain ⟨w', hw'⟩ := hok
  refine ⟨w', hw', fun w'' hrun => ?_⟩
  obtain ⟨hguards, hother⟩ := h.handOver hw'
  obtain ⟨mode, hmode⟩ := (hother im htarget.symm).2 rfl
  exact spent_of_lookup (((hguards.run hrun).2.consumed) mode hmode)

theorem guards_empty : ({} : Workspace).Guards where
  next_pos := Nat.one_pos
  names := nodup_nil
  heldNames := nodup_nil
  whole := forall_mem_nil _
  labels x hx := by
    obtain ⟨l, root, hstart, -⟩ := hx
    rcases start_eq_ok.mp hstart with ⟨-, s, hs, -⟩ | ⟨name, -, hname⟩
    · cases hs
    · cases hname
  frozen := nofun
  alone := nofun
  apart := nofun

/-- **A snapshot stays as it was read until it is handed over.** Whatever is done in a workspace with a snapshot, its items and
copies of them, the snapshot answers what was read and is written as the text that was read. An operation on one of its items,
wherever the item is found, changes nothing, and is refused if it is about to change the contents of a container. The snapshot
can be handed over once; from then on it answers nothing, whatever else is done. -/
theorem snapshots_stay_as_read {im : String} {options : OptionsArgument} {text : String} {w₀ : Workspace}
    (hread : ({} : Workspace).parse im options (.text text) false = .ok w₀) :
    ∃ o s, options.resolve .reader = .ok o ∧ Verbatim.parse o.readOptions (.text text) = .ok s ∧
      ∀ w, Relation.ReflTransGen (Use im) w₀ w →
        w.AsRead im (s.root.labelled 1).1 s.trailing text ∧
        (∀ (o : Operation) (x : Item), o.Carries w.Knows → w.find o.target = .ok x → x.Within (s.root.labelled 1).1 →
          (o.perform w).1 = w ∧
            (o.fits x = true → o.writes x = true → (o.perform w).2 = .error (.edit (.readOnly x.typeName)))) ∧
        ∀ target, target ≠ im → ∃ w', w.handOver im target true = .ok w' ∧
          ∀ w'', Relation.ReflTransGen (Use im) w' w'' → w''.Spent im := by
  obtain ⟨o, ho, hw⟩ := bind_eq_ok.mp hread
  obtain ⟨s, hs, hw⟩ := bind_eq_ok.mp hw
  cases hw
  have hparse := mapError_eq_ok.mp hs
  obtain ⟨text', mode, root, trailing, hload, -, hroot, rfl⟩ := parse_eq_ok hparse
  cases hload
  refine ⟨o, _, ho, hparse, fun w hrun => ?_⟩
  -- the snapshot stands under its name with labels, and nothing that is done changes that
  have hfrozen := unlabelled_freeze (readTree_unlabelled hroot) true
  have hguards := guards_empty.put_new im false (s := ⟨root.freeze true, trailing, String.ofList text.toList, .borrowed⟩)
    (d := {}) hfrozen (fun z hz => frozen_of_within_freeze hz) unlabelled_emptyRoot
  obtain ⟨hguards, huntouched⟩ := hguards.run hrun
  have hkeeps := huntouched.keeps ⟨((root.freeze true).labelled 1).1, trailing, String.ofList text.toList, .borrowed⟩ (by
    show (putNamed im _ []).lookup im = _
    rw [lookup_putNamed, if_pos rfl]
    rfl)
  have hslot := slot_eq_ok.mpr hkeeps
  refine ⟨⟨?_, ?_, ?_, fun layout => ?_⟩, fun o x ho hx hwithin => hguards.refuses hkeeps ho hx hwithin,
    fun target htarget => hguards.handOver_keeps hkeeps htarget⟩
  · rw [hslot]
    rfl
  · rw [hslot]
    rfl
  · rw [hslot]
    show Except.ok (String.ofList text.toList) = _
    rw [String.ofList_toList]
  · have hrender := (parse_render hparse layout).1
    rw [hslot]
    show Except.mapError _ (Render.renderTree ..) = _
    rw [Snapshot.render, ← Render.renderTree_stripped] at hrender
    rw [← Render.renderTree_stripped, stripped_labelled, hrender, String.ofList_toList]
    rfl

/-- A document is wrapped around the table of a snapshot, and an array of the snapshot is put in a list of another document;
setting an entry of a table that a dotted key made is still refused. -/
theorem snapshots_stay_as_read_shared : ∃ w₀ w : Workspace,
    ({} : Workspace).parse "im" .unset (.text "a = [1]\nt.b = 2\n") false = .ok w₀ ∧
    Relation.ReflTransGen (Use "im") w₀ w ∧ (do (← w.slot "im").raw) = .ok "a = [1]\nt.b = 2\n" ∧
    (Operation.perform w (.assign { document := "im", path := [.name "t"] } "c" (.boolean true))).2 =
      .error (.edit (.readOnly "table")) := by
  have hcomputed : (do
      let w₀ ← ({} : Workspace).parse "im" .unset (.text "a = [1]\nt.b = 2\n") false
      let w₁ ← w₀.wrap "other" .none
      let root ← w₁.find { document := "im" }
      let w₂ ← w₁.wrap "view" (.item root)
      let x ← w₂.find { document := "view", path := [.name "a"] }
      let w₃ := (Operation.perform w₂ (.assign { document := "other" } "copies" (.list [.item x]))).1
      let t ← w₃.find { document := "im", path := [.name "t"] }
      .ok (t.isMapping, t.typeName) : Except Failure (Bool × String)).toOption = some (true, "table") := by
    decide +kernel
  obtain ⟨w₀, h₀, h⟩ := bind_eq_ok.mp (toOption_eq_some.mp hcomputed)
  obtain ⟨w₁, h₁, h⟩ := bind_eq_ok.mp h
  obtain ⟨root, hroot, h⟩ := bind_eq_ok.mp h
  obtain ⟨w₂, h₂, h⟩ := bind_eq_ok.mp h
  obtain ⟨x, hx, h⟩ := bind_eq_ok.mp h
  obtain ⟨t, ht, h⟩ := bind_eq_ok.mp h
  obtain ⟨hmapping, htype⟩ := Prod.mk.inj (Except.ok.inj h)
  have hother : Use "im" w₀ w₁ := .wrap (by decide) (.leaf rfl) h₁
  have hview : Use "im" w₁ w₂ := .wrap (by decide) (.item (knows_of_find hroot)) h₂
  have hlist : (Data.list [.item x] : Input).Carries w₂.Knows :=
    .list (forall_mem_singleton.mpr (.item (knows_of_find hx)))
  have hrun := ((Relation.ReflTransGen.single hother).tail hview).tail
    (Use.operation (o := .assign { document := "other" } "copies" (.list [.item x])) hlist)
  obtain ⟨o, s, -, -, hstays⟩ := snapshots_stay_as_read h₀
  obtain ⟨hread, hrefuses, -⟩ := hstays _ hrun
  refine ⟨w₀, _, h₀, hrun, hread.raw, ?_⟩
  rw [← htype]
  refine (hrefuses (.assign { document := "im", path := [.name "t"] } "c" (.boolean true)) t (Data.Carries.leaf rfl) ht
    ?_).2 hmapping rfl
  obtain ⟨root', hstart, hfollow⟩ := bind_eq_ok.mp ht
  obtain rfl : root' = (s.root.labelled 1).1 := Except.ok.inj (hstart.symm.trans hread.root)
  exact within_of_follow (mapError_eq_ok.mp hfollow)

end Verbatim.Workspace

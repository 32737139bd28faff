import Verbatim.Proofs.Conversion
import Verbatim.Proofs.EditRun

/-!
# One edit

Whatever an edit is called, it finds an item, changes its entries or elements in one of a few ways and puts the changed item
in all places. Proofs about edits need these ways only.
-/

namespace Verbatim

variable {x x' : Item} {w : Workspace}

namespace Item

/-- What an edit makes of an item, with new members that have a property. -/
inductive Change (P : Item → Prop) (x : Item) : Item → Prop where
  /-- An item is put under a name. -/
  | place (name : String) (y : Item) (hx : x.isMapping = true) (hy : P y)
      (hvalue : x.isInlineTable = true → y.isValue = true) : Change P x (x.withEntries (place name y x.entries))
  | erase (name : String) : Change P x (x.withEntries (eraseEntry name x.entries))
  /-- An item is put behind the elements. -/
  | append (y : Item) (hy : P y) (hkind : if x.isArrayOfTables then y.isTable = true else y.isValue = true) :
      Change P x (x.withElements (x.elements?.getD [] ++ [y]))

theorem editable_cases (h : x.editable = .ok y) : x.frozen = false ∧ y = x := by
  rw [editable] at h
  split at h
  · cases h
  · next hfrozen =>
    cases h
    exact ⟨by simpa using hfrozen, rfl⟩

variable {Q : Item → Prop}

theorem assign_change (hd : Brings Q d) (hx : x.isMapping = true) (h : x.assign name d = .ok x') :
    x.frozen = false ∧ Change Q x x' := by
  obtain ⟨z, hz, hx'⟩ := bind_eq_ok.mp h
  obtain ⟨hfrozen, rfl⟩ := editable_cases hz
  obtain ⟨y, hy, hx'⟩ := bind_eq_ok.mp hx'
  cases hx'
  obtain ⟨hPy, hvalue⟩ := hd.coerced hy
  exact ⟨hfrozen, .place name y hx hPy hvalue⟩

theorem erase_change (h : x.erase name = .ok x') : x.frozen = false ∧ Change Q x x' := by
  obtain ⟨z, hz, hx'⟩ := bind_eq_ok.mp h
  obtain ⟨hfrozen, rfl⟩ := editable_cases hz
  split at hx'
  · cases hx'
  · cases hx'
    exact ⟨hfrozen, .erase name⟩

theorem append_change (hd : Brings Q d) (h : x.append d = .ok x') : x.frozen = false ∧ Change Q x x' := by
  obtain ⟨z, hz, hx'⟩ := bind_eq_ok.mp h
  obtain ⟨hfrozen, rfl⟩ := editable_cases hz
  split at hx'
  · cases hx'
  · next y hy =>
    cases hx'
    refine ⟨hfrozen, .append y ?_ ?_⟩ <;> split at hy
    · rw [ofTable] at hy
      split at hy
      · cases hy
      · next t ht =>
        split at hy
        · cases hy
          exact hd.member t ht
        · cases hy
    · obtain ⟨v, hv, rfl⟩ := map_eq_ok.mp hy
      exact (hd.value v hv).1
    · next htables =>
      rw [if_pos htables]
      rw [ofTable] at hy
      split at hy
      · cases hy
      · split at hy
        · next htable =>
          cases hy
          exact (isTable_ownedFor ..).trans htable
        · cases hy
    · next htables =>
      rw [if_neg htables]
      obtain ⟨v, hv, rfl⟩ := map_eq_ok.mp hy
      exact (isValue_ownedFor ..).trans (hd.value v hv).2

/-! ## Refused changes -/

variable {err : EditError}

/-- A read-only item is refused first. -/
theorem editable_eq_error : (x.editable >>= f) = .error err ↔
    (x.frozen = true ∧ err = .readOnly x.typeName) ∨ (x.frozen = false ∧ f x = .error err) := by
  unfold editable
  cases x.frozen <;> simp [bind, Except.bind, @eq_comm _ err]

theorem assign_eq_error : x.assign name d = .error err ↔
    (x.frozen = true ∧ err = .readOnly x.typeName) ∨ (x.frozen = false ∧
      ∃ c, (if x.isInlineTable then ofValue d else ofMember d) = .error c ∧ err = .convert c) := by
  rw [assign, editable_eq_error, coerced]
  cases (if x.isInlineTable then ofValue d else ofMember d) <;> simp [bind, Except.bind, @eq_comm _ err]

theorem append_eq_error : x.append d = .error err ↔
    (x.frozen = true ∧ err = .readOnly x.typeName) ∨ (x.frozen = false ∧
      ∃ c, (if x.isArrayOfTables then ofTable d else ofValue d) = .error c ∧ err = .convert c) := by
  rw [append, editable_eq_error]
  by_cases h : x.isArrayOfTables = true
  · rw [if_pos h, if_pos h]
    cases ofTable d <;> simp [@eq_comm _ err]
  · rw [if_neg h, if_neg h]
    cases ofValue d <;> simp [Except.map, @eq_comm _ err]

theorem erase_eq_error : x.erase name = .error err ↔
    (x.frozen = true ∧ err = .readOnly x.typeName) ∨ (x.frozen = false ∧ x.get? name = none ∧ err = .missing name) := by
  rw [erase, editable_eq_error, get?]
  cases x.entryNamed? name <;> simp [@eq_comm _ err]

end Item

namespace Workspace

/-- The data that an edit brings in carries items of one kind only. -/
def Edit.Carries (given : Item → Prop) : Edit → Prop
  | .assign _ _ d => d.Carries given
  | .erase .. => True
  | .pop .. => True
  | .setDefault _ _ d => d.Carries given
  | .append _ d => d.Carries given

/-- What an edit brings in becomes items of one kind only. -/
def Edit.Brings (Q : Item → Prop) : Edit → Prop
  | .assign _ _ d | .setDefault _ _ d | .append _ d => Item.Brings Q d
  | .erase .. | .pop .. => True

theorem Edit.Carries.brings {given P Q : Item → Prop} {e : Edit} (he : e.Carries given) (hP : Item.Convertible given P Q) :
    e.Brings Q := by
  cases e <;> first | exact hP.brings he | trivial

theorem findMapping_eq_ok : w.findMapping l = .ok x ↔ w.find l = .ok x ∧ x.isMapping = true := by
  rw [findMapping, bind_eq_ok]
  grind

theorem findArray_eq_ok : w.findArray l = .ok x ↔ w.find l = .ok x ∧ x.elements?.isSome = true := by
  rw [findArray, bind_eq_ok]
  grind

namespace Edit

variable {e : Edit}

/-- Whether an edit sets an entry only if there is none. -/
def isDefault : Edit → Bool
  | .setDefault .. => true
  | _ => false

/-- The container that an edit is about. -/
def target : Edit → Locator
  | .assign l .. | .erase l _ | .pop l .. | .setDefault l .. | .append l _ => l

/-- Whether a container is of the kind that an edit is for. -/
def fits (x : Item) : Edit → Bool
  | .append .. => x.elements?.isSome
  | _ => x.isMapping

/-- The container of an edit, found as one of its kind. -/
def container (w : Workspace) : Edit → Except Failure Item
  | .append l _ => w.findArray l
  | .assign l .. | .erase l _ | .pop l .. | .setDefault l .. => w.findMapping l

/-- What an edit makes of its container, unless it leaves it alone. -/
def act (x : Item) : Edit → Except EditError (Option Item)
  | .assign _ name d => (x.assign name d).map some
  | .erase _ name => (x.erase name).map some
  | .pop _ name default =>
    if default.isSome && (x.get? name).isNone then .ok none else (x.pop name).map fun r => some r.2
  | .setDefault _ name d => (x.setDefault name d).map fun r => some r.2
  | .append _ d => (x.append d).map some

/-- What is said of a container of another kind. -/
def misfit : Edit → String
  | .append .. => "not an array"
  | _ => "not a mapping"

theorem container_eq (w : Workspace) (e : Edit) :
    e.container w = w.find e.target >>= fun x => if e.fits x then .ok x else .error (.misfit e.misfit) := by
  cases e <;> rfl

theorem container_eq_ok : e.container w = .ok x ↔ w.find e.target = .ok x ∧ e.fits x = true := by
  rw [container_eq, bind_eq_ok]
  grind

/-- Every edit finds its container and puts what it makes of it in all places. -/
theorem apply_eq (w : Workspace) (e : Edit) :
    e.apply w = (e.container w).bind fun x => (e.act x).mapError .edit |>.map fun r => r.elim w w.commit := by
  cases e <;> simp only [apply, Workspace.assign, Workspace.erase, Workspace.pop, Workspace.setDefault, Workspace.append,
    container, act, bind, Except.bind] <;> split <;> try rfl
  · next x _ => cases x.assign _ _ <;> rfl
  · next x _ => cases x.erase _ <;> rfl
  · next default _ x _ => cases default <;> cases x.get? _ <;> cases x.pop _ <;> rfl
  · next x _ => cases x.setDefault _ _ <;> rfl
  · next x _ => cases x.append _ <;> rfl

/-- What an edit makes of its container. Setting an entry only if there is none leaves the container as it is if there is
one. -/
theorem act_change (he : e.Brings Q) (hfits : e.fits x = true) (h : e.act x = .ok (some x')) :
    (x.frozen = false ∧ x.Change Q x') ∨ (e.isDefault = true ∧ x' = x) := by
  cases e with
  | assign l name d =>
    obtain ⟨y, hy, ⟨⟩⟩ := map_eq_ok.mp h
    exact .inl (Item.assign_change he hfits hy)
  | erase l name =>
    obtain ⟨y, hy, ⟨⟩⟩ := map_eq_ok.mp h
    exact .inl (Item.erase_change hy)
  | pop l name default =>
    dsimp only [act] at h
    split at h
    · cases h
    · obtain ⟨⟨y, z⟩, hpop, ⟨⟩⟩ := map_eq_ok.mp h
      rw [Item.pop] at hpop
      split at hpop
      · cases hpop
      · obtain ⟨z, herase, ⟨⟩⟩ := map_eq_ok.mp hpop
        exact .inl (Item.erase_change herase)
  | setDefault l name d =>
    obtain ⟨⟨y, z⟩, hset, ⟨⟩⟩ := map_eq_ok.mp h
    rw [Item.setDefault] at hset
    split at hset
    · cases hset
      exact .inr ⟨rfl, rfl⟩
    · obtain ⟨z, hassign, ⟨⟩⟩ := map_eq_ok.mp hset
      exact .inl (Item.assign_change he hfits hassign)
  | append l d =>
    obtain ⟨y, hy, ⟨⟩⟩ := map_eq_ok.mp h
    exact .inl (Item.append_change he hy)

/-- What an edit can do: nothing, or put a changed container in all places. -/
theorem apply_cases (he : e.Brings Q) (h : e.apply w = .ok w') :
    w' = w ∨ ∃ x x', w.find e.target = .ok x ∧ w' = w.commit x' ∧
      ((x.frozen = false ∧ x.Change Q x') ∨ (e.isDefault = true ∧ x' = x)) := by
  rw [apply_eq] at h
  obtain ⟨x, hx, h⟩ := bind_eq_ok.mp h
  obtain ⟨hfind, hfits⟩ := container_eq_ok.mp hx
  obtain ⟨r, hr, rfl⟩ := map_eq_ok.mp h
  cases r with
  | none => exact .inl rfl
  | some x' => exact .inr ⟨x, x', hfind, rfl, act_change he hfits (mapError_eq_ok.mp hr)⟩

/-! ## Refused edits -/

/-- Whether an edit is about to change the contents of its container. -/
def writes (x : Item) : Edit → Bool
  | .assign .. | .erase .. | .append .. => true
  | .pop _ name _ => (x.get? name).isSome
  | .setDefault _ name _ => (x.get? name).isNone

/-- The new member that an edit makes of its data, in the form that the container asks for. -/
def member (x : Item) : Edit → Option (Except ConvertError Item)
  | .assign _ _ d | .setDefault _ _ d => some (if x.isInlineTable then Item.ofValue d else Item.ofMember d)
  | .append _ d => some (if x.isArrayOfTables then Item.ofTable d else Item.ofValue d)
  | .erase .. | .pop .. => none

/-- Why a container refuses an edit. -/
@[mk_iff]
inductive Objection (x : Item) : Edit → EditError → Prop where
  /-- It is read-only. -/
  | readOnly {e : Edit} (frozen : x.frozen = true) (writes : e.writes x = true) : Objection x e (.readOnly x.typeName)
  /-- There is nothing to delete. -/
  | erase {l : Locator} {name : String} (frozen : x.frozen = false) (missing : x.get? name = none) :
      Objection x (.erase l name) (.missing name)
  /-- There is nothing to take out, and no default. -/
  | pop {l : Locator} {name : String} (missing : x.get? name = none) : Objection x (.pop l name none) (.missing name)
  /-- The data cannot become a member. -/
  | convert {e : Edit} {c : ConvertError} (frozen : x.frozen = false) (writes : e.writes x = true)
      (fails : e.member x = some (.error c)) : Objection x e (.convert c)

theorem act_eq_error : e.act x = .error err ↔ Objection x e err := by
  rw [objection_iff]
  cases e with
  | assign l name d => simp [act, map_eq_error, Item.assign_eq_error, writes, member]
  | erase l name => simp [act, map_eq_error, Item.erase_eq_error, writes, member]
  | append l d => simp [act, map_eq_error, Item.append_eq_error, writes, member]
  | pop l name default =>
    cases default <;> cases h : x.get? name <;>
      simp [act, map_eq_error, Item.pop, h, Item.erase_eq_error, writes, member, @eq_comm _ err]
  | setDefault l name d =>
    cases h : x.get? name <;>
      simp [act, map_eq_error, Item.setDefault, h, Item.assign_eq_error, writes, member]

/-- Why an edit is refused. -/
inductive Refused (w : Workspace) (e : Edit) : Failure → Prop where
  /-- There is no container. -/
  | lost {f : Failure} (lost : w.find e.target = .error f) : Refused w e f
  /-- The container is of another kind. -/
  | misfit {x : Item} (found : w.find e.target = .ok x) (kind : e.fits x = false) : Refused w e (.misfit e.misfit)
  | objection {x : Item} {err : EditError} (found : w.find e.target = .ok x) (kind : e.fits x = true)
      (objection : Objection x e err) : Refused w e (.edit err)

theorem apply_eq_error : e.apply w = .error f ↔ e.Refused w f := by
  constructor
  · intro h
    rw [apply_eq] at h
    rcases bind_eq_error.mp h with hc | ⟨x, hc, h⟩
    · rw [container_eq] at hc
      rcases bind_eq_error.mp hc with hx | ⟨x, hx, hfits⟩
      · exact .lost hx
      · split at hfits
        · cases hfits
        · next hkind =>
          cases hfits
          exact .misfit hx (by simpa using hkind)
    · obtain ⟨hx, hfits⟩ := container_eq_ok.mp hc
      obtain ⟨err, herr, rfl⟩ := mapError_eq_error.mp (map_eq_error.mp h)
      exact .objection hx hfits (act_eq_error.mp herr)
  · rw [apply_eq, container_eq]
    rintro (hx | ⟨hx, hfits⟩ | ⟨hx, hfits, h⟩)
    · rw [hx]
      rfl
    · simp only [hx, bind, Except.bind, hfits, Bool.false_eq_true, if_false]
    · simp only [hx, bind, Except.bind, hfits, if_true, act_eq_error.mpr h, Except.mapError, Except.map]

end Edit
end Workspace

end Verbatim

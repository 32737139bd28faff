import Verbatim.Proofs.Rewording

/-!
# Detaching loses nothing

Detaching replaces every reference of a tree by the text behind it. The walk over the detached tree meets the same entries,
keys and items at the same places, with owned text where a reference stood; what a tree has besides its text is its
*outline*, which does not change. So the detached tree is written without any source as the tree was written with its source.

## Main statements

- `Item.visits_detach` - the walk over a detached tree.
- `Item.outline_detach` - what a tree has besides its text stays.
- `Render.renderTree_detach` - a detached tree is written the same, whatever the source.
-/

namespace Verbatim

open List Render

variable {source : List Char}

/-! ## Counting references -/

/-- Whether a visit meets a reference. -/
def Visit.isRef (v : Visit) : Bool := v.span?.isSome

@[simp] theorem Visit.isRef_text (t : SpanText) : (Visit.text t).isRef = t.isRef := by
  cases t <;> rfl

@[simp] theorem Visit.isRef_entry (name : String) : (Visit.entry name).isRef = false := rfl

@[simp] theorem Visit.isRef_key (name : String) : (Visit.key name).isRef = false := rfl

@[simp] theorem Visit.isRef_leave (name : String) : (Visit.leave name).isRef = false := rfl

namespace Item

theorem countP_texts (ts : List SpanText) : (ts.map Visit.text).countP Visit.isRef = textRefs ts := by
  rw [countP_map, textRefs]
  congr 1
  funext t
  exact Visit.isRef_text t

theorem countP_key (k : Key) : k.visits.countP Visit.isRef = textRefs k.texts := by
  rw [Key.visits, countP_cons_of_neg (by simp), countP_texts]

theorem countP_keyVisits (ks : List Key) : (keyVisits ks).countP Visit.isRef = keyRefs ks := by
  simp only [keyVisits, keyRefs, textRefs, countP_flatMap]
  congr 2
  funext k
  exact countP_key k

private theorem countP_visitsEach (h : ∀ v ∈ vs, v.visits.countP Visit.isRef = v.refCount) :
    (vs.flatMap visits).countP Visit.isRef = refCountEach vs := by
  induction vs with
  | nil => rfl
  | cons v vs ih =>
    rw [forall_mem_cons] at h
    rw [flatMap_cons, countP_append, h.1, ih h.2, refCountEach]

private theorem countP_visitsEntries (h : ∀ e ∈ es, e.item.visits.countP Visit.isRef = e.item.refCount) :
    (es.flatMap entryVisits).countP Visit.isRef = refCountEntries es := by
  induction es with
  | nil => rfl
  | cons e es ih =>
    rw [forall_mem_cons] at h
    have hkey : e.key.visits.countP Visit.isRef = keyRefs [e.key] := by simp [keyRefs, countP_key]
    rw [flatMap_cons, countP_append, entryVisits, countP_cons_of_neg (by simp), countP_append, countP_append, countP_keyVisits,
      hkey, h.1, ih h.2, refCountEntries]

/-- The walk over an item meets as many references as detaching the item replaces. -/
theorem countP_visits (x : Item) : x.visits.countP Visit.isRef = x.refCount := by
  induction x using inductionOn with
  | scalar i s =>
    simp only [visits, refCount, Decor.visits, countP_append, countP_texts]
    rfl
  | array i f vs ih =>
    simp only [visits, refCount, Decor.visits, visitsEach_eq, countP_append, countP_texts, countP_visitsEach ih]
    simp [textRefs, countP_cons]
    omega
  | inlineTable i f es ih =>
    simp only [visits, refCount, Decor.visits, visitsEntries_eq, countP_append, countP_texts, countP_visitsEntries ih]
    simp [textRefs, countP_cons]
    omega
  | table i f es ih =>
    simp only [visits, refCount, Decor.visits, visitsEntries_eq, countP_append, countP_texts, countP_keyVisits,
      countP_visitsEntries ih]
    rfl
  | arrayOfTables i ts ih =>
    simp only [visits, refCount, visitsEach_eq, countP_append, countP_visitsEach ih]
    rfl

/-- As many references are collected as detaching replaces. -/
theorem length_spans (x : Item) (trailing : Option SpanText) :
    (x.spans trailing).length = x.refCount + textRefs trailing.toList := by
  rw [spans, visitsWith, length_filterMap_eq_countP, countP_append]
  change x.visits.countP Visit.isRef + (trailing.toList.map Visit.text).countP Visit.isRef = _
  rw [countP_visits, countP_texts]

/-! ## The walk over a detached tree -/

end Item

/-- A visit with the reference that it meets resolved. -/
def Visit.detach (source : List Char) : Visit → Visit
  | .text t => .text (t.detach source)
  | v => v

namespace Item

theorem map_detach_texts (source : List Char) (ts : List SpanText) :
    (ts.map Visit.text).map (Visit.detach source) = (ts.map (SpanText.detach source)).map Visit.text := by
  simp only [map_map]
  rfl

theorem decor_visits_detach (source : List Char) (d : Decor) :
    (d.detach source).visits = d.visits.map (Visit.detach source) := by
  obtain ⟨before, after⟩ := d
  cases before <;> cases after <;> rfl

theorem key_visits_detach (source : List Char) (k : Key) :
    (k.detach source).visits = k.visits.map (Visit.detach source) := by
  obtain ⟨name, repr, before, after⟩ := k
  cases repr <;> cases before <;> cases after <;> rfl

theorem keyVisits_detach (source : List Char) (ks : List Key) :
    keyVisits (ks.map (Key.detach source)) = (keyVisits ks).map (Visit.detach source) := by
  induction ks with
  | nil => rfl
  | cons k ks ih =>
    simp only [keyVisits, map_cons, flatMap_cons, map_append, key_visits_detach] at ih ⊢
    rw [ih]

theorem keyVisits_detach_getD (source : List Char) (ks : Option (List Key)) :
    keyVisits ((ks.map fun ks => ks.map (Key.detach source)).getD []) =
      (keyVisits (ks.getD [])).map (Visit.detach source) := by
  cases ks with
  | none => rfl
  | some ks => exact keyVisits_detach source ks

private theorem entryVisits_detach (h : (e.item.detach source).visits = e.item.visits.map (Visit.detach source)) :
    entryVisits (detachEntry source e) = (entryVisits e).map (Visit.detach source) := by
  simp only [entryVisits, detachEntry, map_cons, map_append, keyVisits_detach_getD, key_visits_detach, h]
  rfl

private theorem flatMap_map_comm {α β : Type} {f : α → α} {g : α → List β} {h : β → β} {l : List α}
    (hl : ∀ a ∈ l, g (f a) = (g a).map h) : (l.map f).flatMap g = (l.flatMap g).map h := by
  rw [flatMap_map, map_flatMap]
  exact flatMap_congr hl

/-- The walk over a detached tree meets the same things in the same order, with owned text where a reference stood. -/
theorem visits_detach (source : List Char) (x : Item) :
    (x.detach source).visits = x.visits.map (Visit.detach source) := by
  induction x using inductionOn with
  | scalar i s =>
    obtain ⟨kind, value, repr, decor⟩ := s
    simp only [detach, visits, decor_visits_detach, map_append]
    cases repr <;> rfl
  | array i f vs ih =>
    simp only [detach, visits, detachEach_eq, visitsEach_eq, flatMap_map_comm ih, decor_visits_detach,
      map_append]
    rfl
  | inlineTable i f es ih =>
    have hes := flatMap_map_comm fun e he => entryVisits_detach (ih e he)
    simp only [detach, visits, detachEntries_eq, visitsEntries_eq, hes, decor_visits_detach, map_append]
    rfl
  | table i f es ih =>
    have hes := flatMap_map_comm fun e he => entryVisits_detach (ih e he)
    simp only [detach, visits, detachEntries_eq, visitsEntries_eq, hes, decor_visits_detach, keyVisits_detach_getD,
      map_append]
    rfl
  | arrayOfTables i ts ih =>
    simp only [detach, visits, detachEach_eq, visitsEach_eq, flatMap_map_comm ih, map_append]
    rfl

theorem visitsWith_detach (source : List Char) (x : Item) (trailing : Option SpanText) :
    (x.detach source).visitsWith (trailing.map (SpanText.detach source)) =
      (x.visitsWith trailing).map (Visit.detach source) := by
  rw [visitsWith, visitsWith, visits_detach, map_append, map_detach_texts]
  cases trailing <;> rfl

/-- No reference is left in a detached tree. -/
theorem spans_detach (source : List Char) (x : Item) (trailing : Option SpanText) :
    (x.detach source).spans (trailing.map (SpanText.detach source)) = [] := by
  rw [spans, visitsWith_detach, filterMap_map, filterMap_eq_nil_iff]
  intro v _
  cases v with
  | text t => cases t <;> rfl
  | _ => rfl

/-! ## What a tree has besides its text -/

end Item

/-- Text of which only its being set is known. -/
def SpanText.outline (_ : SpanText) : SpanText := .empty

/-- Text around an element, of which only the sides that are set are known. -/
def Decor.outline (d : Decor) : Decor := ⟨d.before.map SpanText.outline, d.after.map SpanText.outline⟩

/-- A key without its text. -/
def Key.outline (k : Key) : Key := ⟨k.name, k.repr.map SpanText.outline, k.decor.outline⟩

namespace Item

/-- What an item remembers, without its place in a source and without being read-only. -/
def outlineInfo (i : Info) : Info := { label := i.label }

mutual

/-- An item without its text, its place in a source and its being read-only: its kind, the decoded values, the key names,
the order of the entries, the flags, the positions and the line terminators are left. -/
def outline : Item → Item
  | .scalar i s => .scalar (outlineInfo i) ⟨s.kind, s.value, s.repr.map SpanText.outline, s.decor.outline⟩
  | .array i f vs => .array (outlineInfo i) ⟨f.decor.outline, f.trailing.outline, f.trailingComma⟩ (outlineEach vs)
  | .inlineTable i f es =>
    .inlineTable (outlineInfo i) ⟨f.decor.outline, f.preamble.outline, f.dotted⟩ (outlineEntries es)
  | .table i f es =>
    .table (outlineInfo i)
      ⟨f.decor.outline, f.implicit, f.dotted, f.position, f.headerKeys.map (·.map Key.outline), f.newline⟩
      (outlineEntries es)
  | .arrayOfTables i ts => .arrayOfTables (outlineInfo i) (outlineEach ts)

/-- Each item without its text. -/
def outlineEach : List Item → List Item
  | [] => []
  | x :: xs => outline x :: outlineEach xs

/-- Each entry without its text. -/
def outlineEntries : List (Entry Item) → List (Entry Item)
  | [] => []
  | ⟨k, x, p, n, l⟩ :: es => ⟨k.outline, outline x, p.map (·.map Key.outline), n, l⟩ :: outlineEntries es

end

theorem outlineEach_eq (xs : List Item) : outlineEach xs = xs.map outline := eq_map_of_cons rfl (fun _ _ => rfl) xs

/-- Leaving the text out is a rewording. -/
theorem outline_eq_reworded (x : Item) : x.outline = x.reworded outlineInfo SpanText.outline := by
  have hentries : ∀ es : List (Entry Item), (∀ e ∈ es, e.item.outline = e.item.reworded outlineInfo SpanText.outline) →
      outlineEntries es = es.map (rewordedEntry outlineInfo SpanText.outline) := by
    intro es hes
    induction es with
    | nil => rfl
    | cons e es ih =>
      obtain ⟨he, hes⟩ := forall_mem_cons.mp hes
      rw [outlineEntries, he, ih hes]
      rfl
  induction x using inductionOn with
  | scalar i s => rfl
  | array i f vs ih =>
    rw [outline, reworded, outlineEach_eq, rewordedEach_eq, map_congr_left ih]
    rfl
  | inlineTable i f es ih =>
    rw [outline, reworded, hentries es ih, rewordedEntries_eq]
    rfl
  | table i f es ih =>
    rw [outline, reworded, hentries es ih, rewordedEntries_eq]
    rfl
  | arrayOfTables i ts ih => rw [outline, reworded, outlineEach_eq, rewordedEach_eq, map_congr_left ih]

/-- Detaching changes nothing but text, places in the source and being read-only. -/
theorem outline_detach (source : List Char) (x : Item) : (x.detach source).outline = x.outline := by
  rw [outline_eq_reworded, detach_eq_reworded, reworded_reworded, outline_eq_reworded]
  rfl

/-- The data of a detached tree is the data of the tree. -/
theorem unwrap_detach (source : List Char) (x : Item) : (x.detach source).unwrap = x.unwrap := by
  rw [detach_eq_reworded, unwrap_reworded]

theorem info_detach (source : List Char) (x : Item) : (x.detach source).info = detachedInfo x.info := by
  cases x <;> rfl

/-- Detaching takes no notice of what was read-only. -/
theorem detach_freeze (source : List Char) (b : Bool) (x : Item) : (x.freeze b).detach source = x.detach source := by
  rw [detach_eq_reworded, freeze_eq_reworded, reworded_reworded, detach_eq_reworded]
  rfl

/-- Every item of a detached tree is a detached item of the tree. -/
theorem within_detach (h : Within y (x.detach source)) : ∃ z, Within z x ∧ y = z.detach source := by
  rw [detach_eq_reworded] at h
  obtain ⟨z, hz, rfl⟩ := within_reworded h
  exact ⟨z, hz, (detach_eq_reworded source z).symm⟩

end Item

/-! ## Writing a detached tree -/

namespace Render

theorem resolves_detach (source : List Char) (other : Option (List Char)) :
    Resolves (SpanText.detach source) (some source) other :=
  SpanText.resolve_detach source other

variable {source : List Char} {other : Option (List Char)}

theorem valueRepr_detach (x : Item) : valueRepr other (x.detach source) = valueRepr (some source) x := by
  rw [Item.detach_eq_reworded]
  exact valueRepr_reworded (resolves_detach source other) x

/-- A detached tree is written, whatever the source, as the tree was written with its source. -/
theorem renderTree_detach (layout : Layout) (x : Item) (trailing : Option SpanText) :
    renderTree layout other (x.detach source) (trailing.map (SpanText.detach source)) =
      renderTree layout (some source) x trailing := by
  rw [Item.detach_eq_reworded]
  exact renderTree_reworded (resolves_detach source other) layout x trailing

end Render

/-! ## The main statement -/

namespace Item

/-- **Detachment loses nothing.** As many references are collected from a tree and its trailing text as detaching replaces;
afterwards none is left, and every item is editable and has no place in a source. The walk meets the same things at the same
places, a reference having become the text behind it, and nothing but text has changed. So the detached tree is written
without a source as the tree was written with its source, as a document and as a value. -/
theorem detach_loses_nothing (source : List Char) (x : Item) (trailing : Option SpanText) :
    x.refCount + textRefs trailing.toList = (x.spans trailing).length ∧
      (x.detach source).spans (trailing.map (SpanText.detach source)) = [] ∧
      (∀ y, Within y (x.detach source) → y.span = none ∧ y.frozen = false) ∧
      (x.detach source).visitsWith (trailing.map (SpanText.detach source)) =
        (x.visitsWith trailing).map (Visit.detach source) ∧
      (x.detach source).outline = x.outline ∧
      (x.detach source).unwrap = x.unwrap ∧
      (∀ layout, renderTree layout none (x.detach source) (trailing.map (SpanText.detach source)) =
        renderTree layout (some source) x trailing) ∧
      valueRepr none (x.detach source) = valueRepr (some source) x := by
  refine ⟨(length_spans x trailing).symm, spans_detach source x trailing, ?_, visitsWith_detach source x trailing,
    outline_detach source x, unwrap_detach source x, fun layout => renderTree_detach layout x trailing,
    valueRepr_detach x⟩
  intro y hy
  obtain ⟨z, -, rfl⟩ := within_detach hy
  rw [span, frozen, info_detach]
  exact ⟨rfl, rfl⟩

end Item
end Verbatim

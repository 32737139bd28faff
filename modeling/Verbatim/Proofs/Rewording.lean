import Mathlib.Data.List.Basic
import Verbatim.Document
import Verbatim.Proofs.Writing

/-!
# Rewording a tree

Freezing, copying, detaching and labelling a tree change two things only: what its items remember, and the texts in it. All
of them are cases of *rewording*, which changes both by given functions. The lines that are written do not depend on what
items remember, so a rewording whose texts resolve to what they resolved to before is written like the tree itself.
-/

namespace Verbatim

open List Item

variable {r : Info → Info} {f g : SpanText → SpanText}

/-- Text around an element with each piece changed. -/
def Decor.reworded (f : SpanText → SpanText) (d : Decor) : Decor := ⟨d.before.map f, d.after.map f⟩

/-- A key with each piece of its text changed. -/
def Key.reworded (f : SpanText → SpanText) (k : Key) : Key := ⟨k.name, k.repr.map f, k.decor.reworded f⟩

@[simp] theorem Decor.reworded_id (d : Decor) : d.reworded id = d := by
  simp [reworded]

@[simp] theorem Key.reworded_id (k : Key) : k.reworded id = k := by
  simp [reworded]

@[simp] theorem Decor.reworded_reworded (f g : SpanText → SpanText) (d : Decor) :
    (d.reworded f).reworded g = d.reworded (g ∘ f) := by
  simp [reworded]

@[simp] theorem Key.reworded_reworded (f g : SpanText → SpanText) (k : Key) :
    (k.reworded f).reworded g = k.reworded (g ∘ f) := by
  simp [reworded]

namespace Item

mutual

/-- The tree with what each item remembers and each text changed. -/
def reworded (r : Info → Info) (f : SpanText → SpanText) : Item → Item
  | .scalar i s => .scalar (r i) { s with repr := s.repr.map f, decor := s.decor.reworded f }
  | .array i a vs => .array (r i) { a with decor := a.decor.reworded f, trailing := f a.trailing } (rewordedEach r f vs)
  | .inlineTable i t es =>
    .inlineTable (r i) { t with decor := t.decor.reworded f, preamble := f t.preamble } (rewordedEntries r f es)
  | .table i t es =>
    .table (r i) { t with decor := t.decor.reworded f, headerKeys := t.headerKeys.map fun ks => ks.map (Key.reworded f) }
      (rewordedEntries r f es)
  | .arrayOfTables i ts => .arrayOfTables (r i) (rewordedEach r f ts)

/-- Each item, reworded. -/
def rewordedEach (r : Info → Info) (f : SpanText → SpanText) : List Item → List Item
  | [] => []
  | x :: xs => reworded r f x :: rewordedEach r f xs

/-- Each entry, reworded. -/
def rewordedEntries (r : Info → Info) (f : SpanText → SpanText) : List (Entry Item) → List (Entry Item)
  | [] => []
  | ⟨k, x, p, n, l⟩ :: es =>
    ⟨k.reworded f, reworded r f x, p.map fun ks => ks.map (Key.reworded f), n, l⟩ :: rewordedEntries r f es

end

/-- An entry, reworded. -/
def rewordedEntry (r : Info → Info) (f : SpanText → SpanText) (e : Entry Item) : Entry Item :=
  ⟨e.key.reworded f, e.item.reworded r f, e.dottedPath.map fun ks => ks.map (Key.reworded f), e.position, e.newline⟩

@[simp] theorem rewordedEach_eq (r : Info → Info) (f : SpanText → SpanText) (xs : List Item) :
    rewordedEach r f xs = xs.map (reworded r f) := eq_map_of_cons rfl (fun _ _ => rfl) xs

@[simp] theorem rewordedEntries_eq (r : Info → Info) (f : SpanText → SpanText) (es : List (Entry Item)) :
    rewordedEntries r f es = es.map (rewordedEntry r f) := eq_map_of_cons rfl (fun _ _ => rfl) es

section Kinds

variable (r : Info → Info) (f : SpanText → SpanText) (x : Item)

@[simp] theorem isValue_reworded : (x.reworded r f).isValue = x.isValue := by
  cases x <;> rfl

@[simp] theorem isDotted_reworded : (x.reworded r f).isDotted = x.isDotted := by
  cases x <;> rfl

@[simp] theorem isTable_reworded : (x.reworded r f).isTable = x.isTable := by
  cases x <;> rfl

@[simp] theorem info_reworded : (x.reworded r f).info = r x.info := by
  cases x <;> rfl

theorem entries_reworded : (x.reworded r f).entries = x.entries.map (rewordedEntry r f) := by
  cases x <;> simp [reworded, entries]

theorem decor_reworded : (x.reworded r f).decor?.getD {} = (x.decor?.getD {}).reworded f := by
  cases x <;> rfl

theorem children_reworded : (x.reworded r f).children = x.children.map (reworded r f) := by
  cases x <;> simp [reworded, children, rewordedEntry, Function.comp_def]

end Kinds

/-- What items remember and how they are spelled is no data. -/
@[simp] theorem unwrap_reworded (r : Info → Info) (f : SpanText → SpanText) (x : Item) : (x.reworded r f).unwrap = x.unwrap := by
  induction x using inductionOn with
  | scalar i s => rfl
  | array i a vs ih => simpa [reworded, unwrap] using ih
  | inlineTable i t es ih => simpa [reworded, unwrap, rewordedEntry, Entry.name, Key.reworded] using ih
  | table i t es ih => simpa [reworded, unwrap, rewordedEntry, Entry.name, Key.reworded] using ih
  | arrayOfTables i ts ih => simpa [reworded, unwrap] using ih

/-- Every item of a reworded tree is a reworded item of the tree. -/
theorem within_reworded (h : Within y (x.reworded r f)) : ∃ z, Within z x ∧ y = z.reworded r f := by
  generalize hx : x.reworded r f = d at h
  induction h generalizing x with
  | self => exact ⟨x, .self, hx.symm⟩
  | child hz hy ih =>
    subst hx
    rw [children_reworded, mem_map] at hz
    obtain ⟨c, hc, rfl⟩ := hz
    obtain ⟨z, hz, rfl⟩ := ih rfl
    exact ⟨z, .child hc hz, rfl⟩

private theorem keys_reworded_reworded (f g : SpanText → SpanText) (ks : Option (List Key)) :
    (ks.map fun ks => ks.map (Key.reworded f)).map (fun ks => ks.map (Key.reworded g)) =
      ks.map fun ks => ks.map (Key.reworded (g ∘ f)) := by
  cases ks <;> simp [Function.comp_def]

/-- Two rewordings one after the other are one rewording. -/
theorem reworded_reworded (r r' : Info → Info) (f g : SpanText → SpanText) (x : Item) :
    (x.reworded r f).reworded r' g = x.reworded (r' ∘ r) (g ∘ f) := by
  have hentries : ∀ es : List (Entry Item), (∀ e ∈ es, (e.item.reworded r f).reworded r' g = e.item.reworded (r' ∘ r) (g ∘ f)) →
      (es.map (rewordedEntry r f)).map (rewordedEntry r' g) = es.map (rewordedEntry (r' ∘ r) (g ∘ f)) := by
    intro es hes
    rw [map_map]
    refine map_congr_left fun e he => ?_
    simp only [Function.comp_apply, rewordedEntry, hes e he, Key.reworded_reworded, keys_reworded_reworded]
  induction x using inductionOn with
  | scalar i s => simp [reworded]
  | array i a vs ih => simpa [reworded] using ih
  | inlineTable i t es ih =>
    simp only [reworded, rewordedEntries_eq, hentries es ih, Decor.reworded_reworded]
    rfl
  | table i t es ih =>
    simp only [reworded, rewordedEntries_eq, hentries es ih, Decor.reworded_reworded, keys_reworded_reworded]
    rfl
  | arrayOfTables i ts ih => simpa [reworded] using ih

/-! ## The texts of a tree -/

def entryTexts (e : Entry Item) : List SpanText := (e.dottedPath.getD []).flatMap Key.texts ++ e.key.texts

/-- The texts in an item itself, without those in its members. -/
def ownTexts : Item → List SpanText
  | .scalar _ s => s.repr.toList ++ s.decor.texts
  | .array _ a _ => a.trailing :: a.decor.texts
  | .inlineTable _ t es => t.preamble :: t.decor.texts ++ es.flatMap entryTexts
  | .table _ t es => t.decor.texts ++ (t.headerKeys.getD []).flatMap Key.texts ++ es.flatMap entryTexts
  | .arrayOfTables .. => []

/-- A text that a walk meets belongs to an item of the tree. -/
theorem ownTexts_of_visit (h : Visit.text t ∈ x.visits) : ∃ y, Within y x ∧ t ∈ y.ownTexts := by
  have hkey : ∀ {k : Key}, Visit.text t ∈ k.visits → t ∈ k.texts := by
    intro k hk
    simpa [Key.visits] using hk
  have hkeys : ∀ {ks : List Key}, Visit.text t ∈ keyVisits ks → t ∈ ks.flatMap Key.texts := by
    intro ks hks
    obtain ⟨k, hk, ht⟩ := mem_flatMap.mp hks
    exact mem_flatMap.mpr ⟨k, hk, hkey ht⟩
  have hentry : ∀ {e : Entry Item}, Visit.text t ∈ entryVisits e → t ∈ entryTexts e ∨ Visit.text t ∈ e.item.visits := by
    intro e he
    simp only [entryVisits, mem_cons, mem_append, reduceCtorEq, false_or] at he
    rcases he with (he | he) | he
    · exact .inl (mem_append_left _ (hkeys he))
    · exact .inl (mem_append_right _ (hkey he))
    · exact .inr he
  induction x using inductionOn with
  | scalar i s => exact ⟨_, .self, by simpa [visits, Decor.visits, ownTexts] using h⟩
  | array i a vs ih =>
    simp only [visits, visitsEach_eq, Decor.visits, mem_append, mem_flatMap, mem_singleton, mem_map,
      Visit.text.injEq, reduceCtorEq, or_false, exists_eq_right] at h
    rcases h with (⟨v, hv, ht⟩ | rfl) | ht
    · obtain ⟨y, hy, ht⟩ := ih v hv ht
      exact ⟨y, .child hv hy, ht⟩
    · exact ⟨_, .self, mem_cons_self⟩
    · exact ⟨_, .self, mem_cons_of_mem _ ht⟩
  | inlineTable i f es ih =>
    simp only [visits, visitsEntries_eq, Decor.visits, mem_append, mem_flatMap, mem_singleton, mem_map,
      Visit.text.injEq, reduceCtorEq, or_false, exists_eq_right] at h
    rcases h with (rfl | ht) | ⟨e, he, ht⟩
    · exact ⟨_, .self, by simp [ownTexts]⟩
    · exact ⟨_, .self, by simp [ownTexts, ht]⟩
    · rcases hentry ht with ht | ht
      · exact ⟨_, .self, by simp only [ownTexts, mem_append, mem_flatMap]; exact .inr ⟨e, he, ht⟩⟩
      · obtain ⟨y, hy, ht⟩ := ih e he ht
        exact ⟨y, .child (mem_map_of_mem he) hy, ht⟩
  | table i f es ih =>
    simp only [visits, visitsEntries_eq, Decor.visits, mem_append, mem_flatMap, mem_singleton, mem_map,
      Visit.text.injEq, reduceCtorEq, or_false, exists_eq_right] at h
    rcases h with (ht | ht) | ⟨e, he, ht⟩
    · exact ⟨_, .self, by simp [ownTexts, ht]⟩
    · exact ⟨_, .self, by simp only [ownTexts, mem_append]; exact .inl (.inr (hkeys ht))⟩
    · rcases hentry ht with ht | ht
      · exact ⟨_, .self, by simp only [ownTexts, mem_append, mem_flatMap]; exact .inr ⟨e, he, ht⟩⟩
      · obtain ⟨y, hy, ht⟩ := ih e he ht
        exact ⟨y, .child (mem_map_of_mem he) hy, ht⟩
  | arrayOfTables i ts ih =>
    simp only [visits, visitsEach_eq, mem_append, mem_flatMap, mem_singleton, reduceCtorEq, or_false] at h
    obtain ⟨u, hu, ht⟩ := h
    obtain ⟨y, hy, ht⟩ := ih u hu ht
    exact ⟨y, .child hu hy, ht⟩

/-- A reference that is collected belongs to an item of the tree, or to the text that follows it. -/
theorem ownTexts_of_spans {trailing : SpanText} {span : Span} (h : span ∈ x.spans (some trailing)) :
    (∃ y, Within y x ∧ .ref span ∈ y.ownTexts) ∨ trailing = .ref span := by
  obtain ⟨v, hv, hspan⟩ := mem_filterMap.mp h
  cases v with
  | text t =>
    cases t with
    | owned s => cases hspan
    | ref s =>
      cases hspan
      rcases mem_append.mp hv with hv | hv
      · exact .inl (ownTexts_of_visit hv)
      · exact .inr (by simpa [eq_comm] using hv)
  | _ => cases hspan

private theorem option_congr {t : Option SpanText} (h : ∀ u ∈ t.toList, f u = g u) : t.map f = t.map g := by
  cases t with
  | none => rfl
  | some t => exact congrArg some (h t (by simp))

private theorem decor_congr {d : Decor} (h : ∀ t ∈ d.texts, f t = g t) : d.reworded f = d.reworded g := by
  simp only [Decor.texts, forall_mem_append] at h
  rw [Decor.reworded, option_congr h.1, option_congr h.2, Decor.reworded]

private theorem key_congr {k : Key} (h : ∀ t ∈ k.texts, f t = g t) : k.reworded f = k.reworded g := by
  simp only [Key.texts, forall_mem_append] at h
  rw [Key.reworded, option_congr h.1, decor_congr h.2, Key.reworded]

private theorem keys_congr {ks : Option (List Key)} (h : ∀ t ∈ (ks.getD []).flatMap Key.texts, f t = g t) :
    (ks.map fun ks => ks.map (Key.reworded f)) = ks.map fun ks => ks.map (Key.reworded g) := by
  cases ks with
  | none => rfl
  | some ks =>
    have hks := forall_mem_flatMap.mp h
    exact congrArg some (map_congr_left fun k hk => key_congr fun t ht => hks k hk t ht)

/-- Only the texts in a tree matter to its rewording. -/
theorem reworded_congr {x : Item} (h : ∀ y, Within y x → ∀ t ∈ y.ownTexts, f t = g t) : x.reworded r f = x.reworded r g := by
  have hentries : ∀ es : List (Entry Item), (∀ t ∈ es.flatMap entryTexts, f t = g t) →
      (∀ e ∈ es, e.item.reworded r f = e.item.reworded r g) → es.map (rewordedEntry r f) = es.map (rewordedEntry r g) := by
    intro es hkeys hitems
    refine map_congr_left fun e he => ?_
    have hkey := forall_mem_flatMap.mp hkeys e he
    simp only [entryTexts, forall_mem_append] at hkey
    rw [rewordedEntry, keys_congr hkey.1, key_congr hkey.2, hitems e he, rewordedEntry]
  induction x using inductionOn with
  | scalar i s =>
    have hself := h _ .self
    simp only [ownTexts, forall_mem_append] at hself
    rw [reworded, option_congr hself.1, decor_congr hself.2, reworded]
  | array i a vs ih =>
    have hself := h _ .self
    simp only [ownTexts, forall_mem_cons] at hself
    have hvs := map_congr_left fun v hv => ih v hv fun y hy => h y (.child hv hy)
    rw [reworded, rewordedEach_eq, hvs, hself.1, decor_congr hself.2, reworded, rewordedEach_eq]
  | inlineTable i t es ih =>
    have hself := h _ .self
    simp only [ownTexts, forall_mem_append, forall_mem_cons] at hself
    have hes := hentries es hself.2 fun e he => ih e he fun y hy => h y (.child (mem_map_of_mem he) hy)
    rw [reworded, rewordedEntries_eq, hes, hself.1.1, decor_congr hself.1.2, reworded, rewordedEntries_eq]
  | table i t es ih =>
    have hself := h _ .self
    simp only [ownTexts, forall_mem_append] at hself
    have hes := hentries es hself.2 fun e he => ih e he fun y hy => h y (.child (mem_map_of_mem he) hy)
    rw [reworded, rewordedEntries_eq, hes, decor_congr hself.1.1, keys_congr hself.1.2, reworded, rewordedEntries_eq]
  | arrayOfTables i ts ih =>
    have hts := map_congr_left fun t ht => ih t ht fun y hy => h y (.child ht hy)
    rw [reworded, rewordedEach_eq, hts, reworded, rewordedEach_eq]

theorem texts_reworded (f : SpanText → SpanText) (d : Decor) : (d.reworded f).texts = d.texts.map f := by
  obtain ⟨before, after⟩ := d
  cases before <;> cases after <;> rfl

theorem keyTexts_reworded (f : SpanText → SpanText) (k : Key) : (k.reworded f).texts = k.texts.map f := by
  simp only [Key.texts, Key.reworded, texts_reworded, map_append]
  cases k.repr <;> rfl

private theorem flatMap_texts_reworded (f : SpanText → SpanText) (ks : Option (List Key)) :
    ((ks.map fun ks => ks.map (Key.reworded f)).getD []).flatMap Key.texts = ((ks.getD []).flatMap Key.texts).map f := by
  cases ks with
  | none => rfl
  | some ks => simp [flatMap_map, map_flatMap, keyTexts_reworded]

theorem ownTexts_reworded (r : Info → Info) (f : SpanText → SpanText) (x : Item) :
    (x.reworded r f).ownTexts = x.ownTexts.map f := by
  have hentry : ∀ e : Entry Item, entryTexts (rewordedEntry r f e) = (entryTexts e).map f := by
    intro e
    simp only [entryTexts, rewordedEntry, flatMap_texts_reworded, keyTexts_reworded, map_append]
  cases x with
  | scalar i s =>
    simp only [reworded, ownTexts, texts_reworded, map_append]
    cases s.repr <;> rfl
  | array i a vs => simp [reworded, ownTexts, texts_reworded]
  | inlineTable i t es => simp [reworded, ownTexts, texts_reworded, flatMap_map, map_flatMap, hentry]
  | table i t es =>
    simp [reworded, ownTexts, texts_reworded, flatMap_texts_reworded, flatMap_map, map_flatMap, hentry]
  | arrayOfTables i ts => rfl

/-! ## What is a rewording -/

@[simp] theorem keys_reworded_id (ks : Option (List Key)) : (ks.map fun ks => ks.map (Key.reworded id)) = ks := by
  have hid : Key.reworded id = id := funext Key.reworded_id
  cases ks <;> simp [hid]

/-- Rewording that keeps the texts, in terms of the members. -/
theorem reworded_eq (r : Info → Info) (x : Item) : x.reworded r id = (x.mapMembers (reworded r id)).withInfo (r x.info) := by
  have hentries : ∀ es : List (Entry Item),
      es.map (rewordedEntry r id) = es.map fun e => { e with item := e.item.reworded r id } := by
    intro es
    refine map_congr_left fun e _ => ?_
    simp [rewordedEntry]
  cases x with
  | inlineTable i t es =>
    rw [reworded, rewordedEntries_eq, hentries, Decor.reworded_id]
    rfl
  | table i t es =>
    rw [reworded, rewordedEntries_eq, hentries, keys_reworded_id, Decor.reworded_id]
    rfl
  | _ => simp [reworded, mapMembers, withInfo, info]

/-- A change of what items remember that is made item by item is a rewording. -/
theorem eq_reworded {g : Item → Item} (hg : ∀ x : Item, g x = (x.mapMembers g).withInfo (r x.info)) (x : Item) :
    g x = x.reworded r id := by
  induction x using childInduction with
  | step x ih => rw [hg, reworded_eq, mapMembers_congr ih]

theorem freeze_eq_reworded (b : Bool) (x : Item) : x.freeze b = x.reworded (fun i => { i with frozen := b }) id := by
  refine eq_reworded (fun y => ?_) x
  cases y <;> simp [freeze, mapMembers, withInfo, info]

/-- A rewording that changes nothing. -/
@[simp] theorem reworded_id (x : Item) : x.reworded id id = x := by
  refine (@eq_reworded id id (fun y => ?_) x).symm
  cases y <;> simp [mapMembers, withInfo, info]

theorem copied_eq_reworded (x : Item) : x.copied = x.reworded (fun i => ⟨i.span, false, 0⟩) id := by
  refine eq_reworded (fun y => ?_) x
  cases y <;> simp [copied, mapMembers, withInfo, info]

theorem detach_eq_reworded (source : List Char) (x : Item) :
    x.detach source = x.reworded detachedInfo (SpanText.detach source) := by
  have hentries : ∀ es : List (Entry Item), (∀ e ∈ es, e.item.detach source = e.item.reworded detachedInfo (SpanText.detach source)) →
      es.map (detachEntry source) = es.map (rewordedEntry detachedInfo (SpanText.detach source)) := by
    intro es hes
    refine map_congr_left fun e he => ?_
    rw [detachEntry, hes e he]
    rfl
  induction x using inductionOn with
  | scalar i s => rfl
  | array i a vs ih =>
    simp only [detach, reworded, detachEach_eq, rewordedEach_eq, map_congr_left ih]
    rfl
  | inlineTable i t es ih =>
    simp only [detach, reworded, detachEntries_eq, rewordedEntries_eq, hentries es ih]
    rfl
  | table i t es ih =>
    simp only [detach, reworded, detachEntries_eq, rewordedEntries_eq, hentries es ih]
    rfl
  | arrayOfTables i ts ih => simp only [detach, reworded, detachEach_eq, rewordedEach_eq, map_congr_left ih]

end Item

/-! ## Writing a reworded tree -/

namespace Render

section Texts

variable {f : SpanText → SpanText} {source other : Option (List Char)}

def Resolves (f : SpanText → SpanText) (source other : Option (List Char)) : Prop :=
  ∀ t : SpanText, (f t).resolve other = t.resolve source

section

variable (hf : Resolves f source other)

include hf

theorem optionalText_reworded (default : String) (t : Option SpanText) :
    optionalText other default (t.map f) = optionalText source default t := by
  cases t with
  | none => rfl
  | some t => simp only [Option.map_some, optionalText, hf t]

theorem optionalText_reworded_some (default : String) (t : SpanText) :
    optionalText other default (some (f t)) = optionalText source default (some t) :=
  optionalText_reworded hf default (some t)

theorem keyText_reworded (before after : String) (k : Key) :
    keyText other before after (k.reworded f) = keyText source before after k := by
  have hrepr : keyRepr other (k.reworded f) = keyRepr source k := by
    obtain ⟨name, repr, decor⟩ := k
    cases repr with
    | none => rfl
    | some t => exact optionalText_reworded_some hf "" t
  simp only [keyText, hrepr]
  simp only [Key.reworded, Decor.reworded, optionalText_reworded hf]

theorem keyPathText_reworded (before after : String) (ks : List Key) :
    keyPathText other before after (ks.map (Key.reworded f)) = keyPathText source before after ks := by
  induction ks generalizing before with
  | nil => rfl
  | cons k ks ih =>
    cases ks with
    | nil => exact keyText_reworded hf before after k
    | cons k' ks =>
      simp only [map_cons] at ih ⊢
      simp only [keyPathText, keyText_reworded hf, ih]

end

def BodyLine.reworded (f : SpanText → SpanText) (l : BodyLine) : BodyLine :=
  ⟨l.keys.map (Key.reworded f), l.decor.reworded f, l.repr, l.newline⟩

theorem valueText_reworded (hf : Resolves f source other) (before after : String) (l : BodyLine) :
    (l.reworded f).valueText other before after = l.valueText source before after := by
  simp only [BodyLine.valueText, BodyLine.reworded, Decor.reworded, optionalText_reworded hf]

theorem inlineText_reworded (hf : Resolves f source other) (preamble : SpanText) (ls : List BodyLine) :
    inlineText other (f preamble) (ls.map (BodyLine.reworded f)) = inlineText source preamble ls := by
  have hparts : inlineParts other (ls.map (BodyLine.reworded f)) = inlineParts source ls := by
    induction ls with
    | nil => rfl
    | cons l ls ih =>
      have hkeys : keyPathText other " " " " (l.reworded f).keys = keyPathText source " " " " l.keys :=
        keyPathText_reworded hf " " " " l.keys
      cases ls with
      | nil => simp only [map_cons, map_nil, inlineParts, hkeys, valueText_reworded hf]
      | cons l' ls =>
        simp only [map_cons] at ih ⊢
        simp only [inlineParts, hkeys, valueText_reworded hf, ih]
  cases ls with
  | nil => simp only [map_nil, inlineText, optionalText_reworded_some hf]
  | cons l ls =>
    simp only [map_cons] at hparts ⊢
    simp only [inlineText, hparts]

theorem entryKeys_reworded (path : List Key) (p : Option (List Key)) (k : Key) :
    entryKeys (path.map (Key.reworded f)) (p.map fun ks => ks.map (Key.reworded f)) (k.reworded f) =
      (entryKeys path p k).map (Key.reworded f) := by
  cases p <;> simp [entryKeys]

end Texts

variable {r : Info → Info} {f : SpanText → SpanText} {source other : Option (List Char)}

private theorem bodyIn_reworded (path : List Key) (es : List (Entry Item)) :
    bodyIn (path.map (Key.reworded f)) (es.map (rewordedEntry r f)) =
      (bodyIn path es).map fun l => (l.1.map (Key.reworded f), rewordedEntry r f l.2) := by
  induction es using entriesInduction generalizing path with
  | step es below =>
    rw [bodyIn_eq, bodyIn_eq, flatMap_map, map_flatMap]
    refine flatMap_congr fun e he => ?_
    have hbelow := below e he (path ++ [e.key])
    rw [map_append, map_singleton, ← entries_reworded] at hbelow
    simp only [entryBody, rewordedEntry, isDotted_reworded, isValue_reworded, hbelow]
    split
    · rfl
    · split <;> rfl

/-- A body is written the same if its values are. -/
private theorem bodyLines_reworded
    (h : ∀ l ∈ bodyIn [] es, valueRepr other (l.2.item.reworded r f) = valueRepr source l.2.item) :
    (bodyLines other [] 0 (es.map (rewordedEntry r f))).1 = (bodyLines source [] 0 es).1.map (Prod.map id (BodyLine.reworded f)) := by
  have hbody := @bodyIn_reworded r f [] es
  rw [map_nil] at hbody
  rw [bodyLines_eq, bodyLines_eq, hbody, numbered_map _ fun _ => rfl]
  simp only [map_map]
  refine map_congr_left fun l hl => congrArg (Prod.mk _) ?_
  simp only [valueLine, rewordedEntry, BodyLine.reworded, entryKeys_reworded, decor_reworded, h _ (mem_numbered hl).1]

private theorem elementTexts_reworded (hf : Resolves f source other)
    (h : ∀ v ∈ vs, valueRepr other (v.reworded r f) = valueRepr source v) (first : Bool) :
    elementTexts other first (vs.map (reworded r f)) = elementTexts source first vs := by
  induction vs generalizing first with
  | nil => rfl
  | cons v vs ih =>
    obtain ⟨hv, hvs⟩ := forall_mem_cons.mp h
    simp only [map_cons, elementTexts, decor_reworded, hv, ih hvs, Decor.reworded, optionalText_reworded hf]

/-- A value whose texts resolve alike is written alike. -/
theorem valueRepr_reworded (hf : Resolves f source other) (x : Item) :
    valueRepr other (x.reworded r f) = valueRepr source x := by
  induction x using valueInduction with
  | scalar i s =>
    obtain ⟨kind, value, repr, decor⟩ := s
    cases repr with
    | none => rfl
    | some t => exact optionalText_reworded_some hf "" t
  | array i a vs ih =>
    simp only [reworded, valueRepr, rewordedEach_eq, elementTexts_reworded hf ih, optionalText_reworded_some hf, isEmpty_map]
  | inlineTable i t es ih =>
    simp only [reworded, valueRepr, rewordedEntries_eq, bodyLines_reworded ih, ← map_byPosition, inlineText_reworded hf]
  | table | arrayOfTables => rfl

/-! ## Writing a reworded document -/

/-- A table of a tree, reworded. -/
def Section.reworded (r : Info → Info) (f : SpanText → SpanText) (s : Section) : Section where
  form := { s.form with
    decor := s.form.decor.reworded f
    headerKeys := s.form.headerKeys.map fun ks => ks.map (Key.reworded f) }
  entries := s.entries.map (rewordedEntry r f)
  path := s.path.map (Key.reworded f)
  isArray := s.isArray
  isRoot := s.isRoot

private theorem sectionsIn_reworded (x : Item) (path : List Key) (isArray isRoot : Bool) :
    sectionsIn (path.map (Key.reworded f)) isArray isRoot (x.reworded r f) =
      (sectionsIn path isArray isRoot x).map (Section.reworded r f) := by
  induction x using inductionOn generalizing path isArray isRoot with
  | table i t es ih =>
    have hbelow : ∀ e ∈ es, sectionsIn (path.map (Key.reworded f) ++ [(rewordedEntry r f e).key]) false false (e.item.reworded r f) =
        (sectionsIn (path ++ [e.key]) false false e.item).map (Section.reworded r f) := by
      intro e he
      have := ih e he (path ++ [e.key]) false false
      rwa [map_append, map_singleton] at this
    simp only [reworded, sectionsIn, sectionsBelow_eq, rewordedEntries_eq, flatMap_map, map_cons, map_flatMap]
    exact congrArg _ (flatMap_congr hbelow)
  | arrayOfTables i ts ih =>
    simp only [reworded, sectionsIn, sectionsEach_eq, rewordedEach_eq, flatMap_map, map_flatMap]
    exact flatMap_congr fun t ht => ih t ht path true false
  | _ => rfl

private theorem hasHeader_reworded (s : Section) : (s.reworded r f).hasHeader = s.hasHeader := by
  have hline : hasBodyLine ∘ rewordedEntry r f = hasBodyLine := by
    funext e
    simp only [Function.comp_def, hasBodyLine, rewordedEntry, isValue_reworded, isDotted_reworded,
      isTable_reworded]
  simp only [Section.hasHeader, Section.reworded, any_map, hline]

section

variable (hf : Resolves f source other)

include hf

private theorem view_header_reworded (s : Section) :
    (WrittenLine.header (s.reworded r f)).view other = (WrittenLine.header s).view source := by
  have hkeys : keyPathText other "" "" ((s.reworded r f).form.headerKeys.getD (s.reworded r f).path) =
      keyPathText source "" "" (s.form.headerKeys.getD s.path) := by
    rw [← keyPathText_reworded hf]
    simp only [Section.reworded]
    cases s.form.headerKeys <;> rfl
  refine congrArg₂ Prod.mk (funext₂ fun layout isFirst => ?_) rfl
  simp only [WrittenLine.text, hkeys]
  simp only [Section.reworded, Decor.reworded, optionalText_reworded hf]
  rfl

private theorem view_body_reworded (l : BodyLine) :
    (WrittenLine.body (l.reworded f)).view other = (WrittenLine.body l).view source := by
  have hkeys : keyPathText other "" " " (l.reworded f).keys = keyPathText source "" " " l.keys :=
    keyPathText_reworded hf "" " " l.keys
  refine congrArg₂ Prod.mk (funext₂ fun layout isFirst => ?_) rfl
  simp only [WrittenLine.text, hkeys, valueText_reworded hf]

private theorem view_reworded (s : Section) :
    (sectionLines other (s.reworded r f)).map (WrittenLine.view other) = (sectionLines source s).map (WrittenLine.view source) := by
  have hlines : (byPosition (bodyLines other [] 0 (s.reworded r f).entries).1).map (fun l => (WrittenLine.body l).view other) =
      (byPosition (bodyLines source [] 0 s.entries).1).map fun l => (WrittenLine.body l).view source := by
    rw [Section.reworded, bodyLines_reworded fun l _ => valueRepr_reworded hf l.2.item, ← map_byPosition, map_map]
    exact map_congr_left fun l _ => view_body_reworded hf l
  have hroot : (s.reworded r f).isRoot = s.isRoot := rfl
  simp only [sectionLines, hasHeader_reworded, hroot]
  split
  · simpa [Function.comp_def] using hlines
  · split
    · simpa [Function.comp_def, view_header_reworded hf] using hlines
    · rfl

/-- A tree whose texts resolve alike is written alike. -/
theorem renderTree_reworded (layout : Layout) (x : Item) (trailing : Option SpanText) :
    renderTree layout other (x.reworded r f) (trailing.map f) = renderTree layout source x trailing := by
  have hoff := @sectionsIn_reworded r f x [] false true
  rw [map_nil] at hoff
  have hviews : (writtenLines other (x.reworded r f)).map (WrittenLine.view other) =
      (writtenLines source x).map (WrittenLine.view source) := by
    rw [writtenLines_eq, writtenLines_eq, hoff, numbered_map _ fun _ => rfl, ← map_byPosition, flatMap_map,
      map_flatMap, map_flatMap]
    exact flatMap_congr fun s _ => view_reworded hf s
  simp only [renderTree, linesText_congr hviews, optionalText_reworded hf]

end

end Render

/-! ## Forgetting what items remember -/

namespace Item

/-- The tree of which nothing is remembered. -/
def stripped (x : Item) : Item := x.reworded (fun _ => {}) id

theorem stripped_reworded (r : Info → Info) (x : Item) : (x.reworded r id).stripped = x.stripped :=
  reworded_reworded ..

@[simp] theorem stripped_copied (x : Item) : x.copied.stripped = x.stripped := by
  rw [copied_eq_reworded, stripped_reworded]

end Item

namespace Render

theorem resolves_id (source : Option (List Char)) : Resolves id source source := fun _ => rfl

/-- What items remember makes no difference to the text of a tree. -/
theorem renderTree_stripped (layout : Layout) (source : Option (List Char)) (x : Item) (trailing : Option SpanText) :
    renderTree layout source x.stripped trailing = renderTree layout source x trailing := by
  have h := @renderTree_reworded (fun _ => {}) id source source (resolves_id source) layout x trailing
  rwa [Option.map_id_fun, id] at h

end Render

end Verbatim

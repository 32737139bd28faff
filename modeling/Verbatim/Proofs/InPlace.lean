import Mathlib
import Verbatim.Proofs.OnePlace
import Verbatim.Proofs.OwnText
import Verbatim.Proofs.SpanOrder

/-!
# New values stand in the places of the old ones

Giving an entry of a document that was read another value changes nothing but the characters of that value: the new one takes
over the text around the old one, and the entry keeps its key, its place and its line end. So after any sequence of such
assignments, of which none changes something within a value that another one replaces, the document is written as the text
that was read, with the spelling of the last value of each entry in the place of the old value.

## Main statements

- `Item.Insertable` - a new value with nothing around it, as plain data gives it.
- `Workspace.Assignment` - an assignment that gives an entry of a tree another value.
- `Workspace.replaces_in_place` - the text after such assignments.
-/

namespace Verbatim

open List Render Workspace Item

variable {s : Span} {x y z : Item} {path : List Segment}

namespace Item

variable {c v x y : Item} {e : Entry Item}

variable {σ τ : Span → Option Item}

/-! ## Exchanging along a path -/

theorem newValue?_eq_some (h : newValue? σ x = some y) :
    x.isFrame = false ∧ ∃ s v, x.info.span = some s ∧ σ s = some v ∧ y = v.withDecor (x.decor?.getD {}) := by
  rw [newValue?] at h
  split at h
  · cases h
  · next hframe =>
    obtain ⟨v, hv, rfl⟩ := Option.map_eq_some_iff.mp h
    obtain ⟨s, hs, hv⟩ := Option.bind_eq_some_iff.mp hv
    exact ⟨by simpa using hframe, s, v, hs, hv, rfl⟩

theorem newValue?_of_span (hvalue : x.isFrame = false) (hs : x.info.span = some s) (hv : σ s = some v) :
    newValue? σ x = some (v.withDecor (x.decor?.getD {})) := by
  rw [newValue?, hvalue, hs]
  simp [hv]

/-- Only what is new for the spans of a tree matters to it. -/
theorem exchanged_congr (h : ∀ s ∈ x.valueSpans, σ s = τ s) : x.exchanged σ = x.exchanged τ := by
  induction x using childInduction with
  | step x ih =>
    have hmembers : x.mapMembers (exchanged σ) = x.mapMembers (exchanged τ) :=
      mapMembers_congr fun z hz => ih z hz fun s hs => h s (valueSpans_of_within (.child hz .self) s hs)
    have hnew : newValue? σ x = newValue? τ x := by
      rw [newValue?, newValue?]
      split
      · rfl
      · next hframe =>
        cases hs : x.info.span with
        | none => rfl
        | some s => rw [Option.bind_some, Option.bind_some, h s (mem_valueSpans .self (by simpa using hframe) hs)]
    rw [exchanged_eq, exchanged_eq x, hnew, hmembers]

/-- Nothing that holds an item is exchanged, nor is the item itself. -/
def Untouched (σ : Span → Option Item) (x y : Item) : Prop := ∀ z, Within z x → Within y z → newValue? σ z = none

theorem Untouched.child (h : Untouched σ x y) (hz : z ∈ x.children) : Untouched σ z y :=
  fun w hw => h w (.child hz hw)

/-- Nothing around an item is exchanged. -/
def Uncovered (σ : Span → Option Item) (x y : Item) : Prop :=
  ∀ z, Within z x → ∀ c ∈ z.children, Within y c → newValue? σ z = none

theorem Uncovered.child (h : Uncovered σ x y) (hz : z ∈ x.children) : Uncovered σ z y :=
  fun w hw => h w (.child hz hw)

theorem Untouched.uncovered (h : Untouched σ x y) : Uncovered σ x y :=
  fun z hz _ hc hy => h z hz (.child hc hy)

/-- Nothing on the way along a path is exchanged. -/
def Clear (σ : Span → Option Item) : Item → List Segment → Prop
  | _, [] => True
  | x, s :: path => newValue? σ x = none ∧ ∀ y, x.step s = .ok y → Clear σ y path

theorem Uncovered.clear (h : x.follow path = .ok y) (hσ : Uncovered σ x y) : Clear σ x path := by
  induction path generalizing x with
  | nil => trivial
  | cons s path ih =>
    obtain ⟨z, hz, h⟩ := follow_cons_eq_ok h
    have hmem := mem_children_of_step hz
    refine ⟨hσ x .self z hmem (within_of_follow h), fun z' hz' => ?_⟩
    cases hz.symm.trans hz'
    exact ih h (hσ.child hmem)

/-- A path to an item leads to what the item becomes. -/
theorem follow_exchanged (h : x.follow path = .ok y) (hnone : Untouched σ x y) :
    (x.exchanged σ).follow path = .ok (y.exchanged σ) := by
  induction path generalizing x with
  | nil =>
    cases h
    rfl
  | cons s path ih =>
    obtain ⟨z, hz, h⟩ := follow_cons_eq_ok h
    have hmem := mem_children_of_step hz
    rw [exchanged_of_none (hnone x .self (.child hmem (within_of_follow h))), follow, step_mapMembers, hz]
    exact ih h (hnone.child hmem)

private theorem exchanged_around (hspans : x.valueSpans.Nodup) (hchildren : x.children = pre ++ z :: post)
    (hagree : ∀ s, s ∉ z.valueSpans → σ s = τ s) :
    z.valueSpans.Nodup ∧ (∀ w ∈ pre, w.exchanged σ = w.exchanged τ) ∧ ∀ w ∈ post, w.exchanged σ = w.exchanged τ := by
  rw [valueSpans_eq, hchildren, flatMap_append, flatMap_cons] at hspans
  obtain ⟨-, hz, hbefore⟩ := nodup_append.mp (nodup_append.mp hspans).2.1
  obtain ⟨hnodup, -, hafter⟩ := nodup_append.mp hz
  refine ⟨hnodup, fun w hw => ?_, fun w hw => ?_⟩
  · refine exchanged_congr fun s hs => hagree s fun hsz => ?_
    exact hbefore s (mem_flatMap.mpr ⟨w, hw, hs⟩) s (mem_append_left _ hsz) rfl
  · refine exchanged_congr fun s hs => hagree s fun hsz => ?_
    exact hafter s hsz s (mem_flatMap.mpr ⟨w, hw, hs⟩) rfl

/-- If more is exchanged in the item at the end of a path only, then the tree changes there only. -/
theorem exchanged_replaceAt (hspans : x.valueSpans.Nodup) (h : x.follow path = .ok y) (hσ : Clear σ x path)
    (hτ : Clear τ x path) (hagree : ∀ s, s ∉ y.valueSpans → σ s = τ s) :
    x.exchanged τ = (x.exchanged σ).replaceAt path (y.exchanged τ) := by
  induction path generalizing x with
  | nil =>
    cases h
    rfl
  | cons s path ih =>
    obtain ⟨z, hz, h⟩ := follow_cons_eq_ok h
    obtain ⟨pre, post, hchildren, hreplace⟩ := exists_members hz
    obtain ⟨hnodup, hbefore, hafter⟩ := exchanged_around hspans hchildren fun s hs =>
      hagree s fun hsy => hs (valueSpans_of_within (within_of_follow h) s hsy)
    rw [exchanged_of_none hσ.1, exchanged_of_none hτ.1, hreplace, ← ih hnodup h (hσ.2 z hz) (hτ.2 z hz), mapMembers_eq,
      hchildren, map_append, map_cons, map_congr_left hbefore, map_congr_left hafter]

theorem exists_of_mem_sites (h : s ∈ x.sites σ) : ∃ v, σ s = some v := by
  induction x using childInduction with
  | step x ih =>
    rw [sites_eq] at h
    split at h
    · next hsome =>
      obtain ⟨y, hy⟩ := Option.isSome_iff_exists.mp hsome
      obtain ⟨-, s', v, hs', hv, -⟩ := newValue?_eq_some hy
      rw [hs'] at h
      cases mem_singleton.mp h
      exact ⟨v, hv⟩
    · obtain ⟨z, hz, hs⟩ := mem_flatMap.mp h
      exact ih z hz hs

theorem mem_sites_of_uncovered (hy : Within y x) (hnone : Uncovered σ x y) : ∀ s ∈ y.sites σ, s ∈ x.sites σ := by
  induction hy with
  | self => exact fun _ hs => hs
  | @child x z hz hy ih =>
    intro s hs
    rw [sites_of_none (hnone x .self z hz hy)]
    exact mem_flatMap.mpr ⟨z, hz, ih (hnone.child hz) s hs⟩

section Remembering

variable {r : Info → Info} (hr : ∀ i, (r i).span = i.span)
include hr

theorem valueSpans_reworded (x : Item) : (x.reworded r id).valueSpans = x.valueSpans := by
  induction x using childInduction with
  | step x ih =>
    have hmembers : (x.children.map (reworded r id)).flatMap valueSpans = x.children.flatMap valueSpans := by
      rw [flatMap_map]
      exact flatMap_congr ih
    rw [valueSpans_eq, valueSpans_eq x, children_reworded, hmembers, info_reworded, hr]
    cases x <;> rfl

theorem Regular.reworded (hlabel : ∀ i, (r i).label = i.label) (h : x.Regular) : (x.reworded r id).Regular := by
  intro y hy
  obtain ⟨z, hz, rfl⟩ := within_reworded hy
  obtain ⟨hunlabelled, hnames, hspan, harray⟩ := h z hz
  refine ⟨by rw [info_reworded, hlabel, hunlabelled], ?_, ?_, fun {i f vs} hx => ?_⟩
  · rw [entries_reworded, map_map]
    exact hnames
  · rwa [isValue_reworded, isDotted_reworded, info_reworded, hr]
  · cases z with
    | array j g ws =>
      obtain ⟨hj, hg⟩ := harray rfl
      cases hx
      exact ⟨by rw [hr]; exact hj, fun hnil => hg.empty (by simpa using hnil), fun hne => hg.last (by simpa using hne)⟩
    | _ => cases hx

theorem newValue?_reworded (x : Item) : newValue? σ (x.reworded r id) = newValue? σ x := by
  have hframe : (x.reworded r id).isFrame = x.isFrame := by cases x <;> rfl
  rw [newValue?, newValue?, hframe, info_reworded, hr, decor_reworded, Decor.reworded_id]

theorem sites_reworded (x : Item) : (x.reworded r id).sites σ = x.sites σ := by
  induction x using childInduction with
  | step x ih =>
    have hmembers : (x.children.map (reworded r id)).flatMap (sites σ) = x.children.flatMap (sites σ) := by
      rw [flatMap_map]
      exact flatMap_congr ih
    rw [sites_eq, sites_eq x, newValue?_reworded hr, info_reworded, hr, children_reworded, hmembers]

/-- What items remember besides their places does not matter to what is exchanged. -/
theorem exchanged_reworded (x : Item) : ((x.reworded r id).exchanged σ).stripped = (x.exchanged σ).stripped := by
  induction x using childInduction with
  | step x ih =>
    rw [exchanged_eq, exchanged_eq x, newValue?_reworded hr]
    cases newValue? σ x with
    | some y => rfl
    | none =>
      have hmembers : (x.mapMembers (reworded r id)).mapMembers (stripped ∘ exchanged σ) =
          x.mapMembers (stripped ∘ exchanged σ) := by
        rw [mapMembers_mapMembers]
        exact mapMembers_congr ih
      rw [Option.getD_none, Option.getD_none, stripped_eq, stripped_eq (x.mapMembers _), mapMembers_mapMembers,
        mapMembers_mapMembers, ← hmembers, reworded_eq]
      cases x <;> rfl

end Remembering

/-! ## Values to be inserted -/

/-- A new value that can take the place of another one: it owns its text, no workspace knows it, and it has nothing around it
that would keep it from taking over what stands around the other one. -/
structure Insertable (v : Item) : Prop where
  ownsText : v.OwnsText
  unlabelled : v.Unlabelled
  bare : v.isValue = true → v.decor? = some {}
  notDotted : v.isDotted = false

theorem withDecor_of_decor? (h : v.decor? = some d) : v.withDecor d = v := by
  cases v <;> cases h <;> rfl

private theorem Insertable.replacing (hold : Insertable old) (hnew : Insertable new) : Item.replacing old new = new := by
  rw [Item.replacing]
  split
  · next d d' hvalue hd hd' =>
    rw [Bool.and_eq_true] at hvalue
    cases hd.symm.trans (hold.bare hvalue.1)
    rw [withDecor_of_decor? (hnew.bare hvalue.2), ite_self]
  · rfl

private theorem unlabelled_new (hinfo : x.info = {}) (hmembers : ∀ z ∈ x.children, z.Unlabelled) : x.Unlabelled :=
  unlabelled_iff.mpr ⟨by rw [hinfo], hmembers⟩

/-- Plain data becomes something that can be inserted. -/
theorem convertible_insertable : Convertible (fun _ => False) Insertable where
  kept _ h := h.elim
  copied _ h := h.elim
  replacing _ _ hold hnew := (hold.replacing hnew).symm ▸ hnew
  scalar kind value h := ⟨convertible_ownsText.scalar kind value h, unlabelled_new rfl (forall_mem_nil _), fun _ => rfl, rfl⟩
  array vs h := by
    refine ⟨convertible_ownsText.array vs fun v hv => ⟨(h v hv).1.ownsText, (h v hv).2⟩, ?_, fun _ => rfl, rfl⟩
    exact unlabelled_new rfl fun v hv => (h v hv).1.unlabelled
  inlineTable es hnew h := by
    refine ⟨convertible_ownsText.inlineTable es hnew fun e he => ⟨(h e he).1.ownsText, (h e he).2⟩, ?_, fun _ => rfl, rfl⟩
    exact unlabelled_new rfl (forall_mem_map.mpr fun e he => (h e he).1.unlabelled)
  table es hnew h := by
    refine ⟨convertible_ownsText.table es hnew fun e he => (h e he).ownsText, ?_, nofun, rfl⟩
    exact unlabelled_new rfl (forall_mem_map.mpr fun e he => (h e he).unlabelled)
  arrayOfTables ts hfilled h := by
    refine ⟨convertible_ownsText.arrayOfTables ts hfilled fun t ht => ⟨(h t ht).1.ownsText, (h t ht).2⟩, ?_, nofun, rfl⟩
    exact unlabelled_new rfl fun t ht => (h t ht).1.unlabelled

/-- A value on its own, as reading a single value gives it: no reference is left in it, and nothing stands around it. -/
structure Detached (x : Item) : Prop where
  texts : ∀ y, Within y x → ∀ t ∈ y.ownTexts, t.isRef = false
  bare : x.decor? = some {}
  notDotted : x.isDotted = false

theorem decor?_reworded (r : Info → Info) (f : SpanText → SpanText) (x : Item) :
    (x.reworded r f).decor? = x.decor?.map (Decor.reworded f) := by
  cases x <;> rfl

/-- The copy of such a value can be inserted. -/
theorem Detached.insertable (h : Detached x) : Insertable x.copied := by
  rw [copied_eq_reworded]
  refine ⟨ownsText_reworded (fun _ => rfl) h.texts, fun y hy => ?_, fun _ => ?_, by simpa using h.notDotted⟩
  · obtain ⟨z, -, rfl⟩ := within_reworded hy
    rw [info_reworded]
  · rw [decor?_reworded, h.bare]
    rfl

/-- What an assignment may bring in: plain data, or a value on its own. -/
inductive Replacement : Input → Prop where
  | plain {d : Input} (h : d.Carries fun _ => False) : Replacement d
  | detached {x : Item} (h : Detached x) : Replacement (.item x)

theorem Replacement.insertable (hd : Replacement d) (h : c.coerced d = .ok v) : Insertable v := by
  cases hd with
  | plain hplain => exact ((convertible_insertable.brings hplain).coerced h).1
  | @detached x hx =>
    rw [coerced] at h
    split at h
    · next y hy =>
      cases h
      have hself : y = x := by
        split at hy
        · rw [ofValue] at hy
          split at hy
          · cases hy
            rfl
          · cases hy
        · cases hy
          rfl
      rw [hself]
      exact hx.insertable
    · cases h

/-! ## One assignment -/

theorem exchanged_decor? (hσ : ∀ s v, σ s = some v → v.isValue = true) (hx : x.isValue = true) :
    (x.exchanged σ).isValue = true ∧ (x.exchanged σ).decor? = x.decor? := by
  rw [exchanged_eq]
  cases hnew : newValue? σ x with
  | none =>
    rw [Option.getD_none, isValue_mapMembers]
    exact ⟨hx, by cases x <;> rfl⟩
  | some y =>
    obtain ⟨-, s, v, -, hv, rfl⟩ := newValue?_eq_some hnew
    have hvalue := hσ s v hv
    rw [Option.getD_some, isValue_withDecor, decor?_withDecor _ hvalue]
    refine ⟨hvalue, ?_⟩
    cases x <;> first | rfl | cases hx

/-- A value without text around it takes over what stands around the value that it replaces. -/
theorem replacing_of_bare (hold : old.isValue = true) (hd : old.decor? = some d) (hnew : new.isValue = true)
    (hbare : new.decor? = some {}) : replacing old new = new.withDecor d := by
  rw [replacing, hold, hnew, hd, hbare]
  rfl

theorem reworded_withDecor (r : Info → Info) (f : SpanText → SpanText) (d : Decor) (x : Item) :
    (x.withDecor d).reworded r f = (x.reworded r f).withDecor (d.reworded f) := by
  cases x <;> rfl

/-- A tree of which nothing is remembered and which has its own text, as far as it was read from a source. -/
def freed (source : List Char) (x : Item) : Item := x.reworded (fun _ => {}) (SpanText.detach source)

theorem OwnsText.freed (h : OwnsText x) (source : List Char) : x.freed source = x.stripped :=
  h.reworded_detach _ source

/-- An item is put in the place of the only entry of its name. -/
theorem place_of_mem (hname : e.name = name) (hpre : ∀ d ∈ pre, d.name ≠ name) (hpost : ∀ d ∈ post, d.name ≠ name) :
    place name x (pre ++ e :: post) = pre ++ { e with item := replacing e.item x } :: post := by
  have hfind : (findNamed? name (pre ++ e :: post)).isSome = true :=
    List.find?_isSome.mpr ⟨e, by simp, by simp [hname]⟩
  have hkeep : ∀ es : List (Entry Item), (∀ d ∈ es, d.name ≠ name) →
      updateEntry name (fun d => { d with item := replacing d.item x }) es = es := by
    intro es hes
    refine (map_congr_left fun d hd => ?_).trans (map_id' es)
    have hne : (d.name == name) = false := by simpa using hes d hd
    rw [hne]
    rfl
  rw [place]
  split
  · next hnone =>
    rw [hnone] at hfind
    cases hfind
  · rw [updateEntry, map_append, map_cons, if_pos (by simp [hname])]
    exact congrArg₂ (· ++ _ :: ·) (hkeep pre hpre) (hkeep post hpost)

/-- Putting an item under the name of an entry puts it at the end of a path. -/
theorem place_eq_replaceAt (hnames : (x.entries.map Entry.name).Nodup) (h : x.step (.name name) = .ok y) (z : Item) :
    x.withEntries (place name z x.entries) = x.replaceAt [.name name] (replacing y z) := by
  rcases step_eq_ok h with ⟨_, pre, post, e, ⟨⟩, -, hes, hname, hpre, rfl⟩ | ⟨_, _, _, ⟨⟩, -⟩
  rw [replaceAt_name hes hname hpre, hes, place_of_mem hname hpre fun d hd heq => ?_]
  · rfl
  · rw [hes, map_append, map_cons] at hnames
    refine (nodup_cons.mp (nodup_append.mp hnames).2.1).1 ?_
    rw [hname, ← heq]
    exact mem_map_of_mem hd

/-- A value that is put in the place of another one, or of what that has been exchanged for, is written with the text around
the other one. -/
theorem replacing_freed (source : List Char) (hσ : ∀ s v, σ s = some v → v.isValue = true) (hvalue : x.isValue = true)
    (hframe : x.isFrame = false) (hs : x.info.span = some s) (hv : Insertable v) (hvvalue : v.isValue = true) :
    replacing ((x.exchanged σ).freed source) v.stripped = (x.exchanged (Function.update σ s (some v))).freed source := by
  obtain ⟨hold, hdecor⟩ := exchanged_decor? hσ hvalue
  obtain ⟨d, hd⟩ : ∃ d, x.decor? = some d := by
    cases x <;> first | exact ⟨_, rfl⟩ | cases hvalue
  have hnew := newValue?_of_span (σ := Function.update σ s (some v)) hframe hs (Function.update_self ..)
  have hafter : x.exchanged (Function.update σ s (some v)) = v.withDecor d := by
    rw [exchanged_eq, hnew, hd]
    rfl
  rw [hafter, replacing_of_bare (d := d.reworded (SpanText.detach source)), freed, reworded_withDecor, ← freed,
    hv.ownsText.freed]
  · rw [freed, isValue_reworded, hold]
  · rw [freed, decor?_reworded, hdecor, hd]
    rfl
  · rw [isValue_stripped, hvvalue]
  · rw [decor?_stripped, hv.bare hvvalue]

end Item

namespace Workspace

open Item

/-- An assignment that gives an entry of a tree another value: the table or inline table that a path leads to, an entry of it
whose item is a value that was read, and data that becomes a value there. -/
structure Assignment (root : Item) where
  path : List Segment
  container : Item
  entry : Entry Item
  span : Span
  data : Input
  value : Item
  leads : root.follow path = .ok container
  named : container.entryNamed? entry.name = some entry
  replaces : entry.item.isValue = true
  stands : entry.item.info.span = some span
  replacement : Replacement data
  converts : container.coerced data = .ok value
  isValue : value.isValue = true

namespace Assignment

variable {root : Item} (a : Assignment root)

def edit : Edit := .assign { path := a.path } a.entry.name a.data

theorem mem_entries : a.entry ∈ a.container.entries := mem_of_findNamed? a.named

theorem isMapping : a.container.isMapping = true := by
  have hmem := a.mem_entries
  cases hc : a.container <;> rw [hc] at hmem <;> first | rfl | cases hmem

theorem within : a.container.Within root := within_of_follow a.leads

theorem step : a.container.step (.name a.entry.name) = .ok a.entry.item := by
  rw [Item.step, if_pos a.isMapping, get?, a.named]
  rfl

theorem mem_children : a.entry.item ∈ a.container.children := mem_children_of_step a.step

theorem insertable : Insertable a.value := a.replacement.insertable a.converts

/-- A value that was read from a place of its own is no table of a dotted key. -/
theorem isFrame_eq (h : root.Regular) : a.entry.item.isFrame = false := by
  have hregular := h a.entry.item (Within.trans (.child a.mem_children .self) a.within)
  have hnot : a.entry.item.isDotted = false := by
    cases hd : a.entry.item.isDotted with
    | false => rfl
    | true =>
      have hspan := hregular.noSpan a.replaces hd
      rw [a.stands] at hspan
      cases hspan
  simp [isFrame, a.replaces, hnot]

/-- The values that stand in place of others after one more assignment. -/
def after (σ : Span → Option Item) : Span → Option Item := Function.update σ a.span (some a.value)

end Assignment

theorem Single.find (h : Single w d) (hx : d.root.follow path = .ok x) : w.find { path } = .ok x := by
  rw [Workspace.find, start, slot, h.documents]
  show ((d.root.follow path).mapError Failure.path : Except Failure Item) = .ok x
  rw [hx]
  rfl

/-- What the tree of a document is after some assignments: the tree that was read, with new values, all text owned. -/
structure Exchanged (w : Workspace) (d : Document) (source : List Char) (root : Item) (σ : Span → Option Item) : Prop where
  single : Single w d
  ownsText : d.root.OwnsText
  tree : d.root.stripped = (root.exchanged σ).freed source
  values : ∀ s v, σ s = some v → v.isValue = true ∧ v.Insertable

variable {w : Workspace} {d : Document} {source : List Char} {root : Item} {σ : Span → Option Item}

/-- The item of the document at the end of a path. -/
theorem Exchanged.follow (h : Exchanged w d source root σ) (hc : root.follow path = .ok c) (hσ : Untouched σ root c) :
    ∃ y, d.root.follow path = .ok y ∧ y.stripped = (c.exchanged σ).freed source := by
  have hstripped : d.root.stripped.follow path = .ok ((c.exchanged σ).freed source) := by
    rw [h.tree, freed, follow_reworded, follow_exchanged hc hσ]
    rfl
  rw [stripped, follow_reworded] at hstripped
  obtain ⟨y, hy, hfreed⟩ := map_eq_ok.mp hstripped
  exact ⟨y, hy, hfreed⟩

theorem Exchanged.assign (hspans : root.valueSpans.Nodup) (hregular : root.Regular) (h : Exchanged w d source root σ)
    (a : Assignment root) (hσ : Untouched σ root a.container) (hτ : Untouched (a.after σ) root a.container) :
    ∃ w' tree, a.edit.apply w = .ok w' ∧ Exchanged w' { d with root := tree } source root (a.after σ) := by
  have hnone := hσ a.container a.within .self
  have hnone' := hτ a.container a.within .self
  obtain ⟨y, hy, hfreed⟩ := h.follow a.leads hσ
  have hmapping : y.isMapping = true := by
    rw [← isMapping_stripped, hfreed, freed, isMapping_reworded, exchanged_of_none hnone, isMapping_mapMembers]
    exact a.isMapping
  have hinline : y.isInlineTable = a.container.isInlineTable := by
    rw [← isInlineTable_stripped, hfreed, freed, exchanged_of_none hnone]
    cases a.container <;> rfl
  have hcoerced : y.coerced a.data = .ok a.value := by
    rw [coerced, hinline]
    exact a.converts
  have howns := h.ownsText.within (within_of_follow hy)
  have hassign : y.assign a.entry.name a.data = .ok (y.withEntries (place a.entry.name a.value y.entries)) := by
    rw [Item.assign, editable, (howns y .self).editable]
    show (y.coerced a.data >>= fun v => .ok (y.withEntries (place a.entry.name v y.entries))) = _
    rw [hcoerced]
    rfl
  generalize hnew : y.withEntries (place a.entry.name a.value y.entries) = y' at hassign
  have hchange : ∀ {P : Item → Prop}, P a.value → y.Change P y' :=
    fun hP => hnew ▸ .place a.entry.name a.value hmapping hP fun _ => a.isValue
  obtain ⟨hinfo, hlabels⟩ := (hchange a.insertable).labels fun v hv => hv.unlabelled.labels
  refine ⟨w.commit y', _, ?_, h.single.commit hy hinfo hlabels, ?_, ?_, ?_⟩
  · show w.assign { path := a.path } a.entry.name a.data = _
    rw [Workspace.assign, findMapping, h.single.find hy]
    simp [bind, Except.bind, hmapping, hassign, Except.mapError, Except.map]
  · dsimp only
    rw [← (h.single.distinct.graft hy hinfo hlabels).1]
    exact h.ownsText.graft ((howns.change (hchange a.insertable.ownsText)).labelled _)
  · dsimp only
    -- nothing but the item of the entry has its span
    have hagree : ∀ z, a.entry.item.Within z → ∀ s, s ∉ z.valueSpans → σ s = a.after σ s := by
      intro z hz s hs
      rw [Assignment.after, Function.update_of_ne]
      rintro rfl
      exact hs (mem_valueSpans hz (a.isFrame_eq hregular) a.stands)
    have hstep : y.stripped.step (.name a.entry.name) = .ok ((a.entry.item.exchanged σ).freed source) := by
      rw [hfreed, freed, step_reworded, exchanged_of_none hnone, step_mapMembers, a.step]
      rfl
    have hnames : (y.stripped.entries.map Entry.name).Nodup := by
      rw [hfreed, freed, entries_reworded, exchanged_of_none hnone, entries_mapMembers, map_map, map_map]
      exact (hregular _ a.within).names
    have hy' : y'.stripped = (a.container.exchanged (a.after σ)).freed source := by
      rw [← hnew, stripped_withEntries, place_stripped, ← entries_stripped, place_eq_replaceAt hnames hstep,
        replacing_freed source (fun s v hv => (h.values s v hv).1) a.replaces (a.isFrame_eq hregular) a.stands a.insertable
        a.isValue, hfreed, freed, freed, ← replaceAt_reworded]
      have hfollow : a.container.follow [.name a.entry.name] = .ok a.entry.item := by
        rw [Item.follow, a.step]
        rfl
      exact congrArg (freed source) (exchanged_replaceAt (nodup_valueSpans hspans a.within) hfollow
        ⟨hnone, fun _ _ => trivial⟩ ⟨hnone', fun _ _ => trivial⟩ (hagree _ .self)).symm
    rw [stripped_replaceAt, stripped_labelled, hy', h.tree, freed, freed, ← replaceAt_reworded]
    exact congrArg (freed source) (exchanged_replaceAt hspans a.leads (hσ.uncovered.clear a.leads)
      (hτ.uncovered.clear a.leads) (hagree _ (.child a.mem_children .self))).symm
  · intro s v hv
    rw [Assignment.after, Function.update_apply] at hv
    split at hv
    · cases hv
      exact ⟨a.isValue, a.insertable⟩
    · exact h.values s v hv

/-- What stands within no value that is replaced, and everything that holds it, is not exchanged. -/
theorem untouched_container (hspans : root.valueSpans.Nodup) (hregular : root.Regular) {as : List (Assignment root)}
    (hapart : ∀ a ∈ as, ∀ b ∈ as, ¬ b.container.Within a.entry.item)
    (hσ : ∀ s, (σ s).isSome = true → ∃ a ∈ as, a.span = s) (hb : b ∈ as) :
    Untouched σ root b.container := by
  intro z hz hcontainer
  cases hnew : newValue? σ z with
  | none => rfl
  | some y =>
    obtain ⟨hframe, s, v, hs, hv, -⟩ := newValue?_eq_some hnew
    obtain ⟨a, ha, rfl⟩ := hσ s (by simp [hv])
    have hwithin := Within.trans (.child a.mem_children .self) a.within
    have hz := eq_of_span hspans hz hwithin hframe (a.isFrame_eq hregular) hs a.stands
    exact absurd (hz ▸ hcontainer) (hapart a ha b hb)

/-- One assignment after the other exchanges one value after the other. -/
theorem Exchanged.edited (hspans : root.valueSpans.Nodup) (hregular : root.Regular) {all : List (Assignment root)}
    (hapart : ∀ a ∈ all, ∀ b ∈ all, ¬ b.container.Within a.entry.item) {as : List (Assignment root)}
    (has : ∀ a ∈ as, a ∈ all) (hσ : ∀ s, (σ s).isSome = true → ∃ a ∈ all, a.span = s)
    (h : Exchanged w d source root σ) :
    ∃ tree, Exchanged (w.edited (as.map Assignment.edit)) { d with root := tree } source root
      (as.foldl (fun σ a => a.after σ) σ) := by
  induction as generalizing w d σ with
  | nil => exact ⟨d.root, h⟩
  | cons a as ih =>
    rw [forall_mem_cons] at has
    have hafter : ∀ s, (a.after σ s).isSome = true → ∃ b ∈ all, b.span = s := by
      intro s hs
      rw [Assignment.after, Function.update_apply] at hs
      split at hs
      · next heq => exact ⟨a, has.1, heq.symm⟩
      · exact hσ s hs
    obtain ⟨w', tree, happly, h'⟩ := h.assign hspans hregular a (untouched_container hspans hregular hapart hσ has.1)
      (untouched_container hspans hregular hapart hafter has.1)
    rw [map_cons, edited, happly]
    exact ih (d := { d with root := tree }) has.2 hafter h'

end Workspace

/-! ## Texts that were read -/

section Parsed

variable {options : ReadOptions} {src : Source} {s : Snapshot} (hs : parse options src = .ok s)
include hs

theorem parse_spans : s.root.valueSpans.Nodup := by
  obtain ⟨text, mode, tree, trailing, -, -, htree, rfl⟩ := parse_eq_ok hs
  dsimp only
  rw [freeze_eq_reworded, valueSpans_reworded (r := fun i => { i with frozen := true }) fun _ => rfl]
  exact readTree_spread htree

theorem parse_regular : s.root.Regular := by
  obtain ⟨text, mode, tree, trailing, -, -, htree, rfl⟩ := parse_eq_ok hs
  dsimp only
  rw [freeze_eq_reworded]
  exact .reworded (r := fun i => { i with frozen := true }) (fun _ => rfl) (fun _ => rfl) (readTree_regular htree)

/-- The tree of a snapshot with new values is written as the text that was read, with the new spellings in place. -/
theorem parse_exchanged (hσ : Spelled s.source.toList σ spell) :
    ∃ spans : List Span, spans.Perm (s.root.sites σ) ∧ Ascending 0 s.source.length spans ∧
      ∀ layout, renderTree layout (some s.source.toList) (s.root.exchanged σ) (some s.trailing) =
        .ok (String.ofList (spliced s.source.toList spell 0 s.source.length spans)) := by
  obtain ⟨text, mode, tree, trailing, -, -, htree, rfl⟩ := parse_eq_ok hs
  dsimp only at hσ ⊢
  rw [String.toList_ofList] at hσ ⊢
  rw [String.length_ofList]
  obtain ⟨t, ht, hrender⟩ := readTree_exchanged (.only hσ) htree
  obtain ⟨spans, hperm, hascending, htext⟩ := ht.spliced
  have hr : ∀ i : Info, ({ i with frozen := true } : Info).span = i.span := fun _ => rfl
  refine ⟨spans, ?_, hascending, fun layout => ?_⟩
  · rw [freeze_eq_reworded, sites_reworded hr]
    exact hperm
  · rw [← renderTree_stripped, freeze_eq_reworded, exchanged_reworded hr, renderTree_stripped]
    exact htext ▸ hrender text rfl layout

end Parsed

/-! ## The main statement -/

theorem OptionsArgument.resolve_unset : ∃ set : OptionSet, unset.resolve .reader = .ok set ∧ set.readOptions = {} :=
  ⟨_, rfl, by decide +kernel⟩

namespace Workspace

open Item

theorem exchanged_parse {s : Snapshot} (ho : options.resolve .reader = .ok o) (hs : Verbatim.parse o.readOptions src = .ok s) :
    ∃ w root, ({} : Workspace).parse "main" options src true = .ok w ∧
      Exchanged w { s.toDocument with root } s.source.toList s.root fun _ => none := by
  have hw : ({} : Workspace).parse "main" options src true =
      .ok (({} : Workspace).put "main" { content := .document s.toDocument }) := by
    rw [parse, ho]
    simp [bind, Except.bind, hs, Except.mapError]
  obtain ⟨o', s', ho', hs', hsingle⟩ := single_parse hw
  cases ho.symm.trans ho'
  cases hs.symm.trans hs'
  refine ⟨_, _, hw, hsingle, OwnsText.labelled (ownsText_detach _ _) 1, ?_, fun _ _ hv => by cases hv⟩
  dsimp only
  rw [stripped_labelled, exchanged_nothing, freed, Snapshot.toDocument]
  dsimp only
  rw [detach_eq_reworded, stripped, reworded_reworded]
  rfl

end Workspace

/-! ## Setting a value in a file -/

open Job

end Verbatim

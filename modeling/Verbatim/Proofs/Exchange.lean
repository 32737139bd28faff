import Verbatim.Proofs.Mapping
import Verbatim.Proofs.Spelling

/-!
# Texts and trees in which values are exchanged

A value that was read has a span. A tree with new values in place of those of some spans is written as the text with the new
spellings in place of those spans, wherever the values stand in the tree. This module says what that means: for a text, for a
tree, and for what is between two positions.
-/

namespace Verbatim

open List Item

/-! ## Texts -/

/-- Spans one behind the other between two positions, none of them empty. -/
def Ascending : Nat → Nat → List Span → Prop
  | a, b, [] => a ≤ b
  | a, b, s :: ss => a ≤ s.start ∧ s.start < s.stop ∧ Ascending s.stop b ss

/-- What stands between two positions, with other texts in place of spans. -/
def spliced (source : List Char) (spell : Span → List Char) : Nat → Nat → List Span → List Char
  | a, b, [] => slice source ⟨a, b⟩
  | a, b, s :: ss => slice source ⟨a, s.start⟩ ++ spell s ++ spliced source spell s.stop b ss

variable {source : List Char} {spell : Span → List Char} {a b c : Nat} {x : Item}

theorem slice_append (source : List Char) (hab : a ≤ b) (hbc : b ≤ c) :
    slice source ⟨a, b⟩ ++ slice source ⟨b, c⟩ = slice source ⟨a, c⟩ := by
  have hdrop : source.drop b = (source.drop a).drop (b - a) := by
    rw [drop_drop]
    congr 1
    omega
  have htake : c - a = (b - a) + (c - b) := by omega
  simp only [slice]
  rw [hdrop, htake, take_add]

theorem slice_whole (source : List Char) : slice source ⟨0, source.length⟩ = source := by simp [slice]

namespace Ascending

variable {a b c : Nat} {ss us : List Span}

theorem le (h : Ascending a b ss) : a ≤ b := by
  induction ss generalizing a with
  | nil => exact h
  | cons s ss ih =>
    obtain ⟨hstart, hlt, hrest⟩ := h
    have := ih hrest
    omega

theorem lower (hle : a ≤ b) (h : Ascending b c ss) : Ascending a c ss := by
  cases ss with
  | nil => exact Nat.le_trans hle h
  | cons s ss => exact ⟨Nat.le_trans hle h.1, h.2⟩

section

variable (h : Ascending a b ss)

include h

theorem append (h' : Ascending b c us) : Ascending a c (ss ++ us) := by
  induction ss generalizing a with
  | nil => exact lower h h'
  | cons s ss ih => exact ⟨h.1, h.2.1, ih h.2.2⟩

/-- Spans between two positions begin there. -/
theorem le_start : ∀ s ∈ ss, a ≤ s.start := by
  induction ss generalizing a with
  | nil => exact forall_mem_nil _
  | cons s ss ih =>
    refine forall_mem_cons.mpr ⟨h.1, fun u hu => ?_⟩
    have := ih h.2.2 u hu
    have := h.1
    have := h.2.1
    omega

theorem stop_le : ∀ s ∈ ss, s.stop ≤ b := by
  induction ss generalizing a with
  | nil => exact forall_mem_nil _
  | cons s ss ih => exact forall_mem_cons.mpr ⟨h.2.2.le, ih h.2.2⟩

theorem nodup : ss.Nodup := by
  induction ss generalizing a with
  | nil => exact nodup_nil
  | cons s ss ih =>
    refine nodup_cons.mpr ⟨fun hs => ?_, ih h.2.2⟩
    have := h.2.2.le_start s hs
    have := h.2.1
    omega

end

end Ascending

theorem spliced_lower (hle : a ≤ b) (h : Ascending b c ss) :
    slice source ⟨a, b⟩ ++ spliced source spell b c ss = spliced source spell a c ss := by
  cases ss with
  | nil => exact slice_append source hle h
  | cons s ss => simp only [spliced, ← slice_append source hle h.1, append_assoc]

/-- What stands between two positions, with a text of its own in place of each span. -/
def woven (source : List Char) : Nat → Nat → List (Span × List Char) → List Char
  | a, b, [] => slice source ⟨a, b⟩
  | a, b, (s, t) :: ps => slice source ⟨a, s.start⟩ ++ t ++ woven source s.stop b ps

theorem spliced_eq_woven (a b : Nat) (ss : List Span) :
    spliced source spell a b ss = woven source a b (ss.map fun s => (s, spell s)) := by
  induction ss generalizing a with
  | nil => rfl
  | cons s ss ih => rw [spliced, ih, map_cons, woven]

theorem woven_lower (hle : a ≤ b) (h : Ascending b c (ps.map Prod.fst)) :
    slice source ⟨a, b⟩ ++ woven source b c ps = woven source a c ps := by
  cases ps with
  | nil => exact slice_append source hle h
  | cons p ps => simp only [woven, ← slice_append source hle h.1, append_assoc]

theorem woven_append (h : Ascending a b (ps.map Prod.fst)) (h' : Ascending b c (qs.map Prod.fst)) :
    woven source a c (ps ++ qs) = woven source a b ps ++ woven source b c qs := by
  induction ps generalizing a with
  | nil => exact (woven_lower h h').symm
  | cons p ps ih => simp only [cons_append, woven, ih h.2.2, append_assoc]

/-- The texts in place of spans, of which some have new ones and the others refer to a text. -/
def pieces (spell : Span → List Char) (text : List Char) (ps : List (Span × Bool)) : List (Span × List Char) :=
  ps.map fun p => (p.1, if p.2 then spell p.1 else slice text p.1)

def newSpans (ps : List (Span × Bool)) : List Span := (ps.filter Prod.snd).map Prod.fst

theorem pieces_fst (text : List Char) (ps : List (Span × Bool)) : (pieces spell text ps).map Prod.fst = ps.map Prod.fst := by
  simp [pieces]

/-- What refers to the source itself stays. -/
theorem woven_pieces (h : Ascending a b (ps.map Prod.fst)) :
    Ascending a b (newSpans ps) ∧ woven source a b (pieces spell source ps) = spliced source spell a b (newSpans ps) := by
  induction ps generalizing a with
  | nil => exact ⟨h, rfl⟩
  | cons p ps ih =>
    obtain ⟨s, new⟩ := p
    obtain ⟨hstart, hlt, hrest⟩ := h
    obtain ⟨hascending, htext⟩ := ih hrest
    cases new with
    | true => exact ⟨⟨hstart, hlt, hascending⟩, congrArg (slice source ⟨a, s.start⟩ ++ spell s ++ ·) htext⟩
    | false =>
      have hle : a ≤ s.stop := by
        have : a ≤ s.start := hstart
        have : s.start < s.stop := hlt
        omega
      refine ⟨hascending.lower hle, ?_⟩
      change slice source ⟨a, s.start⟩ ++ slice source s ++ woven source s.stop b (pieces spell source ps) = _
      rw [htext, slice_append source hstart (Nat.le_of_lt hlt), spliced_lower hle hascending]
      rfl

/-- A text with references is what stands between two positions, if the references lead to the same places, with new texts in
place of spans, which are listed in any order. -/
def Rewritten (source : List Char) (spell : Span → List Char) (a b : Nat) (sites : List Span) (t : List Char → List Char) :
    Prop :=
  ∃ ps, (newSpans ps).Perm sites ∧ Ascending a b (ps.map Prod.fst) ∧ ∀ text, t text = woven source a b (pieces spell text ps)

namespace Rewritten

variable {a b c : Nat} {sites sites' : List Span} {t u : List Char → List Char}

section

variable (h : Rewritten source spell a b sites t)

include h

theorem append (h' : Rewritten source spell b c sites' u) :
    Rewritten source spell a c (sites ++ sites') fun text => t text ++ u text := by
  obtain ⟨ps, hperm, hps, ht⟩ := h
  obtain ⟨qs, hperm', hqs, hu⟩ := h'
  refine ⟨ps ++ qs, ?_, ?_, fun text => ?_⟩
  · rw [newSpans, filter_append, map_append]
    exact hperm.append hperm'
  · rw [map_append]
    exact hps.append hqs
  · dsimp only
    rw [pieces, map_append, ht, hu]
    exact (woven_append (by rwa [pieces_fst]) (by rwa [pieces_fst])).symm

theorem perm (hperm : sites.Perm sites') : Rewritten source spell a b sites' t := by
  obtain ⟨ps, hps, hrest⟩ := h
  exact ⟨ps, hps.trans hperm, hrest⟩

theorem le : a ≤ b := by
  obtain ⟨ps, -, hps, -⟩ := h
  exact hps.le

end

/-- What is scanned stays. -/
theorem kept (spell : Span → List Char) {c d : Cursor} {t : List Char} (hc : c.On source) (h : c.Spells t d) :
    Rewritten source spell c.pos d.pos [] fun _ => t :=
  ⟨[], .refl _, by rw [map_nil, Ascending, h.pos]; omega, fun _ => (h.slice_eq hc).symm⟩

/-- A reference leads to the place where it stands. -/
theorem ref (source : List Char) (spell : Span → List Char) {c d : Cursor} (h : c.Reaches d) :
    Rewritten source spell c.pos d.pos [] fun text => slice text ⟨c.pos, d.pos⟩ := by
  obtain ⟨t, ht⟩ := h
  have hpos := ht.pos
  by_cases heq : c.pos = d.pos
  · exact ⟨[], .refl _, Nat.le_of_eq heq, fun text => by simp [pieces, woven, slice, heq]⟩
  · exact ⟨[(⟨c.pos, d.pos⟩, false)], .refl _, ⟨Nat.le_refl _, by dsimp only; omega, Nat.le_refl _⟩,
      fun text => by simp [pieces, woven, slice]⟩

/-- A new text in the one place. -/
theorem site (h : s.start < s.stop) : Rewritten source spell s.start s.stop [s] fun _ => spell s :=
  ⟨[(s, true)], .refl _, ⟨Nat.le_refl _, h, Nat.le_refl _⟩, fun text => by simp [pieces, woven, slice]⟩

/-- Where references lead to the source only the new texts differ from it. -/
theorem spliced (h : Rewritten source spell a b sites t) :
    ∃ ss : List Span, ss.Perm sites ∧ Ascending a b ss ∧ t source = spliced source spell a b ss := by
  obtain ⟨ps, hperm, hps, ht⟩ := h
  obtain ⟨hascending, htext⟩ := woven_pieces hps
  exact ⟨newSpans ps, hperm, hascending, (ht source).trans htext⟩

/-- Where nothing is exchanged either, everything stays. -/
theorem eq_slice (h : Rewritten source spell a b [] t) : t source = slice source ⟨a, b⟩ := by
  obtain ⟨ss, hperm, -, ht⟩ := h.spliced
  rw [ht, perm_nil.mp hperm]
  rfl

/-- Where nothing is exchanged only the references differ from the source. -/
theorem refs (h : Rewritten source spell a b [] t) :
    ∃ refs : List Span, Ascending a b refs ∧ ∀ text, t text = Verbatim.spliced source (slice text) a b refs := by
  obtain ⟨ps, hperm, hps, ht⟩ := h
  have hnone : ∀ p ∈ ps, p.2 = false := by
    simpa [newSpans, filter_eq_nil_iff] using perm_nil.mp hperm
  refine ⟨_, hps, fun text => ?_⟩
  rw [ht, spliced_eq_woven, pieces, map_map]
  exact congrArg _ (map_congr_left fun p hp => by simp [hnone p hp])

end Rewritten

/-! ## Trees -/

namespace Item

variable (σ : Span → Option Item)

/-- The new value in place of a value, with the text around that. -/
def newValue? (x : Item) : Option Item :=
  if x.isFrame then none else (x.info.span.bind σ).map fun y => y.withDecor (x.decor?.getD {})

mutual

/-- The tree with new values. Nothing is exchanged in what is exchanged itself. -/
def exchanged : Item → Item
  | .scalar i s => (newValue? σ (.scalar i s)).getD (.scalar i s)
  | .array i f vs => (newValue? σ (.array i f vs)).getD (.array i f (exchangedEach vs))
  | .inlineTable i f es => (newValue? σ (.inlineTable i f es)).getD (.inlineTable i f (exchangedEntries es))
  | .table i f es => .table i f (exchangedEntries es)
  | .arrayOfTables i ts => .arrayOfTables i (exchangedEach ts)

/-- Each item with new values. -/
def exchangedEach : List Item → List Item
  | [] => []
  | x :: xs => exchanged x :: exchangedEach xs

/-- The entries with new values. -/
def exchangedEntries : List (Entry Item) → List (Entry Item)
  | [] => []
  | ⟨k, x, p, n, l⟩ :: es => ⟨k, exchanged x, p, n, l⟩ :: exchangedEntries es

end

/-- The spans of the values that are exchanged. -/
def sites : Item → List Span :=
  fold (fun _ _ => []) fun x inner => if (newValue? σ x).isSome then x.info.span.toList else inner

variable {σ}

theorem exchangedEach_eq (xs : List Item) : exchangedEach σ xs = xs.map (exchanged σ) := eq_map_of_cons rfl (fun _ _ => rfl) xs

theorem exchangedEntries_eq (es : List (Entry Item)) : exchangedEntries σ es = es.map (onItem (exchanged σ)) :=
  eq_map_of_cons rfl (fun _ _ => rfl) es

theorem newValue?_of_isFrame (h : x.isFrame = true) : newValue? σ x = none := if_pos h

theorem exchanged_eq (x : Item) : x.exchanged σ = (newValue? σ x).getD (x.mapMembers (exchanged σ)) := by
  cases x with
  | scalar i s => rfl
  | array i f vs => rw [exchanged, exchangedEach_eq]; rfl
  | inlineTable i f es => rw [exchanged, exchangedEntries_eq]; rfl
  | table i f es => rw [exchanged, exchangedEntries_eq, newValue?_of_isFrame rfl]; rfl
  | arrayOfTables i ts => rw [exchanged, exchangedEach_eq, newValue?_of_isFrame rfl]; rfl

theorem sites_eq (x : Item) :
    x.sites σ = if (newValue? σ x).isSome then x.info.span.toList else x.children.flatMap (sites σ) := fold_eq ..

theorem exchanged_of_none (h : newValue? σ x = none) : x.exchanged σ = x.mapMembers (exchanged σ) := by
  rw [exchanged_eq, h, Option.getD_none]

theorem sites_of_none (h : newValue? σ x = none) : x.sites σ = x.children.flatMap (sites σ) := by
  rw [sites_eq, h]
  rfl

theorem newValue?_nothing (x : Item) : newValue? (fun _ => none) x = none := by
  rw [newValue?]
  split
  · rfl
  · cases x.info.span <;> rfl

/-- Where nothing is new everything stays. -/
theorem exchanged_nothing (x : Item) : x.exchanged (fun _ => none) = x := by
  induction x using childInduction with
  | step x ih =>
    rw [exchanged_of_none (newValue?_nothing x), mapMembers_congr ih]
    exact mapMembers_id x

theorem sites_nothing (x : Item) : x.sites (fun _ => none) = [] := by
  induction x using childInduction with
  | step x ih =>
    rw [sites_of_none (newValue?_nothing x), flatMap_eq_nil_iff]
    exact ih

@[simp] theorem isValue_withDecor (d : Decor) (v : Item) : (v.withDecor d).isValue = v.isValue := by
  cases v <;> rfl

@[simp] theorem isDotted_withDecor (d : Decor) (v : Item) : (v.withDecor d).isDotted = v.isDotted := by
  cases v <;> rfl

theorem decor?_withDecor (d : Decor) {v : Item} (h : v.isValue = true) : (v.withDecor d).decor? = some d := by
  cases v with
  | table i f es => cases h
  | arrayOfTables i ts => cases h
  | _ => rfl

theorem withDecor_withDecor (d d' : Decor) (x : Item) : (x.withDecor d).withDecor d' = x.withDecor d' := by cases x <;> rfl

theorem newValue?_withDecor (d : Decor) (x : Item) :
    newValue? σ (x.withDecor d) = (newValue? σ x).map fun y => y.withDecor d := by
  have hframe : (x.withDecor d).isFrame = x.isFrame := by cases x <;> rfl
  have hinfo : (x.withDecor d).info = x.info := by cases x <;> rfl
  rw [newValue?, newValue?, hframe, hinfo]
  split
  · rfl
  · next hvalue =>
    have hdecor : (x.withDecor d).decor?.getD {} = d := by
      cases x with
      | arrayOfTables i ts => exact absurd rfl hvalue
      | _ => rfl
    rw [hdecor, Option.map_map]
    exact congrArg (fun f => (x.info.span.bind σ).map f) (funext fun y => (withDecor_withDecor _ d y).symm)

/-- The text around a value stays around the new one. -/
theorem exchanged_withDecor (d : Decor) (x : Item) : (x.withDecor d).exchanged σ = (x.exchanged σ).withDecor d := by
  rw [exchanged_eq, exchanged_eq x, newValue?_withDecor]
  cases newValue? σ x with
  | some y => rfl
  | none => cases x <;> rfl

theorem sites_withDecor (d : Decor) (x : Item) : (x.withDecor d).sites σ = x.sites σ := by
  have hinfo : (x.withDecor d).info = x.info := by cases x <;> rfl
  exact fold_withDecor _ (by rw [newValue?_withDecor, Option.isSome_map, hinfo])

theorem valueMeasure_sites : ValueMeasure (sites σ) := fun _ hx => sites_of_none (newValue?_of_isFrame hx)

end Item

/-- Spans with new values that can stand in their places, and the spellings of these. -/
structure Spelled (source : List Char) (σ : Span → Option Item) (spell : Span → List Char) : Prop where
  isValue : ∀ {s : Span} {y : Item}, σ s = some y → y.isValue = true
  notDotted : ∀ {s : Span} {y : Item}, σ s = some y → y.isDotted = false
  repr : ∀ {s : Span} {y : Item}, σ s = some y → Render.valueRepr (some source) y = .ok (String.ofList (spell s))

theorem spelled_nothing (source : List Char) : Spelled source (fun _ => none) fun _ => [] := ⟨nofun, nofun, nofun⟩

/-- New values that are spelled the same whichever of some texts references lead to. -/
structure Exchange where
  value : Span → Option Item
  spell : Span → List Char
  /-- The texts in which references are looked up. -/
  texts : List Char → Prop
  isValue : ∀ {s : Span} {y : Item}, value s = some y → y.isValue = true
  notDotted : ∀ {s : Span} {y : Item}, value s = some y → y.isDotted = false
  spelled : ∀ {text : List Char}, texts text → Spelled text value spell

namespace Exchange

/-- No new values. -/
def nothing : Exchange := ⟨fun _ => none, fun _ => [], fun _ => True, nofun, nofun, fun _ => spelled_nothing _⟩

/-- New values for one text. -/
def only {σ : Span → Option Item} (h : Spelled source σ spell) : Exchange :=
  ⟨σ, spell, (· = source), h.isValue, h.notDotted, fun heq => heq ▸ h⟩

theorem valueMap (r : Exchange) : ValueMap (exchanged r.value) := by
  have hvalue : ∀ x : Item, x.isFrame = false →
      (x.exchanged r.value).isValue = true ∧ (x.exchanged r.value).isDotted = false := by
    intro x hx
    rw [exchanged_eq]
    cases hnew : newValue? r.value x with
    | none =>
      rw [Option.getD_none, isValue_mapMembers, isDotted_mapMembers]
      simpa [isFrame] using hx
    | some z =>
      rw [newValue?, hx, if_neg Bool.false_ne_true, Option.map_eq_some_iff] at hnew
      obtain ⟨y, hy, rfl⟩ := hnew
      obtain ⟨s, -, hy⟩ := Option.bind_eq_some_iff.mp hy
      rw [Option.getD_some, isValue_withDecor, isDotted_withDecor]
      exact ⟨r.isValue hy, r.notDotted hy⟩
  exact ⟨fun x hx => exchanged_of_none (newValue?_of_isFrame hx), fun x hx => (hvalue x hx).1,
    fun x hx => (hvalue x hx).2⟩

end Exchange

end Verbatim

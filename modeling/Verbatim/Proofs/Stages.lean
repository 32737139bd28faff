import Verbatim.Proofs.Ways

/-!
# Reading the lines of a tree

The strict reader takes the lines of a tree one after the other if the numbers of the headers fit the tree: what stands below
a dotted table comes behind the body that the dotted table belongs to, and of an array of tables one element with all that is
below it comes before the next. The marks that could refuse a line all have a reason in the part of the tree that has been
met, and no such reason stands at the path of the next line.
-/

namespace Verbatim

open List DataReader Item

variable {q r : List String} {d : Entry Item} {b : Int}

/-! ## Trees in order -/

/-- The numbers of the headers below an entry fit the tree. The owner is the body in which the value of the entry stands. -/
inductive Fits : Owner → Entry Item → Prop where
  /-- Values stand in bodies, and no dotted key made them. -/
  | value {o : Owner} {e : Entry Item} (isValue : e.item.isValue = true) (plain : e.item.isDotted = false)
      (owned : o ≠ none) : Fits o e
  /-- Every table is met, and below a dotted table stand later headers than the one above its body. -/
  | table {o : Owner} {e : Entry Item} {i : Info} {f : TableForm} {sub : List (Entry Item)} (item : e.item = .table i f sub)
      (dotted : f.dotted = true → ∃ b ∈ o, ∀ p ∈ e.item.times, b.1 < p)
      (inhabited : e.item.times ≠ [] ∨ ∃ q d, BodyPath [e] q d) (below : ∀ d ∈ sub, Fits (o.enter e) d) : Fits o e
  /-- The header of an element comes before those below it, and one element before the next. -/
  | arrayOfTables {o : Owner} {e : Entry Item} {i : Info} {ts : List Item} (item : e.item = .arrayOfTables i ts)
      (nonempty : ts ≠ []) (headed : ∀ t ∈ ts, ∃ p, t.time? = some p ∧ ∀ p' ∈ timesIn t.entries, p < p')
      (sorted : ts.Pairwise fun t u => ∀ p ∈ t.times, ∀ p' ∈ u.times, p < p')
      (elements : ∀ t ∈ ts, ∀ d ∈ t.entries, Fits t.owner d) : Fits o e

/-- The numbers of the headers in a tree fit the tree. The owner is the body in which the values of the entries stand. -/
def Arranged (o : Owner) (es : List (Entry Item)) : Prop := ∀ e ∈ es, Fits o e

namespace Fits

variable {o : Owner} {e : Entry Item} (h : Fits o e)
include h

theorem values (hv : e.item.isValue = true) : e.item.isDotted = false ∧ o ≠ none := by
  cases h with
  | value _ plain owned => exact ⟨plain, owned⟩
  | table item | arrayOfTables item => rw [item] at hv; cases hv

theorem dotted (hd : e.item.isDotted = true) : e.item.isTable = true ∧ ∃ b ∈ o, ∀ p ∈ e.item.times, b.1 < p := by
  cases h with
  | value _ plain => cases plain.symm.trans hd
  | table item dotted => exact ⟨by rw [item]; rfl, dotted (by rw [item] at hd; exact hd)⟩
  | arrayOfTables item => rw [item] at hd; cases hd

theorem tables (hx : e.item.isTable = true) :
    (e.item.times ≠ [] ∨ ∃ q d, BodyPath [e] q d) ∧ Arranged (o.enter e) e.item.entries := by
  cases h with
  | value isValue =>
    cases hitem : e.item with
    | table => rw [hitem] at isValue; cases isValue
    | _ => rw [hitem] at hx; cases hx
  | table item _ inhabited below => exact ⟨inhabited, by rw [item]; exact below⟩
  | arrayOfTables item => rw [item] at hx; cases hx

theorem elements (hx : e.item = .arrayOfTables i ts) :
    ts ≠ [] ∧ (∀ t ∈ ts, ∃ p, t.time? = some p ∧ ∀ p' ∈ timesIn t.entries, p < p') ∧
      (ts.Pairwise fun t u => ∀ p ∈ t.times, ∀ p' ∈ u.times, p < p') ∧ ∀ t ∈ ts, Arranged t.owner t.entries := by
  cases h with
  | value isValue => rw [hx] at isValue; cases isValue
  | table item => cases item.symm.trans hx
  | arrayOfTables item nonempty headed sorted elements =>
    cases item.symm.trans hx
    exact ⟨nonempty, headed, sorted, elements⟩

end Fits

variable {g : Progress} {o o' : Owner} {es es' root sub : List (Entry Item)} {path : List String} {e e' : Entry Item}

section Route

variable {entered : List Item → Nat → Item → Prop} (hmem : ∀ ts n t, entered ts n t → t ∈ ts)
include hmem

theorem Onward.arranged (h : Onward entered o e o' sub) (he : Fits o e) :
    Arranged o' sub ∧ ∀ p ∈ timesIn sub, p ∈ e.item.times := by
  cases h with
  | table isTable => exact ⟨(he.tables isTable).2, (splits_of_isTable isTable).times⟩
  | element item enters =>
    have ht := hmem _ _ _ enters
    obtain ⟨-, hheaded, -, helements⟩ := he.elements item
    obtain ⟨q, hq, -⟩ := hheaded _ ht
    refine ⟨helements _ ht, fun p hp => times_of_element item ht p ?_⟩
    exact (splits_of_isTable (isTable_of_time? hq)).times p hp

theorem Route.arranged (h : Route entered label o es steps o' es') (hes : Arranged o es) :
    Arranged o' es' ∧ ∀ p ∈ timesIn es', p ∈ timesIn es := by
  induction h with
  | here => exact ⟨hes, fun _ => id⟩
  | step mem into rest ih =>
    obtain ⟨hsub, htimes⟩ := into.arranged hmem (hes _ mem)
    exact ⟨(ih hsub).1, fun p hp => mem_timesIn.mpr ⟨_, mem, htimes p ((ih hsub).2 p hp)⟩⟩

end Route

theorem Way.arranged (h : Way g o es path o' es') (hes : Arranged o es) :
    Arranged o' es' ∧ ∀ p ∈ timesIn es', p ∈ timesIn es :=
  Route.arranged (fun _ _ _ ht => ht.mem) h hes

/-! ## Entries at key paths -/

/-- The body of the root, whose lines stand before the first header. -/
def home : Owner := some (0, [])

/-- An entry stands at a key path, among the values of a body. -/
def Spot (g : Progress) (root : List (Entry Item)) (path : List String) (o : Owner) (e : Entry Item) : Prop :=
  ∃ names es, path = names ++ [e.name] ∧ Way g home root names o es ∧ e ∈ es

theorem Spot.unique (h : Spot g root path o e) (h' : Spot g root path o' e') (hroot : Orderly root) : o = o' ∧ e = e' := by
  obtain ⟨names, es, hpath, hway, he⟩ := h
  obtain ⟨names', es', hpath', hway', he'⟩ := h'
  obtain ⟨rfl, hname⟩ := append_inj' (hpath.symm.trans hpath') rfl
  obtain ⟨rfl, rfl⟩ := hway.unique hway' hroot
  exact ⟨rfl, (hway.orderly hroot).eq_of_name he he' (cons.inj hname).1⟩

/-- No way leads through a value. -/
theorem Way.not_value (h : Way g home root path o₁ es₁) (hspot : Spot g root q o e) (hq : q <+: path) (hroot : Orderly root) :
    e.item.isValue = false := by
  obtain ⟨names, es, rfl, hway, he⟩ := hspot
  obtain ⟨rest, rfl⟩ := hq
  rw [append_assoc] at h
  obtain ⟨o₂, es₂, hway', hrest⟩ := h.split
  obtain ⟨rfl, rfl⟩ := hway.unique hway' hroot
  generalize hpath : [e.name] ++ rest = names' at hrest
  cases hrest with
  | here => cases hpath
  | step mem into =>
    obtain rfl := (hway.orderly hroot).eq_of_name he mem (cons.inj hpath).1
    cases into with
    | table isTable =>
      generalize e.item = x at isTable
      cases x with
      | table => rfl
      | _ => cases isTable
    | element item =>
      rw [item]
      rfl

/-- A header that is met leaves all entries where they were, but for those of the element that was open before. -/
theorem Spot.opening (target : Spot g root path o e) (hp : p ∈ e.item.times)
    (hkind : e.item.time? = some p ∨ e.item.isArrayOfTables = true) (hroot : Orderly root) (hseparate : Separate home root)
    (h : Spot g root q o' e') (hout : e.item.isArrayOfTables = true → ¬path <+: q ∨ q = path) :
    Spot (g.open p) root q o' e' := by
  obtain ⟨names, es, rfl, hway, he⟩ := target
  obtain ⟨names', es', rfl, hway', he'⟩ := h
  refine ⟨names', es', rfl, hway.opening he hp hkind hroot hseparate hway' fun ha hpre => ?_, he'⟩
  rcases hout ha with hno | heq
  · exact hno (hpre.trans (prefix_append _ _))
  · obtain ⟨rfl, -⟩ := append_inj' heq rfl
    have := hpre.length_le
    rw [length_append, length_singleton] at this
    omega

theorem Spot.say (h : Spot g root path o e) (p : Int) : Spot (g.say p q) root path o e := by
  obtain ⟨names, es, hpath, hway, he⟩ := h
  exact ⟨names, es, hpath, hway.congr fun _ _ => Iff.rfl, he⟩

/-! ## Dotted tables of a line -/

/-- Through the dotted tables of a line leads a way that stays in one body. -/
theorem BodyPath.way (h : BodyPath es q d) (hes : Arranged (some (b, c)) es) (hr : r <+: q.dropLast) :
    ∃ es' q', q = r ++ q' ∧ Way g (some (b, c)) es r (some (b, c ++ r)) es' ∧ BodyPath es' q' d := by
  -- along the names; each of them stands for a dotted table, which opens no body of its own
  induction r generalizing es q c with
  | nil =>
    rw [append_nil]
    exact ⟨es, q, rfl, .here, h⟩
  | cons k r ih =>
    cases h with
    | value => exact absurd hr.length_le (by simp)
    | @dotted _ e _ q mem isDotted below =>
      rw [dropLast_cons_of_ne_nil below.ne_nil, cons_prefix_cons] at hr
      obtain ⟨rfl, hr⟩ := hr
      have henter : Owner.enter (some (b, c)) e = some (b, c ++ [e.name]) := by simp [Owner.enter, isDotted]
      have htable := ((hes e mem).dotted isDotted).1
      have hlower := ((hes e mem).tables htable).2
      rw [henter] at hlower
      obtain ⟨es', q', rfl, hway, hq'⟩ := ih below hlower hr
      rw [append_assoc] at hway
      exact ⟨es', q', rfl, .step mem (.table htable) (henter ▸ hway), hq'⟩

/-- Every dotted table of a line stands in the body of the line. -/
theorem BodyPath.parent (h : BodyPath es q d) (hes : Arranged (some (b, [])) es) (hne : r ≠ []) (hr : r <+: q.dropLast) :
    ∃ names e es', r = names ++ [e.name] ∧ Way g (some (b, [])) es names (some (b, names)) es' ∧ e ∈ es' ∧
      e.item.isDotted = true := by
  have hinit : r.dropLast <+: q.dropLast := (List.dropLast_prefix r).trans hr
  obtain ⟨es', q', hq, hway, hq'⟩ := h.way (g := g) hes hinit
  have hlast := dropLast_append_getLast hne
  obtain ⟨t, ht⟩ := hr.trans (List.dropLast_prefix q)
  rw [← hlast, append_assoc] at ht
  -- the rest of the line begins with the last name, and more follows
  have hrest : r.getLast hne :: t = q' := append_cancel_left (ht.trans hq)
  cases hq' with
  | value =>
    obtain ⟨-, rfl⟩ := cons.inj hrest
    have hlength := hr.length_le
    rw [hq, ← hlast] at hlength
    simp only [length_append, length_cons, length_nil, length_dropLast] at hlength
    omega
  | @dotted _ e _ _ mem isDotted =>
    refine ⟨r.dropLast, e, es', ?_, hway, mem, isDotted⟩
    rw [← (cons.inj hrest).1, hlast]

theorem BodyPath.isValue (h : BodyPath es q d) : d.item.isValue = true := by
  induction h with
  | value _ isValue => exact isValue
  | dotted _ _ _ ih => exact ih

/-- The entry of a line stands in the body of the line. -/
theorem BodyPath.leaf (h : BodyPath es q d) (hes : Arranged (some (b, [])) es) :
    ∃ es', q = q.dropLast ++ [d.name] ∧ Way g (some (b, [])) es q.dropLast (some (b, q.dropLast)) es' ∧ d ∈ es' := by
  obtain ⟨es', q', hq, hway, hq'⟩ := h.way (g := g) hes prefix_rfl
  -- one name is left, so the rest of the line is the value itself
  have hlength : q'.length = 1 := by
    have := congrArg length hq
    have hpos := length_pos_iff.mpr h.ne_nil
    rw [length_append, length_dropLast] at this
    omega
  cases hq' with
  | value mem => exact ⟨es', hq, hway, mem⟩
  | dotted _ _ below =>
    have := length_pos_iff.mpr below.ne_nil
    rw [length_cons] at hlength
    omega

/-! ## Stages -/

/-- Why a path is declared while the body of the header `now` is read. -/
inductive Reason (g : Progress) (now : Int) : Owner → Entry Item → Prop where
  /-- The header of a table has been met. -/
  | header {o : Owner} {e : Entry Item} {p : Int} (time : e.item.time? = some p) (opened : g.opened p) : Reason g now o e
  /-- A header of an array of tables has been met. -/
  | array {o : Owner} {e : Entry Item} (isArray : e.item.isArrayOfTables = true) : Reason g now o e
  /-- A dotted key has been met, in an earlier body. -/
  | dotted {e : Entry Item} {b : Int} {c : List String} (isDotted : e.item.isDotted = true) (opened : g.opened b)
      (past : b ≠ now) : Reason g now (some (b, c)) e

/-- The strict reader has met a part of a tree, and reads the body of the header `now`. -/
structure Stage (root : List (Entry Item)) (g : Progress) (now : Int) (sub : List (Entry Item)) (s : Reading) : Prop where
  /-- The data is that of the part that has been met. -/
  data : ReflectsIn g home root s.data
  /-- Lines have been met below headers only. -/
  covered : g.Covered
  /-- The header of the body has been met. -/
  opened : g.opened now
  /-- It is the last one. -/
  latest : ∀ p ∈ timesIn root, g.opened p → p ≤ now
  /-- The table of the body stands at the path of the header. -/
  way : Way g home root s.header (some (now, [])) sub
  /-- What is declared has been declared for a reason. -/
  declared : ∀ p, s.marks.isDeclared p = true → ∃ o e, Spot g root p o e ∧ Reason g now o e
  /-- What is closed is a value, or below one. -/
  closed : ∀ p, s.marks.isClosed p = true → ∃ q o e, q <+: p ∧ Spot g root q o e ∧ e.item.isValue = true
  /-- What will be declared is a dotted table of the body. -/
  pending : ∀ p ∈ s.pending, ∃ c e, Spot g root p (some (now, c)) e ∧ e.item.isDotted = true
  /-- The dotted tables of every line of the body will be declared. -/
  complete : ∀ q r, g.spoken now q → r ≠ [] → r <+: q.dropLast → s.header ++ r ∈ s.pending

namespace Stage

variable {now : Int} {s : Reading} {names : List String} {p : Int}

section

variable (h : Stage root g now sub s)

include h

/-- What is declared behind the body has been declared for a reason, or stands in the body. -/
theorem declared_settle (hq : s.settle.marks.isDeclared q = true) :
    ∃ o e, Spot g root q o e ∧ (Reason g now o e ∨ ∃ c, o = some (now, c) ∧ e.item.isDotted = true) := by
  rw [Reading.isDeclared_settle, Bool.or_eq_true, Bool.and_eq_true, contains_iff_mem] at hq
  rcases hq with hq | ⟨hq, -⟩
  · obtain ⟨o, e, hspot, hreason⟩ := h.declared q hq
    exact ⟨o, e, hspot, .inl hreason⟩
  · obtain ⟨c, e, hspot, hdotted⟩ := h.pending q hq
    exact ⟨_, e, hspot, .inr ⟨c, rfl, hdotted⟩⟩

/-- The path of a header leads through no value. -/
theorem not_closed (hroot : Orderly root) (hway : Way g home root names o es)
    (hend : path = names ∨ ∃ e ∈ es, path = names ++ [e.name] ∧ e.item.isValue = false) :
    s.marks.isClosed path = false := by
  rw [Bool.eq_false_iff]
  intro hclosed
  obtain ⟨q, o', d, hq, hspot, hvalue⟩ := h.closed path hclosed
  by_cases hin : q <+: names
  · rw [hway.not_value hspot hin hroot] at hvalue
    cases hvalue
  · rcases hend with rfl | ⟨e, he, rfl, hno⟩
    · exact hin hq
    · rcases prefix_concat_iff.mp hq with rfl | hq
      · obtain ⟨-, rfl⟩ := hspot.unique ⟨names, es, rfl, hway, he⟩ hroot
        rw [hno] at hvalue
        cases hvalue
      · exact hin hq

/-- Another header is met: what was declared in the body before it, or at its end, has been declared for a reason. -/
theorem reason_opening (hnew : ¬g.opened p)
    (hd : Reason g now o d ∨ ∃ c, o = some (now, c) ∧ d.item.isDotted = true) : Reason (g.open p) p o d := by
  have hne {b : Int} (hb : g.opened b) : b ≠ p := fun heq => hnew (heq ▸ hb)
  rcases hd with hd | ⟨c, rfl, hdotted⟩
  · cases hd with
    | header time opened => exact .header time (.inl opened)
    | array isArray => exact .array isArray
    | dotted isDotted opened => exact .dotted isDotted (.inl opened) (hne opened)
  · exact .dotted hdotted (.inl h.opened) (hne h.opened)

/-- The header of a table is accepted where the table stands. -/
theorem table (hroot : Orderly root) (hseparate : Separate home root)
    (hway : Way g home root names o es) (he : e ∈ es) (hp : e.item.time? = some p) (hnew : ¬g.opened p) (hnow : now ≤ p) :
    ∃ s', (Statement.table (names ++ [e.name])).accept? s = some s' ∧ Stage root (g.open p) p e.item.entries s' := by
  have hspot : Spot g root (names ++ [e.name]) o e := ⟨names, es, rfl, hway, he⟩
  have htable := isTable_of_time? hp
  have hnoarray : e.item.isArrayOfTables = false := by
    cases hx : e.item with
    | table => rfl
    | _ => rw [hx] at htable; cases htable
  have hnovalue : e.item.isValue = false := by
    cases hx : e.item with
    | table => rfl
    | _ => rw [hx] at htable; cases htable
  have hkeep {q : List String} {o' : Owner} {d : Entry Item} (hd : Spot g root q o' d) : Spot (g.open p) root q o' d :=
    hspot.opening (time?_mem_times hp) (.inl hp) hroot hseparate hd fun ha => by rw [hnoarray] at ha; cases ha
  obtain ⟨data, hdata, hreflects⟩ := h.data.openTable hroot hseparate h.covered hway he hp
  have hdeclared : s.settle.marks.isDeclared (names ++ [e.name]) = false := by
    rw [Bool.eq_false_iff]
    intro hdeclared
    obtain ⟨o', d, hd, hreason⟩ := h.declared_settle hdeclared
    obtain ⟨rfl, rfl⟩ := hspot.unique hd hroot
    have hnodotted := isDotted_of_time? hp
    rcases hreason with hreason | ⟨-, -, hdotted⟩
    · cases hreason with
      | header time opened => exact hnew (Option.some.inj (hp.symm.trans time) ▸ opened)
      | array isArray => rw [hnoarray] at isArray; cases isArray
      | dotted isDotted => rw [hnodotted] at isDotted; cases isDotted
    · rw [hnodotted] at hdotted
      cases hdotted
  have hclosed : s.settle.marks.isClosed (names ++ [e.name]) = false := by
    rw [Reading.isClosed_settle]
    exact h.not_closed hroot hway (.inr ⟨e, he, rfl, hnovalue⟩)
  refine ⟨_, Statement.accept?_table.mpr ⟨data, hdeclared, hclosed, hdata, rfl⟩, ?_⟩
  have hway' : Way (g.open p) home root names o es :=
    hway.opening he (time?_mem_times hp) (.inl hp) hroot hseparate hway fun ha => by rw [hnoarray] at ha; cases ha
  exact {
    data := hreflects
    covered := h.covered.open p
    opened := .inr rfl
    latest := by
      rintro p' hp' (hopened | rfl)
      · exact Int.le_trans (h.latest p' hp' hopened) hnow
      · exact Int.le_refl p'
    way := hway'.append (.step he (.table htable) (Owner.enter_of_time? hp ▸ .here))
    declared := by
      intro q hq
      rw [Marks.isDeclared_declare, Bool.or_eq_true] at hq
      rcases hq with hq | hq
      · obtain ⟨o', d, hd, hreason⟩ := h.declared_settle hq
        exact ⟨o', d, hkeep hd, h.reason_opening hnew hreason⟩
      · rw [Bool.and_eq_true, decide_eq_true_iff] at hq
        exact ⟨o, e, hq.1 ▸ hkeep hspot, .header hp (.inr rfl)⟩
    closed := by
      intro q hq
      rw [Marks.isClosed_declare, Reading.isClosed_settle] at hq
      obtain ⟨q', o', d, hq', hd, hvalue⟩ := h.closed q hq
      exact ⟨q', o', d, hq', hkeep hd, hvalue⟩
    pending := fun q hq => absurd hq not_mem_nil
    complete := fun q _ hq => absurd (h.covered p q hq) hnew }

/-- The header of an element is accepted where the array of tables stands, if all earlier elements have been met. -/
theorem array (hroot : Orderly root) (hseparate : Separate home root)
    (hway : Way g home root names o es) (he : e ∈ es) (hitem : e.item = .arrayOfTables i ts) (hnext : g.Next ts n t)
    (hp : t.time? = some p) (hnow : now ≤ p) :
    ∃ s', (Statement.array (names ++ [e.name])).accept? s = some s' ∧ Stage root (g.open p) p t.entries s' := by
  have hspot : Spot g root (names ++ [e.name]) o e := ⟨names, es, rfl, hway, he⟩
  have hnew : ¬g.opened p := hnext.later n t hnext.found le_rfl p (time?_mem_times hp)
  have hmem : p ∈ e.item.times := times_of_element hitem (mem_of_getElem? hnext.found) p (time?_mem_times hp)
  have harray : e.item.isArrayOfTables = true := by rw [hitem]; rfl
  have hne : names ++ [e.name] ≠ [] := by simp
  have hkeep {q : List String} {o' : Owner} {d : Entry Item} (hd : Spot g root q o' d)
      (hq : ¬names ++ [e.name] <+: q ∨ q = names ++ [e.name]) : Spot (g.open p) root q o' d :=
    hspot.opening hmem (.inr harray) hroot hseparate hd fun _ => hq
  obtain ⟨data, hdata, hreflects⟩ := h.data.openElement hroot hseparate h.covered hway he hitem hnext hp
  have hclosed : s.settle.marks.isClosed (names ++ [e.name]) = false := by
    rw [Reading.isClosed_settle]
    exact h.not_closed hroot hway (.inr ⟨e, he, rfl, by rw [hitem]; rfl⟩)
  refine ⟨_, Statement.accept?_array.mpr ⟨data, hclosed, by simpa using hdata, rfl⟩, ?_⟩
  have hway' : Way (g.open p) home root names o es := by
    refine hway.opening he hmem (.inr harray) hroot hseparate hway fun _ hpre => ?_
    have := hpre.length_le
    rw [length_append, length_singleton] at this
    omega
  -- no element behind this one has been met
  have hlast : ∀ (m : Nat) u, n < m → ts[m]? = some u → ¬(g.open p).Opens u := by
    rintro m u hm hu ⟨p', hp', hopened | rfl⟩
    · exact hnext.later m u hu hm.le p' (time?_mem_times hp') hopened
    · have hnodup := nodup_times_of_mem (hway.separate hseparate).nodup he
      rw [hitem, times_arrayOfTables] at hnodup
      have := index_eq_of_mem_times hnodup hnext.found hu (time?_mem_times hp) (time?_mem_times hp')
      omega
  have howner : t.owner = some (p, []) := by rw [owner, hp]; rfl
  exact {
    data := hreflects
    covered := h.covered.open p
    opened := .inr rfl
    latest := by
      rintro p' hp' (hopened | rfl)
      · exact Int.le_trans (h.latest p' hp' hopened) hnow
      · exact Int.le_refl p'
    way := hway'.append (.step he (.element hitem ⟨hnext.found, ⟨p, hp, .inr rfl⟩, hlast⟩) (howner ▸ .here))
    declared := by
      intro q hq
      rw [Marks.isDeclared_declare, Bool.or_eq_true, Marks.isDeclared_forget _ hne, Bool.and_eq_true] at hq
      rcases hq with ⟨hq, hout⟩ | hq
      · obtain ⟨o', d, hd, hreason⟩ := h.declared_settle hq
        refine ⟨o', d, hkeep hd (.inl fun hpre => ?_), h.reason_opening hnew hreason⟩
        rw [List.isPrefixOf_iff_prefix.mpr hpre] at hout
        cases hout
      · rw [Bool.and_eq_true, decide_eq_true_iff] at hq
        exact ⟨o, e, hkeep (hq.1 ▸ hspot) (.inr hq.1), .array harray⟩
    closed := by
      intro q hq
      rw [Marks.isClosed_declare, Marks.isClosed_forget _ hne] at hq
      split at hq
      -- only what is closed above the array of tables is closed below it
      · rw [dropLast_concat, Reading.isClosed_settle, h.not_closed hroot hway (.inl rfl)] at hq
        cases hq
      · rename_i hout
        rw [Reading.isClosed_settle] at hq
        obtain ⟨q', o', d, hq', hd, hvalue⟩ := h.closed q hq
        refine ⟨q', o', d, hq', hkeep hd (.inl fun hpre => hout ?_), hvalue⟩
        exact isPrefixOf_iff_prefix.mpr (hpre.trans hq')
    pending := fun q hq => absurd hq not_mem_nil
    complete := fun q _ hq => absurd (h.covered p q hq) hnew }

/-- The dotted tables of a line are neither declared nor only implied. -/
theorem parent (hroot : Orderly root) (harranged : Arranged home root) (hq : BodyPath sub q d)
    (hne : r ≠ []) (hr : r <+: q.dropLast) :
    (∃ c e, Spot g root (s.header ++ r) (some (now, c)) e ∧ e.item.isDotted = true) ∧
      s.marks.isDeclared (s.header ++ r) = false ∧ s.implies (s.header ++ r) = false := by
  obtain ⟨names, e, es', rfl, hway, he, hdotted⟩ := hq.parent (g := g) (h.way.arranged harranged).1 hne hr
  have hway' := h.way.append hway
  have hspot : Spot g root (s.header ++ (names ++ [e.name])) (some (now, names)) e :=
    ⟨s.header ++ names, es', (append_assoc ..).symm, hway', he⟩
  have htime : e.item.time? = none := by
    rw [Option.eq_none_iff_forall_ne_some]
    intro p hp
    rw [isDotted_of_time? hp] at hdotted
    cases hdotted
  refine ⟨⟨names, e, hspot, hdotted⟩, ?_, ?_⟩
  · rw [Bool.eq_false_iff]
    intro hdeclared
    obtain ⟨o', d', hd, hreason⟩ := h.declared _ hdeclared
    obtain ⟨rfl, rfl⟩ := hspot.unique hd hroot
    cases hreason with
    | header time => rw [htime] at time; cases time
    | array isArray =>
      cases hx : e.item with
      | arrayOfTables => rw [hx] at hdotted; cases hdotted
      | _ => rw [hx] at isArray; cases isArray
    | dotted _ _ past => exact past rfl
  · rw [Bool.eq_false_iff]
    intro himplies
    rw [Reading.implies, Bool.and_eq_true, Bool.and_eq_true, ← append_assoc] at himplies
    obtain ⟨⟨hholds, -⟩, hpending⟩ := himplies
    -- what has been met of the table are lines of this body, since its headers all come later
    rcases h.data.touches_of_holds hway' he hholds with ⟨p, hp, hopened⟩ | ⟨q', d', hq', hline⟩
    · obtain ⟨-, b, hb, hlater⟩ := ((Way.arranged hway' harranged).1 e he).dotted hdotted
      obtain rfl := Option.mem_some_iff.mp hb
      have hroot' : p ∈ timesIn root := (Way.arranged hway' harranged).2 p (mem_timesIn.mpr ⟨e, he, hp⟩)
      exact absurd (h.latest p hroot' hopened) (Int.not_le.mpr (hlater p hp))
    · obtain ⟨q'', rfl, hbelow⟩ := hq'.single_dotted hdotted
      have hmem := h.complete (names ++ e.name :: q'') (names ++ [e.name]) hline (by simp) (by
        rw [dropLast_append_of_ne_nil (cons_ne_nil _ _), dropLast_cons_of_ne_nil hbelow.ne_nil]
        exact ⟨q''.dropLast, by simp⟩)
      rw [← append_assoc] at hmem
      rw [contains_iff_mem.mpr hmem] at hpending
      cases hpending

/-- The line of a value is accepted in the body where it stands, and its dotted key leads through no table that is only
implied. -/
theorem entry (hroot : Orderly root) (hseparate : Separate home root)
    (harranged : Arranged home root) (hq : BodyPath sub q d) (hnew : ¬g.spoken now q) (hw : Data.Same w d.item.unwrap) :
    ∃ s', (Statement.entry q w).accept? s = some s' ∧ (Statement.entry q w).avoidsImplied s = true ∧
      Stage root (g.say now q) now sub s' := by
  have harranged' := (h.way.arranged harranged).1
  obtain ⟨es', hleaf, hway, hd⟩ := hq.leaf (g := g) harranged'
  have hparents {r : List String} (hr : r ∈ dottedParents s.header q) : ∃ r', r' ≠ [] ∧ r' <+: q.dropLast ∧ r = s.header ++ r' := by
    rw [hleaf] at hr
    exact mem_dottedParents.mp hr
  obtain ⟨data, hdata, hreflects⟩ := h.data.sayLine hroot hseparate h.covered h.opened h.way hq hnew hw
  have hdeclared : ∀ r ∈ dottedParents s.header q, s.marks.isDeclared r = false := by
    intro r hr
    obtain ⟨r', hne, hr', rfl⟩ := hparents hr
    exact (h.parent hroot harranged hq hne hr').2.1
  have hclosed : s.marks.isClosed (s.header ++ q.dropLast) = false := h.not_closed hroot (h.way.append hway) (.inl rfl)
  refine ⟨_, Statement.accept?_entry.mpr ⟨data, hdeclared, hclosed, hdata, rfl⟩, ?_, ?_⟩
  · rw [Statement.avoidsImplied, all_eq_true]
    intro r hr
    obtain ⟨r', hne, hr', rfl⟩ := hparents hr
    rw [(h.parent hroot harranged hq hne hr').2.2]
    rfl
  · have hspot : Spot g root (s.header ++ q) (some (now, q.dropLast)) d := by
      refine ⟨s.header ++ q.dropLast, es', ?_, h.way.append hway, hd⟩
      rw [append_assoc, ← hleaf]
    exact {
      data := hreflects
      covered := h.covered.say h.opened q
      opened := h.opened
      latest := h.latest
      way := h.way.congr fun _ _ => Iff.rfl
      declared := by
        intro r hr
        have hr' : s.marks.isDeclared r = true := by
          revert hr
          dsimp only
          split
          · rw [Marks.isDeclared_close]; exact id
          · exact id
        obtain ⟨o', e', he', hreason⟩ := h.declared r hr'
        refine ⟨o', e', he'.say now, ?_⟩
        cases hreason with
        | header time opened => exact .header time opened
        | array isArray => exact .array isArray
        | dotted isDotted opened past => exact .dotted isDotted opened past
      closed := by
        intro r hr
        have hr' : s.marks.isClosed r = true ∨ s.header ++ q <+: r := by
          revert hr
          dsimp only
          split
          · rw [Marks.isClosed_close, Bool.or_eq_true, Bool.and_eq_true, isPrefixOf_iff_prefix]
            exact Or.imp_right And.right
          · exact .inl
        rcases hr' with hr' | hr'
        · obtain ⟨q', o', e', hq', he', hvalue⟩ := h.closed r hr'
          exact ⟨q', o', e', hq', he'.say now, hvalue⟩
        · exact ⟨_, _, d, hr', hspot.say now, hq.isValue⟩
      pending := by
        intro r hr
        rcases mem_append.mp hr with hr | hr
        · obtain ⟨c, e', he', hdotted⟩ := h.pending r hr
          exact ⟨c, e', he'.say now, hdotted⟩
        · obtain ⟨r', hne, hr', rfl⟩ := hparents hr
          obtain ⟨⟨c, e', he', hdotted⟩, -⟩ := h.parent hroot harranged hq hne hr'
          exact ⟨c, e', he'.say now, hdotted⟩
      complete := by
        rintro q' r (hq' | ⟨-, rfl⟩) hne hr
        · exact mem_append_left _ (h.complete q' r hq' hne hr)
        · apply mem_append_right
          rw [hleaf]
          exact mem_dottedParents.mpr ⟨r, hne, hr, rfl⟩ }

end

/-- Before the first line nothing has been met but the beginning of the body of the root. -/
theorem start (hroot : ∀ p ∈ timesIn root, 0 < p) : Stage root ⟨(· = 0), fun _ _ => False⟩ 0 root {} where
  data := by
    apply reflectsIn_nil
    rintro e he (⟨p, hp, rfl⟩ | ⟨q, d, -, hline⟩)
    · exact Int.lt_irrefl 0 (hroot 0 (mem_timesIn.mpr ⟨e, he, hp⟩))
    · exact hline
  covered := fun _ _ h => h.elim
  opened := rfl
  latest := fun _ _ h => Int.le_of_eq h
  way := .here
  declared := by
    intro p hp
    rw [show ({} : Reading).marks = Marks.blank from rfl, Marks.isDeclared_blank] at hp
    cases hp
  closed := by
    intro p hp
    rw [show ({} : Reading).marks = Marks.blank from rfl, Marks.isClosed_blank] at hp
    cases hp
  pending := fun _ h => absurd h not_mem_nil
  complete := fun _ _ h => h.elim

end Stage

end Verbatim

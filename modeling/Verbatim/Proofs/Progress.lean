import Mathlib.Data.List.Nodup
import Mathlib.Data.List.Pairwise
import Verbatim.Proofs.Acceptance
import Verbatim.Proofs.NamedLists
import Verbatim.Proofs.WholeLines

/-!
# Data while a written tree is read

The lines of a tree are written table by table, in the order of the numbers of the headers. While they are read, the data is
that of the part of the tree whose lines have been met: a value is there once its line is, a table once something in it is,
and of an array of tables the elements whose headers have been met.
-/

namespace Verbatim

open List DataReader Item Fields

variable {x t : Item} {p : Int} {q : List String} {fields : Fields} {d e : Entry Item} {sub : List (Entry Item)}

/-! ## Headers and bodies -/

/-- The number of the header of a table, if it has one. -/
def TableForm.time? (f : TableForm) : Option Int := if f.dotted || f.implicit then none else f.position

/-- The number of the header of an item that is a table with a header. -/
def Item.time? : Item → Option Int
  | .table _ f _ => f.time?
  | _ => none

/-- The numbers of all headers in a tree. -/
def Item.times (x : Item) : List Int := x.tables.filterMap fun t => t.1.time?

/-- The numbers of all headers below entries. -/
def timesIn (es : List (Entry Item)) : List Int := es.flatMap fun e => e.item.times

theorem Item.times_table (i : Info) (f : TableForm) (es : List (Entry Item)) :
    (table i f es).times = f.time?.toList ++ timesIn es := by
  rw [times, tables, filterMap_cons, tablesBelow_eq, filterMap_flatMap]
  cases f.time? <;> rfl

theorem Item.times_arrayOfTables (i : Info) (ts : List Item) : (arrayOfTables i ts).times = ts.flatMap times := by
  rw [times, tables, tablesEach_eq, filterMap_flatMap]
  rfl

theorem Item.times_of_isValue (h : x.isValue = true) : x.times = [] := by
  rw [times, tables_of_isValue h, filterMap_nil]

theorem time?_mem_times (h : x.time? = some p) : p ∈ x.times := by
  cases x with
  | table i f es =>
    rw [times_table, mem_append]
    exact .inl (by rw [show f.time? = some p from h]; simp)
  | _ => cases h

theorem mem_timesIn : p ∈ timesIn es ↔ ∃ e ∈ es, p ∈ e.item.times := mem_flatMap

/-- The line of a value in the body of a table: the names that lead to it through dotted tables, and its entry. -/
inductive BodyPath : List (Entry Item) → List String → Entry Item → Prop where
  /-- A value of the table itself. -/
  | value {es : List (Entry Item)} {e : Entry Item} (mem : e ∈ es) (isValue : e.item.isValue = true)
      (plain : e.item.isDotted = false) : BodyPath es [e.name] e
  /-- A value below a dotted table. -/
  | dotted {es : List (Entry Item)} {e d : Entry Item} {q : List String} (mem : e ∈ es) (isDotted : e.item.isDotted = true)
      (below : BodyPath e.item.entries q d) : BodyPath es (e.name :: q) d

theorem BodyPath.ne_nil (h : BodyPath es q d) : q ≠ [] := by
  cases h <;> simp

/-- The line stands for one of the entries of the table. -/
theorem BodyPath.of_mem (h : BodyPath es q d) : ∃ e ∈ es, ∃ q', q = e.name :: q' ∧ BodyPath [e] q d := by
  cases h with
  | value mem isValue plain => exact ⟨_, mem, [], rfl, .value (by simp) isValue plain⟩
  | dotted mem isDotted below => exact ⟨_, mem, _, rfl, .dotted (by simp) isDotted below⟩

theorem BodyPath.mono (h : BodyPath es q d) (hsub : es ⊆ es') : BodyPath es' q d := by
  cases h with
  | value mem isValue plain => exact .value (hsub mem) isValue plain
  | dotted mem isDotted below => exact .dotted (hsub mem) isDotted below

theorem BodyPath.single_value (h : BodyPath [e] q d) (hd : e.item.isDotted = false) :
    q = [e.name] ∧ d = e ∧ e.item.isValue = true := by
  cases h with
  | value mem isValue plain =>
    obtain rfl := mem_singleton.mp mem
    exact ⟨rfl, rfl, isValue⟩
  | dotted mem isDotted below =>
    obtain rfl := mem_singleton.mp mem
    rw [hd] at isDotted
    cases isDotted

theorem BodyPath.single_dotted (h : BodyPath [e] q d) (hd : e.item.isDotted = true) :
    ∃ q', q = e.name :: q' ∧ BodyPath e.item.entries q' d := by
  cases h with
  | value mem isValue plain =>
    obtain rfl := mem_singleton.mp mem
    rw [hd] at plain
    cases plain
  | dotted mem isDotted below =>
    obtain rfl := mem_singleton.mp mem
    exact ⟨_, rfl, below⟩

/-! ## What has been met -/

/-- The body in which the values of a table stand: the number of the header above it, and the names of the dotted tables that
lead to the table from there. A table that is only implied has none. -/
abbrev Owner := Option (Int × List String)

/-- The body below the header of an item. -/
def Item.owner (x : Item) : Owner := x.time?.map (·, [])

/-- The body in which the values below an entry stand. -/
def Owner.enter (o : Owner) (e : Entry Item) : Owner :=
  if e.item.isDotted then o.map fun b => (b.1, b.2 ++ [e.name]) else e.item.owner

/-- Which headers have been met, and which lines in the body of each. -/
structure Progress where
  /-- The headers, by their numbers. -/
  opened : Int → Prop
  /-- The lines in the body below a header, by the names that lead to them. -/
  spoken : Int → List String → Prop

namespace Progress

/-- Whether a line of a body has been met. -/
def line (g : Progress) : Owner → List String → Prop
  | none, _ => False
  | some (p, c), q => g.spoken p (c ++ q)

/-- Whether the header of an item has been met. -/
def Opens (g : Progress) (t : Item) : Prop := ∃ p, t.time? = some p ∧ g.opened p

/-- Whether a header or a line in an entry has been met. -/
def Touches (g : Progress) (o : Owner) (e : Entry Item) : Prop :=
  (∃ p ∈ e.item.times, g.opened p) ∨ ∃ q d, BodyPath [e] q d ∧ g.line o q

/-- The same has been met of one header and its body. -/
def SameAt (g g' : Progress) (p : Int) : Prop := (g.opened p ↔ g'.opened p) ∧ ∀ q, g.spoken p q ↔ g'.spoken p q

structure SameIn (g g' : Progress) (o : Owner) (e : Entry Item) : Prop where
  /-- Of the headers below it. -/
  times : ∀ p ∈ e.item.times, g.SameAt g' p
  /-- Of its lines in the body around it. -/
  line : ∀ q, g.line o (e.name :: q) ↔ g'.line o (e.name :: q)

variable {g g' : Progress} {o : Owner} {e : Entry Item}

theorem line_enter_dotted (h : e.item.isDotted = true) (q : List String) :
    g.line (o.enter e) q ↔ g.line o (e.name :: q) := by
  rw [Owner.enter, if_pos h]
  cases o with
  | none => exact Iff.rfl
  | some b =>
    rw [Option.map_some, line, line, append_assoc]
    rfl

theorem line_owner (h : ∀ p ∈ x.times, g.SameAt g' p) (q : List String) : g.line x.owner q ↔ g'.line x.owner q := by
  unfold owner
  cases hp : x.time? with
  | none => exact Iff.rfl
  | some p => exact (h p (time?_mem_times hp)).2 _

/-- What has been met of the lines of an entry is what has been met of the body that it opens. -/
theorem SameIn.enter (h : g.SameIn g' o e) (q : List String) : g.line (o.enter e) q ↔ g'.line (o.enter e) q := by
  by_cases hd : e.item.isDotted = true
  · rw [line_enter_dotted hd, line_enter_dotted hd]
    exact h.line q
  · rw [Owner.enter, if_neg hd]
    exact line_owner h.times q

theorem SameIn.touches (h : g.SameIn g' o e) : g.Touches o e ↔ g'.Touches o e := by
  unfold Touches
  refine or_congr (exists_congr fun p => and_congr_right fun hp => (h.times p hp).1) ?_
  refine exists_congr fun q => exists_congr fun d => and_congr_right fun hq => ?_
  obtain ⟨_, hmem, q', rfl, _⟩ := hq.of_mem
  obtain rfl := mem_singleton.mp hmem
  exact h.line q'

theorem opens_congr (h : ∀ p ∈ t.times, g.SameAt g' p) : g.Opens t ↔ g'.Opens t :=
  exists_congr fun p => and_congr_right fun hp => (h p (time?_mem_times hp)).1

end Progress

/-! ## The data of what has been met -/

/-- The item has entries that are read one by one: it is a table, or an inline table that a dotted key made. -/
inductive Item.Splits : Item → List (Entry Item) → Prop where
  | table {i : Info} {f : TableForm} {es : List (Entry Item)} : Splits (.table i f es) es
  /-- An inline table, in which there are no headers. -/
  | inlineTable {i : Info} {f : InlineForm} {es : List (Entry Item)} (dotted : f.dotted = true) (noHeader : timesIn es = []) :
      Splits (.inlineTable i f es) es

theorem Item.Splits.entries_eq (h : x.Splits es) : x.entries = es := by
  cases h <;> rfl

/-- The headers below the entries are headers in the item. -/
theorem Item.Splits.times (h : x.Splits es) : ∀ p ∈ timesIn es, p ∈ x.times := by
  intro p hp
  cases h with
  | table =>
    rw [times_table]
    exact mem_append_right _ hp
  | inlineTable _ noHeader =>
    rw [noHeader] at hp
    cases hp

/-- The data of the part of an item that has been met. The owner is the body in which the values of the item stand. -/
inductive Reflects (g : Progress) : Owner → Item → Plain → Prop where
  /-- A value is there as a whole. -/
  | value {o : Owner} {x : Item} {d : Plain} (isValue : x.isValue = true) (plain : x.isDotted = false)
      (same : Data.Same d x.unwrap) : Reflects g o x d
  /-- A table has those of its entries in which something has been met. -/
  | table {o : Owner} {x : Item} {es : List (Entry Item)} {fields : Fields} (members : x.Splits es)
      (distinct : (fields.map Prod.fst).Nodup) (known : ∀ n ∈ fields.map Prod.fst, n ∈ es.map Entry.name)
      (touched : ∀ e ∈ es, (fields.lookup e.name).isSome = true ↔ g.Touches o e)
      (below : ∀ e ∈ es, ∀ d, fields.lookup e.name = some d → Reflects g (o.enter e) e.item d) :
      Reflects g o x (.table fields)
  /-- An array of tables has the elements whose headers have been met. -/
  | array {o : Owner} {i : Info} {ts : List Item} {ds : List Plain} (nonempty : ds ≠ []) (bounded : ds.length ≤ ts.length)
      (opened : ∀ (n : Nat) t, ts[n]? = some t → (g.Opens t ↔ n < ds.length))
      (below : ∀ (n : Nat) t d, ts[n]? = some t → ds[n]? = some d → Reflects g t.owner t d) :
      Reflects g o (.arrayOfTables i ts) (.list ds)

/-- The data of the part of some entries that has been met. -/
structure ReflectsIn (g : Progress) (o : Owner) (es : List (Entry Item)) (fields : Fields) : Prop where
  distinct : (fields.map Prod.fst).Nodup
  /-- All names are those of entries. -/
  known : ∀ n ∈ fields.map Prod.fst, n ∈ es.map Entry.name
  /-- An entry is there if something in it has been met. -/
  touched : ∀ e ∈ es, (fields.lookup e.name).isSome = true ↔ g.Touches o e
  /-- It has the data of what has been met. -/
  below : ∀ e ∈ es, ∀ d, fields.lookup e.name = some d → Reflects g (o.enter e) e.item d

variable {g g' : Progress} {o : Owner} {es : List (Entry Item)}

theorem reflects_splits {d : Plain} (hx : x.Splits es) :
    Reflects g o x d ↔ ∃ fields, d = .table fields ∧ ReflectsIn g o es fields := by
  constructor
  · intro h
    cases h with
    | value isValue plain same =>
      cases hx with
      | table => cases isValue
      | inlineTable dotted => cases dotted.symm.trans plain
    | table members distinct known touched below =>
      obtain rfl := hx.entries_eq.symm.trans members.entries_eq
      exact ⟨_, rfl, distinct, known, touched, below⟩
    | array => cases hx
  · rintro ⟨fields, rfl, h⟩
    exact .table hx h.distinct h.known h.touched h.below

theorem reflects_arrayOfTables {i : Info} {ts : List Item} {d : Plain} :
    Reflects g o (.arrayOfTables i ts) d ↔ ∃ ds, d = .list ds ∧ ds ≠ [] ∧ ds.length ≤ ts.length ∧
      (∀ (n : Nat) t, ts[n]? = some t → (g.Opens t ↔ n < ds.length)) ∧
      ∀ (n : Nat) t d, ts[n]? = some t → ds[n]? = some d → Reflects g t.owner t d := by
  constructor
  · intro h
    cases h with
    | value isValue => cases isValue
    | table members => cases members
    | array nonempty bounded opened below => exact ⟨_, rfl, nonempty, bounded, opened, below⟩
  · rintro ⟨ds, rfl, nonempty, bounded, opened, below⟩
    exact .array nonempty bounded opened below

/-- The data of an item depends on what has been met in the item only. -/
theorem Reflects.congr {d : Plain} (h : Reflects g o x d) (htimes : ∀ p ∈ x.times, g.SameAt g' p)
    (hline : ∀ q, g.line o q ↔ g'.line o q) : Reflects g' o x d := by
  induction h with
  | value isValue plain same => exact .value isValue plain same
  | table members distinct known touched below ih =>
    have hsame : ∀ e ∈ _, g.SameIn g' _ e := fun e he =>
      ⟨fun p hp => htimes p (members.times p (mem_timesIn.mpr ⟨e, he, hp⟩)), fun q => hline _⟩
    refine .table members distinct known (fun e he => ?_) fun e he d hd => ?_
    · rw [touched e he]
      exact (hsame e he).touches
    · exact ih e he d hd (hsame e he).times (hsame e he).enter
  | @array _ i ts ds nonempty bounded opened below ih =>
    have hmem : ∀ t ∈ ts, ∀ p ∈ t.times, g.SameAt g' p := fun t ht p hp =>
      htimes p (by rw [times_arrayOfTables]; exact mem_flatMap.mpr ⟨t, ht, hp⟩)
    refine .array nonempty bounded (fun n t ht => ?_) fun n t d ht hd => ?_
    · rw [← Progress.opens_congr (hmem t (mem_of_getElem? ht))]
      exact opened n t ht
    · have := hmem t (mem_of_getElem? ht)
      exact ih n t d ht hd this (Progress.line_owner this)

theorem ReflectsIn.congr (h : ReflectsIn g o es fields) (hsame : ∀ e ∈ es, g.SameIn g' o e) :
    ReflectsIn g' o es fields where
  distinct := h.distinct
  known := h.known
  touched e he := (h.touched e he).trans (hsame e he).touches
  below e he d hd := (h.below e he d hd).congr (hsame e he).times (hsame e he).enter

/-! ## Changes of one entry -/

/-- Entries of other names stay as they are when one entry changes. -/
theorem ReflectsIn.put (h : ReflectsIn g o es fields) (hnames : (es.map Entry.name).Nodup) (he : e ∈ es)
    (htouched : g'.Touches o e) (hv : Reflects g' (o.enter e) e.item v)
    (hothers : ∀ d ∈ es, d.name ≠ e.name → g.SameIn g' o d) : ReflectsIn g' o es (put e.name v fields) where
  distinct := by
    rw [put_eq_putNamed]
    exact nodup_putNamed h.distinct e.name v
  known n hn := by
    rw [put_eq_putNamed] at hn
    rcases mem_names_putNamed hn with rfl | hn
    · exact mem_map.mpr ⟨e, he, rfl⟩
    · exact h.known n hn
  touched d hd := by
    rw [lookup_put]
    by_cases hname : d.name = e.name
    · obtain rfl := inj_on_of_nodup_map hnames hd he hname
      rw [if_pos rfl]
      exact iff_of_true rfl htouched
    · rw [if_neg hname, h.touched d hd]
      exact (hothers d hd hname).touches
  below d hd w hw := by
    rw [lookup_put] at hw
    by_cases hname : d.name = e.name
    · obtain rfl := inj_on_of_nodup_map hnames hd he hname
      rw [if_pos rfl] at hw
      obtain rfl := Option.some.inj hw
      exact hv
    · rw [if_neg hname] at hw
      have hsame := hothers d hd hname
      exact (h.below d hd w hw).congr hsame.times hsame.enter

/-- Where nothing has been met there is no data. -/
theorem reflectsIn_nil (h : ∀ e ∈ es, ¬g.Touches o e) : ReflectsIn g o es [] where
  distinct := nodup_nil
  known n hn := by cases hn
  touched e he := iff_of_false (by simp) (h e he)
  below e he d hd := by cases hd

/-- Lines are met below headers only. -/
def Progress.Covered (g : Progress) : Prop := ∀ p q, g.spoken p q → g.opened p

/-- What has been met in an entry of an item has been met in the item. -/
theorem Progress.Touches.of_member (hsub : e.item.Splits sub) (hd : d ∈ sub) (hcovered : g.Covered)
    (h : g.Touches (o.enter e) d) : g.Touches o e := by
  rcases h with ⟨p, hp, hopened⟩ | ⟨q, c, hq, hline⟩
  · exact .inl ⟨p, hsub.times p (mem_timesIn.mpr ⟨d, hd, hp⟩), hopened⟩
  · by_cases hdotted : e.item.isDotted = true
    · rw [line_enter_dotted hdotted] at hline
      refine .inr ⟨e.name :: q, c, ?_, hline⟩
      refine .dotted (by simp) hdotted (hq.mono ?_)
      rw [hsub.entries_eq]
      simpa using hd
    · rw [Owner.enter, if_neg hdotted, owner] at hline
      cases hp : e.item.time? with
      | none => rw [hp] at hline; exact hline.elim
      | some p =>
        rw [hp] at hline
        exact .inl ⟨p, time?_mem_times hp, hcovered p _ hline⟩

/-- A name that leads on to entries leads to their data; there is none as long as nothing has been met there. -/
theorem ReflectsIn.enter (h : ReflectsIn g o es fields) (hcovered : g.Covered) (he : e ∈ es) (hsub : e.item.Splits sub) :
    ∃ t, ReflectsIn g (o.enter e) sub t ∧ ∀ lists f ks,
      fields.atPath lists f (e.name :: ks) = (Fields.atPath lists f ks t).map fun t' => Fields.put e.name (.table t') fields := by
  cases hlookup : fields.lookup e.name with
  | none =>
    have hno : ¬g.Touches o e := fun ht => by
      have := (h.touched e he).mpr ht
      rw [hlookup] at this
      cases this
    refine ⟨[], reflectsIn_nil fun d hd ht => hno (ht.of_member hsub hd hcovered), fun lists f ks => ?_⟩
    rw [Fields.atPath, hlookup]
    exact congrArg (Option.map · _) (funext fun t' => Fields.put_of_lookup_eq_none hlookup)
  | some v =>
    obtain ⟨t, rfl, ht⟩ := (reflects_splits hsub).mp (h.below e he v hlookup)
    refine ⟨t, ht, fun lists f ks => ?_⟩
    rw [Fields.atPath, hlookup]

theorem Item.splits_of_isTable (h : x.isTable = true) : x.Splits x.entries := by
  cases x with
  | table => exact .table
  | _ => cases h

theorem Progress.Opens.isTable (h : g.Opens t) : t.isTable = true := by
  obtain ⟨p, hp, _⟩ := h
  cases t with
  | table => rfl
  | _ => cases hp

theorem Progress.Opens.exists_mem (h : g.Opens t) : ∃ p ∈ t.times, g.opened p :=
  h.imp fun _ hp => ⟨time?_mem_times hp.1, hp.2⟩

/-! ## Distinct names -/

/-- An item leads to the entries of a table: its own, or those of one of its elements. -/
inductive Item.Leads : Item → List (Entry Item) → Prop where
  /-- Its own entries. -/
  | splits {x : Item} {es : List (Entry Item)} (h : x.Splits es) : Leads x es
  /-- Those of an element of an array of tables. -/
  | element {i : Info} {ts : List Item} {t : Item} {es : List (Entry Item)} (mem : t ∈ ts) (h : t.Splits es) :
      Leads (.arrayOfTables i ts) es

/-- Names are distinct in every table of a tree, and the entries of dotted tables are read one by one. -/
inductive Orderly : List (Entry Item) → Prop where
  | intro {es : List (Entry Item)} (names : (es.map Entry.name).Nodup)
      (splits : ∀ e ∈ es, e.item.isDotted = true → e.item.Splits e.item.entries)
      (below : ∀ e ∈ es, ∀ sub, e.item.Leads sub → Orderly sub) : Orderly es

namespace Orderly

variable {e d : Entry Item}

theorem names (h : Orderly es) : (es.map Entry.name).Nodup := by
  cases h
  assumption

theorem splits (h : Orderly es) (he : e ∈ es) (hd : e.item.isDotted = true) : e.item.Splits e.item.entries := by
  cases h with
  | intro _ splits _ => exact splits e he hd

theorem lower (h : Orderly es) (he : e ∈ es) (hsub : e.item.Leads sub) : Orderly sub := by
  cases h with
  | intro _ _ below => exact below e he sub hsub

theorem eq_of_name (h : Orderly es) (hd : d ∈ es) (he : e ∈ es) (hname : d.name = e.name) : d = e :=
  inj_on_of_nodup_map h.names hd he hname

end Orderly

/-! ## Lines of values -/

/-- A line is met. -/
def Progress.say (g : Progress) (p : Int) (q : List String) : Progress :=
  { g with spoken := fun p' q' => g.spoken p' q' ∨ (p' = p ∧ q' = q) }

theorem Progress.sameAt_say (h : p' ≠ p) (q : List String) : g.SameAt (g.say p q) p' :=
  ⟨Iff.rfl, fun _ => ⟨.inl, fun hq => hq.elim id fun hp => absurd hp.1 h⟩⟩

theorem Progress.Covered.say (h : g.Covered) (hp : g.opened p) (q : List String) : (g.say p q).Covered := by
  rintro p' q' (hq | ⟨rfl, rfl⟩)
  · exact h p' q' hq
  · exact hp

theorem BodyPath.getLastD_eq (h : BodyPath es q d) : q.getLastD "" = d.name := by
  induction h with
  | value => rfl
  | dotted mem isDotted below ih =>
    obtain ⟨x, q, rfl⟩ := exists_cons_of_ne_nil below.ne_nil
    exact ih

/-- The line of a value adds the value at the path of the line. -/
theorem BodyPath.add (h : BodyPath es q d) (hes : Orderly es) (hp : p ∉ timesIn es) (hnew : ¬g.spoken p (c ++ q))
    (hcovered : g.Covered) (hw : Data.Same w d.item.unwrap) (hfields : ReflectsIn g (some (p, c)) es fields) (lists : Bool) :
    ∃ fields', fields.atPath lists (Fields.add? d.name w) q.dropLast = some fields' ∧
      ReflectsIn (g.say p (c ++ q)) (some (p, c)) es fields' := by
  induction h generalizing c fields with
  | @value es e mem isValue plain =>
    have hlookup : fields.lookup e.name = none := by
      refine Option.not_isSome_iff_eq_none.mp fun hsome => ?_
      rcases (hfields.touched e mem).mp hsome with ⟨p', hp', _⟩ | ⟨q', d', hq', hline⟩
      · rw [times_of_isValue isValue] at hp'
        cases hp'
      · obtain ⟨rfl, -, -⟩ := hq'.single_value plain
        exact hnew hline
    refine ⟨Fields.put e.name w fields, ?_, ?_⟩
    · rw [dropLast_singleton, Fields.atPath, Fields.add?, hlookup]
      exact congrArg some (Fields.put_of_lookup_eq_none hlookup)
    · refine hfields.put hes.names mem (.inr ⟨_, _, .value (by simp) isValue plain, .inr ⟨rfl, rfl⟩⟩) (.value isValue plain hw)
        fun d' hd' hname => ⟨fun p' hp' => Progress.sameAt_say ?_ _, fun q' => ?_⟩
      · rintro rfl
        exact hp (mem_timesIn.mpr ⟨d', hd', hp'⟩)
      · refine ⟨.inl, fun hq' => hq'.elim id fun hq' => ?_⟩
        have := append_cancel_left hq'.2
        exact absurd (cons.inj this).1 hname
  | @dotted es e d q mem isDotted below ih =>
    have hsub := hes.splits mem isDotted
    have hp' : p ∉ timesIn e.item.entries := fun hmem =>
      hp (mem_timesIn.mpr ⟨e, mem, hsub.times p hmem⟩)
    have henter : Owner.enter (some (p, c)) e = some (p, c ++ [e.name]) := by rw [Owner.enter, if_pos isDotted]; rfl
    have hassoc : c ++ [e.name] ++ q = c ++ e.name :: q := by simp
    have hother : ∀ d' ∈ es, d'.name ≠ e.name → g.SameIn (g.say p (c ++ e.name :: q)) (some (p, c)) d' := by
      intro d' hd' hname
      refine ⟨fun p' hp'' => Progress.sameAt_say ?_ _, fun q' => ⟨.inl, fun hq' => hq'.elim id fun hq' => ?_⟩⟩
      · rintro rfl
        exact hp (mem_timesIn.mpr ⟨d', hd', hp''⟩)
      · have := append_cancel_left hq'.2
        exact absurd (cons.inj this).1 hname
    have htouched : (g.say p (c ++ e.name :: q)).Touches (some (p, c)) e :=
      .inr ⟨_, _, .dotted (by simp) isDotted below, .inr ⟨rfl, rfl⟩⟩
    obtain ⟨t, hreflect, hpath⟩ := hfields.enter hcovered mem hsub
    rw [henter] at hreflect
    obtain ⟨t', ht', hreflect'⟩ := ih (hes.lower mem (.splits hsub)) hp' (by rwa [hassoc]) hw hreflect
    rw [hassoc, ← henter] at hreflect'
    refine ⟨Fields.put e.name (.table t') fields, ?_,
      hfields.put hes.names mem htouched ((reflects_splits hsub).mpr ⟨t', rfl, hreflect'⟩) hother⟩
    rw [dropLast_cons_of_ne_nil below.ne_nil, hpath, ht']
    rfl

/-! ## The whole tree -/

/-- An entry has been met, with every entry and every element of an array of tables below it. -/
inductive Met (g : Progress) : Owner → Entry Item → Prop where
  | intro {o : Owner} {e : Entry Item} (touched : g.Touches o e)
      (opened : ∀ i ts, e.item = .arrayOfTables i ts → ∀ t ∈ ts, g.Opens t)
      (below : ∀ sub, e.item.Splits sub → ∀ d ∈ sub, Met g (o.enter e) d)
      (elements : ∀ i ts, e.item = .arrayOfTables i ts → ∀ t ∈ ts, ∀ d ∈ t.entries, Met g t.owner d) : Met g o e

/-- Fields that have the data of each entry under its name, and nothing else, are those of the entries in some order. -/
theorem same_unwrapFields (hdistinct : (fields.map Prod.fst).Nodup)
    (hknown : ∀ n ∈ fields.map Prod.fst, n ∈ es.map Entry.name) (hnames : (es.map Entry.name).Nodup)
    (hdata : ∀ e ∈ es, ∃ d, fields.lookup e.name = some d ∧ Data.Same d e.item.unwrap) :
    Data.Same (.table fields) (.table (unwrapFields es)) := by
  -- the entries in the order of the fields
  let found (n : String) : Plain := ((unwrapFields es).lookup n).getD (.table [])
  have hfound : ∀ e ∈ es, found e.name = e.item.unwrap := fun e he => by
    show Option.getD _ _ = _
    rw [lookup_unwrapFields hnames he]
    rfl
  have hmem : ∀ f ∈ fields, ∃ e ∈ es, e.name = f.1 ∧ Data.Same f.2 e.item.unwrap := by
    intro f hf
    obtain ⟨e, he, hname⟩ := mem_map.mp (hknown f.1 (mem_map_of_mem hf))
    obtain ⟨d, hd, hsame⟩ := hdata e he
    rw [hname, lookup_of_mem hdistinct (show (f.1, f.2) ∈ fields from hf)] at hd
    obtain rfl := Option.some.inj hd
    exact ⟨e, he, hname, hsame⟩
  refine @Data.Same.table _ (fields.map fun f => (f.1, found f.1)) _ (by simp) ?_ ?_
  · rw [map_map]
    refine same_map fun f hf => ?_
    obtain ⟨e, he, hname, hsame⟩ := hmem f hf
    show Data.Same f.2 (found f.1)
    rw [← hname, hfound e he]
    exact hsame
  · have hnodup : (fields.map fun f => (f.1, found f.1)).Nodup := by
      refine Nodup.of_map Prod.fst ?_
      rw [map_map]
      exact hdistinct
    have hnodup' : (unwrapFields es).Nodup := by
      refine Nodup.of_map Prod.fst ?_
      rw [map_fst_unwrapFields]
      exact hnames
    refine (perm_ext_iff_of_nodup hnodup hnodup').mpr fun ⟨n, v⟩ => ?_
    rw [unwrapFields_eq, mem_map, mem_map]
    constructor
    · rintro ⟨f, hf, heq⟩
      obtain ⟨e, he, hname, -⟩ := hmem f hf
      refine ⟨e, he, ?_⟩
      rw [← heq, ← hname, hfound e he]
    · rintro ⟨e, he, heq⟩
      obtain ⟨d, hd, -⟩ := hdata e he
      have hname : e.name ∈ fields.map Prod.fst := by
        refine Decidable.byContradiction fun hno => ?_
        rw [lookup_eq_none hno] at hd
        cases hd
      obtain ⟨f, hf, hfname⟩ := mem_map.mp hname
      refine ⟨f, hf, ?_⟩
      rw [← heq, hfname, hfound e he]

/-- When everything has been met, the data is that of the tree, up to the order of names. -/
theorem ReflectsIn.same (hmet : ∀ e ∈ es, Met g o e) (hes : Orderly es) (h : ReflectsIn g o es fields) :
    Data.Same (.table fields) (.table (unwrapFields es)) := by
  induction hes generalizing o fields with
  | @intro es names splits _ ih =>
    refine same_unwrapFields h.distinct h.known names fun e he => ?_
    obtain ⟨touched, opened, below, elements⟩ := hmet e he
    obtain ⟨d, hd⟩ := Option.isSome_iff_exists.mp ((h.touched e he).mpr touched)
    refine ⟨d, hd, ?_⟩
    have hreflects := h.below e he d hd
    generalize hx : e.item = x at hreflects
    cases hreflects with
    | value isValue plain same => exact same
    | @table _ _ sub t members distinct known touched' below' =>
      have hunwrap : x.unwrap = .table (unwrapFields sub) := by cases members <;> rfl
      rw [hunwrap]
      rw [← hx] at members
      exact ih e he sub (.splits members) (below sub members) ⟨distinct, known, touched', below'⟩
    | @array _ i ts ds nonempty bounded opened' below' =>
      have hlength : ds.length = ts.length := by
        refine Nat.le_antisymm bounded (Nat.le_of_not_lt fun hlt => ?_)
        obtain ⟨t, ht⟩ : ∃ t, ts[ds.length]? = some t := ⟨_, getElem?_eq_getElem hlt⟩
        exact Nat.lt_irrefl _ ((opened' _ t ht).mp (opened i ts hx t (mem_of_getElem? ht)))
      rw [unwrap, unwrapEach_eq]
      refine .list (forall₂_iff_get.mpr ⟨by simp [hlength], fun n hn hn' => ?_⟩)
      rw [length_map] at hn'
      have hmem := getElem_mem hn'
      have ht := getElem?_eq_getElem hn'
      have htable := (opened i ts hx _ hmem).isTable
      obtain ⟨t, ht', hsub⟩ := (reflects_splits (splits_of_isTable htable)).mp
        (below' n _ _ ht (getElem?_eq_getElem hn))
      have hsame := ih e he _ (hx ▸ .element hmem (splits_of_isTable htable)) (elements i ts hx _ hmem) hsub
      rw [get_eq_getElem, get_eq_getElem, getElem_map, ht']
      have hunwrap : ts[n].unwrap = .table (unwrapFields ts[n].entries) := by
        cases hitem : ts[n] with
        | table => rfl
        | _ => rw [hitem] at htable; cases htable
      rw [hunwrap]
      exact hsame

end Verbatim

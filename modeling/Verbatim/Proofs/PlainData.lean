import Verbatim.Item.Attribute
import Verbatim.Proofs.Conversion

/-!
# Plain data and the items that it becomes

Nothing, bytes and sets have no form in a document. Data in which none of them occurs becomes an item, both as a value and as
a member of a table, and the item gives the data back: every scalar as it is, the entries of a table in their order, and a
tuple as a list. The two conversions choose different items for the same data, but both build a list from its members and a
table from its fields; so one lemma on lists and one on tables serve both.

## Main statements

- `Data.Ordinary`, `Data.asLists` - data without items among it, and the data that its items give back.
- `Item.conversion_exact` - conversion fails exactly where data without a form occurs, and loses nothing otherwise.
-/

namespace Verbatim

open List

namespace Data

/-- Whether data has no form in a document. -/
def isFormless : Input → Bool
  | .none | .bytes _ | .set _ => true
  | _ => false

/-- Scalars and data without a form, and lists, tuples and tables of such data. The names in a table are distinct. -/
inductive Ordinary : Input → Prop where
  | leaf {d : Input} (h : d.isLeaf = true) : Ordinary d
  | list {ds : List Input} (members : ∀ d ∈ ds, Ordinary d) : Ordinary (.list ds)
  | tuple {ds : List Input} (members : ∀ d ∈ ds, Ordinary d) : Ordinary (.tuple ds)
  | table {es : List (String × Input)} (distinct : (es.map Prod.fst).Nodup) (members : ∀ e ∈ es, Ordinary e.2) :
      Ordinary (.table es)

mutual

/-- Data with lists in place of its tuples. -/
def asLists : Input → Plain
  | .list ds | .tuple ds => .list (asListsEach ds)
  | .table es => .table (asListsFields es)
  | d => d.unwrapped

/-- Each of the data with lists in place of its tuples. -/
def asListsEach : List Input → List Plain
  | [] => []
  | d :: ds => asLists d :: asListsEach ds

/-- Each named value with lists in place of its tuples. -/
def asListsFields : List (String × Input) → List (String × Plain)
  | [] => []
  | (name, d) :: es => (name, asLists d) :: asListsFields es

end

theorem Ordinary.not_item {d : Input} (h : d.Ordinary) : d.isItem = false := by
  cases h with
  | leaf h => cases d <;> first | rfl | cases h
  | _ => rfl

end Data

namespace Item

variable {d : Input} {ds : List Input} {es : List (String × Input)} {convert : Input → Except ConvertError Item}

/-- The outcome of a conversion that loses nothing: data without a form occurs and is named, or it does not occur and the item
has the data. -/
def Exact (d : Input) : Except ConvertError Item → Prop
  | .error e => ∃ c : Input, c.Within d ∧ c.isFormless = true ∧ e = .unsupported c.inputKind
  | .ok x => (∀ c : Input, c.Within d → c.isFormless = false) ∧ x.unwrap = d.asLists

/-! ## Lists -/

private theorem exact_members (hds : ∀ d ∈ ds, Exact d (convert d)) (h : Forall₂ (fun d x => convert d = .ok x) ds xs) :
    (∀ d ∈ ds, ∀ c : Input, c.Within d → c.isFormless = false) ∧ xs.map unwrap = Data.asListsEach ds := by
  induction h with
  | nil => exact ⟨by simp, rfl⟩
  | cons hx _ ih =>
    obtain ⟨hexact, hds⟩ := forall_mem_cons.mp hds
    rw [hx] at hexact
    refine ⟨forall_mem_cons.mpr ⟨hexact.1, (ih hds).1⟩, ?_⟩
    rw [map_cons, hexact.2, (ih hds).2, Data.asListsEach]

/-- A list is converted without loss if its members are. -/
theorem exact_list (hmake : ∀ xs, (make xs).unwrap = .list (xs.map unwrap)) (hds : ∀ d ∈ ds, Exact d (convert d)) :
    Exact (.list ds) ((ds.mapM convert).map make) := by
  obtain ⟨xs, hxs, hall⟩ | ⟨e, he, d, hd, hde⟩ := mapM_cases convert ds
  · rw [hxs]
    obtain ⟨hformed, hdata⟩ := exact_members hds hall
    refine ⟨fun c hc => ?_, by rw [hmake, hdata, Data.asLists]⟩
    cases hc with
    | self => rfl
    | list hd hc => exact hformed _ hd c hc
  · rw [he]
    obtain ⟨c, hc, hformless⟩ := hde ▸ hds d hd
    exact ⟨c, .list hd hc, hformless⟩

theorem Exact.tuple (h : Exact (.list ds) r) : Exact (.tuple ds) r := by
  cases r with
  | error e =>
    obtain ⟨c, hc, hformless⟩ := h
    cases hc with
    | self => cases hformless.1
    | list hd hc => exact ⟨c, .tuple hd hc, hformless⟩
  | ok x =>
    refine ⟨fun c hc => ?_, h.2⟩
    cases hc with
    | self => rfl
    | tuple hd hc => exact h.1 c (.list hd hc)

/-! ## Tables -/

/-- The entry that data becomes under a name that is not taken. -/
def newField (convert : Input → Except ConvertError Item) (e : String × Input) : Except ConvertError (Entry Item) :=
  (convert e.2).map fun x => { key := { name := e.1 }, item := ownedFor e.2 x }

/-- Under distinct names, fields become one entry each, in their order. -/
theorem foldlM_putField_eq (hdistinct : (es.map Prod.fst).Nodup) (hfree : ∀ e ∈ es, e.1 ∉ before.map Entry.name) :
    es.foldlM (putField convert) before = (es.mapM (newField convert)).map (before ++ ·) := by
  induction es generalizing before with
  | nil => exact congrArg Except.ok (append_nil _).symm
  | cons e es ih =>
    rw [foldlM_cons, mapM_cons, putField, newField]
    cases hx : convert e.2 with
    | error _ => rfl
    | ok x =>
      obtain ⟨hother, hdistinct⟩ := nodup_cons.mp hdistinct
      have hplace : place e.1 (ownedFor e.2 x) before = before ++ [{ key := { name := e.1 }, item := ownedFor e.2 x }] := by
        have hnone : findNamed? e.1 before = none := find?_eq_none.mpr fun f hf hname =>
          hfree e mem_cons_self (mem_map.mpr ⟨f, hf, by simpa using hname⟩)
        rw [place, hnone]
      change es.foldlM (putField convert) (place e.1 (ownedFor e.2 x) before) = _
      rw [hplace, ih hdistinct]
      · cases es.mapM (newField convert) with
        | error _ => rfl
        | ok fs => exact congrArg Except.ok (append_assoc _ _ _)
      · intro f hf
        rw [map_append, mem_append, not_or]
        refine ⟨hfree f (mem_cons_of_mem _ hf), fun hname => hother ?_⟩
        rw [← show f.1 = e.1 from mem_singleton.mp hname]
        exact mem_map_of_mem hf

private theorem exact_fields {fs : List (Entry Item)} (hes : ∀ e ∈ es, e.2.Ordinary ∧ Exact e.2 (convert e.2))
    (h : Forall₂ (fun e f => newField convert e = .ok f) es fs) :
    (∀ e ∈ es, ∀ c : Input, c.Within e.2 → c.isFormless = false) ∧ unwrapFields fs = Data.asListsFields es := by
  induction h with
  | nil => exact ⟨by simp, rfl⟩
  | @cons e f es fs hf _ ih =>
    obtain ⟨⟨hordinary, hexact⟩, hes⟩ := forall_mem_cons.mp hes
    obtain ⟨x, hx, rfl⟩ := map_eq_ok.mp hf
    rw [hx] at hexact
    refine ⟨forall_mem_cons.mpr ⟨hexact.1, (ih hes).1⟩, ?_⟩
    rw [unwrapFields, (ih hes).2, ownedFor_of_not_item hordinary.not_item, hexact.2, Data.asListsFields]

/-- A table is converted without loss if its fields are. -/
theorem exact_table (hmake : ∀ fs, (make fs).unwrap = .table (unwrapFields fs)) (hdistinct : (es.map Prod.fst).Nodup)
    (hes : ∀ e ∈ es, e.2.Ordinary ∧ Exact e.2 (convert e.2)) :
    Exact (.table es) ((es.foldlM (putField convert) []).map make) := by
  rw [foldlM_putField_eq hdistinct (by simp)]
  obtain ⟨fs, hfs, hall⟩ | ⟨err, herr, e, he, hfield⟩ := mapM_cases (newField convert) es
  · rw [hfs]
    obtain ⟨hformed, hdata⟩ := exact_fields hes hall
    refine ⟨fun c hc => ?_, by rw [Data.asLists, ← hdata, ← hmake]; rfl⟩
    cases hc with
    | self => rfl
    | table he hc => exact hformed _ he c hc
  · rw [herr]
    have hexact := (hes e he).2
    rw [newField] at hfield
    cases hconvert : convert e.2 with
    | ok x => simp [hconvert, Except.map] at hfield
    | error err' =>
      rw [hconvert] at hfield hexact
      cases hfield
      obtain ⟨c, hc, hformless⟩ := hexact
      exact ⟨c, .table he hc, hformless⟩

/-! ## The two conversions -/

theorem exact_ofValue (hd : d.Ordinary) : Exact d (ofValue d) := by
  induction hd with
  | @leaf d hleaf =>
    -- a leaf is a scalar, or it has no form itself
    cases d <;> first
      | exact ⟨_, .self, rfl, rfl⟩
      | exact ⟨fun c hc => by cases hc; rfl, rfl⟩
      | cases hleaf
  | list _ ih =>
    rw [ofValue_list]
    exact exact_list (fun xs => by rw [unwrap, unwrapEach_eq]) ih
  | tuple _ ih =>
    rw [ofValue_tuple, ofValue_list]
    exact (exact_list (fun xs => by rw [unwrap, unwrapEach_eq]) ih).tuple
  | table distinct members ih =>
    rw [ofValue_table]
    exact exact_table (fun _ => rfl) distinct fun e he => ⟨members e he, ih e he⟩

/-- A table becomes a table, so nothing is refused where a table must stand. -/
theorem ofTable_table (es : List (String × Input)) : ofTable (.table es) = ofMember (.table es) := by
  rw [ofTable, ofMember_table]
  cases es.foldlM (putField ofMember) [] <;> rfl

private theorem exact_member_list (members : ∀ d ∈ ds, d.Ordinary) (hds : ∀ d ∈ ds, Exact d (ofMember d)) :
    Exact (.list ds) (ofMember (.list ds)) := by
  rw [ofMember_list]
  split
  · next hlist =>
    refine exact_list (fun xs => by rw [unwrap, unwrapEach_eq]) fun d hd => ?_
    have hmapping := all_eq_true.mp (Bool.and_eq_true_iff.mp hlist).2 d hd
    have hexact := hds d hd
    cases members d hd with
    | table _ _ => rwa [ofTable_table]
    | leaf hleaf => cases d <;> simp_all [Data.isLeaf, Data.isMapping]
    | _ => cases hmapping
  · exact exact_ofValue (.list members)

theorem exact_ofMember (hd : d.Ordinary) : Exact d (ofMember d) := by
  induction hd with
  | @leaf d hleaf =>
    have hvalue : ofMember d = ofValue d := by cases d <;> first | rfl | cases hleaf
    rw [hvalue]
    exact exact_ofValue (.leaf hleaf)
  | list members ih => exact exact_member_list members ih
  | tuple members ih =>
    rw [ofMember_tuple]
    exact (exact_member_list members ih).tuple
  | table distinct members ih =>
    rw [ofMember_table]
    exact exact_table (fun _ => rfl) distinct fun e he => ⟨members e he, ih e he⟩

/-- Ordinary data becomes an item exactly where no data without a form occurs in it, and a failure names such data. The item
then gives the data back, in the same order and with lists for tuples. -/
theorem conversion_exact (hd : d.Ordinary) :
    ∀ convert ∈ [ofValue, ofMember],
      ((∃ e, convert d = .error e) ↔ ∃ c : Input, c.Within d ∧ c.isFormless = true) ∧
        (∀ e, convert d = .error e → ∃ c : Input, c.Within d ∧ c.isFormless = true ∧ e = .unsupported c.inputKind) ∧
        ∀ x, convert d = .ok x → x.unwrap = d.asLists := by
  have hexact : ∀ convert ∈ [ofValue, ofMember], Exact d (convert d) := by
    simp [exact_ofValue hd, exact_ofMember hd]
  intro convert hconvert
  have h := hexact convert hconvert
  cases hr : convert d with
  | error e =>
    rw [hr] at h
    obtain ⟨c, hc, hformless, he⟩ := h
    refine ⟨⟨fun _ => ⟨c, hc, hformless⟩, fun _ => ⟨e, rfl⟩⟩, ?_, nofun⟩
    rintro e' ⟨⟩
    exact ⟨c, hc, hformless, he⟩
  | ok x =>
    rw [hr] at h
    refine ⟨⟨nofun, fun ⟨c, hc, hformless⟩ => ?_⟩, nofun, ?_⟩
    · rw [h.1 c hc] at hformless
      cases hformless
    · rintro x' ⟨⟩
      exact h.2

/-- A table with a tuple, and a list of tables that hold nothing: the first is given back, the second is refused. -/
theorem conversion_exact_nested :
    let tuple : Input := .table [("b", .tuple [.integer 1, .list [.string "x"]]), ("a", .boolean true)]
    let tables : Input := .list [.table [("k", .integer 1)], .table [("k", .none)]]
    (∃ x, ofMember tuple = .ok x ∧ x.unwrap = .table [("b", .list [.integer 1, .list [.string "x"]]), ("a", .boolean true)]) ∧
      ∃ e, ofMember tables = .error e := by
  intro tuple tables
  have htuple : tuple.Ordinary := by
    refine .table (by decide) (forall_mem_cons.mpr ⟨.tuple ?_, forall_mem_singleton.mpr (.leaf rfl)⟩)
    exact forall_mem_cons.mpr ⟨.leaf rfl, forall_mem_singleton.mpr (.list (forall_mem_singleton.mpr (.leaf rfl)))⟩
  have htables : tables.Ordinary := by
    refine .list (forall_mem_cons.mpr ⟨?_, forall_mem_singleton.mpr ?_⟩) <;>
      exact .table (by decide) (forall_mem_singleton.mpr (.leaf rfl))
  refine ⟨⟨_, rfl, (conversion_exact htuple ofMember (by simp)).2.2 _ rfl⟩, ?_⟩
  refine (conversion_exact htables ofMember (by simp)).1.mpr ⟨.none, .list (mem_cons_of_mem _ mem_cons_self) ?_, rfl⟩
  exact .table mem_cons_self .self

end Item

end Verbatim

import Verbatim.DataReader.Basic
import Verbatim.Item.Edit
import Verbatim.Proofs.Tree
import Mathlib.Algebra.Ring.Nat
import Mathlib.Data.List.Nodup

/-!
# Trees that edits build

An edit brings in data without any text of its own. The trees that such edits build from nothing have a simple form: no
recorded text, entries of distinct names, values in arrays and inline tables, and at least one table in every array of tables.
-/

namespace Verbatim

open List

open DataReader (maxIntegerDigits)

variable {α ε : Type} {r : Except ε α}

theorem bind_eq_ok : (r >>= f) = .ok b ↔ ∃ a, r = .ok a ∧ f a = .ok b := by
  cases r <;> simp [bind, Except.bind]

theorem map_eq_ok : r.map f = .ok b ↔ ∃ a, r = .ok a ∧ f a = b := by
  cases r <;> simp [Except.map]

theorem toOption_eq_some : r.toOption = some a ↔ r = .ok a := by
  cases r <;> simp [Except.toOption]

theorem mapError_eq_ok : r.mapError f = .ok a ↔ r = .ok a := by
  cases r <;> simp [Except.mapError]

theorem bind_eq_error : (r >>= f) = .error e ↔ r = .error e ∨ ∃ a, r = .ok a ∧ f a = .error e := by
  cases r <;> simp [bind, Except.bind]

theorem map_eq_error : r.map f = .error e ↔ r = .error e := by
  cases r <;> simp [Except.map]

theorem mapError_eq_error : r.mapError f = .error e ↔ ∃ e', r = .error e' ∧ f e' = e := by
  cases r <;> simp [Except.mapError]

/-! ## Simple data -/

/-- Texts, truth values, integers that can be written, and lists and tables of them. -/
inductive Data.Simple : Input → Prop where
  | string (s : String) : Simple (.string s)
  | boolean (b : Bool) : Simple (.boolean b)
  | integer {n : Int} (digits : n.natAbs < 10 ^ maxIntegerDigits) : Simple (.integer n)
  | list {ds : List Input} (members : ∀ d ∈ ds, Simple d) : Simple (.list ds)
  | table {es : List (String × Input)} (members : ∀ e ∈ es, Simple e.2) : Simple (.table es)

theorem Data.Simple.not_item {d : Input} (h : d.Simple) : d.isItem = false := by
  cases h <;> rfl

inductive Data.SimpleScalar : Plain → Prop where
  | string (s : String) : SimpleScalar (.string s)
  | boolean (b : Bool) : SimpleScalar (.boolean b)
  | integer {n : Int} (digits : n.natAbs < 10 ^ maxIntegerDigits) : SimpleScalar (.integer n)

namespace Item

variable {x : Item} {es : List (Entry Item)} {name : String}

/-! ## The form of composed trees -/

/-- What an item is for. -/
inductive Role where
  /-- A value of an entry line, an array or an inline table. -/
  | value
  /-- A table with a header of its own. -/
  | table
  /-- An array of such tables. -/
  | tables
  /-- The root of a document, which is the only table with a place from the beginning. -/
  | root
  deriving DecidableEq

def role : Item → Role
  | .scalar .. | .array .. | .inlineTable .. => .value
  | .table _ f _ => if f.position.isNone then .table else .root
  | .arrayOfTables .. => .tables

/-- Entries that have nothing but a name and an item, under distinct names. -/
structure NewEntries (es : List (Entry Item)) : Prop where
  /-- Nothing is recorded besides the name and the item. -/
  plain : ∀ e ∈ es, e = { key := { name := e.name }, item := e.item }
  distinct : (es.map Entry.name).Nodup

/-- The form of trees that edits build from nothing. -/
inductive Composed : Item → Prop where
  /-- A scalar without a spelling. -/
  | scalar {i : Info} {kind : ScalarKind} {v : Plain} (simple : v.SimpleScalar) : Composed (.scalar i { kind, value := v })
  | array {i : Info} {vs : List Item} (roles : ∀ v ∈ vs, v.role = .value) (members : ∀ v ∈ vs, Composed v) :
      Composed (.array i {} vs)
  | inlineTable {i : Info} {es : List (Entry Item)} (entries : NewEntries es) (roles : ∀ e ∈ es, e.item.role = .value)
      (members : ∀ e ∈ es, Composed e.item) : Composed (.inlineTable i {} es)
  | table {i : Info} {place : Option Int} {es : List (Entry Item)} (first : ∀ n ∈ place, n = 0) (entries : NewEntries es)
      (roles : ∀ e ∈ es, e.item.role ≠ .root) (members : ∀ e ∈ es, Composed e.item) :
      Composed (.table i { position := place } es)
  /-- At least one table. -/
  | arrayOfTables {i : Info} {ts : List Item} (filled : ts ≠ []) (roles : ∀ t ∈ ts, t.role = .table)
      (members : ∀ t ∈ ts, Composed t) : Composed (.arrayOfTables i ts)

theorem Composed.not_dotted (h : Composed x) : x.isDotted = false := by
  cases h <;> rfl

theorem Composed.decor?_of_value (h : Composed x) (hx : x.role = .value) : x.decor? = some {} := by
  cases h with
  | table first entries roles members =>
    simp only [role] at hx
    split at hx <;> cases hx
  | arrayOfTables filled roles members => cases hx
  | _ => rfl

/-! ## Nesting -/

mutual

/-- How deep arrays and inline tables nest in an item. -/
def nesting : Item → Nat
  | .scalar .. => 0
  | .array _ _ vs => nestingEach vs + 1
  | .inlineTable _ _ es => nestingEntries es + 1
  | .table _ _ es => nestingEntries es
  | .arrayOfTables _ ts => nestingEach ts

/-- How deep arrays and inline tables nest in some items. -/
def nestingEach : List Item → Nat
  | [] => 0
  | x :: xs => max (nesting x) (nestingEach xs)

/-- How deep arrays and inline tables nest in some entries. -/
def nestingEntries : List (Entry Item) → Nat
  | [] => 0
  | ⟨_, x, _, _, _⟩ :: es => max (nesting x) (nestingEntries es)

end

theorem nesting_le_each (h : x ∈ xs) : x.nesting ≤ nestingEach xs := by
  induction xs with
  | nil => cases h
  | cons y ys ih =>
    rw [nestingEach]
    rcases mem_cons.mp h with rfl | h
    · exact Nat.le_max_left _ _
    · exact Nat.le_trans (ih h) (Nat.le_max_right _ _)

theorem nesting_le_entries (h : e ∈ es) : e.item.nesting ≤ nestingEntries es := by
  induction es with
  | nil => cases h
  | cons d ds ih =>
    rw [nestingEntries]
    rcases mem_cons.mp h with rfl | h
    · exact Nat.le_max_left _ _
    · exact Nat.le_trans (ih h) (Nat.le_max_right _ _)

/-! ## Putting an item under a name -/

theorem Composed.withDecor_eq (h : Composed x) : x.withDecor {} = x := by
  cases h <;> rfl

theorem Composed.decor?_eq (h : Composed x) (hd : x.decor? = some d) : d = {} := by
  cases h <;> cases hd <;> rfl

/-- There is no text around a composed item that another one could take over. -/
theorem Composed.replacing_eq (hold : Composed old) (hnew : Composed new) : replacing old new = new := by
  rw [replacing]
  split
  · next d d' _ hd hd' =>
    rw [hold.decor?_eq hd, hnew.withDecor_eq, ite_self]
  · rfl

/-- What stands under the names after an item was put there: that item, or an entry that stood there before. -/
theorem mem_place (hes : ∀ e ∈ es, Composed e.item) (hx : Composed x) (he : e ∈ place name x es) : e.item = x ∨ e ∈ es := by
  rw [place] at he
  split at he
  · rcases mem_append.mp he with he | he
    · exact .inr he
    · exact .inl (by rw [mem_singleton.mp he])
  · obtain ⟨d, hd, rfl⟩ := mem_map.mp he
    split
    · exact .inl ((hes d hd).replacing_eq hx)
    · exact .inr hd

theorem NewEntries.place (h : NewEntries es) : NewEntries (place name x es) := by
  rw [Item.place]
  split
  · next hnone =>
    have hfresh : name ∉ es.map Entry.name := by
      intro hmem
      obtain ⟨e, he, hname⟩ := mem_map.mp hmem
      exact absurd (List.find?_eq_none.mp hnone e he) (by simp [hname])
    refine ⟨?_, ?_⟩
    · intro e he
      rcases mem_append.mp he with he | he
      · exact h.plain e he
      · rw [mem_singleton.mp he]
        rfl
    · rw [map_append]
      refine h.distinct.append (nodup_singleton _) ?_
      simpa [Entry.name, disjoint_singleton] using hfresh
  · refine ⟨?_, ?_⟩
    · intro e he
      obtain ⟨d, hd, rfl⟩ := mem_map.mp he
      have hplain := h.plain d hd
      split
      · rw [hplain]
        rfl
      · exact hplain
    · have hnames : (updateEntry name (fun e => { e with item := replacing e.item x }) es).map Entry.name =
          es.map Entry.name := by
        rw [updateEntry, map_map]
        refine map_congr_left fun e _ => ?_
        rw [Function.comp_apply]
        split <;> rfl
      rw [hnames]
      exact h.distinct

theorem NewEntries.eraseEntry (h : NewEntries es) (name : String) : NewEntries (eraseEntry name es) :=
  ⟨fun e he => h.plain e (mem_filter.mp he).1, h.distinct.sublist (filter_sublist.map _)⟩

end Item

end Verbatim

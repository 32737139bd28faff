import Mathlib.Data.List.Forall2
import Mathlib.Data.List.Nodup
import Verbatim.DataReader.Namespace
import Verbatim.Workspace.Basic

/-!
# Lists of named values

Documents, held items and the fields of a table are kept in lists of names with values. A value is put in place of an
earlier one of its name, or behind the others.
-/

namespace Verbatim

open List

variable {α : Type} {l : List (String × α)}

theorem lookup_putNamed (name n : String) (x : α) (l : List (String × α)) :
    (putNamed name x l).lookup n = if n = name then some x else l.lookup n := by
  induction l with
  | nil =>
    by_cases h : n = name
    · simp [putNamed, h]
    · simp [putNamed, lookup_cons, beq_false_of_ne h, h]
  | cons p l ih =>
    obtain ⟨m, y⟩ := p
    rw [putNamed]
    by_cases hm : m = name
    · subst hm
      by_cases h : n = m
      · simp [h]
      · simp [lookup_cons, beq_false_of_ne h, h]
    · rw [if_neg (by simpa using hm), lookup_cons, lookup_cons, ih]
      by_cases h : n = m
      · subst h
        simp [hm]
      · rw [beq_false_of_ne h]

theorem mem_names_putNamed (h : n ∈ (putNamed name x l).map Prod.fst) : n = name ∨ n ∈ l.map Prod.fst := by
  induction l with
  | nil => exact .inl (by simpa [putNamed] using h)
  | cons p l ih =>
    unfold putNamed at h
    split at h
    · rcases mem_cons.mp h with rfl | h
      · exact .inl rfl
      · exact .inr (mem_cons_of_mem _ h)
    · rcases mem_cons.mp h with rfl | h
      · exact .inr mem_cons_self
      · exact (ih h).imp_right (mem_cons_of_mem _)

theorem nodup_putNamed (h : (l.map Prod.fst).Nodup) (name : String) (x : α) : ((putNamed name x l).map Prod.fst).Nodup := by
  induction l with
  | nil => simp [putNamed]
  | cons p l ih =>
    obtain ⟨hp, hl⟩ := nodup_cons.mp h
    unfold putNamed
    split
    · next heq =>
      rw [map_cons, ← eq_of_beq heq]
      exact h
    · next hne =>
      refine nodup_cons.mpr ⟨fun hmem => ?_, ih hl⟩
      rcases mem_names_putNamed hmem with heq | hmem
      · exact hne (beq_iff_eq.mpr heq)
      · exact hp hmem

/-- Where no name stands twice, every value is found under its name. -/
theorem lookup_of_mem (h : (l.map Prod.fst).Nodup) (hx : (n, x) ∈ l) : l.lookup n = some x := by
  induction l with
  | nil => cases hx
  | cons p l ih =>
    obtain ⟨hp, hl⟩ := nodup_cons.mp h
    rcases mem_cons.mp hx with rfl | hx
    · exact lookup_cons_self
    · have hne : n ≠ p.1 := by
        rintro rfl
        exact hp (mem_map.mpr ⟨_, hx, rfl⟩)
      rw [lookup_cons, beq_false_of_ne hne]
      exact ih hl hx

theorem lookup_map (g : α → β) (n : String) (l : List (String × α)) :
    (l.map fun (m, x) => (m, g x)).lookup n = (l.lookup n).map g := by
  induction l with
  | nil => rfl
  | cons p l ih =>
    obtain ⟨m, x⟩ := p
    rw [map_cons, lookup_cons, lookup_cons, ih]
    cases n == m <;> rfl

namespace DataReader.Fields

theorem put_eq_putNamed (name : String) (v : Plain) (t : Fields) : put name v t = putNamed name v t := by
  induction t with
  | nil => rfl
  | cons kx t ih =>
    obtain ⟨k, x⟩ := kx
    rw [put, putNamed, ih]
    by_cases h : k = name
    · rw [if_pos (beq_iff_eq.mpr h), if_pos (beq_iff_eq.mpr h), h]
    · rw [if_neg (by simpa using h), if_neg (by simpa using h)]

/-- A value of a new name is put behind the others. -/
theorem put_of_lookup_eq_none (h : t.lookup name = none) : t ++ [(name, v)] = put name v t := by
  induction t with
  | nil => rfl
  | cons kx t ih =>
    obtain ⟨k, x⟩ := kx
    by_cases hk : name = k
    · rw [hk, lookup_cons_self] at h
      cases h
    · rw [lookup_cons, beq_false_of_ne hk] at h
      rw [put, if_neg (by simpa using Ne.symm hk), ← ih h]
      rfl

theorem lookup_put (name n : String) (v : Plain) (t : Fields) :
    (put name v t).lookup n = if n = name then some v else t.lookup n := by
  rw [put_eq_putNamed, lookup_putNamed]

end DataReader.Fields

/-! ## Data up to the order of names -/

/-- The same data, up to the order of names within tables. -/
inductive Data.Same : Plain → Plain → Prop where
  /-- Data is the same as itself. -/
  | refl (x : Plain) : Same x x
  /-- Lists with the same members in the same order. -/
  | list {xs ys : List Plain} (members : Forall₂ Same xs ys) : Same (.list xs) (.list ys)
  /-- Tables with the same values under the same names, in any order. -/
  | table {es fs gs : List (String × Plain)} (names : es.map Prod.fst = fs.map Prod.fst)
      (members : Forall₂ Same (es.map Prod.snd) (fs.map Prod.snd)) (order : fs.Perm gs) : Same (.table es) (.table gs)

theorem Item.same_map {f g : α → Plain} {xs : List α} (h : ∀ x ∈ xs, Data.Same (f x) (g x)) :
    Forall₂ Data.Same (xs.map f) (xs.map g) := by
  rw [forall₂_map_left_iff, forall₂_map_right_iff, forall₂_same]
  exact h

end Verbatim

import Mathlib.Data.List.Pairwise
import Verbatim.Proofs.Progress

/-!
# Ways through a tree that is read

A header or a dotted key leads through tables by their names, and from an array of tables into the element that was opened
last. Whichever line comes next, the data changes at the path of that line, and in the same way as the part of the tree that
has been met.
-/

namespace Verbatim

open List DataReader Item Fields

variable {t x : Item} {ts : List Item} {i : Info} {e d : Entry Item} {p : Int} {o' : Owner} {es' : List (Entry Item)}
  {path : List String} {n : Nat} {k : String}

variable {g g' : Progress} {o : Owner} {es : List (Entry Item)}

/-! ## Ways to tables -/

/-- The element of an array of tables that was opened last. -/
structure Progress.Last (g : Progress) (ts : List Item) (n : Nat) (t : Item) : Prop where
  found : ts[n]? = some t
  opened : g.Opens t
  last : ∀ (m : Nat) u, n < m → ts[m]? = some u → ¬g.Opens u

theorem Progress.Last.mem (h : g.Last ts n t) : t ∈ ts := mem_of_getElem? h.found

theorem Progress.Last.splits (h : g.Last ts n t) : t.Splits t.entries := splits_of_isTable h.opened.isTable

/-- Into the table of an entry, or into an element of its array of tables. With the entries there goes the body in which their
values stand. -/
inductive Onward (entered : List Item → Nat → Item → Prop) (o : Owner) (e : Entry Item) : Owner → List (Entry Item) → Prop where
  | table (isTable : e.item.isTable = true) : Onward entered o e (o.enter e) e.item.entries
  | element {i : Info} {ts : List Item} {n : Nat} {t : Item} (item : e.item = .arrayOfTables i ts) (enters : entered ts n t) :
      Onward entered o e t.owner t.entries

/-- The way from the entries of a table to those of another one, from entry to entry. -/
inductive Route {α : Type} (entered : List Item → Nat → Item → Prop) (label : Entry Item → α) :
    Owner → List (Entry Item) → List α → Owner → List (Entry Item) → Prop where
  | here {o : Owner} {es : List (Entry Item)} : Route entered label o es [] o es
  | step {o o₁ o' : Owner} {es sub es' : List (Entry Item)} {e : Entry Item} {path : List α} (mem : e ∈ es)
      (into : Onward entered o e o₁ sub) (rest : Route entered label o₁ sub path o' es') :
      Route entered label o es (label e :: path) o' es'

theorem Route.append (h : Route entered label o es steps o' es') (h' : Route entered label o' es' steps' o'' es'') :
    Route entered label o es (steps ++ steps') o'' es'' := by
  induction h with
  | here => exact h'
  | step mem into rest ih => exact .step mem into (ih h')

/-- The way of names from the entries of a table to those of another one, through the elements opened last. -/
abbrev Way (g : Progress) : Owner → List (Entry Item) → List String → Owner → List (Entry Item) → Prop := Route g.Last Entry.name

/-- Every table of an item has its own headers among those of the item. -/
theorem Item.times_of_element (hx : x = .arrayOfTables i ts) (ht : t ∈ ts) : ∀ p ∈ t.times, p ∈ x.times := by
  intro p hp
  rw [hx, times_arrayOfTables]
  exact mem_flatMap.mpr ⟨t, ht, hp⟩

/-- No header stands below two entries. -/
theorem not_mem_times_of_ne (hnodup : (timesIn es).Nodup) (he : e ∈ es) (hd : d ∈ es) (hne : d ≠ e) (hp : p ∈ e.item.times) :
    p ∉ d.item.times := by
  have : Std.Symm (Function.onFun List.Disjoint fun e : Entry Item => e.item.times) :=
    ⟨fun _ _ h _ ha hb => h hb ha⟩
  exact fun hp' => (nodup_flatMap.mp hnodup).2.forall he hd (Ne.symm hne) hp hp'

theorem nodup_times_of_mem (hnodup : (timesIn es).Nodup) (he : e ∈ es) : e.item.times.Nodup :=
  (nodup_flatMap.mp hnodup).1 e he

theorem Item.Splits.nodup (h : x.Splits es) (hnodup : x.times.Nodup) : (timesIn es).Nodup := by
  cases h with
  | table =>
    rw [times_table] at hnodup
    exact (nodup_append.mp hnodup).2.1
  | inlineTable _ noHeader =>
    rw [noHeader]
    exact nodup_nil

/-- The header of a table does not stand below it. -/
theorem Item.Splits.time?_not_mem (h : x.Splits es) (hnodup : x.times.Nodup) (hp : x.time? = some p) : p ∉ timesIn es := by
  cases h with
  | table =>
    rw [times_table, show TableForm.time? _ = some p from hp] at hnodup
    exact (nodup_cons.mp hnodup).1
  | inlineTable => cases hp

/-- What the headers of a tree and the body around it have in common with those below one of its entries: every number is
there once. -/
structure Separate (o : Owner) (es : List (Entry Item)) : Prop where
  /-- The headers below the entries have different numbers. -/
  nodup : (timesIn es).Nodup
  /-- The header above the body has another one. -/
  owner : ∀ b ∈ o, b.1 ∉ timesIn es

theorem separate_owner (hx : x.Splits es) (hnodup : x.times.Nodup) : Separate x.owner es where
  nodup := hx.nodup hnodup
  owner b hb := by
    obtain ⟨p, hp, rfl⟩ := Option.map_eq_some_iff.mp hb
    exact hx.time?_not_mem hnodup hp

theorem mem_times_of_owner (ht : t.isTable = true) (h : t.owner = some (p, []) ∨ p ∈ timesIn t.entries) : p ∈ t.times := by
  rcases h with howner | hmem
  · obtain ⟨p', hp', hb⟩ := Option.map_eq_some_iff.mp howner
    obtain rfl := (Prod.mk.inj hb).1
    exact time?_mem_times hp'
  · exact (splits_of_isTable ht).times p hmem

theorem mem_times_of_enter (he : e.item.isTable = true) (h : o.enter e = some (p, []) ∨ p ∈ timesIn e.item.entries) :
    p ∈ e.item.times := by
  refine mem_times_of_owner he (h.imp_left fun howner => ?_)
  by_cases hd : e.item.isDotted = true
  · rw [Owner.enter, if_pos hd] at howner
    obtain ⟨b, -, hb⟩ := Option.map_eq_some_iff.mp howner
    exact absurd (Prod.mk.inj hb).2 (by simp)
  · rwa [Owner.enter, if_neg hd] at howner

/-- No header stands in two elements. -/
theorem index_eq_of_mem_times (hnodup : (ts.flatMap times).Nodup) (ht : ts[m]? = some t) (hu : ts[n]? = some u)
    (hp : p ∈ t.times) (hp' : p ∈ u.times) : m = n := by
  have hpair := pairwise_iff_getElem.mp (nodup_flatMap.mp hnodup).2
  obtain ⟨hm, rfl⟩ := List.getElem?_eq_some_iff.mp ht
  obtain ⟨hn, rfl⟩ := List.getElem?_eq_some_iff.mp hu
  rcases Nat.lt_trichotomy m n with hlt | heq | hlt
  · exact (hpair m n hm hn hlt hp hp').elim
  · exact heq
  · exact (hpair n m hn hm hlt hp' hp).elim

/-- Only one element was opened last. -/
theorem Progress.Last.unique (h : g.Last ts m t) (h' : g.Last ts n u) : t = u := by
  rcases Nat.lt_trichotomy m n with hlt | rfl | hlt
  · exact absurd h'.opened (h.last n u hlt h'.found)
  · exact Option.some.inj (h.found.symm.trans h'.found)
  · exact absurd h.opened (h'.last m t hlt h.found)

/-- A header is met. -/
def Progress.open (g : Progress) (p : Int) : Progress := { g with opened := fun p' => g.opened p' ∨ p' = p }

theorem Progress.sameAt_open (h : p' ≠ p) : g.SameAt (g.open p) p' :=
  ⟨⟨.inl, fun hp => hp.elim id fun hp => absurd hp h⟩, fun _ => Iff.rfl⟩

theorem Progress.Covered.open (h : g.Covered) (p : Int) : (g.open p).Covered := fun p' q hq => .inl (h p' q hq)

namespace Onward

variable {sub : List (Entry Item)} (h : Onward g.Last o e o' sub)
include h

theorem leads : e.item.Leads sub := by
  cases h with
  | table isTable => exact .splits (splits_of_isTable isTable)
  | element item enters => exact item ▸ .element enters.mem enters.splits

theorem separate (he : e ∈ es) (hes : Separate o es) : Separate o' sub := by
  have hnodup := nodup_times_of_mem hes.nodup he
  cases h with
  | table isTable =>
    have hsub := splits_of_isTable isTable
    by_cases hd : e.item.isDotted = true
    · refine ⟨hsub.nodup hnodup, fun b hb hmem => ?_⟩
      rw [Owner.enter, if_pos hd] at hb
      obtain ⟨b', hb', rfl⟩ := Option.map_eq_some_iff.mp hb
      exact hes.owner b' hb' (mem_timesIn.mpr ⟨e, he, hsub.times _ hmem⟩)
    · rw [Owner.enter, if_neg hd]
      exact separate_owner hsub hnodup
  | element item enters =>
    rw [item, times_arrayOfTables] at hnodup
    exact separate_owner enters.splits ((nodup_flatMap.mp hnodup).1 _ enters.mem)

theorem time_mem (hp : o' = some (p, []) ∨ p ∈ timesIn sub) : p ∈ e.item.times := by
  cases h with
  | table isTable => exact mem_times_of_enter isTable hp
  | element item enters => exact times_of_element item enters.mem p (mem_times_of_owner enters.opened.isTable hp)

theorem unique (h' : Onward g.Last o e o₂ es₂) : o' = o₂ ∧ sub = es₂ := by
  cases h with
  | table isTable =>
    cases h' with
    | table => exact ⟨rfl, rfl⟩
    | element item => rw [item] at isTable; cases isTable
  | element item enters =>
    cases h' with
    | table isTable => rw [item] at isTable; cases isTable
    | element item' enters' =>
      obtain ⟨rfl, rfl⟩ := arrayOfTables.inj (item.symm.trans item')
      obtain rfl := enters.unique enters'
      exact ⟨rfl, rfl⟩

/-- Where it leads depends on the headers in the entry only. -/
theorem congr (hsame : ∀ p ∈ e.item.times, g.opened p ↔ g'.opened p) : Onward g'.Last o e o' sub := by
  cases h with
  | table isTable => exact .table isTable
  | @element i ts n t item enters =>
    have hopens : ∀ u ∈ ts, g.Opens u ↔ g'.Opens u := fun u hu =>
      exists_congr fun p => and_congr_right fun hp => hsame p (times_of_element item hu p (time?_mem_times hp))
    refine .element item ⟨enters.found, (hopens t enters.mem).mp enters.opened, fun m u hm hu hopened => ?_⟩
    exact enters.last m u hm hu ((hopens u (mem_of_getElem? hu)).mpr hopened)

/-- A header that is met inside changes nothing. -/
theorem opening (hp : o' = some (p, []) ∨ p ∈ timesIn sub) (hnodup : e.item.times.Nodup) :
    Onward (g.open p).Last o e o' sub := by
  cases h with
  | table isTable => exact .table isTable
  | element item enters =>
    rw [item, times_arrayOfTables] at hnodup
    refine .element item ⟨enters.found, enters.opened.imp fun _ h => ⟨h.1, .inl h.2⟩, ?_⟩
    rintro m u hm hu ⟨p', hp', hopened | rfl⟩
    · exact enters.last m u hm hu ⟨p', hp', hopened⟩
    · have htime := mem_times_of_owner enters.opened.isTable hp
      exact Nat.ne_of_gt hm (index_eq_of_mem_times hnodup hu enters.found (time?_mem_times hp') htime)

end Onward

/-- A table that a way leads to, or something below it, stands below the entries where the way begins. -/
theorem Route.time_mem (h : Way g o es path o' es') (hp : o' = some (p, []) ∨ p ∈ timesIn es') :
    o = some (p, []) ∨ p ∈ timesIn es := by
  induction h with
  | here => exact hp
  | step mem into rest ih => exact .inr (mem_timesIn.mpr ⟨_, mem, into.time_mem (ih hp)⟩)

/-- Of an array of tables whose element was opened last, the data ends with that of the element. -/
theorem Reflects.last {d : Plain} (h : Reflects g o (.arrayOfTables i ts) d) (hlast : g.Last ts n t) :
    ∃ ds t', d = .list (ds ++ [.table t']) ∧ ds.length = n ∧ ReflectsIn g t.owner t.entries t' := by
  obtain ⟨ds, rfl, hne, hbounded, hopened, hbelow⟩ := reflects_arrayOfTables.mp h
  have hlt : n < ds.length := (hopened n t hlast.found).mp hlast.opened
  have hle : ds.length ≤ n + 1 := by
    cases hnext : ts[n + 1]? with
    | none => exact hbounded.trans (getElem?_eq_none_iff.mp hnext)
    | some u => exact Nat.le_of_not_lt fun hlt' => hlast.last _ u (Nat.lt_succ_self n) hnext ((hopened _ u hnext).mpr hlt')
  obtain ⟨ds, v, rfl⟩ : ∃ ds' v, ds = ds' ++ [v] := ⟨_, _, (dropLast_append_getLast hne).symm⟩
  have hlength : ds.length = n := by
    rw [length_append, length_singleton] at hlt hle
    omega
  have hv : (ds ++ [v])[n]? = some v := by
    rw [← hlength, getElem?_append_right (Nat.le_refl _), Nat.sub_self]
    rfl
  obtain ⟨t', rfl, ht'⟩ := (reflects_splits hlast.splits).mp (hbelow n t v hlast.found hv)
  exact ⟨ds, t', rfl, hlength, ht'⟩

/-- The same has been met of an array of tables, its last element apart, which has other data now. -/
theorem Reflects.replaceLast (h : Reflects g o (.arrayOfTables i ts) (.list (ds ++ [v]))) (found : ts[ds.length]? = some t)
    (hopens : g'.Opens t) (hothers : ∀ (n : Nat) u, ts[n]? = some u → n ≠ ds.length → ∀ p ∈ u.times, g.SameAt g' p)
    (hv' : Reflects g' t.owner t v') : Reflects g' o (.arrayOfTables i ts) (.list (ds ++ [v'])) := by
  obtain ⟨ds', heq, -, hbounded, hopened, hbelow⟩ := reflects_arrayOfTables.mp h
  obtain rfl := Data.list.inj heq
  refine reflects_arrayOfTables.mpr ⟨_, rfl, by simp, by simpa using hbounded, fun n u hu => ?_, fun n u d hu hd => ?_⟩
  · by_cases hn : n = ds.length
    · obtain rfl : u = t := Option.some.inj (hu.symm.trans (hn ▸ found))
      exact iff_of_true hopens (by simp [hn])
    · have hlen : (ds ++ [v']).length = (ds ++ [v]).length := by simp
      rw [hlen, ← hopened n u hu]
      exact (Progress.opens_congr (hothers n u hu hn)).symm
  · by_cases hn : n = ds.length
    · obtain rfl : u = t := Option.some.inj (hu.symm.trans (hn ▸ found))
      obtain rfl : v' = d := by simpa [hn] using hd
      exact hv'
    · have hlt : n < ds.length := by
        have := (List.getElem?_eq_some_iff.mp hd).1
        rw [length_append, length_singleton] at this
        omega
      have hsame := hothers n u hu hn
      rw [getElem?_append_left hlt] at hd
      refine (hbelow n u d hu ?_).congr hsame (Progress.line_owner hsame)
      rw [getElem?_append_left hlt]
      exact hd

section Change

variable {o' : Owner} {es' : List (Entry Item)} {path : List String} {p : Int} {f : Fields → Option Fields}

/-- What has been met in the entries beside a way does not change with the table at its end. -/
theorem Separate.sameIn (h : Separate o es) (hsame : ∀ p' ≠ p, g.SameAt g' p') (he : e ∈ es) (hp : p ∈ e.item.times)
    (hd : d ∈ es) (hname : d.name ≠ e.name) : g.SameIn g' o d := by
  have hne : d ≠ e := fun h => hname (congrArg Entry.name h)
  refine ⟨fun p' hp' => hsame p' ?_, fun q => ?_⟩
  · rintro rfl
    exact not_mem_times_of_ne h.nodup he hd hne hp hp'
  · cases o with
    | none => exact Iff.rfl
    | some b =>
      refine (hsame b.1 ?_).2 _
      rintro rfl
      exact h.owner b rfl (mem_timesIn.mpr ⟨e, he, hp⟩)

/-- A change of the table at the end of a way is a change of the data at its path. -/
theorem Way.change (hway : Way g o es path o' es') (hp : o' = some (p, []) ∨ p ∈ timesIn es')
    (hsame : ∀ p' ≠ p, g.SameAt g' p') (hopened : g'.opened p) (hcovered : g.Covered)
    (hend : ∀ t, ReflectsIn g o' es' t → ∃ t', f t = some t' ∧ ReflectsIn g' o' es' t') (hes : Orderly es)
    (hseparate : Separate o es) (h : ReflectsIn g o es fields) :
    ∃ fields', fields.atPath true f path = some fields' ∧ ReflectsIn g' o es fields' := by
  induction hway generalizing fields with
  | here => exact hend fields h
  | @step o o₁ o' es sub es' e path mem into rest ih =>
    have htime := rest.time_mem hp
    have hmem : p ∈ e.item.times := into.time_mem htime
    have hothers : ∀ d ∈ es, d.name ≠ e.name → g.SameIn g' o d := fun d hd hname => hseparate.sameIn hsame mem hmem hd hname
    have hbelow {t} := @ih t hp hend (hes.lower mem into.leads) (into.separate mem hseparate)
    cases into with
    | table isTable =>
      have hsub := splits_of_isTable isTable
      obtain ⟨t, ht, hpath⟩ := h.enter hcovered mem hsub
      obtain ⟨t', ht', hreflects⟩ := hbelow ht
      refine ⟨put e.name (.table t') fields, ?_, ?_⟩
      · rw [hpath, ht']
        rfl
      · exact h.put hes.names mem (.inl ⟨p, hmem, hopened⟩) ((reflects_splits hsub).mpr ⟨t', rfl, hreflects⟩) hothers
    | @element i ts n t item enters =>
      have htime := mem_times_of_owner enters.opened.isTable htime
      have hnodup := nodup_times_of_mem hseparate.nodup mem
      rw [item, times_arrayOfTables] at hnodup
      have hthere : (fields.lookup e.name).isSome = true := by
        obtain ⟨p', hp', hopened'⟩ := enters.opened.exists_mem
        exact (h.touched e mem).mpr (.inl ⟨p', times_of_element item enters.mem p' hp', hopened'⟩)
      obtain ⟨v, hv⟩ := Option.isSome_iff_exists.mp hthere
      have hreflects := h.below e mem v hv
      rw [item] at hreflects
      obtain ⟨ds, sub, rfl, rfl, hlast⟩ := hreflects.last enters
      obtain ⟨sub', hsub', hlast'⟩ := hbelow hlast
      -- the header of the element has been met before, or it is the one that is met now
      have hopens : g'.Opens t := by
        obtain ⟨p', hp', hopened'⟩ := enters.opened
        by_cases heq : p' = p
        · exact ⟨p', hp', heq ▸ hopened⟩
        · exact ⟨p', hp', (hsame p' heq).1.mp hopened'⟩
      refine ⟨put e.name (.list (ds ++ [.table sub'])) fields, ?_, ?_⟩
      · rw [atPath, hv]
        simp only [if_true, getLast?_concat, dropLast_concat, hsub', Option.map_some]
      · refine h.put hes.names mem (.inl ⟨p, hmem, hopened⟩) ?_ hothers
        rw [item]
        refine hreflects.replaceLast enters.found hopens (fun m u hu hm p' hp' => hsame p' ?_)
          ((reflects_splits enters.splits).mpr ⟨sub', rfl, hlast'⟩)
        rintro rfl
        exact hm (index_eq_of_mem_times hnodup hu enters.found hp' htime)

end Change

theorem Way.separate (h : Way g o es path o' es') (hes : Separate o es) : Separate o' es' := by
  induction h with
  | here => exact hes
  | step mem into rest ih => exact ih (into.separate mem hes)

theorem Way.orderly (h : Way g o es path o' es') (hes : Orderly es) : Orderly es' := by
  induction h with
  | here => exact hes
  | step mem into rest ih => exact ih (hes.lower mem into.leads)

theorem Item.isTable_of_time? (h : x.time? = some p) : x.isTable = true := by
  cases x with
  | table => rfl
  | _ => cases h

theorem Item.isDotted_of_time? (h : x.time? = some p) : x.isDotted = false := by
  cases x with
  | table i f sub =>
    rw [time?, TableForm.time?] at h
    rw [isDotted]
    cases hf : f.dotted with
    | false => rfl
    | true => rw [hf] at h; cases h
  | _ => cases h

/-- A table with a header opens a body of its own. -/
theorem Owner.enter_of_time? (h : e.item.time? = some p) : o.enter e = some (p, []) := by
  rw [enter, if_neg (by rw [isDotted_of_time? h]; simp), owner, h]
  rfl

/-! ## Uniqueness -/

section Unique

variable {o₁ o₂ : Owner} {es₁ es₂ : List (Entry Item)} {path path' : List String}

theorem Way.split (h : Way g o es (path ++ path') o₂ es₂) :
    ∃ o₁ es₁, Way g o es path o₁ es₁ ∧ Way g o₁ es₁ path' o₂ es₂ := by
  induction path generalizing o es with
  | nil => exact ⟨o, es, .here, h⟩
  | cons k path ih =>
    cases h with
    | step mem into rest =>
      obtain ⟨o₁, es₁, hway, hrest⟩ := ih rest
      exact ⟨o₁, es₁, .step mem into hway, hrest⟩

/-- A way leads to one table only. -/
theorem Way.unique (h₁ : Way g o es path o₁ es₁) (h₂ : Way g o es path o₂ es₂) (hes : Orderly es) :
    o₁ = o₂ ∧ es₁ = es₂ := by
  induction h₁ with
  | here =>
    cases h₂
    exact ⟨rfl, rfl⟩
  | @step o _ o₁ es _ es₁ e path mem into rest ih =>
    generalize hpath : e.name :: path = names at h₂
    cases h₂ with
    | here => cases hpath
    | step mem' into' rest' =>
      obtain ⟨hname, rfl⟩ := cons.inj hpath
      obtain rfl := hes.eq_of_name mem mem' hname
      obtain ⟨rfl, rfl⟩ := into.unique into'
      exact ih rest' (hes.lower mem into.leads)

/-- A way depends only on the headers below the entries where it begins. -/
theorem Route.congr (h : Way g o es path o₁ es₁) (hsame : ∀ p ∈ timesIn es, g.opened p ↔ g'.opened p) :
    Way g' o es path o₁ es₁ := by
  induction h with
  | here => exact .here
  | step mem into rest ih =>
    refine .step mem (into.congr fun p hp => hsame p (mem_timesIn.mpr ⟨_, mem, hp⟩)) (ih fun p hp => hsame p ?_)
    exact mem_timesIn.mpr ⟨_, mem, into.time_mem (.inr hp)⟩

/-- A header that is met does not change the ways into entries beside it. -/
theorem Way.beside (mem : d ∈ es) (into : Onward g.Last o d o₁ es₁) (rest : Way g o₁ es₁ path o₂ es₂) (hp : p ∉ d.item.times) :
    Way (g.open p) o es (d.name :: path) o₂ es₂ := by
  have hsame : ∀ p' ∈ d.item.times, g.opened p' ↔ (g.open p).opened p' := fun p' hp' =>
    (Progress.sameAt_open (ne_of_mem_of_not_mem hp' hp)).1
  exact .step mem (into.congr hsame) (rest.congr fun p' hp' => hsame p' (into.time_mem (.inr hp')))

/-- A header that is met changes only the ways into the array of tables that it adds an element to. -/
theorem Way.opening (target : Way g o es path o₁ es₁) (he : e ∈ es₁) (hp : p ∈ e.item.times)
    (hkind : e.item.time? = some p ∨ e.item.isArrayOfTables = true) (hes : Orderly es) (hseparate : Separate o es)
    (h : Way g o es path' o₂ es₂) (hout : e.item.isArrayOfTables = true → ¬path ++ [e.name] <+: path') :
    Way (g.open p) o es path' o₂ es₂ := by
  induction target generalizing path' with
  | @here o es =>
    cases h with
    | here => exact .here
    | @step _ _ _ _ _ _ d _ mem into rest =>
      by_cases hde : d = e
      · subst hde
        have htime := hkind.resolve_right fun ha => hout ha (by simp)
        -- the header does not stand below itself
        have hnot := (splits_of_isTable (isTable_of_time? htime)).time?_not_mem (nodup_times_of_mem hseparate.nodup mem) htime
        cases into with
        | table isTable =>
          refine .step mem (.table isTable) (rest.congr fun p' hp' => (Progress.sameAt_open ?_).1)
          rintro rfl
          exact hnot hp'
        | element item => rw [item] at htime; cases htime
      · exact .beside mem into rest (not_mem_times_of_ne hseparate.nodup he mem hde hp)
  | @step o _ _ es _ _ e₀ path mem into rest ih =>
    have hend := rest.time_mem (.inr (mem_timesIn.mpr ⟨e, he, hp⟩))
    cases h with
    | here => exact .here
    | @step _ _ _ _ _ _ d _ mem' into' rest' =>
      by_cases hde : d = e₀
      · subst hde
        obtain ⟨rfl, rfl⟩ := into.unique into'
        refine .step mem (into.opening hend (nodup_times_of_mem hseparate.nodup mem))
          (ih he (hes.lower mem into.leads) (into.separate mem hseparate) rest' fun ha hpre => ?_)
        exact hout ha (cons_prefix_cons.mpr ⟨rfl, hpre⟩)
      · exact .beside mem' into' rest' (not_mem_times_of_ne hseparate.nodup mem mem' hde (into.time_mem hend))

end Unique

/-! ## Statements -/

section Statements

variable {root es' : List (Entry Item)} {o' : Owner} {path : List String} {e : Entry Item} {p : Int} {fields : Fields}

/-- The header of a table makes the table, unless it is there already. -/
theorem ReflectsIn.openTable (h : ReflectsIn g o root fields) (hroot : Orderly root) (hseparate : Separate o root)
    (hcovered : g.Covered) (hway : Way g o root path o' es') (he : e ∈ es') (hp : e.item.time? = some p) :
    ∃ fields', fields.atPath true some (path ++ [e.name]) = some fields' ∧ ReflectsIn (g.open p) o root fields' := by
  have htable := isTable_of_time? hp
  have hway' : Way g o root (path ++ [e.name]) (some (p, [])) e.item.entries :=
    hway.append (.step he (.table htable) (Owner.enter_of_time? (o := o') hp ▸ .here))
  refine hway'.change (.inl rfl) (fun p' hp' => Progress.sameAt_open hp') (.inr rfl) hcovered (fun t ht => ?_) hroot hseparate h
  refine ⟨t, rfl, ht.congr fun d hd => ⟨fun p' hp' => Progress.sameAt_open ?_, fun q => Iff.rfl⟩⟩
  rintro rfl
  have hnodup := nodup_times_of_mem (hway.separate hseparate).nodup he
  exact (splits_of_isTable htable).time?_not_mem hnodup hp (mem_timesIn.mpr ⟨d, hd, hp'⟩)

/-- The element of an array of tables whose header comes next. -/
structure Progress.Next (g : Progress) (ts : List Item) (n : Nat) (t : Item) : Prop where
  found : ts[n]? = some t
  earlier : ∀ (m : Nat) u, ts[m]? = some u → m < n → g.Opens u
  later : ∀ (m : Nat) u, ts[m]? = some u → n ≤ m → ∀ p ∈ u.times, ¬g.opened p

/-- The data of an array of tables goes up to the element before the one to be opened. -/
theorem ReflectsIn.elements (h : ReflectsIn g o es fields) (he : e ∈ es) (hitem : e.item = .arrayOfTables i ts)
    (hnext : g.Next ts n t) :
    ∃ ds, ds.length = n ∧ (∀ (m : Nat) u d, ts[m]? = some u → ds[m]? = some d → Reflects g u.owner u d) ∧
      Fields.grow? e.name fields = some (Fields.put e.name (.list (ds ++ [.table []])) fields) := by
  have hn : n < ts.length := (List.getElem?_eq_some_iff.mp hnext.found).1
  cases hlookup : fields.lookup e.name with
  | none =>
    -- an element before would have made the array
    have hzero : n = 0 := by
      refine Nat.eq_zero_of_not_pos fun hpos => ?_
      obtain ⟨u, hu⟩ : ∃ u, ts[0]? = some u := ⟨_, getElem?_eq_getElem (Nat.lt_trans hpos hn)⟩
      obtain ⟨p, hp, hopened⟩ := (hnext.earlier 0 u hu hpos).exists_mem
      have := (h.touched e he).mpr (.inl ⟨p, times_of_element hitem (mem_of_getElem? hu) p hp, hopened⟩)
      rw [hlookup] at this
      cases this
    refine ⟨[], hzero.symm, fun m u d hu hd => by simp at hd, ?_⟩
    rw [Fields.grow?, hlookup, ← Fields.put_of_lookup_eq_none hlookup]
    rfl
  | some v =>
    have hv := h.below e he v hlookup
    rw [hitem] at hv
    obtain ⟨ds, rfl, hne, hbounded, hopened, hbelow⟩ := reflects_arrayOfTables.mp hv
    refine ⟨ds, ?_, hbelow, by rw [Fields.grow?, hlookup]⟩
    rcases Nat.lt_trichotomy ds.length n with hlt | heq | hlt
    · obtain ⟨u, hu⟩ : ∃ u, ts[ds.length]? = some u := ⟨_, getElem?_eq_getElem (Nat.lt_trans hlt hn)⟩
      exact absurd ((hopened _ u hu).mp (hnext.earlier _ u hu hlt)) (Nat.lt_irrefl _)
    · exact heq
    · obtain ⟨p, hp, hopen⟩ := ((hopened n t hnext.found).mpr hlt).exists_mem
      exact absurd hopen (hnext.later n t hnext.found (Nat.le_refl n) p hp)

/-- The header of an element makes one more element, which is empty. -/
theorem ReflectsIn.openElement (h : ReflectsIn g o root fields) (hroot : Orderly root) (hseparate : Separate o root)
    (hcovered : g.Covered) (hway : Way g o root path o' es') (he : e ∈ es') (hitem : e.item = .arrayOfTables i ts)
    (hnext : g.Next ts n t) (hp : t.time? = some p) :
    ∃ fields', fields.atPath true (Fields.grow? e.name) path = some fields' ∧ ReflectsIn (g.open p) o root fields' := by
  obtain ⟨found, hearlier, hlater⟩ := hnext
  have htimes : p ∈ e.item.times := times_of_element hitem (mem_of_getElem? found) p (time?_mem_times hp)
  have hlt := (List.getElem?_eq_some_iff.mp found).1
  have hes' := hway.separate hseparate
  have hnodup := nodup_times_of_mem hes'.nodup he
  rw [hitem, times_arrayOfTables] at hnodup
  have hsame : ∀ p' ≠ p, g.SameAt (g.open p) p' := fun p' hp' => Progress.sameAt_open hp'
  have hother : ∀ (m : Nat) u, ts[m]? = some u → m ≠ n → ∀ p' ∈ u.times, g.SameAt (g.open p) p' := by
    rintro m u hu hm p' hp'
    refine hsame p' ?_
    rintro rfl
    exact hm (index_eq_of_mem_times hnodup hu found hp' (time?_mem_times hp))
  have hopens : (g.open p).Opens t := ⟨p, hp, .inr rfl⟩
  have hsub := splits_of_isTable hopens.isTable
  -- below the new header nothing has been met
  have hempty : ReflectsIn (g.open p) t.owner t.entries [] := by
    refine reflectsIn_nil fun d hd => ?_
    rintro (⟨p', hp', hopened⟩ | ⟨q, c, hq, hline⟩)
    · have hmem := mem_timesIn.mpr ⟨d, hd, hp'⟩
      rcases hopened with hopened | rfl
      · exact hlater n t found (Nat.le_refl n) p' (hsub.times p' hmem) hopened
      · exact hsub.time?_not_mem ((nodup_flatMap.mp hnodup).1 t (mem_of_getElem? found)) hp hmem
    · rw [owner, hp] at hline
      exact hlater n t found (Nat.le_refl n) p (time?_mem_times hp) (hcovered p _ hline)
  refine hway.change (.inr (mem_timesIn.mpr ⟨e, he, htimes⟩)) hsame (.inr rfl) hcovered (fun fs hfs => ?_) hroot hseparate h
  obtain ⟨ds, rfl, hbelow, hgrow⟩ := hfs.elements he hitem ⟨found, hearlier, hlater⟩
  refine ⟨_, hgrow, hfs.put (hway.orderly hroot).names he (.inl ⟨p, htimes, .inr rfl⟩) ?_
    fun d hd hname => hes'.sameIn hsame he htimes hd hname⟩
  rw [hitem]
  refine reflects_arrayOfTables.mpr ⟨_, rfl, by simp, by rw [length_append]; exact hlt, fun m u hu => ?_,
    fun m u d hu hd => ?_⟩
  · rw [length_append, length_singleton, Nat.lt_succ_iff]
    rcases Nat.lt_trichotomy m ds.length with hm | hm | hm
    · refine iff_of_true ?_ (Nat.le_of_lt hm)
      exact (Progress.opens_congr (hother m u hu (Nat.ne_of_lt hm))).mp (hearlier m u hu hm)
    · obtain rfl : u = t := Option.some.inj (hu.symm.trans (hm ▸ found))
      exact iff_of_true hopens (Nat.le_of_eq hm)
    · refine iff_of_false (fun hopened => ?_) (Nat.not_le_of_lt hm)
      obtain ⟨p', hp', hopened⟩ := ((Progress.opens_congr (hother m u hu (Nat.ne_of_gt hm))).mpr hopened).exists_mem
      exact hlater m u hu (Nat.le_of_lt hm) p' hp' hopened
  · rcases Nat.lt_trichotomy m ds.length with hm | hm | hm
    · rw [List.getElem?_append_left hm] at hd
      have := hother m u hu (Nat.ne_of_lt hm)
      exact (hbelow m u d hu hd).congr this (Progress.line_owner this)
    · obtain rfl : u = t := Option.some.inj (hu.symm.trans (hm ▸ found))
      obtain rfl : .table [] = d := by simpa [hm] using hd
      exact (reflects_splits hsub).mpr ⟨[], rfl, hempty⟩
    · have := (List.getElem?_eq_some_iff.mp hd).1
      rw [length_append, length_singleton] at this
      omega

/-- The line of a value adds the value to the table of its header. -/
theorem ReflectsIn.sayLine (h : ReflectsIn g o root fields) (hroot : Orderly root) (hseparate : Separate o root)
    (hcovered : g.Covered) (hopened : g.opened p) (hway : Way g o root path (some (p, [])) es') (hq : BodyPath es' q d)
    (hnew : ¬g.spoken p q) (hw : Data.Same w d.item.unwrap) :
    ∃ fields', fields.atPath true (add? (q.getLastD "") w) (path ++ q.dropLast) = some fields' ∧
      ReflectsIn (g.say p q) o root fields' := by
  rw [atPath_append]
  refine hway.change (.inl rfl) (fun p' hp' => Progress.sameAt_say hp' q) hopened hcovered (fun t ht => ?_) hroot hseparate h
  rw [hq.getLastD_eq]
  exact hq.add (hway.orderly hroot) ((hway.separate hseparate).owner _ rfl) hnew hcovered hw ht true

/-- Something is held at the end of a way only if it has been met there. -/
theorem ReflectsIn.touches_of_holds (h : ReflectsIn g o es fields) (hway : Way g o es path o' es') (he : e ∈ es')
    (hholds : holds (path ++ [e.name]) fields = true) : g.Touches o' e := by
  induction hway generalizing fields with
  | here =>
    refine (h.touched e he).mp ?_
    rw [nil_append, holds] at hholds
    cases hlookup : fields.lookup e.name with
    | none => rw [hlookup] at hholds; cases hholds
    | some v => rfl
  | @step o _ o' es _ es' d path mem into rest ih =>
    rw [cons_append, holds] at hholds
    cases hlookup : fields.lookup d.name with
    | none => rw [hlookup] at hholds; cases hholds
    | some v =>
      rw [hlookup] at hholds
      have hv := h.below d mem v hlookup
      cases into with
      | table isTable =>
        obtain ⟨t, rfl, ht⟩ := (reflects_splits (splits_of_isTable isTable)).mp hv
        exact ih ht he hholds
      | element item enters =>
        rw [item] at hv
        obtain ⟨ds, sub, rfl, -, hsub⟩ := hv.last enters
        refine ih hsub he ?_
        simpa only [tableAhead, getLast?_concat] using hholds

end Statements

end Verbatim

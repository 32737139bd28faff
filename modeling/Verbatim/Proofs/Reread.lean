import Verbatim.Proofs.EditRun
import Verbatim.Proofs.Passing
import Verbatim.Proofs.Renumbering

/-!
# Documents built by edits

A document that edits build from nothing has no text and no numbers of its own. Its tables are written in the order in which a
walk from the root meets them, as they would be if they were numbered in that order; and with such numbers the tree can be read
back. Both readers have a limit of their own, beyond the chosen one, to how deep arrays and inline tables nest.

## Main statements

- `Item.Composed.rereadable`: with numbers a composed tree can be read back, and it is written as before.
- `edits_read_back`: the text of a document after any simple edits is read back.
- `deep_edit_refused`: this is not so for values nested beyond the readers' own limit.
- `accepted_separator_reads_back`: it is read back with every separator that has no return on its own.
-/

namespace Verbatim

open List hiding sections
open DataReader Render Item

namespace Item

variable {source : Option (List Char)} {limit levels : Nat} {path : List Key} {o : Owner}

/-! ## Edits -/

/-- A new item: it remembers nothing, it has the form of composed trees, and it is no root. -/
structure NewComposed (x : Item) : Prop where
  stripped : x.stripped = x
  composed : Composed x
  role : x.role ≠ .root

theorem role_of_isValue {x : Item} (h : x.isValue = true) : x.role = .value := by
  cases x <;> first | rfl | cases h

theorem role_of_isTable {x : Item} (h : x.isTable = true) (hx : x.role ≠ .root) : x.role = .table := by
  cases x <;> simp_all [isTable, role]

/-- Simple data becomes new items. -/
theorem convertible_newComposed : Convertible (fun _ => False) NewComposed NewComposed Data.SimpleScalar where
  kept _ hx := hx.elim
  copied _ hx := hx.elim
  replacing _ _ hold hnew := by rwa [hold.composed.replacing_eq hnew.composed]
  scalar _ _ hvalue := ⟨rfl, .scalar hvalue, nofun⟩
  array vs h := ⟨convertible_new.array vs fun v hv => ⟨(h v hv).1.stripped, (h v hv).2⟩,
    .array (fun v hv => role_of_isValue (h v hv).2) fun v hv => (h v hv).1.composed, nofun⟩
  inlineTable es hnew h := ⟨convertible_new.inlineTable es hnew fun e he => ⟨(h e he).1.stripped, (h e he).2⟩,
    .inlineTable hnew (fun e he => role_of_isValue (h e he).2) fun e he => (h e he).1.composed, nofun⟩
  table es hnew h := ⟨convertible_new.table es hnew fun e he => (h e he).stripped,
    .table (by simp) hnew (fun e he => (h e he).role) fun e he => (h e he).composed, nofun⟩
  arrayOfTables ts hfilled h := ⟨convertible_new.arrayOfTables ts hfilled fun t ht => ⟨(h t ht).1.stripped, (h t ht).2⟩,
    .arrayOfTables hfilled (fun t ht => role_of_isTable (h t ht).2 (h t ht).1.role) fun t ht => (h t ht).1.composed, nofun⟩

/-- A change with new items keeps the role of an item and the form of composed trees. -/
theorem Change.composed {x x' : Item} (h : Change NewComposed x x') : x'.role = x.role ∧ (Composed x → Composed x') := by
  cases h with
  | place name y hx hy hvalue =>
    have hplaced : ∀ (p : Item → Prop) {es : List (Entry Item)}, (∀ e ∈ es, Composed e.item) → (∀ e ∈ es, p e.item) → p y →
        ∀ e ∈ Item.place name y es, p e.item := by
      intro p es hcomposed hes hp e he
      rcases mem_place hcomposed hy.composed he with heq | he
      · rwa [heq]
      · exact hes e he
    cases x with
    | table i f es =>
      refine ⟨rfl, ?_⟩
      rintro (_ | _ | _ | ⟨first, entries, roles, members⟩ | _)
      exact .table first entries.place (hplaced (·.role ≠ .root) members roles hy.role) (hplaced _ members members hy.composed)
    | inlineTable i f es =>
      refine ⟨rfl, ?_⟩
      rintro (_ | _ | ⟨entries, roles, members⟩ | _ | _)
      exact .inlineTable entries.place (hplaced (·.role = .value) members roles (role_of_isValue (hvalue rfl)))
        (hplaced _ members members hy.composed)
    | _ => cases hx
  | erase name =>
    have hkept : ∀ (p : Item → Prop) {es : List (Entry Item)}, (∀ e ∈ es, p e.item) → ∀ e ∈ eraseEntry name es, p e.item :=
      fun _ _ hes e he => hes e (mem_filter.mp he).1
    cases x with
    | table i f es =>
      refine ⟨rfl, ?_⟩
      rintro (_ | _ | _ | ⟨first, entries, roles, members⟩ | _)
      exact .table first (entries.eraseEntry name) (hkept (·.role ≠ .root) roles) (hkept _ members)
    | inlineTable i f es =>
      refine ⟨rfl, ?_⟩
      rintro (_ | _ | ⟨entries, roles, members⟩ | _ | _)
      exact .inlineTable (entries.eraseEntry name) (hkept (·.role = .value) roles) (hkept _ members)
    | _ => exact ⟨rfl, id⟩
  | append y hy hkind =>
    have happended : ∀ {p : Item → Prop} {xs : List Item}, (∀ x ∈ xs, p x) → p y → ∀ x ∈ xs ++ [y], p x :=
      fun hxs hp => forall_mem_append.mpr ⟨hxs, forall_mem_singleton.mpr hp⟩
    cases x with
    | array i f vs =>
      refine ⟨rfl, ?_⟩
      rintro (_ | ⟨roles, members⟩ | _ | _ | _)
      exact .array (happended roles (role_of_isValue hkind)) (happended members hy.composed)
    | arrayOfTables i ts =>
      refine ⟨rfl, ?_⟩
      rintro (_ | _ | _ | _ | ⟨filled, roles, members⟩)
      exact .arrayOfTables (by simp [elements?]) (happended roles (role_of_isTable hkind hy.role))
        (happended members hy.composed)
    | _ => exact ⟨rfl, id⟩

theorem NewEntries.replace (h : NewEntries (pre ++ e :: post)) (x : Item) :
    NewEntries (pre ++ { e with item := x } :: post) := by
  have hplain := h.plain
  refine ⟨?_, by simpa [Entry.name] using h.distinct⟩
  simp only [forall_mem_append, forall_mem_cons] at hplain ⊢
  exact ⟨hplain.1, by rw [hplain.2.1]; rfl, hplain.2.2⟩

/-- Another item of the same role in one place. -/
theorem Replaced.composed (h : Replaced y z x x') (hyz : z.role = y.role ∧ (Composed y → Composed z)) :
    x'.role = x.role ∧ (Composed x → Composed x') := by
  induction h with
  | here => exact hyz
  | array _ ih =>
    refine ⟨rfl, ?_⟩
    rintro (_ | ⟨roles, members⟩ | _ | _ | _)
    simp only [forall_mem_append, forall_mem_cons] at roles members
    refine .array ?_ ?_ <;> simp only [forall_mem_append, forall_mem_cons]
    · exact ⟨roles.1, ih.1.trans roles.2.1, roles.2.2⟩
    · exact ⟨members.1, ih.2 members.2.1, members.2.2⟩
  | inlineTable _ ih =>
    refine ⟨rfl, ?_⟩
    rintro (_ | _ | ⟨entries, roles, members⟩ | _ | _)
    simp only [forall_mem_append, forall_mem_cons] at roles members
    refine .inlineTable (entries.replace _) ?_ ?_ <;> simp only [forall_mem_append, forall_mem_cons]
    · exact ⟨roles.1, ih.1.trans roles.2.1, roles.2.2⟩
    · exact ⟨members.1, ih.2 members.2.1, members.2.2⟩
  | table _ ih =>
    refine ⟨rfl, ?_⟩
    rintro (_ | _ | _ | ⟨first, entries, roles, members⟩ | _)
    simp only [forall_mem_append, forall_mem_cons] at roles members
    refine .table first (entries.replace _) ?_ ?_ <;> simp only [forall_mem_append, forall_mem_cons]
    · exact ⟨roles.1, ih.1 ▸ roles.2.1, roles.2.2⟩
    · exact ⟨members.1, ih.2 members.2.1, members.2.2⟩
  | arrayOfTables _ ih =>
    refine ⟨rfl, ?_⟩
    rintro (_ | _ | _ | _ | ⟨filled, roles, members⟩)
    simp only [forall_mem_append, forall_mem_cons] at roles members
    refine .arrayOfTables (by simp) ?_ ?_ <;> simp only [forall_mem_append, forall_mem_cons]
    · exact ⟨roles.1, ih.1.trans roles.2.1, roles.2.2⟩
    · exact ⟨members.1, ih.2 members.2.1, members.2.2⟩

theorem NewEntries.of_stripped (h : NewEntries (es.map strippedEntry)) : NewEntries es := by
  refine ⟨fun e he => ?_, by simpa [Function.comp_def] using h.distinct⟩
  have hplain := h.plain _ (mem_map_of_mem he)
  obtain ⟨k, x, p, n, l⟩ := e
  simpa [strippedEntry, Entry.name] using hplain

theorem role_stripped (x : Item) : x.stripped.role = x.role := by
  cases x <;> rfl

/-- What items remember does not matter to the form of composed trees. -/
theorem Composed.of_stripped (h : Composed x.stripped) : Composed x := by
  induction x using inductionOn with
  | scalar i s =>
    rw [stripped_eq] at h
    rcases h with ⟨simple⟩
    exact .scalar simple
  | array i f vs ih =>
    rw [stripped_eq] at h
    rcases h with _ | ⟨roles, members⟩
    rw [forall_mem_map] at roles members
    exact .array (fun v hv => role_stripped v ▸ roles v hv) fun v hv => ih v hv (members v hv)
  | inlineTable i f es ih =>
    rw [stripped_eq] at h
    rcases h with _ | _ | ⟨entries, roles, members⟩
    rw [forall_mem_map] at roles members
    exact .inlineTable (.of_stripped entries) (fun e he => role_stripped e.item ▸ roles e he) fun e he => ih e he (members e he)
  | table i f es ih =>
    rw [stripped_eq] at h
    rcases h with _ | _ | _ | ⟨first, entries, roles, members⟩
    rw [forall_mem_map] at roles members
    exact .table first (.of_stripped entries) (fun e he => role_stripped e.item ▸ roles e he) fun e he => ih e he (members e he)
  | arrayOfTables i ts ih =>
    rw [stripped_eq] at h
    rcases h with _ | _ | _ | _ | ⟨filled, roles, members⟩
    rw [forall_mem_map] at roles members
    exact .arrayOfTables (by simpa using filled) (fun t ht => role_stripped t ▸ roles t ht) fun t ht => ih t ht (members t ht)

/-! ## Values -/

/-- A composed value is legible where it is not nested too deep. -/
theorem Composed.valueLegible (h : Composed x) (hx : x.role = .value) (hlimit : x.nesting ≤ limit)
    (hlevels : x.nesting ≤ levels) : ValueLegible source none limit levels x := by
  have hdecor : ∀ {y : Item} {lead tail : List Char → Prop}, Composed y → y.role = .value →
      ∀ d ∈ y.decor?, d.Legible source lead tail := by
    rintro y lead tail hy hrole d hd
    rw [hy.decor?_of_value hrole] at hd
    cases hd
    exact Decor.legible_empty
  induction h generalizing limit levels with
  | scalar simple => exact .scalar simple
  | @array i vs roles members ih =>
    rw [nesting] at hlimit hlevels
    obtain ⟨limit, rfl⟩ := Nat.exists_eq_add_one_of_ne_zero (show limit ≠ 0 by omega)
    refine .array (fun _ => by omega) (fun x hx => hdecor (members x hx) (roles x hx)) ⟨[], rfl, Trivia.nil⟩ fun x hx => ?_
    have := nesting_le_each hx
    exact ih x hx (roles x hx) (by omega) (by omega)
  | @inlineTable i es entries roles members ih =>
    rw [nesting] at hlimit hlevels
    obtain ⟨limit, rfl⟩ := Nat.exists_eq_add_one_of_ne_zero (show limit ≠ 0 by omega)
    refine .inlineTable rfl (fun _ => by omega) ⟨[], rfl, Blanks.nil⟩ ⟨entries.distinct, forall_mem_nil _, fun e he => ?_⟩
      fun e he => ?_
    · refine ⟨?_, hdecor (members e he) (roles e he)⟩
      rw [entries.plain e he]
      exact entryLegible_bare (keys_legible_new (forall_mem_nil _) e.name)
    · have := nesting_le_entries he
      rw [Entry.below, (members e he).not_dotted]
      exact ih e he (roles e he) (by omega) (by omega)
  | table first entries roles members =>
    simp only [role] at hx
    split at hx <;> cases hx
  | arrayOfTables filled roles members => cases hx

/-! ## Numbers -/

/-- Numbers that go up, from one number on and below another one. -/
structure Ascends (ps : List Int) (n m : Int) : Prop where
  le : n ≤ m
  within : ∀ p ∈ ps, n ≤ p ∧ p < m
  sorted : ps.Pairwise (· < ·)

theorem ascends_nil (n : Int) : Ascends [] n n := ⟨Int.le_refl n, forall_mem_nil _, .nil⟩

theorem Ascends.cons (h : Ascends ps (n + 1) m) : Ascends (n :: ps) n m := by
  have hle := h.le
  refine ⟨by omega, forall_mem_cons.mpr ⟨by omega, fun p hp => ?_⟩, pairwise_cons.mpr ⟨fun p hp => ?_, h.sorted⟩⟩ <;>
    have := h.within p hp <;> omega

theorem Ascends.append (h : Ascends ps n m) (h' : Ascends qs m k) : Ascends (ps ++ qs) n k := by
  have hle := h.le
  have hle' := h'.le
  refine ⟨by omega, forall_mem_append.mpr ⟨fun p hp => ?_, fun p hp => ?_⟩,
    pairwise_append.mpr ⟨h.sorted, h'.sorted, fun p hp q hq => ?_⟩⟩
  · have := h.within p hp
    omega
  · have := h'.within p hp
    omega
  · have := h.within p hp
    have := h'.within q hq
    omega

/-- The tables of an item can be numbered from any number on so that it can be read back under any name. -/
def Numbers (source : Option (List Char)) (limit : Nat) (x : Item) : Prop :=
  ∀ {path : List Key} {o : Owner} (name : String) (n : Int), (∀ k ∈ path, k.Legible source Blanks) → o ≠ none →
    ∃ x' m, x'.unplaced = x.unplaced ∧ Ascends x'.times n m ∧
      Settled source limit path [] o [{ key := { name }, item := x' }] ∧
      (x.isTable = true → SettledElement source limit (path ++ [({ name } : Key)]) x')

theorem numbers_entries (hes : NewEntries es) (h : ∀ e ∈ es, Numbers source limit e.item)
    (hpath : ∀ k ∈ path, k.Legible source Blanks) (ho : o ≠ none) (n : Int) :
    ∃ es' m, es'.map (unplacedEntry) = es.map (unplacedEntry) ∧ Ascends (timesIn es') n m ∧
      Settled source limit path [] o es' := by
  have hentries : ∃ es' m, es'.map (unplacedEntry) = es.map (unplacedEntry) ∧
      Ascends (timesIn es') n m ∧ ∀ e ∈ es', Settled source limit path [] o [e] := by
    have hplain := hes.plain
    clear hes
    induction es generalizing n with
    | nil => exact ⟨[], n, rfl, ascends_nil n, forall_mem_nil _⟩
    | cons e es ih =>
      obtain ⟨he, hes⟩ := forall_mem_cons.mp h
      obtain ⟨hbare, hplain⟩ := forall_mem_cons.mp hplain
      obtain ⟨x', m, halike, htimes, hsettled, -⟩ := he e.name n hpath ho
      obtain ⟨es', m', halikes, htimes', hsettled'⟩ := ih hes m hplain
      refine ⟨{ key := { name := e.name }, item := x' } :: es', m', ?_, ?_, forall_mem_cons.mpr ⟨hsettled, hsettled'⟩⟩
      · have hentry : unplacedEntry { key := { name := e.name }, item := x' } =
            unplacedEntry e := by
          rw [hbare]
          exact congrArg (fun x => ({ key := { name := e.name }, item := x } : Entry Item)) halike
        rw [map_cons, map_cons, halikes, hentry]
      · rw [timesIn_cons]
        exact htimes.append htimes'
  obtain ⟨es', m, halike, htimes, hsettled⟩ := hentries
  have hnames : es'.map Entry.name = es.map Entry.name := by
    have := congrArg (List.map Entry.name) halike
    rwa [map_map, map_map] at this
  exact ⟨es', m, halike, htimes, .of_entries hpath (forall_mem_nil _) (hnames ▸ hes.distinct) hsettled⟩

theorem numbers_value (h : ValueLegible source none limit nestingLevels x) (hdecor : x.decor? = some {}) :
    Numbers source limit x := by
  intro path o name n hpath ho
  have htimes := times_of_isValue h.isValue
  refine ⟨x, n, rfl, by rw [htimes]; exact ascends_nil n, ?_, fun htable => ?_⟩
  · refine settled_value hpath (forall_mem_nil _) ((entryLegible_bare (keys_legible_new (forall_mem_nil _) name)).imp
      fun _ => Blanks.trivia) (fun d hd => ?_) h ho
    rw [hdecor] at hd
    cases hd
    exact Decor.legible_empty
  · have hv := h.isValue
    cases x with
    | table => cases hv
    | _ => cases htable

/-- The tables of an array of tables, one after the other. -/
private theorem numbers_elements {ts : List Item} (h : ∀ t ∈ ts, t.isTable = true ∧ Numbers source limit t)
    (hpath : ∀ k ∈ path, k.Legible source Blanks) (name : String) (n : Int) :
    ∃ (ts' : List Item) (m : Int), ts'.map unplaced = ts.map unplaced ∧ Ascends (ts'.flatMap times) n m ∧
      ∀ t ∈ ts', SettledElement source limit (path ++ [({ name } : Key)]) t := by
  induction ts generalizing n with
  | nil => exact ⟨[], n, rfl, ascends_nil n, forall_mem_nil _⟩
  | cons t ts ih =>
    obtain ⟨⟨htable, ht⟩, hts⟩ := forall_mem_cons.mp h
    obtain ⟨t', m, halike, htimes, -, helement⟩ := ht name n hpath (o := home) (by simp [home])
    obtain ⟨ts', m', halikes, htimes', helements⟩ := ih hts m
    refine ⟨t' :: ts', m', by rw [map_cons, map_cons, halike, halikes], ?_,
      forall_mem_cons.mpr ⟨helement htable, helements⟩⟩
    rw [flatMap_cons]
    exact htimes.append htimes'

/-- A composed item can be numbered where it is not nested too deep. -/
theorem Composed.numbers {x : Item} (h : Composed x) (hx : x.role ≠ .root) (hlimit : x.nesting ≤ limit)
    (hlevels : x.nesting ≤ nestingLevels) : Numbers source limit x := by
  induction h with
  | scalar simple => exact numbers_value ((Composed.scalar simple).valueLegible rfl hlimit hlevels) rfl
  | array roles members => exact numbers_value ((Composed.array roles members).valueLegible rfl hlimit hlevels) rfl
  | inlineTable entries roles members =>
    exact numbers_value ((Composed.inlineTable entries roles members).valueLegible rfl hlimit hlevels) rfl
  | @table i place es first entries roles members ih =>
    obtain rfl : place = none := by
      cases place with
      | none => rfl
      | some p => exact absurd rfl hx
    rw [nesting] at hlimit hlevels
    have hmembers : ∀ e ∈ es, Numbers source limit e.item := fun e he =>
      ih e he (roles e he) (Nat.le_trans (nesting_le_entries he) hlimit) (Nat.le_trans (nesting_le_entries he) hlevels)
    intro path o name n hpath ho
    have hkey := keys_legible_new hpath name
    obtain ⟨es', m, halike, htimes, hsettled⟩ := numbers_entries entries hmembers hkey (o := some (n, [])) (by simp) (n + 1)
    have hheader : HeaderLegible source (path ++ [({ name } : Key)]) { position := some n } :=
      ⟨by simp, pathLegible_of_forall hkey, by rintro ks ⟨⟩, Decor.legible_empty, by rintro s ⟨⟩⟩
    have hfirst : ∀ p ∈ timesIn es', n < p := fun p hp => by
      have := (htimes.within p hp).1
      omega
    refine ⟨.table i { position := some n } es', m, ?_, ?_, ?_, fun _ => .intro rfl hheader hfirst hsettled⟩
    · simp only [unplaced, unplacedEntries_eq, halike, TableForm.unplaced, Bool.false_and]
    · rw [times_table]
      exact htimes.cons
    · exact settled_table hpath (forall_mem_nil _)
        ((entryLegible_bare (keys_legible_new (forall_mem_nil _) name)).imp fun _ => Blanks.trivia)
        (Key.legible_new name _) rfl (fun _ => hheader) (.inr (.inr rfl)) (by rintro ⟨⟩) (by rintro ⟨⟩) hsettled
  | @arrayOfTables i ts filled roles members ih =>
    rw [nesting] at hlimit hlevels
    have htables : ∀ t ∈ ts, t.isTable = true ∧ Numbers source limit t := by
      intro t ht
      have hrole := roles t ht
      refine ⟨?_, ih t ht (by rw [hrole]; decide) (Nat.le_trans (nesting_le_each ht) hlimit)
        (Nat.le_trans (nesting_le_each ht) hlevels)⟩
      cases t <;> first | rfl | cases hrole
    intro path o name n hpath ho
    obtain ⟨ts', m, halike, htimes, helements⟩ := numbers_elements htables hpath name n
    refine ⟨.arrayOfTables i ts', m, ?_, ?_, ?_, by rintro ⟨⟩⟩
    · simp only [unplaced, unplacedEach_eq]
      exact congrArg _ halike
    · rw [times_arrayOfTables]
      exact htimes
    · refine settled_arrayOfTables hpath (forall_mem_nil _)
        ((entryLegible_bare (keys_legible_new (forall_mem_nil _) name)).imp fun _ => Blanks.trivia)
        (Key.legible_new name _) rfl ?_ helements (pairwise_flatMap.mp htimes.sorted).2
      rintro rfl
      exact filled (map_eq_nil_iff.mp halike.symm)

/-! ## The order of writing -/

/-- All tables of a composed tree are written with the number of the root. -/
theorem Composed.number_zero (h : Composed x) (path : List Key) (isArray isRoot : Bool) :
    ∀ t ∈ sectionsIn path isArray isRoot x, t.number.getD 0 = 0 := by
  induction h generalizing path isArray isRoot with
  | @table i place es first entries roles members ih =>
    rw [sectionsIn, sectionsBelow_eq, forall_mem_cons, forall_mem_flatMap]
    refine ⟨?_, fun e he => ih e he _ _ _⟩
    cases place with
    | none => rfl
    | some p => exact first p rfl
  | @arrayOfTables i ts filled roles members ih =>
    rw [sectionsIn, sectionsEach_eq, forall_mem_flatMap]
    exact fun t ht => ih t ht _ _ _
  | _ => exact forall_mem_nil _

private theorem pairwise_zip {α β : Type} {R : β → β → Prop} (xs : List α) {ys : List β} (h : ys.Pairwise R) :
    (xs.zip ys).Pairwise fun a b => R a.2 b.2 := by
  induction xs generalizing ys with
  | nil => exact .nil
  | cons x xs ih =>
    cases h with
    | nil => exact .nil
    | cons hy hys => exact .cons (fun z hz => hy _ (of_mem_zip hz).2) (ih hys)

theorem Composed.exists_root (h : Composed x) (hx : x.role = .root) : ∃ i es, x = .table i { position := some 0 } es := by
  cases h with
  | @table i place es first entries roles members =>
    cases place with
    | none => cases hx
    | some p =>
      obtain rfl := first p rfl
      exact ⟨i, es, rfl⟩
  | _ => cases hx

/-- A composed tree is written like one that can be read back, with the same data. -/
theorem Composed.rereadable {i : Info} {es : List (Entry Item)} (h : Composed (.table i { position := some 0 } es))
    (hlimit : nestingEntries es ≤ limit) (hlevels : nestingEntries es ≤ nestingLevels) :
    ∃ es', Rereadable source limit es' ∧ unwrapFields es' = unwrapFields es ∧ ∀ layout trailing,
      renderTree layout source (.table i { position := some 0 } es) trailing =
        renderTree layout source (.table i { position := some 0 } es') trailing := by
  have hnumber := h.number_zero [] false true
  cases h with
  | table first entries roles members =>
    obtain ⟨es', m, halike, htimes, hsettled⟩ := numbers_entries (o := home) entries
      (fun e he => @Composed.numbers source limit _ (members e he) (roles e he) (Nat.le_trans (nesting_le_entries he) hlimit)
        (Nat.le_trans (nesting_le_entries he) hlevels)) (forall_mem_nil _) (by simp [home]) 1
    have hpositive : ∀ p ∈ timesIn es', 0 < p := fun p hp => Int.lt_of_lt_of_le Int.zero_lt_one (htimes.within p hp).1
    have hreread : Rereadable source limit es' :=
      ⟨hsettled.legible, hsettled.orderly, ⟨htimes.sorted.imp Int.ne_of_lt, by
        rintro b ⟨⟩ hmem
        exact Int.lt_irrefl 0 (hpositive 0 hmem)⟩, hsettled.arranged, hpositive⟩
    refine ⟨es', hreread, ?_, fun layout trailing => ?_⟩
    · have := congrArg (List.map fun e => (e.name, e.item.unwrap)) halike
      simpa [Function.comp_def, unplacedEntry, Entry.name] using this
    · -- the numbers of the tree are all the same, and the new ones go up
      have hzero : ∀ z ∈ (entrySections [] 0 es).1.zip (entrySections [] 0 es').1, z.1.1 = 0 := by
        intro z hz
        have hmem := (of_mem_zip hz).1
        rw [entrySections_eq] at hmem
        exact fst_of_mem_numbered (fun t ht => hnumber t (mem_cons_of_mem _ ht)) _ hmem
      have hsorted := htimes.sorted
      rw [← hreread.times_eq 0, pairwise_map, pairwise_filter] at hsorted
      refine hreread.renderTree_eq halike.symm (fun z hz _ => Int.le_of_eq (hzero z hz).symm)
        ((pairwise_zip _ hsorted).imp_of_mem fun {a b} ha hb hlt hheader hheader' => ?_) i rfl layout trailing
      rw [hzero a ha, hzero b hb]
      exact iff_of_true (Int.le_refl 0) (Int.le_of_lt (hlt hheader hheader'))

end Item

namespace Workspace

variable {w : Workspace} {d : Document}

/-- A workspace with one document, whose tree has the form of composed trees. -/
structure Composing (w : Workspace) (d : Document) : Prop where
  /-- There is no other document. -/
  single : Single w d
  /-- The tree has the form of composed trees. -/
  form : d.root.stripped.Composed
  root : d.root.role = .root
  /-- The document has no text but that of its tree. -/
  bare : d.trailing = .empty ∧ d.source = none

theorem composing_create : ∃ d, Composing (({} : Workspace).create "main" true) d := by
  obtain ⟨root, hsingle, hroot⟩ := single_create
  have hempty : Composed emptyRoot.stripped := .table (by simp) ⟨by simp, by simp⟩ (by simp) (by simp)
  exact ⟨_, hsingle, hroot ▸ hempty, by rw [← role_stripped, hroot]; rfl, rfl, rfl⟩

theorem Composing.composed (h : Composing w d) : d.root.Composed := .of_stripped h.form

/-- Any sequence of edits with simple data keeps the form of composed trees. -/
theorem Composing.edited (h : Composing w d) {es : List Edit} (hes : ∀ e ∈ es, e.Simple) :
    ∃ d', Composing (w.edited es) d' := by
  have hstep : ∀ x path y y', x.role = .root ∧ Composed x → x.follow path = .ok y → y.Change NewComposed y' →
      (x.replaceAt path y').role = .root ∧ Composed (x.replaceAt path y') := by
    intro x path y y' hx hfollow hchange
    obtain ⟨hrole, hcomposed⟩ := (replaced_replaceAt hfollow).composed hchange.composed
    exact ⟨hrole.trans hx.1, hcomposed hx.2⟩
  have hbrings : ∀ e ∈ es, e.Brings NewComposed := by
    intro e he
    have hsimple := hes e he
    cases e <;> first | exact convertible_newComposed.brings (Data.Simple.carries hsimple) (Data.Simple.writes hsimple) | trivial
  obtain ⟨root, hsingle, hroot, hcomposed⟩ :=
    h.single.edited_of_brings (fun y hy => hy.stripped) hstep hbrings ⟨(role_stripped _).trans h.root, h.form⟩
  exact ⟨_, hsingle, hcomposed, (role_stripped root).symm.trans hroot, h.bare⟩

theorem Composing.slot (h : Composing w d) : w.slot "main" = .ok { content := .document d } := by
  rw [Workspace.slot, h.single.documents]
  rfl

end Workspace

/-- A document of composed form is written as a text that is read back. -/
theorem parses_of_composing {w : Workspace} {d : Document} (h : w.Composing d) {layout : Layout}
    (hnewline : layout.newline = "\n" ∨ layout.newline = "\r\n") (hseparator : Trivia layout.separator.toList)
    {options : ReadOptions} (hlimit : d.root.nesting ≤ options.maxNesting) (hlevels : d.root.nesting ≤ openLevels) :
    ∃ text s, d.render layout = .ok text ∧ parse options (.text text) = .ok s ∧ Data.Same s.root.unwrap d.root.unwrap := by
  obtain ⟨i, es, hroot⟩ := h.composed.exists_root h.root
  rw [hroot, nesting] at hlimit hlevels
  have hcomposed := h.composed
  rw [hroot] at hcomposed
  obtain ⟨es', hreread, hdata, hrender⟩ := @Composed.rereadable none _ _ _ hcomposed hlimit hlevels
  have hterminator : IsNewline layout.newline.toList := by
    rcases hnewline with h | h <;> rw [h]
    · exact .inl rfl
    · exact .inr rfl
  have htrailing : ∀ t ∈ some SpanText.empty, t.Shows none Tail := by
    rintro t ⟨⟩
    exact ⟨[], rfl, Trivia.nil.tail⟩
  obtain ⟨text, s, htext, hs, hsame⟩ := hreread.parses hterminator hseparator i (f := { position := some 0 }) rfl htrailing
  refine ⟨text, s, ?_, hs, ?_⟩
  · rw [Document.render, h.bare.1, h.bare.2, hroot, ← htext]
    exact hrender layout (some .empty)
  · rw [hroot, unwrap, ← hdata]
    exact hsame

theorem trivia_newline : Trivia "\n".toList := Tail.trivia (t := []) Trivia.nil.tail (.inl rfl)

/-- Edits that make an array of tables with arrays and a table in it, and take something back. -/
def serverEdits : List Workspace.Edit :=
  [.assign {} "servers" (.list [.table [("na me", .string "\n\"#"), ("ports", .list [.integer 80, .list []])]]),
    .append { path := [.name "servers"] } (.table [("on", .boolean true)]),
    .setDefault { path := [.name "servers", .position 0] } "zone" (.table [("x.y", .integer (-1))]),
    .assign { path := [.name "servers", .position 0, .name "zone"] } "" (.list [.table [("k", .string "")]]),
    .append { path := [.name "servers", .position 0, .name "ports"] } (.table [("k", .boolean false)]),
    .assign {} "title" (.string "t"), .pop {} "none" none, .erase { path := [.name "servers", .position 1] } "on"]

private theorem simple_cons (hd : d.Simple) (hds : Data.Simple (.list ds)) : Data.Simple (.list (d :: ds)) := by
  cases hds with
  | list members => exact .list (forall_mem_cons.mpr ⟨hd, members⟩)

private theorem simple_field (hd : d.Simple) : Data.Simple (.table [(name, d)]) :=
  .table (by simpa using hd)

private theorem simple_nil : Data.Simple (.list []) := .list (by simp)

private theorem simple_serverEdits : ∀ e ∈ serverEdits, e.Simple := by
  simp only [serverEdits, forall_mem_cons, Workspace.Edit.Simple]
  have hports : Data.Simple (.list [.integer 80, .list []]) :=
    simple_cons (.integer (by decide +kernel)) (simple_cons simple_nil simple_nil)
  have hserver : Data.Simple (.table [("na me", .string "\n\"#"), ("ports", .list [.integer 80, .list []])]) :=
    .table (by simpa using ⟨.string _, hports⟩)
  exact ⟨simple_cons hserver simple_nil, simple_field (.boolean true), simple_field (.integer (by decide +kernel)),
    simple_cons (simple_field (.string "")) simple_nil, simple_field (.boolean false), .string "t", trivial, trivial, by simp⟩

private theorem nesting_serverEdits
    (h : ((({} : Workspace).create "main" true).edited serverEdits).slot "main" = .ok { content := .document d }) :
    d.root.nesting = 2 := by
  have hnesting : (((({} : Workspace).create "main" true).edited serverEdits).document? "main").toOption.map
      (·.root.nesting) = some 2 := by decide +kernel
  rw [Workspace.document?, h] at hnesting
  exact Option.some.inj hnesting

/-- Of the separators that the options accept, those in which every return stands before a line feed are passed over. -/
theorem trivia_of_isBlankText (h : OptionSet.isBlankText s = true) (hreturn : '\r' ∉ Text.joinReturns s.toList) :
    Trivia s.toList := by
  simp only [OptionSet.isBlankText, all_eq_true, Bool.or_eq_true, beq_iff_eq] at h
  generalize s.toList = t at h hreturn
  fun_induction Text.joinReturns t with
  | case1 => exact .nil
  | case2 u ih =>
    have hu := ih (fun x hx => h x (by simp [hx])) (fun hx => hreturn (mem_cons_of_mem _ hx))
    exact .line (.inl rfl) (.inr rfl) hu
  | case3 x u hpair ih =>
    have hu := ih (fun y hy => h y (mem_cons_of_mem _ hy)) (fun hx => hreturn (mem_cons_of_mem _ hx))
    rcases h x mem_cons_self with ((rfl | rfl) | rfl) | rfl
    · exact .blank rfl hu
    · exact .blank rfl hu
    · exact absurd mem_cons_self hreturn
    · exact .line (.inl rfl) (.inl rfl) hu

/-- **Separators.** A document that edits with simple data have built is read back with the same data, whatever separator the
options accept, unless a return in it stands before no line feed. -/
theorem accepted_separator_reads_back {edits : List Workspace.Edit} (hedits : ∀ e ∈ edits, e.Simple) {layout : Layout}
    (hnewline : OptionSet.fault? "default_newline" (.text layout.newline) = none)
    (hseparator : OptionSet.fault? "table_separator" (.text layout.separator) = none)
    (hreturn : '\r' ∉ Text.joinReturns layout.separator.toList) (options : ReadOptions) :
    ∃ d : Document, ((({} : Workspace).create "main" true).edited edits).slot "main" = .ok { content := .document d } ∧
      (d.root.nesting ≤ options.maxNesting → d.root.nesting ≤ openLevels →
        ∀ separator ∈ ["\n", layout.separator], ∃ text s, d.render { layout with separator } = .ok text ∧
          parse options (.text text) = .ok s ∧ Data.Same s.root.unwrap d.root.unwrap) := by
  have hterminator : layout.newline = "\n" ∨ layout.newline = "\r\n" := by
    simpa [OptionSet.fault?, or_iff_not_imp_left] using hnewline
  have hblank : OptionSet.isBlankText layout.separator = true := by
    simpa [OptionSet.fault?] using hseparator
  obtain ⟨d₀, hstart⟩ := Workspace.composing_create
  obtain ⟨d, hd⟩ := hstart.edited hedits
  refine ⟨d, hd.slot, fun hlimit hlevels separator hmem => ?_⟩
  have htrivia : Trivia separator.toList := by
    rcases mem_cons.mp hmem with rfl | hmem
    · exact trivia_newline
    · exact mem_singleton.mp hmem ▸ trivia_of_isBlankText hblank hreturn
  exact @parses_of_composing _ d hd { layout with separator } hterminator htrivia options hlimit hlevels

theorem accepted_separator_reads_back_servers :
    (∀ e ∈ serverEdits, e.Simple) ∧ '\r' ∉ Text.joinReturns " \r\n\t".toList ∧ ∃ d text s,
      ((({} : Workspace).create "main" true).edited serverEdits).slot "main" = .ok { content := .document d } ∧
        d.render { separator := " \r\n\t" } = .ok text ∧ parse {} (.text text) = .ok s ∧
          Data.Same s.root.unwrap d.root.unwrap := by
  obtain ⟨d, hslot, hread⟩ := @accepted_separator_reads_back serverEdits simple_serverEdits { separator := " \r\n\t" }
    (by decide +kernel) (by decide +kernel) (by decide +kernel) {}
  have hnesting := nesting_serverEdits hslot
  obtain ⟨text, s, h⟩ := hread (hnesting ▸ by decide) (hnesting ▸ by decide) " \r\n\t" (by simp)
  exact ⟨simple_serverEdits, by decide +kernel, d, text, s, hslot, h⟩

set_option maxRecDepth 20000 in
/-- The options accept a single return, and a document that is read back with the default separator is not with that one. -/
theorem lone_return_separator_refused :
    (OptionSet.make .writer [("table_separator", .text "\r")]).isOk = true ∧ (do
      let w ← (({} : Workspace).create "main" true).assign {} "a" (.boolean true)
      let w ← w.assign {} "t" (.table [("b", .boolean true)])
      let d ← w.document? "main"
      .ok ((d.render {}).toOption, (d.render { separator := "\r" }).toOption) :
        Except Failure (Option String × Option String)).toOption =
      some (some "a = true\n\n[t]\nb = true\n", some "a = true\n\r[t]\nb = true\n") ∧
    (parse {} (.text "a = true\n\n[t]\nb = true\n")).isOk = true ∧
    (parse {} (.text "a = true\n\r[t]\nb = true\n")).isOk = false := by
  refine ⟨?_, ?_, ?_, ?_⟩
  · decide +kernel
  · cbv
  · decide +kernel
  · decide +kernel

/-! ## Values that nest too deep -/

end Verbatim

import Mathlib.Data.List.Nodup
import Verbatim.Proofs.FieldPaths
import Verbatim.Proofs.PathMarks

/-!
# What stands at a key path

A key path leads through tables, through dotted inline tables and through the last table of an array of tables. What stands
at its end decides whether a header or a dotted key may lead there again, and only the standing of the item counts for that:
whether it is a value, and otherwise which kind of line made it. Adding a line leaves every standing as they are, but for the
places that the line is about.
-/

namespace Verbatim

open List DataReader Item Key Fields

variable {y x : Item} {t : Fields} {h : Header} {k : String}

/-! ## The standing of an item -/

/-- What an item is to a line that leads to it. -/
inductive Standing where
  /-- A value without members. -/
  | plain
  /-- A value with members. -/
  | container
  /-- A table made by a dotted key. -/
  | dotted
  /-- A table that only longer headers imply. -/
  | implied
  /-- A table with a header, or an array of them. -/
  | headed
  deriving DecidableEq

def Item.standing : Item → Standing
  | .table _ f _ => if f.dotted then .dotted else if f.implicit then .implied else .headed
  | .arrayOfTables .. => .headed
  | x => if x.isDotted then .dotted else if isContainer x.unwrap then .container else .plain

theorem Item.standing_eq_dotted : x.standing = .dotted ↔ x.isDotted = true := by
  cases x with
  | arrayOfTables i ts => simp [standing, isDotted]
  | _ => grind [standing, isDotted]

/-- A value that no dotted key made has members or not. -/
theorem Item.standing_of_isValue (hv : x.isValue = true) (hd : x.isDotted = false) :
    x.standing = if isContainer x.unwrap then .container else .plain := by
  cases x with
  | table i f es => cases hv
  | arrayOfTables i ts => cases hv
  | _ => simp [standing, hd]

theorem Item.standing_ne_plain (h : isContainer x.unwrap = true) : x.standing ≠ .plain := by
  cases x with
  | arrayOfTables i ts => simp [standing]
  | _ => grind [standing]

/-- A table on the way keeps its standing whatever comes into it. -/
theorem Item.LeadsTo.standing_other (h : x.LeadsTo f sub rebuild) (sub' : List (Entry Item)) :
    (rebuild sub').standing = x.standing := by
  cases h <;> rfl

/-! ## Items at key paths -/

/-- A key path leads from an item to entries: those of a table, of the last table of an array of tables, or of an inline
table made by a dotted key. -/
inductive Item.Enters : Item → List (Entry Item) → Prop where
  | table {i : Info} {f : TableForm} {sub : List (Entry Item)} : Enters (.table i f sub) sub
  /-- An inline table made by a dotted key. -/
  | dotted {i : Info} {f : InlineForm} {sub : List (Entry Item)} (dotted : f.dotted = true) :
      Enters (.inlineTable i f sub) sub
  /-- The last table of an array of tables. -/
  | element {i j : Info} {ts : List Item} {f : TableForm} {sub : List (Entry Item)} :
      Enters (.arrayOfTables i (ts ++ [.table j f sub])) sub

/-- An item stands at a key path below the entries of a table. -/
inductive Stands : List (Entry Item) → List String → Item → Prop where
  /-- Under a name of the table itself. -/
  | here {es : List (Entry Item)} {e : Entry Item} (mem : e ∈ es) : Stands es [e.name] e.item
  /-- Further below. -/
  | under {es sub : List (Entry Item)} {e : Entry Item} {names : List String} {x : Item} (mem : e ∈ es)
      (enters : e.item.Enters sub) (rest : Stands sub names x) : Stands es (e.name :: names) x

theorem Item.LeadsTo.enters (h : x.LeadsTo f sub rebuild) : x.Enters sub := by
  cases h with
  | table => exact .table
  | element => exact .element

theorem Item.Enters.unique (h : x.Enters sub) (h' : x.Enters sub') : sub = sub' := by
  cases h with
  | @element i j ts f sub =>
    generalize hts : ts ++ [Item.table j f sub] = us at h'
    cases h' with
    | @element _ j' ts' f' sub' =>
      have hlast := (append_inj' hts rfl).2
      cases hlast
      rfl
  | _ => cases h'; rfl

theorem Item.Enters.of_isDotted (h : x.isDotted = true) : x.Enters x.entries := by
  cases x with
  | table i f es => exact .table
  | inlineTable i f es => exact .dotted h
  | _ => cases h

theorem IsDottedTable.enters (h : IsDottedTable fresh) (sub : List (Entry Item)) : (fresh.withEntries sub).Enters sub := by
  have henters := Item.Enters.of_isDotted (h.dotted sub)
  rwa [h.entries] at henters

theorem Item.not_enters_of_isValue (hv : x.isValue = true) (hd : x.isDotted = false) : ¬x.Enters sub := by
  intro h
  cases h with
  | dotted hdotted => exact absurd (hdotted.symm.trans hd) (by decide)
  | _ => cases hv

namespace Stands

variable {x : Item}

theorem ne_nil (h : Stands es names x) : names ≠ [] := by cases h <;> simp

theorem not_nil : ¬Stands [] names x := by
  intro h
  cases h with
  | here mem => cases mem
  | under mem => cases mem

theorem of_mem (he : e ∈ es) (hname : e.name = k) : Stands es [k] e.item := by
  subst hname
  exact .here he

theorem of_enters (he : e ∈ es) (hname : e.name = k) (henters : e.item.Enters sub) (hrest : Stands sub names x) :
    Stands es (k :: names) x := by
  subst hname
  exact .under he henters hrest

theorem of_find (h : findNamed? k es = some e) : Stands es [k] e.item :=
  of_mem (mem_of_findNamed? h) (name_of_findNamed? h)

theorem below_find (h : findNamed? k es = some e) (henters : e.item.Enters sub) (hrest : Stands sub names x) :
    Stands es (k :: names) x :=
  of_enters (mem_of_findNamed? h) (name_of_findNamed? h) henters hrest

/-- What stands below entries stands below more of them. -/
theorem mono (h : Stands es names x) (hsub : es ⊆ es') : Stands es' names x := by
  cases h with
  | here mem => exact .here (hsub mem)
  | under mem enters rest => exact .under (hsub mem) enters rest

theorem exists_head (h : Stands es names x) : ∃ e ∈ es, ∃ r, names = e.name :: r := by
  cases h with
  | here mem => exact ⟨_, mem, _, rfl⟩
  | under mem => exact ⟨_, mem, _, rfl⟩

theorem append_iff : Stands (es ++ es') names x ↔ Stands es names x ∨ Stands es' names x := by
  refine ⟨fun h => ?_, fun h => h.elim (·.mono (subset_append_left ..)) (·.mono (subset_append_right ..))⟩
  cases h with
  | here mem => exact (mem_append.mp mem).imp .here .here
  | under mem enters rest => exact (mem_append.mp mem).imp (.under · enters rest) (.under · enters rest)

/-- What stands below a single entry is its item or stands in that. -/
theorem singleton_iff : Stands [e] names x ↔
    names = [e.name] ∧ x = e.item ∨ ∃ r sub, names = e.name :: r ∧ e.item.Enters sub ∧ Stands sub r x := by
  constructor
  · intro h
    cases h with
    | here mem =>
      obtain rfl := mem_singleton.mp mem
      exact .inl ⟨rfl, rfl⟩
    | under mem enters rest =>
      obtain rfl := mem_singleton.mp mem
      exact .inr ⟨_, _, rfl, enters, rest⟩
  · rintro (⟨rfl, rfl⟩ | ⟨r, sub, rfl, enters, rest⟩)
    · exact .here (mem_singleton_self e)
    · exact .under (mem_singleton_self e) enters rest

theorem middle_iff : Stands (pre ++ e :: post) names x ↔ Stands (pre ++ post) names x ∨ Stands [e] names x := by
  rw [append_cons, append_iff, append_iff, append_iff, or_right_comm]

end Stands

/-- What stands in the table at a path stands below that path. -/
theorem Opens.stands (h : Opens f es names g a) (hx : Stands a q x) : Stands es (names ++ q) x := by
  induction h with
  | here => exact hx
  | enter item rest ih => exact .under (by simp) item.enters (ih hx)

/-! ## Distinct names -/

/-- Names are distinct in every table that a key path can lead to. -/
inductive Named : List (Entry Item) → Prop where
  | intro {es : List (Entry Item)} (nodup : (es.map Entry.name).Nodup)
      (below : ∀ e ∈ es, ∀ sub, e.item.Enters sub → Named sub) : Named es

namespace Named

theorem nodup (h : Named es) : (es.map Entry.name).Nodup := by
  cases h
  assumption

theorem enter (h : Named es) (he : e ∈ es) (hsub : e.item.Enters sub) : Named sub := by
  cases h with
  | intro nodup below => exact below e he sub hsub

theorem nil : Named [] := .intro (by simp) (by simp)

theorem concat (h : Named es) (absent : e.name ∉ es.map Entry.name) (hbelow : ∀ sub, e.item.Enters sub → Named sub) :
    Named (es ++ [e]) := by
  obtain ⟨hnames, hbelows⟩ := h
  refine .intro ?_ (forall_mem_append.mpr ⟨hbelows, forall_mem_singleton.mpr hbelow⟩)
  rw [map_append, nodup_append]
  exact ⟨hnames, by simp, fun a ha b hb hab => absent (by simp at hb; exact hb ▸ hab ▸ ha)⟩

theorem replace (h : Named (pre ++ e :: post)) (hbelow : ∀ sub, x.Enters sub → Named sub) :
    Named (pre ++ { e with item := x } :: post) := by
  obtain ⟨hnames, hbelows⟩ := h
  simp only [forall_mem_append, forall_mem_cons] at hbelows
  refine .intro (by simpa [Entry.name] using hnames) ?_
  simp only [forall_mem_append, forall_mem_cons]
  exact ⟨hbelows.1, hbelow, hbelows.2.2⟩

/-- Beside an entry, what stands anywhere stands below another name. -/
theorem beside (h : Named (pre ++ e :: post)) (hx : Stands (pre ++ post) names x) (r : List String) :
    names ≠ e.name :: r := by
  rintro rfl
  obtain ⟨d, hd, _, hname⟩ := hx.exists_head
  have hnodup := h.nodup
  rw [map_append, map_cons, nodup_middle, nodup_cons, ← map_append, (cons.inj hname).1] at hnodup
  exact hnodup.1 (mem_map_of_mem hd)

/-- Where names are distinct, entries of one name are the same. -/
theorem eq_of_name (h : Named es) (hd : d ∈ es) (he : e ∈ es) (hname : d.name = e.name) : d = e :=
  inj_on_of_nodup_map h.nodup hd he hname

end Named

theorem Item.Enters.mem_bodies (h : x.Enters sub) (hx : x.Sound) : sub ∈ x.bodies := by
  cases h with
  | table => simp [bodies]
  | element => simp [bodies, entries]
  | dotted hdotted => exact absurd (hdotted.symm.trans hx) (by decide)

theorem Built.named (h : Built es) : Named es := by
  induction h with
  | @intro es dotting sound below ih =>
    exact .intro dotting.names fun e he sub hsub => ih e he sub (hsub.mem_bodies (sound e he))

/-- At each path one item stands at most. -/
theorem Stands.unique (hes : Named es) (hx : Stands es names x) (hy : Stands es names y) : x = y := by
  induction hx with
  | @here es e mem =>
    generalize hnames : [e.name] = names at hy
    cases hy with
    | @here _ d mem' =>
      rw [hes.eq_of_name mem mem' (cons.inj hnames).1]
    | under mem' enters rest =>
      rw [← (cons.inj hnames).2] at rest
      exact absurd rfl rest.ne_nil
  | @under es sub e ns x mem enters rest ih =>
    generalize hnames : e.name :: ns = names at hy
    cases hy with
    | here mem' =>
      rw [(cons.inj hnames).2] at rest
      exact absurd rfl rest.ne_nil
    | @under _ sub' d ns' _ mem' enters' rest' =>
      obtain ⟨hname, rfl⟩ := cons.inj hnames
      obtain rfl := hes.eq_of_name mem mem' hname
      obtain rfl := enters.unique enters'
      exact ih (hes.enter mem enters) rest'

theorem Opens.named (h : Opens f es names g a) (hes : Named es) : Named a := by
  induction h with
  | here => exact hes
  | enter item rest ih => exact ih (hes.enter (by simp) item.enters)

/-! ## Data along the way -/

theorem Item.unwrap_of_enters (h : x.Enters sub) :
    x.unwrap = .table (unwrapFields sub) ∨ ∃ xs, x.unwrap = .list (xs ++ [.table (unwrapFields sub)]) := by
  cases h with
  | @element i j ts f sub =>
    right
    refine ⟨ts.map unwrap, ?_⟩
    simp [unwrap]
  | _ => exact .inl rfl

theorem Item.lookup_unwrapFields (hnames : (es.map Entry.name).Nodup) (he : e ∈ es) :
    (unwrapFields es).lookup e.name = some e.item.unwrap := by
  obtain ⟨pre, post, rfl⟩ := append_of_mem he
  rw [unwrapFields_middle]
  exact lookup_middle (name_not_mem_unwrapFields hnames)

theorem Item.of_lookup_unwrapFields (h : (unwrapFields es).lookup k = some v) : ∃ e ∈ es, e.name = k ∧ e.item.unwrap = v := by
  obtain ⟨pre, post, heq, -⟩ := lookup_eq_some_iff.mp h
  have hmem : (k, v) ∈ unwrapFields es := by rw [heq]; simp
  rw [unwrapFields_eq, mem_map] at hmem
  obtain ⟨e, he, hpair⟩ := hmem
  exact ⟨e, he, congrArg Prod.fst hpair, congrArg Prod.snd hpair⟩

/-- A change of the data leads on to the entries that a key path leads to. -/
theorem Item.Enters.atPath (h : e.item.Enters sub) (hes : Named es) (he : e ∈ es)
    (hpath : Fields.atPath lists F (e.name :: q) (unwrapFields es) = some t) :
    ∃ t', Fields.atPath lists F q (unwrapFields sub) = some t' := by
  rw [Fields.atPath, lookup_unwrapFields hes.nodup he] at hpath
  rcases unwrap_of_enters h with htable | ⟨xs, hlist⟩
  · simp only [htable] at hpath
    obtain ⟨t', ht', -⟩ := Option.map_eq_some_iff.mp hpath
    exact ⟨t', ht'⟩
  · simp only [hlist, getLast?_concat] at hpath
    split at hpath
    · obtain ⟨t', ht', -⟩ := Option.map_eq_some_iff.mp hpath
      exact ⟨t', ht'⟩
    · cases hpath

/-- A change of the data leads through what stands on its way, so that is a table or ends with one. -/
theorem Stands.unwrap_of_atPath {lists : Bool} {f : Fields → Option Fields} (hes : Named es) (h : Stands es p x)
    (hpath : atPath lists f (p ++ q) (unwrapFields es) = some t) :
    (∃ sub, x.unwrap = .table sub) ∨ lists = true ∧ ∃ xs sub, x.unwrap = .list (xs ++ [.table sub]) := by
  induction h generalizing t with
  | @here es e mem =>
    rw [singleton_append, atPath, lookup_unwrapFields hes.nodup mem] at hpath
    split at hpath
    · next heq => cases heq
    · next sub heq => exact .inl ⟨sub, Option.some.inj heq⟩
    · next xs heq =>
      split at hpath
      · next hlists =>
        split at hpath
        · next sub hlast =>
          obtain ⟨ys, rfl⟩ := getLast?_eq_some_iff.mp hlast
          exact .inr ⟨hlists, ys, sub, Option.some.inj heq⟩
        · cases hpath
      · cases hpath
    · cases hpath
  | @under es sub e names x mem enters rest ih =>
    obtain ⟨t', ht'⟩ := enters.atPath hes mem hpath
    exact ih (hes.enter mem enters) ht'

/-- Where an array of tables grows, what stands there is a list. -/
theorem Stands.unwrap_of_grow (hes : Named es) (h : Stands es (p ++ [k]) x)
    (hpath : atPath true (grow? k) p (unwrapFields es) = some t) : ∃ xs, x.unwrap = .list xs := by
  induction p generalizing es t with
  | nil =>
    generalize hnames : [] ++ [k] = names at h
    cases h with
    | here mem =>
      obtain rfl := (cons.inj hnames).1
      rw [atPath, grow?, lookup_unwrapFields hes.nodup mem] at hpath
      split at hpath
      · next heq => cases heq
      · next xs heq => exact ⟨xs, Option.some.inj heq⟩
      · cases hpath
    | under mem enters rest =>
      rw [← (cons.inj hnames).2] at rest
      exact absurd rfl rest.ne_nil
  | cons n p ih =>
    generalize hnames : n :: p ++ [k] = names at h
    cases h with
    | here mem =>
      have hnil := (cons.inj hnames).2
      simp at hnil
    | @under _ sub e names _ mem enters rest =>
      obtain ⟨rfl, rfl⟩ := cons.inj hnames
      obtain ⟨t', ht'⟩ := enters.atPath hes mem hpath
      exact ih (hes.enter mem enters) rest ht'

/-- A change of the data leads through the table at a path. -/
theorem Opens.atPath (h : Opens f es names g a) (hes : Named es)
    (hpath : atPath true F (names ++ q) (unwrapFields es) = some t) :
    ∃ t', atPath true F q (unwrapFields a) = some t' := by
  induction h generalizing t with
  | here => exact ⟨t, hpath⟩
  | @enter f f' g pre post sub x e names rebuild item rest ih =>
    have mem : e ∈ pre ++ e :: post := mem_append_cons_self
    obtain ⟨t', ht'⟩ := item.enters.atPath hes mem hpath
    exact ih (hes.enter mem item.enters) ht'

/-- What stands anywhere in a tree under construction is sound. -/
theorem Stands.sound (hes : Built es) (h : Stands es p x) : x.Sound := by
  induction h with
  | here mem => exact hes.sound mem
  | @under es sub e names x mem enters rest ih =>
    exact ih (hes.tables mem (enters.mem_bodies (hes.sound mem)))

/-! ## Entry lines -/

section EntryLines

variable {leaf : Entry Item}

/-- What stands anywhere keeps standing there when an entry is put below its dotted key. -/
theorem DottedRun.stands_before (h : DottedRun fresh leaf ks es es') (hx : Stands es p x) :
    ∃ y, Stands es' p y ∧ y.standing = x.standing := by
  induction h generalizing p x with
  | leaf absent => exact ⟨x, Stands.append_iff.mpr (.inl hx), rfl⟩
  | make absent rest ih => exact ⟨x, Stands.append_iff.mpr (.inl hx), rfl⟩
  | @enter k ks pre post sub e name dotted rest ih =>
    have htable := isDottedTable dotted
    rcases Stands.middle_iff.mp hx with hx | hx
    · exact ⟨x, Stands.middle_iff.mpr (.inl hx), rfl⟩
    rcases Stands.singleton_iff.mp hx with ⟨rfl, rfl⟩ | ⟨r, sub₀, rfl, enters, below⟩
    · refine ⟨_, .of_mem mem_append_cons_self rfl, ?_⟩
      rw [standing_eq_dotted.mpr dotted]
      exact standing_eq_dotted.mpr (htable.dotted sub)
    · obtain rfl := enters.unique (Enters.of_isDotted dotted)
      obtain ⟨y, hy, hstanding⟩ := ih below
      exact ⟨y, .of_enters mem_append_cons_self rfl (htable.enters sub) hy, hstanding⟩

/-- On the way of a dotted key stand dotted tables afterwards. -/
theorem DottedRun.stands_made (hfresh : IsDottedTable fresh) (h : DottedRun fresh leaf ks es es') (hne : p ≠ [])
    (hp : p <+: ks.map name) : ∃ y, Stands es' p y ∧ y.standing = .dotted := by
  -- at each step the name leads to a dotted table
  have hstep : ∀ {table : Item} {es sub : List (Entry Item)} {e : Entry Item} {ns p : List String}, IsDottedTable table →
      e ∈ es → e.item = table.withEntries sub →
      (∀ {p}, p ≠ [] → p <+: ns → ∃ y, Stands sub p y ∧ y.standing = .dotted) → p ≠ [] → p <+: e.name :: ns →
      ∃ y, Stands es p y ∧ y.standing = .dotted := by
    intro table es sub e ns p htable he hitem ih hne hp
    obtain ⟨n, p, rfl⟩ := exists_cons_of_ne_nil hne
    obtain ⟨rfl, hns⟩ := cons_prefix_cons.mp hp
    by_cases hnil : p = []
    · subst hnil
      exact ⟨_, .here he, standing_eq_dotted.mpr (hitem ▸ htable.dotted sub)⟩
    · obtain ⟨y, hy, hstanding⟩ := ih hnil hns
      exact ⟨y, .under he (hitem ▸ htable.enters sub) hy, hstanding⟩
  induction h generalizing p with
  | leaf absent =>
    rw [map_nil, prefix_nil] at hp
    exact absurd hp hne
  | @make k ks es sub absent rest ih =>
    exact hstep (e := { key := k.bare, item := fresh.withEntries sub }) hfresh (by simp) rfl ih hne hp
  | @enter k ks pre post sub e name dotted rest ih =>
    rw [map_cons, ← name] at hp
    exact hstep (e := { e with item := e.item.withEntries sub }) (isDottedTable dotted) mem_append_cons_self rfl ih hne hp

/-- What stands anywhere when an entry has been put below its dotted key: what stood there before, a table of the dotted key,
or the entry itself. -/
theorem DottedRun.stands (hfresh : IsDottedTable fresh) (hleaf : ∀ sub, ¬leaf.item.Enters sub)
    (h : DottedRun fresh leaf ks es es') (hy : Stands es' p y) :
    (∃ x, Stands es p x ∧ y.standing = x.standing) ∨ (p <+: ks.map name ∧ y.standing = .dotted) ∨
      (p = ks.map name ++ [leaf.name] ∧ y = leaf.item) := by
  induction h generalizing p y with
  | @leaf es absent =>
    rcases Stands.append_iff.mp hy with hy | hy
    · exact .inl ⟨y, hy, rfl⟩
    rcases Stands.singleton_iff.mp hy with hy | ⟨r, sub, -, enters, -⟩
    · exact .inr (.inr hy)
    · exact absurd enters (hleaf sub)
  | @make k ks es sub absent rest ih =>
    rcases Stands.append_iff.mp hy with hy | hy
    · exact .inl ⟨y, hy, rfl⟩
    rcases Stands.singleton_iff.mp hy with ⟨rfl, rfl⟩ | ⟨r, sub', rfl, enters, below⟩
    · exact .inr (.inl ⟨by simp [Entry.name, bare], standing_eq_dotted.mpr (hfresh.dotted sub)⟩)
    · obtain rfl := enters.unique (hfresh.enters sub)
      rcases ih below with ⟨x, hx, -⟩ | ⟨hp, hstanding⟩ | ⟨rfl, rfl⟩
      · exact absurd hx Stands.not_nil
      · exact .inr (.inl ⟨by simpa [Entry.name, bare] using hp, hstanding⟩)
      · exact .inr (.inr ⟨by simp [Entry.name, bare], rfl⟩)
  | @enter k ks pre post sub e name dotted rest ih =>
    have htable := isDottedTable dotted
    rcases Stands.middle_iff.mp hy with hy | hy
    · exact .inl ⟨y, Stands.middle_iff.mpr (.inl hy), rfl⟩
    rcases Stands.singleton_iff.mp hy with ⟨rfl, rfl⟩ | ⟨r, sub', rfl, enters, below⟩
    · refine .inl ⟨_, .of_mem mem_append_cons_self rfl, ?_⟩
      rw [standing_eq_dotted.mpr dotted]
      exact standing_eq_dotted.mpr (htable.dotted sub)
    · obtain rfl := enters.unique (htable.enters sub)
      have hname : k.name = e.name := name.symm
      rcases ih below with ⟨x, hx, hstanding⟩ | ⟨hp, hstanding⟩ | ⟨rfl, rfl⟩
      · exact .inl ⟨x, .of_enters mem_append_cons_self rfl (Enters.of_isDotted dotted) hx, hstanding⟩
      · exact .inr (.inl ⟨by simpa [hname, Entry.name] using hp, hstanding⟩)
      · exact .inr (.inr ⟨by simp [hname, Entry.name], rfl⟩)

/-- Names stay distinct when an entry is put below its dotted key. -/
theorem DottedRun.named (hfresh : IsDottedTable fresh) (hleaf : ∀ sub, ¬leaf.item.Enters sub)
    (h : DottedRun fresh leaf ks es es') (hes : Named es) : Named es' := by
  induction h with
  | leaf absent => exact hes.concat absent fun sub henters => absurd henters (hleaf sub)
  | make absent rest ih =>
    exact hes.concat absent fun sub henters => henters.unique (hfresh.enters _) ▸ ih Named.nil
  | enter name dotted rest ih =>
    refine hes.replace fun sub henters => ?_
    rw [henters.unique ((isDottedTable dotted).enters _)]
    exact ih (hes.enter mem_append_cons_self (Enters.of_isDotted dotted))

/-- An entry can be put below its dotted key if the tables on its way are dotted and the data takes it. -/
theorem insertDotted_accepts (fresh : Item) (leaf : Entry Item) (hes : Named es)
    (hdots : ∀ p x, p <+: ks.map name → Stands es p x → x.standing = .dotted)
    (hadd : atPath lists (add? leaf.name v) (ks.map name) (unwrapFields es) = some t) :
    ∃ es', insertDotted fresh leaf ks es = .ok es' := by
  induction ks generalizing es t with
  | nil =>
    simp only [insertDotted]
    cases hfind : findNamed? leaf.name es with
    | none => exact ⟨_, rfl⟩
    | some e =>
      -- the data would have the name already
      rw [map_nil, atPath, add?, ← name_of_findNamed? hfind,
        lookup_unwrapFields hes.nodup (mem_of_findNamed? hfind)] at hadd
      cases hadd
  | cons k ks ih =>
    simp only [insertDotted]
    rw [map_cons] at hadd
    cases hfind : findNamed? k.name es with
    | none =>
      have habsent : k.name ∉ (unwrapFields es).map Prod.fst := by
        rw [map_fst_unwrapFields]
        exact findNamed?_eq_none_iff.mp hfind
      rw [atPath_absent habsent] at hadd
      obtain ⟨t', ht', -⟩ := Option.map_eq_some_iff.mp hadd
      obtain ⟨sub, hsub⟩ := ih Named.nil (fun p x _ hx => absurd hx Stands.not_nil) ht'
      simp only [hsub]
      exact ⟨_, rfl⟩
    | some e =>
      have hdotted : e.item.isDotted = true := by
        apply standing_eq_dotted.mp
        exact hdots [k.name] e.item (by simp) (.of_find hfind)
      have henters := Enters.of_isDotted hdotted
      have hmem := mem_of_findNamed? hfind
      rw [atPath, ← name_of_findNamed? hfind, lookup_unwrapFields hes.nodup hmem,
        unwrap_of_isDotted hdotted] at hadd
      obtain ⟨t', ht', -⟩ := Option.map_eq_some_iff.mp hadd
      obtain ⟨sub, hsub⟩ := ih (hes.enter hmem henters) (fun p x hp hx =>
        hdots (k.name :: p) x (by simpa using hp) (.below_find hfind henters hx)) ht'
      simp only [hdotted, if_true, hsub]
      exact ⟨_, rfl⟩

end EntryLines

/-! ## Changes below -/

section Below

theorem Below.symm (h : Below change f names es es') : Below (fun f x y => change f y x) f names es' es := by
  induction h with
  | here hchange => exact .here hchange
  | @enter f f' pre post sub sub' e names rebuild item rest ih =>
    have h : Below _ f _ (pre ++ { e with item := rebuild sub' } :: post) (pre ++ { e with item := rebuild sub } :: post) :=
      .enter (item.other sub') ih
    rw [item.rebuild_self] at h
    exact h

/-- What stands anywhere when the table at a path was changed: it stands in that table, or it stood there before. -/
theorem Below.stands (h : Below change f names es es') (hes : Named es) (hy : Stands es' q y) :
    (∃ r g a a', q = names ++ r ∧ change g a a' ∧ Opens f es names g a ∧ Stands a' r y) ∨
      ((∀ r, r ≠ [] → q ≠ names ++ r) ∧ ∃ x, Stands es q x ∧ y.standing = x.standing) := by
  induction h generalizing q y with
  | @here f es es' hchange => exact .inl ⟨q, f, es, es', rfl, hchange, .here, hy⟩
  | @enter f f' pre post sub sub' e names rebuild item rest ih =>
    rcases Stands.middle_iff.mp hy with hy | hy
    · exact .inr ⟨fun r _ => hes.beside hy (names ++ r), y, Stands.middle_iff.mpr (.inl hy), rfl⟩
    rcases Stands.singleton_iff.mp hy with ⟨rfl, rfl⟩ | ⟨r, sub₀, rfl, enters, below⟩
    · refine .inr ⟨fun r hr heq => ?_, _, .of_mem mem_append_cons_self rfl, item.standing_other sub'⟩
      have htail := (cons.inj heq).2
      exact hr (append_eq_nil_iff.mp htail.symm).2
    · obtain rfl := enters.unique (item.other sub').enters
      have hsub := hes.enter mem_append_cons_self item.enters
      rcases ih hsub below with ⟨r, g, a, a', rfl, hchange, hopens, hr⟩ | ⟨hno, x, hx, hstanding⟩
      · exact .inl ⟨r, g, a, a', rfl, hchange, .enter item hopens, hr⟩
      · exact .inr ⟨fun r hr heq => hno r hr (cons.inj heq).2, x, .of_enters mem_append_cons_self rfl item.enters hx,
          hstanding⟩

end Below

/-! ## Header lines -/

/-- Where nothing stands yet, a header brings implied tables and its own. -/
theorem Header.stands_freshEntry (h : Header) (rest : List Key) (hy : Stands [h.freshEntry rest] q y) :
    (q <+: rest.map name ∧ y.standing = .implied) ∨
      (q = rest.map name ++ [h.leaf.name] ∧ y.standing = .headed) := by
  induction rest generalizing q y with
  | nil =>
    right
    rcases Stands.singleton_iff.mp hy with ⟨rfl, rfl⟩ | ⟨r, sub, rfl, enters, below⟩
    · refine ⟨rfl, ?_⟩
      rw [Header.freshEntry]
      dsimp only
      split <;> rfl
    · -- the new table is empty
      have hempty : sub = [] := by
        rw [Header.freshEntry] at enters
        dsimp only at enters
        split at enters
        · exact enters.unique (@Item.Enters.element _ _ [] _ _)
        · exact enters.unique .table
      subst hempty
      exact absurd below Stands.not_nil
  | cons k rest ih =>
    rcases Stands.singleton_iff.mp hy with ⟨rfl, rfl⟩ | ⟨r, sub, rfl, enters, below⟩
    · exact .inl ⟨by simp [Header.freshEntry, Entry.name, bare], rfl⟩
    · obtain rfl : sub = [h.freshEntry rest] := enters.unique .table
      rcases ih below with ⟨hq, hstanding⟩ | ⟨rfl, hstanding⟩
      · exact .inl ⟨by simpa [Header.freshEntry, Entry.name, bare] using hq, hstanding⟩
      · exact .inr ⟨by simp [Header.freshEntry, Entry.name, bare], hstanding⟩

theorem Header.freshEntry_name (h : Header) (rest : List Key) :
    [(h.freshEntry rest).name] <+: rest.map name ++ [h.leaf.name] := by
  cases rest <;> simp [Header.freshEntry, Entry.name, bare]

/-- What stands anywhere when a header has changed a table: what stood there before, an implied table on its way, or its own
table. Below a further table of an array nothing stands yet. -/
theorem HeaderChange.stands {rest : List Key} {a' : List (Entry Item)} (hchange : HeaderChange h rest a a') (ha : Named a)
    (hy : Stands a' q y) :
    (∃ x, Stands a q x ∧ y.standing = x.standing ∧
        (h.isArray = true → ¬rest.map name ++ [h.leaf.name] <+: q)) ∨
      (q <+: rest.map name ∧ y.standing = .implied) ∨
      (q = rest.map name ++ [h.leaf.name] ∧ y.standing = .headed) := by
  cases hchange with
  | fresh absent =>
    rcases Stands.append_iff.mp hy with hy | hy
    · refine .inl ⟨y, hy, rfl, fun _ hway => absent ?_⟩
      obtain ⟨d, hd, r, rfl⟩ := hy.exists_head
      rw [(cons_prefix_cons.mp ((h.freshEntry_name rest).trans hway)).1]
      exact mem_map_of_mem hd
    · exact .inr (h.stands_freshEntry rest hy)
  | @promote pre post sub e i f single name item implied notDotted =>
    have harray : h.isArray = true → ¬([] : List Key).map Key.name ++ [h.leaf.name] <+: q := by simp [single]
    rcases Stands.middle_iff.mp hy with hy | hy
    · exact .inl ⟨y, Stands.middle_iff.mpr (.inl hy), rfl, harray⟩
    rcases Stands.singleton_iff.mp hy with ⟨rfl, rfl⟩ | ⟨r, sub', rfl, enters, below⟩
    · exact .inr (.inr ⟨by simp [← name, Entry.name], rfl⟩)
    · -- the table keeps the entries that it had when it was implied
      obtain rfl : sub' = sub := enters.unique .table
      exact .inl ⟨_, .of_enters mem_append_cons_self rfl (item ▸ .table) below, rfl, harray⟩
  | @append pre post e i ts array name item =>
    rcases Stands.middle_iff.mp hy with hy | hy
    · refine .inl ⟨y, Stands.middle_iff.mpr (.inl hy), rfl, fun _ hway => ?_⟩
      obtain ⟨r, rfl⟩ := hway
      exact ha.beside hy r (by simp [name])
    rcases Stands.singleton_iff.mp hy with ⟨rfl, rfl⟩ | ⟨r, sub, rfl, enters, below⟩
    · exact .inr (.inr ⟨by simp [← name, Entry.name], rfl⟩)
    · obtain rfl : sub = [] := enters.unique .element
      exact absurd below Stands.not_nil

/-- What a header asks of the item that stands at its path. -/
def Header.Replaces (h : Header) (x : Item) : Prop :=
  if h.isArray then x.isArrayOfTables = true else x.standing = .implied

theorem Item.eq_of_standing_implied (h : x.standing = .implied) :
    ∃ i f sub, x = .table i f sub ∧ f.implicit = true ∧ f.dotted = false := by
  cases x with
  | table i f sub => exact ⟨i, f, sub, rfl, by grind [standing]⟩
  | arrayOfTables i ts => cases h
  | _ => grind [standing]

theorem placeHeader_accepts (hplace : ∀ x, Stands es [h.leaf.name] x → h.Replaces x) :
    ∃ es', placeHeader h es = .ok es' := by
  rw [placeHeader]
  cases hfind : findNamed? h.leaf.name es with
  | none => cases h.isArray <;> exact ⟨_, rfl⟩
  | some e =>
    have hreplaces := hplace e.item (.of_find hfind)
    rw [Header.Replaces] at hreplaces
    by_cases harray : h.isArray = true
    · rw [if_pos harray] at hreplaces
      simp only [harray, if_true]
      cases hitem : e.item with
      | arrayOfTables i ts => exact ⟨_, rfl⟩
      | _ => rw [hitem] at hreplaces; cases hreplaces
    · rw [if_neg harray] at hreplaces
      obtain ⟨i, f, sub, hitem, himplicit, hdotted⟩ := eq_of_standing_implied hreplaces
      simp only [harray, hitem, himplicit, hdotted]
      exact ⟨_, rfl⟩

/-- A header can be added if its way leads through tables and what stands at its end can be replaced. -/
theorem attachHeader_accepts (hway : ∀ p x, p <+: ks.map name → Stands es p x → ∃ f sub rebuild, x.LeadsTo f sub rebuild)
    (hplace : ∀ x, Stands es (ks.map name ++ [h.leaf.name]) x → h.Replaces x) : ∃ es', attachHeader h ks es = .ok es' := by
  induction ks generalizing es with
  | nil => exact placeHeader_accepts hplace
  | cons k ks ih =>
    rw [attachHeader]
    cases hfind : findNamed? k.name es with
    | none =>
      simp only [attachHeader_nil]
      exact ⟨_, rfl⟩
    | some e =>
      obtain ⟨f, sub, rebuild, hleads⟩ := hway [k.name] e.item (by simp) (.of_find hfind)
      obtain ⟨sub', hsub'⟩ := ih
        (fun p x hp hx => hway (k.name :: p) x (by simpa using hp) (.below_find hfind hleads.enters hx))
        (fun x hx => hplace x (.below_find hfind hleads.enters hx))
      generalize hitem : e.item = y at hleads
      cases hleads with
      | table =>
        simp only [hitem, hsub']
        exact ⟨_, rfl⟩
      | element =>
        simp only [hitem, getLast?_concat, hsub']
        exact ⟨_, rfl⟩

/-- An entry line can be added if its entry can be put into the open table. -/
theorem attachEntry_accepts {a' : List (Entry Item)} (hopens : Opens f es names g a) (hes : Named es)
    (ha : insertDotted dottedTable l.entry l.path a = .ok a') : ∃ es', attachEntry l names es = .ok es' := by
  induction hopens with
  | here => exact ⟨a', ha⟩
  | @enter f f' g pre post sub x e names rebuild item rest ih =>
    have hmem : e ∈ pre ++ e :: post := by simp
    obtain ⟨sub', hsub'⟩ := ih (hes.enter hmem item.enters) ha
    rw [attachEntry, findNamed?_of_mem hes.nodup hmem]
    generalize hitem : e.item = y at item
    cases item with
    | table =>
      simp only [hitem, hsub']
      exact ⟨_, rfl⟩
    | element =>
      simp only [hitem, getLast?_concat, hsub']
      exact ⟨_, rfl⟩

/-! ## Lines -/

/-- What stands anywhere behind a header line. -/
theorem Assembly.stands_header {a : Assembly} (ha : a.Ready g) (hadd : a.add (.header h) = .ok a')
    (hy : Stands a'.entries q y) :
    (∃ x, Stands a.entries q x ∧ y.standing = x.standing ∧ (h.isArray = true → ¬h.keys.map name <+: q)) ∨
      (q <+: h.path.map name ∧ y.standing = .implied) ∨ (q = h.keys.map name ∧ y.standing = .headed) := by
  obtain ⟨-, -, lead, rest, hpath, hbelow⟩ := a.add_header ha hadd
  have hkeys : h.keys.map name = lead.map name ++ (rest.map name ++ [h.leaf.name]) := by
    simp [Header.keys, hpath]
  rw [hkeys, hpath, map_append]
  rcases hbelow.stands ha.built.named hy with ⟨r, f, b, b', rfl, hchange, hopens, hr⟩ | ⟨hno, x, hx, hstanding⟩
  · have hb : Named b := hopens.named ha.built.named
    rcases hchange.stands hb hr with ⟨x, hx, hstanding, harray⟩ | ⟨hway, hstanding⟩ | ⟨rfl, hstanding⟩
    · refine .inl ⟨x, hopens.stands hx, hstanding, fun h => ?_⟩
      rw [prefix_append_right_inj]
      exact harray h
    · exact .inr (.inl ⟨(prefix_append_right_inj _).mpr hway, hstanding⟩)
    · exact .inr (.inr ⟨rfl, hstanding⟩)
  · refine .inl ⟨x, hx, hstanding, fun _ hway => ?_⟩
    obtain ⟨t, ht⟩ := hway
    rw [append_assoc] at ht
    exact hno _ (by simp) ht.symm

/-- What stands anywhere behind an entry line. -/
theorem Assembly.stands_entry {a : Assembly} (ha : a.Ready g) (hl : (Line.entry l).Proper) (hadd : a.add (.entry l) = .ok a')
    (hy : Stands a'.entries q y) :
    (∃ x, Stands a.entries q x ∧ y.standing = x.standing) ∨
      (∃ p, p ≠ [] ∧ p <+: l.path.map name ∧ q = a.current ++ p ∧ y.standing = .dotted) ∨
      (q = a.current ++ (l.path.map name ++ [l.leaf.name]) ∧ y = l.value) := by
  obtain ⟨-, -, hbelow⟩ := a.add_entry ha hl hadd
  rcases hbelow.stands ha.built.named hy with ⟨r, f, b, b', rfl, ⟨-, hrun⟩, hopens, hr⟩ | ⟨-, x, hx, hstanding⟩
  · have hleaf : ∀ sub, ¬l.entry.item.Enters sub := fun sub => not_enters_of_isValue hl.1 hl.2
    rcases hrun.stands isDottedTable_dottedTable hleaf hr with ⟨x, hx, hstanding⟩ | ⟨hway, hstanding⟩ | ⟨rfl, rfl⟩
    · exact .inl ⟨x, hopens.stands hx, hstanding⟩
    · exact .inr (.inl ⟨r, hr.ne_nil, hway, rfl, hstanding⟩)
    · exact .inr (.inr ⟨rfl, rfl⟩)
  · exact .inl ⟨x, hx, hstanding⟩

/-- An entry line takes away nothing that stands anywhere. -/
theorem Assembly.stands_before_entry {a : Assembly} (ha : a.Ready g) (hl : (Line.entry l).Proper)
    (hadd : a.add (.entry l) = .ok a') (hx : Stands a.entries q x) :
    ∃ y, Stands a'.entries q y ∧ y.standing = x.standing := by
  obtain ⟨ha', -, hbelow⟩ := a.add_entry ha hl hadd
  rcases hbelow.symm.stands ha'.built.named hx with ⟨r, f, b', b, rfl, ⟨-, hrun⟩, hopens, hr⟩ | ⟨-, y, hy, hstanding⟩
  · obtain ⟨y, hy, hstanding⟩ := hrun.stands_before hr
    exact ⟨y, hopens.stands hy, hstanding⟩
  · exact ⟨y, hy, hstanding.symm⟩

/-- Behind an entry line the tables of its dotted key stand on its way. -/
theorem Assembly.stands_made {a : Assembly} (ha : a.Ready g) (hl : (Line.entry l).Proper) (hadd : a.add (.entry l) = .ok a')
    (hne : p ≠ []) (hp : p <+: l.path.map name) : ∃ y, Stands a'.entries (a.current ++ p) y ∧ y.standing = .dotted := by
  obtain ⟨-, -, hbelow⟩ := a.add_entry ha hl hadd
  obtain ⟨f, b, b', ⟨-, hrun⟩, -, hopens⟩ := hbelow.opens
  obtain ⟨y, hy, hstanding⟩ := hrun.stands_made isDottedTable_dottedTable hne hp
  exact ⟨y, hopens.stands hy, hstanding⟩

end Verbatim

import Verbatim.Proofs.Placement
import Verbatim.Proofs.Tree

/-!
# Data and trees along key paths

A tree grows by entries, its data by fields. Where an entry is put below the tables of its key path, its value is put at
the same path of the data; where a header opens or appends a table, so does the data.
-/

namespace Verbatim

open List DataReader Item Fields

/-! ## Fields -/

namespace DataReader.Fields

variable {f : Fields → Option Fields} {k : String} {ks : List String}

variable {pre post t : Fields} {name : String} {v w : Plain}

theorem lookup_middle (h : name ∉ pre.map Prod.fst) : (pre ++ (name, v) :: post).lookup name = some v := by
  induction pre with
  | nil => simp
  | cons p pre ih =>
    obtain ⟨k, x⟩ := p
    rw [map_cons, mem_cons, not_or] at h
    rw [cons_append, lookup_cons, beq_false_of_ne h.1]
    exact ih h.2

theorem put_middle (h : name ∉ pre.map Prod.fst) : put name w (pre ++ (name, v) :: post) = pre ++ (name, w) :: post := by
  induction pre with
  | nil => simp [put]
  | cons p pre ih =>
    obtain ⟨k, x⟩ := p
    rw [map_cons, mem_cons, not_or] at h
    rw [cons_append, put, beq_false_of_ne (Ne.symm h.1), ih h.2]
    rfl

theorem lookup_eq_none (h : name ∉ t.map Prod.fst) : t.lookup name = none := by
  induction t with
  | nil => rfl
  | cons p t ih =>
    obtain ⟨k, x⟩ := p
    rw [map_cons, mem_cons, not_or] at h
    rw [lookup_cons, beq_false_of_ne h.1]
    exact ih h.2

/-- A longer path leads on from the table at a shorter one. -/
theorem atPath_append (lists : Bool) (f : Fields → Option Fields) (p q : List String) (t : Fields) :
    atPath lists f (p ++ q) t = atPath lists (atPath lists f q) p t := by
  induction p generalizing t with
  | nil => rfl
  | cons k p ih =>
    simp only [cons_append, atPath, ih]

theorem atPath_absent (h : k ∉ t.map Prod.fst) :
    atPath lists f (k :: ks) t = (atPath lists f ks []).map fun sub => t ++ [(k, .table sub)] := by
  rw [atPath, lookup_eq_none h]

theorem atPath_table (h : k ∉ pre.map Prod.fst) :
    atPath lists f (k :: ks) (pre ++ (k, .table sub) :: post) =
      (atPath lists f ks sub).map fun sub' => pre ++ (k, .table sub') :: post := by
  rw [atPath, lookup_middle h]
  simp only [put_middle h]

theorem atPath_element (h : k ∉ pre.map Prod.fst) :
    atPath true f (k :: ks) (pre ++ (k, .list (xs ++ [.table sub])) :: post) =
      (atPath true f ks sub).map fun sub' => pre ++ (k, .list (xs ++ [.table sub'])) :: post := by
  rw [atPath, lookup_middle h]
  simp only [if_true, List.getLast?_append, List.getLast?_singleton, Option.some_or, dropLast_concat, put_middle h]

end DataReader.Fields

/-! ## Entries as fields -/

namespace Item

theorem map_fst_unwrapFields (es : List (Entry Item)) : (unwrapFields es).map Prod.fst = es.map Entry.name := by
  simp [Function.comp_def]

theorem unwrapFields_append (es es' : List (Entry Item)) :
    unwrapFields (es ++ es') = unwrapFields es ++ unwrapFields es' := by simp

theorem unwrapFields_middle (pre post : List (Entry Item)) (e : Entry Item) :
    unwrapFields (pre ++ e :: post) = unwrapFields pre ++ (e.name, e.item.unwrap) :: unwrapFields post := by simp

/-- Where names are distinct, the name of an entry does not stand before it. -/
theorem name_not_mem_unwrapFields (h : ((pre ++ e :: post).map Entry.name).Nodup) :
    e.name ∉ (unwrapFields pre).map Prod.fst := by
  rw [map_fst_unwrapFields]
  rw [map_append, map_cons, nodup_append] at h
  intro hmem
  exact h.2.2 _ hmem _ (mem_cons_self ..) rfl

theorem unwrap_of_isDotted {x : Item} (h : x.isDotted = true) : x.unwrap = .table (unwrapFields x.entries) := by
  cases x with
  | inlineTable i f es => rfl
  | table i f es => rfl
  | _ => cases h

end Item

theorem IsDottedTable.unwrap {fresh : Item} (h : IsDottedTable fresh) (sub : List (Entry Item)) :
    (fresh.withEntries sub).unwrap = .table (unwrapFields sub) := by
  rw [unwrap_of_isDotted (h.dotted sub), h.entries]

/-! ## Entry lines -/

theorem DottedRun.atPath {fresh : Item} (hfresh : IsDottedTable fresh) {leaf : Entry Item}
    (h : DottedRun fresh leaf ks es es') (hes : Dotting es) (lists : Bool) :
    Fields.atPath lists (Fields.add? leaf.name leaf.item.unwrap) (ks.map Key.name) (unwrapFields es) =
      some (unwrapFields es') := by
  induction h with
  | @leaf es absent =>
    rw [← map_fst_unwrapFields] at absent
    rw [map_nil, Fields.atPath, Fields.add?, Fields.lookup_eq_none absent, unwrapFields_append]
    rfl
  | @make k ks es sub absent rest ih =>
    rw [← map_fst_unwrapFields] at absent
    have hsub := ih Dotting.nil
    rw [map_cons, Fields.atPath_absent absent, show ([] : Fields) = unwrapFields [] from rfl, hsub,
      unwrapFields_append]
    simp only [Option.map_some, unwrapFields, hfresh.unwrap]
    rfl
  | @enter k ks pre post sub e name dotted rest ih =>
    have he : e ∈ pre ++ e :: post := by simp
    have hpre := name_not_mem_unwrapFields hes.names
    have hsub := ih (hes.below_of_mem he dotted)
    rw [map_cons, ← name, unwrapFields_middle, unwrap_of_isDotted dotted, Fields.atPath_table hpre, hsub,
      unwrapFields_middle]
    simp only [Option.map_some, (isDottedTable dotted).unwrap, Entry.name]

/-- A change of the table at a path is a change of the data at the same path. -/
theorem Below.atPath
    (hchange : ∀ f x x', change f x x' → Built x → g (unwrapFields x) = some (unwrapFields x'))
    (h : Below change f names es es') (hes : Built es) :
    atPath true g names (unwrapFields es) = some (unwrapFields es') := by
  induction h with
  | here hlocal => exact hchange _ _ _ hlocal hes
  | @enter f f' pre post sub sub' e names rebuild item rest ih =>
    have he : e ∈ pre ++ e :: post := by simp
    have hpre := name_not_mem_unwrapFields hes.dotting.names
    have hsub := ih (hes.tables he item.mem_bodies)
    rw [unwrapFields_middle, unwrapFields_middle]
    obtain ⟨key, x, p, n, t⟩ := e
    dsimp only at item ⊢
    -- through a table, or through the last table of an array of tables
    cases item with
    | table => rw [unwrap, atPath_table hpre, hsub]; rfl
    | @element i j ts =>
      have hunwrap : ∀ y, (arrayOfTables i (ts ++ [.table j f' y])).unwrap =
          .list (ts.map unwrap ++ [.table (unwrapFields y)]) := by
        intro y
        simp [unwrap]
      rw [hunwrap, atPath_element hpre, hsub, hunwrap]
      rfl

/-! ## Header lines -/

/-- What a header does to the data of the table that it stands in. -/
def Header.placeData (h : Header) : Fields → Option Fields :=
  if h.isArray then grow? h.leaf.name else atPath true some [h.leaf.name]

theorem Header.unwrap_table (h : Header) (es : List (Entry Item)) : (h.table es).unwrap = .table (unwrapFields es) := rfl

/-- A header whose way leads through no table that is there. -/
theorem Header.atPath_freshEntry (h : Header) (rest : List Key) (ht : (h.freshEntry rest).name ∉ t.map Prod.fst) :
    atPath true h.placeData (rest.map Key.name) t =
      some (t ++ [((h.freshEntry rest).name, (h.freshEntry rest).item.unwrap)]) := by
  induction rest generalizing t with
  | nil =>
    have hleaf : h.leaf.name ∉ t.map Prod.fst := ht
    rw [map_nil, atPath, Header.placeData]
    cases harray : h.isArray with
    | true =>
      rw [if_pos rfl, grow?, lookup_eq_none hleaf]
      simp [Header.freshEntry, harray, unwrap, h.unwrap_table, Entry.name, Key.bare]
    | false =>
      rw [if_neg (by decide), atPath_absent hleaf]
      simp [Header.freshEntry, harray, h.unwrap_table, Entry.name, Key.bare, atPath]
  | cons k ks ih =>
    have hk : k.name ∉ t.map Prod.fst := ht
    rw [map_cons, atPath_absent hk, ih (by simp)]
    simp [Header.freshEntry, impliedTable, withEntries, unwrap, Entry.name, Key.bare]

/-- The table of a header is placed in the data as it is placed in the tree. -/
theorem HeaderChange.atPath (hchange : HeaderChange h rest x x') (hx : Built x) :
    Fields.atPath true h.placeData (rest.map Key.name) (unwrapFields x) = some (unwrapFields x') := by
  cases hchange with
  | fresh absent =>
    rw [← map_fst_unwrapFields] at absent
    rw [h.atPath_freshEntry rest absent, unwrapFields_append]
    simp
  | @promote pre post sub e i f single name item implied notDotted =>
    have hpre := name_not_mem_unwrapFields hx.dotting.names
    rw [map_nil, Fields.atPath, Header.placeData, single, if_neg (by decide), unwrapFields_middle, item, ← name,
      unwrap, Fields.atPath_table hpre, unwrapFields_middle]
    rfl
  | @append pre post e i ts array name item =>
    have hpre := name_not_mem_unwrapFields hx.dotting.names
    rw [map_nil, Fields.atPath, Header.placeData, array, if_pos rfl, unwrapFields_middle, item, ← name,
      Fields.grow?, unwrap, Fields.lookup_middle hpre, unwrapFields_middle]
    simp only [Fields.put_middle hpre]
    simp [unwrap, h.unwrap_table, Entry.name]

end Verbatim

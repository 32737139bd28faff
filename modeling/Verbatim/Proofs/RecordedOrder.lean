import Verbatim.Proofs.RecordedTree

/-!
# The headers of a text stand in order

Lines are numbered as they come, and every line is added behind all others. So the numbers of the headers fit the tree: below
a dotted table only later headers stand than the one above its body, since a dotted key never extends a table that a header
has implied; and a header that leads through an array of tables leads through its last element.
-/

namespace Verbatim

open List DataReader Item

variable {f : TableForm} {new : List Int} {names : List String} {sub es es' : List (Entry Item)} {o : Owner} {i : Info}

/-! ## Distinct names -/

theorem Item.Leads.mem_bodies {x : Item} (h : x.Leads sub) (hd : x.isDotted = false ∨ x.isValue = false) :
    sub ∈ x.bodies := by
  cases h with
  | splits h =>
    cases h with
    | table => simp [bodies]
    | inlineTable dotted _ =>
      rcases hd with hd | hd
      · exact absurd (dotted.symm.trans hd) (by decide)
      · cases hd
  | @element i ts t es mem h =>
    rw [bodies, ← h.entries_eq]
    exact mem_map_of_mem mem

/-- Names are distinct while lines are added. -/
theorem Built.orderly (h : Built es) : Orderly es := by
  induction h with
  | @intro es dotting sound below ih =>
    have hplain : ∀ e ∈ es, e.item.isDotted = false ∨ e.item.isValue = false := by
      intro e he
      have hsound := sound e he
      cases hx : e.item with
      | inlineTable i f sub =>
        rw [hx] at hsound
        exact .inl hsound
      | _ => simp [isDotted, isValue]
    refine .intro dotting.names (fun e he hd => ?_) fun e he sub hsub => ih e he sub (hsub.mem_bodies (hplain e he))
    refine splits_of_isTable ?_
    have hvalue := (hplain e he).resolve_left (by simp [hd])
    cases hx : e.item with
    | table i f sub => rfl
    | _ => simp_all [isDotted, isValue]

/-! ## Numbers of headers -/

@[simp] theorem timesIn_nil : timesIn [] = [] := rfl

@[simp] theorem timesIn_append (es es' : List (Entry Item)) : timesIn (es ++ es') = timesIn es ++ timesIn es' :=
  flatMap_append

@[simp] theorem timesIn_cons (e : Entry Item) (es : List (Entry Item)) : timesIn (e :: es) = e.item.times ++ timesIn es :=
  flatMap_cons

theorem Item.LeadsTo.times {x : Item}
    (h : x.LeadsTo f sub rebuild) (hsub : (timesIn sub').Perm (new ++ timesIn sub)) :
    ((rebuild sub').times).Perm (new ++ x.times) := by
  cases h with
  | @table i f sub =>
    rw [times_table, times_table]
    exact (hsub.append_left _).trans (perm_append_comm_assoc ..)
  | @element i j ts f sub =>
    simp only [times_arrayOfTables, flatMap_append, flatMap_singleton, times_table]
    have hlast := (hsub.append_left f.time?.toList).trans (perm_append_comm_assoc ..)
    exact (hlast.append_left _).trans (perm_append_comm_assoc ..)

variable {change : TableForm → List (Entry Item) → List (Entry Item) → Prop}

/-- A change below a table brings in the numbers that it brings in there. -/
theorem Below.times (hchange : ∀ g x x', change g x x' → (timesIn x').Perm (new ++ timesIn x))
    (h : Below change f names es es') : (timesIn es').Perm (new ++ timesIn es) := by
  induction h with
  | here hhere => exact hchange _ _ _ hhere
  | @enter f f' pre post sub sub' e names rebuild item rest ih =>
    simp only [timesIn_append, timesIn_cons]
    refine (((item.times ih).append_right _).append_left _).trans ?_
    rw [append_assoc]
    exact perm_append_comm_assoc ..

/-- Where no values stand the owner does not matter. -/
theorem Arranged.of_none (h : Arranged none es) (o : Owner) : Arranged o es := by
  intro e he
  have hd : e.item.isDotted = false := by
    rw [Bool.eq_false_iff]
    intro hd
    obtain ⟨-, b, hb, -⟩ := (h e he).dotted hd
    cases hb
  cases h e he with
  | value _ _ owned => exact absurd rfl owned
  | table item _ inhabited below =>
    refine .table item (fun hdotted => ?_) inhabited ?_
    · rw [item, isDotted, hdotted] at hd
      cases hd
    · rwa [Owner.enter, hd] at below ⊢
  | arrayOfTables item nonempty headed sorted elements => exact .arrayOfTables item nonempty headed sorted elements

/-! ## Changes with a later number -/

/-- The body of a table that no dotted key made begins with its header, if it has one. -/
def TableForm.Owns (f : TableForm) (o : Owner) : Prop := f.dotted = false → o = f.time?.map (·, [])

/-- A number is later than those of all headers below entries, and than that of the header above their body. -/
structure Later (n : Int) (o : Owner) (es : List (Entry Item)) : Prop where
  times : ∀ p ∈ timesIn es, p < n
  owner : ∀ b ∈ o, b.1 < n

section Later

variable {n : Int} {o : Owner} {es sub : List (Entry Item)} {e : Entry Item}

section

variable (h : Later n o es) (he : e ∈ es)

include h he

theorem Later.of_mem : ∀ p ∈ e.item.times, p < n :=
  fun p hp => h.times p (mem_timesIn.mpr ⟨e, he, hp⟩)

/-- The same of the entries of a table. -/
theorem Later.table (hx : e.item = .table i f sub) : Later n (o.enter e) sub where
  times p hp := by
    refine h.of_mem he p ?_
    rw [hx, times_table]
    exact mem_append_right _ hp
  owner b hb := by
    rw [Owner.enter] at hb
    split at hb
    · obtain ⟨b', hb', rfl⟩ := Option.map_eq_some_iff.mp hb
      exact h.owner b' hb'
    · obtain ⟨p, hp, rfl⟩ := Option.map_eq_some_iff.mp hb
      exact h.of_mem he p (time?_mem_times hp)

theorem Later.element (hx : e.item = .arrayOfTables i ts) (ht : .table j f sub ∈ ts) :
    Later n (Item.table j f sub).owner sub := by
  have hmem : ∀ p ∈ (Item.table j f sub).times, p < n := by
    intro p hp
    refine h.of_mem he p ?_
    rw [hx, times_arrayOfTables]
    exact mem_flatMap.mpr ⟨_, ht, hp⟩
  refine ⟨fun p hp => hmem p ?_, fun b hb => ?_⟩
  · rw [times_table]
    exact mem_append_right _ hp
  · obtain ⟨p, hp, rfl⟩ := Option.map_eq_some_iff.mp hb
    exact hmem p (time?_mem_times hp)

end

end Later

theorem owns_enter (hx : e.item = .table i f sub) : f.Owns (o.enter e) := by
  intro hd
  rw [Owner.enter, hx, if_neg (by simp [isDotted, hd])]
  rfl

/-- A header that is met at the end of a way is met on the way. -/
theorem Below.marked (hchange : ∀ g x x', change g x x' → g.time?.toList ++ timesIn x' ≠ []) (h : Below change f names es es') :
    f.time?.toList ++ timesIn es' ≠ [] := by
  induction h with
  | here hhere => exact hchange _ _ _ hhere
  | @enter f f' pre post sub sub' e names rebuild item rest ih =>
    have htimes : (rebuild sub').times ≠ [] := by
      generalize e.item = x at item
      cases item with
      | table => rwa [times_table]
      | @element i j ts f' sub =>
        rw [times_arrayOfTables, flatMap_append]
        simpa [times_table] using fun _ => by simpa using ih
    simp [htimes]

/-- What a change with a later number than all others keeps where it happens, it keeps in the tree around it. -/
theorem Below.arranged (hnew : ∀ p ∈ new, p = n) (htimes : ∀ g x x', change g x x' → (timesIn x').Perm (new ++ timesIn x))
    (hmarked : ∀ g x x', change g x x' → g.time?.toList ++ timesIn x' ≠ [])
    (hchange : ∀ g x x' o, change g x x' → g.Owns o → Later n o x → Arranged o x → Arranged o x')
    (h : Below change f names es es') (hf : f.Owns o) (hlater : Later n o es) (hes : Arranged o es) : Arranged o es' := by
  induction h generalizing o with
  | here hhere => exact hchange _ _ _ _ hhere hf hlater hes
  | @enter f f' pre post sub sub' e names rebuild item rest ih =>
    have he : e ∈ pre ++ e :: post := by simp
    have hsub := rest.times htimes
    have hmet := rest.marked hmarked
    -- a number below the entry was there before, or it is the later one
    have hmem : ∀ p ∈ timesIn sub', p = n ∨ p ∈ timesIn sub := by
      intro p hp
      rcases mem_append.mp (hsub.mem_iff.mp hp) with hp | hp
      · exact .inl (hnew p hp)
      · exact .inr hp
    have hfits := hes e he
    suffices hnewFits : Fits o { e with item := rebuild sub' } by
      intro d hd
      simp only [mem_append, mem_cons] at hd
      rcases hd with hd | rfl | hd
      · exact hes d (by simp [hd])
      · exact hnewFits
      · exact hes d (by simp [hd])
    generalize hx : e.item = x at item
    cases item with
    | @table i f' sub =>
      have hbelow := (hfits.tables (by rw [hx]; rfl)).2
      rw [hx] at hbelow
      have henter : Owner.enter o { e with item := .table i f' sub' } = o.enter e := by
        rw [Owner.enter, Owner.enter, hx]
        rfl
      refine .table rfl (fun hd => ?_) (.inl ?_) ?_
      · obtain ⟨-, b, hb, hlt⟩ := hfits.dotted (by rw [hx]; exact hd)
        refine ⟨b, hb, fun p hp => ?_⟩
        rw [times_table] at hp
        rcases mem_append.mp hp with hp | hp
        · exact hlt p (by rw [hx, times_table]; exact mem_append_left _ hp)
        · rcases hmem p hp with rfl | hp
          · exact hlater.owner b hb
          · exact hlt p (by rw [hx, times_table]; exact mem_append_right _ hp)
      · rwa [times_table]
      · rw [henter]
        exact ih (owns_enter hx) (hlater.table he hx) hbelow
    | @element i j ts f' sub =>
      have hold : .table j f' sub ∈ ts ++ [table j f' sub] := by simp
      obtain ⟨-, hheaded, hsorted, helements⟩ := hfits.elements hx
      obtain ⟨p, hp, hlt⟩ := hheaded _ hold
      have hbelow := ih (fun _ => rfl) (hlater.element he hx hold) (helements _ hold)
      obtain ⟨hsorted, -, hlast⟩ := pairwise_append.mp hsorted
      refine .arrayOfTables rfl (by simp) (fun t ht => ?_) (pairwise_append.mpr ⟨hsorted, by simp, ?_⟩) fun t ht => ?_
      · rcases mem_append.mp ht with ht | ht
        · exact hheaded t (mem_append_left _ ht)
        · obtain rfl := mem_singleton.mp ht
          refine ⟨p, hp, fun p' hp' => ?_⟩
          rcases hmem p' hp' with rfl | hp'
          · exact (hlater.element he hx hold).owner (p, []) (by rw [Item.owner, hp]; rfl)
          · exact hlt p' hp'
      · intro t ht u hu p hp p' hp'
        obtain rfl := mem_singleton.mp hu
        rw [times_table] at hp'
        rcases mem_append.mp hp' with hp' | hp'
        · exact hlast t ht (.table j f' sub) (by simp) p hp p' (by rw [times_table]; exact mem_append_left _ hp')
        · rcases hmem p' hp' with rfl | hp'
          · refine hlater.of_mem he p ?_
            rw [hx, times_arrayOfTables]
            exact mem_flatMap.mpr ⟨t, mem_append_left _ ht, hp⟩
          · exact hlast t ht (.table j f' sub) (by simp) p hp p' (by rw [times_table]; exact mem_append_right _ hp')
      · rcases mem_append.mp ht with ht | ht
        · exact helements t (mem_append_left _ ht)
        · obtain rfl := mem_singleton.mp ht
          exact hbelow

/-! ## Headers -/

section Headers

variable {h : Header} {rest : List Key} {x x' : List (Entry Item)}

theorem Header.times_table (h : Header) (es : List (Entry Item)) : (h.table es).times = (h.number : Int) :: timesIn es :=
  Item.times_table ..

theorem Header.times_freshEntry (h : Header) (rest : List Key) : (h.freshEntry rest).item.times = [(h.number : Int)] := by
  induction rest with
  | nil =>
    rw [Header.freshEntry]
    dsimp only
    split
    · rw [times_arrayOfTables, flatMap_singleton, h.times_table]
      rfl
    · rw [h.times_table]
      rfl
  | cons k rest ih =>
    show (Item.table {} { implicit := true } [h.freshEntry rest]).times = _
    rw [Item.times_table, timesIn_cons, ih]
    rfl

theorem HeaderChange.times (hchange : HeaderChange h rest x x') : (timesIn x').Perm ([(h.number : Int)] ++ timesIn x) := by
  cases hchange with
  | fresh absent =>
    rw [timesIn_append, timesIn_cons, h.times_freshEntry, timesIn_nil]
    exact perm_append_comm
  | @promote pre post sub e i f single name item implied notDotted =>
    have htimes : e.item.times = timesIn sub := by
      rw [item, times_table, TableForm.time?, implied, Bool.or_true]
      rfl
    simp only [timesIn_append, timesIn_cons, h.times_table, htimes]
    exact perm_middle
  | @append pre post e i ts array name item =>
    have htimes : e.item.times = ts.flatMap times := by rw [item, times_arrayOfTables]
    simp only [timesIn_append, timesIn_cons, times_arrayOfTables, flatMap_append, flatMap_singleton,
      h.times_table, timesIn_nil, htimes, append_assoc]
    refine ((perm_append_comm_assoc (ts.flatMap times) [(h.number : Int)] (timesIn post)).append_left _).trans ?_
    exact perm_append_comm_assoc ..

theorem Header.arranged_freshEntry (h : Header) (rest : List Key) (o : Owner) : Fits o (h.freshEntry rest) := by
  induction rest generalizing o with
  | nil =>
    cases harray : h.isArray with
    | true =>
      have hitem : (h.freshEntry []).item =
          .arrayOfTables { span := some ⟨h.span.start, h.span.start + 2⟩ } [h.table []] := by
        rw [Header.freshEntry, harray]
        rfl
      refine .arrayOfTables hitem (by simp) ?_ (by simp) ?_
      · simp only [mem_singleton, forall_eq]
        exact ⟨h.number, rfl, by simp [Header.table, entries]⟩
      · simp only [mem_singleton, forall_eq]
        exact forall_mem_nil _
    | false =>
      have hitem : (h.freshEntry []).item = .table { span := some h.span } h.form [] := by
        rw [Header.freshEntry, harray]
        rfl
      refine .table hitem (by rintro ⟨⟩) (.inl ?_) (forall_mem_nil _)
      rw [h.times_freshEntry]
      simp
  | cons k rest ih =>
    have hitem : (h.freshEntry (k :: rest)).item = .table {} { implicit := true } [h.freshEntry rest] := rfl
    refine .table hitem (by rintro ⟨⟩) (.inl ?_) ?_
    · rw [h.times_freshEntry]
      simp
    · simpa using ih _

/-- A header keeps the numbers fitting if its own one is later than all others. -/
theorem HeaderChange.arranged (hchange : HeaderChange h rest x x') (hlater : Later h.number o x) (hx : Arranged o x) :
    Arranged o x' := by
  cases hchange with
  | fresh absent =>
    intro d hd
    rcases mem_append.mp hd with hd | hd
    · exact hx d hd
    · rw [mem_singleton.mp hd]
      exact h.arranged_freshEntry rest o
  | @promote pre post sub e i f single name item implied notDotted =>
    have hbelow := ((hx e (by simp)).tables (by rw [item]; rfl)).2
    have hnone : o.enter e = none := by
      rw [Owner.enter, item, if_neg (by simp [isDotted, notDotted])]
      simp [owner, time?, TableForm.time?, implied]
    rw [hnone, item] at hbelow
    intro d hd
    simp only [mem_append, mem_cons] at hd
    rcases hd with hd | rfl | hd
    · exact hx d (by simp [hd])
    · have hitem : h.table sub = .table { span := some h.span } h.form sub := rfl
      refine .table hitem (by rintro ⟨⟩) (.inl ?_) (hbelow.of_none _)
      rw [h.times_table]
      simp
    · exact hx d (by simp [hd])
  | @append pre post e i ts array name item =>
    have he : e ∈ pre ++ e :: post := by simp
    obtain ⟨-, hheaded, hsorted, helements⟩ := (hx e he).elements item
    intro d hd
    simp only [mem_append, mem_cons] at hd
    rcases hd with hd | rfl | hd
    · exact hx d (by simp [hd])
    · refine .arrayOfTables rfl (by simp) (fun t ht => ?_) (pairwise_append.mpr ⟨hsorted, by simp, ?_⟩) fun t ht => ?_
      · rcases mem_append.mp ht with ht | ht
        · exact hheaded t ht
        · rw [mem_singleton.mp ht]
          exact ⟨h.number, rfl, by simp [Header.table, entries]⟩
      · -- what is there already is earlier
        intro t ht u hu p hp p' hp'
        rw [mem_singleton.mp hu, h.times_table, timesIn_nil, mem_singleton] at hp'
        rw [hp']
        refine hlater.of_mem he p ?_
        rw [item, times_arrayOfTables]
        exact mem_flatMap.mpr ⟨t, ht, hp⟩
      · rcases mem_append.mp ht with ht | ht
        · exact helements t ht
        · rw [mem_singleton.mp ht]
          exact forall_mem_nil _
    · exact hx d (by simp [hd])

end Headers

/-! ## Entry lines -/

section Entries

variable {leaf : Entry Item} {ks : List Key} {es es' : List (Entry Item)}

section

variable (h : DottedRun dottedTable leaf ks es es') (hv : leaf.item.isValue = true)

include h hv

/-- An entry line brings in no header. -/
theorem DottedRun.times :
    timesIn es' = timesIn es := by
  induction h with
  | leaf absent => simp [times_of_isValue hv]
  | @make k ks es sub absent rest ih =>
    have hitem : (dottedTable.withEntries sub).times = timesIn sub := times_table ..
    simp [hitem, ih]
  | @enter k ks pre post sub e name dotted rest ih =>
    have hitem : (e.item.withEntries sub).times = e.item.times := by
      cases hx : e.item with
      | table i f sub₀ =>
        rw [hx] at ih
        rw [withEntries, times_table, times_table, ih]
        rfl
      | inlineTable i f sub₀ => rfl
      | _ =>
        rw [hx] at dotted
        cases dotted
    simp [hitem]

/-- An entry line stands below its dotted key. -/
theorem DottedRun.bodyPath
    (hd : leaf.item.isDotted = false) : ∃ q, BodyPath es' q leaf := by
  induction h with
  | leaf absent => exact ⟨_, .value (by simp) hv hd⟩
  | @make k ks es sub absent rest ih =>
    obtain ⟨q, hq⟩ := ih
    exact ⟨_, .dotted (e := { key := k.bare, item := dottedTable.withEntries sub }) (by simp) rfl hq⟩
  | @enter k ks pre post sub e name dotted rest ih =>
    obtain ⟨q, hq⟩ := ih
    have htable := isDottedTable dotted
    exact ⟨_, .dotted (e := { e with item := e.item.withEntries sub }) (by simp) (htable.dotted sub)
      (by rw [htable.entries]; exact hq)⟩

/-- An entry line keeps the numbers fitting in a body. -/
theorem DottedRun.arranged
    (hd : leaf.item.isDotted = false) (hes : Arranged (some (b, c)) es) : Arranged (some (b, c)) es' := by
  induction h generalizing c with
  | leaf absent =>
    intro d hd'
    rcases mem_append.mp hd' with hd' | hd'
    · exact hes d hd'
    · rw [mem_singleton.mp hd']
      exact .value hv hd (by simp)
  | @make k ks es sub absent rest ih =>
    intro d hd'
    rcases mem_append.mp hd' with hd' | hd'
    · exact hes d hd'
    · rw [mem_singleton.mp hd']
      have hitem : dottedTable.withEntries sub = .table {} { implicit := true, dotted := true } sub := rfl
      obtain ⟨q, hq⟩ := rest.bodyPath hv hd
      refine .table hitem (fun _ => ⟨_, rfl, fun p hp => ?_⟩) (.inr ⟨_, leaf, .dotted (mem_singleton_self _) rfl hq⟩)
        (ih (forall_mem_nil _))
      -- there are no headers below
      have hnone : (dottedTable.withEntries sub).times = [] :=
        (times_table ..).trans (rest.times hv)
      rw [hnone] at hp
      cases hp
  | @enter k ks pre post sub e name dotted rest ih =>
    have he : e ∈ pre ++ e :: post := by simp
    have hfits := hes e he
    have htable := (hfits.dotted dotted).1
    have hbelow := (hfits.tables htable).2
    intro d hd'
    simp only [mem_append, mem_cons] at hd'
    rcases hd' with hd' | rfl | hd'
    · exact hes d (by simp [hd'])
    · obtain ⟨q, hq⟩ := rest.bodyPath hv hd
      have htimes := rest.times hv
      cases hx : e.item with
      | table i f sub₀ =>
        rw [hx] at dotted htimes hbelow ih
        have henter : Owner.enter (some (b, c)) e = some (b, c ++ [e.name]) := by
          rw [Owner.enter, hx, if_pos dotted]
          rfl
        rw [henter] at hbelow
        refine .table rfl (fun hd' => ?_) (.inr ⟨_, leaf, .dotted (mem_singleton_self _) dotted hq⟩) ?_
        · obtain ⟨-, b', hb', hlt⟩ := hfits.dotted (by rw [hx]; exact dotted)
          refine ⟨b', hb', fun p hp => hlt p ?_⟩
          rw [hx, times_table]
          rwa [withEntries, times_table, htimes] at hp
        · rw [Owner.enter, if_pos (by exact dotted)]
          exact ih hbelow
      | _ =>
        rw [hx] at htable
        cases htable
    · exact hes d (by simp [hd'])

end

end Entries

/-! ## Whole texts -/

/-- The headers of a tree under construction are numbered in an order in which they can be read, up to a number. -/
structure Assembly.Ordered (a : Assembly) (n : Nat) : Prop where
  arranged : Arranged home a.entries
  nodup : (timesIn a.entries).Nodup
  /-- The numbers begin with one. -/
  range : ∀ p ∈ timesIn a.entries, 0 < p ∧ p ≤ n

theorem owns_rootForm : rootForm.Owns home := fun _ => rfl

theorem Assembly.Ordered.empty : ({} : Assembly).Ordered 0 :=
  ⟨forall_mem_nil _, .nil, by simp⟩

/-- A line with a later number keeps the headers in order. -/
theorem Assembly.Ordered.add {a a' : Assembly} (h : a.Ordered n) (ha : a.Ready g)
    (hl : l.Proper) (hn : n < l.number) (hadd : a.add l = .ok a') : a'.Ordered l.number := by
  have hlater : Later (l.number : Int) home a.entries := by
    refine ⟨fun p hp => ?_, ?_⟩
    · have := (h.range p hp).2
      omega
    · rintro b ⟨⟩
      show (0 : Int) < l.number
      omega
  cases l with
  | header hd =>
    obtain ⟨-, -, lead, rest, -, hbelow⟩ := Assembly.add_header ha hadd
    have htimes := hbelow.times fun _ _ _ hchange => hchange.times
    refine ⟨?_, ?_, fun p hp => ?_⟩
    · refine hbelow.arranged (n := hd.number) (by simp) (fun _ _ _ hchange => hchange.times) (fun g x x' hchange => ?_)
        (fun g x x' o hchange _ hlater hx => hchange.arranged hlater hx) owns_rootForm hlater h.arranged
      intro hnil
      have := (append_eq_nil_iff.mp hnil).2 ▸ hchange.times
      simpa using this.length_eq
    · rw [htimes.nodup_iff, singleton_append, nodup_cons]
      exact ⟨fun hp => absurd (hlater.times _ hp) (Int.lt_irrefl _), h.nodup⟩
    · rw [htimes.mem_iff, singleton_append, mem_cons] at hp
      rcases hp with rfl | hp
      · exact ⟨by simp only [Line.number] at hn; omega, Int.le_refl _⟩
      · have := h.range p hp
        exact ⟨this.1, by omega⟩
  | entry e =>
    obtain ⟨-, -, hbelow⟩ := Assembly.add_entry ha hl hadd
    have hchange : ∀ f x x', EntryChange g e f x x' → (timesIn x').Perm ([] ++ timesIn x) := by
      rintro f x x' ⟨-, hrun⟩
      rw [hrun.times hl.1]
      rfl
    have htimes := hbelow.times hchange
    rw [nil_append] at htimes
    obtain ⟨p₀, hp₀⟩ := Option.isSome_iff_exists.mp ha.header.placed
    have htime : g.time? = some p₀ := by
      rw [TableForm.time?, ha.header.notDotted, ha.header.explicit]
      exact hp₀
    refine ⟨?_, htimes.nodup_iff.mpr h.nodup, fun p hp => ?_⟩
    · refine hbelow.arranged (n := e.number) (by simp) hchange ?_ ?_ owns_rootForm hlater h.arranged
      · rintro f x x' ⟨rfl, -⟩
        simp [htime]
      · rintro f x x' o ⟨rfl, hrun⟩ howns - hx
        have ho : o = some (p₀, []) := by rw [howns ha.header.notDotted, htime]; rfl
        subst ho
        exact hrun.arranged hl.1 hl.2 hx
    · have := h.range p (htimes.mem_iff.mp hp)
      exact ⟨this.1, by omega⟩

theorem Assembly.Ordered.addAll {a a' : Assembly} (h : a.Ordered n) (ha : a.Ready g)
    (hproper : ∀ l ∈ ls, l.Proper) (hfirst : ∀ l ∈ ls, n < l.number) (hsorted : ls.Pairwise fun l l' => l.number < l'.number)
    (hadd : a.addAll ls = .ok a') : ∃ m, a'.Ordered m := by
  induction ls generalizing a g n with
  | nil =>
    cases hadd
    exact ⟨n, h⟩
  | cons l ls ih =>
    rw [forall_mem_cons] at hproper hfirst
    rw [pairwise_cons] at hsorted
    rw [Assembly.addAll] at hadd
    split at hadd
    · cases hadd
    · next b hb =>
      obtain ⟨g', hb'⟩ := Assembly.ready_add ha hproper.1 hb
      exact ih (h.add ha hproper.1 hfirst.1 hb) hb' hproper.2 hsorted.1 hsorted.2 hadd

/-- The numbers of the headers in the tree of a text fit the tree, and each is given once. -/
theorem readTree_ordered {limit : Nat}
    (h : readTree limit source = .ok (root, trailing)) :
    Arranged home root.entries ∧ (timesIn root.entries).Nodup ∧ ∀ p ∈ timesIn root.entries, 0 < p := by
  obtain ⟨ls, hrun, hassemble⟩ := readTree_eq_ok h
  obtain ⟨hproper, hfirst, hsorted⟩ := hrun.proper (Cursor.start_on source)
  rw [assemble] at hassemble
  split at hassemble
  · cases hassemble
  · next a ha =>
    obtain ⟨m, hordered⟩ := Assembly.Ordered.empty.addAll Assembly.ready_empty hproper hfirst hsorted ha
    cases hassemble
    exact ⟨hordered.arranged, hordered.nodup, fun p hp => (hordered.range p hp).1⟩

/-- The tree of a text that the strict reader takes can be read back. -/
theorem readTree_rereadable (h : readTree limit source = .ok (root, trailing))
    (hread : readDocument source = .ok data) :
    root = .table {} rootForm root.entries ∧ Rereadable (some source) limit root.entries ∧
      trailing.Shows (some source) Tail := by
  obtain ⟨hroot, hbuilt, hlegible, htrailing⟩ := readTree_legible h hread
  obtain ⟨harranged, hnodup, hpos⟩ := readTree_ordered h
  refine ⟨hroot, ⟨hlegible, hbuilt.orderly, ⟨hnodup, ?_⟩, harranged, hpos⟩, htrailing⟩
  rintro b ⟨⟩ hzero
  exact absurd (hpos 0 hzero) (Int.lt_irrefl 0)

end Verbatim

import Verbatim.Proofs.LegibleLines
import Verbatim.Proofs.Stages

/-!
# Reading a tree back

A tree is written table by table, in the order of the numbers of its headers. Where the numbers fit the tree, each header is
met where its table stands, and the lines of its body follow; so the strict reader accepts all lines, and the data at the end
is that of the tree.
-/

namespace Verbatim

open List DataReader Render Item

variable {p now : Int} {s : Reading} {x : Item}

variable {g g' : Progress} {o o' : Owner} {es es' root sub : List (Entry Item)}

/-! ## Places of tables -/

/-- The way of keys from the entries of a table to those of another one, through any elements of arrays of tables. -/
abbrev Located : Owner → List (Entry Item) → List Key → Owner → List (Entry Item) → Prop :=
  Route (fun ts n t => ts[n]? = some t) Entry.key

theorem Located.arranged (h : Located o es ks o' es') (hes : Arranged o es) :
    Arranged o' es' ∧ ∀ p ∈ timesIn es', p ∈ timesIn es := by
  refine Route.arranged ?_ h hes
  exact fun _ _ _ => mem_of_getElem?

/-- When the headers before a number have been met, and no others, the way to the table of that header is open. -/
theorem Located.way (h : Located o es ks o' es') (hes : Arranged o es) (hp : p ∈ timesIn es')
    (hopened : ∀ q ∈ timesIn es, g.opened q ↔ q < p) : Way g o es (ks.map Key.name) o' es' := by
  induction h with
  | here => exact .here
  | @step o o₁ o' es sub es' e ks mem into rest ih =>
    obtain ⟨hsub, htimes⟩ := into.arranged (fun _ _ _ => mem_of_getElem?) (hes e mem)
    have hbelow := (Located.arranged rest hsub).2 p hp
    refine .step mem ?_ (ih hsub hp fun q hq => hopened q (mem_timesIn.mpr ⟨e, mem, htimes q hq⟩))
    cases into with
    | table isTable => exact .table isTable
    | @element i ts n t item found =>
      have ht : t ∈ ts := mem_of_getElem? found
      obtain ⟨-, hheaded, hsorted, -⟩ := (hes e mem).elements item
      obtain ⟨p₀, hp₀, hless⟩ := hheaded t ht
      have hmem {u : Item} (hu : u ∈ ts) {q : Int} (hq : q ∈ u.times) : q ∈ timesIn es :=
        mem_timesIn.mpr ⟨e, mem, times_of_element item hu q hq⟩
      refine .element item ⟨found, ⟨p₀, hp₀, ?_⟩, fun m u hm hu hopens => ?_⟩
      · exact (hopened p₀ (hmem ht (time?_mem_times hp₀))).mpr (hless p hbelow)
      · -- a later element has larger numbers only
        obtain ⟨q, hq, hopen⟩ := hopens
        have hu' : u ∈ ts := mem_of_getElem? hu
        have hlate := (hopened q (hmem hu' (time?_mem_times hq))).mp hopen
        have hsorted := pairwise_iff_getElem.mp hsorted
        obtain ⟨hn, rfl⟩ := List.getElem?_eq_some_iff.mp found
        obtain ⟨hm', rfl⟩ := List.getElem?_eq_some_iff.mp hu
        have := hsorted n m hn hm' hm p ((splits_of_isTable (isTable_of_time? hp₀)).times p hbelow) q (time?_mem_times hq)
        omega

/-! ## Bodies -/

variable {source : Option (List Char)} {layout : Layout} {limit : Nat}

/-- Lines of a body are read, and then they have been met. -/
theorem Stage.lines (h : Stage root g now sub s) (layout : Layout) (hroot : Orderly root) (hseparate : Separate home root)
    (harranged : Arranged home root) {ls : List (List Key × Entry Item)} (hpaths : ∀ l ∈ ls, BodyPath sub (lineNames l) l.2)
    (hnodup : (ls.map lineNames).Nodup) (hnew : ∀ l ∈ ls, ¬g.spoken now (lineNames l))
    (hlegible : ∀ l ∈ ls, LineLegible source Trivia Tail l.1 l.2 ∧
      l.2.item.Spells source (valueWithin limit nestingLevels)) :
    ∃ ms s' g', Forall₂ (WrittenLine.Says source layout limit) (ls.map fun l => .body (valueLine source l.1 l.2)) ms ∧
      Accepted s ms s' ∧ Stage root g' now sub s' ∧ g'.opened = g.opened ∧
      (∀ p q, g'.spoken p q ↔ g.spoken p q ∨ (p = now ∧ q ∈ ls.map lineNames)) := by
  induction ls generalizing g s with
  | nil => exact ⟨[], s, g, .nil, .nil, h, rfl, by simp⟩
  | cons l ls ih =>
    obtain ⟨hpath, hpaths⟩ := forall_mem_cons.mp hpaths
    obtain ⟨⟨hline, hvalue⟩, hlegible⟩ := forall_mem_cons.mp hlegible
    rw [map_cons, nodup_cons] at hnodup
    obtain ⟨w, hsame, hmeaning⟩ := @says_body source layout limit l.1 l.2 hline hvalue
    obtain ⟨s₁, haccept, havoids, hstage⟩ := h.entry hroot hseparate harranged hpath (hnew l mem_cons_self) hsame
    have hnew₁ : ∀ l' ∈ ls, ¬(g.say now (lineNames l)).spoken now (lineNames l') := by
      rintro l' hl' (hspoken | ⟨-, heq⟩)
      · exact hnew l' (mem_cons_of_mem _ hl') hspoken
      · exact hnodup.1 (heq ▸ mem_map_of_mem hl')
    obtain ⟨ms, s', g', hms, haccepted, hstage', hopened, hspoken⟩ := ih hstage hpaths hnodup.2 hnew₁ hlegible
    refine ⟨_ :: ms, s', g', .cons hmeaning hms, .cons haccept havoids haccepted, hstage', hopened, fun p q => ?_⟩
    rw [hspoken, map_cons, mem_cons, Progress.say]
    tauto

/-! ## Tables -/

/-- A table that has a header, whose header and lines are read back. -/
structure Headed (source : Option (List Char)) (limit : Nat) (root : List (Entry Item)) (p : Int) (t : Section) : Prop where
  notRoot : t.isRoot = false
  hasHeader : t.hasHeader = true
  /-- It stands at its path, as a table or as an element of an array of tables. -/
  place : ∃ ks o es e, t.path = ks ++ [e.key] ∧ Located home root ks o es ∧ e ∈ es ∧
    ((t.isArray = false ∧ e.item.time? = some p ∧ e.item.entries = t.entries) ∨
      (t.isArray = true ∧ ∃ (i : Info) (ts : List Item) (n : Nat) (u : Item), e.item = .arrayOfTables i ts ∧
        ts[n]? = some u ∧ u.time? = some p ∧ u.entries = t.entries))
  header : HeaderLegible source t.path t.form
  /-- Its lines are read back. -/
  lines : ∀ l ∈ bodyIn [] t.entries, LineLegible source Trivia Tail l.1 l.2 ∧
    l.2.item.Spells source (valueWithin limit nestingLevels)

/-- The lines of a table: its header, then its body. -/
private theorem sectionLines_headed (h : Headed source limit root p t) :
    ∃ ls : List (List Key × Entry Item), ls.Perm (bodyIn [] t.entries) ∧
      sectionLines source t = .header t :: ls.map fun l => .body (valueLine source l.1 l.2) := by
  obtain ⟨ls, hperm, hwritten⟩ := exists_perm_bodyIn source t.entries
  refine ⟨ls, hperm, ?_⟩
  simp [sectionLines, h.notRoot, h.hasHeader, hwritten, Function.comp_def]

private theorem mem_times_cases (h : x.isTable = true) (hp : p ∈ x.times) : x.time? = some p ∨ p ∈ timesIn x.entries := by
  cases x with
  | table i f es =>
    rw [times_table, mem_append, Option.mem_toList] at hp
    exact hp
  | _ => cases h

/-- The header of a table is met where the table stands, when the headers before it have been met, and no others. -/
theorem Stage.header (h : Stage root g now sub s) (hroot : Orderly root) (hseparate : Separate home root)
    (harranged : Arranged home root) (ht : Headed source limit root p t) (hopened : ∀ q ∈ timesIn root, g.opened q ↔ q < p)
    (hnow : now < p) :
    p ∈ timesIn root ∧
      ∃ s', (if t.isArray then Statement.array (t.path.map Key.name) else .table (t.path.map Key.name)).accept? s = some s' ∧
        Stage root (g.open p) p t.entries s' := by
  obtain ⟨ks, o, es, e, hpath, hlocated, he, hkind⟩ := ht.place
  rw [hpath, map_append, map_singleton]
  rcases hkind with ⟨harray, htime, hentries⟩ | ⟨harray, i, ts, n, u, hitem, found, htime, hentries⟩
  · have hp : p ∈ timesIn es := mem_timesIn.mpr ⟨e, he, time?_mem_times htime⟩
    have hmem := (Located.arranged hlocated harranged).2 p hp
    have hway := hlocated.way harranged hp hopened
    have hfresh : ¬g.opened p := fun hp => absurd ((hopened p hmem).mp hp) (Int.lt_irrefl p)
    rw [if_neg (by simp [harray]), ← hentries]
    exact ⟨hmem, h.table hroot hseparate hway he htime hfresh (Int.le_of_lt hnow)⟩
  · have hu : u ∈ ts := mem_of_getElem? found
    have hp : p ∈ timesIn es := mem_timesIn.mpr ⟨e, he, times_of_element hitem hu p (time?_mem_times htime)⟩
    have hmem := (Located.arranged hlocated harranged).2 p hp
    have hway := hlocated.way harranged hp hopened
    have htimes {v : Item} (hv : v ∈ ts) {q : Int} (hq : q ∈ v.times) : q ∈ timesIn root :=
      (Located.arranged hlocated harranged).2 q (mem_timesIn.mpr ⟨e, he, times_of_element hitem hv q hq⟩)
    obtain ⟨-, hheaded, hsorted, -⟩ := ((hway.arranged harranged).1 e he).elements hitem
    rw [pairwise_iff_getElem] at hsorted
    obtain ⟨hn, hfound⟩ := List.getElem?_eq_some_iff.mp found
    have hearlier : ∀ (m : Nat) v, ts[m]? = some v → m < n → g.Opens v := by
      intro m v hv hm
      obtain ⟨hm', rfl⟩ := List.getElem?_eq_some_iff.mp hv
      obtain ⟨q, hq, -⟩ := hheaded _ (getElem_mem hm')
      have hless := hsorted m n hm' hn hm q (time?_mem_times hq) p (hfound ▸ time?_mem_times htime)
      exact ⟨q, hq, (hopened q (htimes (getElem_mem hm') (time?_mem_times hq))).mpr hless⟩
    have hlater : ∀ (m : Nat) v, ts[m]? = some v → n ≤ m → ∀ q ∈ v.times, ¬g.opened q := by
      intro m v hv hm q hq hopen
      have hless := (hopened q (htimes (mem_of_getElem? hv) hq)).mp hopen
      obtain ⟨hm', rfl⟩ := List.getElem?_eq_some_iff.mp hv
      rcases Nat.eq_or_lt_of_le hm with rfl | hm
      · -- in the element itself all other headers come behind its own
        rw [hfound] at hq
        obtain ⟨p', hp', hfirst⟩ := hheaded _ hu
        rw [htime, Option.some.injEq] at hp'
        subst hp'
        rcases mem_times_cases (isTable_of_time? htime) hq with hq | hq
        · rw [htime, Option.some.injEq] at hq
          omega
        · have := hfirst q hq
          omega
      · have := hsorted n m hn hm' hm p (hfound ▸ time?_mem_times htime) q hq
        omega
    rw [if_pos harray, ← hentries]
    exact ⟨hmem, h.array hroot hseparate hway he hitem ⟨found, hearlier, hlater⟩ htime (Int.le_of_lt hnow)⟩

/-- The tables of a tree are read one after the other. All headers up to now have been met, and those behind are the ones of
the tables to be read. -/
theorem Stage.tables (hseparator : Trivia layout.separator.toList) (hroot : Orderly root) (hseparate : Separate home root)
    (harranged : Arranged home root) {ts : List (Int × Section)} (hts : ts.Pairwise fun t u => t.1 < u.1)
    (hheaded : ∀ t ∈ ts, Headed source limit root t.1 t.2) (h : Stage root g now sub s) (hlate : ∀ t ∈ ts, now < t.1)
    (hopened : ∀ p ∈ timesIn root, g.opened p ↔ p ≤ now) (hrest : ∀ p ∈ timesIn root, now < p → p ∈ ts.map Prod.fst) :
    ∃ ms s' g' now' sub', Forall₂ (WrittenLine.Says source layout limit) (ts.flatMap fun t => sectionLines source t.2) ms ∧
      Accepted s ms s' ∧ Stage root g' now' sub' s' ∧ (∀ p, g.opened p → g'.opened p) ∧
      (∀ p q, g.spoken p q → g'.spoken p q) ∧
      ∀ t ∈ ts, g'.opened t.1 ∧ ∀ l ∈ bodyIn [] t.2.entries, g'.spoken t.1 (lineNames l) := by
  induction ts generalizing g now sub s with
  | nil => exact ⟨[], s, g, now, sub, .nil, .nil, h, fun _ hp => hp, fun _ _ hq => hq, by simp⟩
  | cons t ts ih =>
    obtain ⟨p, t⟩ := t
    obtain ⟨hfirst, hts⟩ := pairwise_cons.mp hts
    obtain ⟨ht, hheaded⟩ := forall_mem_cons.mp hheaded
    obtain ⟨hnow, hlate⟩ := forall_mem_cons.mp hlate
    -- no header stands between the last one and this one
    have hnext : ∀ q ∈ timesIn root, now < q → p ≤ q := by
      intro q hq hlt
      rcases mem_cons.mp (hrest q hq hlt) with rfl | hmem
      · exact Int.le_refl _
      · obtain ⟨u, hu, rfl⟩ := mem_map.mp hmem
        exact Int.le_of_lt (hfirst u hu)
    have hbefore : ∀ q ∈ timesIn root, g.opened q ↔ q < p := by
      intro q hq
      have := hnext q hq
      rw [hopened q hq]
      omega
    obtain ⟨hp, s₁, haccept, hstage₁⟩ := h.header hroot hseparate harranged ht hbefore hnow
    obtain ⟨ls, hperm, hlines⟩ := sectionLines_headed ht
    have hpaths : ∀ l ∈ ls, BodyPath t.entries (lineNames l) l.2 := by
      intro l hl
      obtain ⟨ks, hks, hpath⟩ := bodyPath_of_mem (hperm.mem_iff.mp hl)
      rwa [lineNames, hks]
    have horderly : Orderly t.entries := hstage₁.way.orderly hroot
    have hnodup : (ls.map lineNames).Nodup := (hperm.map lineNames).nodup_iff.mpr (nodup_lineNames horderly [])
    have hnew : ∀ l ∈ ls, ¬(g.open p).spoken p (lineNames l) := by
      intro l hl hspoken
      have := (hbefore p hp).mp (h.covered p _ hspoken)
      omega
    obtain ⟨ms₁, s₂, g₂, hms₁, haccepted₁, hstage₂, hopened₂, hspoken₂⟩ := hstage₁.lines layout hroot hseparate harranged
      hpaths hnodup hnew fun l hl => ht.lines l (hperm.mem_iff.mp hl)
    have hsofar : ∀ q ∈ timesIn root, g₂.opened q ↔ q ≤ p := by
      intro q hq
      have := hbefore q hq
      rw [hopened₂, Progress.open]
      simp only [this]
      omega
    obtain ⟨ms₂, s', g', now', sub', hms₂, haccepted₂, hstage', hmono, hmono', hdone⟩ := ih hts hheaded hstage₂ hfirst hsofar
      fun q hq hlt => by
        have := hrest q hq (by omega)
        rcases mem_cons.mp this with rfl | hmem
        · omega
        · exact hmem
    refine ⟨_ :: (ms₁ ++ ms₂), s', g', now', sub', ?_, .cons haccept ?_ (haccepted₁.append haccepted₂), hstage', fun q hq => ?_,
      fun q r hr => ?_, forall_mem_cons.mpr ⟨⟨?_, fun l hl => ?_⟩, hdone⟩⟩
    · rw [flatMap_cons, hlines, cons_append]
      exact .cons (says_header hseparator ht.header) (rel_append hms₁ hms₂)
    · cases t.isArray <;> rfl
    · exact hmono q (by rw [hopened₂]; exact .inl hq)
    · exact hmono' q r ((hspoken₂ q r).mpr (.inl hr))
    · exact hmono p (by rw [hopened₂]; exact .inr rfl)
    · exact hmono' p _ ((hspoken₂ p _).mpr (.inr ⟨rfl, mem_map_of_mem (hperm.mem_iff.mpr hl)⟩))

/-! ## The whole tree -/

/-- A body without header has no lines. -/
private theorem Arranged.no_lines (h : Arranged none es) (hq : BodyPath es q d) : False := by
  cases hq with
  | value mem isValue plain => exact ((h _ mem).values isValue).2 rfl
  | dotted mem isDotted below =>
    obtain ⟨-, b, hb, -⟩ := (h _ mem).dotted isDotted
    cases hb

private theorem mem_tables (h : x.isTable = true) :
    (∀ p, x.time? = some p → ∃ f, (f, x.entries) ∈ x.tables ∧ f.time? = some p) ∧
      ∀ e ∈ x.entries, ∀ t ∈ e.item.tables, t ∈ x.tables := by
  cases x with
  | table i f es =>
    rw [tables, tablesBelow_eq]
    refine ⟨fun p hp => ⟨f, mem_cons_self, hp⟩, fun e he t ht => ?_⟩
    exact mem_cons_of_mem _ (mem_flatMap.mpr ⟨e, he, ht⟩)
  | _ => cases h

private theorem mem_tables_element (hx : x = .arrayOfTables i ts) (ht : t ∈ ts) : ∀ u ∈ t.tables, u ∈ x.tables := by
  intro u hu
  rw [hx, tables, tablesEach_eq]
  exact mem_flatMap.mpr ⟨t, ht, hu⟩

/-- When all headers and all lines of an entry have been met, the entry has been met. -/
theorem Fits.met (h : Fits o e) (hopened : ∀ p ∈ e.item.times, g.opened p) (hlines : ∀ q d, BodyPath [e] q d → g.line o q)
    (hbodies : ∀ t ∈ e.item.tables, ∀ p, t.1.time? = some p → ∀ q d, BodyPath t.2 q d → g.spoken p q) : Met g o e := by
  induction h with
  | @value o e isValue plain owned =>
    have hline := BodyPath.value (mem_singleton_self e) isValue plain
    refine .intro (.inr ⟨_, e, hline, hlines _ e hline⟩) (fun i ts hitem => ?_) (fun sub hsub => ?_) fun i ts hitem => ?_
    · rw [hitem] at isValue
      cases isValue
    · generalize e.item = x at hsub isValue plain
      cases hsub with
      | table => cases isValue
      | inlineTable dotted => cases plain.symm.trans dotted
    · rw [hitem] at isValue
      cases isValue
  | @table o e i f sub item dotted inhabited below ih =>
    have htable : e.item.isTable = true := by rw [item]; rfl
    have hentries : e.item.entries = sub := by rw [item]; rfl
    refine .intro ?_ (fun i ts hitem => by cases item.symm.trans hitem) (fun sub' hsub d hd => ?_)
      fun i ts hitem => by cases item.symm.trans hitem
    · refine inhabited.imp (fun htimes => ?_) fun ⟨q, d, hq⟩ => ⟨q, d, hq, hlines q d hq⟩
      obtain ⟨p, hp⟩ := exists_mem_of_ne_nil _ htimes
      exact ⟨p, hp, hopened p hp⟩
    · obtain rfl := hentries.symm.trans hsub.entries_eq
      refine ih d hd (fun p hp => hopened p ?_) (fun q d' hq => ?_)
        fun t ht => hbodies t ((mem_tables htable).2 d (hentries ▸ hd) t ht)
      · exact hsub.times p (mem_timesIn.mpr ⟨d, hd, hp⟩)
      · have hq : BodyPath sub q d' := hq.mono (by simpa using hd)
        cases hdotted : e.item.isDotted with
        | true =>
          exact (Progress.line_enter_dotted hdotted q).mpr (hlines _ _ (.dotted (mem_singleton_self e) hdotted (hentries ▸ hq)))
        | false =>
          rw [Owner.enter, if_neg (by simp [hdotted]), owner] at below ⊢
          cases htime : e.item.time? with
          | none =>
            rw [htime] at below
            exact (Arranged.no_lines below hq).elim
          | some p =>
            obtain ⟨f, hf, hp⟩ := (mem_tables htable).1 p htime
            exact hbodies _ hf p hp q d' (hentries ▸ hq)
  | @arrayOfTables o e i ts item nonempty headed sorted elements ih =>
    have hopens : ∀ t ∈ ts, g.Opens t := by
      intro t ht
      obtain ⟨p, hp, -⟩ := headed t ht
      exact ⟨p, hp, hopened p (times_of_element item ht p (time?_mem_times hp))⟩
    refine .intro ?_ (fun j us hitem => ?_) (fun sub hsub => ?_) fun j us hitem t ht d hd => ?_
    · obtain ⟨t, ht⟩ := exists_mem_of_ne_nil ts nonempty
      obtain ⟨p, hp, hopen⟩ := (hopens t ht).exists_mem
      exact .inl ⟨p, times_of_element item ht p hp, hopen⟩
    · cases item.symm.trans hitem
      exact hopens
    · rw [item] at hsub
      cases hsub
    · cases item.symm.trans hitem
      have htable := (hopens t ht).isTable
      refine ih t ht d hd (fun p hp => hopened p ?_) (fun q d' hq => ?_)
        fun u hu => hbodies u (mem_tables_element item ht u ((mem_tables htable).2 d hd u hu))
      · exact times_of_element item ht p ((splits_of_isTable htable).times p (mem_timesIn.mpr ⟨d, hd, hp⟩))
      · obtain ⟨p, hp, -⟩ := headed t ht
        obtain ⟨f, hf, hp'⟩ := (mem_tables htable).1 p hp
        rw [owner, hp]
        exact hbodies _ (mem_tables_element item ht _ hf) p hp' q d' (hq.mono (by simpa using hd))

end Verbatim

import Verbatim.Proofs.ReadingRun

/-!
# Legible trees are read back

A tree is legible if the texts of all its headers, keys and values are what their places ask for. If moreover its headers are
numbered in an order in which they can be read, the text of the tree is parsed again, and the data that comes out is that of
the tree, up to the order of keys within tables.
-/

namespace Verbatim

open List hiding sections
open DataReader Render Item

/-- The texts of an entry, and of all that is below it, are what they must be. The first keys lead to the table of the entry
from the root, the second ones through dotted tables from the table in whose body its line stands. -/
inductive LegibleEntry (source : Option (List Char)) (limit : Nat) : List Key → List Key → Entry Item → Prop where
  | value {path dotted : List Key} {e : Entry Item} (line : LineLegible source Trivia Tail dotted e)
      (value : ValueLegible source none limit nestingLevels e.item) : LegibleEntry source limit path dotted e
  /-- A table could be replaced by a line. -/
  | frame {path dotted : List Key} {e : Entry Item} (notValue : e.item.isValue = false)
      (entry : EntryLegible source Trivia dotted e) (key : e.key.Legible source Blanks)
      (tables : ∀ i f sub, e.item.HasTable i f sub → (f.dotted = false → HeaderLegible source (path ++ [e.key]) f) ∧
        (f.dotted = true ∨ f.implicit = true ∨ f.position.isSome = true))
      (below : ∀ i f sub, e.item.HasTable i f sub → ∀ d ∈ sub,
        LegibleEntry source limit (path ++ [e.key]) (if f.dotted then dotted ++ [e.key] else []) d) :
      LegibleEntry source limit path dotted e

/-- The texts of the entries of a table, and of all that is below them, are what they must be. -/
def Legible (source : Option (List Char)) (limit : Nat) (path dotted : List Key) (es : List (Entry Item)) : Prop :=
  ∀ e ∈ es, LegibleEntry source limit path dotted e

namespace LegibleEntry

variable (h : LegibleEntry source limit path dotted e)
include h

theorem values (hv : e.item.isValue = true) :
    LineLegible source Trivia Tail dotted e ∧ ValueLegible source none limit nestingLevels e.item := by
  cases h with
  | value line value => exact ⟨line, value⟩
  | frame notValue => cases notValue.symm.trans hv

theorem frames (hv : e.item.isValue = false) : EntryLegible source Trivia dotted e ∧ e.key.Legible source Blanks := by
  cases h with
  | value _ value => cases hv.symm.trans value.isValue
  | frame _ entry key => exact ⟨entry, key⟩

theorem tables (hx : e.item.HasTable i f sub) : (f.dotted = false → HeaderLegible source (path ++ [e.key]) f) ∧
    (f.dotted = true ∨ f.implicit = true ∨ f.position.isSome = true) ∧
      Legible source limit (path ++ [e.key]) (if f.dotted then dotted ++ [e.key] else []) sub := by
  cases h with
  | value _ value => cases hx.isValue.symm.trans value.isValue
  | frame _ _ _ tables below => exact ⟨(tables i f sub hx).1, (tables i f sub hx).2, below i f sub hx⟩

/-- The lines of a body are read back. -/
theorem body : ∀ l ∈ entryBody dotted e, LineLegible source Trivia Tail l.1 l.2 ∧
    l.2.item.Spells source (valueWithin limit nestingLevels) := by
  induction h with
  | @value path dotted e line value =>
    rw [entryBody_value dotted value.isDotted value.isValue, forall_mem_singleton]
    exact ⟨line, value.spells⟩
  | @frame path dotted e notValue entry key tables below ih =>
    intro l hl
    cases hd : e.item.isDotted with
    | false =>
      rw [entryBody_table dotted hd notValue] at hl
      cases hl
    | true =>
      rw [entryBody_dotted dotted hd] at hl
      generalize hx : e.item = x at notValue hd hl
      cases x with
      | table i f sub =>
        obtain ⟨d, hmem, hl⟩ := mem_bodyIn.mp hl
        have hbelow := ih i f sub (by rw [hx]; exact .self) d hmem l
        rw [if_pos (show f.dotted = true from hd)] at hbelow
        exact hbelow hl
      | inlineTable => cases notValue
      | _ => cases hd

end LegibleEntry

theorem Legible.body (h : Legible source limit path dotted es) : ∀ l ∈ bodyIn dotted es,
    LineLegible source Trivia Tail l.1 l.2 ∧ l.2.item.Spells source (valueWithin limit nestingLevels) := by
  intro l hl
  obtain ⟨e, he, hl⟩ := mem_bodyIn.mp hl
  exact (h e he).body l hl

/-! ## Tables with headers -/

/-- A section stands for a table with a header exactly if the table has a number, and then it is written under that. -/
structure Render.Section.Stands (source : Option (List Char)) (limit : Nat) (root : List (Entry Item)) (p : Int) (t : Section) :
    Prop where
  notRoot : t.isRoot = false
  /-- It has a header if it has a number. -/
  time : t.hasHeader = true ↔ t.form.time? = some p
  /-- Its only number is the one under which it is written. -/
  number : ∀ q, t.form.time? = some q → q = p
  /-- With a header it is read back. -/
  headed : t.hasHeader = true → Headed source limit root p t

private theorem any_hasBodyLine (h : Arranged none es) : es.any hasBodyLine = false := by
  rw [any_eq_false]
  intro e he hline
  rw [hasBodyLine, Bool.or_eq_true, Bool.and_eq_true] at hline
  rcases hline with hv | ⟨-, hd⟩
  · exact ((h e he).values hv).2 rfl
  · obtain ⟨-, b, hb, -⟩ := (h e he).dotted hd
    cases hb

/-- Whether a table has a header, by its form. -/
private theorem hasHeader_iff {t : Section}
    (hplaced : t.form.dotted = true ∨ t.form.implicit = true ∨ t.form.position.isSome = true)
    (hbody : t.form.dotted = false → t.form.implicit = true → t.entries.any hasBodyLine = false) :
    (t.hasHeader = true ↔ t.form.time? = some (t.form.position.getD last)) ∧
      ∀ q, t.form.time? = some q → q = t.form.position.getD last := by
  rw [Section.hasHeader, TableForm.time?]
  cases hd : t.form.dotted with
  | true => simp
  | false =>
    cases hi : t.form.implicit with
    | true => simp [hbody hd hi]
    | false =>
      obtain ⟨q, hq⟩ : ∃ q, t.form.position = some q := by simpa [hd, hi, Option.isSome_iff_exists] using hplaced
      simp [hq]

/-- Every table of a legible tree in order stands for itself. -/
theorem LegibleEntry.stands {dotted : List Key} (h : LegibleEntry source limit path dotted e) (hfits : Fits o e) (he : e ∈ es)
    (hlocated : Located home root path o es) : ∀ t ∈ sectionsIn (path ++ [e.key]) false false e.item, ∀ last,
      t.Stands source limit root (t.number.getD last) := by
  induction h generalizing o es with
  | @value path dotted e line value =>
    intro t ht
    have hv := value.isValue
    generalize e.item = x at hv ht
    cases x with
    | table | arrayOfTables => cases hv
    | _ => cases ht
  | @frame path dotted e notValue entry key tables below ih =>
    intro t ht last
    cases hx : e.item with
    | scalar | array | inlineTable =>
      rw [hx] at ht
      cases ht
    | table i f sub =>
      have htable : e.item.isTable = true := by rw [hx]; rfl
      have hhas : e.item.HasTable i f sub := by rw [hx]; exact .self
      have hentries : e.item.entries = sub := by rw [hx]; rfl
      have hlower : Arranged (o.enter e) sub := hentries ▸ (hfits.tables htable).2
      have hlocated' : Located home root (path ++ [e.key]) (o.enter e) sub :=
        hlocated.append (.step he (.table htable) (hentries ▸ .here))
      obtain ⟨hheaders, hplaced⟩ := tables i f sub hhas
      rw [hx, sectionsIn, sectionsBelow_eq] at ht
      rcases mem_cons.mp ht with rfl | ht
      · obtain ⟨htime, hnumber⟩ := @hasHeader_iff last ⟨f, sub, path ++ [e.key], false, false⟩ hplaced
          (fun (hd : f.dotted = false) (hi : f.implicit = true) => by
            rw [Owner.enter, if_neg (by rw [hx]; simp [isDotted, hd]), owner, hx, time?, TableForm.time?,
              if_pos (by rw [hi, Bool.or_true])] at hlower
            exact any_hasBodyLine hlower)
        refine ⟨rfl, htime, hnumber, fun hheader => ?_⟩
        have hd : f.dotted = false := by
          rw [Section.hasHeader, Bool.and_eq_true, Bool.not_eq_true'] at hheader
          exact hheader.1
        have hbody := Legible.body (below i f sub hhas)
        rw [if_neg (by simp [hd])] at hbody
        refine ⟨rfl, hheader, ⟨path, o, es, e, rfl, hlocated, he, .inl ⟨rfl, ?_, hentries⟩⟩, hheaders hd, hbody⟩
        rw [hx]
        exact htime.mp hheader
      · obtain ⟨d, hd, ht⟩ := mem_flatMap.mp ht
        exact ih i f sub hhas d hd (hlower d hd) hd hlocated' t ht last
    | arrayOfTables i ts =>
      rw [hx, sectionsIn, sectionsEach_eq] at ht
      obtain ⟨u, humem, ht⟩ := mem_flatMap.mp ht
      obtain ⟨n, hu⟩ := getElem?_of_mem humem
      obtain ⟨-, hheaded, -, helements⟩ := hfits.elements hx
      obtain ⟨p, hp, -⟩ := hheaded u humem
      cases u with
      | table j f sub =>
        have hhas : e.item.HasTable j f sub := by rw [hx]; exact .element humem
        have hlocated' : Located home root (path ++ [e.key]) (table j f sub).owner sub :=
          hlocated.append (.step he (.element hx hu) .here)
        have hplain : f.dotted = false ∧ f.implicit = false := by
          rw [time?, TableForm.time?] at hp
          split at hp
          · cases hp
          · next hno => simpa using hno
        obtain ⟨hheaders, hplaced⟩ := tables j f sub hhas
        rw [sectionsIn, sectionsBelow_eq] at ht
        rcases mem_cons.mp ht with rfl | ht
        · obtain ⟨htime, hnumber⟩ := @hasHeader_iff last ⟨f, sub, path ++ [e.key], true, false⟩ hplaced
            (fun _ hi => by rw [hplain.2] at hi; cases hi)
          have hbody := Legible.body (below j f sub hhas)
          rw [if_neg (by simp [hplain.1])] at hbody
          exact ⟨rfl, htime, hnumber, fun hheader => ⟨rfl, hheader, ⟨path, o, es, e, rfl, hlocated, he,
            .inr ⟨rfl, i, ts, n, _, hx, hu, htime.mp hheader, rfl⟩⟩, hheaders hplain.1, hbody⟩⟩
        · obtain ⟨d, hd, ht⟩ := mem_flatMap.mp ht
          exact ih j f sub hhas d hd (helements _ humem d hd) hd hlocated' t ht last
      | _ => cases hp

/-! ## The order of writing -/

/-- Where some parts have no lines, only the others count; with different positions they have one order. -/
theorem Render.flatMap_byPosition {α β : Type} {xs : List (Int × α)} {f : α → List β} {p : Int × α → Bool}
    (hf : ∀ x ∈ xs, p x = false → f x.2 = []) (hdistinct : ((xs.filter p).map Prod.fst).Nodup) :
    ∃ ys : List (Int × α), ys.Perm (xs.filter p) ∧ (ys.Pairwise fun a b => a.1 < b.1) ∧
      (byPosition xs).flatMap f = ys.flatMap fun y => f y.2 := by
  have hperm := mergeSort_perm xs fun a b => decide (a.1 ≤ b.1)
  refine ⟨(xs.mergeSort fun a b => a.1 ≤ b.1).filter p, hperm.filter p, ?_, ?_⟩
  · have hle := (pairwise_mergeSort_position xs).filter p
    have hne : ((xs.mergeSort fun a b => a.1 ≤ b.1).filter p).Pairwise fun a b => a.1 ≠ b.1 :=
      pairwise_map.mp (((hperm.filter p).map Prod.fst).nodup_iff.mpr hdistinct)
    exact hle.imp₂ (fun a b h h' => by omega) hne
  · rw [byPosition, flatMap_map]
    have hall : ∀ x ∈ xs.mergeSort fun a b => a.1 ≤ b.1, p x = false → f x.2 = [] := fun x hx => hf x (hperm.mem_iff.mp hx)
    generalize xs.mergeSort (fun a b => a.1 ≤ b.1) = ys at hall
    induction ys with
    | nil => rfl
    | cons y ys ih =>
      obtain ⟨hy, hys⟩ := forall_mem_cons.mp hall
      cases hp : p y with
      | true => simp [hp, ih hys]
      | false => simp [hp, ih hys, hy hp]

theorem Render.entrySections_tables (path : List Key) (last : Int) (es : List (Entry Item)) :
    (entrySections path last es).1.map (fun t => (t.2.form, t.2.entries)) = es.flatMap fun e => e.item.tables := by
  rw [entrySections_eq, map_numbered fun t : Section => (t.form, t.entries), sectionsBelow_eq, map_flatMap]
  exact flatMap_congr fun e _ => sectionsIn_tables e.item _ _ _

private theorem map_filter_eq_filterMap {α : Type} {xs : List (Int × α)} {p : Int × α → Bool} {f : α → Option Int}
    (h : ∀ x ∈ xs, (p x = true ↔ f x.2 = some x.1) ∧ ∀ q, f x.2 = some q → q = x.1) :
    (xs.filter p).map Prod.fst = xs.filterMap fun x => f x.2 := by
  induction xs with
  | nil => rfl
  | cons x xs ih =>
    obtain ⟨⟨hiff, hnumber⟩, hxs⟩ := forall_mem_cons.mp h
    cases hp : p x with
    | true => simp [hp, hiff.mp hp, ih hxs]
    | false =>
      have hnone : f x.2 = none := by
        cases hf : f x.2 with
        | none => rfl
        | some q =>
          rw [hiff.mpr (hf.trans (congrArg some (hnumber q hf)))] at hp
          cases hp
      simp [hp, hnone, ih hxs]

/-- A legible tree whose headers are numbered in an order in which they can be read. -/
structure Rereadable (source : Option (List Char)) (limit : Nat) (es : List (Entry Item)) : Prop where
  legible : Legible source limit [] [] es
  orderly : Orderly es
  /-- Every header has a number of its own. -/
  separate : Separate home es
  arranged : Arranged home es
  /-- The lines of the root come first. -/
  positive : ∀ p ∈ timesIn es, 0 < p

namespace Rereadable

section

variable (h : Rereadable source limit es)

include h

theorem stands (last : Int) :
    ∀ t ∈ (entrySections [] last es).1, t.2.Stands source limit es t.1 := by
  intro t ht
  rw [entrySections_eq] at ht
  obtain ⟨hmem, last', hnumber⟩ := mem_numbered ht
  rw [sectionsBelow_eq] at hmem
  obtain ⟨e, he, hmem⟩ := mem_flatMap.mp hmem
  exact hnumber ▸ (h.legible e he).stands (h.arranged e he) he .here t.2 hmem last'

/-- The numbers of the headers are those under which the tables are written. -/
theorem times_eq (last : Int) :
    ((entrySections [] last es).1.filter fun t => t.2.hasHeader).map Prod.fst = timesIn es := by
  rw [map_filter_eq_filterMap (f := fun t => t.form.time?) fun t ht => ⟨(h.stands last t ht).time, (h.stands last t ht).number⟩]
  have htables := congrArg (List.filterMap fun t : TableForm × List (Entry Item) => t.1.time?) (entrySections_tables [] last es)
  rw [filterMap_map] at htables
  rw [timesIn]
  simp only [times]
  rw [← filterMap_flatMap, ← htables]
  rfl

/-- The tables are written in the order of their numbers, the root first. -/
theorem order (i : Info) (hf : f.position = some 0) :
    ∃ ts : List (Int × Section), ts.Perm ((entrySections [] 0 es).1.filter fun t => t.2.hasHeader) ∧
      (ts.Pairwise fun t u => t.1 < u.1) ∧
      writtenLines source (.table i f es) = sectionLines source ⟨f, es, [], false, true⟩ ++
        ts.flatMap fun t => sectionLines source t.2 := by
  have hsections : (sections [] false true 0 (.table i f es)).1 =
      (0, ⟨f, es, [], false, true⟩) :: (entrySections [] 0 es).1 := by
    rw [sections_table, hf]
    rfl
  have hfilter : ((0, ⟨f, es, [], false, true⟩) :: (entrySections [] 0 es).1).filter (fun t => t.2.isRoot || t.2.hasHeader) =
      (0, ⟨f, es, [], false, true⟩) :: (entrySections [] 0 es).1.filter fun t => t.2.hasHeader := by
    rw [filter_cons_of_pos (by rfl)]
    congr 1
    exact filter_congr fun t ht => by rw [(h.stands 0 t ht).notRoot, Bool.false_or]
  have hquiet : ∀ t ∈ (0, ⟨f, es, [], false, true⟩) :: (entrySections [] 0 es).1,
      (t.2.isRoot || t.2.hasHeader) = false → sectionLines source t.2 = [] := by
    intro t _ ht
    rw [Bool.or_eq_false_iff] at ht
    simp [sectionLines, ht.1, ht.2]
  obtain ⟨ys, hperm, hsorted, hlines⟩ := flatMap_byPosition hquiet (by
    rw [hfilter, map_cons, h.times_eq, nodup_cons]
    exact ⟨fun h0 => Int.lt_irrefl 0 (h.positive 0 h0), h.separate.nodup⟩)
  rw [hfilter] at hperm
  -- the lines of the root have the least number
  obtain ⟨y, ts, rfl⟩ : ∃ y ts, ys = y :: ts := by
    cases ys with
    | nil => exact absurd hperm.length_eq (by simp)
    | cons y ts => exact ⟨y, ts, rfl⟩
  have hy : y = (0, ⟨f, es, [], false, true⟩) := by
    rcases mem_cons.mp (hperm.mem_iff.mpr mem_cons_self) with heq | hmem
    · exact heq.symm
    · rcases mem_cons.mp (hperm.mem_iff.mp mem_cons_self) with heq | hlater
      · exact heq
      · have hpos := h.positive y.1 (h.times_eq 0 ▸ mem_map_of_mem hlater)
        have hless := (pairwise_cons.mp hsorted).1 _ hmem
        exact absurd hless (by simp only; omega)
  subst hy
  refine ⟨ts, hperm.cons_inv, (pairwise_cons.mp hsorted).2, ?_⟩
  rw [writtenLines, hsections, hlines, flatMap_cons]

/-- The text of a legible tree in order is read as the data of the tree. -/
theorem completes (hnewline : IsNewline layout.newline.toList)
    (hseparator : Trivia layout.separator.toList) (i : Info) (hf : f.position = some 0)
    (htrailing : ∀ t ∈ trailing, t.Shows source Tail) :
    ∃ text s, renderTree layout source (.table i f es) trailing = .ok (String.ofList text) ∧ CompletesText limit {} s text ∧
      Data.Same (.table s.data) (.table (unwrapFields es)) := by
  obtain ⟨ts, hperm, hsorted, hlines⟩ := h.order i hf
  obtain ⟨ls, hls, hbody⟩ := exists_perm_bodyIn source es
  have hroot : sectionLines source ⟨f, es, [], false, true⟩ = ls.map fun l => .body (valueLine source l.1 l.2) := by
    simp [sectionLines, hbody, Function.comp_def]
  have hpaths : ∀ l ∈ ls, BodyPath es (lineNames l) l.2 := by
    intro l hl
    obtain ⟨ks, hks, hpath⟩ := bodyPath_of_mem (hls.mem_iff.mp hl)
    rwa [lineNames, hks]
  -- the lines of the root
  obtain ⟨ms₁, s₁, g₁, hms₁, haccepted₁, hstage₁, hopened₁, hspoken₁⟩ := (Stage.start h.positive).lines layout h.orderly
    h.separate h.arranged hpaths ((hls.map lineNames).nodup_iff.mpr (nodup_lineNames h.orderly [])) (fun _ _ => id)
    fun l hl => h.legible.body l (hls.mem_iff.mp hl)
  -- the tables with headers
  have hheaded : ∀ t ∈ ts, Headed source limit es t.1 t.2 := by
    intro t ht
    obtain ⟨hmem, hheader⟩ := mem_filter.mp (hperm.mem_iff.mp ht)
    exact (h.stands 0 t hmem).headed hheader
  have hnumbers : ∀ p, p ∈ ts.map Prod.fst ↔ p ∈ timesIn es := by
    intro p
    rw [(hperm.map Prod.fst).mem_iff, h.times_eq]
  obtain ⟨ms₂, s, g, now, sub, hms₂, haccepted₂, hstage, hmono, hmono', hdone⟩ := hstage₁.tables hseparator h.orderly h.separate
    h.arranged hsorted hheaded (fun t ht => h.positive _ ((hnumbers _).mp (mem_map_of_mem ht)))
    (fun p hp => by
      have := h.positive p hp
      rw [hopened₁]
      simp only
      omega)
    fun p hp _ => (hnumbers p).mpr hp
  -- by then all has been met
  have hmet : ∀ e ∈ es, Met g home e := by
    refine fun e he => (h.arranged e he).met (fun p hp => ?_) (fun q d hq => ?_) fun t ht p hp q d hq => ?_
    · obtain ⟨t, ht, rfl⟩ := mem_map.mp ((hnumbers p).mpr (mem_timesIn.mpr ⟨e, he, hp⟩))
      exact (hdone t ht).1
    · have hq : BodyPath es q d := hq.mono (by simpa using he)
      obtain ⟨ks, hks, rfl⟩ := hq.mem_bodyIn []
      exact hmono' 0 _ ((hspoken₁ 0 _).mpr (.inr ⟨rfl, mem_map.mpr ⟨_, hls.mem_iff.mpr hks, rfl⟩⟩))
    · obtain ⟨u, hu, heq⟩ : ∃ u ∈ (entrySections [] 0 es).1, (u.2.form, u.2.entries) = t := by
        rw [← mem_map, entrySections_tables]
        exact mem_flatMap.mpr ⟨e, he, ht⟩
      subst heq
      have hstands := h.stands 0 u hu
      obtain rfl := hstands.number p hp
      have hu' : u ∈ ts := hperm.mem_iff.mpr (mem_filter.mpr ⟨hu, hstands.time.mpr hp⟩)
      obtain ⟨ks, hks, rfl⟩ := hq.mem_bodyIn []
      exact (hdone u hu').2 _ hks
  have hmeaning : Forall₂ (WrittenLine.Says source layout limit) (writtenLines source (.table i f es)) (ms₁ ++ ms₂) := by
    rw [hlines, hroot]
    exact rel_append hms₁ hms₂
  obtain ⟨text, htext, hcompletes⟩ := renderTree_completes hnewline htrailing hmeaning (haccepted₁.append haccepted₂)
  exact ⟨text, s, htext, hcompletes, hstage.data.same hmet h.orderly⟩

end

/-- The text of a legible tree in order is parsed, with the data of the tree. -/
theorem parses (h : Rereadable source options.maxNesting es) (hnewline : IsNewline layout.newline.toList)
    (hseparator : Trivia layout.separator.toList) (i : Info) (hf : f.position = some 0)
    (htrailing : ∀ t ∈ trailing, t.Shows source Tail) :
    ∃ text s, renderTree layout source (.table i f es) trailing = .ok text ∧ parse options (.text text) = .ok s ∧
      Data.Same s.root.unwrap (.table (unwrapFields es)) := by
  obtain ⟨text, s, htext, hcompletes, hsame⟩ := h.completes hnewline hseparator i hf htrailing
  have hdone : Completes options.maxNesting {} s (.start (Text.joinReturns text)) := hcompletes _ [] .nil rfl
  have hread : readDocument text = .ok s.data := by
    simp only [readDocument, hdone.statements]
  have hload : (Source.text (String.ofList text)).load options.encoding = .ok (text, .borrowed) := by
    rw [Source.load, String.toList_ofList]
  obtain ⟨snapshot, hparse, hunwrap⟩ := (parse_accepts_iff hload hread hdone.nests).mpr hdone.avoids
  exact ⟨String.ofList text, snapshot, htext, hparse, hunwrap ▸ hsame⟩

end Rereadable

end Verbatim

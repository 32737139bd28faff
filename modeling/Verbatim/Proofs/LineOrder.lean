import Mathlib.Data.List.Perm.Basic
import Verbatim.Proofs.Mapping

/-!
# Lines come back in their order

Adding lines scatters them over a tree. Every line there has a place, the number of the header it stands below and its own
number, and the lines of a tree are written in the order of these places. Each line that is added gets a place behind all
others, so the lines of an assembled tree are written as they came.
-/

namespace Verbatim

open List Item

variable {g : Item → Item} {p : Int} {ls : List Line} {n : Nat} {xs : List Placed}

namespace Render

variable {f : TableForm} {es sub : List (Entry Item)} {i : Info}

/-! ## Places -/

/-- A line without the path and the entries of its table. The opening of the root stands for no line. -/
inductive LineMark where
  /-- A table begins. -/
  | opening (form : TableForm) (isArray isRoot : Bool)
  | body (l : BodyLine)

def WrittenLine.mark : WrittenLine → LineMark
  | .header s => .opening s.form s.isArray s.isRoot
  | .body l => .body l

def LineMark.isLine : LineMark → Bool
  | .opening _ _ isRoot => !isRoot
  | .body _ => true

/-- A mark with its place: the number of the header line it stands below and its own number, zero for a header. -/
abbrev Placed := (Int × Int) × LineMark

/-- The number of a line that has a place. -/
def Placed.number : Placed → Int
  | ((p, _), .opening ..) => p
  | ((_, n), .body _) => n

/-- One place is before another. -/
def Before (a b : Placed) : Prop := a.1.1 < b.1.1 ∨ (a.1.1 = b.1.1 ∧ a.1.2 < b.1.2)

/-- The lines of a table that begins at a position. -/
def openedAt (p : Int) (f : TableForm) (isArray isRoot : Bool) (ls : List (Int × BodyLine)) : List Placed :=
  ((p, 0), .opening f isArray isRoot) :: ls.map fun l => ((p, l.1), .body l.2)

variable (source : Option (List Char))

mutual

/-- The lines of a tree with their places. -/
def placed (isArray isRoot : Bool) : Item → List Placed
  | .table _ f es =>
    (if f.implicit then [] else openedAt (f.position.getD 0) f isArray isRoot ((bodyIn [] es).map (placedLine source))) ++
      placedBelow es
  | .arrayOfTables _ ts => placedEach ts
  | .scalar .. | .array .. | .inlineTable .. => []

/-- The lines of each table of an array of tables. -/
def placedEach : List Item → List Placed
  | [] => []
  | x :: xs => placed true false x ++ placedEach xs

/-- The lines of the tables below entries. -/
def placedBelow : List (Entry Item) → List Placed
  | [] => []
  | ⟨_, x, _, _, _⟩ :: es => placed false false x ++ placedBelow es

end

theorem placedEach_eq (ts : List Item) : placedEach source ts = ts.flatMap (placed source true false) :=
  eq_flatMap_of_cons rfl (fun _ _ => rfl) ts

theorem placedBelow_eq (es : List (Entry Item)) :
    placedBelow source es = es.flatMap fun e => placed source false false e.item := eq_flatMap_of_cons rfl (fun _ _ => rfl) es

theorem placed_of_isValue (hv : x.isValue = true) (isArray isRoot : Bool) : placed source isArray isRoot x = [] := by
  cases x with
  | table i f es => cases hv
  | arrayOfTables i ts => cases hv
  | _ => rfl

/-! ## Tables of a tree -/

def sectionPlaced (ps : Int × Section) : List Placed :=
  if ps.2.isRoot || ps.2.hasHeader then
    openedAt ps.1 ps.2.form ps.2.isArray ps.2.isRoot (bodyLines source [] 0 ps.2.entries).1
  else []

/-- The lines of a table in a tree. -/
def ownLines (s : Section) : List Placed :=
  if s.form.implicit then []
  else openedAt (s.form.position.getD 0) s.form s.isArray s.isRoot ((bodyIn [] s.entries).map (placedLine source))

theorem placed_eq (x : Item) (path : List Key) (isArray isRoot : Bool) :
    placed source isArray isRoot x = (sectionsIn path isArray isRoot x).flatMap (ownLines source) := by
  induction x using inductionOn generalizing path isArray isRoot with
  | table i f es ih =>
    rw [placed, sectionsIn, flatMap_cons, placedBelow_eq, sectionsBelow_eq, flatMap_assoc]
    exact congrArg _ (flatMap_congr fun e he => ih e he _ _ _)
  | arrayOfTables i ts ih =>
    rw [placed, sectionsIn, placedEach_eq, sectionsEach_eq, flatMap_assoc]
    exact flatMap_congr fun t ht => ih t ht _ _ _
  | _ => rfl

/-- The lines of a table with a header come at its position, and a table that is only implied has none. -/
private theorem sectionPlaced_eq (hsub : Dotting sub) (hf : f.IsHeader ∨ (isRoot = false ∧ f.implicit = true ∧ (f.dotted =
      false → sub.any hasBodyLine = false))) (path : List Key) (isArray : Bool) (last : Int) :
    sectionPlaced source (f.position.getD last, ⟨f, sub, path, isArray, isRoot⟩) =
      ownLines source ⟨f, sub, path, isArray, isRoot⟩ := by
  rcases hf with hf | ⟨rfl, himplicit, hnone⟩
  · obtain ⟨n, hn⟩ := Option.isSome_iff_exists.mp hf.placed
    simp [sectionPlaced, ownLines, Section.hasHeader, hf.explicit, hf.notDotted, hn, hsub.bodyLines_eq]
  · cases hd : f.dotted with
    | true => simp [sectionPlaced, ownLines, Section.hasHeader, himplicit, hd]
    | false => simp [sectionPlaced, ownLines, Section.hasHeader, himplicit, hnone hd]

private theorem sectionsBelow_placed (h : Built es) (path : List Key) :
    ∀ s ∈ sectionsBelow path es, ∀ last, sectionPlaced source (s.number.getD last, s) = ownLines source s := by
  induction h generalizing path with
  | intro _ hsound hbuilt ih =>
    rw [sectionsBelow_eq, forall_mem_flatMap]
    intro e he
    have hx := hsound e he
    have hsubs := hbuilt e he
    have hih := ih e he
    generalize e.item = x at hx hsubs hih
    cases x with
    | table i f sub =>
      have hsub : sub ∈ (table i f sub).bodies := by simp [bodies]
      rw [sectionsIn, forall_mem_cons]
      exact ⟨sectionPlaced_eq source (hsubs sub hsub).dotting (hx.imp_right (.intro rfl)) _ _, hih sub hsub _⟩
    | arrayOfTables i ts =>
      rw [sectionsIn, sectionsEach_eq, forall_mem_flatMap]
      intro t ht
      obtain ⟨j, f, sub, rfl, hf⟩ := hx t ht
      have hsub : sub ∈ (arrayOfTables i ts).bodies := mem_map_of_mem ht
      rw [sectionsIn, forall_mem_cons]
      exact ⟨sectionPlaced_eq source (hsubs sub hsub).dotting (.inl hf) _ _, hih sub hsub _⟩
    | _ => exact forall_mem_nil _

/-- The sections of a tree with a root have the lines of the tree. -/
theorem sections_placed (hf : f.IsHeader) (h : Built es) (last : Int) :
    (sections [] false true last (.table i f es)).1.flatMap (sectionPlaced source) =
      placed source false true (.table i f es) := by
  rw [sections_eq, placed_eq source _ []]
  exact flatMap_numbered (forall_mem_cons.mpr ⟨sectionPlaced_eq source h.dotting (.inl hf) _ _, sectionsBelow_placed source h []⟩)

/-! ## Writing in order -/

/-- The lines of a section with their places, in the order of writing. -/
def sectionOrdered (ps : Int × Section) : List Placed :=
  if ps.2.isRoot || ps.2.hasHeader then
    openedAt ps.1 ps.2.form ps.2.isArray ps.2.isRoot
      ((bodyLines source [] 0 ps.2.entries).1.mergeSort fun a b => a.1 ≤ b.1)
  else []

private theorem sectionOrdered_perm (ps : Int × Section) : (sectionOrdered source ps).Perm (sectionPlaced source ps) := by
  rw [sectionOrdered, sectionPlaced]
  split
  · exact ((mergeSort_perm _ _).map _).cons _
  · exact .nil

private theorem sectionLines_mark (ps : Int × Section) :
    (sectionLines source ps.2).map WrittenLine.mark = ((sectionOrdered source ps).map Prod.snd).filter LineMark.isLine := by
  obtain ⟨p, f, es, path, isArray, isRoot⟩ := ps
  have hbody : ∀ ls : List (Int × BodyLine), ((ls.map Prod.snd).map WrittenLine.body).map WrittenLine.mark =
      ((ls.map fun l => (((p, l.1), .body l.2) : Placed)).map Prod.snd).filter LineMark.isLine := by
    intro ls
    rw [map_map, map_map, map_map, filter_eq_self.mpr]
    · rfl
    · intro m hm
      obtain ⟨l, -, rfl⟩ := mem_map.mp hm
      rfl
  cases isRoot with
  | true => simpa [sectionLines, sectionOrdered, openedAt, byPosition, LineMark.isLine] using hbody _
  | false =>
    cases hheader : Section.hasHeader ⟨f, es, path, isArray, false⟩ with
    | true =>
      simpa [sectionLines, sectionOrdered, openedAt, byPosition, LineMark.isLine, hheader, WrittenLine.mark] using hbody _
    | false => simp [sectionLines, sectionOrdered, hheader]

private theorem mem_sectionOrdered (hx : x ∈ sectionOrdered source ps) :
    x.1.1 = ps.1 ∧ ((ps.1, 0), LineMark.opening ps.2.form ps.2.isArray ps.2.isRoot) ∈ sectionOrdered source ps := by
  rw [sectionOrdered] at hx ⊢
  split at hx
  · next hopen =>
    rw [if_pos hopen]
    refine ⟨?_, by simp [openedAt]⟩
    rcases mem_cons.mp hx with rfl | hx
    · rfl
    · obtain ⟨l, -, rfl⟩ := mem_map.mp hx
      rfl
  · cases hx

/-- The lines of a section are in order if all their places differ. -/
private theorem pairwise_sectionOrdered (hne : (sectionOrdered source ps).Pairwise fun a b => a.1 ≠ b.1)
    (hpos : ∀ x ∈ sectionOrdered source ps, 0 ≤ x.1.2) : (sectionOrdered source ps).Pairwise Before := by
  rw [sectionOrdered] at hne hpos ⊢
  split at hne
  · next hopen =>
    simp only [if_pos hopen] at hpos ⊢
    rw [openedAt, pairwise_cons] at hne ⊢
    refine ⟨?_, ?_⟩
    · intro x hx
      have hx0 := hne.1 x hx
      have hx1 := hpos x (mem_cons_of_mem _ hx)
      obtain ⟨l, -, rfl⟩ := mem_map.mp hx
      refine .inr ⟨rfl, ?_⟩
      have : l.1 ≠ 0 := fun h0 => hx0 (by rw [h0])
      simp only at hx1 ⊢
      omega
    · rw [pairwise_map] at *
      refine ((pairwise_mergeSort_position _).and hne.2).imp ?_
      rintro a b ⟨hle, hab⟩
      refine .inr ⟨rfl, ?_⟩
      have : a.1 ≠ b.1 := fun heq => hab (by rw [heq])
      simp only
      omega
  · next hopen => simp only [if_neg hopen, Pairwise.nil]

/-- The lines of sections with their places, in the order of writing. -/
def writtenPlaces (ss : List (Int × Section)) : List Placed :=
  (ss.mergeSort fun a b => a.1 ≤ b.1).flatMap (sectionOrdered source)

theorem marks_writtenPlaces (ss : List (Int × Section)) : ((byPosition ss).flatMap (sectionLines source)).map WrittenLine.mark =
    ((writtenPlaces source ss).map Prod.snd).filter LineMark.isLine := by
  rw [writtenPlaces, byPosition, flatMap_map, map_flatMap, map_flatMap, filter_flatMap]
  simp only [sectionLines_mark]

theorem writtenPlaces_of_perm {ss : List (Int × Section)} {ls : List Placed} (h : (ss.flatMap (sectionPlaced source)).Perm ls)
    (hsorted : ls.Pairwise Before) (hpos : ∀ x ∈ ls, 0 ≤ x.1.2) : writtenPlaces source ss = ls := by
  have hperm : (writtenPlaces source ss).Perm ls :=
    ((mergeSort_perm ss _).flatMap fun ps _ => sectionOrdered_perm source ps).trans h
  have hne : (writtenPlaces source ss).Pairwise fun a b => a.1 ≠ b.1 := by
    refine hperm.symm.pairwise (hsorted.imp ?_) fun hab heq => hab heq.symm
    rintro a b (hlt | ⟨-, hlt⟩) heq <;>
    · rw [heq] at hlt
      omega
  rw [writtenPlaces, pairwise_flatMap] at hne
  have hordered : (writtenPlaces source ss).Pairwise Before := by
    rw [writtenPlaces, pairwise_flatMap]
    refine ⟨fun ps hps => ?_, ?_⟩
    · refine pairwise_sectionOrdered source (hne.1 ps hps) fun x hx => hpos x ?_
      exact hperm.mem_iff.mp (mem_flatMap.mpr ⟨ps, hps, hx⟩)
    · refine ((pairwise_mergeSort_position ss).and hne.2).imp ?_
      rintro a b ⟨hle, hab⟩ x hx y hy
      obtain ⟨hxa, hopenx⟩ := mem_sectionOrdered source hx
      obtain ⟨hyb, hopeny⟩ := mem_sectionOrdered source hy
      -- two sections of one position would begin at the same place
      have hpos : a.1 ≠ b.1 := fun heq => hab _ hopenx _ hopeny (by rw [heq])
      refine .inl ?_
      omega
  refine hperm.eq_of_pairwise (fun a b _ _ hab hba => ?_) hordered hsorted
  exfalso
  rcases hab with hab | hab <;> rcases hba with hba | hba <;> omega

/-- The lines of a tree are written in the order of their places. The opening of its root is no line. -/
theorem writtenLines_marks (hf : f.IsHeader) (h : Built es) (hperm : (placed source false true (.table i f es)).Perm (((0, 0),
      .opening f false true) :: xs)) (hsorted : (((0, 0), .opening f false true) :: xs).Pairwise Before)
    (hpos : ∀ x ∈ xs, 0 ≤ x.1.2) (hlines : ∀ x ∈ xs, x.2.isLine = true) :
    (writtenLines source (.table i f es)).map WrittenLine.mark = xs.map Prod.snd := by
  rw [← sections_placed source hf h 0] at hperm
  rw [writtenLines, marks_writtenPlaces, writtenPlaces_of_perm source hperm hsorted (forall_mem_cons.mpr ⟨Int.le_refl 0, hpos⟩),
    map_cons]
  exact filter_eq_self.mpr (forall_mem_map.mpr hlines)

end Render

open Render

variable (source : Option (List Char))

/-! ## Lines added below -/

/-- A line added to one table is added to the tree. -/
theorem Below.adds (added : List Placed → Prop) (hchange : ∀ f x x', change f x x' → Built x → Built x')
    (hquiet : Quiet change) (hplaced : ∀ f x x', change f x x' → Built x → ∀ isArray isRoot i, ∃ ls, added ls ∧ (placed source
      isArray isRoot (.table i f x')).Perm (placed source isArray isRoot (.table i f x) ++ ls))
    (h : Below change f names es es') (hes : Built es) (isArray isRoot : Bool) (i : Info) :
    ∃ ls, added ls ∧
      (placed source isArray isRoot (.table i f es')).Perm (placed source isArray isRoot (.table i f es) ++ ls) := by
  induction h generalizing isArray isRoot i with
  | here hlocal => exact hplaced _ _ _ hlocal hes isArray isRoot i
  | @enter f f' pre post sub sub' e names rebuild item rest ih =>
    have hsub := hes.tables (e := e) (by simp) item.mem_bodies
    -- the item below has the new line already
    have hitem : ∃ ls, added ls ∧
        (placed source false false (rebuild sub')).Perm (placed source false false e.item ++ ls) := by
      generalize e.item = x at item ⊢
      cases item with
      | table => exact ih hsub false false _
      | @element _ j _ _ _ =>
        obtain ⟨ls, hls, hperm⟩ := ih hsub true false j
        refine ⟨ls, hls, ?_⟩
        simp only [placed, placedEach_eq, flatMap_append, flatMap_singleton, append_assoc] at hperm ⊢
        exact hperm.append_left _
    obtain ⟨ls, hls, hperm⟩ := hitem
    refine ⟨ls, hls, ?_⟩
    have hlines := ((Below.enter (f := f) item rest).built hchange hquiet hes).2 (by simp)
    simp only [placed, hlines.2, placedBelow_eq, flatMap_append, flatMap_cons, append_assoc]
    refine Perm.append_left _ (Perm.append_left _ ?_)
    refine (hperm.append_right _).trans ?_
    rw [append_assoc]
    exact perm_append_comm.append_left _

def Header.placed (h : Header) : Placed := (((h.number : Int), 0), .opening h.form h.isArray false)

theorem Header.placed_table (h : Header) (isArray isRoot : Bool) {sub : List (Entry Item)}
    (hnone : sub.any hasBodyLine = false) :
    Render.placed source isArray isRoot (h.table sub) =
      (((h.number : Int), 0), .opening h.form isArray isRoot) :: placedBelow source sub := by
  simp only [Header.table, Render.placed, bodyIn_eq_nil hnone]
  rfl

theorem Header.placed_freshEntry (h : Header) (ks : List Key) :
    Render.placed source false false (h.freshEntry ks).item = [h.placed] := by
  induction ks with
  | nil =>
    cases harray : h.isArray with
    | true =>
      have htable := @Header.placed_table source h true false [] rfl
      simp only [Header.freshEntry, harray, if_true, Render.placed, placedEach, htable, placedBelow, Header.placed]
      rfl
    | false =>
      have htable := @Header.placed_table source h false false [] rfl
      simp only [Header.freshEntry, harray, Bool.false_eq_true, if_false, htable, placedBelow, Header.placed]
  | cons k ks ih =>
    have hitem : (h.freshEntry (k :: ks)).item = .table {} { implicit := true } [h.freshEntry ks] := rfl
    simp only [hitem, Render.placed, placedBelow_eq, flatMap_singleton, ih, if_true, nil_append]

/-- A header adds its mark to the tree. -/
theorem HeaderChange.adds {h : Header} {rest : List Key} {x x' : List (Entry Item)} (hchange : HeaderChange h rest x x')
    (hx : Built x) (isArray isRoot : Bool) (i : Info) (f : TableForm) :
    (placed source isArray isRoot (.table i f x')).Perm (placed source isArray isRoot (.table i f x) ++ [h.placed]) := by
  have hlines := (hchange.quiet hx).2 []
  simp only [placed, hlines, placedBelow_eq, append_assoc]
  refine Perm.append_left _ ?_
  cases hchange with
  | fresh absent => simp only [flatMap_append, flatMap_singleton, h.placed_freshEntry source, Perm.refl]
  | @promote pre post sub e i f single name item implied notDotted =>
    have hsound := hx.sound (e := e) (by simp)
    rw [item] at hsound
    have hnone : sub.any hasBodyLine = false := by
      rcases hsound with hheader | ⟨-, hnone⟩
      · exact absurd (hheader.explicit.symm.trans implied) (by simp)
      · exact hnone notDotted
    have hnew := h.placed_table source false false hnone
    have hold : placed source false false e.item = placedBelow source sub := by
      simp only [item, placed, implied, if_true, nil_append]
    simp only [flatMap_append, flatMap_cons, append_assoc, hnew, hold]
    refine Perm.append_left _ ?_
    rw [Header.placed, single, cons_append, ← append_assoc]
    exact (perm_append_singleton _ _).symm
  | @append pre post e i ts array name item =>
    have hnew := @Header.placed_table source h true false [] rfl
    simp only [flatMap_append, flatMap_cons, append_assoc, item, placed, placedEach_eq, flatMap_nil,
      append_nil, hnew, placedBelow]
    refine Perm.append_left _ (Perm.append_left _ ?_)
    rw [Header.placed, array]
    exact perm_append_comm

/-- An entry below its dotted key keeps the lines of the tables below. -/
theorem DottedRun.placedBelow_eq {leaf : Entry Item} (hv : leaf.item.isValue = true) {ks : List Key}
    {es es' : List (Entry Item)} (h : DottedRun dottedTable leaf ks es es') (hes : Built es) :
    placedBelow source es' = placedBelow source es := by
  induction h with
  | leaf absent => simp only [Render.placedBelow_eq, flatMap_append, flatMap_singleton,
      placed_of_isValue source hv, append_nil]
  | @make k ks es sub absent rest ih =>
    have hitem : dottedTable.withEntries sub = .table {} { implicit := true, dotted := true } sub := rfl
    simp only [Render.placedBelow_eq, flatMap_append, flatMap_singleton, hitem, placed]
    rw [← Render.placedBelow_eq, ← Render.placedBelow_eq, ih Built.nil]
    simp [placedBelow]
  | @enter k ks pre post sub e name dotted rest ih =>
    have he : e ∈ pre ++ e :: post := by simp
    obtain ⟨i, f, sub₀, hitem, -, himplicit⟩ := (hes.sound he).dotted dotted
    obtain ⟨key, x, p, n, l⟩ := e
    cases hitem
    have hsub : placedBelow source sub = placedBelow source sub₀ := ih (hes.tables he (mem_singleton.mpr rfl))
    have hitem : (table i f sub₀).withEntries sub = .table i f sub := rfl
    simp only [Render.placedBelow_eq, flatMap_append, flatMap_cons, hitem, placed, himplicit, if_true, nil_append]
    simp only [← Render.placedBelow_eq, hsub]

/-- An entry line is marked in the body of the table that is open. -/
def EntryLine.Marked (l : EntryLine) (m : LineMark) : Prop :=
  ∃ keys, (l.path = [] → keys = []) ∧ m = .body (valueLine source keys l.entry)

theorem EntryChange.adds {l : EntryLine} {g f : TableForm} {x x' : List (Entry Item)} (hg : g.IsHeader)
    (hp : g.position = some p) (hd : l.value.isDotted = false) (hv : l.value.isValue = true) (h : EntryChange g l f x x')
    (hx : Built x) (isArray isRoot : Bool) (i : Info) :
    ∃ ls, (∃ m, l.Marked source m ∧ ls = [((p, (l.number : Int)), m)]) ∧
      (placed source isArray isRoot (.table i f x')).Perm (placed source isArray isRoot (.table i f x) ++ ls) := by
  obtain ⟨rfl, hrun⟩ := h
  obtain ⟨keys, hkeys, hperm⟩ := hrun.lines isDottedTable_dottedTable hd hv []
  refine ⟨_, ⟨_, ⟨keys, hkeys, rfl⟩, rfl⟩, ?_⟩
  simp only [placed, hg.explicit, Bool.false_eq_true, if_false, hp, Option.getD_some,
    hrun.placedBelow_eq source hv hx, openedAt, cons_append]
  refine Perm.cons _ ?_
  refine (((hperm.map _).map _).append_right _).trans ?_
  rw [map_append, map_append, append_assoc, append_assoc]
  exact perm_append_comm.append_left _

/-! ## Whole documents -/

def Line.number : Line → Nat
  | .header h => h.number
  | .entry l => l.number

def Line.newline : Line → String
  | .header h => h.newline
  | .entry l => l.newline

def Line.Marked : Line → LineMark → Prop
  | .header h, m => m = .opening h.form h.isArray false
  | .entry l, m => l.Marked source m

theorem Line.Marked.isLine {l : Line} (h : l.Marked source m) : m.isLine = true := by
  cases l with
  | header h' =>
    rw [show m = .opening h'.form h'.isArray false from h]
    rfl
  | entry l =>
    obtain ⟨keys, -, rfl⟩ := h
    rfl

/-- A line has a place as what it says, under its number. -/
def Line.PlacedAt (l : Line) (x : Placed) : Prop := l.Marked source x.2 ∧ x.number = l.number

theorem isLine_of_placed (h : Forall₂ (Line.PlacedAt source) ls xs) : ∀ x ∈ xs, x.2.isLine = true := by
  induction h with
  | nil => simp
  | cons hl _ ih => exact forall_mem_cons.mpr ⟨hl.1.isLine source, ih⟩

/-- The lines of a tree under construction, in the order of their places, which is the order in which they came. The tree has
other values by now. -/
structure Laid (g : Item → Item) (a : Assembly) (ls : List Placed) (p : Int) (n : Nat) : Prop where
  /-- The open table has a position. -/
  ready : ∃ f, a.Ready f ∧ f.position = some p
  lines : (placed source false true (.table {} rootForm (a.entries.map (onItem g)))).Perm ls
  sorted : ls.Pairwise Before
  /-- No place is behind the open table and the last number. -/
  bound : ∀ x ∈ ls, 0 ≤ x.1.2 ∧ (x.1.1 < p ∨ (x.1.1 = p ∧ x.1.2 ≤ n))
  /-- Positions are numbers of lines. -/
  position : p ≤ n

theorem laid_empty (g : Item → Item) : Laid source g {} [((0, 0), .opening rootForm false true)] 0 0 := by
  refine ⟨⟨rootForm, Assembly.ready_empty, rfl⟩, ?_, by simp, ?_, Int.le_refl 0⟩
  · simp [placed, placedBelow, bodyIn, openedAt, rootForm]
  · intro x hx
    rw [mem_singleton.mp hx]
    simp

/-- One more line comes behind all others. -/
private theorem pairwise_concat {ls : List Placed} {x : Placed} (hsorted : ls.Pairwise Before)
    (hbound : ∀ y ∈ ls, 0 ≤ y.1.2 ∧ (y.1.1 < p ∨ (y.1.1 = p ∧ y.1.2 ≤ n))) (hx : p < x.1.1 ∨ (x.1.1 = p ∧ n < x.1.2)) :
    (ls ++ [x]).Pairwise Before := by
  refine pairwise_append.mpr ⟨hsorted, by simp, ?_⟩
  intro y hy z hz
  rw [mem_singleton.mp hz]
  have := (hbound y hy).2
  rw [Before]
  omega

theorem Laid.add (hg : ValueMap g) {a a' : Assembly} {ls : List Placed} (h : Laid source g a ls p n)
    (hl : l.Proper) (hn : n < l.number) (hadd : a.add l = .ok a') :
    ∃ x p', (l.mapped g).PlacedAt source x ∧ Laid source g a' (ls ++ [x]) p' l.number := by
  obtain ⟨⟨f, hready, hp⟩, hlines, hsorted, hbound, hle⟩ := h
  have hbuilt := hready.built.mapped hg
  cases l with
  | header h =>
    obtain ⟨hready', -, lead, rest, -, hbelow⟩ := Assembly.add_header hready hadd
    have hbelow := hbelow.mapped hg fun _ x x' hchange => HeaderChange.mapped hg hchange
    obtain ⟨xs, rfl, hperm⟩ := hbelow.adds source (· = [h.placed]) (fun _ _ _ hchange hx => hchange.built hx)
      (quiet_headerChange h rest)
      (fun f x x' hchange hx isArray isRoot i => ⟨_, rfl, hchange.adds source hx isArray isRoot i f⟩) hbuilt false true {}
    have hn : n < h.number := hn
    refine ⟨h.placed, h.number, ⟨rfl, rfl⟩, ⟨h.form, hready', rfl⟩, hperm.trans (hlines.append_right _), ?_, ?_, Int.le_refl _⟩
    · refine pairwise_concat hsorted hbound (.inl ?_)
      simp only [Header.placed]
      omega
    · intro x hx
      rcases mem_append.mp hx with hx | hx
      · have := hbound x hx
        omega
      · rw [mem_singleton.mp hx]
        simp [Header.placed]
  | entry l =>
    obtain ⟨hready', -, hbelow⟩ := Assembly.add_entry hready hl hadd
    have hbelow := hbelow.mapped hg fun _ x x' hchange => EntryChange.mapped hg hchange
    have hl : (Line.entry { l with value := g l.value }).Proper :=
      ⟨(hg.isValue_eq l.value).trans hl.1, (hg.isDotted_eq l.value).trans hl.2⟩
    obtain ⟨xs, ⟨m, hm, rfl⟩, hperm⟩ := hbelow.adds source
      (fun xs => ∃ m, EntryLine.Marked source { l with value := g l.value } m ∧ xs = [((p, (l.number : Int)), m)])
      (fun _ _ _ hchange hx => hchange.built hl hx) (quiet_entryChange hready.header _)
      (fun f x x' hchange hx isArray isRoot i => hchange.adds source hready.header hp hl.2 hl.1 hx isArray isRoot i)
      hbuilt false true {}
    have hn : n < l.number := hn
    have hnumber : Placed.number ((p, (l.number : Int)), m) = l.number := by
      obtain ⟨keys, -, rfl⟩ := hm
      rfl
    refine ⟨((p, (l.number : Int)), m), p, ⟨hm, hnumber⟩, ⟨f, hready', hp⟩, hperm.trans (hlines.append_right _), ?_, ?_, ?_⟩
    · refine pairwise_concat hsorted hbound (.inr ⟨rfl, ?_⟩)
      simp only
      omega
    · intro x hx
      rcases mem_append.mp hx with hx | hx
      · have := hbound x hx
        simp only [Line.number]
        omega
      · rw [mem_singleton.mp hx]
        simp [Line.number]
    · simp only [Line.number]
      omega

/-- Lines with ascending numbers come one behind the other. -/
theorem Laid.addAll (hg : ValueMap g) (h : Laid source g a xs p n) (hproper : ∀ l ∈ ls, l.Proper)
    (hn : ∀ l ∈ ls, n < l.number) (hnumbers : ls.Pairwise fun l l' => l.number < l'.number) (hadd : a.addAll ls = .ok a') :
    ∃ ys p' n', Forall₂ (Line.PlacedAt source) (ls.map (Line.mapped g)) ys ∧ Laid source g a' (xs ++ ys) p' n' := by
  induction ls generalizing a xs p n with
  | nil =>
    cases hadd
    exact ⟨[], p, n, .nil, by simpa using h⟩
  | cons l ls ih =>
    rw [Assembly.addAll] at hadd
    split at hadd
    · cases hadd
    · next a₁ hl =>
      rw [pairwise_cons] at hnumbers
      obtain ⟨x, p₁, hmark, hlaid⟩ := h.add source hg (hproper l (mem_cons_self ..)) (hn l (mem_cons_self ..)) hl
      obtain ⟨ys, p', n', hmarks, hlaid'⟩ :=
        ih hlaid (fun l hl => hproper l (mem_cons_of_mem _ hl)) hnumbers.1 hnumbers.2 hadd
      exact ⟨x :: ys, p', n', .cons hmark hmarks, by simpa using hlaid'⟩

/-- The lines of an assembled tree have places in the order in which they were added, whatever values they have got since. -/
theorem assemble_placed (hg : ValueMap g) (hproper : ∀ l ∈ ls, l.Proper) (hn : ∀ l ∈ ls, 0 < l.number)
    (hnumbers : ls.Pairwise fun l l' => l.number < l'.number) (h : assemble ls = .ok root) :
    ∃ es xs, root = .table {} rootForm es ∧ Built (es.map (onItem g)) ∧
      Forall₂ (Line.PlacedAt source) (ls.map (Line.mapped g)) xs ∧
      (placed source false true (g root)).Perm (((0, 0), .opening rootForm false true) :: xs) ∧
      (((0, 0), .opening rootForm false true) :: xs).Pairwise Before ∧ ∀ x ∈ xs, 0 ≤ x.1.2 := by
  rw [assemble] at h
  split at h
  · cases h
  · next a hadd =>
    cases h
    obtain ⟨xs, p, n, hplaced, hlaid⟩ := (laid_empty source g).addAll source hg hproper hn hnumbers hadd
    obtain ⟨⟨f, hready, -⟩, hlines, hsorted, hbound, -⟩ := hlaid
    refine ⟨_, xs, rfl, hready.built.mapped hg, hplaced, ?_, hsorted, fun x hx => (hbound x (mem_cons_of_mem _ hx)).1⟩
    rw [show emptyRoot.withEntries a.entries = .table {} rootForm a.entries from rfl, hg.table]
    exact hlines

/-- The lines of an assembled tree are written in the order in which they were added. -/
theorem assemble_marks (hg : ValueMap g) (hproper : ∀ l ∈ ls, l.Proper) (hn : ∀ l ∈ ls, 0 < l.number)
    (hnumbers : ls.Pairwise fun l l' => l.number < l'.number) (h : assemble ls = .ok root) :
    Forall₂ (Line.Marked source) (ls.map (Line.mapped g)) ((writtenLines source (g root)).map WrittenLine.mark) := by
  obtain ⟨es, xs, rfl, hbuilt, hplaced, hperm, hsorted, hpos⟩ := assemble_placed source hg hproper hn hnumbers h
  rw [hg.table] at hperm ⊢
  rw [writtenLines_marks source isHeader_rootForm hbuilt hperm hsorted hpos (isLine_of_placed source hplaced),
    forall₂_map_right_iff]
  exact hplaced.imp fun _ _ h => h.1

end Verbatim

import Verbatim.Proofs.DocumentData
import Verbatim.Proofs.ScanAccepts

/-!
# What the strict reader accepts can be built

The strict reader keeps marks for key paths, the builder keeps the tree itself. As long as every mark that would refuse a
line has its reason in the tree, and every item that would refuse a line has its mark, the two agree on the lines that they
take. They differ in one point: the strict reader lets a dotted key extend a table that only longer headers have implied so
far, and the builder does not.

## Main statements

- `Tracks` - the marks of the strict reader account for the tree.
- `Tracks.add_iff`, `Tracks.add` - the lines that can be added, and the marks behind them.
- `readTree_accepts` - so it has a tree, unless a dotted key leads through an implied table.
- `parse_accepts_iff` - so it is parsed.
-/

namespace Verbatim

open List DataReader Item Cursor Key Fields

variable {x : Item} {data : Fields} {s' st st' st₁ : Reading} {c d b e : Cursor} {limit : Nat}

namespace DataReader

/-! ## Tables that are only implied -/

/-- The table that a key path leads on to from a value; from a list it is the last one. -/
def tableAhead : Plain → Fields
  | .table sub => sub
  | .list xs =>
    match xs.getLast? with
    | some (.table sub) => sub
    | _ => []
  | _ => []

/-- Whether something stands at a key path of the data. -/
def Fields.holds : List String → Fields → Bool
  | [], _ => true
  | k :: ks, t =>
    match t.lookup k with
    | none => false
    | some v => holds ks (tableAhead v)

/-- Whether a table is there only because longer headers imply it: it has no header, and no dotted key made it. -/
def Reading.implies (s : Reading) (path : List String) : Bool :=
  s.data.holds path && !s.marks.isDeclared path && !s.pending.contains path

/-- The entries that the reader meets in a text. -/
def entriesOf (text : List Char) : List EntryMet := entriesMet {} (.start (Text.joinReturns text))

/-- Whether arrays and inline tables nest at most so deep in the value of an entry. -/
def EntryMet.nestsWithin (limit : Nat) (e : EntryMet) : Bool :=
  (keyValue (valueWithin limit nestingLevels) e.place).isOk

/-- Whether a statement leads through no table that is only implied. Headers may. -/
def Statement.avoidsImplied (s : Reading) : Statement → Bool
  | .entry path _ => (dottedParents s.header path).all fun p => !s.implies p
  | _ => true

/-- Whether the dotted key of an entry leads through no table that is only implied. -/
def EntryMet.avoidsImplied (e : EntryMet) : Bool :=
  match statementAt e.place with
  | some (l, _) => l.avoidsImplied e.before
  | none => true

end DataReader

theorem tableAhead_of_enters (h : x.Enters sub) : tableAhead x.unwrap = unwrapFields sub := by
  rcases unwrap_of_enters h with htable | ⟨xs, hlist⟩
  · rw [htable, tableAhead]
  · rw [hlist, tableAhead, getLast?_concat]

/-- Where an item stands, its data is held. -/
theorem Stands.holds (hes : Named es) (h : Stands es p x) : Fields.holds p (unwrapFields es) = true := by
  induction h with
  | @here es e mem =>
    rw [Fields.holds, lookup_unwrapFields hes.nodup mem]
    rfl
  | @under es sub e names x mem enters rest ih =>
    rw [Fields.holds, lookup_unwrapFields hes.nodup mem]
    simp only [tableAhead_of_enters enters]
    exact ih (hes.enter mem enters)

/-- What is held below an open table is held in it. -/
theorem Opens.holds {f : TableForm} {a : List (Entry Item)} (h : Opens f es names g a) (hes : Named es)
    (q : List String) : Fields.holds (names ++ q) (unwrapFields es) = Fields.holds q (unwrapFields a) := by
  induction h with
  | here => rfl
  | @enter f f' g pre post sub a e names rebuild item rest ih =>
    have mem : e ∈ pre ++ e :: post := by simp
    rw [cons_append, Fields.holds, lookup_unwrapFields hes.nodup mem]
    simp only [tableAhead_of_enters item.enters]
    exact ih (hes.enter mem item.enters)

/-! ## Marks that account for a tree -/

/-- What the marks of the strict reader have to say of a path where an item of the given standing stands. -/
def DataReader.Reading.Marks (s : Reading) (p : List String) : Standing → Prop
  | .container => s.marks.isClosed p = true
  | .dotted => s.marks.isDeclared p = true ∨ p ∈ s.pending
  | .headed => s.marks.isDeclared p = true
  | .plain | .implied => True

/-- Marks that are kept go on to account for what stands at a path. -/
theorem DataReader.Reading.Marks.mono {s : Reading} {standing : Standing} (h : s.Marks p standing)
    (hclosed : s.marks.isClosed p = true → s'.marks.isClosed p = true)
    (hdeclared : s.marks.isDeclared p = true → s'.marks.isDeclared p = true)
    (hpending : p ∈ s.pending → s'.marks.isDeclared p = true ∨ p ∈ s'.pending) : s'.Marks p standing := by
  cases standing with
  | container => exact hclosed h
  | headed => exact hdeclared h
  | dotted => exact Or.elim h (fun h => .inl (hdeclared h)) hpending
  | _ => trivial

/-- The marks of the strict reader account for the tree under construction: what must not be changed is closed, what a line
of its own made is declared or will be, and what will be declared was made by a dotted key. -/
structure Tracks (s : Reading) (a : Assembly) : Prop where
  /-- The data is that of the tree. -/
  data : unwrapFields a.entries = s.data
  /-- The same table is open. -/
  header : a.current = s.header
  /-- Every item is marked as its standing demands. -/
  marked : ∀ p x, Stands a.entries p x → s.Marks p x.standing
  /-- What is pending was made by a dotted key. -/
  pending : ∀ p ∈ s.pending, ∃ x, Stands a.entries p x ∧ x.standing = .dotted

theorem Tracks.empty : Tracks {} {} :=
  ⟨rfl, rfl, fun _ _ h => absurd h Stands.not_nil, fun _ h => by cases h⟩

/-- The paths that a dotted key makes tables for. -/
theorem mem_dottedParents : p ∈ dottedParents header (path ++ [leaf]) ↔ ∃ q, q ≠ [] ∧ q <+: path ∧ p = header ++ q := by
  rw [dottedParents, length_append, length_singleton, Nat.add_sub_cancel, mem_map]
  constructor
  · rintro ⟨i, hi, rfl⟩
    have hlt : i + 1 ≤ path.length := mem_range.mp hi
    refine ⟨path.take (i + 1), ?_, take_prefix .., ?_⟩
    · intro hnil
      have hlength := congrArg length hnil
      simp only [length_take, length_nil] at hlength
      omega
    · rw [take_append_of_le_length hlt]
  · rintro ⟨q, hne, hway, rfl⟩
    have hpos := length_pos_iff.mpr hne
    have hle := hway.length_le
    refine ⟨q.length - 1, mem_range.mpr (by omega), ?_⟩
    rw [Nat.sub_add_cancel hpos, take_append_of_le_length hle, ← prefix_iff_eq_take.mp hway]

/-! ## Headers -/

section Headers

variable {s : Reading} {h : Header}

theorem Tracks.settle (ht : Tracks s a) : Tracks s.settle a := by
  refine ⟨ht.data, ht.header, fun p x hx => ?_, fun p hp => by cases hp⟩
  have hne : p.isEmpty = false := by simpa using hx.ne_nil
  have hdeclared : s.settle.marks.isDeclared p = (s.marks.isDeclared p || s.pending.contains p) := by
    rw [s.isDeclared_settle, hne, Bool.not_false, Bool.and_true]
  refine (ht.marked p x hx).mono (s.isClosed_settle p).trans (fun h => ?_) fun h => .inl ?_
  · rw [hdeclared, h, Bool.true_or]
  · rw [hdeclared, contains_iff_mem.mpr h, Bool.or_true]

/-- Behind a header all tables of dotted keys are declared. -/
theorem Tracks.isDeclared_of_dotted (ht : Tracks s a) (hpending : s.pending = []) (hx : Stands a.entries p x)
    (hdotted : x.standing = .dotted) : s.marks.isDeclared p = true := by
  have hmarked := ht.marked p x hx
  rw [hdotted] at hmarked
  rcases hmarked with hdeclared | hmem
  · exact hdeclared
  · rw [hpending] at hmem
    cases hmem

/-- Where a change of the data leads through and nothing is closed, a table stands or an array of tables. -/
theorem Tracks.leadsTo (ht : Tracks s a) (ha : Built a.entries) (hx : Stands a.entries p x)
    (hpath : atPath true f (p ++ q) s.data = some t) (hclosed : s.marks.isClosed p = false) :
    ∃ f sub rebuild, x.LeadsTo f sub rebuild := by
  rw [← ht.data] at hpath
  have hunwrap := hx.unwrap_of_atPath ha.named hpath
  have hsound := hx.sound ha
  have hcontainer : isContainer x.unwrap = true := by
    rcases hunwrap with ⟨sub, hsub⟩ | ⟨-, xs, sub, hlist⟩
    · rw [hsub]; rfl
    · rw [hlist]; rfl
  -- a value with members would be closed
  have hvalue : x.isValue = true → x.isDotted = true := by
    intro hv
    by_contra hd
    have hmarked := ht.marked p x hx
    rw [standing_of_isValue hv (by simpa using hd), if_pos hcontainer] at hmarked
    exact absurd (hmarked.symm.trans hclosed) (by decide)
  cases x with
  | inlineTable i v es =>
    have hdotted : v.dotted = true := hvalue rfl
    exact absurd (hdotted.symm.trans hsound) (by decide)
  | table i f sub => exact ⟨f, sub, _, .table⟩
  | arrayOfTables i ts =>
    obtain ⟨xs, sub, hlist⟩ : ∃ xs sub, ts.map unwrap = xs ++ [.table sub] := by
      rcases hunwrap with ⟨sub, hsub⟩ | ⟨-, xs, sub, hlist⟩
      · cases hsub
      · exact ⟨xs, sub, by simpa [unwrap] using hlist⟩
    obtain ⟨us, u, rfl⟩ : ∃ us u, ts = us ++ [u] := by
      rcases eq_nil_or_concat ts with rfl | ⟨us, u, h⟩
      · simp at hlist
      · exact ⟨us, u, by simpa using h⟩
    obtain ⟨j, f, sub, rfl, -⟩ := hsound u (by simp)
    exact ⟨f, sub, _, .element⟩
  | _ => cases hvalue rfl

theorem Header.keys_names (h : Header) : h.keys.map name = h.path.map name ++ [h.leaf.name] := by
  simp [Header.keys]

theorem Header.path_prefix (h : Header) : h.path.map name <+: h.keys.map name := by
  rw [h.keys_names]
  exact prefix_append ..

/-- A table header that the strict reader takes can be added. -/
theorem Tracks.table_accepts (ht : Tracks s a) (ha : Built a.entries) (hpending : s.pending = []) (harray : h.isArray = false)
    (hdeclared : s.marks.isDeclared (h.keys.map name) = false) (hclosed : s.marks.isClosed (h.keys.map name) = false)
    (hdata : atPath true some (h.keys.map name) s.data = some data) :
    ∃ es', attachHeader h h.path a.entries = .ok es' := by
  refine attachHeader_accepts (fun p x hp hx => ?_) (fun x hx => ?_)
  · have hopen := Marks.isClosed_of_prefix hclosed (hp.trans h.path_prefix)
    obtain ⟨q, hq⟩ := hp.trans h.path_prefix
    rw [← hq] at hdata
    exact ht.leadsTo ha hx hdata hopen
  · rw [← h.keys_names] at hx
    rw [Header.Replaces, harray, if_neg Bool.false_ne_true]
    have hmarked := ht.marked _ x hx
    obtain ⟨f, sub, rebuild, hleads⟩ := ht.leadsTo (q := []) ha hx (by rw [append_nil]; exact hdata) hclosed
    -- a table with a header, an array of tables and a table of a dotted key are declared
    have hnot : x.standing ≠ .headed ∧ x.standing ≠ .dotted := by
      constructor
      · intro hheaded
        rw [hheaded] at hmarked
        exact absurd (hmarked.symm.trans hdeclared) (by decide)
      · intro hdotted
        exact absurd ((ht.isDeclared_of_dotted hpending hx hdotted).symm.trans hdeclared) (by decide)
    cases hleads with
    | element => exact absurd rfl hnot.1
    | @table i f sub =>
      simp only [standing] at hnot ⊢
      split
      · next hdotted => simp [hdotted] at hnot
      · next hdotted =>
        split
        · rfl
        · next himplicit => simp [hdotted, himplicit] at hnot

/-- A header of an array of tables that the strict reader takes can be added. -/
theorem Tracks.array_accepts (ht : Tracks s a) (ha : Built a.entries) (harray : h.isArray = true)
    (hclosed : s.marks.isClosed (h.keys.map name) = false) (hdata : atPath true (grow? h.leaf.name)
      (h.path.map name) s.data = some data) : ∃ es', attachHeader h h.path a.entries = .ok es' := by
  refine attachHeader_accepts (fun p x hp hx => ?_) (fun x hx => ?_)
  · have hopen := Marks.isClosed_of_prefix hclosed (hp.trans h.path_prefix)
    obtain ⟨q, hq⟩ := hp
    rw [← hq] at hdata
    exact ht.leadsTo ha hx hdata hopen
  · rw [Header.Replaces, harray, if_pos rfl]
    have hmarked := ht.marked _ x hx
    rw [← ht.data] at hdata
    obtain ⟨xs, hxs⟩ := hx.unwrap_of_grow ha.named hdata
    rw [← h.keys_names] at hx hmarked
    -- an array that is a value would be closed
    cases x with
    | arrayOfTables i ts => rfl
    | scalar i v =>
      rw [standing_of_isValue rfl rfl, hxs, if_pos (by rfl)] at hmarked
      exact absurd (hmarked.symm.trans hclosed) (by decide)
    | array i f vs =>
      rw [standing_of_isValue rfl rfl, hxs, if_pos (by rfl)] at hmarked
      exact absurd (hmarked.symm.trans hclosed) (by decide)
    | _ => cases hxs

/-- The marks account for the tree behind a header. -/
theorem Tracks.header_added (ht : Tracks s a) (ha : a.Ready g) (hpending : s.pending = []) (hadd : a.add (.header h) = .ok a')
    (hmarks : s'.marks = (if h.isArray then s.marks.forget (h.keys.map name) else s.marks).declare (h.keys.map name))
    (hpending' : s'.pending = []) (hheader : s'.header = h.keys.map name) (hdata : unwrapFields a'.entries = s'.data) :
    Tracks s' a' := by
  have hkeys : h.keys.map name ≠ [] := by simp [Header.keys]
  refine ⟨hdata, (Assembly.add_header ha hadd).2.1.trans hheader.symm, fun q y hy => ?_, fun p hp => ?_⟩
  · rcases Assembly.stands_header ha hadd hy with ⟨x, hx, hstanding, hbelow⟩ | ⟨-, hstanding⟩ | ⟨rfl, hstanding⟩
    · -- the marks that are dropped lie below the new table
      have hkept : s'.marks.isClosed q = s.marks.isClosed q ∧
          (s.marks.isDeclared q = true → s'.marks.isDeclared q = true) := by
        rw [hmarks, Marks.isClosed_declare, Marks.isDeclared_declare]
        cases harray : h.isArray with
        | false => exact ⟨rfl, fun h => by rw [if_neg Bool.false_ne_true, h, Bool.true_or]⟩
        | true =>
          have hnot : (h.keys.map name).isPrefixOf q = false := by
            rw [← Bool.not_eq_true, isPrefixOf_iff_prefix]
            exact hbelow harray
          rw [if_pos rfl, Marks.isClosed_forget _ hkeys, Marks.isDeclared_forget _ hkeys, hnot]
          exact ⟨rfl, fun h => by rw [h]; rfl⟩
      rw [hstanding]
      refine (ht.marked q x hx).mono hkept.1.trans hkept.2 fun h => ?_
      rw [hpending] at h
      cases h
    · rw [hstanding]
      trivial
    · rw [hstanding]
      show s'.marks.isDeclared _ = true
      rw [hmarks, Marks.isDeclared_declare]
      simp [Header.keys]
  · rw [hpending'] at hp
    cases hp

end Headers

/-! ## Entries -/

section Entries

variable {s : Reading}

theorem EntryLine.keys_names (l : EntryLine) :
    (l.path ++ [l.leaf]).map name = l.path.map name ++ [l.leaf.name] := by simp

/-- An entry that the strict reader takes can be added, if it leads through no table that is only implied. -/
theorem Tracks.entry_accepts (ht : Tracks s a) (ha : a.Ready g) (hparents : ∀ p ∈ dottedParents s.header (l.path.map name ++
      [l.leaf.name]), s.marks.isDeclared p = false ∧ s.implies p = false)
    (hdata : s.data.atPath true (add? l.leaf.name v) (s.header ++ l.path.map name) = some data) :
    ∃ a', a.add (.entry l) = .ok a' := by
  obtain ⟨es, hopens⟩ := ha.opens
  have hnamed := ha.built.named
  have hdots : ∀ p x, p <+: l.path.map name → Stands es p x → x.standing = .dotted := by
    intro p x hp hx
    have hroot := hopens.stands hx
    have hmem : a.current ++ p ∈ dottedParents s.header (l.path.map name ++ [l.leaf.name]) :=
      mem_dottedParents.mpr ⟨p, hx.ne_nil, hp, by rw [ht.header]⟩
    obtain ⟨hdeclared, himplies⟩ := hparents _ hmem
    -- the table is there and not declared, so it is pending
    have hpending : a.current ++ p ∈ s.pending := by
      rw [Reading.implies, ← ht.data, hroot.holds hnamed, hdeclared] at himplies
      simpa using himplies
    obtain ⟨y, hy, hdotted⟩ := ht.pending _ hpending
    rw [hroot.unique hnamed hy]
    exact hdotted
  rw [← ht.data, ← ht.header] at hdata
  obtain ⟨t, hadd⟩ := hopens.atPath hnamed hdata
  obtain ⟨es', hes'⟩ := insertDotted_accepts dottedTable l.entry (hopens.named hnamed) hdots hadd
  obtain ⟨root, hroot⟩ := attachEntry_accepts hopens hnamed hes'
  exact ⟨_, by rw [Assembly.add, hroot]⟩

/-- The marks account for the tree behind an entry. -/
theorem Tracks.entry_added (ht : Tracks s a) (ha : a.Ready g) (hl : (Line.entry l).Proper) (hadd : a.add (.entry l) = .ok a')
    (hheader : s'.header = s.header) (hmarks : s'.marks = if isContainer l.value.unwrap then s.marks.close (s.header ++
      (l.path.map name ++ [l.leaf.name])) else s.marks) (hpending : s'.pending = s.pending ++ dottedParents s.header
      (l.path.map name ++ [l.leaf.name])) (hdata : unwrapFields a'.entries = s'.data) : Tracks s' a' := by
  refine ⟨hdata, ((Assembly.add_entry ha hl hadd).2.1.trans ht.header).trans hheader.symm, fun q y hy => ?_, fun p hp => ?_⟩
  · have hclosed : s.marks.isClosed q = true → s'.marks.isClosed q = true := by
      intro h
      rw [hmarks]
      split
      · rw [Marks.isClosed_close, h, Bool.true_or]
      · exact h
    have hdeclared : s'.marks.isDeclared q = s.marks.isDeclared q := by
      rw [hmarks]
      split
      · rw [Marks.isDeclared_close]
      · rfl
    rcases Assembly.stands_entry ha hl hadd hy with ⟨x, hx, hstanding⟩ | ⟨p, hne, hp, rfl, hstanding⟩ | ⟨rfl, rfl⟩
    · rw [hstanding]
      refine (ht.marked q x hx).mono hclosed hdeclared.trans fun h => .inr ?_
      rw [hpending]
      exact mem_append_left _ h
    · rw [hstanding]
      refine .inr ?_
      rw [hpending]
      exact mem_append_right _ (mem_dottedParents.mpr ⟨p, hne, hp, by rw [ht.header]⟩)
    · rw [standing_of_isValue hl.1 hl.2]
      split
      · next hcontainer =>
        show s'.marks.isClosed _ = true
        rw [hmarks, if_pos hcontainer, Marks.isClosed_close, ht.header]
        simp
      · trivial
  · rw [hpending] at hp
    rcases mem_append.mp hp with hold | hnew
    · obtain ⟨x, hx, hdotted⟩ := ht.pending p hold
      obtain ⟨y, hy, hstanding⟩ := Assembly.stands_before_entry ha hl hadd hx
      exact ⟨y, hy, hstanding.trans hdotted⟩
    · obtain ⟨q, hne, hq, rfl⟩ := mem_dottedParents.mp hnew
      rw [← ht.header]
      exact Assembly.stands_made ha hl hadd hne hq

/-- What the data holds below dotted tables stands there. -/
theorem stands_of_holds (hes : Named es) (hne : q ≠ []) (hholds : holds q (unwrapFields es) = true)
    (hdots : ∀ p x, p <+: q → Stands es p x → x.standing = .dotted) : ∃ x, Stands es q x := by
  induction q generalizing es with
  | nil => exact absurd rfl hne
  | cons k q ih =>
    rw [holds] at hholds
    split at hholds
    · cases hholds
    · next v hlookup =>
      obtain ⟨e, he, rfl, rfl⟩ := of_lookup_unwrapFields hlookup
      cases hq : q with
      | nil => exact ⟨e.item, .here he⟩
      | cons k' q' =>
        have henters := Enters.of_isDotted
          (standing_eq_dotted.mp (hdots [e.name] e.item (by simp) (.here he)))
        rw [tableAhead_of_enters henters] at hholds
        obtain ⟨x, hx⟩ := ih (hes.enter he henters) (by simp [hq]) hholds fun p x hp hx =>
          hdots (e.name :: p) x (by simpa using hp) (.under he henters hx)
        exact ⟨x, hq ▸ .under he henters hx⟩

/-- An entry that was added leads through no table that is only implied. -/
theorem Tracks.not_implies (ht : Tracks s a) (ha : a.Ready g) (hl : (Line.entry l).Proper) (hadd : a.add (.entry l) = .ok a')
    (hne : q ≠ []) (hq : q <+: l.path.map name) : s.implies (s.header ++ q) = false := by
  obtain ⟨es, hopens⟩ := ha.opens
  have hnamed := ha.built.named
  have hdots : ∀ p x, p <+: l.path.map name → Stands es p x → x.standing = .dotted := by
    intro p x hp hx
    obtain ⟨y, hy, hsame⟩ := Assembly.stands_before_entry ha hl hadd (hopens.stands hx)
    obtain ⟨z, hz, hdotted⟩ := Assembly.stands_made ha hl hadd hx.ne_nil hp
    rw [← hsame, hy.unique (Assembly.add_entry ha hl hadd).1.built.named hz]
    exact hdotted
  by_contra himplies
  obtain ⟨hholds, hdeclared, hpending⟩ : s.data.holds (s.header ++ q) = true ∧
      s.marks.isDeclared (s.header ++ q) = false ∧ s.header ++ q ∉ s.pending := by
    simpa [Reading.implies] using himplies
  rw [← ht.data, ← ht.header, hopens.holds hnamed] at hholds
  obtain ⟨x, hx⟩ := stands_of_holds (hopens.named hnamed) hne hholds fun p x hp => hdots p x (hp.trans hq)
  have hmarked := ht.marked _ x (hopens.stands hx)
  rw [hdots q x hq hx, ht.header] at hmarked
  rcases hmarked with hyes | hyes
  · rw [hdeclared] at hyes
    cases hyes
  · exact hpending hyes

end Entries

/-! ## Lines -/

/-- A line whose statement the strict reader accepts can be added, unless it leads through a table that is only implied. -/
theorem Tracks.add_iff {s : Reading} (ht : Tracks s a) (ha : a.Ready g) (hl : l.Proper)
    (hs : l.statement.accept? s = some s') : (∃ a', a.add l = .ok a') ↔ l.statement.avoidsImplied s = true := by
  cases l with
  | header h =>
    rw [Line.statement] at hs ⊢
    have hroot : ∃ es', attachHeader h h.path a.entries = .ok es' := by
      cases harray : h.isArray with
      | true =>
        rw [harray, if_pos rfl] at hs
        obtain ⟨data, hclosed, hgrow, -⟩ := Statement.accept?_array.mp hs
        rw [h.keys_names, getLastD_concat, dropLast_concat] at hgrow
        exact ht.settle.array_accepts ha.built harray hclosed hgrow
      | false =>
        rw [harray, if_neg Bool.false_ne_true] at hs
        obtain ⟨data, hdeclared, hclosed, hopen, -⟩ := Statement.accept?_table.mp hs
        exact ht.settle.table_accepts ha.built rfl harray hdeclared hclosed hopen
    obtain ⟨es', hes'⟩ := hroot
    refine iff_of_true ⟨_, by rw [Assembly.add, hes']⟩ ?_
    split <;> rfl
  | entry l =>
    rw [Line.statement, l.keys_names] at hs ⊢
    obtain ⟨data, hparents, -, hgrow, -⟩ := Statement.accept?_entry.mp hs
    rw [getLastD_concat, dropLast_concat] at hgrow
    rw [Statement.avoidsImplied, all_eq_true]
    constructor
    · rintro ⟨a', hadd⟩ p hp
      obtain ⟨q, hne, hq, rfl⟩ := mem_dottedParents.mp hp
      rw [ht.not_implies ha hl hadd hne hq]
      rfl
    · intro havoids
      exact ht.entry_accepts ha (fun p hp => ⟨hparents p hp, by simpa using havoids p hp⟩) hgrow

/-- The marks account for the tree with one more line. -/
theorem Tracks.add {s : Reading} (ht : Tracks s a) (ha : a.Ready g) (hl : l.Proper)
    (hs : l.statement.accept? s = some s') (hadd : a.add l = .ok a') : Tracks s' a' := by
  have hdata : unwrapFields a'.entries = s'.data := by
    have hplace := Assembly.add_place ha hl hadd
    rw [ht.data, ht.header, Line.place_of_accept? hs] at hplace
    exact (congrArg Prod.fst (Option.some.inj hplace)).symm
  cases l with
  | header h =>
    rw [Line.statement] at hs
    cases harray : h.isArray with
    | true =>
      rw [harray, if_pos rfl] at hs
      obtain ⟨data, -, -, rfl⟩ := Statement.accept?_array.mp hs
      exact ht.settle.header_added ha rfl hadd (by rw [harray, if_pos rfl]) rfl rfl hdata
    | false =>
      rw [harray, if_neg Bool.false_ne_true] at hs
      obtain ⟨data, -, -, -, rfl⟩ := Statement.accept?_table.mp hs
      exact ht.settle.header_added ha rfl hadd (by rw [harray, if_neg Bool.false_ne_true]) rfl rfl hdata
  | entry l =>
    rw [Line.statement, l.keys_names] at hs
    obtain ⟨data, -, -, -, rfl⟩ := Statement.accept?_entry.mp hs
    exact ht.entry_added ha hl hadd rfl rfl rfl hdata

/-! ## Scanned lines -/

theorem lineEnd_accepts (behind : String) (hj : c.Joins d) (hd : afterStatement b d st = .ok st') :
    ∃ newline c', lineEnd behind c.skipBlanks.skipComment = .ok (newline, c') ∧ c.Reaches c' := by
  obtain ⟨e, he, hend⟩ := afterStatement_eq_ok hd
  have hjoins := hj.skipBlanks.skipComment he
  have hreaches : c.Reaches c.skipBlanks.skipComment := c.reaches_skipBlanks.trans (reaches_skipComment _)
  rcases hend with ⟨hnil, -⟩ | ⟨hnewline, -⟩
  · exact ⟨"", _, by rw [lineEnd, hjoins.rest_eq_nil.mp hnil], hreaches⟩
  · obtain ⟨u, hu⟩ := startsWith_singleton.mp hnewline
    have hjoined : Text.joinReturns c.skipBlanks.skipComment.rest = '\n' :: u := by rw [← hu]; exact hjoins.symm
    rcases Text.of_joinReturns_eq_newline hjoined with ⟨t, ht, -⟩ | ⟨t, ht, -⟩
    · exact ⟨"\n", c.skipBlanks.skipComment.next, by rw [lineEnd, ht]; rfl, hreaches.trans (reaches_drop ..)⟩
    · exact ⟨"\r\n", c.skipBlanks.skipComment.drop 2, by rw [lineEnd, ht]; rfl, hreaches.trans (reaches_drop ..)⟩

/-- What follows a statement on its line ends a value. -/
theorem stops_of_afterStatement (h : afterStatement b d st = .ok st') : Stops d.rest := by
  obtain ⟨e, he, hend⟩ := afterStatement_eq_ok h
  cases hcomment : (d.skipWhile isBlank).startsWith ['#'] with
  | true => exact stops_of_skipBlanks hcomment (by simp)
  | false =>
    rw [skipComment_of_ne hcomment] at he
    cases he
    rcases hend with ⟨hnil, -⟩ | ⟨hnewline, -⟩
    · intro x hx
      rw [show d.rest.dropWhile isBlank = [] from hnil] at hx
      cases hx
    · exact stops_of_skipBlanks hnewline (by simp)

theorem expectChar_twice {x : Char} (what what' : String) (h : c.startsWith [x, x] = true) :
    expectChar x what c = .ok c.next ∧ expectChar x what' c.next = .ok (c.drop 2) := by
  obtain ⟨u, hu⟩ := isPrefixOf_iff_prefix.mp h
  have hnext : c.next.rest = x :: u := by
    rw [Cursor.next, Cursor.drop, ← hu]
    rfl
  have htwo : c.next.next = c.drop 2 := by
    obtain ⟨pos, rest⟩ := c
    subst hu
    rfl
  refine ⟨expectChar_accepts what (startsWith_singleton.mpr ⟨x :: u, hu.symm⟩), ?_⟩
  rw [expectChar_accepts what' (startsWith_singleton.mpr ⟨u, hnext⟩), htwo]

/-- The scanner takes every header that the strict reader takes. -/
theorem headerLine_accepts (before : Nat) (hj : s.cursor.Joins d) (hbracket : d.startsWith ['['] = true)
    (hd : statementAt d = some (m, e)) (hafter : afterStatement b e st₁ = .ok st') :
    ∃ l s', headerLine before s = .ok (l, s') ∧ s'.cursor.rest.length < s.cursor.rest.length := by
  have hbracket' := (hj.startsWith_iff (by decide) (by decide)).mpr hbracket
  have hsame := hj.startsWith_eq (w := ['[', '[']) (by simp)
  generalize harray : s.cursor.startsWith ['[', '['] = isArray at hsame
  obtain ⟨names, e', hpath, hclose, -, rfl⟩ := (statementAt_header hbracket hsame.symm).mp hd
  -- the brackets are one or two on both sides
  generalize hn : (if isArray = true then 2 else 1) = n at hpath hclose hafter
  have hopen : s.cursor.startsWith (replicate n '[') = true := by
    cases isArray with
    | true => exact hn ▸ harray
    | false => exact hn ▸ hbracket'
  have hspells := spells_of_startsWith hopen
  have hstart := hj.spells hspells (by simp)
  rw [length_replicate] at hstart hspells
  have hpos : n = n - 1 + 1 := by
    rw [← hn]
    split <;> rfl
  have hfollow : NoMark e'.rest := by
    rw [hpos, replicate_succ] at hclose
    obtain ⟨u, hu⟩ := isPrefixOf_iff_prefix.mp hclose
    exact noMark_of_startsWith (startsWith_singleton.mpr ⟨_, hu.symm⟩) (by decide)
  obtain ⟨path, leaf, c₂, hkeys⟩ := keySegments_accepts (s.cursor.drop n).pos hstart hpath hfollow
  have hrun := keySegments_run hkeys
  have hjoins := (hrun.joins hstart hpath).1
  have hclose' : c₂.startsWith (replicate n ']') = true := (hjoins.startsWith_eq (by simp)).trans hclose
  have hspells' := spells_of_startsWith hclose'
  have hbehind := hjoins.spells hspells' (by simp)
  rw [length_replicate] at hbehind hspells'
  obtain ⟨newline, c₆, hend, t₂, h₂⟩ := lineEnd_accepts "the table header" hbehind hafter
  obtain ⟨t₁, h₁⟩ := hrun.reaches
  have hlength := (((hspells.trans h₁).trans hspells').trans h₂).length_eq
  simp only [length_append, length_replicate] at hlength
  have hless : c₆.rest.length < s.cursor.rest.length := by omega
  have hline : ∃ l, headerLine before s = .ok (l, ⟨c₆, s.number + 1⟩) := by
    rw [headerLine]
    simp only [harray, hn, hkeys]
    cases isArray with
    | true =>
      subst hn
      obtain ⟨hfirst, hsecond⟩ := expectChar_twice "']' to close the table header"
        "']]' to close the array of tables header" hclose'
      rw [hfirst]
      simp only [if_true, hsecond] at hend ⊢
      simp only [hend]
      exact ⟨_, rfl⟩
    | false =>
      subst hn
      rw [expectChar_accepts _ hclose']
      simp only [Bool.false_eq_true, if_false]
      have hend' : lineEnd "the table header" c₂.next.skipBlanks.skipComment = .ok (newline, c₆) := hend
      simp only [hend']
      exact ⟨_, rfl⟩
  obtain ⟨l, hl⟩ := hline
  exact ⟨l, _, hl, hless⟩

/-- The scanner takes every entry that the strict reader takes, if containers do not nest too deep. -/
theorem entryLine_accepts (limit before : Nat) {x : Char} (hj : s.cursor.Joins d) (hx : d.rest = x :: u)
    (hblank : isBlank x = false) (hno : d.startsWith ['['] = false) (hd : statementAt d = some (m, e))
    (hafter : afterStatement b e st₁ = .ok st') (hnests : EntryMet.nestsWithin limit ⟨st, d⟩ = true) :
    ∃ l s', entryLine limit before s = .ok (l, s') ∧ s'.cursor.rest.length < s.cursor.rest.length := by
  have hskip : d.skipWhile isBlank = d := skipWhile_of_head (by rw [hx]; exact fun y hy => Option.some.inj hy ▸ hblank)
  obtain ⟨names, w, hvalue, -⟩ := (statementAt_entry hno).mp hd
  -- within the limit the value is the same
  have hwithin : keyValue (valueWithin limit nestingLevels) (d.skipWhile isBlank) = .ok ((names, w), e) := by
    rw [hskip]
    rw [EntryMet.nestsWithin] at hnests
    cases hlimited : keyValue (valueWithin limit nestingLevels) d with
    | error f =>
      rw [hlimited] at hnests
      cases hnests
    | ok r =>
      have hsame := keyValue_mono (fun c r => value_of_valueWithin) hlimited
      rw [hvalue] at hsame
      cases hsame
      rfl
  have haccepts : Accepts (valueItem limit openLevels 0) (valueWithin limit nestingLevels) :=
    accepts_valueItem (Nat.le_of_eq (Nat.zero_add limit))
  obtain ⟨path, leaf, c₁, c₂, v, s₃, hkeys, hequals, hvalue', t₁, hpos, h₁⟩ :=
    keyedValue_accepts haccepts before "'=' after key" hj hwithin (stops_of_afterStatement hafter)
  have hjoins := (keyedValue_joins (agrees_valueWithin limit openLevels 0 limit) hj (keySegments_run hkeys) hequals hvalue' hwithin).1
  obtain ⟨newline, c₅, hend, t₂, h₂⟩ := lineEnd_accepts "a value" hjoins hafter
  have hlength := (h₁.trans h₂).length_eq
  rw [length_append] at hlength
  have hless : c₅.rest.length < s.cursor.rest.length := by omega
  have hline : ∃ l, entryLine limit before s = .ok (l, ⟨c₅, s₃.number + 1⟩) := by
    rw [entryLine]
    simp only [hkeys, hequals, decoratedValue, hvalue', hend]
    exact ⟨_, rfl⟩
  obtain ⟨l, hl⟩ := hline
  exact ⟨l, _, hl, hless⟩

/-- The scanner takes the line of every statement that the strict reader takes. -/
theorem lineAt_accepts {e' : Cursor} {x : Char} (hj : s.cursor.Joins d)
    (he : e.rest = triviaRest false d.rest) (hx : e.rest = x :: u) (hblank : isBlank x = false)
    (hspelled : statementAt e = some (m, e')) (hafter : afterStatement b e' st₁ = .ok st')
    (hnests : x ≠ '[' → EntryMet.nestsWithin limit ⟨st, e⟩ = true) :
    ∃ l s', lineAt limit s = .ok (l, s') ∧ s'.cursor.rest.length < s.cursor.rest.length := by
  have hhere : s.cursor.skipTrivia.Joins e := hj.triviaRest he
  have hsame := hhere.startsWith_eq (w := ['[']) (by simp)
  have hlength : s.cursor.skipTrivia.rest.length ≤ s.cursor.rest.length := by
    obtain ⟨t, ht⟩ := s.cursor.reaches_skipTrivia
    rw [ht.length_eq]
    omega
  rw [lineAt]
  dsimp only
  rw [hsame]
  cases hbracket : e.startsWith ['['] with
  | true =>
    obtain ⟨l, s', hl, hless⟩ := headerLine_accepts s.cursor.pos (s := { s with cursor := s.cursor.skipTrivia })
      hhere hbracket hspelled hafter
    exact ⟨l, s', hl, Nat.lt_of_lt_of_le hless hlength⟩
  | false =>
    have hno : x ≠ '[' := by
      rintro rfl
      rw [startsWith_singleton.mpr ⟨u, hx⟩] at hbracket
      cases hbracket
    obtain ⟨l, s', hl, hless⟩ := entryLine_accepts limit s.cursor.pos
      (s := { s with cursor := s.cursor.skipTrivia }) hhere hx hblank hbracket hspelled hafter (hnests hno)
    exact ⟨l, s', hl, Nat.lt_of_lt_of_le hless hlength⟩

/-! ## Whole texts -/

theorem atEnd_of_joins (hj : c.Joins d) : c.skipTrivia.atEnd = true ↔ triviaRest false d.rest = [] := by
  rw [Joins] at hj
  rw [atEnd, List.isEmpty_iff, hj, ← joinReturns_drop_triviaLength, Text.joinReturns_eq_nil]
  rfl

/-- The lines of an accepted text can be scanned, if containers do not nest too deep in its entries. -/
theorem scanLines_accepts (hj : s.cursor.Joins d) (hd : statements st d = .ok st')
    (hnests : ∀ e ∈ entriesMet st d, e.nestsWithin limit = true) :
    ∃ ls trailing, scanLines limit s = (ls, .ok trailing) := by
  -- every line leaves less of the text
  induction hn : s.cursor.rest.length using Nat.strong_induction_on generalizing s d st with
  | _ n ih =>
    subst hn
    rcases statements_eq_ok hd with
      ⟨hend, -⟩ | ⟨e, x, u, m, st₁, e', he, hx, hblank, -, hspelled, -, b, hafter, hmet⟩
    · rw [scanLines]
      simp only [(atEnd_of_joins hj).mpr hend, if_true]
      exact ⟨_, _, rfl⟩
    · have hhere : x ≠ '[' → EntryMet.nestsWithin limit ⟨st, e⟩ = true := by
        intro hno
        apply hnests
        rw [hmet, if_neg hno]
        exact mem_append_left _ (mem_singleton_self _)
      obtain ⟨l, s₁, hline, hless⟩ := lineAt_accepts hj he hx hblank hspelled hafter hhere
      obtain ⟨-, d₁, hj₁, hd₁, hmet₁⟩ := lineAt_joins hj hline he hx hblank hspelled hafter
      have hnests₁ : ∀ m ∈ entriesMet st₁ d₁, m.nestsWithin limit = true := by
        intro m hm
        apply hnests
        rw [hmet, ← hmet₁]
        exact mem_append_right _ hm
      obtain ⟨ls, trailing, hls⟩ := ih _ hless hj₁ hd₁ hnests₁ rfl
      have hmore : s.cursor.skipTrivia.atEnd = false := by
        by_contra hend
        rw [he, (atEnd_of_joins hj).mp (by simpa using hend)] at hx
        cases hx
      exact ⟨l :: ls, trailing, scanLines_cons hmore hline hless hls⟩

/-- The lines of an accepted text can be put together, unless one of them leads through a table that is only implied. -/
theorem LinesRun.addAll_iff (h : LinesRun limit s ls trailing) (hs : s.cursor.On source) (hj : s.cursor.Joins d)
    (hd : statements st d = .ok st') (ha : a.Ready g) (ht : Tracks st a) :
    (∃ a', a.addAll ls = .ok a') ↔ ∀ e ∈ entriesMet st d, e.avoidsImplied = true := by
  induction h generalizing d st a g with
  | @done s atEnd =>
    rcases statements_eq_ok hd with ⟨-, -, hmet⟩ | ⟨e, x, u, -, -, -, he, hx, -⟩
    · rw [hmet]
      exact iff_of_true ⟨a, rfl⟩ (by simp)
    · rw [he, (atEnd_of_joins hj).mp atEnd] at hx
      cases hx
  | @line s s' l ls trailing notAtEnd line rest ih =>
    rcases statements_eq_ok hd with
      ⟨hend, -⟩ | ⟨e, x, u, m, st₁, e', he, hx, hblank, -, hspelled, haccept, b, hafter, hmet⟩
    · rw [(atEnd_of_joins hj).mpr hend] at notAtEnd
      cases notAtEnd
    · obtain ⟨rfl, d₁, hj₁, hd₁, hmet₁⟩ := lineAt_joins hj line he hx hblank hspelled hafter
      have hkept := lineAt_kept .nothing hs line
      have hone := ht.add_iff ha hkept.proper haccept
      -- the entry of the line, if it has one, is the first that is met
      have hfirst : (∀ m ∈ if x = '[' then [] else [⟨st, e⟩], EntryMet.avoidsImplied m = true) ↔
          l.statement.avoidsImplied st = true := by
        by_cases hbracket : x = '['
        · subst hbracket
          obtain ⟨path, e₁, -, -, hl, -⟩ := (statementAt_header (startsWith_singleton.mpr ⟨u, hx⟩) rfl).mp hspelled
          rw [if_pos rfl, hl]
          refine iff_of_true (by simp) ?_
          split <;> rfl
        · rw [if_neg hbracket, forall_mem_singleton, EntryMet.avoidsImplied, hspelled]
      rw [hmet, ← hmet₁, forall_mem_append, hfirst, ← hone, Assembly.addAll]
      cases hadd : a.add l with
      | error f => simp
      | ok a₁ =>
        obtain ⟨g₁, ha₁⟩ := Assembly.ready_add ha hkept.proper hadd
        have hmore := ih (hkept.reaches.on hs) hj₁ hd₁ ha₁ (ht.add ha hkept.proper haccept hadd)
        simpa using hmore

/-- A text that the strict reader takes, and in which containers do not nest too deep, has a tree unless a dotted key leads
through a table that is only implied. -/
theorem readTree_accepts (hread : readDocument source = .ok data)
    (hnests : ∀ e ∈ entriesOf source, e.nestsWithin limit = true) :
    (∃ tree, readTree limit source = .ok tree) ↔ ∀ e ∈ entriesOf source, e.avoidsImplied = true := by
  rw [readDocument] at hread
  split at hread
  · cases hread
  · next st hst =>
    obtain ⟨ls, trailing, hls⟩ := scanLines_accepts (s := ⟨.start source, 0⟩) (Joins.start source) hst hnests
    have hiff := (scanLines_run hls).addAll_iff (start_on source) (Joins.start source) hst
      Assembly.ready_empty Tracks.empty
    have hlines : sourceLines limit source = (ls, .ok trailing) := hls
    rw [entriesOf, ← hiff, readTree, hlines]
    dsimp only
    rw [assemble]
    cases hadd : ({} : Assembly).addAll ls with
    | _ => simp

/-! ## Parsing -/

theorem parse_of_readTree (hload : source.load options.encoding = .ok (text, mode))
    (hread : readDocument text = .ok data) :
    parse options source = match readTree options.maxNesting text with
      | .ok (root, trailing) => .ok ⟨root.freeze true, trailing, String.ofList text, mode⟩
      | .error f => .error (f.failure text) := by
  rw [parse, hload]
  dsimp only
  rw [parseText, validate_of_readDocument hread, ite_self, parseTree]
  cases readTree options.maxNesting text with
  | _ => rfl

/-- **Acceptance.** A text that the strict reader takes, and in which arrays and inline tables nest at most as deep as the
options allow, is parsed with the data that the strict reader finds, exactly if none of its dotted keys leads through a table
that only longer headers have implied so far. -/
theorem parse_accepts_iff {options : ReadOptions} {source : Source} {text : List Char} {mode : SourceMode} {data : Fields}
    (hload : source.load options.encoding = .ok (text, mode)) (hread : readDocument text = .ok data)
    (hnests : ∀ e ∈ entriesOf text, e.nestsWithin options.maxNesting = true) :
    (∃ s, parse options source = .ok s ∧ s.root.unwrap = .table data) ↔
      ∀ e ∈ entriesOf text, e.avoidsImplied = true := by
  rw [← readTree_accepts hread hnests, parse_of_readTree hload hread]
  cases htree : readTree options.maxNesting text with
  | error f => simp
  | ok tree =>
    obtain ⟨root, trailing⟩ := tree
    refine iff_of_true ⟨_, rfl, ?_⟩ ⟨_, rfl⟩
    exact (unwrap_freeze true root).trans (readTree_unwrap htree hread)

/-- Dotted keys of tables and of elements, and a header for a table that was only implied. -/
def extendedText : String :=
  "[a.b.c]\nz = 9\n[a]\nd.e = [1]\nd.f = \x7bx.y = 2\x7d\n[[p.q]]\nr.s = 1\n[p]\nt.u = 2\n"

theorem parse_accepts_extended :
    ∃ s data, readDocument extendedText.toList = .ok data ∧ parse {} (.text extendedText) = .ok s ∧
      s.root.unwrap = .table data := by
  cases h : readDocument extendedText.toList with
  | error e =>
    have hok : (readDocument extendedText.toList).isOk = true := by decide +kernel
    rw [h] at hok
    cases hok
  | ok data =>
    have hload : (Source.text extendedText).load ({} : ReadOptions).encoding = .ok (extendedText.toList, .borrowed) := rfl
    obtain ⟨s, hs, hdata⟩ := (parse_accepts_iff hload h (by decide +kernel)).mpr (by decide +kernel)
    exact ⟨s, data, rfl, hs, hdata⟩

/-- A dotted key through a table that a longer header has implied. -/
def impliedText : String := "[a.b.c]\nz = 9\n[a]\nb.d = 1\n"

/-- The strict reader takes such a text, which has no arrays and no inline tables, and the builder does not. -/
theorem implied_table_not_extended :
    (readDocument impliedText.toList).isOk = true ∧
      (∀ e ∈ entriesOf impliedText.toList, e.nestsWithin 0 = true) ∧
      parse {} (.text impliedText) = .error (.refused
        { message := "Cannot extend 'b' with a dotted key: it is already defined as a table"
          place := ⟨some 4, some 1, some "b.d = 1"⟩ }) := by
  refine ⟨by decide +kernel, by decide +kernel, ?_⟩
  have hreport : (parse {} (.text impliedText)).map (fun _ => ()) = .error (.refused
      { message := "Cannot extend 'b' with a dotted key: it is already defined as a table"
        place := ⟨some 4, some 1, some "b.d = 1"⟩ }) := by decide +kernel
  cases h : parse {} (.text impliedText) with
  | ok s =>
    rw [h] at hreport
    cases hreport
  | error e =>
    rw [h] at hreport
    exact congrArg Except.error (Except.error.inj hreport)

/-! ## Failures -/

end Verbatim

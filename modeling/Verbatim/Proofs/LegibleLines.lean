import Verbatim.Proofs.Legible

/-!
# Lines that are read back as they are written

The text of a document is read statement by statement. If every line of a tree spells a statement, and the strict reader
accepts the statements one after the other, it reads the whole text of the tree: terminators end lines, and a line without
one is ended by the line behind it.
-/

namespace Verbatim

open DataReader Render

/-- Statements that are accepted one after the other, none of which leads through a table that is only implied. -/
inductive DataReader.Accepted : Reading → List Statement → Reading → Prop where
  | nil {s : Reading} : Accepted s [] s
  | cons {s s₁ s' : Reading} {m : Statement} {ms : List Statement} (accepts : m.accept? s = some s₁)
      (avoids : m.avoidsImplied s = true) (rest : Accepted s₁ ms s') : Accepted s (m :: ms) s'

theorem DataReader.Accepted.append (h : Accepted s ms s₁) (h' : Accepted s₁ ms' s') : Accepted s (ms ++ ms') s' := by
  induction h with
  | nil => exact h'
  | cons accepts avoids _ ih => exact .cons accepts avoids (ih h')

/-- A line terminator, or none where the text ended. -/
def Terminator (o : Option String) : Prop := ∀ s ∈ o, s = "" ∨ IsNewline s.toList

namespace Render

variable {source : Option (List Char)} {layout : Layout} {limit : Nat}

/-- A line spells a statement, wherever it stands. -/
structure WrittenLine.Says (source : Option (List Char)) (layout : Layout) (limit : Nat) (l : WrittenLine) (m : Statement) :
    Prop where
  /-- The text of the line. -/
  text : ∀ isFirst, ∃ t, l.text source layout isFirst = .ok (String.ofList t) ∧ LineSpelled limit t m
  newline : Terminator l.newline

/-- What is written behind lines: a terminator if the last line has none, and the rest of the text. -/
def behind (layout : Layout) (unterminated : Bool) (tail : List Char) : List Char :=
  (if unterminated && !tail.isEmpty then layout.newline.toList else []) ++ tail

section

variable (hnewline : IsNewline layout.newline.toList)

include hnewline

/-- What is read behind lines changes nothing. -/
private theorem behind_completes (htail : Tail tail) (s : Reading) :
    CompletesText limit s s (behind layout false tail) ∧ After limit s s (behind layout true tail) := by
  refine ⟨htail.completes, ?_⟩
  rw [behind]
  cases tail with
  | nil => exact .done
  | cons x tail => exact .line hnewline htail.completes

/-- Lines are read as their statements, and then what follows them. -/
theorem linesText_completes (htail : Tail tail)
    (hmeaning : List.Forall₂ (WrittenLine.Says source layout limit) ls ms) (haccepted : Accepted s ms s')
    (isFirst unterminated : Bool) :
    ∃ t open?, linesText source layout isFirst unterminated ls = .ok (String.ofList t, open?) ∧
      (unterminated = false → CompletesText limit s s' (t ++ behind layout open? tail)) ∧
      (unterminated = true → After limit s s' (t ++ behind layout open? tail)) := by
  induction hmeaning generalizing s isFirst unterminated with
  | nil =>
    cases haccepted
    refine ⟨[], unterminated, by rw [linesText, String.ofList_nil], ?_, ?_⟩
    · rintro rfl
      exact (behind_completes hnewline htail _).1
    · rintro rfl
      exact (behind_completes hnewline htail _).2
  | @cons l m ls ms hl _ ih =>
    cases haccepted with
    | @cons _ s₁ _ _ _ accepts avoids rest =>
      obtain ⟨t, ht, hspelled⟩ := hl.text isFirst
      have hterminator : l.newline.getD layout.newline = "" ∨ IsNewline (l.newline.getD layout.newline).toList := by
        cases hl' : l.newline with
        | none => exact .inr hnewline
        | some newline => exact hl.newline newline hl'
      obtain ⟨u, open?, hu, hcompletes, hafter⟩ := ih rest false (l.newline.getD layout.newline == "")
      -- behind the line stands its terminator, or the one that the next line brings along
      have hrest : After limit s₁ s' ((l.newline.getD layout.newline).toList ++ (u ++ behind layout open? tail)) := by
        rcases hterminator with hempty | hends
        · rw [hempty]
          exact hafter (by rw [hempty]; rfl)
        · refine .line hends (hcompletes (beq_eq_false_iff_ne.mpr fun hempty => ?_))
          rw [hempty] at hends
          rcases hends with h | h <;> cases h
      have hline := hspelled.completes accepts avoids hrest
      refine ⟨(if unterminated then layout.newline.toList else []) ++ (t ++ ((l.newline.getD layout.newline).toList ++ u)),
        open?, ?_, ?_, ?_⟩
      · rw [linesText, ht]
        dsimp only
        rw [hu]
        cases unterminated <;> simp [String.append_assoc]
      · rintro rfl
        simpa using hline
      · rintro rfl
        simpa using After.line hnewline hline

theorem renderTree_completes
    (htrailing : ∀ t ∈ trailing, t.Shows source Tail)
    (hmeaning : List.Forall₂ (WrittenLine.Says source layout limit) (writtenLines source root) ms)
    (haccepted : Accepted {} ms s) :
    ∃ text, renderTree layout source root trailing = .ok (String.ofList text) ∧ CompletesText limit {} s text := by
  obtain ⟨tail, hresolve, htail⟩ := optionalText_shows "" htrailing Trivia.nil.tail
  obtain ⟨t, open?, ht, hcompletes, -⟩ := linesText_completes hnewline htail hmeaning haccepted true false
  refine ⟨_, ?_, hcompletes rfl⟩
  rw [renderTree, ht]
  dsimp only
  rw [hresolve]
  have hempty : (String.ofList tail != "") = !tail.isEmpty := by
    cases tail with
    | nil => rfl
    | cons x tail =>
      rw [bne_iff_ne.mpr]
      · rfl
      · intro h
        have := congrArg String.toList h
        rw [String.toList_ofList] at this
        cases this
  dsimp only
  rw [hempty, behind]
  split <;> simp [String.append_assoc]

end

/-! ## What lines say -/

/-- An entry line says that its value stands behind its names. -/
theorem says_body (h : LineLegible source Trivia Tail path e)
    (hvalue : e.item.Spells source (valueWithin limit nestingLevels)) :
    ∃ w, Data.Same w e.item.unwrap ∧
      (WrittenLine.body (valueLine source path e)).Says source layout limit (.entry (lineNames (path, e)) w) := by
  obtain ⟨u, w, hu, hspelled, hsame⟩ := hvalue
  obtain ⟨a, b, hkeys, ha, hb⟩ := keyPathText_legible "" " " Trivia.nil blanks_space (entryKeys_ne_nil _ _ _) h.keys
  rw [h.names_eq] at hb
  have hdecor := getD_decor_legible h.decor
  obtain ⟨a₁, ha₁, hbefore⟩ := optionalText_shows " " hdecor.before blanks_space
  obtain ⟨a₂, ha₂, hafter⟩ := optionalText_shows "" hdecor.after Trivia.nil.tail
  refine ⟨w, hsame, fun isFirst => ⟨a ++ (b ++ '=' :: (a₁ ++ u) ++ a₂), ?_, a, b ++ '=' :: (a₁ ++ u), a₂, rfl, ha,
    statementSpelled_entry hb hbefore hspelled, hafter⟩, h.newline⟩
  simp [WrittenLine.text, joinAll, valueLine, BodyLine.valueText, hkeys, ha₁, hu, ha₂, String.append_assoc]

/-- The texts of a header are what they must be. The keys lead to its table. -/
structure HeaderLegible (source : Option (List Char)) (path : List Key) (f : TableForm) : Prop where
  nonempty : path ≠ []
  keys : PathLegible source Blanks (f.headerKeys.getD path)
  /-- A key path as written has the names that lead to the table. -/
  names : ∀ ks ∈ f.headerKeys, ks.map Key.name = path.map Key.name
  decor : f.decor.Legible source Trivia Tail
  newline : Terminator f.newline

theorem says_header (hseparator : Trivia layout.separator.toList) (h : HeaderLegible source t.path t.form) :
    (WrittenLine.header t).Says source layout limit
      (if t.isArray then .array (t.path.map Key.name) else .table (t.path.map Key.name)) := by
  have hnames : (t.form.headerKeys.getD t.path).map Key.name = t.path.map Key.name := by
    cases hks : t.form.headerKeys with
    | none => rfl
    | some ks => exact h.names ks hks
  have hne : t.form.headerKeys.getD t.path ≠ [] := by
    intro hempty
    rw [hempty] at hnames
    exact h.nonempty (List.map_eq_nil_iff.mp hnames.symm)
  obtain ⟨a, b, hkeys, ha, hb⟩ := keyPathText_legible "" "" Blanks.nil Blanks.nil hne h.keys
  rw [hnames] at hb
  refine ⟨fun isFirst => ?_, h.newline⟩
  obtain ⟨lead, hlead, htrivia⟩ := optionalText_shows (if isFirst then "" else layout.separator) h.decor.before
    (by cases isFirst; exacts [hseparator, Trivia.nil])
  obtain ⟨tail, htail, htail'⟩ := optionalText_shows "" h.decor.after Trivia.nil.tail
  refine ⟨lead ++ (List.replicate (if t.isArray then 2 else 1) '[' ++
      (a ++ (b ++ List.replicate (if t.isArray then 2 else 1) ']')) ++ tail), ?_, lead, _, tail, rfl, htrivia,
    statementSpelled_header t.isArray ha hb, htail'⟩
  have hopen : (if t.isArray then "[[" else "[") = String.ofList (List.replicate (if t.isArray then 2 else 1) '[') := by
    cases t.isArray <;> rfl
  have hclose : (if t.isArray then "]]" else "]") = String.ofList (List.replicate (if t.isArray then 2 else 1) ']') := by
    cases t.isArray <;> rfl
  simp only [WrittenLine.text, joinAll, hlead, hkeys, htail, hopen, hclose]
  simp [String.append_assoc]

end Render

end Verbatim

import Verbatim.Proofs.InPlace
import Verbatim.Proofs.TreeShape

/-!
# Documents line by line

A text is the characters of its lines, one line after the other, and what follows the last one. A line takes its characters
with it wherever it is written, so an edit that removes lines or adds one changes the text by just these lines.
-/

namespace Verbatim

open List Render Item

variable {trailing : SpanText} {root : Item} {source : List Char} {limit : Nat}

/-- The lines of a text from a place on, each with its characters, and what follows the last one. -/
inductive LineTexts (limit : Nat) : Numbered → List (Line × List Char) → List Char → Prop where
  | done {s : Numbered} (atEnd : s.cursor.skipTrivia.atEnd = true) : LineTexts limit s [] s.cursor.rest
  | line {s s' : Numbered} {l : Line} {t tail : List Char} {ps : List (Line × List Char)}
      (notAtEnd : s.cursor.skipTrivia.atEnd = false) (line : lineAt limit s = .ok (l, s'))
      (chars : s.cursor.Spells t s'.cursor) (rest : LineTexts limit s' ps tail) : LineTexts limit s ((l, t) :: ps) tail

/-- A line with its characters: however its mark is written, it is written with these. -/
def WrittenAs (source : List Char) (p : Line × List Char) : Prop :=
  ∃ t, p.2 = t ++ p.1.newline.toList ∧ ∀ w : WrittenLine, p.1.Marked (some source) w.mark →
    w.newline = some p.1.newline ∧ ∀ layout isFirst, w.text (some source) layout isFirst = .ok (String.ofList t)

theorem mapped_nothing (l : Line) : l.mapped (exchanged fun _ => none) = l := by
  cases l <;> simp [Line.mapped, exchanged_nothing]

namespace LineTexts

variable {limit : Nat} {s : Numbered} {ps : List (Line × List Char)} {tail source : List Char}

/-- The characters of the lines make the text. -/
theorem text (h : LineTexts limit s ps tail) : s.cursor.rest = ps.flatMap Prod.snd ++ tail := by
  induction h with
  | done => rfl
  | line notAtEnd line chars rest ih => rw [chars.rest, ih, flatMap_cons, append_assoc]

/-- Every line is written with its characters. Only the last line can lack its terminator, and then nothing follows it. -/
theorem written (h : LineTexts limit s ps tail) (hs : s.cursor.On source) :
    (∀ p ∈ ps, WrittenAs source p) ∧ ps.Pairwise (fun p _ => p.1.newline ≠ "") ∧
      (tail ≠ [] → ∀ p ∈ ps, p.1.newline ≠ "") := by
  induction h with
  | done => simp
  | @line s s' l t tail ps notAtEnd line chars rest ih =>
    obtain ⟨e, t₁, ⟨t₀, hbody⟩, hnewline, hlast, ht₁, hwritten⟩ := (lineAt_kept .nothing hs line).written
    obtain ⟨hps, hclosed, htail⟩ := ih (chars.on hs)
    -- without a terminator the text ends here
    have hempty : l.newline = "" → ps = [] ∧ tail = [] := by
      intro hl
      cases rest with
      | done => exact ⟨rfl, hlast hl⟩
      | line notAtEnd => simp [Cursor.skipTrivia, Cursor.atEnd, Cursor.drop, hlast hl] at notAtEnd
    have hself : WrittenAs source (l, t) := by
      refine ⟨t₀, append_cancel_right (chars.rest.symm.trans (hbody.trans hnewline).rest), fun w hw => ?_⟩
      have hsites : l.values.flatMap (sites Exchange.nothing.value) = [] := by simp [Exchange.nothing, sites_nothing]
      rw [hsites] at ht₁
      obtain ⟨hw, htext⟩ := hwritten source trivial w (by rwa [Exchange.nothing, mapped_nothing])
      rw [ht₁.eq_slice, hbody.slice_eq hs] at htext
      exact ⟨hw, htext⟩
    refine ⟨forall_mem_cons.mpr ⟨hself, hps⟩, pairwise_cons.mpr ⟨fun p hp hl => ?_, hclosed⟩, fun hne => ?_⟩
    · rw [(hempty hl).1] at hp
      cases hp
    · exact forall_mem_cons.mpr ⟨fun hl => hne (hempty hl).2, htail hne⟩

end LineTexts

/-- The lines of a text that was read have their characters. -/
theorem LinesRun.lineTexts (h : LinesRun limit s ls trailing) (hs : s.cursor.On source) :
    ∃ ps tail, LineTexts limit s ps tail ∧ ps.map Prod.fst = ls ∧
      optionalText (some source) "" (some trailing) = .ok (String.ofList tail) := by
  induction h with
  | @done s atEnd =>
    obtain ⟨tail, htail⟩ := s.cursor.reaches_skipTrivia
    have hrest := htail.rest
    rw [isEmpty_iff.mp atEnd, append_nil] at hrest
    exact ⟨[], _, .done atEnd, rfl, by rw [optionalText_between, htail.slice_eq hs, hrest]⟩
  | @line s s' l ls trailing notAtEnd line rest ih =>
    obtain ⟨t, chars⟩ := (lineAt_kept .nothing hs line).reaches
    obtain ⟨ps, tail, hps, rfl, htrailing⟩ := ih (chars.on hs)
    exact ⟨(l, t) :: ps, tail, .line notAtEnd line chars hps, rfl, htrailing⟩

theorem linesText_written (h : Forall₂ (fun p w => Line.Marked (some source) p.1 w.mark) ps ws)
    (hps : ∀ p ∈ ps, WrittenAs source p) (hclosed : ps.Pairwise fun p _ => p.1.newline ≠ "") (layout : Layout)
    (isFirst : Bool) :
    linesText (some source) layout isFirst false ws =
      .ok (String.ofList (ps.flatMap Prod.snd), ps.getLast?.any fun p => p.1.newline == "") := by
  induction h generalizing isFirst with
  | nil => rfl
  | @cons p w ps ws hw hws ih =>
    obtain ⟨⟨t, hp, htext⟩, hps⟩ := forall_mem_cons.mp hps
    obtain ⟨hclosed, hrest⟩ := pairwise_cons.mp hclosed
    obtain ⟨hnewline, htext⟩ := htext w hw
    cases hws with
    | nil => simp [linesText, htext, hnewline, hp]
    | cons hw' hws' =>
      -- another line follows, so this one is terminated
      have hne : (p.1.newline == "") = false := by simpa using hclosed _ (mem_cons_self ..)
      rw [linesText, htext]
      simp only [hnewline, Option.getD_some, hne, ih hps hrest false, List.getLast?_cons_cons, flatMap_cons, hp]
      simp [String.ofList_append, String.append_assoc]

/-- Where something follows the lines of a text, the last of them has its terminator. -/
theorem LineTexts.closed {s : Numbered} {tail : List Char} {lines ps : List (Line × List Char)}
    (h : LineTexts limit s lines tail) (hs : s.cursor.On source) (hps : ps.Sublist lines) :
    ((ps.getLast?.any fun p => p.1.newline == "") && String.ofList tail != "") = false := by
  cases htail' : tail with
  | nil => simp
  | cons c u =>
    rw [Bool.and_eq_false_iff]
    refine .inl (Bool.eq_false_iff.mpr fun hany => ?_)
    obtain ⟨p, hp, hnewline⟩ := (Option.any_eq_true _ _).mp hany
    exact (h.written hs).2.2 (by simp [htail']) p (hps.subset (mem_of_getLast? hp)) (by simpa using hnewline)

/-- What is written as lines of a text is written with their characters, and with what follows the last line. -/
theorem renderTree_written {s : Numbered} {tail : List Char} {lines ps : List (Line × List Char)}
    (h : LineTexts limit s lines tail) (hs : s.cursor.On source) (htrailing : optionalText (some source) "" (some trailing) =
      .ok (String.ofList tail)) (hps : ps.Sublist lines) (hws : Forall₂ (fun p w => Line.Marked (some source) p.1 w.mark)
      ps (writtenLines (some source) root)) (layout : Layout) :
    renderTree layout (some source) root (some trailing) = .ok (String.ofList (ps.flatMap Prod.snd ++ tail)) := by
  obtain ⟨hwritten, hclosed, -⟩ := h.written hs
  have hlines := linesText_written hws (fun p hp => hwritten p (hps.subset hp)) (hclosed.sublist hps) layout true
  simp only [renderTree, hlines, htrailing, h.closed hs hps]
  simp [String.ofList_append]

/-- A text and its tree: the lines with their characters, the entries below the root, and the places of the lines. -/
structure LaidOut (limit : Nat) (source : List Char) (root : Item) (trailing : SpanText) (lines : List (Line × List Char))
    (tail : List Char) (es : List (Entry Item)) (xs : List Placed) : Prop where
  texts : LineTexts limit ⟨.start source, 0⟩ lines tail
  rest : optionalText (some source) "" (some trailing) = .ok (String.ofList tail)
  table : root = .table {} rootForm es
  built : Built es
  ascending : (lines.map Prod.fst).Pairwise fun l l' => l.number < l'.number
  positive : ∀ l ∈ lines.map Prod.fst, 0 < l.number
  places : Forall₂ (Line.PlacedAt (some source)) (lines.map Prod.fst) xs
  perm : (placed (some source) false true root).Perm (((0, 0), .opening rootForm false true) :: xs)
  sorted : (((0, 0), .opening rootForm false true) :: xs).Pairwise Before
  nonneg : ∀ x ∈ xs, 0 ≤ x.1.2

theorem readTree_laidOut (h : readTree limit source = .ok (root, trailing)) :
    ∃ lines tail es xs, LaidOut limit source root trailing lines tail es xs := by
  have hstart := Cursor.start_on source
  obtain ⟨ls, hrun, hassemble⟩ := readTree_eq_ok h
  obtain ⟨hproper, hpositive, hascending⟩ := hrun.proper hstart
  obtain ⟨lines, tail, htexts, rfl, htrailing⟩ := hrun.lineTexts hstart
  obtain ⟨es, xs, hroot, hbuilt, hplaces, hperm, hsorted, hnonneg⟩ :=
    assemble_placed (some source) (g := exchanged fun _ => none) Exchange.nothing.valueMap hproper hpositive hascending hassemble
  have hitems : es.map (onItem (exchanged fun _ => none)) = es := by
    refine (map_congr_left fun e _ => ?_).trans (map_id es)
    rw [onItem, exchanged_nothing]
    rfl
  have hlines : (lines.map Prod.fst).map (Line.mapped (exchanged fun _ => none)) = lines.map Prod.fst :=
    (map_congr_left fun l _ => mapped_nothing l).trans (map_id _)
  rw [hitems] at hbuilt
  rw [hlines] at hplaces
  rw [exchanged_nothing] at hperm
  exact ⟨lines, tail, es, xs, htexts, htrailing, hroot, hbuilt, hascending, hpositive, hplaces, hperm, hsorted, hnonneg⟩

/-- The lines are numbered one after the other, behind the root. -/
theorem LaidOut.numbers {lines : List (Line × List Char)} {tail : List Char}
    (h : LaidOut limit source root trailing lines tail es xs) :
    (((0, 0), LineMark.opening rootForm false true) :: xs).Pairwise fun a b => Placed.number a < Placed.number b := by
  have hnumbers : xs.map Placed.number = (lines.map Prod.fst).map fun l => (l.number : Int) := by
    refine forall₂_eq_eq_eq ▸ ?_
    rw [forall₂_map_left_iff, forall₂_map_right_iff]
    exact h.places.flip.imp fun x l hl => hl.2
  have hascending := h.ascending.imp fun hlt => Int.ofNat_lt.mpr hlt
  rw [← pairwise_map (R := fun m n : Int => m < n), ← hnumbers, pairwise_map] at hascending
  refine pairwise_cons.mpr ⟨fun x hx => ?_, hascending⟩
  obtain ⟨l, hl, hnumber⟩ := mem_map.mp (hnumbers ▸ mem_map_of_mem hx)
  rw [← hnumber]
  exact Int.ofNat_lt.mpr (h.positive l hl)

namespace Workspace

open Item

/-- A document that was read, with other entries in one table: it is written as the tree of the text with these entries. -/
theorem parse_edited (ho : options.resolve .reader = .ok o)
    (hw : ({} : Workspace).parse "main" options (.text text) true = .ok w)
    (hread : readTree o.readOptions.maxNesting text.toList = .ok (root, trailing)) (hx : root.follow path = .ok x)
    (htable : x.isTable = true) :
    ∃ i f es y, x = .table i f es ∧ w.findMapping { path } = .ok y ∧ y.frozen = false ∧ y.isMapping = true ∧
      y.entries.map strippedEntry = es.map (rewordedEntry (fun _ => {}) (SpanText.detach text.toList)) ∧
      ∀ ds es', ((y.withEntries ds).labels.filter (· ≠ 0)).Sublist y.labels →
        ds.map strippedEntry = es'.map (rewordedEntry (fun _ => {}) (SpanText.detach text.toList)) →
        ∃ d, (w.commit (y.withEntries ds)).slot "main" = .ok { content := .document d } ∧ ∀ layout,
          d.render layout = renderTree layout (some text.toList) (root.replaceAt path (.table i f es')) (some trailing) := by
  obtain ⟨o', s, ho', hs, -⟩ := single_parse hw
  cases ho.symm.trans ho'
  obtain ⟨w', tree, hw', h⟩ := exchanged_parse ho hs
  cases hw.symm.trans hw'
  obtain ⟨source, mode, root', trailing', hload, -, hread', rfl⟩ := parse_eq_ok hs
  cases hload
  cases hread.symm.trans hread'
  have hfreed : ∀ z : Item, ((z.freeze true).exchanged fun _ => none).freed text.toList = z.freed text.toList := by
    intro z
    rw [exchanged_nothing, freed, freeze_eq_reworded, reworded_reworded]
    rfl
  have hfollow : (root.freeze true).follow path = .ok (x.freeze true) := by
    rw [freeze_eq_reworded, follow_reworded, hx, freeze_eq_reworded]
    rfl
  have htree := h.tree
  simp only [String.toList_ofList] at htree
  rw [hfreed] at htree
  obtain ⟨y, hy, hstripped⟩ := h.follow hfollow fun z _ _ => newValue?_nothing z
  simp only [String.toList_ofList] at hstripped
  rw [hfreed] at hstripped
  cases x with
  | table i f es =>
    have hmapping : y.isMapping = true := by rw [← isMapping_stripped, hstripped, freed, isMapping_reworded, isMapping]
    refine ⟨i, f, es, y, rfl, ?_, (h.ownsText.within (within_of_follow hy) y .self).editable, hmapping, ?_, ?_⟩
    · rw [findMapping, h.single.find hy]
      exact if_pos hmapping
    · rw [← entries_stripped, hstripped, freed, entries_reworded]
      rfl
    intro ds es' hlabels hds
    obtain ⟨d, hd, hsingle⟩ : ∃ d, d = _ ∧ Single (w.commit (y.withEntries ds)) d :=
      ⟨_, rfl, h.single.commit hy (info_withEntries ds y) hlabels⟩
    refine ⟨d, ?_, fun layout => ?_⟩
    · rw [slot, hsingle.documents]
      rfl
    · rw [hd, Document.render, ← Render.renderTree_stripped, stripped_replaceAt, stripped_labelled, stripped_withEntries, hds,
        hstripped, htree, freed, freed, ← withEntries_reworded, ← replaceAt_reworded]
      simp only [Snapshot.toDocument, String.toList_ofList]
      exact Render.renderTree_reworded (Render.resolves_detach _ _) layout _ (some trailing)
  | _ => cases htable

end Workspace

end Verbatim

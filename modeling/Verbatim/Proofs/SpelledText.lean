import Verbatim.Proofs.Acceptance
import Verbatim.Proofs.Literals
import Verbatim.Proofs.NamedLists

/-!
# Lines that the strict reader takes

Recorded lines move: a line may follow other lines than before. Blanks, comments and line terminators are passed over, and a
piece of text that spells a statement does so wherever its line ends. So the lines of a text are read one after the other,
whatever they are, if the statements that they spell are accepted.
-/

namespace Verbatim

open List DataReader Text Cursor

variable {c : Cursor} {r t comment newline : List Char}

/-! ## Blanks, comments and line terminators -/

/-- A line terminator. -/
def IsNewline (newline : List Char) : Prop := newline = ['\n'] ∨ newline = ['\r', '\n']

theorem DataReader.joinReturns_newline (h : IsNewline newline) (t : List Char) :
    Text.joinReturns (newline ++ t) = '\n' :: Text.joinReturns t := by
  rcases h with rfl | rfl
  · exact Text.joinReturns_cons_of_ne t (by decide)
  · rfl

/-- Nothing that is passed over stands at the head of a text. -/
def StopsTrivia (t : List Char) : Prop := ∀ x ∈ t.head?, isBlankOrNewline x = false ∧ x ≠ '#' ∧ x ≠ '\r'

theorem DataReader.skipBlanks_of_stops (h : StopsTrivia c.rest) : skipBlanks c = .ok c := by
  have hskip : c.skipWhile isBlankOrNewline = c := skipWhile_of_head fun x hx => (h x hx).1
  have hsharp : c.startsWith ['#'] = false := by
    rw [Bool.eq_false_iff]
    intro hsharp
    obtain ⟨u, hu⟩ := startsWith_singleton.mp hsharp
    exact absurd rfl (h '#' (by rw [hu]; rfl)).2.1
  rw [skipBlanks, hskip, skipComment_of_ne hsharp]
  simp

/-- A comment without its line terminator. -/
def IsComment (t : List Char) : Prop := ∃ u, t = '#' :: u ∧ ∀ x ∈ u, isIllegalInLine x = false

/-- Blanks, line terminators, and comments with their line terminators. -/
inductive Trivia : List Char → Prop where
  | nil : Trivia []
  | blank {x : Char} {t : List Char} (isBlank : isBlank x = true) (rest : Trivia t) : Trivia (x :: t)
  /-- The end of a line, with or without a comment. -/
  | line {remark newline t : List Char} (comment : remark = [] ∨ IsComment remark) (terminator : IsNewline newline)
      (rest : Trivia t) : Trivia (remark ++ (newline ++ t))

/-- What may stand behind a statement on its line, and at the end of a text: the last comment may lack its terminator. -/
def Tail (t : List Char) : Prop := ∃ a b, t = a ++ b ∧ Trivia a ∧ (b = [] ∨ IsComment b)

def Blanks (t : List Char) : Prop := ∀ x ∈ t, isBlank x = true

theorem Blanks.nil : Blanks [] := by simp [Blanks]

theorem blanks_space : Blanks [' '] := by simp [Blanks, isBlank]

theorem Blanks.trivia (h : Blanks t) : Trivia t := by
  induction t with
  | nil => exact .nil
  | cons x t ih => exact .blank (h x (by simp)) (ih fun y hy => h y (by simp [hy]))

theorem Trivia.append (ha : Trivia a) (hb : Trivia b) : Trivia (a ++ b) := by
  induction ha with
  | nil => exact hb
  | blank isBlank _ ih => exact .blank isBlank ih
  | line comment terminator _ ih =>
    rw [append_assoc, append_assoc]
    exact .line comment terminator ih

theorem Trivia.tail (h : Trivia t) : Tail t := ⟨t, [], by simp, h, .inl rfl⟩

/-- A terminator makes whole lines of what stands behind a statement. -/
theorem Tail.trivia (h : Tail t) (hnewline : IsNewline newline) : Trivia (t ++ newline) := by
  obtain ⟨a, b, rfl, ha, hb⟩ := h
  rw [append_assoc]
  refine ha.append ?_
  simpa using Trivia.line (t := []) hb hnewline .nil

namespace Trivia

end Trivia

private theorem blank_ne (h : isBlank x = true) : x ≠ '\r' ∧ x ≠ '\n' := by
  constructor <;>
  · rintro rfl
    exact absurd h (by decide)

theorem joinReturns_blanks (h : Blanks t) (r : List Char) : joinReturns (t ++ r) = t ++ joinReturns r :=
  joinReturns_append r fun x hx => (blank_ne (h x hx)).1

private theorem legal_ne (h : isIllegalInLine x = false) : x ≠ '\r' ∧ x ≠ '\n' := by
  constructor <;>
  · rintro rfl
    exact absurd h (by decide)

private theorem IsComment.plain (h : IsComment t) : ∀ x ∈ t, x ≠ '\r' ∧ x ≠ '\n' := by
  obtain ⟨u, rfl, hu⟩ := h
  intro x hx
  rcases mem_cons.mp hx with rfl | hx
  · decide
  · exact legal_ne (hu x hx)

/-- The end of a line with returns left out. -/
theorem joinReturns_line (hcomment : comment = [] ∨ IsComment comment) (hnewline : IsNewline newline) (t : List Char) :
    joinReturns (comment ++ (newline ++ t)) = comment ++ '\n' :: joinReturns t := by
  rw [joinReturns_append, joinReturns_newline hnewline]
  intro x hx
  rcases hcomment with rfl | hcomment
  · cases hx
  · exact (hcomment.plain x hx).1

/-- A comment is passed over up to the line feed. -/
theorem IsComment.skip (h : IsComment comment) (hc : c.rest = comment ++ r) (hr : ∀ x ∈ r.head?, x = '\n') :
    ∃ d, DataReader.skipComment c = .ok d ∧ d.rest = r := by
  obtain ⟨u, rfl, hu⟩ := h
  have hnext : c.next.rest = u ++ r := by rw [Cursor.next, Cursor.drop, hc]; rfl
  have htake : (u ++ r).takeWhile (· != '\n') = u := by
    rw [takeWhile_append_of_pos fun x hx => by simpa using (legal_ne (hu x hx)).2]
    cases r with
    | nil => simp
    | cons x r =>
      obtain rfl := hr x rfl
      simp
  rw [DataReader.skipComment, hc, cons_append]
  dsimp only
  rw [hnext, htake, firstBad_eq_ok.mpr hu]
  exact ⟨_, rfl, by rw [Cursor.drop, hnext, drop_left]⟩

/-! ## Between the members of an array -/

/-- Blanks and line terminators come first, then nothing or a comment. -/
private theorem Trivia.first (h : Trivia t) :
    ∃ w, (∀ x ∈ w, isBlankOrNewline x = true) ∧ ((∀ r, joinReturns (t ++ r) = w ++ joinReturns r) ∨
      ∃ comment t', IsComment comment ∧ Trivia t' ∧ t'.length < t.length ∧ t'.head? = some '\n' ∧
        ∀ r, joinReturns (t ++ r) = w ++ (comment ++ joinReturns (t' ++ r))) := by
  induction h with
  | nil => exact ⟨[], by simp, .inl fun r => rfl⟩
  | @blank x t hx _ ih =>
    obtain ⟨w, hw, hrest⟩ := ih
    have hcons (r : List Char) : joinReturns (x :: t ++ r) = x :: joinReturns (t ++ r) :=
      joinReturns_cons_of_ne _ (blank_ne hx).1
    refine ⟨x :: w, by simpa [isBlankOrNewline, hx] using hw, ?_⟩
    rcases hrest with hrest | ⟨comment, t', hcomment, ht', hlt, hhead, hrest⟩
    · exact .inl fun r => by rw [hcons, hrest]; rfl
    · exact .inr ⟨comment, t', hcomment, ht', by simp; omega, hhead, fun r => by rw [hcons, hrest]; rfl⟩
  | @line comment newline t hcomment hnewline ht ih =>
    have hcons (r : List Char) : joinReturns (comment ++ (newline ++ t) ++ r) = comment ++ '\n' :: joinReturns (t ++ r) := by
      rw [append_assoc, append_assoc, joinReturns_line hcomment hnewline]
    rcases hcomment with rfl | hcomment
    · obtain ⟨w, hw, hrest⟩ := ih
      have hlength : t.length < newline.length + t.length := by rcases hnewline with rfl | rfl <;> simp
      refine ⟨'\n' :: w, by simpa [isBlankOrNewline] using hw, ?_⟩
      rcases hrest with hrest | ⟨comment, t', hcomment, ht', hlt, hhead, hrest⟩
      · exact .inl fun r => by rw [hcons, hrest]; rfl
      · exact .inr ⟨comment, t', hcomment, ht', by simp; omega, hhead, fun r => by rw [hcons, hrest]; rfl⟩
    · refine ⟨[], by simp, .inr ⟨comment, '\n' :: t, hcomment, ?_, ?_, rfl, fun r => ?_⟩⟩
      · exact Trivia.line (.inl rfl) (.inl rfl) ht
      · obtain ⟨u, rfl, -⟩ := hcomment
        rcases hnewline with rfl | rfl <;> simp <;> omega
      · rw [hcons, cons_append, joinReturns_cons_of_ne _ (by decide)]
        rfl

private theorem skipWhile_all (hc : c.rest = w ++ r) (hw : ∀ x ∈ w, p x = true) (hr : ∀ x ∈ r.head?, p x = false) :
    (c.skipWhile p).rest = r := by
  rw [skipWhile, hc, dropWhile_append_of_pos hw]
  cases r with
  | nil => rfl
  | cons x r => rw [dropWhile_cons_of_neg (by simp [hr x rfl])]

private theorem skipBlanks_done (hskip : (c.skipWhile isBlankOrNewline).rest = r) (hr : StopsTrivia r) :
    ∃ d, DataReader.skipBlanks c = .ok d ∧ d.rest = r := by
  have hcomment : (c.skipWhile isBlankOrNewline).startsWith ['#'] = false := by
    rw [Bool.eq_false_iff]
    intro h
    obtain ⟨u, hu⟩ := startsWith_singleton.mp h
    exact (hr '#' (by rw [← hskip, hu]; rfl)).2.1 rfl
  have hstops : StopsTrivia (c.skipWhile isBlankOrNewline).rest := by rwa [hskip]
  rw [DataReader.skipBlanks, skipComment_of_ne hcomment]
  dsimp only
  split
  · exact ⟨_, skipBlanks_of_stops hstops, hskip⟩
  · exact ⟨_, rfl, hskip⟩

/-- Blanks, comments and line terminators are passed over. -/
theorem Trivia.skipBlanks (h : Trivia t) (hr : StopsTrivia (joinReturns r)) (hc : c.rest = joinReturns (t ++ r)) :
    ∃ d, DataReader.skipBlanks c = .ok d ∧ d.rest = joinReturns r := by
  -- one round passes over blanks and line feeds, and over a comment if there is one
  generalize hn : t.length = n
  induction n using Nat.strong_induction_on generalizing t c with
  | _ n ih =>
    obtain ⟨w, hw, hrest | ⟨comment, t', hcomment, ht', hlt, hhead, hrest⟩⟩ := h.first
    · exact skipBlanks_done (skipWhile_all (hc.trans (hrest r)) hw fun x hx => (hr x hx).1) hr
    · have hmark : ∀ x ∈ (comment ++ joinReturns (t' ++ r)).head?, isBlankOrNewline x = false := by
        obtain ⟨u, rfl, -⟩ := hcomment
        rintro x ⟨⟩
        decide
      have hskip := skipWhile_all (hc.trans (hrest r)) hw hmark
      have hfeed : ∀ x ∈ (joinReturns (t' ++ r)).head?, x = '\n' := by
        obtain ⟨u, rfl⟩ := head?_eq_some_iff.mp hhead
        rw [cons_append, joinReturns_cons_of_ne _ (by decide)]
        rintro x ⟨⟩
        rfl
      obtain ⟨d, hd, hdrest⟩ := hcomment.skip hskip hfeed
      have hless : d.rest.length < c.rest.length := by
        obtain ⟨u, rfl, -⟩ := hcomment
        rw [hdrest, hc, hrest]
        simp
        omega
      rw [DataReader.skipBlanks, hd]
      dsimp only
      rw [if_pos hless]
      exact ih t'.length (hn ▸ hlt) ht' hdrest rfl

/-- What may follow blanks may follow other trivia as well, if it may be a line feed or a comment. -/
theorem Trivia.forall_head {P : Char → Prop} (h : Trivia t) (hfeed : P '\n') (hcomment : P '#')
    (hr : ∀ x ∈ ((joinReturns r).dropWhile isBlank).head?, P x) :
    ∀ x ∈ ((joinReturns (t ++ r)).dropWhile isBlank).head?, P x := by
  induction h with
  | nil => exact hr
  | @blank x t hx _ ih =>
    rw [cons_append, joinReturns_cons_of_ne _ (blank_ne hx).1]
    intro y hy
    rw [dropWhile_cons_of_pos hx] at hy
    exact ih y hy
  | line comment terminator _ _ =>
    rw [append_assoc, append_assoc, joinReturns_line comment terminator]
    rcases comment with rfl | ⟨u, rfl, -⟩
    · rintro y ⟨⟩
      exact hfeed
    · rintro y ⟨⟩
      exact hcomment

/-- What ends a value ends it behind blanks, comments and line terminators as well. -/
theorem Trivia.stops (h : Trivia t) (hr : Stops (joinReturns r)) : Stops (joinReturns (t ++ r)) :=
  h.forall_head (.inl rfl) (.inr (.inl rfl)) hr

/-! ## Statements on their lines -/

/-- What may follow a statement: behind blanks a line feed, a comment or the end of the text. -/
def EndsLine (r : List Char) : Prop := ∀ x ∈ (r.dropWhile isBlank).head?, x = '\n' ∨ x = '#'

theorem EndsLine.stops (h : EndsLine r) : Stops r := by
  intro x hx
  rcases h x hx with rfl | rfl
  · exact .inl rfl
  · exact .inr (.inl rfl)

/-- The strict reader takes the rest of a text, no container in it nests too deep, and no dotted key leads through a table
that is only implied. -/
structure Completes (limit : Nat) (s s' : Reading) (c : Cursor) : Prop where
  /-- The statements are accepted. -/
  statements : statements s c = .ok s'
  /-- Containers do not nest too deep. -/
  nests : ∀ e ∈ entriesMet s c, e.nestsWithin limit = true
  /-- Dotted keys lead through no tables that are only implied. -/
  avoids : ∀ e ∈ entriesMet s c, e.avoidsImplied = true

/-- The same of a text, wherever it stands, and also behind blanks. -/
def CompletesText (limit : Nat) (s s' : Reading) (t : List Char) : Prop :=
  ∀ (c : Cursor) (b : List Char), Blanks b → c.rest = b ++ joinReturns t → Completes limit s s' c

variable {limit : Nat} {s s' s₁ : Reading}

private theorem skipWhile_blanks (hc : c.rest = b ++ r) (hb : Blanks b) (hr : ∀ x ∈ r.head?, isBlank x = false) :
    (c.skipWhile isBlank).rest = r :=
  skipWhile_all hc hb hr

/-- An empty line is passed over. -/
private theorem completes_newline (hc : (c.skipWhile isBlank).rest = '\n' :: joinReturns r) (h : CompletesText limit s s' r) :
    Completes limit s s' c := by
  have hnext : (c.skipWhile isBlank).next.rest = joinReturns r := by rw [Cursor.next, Cursor.drop, hc]; rfl
  have hless : (c.skipWhile isBlank).next.rest.length < c.rest.length := by
    have hle : (c.skipWhile isBlank).rest.length ≤ c.rest.length := (dropWhile_sublist _).length_le
    rw [hnext]
    rw [hc, length_cons] at hle
    omega
  have hcompletes := h _ [] .nil hnext
  have hstatements : statements s c = statements s (c.skipWhile isBlank).next := by
    conv_lhs => rw [statements]
    simp only [hc, if_pos hless]
  have hmet : entriesMet s c = entriesMet s (c.skipWhile isBlank).next := by
    conv_lhs => rw [entriesMet]
    simp only [hc, if_pos hless]
  exact ⟨hstatements.trans hcompletes.statements, hmet ▸ hcompletes.nests, hmet ▸ hcompletes.avoids⟩

/-- Where no statement stands before the end of the line, the rest of the line is read as behind a statement. -/
private theorem after_eq (hle : d.rest.length ≤ b.rest.length) (h : EndsLine d.rest) :
    afterStatement b d s = statements s d ∧ entriesAfter b d s = entriesMet s d := by
  have hwhile : (d.skipWhile isBlank).rest.length ≤ d.rest.length := (dropWhile_sublist _).length_le
  have hlength {e : Cursor} (he : DataReader.skipComment (d.skipWhile isBlank) = .ok e) : e.rest.length ≤ d.rest.length := by
    rw [rest_of_skipComment he]
    split
    · exact (dropWhile_sublist _).length_le.trans hwhile
    · exact hwhile
  have hnext {e : Cursor} {u : List Char} (he : e.rest = '\n' :: u) : e.next.rest.length + 1 = e.rest.length := by
    simp [Cursor.next, Cursor.drop, he]
  cases hx : (d.skipWhile isBlank).rest with
  | nil =>
    have hno : (d.skipWhile isBlank).startsWith ['#'] = false := by simp [startsWith, hx]
    constructor
    · rw [afterStatement, skipComment_of_ne hno, DataReader.statements]
      simp only [hx]
    · rw [entriesAfter, skipComment_of_ne hno, entriesMet]
      simp only [hx]
  | cons x u =>
    rcases h x (by rw [show d.rest.dropWhile isBlank = (d.skipWhile isBlank).rest from rfl, hx]; rfl) with rfl | rfl
    · have hno : (d.skipWhile isBlank).startsWith ['#'] = false := by simp [startsWith, hx, isPrefixOf]
      have hless : (d.skipWhile isBlank).next.rest.length < d.rest.length := by have := hnext hx; omega
      constructor
      · rw [afterStatement, skipComment_of_ne hno, DataReader.statements]
        simp only [hx, if_pos hless, if_pos (Nat.lt_of_lt_of_le hless hle)]
      · rw [entriesAfter, skipComment_of_ne hno, entriesMet]
        simp only [hx, if_pos hless, if_pos (Nat.lt_of_lt_of_le hless hle)]
    · have hstatement : statement s (d.skipWhile isBlank) = .ok (s, d.skipWhile isBlank) := by
        simp [statement, hx, show isBareKeyChar '#' = false from rfl]
      have hagain : (d.skipWhile isBlank).skipWhile isBlank = d.skipWhile isBlank :=
        skipWhile_of_head (by rw [hx]; rintro y ⟨⟩; rfl)
      constructor
      · rw [statements_line hx (by decide), hstatement]
        dsimp only
        rw [afterStatement, afterStatement, hagain]
        split
        · rfl
        · next e he =>
          split
          · rfl
          · next hfeed =>
            have := hnext hfeed
            have := hlength he
            rw [if_pos (by omega), if_pos (by omega)]
          · rfl
      · rw [entriesMet_line hx (by decide) hstatement, if_pos (.inr rfl), nil_append, entriesAfter, entriesAfter, hagain]
        split
        · rfl
        · next e he =>
          split
          · next hfeed =>
            have := hnext hfeed
            have := hlength he
            rw [if_pos (by omega), if_pos (by omega)]
          · rfl

/-- At the end of the text nothing more is read. -/
theorem completesText_nil : CompletesText limit s s [] := by
  intro c b hb hc
  have hrest : (c.skipWhile isBlank).rest = [] := skipWhile_blanks hc hb (by simp)
  have hmet : entriesMet s c = [] := by
    rw [entriesMet]
    simp only [hrest]
  refine ⟨?_, by simp [hmet], by simp [hmet]⟩
  rw [statements]
  simp only [hrest]

/-- A comment on a line of its own is passed over. -/
private theorem IsComment.completes (h : IsComment comment)
    (hr : r = [] ∧ s' = s ∨ ∃ r', r = '\n' :: joinReturns r' ∧ CompletesText limit s s' r')
    (hc : (c.skipWhile isBlank).rest = comment ++ r) : Completes limit s s' c := by
  obtain ⟨d, hd, hrest⟩ := h.skip hc (by rcases hr with ⟨rfl, -⟩ | ⟨r', rfl, -⟩ <;> simp)
  obtain ⟨u, rfl, hu⟩ := h
  have hstatement : statement s (c.skipWhile isBlank) = .ok (s, c.skipWhile isBlank) := by
    simp [statement, hc, show isBareKeyChar '#' = false from rfl]
  have hagain : (c.skipWhile isBlank).skipWhile isBlank = c.skipWhile isBlank :=
    skipWhile_of_head (by rw [hc]; rintro y ⟨⟩; rfl)
  have hstatements : statements s c = afterStatement c (c.skipWhile isBlank) s := by
    rw [statements_line hc (by decide), hstatement]
  have hmet : entriesMet s c = entriesAfter c (c.skipWhile isBlank) s := by
    rw [entriesMet_line hc (by decide) hstatement, if_pos (.inr rfl), nil_append]
  rw [afterStatement, hagain, hd] at hstatements
  rw [entriesAfter, hagain, hd] at hmet
  dsimp only at hstatements hmet
  rcases hr with ⟨rfl, rfl⟩ | ⟨r', rfl, hr'⟩
  · rw [hrest] at hstatements hmet
    exact ⟨hstatements, by simp [hmet], by simp [hmet]⟩
  · have hnext : d.next.rest = joinReturns r' := by rw [Cursor.next, Cursor.drop, hrest]; rfl
    have hless : d.next.rest.length < c.rest.length := by
      have hle : (c.skipWhile isBlank).rest.length ≤ c.rest.length := (dropWhile_sublist _).length_le
      rw [hc] at hle
      simp only [cons_append, length_cons, length_append] at hle
      rw [hnext]
      omega
    simp only [hrest, if_pos hless] at hstatements hmet
    have hcompletes := hr' _ [] .nil hnext
    exact ⟨hstatements.trans hcompletes.statements, hmet ▸ hcompletes.nests, hmet ▸ hcompletes.avoids⟩

/-- Blanks, comments and line terminators before a statement are passed over. -/
theorem Trivia.completes (h : Trivia t) (hr : CompletesText limit s s' r) : CompletesText limit s s' (t ++ r) := by
  induction h with
  | nil => exact hr
  | @blank x t hx _ ih =>
    intro c b hb hc
    refine ih c (b ++ [x]) ?_ ?_
    · simpa [Blanks, or_imp, forall_and, hx] using hb
    · rw [hc, cons_append, joinReturns_cons_of_ne _ (blank_ne hx).1, append_assoc]
      rfl
  | line comment terminator _ ih =>
    intro c b hb hc
    rw [append_assoc, append_assoc, joinReturns_line comment terminator] at hc
    rcases comment with rfl | comment
    · exact completes_newline (skipWhile_blanks hc hb (by rintro x ⟨⟩; rfl)) ih
    · refine comment.completes (.inr ⟨_, rfl, ih⟩) (skipWhile_blanks hc hb ?_)
      obtain ⟨u, rfl, -⟩ := comment
      rintro x ⟨⟩
      rfl

/-- So is what stands at the end of a text. -/
theorem Tail.completes (h : Tail t) : CompletesText limit s s t := by
  obtain ⟨a, b, rfl, ha, hb⟩ := h
  refine ha.completes ?_
  rcases hb with rfl | hb
  · exact completesText_nil
  · intro c b' hb' hc
    have hplain : joinReturns b = b := joinReturns_eq_self fun x hx => (hb.plain x hx).1
    refine hb.completes (.inl ⟨rfl, rfl⟩) (skipWhile_blanks ?_ hb' ?_)
    · rw [hc, hplain, append_nil]
    · obtain ⟨u, rfl, -⟩ := hb
      rintro x ⟨⟩
      rfl

/-! ## Lines -/

theorem length_joinReturns_append (a b : List Char) : (joinReturns b).length ≤ (joinReturns (a ++ b)).length := by
  induction a with
  | nil => exact le_rfl
  | cons x a ih =>
    refine ih.trans ?_
    rcases joinReturns_cases (x :: (a ++ b)) with ⟨h, -⟩ | ⟨u, h, hjoin⟩ | ⟨y, u, h, -, hjoin⟩
    · cases h
    · have hab : a ++ b = '\n' :: u := (cons.inj h).2
      rw [cons_append, hjoin, hab, joinReturns_cons_of_ne _ (by decide)]
    · obtain ⟨rfl, rfl⟩ := cons.inj h
      rw [cons_append, hjoin, length_cons]
      omega

/-- A piece of text spells a statement, in which containers nest at most so deep. -/
structure StatementSpelled (limit : Nat) (u : List Char) (m : Statement) : Prop where
  /-- It begins with something that is not passed over. -/
  head : ∃ x v, u = x :: v ∧ isBlank x = false ∧ x ≠ '\n' ∧ x ≠ '\r' ∧ x ≠ '#'
  /-- The strict reader finds the statement. -/
  read : ∀ c r, c.rest = joinReturns (u ++ r) → EndsLine (joinReturns r) →
    ∃ d, statementAt c = some (m, d) ∧ d.rest = joinReturns r
  /-- Containers do not nest too deep. -/
  nests : ∀ s c r, c.rest = joinReturns (u ++ r) → EndsLine (joinReturns r) → c.startsWith ['['] = false →
    EntryMet.nestsWithin limit ⟨s, c⟩ = true

/-- A statement is read, and then the text behind it. -/
theorem StatementSpelled.completes (h : StatementSpelled limit u m) (haccept : m.accept? s = some s₁)
    (havoids : m.avoidsImplied s = true) (hends : EndsLine (joinReturns r)) (hr : CompletesText limit s₁ s' r) :
    CompletesText limit s s' (u ++ r) := by
  intro c b hb hc
  obtain ⟨x, v, rfl, hblank, hfeed, hreturn, hcomment⟩ := h.head
  have hx : joinReturns (x :: v ++ r) = x :: joinReturns (v ++ r) := joinReturns_cons_of_ne _ hreturn
  have hskip : (c.skipWhile isBlank).rest = joinReturns (x :: v ++ r) :=
    skipWhile_blanks hc hb (by rw [hx]; rintro y ⟨⟩; exact hblank)
  have hhead := hskip.trans hx
  obtain ⟨d, hstatement, hrest⟩ := h.read _ r hskip hends
  have hd : statement s (c.skipWhile isBlank) = .ok (s₁, d) := (statement_iff hhead hcomment).mpr ⟨m, hstatement, haccept⟩
  have hle : d.rest.length ≤ c.rest.length := by
    have := length_joinReturns_append (x :: v) r
    rw [hrest, hc, length_append]
    omega
  obtain ⟨hafter, hmet⟩ := after_eq (s := s₁) hle (by rwa [hrest])
  have hcompletes := hr d [] .nil hrest
  have hentries := entriesMet_line hhead hfeed hd
  rw [hmet] at hentries
  have hforall {p : EntryMet → Bool}
      (hhere : (c.skipWhile isBlank).startsWith ['['] = false → p ⟨s, c.skipWhile isBlank⟩ = true)
      (hrest : ∀ e ∈ entriesMet s₁ d, p e = true) : ∀ e ∈ entriesMet s c, p e = true := by
    rw [hentries]
    intro e he
    rcases mem_append.mp he with he | he
    · split at he
      · cases he
      · next hno =>
        obtain rfl := mem_singleton.mp he
        refine hhere (Bool.eq_false_iff.mpr fun hstarts => hno (.inl ?_))
        obtain ⟨w, hw⟩ := startsWith_singleton.mp hstarts
        exact (cons.inj (hhead.symm.trans hw)).1
    · exact hrest e he
  refine ⟨?_, hforall (h.nests s _ r hskip hends) hcompletes.nests, hforall (fun _ => ?_) hcompletes.avoids⟩
  · rw [statements_line hhead hfeed, hd]
    dsimp only
    rw [hafter, hcompletes.statements]
  · rw [EntryMet.avoidsImplied, hstatement]
    exact havoids

/-- What follows the text of a line: the end of the document, or a terminator and further lines. -/
inductive After (limit : Nat) : Reading → Reading → List Char → Prop where
  /-- The end of the document. -/
  | done {s : Reading} : After limit s s []
  /-- A terminator and further lines. -/
  | line {s s' : Reading} {newline r : List Char} (terminator : IsNewline newline) (rest : CompletesText limit s s' r) :
      After limit s s' (newline ++ r)

private theorem endsLine_tail (h : Tail t) (hr : EndsLine (joinReturns r)) : EndsLine (joinReturns (t ++ r)) := by
  obtain ⟨a, b, rfl, ha, hb⟩ := h
  rw [append_assoc]
  refine ha.forall_head (.inl rfl) (.inr rfl) ?_
  rcases hb with rfl | ⟨u, rfl, hu⟩
  · exact hr
  · rw [cons_append, joinReturns_cons_of_ne _ (by decide)]
    rintro x ⟨⟩
    exact .inr rfl

/-- What stands behind a statement on its line is passed over with what follows it. -/
private theorem After.tail (h : After limit s s' r) (ht : Tail t) :
    EndsLine (joinReturns (t ++ r)) ∧ CompletesText limit s s' (t ++ r) := by
  cases h with
  | done =>
    refine ⟨endsLine_tail ht (by rintro x ⟨⟩), ?_⟩
    rw [append_nil]
    exact ht.completes
  | line terminator rest =>
    refine ⟨endsLine_tail ht ?_, ?_⟩
    · rw [joinReturns_newline terminator]
      rintro x ⟨⟩
      exact .inl rfl
    · rw [← append_assoc]
      exact (ht.trivia terminator).completes rest

/-- A line without its terminator spells a statement. -/
def LineSpelled (limit : Nat) (t : List Char) (m : Statement) : Prop :=
  ∃ lead u tail, t = lead ++ (u ++ tail) ∧ Trivia lead ∧ StatementSpelled limit u m ∧ Tail tail

/-- A line is read, and then the lines behind it. -/
theorem LineSpelled.completes (h : LineSpelled limit t m) (haccept : m.accept? s = some s₁)
    (havoids : m.avoidsImplied s = true) (hr : After limit s₁ s' r) : CompletesText limit s s' (t ++ r) := by
  obtain ⟨lead, u, tail, rfl, hlead, hu, htail⟩ := h
  obtain ⟨hends, hrest⟩ := hr.tail htail
  rw [append_assoc, append_assoc]
  exact hlead.completes (hu.completes haccept havoids hends hrest)

end Verbatim

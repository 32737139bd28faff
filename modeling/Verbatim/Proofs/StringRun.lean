import Verbatim.Proofs.BasicString
import Mathlib.Data.List.TakeWhile

/-!
# Strings as the strict reader sees them

Literal strings end at their delimiter; strings of several lines take up to two further marks. Whatever follows a string,
the strict reader takes it for the same text, so a string read in its document spells what it spells alone.
-/

namespace Verbatim.DataReader

open List Cursor

variable {t u text w : List Char} {bad : Char → Bool} {c d : Cursor} {literal : Bool} {mark : Char}

/-! ## Literal strings -/

/-- A literal string up to a delimiter: the delimiter comes first behind the text, and the text has no bad character. -/
structure LiteralRun (delimiter : List Char) (bad : Char → Bool) (text : List Char) : Prop where
  /-- Whatever follows, the text ends at the delimiter. -/
  before : ∀ r, before? delimiter (text ++ (delimiter ++ r)) = some text
  /-- Every character is allowed. -/
  legal : ∀ x ∈ text, bad x = false

theorem before?_eq_some (h : before? w t = some a) : (∃ b, t = a ++ (w ++ b)) ∧ ∀ r, before? w (a ++ (w ++ r)) = some a := by
  induction t generalizing a with
  | nil =>
    rw [before?] at h
    split at h
    · next hw =>
      cases h
      have hw : w = [] := by simpa using hw
      subst hw
      exact ⟨⟨[], rfl⟩, fun r => by cases r <;> rfl⟩
    · cases h
  | cons x t ih =>
    rw [before?] at h
    split at h
    · next hw =>
      cases h
      rw [List.isPrefixOf_iff_prefix] at hw
      obtain ⟨b, hb⟩ := hw
      refine ⟨⟨b, hb.symm⟩, fun r => ?_⟩
      rw [nil_append]
      cases hwr : w ++ r with
      | nil =>
        have hw : w = [] := (append_eq_nil_iff.mp hwr).1
        rw [hw]
        rfl
      | cons y u => rw [before?, ← hwr, if_pos (List.isPrefixOf_iff_prefix.mpr (prefix_append w r))]
    · next hw =>
      obtain ⟨a, ha, rfl⟩ := Option.map_eq_some_iff.mp h
      obtain ⟨⟨b, rfl⟩, hread⟩ := ih ha
      refine ⟨⟨b, rfl⟩, fun r => ?_⟩
      -- whether the delimiter stands here is settled before the text behind it begins
      have hsplit : ∀ r, x :: (a ++ (w ++ r)) = (x :: (a ++ w)) ++ r := fun r => by simp
      have hle : w.length ≤ (x :: (a ++ w)).length := by simp; omega
      have hno : ¬ w.isPrefixOf (x :: (a ++ (w ++ r))) = true := by
        rwa [hsplit r, isPrefixOf_append_of_le hle, ← isPrefixOf_append_of_le hle b, ← hsplit b]
      rw [cons_append, before?, if_neg hno, hread]
      rfl

theorem firstBad_eq_ok : firstBad bad text c = .ok () ↔ ∀ x ∈ text, bad x = false := by
  rw [firstBad]
  cases h : text.dropWhile (fun x => !bad x) with
  | nil =>
    rw [dropWhile_eq_nil_iff] at h
    simpa using h
  | cons y t =>
    have hy : y ∈ text := (dropWhile_sublist (p := fun x => !bad x) (l := text)).subset (by simp [h])
    have hbad : bad y = true := by simpa using of_dropWhile_eq_cons h
    constructor
    · intro hok
      cases hok
    · intro hlegal
      rw [hlegal y hy] at hbad
      cases hbad

theorem delimited_run (h : delimited w bad c = .ok (text, d)) : c.rest = text ++ (w ++ d.rest) ∧ LiteralRun w bad text := by
  rw [delimited] at h
  split at h
  · cases h
  · next a ha =>
    split at h
    · cases h
    · next hlegal =>
      cases h
      obtain ⟨⟨b, hb⟩, hread⟩ := before?_eq_some ha
      refine ⟨?_, hread, firstBad_eq_ok.mp hlegal⟩
      rw [Cursor.drop, hb]
      simp

theorem LiteralRun.read (h : LiteralRun w bad text) (r : List Char) (p : Nat) :
    ∃ q, delimited w bad ⟨p, text ++ (w ++ r)⟩ = .ok (text, ⟨q, r⟩) := by
  refine ⟨p + min (text.length + w.length) (text ++ (w ++ r)).length, ?_⟩
  simp only [delimited, h.before, firstBad_eq_ok.mpr h.legal]
  simp [Cursor.drop]

/-! ## Strings of any form -/

/-- A reader takes a text for a value whatever follows, as long as that does not begin with a quotation mark. -/
def Reads {α : Type} (read : Cursor → Step α) (t : List Char) (v : α) : Prop :=
  ∀ r, (∀ x ∈ r.head?, x ≠ '"' ∧ x ≠ '\'') → ∀ p, ∃ q, read ⟨p, t ++ r⟩ = .ok (v, ⟨q, r⟩)

def markOf (literal : Bool) : Char := if literal then '\'' else '"'

theorem exists_markOf (h : x = '"' ∨ x = '\'') : ∃ literal, x = markOf literal := by
  rcases h with rfl | rfl
  · exact ⟨false, rfl⟩
  · exact ⟨true, rfl⟩

/-! ### On one line -/

/-- A string on one line, beginning at its mark. -/
def lineString (literal : Bool) (c : Cursor) : Step (List Char) := if literal then literalString c else basicString c

/-- What a string on one line takes up behind its opening mark, and the text that it spells. -/
def LineRun (literal : Bool) (u text : List Char) : Prop :=
  if literal then u = text ++ ['\''] ∧ LiteralRun ['\''] isIllegalInLine text else BasicRun false u text

theorem lineString_run (h : lineString literal c = .ok (text, d)) :
    ∃ u, c.next.rest = u ++ d.rest ∧ LineRun literal u text := by
  cases literal with
  | false => exact basicBody_run h
  | true =>
    obtain ⟨hc, hrun⟩ := delimited_run h
    exact ⟨_, by rw [hc, List.append_assoc], rfl, hrun⟩

theorem LineRun.read (h : LineRun literal u text) (r : List Char) (p : Nat) :
    ∃ q, lineString literal ⟨p, markOf literal :: (u ++ r)⟩ = .ok (text, ⟨q, r⟩) := by
  cases literal with
  | false => exact BasicRun.read h r _
  | true =>
    obtain ⟨rfl, hrun⟩ := h
    rw [List.append_assoc]
    exact hrun.read r _

theorem LiteralRun.mark_not_mem (h : LiteralRun [mark] bad text) : mark ∉ text := by
  have hbefore := h.before []
  clear h
  induction text with
  | nil => simp
  | cons x text ih =>
    rw [List.cons_append, before?] at hbefore
    split at hbefore
    · cases hbefore
    · next hno =>
      have hx : mark ≠ x := by simpa [List.isPrefixOf] using hno
      obtain ⟨_, htext, heq⟩ := Option.map_eq_some_iff.mp hbefore
      cases heq
      exact List.not_mem_cons_of_ne_of_not_mem hx (ih htext)

/-- A mark directly behind the opening one closes the string. -/
theorem LineRun.closed (h : LineRun literal (markOf literal :: u) text) : u = [] := by
  cases literal with
  | false =>
    cases h with
    | close => rfl
    | char _ mark _ _ => cases (mark rfl).1
  | true =>
    obtain ⟨hu, hrun⟩ := h
    cases text with
    | nil => exact (List.cons.inj hu).2
    | cons x text => exact absurd (List.mem_cons.mpr (.inl (List.cons.inj hu).1)) hrun.mark_not_mem

theorem LineRun.ne_nil (h : LineRun literal u text) : u ≠ [] := by
  cases literal with
  | false => exact BasicRun.ne_nil h
  | true =>
    obtain ⟨rfl, -⟩ := h
    simp

theorem markOf_ne (h : x ≠ '"' ∧ x ≠ '\'') : x ≠ markOf literal := by
  cases literal with
  | false => exact h.1
  | true => exact h.2

/-- A string on one line is no string of several lines, whatever follows. -/
theorem LineRun.startsWith_eq (h : LineRun literal u text) (hr : ∀ x ∈ r.head?, x ≠ markOf literal) (p : Nat) :
    startsWith (replicate 3 (markOf literal)) ⟨p, markOf literal :: (u ++ r)⟩ = false := by
  cases u with
  | nil => exact absurd rfl h.ne_nil
  | cons x u =>
    by_cases hx : x = markOf literal
    · subst hx
      obtain rfl := h.closed
      cases r with
      | nil => simp [startsWith, replicate, isPrefixOf]
      | cons y r => simp [startsWith, replicate, isPrefixOf, (hr y rfl).symm]
    · simp [startsWith, replicate, isPrefixOf, Ne.symm hx]

theorem stringValue_of_mark (h : c.startsWith [markOf literal] = true)
    (hno : c.startsWith (replicate 3 (markOf literal)) = false) : stringValue c = lineString literal c := by
  cases literal with
  | false =>
    have hone : c.startsWith ['"'] = true := h
    have hthree : c.startsWith ['"', '"', '"'] = false := hno
    rw [stringValue, if_pos hone, hthree]
    rfl
  | true =>
    obtain ⟨t, ht⟩ := startsWith_singleton.mp h
    have hone : c.startsWith ['"'] = false := by rw [Cursor.startsWith, ht]; rfl
    have hthree : c.startsWith ['\'', '\'', '\''] = false := hno
    rw [stringValue, hone, hthree]
    rfl

theorem lineString_reads (hc : c.rest = markOf literal :: u) (h : lineString literal c = .ok (text, d)) :
    ∃ t, c.rest = t ++ d.rest ∧ Reads stringValue t text := by
  obtain ⟨t, ht, hrun⟩ := lineString_run h
  have hnext : c.next.rest = u := by rw [Cursor.next, Cursor.drop, hc]; rfl
  rw [hnext] at ht
  refine ⟨markOf literal :: t, by rw [hc, ht]; rfl, fun r hr p => ?_⟩
  obtain ⟨q, hq⟩ := hrun.read r p
  refine ⟨q, ?_⟩
  rw [List.cons_append, ← hq]
  exact stringValue_of_mark (Cursor.startsWith_singleton.mpr ⟨_, rfl⟩)
    (hrun.startsWith_eq (fun x hx => markOf_ne (hr x hx)) p)

/-! ### On several lines -/

/-- The body of a string of several lines, up to behind its closing marks. -/
def blockBody (literal : Bool) (c : Cursor) : Step (List Char) :=
  if literal then delimited ['\'', '\'', '\''] isIllegalInLines c else basicBody true c

/-- What the body of a string of several lines takes up, and the text that it spells. -/
def BlockRun (literal : Bool) (u text : List Char) : Prop :=
  if literal then u = text ++ ['\'', '\'', '\''] ∧ LiteralRun ['\'', '\'', '\''] isIllegalInLines text
  else BasicRun true u text

theorem blockBody_run (h : blockBody literal c = .ok (text, d)) : ∃ u, c.rest = u ++ d.rest ∧ BlockRun literal u text := by
  cases literal with
  | false => exact basicBody_run h
  | true =>
    obtain ⟨hc, hrun⟩ := delimited_run h
    exact ⟨_, by rw [hc, List.append_assoc], rfl, hrun⟩

theorem BlockRun.ne_nil (h : BlockRun literal u text) : u ≠ [] := by
  cases literal with
  | false => exact BasicRun.ne_nil h
  | true =>
    obtain ⟨rfl, -⟩ := h
    simp

theorem BlockRun.read (h : BlockRun literal u text) (r : List Char) (p : Nat) :
    ∃ q, blockBody literal ⟨p, u ++ r⟩ = .ok (text, ⟨q, r⟩) := by
  cases literal with
  | false => exact BasicRun.read h r p
  | true =>
    obtain ⟨rfl, hrun⟩ := h
    rw [List.append_assoc]
    exact hrun.read r p

/-- Further marks belong to the string as long as there are at most two. -/
theorem extraMarks_eq (c : Cursor) :
    ∃ n, n ≤ 2 ∧ (extraMarks mark text c).1 = text ++ List.replicate n mark ∧
      c.rest = List.replicate n mark ++ (extraMarks mark text c).2.rest ∧
      (n < 2 → ∀ x ∈ (extraMarks mark text c).2.rest.head?, x ≠ mark) := by
  have hno : ∀ {c : Cursor}, ¬ c.startsWith [mark] = true → ∀ x ∈ c.rest.head?, x ≠ mark := by
    rintro c hc x hx rfl
    obtain ⟨u, hu⟩ := List.head?_eq_some_iff.mp hx
    exact hc (Cursor.startsWith_singleton.mpr ⟨u, hu⟩)
  rw [extraMarks]
  split
  · next hone =>
    obtain ⟨u, hu⟩ := Cursor.startsWith_singleton.mp hone
    have hnext : c.next.rest = u := by rw [Cursor.next, Cursor.drop, hu]; rfl
    split
    · next htwo =>
      obtain ⟨v, hv⟩ := Cursor.startsWith_singleton.mp htwo
      refine ⟨2, Nat.le_refl 2, rfl, ?_, fun h => absurd h (by decide)⟩
      rw [hnext] at hv
      rw [Cursor.drop, hu, hv]
      rfl
    · next htwo => exact ⟨1, by decide, rfl, by rw [hu, hnext]; rfl, fun _ => hno htwo⟩
  · next hone => exact ⟨0, by decide, by simp, rfl, fun _ => hno hone⟩

theorem extraMarks_replicate (hn : n ≤ 2) (hr : ∀ x ∈ r.head?, x ≠ mark) (p : Nat) :
    ∃ q, extraMarks mark text ⟨p, List.replicate n mark ++ r⟩ = (text ++ List.replicate n mark, ⟨q, r⟩) := by
  have hno : ∀ q, Cursor.startsWith [mark] ⟨q, r⟩ = false := by
    intro q
    cases r with
    | nil => rfl
    | cons x r => simp [Cursor.startsWith, List.isPrefixOf, (hr x rfl).symm]
  have hone : ∀ q t, Cursor.startsWith [mark] ⟨q, mark :: t⟩ = true := fun q t => by simp [Cursor.startsWith]
  rw [extraMarks]
  rcases n with _ | _ | _ | n
  · exact ⟨p, by simp [hno]⟩
  · exact ⟨p + 1, by simp [Cursor.next, Cursor.drop, hone, hno]⟩
  · exact ⟨p + 2, by simp [Cursor.next, Cursor.drop, hone, List.replicate]⟩
  · omega

/-- The cursor at the body of a string of several lines: a line feed directly behind the opening marks is skipped. -/
def blockStart (c : Cursor) : Cursor := if (c.drop 3).startsWith ['\n'] then (c.drop 3).next else c.drop 3

theorem multilineString_eq (literal : Bool) (c : Cursor) :
    multilineString literal c = (match blockBody literal (blockStart c) with
      | .error f => .error f
      | .ok (text, d) => .ok (extraMarks (markOf literal) text d)) := rfl

theorem multilineString_eq_ok (h : multilineString literal c = .ok (text, d)) :
    ∃ e inner, blockBody literal (blockStart c) = .ok (inner, e) ∧ extraMarks (markOf literal) inner e = (text, d) := by
  rw [multilineString_eq] at h
  split at h
  · cases h
  · next inner e hbody => exact ⟨e, inner, hbody, Except.ok.inj h⟩

theorem blockStart_rest (hmarks : marks.length = 3) (hc : c.rest = marks ++ t) :
    ∃ lead, t = lead ++ (blockStart c).rest ∧ (lead = ['\n'] ∨ lead = [] ∧ t.head? ≠ some '\n') := by
  have hdrop : (c.drop 3).rest = t := by rw [Cursor.drop, hc, ← hmarks]; simp
  rw [blockStart]
  split
  · next hline =>
    obtain ⟨u, hu⟩ := Cursor.startsWith_singleton.mp hline
    refine ⟨['\n'], ?_, .inl rfl⟩
    rw [Cursor.next, Cursor.drop, hu, ← hdrop, hu]
    rfl
  · next hline =>
    refine ⟨[], hdrop.symm, .inr ⟨rfl, fun ht => hline ?_⟩⟩
    obtain ⟨u, hu⟩ := List.head?_eq_some_iff.mp ht
    exact Cursor.startsWith_singleton.mpr ⟨u, hdrop.trans hu⟩

theorem rest_blockStart (hmarks : marks.length = 3) (hlead : lead = ['\n'] ∨ lead = [] ∧ t.head? ≠ some '\n') (p : Nat) :
    (blockStart ⟨p, marks ++ (lead ++ t)⟩).rest = t := by
  obtain ⟨lead', hsplit, hlead'⟩ := blockStart_rest (c := ⟨p, marks ++ (lead ++ t)⟩) hmarks rfl
  rcases hlead with rfl | ⟨rfl, ht⟩ <;> rcases hlead' with rfl | ⟨rfl, ht'⟩
  · exact (List.cons_inj_right _).mp hsplit.symm
  · exact absurd rfl ht'
  · rw [List.nil_append] at hsplit
    exact absurd (by rw [hsplit]; rfl) ht
  · exact hsplit.symm

theorem stringValue_of_marks (h : List.replicate 3 (markOf literal) <+: c.rest) :
    stringValue c = multilineString literal c := by
  obtain ⟨t, ht⟩ := h
  cases literal with
  | false =>
    have hc : c.rest = '"' :: '"' :: '"' :: t := ht.symm
    simp [stringValue, startsWith, hc]
  | true =>
    have hc : c.rest = '\'' :: '\'' :: '\'' :: t := ht.symm
    simp [stringValue, startsWith, hc, isPrefixOf]

theorem multilineString_reads (hc : c.rest = replicate 3 (markOf literal) ++ t)
    (h : multilineString literal c = .ok (text, d)) : ∃ u, c.rest = u ++ d.rest ∧ Reads stringValue u text := by
  obtain ⟨e, inner, hbody, hextra⟩ := multilineString_eq_ok h
  obtain ⟨u, hu, hrun⟩ := blockBody_run hbody
  obtain ⟨n, hn, htext, hrest, -⟩ := @extraMarks_eq inner (markOf literal) e
  rw [hextra] at htext hrest
  dsimp only at htext hrest
  obtain ⟨lead, hlead, hskip⟩ := blockStart_rest (by simp) hc
  refine ⟨replicate 3 (markOf literal) ++ (lead ++ (u ++ replicate n (markOf literal))), ?_, ?_⟩
  · rw [hc, hlead, hu, hrest]
    simp
  · intro r hr p
    have hmark : ∀ x ∈ r.head?, x ≠ markOf literal := fun x hx => markOf_ne (hr x hx)
    -- the body begins at the same place, since its first character is part of it
    have hlead' : lead = ['\n'] ∨ lead = [] ∧ (u ++ (replicate n (markOf literal) ++ r)).head? ≠ some '\n' := by
      rcases hskip with hskip | ⟨rfl, hhead⟩
      · exact .inl hskip
      · refine .inr ⟨rfl, ?_⟩
        cases u with
        | nil => exact absurd rfl hrun.ne_nil
        | cons x u =>
          rw [hlead, hu] at hhead
          exact hhead
    generalize hstart : blockStart ⟨p, replicate 3 (markOf literal) ++
      (lead ++ (u ++ replicate n (markOf literal))) ++ r⟩ = b
    have hb : b.rest = u ++ (replicate n (markOf literal) ++ r) := by
      rw [← hstart, append_assoc, append_assoc, append_assoc]
      exact rest_blockStart (by simp) hlead' p
    obtain ⟨q, hq⟩ := hrun.read (replicate n (markOf literal) ++ r) b.pos
    rw [← hb] at hq
    obtain ⟨q', hq'⟩ := @extraMarks_replicate inner _ _ _ hn hmark q
    refine ⟨q', ?_⟩
    rw [@stringValue_of_marks _ literal (by simp), multilineString_eq, hstart, hq, htext]
    exact congrArg Except.ok hq'

/-- The reader takes a string for the same text whatever follows it. -/
theorem stringValue_reads (hc : c.startsWith [markOf literal] = true) (h : stringValue c = .ok (text, d)) :
    ∃ t, c.rest = t ++ d.rest ∧ Reads stringValue t text := by
  by_cases hmarks : c.startsWith (replicate 3 (markOf literal)) = true
  · obtain ⟨t, ht⟩ := isPrefixOf_iff_prefix.mp hmarks
    rw [stringValue_of_marks ⟨t, ht⟩] at h
    exact multilineString_reads ht.symm h
  · obtain ⟨u, hu⟩ := startsWith_singleton.mp hc
    rw [stringValue_of_mark hc (Bool.not_eq_true _ ▸ hmarks)] at h
    exact lineString_reads hu h

end Verbatim.DataReader

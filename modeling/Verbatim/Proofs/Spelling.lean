import Verbatim.Proofs.Runs
import Verbatim.Proofs.Writing

/-!
# What stands between two cursors

Every scanning step moves a cursor forward over some text. That text is the list equation behind the step, and on a source
it is what the recorded pair of positions refers to.
-/

namespace Verbatim

open List Cursor

variable {c d : Cursor} {x : Char}

namespace Cursor

/-- Between two cursors stands a text. -/
structure Spells (c : Cursor) (t : List Char) (d : Cursor) : Prop where
  /-- What is ahead begins with the text. -/
  rest : c.rest = t ++ d.rest
  /-- The positions differ by its length. -/
  pos : d.pos = c.pos + t.length

namespace Spells

variable {source t u : List Char} {c d e : Cursor}

theorem refl (c : Cursor) : c.Spells [] c := ⟨rfl, rfl⟩

section

variable (h : c.Spells t d)

include h

theorem trans (h' : d.Spells u e) : c.Spells (t ++ u) e := by
  refine ⟨?_, ?_⟩
  · rw [h.rest, h'.rest, append_assoc]
  · rw [h'.pos, h.pos, length_append, Nat.add_assoc]

theorem on (hc : c.On source) : d.On source := by
  obtain ⟨hle, hrest⟩ := hc
  have hlen := congrArg List.length (hrest.symm.trans h.rest)
  rw [length_drop, length_append] at hlen
  refine ⟨?_, ?_⟩
  · rw [h.pos]
    have : t.length ≤ source.length - c.pos := by omega
    omega
  · have hdrop := congrArg (List.drop t.length) (hrest.symm.trans h.rest)
    rw [drop_drop, drop_left] at hdrop
    rw [h.pos, hdrop]

/-- The pair of positions refers to the text. -/
theorem slice_eq (hc : c.On source) : slice source ⟨c.pos, d.pos⟩ = t := by
  have hlen : d.pos - c.pos = t.length := by
    rw [h.pos]
    omega
  rw [slice, hlen, ← hc.2, h.rest, take_left]

theorem length_eq : c.rest.length = t.length + d.rest.length := by
  rw [h.rest, length_append]

/-- What stands between two cursors is what is ahead of the first one, as far as the second one. -/
theorem textBetween_eq : textBetween c d = t := by
  have hlen : d.pos - c.pos = t.length := by
    rw [h.pos]
    omega
  rw [textBetween, hlen, h.rest, take_left]

end

end Spells

theorem spells_drop (c : Cursor) (n : Nat) : c.Spells (c.rest.take n) (c.drop n) :=
  ⟨(take_append_drop n c.rest).symm, by simp only [drop, length_take]⟩

theorem spells_skipWhile (c : Cursor) (p : Char → Bool) : c.Spells (c.rest.takeWhile p) (c.skipWhile p) :=
  ⟨c.rest_skipWhile p, rfl⟩

theorem spells_of_startsWith (h : c.startsWith text = true) : c.Spells text (c.drop text.length) := by
  obtain ⟨tail, htail⟩ := isPrefixOf_iff_prefix.mp h
  have hspells := c.spells_drop text.length
  rw [← htail, take_left] at hspells
  exact hspells

theorem spells_next (h : c.startsWith [x] = true) : c.Spells [x] c.next :=
  spells_of_startsWith h

theorem startsWith_singleton : c.startsWith [x] = true ↔ ∃ u, c.rest = x :: u := by
  rw [startsWith, isPrefixOf_iff_prefix]
  exact exists_congr fun u => eq_comm

theorem startsWith_of_peek (h : c.peek? = some x) : c.startsWith [x] = true := by
  obtain ⟨pos, rest⟩ := c
  cases rest with
  | nil => cases h
  | cons y rest =>
    cases h
    simp [startsWith]

/-- Some text stands between two cursors. -/
def Reaches (c d : Cursor) : Prop := ∃ t, c.Spells t d

namespace Reaches

variable {source : List Char} {c d e : Cursor}

theorem refl (c : Cursor) : c.Reaches c := ⟨[], Spells.refl c⟩

theorem trans (h : c.Reaches d) (h' : d.Reaches e) : c.Reaches e := by
  obtain ⟨t, ht⟩ := h
  obtain ⟨u, hu⟩ := h'
  exact ⟨t ++ u, ht.trans hu⟩

theorem on (h : c.Reaches d) (hc : c.On source) : d.On source := by
  obtain ⟨t, ht⟩ := h
  exact ht.on hc

theorem le (h : c.Reaches d) : c.pos ≤ d.pos := by
  obtain ⟨t, ht⟩ := h
  rw [ht.pos]
  exact Nat.le_add_right ..

end Reaches

theorem reaches_drop (c : Cursor) (n : Nat) : c.Reaches (c.drop n) := ⟨_, c.spells_drop n⟩

theorem reaches_skipWhile (c : Cursor) (p : Char → Bool) : c.Reaches (c.skipWhile p) := ⟨_, c.spells_skipWhile p⟩

theorem reaches_skipBlanks (c : Cursor) : c.Reaches c.skipBlanks := c.reaches_skipWhile _

theorem reaches_skipTrivia (c : Cursor) : c.Reaches c.skipTrivia := c.reaches_drop _

theorem reaches_skipComment (c : Cursor) : c.Reaches c.skipComment := by
  rw [skipComment]
  split
  · exact c.reaches_drop _
  · exact Reaches.refl c

end Cursor

/-! ## References -/

namespace Render

/-- The reference to what stands between two positions is written as what a text has there. -/
@[simp] theorem optionalText_between (text : List Char) (default : String) (a b : Nat) :
    optionalText (some text) default (some (.between a b)) = .ok (String.ofList (slice text ⟨a, b⟩)) := by
  by_cases heq : a = b
  · simp [SpanText.between, heq, optionalText, SpanText.empty, SpanText.resolve, slice]
  · simp [SpanText.between, heq, optionalText, SpanText.resolve]

theorem optionalText_empty (source : Option (List Char)) (default : String) :
    optionalText source default (some .empty) = .ok "" := rfl

theorem keyPathText_cons (source : Option (List Char)) (before after : String) (k : Key) (h : ks ≠ []) :
    keyPathText source before after (k :: ks) =
      joinAll [keyText source before "" k, .ok ".", keyPathText source "" after ks] := by
  cases ks with
  | nil => exact absurd rfl h
  | cons k' ks => rfl

end Render

/-! ## Keys -/

theorem reaches_stringEnd (h : stringEnd mark c = .ok d) : c.Reaches d := by
  simp only [stringEnd] at h
  split at h
  · split at h
    · cases h
    · split at h
      · cases h
      · cases h
        exact ((c.reaches_drop 3).trans (reaches_drop _ _)).trans (reaches_drop _ _)
  · split at h
    · cases h
    · cases h
      exact (c.reaches_drop 1).trans (reaches_drop _ _)

theorem reaches_simpleKey (h : simpleKey c = .ok (name, d)) : c.Reaches d := by
  simp only [simpleKey] at h
  split at h
  · cases h
  · split at h
    · split at h
      · cases h
      · split at h
        · cases h
        · next e he =>
          split at h
          · cases h
          · cases h
            exact reaches_stringEnd he
    · split at h
      · cases h
        exact c.reaches_skipWhile _
      · cases h

theorem spells_expectChar (h : expectChar x what c = .ok d) : c.Spells [x] d := by
  rw [expectChar] at h
  split at h
  · next hpeek =>
    cases h
    exact spells_next (startsWith_of_peek hpeek)
  · cases h

theorem KeyRun.reaches (h : KeyRun before c path leaf d) : c.Reaches d := by
  induction h with
  | @last _ c d name hkey _ => exact (c.reaches_skipBlanks.trans (reaches_simpleKey hkey)).trans d.reaches_skipBlanks
  | @more _ c d e name path leaf hkey hpoint _ ih =>
    have hsegment := (c.reaches_skipBlanks.trans (reaches_simpleKey hkey)).trans d.reaches_skipBlanks
    exact (hsegment.trans ⟨_, spells_next hpoint⟩).trans ih

/-! ## Headers -/

/-- The brackets before the key path of a header: two for an element of an array of tables. -/
def openingBrackets (isArray : Bool) : List Char := if isArray then ['[', '['] else ['[']

def closingBrackets (isArray : Bool) : List Char := if isArray then [']', ']'] else [']']

theorem ofList_openingBrackets : ∀ isArray, String.ofList (openingBrackets isArray) = if isArray then "[[" else "[" := by decide

theorem ofList_closingBrackets : ∀ isArray, String.ofList (closingBrackets isArray) = if isArray then "]]" else "]" := by decide

/-- The parts of a header line, with its brackets. -/
theorem headerLine_spells (hbracket : s.cursor.startsWith ['['] = true)
    (h : headerLine before s = .ok (l, s')) :
    ∃ path leaf c₁ c₂ c₄ newline c₆ isArray, s.cursor.Spells (openingBrackets isArray) c₁ ∧ KeyRun c₁.pos c₁ path leaf c₂ ∧
      c₂.Spells (closingBrackets isArray) c₄ ∧ lineEnd "the table header" c₄.skipBlanks.skipComment = .ok (newline, c₆) ∧
      l = .header ⟨path, leaf, isArray,
        ⟨some (.between before s.cursor.pos), some (.between c₄.pos c₄.skipBlanks.skipComment.pos)⟩, newline, s.number + 1,
        ⟨s.cursor.pos, c₄.pos⟩⟩ ∧
      s' = ⟨c₆, s.number + 1⟩ := by
  obtain ⟨path, leaf, c₁, c₂, c₃, c₄, newline, c₆, what, what', isArray, harray, rfl, hkeys, hclose, hclose', hend, hl, hs'⟩ :=
    headerLine_eq_ok h
  have h₃ := spells_expectChar hclose
  refine ⟨path, leaf, _, c₂, c₄, newline, c₆, isArray, ?_, hkeys, ?_, hend, hl, hs'⟩
  · cases isArray with
    | true => exact spells_of_startsWith harray.symm
    | false => exact spells_of_startsWith hbracket
  · cases isArray with
    | true => exact h₃.trans (spells_expectChar hclose')
    | false =>
      cases hclose'
      exact h₃

end Verbatim

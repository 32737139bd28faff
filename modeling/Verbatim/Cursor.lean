import Verbatim.Span

/-!
# Cursors

Reading moves a cursor over a text: the number of characters behind it and the characters still ahead. Every step is one
of the operators of lists, so what was consumed is a list equation.
-/

namespace Verbatim

/-- A place in a text. -/
structure Cursor where
  /-- The number of characters behind the cursor. -/
  pos : Nat
  /-- The characters ahead. -/
  rest : List Char
  deriving Repr, DecidableEq, Inhabited

namespace Cursor

def start (source : List Char) : Cursor := ⟨0, source⟩

def peek? (c : Cursor) : Option Char := c.rest.head?

/-- The cursor behind at most `n` further characters. -/
def drop (n : Nat) (c : Cursor) : Cursor := ⟨c.pos + min n c.rest.length, c.rest.drop n⟩

def next (c : Cursor) : Cursor := c.drop 1

/-- The cursor behind the longest run of characters of a class. -/
def skipWhile (p : Char → Bool) (c : Cursor) : Cursor :=
  ⟨c.pos + (c.rest.takeWhile p).length, c.rest.dropWhile p⟩

def startsWith (text : List Char) (c : Cursor) : Bool := text.isPrefixOf c.rest

def atEnd (c : Cursor) : Bool := c.rest.isEmpty

/-- A cursor on a text: what is ahead is the text without what is behind. -/
def On (source : List Char) (c : Cursor) : Prop := c.pos ≤ source.length ∧ c.rest = source.drop c.pos

theorem start_on (source : List Char) : (start source).On source := ⟨Nat.zero_le _, rfl⟩

theorem On.drop {source : List Char} {c : Cursor} (h : c.On source) (n : Nat) : (c.drop n).On source := by
  obtain ⟨hle, hrest⟩ := h
  have hlen : c.rest.length = source.length - c.pos := by rw [hrest, List.length_drop]
  refine ⟨?_, ?_⟩
  · simp only [Cursor.drop]
    omega
  · simp only [Cursor.drop, hrest, List.drop_drop]
    rcases Nat.le_total n (source.length - c.pos) with hn | hn
    · rw [List.length_drop, Nat.min_eq_left hn]
    · rw [List.length_drop, Nat.min_eq_right hn, List.drop_of_length_le (by omega),
        List.drop_of_length_le (by omega)]

theorem rest_skipWhile (p : Char → Bool) (c : Cursor) :
    c.rest = c.rest.takeWhile p ++ (c.skipWhile p).rest := (List.takeWhile_append_dropWhile).symm

end Cursor

end Verbatim

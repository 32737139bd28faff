import Verbatim.Span

/-!
# Keys

A key path is written as segments between dots. One segment is kept with its name, its spelling and the blanks
around it.
-/

namespace Verbatim

/-- One segment of a key path. -/
structure Key where
  name : String
  /-- The spelling in the source; a key made by an edit has none. -/
  repr : Option SpanText := none
  /-- The blanks around the segment. -/
  decor : Decor := {}
  deriving Repr, DecidableEq, Inhabited

namespace Key

/-- A key with the same spelling and no blanks around it. -/
def bare (k : Key) : Key := { k with decor := {} }

/-- The key with its references resolved. -/
def detach (source : List Char) (k : Key) : Key :=
  { k with repr := k.repr.map (SpanText.detach source), decor := k.decor.detach source }

/-- The span texts of a key: its spelling, then what stands around it. -/
def texts (k : Key) : List SpanText := k.repr.toList ++ k.decor.texts

end Key

def isBareKeyChar (c : Char) : Bool :=
  ('A' ≤ c && c ≤ 'Z') || ('a' ≤ c && c ≤ 'z') || ('0' ≤ c && c ≤ '9') || c == '_' || c == '-'

/-- Whether a name can be written as a bare key. -/
def isBareName (s : String) : Bool := !s.toList.isEmpty && s.toList.all isBareKeyChar

end Verbatim

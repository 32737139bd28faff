import Verbatim.Text.Quoted

/-!
# Span text

The text of a tree is kept as references into the text it was read from. A reference is a pair of character positions;
once it is resolved it becomes text of its own.
-/

namespace Verbatim

/-- A pair of character positions in a source text. -/
structure Span where
  start : Nat
  stop : Nat
  deriving Repr, DecidableEq, Inhabited

def Span.shown (s : Span) : String := "(" ++ toString s.start ++ ", " ++ toString s.stop ++ ")"

/-- The characters of a source between two positions. -/
def slice (source : List Char) (s : Span) : List Char := (source.drop s.start).take (s.stop - s.start)

/-- Text that is either owned or a reference into a source. -/
inductive SpanText where
  | owned (text : String)
  | ref (span : Span)
  deriving Repr, DecidableEq, Inhabited

inductive SpanError where
  | invalidBounds (start stop : Int)
  | unresolved (span : Span)
  deriving Repr, DecidableEq

def SpanError.message : SpanError → String
  | .invalidBounds a b => "Invalid span: (" ++ toString a ++ ", " ++ toString b ++ ")"
  | .unresolved s => "RawString span " ++ s.shown ++ " cannot be resolved without a source"

namespace SpanText

def empty : SpanText := .owned ""

/-- The reference to what stands between two positions; nothing stands between equal ones. -/
def between (start stop : Nat) : SpanText :=
  if start = stop then empty else .ref ⟨start, stop⟩

/-- A reference with checked bounds. -/
def ofBounds (start stop : Int) : Except SpanError SpanText :=
  if start < 0 ∨ stop < start then .error (.invalidBounds start stop)
  else .ok (.ref ⟨start.toNat, stop.toNat⟩)

/-- A reference with checked bounds, equal bounds making an empty text whatever they are. -/
def ofRange (start stop : Int) : Except SpanError SpanText :=
  if start = stop then .ok empty else ofBounds start stop

def isRef : SpanText → Bool
  | .owned _ => false
  | .ref _ => true

def span? : SpanText → Option Span
  | .owned _ => none
  | .ref s => some s

def owned? : SpanText → Option String
  | .owned t => some t
  | .ref _ => none

/-- The text, a reference being looked up in the source. -/
def resolve (source : Option (List Char)) : SpanText → Except SpanError String
  | .owned t => .ok t
  | .ref s => match source with
    | some src => .ok (String.ofList (slice src s))
    | none => .error (.unresolved s)

/-- The text with a reference replaced by what it refers to. -/
def detach (source : List Char) : SpanText → SpanText
  | .owned t => .owned t
  | .ref s => .owned (String.ofList (slice source s))

def shown : SpanText → String
  | .owned t => "RawString(" ++ Text.quoted t ++ ")"
  | .ref s => "RawString(span=" ++ s.shown ++ ")"

@[simp] theorem isRef_detach (source : List Char) (t : SpanText) : (t.detach source).isRef = false := by
  cases t <;> rfl

@[simp] theorem resolve_detach (source : List Char) (other : Option (List Char)) (t : SpanText) :
    (t.detach source).resolve other = t.resolve (some source) := by
  cases t <;> rfl

end SpanText

/-- The text before and after an element. A side that is not set is written with a default. -/
structure Decor where
  before : Option SpanText := none
  after : Option SpanText := none
  deriving Repr, DecidableEq, Inhabited

namespace Decor

def texts (d : Decor) : List SpanText := d.before.toList ++ d.after.toList

def isUnset (d : Decor) : Bool := d.before.isNone && d.after.isNone

/-- Both sides with their references resolved. -/
def detach (source : List Char) (d : Decor) : Decor :=
  ⟨d.before.map (SpanText.detach source), d.after.map (SpanText.detach source)⟩

end Decor

end Verbatim

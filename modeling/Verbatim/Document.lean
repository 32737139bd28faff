import Verbatim.Item.Walk
import Verbatim.Render

/-!
# Snapshots and documents

Reading a text gives a *snapshot*: a read-only tree whose text consists of references into the source. Handing a snapshot
over gives a *document*; detaching makes the document own all its text, and its items can be edited from then on.
-/

namespace Verbatim

/-- Whose text a snapshot refers to. -/
inductive SourceMode where
  /-- The text that the caller handed over. -/
  | borrowed
  /-- A text that reading itself produced from bytes or from a stream. -/
  | owned
  deriving Repr, DecidableEq, Inhabited

def SourceMode.name : SourceMode → String
  | .borrowed => "borrowed"
  | .owned => "owned"

/-- A read-only tree with the text it refers to. -/
structure Snapshot where
  root : Item
  trailing : SpanText
  /-- The text that the references point into. -/
  source : String
  /-- Whose text that is. -/
  mode : SourceMode
  deriving Inhabited

/-- An editable tree. -/
structure Document where
  root : Item := Item.emptyRoot
  trailing : SpanText := .empty
  /-- The text that the document was read from, if it was. -/
  source : Option String := none
  /-- Whether the document owns its text. -/
  detached : Bool := false
  deriving Inhabited

inductive DetachError where
  | noSource
  | alreadyDetached
  deriving Repr, DecidableEq

def DetachError.message : DetachError → String
  | .noSource => "despan requires a document produced by the parser"
  | .alreadyDetached => "despan must run only once per document"

namespace Document

def detach (d : Document) : Except DetachError Document :=
  match d.source with
  | none => .error .noSource
  | some source =>
    if d.detached then .error .alreadyDetached
    else
      .ok { d with
        root := d.root.detach source.toList
        trailing := d.trailing.detach source.toList
        detached := true }

def render (layout : Layout) (d : Document) : Render.Rendered :=
  Render.renderTree layout (d.source.map String.toList) d.root (some d.trailing)

def shown (d : Document) : String := "Document(keys=" ++ Text.quotedList d.root.keys ++ ")"

def spans (d : Document) : List Span := d.root.spans (some d.trailing)

end Document

namespace Snapshot

def empty : Snapshot := ⟨Item.emptyRoot.freeze true, .empty, "", .borrowed⟩

/-- The tree of the snapshot as a document, with its references left as they are. -/
def handOver (s : Snapshot) : Document where
  root := s.root
  trailing := s.trailing
  source := some s.source

/-- The snapshot as a document that owns its text. -/
def toDocument (s : Snapshot) : Document where
  root := s.root.detach s.source.toList
  trailing := s.trailing.detach s.source.toList
  source := some s.source
  detached := true

def render (layout : Layout) (s : Snapshot) : Render.Rendered :=
  Render.renderTree layout (some s.source.toList) s.root (some s.trailing)

def shown (s : Snapshot) : String :=
  "ImDocument(keys=" ++ Text.quotedList s.root.keys ++ ", source_mode=" ++ Text.quoted s.mode.name ++ ")"

def spans (s : Snapshot) : List Span := s.root.spans (some s.trailing)

theorem detach_handOver (s : Snapshot) : s.handOver.detach = .ok s.toDocument := rfl

end Snapshot

end Verbatim

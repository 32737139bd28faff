import Verbatim.Item.Basic

/-!
# Walking a tree

A walk visits every span text of a tree once, in a fixed order. Collecting the references and detaching them from their
source are the two things done on the way.
-/

namespace Verbatim

inductive Visit where
  | entry (name : String)
  | key (name : String)
  | text (t : SpanText)
  | leave (typeName : String)
  deriving Repr, DecidableEq

def Key.visits (k : Key) : List Visit := .key k.name :: k.texts.map .text

def keyVisits (ks : List Key) : List Visit := ks.flatMap Key.visits

def Decor.visits (d : Decor) : List Visit := d.texts.map .text

def Visit.span? : Visit → Option Span
  | .text t => t.span?
  | _ => none

namespace Item

mutual

/-- The visits of an item, in order. -/
def visits : Item → List Visit
  | .scalar _ s => s.repr.toList.map .text ++ s.decor.visits ++ [.leave s.kind.typeName]
  | .array _ f vs => visitsEach vs ++ [.text f.trailing] ++ f.decor.visits ++ [.leave "array"]
  | .inlineTable _ f es => [.text f.preamble] ++ f.decor.visits ++ visitsEntries es ++ [.leave "inline table"]
  | .table _ f es => f.decor.visits ++ keyVisits (f.headerKeys.getD []) ++ visitsEntries es ++ [.leave "table"]
  | .arrayOfTables _ ts => visitsEach ts ++ [.leave "array of tables"]

def visitsEach : List Item → List Visit
  | [] => []
  | x :: xs => visits x ++ visitsEach xs

/-- The visits of each entry: the keys as written, then the item. -/
def visitsEntries : List (Entry Item) → List Visit
  | [] => []
  | ⟨k, x, p, _, _⟩ :: es =>
    .entry k.name :: (keyVisits (p.getD []) ++ k.visits ++ visits x ++ visitsEntries es)

end

def visitsWith (x : Item) (trailing : Option SpanText) : List Visit :=
  x.visits ++ trailing.toList.map .text

/-- The references in an item and in a text that follows it, in order. -/
def spans (x : Item) (trailing : Option SpanText) : List Span :=
  (x.visitsWith trailing).filterMap Visit.span?

/-! ## Detaching -/

/-- What an item remembers once it is detached. -/
def detachedInfo (i : Info) : Info := { i with span := none, frozen := false }

mutual

/-- The tree with every reference replaced by the text behind it. Its items lose their positions and can be edited. -/
def detach (source : List Char) : Item → Item
  | .scalar i s =>
    .scalar (detachedInfo i)
      { s with repr := s.repr.map (SpanText.detach source), decor := s.decor.detach source }
  | .array i f vs =>
    .array (detachedInfo i) { f with decor := f.decor.detach source, trailing := f.trailing.detach source }
      (detachEach source vs)
  | .inlineTable i f es =>
    .inlineTable (detachedInfo i) { f with decor := f.decor.detach source, preamble := f.preamble.detach source }
      (detachEntries source es)
  | .table i f es =>
    .table (detachedInfo i)
      { f with decor := f.decor.detach source, headerKeys := f.headerKeys.map fun ks => ks.map (Key.detach source) }
      (detachEntries source es)
  | .arrayOfTables i ts => .arrayOfTables (detachedInfo i) (detachEach source ts)

def detachEach (source : List Char) : List Item → List Item
  | [] => []
  | x :: xs => detach source x :: detachEach source xs

def detachEntries (source : List Char) : List (Entry Item) → List (Entry Item)
  | [] => []
  | ⟨k, x, p, n, l⟩ :: es =>
    ⟨k.detach source, detach source x, p.map fun ks => ks.map (Key.detach source), n, l⟩ :: detachEntries source es

end

def textRefs (ts : List SpanText) : Nat := ts.countP SpanText.isRef

def keyRefs (ks : List Key) : Nat := textRefs (ks.flatMap Key.texts)

mutual

/-- The number of references in an item. -/
def refCount : Item → Nat
  | .scalar _ s => textRefs s.repr.toList + textRefs s.decor.texts
  | .array _ f vs => refCountEach vs + textRefs (f.trailing :: f.decor.texts)
  | .inlineTable _ f es => textRefs (f.preamble :: f.decor.texts) + refCountEntries es
  | .table _ f es => textRefs f.decor.texts + keyRefs (f.headerKeys.getD []) + refCountEntries es
  | .arrayOfTables _ ts => refCountEach ts

def refCountEach : List Item → Nat
  | [] => 0
  | x :: xs => refCount x + refCountEach xs

def refCountEntries : List (Entry Item) → Nat
  | [] => 0
  | ⟨k, x, p, _, _⟩ :: es => keyRefs (p.getD []) + keyRefs [k] + refCount x + refCountEntries es

end

end Item

end Verbatim

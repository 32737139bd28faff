import Verbatim.Item.Basic

/-!
# Attributes

What an item or an entry has besides its contents can be set directly, without regard to whether the item is read-only.
-/

namespace Verbatim

inductive Attribute where
  | position (n : Option Int)
  | newline (s : Option String)
  /-- The leading segments of a dotted key, by name. -/
  | dottedPath (names : Option (List String))
  /-- The path of a header, by name. -/
  | headerKeys (names : Option (List String))
  | implicit (b : Bool)
  | dotted (b : Bool)
  | trailing (t : SpanText)
  | trailingComma (b : Bool)
  | preamble (t : SpanText)
  | value (d : Plain)
  | repr (t : Option SpanText)

namespace Data

mutual

/-- Data with the data of its items in their place. -/
def unwrapped : Input → Plain
  | .none => .none
  | .boolean b => .boolean b
  | .integer n => .integer n
  | .float x => .float x
  | .string s => .string s
  | .date d => .date d
  | .time t => .time t
  | .dateTime x => .dateTime x
  | .bytes bs => .bytes bs
  | .set xs => .set (unwrappedEach xs)
  | .list xs => .list (unwrappedEach xs)
  | .tuple xs => .tuple (unwrappedEach xs)
  | .table es => .table (unwrappedFields es)
  | .mapping es => .mapping (unwrappedPairs es)
  | .item x => x.unwrap

def unwrappedEach : List Input → List Plain
  | [] => []
  | d :: ds => unwrapped d :: unwrappedEach ds

def unwrappedFields : List (String × Input) → List (String × Plain)
  | [] => []
  | (k, d) :: es => (k, unwrapped d) :: unwrappedFields es

def unwrappedPairs : List (Input × Input) → List (Plain × Plain)
  | [] => []
  | (k, d) :: es => (unwrapped k, unwrapped d) :: unwrappedPairs es

end

end Data

def newKeys (names : List String) : List Key := names.map fun name => { name }

/-- The entry with an attribute, if entries have it. -/
def Entry.withAttribute? (e : Entry Item) : Attribute → Option (Entry Item)
  | .position n => some { e with position := n }
  | .newline s => some { e with newline := s }
  | .dottedPath names => some { e with dottedPath := names.map newKeys }
  | _ => none

/-- The item with an attribute, if items of its kind have it. -/
def Item.withAttribute? (x : Item) (a : Attribute) : Option Item :=
  match x, a with
  | .table i f es, .implicit b => some (.table i { f with implicit := b } es)
  | .table i f es, .dotted b => some (.table i { f with dotted := b } es)
  | .table i f es, .position n => some (.table i { f with position := n } es)
  | .table i f es, .newline s => some (.table i { f with newline := s } es)
  | .table i f es, .headerKeys names => some (.table i { f with headerKeys := names.map newKeys } es)
  | .array i f vs, .trailing t => some (.array i { f with trailing := t } vs)
  | .array i f vs, .trailingComma b => some (.array i { f with trailingComma := b } vs)
  | .inlineTable i f es, .preamble t => some (.inlineTable i { f with preamble := t } es)
  | .inlineTable i f es, .dotted b => some (.inlineTable i { f with dotted := b } es)
  | .scalar i s, .value d => some (.scalar i { s with value := d })
  | .scalar i s, .repr t => some (.scalar i { s with repr := t })
  | _, _ => none

/-- A change of the text around an item or key. -/
inductive DecorChange where
  | clear
  | fresh (d : Decor)
  /-- The sides that are given are set, perhaps to nothing. -/
  | set (before after : Option (Option SpanText))

def DecorChange.apply : DecorChange → Decor → Decor
  | .clear, _ => {}
  | .fresh d, _ => d
  | .set before after, d => ⟨before.getD d.before, after.getD d.after⟩

end Verbatim

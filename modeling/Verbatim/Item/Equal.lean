import Verbatim.Item.Basic

/-!
# Equality of items

Tables and inline tables are equal as unordered mappings of their items, whatever their kind and their text. Other items are
equal if their kind, contents and text are. One and the same item is always equal to itself.
-/

namespace Verbatim

def Data.plainEquals (x y : Plain) : Bool := Data.equals nofun x y

def Scalar.equals (s t : Scalar) : Bool :=
  s.kind == t.kind && s.value.plainEquals t.value && s.repr == t.repr && s.decor == t.decor

namespace Item

/-- Whether two items are one and the same item of a workspace. -/
def isSame (x y : Item) : Bool := x.info.label != 0 && x.info.label == y.info.label

mutual

def equals : Item → Item → Bool
  | x@(.scalar i s), y =>
    x.isSame y ||
      match y with
      | .scalar j t => s.equals t && i.span == j.span
      | _ => false
  | x@(.array i f vs), y =>
    x.isSame y ||
      match y with
      | .array j g ws => equalsEach vs ws && f == g && i.span == j.span
      | _ => false
  | x@(.arrayOfTables i ts), y =>
    x.isSame y ||
      match y with
      | .arrayOfTables j us => equalsEach ts us && i.span == j.span
      | _ => false
  | x@(.inlineTable _ _ es), y =>
    x.isSame y || (y.isMapping && es.length == y.entries.length && equalsEntries es y.entries)
  | x@(.table _ _ es), y =>
    x.isSame y || (y.isMapping && es.length == y.entries.length && equalsEntries es y.entries)

def equalsEach : List Item → List Item → Bool
  | [], [] => true
  | x :: xs, y :: ys => equals x y && equalsEach xs ys
  | _, _ => false

/-- Whether every entry has an equal one of the same name on the other side. -/
def equalsEntries : List (Entry Item) → List (Entry Item) → Bool
  | [], _ => true
  | ⟨k, x, _, _, _⟩ :: es, fs =>
    (match findNamed? k.name fs with
      | some f => equals x f.item
      | none => false) && equalsEntries es fs

end

end Item

end Verbatim

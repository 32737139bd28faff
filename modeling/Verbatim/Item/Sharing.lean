import Verbatim.Item.Basic

/-!
# Shared items

The same item can stand in several places: below two documents, or in a document and in the hand of a caller. Items that are
known to a workspace carry labels; two places hold the same item exactly if the labels agree. An edit makes a new version
of an item, and grafting puts the new version in all its places.
-/

namespace Verbatim.Item

/-- What an item remembers, with a label. -/
def freshInfo (next : Nat) (i : Info) : Info := if i.label = 0 then { i with label := next } else i

/-- The label that is free after an item has got one. -/
def freshNext (next : Nat) (i : Info) : Nat := if i.label = 0 then next + 1 else next

mutual

/-- The item with fresh labels, from `next` on, for the parts that have none, and the label that is free afterwards. -/
def labelled (next : Nat) : Item → Item × Nat
  | .scalar i s => (.scalar (freshInfo next i) s, freshNext next i)
  | .array i f vs =>
    let (vs, after) := labelledEach (freshNext next i) vs
    (.array (freshInfo next i) f vs, after)
  | .inlineTable i f es =>
    let (es, after) := labelledEntries (freshNext next i) es
    (.inlineTable (freshInfo next i) f es, after)
  | .table i f es =>
    let (es, after) := labelledEntries (freshNext next i) es
    (.table (freshInfo next i) f es, after)
  | .arrayOfTables i ts =>
    let (ts, after) := labelledEach (freshNext next i) ts
    (.arrayOfTables (freshInfo next i) ts, after)

def labelledEach (next : Nat) : List Item → List Item × Nat
  | [] => ([], next)
  | x :: xs =>
    let (x, next) := labelled next x
    let (xs, next) := labelledEach next xs
    (x :: xs, next)

def labelledEntries (next : Nat) : List (Entry Item) → List (Entry Item) × Nat
  | [] => ([], next)
  | ⟨k, x, p, n, l⟩ :: es =>
    let (x, next) := labelled next x
    let (es, next) := labelledEntries next es
    (⟨k, x, p, n, l⟩ :: es, next)

end

mutual

/-- An item and all items below it, each with its label. -/
def versions : Item → List (Nat × Item)
  | .scalar i s => [(i.label, .scalar i s)]
  | .array i f vs => (i.label, .array i f vs) :: versionsEach vs
  | .inlineTable i f es => (i.label, .inlineTable i f es) :: versionsEntries es
  | .table i f es => (i.label, .table i f es) :: versionsEntries es
  | .arrayOfTables i ts => (i.label, .arrayOfTables i ts) :: versionsEach ts

def versionsEach : List Item → List (Nat × Item)
  | [] => []
  | x :: xs => versions x ++ versionsEach xs

def versionsEntries : List (Entry Item) → List (Nat × Item)
  | [] => []
  | ⟨_, x, _, _, _⟩ :: es => versions x ++ versionsEntries es

end

def version? (label : Nat) (news : List (Nat × Item)) : Option Item := news.lookup label

mutual

/-- The tree with the given versions of its items. -/
def graft (news : List (Nat × Item)) : Item → Item
  | .scalar i s => (version? i.label news).getD (.scalar i s)
  | .array i f vs => (version? i.label news).getD (.array i f (graftEach news vs))
  | .inlineTable i f es => (version? i.label news).getD (.inlineTable i f (graftEntries news es))
  | .table i f es => (version? i.label news).getD (.table i f (graftEntries news es))
  | .arrayOfTables i ts => (version? i.label news).getD (.arrayOfTables i (graftEach news ts))

def graftEach (news : List (Nat × Item)) : List Item → List Item
  | [] => []
  | x :: xs => graft news x :: graftEach news xs

def graftEntries (news : List (Nat × Item)) : List (Entry Item) → List (Entry Item)
  | [] => []
  | ⟨k, x, p, n, l⟩ :: es => ⟨k, graft news x, p, n, l⟩ :: graftEntries news es

end

end Verbatim.Item

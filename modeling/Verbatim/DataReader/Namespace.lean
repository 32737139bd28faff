import Verbatim.Data

/-!
# Namespaces of a document

While a document is read, every key path can carry two marks. A *declared* path may not be declared again by a header or be
extended by a dotted key; below a *closed* path nothing may change. The data itself grows along key paths.
-/

namespace Verbatim.DataReader

/-- The marks of a key path, and of the paths below it by their next segment. -/
inductive Marks where
  /-- Whether the path is declared, whether it is closed, and what is below it. -/
  | node (declared closed : Bool) (inner : List (String × Marks))
  deriving Inhabited

namespace Marks

def blank : Marks := .node false false []

def children : Marks → List (String × Marks)
  | .node _ _ bs => bs

def declared : Marks → Bool
  | .node d _ _ => d

def closed : Marks → Bool
  | .node _ s _ => s

/-- Puts a node under a name, in place of an earlier one. -/
def put (name : String) (m : Marks) : List (String × Marks) → List (String × Marks)
  | [] => [(name, m)]
  | (k, x) :: rest => if k == name then (k, m) :: rest else (k, x) :: put name m rest

/-- Changes the node of a path, making the nodes on the way. -/
def change (f : Marks → Marks) : List String → Marks → Marks
  | [], m => f m
  | k :: ks, .node d s bs => .node d s (put k (change f ks ((bs.lookup k).getD blank)) bs)

def declare (path : List String) (m : Marks) : Marks :=
  change (fun x => .node true x.closed x.children) path m

def close (path : List String) (m : Marks) : Marks :=
  change (fun x => .node x.declared true x.children) path m

/-- Drops the marks of a path and of all paths below it. -/
def forget : List String → Marks → Marks
  | [], m => m
  | [k], .node d s bs => .node d s (bs.filter fun b => b.1 != k)
  | k :: ks, .node d s bs =>
    match bs.lookup k with
    | none => .node d s bs
    | some x => .node d s (put k (forget ks x) bs)

/-- Whether exactly this path is declared. -/
def isDeclared : List String → Marks → Bool
  | [], _ => false
  | [k], m => ((m.children.lookup k).map declared).getD false
  | k :: ks, m =>
    match m.children.lookup k with
    | none => false
    | some x => isDeclared ks x

/-- Whether this path or one above it is closed. -/
def isClosed : List String → Marks → Bool
  | [], _ => false
  | k :: ks, m =>
    match m.children.lookup k with
    | none => false
    | some x => x.closed || isClosed ks x

end Marks

abbrev Fields := List (String × Plain)

namespace Fields

/-- Puts a value under a name, in place of an earlier one or behind the others. -/
def put (name : String) (v : Plain) : Fields → Fields
  | [] => [(name, v)]
  | (k, x) :: rest => if k == name then (k, v) :: rest else (k, x) :: put name v rest

/-- Changes the table behind a key path and makes the tables on the way; `none` if something else stands there. Through an
array of tables the way leads into its last table, if `lists` allows it. -/
def atPath (lists : Bool) (f : Fields → Option Fields) : List String → Fields → Option Fields
  | [], t => f t
  | k :: ks, t =>
    match t.lookup k with
    | none => (atPath lists f ks []).map fun sub => t ++ [(k, .table sub)]
    | some (.table sub) => (atPath lists f ks sub).map fun sub' => put k (.table sub') t
    | some (.list xs) =>
      if lists then
        match xs.getLast? with
        | some (.table sub) =>
          (atPath lists f ks sub).map fun sub' => put k (.list (xs.dropLast ++ [.table sub'])) t
        | _ => none
      else none
    | some _ => none

/-- Adds a value under a new name; `none` if the name is taken. -/
def add? (name : String) (v : Plain) (t : Fields) : Option Fields :=
  match t.lookup name with
  | none => some (t ++ [(name, v)])
  | some _ => none

/-- Adds an empty table to an array of tables; `none` if something else stands there. -/
def grow? (name : String) (t : Fields) : Option Fields :=
  match t.lookup name with
  | none => some (t ++ [(name, .list [.table []])])
  | some (.list xs) => some (put name (.list (xs ++ [.table []])) t)
  | some _ => none

end Fields

end Verbatim.DataReader

import Verbatim.Text.Quoted

/-!
# Stores of files

The files that the program sees, below one directory. Paths are written with slashes; empty parts and single dots in them
mean nothing.
-/

namespace Verbatim

/-! ## Paths -/

/-- The parts of a path between slashes. -/
def pathParts : List Char → List (List Char)
  | [] => [[]]
  | '/' :: cs => [] :: pathParts cs
  | c :: cs =>
    match pathParts cs with
    | [] => [[c]]
    | p :: ps => (c :: p) :: ps

/-- The parts of a path that mean something. -/
def properParts (cs : List Char) : List (List Char) := (pathParts cs).filter fun p => p != [] && p != ['.']

/-- The slashes that a path starts with, as far as they mean something: two of them are not the same as one. -/
def pathRoot : List Char → List Char
  | '/' :: '/' :: '/' :: _ => ['/']
  | '/' :: '/' :: _ => ['/', '/']
  | '/' :: _ => ['/']
  | _ => []

/-- The shortest spelling of a path. -/
def normalPath (path : String) : String :=
  let root := pathRoot path.toList
  match root, properParts path.toList with
  | [], [] => "."
  | root, parts => String.ofList (root ++ ['/'].intercalate parts)

/-- The parts of a path with each step upwards taken back together with the part before it. -/
def resolvedParts (parts : List (List Char)) : List (List Char) :=
  (parts.foldl (fun acc p => if p = ['.', '.'] then acc.drop 1 else p :: acc) []).reverse

/-! ## Stores -/

inductive Node where
  | file (bytes : List UInt8)
  | directory
  deriving Repr, DecidableEq

inductive FileFault where
  | notFound
  | notDirectory
  | isDirectory
  deriving Repr, DecidableEq

def FileFault.text : FileFault → String
  | .notFound => "[Errno 2] No such file or directory"
  | .notDirectory => "[Errno 20] Not a directory"
  | .isDirectory => "[Errno 21] Is a directory"

structure Store where
  nodes : List (String × Node) := []
  deriving Repr, DecidableEq

namespace Store

/-- The name under which a store knows a path; a path from the root is another one than the same path from here. -/
def nameOf (path : String) : List (List Char) :=
  (if (pathRoot path.toList).isEmpty then [] else [['/']]) ++ resolvedParts (properParts path.toList)

/-- What stands at a path given by its parts; the store itself is a directory, and so is what files stand below. -/
def nodeAt? (s : Store) (parts : List (List Char)) : Option Node :=
  match parts with
  | [] => some .directory
  | parts =>
    match s.nodes.find? fun n => nameOf n.1 = parts with
    | some n => some n.2
    -- a directory need not be listed itself
    | none => if s.nodes.any fun n => parts.isPrefixOf (nameOf n.1) then some .directory else none

/-- Whether the directories above a path are there. -/
def aboveFault? (s : Store) : List (List Char) → List (List Char) → Option FileFault
  | _, [] | _, [_] => none
  | above, p :: ps =>
    match s.nodeAt? (above ++ [p]) with
    | none => some .notFound
    | some (.file _) => some .notDirectory
    | some .directory => s.aboveFault? (above ++ [p]) ps

def read (s : Store) (path : String) : Except FileFault (List UInt8) :=
  let parts := nameOf path
  match s.aboveFault? [] parts, s.nodeAt? parts with
  | some f, _ => .error f
  | none, none => .error .notFound
  | none, some .directory => .error .isDirectory
  | none, some (.file bytes) => .ok bytes

def putNode (parts : List (List Char)) (path : String) (x : Node) : List (String × Node) → List (String × Node)
  | [] => [(path, x)]
  | n :: ns => if nameOf n.1 = parts then (n.1, x) :: ns else n :: putNode parts path x ns

/-- The store after the bytes of a file were changed; a file that is not there has none and is made. -/
def update (s : Store) (path : String) (change : List UInt8 → List UInt8) : Except FileFault Store :=
  let parts := nameOf path
  match s.aboveFault? [] parts, s.nodeAt? parts with
  | some fault, _ => .error fault
  | none, some .directory => .error .isDirectory
  | none, some (.file bytes) => .ok ⟨putNode parts path (.file (change bytes)) s.nodes⟩
  | none, none => .ok ⟨putNode parts (normalPath path) (.file (change [])) s.nodes⟩

def write (s : Store) (path : String) (bytes : List UInt8) : Except FileFault Store := s.update path fun _ => bytes

def append (s : Store) (path : String) (bytes : List UInt8) : Except FileFault Store := s.update path (· ++ bytes)

end Store

end Verbatim

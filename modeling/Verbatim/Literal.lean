import Verbatim.Key
import Verbatim.Data

/-!
# Literals for new values

Values and keys that an edit brings in have no spelling of their own. They are written in one fixed form: strings as basic
strings with the shortest escapes, keys bare where possible. Nested data, which only a direct assignment to a scalar can
bring here, is laid out over several lines.
-/

namespace Verbatim

inductive LiteralError where
  | unsupported (kind : String)
  | offsetTime
  /-- A key that is no text. -/
  | invalidKey (shown kind : String)
  | tooManyDigits
  deriving Repr, DecidableEq

def LiteralError.message : LiteralError → String
  | .unsupported kind => "Object of type '" ++ kind ++ "' is not TOML serializable"
  | .offsetTime => "TOML does not support offset times"
  | .invalidKey shown kind => "Invalid mapping key '" ++ shown ++ "' of type '" ++ kind ++ "'. A string is required."
  | .tooManyDigits =>
    "Exceeds the limit (4300 digits) for integer string conversion; " ++
      "use sys.set_int_max_str_digits() to increase the limit"

namespace Literal

/-! ## Strings and keys -/

/-- Characters that a basic string has to escape. -/
def mustEscape (c : Char) : Bool :=
  c == '"' || c == '\\' || (c.toNat < 32 && c != '\t') || c.toNat == 127

def escaped (c : Char) : List Char :=
  if c = '\x08' then ['\\', 'b']
  else if c = '\n' then ['\\', 'n']
  else if c = '\x0c' then ['\\', 'f']
  else if c = '\r' then ['\\', 'r']
  else if c = '"' then ['\\', '"']
  else if c = '\\' then ['\\', '\\']
  else ['\\', 'u'] ++ Text.hexDigits 4 c.toNat

/-- One character of a basic string. -/
def stringChar (c : Char) : List Char := if mustEscape c then escaped c else [c]

/-- The characters of a basic string, with its marks. -/
def stringChars (text : List Char) : List Char := '"' :: text.flatMap stringChar ++ ['"']

def string (s : String) : String := String.ofList (stringChars s.toList)

/-- A name as a key: bare if it can be. -/
def key (name : String) : String := if isBareName name then name else string name

/-! ## Scalars -/

/-- Whether an integer has more digits than are ever written. -/
def tooManyDigits (n : Int) : Bool := Nat.pow 10 4300 ≤ n.natAbs

/-- The literal of data without members; `none` for lists and tables. -/
def scalar? : Plain → Option (Except LiteralError String)
  | .boolean b => some (.ok (if b then "true" else "false"))
  | .integer n => some (if tooManyDigits n then .error .tooManyDigits else .ok (toString n))
  | .float x => some (.ok x.text)
  | .string s => some (.ok (string s))
  | .date d => some (.ok d.text)
  | .dateTime x => some (.ok (x.textWith " "))
  | .time t => some (if t.offset.isSome then .error .offsetTime else .ok t.text)
  | .none => some (.error (.unsupported "NoneType"))
  | .bytes _ => some (.error (.unsupported "bytes"))
  | .set _ => some (.error (.unsupported "set"))
  | .list _ | .tuple _ | .table _ | .mapping _ => none

/-! ## Nested data -/

/-- A key that is data: only texts will do. -/
def dataKey : Plain → Except LiteralError String
  | .string s => .ok (key s)
  | d => .error (.invalidKey (d.cell nofun) d.plainKindName)

/-- Four blanks for each level. -/
def indent (level : Nat) : String := String.ofList (List.replicate (4 * level) ' ')

mutual

/-- Data in one place: arrays with a line for each element, tables in braces. -/
def inline (level : Nat) : Plain → Except LiteralError String
  | .list xs => inlineArray level xs
  | .tuple xs => inlineArray level xs
  | .table [] => .ok "\x7b\x7d"
  | .table (e :: es) =>
    match inlineFields (e :: es) with
    | .error err => .error err
    | .ok parts => .ok ("\x7b " ++ ", ".intercalate parts ++ " \x7d")
  | .mapping [] => .ok "\x7b\x7d"
  | .mapping (e :: es) =>
    match inlinePairs (e :: es) with
    | .error err => .error err
    | .ok parts => .ok ("\x7b " ++ ", ".intercalate parts ++ " \x7d")
  | d => (scalar? d).getD (.ok "")

def inlineArray (level : Nat) : List Plain → Except LiteralError String
  | [] => .ok "[]"
  | x :: xs =>
    match inlineEach (level + 1) (x :: xs) with
    | .error err => .error err
    | .ok parts => .ok ("[\n" ++ ",\n".intercalate parts ++ ",\n" ++ indent level ++ "]")

/-- The elements of an array, each on a line of its own. -/
def inlineEach (level : Nat) : List Plain → Except LiteralError (List String)
  | [] => .ok []
  | x :: xs =>
    match inline level x with
    | .error err => .error err
    | .ok part =>
      match inlineEach level xs with
      | .error err => .error err
      | .ok parts => .ok ((indent level ++ part) :: parts)

def inlineFields : List (String × Plain) → Except LiteralError (List String)
  | [] => .ok []
  | (k, x) :: es =>
    match inline 0 x with
    | .error err => .error err
    | .ok part =>
      match inlineFields es with
      | .error err => .error err
      | .ok parts => .ok ((key k ++ " = " ++ part) :: parts)

def inlinePairs : List (Plain × Plain) → Except LiteralError (List String)
  | [] => .ok []
  | (k, x) :: es =>
    match dataKey k with
    | .error err => .error err
    | .ok name =>
      match inline 0 x with
      | .error err => .error err
      | .ok part =>
        match inlinePairs es with
        | .error err => .error err
        | .ok parts => .ok ((name ++ " = " ++ part) :: parts)

end

def isTable : Plain → Bool
  | .table _ | .mapping _ => true
  | _ => false

/-- Whether an array of tables is written in one place: every table fits in a line of a hundred characters. -/
def fitsInline : List Plain → Except LiteralError Bool
  | [] => .ok true
  | x :: xs =>
    match inline 0 x with
    | .error err => .error err
    | .ok part =>
      if part.length + 5 ≤ 100 && !part.toList.contains '\n' then fitsInline xs else .ok false

/-- Whether data is a list of tables with a header for each. -/
def needsHeaders (xs : List Plain) : Except LiteralError Bool :=
  if xs.isEmpty || !xs.all isTable then .ok false
  else
    match fitsInline xs with
    | .error err => .error err
    | .ok fits => .ok (!fits)

def pathName (parent name : String) : String := if parent.isEmpty then name else parent ++ "." ++ name

/-- What a table is made of: its lines, then the texts of the tables below it. -/
structure Section where
  lines : List String := []
  tables : List String := []

/-- The text of a table: its header if it needs one, its lines, and the tables below it with an empty line between. -/
def sectionText (name : String) (inArray : Bool) (s : Section) : String :=
  let header :=
    if inArray then ["[[" ++ name ++ "]]\n"]
    else if !name.isEmpty && (!s.lines.isEmpty || s.tables.isEmpty) then ["[" ++ name ++ "]\n"]
    else []
  let own := header ++ s.lines
  let below := "\n".intercalate s.tables
  if own.isEmpty then below
  else if s.tables.isEmpty then String.join own
  else String.join own ++ "\n" ++ below

mutual

/-- What an entry adds to its table: a line, or the text of a table below it. -/
def entrySection (parent name : String) : Plain → Except LiteralError Section
  | .table es =>
    match fieldSections (pathName parent name) es with
    | .error err => .error err
    | .ok s => .ok { tables := [sectionText (pathName parent name) false s] }
  | .mapping es =>
    match pairSections (pathName parent name) es with
    | .error err => .error err
    | .ok s => .ok { tables := [sectionText (pathName parent name) false s] }
  | .list xs =>
    match needsHeaders xs with
    | .error err => .error err
    | .ok true =>
      match arraySections (pathName parent name) xs with
      | .error err => .error err
      | .ok texts => .ok { tables := texts }
    | .ok false =>
      match inlineArray 0 xs with
      | .error err => .error err
      | .ok part => .ok { lines := [name ++ " = " ++ part ++ "\n"] }
  | .tuple xs =>
    match needsHeaders xs with
    | .error err => .error err
    | .ok true =>
      match arraySections (pathName parent name) xs with
      | .error err => .error err
      | .ok texts => .ok { tables := texts }
    | .ok false =>
      match inlineArray 0 xs with
      | .error err => .error err
      | .ok part => .ok { lines := [name ++ " = " ++ part ++ "\n"] }
  | d =>
    match (scalar? d).getD (.ok "") with
    | .error err => .error err
    | .ok part => .ok { lines := [name ++ " = " ++ part ++ "\n"] }

def arraySections (name : String) : List Plain → Except LiteralError (List String)
  | [] => .ok []
  | .table es :: xs =>
    match fieldSections name es with
    | .error err => .error err
    | .ok s =>
      match arraySections name xs with
      | .error err => .error err
      | .ok texts => .ok (sectionText name true s :: texts)
  | .mapping es :: xs =>
    match pairSections name es with
    | .error err => .error err
    | .ok s =>
      match arraySections name xs with
      | .error err => .error err
      | .ok texts => .ok (sectionText name true s :: texts)
  | _ :: xs => arraySections name xs

/-- What the entries of a table add to it. -/
def fieldSections (name : String) : List (String × Plain) → Except LiteralError Section
  | [] => .ok {}
  | (k, x) :: es =>
    match entrySection name (key k) x with
    | .error err => .error err
    | .ok s =>
      match fieldSections name es with
      | .error err => .error err
      | .ok t => .ok ⟨s.lines ++ t.lines, s.tables ++ t.tables⟩

def pairSections (name : String) : List (Plain × Plain) → Except LiteralError Section
  | [] => .ok {}
  | (k, x) :: es =>
    match dataKey k with
    | .error err => .error err
    | .ok part =>
      match entrySection name part x with
      | .error err => .error err
      | .ok s =>
        match pairSections name es with
        | .error err => .error err
        | .ok t => .ok ⟨s.lines ++ t.lines, s.tables ++ t.tables⟩

end

/-- The text of a document that assigns data to the key `v`. -/
def assignment (d : Plain) : Except LiteralError String :=
  match entrySection "" "v" d with
  | .error err => .error err
  | .ok s => .ok (sectionText "" false s)

/-- A text without its trailing line feeds. -/
def dropTrailingNewlines (text : List Char) : List Char :=
  (text.reverse.dropWhile (· == '\n')).reverse

/-- The literal of data: what stands behind `v = ` when the data is assigned to `v`. -/
def ofPlain (d : Plain) : Except LiteralError String :=
  match scalar? d with
  | some r => r
  | none =>
    match assignment d with
    | .error err => .error err
    | .ok text => .ok (String.ofList (dropTrailingNewlines (text.toList.drop 4)))

end Literal

end Verbatim

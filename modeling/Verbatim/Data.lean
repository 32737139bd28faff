import Verbatim.Number.Shortest
import Verbatim.Calendar
import Verbatim.Text.Quoted

/-!
# Plain data

The values that documents are made from and give back: scalars, sequences and tables. A few kinds have no form
in a document (nothing, bytes, sets); they occur only as input, where conversion refuses them. The type parameter is
for values of another type among the input, such as items of a document; plain data has none of them.
-/

namespace Verbatim

/-- Plain data, with members of `ι` where another kind of value may stand. -/
inductive Data (ι : Type) where
  | none
  | boolean (b : Bool)
  | integer (n : Int)
  | float (x : Binary64)
  | string (s : String)
  | date (d : Date)
  | time (t : Time)
  | dateTime (x : DateTime)
  | bytes (bs : List UInt8)
  | set (xs : List (Data ι))
  | list (xs : List (Data ι))
  | tuple (xs : List (Data ι))
  /-- A table: names with their values, in order. -/
  | table (es : List (String × Data ι))
  /-- A table whose keys are data, not all of them texts. -/
  | mapping (es : List (Data ι × Data ι))
  /-- A value of the other type. -/
  | item (x : ι)
  deriving Inhabited

/-- Data without foreign members. -/
abbrev Plain := Data Empty

namespace Data

variable {ι : Type}

/-- The name of a kind of data in messages; the argument names the kinds of foreign members. -/
def kindName (foreign : ι → String) : Data ι → String
  | .none => "NoneType"
  | .boolean _ => "bool"
  | .integer _ => "int"
  | .float _ => "float"
  | .string _ => "str"
  | .date _ => "date"
  | .time _ => "time"
  | .dateTime _ => "datetime"
  | .bytes _ => "bytes"
  | .set _ => "set"
  | .list _ => "list"
  | .tuple _ => "tuple"
  | .table _ => "dict"
  | .mapping _ => "dict"
  | .item x => foreign x

def plainKindName (d : Plain) : String := d.kindName nofun

/-! ## Equality of values -/

/-- Integers stand behind truth values and integers, so these compare as numbers. -/
def integerValue? : Data ι → Option Int
  | .boolean b => some (if b then 1 else 0)
  | .integer n => some n
  | _ => Option.none

mutual

/-- Equality of values: numbers compare across kinds, tables as unordered mappings. -/
def equals (same : ι → ι → Bool) : Data ι → Data ι → Bool
  | .none, .none => true
  | .float x, .float y => x.equals y
  | .float x, y => match y.integerValue? with
    | some n => x.equalsInt n
    | Option.none => false
  | .string s, .string t => s == t
  | .date x, .date y => x == y
  | .time x, .time y => x.equals y
  | .dateTime x, .dateTime y => x.equals y
  | .bytes x, .bytes y => x == y
  | .list xs, .list ys => equalsEach same xs ys
  | .tuple xs, .tuple ys => equalsEach same xs ys
  | .set xs, .set ys => equalsEach same xs ys
  | .table es, .table fs => es.length == fs.length && equalsFields same es fs
  | .item x, .item y => same x y
  | x, .float y => match x.integerValue? with
    | some n => y.equalsInt n
    | Option.none => false
  | x, y => match x.integerValue?, y.integerValue? with
    | some m, some n => m == n
    | _, _ => false

def equalsEach (same : ι → ι → Bool) : List (Data ι) → List (Data ι) → Bool
  | [], [] => true
  | x :: xs, y :: ys => equals same x y && equalsEach same xs ys
  | _, _ => false

/-- Whether every named value has an equal value of the same name on the other side. -/
def equalsFields (same : ι → ι → Bool) : List (String × Data ι) → List (String × Data ι) → Bool
  | [], _ => true
  | (k, x) :: es, fs =>
    (match fs.lookup k with
      | some y => equals same x y
      | Option.none => false) && equalsFields same es fs

end

/-! ## Displayed forms -/

/-- The members of a date in a displayed form. -/
def dateMembers (d : Date) : List String := [toString d.year, toString d.month, toString d.day]

/-- The members of a time in a displayed form: seconds and microseconds only as far as they are not zero. -/
def timeMembers (t : Time) : List String :=
  [toString t.hour, toString t.minute] ++
    (if t.second = 0 ∧ t.micro = 0 then [] else [toString t.second]) ++
    (if t.micro = 0 then [] else [toString t.micro])

def zoneShown (offset : Int) : String :=
  if offset = 0 then "datetime.timezone.utc"
  else if 0 < offset then "datetime.timezone(datetime.timedelta(seconds=" ++ toString offset ++ "))"
  else "datetime.timezone(datetime.timedelta(days=-1, seconds=" ++ toString (86400 + offset) ++ "))"

/-- The offset as a last member of a displayed time. -/
def zoneMembers : Option Int → List String
  | Option.none => []
  | some o => ["tzinfo=" ++ zoneShown o]

def byteShown (mark : Char) (b : UInt8) : List Char :=
  let c := Char.ofNat b.toNat
  if c = mark ∨ c = '\\' then ['\\', c]
  else if c = '\t' then ['\\', 't']
  else if c = '\n' then ['\\', 'n']
  else if c = '\r' then ['\\', 'r']
  else if b.toNat < 0x20 ∨ 0x7f ≤ b.toNat then ['\\', 'x'] ++ Text.hexDigits 2 b.toNat
  else [c]

def bytesShown (bs : List UInt8) : String :=
  let mark := Text.quoteMark (bs.map fun b => Char.ofNat b.toNat)
  String.ofList ('b' :: mark :: bs.flatMap (byteShown mark) ++ [mark])

def booleanShown (b : Bool) : String := if b then "True" else "False"

mutual

/-- The displayed form of data, as it stands inside a sequence. -/
def shown (foreign : ι → String) : Data ι → String
  | .none => "None"
  | .boolean b => booleanShown b
  | .integer n => toString n
  | .float x => x.text
  | .string s => Text.quoted s
  | .date d => "datetime.date(" ++ ", ".intercalate (dateMembers d) ++ ")"
  | .time t => "datetime.time(" ++ ", ".intercalate (timeMembers t ++ zoneMembers t.offset) ++ ")"
  | .dateTime x =>
    "datetime.datetime(" ++
      ", ".intercalate (dateMembers x.date ++ timeMembers x.time ++ zoneMembers x.time.offset) ++ ")"
  | .bytes bs => bytesShown bs
  | .set xs => if xs.isEmpty then "set()" else "\x7b" ++ ", ".intercalate (shownEach foreign xs) ++ "\x7d"
  | .list xs => Text.listOf (shownEach foreign xs)
  | .tuple xs => Text.tupleOf (shownEach foreign xs)
  | .table es => "\x7b" ++ ", ".intercalate (shownFields foreign es) ++ "\x7d"
  | .mapping es => "\x7b" ++ ", ".intercalate (shownPairs foreign es) ++ "\x7d"
  | .item x => foreign x

def shownEach (foreign : ι → String) : List (Data ι) → List String
  | [] => []
  | x :: xs => shown foreign x :: shownEach foreign xs

def shownFields (foreign : ι → String) : List (String × Data ι) → List String
  | [] => []
  | (k, x) :: es => (Text.quoted k ++ ": " ++ shown foreign x) :: shownFields foreign es

def shownPairs (foreign : ι → String) : List (Data ι × Data ι) → List String
  | [] => []
  | (k, x) :: es => (shown foreign k ++ ": " ++ shown foreign x) :: shownPairs foreign es

end

/-- The displayed form of data on its own: texts, dates and times stand for themselves. -/
def cell (foreign : ι → String) : Data ι → String
  | .string s => s
  | .date d => d.text
  | .time t => t.text
  | .dateTime x => x.textWith " "
  | d => d.shown foreign

/-! ## Keys -/

/-- The entries of a table whose keys are data: an equal key takes the place of an earlier one. -/
def insertPair (same : ι → ι → Bool) (es : List (Data ι × Data ι)) (k v : Data ι) : List (Data ι × Data ι) :=
  match es with
  | [] => [(k, v)]
  | (k', v') :: rest => if equals same k' k then (k', v) :: rest else (k', v') :: insertPair same rest k v

/-- The entries of a table with the keys as texts. -/
def namedPairs (foreign : ι → String) : List (Data ι × Data ι) → List (String × Data ι)
  | [] => []
  | (k, v) :: es => (k.cell foreign, v) :: namedPairs foreign es

end Data

end Verbatim

import Verbatim.Line.KeyPath
import Verbatim.Text.DecimalDigit

/-!
# Values of a line

Every value is read with its spelling and the text around it. Entries of inline tables are numbered in the order in which
they are complete, so the entries of an inner table come before the entry that holds it.
-/

namespace Verbatim

/-- The result of scanning a value: the value, and the place and number behind it. -/
abbrev ScannedValue := Except SyntaxFault (Item × Numbered)

/-! ## Scalars -/

/-- Characters of numbers, truth values, dates and times. -/
def isScalarChar (c : Char) : Bool :=
  ('0' ≤ c && c ≤ '9') || ('A' ≤ c && c ≤ 'Z') || ('a' ≤ c && c ≤ 'z') || c == '_' || c == '+' || c == '-' ||
    c == '.' || c == ':'

/-- Whether a text has the form of a date. -/
def isDateShape : List Char → Bool
  | [a, b, c, d, '-', e, f, '-', g, h] => [a, b, c, d, e, f, g, h].all Text.isDecimalDigit
  | _ => false

/-- Whether a space, two digits, a colon and two digits follow. -/
def isTimeShape : List Char → Bool
  | ' ' :: a :: b :: ':' :: c :: d :: _ => [a, b, c, d].all Text.isDecimalDigit
  | _ => false

/-- The cursor behind a scalar that is no string. A space may divide a date from a time. -/
def scalarEnd (c : Cursor) : Except SyntaxFault Cursor :=
  let d := c.skipWhile isScalarChar
  if isDateShape (textBetween c d) && isTimeShape d.rest then
    -- digits of other scripts have the shape of a time but are no characters of one
    let e := d.next.skipWhile isScalarChar
    if e.pos = d.next.pos then SyntaxCause.foreignDigits.at d.pos else .ok e
  else .ok d

def scalarKind : Plain → ScalarKind
  | .boolean _ => .boolean
  | .integer _ => .integer
  | .float _ => .float
  | .string _ => .string
  | _ => .dateTime

/-- The value that a text spells, or a fault at its first character. -/
def spelledValue (text : List Char) (offset : Nat) : Except SyntaxFault Plain :=
  match DataReader.readScalar text with
  | .ok v => .ok v
  | .error (.refused ..) => (SyntaxCause.invalidValue (String.ofList text)).at offset
  | .error .tooDeep => SyntaxCause.tooDeep.at offset
  | .error (.tooManyDigits count) => (SyntaxCause.tooManyDigits count).at offset

def scalarBetween (c d : Cursor) : Scanned Item :=
  match spelledValue (textBetween c d) c.pos with
  | .error f => .error f
  | .ok v =>
    let form : Scalar := { kind := scalarKind v, value := v, repr := some (.between c.pos d.pos) }
    .ok (.scalar { span := some ⟨c.pos, d.pos⟩ } form, d)

def stringItem (mark : Char) (c : Cursor) : Scanned Item :=
  match stringEnd mark c with
  | .error f => .error f
  | .ok d => scalarBetween c d

def scalarItem (x : Char) (c : Cursor) : Scanned Item :=
  if isScalarChar x then
    match scalarEnd c with
    | .error f => .error f
    | .ok d => scalarBetween c d
  else (SyntaxCause.unexpectedCharacter x).at c.pos

/-! ## Arrays -/

/-- The elements of an array up to its closing bracket, and whether a comma follows the last one. The flag says whether a
comma stands before the cursor. -/
def arrayMembers (inner : Numbered → ScannedValue) (comma : Bool) (s : Numbered) :
    Except SyntaxFault (List Item × SpanText × Bool × Numbered) :=
  let c := s.cursor
  let c₁ := c.skipTrivia
  if c₁.startsWith [']'] then .ok ([], .between c.pos c₁.pos, comma, { s with cursor := c₁.next })
  else
    match inner { s with cursor := c₁ } with
    | .error f => .error f
    | .ok (v, s₂) =>
      let c₂ := s₂.cursor
      let c₃ := c₂.skipTrivia
      let element := v.withDecor ⟨some (.between c.pos c₁.pos), some (.between c₂.pos c₃.pos)⟩
      if c₃.startsWith [','] then
        let s₄ : Numbered := { s₂ with cursor := c₃.next }
        if s₄.cursor.rest.length < s.cursor.rest.length then
          match arrayMembers inner true s₄ with
          | .error f => .error f
          | .ok (vs, trailing, last, d) => .ok (element :: vs, trailing, last, d)
        else SyntaxCause.expectedArrayEnd.at c₃.pos
      else if c₃.startsWith [']'] then .ok ([element], .empty, false, { s₂ with cursor := c₃.next })
      else SyntaxCause.expectedArrayEnd.at c₃.pos
termination_by s.cursor.rest.length

def arrayItem (inner : Numbered → ScannedValue) (s : Numbered) : ScannedValue :=
  match arrayMembers inner false { s with cursor := s.cursor.next } with
  | .error f => .error f
  | .ok (vs, trailing, comma, d) =>
    .ok (.array { span := some ⟨s.cursor.pos, d.cursor.pos⟩ } { trailing, trailingComma := comma } vs, d)

/-! ## Inline tables -/

/-- Puts an entry below the tables of its dotted key, which are copies of `fresh` where there are none yet. -/
def insertDotted (fresh : Item) (leaf : Entry Item) : List Key → List (Entry Item) → Except SyntaxCause (List (Entry Item))
  | [], es =>
    match Item.findNamed? leaf.name es with
    | some _ => .error (.duplicateKey leaf.name)
    | none => .ok (es ++ [leaf])
  | k :: ks, es =>
    match Item.findNamed? k.name es with
    | none =>
      match insertDotted fresh leaf ks [] with
      | .error e => .error e
      | .ok sub => .ok (es ++ [{ key := k.bare, item := fresh.withEntries sub }])
    | some e =>
      if e.item.isDotted then
        match insertDotted fresh leaf ks e.item.entries with
        | .error e => .error e
        | .ok sub => .ok (Item.updateEntry k.name (fun e => { e with item := e.item.withEntries sub }) es)
      else .error (.cannotExtend k.name e.item.typeName)

/-- The leading segments of a key path as they are kept with an entry. -/
def dottedPathOf (path : List Key) : Option (List Key) := if path.isEmpty then none else some path

def dottedInlineTable : Item := .inlineTable {} { dotted := true } []

/-- A value after blanks, which belong to it. -/
def decoratedValue (inner : Numbered → ScannedValue) (s : Numbered) : ScannedValue :=
  let c := s.cursor.skipBlanks
  match inner { s with cursor := c } with
  | .error f => .error f
  | .ok (v, s') => .ok (v.withDecor ⟨some (.between s.cursor.pos c.pos), none⟩, s')

/-- A value with the text behind it. -/
def withAfter (t : SpanText) (v : Item) : Item :=
  match v.decor? with
  | some d => v.withDecor { d with after := some t }
  | none => v

/-- One entry of an inline table, put among the earlier ones. -/
def inlineEntry (inner : Numbered → ScannedValue) (es : List (Entry Item)) (s : Numbered) :
    Except SyntaxFault (List (Entry Item) × Numbered) :=
  let start := s.cursor.pos
  match keySegments start s.cursor with
  | .error f => .error f
  | .ok ((path, leaf), c₁) =>
    match expectChar '=' "'=' after key" c₁ with
    | .error f => .error f
    | .ok c₂ =>
      match decoratedValue inner { s with cursor := c₂ } with
      | .error f => .error f
      | .ok (v, s₃) =>
        let c₃ := s₃.cursor
        let c₄ := c₃.skipBlanks
        -- entries inside the value have got their numbers by now
        let number := s₃.number + 1
        let entry : Entry Item :=
          { key := leaf, item := withAfter (.between c₃.pos c₄.pos) v, dottedPath := dottedPathOf path,
            position := some number, newline := none }
        match insertDotted dottedInlineTable entry path es with
        | .error cause => cause.at start
        | .ok es' => .ok (es', ⟨c₄, number⟩)

/-- The entries of an inline table up to its closing brace. -/
def inlineMembers (inner : Numbered → ScannedValue) (es : List (Entry Item)) (s : Numbered) :
    Except SyntaxFault (List (Entry Item) × Numbered) :=
  match inlineEntry inner es s with
  | .error f => .error f
  | .ok (es', s') =>
    if s'.cursor.startsWith [','] then
      let s'' : Numbered := { s' with cursor := s'.cursor.next }
      if s''.cursor.rest.length < s.cursor.rest.length then inlineMembers inner es' s''
      else SyntaxCause.expectedInlineEnd.at s'.cursor.pos
    else if s'.cursor.startsWith ['\x7d'] then .ok (es', { s' with cursor := s'.cursor.next })
    else SyntaxCause.expectedInlineEnd.at s'.cursor.pos
termination_by s.cursor.rest.length

def inlineTableItem (inner : Numbered → ScannedValue) (s : Numbered) : ScannedValue :=
  let c := s.cursor.next
  let c₁ := c.skipBlanks
  if c₁.startsWith ['\x7d'] then
    let d := c₁.next
    .ok (.inlineTable { span := some ⟨s.cursor.pos, d.pos⟩ } { preamble := .between c.pos c₁.pos } [],
      { s with cursor := d })
  else
    match inlineMembers inner [] { s with cursor := c } with
    | .error f => .error f
    | .ok (es, d) => .ok (.inlineTable { span := some ⟨s.cursor.pos, d.cursor.pos⟩ } {} es, d)

/-! ## Values -/

/-- A value at a depth, whose members are read with a given reader. -/
def valueItemWith (limit depth : Nat) (inner : Numbered → ScannedValue) (s : Numbered) : ScannedValue :=
  let c := s.cursor
  match c.rest with
  | [] => SyntaxCause.expectedValue.at c.pos
  | x :: _ =>
    if x = '\r' ∨ x = '\n' ∨ x = '#' then SyntaxCause.expectedValue.at c.pos
    else if x = '[' ∨ x = '\x7b' then
      -- the limit is checked before the bracket is passed
      if limit < depth + 1 then (SyntaxCause.nestedBeyond limit).at c.pos
      else if x = '[' then arrayItem inner s else inlineTableItem inner s
    else
      match (if x = '"' ∨ x = '\'' then stringItem x c else scalarItem x c) with
      | .error f => .error f
      | .ok (v, d) => .ok (v, { s with cursor := d })

/-- A value at a depth, with containers nested at most `limit` levels deep. The first number bounds the levels that can be
opened at all. -/
def valueItem (limit : Nat) : Nat → Nat → Numbered → ScannedValue
  | 0, depth => valueItemWith limit depth fun s => SyntaxCause.tooDeep.at s.cursor.pos
  | levels + 1, depth => valueItemWith limit depth (valueItem limit levels (depth + 1))

end Verbatim

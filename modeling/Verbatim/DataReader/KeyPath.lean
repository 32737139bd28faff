import Verbatim.DataReader.Strings
import Verbatim.Key

/-!
# Key paths of a document

## Main definitions

- `keyPart` - one segment: bare, basic or literal.
- `keyPath` - segments between dots, with blanks around them.
-/

namespace Verbatim.DataReader

/-- One segment of a key path. -/
def keyPart (c : Cursor) : Step String :=
  match c.rest with
  | [] => fail .invalidKeyStart c
  | x :: _ =>
    if isBareKeyChar x then
      .ok (String.ofList (c.rest.takeWhile isBareKeyChar), c.skipWhile isBareKeyChar)
    else
      let part := if x = '\'' then literalString c else if x = '"' then basicString c else fail .invalidKeyStart c
      match part with
      | .error f => .error f
      | .ok (name, d) => .ok (String.ofList name, d)

/-- A key path: segments between dots, the blanks behind the last one included. -/
def keyPath (c : Cursor) : Step (List String) :=
  match keyPart c with
  | .error f => .error f
  | .ok (name, d) =>
    let d := d.skipWhile isBlank
    match d.rest with
    | '.' :: _ =>
      let e := d.next.skipWhile isBlank
      if e.rest.length < c.rest.length then
        match keyPath e with
        | .error f => .error f
        | .ok (names, g) => .ok (name :: names, g)
      else fail .invalidKeyStart e
    | _ => .ok ([name], d)
termination_by c.rest.length

end Verbatim.DataReader

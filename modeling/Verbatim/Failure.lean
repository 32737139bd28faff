import Verbatim.Item.Edit
import Verbatim.Parsing

/-!
# Failures

Everything that an operation on documents can report, with its wording.
-/

namespace Verbatim

inductive Failure where
  /-- An operation that does not fit what it is applied to. -/
  | misfit (what : String)
  | parse (e : ParseFailure)
  | options (e : OptionError)
  | wrongOptions (expected : OptionGroup) (received : String)
  | render (e : RenderError)
  | convert (e : ConvertError)
  | edit (e : EditError)
  | path (e : PathError)
  | span (e : SpanError)
  | detach (e : DetachError)
  | consumed
  | rootNotTable (kind : String)
  | notRoot (kind : String)

def wrongOptionsMessage (converter expected received : String) : String :=
  converter ++ " expected options of type '" ++ expected ++ "' but received '" ++ received ++ "'."

def consumedMessage : String := "ImDocument was consumed by into_mut() and can no longer be used"

def Failure.message : Failure → String
  | .misfit what => what
  | .parse e => e.message
  | .options e => e.message
  | .wrongOptions expected received => wrongOptionsMessage "toml" expected.name received
  | .render e => e.message
  | .convert e => e.message
  | .edit e => e.message
  | .path (.missing name) => Text.quoted name
  | .path .outOfRange => "list index out of range"
  | .path .misfit => "path"
  | .span e => e.message
  | .detach e => e.message
  | .consumed => consumedMessage
  | .rootNotTable kind => "root should always be a table, found " ++ kind
  | .notRoot kind => "Document root must be a Table, got " ++ kind

/-- The options that a caller asks for. -/
inductive OptionsArgument where
  | unset
  /-- Some values, the rest by default. -/
  | values (given : List (String × OptionValue))
  /-- The defaults of a named group, which may be another one. -/
  | ofKind (kind : String)

/-- The options of a group that a caller asks for. -/
def OptionsArgument.resolve (g : OptionGroup) : OptionsArgument → Except Failure OptionSet
  | .unset => .ok (.defaults g)
  | .values given => (OptionSet.make g given).mapError .options
  | .ofKind kind => if kind == g.name then .ok (.defaults g) else .error (.wrongOptions g kind)

end Verbatim

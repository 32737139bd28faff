import Verbatim.Text.Encoding

/-!
# Output

Written text goes to a file or to a stream. Files and binary streams take bytes, text streams take the text; line ends are
never changed.
-/

namespace Verbatim

/-- Where text goes. -/
inductive OutputTarget where
  | file
  | binaryStream
  | textStream
  /-- A stream of unknown type with the mode it was opened in, if that is known. -/
  | stream (mode : Option String)
  | other (kind : String)
  deriving Repr, DecidableEq

/-- What arrives at a target. -/
inductive Delivery where
  | text (s : String)
  | bytes (bs : List UInt8)
  deriving Repr, DecidableEq

inductive DeliveryError where
  | unknownEncoding (name : String)
  | encode (e : Text.EncodeError)
  | unsupported (kind : String)
  deriving Repr, DecidableEq

def DeliveryError.message : DeliveryError → String
  | .unknownEncoding name => "unknown encoding: " ++ name
  | .encode e => e.message
  | .unsupported kind => "Unsupported output type: <class '" ++ kind ++ "'>"

def encodeText (encoding text : String) : Except DeliveryError (List UInt8) :=
  match Text.Encoding.ofName? encoding with
  | none => .error (.unknownEncoding encoding)
  | some e =>
    match e.encode text.toList with
    | .ok bs => .ok bs
    | .error e => .error (.encode e)

namespace OutputTarget

/-- Whether a target takes bytes; a stream of unknown type does if its mode says so. -/
def isBinary : OutputTarget → Bool
  | .file | .binaryStream => true
  | .stream (some mode) => mode.toList.contains 'b'
  | .textStream | .stream none | .other _ => false

end OutputTarget

def deliver (text : String) (encoding : String) (target : OutputTarget) : Except DeliveryError Delivery :=
  match target with
  | .other kind => .error (.unsupported kind)
  | t => if t.isBinary then (encodeText encoding text).map .bytes else .ok (.text text)

end Verbatim

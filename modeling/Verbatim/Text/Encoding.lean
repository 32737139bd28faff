import Verbatim.Text.Quoted

/-!
# Text encodings

Bytes and texts in five encodings. Decoding reports the first fault, encoding the first run of characters that have no
bytes.
-/

namespace Verbatim.Text

inductive Encoding where
  /-- One to four bytes for a character. -/
  | utf8
  /-- The same with a mark at the head, which is dropped in reading. -/
  | utf8Marked
  /-- One byte for each of the first 256 characters. -/
  | latin1
  /-- One byte for each of the first 128 characters. -/
  | ascii
  /-- Units of two bytes, the lower one first. -/
  | utf16le
  deriving Repr, DecidableEq

inductive DecodeError where
  | invalidStart
  | invalidContinuation
  | unexpectedEnd
  | outOfRange
  | truncated
  | illegalUnit
  | unpairedUnit
  deriving Repr, DecidableEq

def DecodeError.message : DecodeError → String
  | .invalidStart => "invalid start byte"
  | .invalidContinuation => "invalid continuation byte"
  | .unexpectedEnd => "unexpected end of data"
  | .outOfRange => "ordinal not in range(128)"
  | .truncated => "truncated data"
  | .illegalUnit => "illegal encoding"
  | .unpairedUnit => "illegal UTF-16 surrogate"

/-- Characters that an encoding has no bytes for: the encoding, the first one, where it stands and how many follow each
other. -/
structure EncodeError where
  codec : String
  bound : Nat
  char : Char
  start : Nat
  count : Nat
  deriving Repr, DecidableEq

def EncodeError.message (e : EncodeError) : String :=
  let reason := "ordinal not in range(" ++ toString e.bound ++ ")"
  if e.count = 1 then
    "'" ++ e.codec ++ "' codec can't encode character '" ++ String.ofList (escapedCode e.char.toNat) ++
      "' in position " ++ toString e.start ++ ": " ++ reason
  else
    "'" ++ e.codec ++ "' codec can't encode characters in position " ++ toString e.start ++ "-" ++
      toString (e.start + e.count - 1) ++ ": " ++ reason

namespace Encoding

/-- A name in lower case, with everything that is no letter, digit or point read as a separator. -/
def normalName (name : String) : String :=
  let chars := name.toList.map fun c => if c.isAlphanum || c == '.' then c.toLower else ' '
  let words := (chars.splitBy fun a b => (a == ' ') == (b == ' ')).filter fun w => w.head? != some ' '
  String.ofList (['_'].intercalate words)

def ofName? (name : String) : Option Encoding :=
  match normalName name with
  | "utf_8" | "utf8" | "u8" | "utf" | "cp65001" | "utf8_ucs2" | "utf8_ucs4" => some .utf8
  | "utf_8_sig" | "utf8_sig" => some .utf8Marked
  | "latin_1" | "latin1" | "iso_8859_1" | "iso8859_1" | "iso8859" | "8859" | "cp819" | "latin" | "l1" | "ibm819"
  | "iso_ir_100" | "csisolatin1" | "iso_8859_1_1987" => some .latin1
  | "ascii" | "us_ascii" | "646" | "us" | "ansi_x3.4_1968" | "ansi_x3.4_1986" | "ansi_x3_4_1968" | "cp367" | "csascii"
  | "ibm367" | "iso646_us" | "iso_646.irv_1991" | "iso_ir_6" => some .ascii
  | "utf_16_le" | "utf_16le" | "unicodelittleunmarked" => some .utf16le
  | _ => none

def isContinuation (b : UInt8) : Bool := 0x80 ≤ b.toNat && b.toNat < 0xc0

def continuationBits (b : UInt8) : Nat := b.toNat - 0x80

/-- The first continuation byte that a leading byte allows: some ranges would spell a character the long way. -/
def allowsSecond (lead second : Nat) : Bool :=
  if lead = 0xe0 then 0xa0 ≤ second && second < 0xc0
  else if lead = 0xed then 0x80 ≤ second && second < 0xa0
  else if lead = 0xf0 then 0x90 ≤ second && second < 0xc0
  else if lead = 0xf4 then 0x80 ≤ second && second < 0x90
  else 0x80 ≤ second && second < 0xc0

def decodeUtf8 : List UInt8 → Except DecodeError (List Char)
  | [] => .ok []
  | a :: rest =>
    let n := a.toNat
    if n < 0x80 then do return Char.ofNat n :: (← decodeUtf8 rest)
    else if n < 0xc2 ∨ 0xf5 ≤ n then .error .invalidStart
    else if n < 0xe0 then
      match rest with
      | [] => .error .unexpectedEnd
      | b :: rest =>
        if isContinuation b then do
          return Char.ofNat ((n - 0xc0) * 64 + continuationBits b) :: (← decodeUtf8 rest)
        else .error .invalidContinuation
    else if n < 0xf0 then
      match rest with
      | [] => .error .unexpectedEnd
      | [b] => if allowsSecond n b.toNat then .error .unexpectedEnd else .error .invalidContinuation
      | b :: c :: rest =>
        if allowsSecond n b.toNat && isContinuation c then do
          return Char.ofNat ((n - 0xe0) * 4096 + continuationBits b * 64 + continuationBits c) :: (← decodeUtf8 rest)
        else .error .invalidContinuation
    else
      match rest with
      | [] => .error .unexpectedEnd
      | [b] => if allowsSecond n b.toNat then .error .unexpectedEnd else .error .invalidContinuation
      | [b, c] =>
        if allowsSecond n b.toNat && isContinuation c then .error .unexpectedEnd else .error .invalidContinuation
      | b :: c :: d :: rest =>
        if allowsSecond n b.toNat && isContinuation c && isContinuation d then do
          let code := (n - 0xf0) * 262144 + continuationBits b * 4096 + continuationBits c * 64 + continuationBits d
          return Char.ofNat code :: (← decodeUtf8 rest)
        else .error .invalidContinuation

/-- The characters of bytes below a bound. -/
def decodeBytes (bound : Nat) : List UInt8 → Except DecodeError (List Char)
  | [] => .ok []
  | a :: rest =>
    if a.toNat < bound then do return Char.ofNat a.toNat :: (← decodeBytes bound rest) else .error .outOfRange

/-- The characters of units of two bytes, the lower one first. -/
def decodeUnits : List UInt8 → Except DecodeError (List Char)
  | [] => .ok []
  | [_] => .error .truncated
  | a :: b :: rest =>
    let unit := b.toNat * 256 + a.toNat
    if unit < 0xd800 ∨ 0xe000 ≤ unit then do return Char.ofNat unit :: (← decodeUnits rest)
    else if 0xdc00 ≤ unit then .error .illegalUnit
    else
      match rest with
      | [] | [_] => .error .unexpectedEnd
      | c :: d :: rest =>
        let second := d.toNat * 256 + c.toNat
        if 0xdc00 ≤ second ∧ second < 0xe000 then do
          return Char.ofNat (0x10000 + (unit - 0xd800) * 1024 + (second - 0xdc00)) :: (← decodeUnits rest)
        else .error .unpairedUnit

/-- Bytes without the mark at their head. -/
def dropMark : List UInt8 → List UInt8
  | 0xef :: 0xbb :: 0xbf :: rest => rest
  | bytes => bytes

def decode : Encoding → List UInt8 → Except DecodeError (List Char)
  | .utf8, bytes => decodeUtf8 bytes
  | .utf8Marked, bytes => decodeUtf8 (dropMark bytes)
  | .latin1, bytes => decodeBytes 256 bytes
  | .ascii, bytes => decodeBytes 128 bytes
  | .utf16le, bytes => decodeUnits bytes

/-- The bytes of a character, one to four. -/
def utf8Bytes (c : Char) : List UInt8 :=
  let n := c.toNat
  if n < 0x80 then [n.toUInt8]
  else if n < 0x800 then [(0xc0 + n / 64).toUInt8, (0x80 + n % 64).toUInt8]
  else if n < 0x10000 then [(0xe0 + n / 4096).toUInt8, (0x80 + n / 64 % 64).toUInt8, (0x80 + n % 64).toUInt8]
  else
    [(0xf0 + n / 262144).toUInt8, (0x80 + n / 4096 % 64).toUInt8, (0x80 + n / 64 % 64).toUInt8,
      (0x80 + n % 64).toUInt8]

/-- The two or four bytes of a character. -/
def unitBytes (c : Char) : List UInt8 :=
  let n := c.toNat
  let unit (u : Nat) : List UInt8 := [(u % 256).toUInt8, (u / 256).toUInt8]
  if n < 0x10000 then unit n
  else unit (0xd800 + (n - 0x10000) / 1024) ++ unit (0xdc00 + (n - 0x10000) % 1024)

/-- One byte for each character below a bound. -/
def encodeBytes (codec : String) (bound pos : Nat) : List Char → Except EncodeError (List UInt8)
  | [] => .ok []
  | c :: rest =>
    if c.toNat < bound then do return c.toNat.toUInt8 :: (← encodeBytes codec bound (pos + 1) rest)
    else .error ⟨codec, bound, c, pos, (rest.takeWhile fun x => bound ≤ x.toNat).length + 1⟩

def encodeUtf8 (text : List Char) : List UInt8 := text.flatMap utf8Bytes

def encode : Encoding → List Char → Except EncodeError (List UInt8)
  | .utf8, text => .ok (encodeUtf8 text)
  | .utf8Marked, text => .ok (0xef :: 0xbb :: 0xbf :: encodeUtf8 text)
  | .latin1, text => encodeBytes "latin-1" 256 0 text
  | .ascii, text => encodeBytes "ascii" 128 0 text
  | .utf16le, text => .ok (text.flatMap unitBytes)

end Encoding

end Verbatim.Text

import Verbatim.CommandLine.Basic

/-!
# Reading arguments

Each argument is first taken for a switch, an operand or the mark that ends the switches. The name of a switch may be
shortened as long as it stays unique, its argument may be attached to it, and one-letter switches may be bundled. Operands
and switches may alternate.
-/

namespace Verbatim.CommandLine

/-! ## Tokens -/

structure SwitchUse where
  switch : Switch
  isLong : Bool
  attached : Option (List Char) := none

/-- What an argument is taken for. -/
inductive Token where
  /-- An operand, or the argument of a switch. -/
  | operand (text : String)
  /-- The mark after which there are no switches. -/
  | separator
  /-- A switch, if it is a known one. -/
  | switch (text : String) (use : Option SwitchUse)

namespace Token

def text : Token → String
  | .operand text => text
  | .separator => "--"
  | .switch text _ => text

def isSwitch : Token → Bool
  | .switch .. => true
  | .operand _ | .separator => false

end Token

def isLongName : List Char → Bool
  | '-' :: '-' :: _ => true
  | _ => false

/-- A text cut at its first equals sign, if it has one. -/
def cutAtEquals (cs : List Char) : List Char × Option (List Char) :=
  match cs.dropWhile (· != '=') with
  | [] => (cs, none)
  | _ :: after => (cs.takeWhile (· != '='), some after)

/-- Whether a text is a negative number: digits, perhaps with a point among them. A line feed at the end does not count. -/
def isNegativeNumber : List Char → Bool
  | '-' :: rest =>
    let body := if rest.getLast? = some '\n' then rest.dropLast else rest
    let fraction := body.dropWhile Text.isDecimalDigit
    match fraction with
    | [] => !body.isEmpty
    | '.' :: digits => !digits.isEmpty && digits.all Text.isDecimalDigit
    | _ => false
  | _ => false

namespace Grammar

/-- The switches that an argument may stand for, with their names: those whose names it begins, and the one-letter switch
that begins it. -/
def abbreviations (g : Grammar) (cs : List Char) : List (String × SwitchUse) :=
  if isLongName cs then
    let (head, attached) := cutAtEquals cs
    (g.table.filter fun (n, _) => head.isPrefixOf n.toList).map fun (n, s) => (n, ⟨s, true, attached⟩)
  else
    g.table.filterMap fun (n, s) =>
      if n.toList == cs.take 2 then some (n, ⟨s, false, some (cs.drop 2)⟩)
      else if cs.isPrefixOf n.toList then some (n, ⟨s, isLongName n.toList, none⟩)
      else none

/-- The switch whose full name an argument gives, alone or before an equals sign. -/
def fullyNamed? (g : Grammar) (cs : List Char) : Option SwitchUse :=
  match g.named? (String.ofList cs) with
  | some s => some ⟨s, isLongName cs, none⟩
  | none =>
    match cutAtEquals cs with
    | (head, some after) => (g.named? (String.ofList head)).map fun s => ⟨s, isLongName head, some after⟩
    | (_, none) => none

def token (g : Grammar) (arg : String) : Except Refusal Token :=
  match arg.toList with
  | '-' :: c :: rest =>
    let cs := '-' :: c :: rest
    match g.fullyNamed? cs with
    | some use => .ok (.switch arg (some use))
    | none =>
      match g.abbreviations cs with
      | [(_, use)] => .ok (.switch arg (some use))
      -- an unknown switch may be one of a command, so it is kept as such
      | [] =>
        if isNegativeNumber cs || cs.contains ' ' then .ok (.operand arg) else .ok (.switch arg none)
      | uses => .error (.ambiguous arg (uses.map Prod.fst))
  | _ => .ok (.operand arg)

def tokens (g : Grammar) : List String → Except Refusal (List Token)
  | [] => .ok []
  | "--" :: args => .ok (.separator :: args.map .operand)
  | arg :: args =>
    match g.token arg with
    | .error e => .error e
    | .ok t => (g.tokens args).map (t :: ·)

/-! ## Switches -/

/-- The switches in one argument, each with its attached argument. Behind a one-letter switch that needs no argument
stand more of them. -/
def unbundled (g : Grammar) (s : Switch) (isLong : Bool) (attached : List Char) :
    Except Refusal (List (Switch × Option String)) :=
  if s.takesArgument then .ok [(s, some (String.ofList attached))]
  else
    match attached with
    | [] => .error (.ignored s.label "")
    | c :: rest =>
      match if isLong then none else g.named? (String.ofList ['-', c]) with
      | none => .error (.ignored s.label (String.ofList attached))
      | some t =>
        match rest with
        | [] => .ok [(s, none), (t, none)]
        | _ => (g.unbundled t false rest).map ((s, none) :: ·)

def uses (g : Grammar) (u : SwitchUse) : Except Refusal (List (Switch × Option String)) :=
  match u.attached with
  | none => .ok [(u.switch, none)]
  | some cs => g.unbundled u.switch u.isLong cs

end Grammar

/-- The switches with their arguments, and the tokens behind them. A switch whose argument is not attached takes the
operand that follows. -/
def supplied : List (Switch × Option String) → List Token →
    Except Refusal (List (Switch × Option String) × List Token)
  | [], ts => .ok ([], ts)
  | (s, arg) :: us, ts =>
    if s.takesArgument && arg.isNone then
      match ts with
      | .operand text :: ts => (supplied us ts).map fun (vs, ts) => ((s, some text) :: vs, ts)
      | _ => .error (.expected s.label)
    else (supplied us ts).map fun (vs, ts) => ((s, arg) :: vs, ts)

def isChoice (v : Plain) (choices : List Plain) : Bool := choices.any fun c => c.equals nofun v

/-- The value of a text for a switch, whatever the choices are. -/
def Switch.valueOf (s : Switch) (text : String) : Except Refusal Plain :=
  match s.effect with
  | .keep c _ =>
    match c.valueOf? text with
    | some v => .ok v
    | none => .error (.invalidValue s.label c.name text)
  | .set _ | .announce _ => .ok (.string text)

def Switch.called (s : Switch) (arg : Option String) : Except Refusal Plain :=
  match s.effect with
  | .keep _ choices =>
    match s.valueOf (arg.getD "") with
    | .error e => .error e
    | .ok v =>
      match choices with
      | some cs => if isChoice v cs then .ok v else .error (.invalidChoice s.label v cs)
      | none => .ok v
  | .set b => .ok (.boolean b)
  | .announce text => .ok (.string text)

/-- The value of a switch that was not called. A text counts as if it had been given, but is not held to the choices. -/
def Switch.omitted (s : Switch) : Except Refusal Plain :=
  match s.default with
  | .string text => s.valueOf text
  | d => .ok d

/-! ## Operands -/

/-- The operands at the head of some tokens, up to the next switch, and what follows. -/
def operandRun : List Token → List String × List Token
  | .operand text :: ts => let (texts, rest) := operandRun ts; (text :: texts, rest)
  | .separator :: ts => operandRun ts
  | ts => ([], ts)

def dropSeparators : List Token → List Token
  | .separator :: ts => dropSeparators ts
  | ts => ts

/-- What an operand takes from the head of some tokens, if it can take it: its values, and what follows. Each operand may
begin with a separator that does not count, so a second separator stands for an operand only behind a first one. -/
def Operand.take? (o : Operand) (ts : List Token) : Option (List String × List Token) :=
  match o.extent, dropSeparators ts with
  | .one, .operand text :: rest =>
    let skipped := rest.length + 1 < ts.length
    some (if text == "--" && !skipped then [] else [text], dropSeparators rest)
  | .many, .operand text :: rest => let (texts, rest) := operandRun rest; some (text :: texts, rest)
  | .command _, .operand _ :: _ => some (ts.map Token.text, [])
  | _, _ => none

/-- The operands taken from the head of some tokens, those that still wait, and what follows. -/
def takeOperands : List Operand → List Token → List (Operand × List String) × List Operand × List Token
  | [], ts => ([], [], ts)
  | o :: os, ts =>
    match o.take? ts with
    | none => ([], o :: os, ts)
    | some (texts, rest) =>
      let (taken, waiting, rest) := takeOperands os rest
      ((o, texts) :: taken, waiting, rest)

/-- The value of an operand; without a text it is the empty list. -/
def Operand.value (o : Operand) (texts : List String) : Except Refusal Plain :=
  match o.extent with
  | .one =>
    match texts with
    | text :: _ => .ok (.string text)
    | [] => .ok (.list [])
  | .many => .ok (.list (texts.map .string))
  | .command names =>
    let name := texts.headD ""
    if names.contains name then .ok (.string name)
    else .error (.invalidChoice o.label (.string name) (names.map .string))

/-! ## Calls -/

/-- What the arguments have given so far. -/
structure Progress where
  values : List (String × Plain) := []
  waiting : List Operand
  /-- The arguments that nobody took. -/
  extras : List String := []
  /-- The arguments behind the name of a command. -/
  commandArgs : List String := []

namespace Progress

/-- The values of some taken operands are noted. -/
def withTaken (p : Progress) : List (Operand × List String) → Except Refusal Progress
  | [] => .ok p
  | (o, texts) :: taken =>
    match o.value texts with
    | .error e => .error e
    | .ok v =>
      let commandArgs := match o.extent with
        | .command _ => texts.drop 1
        | .one | .many => p.commandArgs
      withTaken { p with values := (o.dest, v) :: p.values, commandArgs } taken

/-- The operands are taken as far as they go; what follows them is returned. -/
def withOperands (p : Progress) (ts : List Token) : Except Refusal (Progress × List Token) :=
  let (taken, waiting, rest) := takeOperands p.waiting ts
  ({ p with waiting }.withTaken taken).map fun p => (p, rest)

/-- The values of some called switches are noted, unless one of them ends the program. -/
def withSwitches (program : String) (p : Progress) : List (Switch × Option String) → Except Stop Progress
  | [] => .ok p
  | (s, arg) :: us =>
    match s.effect, s.called arg with
    | .announce text, _ => .error (.announced text)
    | _, .error e => .error (.refused program e)
    | _, .ok v => withSwitches program { p with values := (s.dest, v) :: p.values } us

end Progress

namespace Grammar

def readTokens (g : Grammar) (p : Progress) (ts : List Token) : Except Stop Progress :=
  if !ts.any Token.isSwitch then
    -- only operands are left: what they do not take, nobody takes
    match p.withOperands ts with
    | .error e => .error (.refused g.program e)
    | .ok (p, rest) => .ok { p with extras := p.extras ++ rest.map Token.text }
  else
    match ts with
    | [] => .ok p
    | .switch text none :: rest => g.readTokens { p with extras := p.extras ++ [text] } rest
    | .switch _ (some u) :: rest =>
      match (g.uses u).bind fun us => supplied us rest with
      | .error e => .error (.refused g.program e)
      | .ok (us, after) =>
        match p.withSwitches g.program us with
        | .error e => .error e
        | .ok p => if _h : after.length ≤ rest.length then g.readTokens p after else .ok p
    | t :: rest =>
      match p.withOperands (t :: rest) with
      | .error e => .error (.refused g.program e)
      | .ok (p, after) =>
        -- without an operand that waits, the token is left over
        if _h : after.length ≤ rest.length then g.readTokens p after
        else g.readTokens { p with extras := p.extras ++ [t.text] } rest
termination_by ts.length

/-- The values of the switches that were not called. -/
def omissions (values : List (String × Plain)) : List Switch → Except Refusal (List (String × Plain))
  | [] => .ok []
  | s :: ss =>
    match s.effect, values.lookup s.dest with
    | .announce _, _ | _, some _ => omissions values ss
    | _, none =>
      match s.omitted with
      | .error e => .error e
      | .ok v => (omissions values ss).map ((s.dest, v) :: ·)

/-- The values that the arguments give; the arguments that nobody took are left over. -/
def readKnown (g : Grammar) (args : List String) : Except Stop Progress :=
  match (g.tokens args).mapError (.refused g.program) with
  | .error e => .error e
  | .ok ts =>
    match g.readTokens { waiting := g.operands } ts with
    | .error e => .error e
    | .ok p =>
      match omissions p.values g.switches with
      | .error e => .error (.refused g.program e)
      | .ok omitted =>
        if p.waiting.isEmpty then .ok { p with values := p.values ++ omitted }
        else .error (.refused g.program (.missing (p.waiting.map Operand.label)))

/-- The values, unless some arguments were taken by nobody. -/
def finished (g : Grammar) (values : List (String × Plain)) (extras : List String) :
    Except Stop (List (String × Plain)) :=
  if extras.isEmpty then .ok values else .error (.refused g.program (.unrecognized extras))

def read (g : Grammar) (args : List String) : Except Stop (List (String × Plain)) :=
  match g.readKnown args with
  | .error e => .error e
  | .ok p => g.finished p.values p.extras

/-- The values that the arguments give to a program with commands. -/
def readWith (g : Grammar) (commands : List (String × Grammar)) (dest : String) (args : List String) :
    Except Stop (List (String × Plain)) :=
  match g.readKnown args with
  | .error e => .error e
  | .ok p =>
    match p.values.lookup dest with
    | some (.string name) =>
      match commands.lookup name with
      | none => g.finished p.values p.extras
      | some command =>
        match command.readKnown p.commandArgs with
        | .error e => .error e
        | .ok q => g.finished (q.values ++ p.values) (p.extras ++ q.extras)
    | _ => g.finished p.values p.extras

end Grammar

end Verbatim.CommandLine

import FlutterScaffold.Shell.Extent

/-!
# Words

A word of a command line is a sequence of parts: text, which remembers whether it was quoted, and
expansions. An expansion of a parameter may say what to do when the parameter has no value, or which
end of its value to take away. What an expansion holds in turn is kept as text and read when it is
carried out.
-/

namespace FlutterScaffold.Shell

/-- What becomes of the value of a parameter. -/
inductive Use where
  /-- It is taken as it is. -/
  | value
  /-- It is counted. -/
  | length
  /-- An alternative stands in when there is no value; `orEmpty` lets an empty value count as none.
  -/
  | orElse (orEmpty : Bool) (alternative : Text)
  /-- The same, and the parameter keeps the alternative. -/
  | orAssign (orEmpty : Bool) (alternative : Text)
  /-- Without a value the shell ends with a message. -/
  | orFail (orEmpty : Bool) (message : Text)
  /-- The alternative is taken when there is a value. -/
  | andThen (orEmpty : Bool) (alternative : Text)
  /-- What matches a pattern is taken away from one end. -/
  | trim (atEnd longest : Bool) (pattern : Text)
  /-- It is spelled in no way that the shell knows. -/
  | invalid
  deriving DecidableEq, Repr

/-- A part of a word. -/
inductive Part where
  /-- Bytes that stand for themselves. -/
  | text (bytes : Text) (quoted : Bool)
  /-- What is made of the value of a parameter. -/
  | parameter (name : Text) (use : Use) (quoted : Bool)
  /-- The value of a sum. -/
  | sum (expression : Text) (quoted : Bool)
  /-- The output of a script. -/
  | output (script : Text) (quoted : Bool)
  deriving DecidableEq, Repr

/-- A word, as its parts. -/
abbrev Word := List Part

/-- Bytes that may stand in the name of a variable behind its first one. -/
def isNameByte (b : Byte) : Bool := Byte.isAlnum b || b == byte '_'

/-- Bytes that the name of a variable may start with. -/
def isNameStart (b : Byte) : Bool := isNameByte b && !Byte.isDigit b

/-- Whether a text can name a variable. -/
def isName (t : Text) : Bool := t.head?.any isNameStart && t.all isNameByte

/-- Parameters of the shell itself that are spelled with one byte. -/
def isOwnParameter (b : Byte) : Bool := (lit "@*#?$!-").contains b

/-- The name of a parameter at the start of a text in braces. -/
def parameterName (t : Text) : Text :=
  match t with
  | [] => []
  | b :: _ =>
    if Byte.isDigit b then t.takeWhile Byte.isDigit
    else if isOwnParameter b then [b]
    else if isNameStart b then t.takeWhile isNameByte
    else []

/-- What the text behind the name of a parameter asks for. -/
def useOf (rest : Text) : Use :=
  match rest with
  | [] => .value
  | b :: more =>
    let twice := more.head? = some b
    let pattern := if twice then more.tail else more
    if b = byte '%' then .trim true twice pattern
    else if b = byte '#' then .trim false twice pattern
    else
      let orEmpty := b == byte ':'
      match if orEmpty then more else rest with
      | [] => .invalid
      | c :: word =>
        if c = byte '-' then .orElse orEmpty word
        else if c = byte '=' then .orAssign orEmpty word
        else if c = byte '?' then .orFail orEmpty word
        else if c = byte '+' then .andThen orEmpty word
        else .invalid

/-- The parameter that a text in braces names, and what becomes of its value. -/
def parameterOf (t : Text) : Text × Use :=
  match t with
  | [] => ([], .invalid)
  | b :: more =>
    if b = byte '#' && !more.isEmpty && parameterName more = more then (more, .length)
    else
      let name := parameterName t
      if name.isEmpty then ([], .invalid) else (name, useOf (t.drop name.length))

/-- A script between grave accents without the backslashes that kept it together. -/
def unescapeGraves (quoted : Bool) : Text → Text
  | [] => []
  | [b] => [b]
  | b :: c :: rest =>
    if b = Byte.backslash &&
        (c = Byte.backslash || c = byte '$' || c = grave || (quoted && c = Byte.doubleQuote)) then
      c :: unescapeGraves quoted rest
    else b :: unescapeGraves quoted (c :: rest)

/-- What stands at a byte that can start an expansion. -/
inductive Found where
  /-- The byte stands for itself. -/
  | plain
  /-- An expansion that is not closed. -/
  | unclosed
  /-- An expansion, and how many bytes it takes behind the byte. -/
  | part (part : Part) (bytes : Nat)
  deriving DecidableEq, Repr

/-- What a dollar sign starts, told from the text behind it. -/
def foundAtDollar (quoted : Bool) (rest : Text) : Found :=
  match openedBy? quoted rest with
  | some (frame, opening) =>
    let inner := rest.drop opening
    match extent? frame inner with
    | none => .unclosed
    | some n =>
      let part : Part :=
        match frame with
        | .sum => .sum (inner.take (n - 2)) quoted
        | .script => .output (inner.take (n - 1)) quoted
        | _ =>
          let (name, use) := parameterOf (inner.take (n - 1))
          .parameter name use quoted
      .part part (opening + n)
  | none =>
    match rest with
    | [] => .plain
    | b :: _ =>
      if Byte.isDigit b || isOwnParameter b then .part (.parameter [b] .value quoted) 1
      else if isNameStart b then
        let name := rest.takeWhile isNameByte
        .part (.parameter name .value quoted) name.length
      else .plain

/-- What a grave accent starts, told from the text behind it. -/
def foundAtGrave (quoted : Bool) (rest : Text) : Found :=
  match extent? .graves rest with
  | none => .unclosed
  | some n => .part (.output (unescapeGraves quoted (rest.take (n - 1))) quoted) n

/-- What a byte starts. -/
def foundAt (quoted : Bool) (b : Byte) (rest : Text) : Found :=
  if b = byte '$' then foundAtDollar quoted rest
  else if b = grave then foundAtGrave quoted rest
  else .plain

end FlutterScaffold.Shell

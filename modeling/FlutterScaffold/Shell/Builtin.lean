import FlutterScaffold.Shell.Session
import FlutterScaffold.Shell.Format
import FlutterScaffold.Shell.Condition
import FlutterScaffold.Shell.Input

/-!
# Commands of the shell itself

Some commands are carried out by the shell itself. Each takes its arguments and makes a new session
of the old one, or has a complaint; what a complaint leads to depends on the command, since the
mistakes of some commands end the shell.
-/

namespace FlutterScaffold.Shell

open Disk (Place)

/-- What a command makes of its arguments, or what it complains about. -/
abbrev Builtin := List Text → Session → Except Text Session

/-- The number that an argument of a command spells. -/
def numberArgument (t : Text) : Except Text Nat :=
  match natural? t with
  | some n => if n < 0x80000000 then .ok n else .error (lit "Illegal number: " ++ t)
  | none => .error (lit "Illegal number: " ++ t)

/-- The complaint about an option. -/
def illegalOption (t : Text) : Text := lit "Illegal option " ++ t

/-- The letters of the options that arguments start with, and the arguments behind them. Two dashes
end the options. -/
def leadingOptions (allowed : String) : List Text → Except Text (Text × List Text)
  | [] => .ok ([], [])
  | argument :: more =>
    match argument with
    | dash :: letter :: letters =>
      if dash != byte '-' then .ok ([], argument :: more)
      else if letter = dash && letters.isEmpty then .ok ([], more)
      else
        match (letter :: letters).find? fun b => !(lit allowed).contains b with
        | some b => .error (illegalOption [dash, b])
        | none => do
          let (others, rest) ← leadingOptions allowed more
          return (letter :: letters ++ others, rest)
    | _ => .ok ([], argument :: more)

/-! ## Output and conditions -/

/-- Prints what a format makes of the arguments. -/
def printfCommand : Builtin := fun arguments s => do
  let (_, operands) ← leadingOptions "" arguments
  match operands with
  | [] => .error (lit "usage: printf format [arg ...]")
  | format :: more =>
    let printing := printf format more
    let complained := printing.complaints.foldl (fun s t => s.complain (lit "printf: " ++ t)) s
    let said := complained.say (lit "printf") printing.output
    return if printing.status = 0 then said else said.withStatus printing.status

/-- Weighs a condition; the name that ends in a bracket asks for another one as its last
argument. -/
def testCommand (bracket : Bool) : Builtin := fun arguments s =>
  if bracket && arguments.getLast? != some (lit "]") then .error (lit "missing ]")
  else do
    let value ← condition s.host (if bracket then arguments.dropLast else arguments)
    return s.withStatus (if value then 0 else 1)

/-! ## Variables and arguments -/

/-- A text cut at its first equals sign. -/
def nameAndValue (t : Text) : Text × Option Text :=
  let name := t.takeWhile (· != byte '=')
  (name, if name.length = t.length then none else some (t.drop (name.length + 1)))

/-- Does something to each variable that the arguments name, giving it a value first when one is
written behind the name. -/
def eachVariable (mark : Text → Session → Session) (arguments : List Text) (s : Session) :
    Except Text Session := do
  let (_, operands) ← leadingOptions "p" arguments
  operands.foldlM
    (fun s t =>
      let (name, value) := nameAndValue t
      if !isName name then .error (name ++ lit ": bad variable name")
      else
        let readOnly := (s.binding? name).any (·.readOnly)
        match value with
        | some value => if readOnly then .error (name ++ lit ": is read only")
          else .ok (mark name (s.assign name value))
        | none => .ok (mark name s))
    (s.withStatus 0)

/-- Makes a variable known to the shells that are started. -/
def exportCommand : Builtin := eachVariable fun name s => s.exportVariable name

/-- Keeps a variable from being changed. -/
def readonlyCommand : Builtin := eachVariable fun name s =>
  s.setVariable name (some { (s.binding? name).getD { name } with readOnly := true })

/-- Makes a variable one of the function that runs. -/
def localCommand : Builtin := fun arguments s =>
  if s.calls = 0 then .error (lit "not in a function")
  else
    arguments.foldlM
      (fun s t =>
        let (name, value) := nameAndValue t
        if !isName name then .error (name ++ lit ": bad variable name")
        else
          let hidden := s.hide name
          .ok (match value with
            | some value => hidden.assign name value
            | none => hidden))
      (s.withStatus 0)

/-- Takes away variables or functions. -/
def unsetCommand : Builtin := fun arguments s => do
  let (letters, operands) ← leadingOptions "fv" arguments
  operands.foldlM
    (fun s name =>
      if letters.getLast? = some (byte 'f') then
        .ok { s with functions := s.functions.filter (·.1 != name) }
      else if !isName name then .error (name ++ lit ": bad variable name")
      else if (s.binding? name).any (·.readOnly) then .error (name ++ lit ": is read only")
      else .ok (s.setVariable name none))
    (s.withStatus 0)

/-- Drops arguments of the shell from the front. -/
def shiftCommand : Builtin := fun arguments s => do
  let n ← match arguments with
    | [] => .ok 1
    | t :: _ => numberArgument t
  if s.arguments.length < n then .error (lit "can't shift that many")
  else return { s.withStatus 0 with arguments := s.arguments.drop n }

/-- The options with one set by its letter, or taken back. -/
def Options.set (on : Bool) (options : Options) (letter : Byte) : Except Text Options :=
  if letter = byte 'e' then .ok { options with stopOnFailure := on }
  else if letter = byte 'u' then .ok { options with stopOnUnset := on }
  else if letter = byte 'f' then .ok { options with noMatching := on }
  else if letter = byte 'x' then .ok { options with trace := on }
  else if letter = byte 'n' then .ok { options with noRunning := on }
  else if letter = byte 'a' then .ok { options with exportAll := on }
  else if letter = byte 'C' then .ok { options with noOverwriting := on }
  else if (lit "IimsvVEbp").contains letter then .ok options
  else .error (illegalOption [if on then byte '-' else byte '+', letter])

/-- The names of options, with their letters. -/
def optionNames : List (String × Char) :=
  [("errexit", 'e'), ("noglob", 'f'), ("nounset", 'u'), ("xtrace", 'x'), ("ignoreeof", 'I'),
    ("monitor", 'm'), ("noexec", 'n'), ("verbose", 'v'), ("noclobber", 'C'), ("allexport", 'a'),
    ("notify", 'b')]

/-- The options with one set by its name, or taken back. -/
def Options.setByName (on : Bool) (options : Options) (name : Text) : Except Text Options :=
  match optionNames.find? (lit ·.1 = name) with
  | some (_, letter) => options.set on (byte letter)
  | none => .error (illegalOption ((if on then lit "-o " else lit "+o ") ++ name))

/-- What the arguments of a shell say. -/
structure Start where
  options : Options
  /-- The letters that are no options but belong to the start. -/
  letters : Text := []
  /-- The arguments behind the options; none when there is not even a mark of their end. -/
  operands : Option (List Text) := none
  deriving DecidableEq, Repr

/-- Reads options from the front of some arguments; `own` are the letters of the start. -/
def Start.read (own : String) (start : Start) : List Text → Except Text Start
  | [] => .ok start
  | argument :: more =>
    let sign := argument.headD 0
    let letters := argument.tail
    if sign != byte '-' && sign != byte '+' then
      .ok { start with operands := some (argument :: more) }
    else if argument = lit "--" then .ok { start with operands := some more }
    else if letters.isEmpty then
      .ok { start with operands := if more.isEmpty then none else some more }
    else
      let on := sign = byte '-'
      let (owned, others) := letters.partition (lit own).contains
      match (others.filter (· != byte 'o')).foldlM (Options.set on) start.options with
      | .error complaint => .error complaint
      | .ok options =>
        let start := { start with options := options, letters := start.letters ++ owned }
        match others.contains (byte 'o'), more with
        | true, name :: rest =>
          match options.setByName on name with
          | .error complaint => .error complaint
          | .ok options => Start.read own { start with options := options } rest
        | _, more => Start.read own start more

/-- Sets options of the shell and its arguments, as far as some are given. -/
def setCommand : Builtin := fun arguments s => do
  let start ← Start.read "" { options := s.options } arguments
  return { s.withStatus 0 with
    options := start.options
    arguments := start.operands.getD s.arguments }

/-- Reads a line of input into variables. -/
def readCommand : Builtin := fun arguments s => do
  let (letters, names) ← leadingOptions "rp" arguments
  let names := if letters.contains (byte 'p') then names.tail else names
  if names.isEmpty then .error (lit "arg count")
  match names.find? (!isName ·) with
  | some name => .error (name ++ lit ": bad variable name")
  | none =>
    let (line, rest, ended) := inputLine (letters.contains (byte 'r')) (s.unread 0)
    let fields := inputFields s.separators names.length line
    let filled := (names.zip (fields ++ List.replicate names.length [])).foldl
      (fun s (name, value) => s.assign name value) (s.leave 0 rest)
    return if filled.goesOn then filled.withStatus (if ended then 0 else 1) else filled

/-- Hands the next option among the arguments to a variable. -/
def getoptsCommand : Builtin := fun arguments s =>
  match arguments with
  | specification :: name :: more =>
    let words := if more.isEmpty then s.arguments else more
    let next := ((s.parameter? (lit "OPTIND")).bind natural?).getD 1
    let position := if next = s.scanned.next then s.scanned else { next := max next 1 }
    let found := scanOption specification position words
    let s :=
      match found.complaint with
      | some complaint => s.print 2 (complaint ++ [Byte.newline])
      | none => s
    let s :=
      if found.isEnd then s
      else
        match found.argument with
        | some argument => s.assign (lit "OPTARG") argument
        | none => s.setVariable (lit "OPTARG") none
    let s := s.assign (lit "OPTIND") (lit (toString found.position.next))
    if !isName name then .error (name ++ lit ": bad variable name")
    else
      let s := s.assign name [found.letter]
      .ok { s.withStatus (if found.isEnd then 1 else 0) with scanned := found.position }
  | _ => .error (lit "Usage: getopts optstring var [arg...]")

/-! ## Directories -/

/-- The place a path names when it is followed by its names alone: `..` leads to the parent however
the directory was reached. -/
def logicalPlace (here : Place) (p : Path) : Place :=
  p.names.foldl
    (fun place name =>
      if name = Path.dot then place
      else if name = Path.dotDot then place.tail
      else name :: place)
    (if p.isAbsolute then [] else here)

/-- Goes to another directory. -/
def cdCommand : Builtin := fun arguments s => do
  let (letters, operands) ← leadingOptions "LP" arguments
  let home := ((s.binding? (lit "HOME")).bind (·.value)).getD []
  let back := ((s.binding? (lit "OLDPWD")).bind (·.value)).getD []
  let operand := operands.headD home
  let target := if operand = lit "-" then back else operand
  let place := logicalPlace s.place target
  let found := if target.isEmpty then Path.dot else Disk.pathOf place
  match Disk.locate s.host.tree s.host.here true found with
  | .ok ⟨real, some .directory⟩ =>
    let place := if target.isEmpty then s.place
      else if letters.getLast? = some (byte 'P') then real else place
    let moved := { s with place := place, host := { s.host with here := real } }
    let moved := moved.assign (lit "OLDPWD") (Disk.pathOf s.place)
    let moved := moved.assign (lit "PWD") (Disk.pathOf place)
    return if operand = lit "-" then moved.say (lit "cd") (Disk.pathOf place ++ [Byte.newline])
      else moved.withStatus 0
  | _ => .error (lit "can't cd to " ++ operand)

/-- Prints the current directory. -/
def pwdCommand : Builtin := fun arguments s => do
  let (letters, _) ← leadingOptions "LP" arguments
  let place := if letters.getLast? = some (byte 'P') then s.host.here else s.place
  return s.say (lit "pwd") (Disk.pathOf place ++ [Byte.newline])

/-! ## Control -/

/-- The status that an argument gives, or the last status. -/
def statusArgument (arguments : List Text) (s : Session) : Except Text Nat :=
  match arguments with
  | [] => .ok s.status
  | t :: _ => numberArgument t

/-- Ends the shell. -/
def exitCommand : Builtin := fun arguments s => do return s.exit (← statusArgument arguments s)

/-- Ends the function that runs. -/
def returnCommand : Builtin := fun arguments s => do
  return { s with status := ← statusArgument arguments s, control := .leaveFunction }

/-- Leaves loops, or goes on with their next round. -/
def loopCommand (control : Nat → Control) : Builtin := fun arguments s => do
  let n ← match arguments with
    | [] => .ok 1
    | t :: _ => numberArgument t
  if n = 0 then .error (lit "Illegal number: 0")
  else if s.loops = 0 then return s.withStatus 0
  else return { s.withStatus 0 with control := control (min n s.loops) }

/-- Prints what is to be run at the end, or changes it. -/
def trapCommand : Builtin := fun arguments s => do
  let (_, operands) ← leadingOptions "" arguments
  let isEnd (t : Text) : Bool := t = lit "EXIT" || t = lit "0"
  match operands with
  | [] =>
    return s.say (lit "trap") <|
      match s.farewell with
      | none => []
      | some t =>
        let quoted := t.flatMap fun b => if b = Byte.quote then lit "'\"'\"'" else [b]
        lit "trap -- '" ++ quoted ++ lit "' EXIT\n"
  | [t] => return if isEnd t then { s.withStatus 0 with farewell := none } else s.withStatus 0
  | action :: events =>
    if events.any isEnd then
      return { s.withStatus 0 with farewell := if action = lit "-" then none else some action }
    else return s.withStatus 0

/-! ## All of them -/

/-- Commands that keep the assignments before them, and whose mistakes end the shell. -/
def specialBuiltins : List (Text × Builtin) :=
  [(":", fun _ s => .ok (s.withStatus 0)), ("break", loopCommand .leaveLoop),
    ("continue", loopCommand .nextRound), ("exit", exitCommand), ("export", exportCommand),
    ("local", localCommand), ("readonly", readonlyCommand), ("return", returnCommand),
    ("set", setCommand), ("shift", shiftCommand), ("trap", trapCommand),
    ("unset", unsetCommand)].map fun (name, command) => (lit name, command)

/-- Commands that are no part of the language but carried out by the shell. -/
def builtins : List (Text × Builtin) :=
  [("[", testCommand true), ("cd", cdCommand),
    ("echo", fun arguments s => .ok (s.say (lit "echo") (echo arguments))),
    ("false", fun _ s => .ok (s.withStatus 1)), ("printf", printfCommand), ("pwd", pwdCommand),
    ("read", readCommand), ("test", testCommand false), ("true", fun _ s => .ok (s.withStatus 0)),
    ("getopts", getoptsCommand), ("hash", fun _ s => .ok (s.withStatus 0)),
    ("umask", fun _ s => .ok (s.withStatus 0)),
    ("wait", fun _ s => .ok (s.withStatus 0))].map fun (name, command) => (lit name, command)

/-- Commands of the language that take scripts. -/
def scriptBuiltins : List Text := [".", "eval", "exec"].map lit

/-- Whether a name is that of a command which keeps the assignments before it. -/
def isSpecialBuiltin (name : Text) : Bool :=
  (specialBuiltins.lookup name).isSome || scriptBuiltins.contains name

/-- Whether a name is that of a command of the shell. -/
def isBuiltin (name : Text) : Bool :=
  isSpecialBuiltin name || (builtins.lookup name).isSome ||
    name = lit "command" || name = lit "type"

end FlutterScaffold.Shell

import FlutterScaffold.Shell.Redirection
import FlutterScaffold.Shell.Builtin
import FlutterScaffold.Shell.Utility
import FlutterScaffold.Shell.Quote

/-!
# Running scripts

A script is run in a session by its structure: connectives and conditionals look at the status of
the command before, a pipe hands the output of one command to the next, and a command is looked up
among the commands of the shell, its functions, and the programs of the system. As a script need not
end, it is given a bound on how deep its run may nest; a run beyond the bound ends with a status of
its own. A script is `tested` where its failure is looked at, so that it does not end the shell.
-/

namespace FlutterScaffold.Shell

open Disk (Host)

/-- The status of a run that exceeds its bound. -/
def exhausted : Nat := 124

/-! ## Between the commands -/

/-- The session behind a command, the failure of which may end the shell. -/
def Session.settle (s : Session) (tested : Bool) : Session :=
  if s.options.stopOnFailure && !tested && s.status != 0 && s.goesOn then s.exit s.status else s

/-- The session behind a part of a loop, and whether the loop goes on. -/
def Session.afterRound (s : Session) : Session × Bool :=
  let on := { s with control := .next }
  match s.control with
  | .next => (s, true)
  | .nextRound (n + 2) => ({ s with control := .nextRound (n + 1) }, false)
  | .nextRound _ => (on, true)
  | .leaveLoop (n + 2) => ({ s with control := .leaveLoop (n + 1) }, false)
  | .leaveLoop _ => (on, false)
  | .leaveFunction | .exit => (s, false)

/-- The session behind what a function ends. -/
def Session.afterCall (s : Session) : Session :=
  if s.control = .leaveFunction then { s with control := .next } else s

/-- Runs a loop. -/
def inLoop (run : Session → Session) (s : Session) : Session :=
  { run { s with loops := s.loops + 1 } with loops := s.loops }

/-- How many functions a run may be in. -/
def maxCalls : Nat := 1000

/-- Runs a function with arguments. -/
def inFunction (arguments : List Text) (run : Session → Session) (s : Session) : Session :=
  if s.calls = maxCalls then
    let bound := lit "(" ++ lit (toString maxCalls) ++ lit ")"
    s.abort (lit "Maximum function recursion depth " ++ bound ++ lit " reached")
  else
    let inner := s.restoring fun s =>
      run { s with arguments := arguments, loops := 0, calls := s.calls + 1 }
    { inner.afterCall with arguments := s.arguments, loops := s.loops, calls := s.calls }

/-- Runs a command of the shell. -/
def runBuiltin (special : Bool) (name : Text) (command : Builtin) (arguments : List Text)
    (s : Session) : Session :=
  match command arguments s with
  | .ok s => s
  | .error complaint =>
    let complaint := name ++ lit ": " ++ complaint
    if special then s.abort complaint else s.fail complaint

/-- A word that declares a variable, with the home directory for a tilde in its value. -/
def declaration (s : Session) (w : Word) : Word :=
  match assignment? w with
  | some (name, value) => .text (name ++ lit "=") false :: withHome s true value
  | none => w

/-! ## Looking up commands -/

/-- Words of the language itself. -/
def keywords : List Text :=
  ["!", "case", "do", "done", "elif", "else", "esac", "fi", "for", "if", "in", "then", "until",
    "while", "\x7b", "\x7d"].map lit

/-- Whether the system has a program of a name. -/
def isProgram (s : Session) (name : Text) : Bool :=
  (s.host.commands.lookup name).isSome || (utilities.lookup name).isSome || name = lit "sh"

/-- The program that a path names. -/
def programAt? (p : Path) : Option Text :=
  if !p.isAbsolute then none
  else
    match p.names with
    | [dir, name] => if dir = lit "bin" then some name else none
    | [above, dir, name] => if above = lit "usr" && dir = lit "bin" then some name else none
    | _ => none

/-- What a name means to the shell, in a word or in a sentence; none when it means nothing. -/
def meaningOf? (s : Session) (verbose : Bool) (name : Text) : Option Text :=
  let say (sentence : String) : Text := if verbose then name ++ lit sentence else name
  let found (p : Path) : Text := if verbose then name ++ lit " is " ++ p else p
  if keywords.contains name then some (say " is a shell keyword")
  else if isSpecialBuiltin name then some (say " is a special shell builtin")
  else if (s.functions.lookup name).isSome then some (say " is a shell function")
  else if isBuiltin name then some (say " is a shell builtin")
  else if name.contains Byte.slash then
    if (programAt? name).any (isProgram s) || s.host.exists? name then some (found name) else none
  else if isProgram s name then some (found (lit "/usr/bin/" ++ name))
  else none

/-- Tells what names mean. -/
def describe (verbose : Bool) (names : List Text) (s : Session) : Session :=
  names.foldl
    (fun s name =>
      match meaningOf? s verbose name with
      | some t => { s.print 1 (t ++ [Byte.newline]) with status := s.status }
      | none =>
        (if verbose then s.print 1 (name ++ lit ": not found\n") else s).withStatus 127)
    (s.withStatus 0)

/-- Prints a command before it runs. -/
def Session.traced (s : Session) (channel : Channel) (words : List Text) : Session :=
  if s.options.trace && !words.isEmpty then
    s.printTo channel (lit "+ " ++ List.intercalate (lit " ") words ++ [Byte.newline])
  else s

/-! ## New shells -/

/-- The options that the first line of a script gives to its shell. -/
def firstLineOptions (script : Text) : List Text :=
  match (Text.cut Byte.newline script).headD [] with
  | first :: second :: line =>
    if first = byte '#' && second = byte '!' then
      let path := line.dropWhile Byte.isBlank
      let behind := (path.dropWhile (!Byte.isBlank ·)).dropWhile Byte.isBlank
      if behind.isEmpty then [] else [Text.trimEnd Byte.isMargin behind]
    else []
  | _ => []

/-- A new shell: its session and its script, or why it does not start. -/
def startShell (arguments : List Text) (s : Session) : Except Text (Session × Text) := do
  let start ← Start.read "csl" { options := {} } arguments
  let operands := start.operands.getD []
  let child (self : Text) (arguments : List Text) : Session :=
    { s.child self arguments with options := start.options }
  if start.letters.contains (byte 'c') then
    match operands with
    | [] => .error (lit "-c requires an argument")
    | script :: more => return (child (more.headD (lit "sh")) more.tail, script)
  else if operands.isEmpty || start.letters.contains (byte 's') then
    return ((child (lit "sh") operands).leave 0 [], s.unread 0)
  else
    let p := operands.headD []
    if s.host.isDirectory p then .error (openComplaint false p .isDirectory)
    else
      match s.host.readFile p with
      | .ok script => return (child p operands.tail, script)
      | .error refusal => .error (openComplaint false p refusal)

/-! ## Evaluation -/

mutual

/-- Runs a script. -/
def eval : Nat → Bool → Script → Session → Session
  | 0, _, _, s => s.exit exhausted
  | fuel + 1, tested, script, s =>
    if !s.goesOn || s.options.noRunning then s
    else
      match script with
      | .done => s
      | .sequence first second => eval fuel tested second (eval fuel tested first s)
      | .andThen first second =>
        let s := eval fuel true first s
        if s.status = 0 then eval fuel tested second s else s
      | .orElse first second =>
        let s := eval fuel true first s
        if s.status = 0 then s else eval fuel tested second s
      | .negate script =>
        let s := eval fuel true script s
        if s.goesOn then s.withStatus (if s.status = 0 then 1 else 0) else s
      | .pipe first second =>
        let (t, upper) := Session.collect (evalAlone fuel tested first) s
        let s := s.absorb upper
        (s.absorb (Session.fed t (evalAlone fuel tested second) s)).settle tested
      | .conditional test yes no =>
        let s := eval fuel true test s
        if !s.goesOn then s
        else if s.status = 0 then eval fuel tested yes s
        else if no = .done then s.withStatus 0
        else eval fuel tested no s
      | .loop onSuccess test body => inLoop (evalLoop fuel tested onSuccess test body 0) s
      | .forEach name words body =>
        let (fields, s) :=
          match words with
          | some words => expandWords (substitute fuel) words s
          | none => (s.arguments, s)
        if s.goesOn then inLoop (evalEach fuel tested name fields body 0) s else s
      | .choice subject arms =>
        let (t, s) := expandText (substitute fuel) (withHome s false subject) s
        evalArms fuel tested t arms s
      | .arm .. => s
      | .define name body =>
        { s.withStatus 0 with functions := (name, body) :: s.functions.filter (·.1 != name) }
      | .background script =>
        (s.absorb (Session.fed [] (evalAlone fuel tested script) s)).withStatus 0
      | .subshell script => (s.absorb (evalAlone fuel tested script s)).settle tested
      | .redirected script redirects =>
        match redirectAll (substitute fuel) redirects s with
        | .error refused => { refused with streams := s.streams }
        | .ok inner => { eval fuel tested script inner with streams := s.streams }
      | .simple assignments words redirects =>
        let (fields, inner) := evalWords fuel words { s with substituted := 0 }
        if !inner.goesOn then inner
        else
          match redirectAll (substitute fuel) redirects inner with
          | .error refused =>
            let refused := { refused with streams := s.streams }
            if fields.head?.any isSpecialBuiltin then refused.exit refused.status
            else refused.settle tested
          | .ok inner =>
            let done := evalCommand fuel tested (s.channel 2) assignments fields inner
            let kept := if fields = [lit "exec"] then done.streams else s.streams
            { done with streams := kept }.settle tested

/-- Expands the words of a command. What a command that declares variables is given as assignments
is not cut to fields. -/
def evalWords : Nat → List Word → Session → List Text × Session
  | 0, _, s => ([], s.exit exhausted)
  | _ + 1, [], s => ([], s)
  | fuel + 1, w :: more, s =>
    let (first, s) := expandWords (substitute fuel) [w] s
    if first = [lit "export"] || first = [lit "readonly"] || first = [lit "local"] then
      let step (state : List Text × Session) (w : Word) : List Text × Session :=
        let (fields, s) := state
        if (assignment? w).isSome then
          let (t, s) := expandText (substitute fuel) (declaration s w) s
          (fields ++ [t], s)
        else
          let (more, s) := expandWords (substitute fuel) [w] s
          (fields ++ more, s)
      more.foldl step (first, s)
    else
      let (others, s) := expandWords (substitute fuel) more s
      (first ++ others, s)

/-- Runs a loop; `last` is the status of its body so far. -/
def evalLoop : Nat → Bool → Bool → Script → Script → Nat → Session → Session
  | 0, _, _, _, _, _, s => s.exit exhausted
  | fuel + 1, tested, onSuccess, test, body, last, s =>
    let s := eval fuel true test s
    if !s.goesOn then
      let (s, again) := s.afterRound
      if again then evalLoop fuel tested onSuccess test body last s
      else if s.goesOn then s.withStatus last
      else s
    else if decide (s.status = 0) = onSuccess then
      let (s, again) := (eval fuel tested body s).afterRound
      if again then evalLoop fuel tested onSuccess test body s.status s else s
    else s.withStatus last

/-- Runs a body once for each field; `last` is the status of the body so far. -/
def evalEach : Nat → Bool → Text → List Text → Script → Nat → Session → Session
  | 0, _, _, _, _, _, s => s.exit exhausted
  | _ + 1, _, _, [], _, last, s => s.withStatus last
  | fuel + 1, tested, name, field :: more, body, _, s =>
    let (s, again) := (eval fuel tested body (s.assign name field)).afterRound
    if again then evalEach fuel tested name more body s.status s else s

/-- Runs the first arm that fits a text. -/
def evalArms : Nat → Bool → Text → Script → Session → Session
  | 0, _, _, _, s => s.exit exhausted
  | fuel + 1, tested, t, arms, s =>
    if !s.goesOn then s
    else
      match arms with
      | .arm patterns body others =>
        let step (state : Bool × Session) (w : Word) : Bool × Session :=
          let (found, s) := state
          if found || !s.goesOn then state
          else
            let (pattern, s) := expandPattern (substitute fuel) w s
            (pattern.fits t, s)
        let (found, s) := patterns.foldl step (false, s)
        if !found then evalArms fuel tested t others s
        else if body = .done then s.withStatus 0
        else eval fuel tested body s
      | _ => s.withStatus 0

/-- Makes assignments one after the other, the way `set` does, and tells how they were spelled. -/
def evalAssignments :
    Nat → (Text → Text → Session → Session) → List (Text × Word) → Session → List Text × Session
  | 0, _, _, s => ([], s.exit exhausted)
  | _ + 1, _, [], s => ([], s)
  | fuel + 1, set, (name, w) :: more, s =>
    let (value, s) := expandText (substitute fuel) (withHome s true w) s
    if !s.goesOn then ([], s)
    else
      let (spelled, s) := evalAssignments fuel set more (set name value s)
      ((name ++ lit "=" ++ value) :: spelled, s)

/-- Runs a command by its fields, after the assignments before it. Assignments stay behind a command
that is special and where there is no command. The command is traced to a channel. -/
def evalCommand : Nat → Bool → Channel → List (Text × Word) → List Text → Session → Session
  | 0, _, _, _, _, s => s.exit exhausted
  | fuel + 1, tested, channel, assignments, fields, s =>
    match fields with
    | [] =>
      let (spelled, s) :=
        evalAssignments fuel (fun name value s => s.assign name value) assignments s
      if s.goesOn then (s.traced channel spelled).withStatus s.substituted else s
    | name :: arguments =>
      let run (spelled : List Text) (s : Session) : Session :=
        if !s.goesOn then s
        else evalNamed fuel tested name arguments (s.traced channel (spelled ++ fields))
      if isSpecialBuiltin name then
        let (spelled, s) :=
          evalAssignments fuel (fun name value s => s.assign name value) assignments s
        run spelled s
      else if assignments.isEmpty then run [] s
      else
        let set (name value : Text) (s : Session) : Session :=
          ((s.hide name).assign name value).exportVariable name
        s.restoring fun s =>
          let (spelled, s) := evalAssignments fuel set assignments s
          run spelled s

/-- Runs a command by its name. -/
def evalNamed : Nat → Bool → Text → List Text → Session → Session
  | 0, _, _, _, s => s.exit exhausted
  | fuel + 1, tested, name, arguments, s =>
    if name.contains Byte.slash then evalProgram fuel [] name arguments s
    else if name = lit "eval" then
      let script := List.intercalate (lit " ") arguments
      evalText fuel tested script (s.withStatus 0)
    else if name = lit "." then evalFile fuel true arguments s
    else if name = lit "exec" then
      match arguments with
      | [] => s.withStatus 0
      | program :: more =>
        let done := evalProgram fuel (lit "exec: ") program more s
        { done.exit done.status with farewell := none }
    else
      match specialBuiltins.lookup name with
      | some command => runBuiltin true name command arguments s
      | none =>
        match s.functions.lookup name with
        | some body => inFunction arguments (eval fuel tested body) s
        | none => evalPlain fuel tested name arguments s

/-- Runs a command that is no function; its mistakes do not end the shell. -/
def evalPlain : Nat → Bool → Text → List Text → Session → Session
  | 0, _, _, _, s => s.exit exhausted
  | fuel + 1, tested, name, arguments, s =>
    if name = lit "command" then
      match leadingOptions "pvV" arguments with
      | .error complaint => s.fail (name ++ lit ": " ++ complaint)
      | .ok (letters, operands) =>
        if letters.any (lit "vV").contains then
          describe (letters.contains (byte 'V')) (operands.take 1) s
        else
          match operands with
          | [] => s.withStatus 0
          | program :: more => evalPlain fuel tested program more s
    else if name = lit "type" then describe true arguments s
    else if name = lit "eval" || name = lit "exec" then evalNamed fuel tested name arguments s
    else if name = lit "." then evalFile fuel false arguments s
    else
      match specialBuiltins.lookup name, builtins.lookup name with
      | some command, _ | none, some command => runBuiltin false name command arguments s
      | none, none => evalProgram fuel [] name arguments s

/-- Runs a program in a process of its own. A complaint about its name starts with a mark. -/
def evalProgram : Nat → Text → Text → List Text → Session → Session
  | 0, _, _, _, s => s.exit exhausted
  | fuel + 1, mark, name, arguments, s =>
    let known := if name.contains Byte.slash then programAt? name else some name
    match known.bind fun name => utilities.lookup name with
    | some utility => s.absorb (utility arguments s)
    | none =>
      if known = some (lit "sh") then
        match startShell arguments s with
        | .error complaint =>
          (s.print 2 (lit "sh: 0: " ++ complaint ++ [Byte.newline])).withStatus 2
        | .ok (child, script) => s.absorb (evalShell fuel script child)
      else
        match known.bind fun name => s.host.commands.lookup name with
        | some script =>
          match Start.read "" { options := {} } (firstLineOptions script) with
          | .error complaint =>
            (s.print 2 (lit "sh: 0: " ++ complaint ++ [Byte.newline])).withStatus 2
          | .ok start =>
            let child := { s.child name arguments with options := start.options }
            s.absorb (evalShell fuel script child)
        | none =>
          if name.contains Byte.slash && s.host.exists? name then
            (s.complain (mark ++ name ++ lit ": Permission denied")).withStatus 126
          else (s.complain (mark ++ name ++ lit ": not found")).withStatus 127

/-- Runs the script in a file in this shell. -/
def evalFile : Nat → Bool → List Text → Session → Session
  | 0, _, _, s => s.exit exhausted
  | fuel + 1, special, arguments, s =>
    let refuse (complaint : Text) : Session :=
      let complaint := lit ".: " ++ complaint
      if special then s.abort complaint else s.fail complaint
    match arguments with
    | [] => s.withStatus 0
    | p :: _ =>
      if !p.contains Byte.slash then refuse (p ++ lit ": not found")
      else
        match s.host.readFile p with
        | .ok script => (evalText fuel false script (s.withStatus 0)).afterCall
        | .error refusal => refuse (openComplaint false p refusal)

/-- Runs a text as a script of a shell of its own, with what is to be run at the end. -/
def evalShell : Nat → Text → Session → Session
  | 0, _, s => s.exit exhausted
  | fuel + 1, script, s => evalFarewell fuel (evalText fuel false script s)

/-- Runs a script in a shell of its own. -/
def evalAlone : Nat → Bool → Script → Session → Session
  | 0, _, _, s => s.exit exhausted
  | fuel + 1, tested, script, s => evalFarewell fuel (eval fuel tested script s.alone)

/-- Runs what is to be run at the end of a shell. -/
def evalFarewell : Nat → Session → Session
  | 0, s => s.exit exhausted
  | fuel + 1, s =>
    match s.farewell with
    | none => s
    | some farewell =>
      let last := evalText fuel false farewell { s with control := .next, farewell := none }
      if last.control = .exit then last else last.withStatus s.status

/-- Runs a text as a script in this shell, line by line up to the first that is not well formed. -/
def evalText : Nat → Bool → Text → Session → Session
  | 0, _, _, s => s.exit exhausted
  | fuel + 1, tested, script, s =>
    let (scripts, broken) := scriptsOf script
    let s := scripts.foldl (fun s script => eval fuel tested script s) s
    if broken && s.goesOn then s.abort (lit "Syntax error") else s

/-- Runs a text as a script in a shell of its own for its output. -/
def substitute : Nat → Text → Session → Text × Session
  | 0, _, s => ([], s.exit exhausted)
  | fuel + 1, script, s =>
    let (t, inner) := Session.collect (evalShell fuel script) s.alone
    (t, { s.absorb inner with status := s.status, substituted := inner.status % 256 })

end

/-- How deep a run may nest. -/
def maxDepth : Nat := 1000000

/-- The result of a program. -/
structure Result where
  exitCode : Nat
  output : Text
  deriving DecidableEq, Repr

/-- Runs a program with arguments, in a directory when one is given. -/
def run (arguments : List Text) (directory : Option Path) (host : Host) : Result × Host :=
  let s : Session := { host := host, place := host.here }
  let (output, done) :=
    Session.collect (evalShell maxDepth (commandLine arguments directory)) (s.child (lit "sh") [])
  (⟨done.status % 256, output⟩, { host with tree := done.host.tree })

end FlutterScaffold.Shell

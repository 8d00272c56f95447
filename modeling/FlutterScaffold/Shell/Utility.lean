import FlutterScaffold.Shell.Session
import FlutterScaffold.Shell.Concatenation
import FlutterScaffold.Shell.Format
import FlutterScaffold.Shell.Condition
import FlutterScaffold.Shell.Builtin

/-!
# Programs of the system

The programs that scripts find on every machine: they show, make and remove files. Each reads its
options wherever they stand among its arguments and works on the others in turn; where a request is
refused it complains and goes on with the next.
-/

namespace FlutterScaffold.Shell

open Disk (Host Refusal)

/-- A program that runs in a session without changing its shell. -/
abbrev Utility := List Text → Session → Session

/-! ## Options and complaints -/

/-- The options that a program knows: their letters, and the letters behind their long names. -/
structure OptionTable where
  letters : String
  names : List (String × Char) := []

/-- A text between single quotes. -/
def between (t : Text) : Text := Byte.quote :: t ++ [Byte.quote]

namespace OptionTable

/-- The letter behind a long name, which may be cut short as long as it stands for one option. -/
def letterOf (table : OptionTable) (name : Text) : Except Text Byte :=
  match table.names.find? (lit ·.1 = name) with
  | some (_, letter) => .ok (byte letter)
  | none =>
    match table.names.filter fun (long, _) => name.isPrefixOf (lit long) with
    | [(_, letter)] => .ok (byte letter)
    | [] => .error (lit "unrecognized option " ++ between (lit "--" ++ name))
    | several =>
      .error (lit "option " ++ between (lit "--" ++ name) ++ lit " is ambiguous; possibilities:" ++
        several.flatMap fun (long, _) => lit " " ++ between (lit "--" ++ lit long))

/-- The letters of the options among some arguments, and the other arguments. -/
def read (table : OptionTable) : List Text → Except Text (Text × List Text)
  | [] => .ok ([], [])
  | argument :: more =>
    match argument with
    | dash :: letter :: letters =>
      if dash != byte '-' then do
        let (others, operands) ← table.read more
        return (others, argument :: operands)
      else if letter = dash then
        if letters.isEmpty then .ok ([], more)
        else do
          let letter ← table.letterOf letters
          let (others, operands) ← table.read more
          return (letter :: others, operands)
      else
        match (letter :: letters).find? fun b => !(lit table.letters).contains b with
        | some b => .error (lit "invalid option -- " ++ between [b])
        | none => do
          let (others, operands) ← table.read more
          return (letter :: letters ++ others, operands)
    | _ => do
      let (others, operands) ← table.read more
      return (others, argument :: operands)

end OptionTable

/-- A complaint of a program. -/
def Session.report (s : Session) (program : String) (complaint : Text) : Session :=
  (s.print 2 (lit program ++ lit ": " ++ complaint ++ [Byte.newline])).withStatus 1

/-- A complaint about how a program was called. -/
def Session.misuse (s : Session) (program : String) (complaint : Text) : Session :=
  let hint := lit "\nTry " ++ between (lit program ++ lit " --help") ++ lit " for more information."
  s.report program (complaint ++ hint)

/-- A program that reads its options and works on its operands. -/
def withOptions (program : String) (table : OptionTable)
    (work : Text → List Text → Session → Session) : Utility := fun arguments s =>
  match table.read arguments with
  | .error complaint => s.misuse program complaint
  | .ok (letters, operands) => work letters operands (s.withStatus 0)

/-- Carries out a request for an operand. -/
def attempt (program : String) (request : Host → Except Refusal Host) (complaint : Text)
    (s : Session) : Session :=
  match request s.host with
  | .ok host => { s with host := host }
  | .error refusal => s.report program (complaint ++ lit ": " ++ refusal.message)

/-! ## Showing files -/

/-- Shows a text in the output. -/
def present (display : Display) (t : Text) (state : Session × Shown) : Session × Shown :=
  let (s, shown) := state
  let (t, shown) := display.apply shown t
  if t.isEmpty then (s, shown)
  else
    match s.channel 1 with
    | .full => (s.report "cat" (lit "write error: " ++ Refusal.noSpace.message), shown)
    | .closed => (s.report "cat" (lit "standard output: Bad file descriptor"), shown)
    | _ => (s.print 1 t, shown)

/-- Whether a path names the file that the output leads to. -/
def isOutput (s : Session) (p : Path) : Bool :=
  match s.channel 1, Disk.locate s.host.tree s.host.here true p with
  | .file number, .ok ⟨place, some (.file content)⟩ =>
    s.host.tree.slot? place = some (.object number .file) && !content.isEmpty
  | _, _ => false

/-- Shows files one after the other; a dash stands for the input. -/
def concatenate (display : Display) (operands : List Path) (s : Session) : Session :=
  let add (state : Session × Shown) (p : Path) : Session × Shown :=
    let (s, shown) := state
    if p = lit "-" then present display (s.unread 0) (s.leave 0 [], shown)
    else if s.host.isDirectory p then
      (s.report "cat" (p ++ lit ": " ++ Refusal.isDirectory.message), shown)
    else
      match s.host.readFile p with
      | .error refusal => (s.report "cat" (p ++ lit ": " ++ refusal.message), shown)
      | .ok t =>
        if isOutput s p then (s.report "cat" (p ++ lit ": input file is output file"), shown)
        else present display t state
  (operands.foldl add (s, {})).1

/-- Shows files. -/
def cat : Utility :=
  withOptions "cat"
    { letters := "AbeEnstTuv"
      names := [("show-all", 'A'), ("number-nonblank", 'b'), ("show-ends", 'E'), ("number", 'n'),
        ("squeeze-blank", 's'), ("show-tabs", 'T'), ("show-nonprinting", 'v')] }
    fun letters operands =>
      concatenate (.ofLetters letters) (if operands.isEmpty then [lit "-"] else operands)

/-! ## Making files and directories -/

/-- The beginnings of a path that end with one of its names. -/
def beginnings (p : Path) : List Path :=
  ((List.range (p.length + 1)).map p.take).filter fun q =>
    !q.isEmpty && q.getLast? != some Byte.slash &&
      (q.length = p.length || p[q.length]? = some Byte.slash)

/-- Makes a directory and what is missing above it. -/
def makeAll (verbose : Bool) (p : Path) (s : Session) : Session :=
  let complaint (p : Path) : Text := lit "cannot create directory " ++ between p
  let make (state : Session × Bool) (q : Path) : Session × Bool :=
    let (s, failed) := state
    if failed || s.host.isDirectory q then state
    else
      match s.host.makeDirectory q with
      | .ok host =>
        let s := { s with host := host }
        let note := lit "mkdir: created directory " ++ between q ++ [Byte.newline]
        (if verbose then s.print 1 note else s, false)
      | .error refusal =>
        let refusal :=
          if refusal = .exists && q.length < (Text.trimEnd (· == Byte.slash) p).length then
            match s.host.status (q ++ Path.separator) with
            | .error other => other
            | .ok _ => refusal
          else refusal
        (s.report "mkdir" (complaint q ++ lit ": " ++ refusal.message), true)
  if p.isEmpty then s.report "mkdir" (complaint p ++ lit ": " ++ Refusal.noEntry.message)
  else ((beginnings p).foldl make (s, false)).1

/-- Makes directories. -/
def mkdir : Utility :=
  withOptions "mkdir" { letters := "pv", names := [("parents", 'p'), ("verbose", 'v')] }
    fun letters operands s =>
      let verbose := letters.contains (byte 'v')
      let make (s : Session) (p : Path) : Session :=
        if letters.contains (byte 'p') then makeAll verbose p s
        else
          match s.host.makeDirectory p with
          | .ok host =>
            let s := { s with host := host }
            let note := lit "mkdir: created directory " ++ between p ++ [Byte.newline]
            if verbose then s.print 1 note else s
          | .error refusal =>
            let complaint := lit "cannot create directory " ++ between p
            s.report "mkdir" (complaint ++ lit ": " ++ refusal.message)
      if operands.isEmpty then s.misuse "mkdir" (lit "missing operand") else operands.foldl make s

/-- Creates an empty file unless something stands there. -/
def createFile (p : Path) (host : Host) : Except Refusal Host :=
  match host.status p with
  | .ok _ => .ok host
  | .error .noEntry => host.writeFile p []
  | .error refusal => .error refusal

/-- Creates empty files. -/
def touch : Utility :=
  withOptions "touch" { letters := "acfm", names := [("no-create", 'c')] } fun letters operands s =>
    let create (s : Session) (p : Path) : Session :=
      let request (host : Host) : Except Refusal Host :=
        if letters.contains (byte 'c') then .ok host else createFile p host
      attempt "touch" request (lit "cannot touch " ++ between p) s
    if operands.isEmpty then s.misuse "touch" (lit "missing file operand")
    else operands.foldl create s

/-- Makes a link to a target, or gives a file a second name. -/
def linkTo (symbolic forced : Bool) (target p : Path) (s : Session) : Session :=
  let p := if s.host.isDirectory p then Path.join p (Path.fileName target) else p
  let word := if symbolic then lit "symbolic link " else lit "hard link "
  let make (link : Disk.Tree → Disk.Place → Disk.Tree) : Session :=
    let request (host : Host) : Except Refusal Host := do
      let spot ← Disk.locate host.tree host.here false p
      if spot.entry.isSome && (!forced || spot.entry = some .directory) then .error .exists
      else return { host with tree := link host.tree spot.place }
    attempt "ln" request (lit "failed to create " ++ word ++ between p) s
  if symbolic then make fun tree place => tree.put place (.link target)
  else
    match s.host.findObject target with
    | .ok slot => make fun tree place => tree.share place slot
    | .error .isDirectory =>
      s.report "ln" (between target ++ lit ": hard link not allowed for directory")
    | .error refusal =>
      s.report "ln" (lit "failed to access " ++ between target ++ lit ": " ++ refusal.message)

/-- Makes links. -/
def ln : Utility :=
  withOptions "ln" { letters := "sfn", names := [("symbolic", 's'), ("force", 'f')] }
    fun letters operands s =>
      let symbolic := letters.contains (byte 's')
      let forced := letters.contains (byte 'f')
      match operands with
      | [] => s.misuse "ln" (lit "missing file operand")
      | [target] => linkTo symbolic forced target Path.dot s
      | [target, p] => linkTo symbolic forced target p s
      | several =>
        several.dropLast.foldl
          (fun s target => linkTo symbolic forced target (several.getLast?.getD []) s) s

/-! ## Removing files and directories -/

/-- Removes a path and all below it. -/
def removeAll (p : Path) (host : Host) : Except Refusal Host := do
  let spot ← Disk.locate host.tree host.here false p
  if spot.entry.isNone then .error .noEntry
  else return { host with tree := host.tree.erase spot.place }

/-- Removes a directory that is empty. -/
def removeDirectory (p : Path) (host : Host) : Except Refusal Host := do
  match ← host.linkStatus p with
  | .directory => host.remove p
  | _ => .error .notDirectory

/-- Removes empty directories. -/
def rmdir : Utility :=
  withOptions "rmdir" { letters := "p", names := [("parents", 'p')] } fun letters operands s =>
    let remove (s : Session) (p : Path) : Session :=
      let paths := if letters.contains (byte 'p') then (beginnings p).reverse else [p]
      (paths.foldl
        (fun (s, failed) q =>
          if failed then (s, failed)
          else
            match removeDirectory q s.host with
            | .ok host => ({ s with host := host }, false)
            | .error refusal =>
              (s.report "rmdir"
                (lit "failed to remove " ++ between q ++ lit ": " ++ refusal.message), true))
        (s, false)).1
    if operands.isEmpty then s.misuse "rmdir" (lit "missing operand") else operands.foldl remove s

/-- Removes a file, or on demand a directory. -/
def removeOne (recursive emptyToo forced verbose : Bool) (s : Session) (p : Path) : Session :=
  let complaint := lit "cannot remove " ++ between p
  match s.host.linkStatus p with
  | .error refusal =>
    if forced && refusal.isAbsence then s
    else s.report "rm" (complaint ++ lit ": " ++ refusal.message)
  | .ok .directory =>
    if recursive && Host.endsInDots p then
      s.report "rm" (lit "refusing to remove '.' or '..' directory: skipping " ++ between p)
    else if recursive then attempt "rm" (removeAll p) complaint s
    else if emptyToo then attempt "rm" (removeDirectory p) complaint s
    else s.report "rm" (complaint ++ lit ": " ++ Refusal.isDirectory.message)
  | .ok _ =>
    let removed := attempt "rm" (·.remove p) complaint s
    if verbose && removed.status = 0 then
      removed.print 1 (lit "removed " ++ between p ++ [Byte.newline])
    else removed

/-- Removes files. -/
def rm : Utility :=
  withOptions "rm"
    { letters := "rRfvdi"
      names := [("recursive", 'r'), ("force", 'f'), ("verbose", 'v'), ("dir", 'd')] }
    fun letters operands s =>
      let has (letter : Char) : Bool := letters.contains (byte letter)
      if operands.isEmpty && !has 'f' then s.misuse "rm" (lit "missing operand")
      else operands.foldl (removeOne (has 'r' || has 'R') (has 'd') (has 'f') (has 'v')) s

/-! ## Printing -/

/-- Prints the arguments with a space between them; escapes have a meaning on demand only. -/
def plainEcho : List Text → Session → Session
  | arguments, s =>
    let isOption (t : Text) : Bool :=
      t.head? = some (byte '-') && 2 ≤ t.length && t.tail.all (lit "neE").contains
    let letters := ((arguments.takeWhile isOption).map List.tail).flatten
    let t := List.intercalate (lit " ") (arguments.dropWhile isOption)
    let escapes := (letters.filter fun b => b != byte 'n').getLast? = some (byte 'e')
    let (t, stopped) := if escapes then unescapeFrom 0 t else (t, false)
    let bare := letters.contains (byte 'n') || stopped
    s.say (lit "echo") (if bare then t else t ++ [Byte.newline])

/-- A command of the shell as a program of its own. -/
def asProgram (name : String) (command : Builtin) : Utility := fun arguments s =>
  match command arguments s with
  | .ok s => s
  | .error complaint =>
    let usage := if name = "printf" then 1 else 2
    (s.report name complaint).withStatus usage

/-- The programs of the system. -/
def utilities : List (Text × Utility) :=
  [("cat", cat), ("mkdir", mkdir), ("touch", touch), ("ln", ln), ("rmdir", rmdir), ("rm", rm),
    ("sleep", fun _ s => s.withStatus 0), ("chmod", fun _ s => s.withStatus 0),
    ("echo", plainEcho), ("true", fun _ s => s.withStatus 0), ("false", fun _ s => s.withStatus 1),
    ("printf", asProgram "printf" printfCommand), ("pwd", asProgram "pwd" pwdCommand),
    ("test", asProgram "test" (testCommand false)), ("[", asProgram "[" (testCommand true))].map
    fun (name, utility) => (lit name, utility)

end FlutterScaffold.Shell

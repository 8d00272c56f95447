import FlutterScaffold.Shell.Expansion

/-!
# Redirections

A redirection lets a stream lead to a file, to where another stream leads, or to lines given in the
script. Redirections are carried out in the order they are written, and the first that is refused
ends the command.
-/

namespace FlutterScaffold.Shell

open Disk (Refusal)

/-- What the shell says about a file that cannot be opened. -/
def openComplaint (create : Bool) (p : Path) (refusal : Refusal) : Text :=
  let reason :=
    if !refusal.isAbsence then refusal.message
    else if create then lit "Directory nonexistent"
    else lit "No such file"
  lit (if create then "cannot create " else "cannot open ") ++ p ++ lit ": " ++ reason

/-- Lets a stream print to a file, behind what it holds or in its stead. -/
def printToFile (stream : Nat) (append always : Bool) (p : Path) (s : Session) :
    Except Text Session :=
  match s.host.status p with
  | .ok (.device .null) => .ok (s.redirectTo stream .nowhere)
  | .ok (.device .full) => .ok (s.redirectTo stream .full)
  | status =>
    let old :=
      match status with
      | .ok (.file content) => some content
      | _ => none
    if old.isSome && !append && !always && s.options.noOverwriting then
      .error (openComplaint true p .exists)
    else
      match s.host.writeFile p (if append then old.getD [] else []) with
      | .error refusal => .error (openComplaint true p refusal)
      | .ok host =>
        match Disk.locate host.tree host.here true p with
        | .error refusal => .error (openComplaint true p refusal)
        | .ok spot =>
          match host.tree.slot? spot.place with
          | some (.object number .file) =>
            .ok ({ s with host := host }.redirectTo stream (.file number))
          | _ => .ok ({ s with host := host }.redirectTo stream .nowhere)

/-- Lets a stream read from a file. A directory can be opened, but nothing is read from it. -/
def readFromFile (stream : Nat) (p : Path) (s : Session) : Except Text Session :=
  match s.host.readFile p with
  | .ok t => .ok (s.readFrom stream t)
  | .error refusal => .error (openComplaint false p refusal)

/-- Lets a stream lead where another one does; a dash closes it. -/
def duplicate (stream : Nat) (target : Text) (s : Session) : Except Text Session :=
  if target = lit "-" then .ok (s.redirectTo stream .closed)
  else
    match natural? target with
    | none => .error (lit "Bad fd number")
    | some other =>
      match s.channel other with
      | .closed => .error (target ++ lit ": Bad file descriptor")
      | channel => .ok (s.redirectTo stream channel)

/-- Carries out a redirection to a target. -/
def redirect (r : Redirect) (target : Text) (s : Session) : Except Text Session :=
  match r.kind with
  | .write always => printToFile r.stream false always target s
  | .append => printToFile r.stream true true target s
  | .read => readFromFile r.stream target s
  | .duplicate => duplicate r.stream target s
  | .document _ => .ok (s.readFrom r.stream target)

/-- The text of a target. -/
def targetText (run : Substitute) (target : Target) (s : Session) : Text × Session :=
  match target with
  | .word w => expandText run w s
  | .lines body true => (body, s)
  | .lines body false => expandText run (partsOf .document body) s

/-- Carries out redirections in order; the session in which one was refused is an error. -/
def redirectAll (run : Substitute) : List Redirect → Session → Except Session Session
  | [], s => .ok s
  | r :: more, s =>
    let (target, s) := targetText run r.target s
    if !s.goesOn then .error s
    else
      match redirect r target s with
      | .error complaint => .error (s.fail complaint)
      | .ok s => redirectAll run more s

end FlutterScaffold.Shell

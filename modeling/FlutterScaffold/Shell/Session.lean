import FlutterScaffold.Shell.Script
import FlutterScaffold.Shell.Number
import FlutterScaffold.Shell.OptionScan
import FlutterScaffold.Disk.File

/-!
# Shell sessions

A session is the state of a shell: the host it works on, its variables, functions and arguments,
where its streams lead, the status of the last command and how the run goes on. What is printed goes
to numbered buffers, so that the output of a part of a script can be collected apart; what is read
comes from numbered sources, which are used up as they are read.
-/

namespace FlutterScaffold.Shell

open Disk (Host Place)

/-- A variable of a shell, which may be known without having a value. -/
structure Variable where
  name : Text
  value : Option Text := none
  /-- Whether the shells that are started know it too. -/
  exported : Bool := false
  readOnly : Bool := false
  deriving DecidableEq, Repr

/-- Where a stream leads. -/
inductive Channel where
  /-- Reads from a source. -/
  | source (index : Nat)
  /-- Prints to a buffer. -/
  | buffer (index : Nat)
  /-- Prints to a file, which is known by its number, behind what it holds. -/
  | file (number : Nat)
  /-- Prints to nobody. -/
  | nowhere
  /-- Has no room for anything that is printed. -/
  | full
  /-- Neither reads nor prints. -/
  | closed
  deriving DecidableEq, Repr

/-- How a run goes on. -/
inductive Control where
  | next
  /-- Behind the loop that is so many levels up. -/
  | leaveLoop (levels : Nat)
  /-- With the next round of the loop that is so many levels up. -/
  | nextRound (levels : Nat)
  /-- Behind the call of the function. -/
  | leaveFunction
  /-- Not at all. -/
  | exit
  deriving DecidableEq, Repr

/-- The options of a shell. -/
structure Options where
  /-- A command that fails ends the shell. -/
  stopOnFailure : Bool := false
  /-- A parameter without a value ends the shell. -/
  stopOnUnset : Bool := false
  /-- Fields are not matched with the names of files. -/
  noMatching : Bool := false
  /-- Each simple command is printed before it runs. -/
  trace : Bool := false
  /-- Commands are read but not run. -/
  noRunning : Bool := false
  /-- Every variable that is assigned to becomes known to the shells that are started. -/
  exportAll : Bool := false
  /-- A file that exists is not overwritten by a redirection. -/
  noOverwriting : Bool := false
  deriving DecidableEq, Repr

/-- The state of a shell. -/
structure Session where
  host : Host
  /-- The current directory as it was reached, through links. -/
  place : Place
  bindings : List Variable := []
  functions : List (Text × Script) := []
  /-- Variables to be put back when the function ends. -/
  hidden : List (Text × Option Variable) := []
  /-- The name the shell runs under. -/
  self : Text := lit "sh"
  arguments : List Text := []
  options : Options := {}
  /-- The exit status of the last command. -/
  status : Nat := 0
  /-- The exit status of the last script that was run for its output. -/
  substituted : Nat := 0
  /-- How many loops the run is in, within the function that runs. -/
  loops : Nat := 0
  /-- How many functions the run is in. -/
  calls : Nat := 0
  /-- How far the arguments have been scanned for options. -/
  scanned : OptionPosition := {}
  control : Control := .next
  /-- What is to be run at the end. -/
  farewell : Option Text := none
  /-- The streams by their numbers. -/
  streams : List (Nat × Channel) := [(0, .source 0), (1, .buffer 0), (2, .nowhere)]
  sources : List Text := [[]]
  /-- What has been printed to each buffer, last piece first. -/
  buffers : List (List Text) := [[]]
  deriving Repr

namespace Session

/-- Whether the run goes on with the next command. -/
def goesOn (s : Session) : Bool := s.control = .next

/-- The session after a command with an exit status. -/
def withStatus (s : Session) (status : Nat) : Session := { s with status := status }

/-! ## Streams -/

/-- Where a stream leads. -/
def channel (s : Session) (stream : Nat) : Channel := (s.streams.lookup stream).getD .closed

/-- The session with a stream that leads elsewhere. -/
def redirectTo (s : Session) (stream : Nat) (channel : Channel) : Session :=
  { s with streams := (stream, channel) :: s.streams.filter (·.1 != stream) }

/-- Prints to where a stream may lead. -/
def printTo (s : Session) (channel : Channel) (t : Text) : Session :=
  match channel with
  | .buffer index => { s with buffers := s.buffers.modify index (t :: ·) }
  | .file number =>
    let tree := s.host.tree
    { s with host := { s.host with tree := tree.store number (tree.content number ++ t) } }
  | _ => s

/-- Prints to a stream. -/
def print (s : Session) (stream : Nat) (t : Text) : Session := s.printTo (s.channel stream) t

/-- Prints the answer of a command to its output; there may be no room for it. -/
def say (s : Session) (name t : Text) : Session :=
  let refused := s.channel 1 = .closed || s.channel 1 = .full
  if refused && !t.isEmpty then
    let complaint := name ++ lit ": " ++ name ++ lit ": I/O error\n"
    (s.print 2 (s.self ++ lit ": 1: " ++ complaint)).withStatus 1
  else (s.print 1 t).withStatus 0

/-- What is left to read from a stream. -/
def unread (s : Session) (stream : Nat) : Text :=
  match s.channel stream with
  | .source index => s.sources.getD index []
  | _ => []

/-- The session when only a rest is left to read from a stream. -/
def leave (s : Session) (stream : Nat) (rest : Text) : Session :=
  match s.channel stream with
  | .source index => { s with sources := s.sources.set index rest }
  | _ => s

/-- A stream that reads from a text. -/
def readFrom (s : Session) (stream : Nat) (t : Text) : Session :=
  { s with sources := s.sources ++ [t] }.redirectTo stream (.source s.sources.length)

/-- Runs a part of a script with a text as its input. -/
def fed (t : Text) (run : Session → Session) (s : Session) : Session :=
  let inner := run (s.readFrom 0 t)
  { inner with sources := inner.sources.take s.sources.length }

/-- Runs a part of a script and collects what it prints to the output. -/
def collect (run : Session → Session) (s : Session) : Text × Session :=
  let inner := run ({ s with buffers := s.buffers ++ [[]] }.redirectTo 1 (.buffer s.buffers.length))
  (((inner.buffers.getD s.buffers.length []).reverse).flatten,
    { inner with buffers := inner.buffers.take s.buffers.length })

/-- Prints a complaint under the name of the shell. -/
def complain (s : Session) (t : Text) : Session :=
  s.print 2 (s.self ++ lit ": 1: " ++ t ++ [Byte.newline])

/-- A command that fails with a complaint. -/
def fail (s : Session) (t : Text) : Session := (s.complain t).withStatus 2

/-- The end of the shell. -/
def exit (s : Session) (status : Nat) : Session := { s with status := status, control := .exit }

/-- A failure that ends the shell. -/
def abort (s : Session) (t : Text) : Session := { s.fail t with control := .exit }

/-! ## Variables -/

/-- A variable by its name. -/
def binding? (s : Session) (name : Text) : Option Variable := s.bindings.find? (·.name == name)

/-- The session with a variable, or without it. -/
def setVariable (s : Session) (name : Text) (v : Option Variable) : Session :=
  { s with bindings := v.toList ++ s.bindings.filter (·.name != name) }

/-- The session with a new value for a variable. -/
def assign (s : Session) (name value : Text) : Session :=
  match s.binding? name with
  | none => s.setVariable name (some { name, value := some value, exported := s.options.exportAll })
  | some v =>
    if v.readOnly then s.abort (name ++ lit ": is read only")
    else
      let exported := v.exported || s.options.exportAll
      s.setVariable name (some { v with value := some value, exported := exported })

/-- The bytes at which values are cut to fields. -/
def separators (s : Session) : Text :=
  ((s.binding? (lit "IFS")).bind (·.value)).getD [32, 9, Byte.newline]

/-- The letters of the options that are set. -/
def optionLetters (s : Session) : Text :=
  let letter (on : Bool) (c : String) : Text := if on then lit c else []
  letter s.options.stopOnUnset "u" ++ letter s.options.exportAll "a" ++
    letter s.options.noOverwriting "C" ++ letter s.options.trace "x" ++
    letter s.options.noMatching "f" ++ letter s.options.stopOnFailure "e"

/-- The value of a parameter, if it has one. -/
def parameter? (s : Session) (name : Text) : Option Text :=
  if name = lit "#" then some (lit (toString s.arguments.length))
  else if name = lit "?" then some (lit (toString s.status))
  else if name = lit "-" then some s.optionLetters
  else
    match natural? name with
    | some 0 => some s.self
    | some (n + 1) => s.arguments[n]?
    | none => (s.binding? name).bind (·.value)

/-- Keeps what a variable was, to put it back later. -/
def hide (s : Session) (name : Text) : Session :=
  { s with hidden := (name, s.binding? name) :: s.hidden }

/-- The session in which a variable is known to the shells that are started. -/
def exportVariable (s : Session) (name : Text) : Session :=
  let v := (s.binding? name).getD { name }
  s.setVariable name (some { v with exported := true })

/-- Runs something and puts back the variables that were hidden meanwhile. -/
def restoring (run : Session → Session) (s : Session) : Session :=
  let inner := run { s with hidden := [] }
  let shown := inner.hidden.foldl (fun t (name, v) => t.setVariable name v) inner
  { shown with hidden := s.hidden }

/-! ## Shells in shells -/

/-- What a part that ran in a shell of its own leaves behind: its files, what it printed and read,
and its status. -/
def absorb (s inner : Session) : Session :=
  { s with
    host := { s.host with tree := inner.host.tree }
    sources := inner.sources
    buffers := inner.buffers
    status := inner.status % 256 }

/-- The shell that a part runs in when it runs in one of its own. -/
def alone (s : Session) : Session := { s with farewell := none }

/-- The variables that every shell sets by itself. -/
def ownVariables : List Variable :=
  [("IFS", " \t\n"), ("OPTIND", "1"), ("PS1", "# "), ("PS2", "> "), ("PS4", "+ ")].map
    fun (name, value) => { name := lit name, value := some (lit value) }

/-- A new shell in the place of this one. -/
def child (s : Session) (self : Text) (arguments : List Text) : Session where
  host := s.host
  place := s.place
  bindings :=
    let known := s.bindings.filter fun v => v.exported && v.value.isSome && v.name != lit "IFS"
    let place : Variable :=
      { name := lit "PWD", value := some (Disk.pathOf s.place), exported := true }
    let set := place :: known.map ({ · with readOnly := false })
    set ++ ownVariables.filter fun v => !set.any (·.name = v.name)
  self := self
  arguments := arguments
  streams := s.streams
  sources := s.sources
  buffers := s.buffers

end Session

end FlutterScaffold.Shell

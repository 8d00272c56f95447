import FlutterScaffold.Disk.Host
import FlutterScaffold.Diagnostic

/-!
# Whole files

Files are read and written as a whole. Writing makes the missing directories above the file first.
Replacing goes through a sibling file that is renamed over the target, so that nobody sees half of
the new bytes; when it fails, the sibling is taken away again. What was done before a failure stays
done.
-/

namespace FlutterScaffold.Disk

/-- Work on a host that can fail with `ε`; the host is kept in either case. -/
abbrev Action (ε : Type) := ExceptT ε (StateM Host)

/-- How a file operation fails. -/
inductive FileFault.Cause where
  | unreadable
  | directoryNotMade (refusal : Refusal)
  | notADirectory
  | alreadyThere
  | unwritable
  | notWritten
  | notReplaced (refusal : Refusal)
  deriving DecidableEq, Repr

/-- A failed file operation, with the path it failed at. -/
structure FileFault where
  cause : FileFault.Cause
  path : Path
  deriving DecidableEq, Repr

/-- What is said about a failure. -/
def FileFault.Cause.message : FileFault.Cause → Text
  | .unreadable => lit "could not open file for reading"
  | .directoryNotMade refusal => lit "could not create directory: " ++ refusal.message
  | .notADirectory => lit "path exists but is not a directory"
  | .alreadyThere => lit "file already exists (use --force to overwrite)"
  | .unwritable => lit "could not open file for writing"
  | .notWritten => lit "could not write file"
  | .notReplaced refusal => lit "could not replace file: " ++ refusal.message

/-- A failure as a diagnostic. -/
def FileFault.diagnostic (fault : FileFault) : Diagnostic where
  severity := .error
  message := fault.cause.message
  path := fault.path

/-- Carries out a request to the file system. -/
def perform {ε : Type} (request : Host → Except Refusal Host) (fault : Refusal → ε) :
    Action ε Unit := do
  match request (← get) with
  | .ok host => set host
  | .error refusal => throw (fault refusal)

/-- A path and its parents, from the path itself upwards, as many as are counted. -/
def ancestors (p : Path) : Nat → List Path
  | 0 => []
  | n + 1 => p :: ancestors p.parent n

/-- How many directories are made at once. -/
def maxMissing : Nat := 1000

/-- The directories to be made, innermost first, when nothing stands at the first of a list of
ancestors, as long as there is room for them. A path that ends in dots is reached once the one above
it is there. -/
def missingDirectories (host : Host) : Nat → List Path → Except Refusal (List Path)
  | _, [] => .ok []
  | room, p :: above => do
    let dots := Host.endsInDots p
    if !dots && room = 0 then .error .nameTooLong
    let self := if dots then [] else [p]
    match above with
    | [] => .ok self
    | q :: _ =>
      match host.status q with
      | .ok .directory => .ok self
      | .ok _ => .error .notDirectory
      | .error refusal =>
        if refusal.isAbsence then
          return self ++ (← missingDirectories host (room - self.length) above)
        else .error refusal

/-- The directories to be made so that a path names one. -/
def directoriesToMake (host : Host) (dir : Path) : Except Refusal (List Path) :=
  match host.status dir with
  | .ok .directory => .ok []
  | .ok _ => .error .notDirectory
  | .error refusal =>
    if refusal.isAbsence then
      missingDirectories host maxMissing
        (ancestors (if dir.endsInSlash then dir.parent else dir) dir.names.length)
    else .error refusal

/-- Makes a directory unless there is one already. -/
def requireDirectory (dir : Path) (host : Host) : Except Refusal Host :=
  match host.makeDirectory dir with
  | .error .exists => if host.isDirectory dir then .ok host else .error .exists
  | result => result

/-- Makes a directory and whatever is missing above it. The empty path asks for nothing. -/
def ensureDirectory (dir : Path) : Action FileFault Unit := do
  if dir.isEmpty then return
  let fault (refusal : Refusal) : FileFault := ⟨.directoryNotMade refusal, dir⟩
  match directoriesToMake (← get) dir with
  | .error refusal => throw (fault refusal)
  | .ok missing => missing.reverse.forM fun d => perform (requireDirectory d) fault
  unless (← get).isDirectory dir do throw ⟨.notADirectory, dir⟩

/-- The bytes of a file. -/
def readText (p : Path) : Action FileFault Text := do
  match (← get).readFile p with
  | .ok content => return content
  | .error _ => throw ⟨.unreadable, p⟩

/-- Writes a file; unless `overwrite` is set, nothing may stand at its path. -/
def writeText (p : Path) (content : Text) (overwrite : Bool) : Action FileFault Unit := do
  if !overwrite && (← get).exists? p then throw ⟨.alreadyThere, p⟩
  ensureDirectory p.parent
  perform (·.writeFile p content) fun refusal =>
    ⟨if refusal = .noSpace then .notWritten else .unwritable, p⟩

/-- The sibling that a file is replaced through. -/
def temporary (p : Path) : Path := p ++ lit ".boilr-tmp"

/-- Removes what stands at a path, unless that is refused. -/
def discard {ε : Type} (p : Path) : Action ε Unit := do
  match (← get).remove p with
  | .ok host => set host
  | .error _ => pure ()

/-- Removes a sibling that could not be written; a directory in its place is left alone. -/
def discardUnwritten {ε : Type} (p : Path) : Action ε Unit := do
  match (← get).linkStatus p with
  | .ok .directory => pure ()
  | .ok _ => discard p
  | .error _ => pure ()

/-- Replaces the bytes of a file through its sibling. -/
def replaceText (p : Path) (content : Text) : Action FileFault Unit := do
  try writeText (temporary p) content true
  catch fault =>
    discardUnwritten (temporary p)
    throw fault
  match (← get).rename (temporary p) p with
  | .ok host => set host
  | .error refusal =>
    discard (temporary p)
    throw ⟨.notReplaced refusal, p⟩

end FlutterScaffold.Disk

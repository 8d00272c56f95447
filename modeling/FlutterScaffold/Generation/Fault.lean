import FlutterScaffold.Name.Validation
import FlutterScaffold.Disk.File

/-!
# What stops a generation

A generation is stopped by an unusable name, by a file operation that fails, or by a project that is
not in the state it has to be in. Each cause is told as one diagnostic.
-/

namespace FlutterScaffold.Generation

/-- Why a generation stops. -/
inductive Fault where
  /-- The text does not name a thing of the kind. -/
  | badName (kind text : Text) (fault : Name.Fault)
  | file (fault : Disk.FileFault)
  /-- A feature without a page cannot be registered. -/
  | noPage (name : Name) (page : Path)
  /-- A project name that is not its own snake form. -/
  | notSnake (text : Text) (name : Name)
  | noOrganization
  /-- The directory of a new project exists. -/
  | targetExists (directory : Path)
  /-- It exists, and may be written into only on demand. -/
  | targetKept (directory : Path)
  | flutterFailed (exitCode : Nat) (output : Text)
  deriving DecidableEq, Repr

/-- A cause as a diagnostic. -/
def Fault.diagnostic : Fault → Diagnostic
  | .badName kind text fault => { severity := .error, message := fault.message kind text }
  | .file fault => fault.diagnostic
  | .noPage name page =>
    { severity := .error
      message :=
        lit "feature page not found; run 'boilr create feature " ++ name.snake ++ lit "' first"
      path := page }
  | .notSnake text name =>
    { severity := .error
      message :=
        lit "project name '" ++ text ++ lit "' must be lowercase_with_underscores (try '" ++
          name.snake ++ lit "')" }
  | .noOrganization =>
    { severity := .error
      message := lit "organization is required; pass --org (e.g. com.example)" }
  | .targetExists directory =>
    { severity := .error, message := lit "target directory already exists", path := directory }
  | .targetKept directory =>
    { severity := .error
      message := lit "target directory already exists (use --force to write into it)"
      path := directory }
  | .flutterFailed exitCode output =>
    { severity := .error
      message :=
        lit "flutter create failed with exit code " ++ lit (toString exitCode) ++
          (if output.isEmpty then [] else lit ":\n" ++ output) }

end FlutterScaffold.Generation

import FlutterScaffold.CommandLine.Usage
import FlutterScaffold.Generation.Application
import FlutterScaffold.Project.Loading

/-!
# The command line

A run of the program takes its arguments and a host, and gives an exit code, what it prints to its
two streams, and the host it leaves. Usage and diagnostics go to the stream of complaints; the
report of a generation goes to the other one.
-/

namespace FlutterScaffold.CommandLine

open Disk (Host)
open Generation (Report)

/-- What a run of the program shows. -/
structure Reply where
  code : Nat
  out : Text := []
  err : Text := []
  deriving DecidableEq, Repr

/-- Complaints, and the exit code that goes with them. -/
def refuse (err : Text) : Reply := { code := 1, err := err }

/-- What is said about a registration. -/
def registrationLine (outcome : Registry.Outcome) : Text :=
  (if !outcome.applied then lit "route not registered"
    else if outcome.modified then lit "registered route"
    else lit "route already registered") ++
    lit " (" ++ outcome.detail.word ++ lit ")\n"

/-- A report as it is printed. -/
def renderReport (report : Report) : Text :=
  (report.files.flatMap fun file => lit "created " ++ file.generic ++ [Byte.newline]) ++
    (report.registration.map registrationLine).getD []

/-- Runs a generation. Its report is followed by `epilogue`; both are left out when quiet. -/
def generate (quiet : Bool) (epilogue : Text) (task : Task Generation.Fault Report) (host : Host) :
    Reply × Host :=
  match task.runOn { host := host } with
  | (.error fault, desk) =>
    (refuse (Log.render quiet desk.log ++ fault.diagnostic.render), desk.host)
  | (.ok report, desk) =>
    ({ code := if desk.log.count .error = 0 then 0 else 1
       out := if quiet then [] else renderReport report ++ epilogue
       err := Log.render quiet desk.log },
      desk.host)

/-- The generation of a subject into an existing project. -/
def taskFor (subject : Subject) (config : Project.Config) (overwrite : Bool) (name : Text) :
    Task Generation.Fault Report :=
  match subject with
  | .project | .feature => Generation.feature config overwrite name
  | .page => Generation.page config overwrite name
  | .widget => Generation.widget config overwrite name
  | .provider => Generation.provider config overwrite name
  | .route => Generation.registration config name

/-- Runs a subcommand that works in an existing project. -/
def inProject (subject : Subject) (arguments : List Text) (host : Host) : Reply × Host :=
  match Options.parse subject arguments with
  | .error fault => (refuse (fault.message ++ subjectUsage subject), host)
  | .ok o =>
    if o.help then ({ code := 0, err := subjectUsage subject }, host)
    else if o.name.isEmpty then
      (refuse (lit "error: " ++ subject.word ++ lit " name is required\n" ++ subjectUsage subject),
        host)
    else
      match Project.load host o.root with
      | .error fault => (refuse fault.diagnostic.render, host)
      | .ok config =>
        let config := if o.bestEffort then { config with policy := .bestEffort } else config
        generate o.quiet [] (taskFor subject config o.force o.name) host

/-- Whether the help follows a complaint about the arguments of a new project. -/
def helpsProject : OptionFault → Bool
  | .noRoot | .unknown _ => true
  | .noOrganization | .unexpected _ => false

/-- What to do with a new project. -/
def nextSteps (directory : Path) : Text :=
  page
    [[], lit "Next steps:", lit "  cd " ++ directory.generic, lit "  flutter pub get",
      lit "  flutter run"]

/-- Runs the subcommand that creates a project. -/
def createProject (arguments : List Text) (host : Host) : Reply × Host :=
  match Options.parse .project arguments with
  | .error fault =>
    (refuse (fault.message ++ if helpsProject fault then projectUsage else []), host)
  | .ok o =>
    if o.help then ({ code := 0, err := projectUsage }, host)
    else if o.bestEffort then
      (refuse (lit "error: --best-effort does not apply to 'create project'\n"), host)
    else if o.name.isEmpty then
      (refuse (lit "error: project name is required\n" ++ projectUsage), host)
    else
      let request : Generation.Request :=
        { name := o.name
          organization := o.organization
          parent := o.root
          runFlutter := !o.skipFlutter
          overwrite := o.force }
      generate o.quiet (nextSteps request.directory) (Generation.application request) host

/-- The subject that a word names behind `create`. -/
def subjectOf? (word : Text) : Option Subject :=
  [Subject.project, .feature, .page, .widget, .provider].find? (·.word = word)

/-- Runs `create`. -/
def create (arguments : List Text) (host : Host) : Reply × Host :=
  match arguments with
  | [] => (refuse createUsage, host)
  | kind :: more =>
    if kind = lit "--help" || kind = lit "-h" then ({ code := 0, err := createUsage }, host)
    else
      match subjectOf? kind with
      | some .project => createProject more host
      | some subject => inProject subject more host
      | none => (refuse (lit "error: unknown kind '" ++ kind ++ lit "'\n" ++ createUsage), host)

/-- Runs the program with its arguments. -/
def run (arguments : List Text) (host : Host) : Reply × Host :=
  match arguments with
  | [] => (refuse usage, host)
  | command :: more =>
    if command = lit "--version" || command = lit "-v" then
      ({ code := 0, out := versionBanner }, host)
    else if command = lit "--help" || command = lit "-h" then ({ code := 0, err := usage }, host)
    else if command = lit "create" then create more host
    else if command = lit "register" then inProject .route more host
    else (refuse (lit "error: unknown command '" ++ command ++ lit "'\n" ++ usage), host)

end FlutterScaffold.CommandLine

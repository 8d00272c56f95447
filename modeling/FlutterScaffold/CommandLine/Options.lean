import FlutterScaffold.Path.Basic
import FlutterScaffold.Text.Search

/-!
# Command-line options

The arguments behind a subcommand are options and one name, in any order. An option that takes a
value takes the argument behind it, whatever that looks like; a repeated option overwrites the one
before. The subcommand that creates a project knows two options more than the others.
-/

namespace FlutterScaffold.CommandLine

/-- What a subcommand works on. -/
inductive Subject where
  | project
  | feature
  | page
  | widget
  | provider
  /-- The route of a feature that exists. -/
  | route
  deriving DecidableEq, Repr

/-- The word for a subject. -/
def Subject.word : Subject → Text
  | .project => lit "project"
  | .feature => lit "feature"
  | .page => lit "page"
  | .widget => lit "widget"
  | .provider => lit "provider"
  | .route => lit "register"

/-- What the arguments of a subcommand ask for. -/
structure Options where
  /-- The project directory, or the directory that receives a new project. -/
  root : Path := Path.dot
  /-- Whether existing files are overwritten. -/
  force : Bool := false
  /-- Whether a route is registered step by step. -/
  bestEffort : Bool := false
  /-- Whether notes and progress lines are left out. -/
  quiet : Bool := false
  /-- Whether only the usage is asked for. -/
  help : Bool := false
  /-- The organization of a new project. -/
  organization : Text := []
  /-- Whether the Flutter tool is left out. -/
  skipFlutter : Bool := false
  /-- The name of the thing to be made; empty when there is none. -/
  name : Text := []
  deriving DecidableEq, Repr

/-- What is wrong with the arguments. -/
inductive OptionFault where
  | noRoot
  | noOrganization
  | unknown (argument : Text)
  | unexpected (argument : Text)
  deriving DecidableEq, Repr

/-- What is said about the arguments. -/
def OptionFault.message : OptionFault → Text
  | .noRoot => lit "error: --root requires a directory\n"
  | .noOrganization => lit "error: --org requires a value (e.g. com.example)\n"
  | .unknown argument => lit "error: unknown option: " ++ argument ++ lit "\n"
  | .unexpected argument => lit "error: unexpected argument: " ++ argument ++ lit "\n"

/-- The options with a flag set; none for an argument that is no flag of every subcommand. -/
def Options.flag? (o : Options) (argument : Text) : Option Options :=
  if argument = lit "--force" || argument = lit "-f" then some { o with force := true }
  else if argument = lit "--best-effort" then some { o with bestEffort := true }
  else if argument = lit "--quiet" || argument = lit "-q" then some { o with quiet := true }
  else if argument = lit "--help" || argument = lit "-h" then some { o with help := true }
  else none

/-- The step over an argument that is no option with a value of its own behind it. -/
def Options.single (o : Options) (subject : Subject) (argument : Text) :
    Except OptionFault Options :=
  match Text.after? (lit "--root=") argument with
  | some [] => .error .noRoot
  | some root => .ok { o with root := root }
  | none =>
    match o.flag? argument with
    | some o => .ok o
    | none =>
      if subject = .project && argument = lit "--skip-flutter" then
        .ok { o with skipFlutter := true }
      else if argument.head? = some (byte '-') then .error (.unknown argument)
      else if !o.name.isEmpty then .error (.unexpected argument)
      else .ok { o with name := argument }

/-- Whether an argument names the organization that follows it. -/
def asksOrganization (subject : Subject) (argument : Text) : Bool :=
  subject = .project && (argument = lit "--org" || argument = lit "-o")

/-- Reads the arguments of a subcommand from the left. -/
def Options.read (o : Options) (subject : Subject) : List Text → Except OptionFault Options
  | [] => .ok o
  | argument :: rest =>
    if argument = lit "--root" then
      match rest with
      | [] => .error .noRoot
      | root :: more => read { o with root := root } subject more
    else if asksOrganization subject argument then
      match rest with
      | [] => .error .noOrganization
      | organization :: more => read { o with organization := organization } subject more
    else
      match o.single subject argument with
      | .error fault => .error fault
      | .ok o => read o subject rest

/-- What the arguments of a subcommand ask for. -/
def Options.parse (subject : Subject) (arguments : List Text) : Except OptionFault Options :=
  Options.read {} subject arguments

/-- The project directories that arguments may name. -/
def rootsOf : List Text → List Path
  | [] => []
  | argument :: rest =>
    (if argument = lit "--root" then rest.take 1
      else (Text.after? (lit "--root=") argument).toList) ++ rootsOf rest

end FlutterScaffold.CommandLine

import FlutterScaffold.CommandLine.Options

/-!
# Usage texts

The help that the command line gives, as lines.
-/

namespace FlutterScaffold.CommandLine

/-- The version of the program. -/
def version : Text := lit "1.1.0"

/-- Lines of text, each ended by a newline. -/
def page (lines : List Text) : Text := lines.flatMap fun line => line ++ [Byte.newline]

/-- The version as it is printed. -/
def versionBanner : Text := page [lit "boilr v" ++ version, lit "Flutter project generator"]

/-- The help about the commands. -/
def usage : Text :=
  page
    [lit "boilr v" ++ version ++ lit " - Flutter project generator",
      [],
      lit "Usage: boilr <command> [arguments]",
      [],
      lit "Commands:",
      lit "  create <kind> <name>   Create a project, feature, page, widget, or provider",
      lit "  register <name>        Register an existing feature's page route",
      [],
      lit "Options:",
      lit "  -h, --help             Show this help message",
      lit "  -v, --version          Show version information",
      [],
      lit "Run 'boilr create --help' for the list of kinds."]

/-- The help about the kinds of things that can be created. -/
def createUsage : Text :=
  page
    [lit "Usage: boilr create <kind> <name> [options]",
      [],
      lit "Kinds:",
      lit "  project    Flutter project with packages, boilerplate, and a route registry",
      lit "  feature    Clean-architecture feature module; registers its page route",
      lit "  page       Screen with a Riverpod loading flag",
      lit "  widget     ConsumerWidget",
      lit "  provider   Riverpod StateProvider and state helper",
      [],
      lit "Run 'boilr create <kind> --help' for the options of a kind."]

/-- The help about creating a project. -/
def projectUsage : Text :=
  page
    [lit "Usage: boilr create project <name> --org <org> [options]",
      [],
      lit "Options:",
      lit "  --org ORG         Organisation for flutter create (e.g. com.example)",
      lit "  --skip-flutter    Do not run flutter create",
      lit "  --root DIR        Directory receiving the project (default: .)",
      lit "  -f, --force       Write into an existing directory (with --skip-flutter)",
      lit "  -q, --quiet       Suppress notes and progress lines"]

/-- The first line of the help about a subject. -/
def synopsis (subject : Subject) : Text :=
  if subject = .route then lit "Usage: boilr register <feature> [options]"
  else lit "Usage: boilr create " ++ subject.word ++ lit " <name> [options]"

/-- The help about a subject. Files are overwritten only where files are made, and a route is
registered only for features. -/
def subjectUsage (subject : Subject) : Text :=
  if subject = .project then projectUsage
  else
    page
      ([synopsis subject, [], lit "Options:",
          lit "  --root DIR        Project root (default: .)"] ++
        (if subject = .route then [] else [lit "  -f, --force       Overwrite existing files"]) ++
        (if subject = .feature || subject = .route then
          [lit "  --best-effort     Keep partial registry updates when an anchor is missing"]
        else []) ++
        [lit "  -q, --quiet       Suppress notes and progress lines"])

end FlutterScaffold.CommandLine

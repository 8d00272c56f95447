import FlutterScaffold.Project.Config
import FlutterScaffold.Diagnostic

/-!
# Manifests

A manifest is read line by line: a directive, blanks and a value. Blank lines and lines that start
with `#` say nothing. Each directive may occur once and sets one field. A manifest is written with
all directives in their fixed order, behind a comment line.
-/

namespace FlutterScaffold.Project

/-- The settings that a manifest can make. -/
inductive Directive where
  | project
  | router
  | routerClass
  | routesAnchor
  | features
  | widgets
  | providers
  | patchMode
  deriving DecidableEq, Repr

namespace Directive

/-- All directives, in the order a manifest is written. -/
def all : List Directive :=
  [.project, .router, .routerClass, .routesAnchor, .features, .widgets, .providers, .patchMode]

/-- The spelling of a directive. -/
def word : Directive → Text
  | .project => lit "project"
  | .router => lit "router"
  | .routerClass => lit "router-class"
  | .routesAnchor => lit "routes-anchor"
  | .features => lit "features"
  | .widgets => lit "widgets"
  | .providers => lit "providers"
  | .patchMode => lit "patch-mode"

/-- The directive that a word spells. -/
def ofWord? (w : Text) : Option Directive := all.find? (·.word = w)

theorem ofWord?_word (d : Directive) : ofWord? d.word = some d := by cases d <;> decide

end Directive

/-- What is wrong with a line of a manifest. -/
inductive LineFault where
  | noValue (line : Text)
  | unknown (word : Text)
  | duplicate (directive : Directive)
  | badClass (value : Text)
  | badAnchor (value : Text)
  | badMode (value : Text)
  | outside (directive : Directive) (value : Text)
  deriving DecidableEq, Repr

/-- What is said about a line. -/
def LineFault.message : LineFault → Text
  | .noValue line => lit "directive missing value: '" ++ line ++ lit "'"
  | .unknown word => lit "unknown directive '" ++ word ++ lit "'"
  | .duplicate directive => lit "duplicate directive '" ++ directive.word ++ lit "'"
  | .badClass value =>
    lit "invalid router class '" ++ value ++ lit "'; expected a Dart identifier"
  | .badAnchor value => lit "invalid routes anchor '" ++ value ++ lit "'; it must end with '['"
  | .badMode value =>
    lit "invalid patch mode '" ++ value ++ lit "'; expected 'atomic' or 'best-effort'"
  | .outside directive value =>
    lit "'" ++ directive.word ++ lit "' must be a path inside the project: '" ++ value ++ lit "'"

/-- Whether a word is a Dart identifier. -/
def isIdentifier : Text → Bool
  | [] => false
  | b :: rest => Byte.isIdentifierStart b && rest.all Byte.isIdentifier

/-- The value of a setting as the manifest spells it. -/
def Config.value (config : Config) : Directive → Text
  | .project => config.name
  | .router => config.router
  | .routerClass => config.anchors.routerClass
  | .routesAnchor => config.anchors.listToken
  | .features => config.features
  | .widgets => config.widgets
  | .providers => config.providers
  | .patchMode => config.policy.word

/-- A setting made, if its value is allowed. -/
def Config.assign (config : Config) (directive : Directive) (value : Text) :
    Except LineFault Config :=
  let ifInside (changed : Config) : Except LineFault Config :=
    if Path.isInside value then .ok changed else .error (.outside directive value)
  match directive with
  | .project => .ok { config with name := value }
  | .routerClass =>
    if isIdentifier value then
      .ok { config with anchors := { config.anchors with routerClass := value } }
    else .error (.badClass value)
  | .routesAnchor =>
    if value.getLast? = some (byte '[') then
      .ok { config with anchors := { config.anchors with listToken := value } }
    else .error (.badAnchor value)
  | .patchMode =>
    match Registry.Policy.ofWord? value with
    | some policy => .ok { config with policy := policy }
    | none => .error (.badMode value)
  | .router => ifInside { config with router := value }
  | .features => ifInside { config with features := value }
  | .widgets => ifInside { config with widgets := value }
  | .providers => ifInside { config with providers := value }

namespace Manifest

/-- A line without the bytes around its content; the end may hold line breaks too. -/
def content (line : Text) : Text :=
  Text.trimEnd Byte.isLayout (Text.trimStart Byte.isMargin line)

/-- The word and the value of a content line; none when there is no blank between them. -/
def halves? (line : Text) : Option (Text × Text) :=
  if line.any Byte.isBlank then
    some (line.takeWhile (!Byte.isBlank ·),
      (line.dropWhile (!Byte.isBlank ·)).dropWhile Byte.isBlank)
  else none

/-- What has been read so far: the settings, and the directives that made them. -/
structure Progress where
  config : Config
  seen : List Directive := []
  deriving DecidableEq, Repr

/-- The step over one line. -/
def Progress.read (progress : Progress) (line : Text) : Except LineFault Progress :=
  let line := content line
  if line.isEmpty || line.head? = some (byte '#') then .ok progress
  else
    match halves? line with
    | none => .error (.noValue line)
    | some (word, value) =>
      match Directive.ofWord? word with
      | none => .error (.unknown word)
      | some directive =>
        if progress.seen.contains directive then .error (.duplicate directive)
        else
          (progress.config.assign directive value).map fun config =>
            { config := config, seen := directive :: progress.seen }

/-- Reads lines that are numbered from `number` on; a fault comes with its line number. -/
def Progress.readAll (progress : Progress) (number : Nat) :
    List Text → Except (Nat × LineFault) Progress
  | [] => .ok progress
  | line :: more =>
    match progress.read line with
    | .error fault => .error (number, fault)
    | .ok next => next.readAll (number + 1) more

/-- The settings that a manifest makes, starting from those that hold without it. -/
def parse (base : Config) (text : Text) : Except (Nat × LineFault) Config :=
  (Progress.readAll { config := base } 1 (Text.lines text)).map (·.config)

/-- Settings as a manifest. -/
def render (config : Config) : Text :=
  lit "# Boilr project settings\n" ++
    Directive.all.flatMap fun d => d.word ++ lit " " ++ config.value d ++ [Byte.newline]

end Manifest

end FlutterScaffold.Project

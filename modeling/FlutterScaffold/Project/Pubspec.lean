import FlutterScaffold.Text.Search

/-!
# Package dependencies

The packages that generated code needs are added to a `pubspec.yaml` below its first top-level
`dependencies:` line, unless the file names one of them already. Nothing else of the file changes.
-/

namespace FlutterScaffold.Project.Pubspec

/-- The dependency lines. They start with an empty line, which is left out where they follow the key
directly. -/
def dependencies : Text :=
  ["",
    "  # State Management",
    "  flutter_riverpod: ^2.4.9",
    "  riverpod_annotation: ^2.3.3",
    "",
    "  # Navigation",
    "  go_router: ^12.1.3",
    "",
    "  # HTTP Client",
    "  dio: ^5.9.0",
    "  curl_logger_dio_interceptor: ^1.0.0",
    "",
    "  # Local Storage",
    "  shared_preferences: ^2.2.2",
    "",
    "  # Functional Programming",
    "  dartz: ^0.10.1",
    "",
    "  # Utilities",
    "  equatable: ^2.0.5",
    "  logger: ^2.0.2+1"].flatMap fun line => lit line ++ [Byte.newline]

/-- The package whose mention stands for all of them. -/
def landmark : Text := lit "flutter_riverpod:"

/-- What follows the line that opens the section, in a text that starts with it: the key, then
blanks, then at most one carriage return, then the newline. -/
def afterSection? (t : Text) : Option Text := do
  let t ← Text.after? (lit "dependencies:") t
  let t := t.dropWhile Byte.isBlank
  Text.after? [Byte.newline] ((Text.after? [Byte.carriageReturn] t).getD t)

/-- Where the first such line behind a newline ends, one past its own newline. -/
def nextSectionEnd? : Text → Option Nat
  | [] => none
  | b :: rest =>
    match if b = Byte.newline then afterSection? rest else none with
    | some more => some (rest.length - more.length + 1)
    | none => (nextSectionEnd? rest).map (· + 1)

/-- Where the first such line of a text ends. It stands at the start of the text or behind a
newline. -/
def sectionEnd? (t : Text) : Option Nat :=
  match afterSection? t with
  | some more => some (t.length - more.length)
  | none => nextSectionEnd? t

/-- A pubspec with the dependency lines; none when it has no section for them. -/
def withDependencies? (pubspec : Text) : Option Text :=
  if Text.hasInfix landmark pubspec then some pubspec
  else
    (sectionEnd? pubspec).map fun n =>
      pubspec.take n ++ dependencies.drop 1 ++ pubspec.drop n

end FlutterScaffold.Project.Pubspec

import FlutterScaffold.Registry.Pattern
import FlutterScaffold.Dart.Bracket

/-!
# Anchors of a route registry

A registry is an ordinary Dart file in which five places matter: the end of the imports, the class
that holds the route constants, the end of the last name constant in it, and the two ends of the
route list. Each is an offset of the document or absent. What opens the class and the list is
spelled by an `AnchorSpec`.
-/

namespace FlutterScaffold.Registry

/-- How the regions of a registry are spelled. -/
structure AnchorSpec where
  /-- The class of the route constants. -/
  routerClass : Text := lit "Router"
  /-- The text that opens the route list; its last byte should be the bracket. -/
  listToken : Text := lit "routes: ["
  deriving DecidableEq, Repr

/-- What opens the constant class. -/
def AnchorSpec.signature (spec : AnchorSpec) : Text :=
  lit "class " ++ spec.routerClass ++ [byte ' ', byte '{']

/-- The places of a document, as far as they are found. -/
structure Anchors where
  /-- One past the semicolon of the last import. -/
  importEnd : Option Nat := none
  /-- Start of the class signature. -/
  containerOpen : Option Nat := none
  /-- One past the semicolon of the last name constant in the class. -/
  constantEnd : Option Nat := none
  /-- Start of the list token. -/
  listOpen : Option Nat := none
  /-- The bracket that closes the list. -/
  listClose : Option Nat := none
  deriving DecidableEq, Repr

namespace AnchorSpec

/-- Start of the first class signature. -/
def containerOpen? (spec : AnchorSpec) (doc : Text) : Option Nat := Text.indexOf? spec.signature doc

/-- The body of the constant class, as its two braces. -/
def containerBraces? (spec : AnchorSpec) (doc : Text) : Option (Nat × Nat) := do
  let start ← spec.containerOpen? doc
  let opener := start + spec.signature.length - 1
  return (opener, ← Dart.matchingBracket doc opener)

/-- One past the last name constant that stands in the body of the class. -/
def constantEnd? (spec : AnchorSpec) (doc : Text) : Option Nat := do
  let (opener, closer) ← spec.containerBraces? doc
  let body := (doc.drop (opener + 1)).take (closer - (opener + 1))
  return opener + 1 + (← nameConstantEnd? body)

/-- Start of the first list token. -/
def listOpen? (spec : AnchorSpec) (doc : Text) : Option Nat := Text.indexOf? spec.listToken doc

/-- Offset one past the token of a list that starts at `listOpen`. -/
def listStart (spec : AnchorSpec) (listOpen : Nat) : Nat := listOpen + spec.listToken.length

/-- The bracket that closes the list whose token starts at `listOpen`. The list is opened by the
last byte of its token, so a token without bytes at the start of a document opens none. -/
def listClose? (spec : AnchorSpec) (doc : Text) (listOpen : Nat) : Option Nat :=
  match spec.listStart listOpen with
  | 0 => none
  | opener + 1 => Dart.matchingBracket doc opener

/-- All places of a document. -/
def scan (spec : AnchorSpec) (doc : Text) : Anchors where
  importEnd := importEnd? doc
  containerOpen := spec.containerOpen? doc
  constantEnd := spec.constantEnd? doc
  listOpen := spec.listOpen? doc
  listClose := (spec.listOpen? doc).bind (spec.listClose? doc)

end AnchorSpec

end FlutterScaffold.Registry

import FlutterScaffold.Shell.Session
import FlutterScaffold.Shell.Arithmetic
import FlutterScaffold.Shell.Field
import FlutterScaffold.Shell.Glob

/-!
# Expansion of words

A word is expanded in a session, part by part: a parameter to its value or an alternative, a sum to
its number, a script to its output. In the words of a command the result is cut to fields, and
fields that are patterns become the names of files; elsewhere a word stays one text. Expansion may
assign to variables, and it may end the shell.
-/

namespace FlutterScaffold.Shell

/-- Runs a script for its output. -/
abbrev Substitute := Text → Session → Text × Session

/-- What a word is expanded for. -/
structure Purpose where
  /-- Whether values are cut to fields. -/
  split : Bool := true
  /-- Whether the word is itself part of a value. -/
  nested : Bool := false
  deriving DecidableEq, Repr

/-- Expands a word behind fields under way. -/
abbrev Expand := Purpose → Word → Fields × Session → Fields × Session

/-- Goes on with a text. -/
def addText (purpose : Purpose) (value quoted : Bool) (t : Text) :
    Fields × Session → Fields × Session
  | (f, s) =>
    if quoted then (f.add true t, s)
    else if purpose.split && value then (f.addSplit s.separators t, s)
    else if t.isEmpty then (f, s)
    else (f.add false t, s)

/-- Goes on with several values, each in a field of its own. -/
def addEach (purpose : Purpose) (quoted : Bool) :
    List Text → Fields × Session → Fields × Session
  | [], state => state
  | [t], state => addText purpose true quoted t state
  | t :: more, state =>
    let (f, s) := addText purpose true quoted t state
    addEach purpose quoted more (f.close, s)

/-- All arguments as one text. -/
def joinedArguments (name : Text) (s : Session) : Text :=
  List.intercalate (if name = lit "*" then s.separators.take 1 else lit " ") s.arguments

/-- Goes on with the value of a parameter. -/
def addParameter (purpose : Purpose) (name : Text) (quoted : Bool) (value : Option Text) :
    Fields × Session → Fields × Session
  | (f, s) =>
    if name = lit "@" || name = lit "*" && !quoted then
      if purpose.split then addEach purpose quoted s.arguments (f, s)
      else addText purpose true quoted (joinedArguments name s) (f, s)
    else addText purpose true quoted (value.getD []) (f, s)

/-- A word as one text. -/
def textOf (expand : Expand) (w : Word) (s : Session) : List Glyph × Session :=
  let (f, s) := expand { split := false } w ({}, s)
  (f.joined, s)

/-- Carries out what is to become of the value of a parameter. -/
def expandParameter (expand : Expand) (purpose : Purpose) (name : Text) (use : Use)
    (quoted : Bool) : Fields × Session → Fields × Session
  | (f, s) =>
    let value :=
      if name = lit "@" || name = lit "*" then some (joinedArguments name s)
      else s.parameter? name
    let missing (orEmpty : Bool) : Bool :=
      match value with
      | none => true
      | some t => orEmpty && t.isEmpty
    let taken := addParameter purpose name quoted value (f, s)
    let operand (t : Text) : Fields × Session → Fields × Session :=
      expand { purpose with nested := true } (partsOf (.operand quoted) t)
    let isList := name = lit "@" || name = lit "*"
    match use with
    | .value =>
      if value.isNone && s.options.stopOnUnset && !isList then
        (f, s.abort (name ++ lit ": parameter not set"))
      else taken
    | .length =>
      let size := (value.getD []).length
      if value.isNone && s.options.stopOnUnset && !isList then
        (f, s.abort (name ++ lit ": parameter not set"))
      else addText purpose true quoted (lit (toString size)) (f, s)
    | .orElse orEmpty alternative => if missing orEmpty then operand alternative (f, s) else taken
    | .andThen orEmpty alternative =>
      if missing orEmpty then if quoted then addText purpose true quoted [] (f, s) else (f, s)
      else operand alternative (f, s)
    | .orAssign orEmpty alternative =>
      if !missing orEmpty then taken
      else if !isName name then (f, s.abort (name ++ lit ": bad variable name"))
      else
        let (glyphs, s) := textOf expand (partsOf (.operand quoted) alternative) s
        let t := Glyph.toText glyphs
        addText purpose true quoted t (f, s.assign name t)
    | .orFail orEmpty message =>
      if !missing orEmpty then taken
      else
        let (glyphs, s) := textOf expand (partsOf (.operand quoted) message) s
        let t := Glyph.toText glyphs
        let t :=
          if !t.isEmpty then t
          else if orEmpty then lit "parameter not set or null"
          else lit "parameter not set"
        (f, s.abort (name ++ lit ": " ++ t))
    | .trim atEnd longest pattern =>
      let (glyphs, s) := textOf expand (partsOf (.operand false) pattern) s
      let t := (Pattern.ofGlyphs glyphs).trim atEnd longest (value.getD [])
      addText purpose true quoted t (f, s)
    | .invalid => (f, s.abort (lit "Bad substitution"))

/-- Carries out a sum. -/
def expandSum (expand : Expand) (purpose : Purpose) (expression : Text) (quoted : Bool) :
    Fields × Session → Fields × Session
  | (f, s) =>
    let (glyphs, s) := textOf expand (partsOf (.operand true) expression) s
    let t := Glyph.toText glyphs
    match arithmetic (fun name => (s.parameter? name).getD []) t with
    | .error fault => (f, s.abort (fault.message t))
    | .ok (n, assigned) =>
      let s := assigned.foldr (fun (name, n) s => s.assign name (decimal n.toInt)) s
      addText purpose true quoted (decimal n.toInt) (f, s)

/-- Expands one part of a word. -/
def expandPart (run : Substitute) (expand : Expand) (purpose : Purpose) (state : Fields × Session)
    (part : Part) : Fields × Session :=
  if !state.2.goesOn then state
  else
    match part with
    | .text bytes quoted => addText purpose purpose.nested quoted bytes state
    | .parameter name use quoted => expandParameter expand purpose name use quoted state
    | .sum expression quoted => expandSum expand purpose expression quoted state
    | .output script quoted =>
      let (t, s) := run script state.2
      let t := Text.trimEnd (· == Byte.newline) (t.filter (· != 0))
      addText purpose true quoted t (state.1, s)

/-- Expands a word whose expansions nest no deeper than a bound. -/
def expandWithin (run : Substitute) : Nat → Expand
  | 0, _, _, state => state
  | depth + 1, purpose, w, state =>
    w.foldl (expandPart run (expandWithin run depth) purpose) state

/-- The number of bytes that a part holds. -/
def Part.size : Part → Nat
  | .text bytes _ => bytes.length
  | .parameter name use _ =>
    name.length +
      match use with
      | .orElse _ t | .orAssign _ t | .orFail _ t | .andThen _ t | .trim _ _ t => t.length
      | _ => 0
  | .sum t _ | .output t _ => t.length

/-- Expands a word. What an expansion holds is shorter than the expansion, so that the size of the
word bounds the nesting. -/
def expand (run : Substitute) : Expand := fun purpose w state =>
  expandWithin run (w.foldr (fun part n => part.size + n) 2) purpose w state

/-- A text that starts with a tilde, with the home directory in the stead of the tilde; where the
word goes on behind the text, a slash or a colon has to come first. -/
def homeParts (home : Text) (isLast colons : Bool) (t : Text) : Word :=
  match t with
  | [] => [.text [] false]
  | b :: rest =>
    let ends (c : Byte) : Bool := c = Byte.slash || colons && c = byte ':'
    if b = byte '~' && (rest.head?.elim isLast ends) then [.text home true, .text rest false]
    else [.text t false]

/-- A word in which a tilde at the start stands for the home directory, if one is known; in the
value of an assignment also one behind a colon. -/
def withHome (s : Session) (colons : Bool) (w : Word) : Word :=
  match (s.binding? (lit "HOME")).bind (·.value), w with
  | some home, .text bytes false :: more =>
    let pieces := if colons then Text.cut (byte ':') bytes else [bytes]
    let last := pieces.length - 1
    let colon : Word := [.text [byte ':'] false]
    let parts := pieces.zipIdx.map fun (t, i) => homeParts home (i < last || more.isEmpty) colons t
    let joined := (List.intersperse colon parts).flatten
    joined.filter (· != .text [] false) ++ more
  | _, _ => w

/-- The fields of the words of a command. -/
def expandWords (run : Substitute) : List Word → Session → List Text × Session
  | [], s => ([], s)
  | w :: more, s =>
    let (f, s) := expand run {} (withHome s false w) ({}, s)
    let fields :=
      if s.options.noMatching then f.toList.map Glyph.toText else f.toList.flatMap (globbed s.host)
    let (others, s) := expandWords run more s
    (fields ++ others, s)

/-- A word as one text. -/
def expandText (run : Substitute) (w : Word) (s : Session) : Text × Session :=
  let (glyphs, s) := textOf (expand run) w s
  (Glyph.toText glyphs, s)

/-- A word as a pattern. -/
def expandPattern (run : Substitute) (w : Word) (s : Session) : Pattern × Session :=
  let (glyphs, s) := textOf (expand run) w s
  (Pattern.ofGlyphs glyphs, s)

end FlutterScaffold.Shell

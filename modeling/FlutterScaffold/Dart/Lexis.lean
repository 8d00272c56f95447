import FlutterScaffold.Text.Byte

/-!
# Reading Dart source a byte at a time

Brackets count only in code, so a reader of Dart source has to know where comments and string
literals begin and end. The reader keeps a stack of the constructs that are open: brackets, line
comments, block comments (which nest) and string literals, whose interpolations open a bracket
again. It moves one byte at a time and looks at most two bytes ahead. A bracket that closes the
wrong opener and a line break in a string literal of one line are refused; nothing else is.
-/

namespace FlutterScaffold.Dart

/-- A construct that is open at some place of a source text. -/
inductive Frame where
  /-- A bracket that waits for its closer. -/
  | bracket (closer : Byte)
  /-- A comment up to the end of its line. -/
  | lineComment
  /-- A comment up to its closing mark. -/
  | blockComment
  /-- A string literal: its quote, whether the quote is tripled, and whether it is raw. -/
  | string (quote : Byte) (triple raw : Bool)
  deriving DecidableEq, Repr

/-- What a byte of a source text belongs to. -/
inductive Region where
  | code
  | comment
  | string
  deriving DecidableEq, Repr

/-- The region that a construct opens when it stands in plain code. -/
def Frame.region : Frame → Region
  | .bracket _ => .code
  | .lineComment => .comment
  | .blockComment => .comment
  | .string .. => .string

/-- Where a reader stands between two bytes. -/
structure Reader where
  /-- The open constructs, innermost first. -/
  frames : List Frame := []
  /-- Bytes of the current delimiter or escape that are still to be passed. -/
  pending : Nat := 0
  /-- Whether the byte before could belong to a name. -/
  afterName : Bool := false
  /-- The region of the byte before, told from the outermost construct. -/
  region : Region := .code
  deriving DecidableEq, Repr

/-- The closer of an opening bracket. -/
def closerOf? (b : Byte) : Option Byte :=
  if b = byte '(' then some (byte ')')
  else if b = byte '[' then some (byte ']')
  else if b = byte '{' then some (byte '}')
  else none

/-- Closing brackets. -/
def isCloser (b : Byte) : Bool := b == byte ')' || b == byte ']' || b == byte '}'

/-- The bytes that delimit a string literal. -/
def isQuote (b : Byte) : Bool := b == Byte.quote || b == Byte.doubleQuote

/-- The literal that starts at a quote with `rest` behind it, and how many more quotes open it. -/
def stringFrame (raw : Bool) (quote : Byte) (rest : Text) : Frame × Nat :=
  if [quote, quote].isPrefixOf rest then (.string quote true raw, 2)
  else (.string quote false raw, 0)

/-- The comment or literal that starts at byte `b` of code with `rest` behind it, and how many more
bytes its opening delimiter has. An `r` before a quote makes a literal raw unless it ends a name. -/
def opening? (afterName : Bool) (b : Byte) (rest : Text) : Option (Frame × Nat) :=
  if b = Byte.slash then
    if rest.head? = some Byte.slash then some (.lineComment, 1)
    else if rest.head? = some (byte '*') then some (.blockComment, 1)
    else none
  else if isQuote b then some (stringFrame false b rest)
  else if b = byte 'r' && !afterName then
    match rest with
    | [] => none
    | q :: more =>
      if isQuote q then
        let (frame, n) := stringFrame true q more
        some (frame, n + 1)
      else none
  else none

namespace Reader

/-- A reader inside a bracket that waits for `closer`. -/
def inside (closer : Byte) : Reader := { frames := [.bracket closer] }

/-- Whether nothing is open and no delimiter is under way. -/
def atRest (s : Reader) : Bool := s.frames.isEmpty && s.pending == 0

/-- Opens a construct with `n` bytes of its delimiter still to come. -/
def enter (s : Reader) (frame : Frame) (n : Nat) : Reader :=
  { s with frames := frame :: s.frames, pending := n }

/-- Closes the innermost construct with `n` bytes of its delimiter still to come. -/
def leave (s : Reader) (n : Nat) : Reader := { s with frames := s.frames.tail, pending := n }

/-- The step over a byte of a block comment. -/
def readBlock (s : Reader) (b : Byte) (rest : Text) : Reader :=
  if b = Byte.slash && rest.head? = some (byte '*') then s.enter .blockComment 1
  else if b = byte '*' && rest.head? = some Byte.slash then s.leave 1
  else s

/-- The step over a byte of a string literal. -/
def readString (s : Reader) (quote : Byte) (triple raw : Bool) (b : Byte) (rest : Text) :
    Option Reader :=
  if !raw && b = Byte.backslash then some { s with pending := 1 }
  else if !triple && b = Byte.newline then none
  else if !raw && b = byte '$' && rest.head? = some (byte '{') then
    some (s.enter (.bracket (byte '}')) 1)
  else if b = quote then
    if !triple then some (s.leave 0)
    else if [quote, quote].isPrefixOf rest then some (s.leave 2)
    else some s
  else some s

/-- The step over a byte of code inside a bracket. -/
def readBracketed (s : Reader) (closer b : Byte) : Option Reader :=
  match closerOf? b with
  | some inner => some (s.enter (.bracket inner) 0)
  | none =>
    if isCloser b then
      if b = closer then some (s.leave 0) else none
    else some s

/-- The step over byte `b` with `rest` behind it. -/
def read (s : Reader) (b : Byte) (rest : Text) : Option Reader :=
  let moved := { s with afterName := Byte.isIdentifier b }
  match s.pending with
  | n + 1 => some { moved with pending := n }
  | 0 =>
    match s.frames with
    | .lineComment :: _ => some (if b = Byte.newline then moved.leave 0 else moved)
    | .blockComment :: _ => some (moved.readBlock b rest)
    | .string quote triple raw :: _ => moved.readString quote triple raw b rest
    | .bracket closer :: _ =>
      match opening? s.afterName b rest with
      | some (frame, n) => some (moved.enter frame n)
      | none => moved.readBracketed closer b
    | [] =>
      match opening? s.afterName b rest with
      | some (frame, n) => some { moved.enter frame n with region := frame.region }
      | none => some { moved with region := .code }

/-- How many bytes are read until nothing is open any more. -/
def lengthToRest (s : Reader) : Text → Option Nat
  | [] => none
  | b :: rest =>
    match s.read b rest with
    | none => none
    | some next => if next.atRest then some 1 else (next.lengthToRest rest).map (· + 1)

/-- A reader that comes to rest has read at least one byte and no more than there are. -/
theorem lengthToRest_bounds {s : Reader} {t : Text} {n : Nat} (h : s.lengthToRest t = some n) :
    0 < n ∧ n ≤ t.length := by
  induction t generalizing s n with
  | nil => simp [lengthToRest] at h
  | cons b rest ih =>
    simp only [lengthToRest] at h
    split at h
    · simp at h
    · split at h
      · obtain rfl := Option.some.inj h
        simp
      · obtain ⟨m, hm, rfl⟩ := Option.map_eq_some_iff.mp h
        have := ih hm
        simp only [List.length_cons]
        omega

end Reader

end FlutterScaffold.Dart

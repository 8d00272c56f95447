import FlutterScaffold.Text.Byte

/-!
# Where an expansion ends

An expansion in a command line holds text of its own: a script, a sum or an alternative. Its end is
found by reading on with a stack of what is open, since quotes, scripts and braces nest in each
other and each closes only itself.
-/

namespace FlutterScaffold.Shell

/-- The grave accent, between two of which a script is replaced by its output. -/
abbrev grave : Byte := 96

/-- What is open at a byte of an expansion. -/
inductive Frame where
  /-- A script in parentheses. -/
  | script
  /-- The list of cases in a script, in which a closing parenthesis ends a pattern. -/
  | cases
  /-- A sum in double parentheses. -/
  | sum
  /-- Parentheses inside of a sum. -/
  | group
  /-- A parameter in braces, perhaps between double quotes. -/
  | braces (quoted : Bool)
  /-- A script between grave accents. -/
  | graves
  | double
  | single
  /-- The rest of a line. -/
  | comment
  deriving DecidableEq, Repr

/-- What a byte does to the stack. The numbers count the bytes behind it that belong to it. -/
inductive Move where
  | stay (bytes : Nat)
  | enter (frame : Frame) (bytes : Nat)
  | leave (bytes : Nat)
  deriving DecidableEq, Repr

/-- Bytes behind which a word may start. -/
def isBreak (b : Byte) : Bool := Byte.isBlank b || (lit "\n;&|()").contains b

/-- Whether a text starts with a word that ends there. -/
def startsWord (word : String) (t : Text) : Bool :=
  (lit word).isPrefixOf t && (t.drop word.length).head?.all isBreak

/-- What is opened by a dollar sign before a text. -/
def openedBy? (quoted : Bool) (rest : Text) : Option (Frame × Nat) :=
  if (lit "((").isPrefixOf rest then some (.sum, 2)
  else if rest.head? = some (byte '(') then some (.script, 1)
  else if rest.head? = some (byte '\x7b') then some (.braces quoted, 1)
  else none

/-- The move over a byte that means the same wherever expansions are made. -/
def expansionMove (quoted : Bool) (b : Byte) (rest : Text) : Move :=
  if b = Byte.backslash then .stay 1
  else if b = grave then .enter .graves 0
  else if b = byte '$' then
    match openedBy? quoted rest with
    | some (frame, n) => .enter frame n
    | none => .stay 0
  else .stay 0

/-- The move over a byte of a script. -/
def scriptMove (inCases fresh : Bool) (b : Byte) (rest : Text) : Move :=
  if b = Byte.quote then .enter .single 0
  else if b = Byte.doubleQuote then .enter .double 0
  else if b = byte '(' then .enter .script 0
  else if b = byte ')' then if inCases then .stay 0 else .leave 0
  else if fresh && b = byte '#' then .enter .comment 0
  else if fresh && startsWord "case" (b :: rest) then .enter .cases 3
  else if fresh && inCases && startsWord "esac" (b :: rest) then .leave 3
  else expansionMove false b rest

/-- The move over a byte when a frame is the innermost one. `fresh` tells that a word may start
there. -/
def moveIn (frame : Frame) (fresh : Bool) (b : Byte) (rest : Text) : Move :=
  match frame with
  | .script => scriptMove false fresh b rest
  | .cases => scriptMove true fresh b rest
  | .sum =>
    if b = byte '(' then .enter .group 0
    else if b = byte ')' && rest.head? = some (byte ')') then .leave 1
    else expansionMove true b rest
  | .group =>
    if b = byte '(' then .enter .group 0
    else if b = byte ')' then .leave 0
    else expansionMove true b rest
  | .braces quoted =>
    if b = byte '\x7d' then .leave 0
    else if !quoted && b = Byte.quote then .enter .single 0
    else if !quoted && b = Byte.doubleQuote then .enter .double 0
    else expansionMove quoted b rest
  | .graves =>
    if b = grave then .leave 0 else if b = Byte.backslash then .stay 1 else .stay 0
  | .double => if b = Byte.doubleQuote then .leave 0 else expansionMove true b rest
  | .single => if b = Byte.quote then .leave 0 else .stay 0
  | .comment => if b = Byte.newline then .leave 0 else .stay 0

/-- How many bytes of a text it takes to close a frame and the frames below it, the closing bytes
included; `skip` bytes have been dealt with. -/
def extentFrom (frame : Frame) (below : List Frame) (fresh : Bool) (skip : Nat) :
    Text → Option Nat
  | [] => none
  | b :: rest =>
    Option.map (· + 1) <|
      match skip with
      | skip + 1 => extentFrom frame below false skip rest
      | 0 =>
        match moveIn frame fresh b rest with
        | .stay n => extentFrom frame below (isBreak b) n rest
        | .enter inner n => extentFrom inner (frame :: below) true n rest
        | .leave n =>
          match below with
          | [] => some n
          | outer :: below => extentFrom outer below (frame = .comment) n rest

/-- How many bytes of a text it takes to close a frame that was opened before it. -/
def extent? (frame : Frame) (t : Text) : Option Nat := extentFrom frame [] true 0 t

end FlutterScaffold.Shell

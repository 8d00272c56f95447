import FlutterScaffold.Shell.Word
import FlutterScaffold.Text.Line

/-!
# Words and operators of a command line

A command line is cut into words and operators. Between single quotes every byte stands for itself;
between double quotes an expansion is still one, and a backslash quotes only the bytes that keep a
meaning there. A document that is given in the lines behind a command becomes a token of its own at
the end of the command's line. The same reading serves the texts inside of an expansion, in which
spaces and operators have no meaning.
-/

namespace FlutterScaffold.Shell

/-- Where a redirected stream goes or comes from. -/
inductive Redirection where
  /-- Into a file that is emptied first, perhaps even if it must not be overwritten. -/
  | write (always : Bool)
  /-- Into a file, behind what it holds. -/
  | append
  /-- From a file. -/
  | read
  /-- Where another stream goes or comes from. -/
  | duplicate
  /-- From the lines that follow, which may lose the tabs they start with. -/
  | document (untabbed : Bool)
  deriving DecidableEq, Repr

/-- A word, an operator or the end of a line. -/
inductive Token where
  | word (parts : Word)
  | redirect (stream : Nat) (kind : Redirection)
  /-- Lines given as input, with or without expansions in them. -/
  | lines (body : Text) (literal : Bool)
  | andThen
  | orElse
  | pipe
  | background
  | semicolon
  | doubleSemicolon
  | newline
  | openParen
  | closeParen
  /-- The end of a text in which a quote or an expansion is open. -/
  | unclosed
  deriving DecidableEq, Repr

/-- What a text is read as. -/
inductive Context where
  /-- A line of words and operators. -/
  | command
  /-- One word, in which spaces and operators have no meaning; perhaps between double quotes. -/
  | operand (quoted : Bool)
  /-- Lines in which only expansions have a meaning. -/
  | document
  deriving DecidableEq, Repr

/-- How the current byte is quoted. -/
inductive Quoting where
  | none
  | single
  | double
  deriving DecidableEq, Repr

/-- A document that is announced on a line. -/
structure Announced where
  delimiter : Text
  literal : Bool
  untabbed : Bool
  deriving DecidableEq, Repr

/-- The state of the reading. -/
structure Reading where
  quoting : Quoting := .none
  /-- The word under way, last part first, with the bytes of each part in reverse. -/
  word : Option Word := none
  /-- Whether the next word ends a document, and whether that loses its tabs. -/
  awaited : Option Bool := none
  announced : List Announced := []
  deriving DecidableEq, Repr

namespace Reading

/-- One more byte of text. -/
def byte (s : Reading) (b : Byte) (quoted : Bool) : Reading :=
  { s with
    word := some <|
      match s.word with
      | some (.text bytes q :: more) =>
        if q = quoted then .text (b :: bytes) q :: more
        else .text [b] quoted :: .text bytes q :: more
      | some parts => .text [b] quoted :: parts
      | .none => [.text [b] quoted] }

/-- One more part that is no text. -/
def part (s : Reading) (p : Part) : Reading := { s with word := some (p :: s.word.getD []) }

/-- The start of a quotation. One that closes at once leaves an empty part. -/
def openQuote (s : Reading) (quoting : Quoting) (mark : Byte) (rest : Text) : Reading :=
  let parts := s.word.getD []
  { s with
    quoting := quoting
    word := some (if rest.head? = some mark then .text [] true :: parts else parts) }

/-- The word under way, in order. -/
def wordParts (s : Reading) : Word :=
  (s.word.getD []).reverse.map fun part =>
    match part with
    | .text bytes quoted => .text bytes.reverse quoted
    | part => part

/-- The word under way as a token, and the state behind it. -/
def close (s : Reading) : List Token × Reading :=
  match s.word with
  | .none => ([], s)
  | some _ =>
    let parts := s.wordParts
    let s := { s with word := .none }
    match s.awaited with
    | .none => ([.word parts], s)
    | some untabbed =>
      let textOf : Part → Text
        | .text bytes _ => bytes
        | _ => []
      let quoted : Part → Bool
        | .text _ quoted => quoted
        | _ => false
      let announced : Announced := ⟨parts.flatMap textOf, parts.any quoted, untabbed⟩
      ([.word parts], { s with awaited := .none, announced := s.announced ++ [announced] })

end Reading

/-- The lines of a document up to the one that ends it, and how many bytes it takes in all. -/
def documentOf (doc : Announced) : List Text → Text × Nat
  | [] => ([], 0)
  | line :: more =>
    let kept := if doc.untabbed then line.dropWhile (· == 9) else line
    let size := line.length + (if more.isEmpty then 0 else 1)
    if kept = doc.delimiter then ([], size)
    else
      let (body, n) := documentOf doc more
      (kept ++ (if more.isEmpty then [] else [Byte.newline]) ++ body, size + n)

/-- The documents at the start of a text, and how many bytes they take. -/
def documentsOf (text : Text) : List Announced → List Token × Nat
  | [] => ([], 0)
  | doc :: more =>
    let (body, n) := documentOf doc (Text.cut Byte.newline text)
    let (tokens, m) := documentsOf (text.drop n) more
    (.lines body doc.literal :: tokens, n + m)

/-- The operator that a text starts with, and how many bytes it takes. `stream` is the number
written before it. -/
def operator? (stream : Option Nat) (t : Text) : Option (Token × Nat) :=
  let source := stream.getD 0
  let into := stream.getD 1
  let table : List (String × Token) :=
    [("&&", .andThen), ("||", .orElse), (";;", .doubleSemicolon), (">>", .redirect into .append),
      (">&", .redirect into .duplicate), (">|", .redirect into (.write true)),
      ("<<-", .redirect source (.document true)), ("<<", .redirect source (.document false)),
      ("<&", .redirect source .duplicate), ("<>", .redirect source .read),
      (">", .redirect into (.write false)), ("<", .redirect source .read), ("|", .pipe),
      ("&", .background),
      (";", .semicolon), ("\n", .newline), ("(", .openParen), (")", .closeParen)]
  (table.find? fun (spelling, _) => (lit spelling).isPrefixOf t).map fun (spelling, token) =>
    (token, spelling.length)

/-- The number of a stream, when the word under way is one unquoted digit. -/
def streamOf? (s : Reading) : Option Nat :=
  match s.word with
  | some [.text [b] false] => if Byte.isDigit b then some (b.toNat - 48) else none
  | _ => none

/-- Whether a backslash between double quotes takes away the meaning of a byte. -/
def escapesInDouble (context : Context) (b : Byte) : Bool :=
  b == Byte.backslash || b == byte '$' || b == grave ||
    match context with
    | .command => b == Byte.doubleQuote
    | .operand _ => b == Byte.doubleQuote || b == byte '\x7d'
    | .document => false

/-- One step over a byte: the tokens that end before or at it, the state behind it, and how many of
the bytes that follow belong to it. None when an expansion is not closed. -/
def readByte (context : Context) (s : Reading) (b : Byte) (rest : Text) :
    Option (List Token × Reading × Nat) :=
  let quoted := s.quoting = .double
  let expand (otherwise : List Token × Reading × Nat) : Option (List Token × Reading × Nat) :=
    match foundAt quoted b rest with
    | .plain => some otherwise
    | .unclosed => none
    | .part p n => some ([], s.part p, n)
  match s.quoting with
  | .single =>
    if b = Byte.quote then some ([], { s with quoting := .none }, 0)
    else some ([], s.byte b true, 0)
  | .double =>
    if b = Byte.doubleQuote && context = .command then some ([], { s with quoting := .none }, 0)
    else if b = Byte.doubleQuote && context = .operand true then some ([], s, 0)
    else if b = Byte.doubleQuote && context = .operand false then
      some ([], { s with quoting := .none }, 0)
    else if b = Byte.backslash then
      match rest.head? with
      | none => some ([], s.byte b true, 0)
      | some c =>
        if c = Byte.newline then some ([], s, 1)
        else if escapesInDouble context c then some ([], s.byte c true, 1)
        else some ([], s.byte b true, 0)
    else expand ([], s.byte b true, 0)
  | .none =>
    if b = Byte.quote then some ([], s.openQuote .single b rest, 0)
    else if b = Byte.doubleQuote then some ([], s.openQuote .double b rest, 0)
    else if b = Byte.backslash then
      match rest.head? with
      | none => some ([], s.byte b true, 0)
      | some c => if c = Byte.newline then some ([], s, 1) else some ([], s.byte c true, 1)
    else if context = .command then
      if Byte.isBlank b then
        let (tokens, s) := s.close
        some (tokens, s, 0)
      else if b = byte '#' && s.word.isNone then
        some ([], s, (rest.takeWhile (· != Byte.newline)).length)
      else
        match operator? (streamOf? s) (b :: rest) with
        | none => expand ([], s.byte b false, 0)
        | some (token, n) =>
          match token with
          | .redirect _ kind =>
            let (tokens, s) :=
              if (streamOf? s).isSome then ([], { s with word := none }) else s.close
            let awaited :=
              match kind with
              | .document untabbed => some untabbed
              | _ => none
            some (tokens ++ [token], { s with awaited := awaited }, n - 1)
          | .newline =>
            let (tokens, s) := s.close
            let (documents, m) := documentsOf rest s.announced
            some (tokens ++ token :: documents, { s with announced := [] }, m)
          | _ =>
            let (tokens, s) := s.close
            some (tokens ++ [token], s, n - 1)
    else expand ([], s.byte b false, 0)

/-- The tokens that are left at the end of a text. -/
def readEnd (context : Context) (s : Reading) : List Token :=
  if s.quoting = .none || context != .command && s.quoting = .double then
    let (tokens, s) := s.close
    tokens ++ (documentsOf [] s.announced).1
  else [.unclosed]

/-- The tokens of a text read on from a state; `skip` bytes have been dealt with. -/
def readFrom (context : Context) (s : Reading) (skip : Nat) : Text → List Token
  | [] => readEnd context s
  | b :: rest =>
    match skip with
    | skip + 1 => readFrom context s skip rest
    | 0 =>
      match readByte context s b rest with
      | none => [.unclosed]
      | some (tokens, s, n) => tokens ++ readFrom context s n rest

/-- The tokens of a command line. -/
def tokens (t : Text) : List Token := readFrom .command {} 0 t

/-- The parts of a text that is one word. -/
def partsOf (context : Context) (t : Text) : Word :=
  let quoting : Quoting :=
    match context with
    | .operand true | .document => .double
    | _ => .none
  match readFrom context { quoting := quoting } 0 t with
  | [.word parts] => parts
  | _ => []

end FlutterScaffold.Shell

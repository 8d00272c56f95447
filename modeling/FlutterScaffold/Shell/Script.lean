import FlutterScaffold.Shell.Token

/-!
# Scripts

A script is built from simple commands, each a list of words with assignments before it and
redirections in it, by sequencing, the two conditional connectives, pipes, conditionals, loops,
cases and functions. It is parsed from its tokens; the words that open and close the compound forms
are recognized where a command may start and only unquoted. A text is parsed one line of commands at
a time, so that the lines before a mistake are still run.
-/

namespace FlutterScaffold.Shell

/-- What a redirection names. -/
inductive Target where
  | word (w : Word)
  /-- Lines given as input, with or without expansions in them. -/
  | lines (body : Text) (literal : Bool)
  deriving DecidableEq, Repr

/-- A redirection of a stream. -/
structure Redirect where
  stream : Nat
  kind : Redirection
  target : Target
  deriving DecidableEq, Repr

/-- A script. -/
inductive Script where
  /-- Nothing to do. -/
  | done
  /-- A command by its words. -/
  | simple (assignments : List (Text × Word)) (words : List Word) (redirects : List Redirect)
  /-- One after the other. -/
  | sequence (first second : Script)
  /-- The second if the first succeeds. -/
  | andThen (first second : Script)
  /-- The second if the first fails. -/
  | orElse (first second : Script)
  /-- The second on the output of the first. -/
  | pipe (first second : Script)
  /-- The negated status. -/
  | negate (script : Script)
  /-- One or the other. -/
  | conditional (test yes no : Script)
  /-- As long as the test succeeds, or as long as it fails. -/
  | loop (onSuccess : Bool) (test body : Script)
  /-- Once for each field of the words, or for each argument when there is no list of words. -/
  | forEach (name : Text) (words : Option (List Word)) (body : Script)
  /-- The first of the arms that fits a word. -/
  | choice (subject : Word) (arms : Script)
  /-- What is done when a word fits one of the patterns, and the arms to try otherwise. -/
  | arm (patterns : List Word) (body others : Script)
  /-- Gives a name to a script. -/
  | define (name : Text) (body : Script)
  /-- In a shell of its own that nobody waits for. -/
  | background (script : Script)
  /-- In a shell of its own. -/
  | subshell (script : Script)
  /-- With redirections of the whole. -/
  | redirected (script : Script) (redirects : List Redirect)
  deriving DecidableEq, Repr

/-! ## Tokens by what they may be -/

/-- The words that close a part of a compound form. -/
def closers : List Text := ["then", "elif", "else", "fi", "do", "done", "esac", "\x7d"].map lit

/-- The keyword that a token may be. -/
def keywordOf? : Token → Option Text
  | .word [.text bytes false] => some bytes
  | _ => none

/-- Whether a token is a certain keyword. -/
def Token.isKeyword (word : String) (token : Token) : Bool := keywordOf? token = some (lit word)

/-- The tokens without line ends at the front. -/
def skipNewlines (tokens : List Token) : List Token := tokens.dropWhile (· = .newline)

/-- The tokens behind a keyword. -/
def expect? (word : String) : List Token → Option (List Token)
  | [] => none
  | t :: more => if t.isKeyword word then some more else none

/-- Whether a list of commands ends before the given tokens. -/
def endsList : List Token → Bool
  | [] => true
  | t :: _ => t = .closeParen || t = .doubleSemicolon || (keywordOf? t).any closers.contains

/-- Puts each document where it is announced. The documents come in the order in which they are
announced. -/
def placeDocuments : List Token → List Token → List Token
  | _, [] => []
  | doc :: documents, .redirect stream (.document untabbed) :: .word _ :: more =>
    .redirect stream (.document untabbed) :: doc :: placeDocuments documents more
  | documents, .lines _ _ :: more => placeDocuments documents more
  | documents, t :: more => t :: placeDocuments documents more

/-- Whether a token holds a document. -/
def Token.isDocument : Token → Bool
  | .lines .. => true
  | _ => false

/-! ## Simple commands -/

/-- The assignment that a word is, split at its equals sign. -/
def assignment? : Word → Option (Text × Word)
  | .text bytes false :: more =>
    let name := bytes.takeWhile isNameByte
    match bytes.drop name.length with
    | [] => none
    | b :: value =>
      if b = byte '=' && isName name then
        some (name, if value.isEmpty then more else .text value false :: more)
      else none
  | _ => none

/-- The words and redirections of a simple command, and what follows them. -/
def simpleParts : List Token → Option (List Word × List Redirect × List Token)
  | .word parts :: more => do
    let (words, redirects, rest) ← simpleParts more
    return (parts :: words, redirects, rest)
  | .redirect stream kind :: .word w :: more => do
    let (words, redirects, rest) ← simpleParts more
    return (words, ⟨stream, kind, .word w⟩ :: redirects, rest)
  | .redirect stream kind :: .lines body literal :: more => do
    let (words, redirects, rest) ← simpleParts more
    return (words, ⟨stream, kind, .lines body literal⟩ :: redirects, rest)
  | .redirect .. :: _ => none
  | tokens => some ([], [], tokens)

/-- The assignments that a list of words starts with, and the words behind them. -/
def splitAssignments : List Word → List (Text × Word) × List Word
  | [] => ([], [])
  | w :: more =>
    match assignment? w with
    | none => ([], w :: more)
    | some a =>
      let (assignments, words) := splitAssignments more
      (a :: assignments, words)

/-- The words at the front of some tokens. -/
def listedWords : List Token → List Word × List Token
  | .word parts :: more =>
    let (words, rest) := listedWords more
    (parts :: words, rest)
  | tokens => ([], tokens)

/-- The patterns of an arm, up to the parenthesis behind them. -/
def armPatterns : List Token → Option (List Word × List Token)
  | .word w :: .pipe :: more => do
    let (patterns, rest) ← armPatterns more
    return (w :: patterns, rest)
  | .word w :: .closeParen :: more => some ([w], more)
  | _ => none

/-- A compound form with the redirections that follow it. -/
def withRedirects (parsed : Option (Script × List Token)) : Option (Script × List Token) := do
  let (script, tokens) ← parsed
  match tokens with
  | .redirect .. :: _ =>
    let (words, redirects, rest) ← simpleParts tokens
    if words.isEmpty then return (.redirected script redirects, rest) else none
  | _ => return (script, tokens)

/-! ## Compound commands -/

mutual

/-- A list of commands, up to the token that closes it. -/
def parseList : Nat → List Token → Option (Script × List Token)
  | 0, _ => none
  | fuel + 1, tokens =>
    let tokens := skipNewlines tokens
    if endsList tokens then some (.done, tokens)
    else do
      let (first, rest) ← parseChain fuel tokens
      match rest with
      | .semicolon :: more | .newline :: more =>
        let (second, rest) ← parseList fuel more
        return (if second = .done then first else .sequence first second, rest)
      | .background :: more =>
        let (second, rest) ← parseList fuel more
        return (.sequence (.background first) second, rest)
      | _ => if endsList rest then return (first, rest) else none

/-- A list of commands that must not be empty. -/
def parseBody : Nat → List Token → Option (Script × List Token)
  | 0, _ => none
  | fuel + 1, tokens => do
    if endsList (skipNewlines tokens) then none else parseList fuel tokens

/-- Pipelines joined by the two conditional connectives. -/
def parseChain : Nat → List Token → Option (Script × List Token)
  | 0, _ => none
  | fuel + 1, tokens => do
    let (first, rest) ← parsePipeline fuel tokens
    parseLinks fuel first rest

/-- The further links of a chain. -/
def parseLinks : Nat → Script → List Token → Option (Script × List Token)
  | 0, _, _ => none
  | fuel + 1, first, tokens =>
    match tokens with
    | .andThen :: more => do
      let (second, rest) ← parsePipeline fuel (skipNewlines more)
      parseLinks fuel (.andThen first second) rest
    | .orElse :: more => do
      let (second, rest) ← parsePipeline fuel (skipNewlines more)
      parseLinks fuel (.orElse first second) rest
    | _ => some (first, tokens)

/-- Commands joined by pipes, which may be negated. -/
def parsePipeline : Nat → List Token → Option (Script × List Token)
  | 0, _ => none
  | fuel + 1, tokens =>
    match expect? "!" tokens with
    | some more => do
      let (script, rest) ← parsePipes fuel more
      return (.negate script, rest)
    | none => parsePipes fuel tokens

/-- Commands joined by pipes. -/
def parsePipes : Nat → List Token → Option (Script × List Token)
  | 0, _ => none
  | fuel + 1, tokens => do
    let (first, rest) ← parseCommand fuel tokens
    match rest with
    | .pipe :: more =>
      let (second, rest) ← parsePipes fuel (skipNewlines more)
      return (.pipe first second, rest)
    | _ => return (first, rest)

/-- A simple command, a compound form or the definition of a function. -/
def parseCommand : Nat → List Token → Option (Script × List Token)
  | 0, _ => none
  | fuel + 1, tokens =>
    match tokens with
    | [] => none
    | .openParen :: more => withRedirects do
      let (script, rest) ← parseBody fuel more
      match rest with
      | .closeParen :: rest => return (.subshell script, rest)
      | _ => none
    | token :: .openParen :: .closeParen :: more => do
      let name ← keywordOf? token
      if isName name then
        let (body, rest) ← parseCommand fuel (skipNewlines more)
        return (.define name body, rest)
      else none
    | token :: more =>
      if token.isKeyword "if" then withRedirects (parseConditional fuel more)
      else if token.isKeyword "while" then withRedirects (parseLoop fuel true more)
      else if token.isKeyword "until" then withRedirects (parseLoop fuel false more)
      else if token.isKeyword "for" then withRedirects (parseEach fuel more)
      else if token.isKeyword "case" then
        match more with
        | .word subject :: more => withRedirects do
          let rest ← expect? "in" (skipNewlines more)
          let (arms, rest) ← parseArms fuel rest
          return (.choice subject arms, rest)
        | _ => none
      else if token.isKeyword "\x7b" then withRedirects do
        let (script, rest) ← parseBody fuel more
        return (script, ← expect? "\x7d" rest)
      else if (keywordOf? token).any closers.contains || token.isKeyword "!" || token.isKeyword "in"
      then none
      else do
        let (words, redirects, rest) ← simpleParts tokens
        if words.isEmpty && redirects.isEmpty then none
        else
          let (assignments, words) := splitAssignments words
          return (.simple assignments words redirects, rest)

/-- A conditional behind its first word. -/
def parseConditional : Nat → List Token → Option (Script × List Token)
  | 0, _ => none
  | fuel + 1, tokens => do
    let (test, rest) ← parseBody fuel tokens
    let rest ← expect? "then" rest
    let (yes, rest) ← parseBody fuel rest
    match rest with
    | [] => none
    | token :: more =>
      if token.isKeyword "fi" then return (.conditional test yes .done, more)
      else if token.isKeyword "elif" then
        let (no, rest) ← parseConditional fuel more
        return (.conditional test yes no, rest)
      else if token.isKeyword "else" then
        let (no, rest) ← parseBody fuel more
        return (.conditional test yes no, ← expect? "fi" rest)
      else none

/-- A loop behind its first word. -/
def parseLoop : Nat → Bool → List Token → Option (Script × List Token)
  | 0, _, _ => none
  | fuel + 1, onSuccess, tokens => do
    let (test, rest) ← parseBody fuel tokens
    let rest ← expect? "do" rest
    let (body, rest) ← parseBody fuel rest
    return (.loop onSuccess test body, ← expect? "done" rest)

/-- A loop over words behind its first word. -/
def parseEach : Nat → List Token → Option (Script × List Token)
  | 0, _ => none
  | fuel + 1, tokens =>
    match tokens with
    | [] => none
    | token :: more => do
      let name ← keywordOf? token
      if !isName name then none
      let more := skipNewlines more
      let (words, rest) ←
        match expect? "in" more with
        | some rest =>
          let (words, rest) := listedWords rest
          match rest with
          | .semicolon :: rest | .newline :: rest => some (some words, rest)
          | _ => none
        | none =>
          match more with
          | .semicolon :: rest => some (none, rest)
          | rest => some (none, rest)
      let rest ← expect? "do" (skipNewlines rest)
      let (body, rest) ← parseBody fuel rest
      return (.forEach name words body, ← expect? "done" rest)

/-- The arms of a list of cases, up to the word that closes it. -/
def parseArms : Nat → List Token → Option (Script × List Token)
  | 0, _ => none
  | fuel + 1, tokens =>
    let tokens := skipNewlines tokens
    match expect? "esac" tokens with
    | some rest => some (.done, rest)
    | none => do
      let (patterns, rest) ←
        armPatterns <|
          match tokens with
          | .openParen :: more => more
          | tokens => tokens
      let (body, rest) ← parseList fuel rest
      match rest with
      | .doubleSemicolon :: more =>
        let (others, rest) ← parseArms fuel more
        return (.arm patterns body others, rest)
      | _ => return (.arm patterns body .done, ← expect? "esac" rest)

end

/-- One line of commands, and the tokens of the lines behind it. -/
def parseLine (fuel : Nat) (tokens : List Token) : Option (Script × List Token) :=
  match fuel with
  | 0 => none
  | fuel + 1 => do
    let (first, rest) ← parseChain fuel tokens
    let continued (first : Script) (more : List Token) : Option (Script × List Token) :=
      match more with
      | [] | .newline :: _ => some (first, more)
      | _ => do
        let (second, rest) ← parseLine fuel more
        return (.sequence first second, rest)
    match rest with
    | [] | .newline :: _ => return (first, rest)
    | .semicolon :: more => continued first more
    | .background :: more => continued (.background first) more
    | _ => none

/-- The lines of commands that some tokens spell, up to the first that is not well formed; whether
there is such a line is told beside them. -/
def parseLines : Nat → List Token → List Script × Bool
  | 0, _ => ([], true)
  | fuel + 1, tokens =>
    match skipNewlines tokens with
    | [] => ([], false)
    | tokens =>
      match parseLine fuel tokens with
      | none => ([], true)
      | some (script, rest) =>
        let (scripts, broken) := parseLines fuel rest
        (script :: scripts, broken)

/-- The lines of commands that a text spells, and whether it ends in one that is not well formed.
Every call of a parser either takes a token or is one of the few that lie between two tokens, so
that the number of tokens bounds the work. -/
def scriptsOf (t : Text) : List Script × Bool :=
  let all := tokens t
  parseLines (10 * all.length + 10) (placeDocuments (all.filter Token.isDocument) all)

end FlutterScaffold.Shell

import FlutterScaffold.Shell.Number

/-!
# Arithmetic expressions

The value of an arithmetic expansion is a word of 64 bits. Expressions are built from numbers and
variables by the operators of a programming language, with their usual ranks, and may assign to
variables. They are parsed to trees and the trees are evaluated, so that the side of a choice that
is not taken assigns nothing. A variable without a value counts as zero.
-/

namespace FlutterScaffold.Shell

/-- Operations on two numbers. -/
inductive Operation where
  | times | over | modulo
  | plus | minus
  | shiftLeft | shiftRight
  | less | lessEqual | greater | greaterEqual
  | equal | notEqual
  | bitAnd | bitXor | bitOr
  deriving DecidableEq, Repr

/-- Operations on one number. -/
inductive Sign where
  | plus | minus | complement | not
  deriving DecidableEq, Repr

/-- An arithmetic expression. -/
inductive Expr where
  | number (n : Int64)
  | named (name : Text)
  | unary (sign : Sign) (e : Expr)
  | binary (operation : Operation) (a b : Expr)
  /-- One if both are not zero. -/
  | both (a b : Expr)
  /-- One unless both are zero. -/
  | either (a b : Expr)
  | choice (test yes no : Expr)
  /-- Assigns to a variable, perhaps the result of an operation on its old value. -/
  | assign (name : Text) (operation : Option Operation) (e : Expr)
  deriving DecidableEq, Repr

/-- Why an expression has no value. -/
inductive ArithmeticFault where
  /-- A number or variable is missing. -/
  | malformed
  /-- The expression ends before its text does. -/
  | trailing
  | divisionByZero
  | notANumber (t : Text)
  deriving DecidableEq, Repr

/-- What is said about an expression without a value. -/
def ArithmeticFault.message (expression : Text) : ArithmeticFault → Text
  | .malformed => lit "arithmetic expression: expecting primary: \"" ++ expression ++ lit "\""
  | .trailing => lit "arithmetic expression: expecting EOF: \"" ++ expression ++ lit "\""
  | .divisionByZero => lit "arithmetic expression: division by zero: \"" ++ expression ++ lit "\""
  | .notANumber t => lit "Illegal number: " ++ t

/-- An integer as a word, cut off at the bounds of words. -/
def clampWord (n : Int) : Int64 :=
  Int64.ofInt (max Int64.minValue.toInt (min n Int64.maxValue.toInt))

/-! ## Reading -/

/-- The smallest pieces of an expression. -/
inductive Lexeme where
  | number (n : Int64)
  | name (t : Text)
  | symbol (s : String)
  deriving DecidableEq, Repr

/-- The symbols of expressions, each before its own beginnings. -/
def symbols : List String :=
  ["<<=", ">>=", "<<", ">>", "<=", ">=", "==", "!=", "&&", "||", "*=", "/=", "%=", "+=", "-=", "&=",
    "^=", "|=", "*", "/", "%", "+", "-", "<", ">", "=", "!", "&", "^", "|", "~", "?", ":", "(", ")"]

/-- The lexeme at the start of a text, and how many bytes it takes. -/
def lexeme? (t : Text) : Option (Lexeme × Nat) :=
  match t with
  | [] => none
  | b :: _ =>
    if Byte.isDigit b then (naturalAt? true t).map fun (n, size) => (.number (clampWord n), size)
    else if Byte.isAlnum b || b = byte '_' then
      let name := t.takeWhile fun c => Byte.isAlnum c || c == byte '_'
      some (.name name, name.length)
    else
      (symbols.find? fun s => (lit s).isPrefixOf t).map fun s => (.symbol s, s.length)

/-- The lexemes of an expression; `skip` bytes have been dealt with. A byte that starts no lexeme is
left as a symbol without a meaning. -/
def lexemesFrom (skip : Nat) : Text → List Lexeme
  | [] => []
  | b :: rest =>
    match skip with
    | skip + 1 => lexemesFrom skip rest
    | 0 =>
      if Byte.isLayout b then lexemesFrom 0 rest
      else
        let (lexeme, n) := (lexeme? (b :: rest)).getD (.symbol "", 1)
        lexeme :: lexemesFrom (n - 1) rest

/-- The operations on two numbers by rank, the tightest first. -/
def ranks : List (List (String × Operation)) :=
  [[("*", .times), ("/", .over), ("%", .modulo)], [("+", .plus), ("-", .minus)],
    [("<<", .shiftLeft), (">>", .shiftRight)],
    [("<", .less), ("<=", .lessEqual), (">", .greater), (">=", .greaterEqual)],
    [("==", .equal), ("!=", .notEqual)], [("&", .bitAnd)], [("^", .bitXor)], [("|", .bitOr)]]

/-- The operation of a rank that a list of lexemes starts with. -/
def operationOf? (rank : Nat) : List Lexeme → Option (Operation × List Lexeme)
  | .symbol s :: rest => ((ranks.getD rank []).lookup s).map fun operation => (operation, rest)
  | _ => none

/-- The operation that an assignment makes with the old value. -/
def assigner? (s : String) : Option (Option Operation) :=
  if s = "=" then some none
  else
    let table : List (String × Operation) :=
      [("*=", .times), ("/=", .over), ("%=", .modulo), ("+=", .plus), ("-=", .minus),
        ("<<=", .shiftLeft), (">>=", .shiftRight), ("&=", .bitAnd), ("^=", .bitXor), ("|=", .bitOr)]
    (table.lookup s).map some

/-- The sign that a symbol is in front of a number. -/
def sign? (s : String) : Option Sign :=
  [("+", Sign.plus), ("-", .minus), ("~", .complement), ("!", .not)].lookup s

mutual

/-- An assignment or a choice, and what follows it. -/
def parseExpr : Nat → List Lexeme → Option (Expr × List Lexeme)
  | 0, _ => none
  | fuel + 1, lexemes =>
    match lexemes with
    | .name name :: .symbol s :: rest =>
      match assigner? s with
      | some operation => do
        let (e, rest) ← parseExpr fuel rest
        return (.assign name operation e, rest)
      | none => parseChoice fuel lexemes
    | _ => parseChoice fuel lexemes

/-- A choice by a test, or a test alone. -/
def parseChoice : Nat → List Lexeme → Option (Expr × List Lexeme)
  | 0, _ => none
  | fuel + 1, lexemes => do
    let (test, rest) ← parseEither fuel lexemes
    match rest with
    | .symbol "?" :: rest =>
      let (yes, rest) ← parseExpr fuel rest
      match rest with
      | .symbol ":" :: rest =>
        let (no, rest) ← parseChoice fuel rest
        return (.choice test yes no, rest)
      | _ => none
    | _ => return (test, rest)

/-- Tests of which one has to hold. -/
def parseEither : Nat → List Lexeme → Option (Expr × List Lexeme)
  | 0, _ => none
  | fuel + 1, lexemes => do
    let (a, rest) ← parseBoth fuel lexemes
    match rest with
    | .symbol "||" :: rest =>
      let (b, rest) ← parseEither fuel rest
      return (.either a b, rest)
    | _ => return (a, rest)

/-- Tests that have to hold together. -/
def parseBoth : Nat → List Lexeme → Option (Expr × List Lexeme)
  | 0, _ => none
  | fuel + 1, lexemes => do
    let (a, rest) ← parseRank fuel ranks.length lexemes
    match rest with
    | .symbol "&&" :: rest =>
      let (b, rest) ← parseBoth fuel rest
      return (.both a b, rest)
    | _ => return (a, rest)

/-- Operations of the ranks below a bound. -/
def parseRank : Nat → Nat → List Lexeme → Option (Expr × List Lexeme)
  | 0, _, _ => none
  | fuel + 1, 0, lexemes => parsePrimary fuel lexemes
  | fuel + 1, rank + 1, lexemes => do
    let (a, rest) ← parseRank fuel rank lexemes
    parseOperations fuel rank a rest

/-- The further operations of a rank. -/
def parseOperations : Nat → Nat → Expr → List Lexeme → Option (Expr × List Lexeme)
  | 0, _, _, _ => none
  | fuel + 1, rank, a, lexemes =>
    match operationOf? rank lexemes with
    | none => some (a, lexemes)
    | some (operation, rest) => do
      let (b, rest) ← parseRank fuel rank rest
      parseOperations fuel rank (.binary operation a b) rest

/-- A number, a variable or an expression in parentheses, perhaps with a sign. -/
def parsePrimary : Nat → List Lexeme → Option (Expr × List Lexeme)
  | 0, _ => none
  | fuel + 1, lexemes =>
    match lexemes with
    | .number n :: rest => some (.number n, rest)
    | .name name :: rest => some (.named name, rest)
    | .symbol "(" :: rest => do
      let (e, rest) ← parseExpr fuel rest
      match rest with
      | .symbol ")" :: rest => return (e, rest)
      | _ => none
    | .symbol s :: rest => do
      let sign ← sign? s
      let (e, rest) ← parsePrimary fuel rest
      return (.unary sign e, rest)
    | [] => none

end

/-- The expression that a text spells. A lexeme is reached through fewer than sixteen calls. -/
def Expr.ofText (t : Text) : Except ArithmeticFault Expr :=
  let lexemes := lexemesFrom 0 t
  match parseExpr (16 * lexemes.length + 16) lexemes with
  | none => .error .malformed
  | some (e, rest) => if rest.isEmpty then .ok e else .error .trailing

/-! ## Values -/

/-- A truth value as a number. -/
def truth (b : Bool) : Int64 := if b then 1 else 0

/-- The result of an operation on two numbers. -/
def Operation.apply (a b : Int64) : Operation → Except ArithmeticFault Int64
  | .times => .ok (a * b)
  | .over => if b = 0 then .error .divisionByZero else .ok (a / b)
  | .modulo => if b = 0 then .error .divisionByZero else .ok (a % b)
  | .plus => .ok (a + b)
  | .minus => .ok (a - b)
  | .shiftLeft => .ok (a <<< b)
  | .shiftRight => .ok (a >>> b)
  | .less => .ok (truth (a < b))
  | .lessEqual => .ok (truth (a ≤ b))
  | .greater => .ok (truth (b < a))
  | .greaterEqual => .ok (truth (b ≤ a))
  | .equal => .ok (truth (a == b))
  | .notEqual => .ok (truth (a != b))
  | .bitAnd => .ok (a &&& b)
  | .bitXor => .ok (a ^^^ b)
  | .bitOr => .ok (a ||| b)

/-- The result of an operation on one number. -/
def Sign.apply (a : Int64) : Sign → Int64
  | .plus => a
  | .minus => -a
  | .complement => ~~~a
  | .not => truth (a == 0)

/-- Values of variables that stand over the ones they had before. -/
abbrev Assigned := List (Text × Int64)

/-- The number that the value of a variable spells. -/
def numberOf (value : Text) : Except ArithmeticFault Int64 :=
  if value.isEmpty then .ok 0
  else
    match integer? true value with
    | some n => if (clampWord n).toInt = n then .ok (clampWord n) else .error (.notANumber value)
    | none => .error (.notANumber value)

/-- The number that a variable holds. -/
def current (value : Text → Text) (name : Text) :
    StateT Assigned (Except ArithmeticFault) Int64 := do
  match (← get).lookup name with
  | some n => return n
  | none => numberOf (value name)

/-- The value of an expression, with the assignments made so far and those it makes. -/
def Expr.eval (value : Text → Text) : Expr → StateT Assigned (Except ArithmeticFault) Int64
  | .number n => return n
  | .named name => current value name
  | .unary sign e => do return sign.apply (← e.eval value)
  | .binary operation a b => do
    let m ← a.eval value
    let n ← b.eval value
    operation.apply m n
  | .both a b => do
    if (← a.eval value) = 0 then return 0
    return truth ((← b.eval value) != 0)
  | .either a b => do
    if (← a.eval value) != 0 then return 1
    return truth ((← b.eval value) != 0)
  | .choice test yes no => do
    if (← test.eval value) != 0 then yes.eval value else no.eval value
  | .assign name operation e => do
    let n ← e.eval value
    let n ←
      match operation with
      | none => pure n
      | some operation => do
        let old ← current value name
        operation.apply old n
    modify ((name, n) :: ·)
    return n

/-- The value of the expression that a text spells, and the assignments it makes, last one first. -/
def arithmetic (value : Text → Text) (expression : Text) :
    Except ArithmeticFault (Int64 × Assigned) := do
  let e ← Expr.ofText expression
  (e.eval value).run []

end FlutterScaffold.Shell

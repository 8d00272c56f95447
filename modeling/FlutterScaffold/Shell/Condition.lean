import FlutterScaffold.Shell.Number
import FlutterScaffold.Disk.Host

/-!
# Conditions

The command `test` weighs its arguments: texts, numbers and files by themselves or in pairs, joined
by negation, conjunction, disjunction and parentheses. An argument that looks like an operator is
taken for one only where the arguments around it leave room for that.
-/

namespace FlutterScaffold.Shell

open Disk (Host)

/-- What an argument of a condition can be. -/
inductive Role where
  | operand
  | unary
  | binary
  | conjunction
  | disjunction
  | negation
  | openParen
  | closeParen
  deriving DecidableEq, Repr

/-- What is wrong with a condition: a complaint, perhaps about an argument. -/
abbrev ConditionFault := Text

/-- What an argument looks like. -/
def roleOf (t : Text) : Role :=
  if t = lit "!" then .negation
  else if t = lit "(" then .openParen
  else if t = lit ")" then .closeParen
  else if t = lit "-a" then .conjunction
  else if t = lit "-o" then .disjunction
  else if (["=", "!=", "<", ">", "-eq", "-ne", "-ge", "-gt", "-le", "-lt", "-nt", "-ot", "-ef"].map
      lit).contains t then .binary
  else if t.length = 2 && t.head? = some (byte '-') &&
      t.tail.all (lit "erwxsfdhLbcpSgukOGntz").contains then .unary
  else .operand

/-- What the first of some arguments is taken for; none when there is no argument. -/
def roleAt? : List Text → Option Role
  | [] => none
  | t :: more =>
    some <|
      match roleOf t, more with
      | .unary, [] => .operand
      | .unary, next :: after :: _ =>
        if roleOf next = .binary && after != lit ")" then .operand else .unary
      | .openParen, [] => .operand
      | role, _ => role

/-- The number that an argument spells. -/
def numberIn (t : Text) : Except ConditionFault Int :=
  match integer? false t with
  | some n => .ok n
  | none => .error (lit "Illegal number: " ++ t)

/-- The value of a condition about one argument. -/
def unaryCondition (host : Host) (operator argument : Text) : Bool :=
  let letter := operator.getLast?.getD 0
  if letter = byte 'n' then !argument.isEmpty
  else if letter = byte 'z' then argument.isEmpty
  else if letter = byte 'f' then host.isFile argument
  else if letter = byte 'd' || letter = byte 'x' then host.isDirectory argument
  else if letter = byte 'h' || letter = byte 'L' then
    match host.linkStatus argument with
    | .ok (.link _) => true
    | _ => false
  else if letter = byte 's' then
    match host.status argument with
    | .ok (.file content) => !content.isEmpty
    | .ok .directory => true
    | _ => false
  else if letter = byte 'c' then
    match host.status argument with
    | .ok (.device _) => true
    | _ => false
  else if (lit "erwOG").contains letter then host.exists? argument
  else false

/-- Whether two paths lead to the same directory or the same object. -/
def sameThing (host : Host) (p q : Path) : Bool :=
  match Disk.locate host.tree host.here true p, Disk.locate host.tree host.here true q with
  | .ok a, .ok b =>
    a.entry.isSome && a.place == b.place || decide (host.tree.SameObject a.place b.place)
  | _, _ => false

/-- The value of a condition about two arguments. -/
def binaryCondition (host : Host) (a operator b : Text) : Except ConditionFault Bool :=
  if operator = lit "=" then .ok (a == b)
  else if operator = lit "!=" then .ok (a != b)
  else if operator = lit "<" then .ok (a < b)
  else if operator = lit ">" then .ok (b < a)
  else if operator = lit "-ef" then .ok (sameThing host a b)
  else if operator = lit "-nt" then .ok (host.exists? a && !host.exists? b)
  else if operator = lit "-ot" then .ok (!host.exists? a && host.exists? b)
  else do
    let m ← numberIn a
    let n ← numberIn b
    return if operator = lit "-eq" then m == n
      else if operator = lit "-ne" then m != n
      else if operator = lit "-lt" then m < n
      else if operator = lit "-le" then m ≤ n
      else if operator = lit "-gt" then n < m
      else n ≤ m

mutual

/-- Conditions of which one has to hold, and the arguments behind them. -/
def disjunction (host : Host) :
    Nat → Option Role → List Text → Except ConditionFault (Bool × List Text)
  | 0, _, _ => .error []
  | fuel + 1, first, arguments => do
    let (a, rest) ← conjunction host fuel first arguments
    match rest with
    | t :: more =>
      if roleAt? rest = some .disjunction then
        let (b, rest) ← disjunction host fuel (roleAt? more) more
        return (a || b, rest)
      else return (a, t :: more)
    | [] => return (a, [])

/-- Conditions that have to hold together, and the arguments behind them. -/
def conjunction (host : Host) :
    Nat → Option Role → List Text → Except ConditionFault (Bool × List Text)
  | 0, _, _ => .error []
  | fuel + 1, first, arguments => do
    let (a, rest) ← negation host fuel first arguments
    match rest with
    | t :: more =>
      if roleAt? rest = some .conjunction then
        let (b, rest) ← conjunction host fuel (roleAt? more) more
        return (a && b, rest)
      else return (a, t :: more)
    | [] => return (a, [])

/-- A condition that may be negated, and the arguments behind it. -/
def negation (host : Host) :
    Nat → Option Role → List Text → Except ConditionFault (Bool × List Text)
  | 0, _, _ => .error []
  | fuel + 1, first, arguments =>
    match first, arguments with
    | some .negation, _ :: more => do
      let (a, rest) ← negation host fuel (roleAt? more) more
      return (!a, rest)
    | some .openParen, _ :: more =>
      if roleAt? more = some .closeParen then return (false, more.tail)
      else do
        let (a, rest) ← disjunction host fuel (roleAt? more) more
        match rest with
        | t :: more =>
          if t = lit ")" then return (a, more) else .error (lit "closing paren expected")
        | [] => .error (lit "closing paren expected")
    | some .unary, operator :: more =>
      match more with
      | [] => .error (operator ++ lit ": argument expected")
      | a :: rest => return (unaryCondition host operator a, rest)
    | some _, a :: more =>
      match more with
      | operator :: behind =>
        if roleAt? more = some .binary then
          match behind with
          | b :: rest => return (← binaryCondition host a operator b, rest)
          | [] => .error (operator ++ lit ": argument expected")
        else return (!a.isEmpty, more)
      | [] => return (!a.isEmpty, [])
    | _, _ => return (false, [])

end

/-- The value of arguments read from a certain role of the first argument. -/
def conditionFrom (host : Host) (first : Option Role) (arguments : List Text) :
    Except ConditionFault Bool := do
  let (a, rest) ← disjunction host (4 * arguments.length + 4) first arguments
  match rest with
  | [] => return a
  | _ :: behind =>
    let last := arguments.getD (arguments.length - behind.length - 2) []
    .error ((if last.isEmpty then [] else last ++ lit ": ") ++ lit "unexpected operator")

/-- The value of a condition. Three arguments with an operator between the outer ones are a
condition about these; otherwise parentheses around three or four arguments are taken away, and so
is a negation before them. -/
def condition (host : Host) : List Text → Except ConditionFault Bool
  | [] => .ok false
  | first :: rest =>
    let arguments := first :: rest
    if rest.length = 2 && roleOf (rest.headD []) = .binary then
      conditionFrom host (some .operand) arguments
    else if rest.length = 2 || rest.length = 3 then
      if first = lit "(" && rest.getLast? = some (lit ")") then
        conditionFrom host (roleAt? rest.dropLast) rest.dropLast
      else if first = lit "!" then (condition host rest).map (!·)
      else conditionFrom host (roleAt? arguments) arguments
    else conditionFrom host (roleAt? arguments) arguments

end FlutterScaffold.Shell

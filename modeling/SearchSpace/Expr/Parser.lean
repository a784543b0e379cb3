import SearchSpace.Expr.Lexer
import SearchSpace.Expr.Printer
import SearchSpace.Integer

/-!
# Reading expressions

`Expr.ofTokens` reads an expression over names by precedence: an operand, and then operators of at
least a given precedence with their right operands, which have a greater one, so that operators
group to the left. `Expr.read` reads a text and looks its names up in a scope.

Nothing is tried twice. An operator that has been read must be followed by its operand, and an open
parenthesis or bracket by its closing one; otherwise the text is no expression.
-/

namespace SearchSpace.Expr

/-- The literal of an integer with a sign or none, if it has 64 bits. -/
def integerLiteral (negative : Bool) (n : Nat) : Option (Expr String) :=
  (Integer.fit? (if negative then -(n : Int) else n)).map fun m => literal (.int m)

/-- The literal of a decimal with a sign or none, if it has a finite nearest number. -/
def decimalLiteral (negative : Bool) (d : Decimal) : Option (Expr String) :=
  let x := d.toFloat
  if x.isFinite then some (literal (.float (.ofFloat (if negative then -x else x)))) else none

/-- The expression of a word: the value that it stands for, or the parameter that it names. -/
def ofWord (s : String) : Expr String :=
  if s == "none" then literal .none
  else if s == "true" then literal (.bool true)
  else if s == "false" then literal (.bool false)
  else var s

mutual
/-- Reads an expression of operators with at least the given precedence. -/
def readExpr : Nat → Nat → List Token → Option (Expr String × List Token)
  | 0, _, _ => none
  | fuel + 1, least, tokens => do
    let (left, rest) ← readOperand fuel tokens
    readOperators fuel least left rest

/-- Reads operators and their right operands, given what stands to their left. -/
def readOperators : Nat → Nat → Expr String → List Token → Option (Expr String × List Token)
  | 0, _, _, _ => none
  | fuel + 1, least, left, tokens =>
    match tokens with
    | [] => some (left, [])
    | token :: rest =>
      match token.binaryOp? with
      | none => some (left, token :: rest)
      | some op =>
        if least ≤ op.precedence then do
          let (right, rest) ← readExpr fuel (op.precedence + 1) rest
          readOperators fuel least (binary op left right) rest
        else some (left, token :: rest)

/-- Reads an operand: signs and negations, and then a literal, a name, a list or an expression in
parentheses. -/
def readOperand : Nat → List Token → Option (Expr String × List Token)
  | 0, _ => none
  | fuel + 1, tokens =>
    match tokens with
    | .minus true :: .integer n :: rest => (integerLiteral true n).map (·, rest)
    | .minus true :: .decimal d :: rest => (decimalLiteral true d).map (·, rest)
    | .minus _ :: rest => (readOperand fuel rest).map fun (e, rest) => (unary .negative e, rest)
    | .plus :: rest => (readOperand fuel rest).map fun (e, rest) => (unary .positive e, rest)
    | .not :: rest => (readOperand fuel rest).map fun (e, rest) => (unary .not e, rest)
    | .integer n :: rest => (integerLiteral false n).map (·, rest)
    | .decimal d :: rest => (decimalLiteral false d).map (·, rest)
    | .string s :: rest => some (literal (.string s), rest)
    | .word s :: rest => some (ofWord s, rest)
    | .leftBracket :: .rightBracket :: rest => some (list [], rest)
    | .leftBracket :: rest => (readItems fuel rest).map fun (es, rest) => (list es, rest)
    | .leftParen :: rest =>
      match readExpr fuel 0 rest with
      | some (e, .rightParen :: rest) => some (e, rest)
      | _ => none
    | _ => none

/-- Reads the items of a list that has some, and the bracket after them. -/
def readItems : Nat → List Token → Option (List (Expr String) × List Token)
  | 0, _ => none
  | fuel + 1, tokens =>
    match readExpr fuel 0 tokens with
    | some (e, .comma :: rest) => (readItems fuel rest).map fun (es, rest) => (e :: es, rest)
    | some (e, .rightBracket :: rest) => some ([e], rest)
    | _ => none
end

/-- The expression that some tokens denote, all of them. Between two tokens that are read, the
functions above call each other at most four deep. -/
def ofTokens (tokens : List Token) : Option (Expr String) :=
  match readExpr (4 * tokens.length + 4) 0 tokens with
  | some (e, []) => some e
  | _ => none

/-- The expression over names that a text denotes. -/
def ofText (text : String) : Option (Expr String) :=
  (Token.ofChars text.toList).bind ofTokens

/-! ## Names and parameters -/

mutual
/-- Replaces variables, and refuses misplaced lists on the way. -/
def resolve {ν μ : Type} (find : ν → Except Error μ) : Expr ν → Except Error (Expr μ)
  | literal v => .ok (literal v)
  | var x => do pure (var (← find x))
  | binary op left right => do
    let left ← left.resolve find
    let right ← right.resolve find
    ofBinary op left right
  | unary op operand => do
    let operand ← operand.resolve find
    ofUnary op operand
  | list items => do
    let items ← resolveAll find items
    ofList items

/-- Replaces the variables of some expressions. -/
def resolveAll {ν μ : Type} (find : ν → Except Error μ) :
    List (Expr ν) → Except Error (List (Expr μ))
  | [] => .ok []
  | e :: es => do
    let e ← e.resolve find
    let es ← resolveAll find es
    pure (e :: es)
end

/-- The parameter with a name. -/
def parameterOf (scope : Scope) (name : String) : Except Error Parameter :=
  match scope.find? name with
  | some p => .ok p
  | none => .error (.invalidExpression (.unknownParameter name))

/-- The expression over the parameters of a scope that a text denotes. -/
def read (scope : Scope) (text : String) : Except Error (Expr Parameter) :=
  match ofText text with
  | some e => e.resolve (parameterOf scope)
  | none => .error (.invalidExpression (.unreadable text))

end SearchSpace.Expr

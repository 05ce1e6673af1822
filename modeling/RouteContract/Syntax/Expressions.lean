import RouteContract.Syntax.Classes

/-! # Expressions

An expression is operands with operators between them. Only constants and names are kept, so the
precedence of operators does not matter. -/

set_option autoImplicit false

namespace RouteContract.Syntax.Rules

variable (r : Rules)

/-! ## Functions -/

def arrowBody : Parser Unit := do
  match ← peek with
  | some '{' => r.block
  | _ => do let _ ← r.expression

def arrowHead : Parser Unit :=
  (do let _ ← word)
  <|> (do
    let _ ← possibly r.typeParams
    let _ ← r.parameters
    let _ ← possibly r.returns)

def arrow : Parser Expr := do
  (do keyword "async"; require (!(← breakAhead)); arrowHead r; sign "=>")
    <|> (do arrowHead r; sign "=>")
  r.arrowBody
  return .other "arrow_function"

def functionExpression : Parser Expr := do
  let _ ← possibly (keyword "async")
  keyword "function"
  let _ ← possibly (sign "*")
  let _ ← possibly word
  let _ ← r.signature
  r.block
  return .other "function_expression"

/-! ## Objects and arrays -/

def pair : Parser (Option (Key × Expr)) := do
  let key ← r.key
  sign ":"
  let value ← r.expression
  return some (key, value)

def objectMethod : Parser Unit := do
  let _ ← many memberModifier
  let _ ← r.key
  let _ ← possibly (sign "?")
  let _ ← r.signature
  r.block

def shorthand : Parser Unit := do
  let _ ← word
  let _ ← possibly r.initializer

def objectPart : Parser (Option (Key × Expr)) :=
  r.pair <|> (do
    (do let _ ← r.spread) <|> r.objectMethod <|> r.shorthand
    return none)

def object : Parser Expr := do
  sign "\x7b"
  let parts ← slots r.objectPart
  sign "\x7d"
  return match parts.mapM id with
    | some pairs => .object pairs
    | none => .other "object"

def array : Parser Expr := do
  sign "["
  let items ← slots (r.spread <|> r.expression)
  sign "]"
  return .array items

/-! ## Simple operands -/

def parenthesizedExpression : Parser Expr := do
  sign "("
  let hidden ← commentAhead
  let e ← r.expression
  let more ← many (do sign ","; r.expression)
  let _ ← possibly r.annotated
  sign ")"
  return if hidden || !more.isEmpty then .other "parenthesized_expression" else .wrapped e

def templateExpression : Parser Expr := do
  let (pieces, substituted) ← template (do
    let _ ← separated (sign ",") r.expression)
  return if substituted then .other "template_string" else .template pieces

def regexLength? (inClass : Bool) : List Char → Option Nat
  | [] => none
  | '\\' :: c :: rest => if endsLine c then none else (regexLength? inClass rest).map (· + 2)
  | c :: rest =>
    if endsLine c then none
    else if c = '/' && !inClass then some 1
    else (regexLength? (c = '[' || (inClass && c ≠ ']')) rest).map (· + 1)

def regex : Parser Expr := do
  sign "/"
  let c ← get
  match regexLength? false c.rest with
  | some n =>
    set (c.skip n)
    let _ ← possibly wordHere
    return .other "regex"
  | none => failure

def reserved : List String :=
  ["break", "case", "catch", "const", "continue", "debugger", "default", "do", "else", "enum",
   "export", "extends", "finally", "for", "if", "in", "instanceof", "return", "switch", "throw",
   "try", "var", "while", "with", "function", "class", "new", "typeof", "void", "delete"]

def importedValue : Parser Expr := do
  keyword "import"
  let next ← peek
  require (next = some '(' || next = some '.')
  return .other "import"

def construction : Parser Expr := do
  keyword "new"
  (do
    sign "."
    let _ ← word
    return .other "meta_property")
  <|> (do
    let _ ← r.operand
    let _ ← possibly r.typeArgs
    let _ ← possibly r.arguments
    return .other "new_expression")

def classExpression : Parser Expr := do
  let _ ← r.anyClass
  return .other "class"

def named : Parser Expr := do
  let w ← word
  match w with
  | "true" => return .boolean true
  | "false" => return .boolean false
  | "null" => return .null
  | "this" => return .other "this"
  | "super" => return .other "super"
  | "undefined" => return .other "undefined"
  | w => do
    require (!reserved.contains w)
    return .name w

def wordOperand : Parser Expr := do
  match ← wordAhead with
  | some "function" => r.functionExpression
  | some "async" => r.functionExpression <|> named
  | some "class" => r.classExpression
  | some "new" => r.construction
  | some "import" => importedValue
  | _ => named

def simpleOperand : Parser Expr := do
  match ← peek with
  | some '(' => r.parenthesizedExpression
  | some '[' => r.array
  | some '{' => r.object
  | some '`' => r.templateExpression
  | some '"' => Expr.string <$> stringLiteral
  | some '\'' => Expr.string <$> stringLiteral
  | some '/' => regex
  | some '@' => r.classExpression
  | some '#' => do let _ ← privateName; return .other "private_property_identifier"
  | some c =>
    if c.isDigit || c = '.' then Expr.number <$> number else r.wordOperand
  | none => failure

/-! ## Suffixes -/

def memberSuffix : Parser Expr := do
  sign "?." <|> signBefore "." ['.']
  Expr.member <$> (word <|> privateName)

def subscript : Parser Expr := do
  let _ ← possibly (sign "?.")
  sign "["
  let _ ← separated (sign ",") r.expression
  sign "]"
  return .other "subscript_expression"

def callSuffix : Parser Expr := do
  let _ ← possibly (sign "?.")
  let _ ← possibly r.typeArgs
  (do let _ ← r.arguments) <|> (do let _ ← r.templateExpression)
  return .other "call_expression"

def nonNull : Parser Expr := do
  require (!(← breakAhead))
  signBefore "!" ['=']
  return .other "non_null_expression"

def suffix : Parser Expr := memberSuffix <|> r.subscript <|> r.callSuffix <|> nonNull

def operandWithSuffixes : Parser Expr := do
  let e ← r.simpleOperand
  iterate (fun _ => r.suffix) e

/-! ## Operators -/

def signOperators : List String := ["!", "~", "-", "+"]

def wordOperators : List String := ["typeof", "void", "delete", "await"]

def unaryOperator : Parser String :=
  (do
    let cs ← ahead
    match signOperators.find? fun s => s.toList.isPrefixOf cs with
    | some s => do sign s; return s
    | none => failure)
  <|> oneOf wordOperators

def update : Parser Unit := sign "++" <|> sign "--"

def typeAssertion : Parser Unit := do
  sign "<"
  let _ ← r.type
  sign ">"

def unaryWithin : Nat → Parser Expr
  | 0 => failure
  | n + 1 =>
    (do
      update
      let _ ← unaryWithin n
      return .other "update_expression")
    <|> (do
      let s ← unaryOperator
      let arg ← unaryWithin n
      return if s = "await" then .other "await_expression" else .unary s arg)
    <|> (do
      r.typeAssertion
      let _ ← unaryWithin n
      return .other "type_assertion")
    <|> (do
      let e ← r.operandWithSuffixes
      (do
        require (!(← breakAhead))
        update
        return .other "update_expression")
      <|> pure e)

def unary : Parser Expr := fun c => r.unaryWithin (c.left + 1) c

def assignments : List String :=
  ["=", "+=", "-=", "*=", "/=", "%=", "^=", "&=", "|=", ">>=", ">>>=", "<<=", "**=", "&&=", "||=",
   "??="]

def assignmentSign : Parser Unit := do
  let cs ← ahead
  match assignments.find? fun s => s.toList.isPrefixOf cs with
  | some s => signBefore s ['=', '>']
  | none => failure

def binarySigns : List String :=
  [">>>", "===", "!==", "**", "<<", ">>", "&&", "||", "??", "==", "!=", "<=", ">=", "+", "-", "*",
   "/", "%", "&", "|", "^", "<", ">"]

def binaryOperator : Parser Unit := do
  require (!(← would update))
  let cs ← ahead
  match binarySigns.find? fun s => s.toList.isPrefixOf cs with
  | some s => sign s
  | none => do let _ ← oneOf ["in", "instanceof"]

def typeSuffix (e : Expr) : Parser Expr := do
  require (!(← breakAhead))
  let _ ← oneOf ["as", "satisfies"]
  keyword "const" <|> (do let _ ← r.type)
  return .wrapped e

def questionMark : Parser Unit := do
  sign "?"
  let c ← get
  let after := c.rest.drop 1
  require (c.rest.head? ≠ some '?'
    && (c.rest.head? ≠ some '.' || after.head?.any Char.isDigit))

def choice : Parser Expr := do
  questionMark
  let _ ← r.expression
  sign ":"
  let _ ← r.expression
  return .other "ternary_expression"

def assigned : Parser Expr := do
  assignmentSign
  let _ ← r.expression
  return .other "assignment_expression"

def binary : Parser Expr := do
  binaryOperator
  let _ ← r.unary
  return .other "binary_expression"

def instantiated : Parser Expr := do
  let _ ← r.typeArgs
  require ((← ahead).head?.all fun c => ";,:)]\x7d".toList.contains c)
  return .other "instantiation_expression"

def continuation (e : Expr) : Parser Expr :=
  r.typeSuffix e <|> r.choice <|> r.assigned <|> r.instantiated <|> r.binary

def yielded : Parser Expr := do
  keyword "yield"
  let _ ← possibly (sign "*")
  let _ ← possibly r.expression
  return .other "yield_expression"

def anyExpression : Parser Expr :=
  r.arrow <|> r.yielded <|> (do
    let e ← r.unary
    iterate r.continuation e)

/-! ## Patterns -/

def withDefault (p : Parser Unit) : Parser Unit := do
  p
  let _ ← possibly r.initializer

def patternPart : Parser Unit :=
  (do sign "..."; r.pattern)
  <|> (do
    let _ ← r.key
    sign ":"
    r.withDefault r.pattern)
  <|> r.withDefault (do let _ ← word)

def anyPattern : Parser Unit := do
  match ← peek with
  | some '.' => do sign "..."; r.pattern
  | some '{' => do
    sign "\x7b"
    let _ ← slots r.patternPart
    sign "\x7d"
  | some '[' => do
    sign "["
    let _ ← slots (r.withDefault r.pattern)
    sign "]"
  | _ => do
    let w ← word
    require (!reserved.contains w)

end RouteContract.Syntax.Rules

import RouteContract.Syntax.Ending
import RouteContract.Syntax.Lexeme

/-! # Shared rules

The grammar is recursive through a few kinds of phrases. A rule takes the parsers of these as given,
so that each rule is a plain definition. -/

set_option autoImplicit false

namespace RouteContract.Syntax

structure Rules where
  type : Parser TypeSyntax
  /-- An expression without a comma. -/
  expression : Parser Expr
  /-- An expression without operators around it. -/
  operand : Parser Expr
  /-- What a parameter or a variable binds. -/
  pattern : Parser Unit
  statement : Parser Unit

def uncommented (p : Parser TypeSyntax) : Parser TypeSyntax := do
  let hidden ← commentAhead
  let t ← p
  return if hidden then .comment else t

def commentsAsTypes : Parser (List TypeSyntax) := do
  return (← comments).map fun _ => .comment

def commentPosition : Parser (Option Position) := fun c =>
  let begin := c.skip (c.rest.takeWhile isGap).length
  some (if (gap c).1.isEmpty then none else some begin.position, c)

def slots {α : Type} (p : Parser α) : Parser (List α) := do
  let first ← possibly p
  let more ← many (do sign ","; possibly p)
  return (first :: more).filterMap id

def listed {α : Type} (p : Parser α) : Parser (List α) := do
  let items ← separated (sign ",") p
  let _ ← possibly (sign ",")
  return items

namespace Rules

variable (r : Rules)

def annotated : Parser TypeSyntax := do
  sign ":"
  uncommented r.type

def initializer : Parser ArgumentSyntax := do
  signBefore "=" ['=', '>']
  let (value, text) ← withText r.expression
  return ⟨value, text⟩

def typeArgs : Parser (List TypeSyntax) := do
  signBefore "<" ['<', '=']
  let items ← listed (do
    let before ← commentsAsTypes
    let t ← r.type
    let after ← commentsAsTypes
    return before ++ t :: after)
  sign ">"
  return items.flatten

def typeParam : Parser TypeParamSyntax := do
  let _ ← possibly (do keyword "const"; require (← wordAhead).isSome)
  let name ← word
  let _ ← possibly (do
    keyword "extends" <|> sign ":"
    r.type)
  let default ← possibly (do
    signBefore "=" ['=', '>']
    uncommented r.type)
  return ⟨name, default⟩

def typeParams : Parser (List TypeParamSyntax) := do
  sign "<"
  let params ← listed r.typeParam
  sign ">"
  return params

def typeParams? : Parser (List TypeParamSyntax) := do
  return (← possibly r.typeParams).getD []

def block : Parser Unit := do
  sign "\x7b"
  let _ ← many r.statement
  sign "\x7d"

def key : Parser Key :=
  (Key.quoted <$> stringLiteral)
    <|> (Key.plain <$> (word <|> number <|> privateName <|> computed))
where
  computed : Parser String := do
    let (_, text) ← withText (do sign "["; let _ ← r.expression; sign "]")
    return text

/-! ## Decorators -/

def spread : Parser Expr := do
  sign "..."
  let _ ← r.expression
  return .other "spread_element"

def argument : Parser ArgumentSyntax := do
  let (value, text) ← withText (r.spread <|> r.expression)
  return ⟨value, text⟩

def arguments : Parser (List ArgumentSyntax) := do
  sign "("
  let args ← slots r.argument
  sign ")"
  return args

def lastPart : Parser String := do
  let first ← word
  let more ← many (do sign "."; word <|> privateName)
  return more.getLastD first

def call : Parser (List TypeSyntax × List ArgumentSyntax) := do
  let types ← possibly r.typeArgs
  let args ← r.arguments
  return (types.getD [], args)

def decoratorBody (position : Position) : Parser DecoratorSyntax :=
  (do
    let name ← lastPart
    let (types, args) ← r.call <|> pure ([], [])
    return ⟨name, types, args, position⟩)
  <|> (do
    let (_, text) ← withText (do
      sign "("
      let _ ← lastPart
      let _ ← possibly r.call
      sign ")")
    return ⟨text, [], [], position⟩)

def decorator : Parser DecoratorSyntax := do
  let position ← start
  sign "@"
  let hidden ← comments
  let d ← r.decoratorBody position
  match hidden with
  | [] => return d
  | comment :: _ => return ⟨comment, [], [], position⟩

/-! ## Parameters -/

def parameterModifiers : List String := ["public", "private", "protected", "override", "readonly"]

def parameterModifier : Parser String := do
  let w ← oneOf parameterModifiers
  let next ← peek
  require (next.any fun c => isWordChar c || c = '{' || c = '[' || c = '.')
  return w

def isAccessibility (w : String) : Bool := w = "public" || w = "private" || w = "protected"

def parameter : Parser ParameterSyntax := do
  let position ← start
  let decorators ← many r.decorator
  let modifiers ← many parameterModifier
  let (_, pattern) ← withText r.pattern
  let optional ← taken (sign "?")
  let type ← possibly r.annotated
  let value ← possibly r.initializer
  return {
    decorators
    accessibility := modifiers.find? isAccessibility
    pattern
    optional
    type
    value
    position }

def parameters : Parser (List ParameterSyntax) := do
  sign "("
  let ps ← possibly (listed r.parameter)
  sign ")"
  return ps.getD []

def predicate : Parser Unit :=
  (do
    keyword "asserts"
    let _ ← word
    let _ ← possibly (do keyword "is"; r.type))
  <|> (do
    let _ ← word
    keyword "is"
    let _ ← r.type)

def returns : Parser (Option TypeSyntax) := do
  sign ":"
  (do r.predicate; return none) <|> (do return some (← uncommented r.type))

def signature : Parser (List ParameterSyntax × Option TypeSyntax) := do
  let _ ← possibly r.typeParams
  let ps ← r.parameters
  let t ← possibly r.returns
  return (ps, t.join)

end Rules

end RouteContract.Syntax

import RouteContract.Syntax.Rules

/-! # Types

The rules of types, loosest first: conditional types, unions, intersections, operators, brackets
after a type, and the simple types. -/

set_option autoImplicit false

namespace RouteContract.Syntax.Rules

variable (r : Rules)

/-! ## Members of object types -/

def memberModifiers : List String :=
  ["public", "private", "protected", "static", "override", "readonly", "async", "get", "set",
   "declare", "abstract", "accessor"]

def endsName (c : Cursor) : Bool :=
  Ending.type.mayBreak c
    || match (gap c).2.rest with
      | [] => true
      | x :: _ => "(:;?!=,<\x7d".toList.contains x

def memberModifier : Parser String := (do
  let w ← oneOf memberModifiers
  require (!(endsName (← get)))
  return w)
  <|> (do sign "*"; return "*")

def isMethodModifier (w : String) : Bool := w = "async" || w = "get" || w = "set" || w = "*"

def indexKey : Parser (Option (String × TypeSyntax)) :=
  (do
    let name ← word
    sign ":"
    let t ← r.type
    return some (name, t))
  <|> (do
    let _ ← word
    keyword "in"
    let _ ← r.type
    let _ ← possibly (do keyword "as"; r.type)
    return none)

def indexSignature : Parser (MemberSyntax TypeSyntax) := do
  let position ← start
  let _ ← possibly (do
    let _ ← possibly (sign "-" <|> sign "+")
    keyword "readonly"
    require ((← peek) = some '['))
  sign "["
  let key ← r.indexKey
  sign "]"
  let _ ← possibly (do
    let _ ← possibly (sign "-" <|> sign "+")
    sign "?")
  let value ← r.annotated
  match key with
  | some (name, t) => return .index name t value
  | none => return .mapped position

def callable : Parser Unit := do
  let _ ← possibly (do
    let _ ← possibly (keyword "abstract")
    keyword "new")
  let _ ← r.signature

def namedMember (comment : Option String) : Parser (Option (MemberSyntax TypeSyntax)) := do
  let modifiers ← many memberModifier
  let key ← r.key
  let optional ← taken (sign "?")
  (do
    let _ ← r.signature
    return none)
  <|> (do
    require (!modifiers.any isMethodModifier)
    let type ← possibly r.annotated
    return some (.property ⟨key, optional, type, comment⟩))

def typeMember : Parser (Option (MemberSyntax TypeSyntax)) := do
  let comment := (← comments).getLast?
  let m ← (some <$> r.indexSignature) <|> (do r.callable; return none) <|> r.namedMember comment
  memberEnd .type
  return m

def typeBody : Parser (List (MemberSyntax TypeSyntax)) := do
  sign "\x7b"
  let leading ← taken (sign "," <|> sign ";")
  let members ← many r.typeMember
  require (!leading || !members.isEmpty)
  sign "\x7d"
  return members.filterMap id

/-! ## Simple types -/

def predefined : List String :=
  ["any", "number", "boolean", "string", "symbol", "void", "unknown", "never", "object"]

def tupleMember : Parser Unit := do
  let _ ← possibly (sign "...")
  (do
    let _ ← word
    let _ ← possibly (sign "?")
    sign ":"
    let _ ← r.type)
  <|> (do
    let _ ← r.type
    let _ ← possibly (sign "?"))

def tuple : Parser TypeSyntax := do
  sign "["
  let _ ← slots r.tupleMember
  sign "]"
  return .other "tuple type"

def parenthesized : Parser TypeSyntax := do
  sign "("
  let t ← uncommented r.type
  sign ")"
  return .wrapped t

def numberLiteral : Parser Expr :=
  (Expr.number <$> number)
    <|> (do sign "-"; return .unary "-" (.number (← number)))
    <|> (do sign "+"; return .unary "+" (.number (← number)))

def literalType : Parser TypeSyntax := do
  let (value, text) ← withText ((Expr.string <$> stringLiteral) <|> numberLiteral)
  return .literal value text

def templateType : Parser TypeSyntax := do
  let _ ← template (do let _ ← r.type)
  return .other "template literal type"

def namedType (first : String) : Parser TypeSyntax := do
  let more ← many (do sign "."; word)
  let name := more.getLastD first
  match ← possibly r.typeArgs with
  | some args => return .generic name args
  | none => return if more.isEmpty then .name name else .dotted name

def typeQuery : Parser TypeSyntax := do
  let _ ← word
  let _ ← many ((do sign "."; let _ ← word <|> privateName)
    <|> (do sign "("; let _ ← possibly stringLiteral; sign ")"))
  let _ ← possibly r.typeArgs
  return .other "typeof query"

def importedType : Parser TypeSyntax := do
  sign "("
  let _ ← stringLiteral
  sign ")"
  let more ← many (do sign "."; word)
  let _ ← possibly r.typeArgs
  return .other (if more.isEmpty then "call expression" else "member expression")

def wordType : Parser TypeSyntax := do
  let w ← word
  match w with
  | "true" => return .literal (.boolean true) w
  | "false" => return .literal (.boolean false) w
  | "null" => return .literal .null w
  | "undefined" => return .literal (.name w) w
  | "this" => return .other "this type"
  | "typeof" => r.typeQuery
  | "import" => r.importedType
  | "unique" => (do
      let (_, text) ← withText (keyword "symbol")
      return .predefined ("unique " ++ text))
    <|> r.namedType w
  | w => if predefined.contains w then return .predefined w else r.namedType w

def simple : Parser TypeSyntax := do
  match ← peek with
  | some '(' => r.parenthesized
  | some '[' => r.tuple
  | some '{' => TypeSyntax.object <$> r.typeBody
  | some '`' => r.templateType
  | some '*' => do sign "*"; return .other "existential type"
  | some '?' => do
    sign "?"
    let _ ← r.type
    return .other "flow maybe type"
  | _ => literalType <|> r.wordType

/-! ## Compound types -/

def brackets (t : TypeSyntax) : Parser TypeSyntax := do
  require (!(← breakAhead))
  sign "["
  let key ← possibly r.type
  sign "]"
  return match key with
    | none => .array t
    | some _ => .other "indexed access type"

def bracketed : Parser TypeSyntax := do
  let t ← r.simple
  iterate r.brackets t

def functionType : Parser TypeSyntax := do
  let _ ← possibly (do
    let _ ← possibly (keyword "abstract")
    keyword "new")
  let _ ← possibly r.typeParams
  let _ ← r.parameters
  sign "=>"
  r.predicate <|> (do let _ ← r.type)
  return .other "function type"

def readonlyType : Parser TypeSyntax := do
  keyword "readonly"
  let t ← uncommented r.type
  return .wrapped t

def keyQuery : Parser TypeSyntax := do
  keyword "keyof"
  let _ ← r.readonlyType <|> r.bracketed
  return .other "keyof query"

def inferred : Parser TypeSyntax := do
  keyword "infer"
  let _ ← word
  let _ ← possibly (do keyword "extends"; r.type)
  return .other "infer type"

def operatorType : Parser TypeSyntax :=
  r.functionType <|> r.readonlyType <|> r.keyQuery <|> r.inferred <|> r.bracketed

def joined (s : String) (operand : Parser TypeSyntax) :
    Parser (List TypeSyntax × Bool) := do
  let leading ← taken (sign s)
  let before ← if leading then commentsAsTypes else pure []
  let first ← operand
  let more ← many (do
    let before ← commentsAsTypes
    signBefore s [s.toList.headD ' ', '=']
    let after ← commentsAsTypes
    let t ← operand
    return before ++ after ++ [t])
  return (before ++ first :: more.flatten, leading || !more.isEmpty)

def intersectionType : Parser TypeSyntax := do
  let (members, isJoined) ← joined "&" r.operatorType
  return if isJoined then .intersection members else members.headD .comment

def unionType : Parser TypeSyntax := do
  let (members, isJoined) ← joined "|" r.intersectionType
  return if isJoined then .union members else members.headD .comment

def conditionalType : Parser TypeSyntax := do
  let t ← r.unionType
  (do
    keyword "extends"
    let _ ← r.unionType
    signBefore "?" ['.', '?']
    let _ ← r.type
    sign ":"
    let _ ← r.type
    return .other "conditional type")
  <|> pure t

end RouteContract.Syntax.Rules

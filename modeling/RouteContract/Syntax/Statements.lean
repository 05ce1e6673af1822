import RouteContract.Syntax.Expressions

/-! # Statements

Statements of function bodies are only recognised. Of a whole text, imports and declarations are
kept. -/

set_option autoImplicit false

namespace RouteContract.Syntax.Rules

variable (r : Rules)

def expressions : Parser Unit := do
  let _ ← separated (sign ",") r.expression

/-! ## Variables and control -/

def variableBinding : Parser Ending := do
  r.pattern
  let _ ← possibly (signBefore "!" ['='])
  let _ ← possibly r.annotated
  return if (← possibly r.initializer).isSome then .expression else .type

def variableList : Parser Ending := do
  let _ ← oneOf ["var", "let", "const"]
  let ends ← separated (sign ",") r.variableBinding
  return ends.getLastD .type

def parenthesizedCondition : Parser Unit := do
  sign "("
  r.expressions
  sign ")"

def ifStatement : Parser Unit := do
  keyword "if"
  r.parenthesizedCondition
  r.statement
  let _ ← possibly (do keyword "else"; r.statement)

def itemLoop : Parser Unit := do
  let _ ← possibly (oneOf ["var", "let", "const"])
  r.pattern
  let _ ← oneOf ["of", "in"]
  r.expressions

def countLoop : Parser Unit := do
  let _ ← possibly ((do let _ ← r.variableList) <|> r.expressions)
  sign ";"
  let _ ← possibly r.expressions
  sign ";"
  let _ ← possibly r.expressions

def forStatement : Parser Unit := do
  keyword "for"
  let _ ← possibly (keyword "await")
  sign "("
  (do r.itemLoop; sign ")") <|> (do r.countLoop; sign ")")
  r.statement

def whileStatement : Parser Unit := do
  keyword "while"
  r.parenthesizedCondition
  r.statement

def doStatement : Parser Unit := do
  keyword "do"
  r.statement
  keyword "while"
  r.parenthesizedCondition
  let _ ← possibly (semicolon .type)

def switchCase : Parser Unit := do
  keyword "default" <|> (do keyword "case"; r.expressions)
  sign ":"
  let _ ← many r.statement

def switchStatement : Parser Unit := do
  keyword "switch"
  r.parenthesizedCondition
  sign "\x7b"
  let _ ← many r.switchCase
  sign "\x7d"

def tryStatement : Parser Unit := do
  keyword "try"
  r.block
  let _ ← possibly (do
    keyword "catch"
    let _ ← possibly (do
      sign "("
      r.pattern
      let _ ← possibly r.annotated
      sign ")")
    r.block)
  let _ ← possibly (do keyword "finally"; r.block)

def jump (w : String) : Parser Unit := do
  keyword w
  (do
    require (!(← breakAhead))
    r.expressions
    semicolon .expression)
  <|> semicolon .type

def withStatement : Parser Unit := do
  keyword "with"
  r.parenthesizedCondition
  r.statement

def labeled : Parser Unit := do
  let w ← word
  require (!reserved.contains w)
  sign ":"
  r.statement

def expressionStatement : Parser Unit := do
  r.expressions
  semicolon .expression

/-! ## Declarations -/

def functionDeclaration : Parser Unit := do
  let _ ← possibly (keyword "async")
  keyword "function"
  let _ ← possibly (sign "*")
  let _ ← word
  let _ ← r.signature
  (do
    r.block
    let _ ← possibly (lineBreak .type))
  <|> semicolon .signature

def namespaceDeclaration : Parser Unit := do
  let _ ← oneOf ["namespace", "module"]
  (do let _ ← stringLiteral) <|> (do let _ ← separated (sign ".") word)
  (do
    r.block
    let _ ← possibly (lineBreak .type))
  <|> semicolon .signature

def interfaceBase : Parser (List (TypeSyntax × Position)) := do
  let hidden ← commentPosition
  let position ← start
  let t ← r.namedType (← word)
  return (hidden.map fun p => (.comment, p)).toList ++ [(t, position)]

def interfaceBases : Parser (List (TypeSyntax × Position)) := do
  keyword "extends"
  let first ← r.interfaceBase
  let more ← many (do
    let hidden ← commentPosition
    sign ","
    return (hidden.map fun p => (TypeSyntax.comment, p)).toList ++ (← r.interfaceBase))
  return first ++ more.flatten

def interfaceDeclaration : Parser InterfaceSyntax := do
  let position ← start
  keyword "interface"
  let name ← word
  let params ← r.typeParams?
  let bases ← possibly r.interfaceBases
  let members ← r.typeBody
  return ⟨name, params, bases.getD [], members, position⟩

def aliasDeclaration : Parser AliasSyntax := do
  let position ← start
  keyword "type"
  let name ← word
  let params ← r.typeParams?
  signBefore "=" ['=', '>']
  let target ← r.type
  semicolon .type
  return ⟨name, params, target, position⟩

def enumMember : Parser (Option EnumMemberSyntax) := do
  let position ← start
  (do
    let key ← r.key
    signBefore "=" ['=', '>']
    let value ← r.expression
    return some ⟨key, some value, position⟩)
  <|> (do
    let key ← (Key.quoted <$> stringLiteral) <|> (Key.plain <$> word)
    return some ⟨key, none, position⟩)
  <|> (do
    let _ ← r.key
    return none)

def enumDeclaration : Parser EnumSyntax := do
  let position ← start
  let _ ← possibly (keyword "const")
  keyword "enum"
  let name ← word
  sign "\x7b"
  let members ← possibly (listed r.enumMember)
  sign "\x7d"
  return ⟨name, (members.getD []).filterMap id, position⟩

def declaration : Parser DeclarationSyntax :=
  (DeclarationSyntax.class <$> r.classDeclaration)
    <|> (DeclarationSyntax.interface <$> r.interfaceDeclaration)
    <|> (DeclarationSyntax.typeAlias <$> r.aliasDeclaration)
    <|> (DeclarationSyntax.enum <$> r.enumDeclaration)

def otherDeclaration : Parser Unit :=
  (do semicolon (← r.variableList)) <|> r.functionDeclaration <|> r.namespaceDeclaration

def ambient : Parser Unit := do
  keyword "declare"
  (do let _ ← r.declaration)
    <|> r.otherDeclaration
    <|> (do keyword "global"; r.block)

/-! ## Imports and exports -/

def moduleName : Parser (List StringPiece) := do
  let source ← stringLiteral
  let _ ← possibly (do
    let _ ← oneOf ["with", "assert"]
    r.object)
  return source

def fromClause : Parser (List StringPiece) := do
  keyword "from"
  r.moduleName

def boundName : Parser Key := (Key.quoted <$> stringLiteral) <|> (Key.plain <$> word)

def importedNameHere : Parser ImportNameSyntax := do
  let name ← boundName
  let renamed ← possibly (do keyword "as"; word)
  return ⟨name, renamed⟩

def isNameEnd (c : Option Char) : Bool := c = some ',' || c = some '}'

def importedName : Parser ImportNameSyntax := do
  (do
    let name ← importedNameHere
    require (isNameEnd (← peek))
    return name)
  <|> (do
    let _ ← oneOf ["type", "typeof"]
    importedNameHere)

def importedNames : Parser (List ImportNameSyntax) := do
  sign "\x7b"
  let names ← possibly (listed importedName)
  sign "\x7d"
  return names.getD []

def moduleAlias : Parser (List ImportNameSyntax) := do
  sign "*"
  keyword "as"
  let _ ← word
  return []

def importClause : Parser (List ImportNameSyntax) :=
  importedNames <|> moduleAlias <|> (do
    let name ← word
    let more ← possibly (do sign ","; importedNames <|> moduleAlias)
    return ⟨.plain name, none⟩ :: more.getD [])

def importRest (position : Position) : Parser Statement :=
  (do
    let source ← r.moduleName
    semicolon .type
    return .importing ⟨[], source, position⟩)
  <|> (do
    let names ← importClause
    let source ← r.fromClause
    semicolon .type
    return .importing ⟨names, source, position⟩)
  <|> (do
    let _ ← word
    sign "="
    keyword "require"
    sign "("
    let _ ← stringLiteral
    sign ")"
    semicolon .type
    return .importing ⟨[], [], position⟩)
  <|> (do
    let _ ← word
    sign "="
    let _ ← separated (sign ".") word
    semicolon .type
    return .other)

def importStatement : Parser Statement := do
  let position ← start
  keyword "import"
  r.importRest position <|> (do
    let _ ← oneOf ["type", "typeof"]
    r.importRest position)

def exportedNames : Parser Unit := do
  sign "\x7b"
  let _ ← possibly (listed (do
    let _ ← possibly (oneOf ["type", "typeof"])
    let _ ← possibly (do
      let _ ← boundName
      possibly (do keyword "as"; boundName))))
  sign "\x7d"

def reexport : Parser Unit := do
  let _ ← possibly (keyword "type")
  (do
    sign "*"
    let _ ← possibly (do keyword "as"; boundName)
    let _ ← r.fromClause)
  <|> (do
    exportedNames
    let _ ← possibly r.fromClause)
  semicolon .type

def otherExport : Parser Unit :=
  (do
    keyword "default"
    r.functionDeclaration <|> (do r.expressions; semicolon .expression))
  <|> (do
    signBefore "=" ['=', '>']
    let _ ← r.expression
    semicolon .expression)
  <|> (do
    keyword "as"
    keyword "namespace"
    let _ ← word
    semicolon .type)
  <|> (do let _ ← r.importStatement)
  <|> r.ambient
  <|> r.otherDeclaration
  <|> r.reexport

def exportStatement (comment : Option String) : Parser Statement := do
  let decorators ← many r.decorator
  keyword "export"
  (do
    let _ ← possibly (keyword "default")
    let d ← r.declaration
    return .declaration decorators d comment)
  <|> (do
    r.otherExport
    return .other)

/-! ## All statements -/

def controlStatement (w : String) : Parser Unit :=
  match w with
  | "if" => r.ifStatement
  | "for" => r.forStatement
  | "while" => r.whileStatement
  | "do" => r.doStatement
  | "switch" => r.switchStatement
  | "try" => r.tryStatement
  | "return" => r.jump "return"
  | "throw" => r.jump "throw"
  | "break" => r.jump "break"
  | "continue" => r.jump "continue"
  | "debugger" => do keyword "debugger"; semicolon .type
  | "with" => r.withStatement
  | _ => failure

def plainStatement : Parser Unit := do
  match ← peek with
  | some ';' => sign ";"
  | some '{' => r.block <|> r.expressionStatement
  | _ =>
    match ← wordAhead with
    | some w =>
      r.controlStatement w <|> r.otherDeclaration <|> r.ambient <|> r.labeled
        <|> r.expressionStatement
    | none => r.expressionStatement

def topStatement : Parser Statement := do
  let comment := (← comments).getLast?
  r.importStatement
    <|> r.exportStatement comment
    <|> (do return .declaration [] (← r.declaration) comment)
    <|> (do r.plainStatement; return .other)

def anyStatement : Parser Unit := do
  let _ ← r.topStatement

end RouteContract.Syntax.Rules

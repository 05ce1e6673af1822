import RouteContract.Syntax.Types

/-! # Classes

A decorator stands before a method with a body, before a field, or in a parameter list. Of a method
without a body only the parameters are kept, and index signatures and static blocks are left out. -/

set_option autoImplicit false

namespace RouteContract.Syntax.Rules

variable (r : Rules)

def memberDecorators (comment : Option String) :
    Parser (List DecoratorSyntax × Option String) := do
  let ds ← many (do
    let d ← r.decorator
    return (d, (← comments).getLast?))
  return (ds.map (·.1), ds.foldl (fun nearest d => d.2.or nearest) comment)

def methodRest (decorators : List DecoratorSyntax) (modifiers : List String) (key : Key)
    (comment : Option String) (position : Position) : Parser (Option ClassMemberSyntax) := do
  let (parameters, returns) ← r.signature
  if (← peek) = some '{' then
    r.block
    let _ ← possibly (sign ";")
    return some (.method ⟨decorators, modifiers, key, parameters, returns, comment, position⟩)
  else
    require decorators.isEmpty
    memberEnd .signature
    return some (.signature parameters)

def fieldRest (decorators : List DecoratorSyntax) (modifiers : List String) (key : Key)
    (optional : Bool) (comment : Option String) : Parser (Option ClassMemberSyntax) := do
  require (!modifiers.any isMethodModifier)
  let type ← possibly r.annotated
  let value ← possibly r.initializer
  memberEnd (if value.isSome then .expression else .type)
  return some (.field ⟨decorators, modifiers, key, optional, type, value, comment⟩)

def declaredMember : Parser (Option ClassMemberSyntax) := do
  let before := (← comments).getLast?
  let (decorators, nearest) ← r.memberDecorators before
  let position ← start
  let modifiers ← many memberModifier
  let key ← r.key
  let optional ← taken (sign "?")
  let definite ← taken (signBefore "!" ['='])
  match ← peek with
  | some '(' => r.methodRest decorators modifiers key nearest position
  | some '<' => r.methodRest decorators modifiers key nearest position
  | _ => r.fieldRest decorators modifiers key (optional && !definite) before

def indexMember : Parser (Option ClassMemberSyntax) := do
  let _ ← r.indexSignature
  memberEnd .type
  return none

def staticBlock : Parser (Option ClassMemberSyntax) := do
  keyword "static"
  r.block
  return none

def classMember : Parser (Option ClassMemberSyntax) :=
  (do sign ";"; return none) <|> r.staticBlock <|> r.indexMember <|> r.declaredMember

def classBody : Parser (List ClassMemberSyntax) := do
  sign "\x7b"
  let members ← many r.classMember
  sign "\x7d"
  return members.filterMap id

/-! ## Base classes -/

def heritagePart {α : Type} (p : Parser α) (f : α → List HeritageSyntax) :
    Parser (List HeritageSyntax) := do
  let comment ← commentPosition
  let a ← p
  return (comment.map HeritageSyntax.comment).toList ++ f a

def heritageBase : Parser (List HeritageSyntax) := do
  let base ← heritagePart (do return (← start, ← r.operand)) fun (p, e) => [.base e p]
  let args ← possibly (heritagePart r.typeArgs fun ts => [.args ts])
  return base ++ args.getD []

def heritage : Parser (List HeritageSyntax) := do
  keyword "extends"
  let first ← r.heritageBase
  let more ← many (do
    let comma ← heritagePart (sign ",") fun _ => []
    return comma ++ (← r.heritageBase))
  return first ++ more.flatten

def heritageClauses : Parser (List HeritageSyntax) := do
  let bases ← possibly r.heritage
  let _ ← possibly (do
    keyword "implements"
    separated (sign ",") r.type)
  return bases.getD []

def classFrom (decorators : List DecoratorSyntax) (position : Position) :
    Parser (Option ClassSyntax) := do
  keyword "class"
  let name ← possibly (do
    let w ← word
    require (w ≠ "extends" && w ≠ "implements")
    return w)
  let params ← r.typeParams?
  let heritage ← r.heritageClauses
  let members ← r.classBody
  return name.map fun name => ⟨decorators, name, params, heritage, members, position⟩

def anyClass : Parser (Option ClassSyntax) := do
  let position ← start
  let decorators ← many r.decorator
  let isAbstract ← taken (keyword "abstract")
  let c ← r.classFrom decorators position
  require (!isAbstract || c.isSome)
  return c

def classDeclaration : Parser ClassSyntax := do
  let position ← start
  let decorators ← many r.decorator
  let isAbstract ← taken (keyword "abstract")
  match ← r.classFrom decorators position with
  | some c =>
    if !isAbstract then
      let _ ← possibly (lineBreak .type)
    return c
  | none => failure

end RouteContract.Syntax.Rules

import RouteContract.SourceFile
import RouteContract.SourceFile.Types

/-! # Members of classes

A class gives fields, public methods with their decorators, and the decorators of all other
members. -/

set_option autoImplicit false

namespace RouteContract.Syntax

def argumentOf (a : ArgumentSyntax) : Argument :=
  match a.value.constant? with
  | some v => .constant v
  | none => .text a.text

def decoratorOf (x : Scope) (d : DecoratorSyntax) : Except Fault Decorator := do
  let typeArgs ← typesOf x d.typeArgs
  return ⟨d.name, typeArgs, d.args.map argumentOf, x.locate d.position⟩

def decoratorsOf (x : Scope) (ds : List DecoratorSyntax) : Except Fault (List Decorator) :=
  ds.mapM (decoratorOf x)

def receiver : String := "this"

def parameterOf (x : Scope) (p : ParameterSyntax) : Except Fault (Option DecoratedParameter) :=
  if p.pattern = receiver then .ok none
  else do
    let decorators ← decoratorsOf x p.decorators
    let type ← annotationOf x p.type
    return some ⟨p.pattern, decorators, type, p.optional, p.value.map (·.initializer),
      x.locate p.position⟩

def parametersOf (x : Scope) (ps : List ParameterSyntax) :
    Except Fault (List DecoratedParameter) := do
  return (← ps.mapM (parameterOf x)).filterMap fun p => p

def DecoratedParameter.field (p : DecoratedParameter) : Property TypeExpr :=
  ⟨p.name, p.type.getD (.keyword .any), p.optional, p.default, none, none⟩

def parameterFields (x : Scope) (ps : List ParameterSyntax) :
    Except Fault (List (Property TypeExpr)) := do
  let declared ← parametersOf x (ps.filter (·.accessibility = some "public"))
  return declared.map DecoratedParameter.field

def inferredType (value : Option Initializer) : TypeExpr :=
  match value.bind (·.value?) with
  | some (.string _) => .keyword .string
  | some (.integer _) => .keyword .number
  | some (.float _) => .keyword .number
  | some (.bool _) => .keyword .boolean
  | _ => .keyword .any

def isHiddenWord (w : String) : Bool := w = "private" || w = "protected" || w = "static"

def isAccessorWord (w : String) : Bool := w = "get" || w = "set"

def FieldSyntax.isHidden (f : FieldSyntax) : Bool := f.modifiers.any isHiddenWord

def MethodSyntax.isHidden (m : MethodSyntax) : Bool :=
  m.modifiers.any fun w => isHiddenWord w || isAccessorWord w

def FieldSyntax.initializer (f : FieldSyntax) : Option Initializer := f.value.map (·.initializer)

structure ClassMembers where
  fields : List (Property TypeExpr)
  methods : List DecoratedMethod
  strays : List StrayDecorators

namespace ClassMembers

def empty : ClassMembers := ⟨[], [], []⟩

def append (a b : ClassMembers) : ClassMembers :=
  ⟨a.fields ++ b.fields, a.methods ++ b.methods, a.strays ++ b.strays⟩

def stray (target : StrayTarget) (ds : List Decorator) : ClassMembers :=
  if ds.isEmpty then empty else ⟨[], [], [⟨target, ds⟩]⟩

def ofField (x : Scope) (f : FieldSyntax) : Except Fault ClassMembers := do
  let decorators ← decoratorsOf x f.decorators
  let strays := stray .field decorators
  if f.isHidden then return strays
  let type ← annotationOf x f.type
  let property := documented f.key (type.getD (inferredType f.initializer)) f.optional f.initializer
    f.comment
  return { strays with fields := [property] }

def ofMethod (x : Scope) (m : MethodSyntax) : Except Fault ClassMembers := do
  let decorators ← decoratorsOf x m.decorators
  if m.key.text = "constructor" then
    let fields ← parameterFields x m.parameters
    return { stray .constructor decorators with fields }
  if m.isHidden then return stray .hiddenMethod decorators
  let parameters ← parametersOf x m.parameters
  let returns ← annotationOf x m.returns
  return { empty with methods := [⟨m.key.text, decorators, parameters, returns,
    Documentation.ofComment? m.comment, x.locate m.position⟩] }

def ofMember (x : Scope) : ClassMemberSyntax → Except Fault ClassMembers
  | .field f => ofField x f
  | .method m => ofMethod x m
  | .signature _ => .ok empty

def ofMembers (x : Scope) : List ClassMemberSyntax → Except Fault ClassMembers
  | [] => .ok empty
  | m :: ms => do
    let first ← ofMember x m
    let rest ← ofMembers x ms
    return first.append rest

end ClassMembers

/-! ## Base classes -/

def addArgs (args : List TypeExpr) : List (TypeRef TypeExpr) → List (TypeRef TypeExpr)
  | [] => []
  | [base] => [{ base with args }]
  | base :: bases => base :: addArgs args bases

def Expr.kind : Expr → String
  | string _ => "string"
  | template _ => "template_string"
  | number _ => "number"
  | boolean b => if b then "true" else "false"
  | null => "null"
  | unary .. => "unary_expression"
  | array _ => "array"
  | object _ => "object"
  | wrapped _ => "parenthesized_expression"
  | name _ => "identifier"
  | member _ => "member_expression"
  | other kind => kind

def addHeritage (x : Scope) (bases : List (TypeRef TypeExpr)) :
    HeritageSyntax → Except Fault (List (TypeRef TypeExpr))
  | .base (.name name) _ => .ok (bases ++ [⟨name, none, []⟩])
  | .base (.member property) _ => .ok (bases ++ [⟨property, none, []⟩])
  | .base e p => .error (x.unsupported (.heritage e.kind) p)
  | .args ts => do return addArgs (← typesOf x ts) bases
  | .comment p => .error (x.unsupported (.heritage "comment") p)

def heritageOf (x : Scope) (parts : List HeritageSyntax) :
    Except Fault (List (TypeRef TypeExpr)) :=
  parts.foldlM (addHeritage x) []

end RouteContract.Syntax

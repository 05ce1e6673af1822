import RouteContract.Declaration
import RouteContract.Documentation
import RouteContract.Fault
import RouteContract.SourceFile.Constant

/-! # Types as declared

A type as written becomes a type expression. Nested unions are one union, nested intersections one
intersection, and what cannot be described keeps a name for its kind. -/

set_option autoImplicit false

namespace RouteContract.Syntax

structure Scope where
  path : String
  module : String
  declaration : String
  params : List String

namespace Scope

def locate (x : Scope) (p : Position) : Location := ⟨x.path, p.line, p.column⟩

def id (x : Scope) : DeclId := ⟨x.module, x.declaration⟩

def unsupported (x : Scope) (c : Construct) (p : Position) : Fault :=
  .unsupportedConstruct x.id.text c (x.locate p)

def named (x : Scope) (name : String) : TypeExpr :=
  if x.params.contains name then .param name
  else match Keyword.ofText? name with
    | some k => .keyword k
    | none => .named name

end Scope

def predefinedType (text : String) : TypeExpr :=
  match Keyword.ofText? text with
  | some k => .keyword k
  | none => .unsupported s!"type '{text}'"

def literalType (value : Expr) (text : String) : TypeExpr :=
  match value with
  | .null => .keyword .null
  | .name "undefined" => .keyword .undefined
  | value =>
    match value.constant? with
    | some (.string s) => .literal (.string s)
    | some (.bool b) => .literal (.boolean b)
    | some v =>
      match v.toFloat? with
      | some x => .literal (.number x)
      | none => .unsupported s!"literal '{text}'"
    | none => .unsupported s!"literal '{text}'"

def openUnions (ts : List TypeExpr) : List TypeExpr :=
  ts.flatMap fun t => match t with
    | .union members => members
    | t => [t]

def openIntersections (ts : List TypeExpr) : List TypeExpr :=
  ts.flatMap fun t => match t with
    | .intersection members => members
    | t => [t]

def documented (key : Key) (type : TypeExpr) (optional : Bool) (value : Option Initializer)
    (comment : Option String) : Property TypeExpr :=
  let d := Documentation.ofComment? comment
  ⟨key.text, type, optional, value.or (d.bind (·.default?)), d.bind (·.description),
    d.bind (·.format?)⟩

def addProperty (p : Property TypeExpr) (s : Shape TypeExpr) : Shape TypeExpr :=
  { s with properties := p :: s.properties }

def addIndex (i : IndexSignature TypeExpr) (s : Shape TypeExpr) : Shape TypeExpr :=
  { s with index := i :: s.index }

mutual

def typeOf (x : Scope) : TypeSyntax → Except Fault TypeExpr
  | .predefined text => .ok (predefinedType text)
  | .name text => .ok (x.named text)
  | .dotted last => .ok (.named last)
  | .generic name args => do return .ref ⟨name, none, ← typesOf x args⟩
  | .array element => do return .array (← typeOf x element)
  | .wrapped inner => typeOf x inner
  | .union members => do return .union (openUnions (← typesOf x members))
  | .intersection members => do return .intersection (openIntersections (← typesOf x members))
  | .literal value text => .ok (literalType value text)
  | .object members => do return .object (← shapeOf x members)
  | .comment => .ok (.unsupported "comment")
  | .other kind => .ok (.unsupported kind)

def typesOf (x : Scope) : List TypeSyntax → Except Fault (List TypeExpr)
  | [] => .ok []
  | t :: ts => do
    let t ← typeOf x t
    let ts ← typesOf x ts
    return t :: ts

def shapeOf (x : Scope) : List (MemberSyntax TypeSyntax) → Except Fault (Shape TypeExpr)
  | [] => .ok ⟨[], []⟩
  | .property ⟨key, optional, none, comment⟩ :: ms => do
    let s ← shapeOf x ms
    return addProperty (documented key (.keyword .any) optional none comment) s
  | .property ⟨key, optional, some t, comment⟩ :: ms => do
    let t ← typeOf x t
    let s ← shapeOf x ms
    return addProperty (documented key t optional none comment) s
  | .index keyName key value :: ms => do
    let value ← typeOf x value
    let key ← typeOf x key
    let s ← shapeOf x ms
    return addIndex ⟨keyName, key, value⟩ s
  | .mapped position :: _ => .error (x.unsupported .mappedType position)

end

def typeParamsOf (x : Scope) : List TypeParamSyntax → Except Fault (List TypeParam)
  | [] => .ok []
  | p :: ps => do
    let default ← match p.default with
      | some t => do pure (some (← typeOf x t))
      | none => pure none
    let rest ← typeParamsOf x ps
    return ⟨p.name, default⟩ :: rest

def annotationOf (x : Scope) : Option TypeSyntax → Except Fault (Option TypeExpr)
  | some t => do return some (← typeOf x t)
  | none => .ok none

end RouteContract.Syntax

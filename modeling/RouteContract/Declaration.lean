import RouteContract.TypeExpr.Basic
import RouteContract.Location

/-! # Declarations and controllers

What is loaded from source text: named types, and controller classes whose annotated methods become
operations. -/

set_option autoImplicit false

namespace RouteContract

structure TypeParam where
  name : String
  default : Option TypeExpr

structure EnumMember where
  name : String
  value : Literal

inductive DeclKind where
  /-- An interface, or a class that is only data. -/
  | object (bases : List (TypeRef TypeExpr)) (shape : Shape TypeExpr) (isClass : Bool)
  | typeAlias (target : TypeExpr)
  | enum (members : List EnumMember)

structure Declaration where
  id : DeclId
  kind : DeclKind
  params : List TypeParam
  description : Option String
  location : Location

namespace Declaration

def members (d : Declaration) : List (Property TypeExpr) :=
  match d.kind with
  | .object _ shape _ => shape.properties
  | _ => []

def bases (d : Declaration) : List (TypeRef TypeExpr) :=
  match d.kind with
  | .object bases _ _ => bases
  | _ => []

def isObject (d : Declaration) : Bool :=
  match d.kind with
  | .object .. => true
  | _ => false

end Declaration

inductive Verb where
  | get | post | put | patch | delete | head | options
deriving DecidableEq, Repr

namespace Verb

def all : List Verb := [get, post, put, patch, delete, head, options]

def name : Verb → String
  | get => "Get"
  | post => "Post"
  | put => "Put"
  | patch => "Patch"
  | delete => "Delete"
  | head => "Head"
  | options => "Options"

def text : Verb → String
  | get => "GET"
  | post => "POST"
  | put => "PUT"
  | patch => "PATCH"
  | delete => "DELETE"
  | head => "HEAD"
  | options => "OPTIONS"

def ofName? (s : String) : Option Verb := all.find? (·.name = s)

end Verb

inductive Status where
  | code (n : Nat)
  | default
deriving DecidableEq, Repr

def Status.text : Status → String
  | code n => toString n
  | default => "default"

abbrev SchemeUse := String × List String

inductive Annotation where
  | route (path : String)
  | verb (verb : Verb) (path : String)
  | path (wire : Option String)
  | query (wire : Option String)
  | header (wire : Option String)
  | body
  | bodyProp (wire : Option String)
  | request
  | inject
  | security (schemes : List SchemeUse)
  | noSecurity
  | response (status : Status) (description : Option String) (type : Option TypeExpr)
  | successResponse (status : Nat) (description : Option String)
  | tags (tags : List String)
  | operationId (id : String)
  | hidden
  | deprecated

inductive Target where
  | controller | method | parameter
deriving DecidableEq, Repr

def Target.all : List Target := [.controller, .method, .parameter]

def Target.text : Target → String
  | controller => "controller class"
  | method => "method"
  | parameter => "parameter"

namespace Annotation

def name : Annotation → String
  | route _ => "Route"
  | verb v _ => v.name
  | path _ => "Path"
  | query _ => "Query"
  | header _ => "Header"
  | body => "Body"
  | bodyProp _ => "BodyProp"
  | request => "Request"
  | inject => "Inject"
  | security _ => "Security"
  | noSecurity => "NoSecurity"
  | response .. => "Response"
  | successResponse .. => "SuccessResponse"
  | tags _ => "Tags"
  | operationId _ => "OperationId"
  | hidden => "Hidden"
  | deprecated => "Deprecated"

def targets : Annotation → List Target
  | route _ => [.controller]
  | verb .. | successResponse .. | operationId _ => [.method]
  | path _ | query _ | header _ | body | bodyProp _ | request | inject => [.parameter]
  | security _ | noSecurity | response .. | tags _ | hidden | deprecated => [.controller, .method]

def allowedOn (a : Annotation) (t : Target) : Bool := a.targets.contains t

def isBinding (a : Annotation) : Bool := a.allowedOn .parameter

end Annotation

structure AnnotationUse where
  content : Annotation
  location : Location

structure Parameter where
  name : String
  type : Option TypeExpr
  optional : Bool
  default : Option Initializer
  annotations : List AnnotationUse
  description : Option String
  format : Option Format
  location : Location

structure Method where
  name : String
  annotations : List AnnotationUse
  parameters : List Parameter
  returns : Option TypeExpr
  description : Option String
  location : Location

structure Controller where
  id : DeclId
  annotations : List AnnotationUse
  methods : List Method
  description : Option String
  location : Location

end RouteContract

import RouteContract.Registry
import RouteContract.Security

/-! # Operations

An operation is one route of the contract: its bound parameters, its responses and who may call
it. -/

set_option autoImplicit false

namespace RouteContract

inductive Source where
  | path
  | query
  | header
  /-- The whole body. -/
  | body
  /-- One field of an object body. -/
  | field
  /-- The request itself. -/
  | request
  /-- The host. -/
  | injected
deriving DecidableEq, Repr

namespace Source

def isText : Source → Bool
  | path | query | header => true
  | body | field | request | injected => false

def isValidated : Source → Bool
  | request | injected => false
  | path | query | header | body | field => true

def text : Source → String
  | path => "path"
  | query => "query"
  | header => "header"
  | body => "body"
  | field => "body"
  | request => "request"
  | injected => "injected"

end Source

structure BoundParameter where
  name : String
  wire : String
  source : Source
  schema : Option Schema
  required : Bool
  default : Option Json
  description : Option String

structure Response where
  description : String
  schema : Option Schema

structure Operation where
  controller : String
  method : String
  verb : Verb
  path : String
  stem : String
  parameters : List BoundParameter
  returns : Option Schema
  successStatus : Nat
  responses : Entries Status Response
  security : List Requirement
  tags : List String
  operationId : String
  description : Option String
  deprecated : Bool
  hidden : Bool
  implicitBody : Option (ObjectSchema Schema)

namespace Operation

def title (o : Operation) : String := o.controller ++ "." ++ o.method

def parameter? (o : Operation) (name : String) : Option BoundParameter :=
  o.parameters.find? (·.name = name)

def bodyParameter? (o : Operation) : Option BoundParameter :=
  o.parameters.find? (·.source = .body)

def schemas (o : Operation) : List Schema :=
  o.parameters.filterMap (·.schema) ++ o.responses.values.filterMap (·.schema)
    ++ o.returns.toList

end Operation

def bodyObject (parameters : List BoundParameter) : ObjectSchema Schema where
  properties := parameters.foldl (fun ps p =>
    match p.source, p.schema with
    | .field, some schema =>
      Entries.insert ps p.wire ⟨schema, p.required, p.default, p.description⟩
    | _, _ => ps) []
  additional := .implicit

end RouteContract

import RouteContract.Operation
import RouteContract.Text.Blank

/-! # Contracts

A contract holds every definition that a run registered and every operation it found. Its document
is one JSON value. -/

set_option autoImplicit false

namespace RouteContract

structure Contract where
  definitions : Definitions
  operations : List Operation

namespace Contract

def empty : Contract := ⟨[], []⟩

def operation? (c : Contract) (verb : Verb) (path : String) : Option Operation :=
  c.operations.find? fun o => o.verb = verb && o.path = path

def operationById? (c : Contract) (id : String) : Option Operation :=
  c.operations.find? (·.operationId = id)

def definition? (c : Contract) (name : String) : Option Definition := c.definitions.find? name

end Contract

namespace Document

def text (s : String) : Json := .string s

def texts (ss : List String) : Json := .array (ss.map .string)

def optional (name : String) : Option Json → List (String × Json)
  | some v => [(name, v)]
  | none => []

def nullable : Option Json → Json
  | some v => v
  | none => .null

def enumValue : EnumValue → Json
  | .string s => .string s
  | .number x => .float x

def tagged (kind : String) (value : Json) : Json := .object [("kind", text kind), ("value", value)]

mutual

def schema : Schema → Json
  | .primitive kind => tagged "primitive" (text kind.text)
  | .array s => tagged "array" (schema s)
  | .enum values => tagged "enum" (.array (values.map enumValue))
  | .object ⟨ps, a⟩ => tagged "object"
      (.object [("properties", .object (propertySchemas ps)), ("additional_properties", additional a)])
  | .union ss => tagged "union" (.array (schemas ss))
  | .intersection ss => tagged "intersection" (.array (schemas ss))
  | .reference name => tagged "reference" (text name)

def schemas : List Schema → List Json
  | [] => []
  | s :: ss => schema s :: schemas ss

def propertySchemas : List (String × PropertySchema Schema) → List (String × Json)
  | [] => []
  | (name, ⟨s, required, default, description⟩) :: ps =>
    (name, .object ([("schema", schema s), ("required", .bool required)]
      ++ optional "default" default ++ optional "description" (description.map text)))
      :: propertySchemas ps

def additional : Additional Schema → Json
  | .implicit => .object [("policy", text "implicit")]
  | .any => .object [("policy", text "any")]
  | .schema s => .object [("policy", text "schema"), ("schema", schema s)]

end

def objectSchema (o : ObjectSchema Schema) : Json :=
  .object [("properties", .object (propertySchemas o.properties)),
    ("additional_properties", additional o.additional)]

def source : Source → String
  | .path => "path"
  | .query => "query"
  | .header => "header"
  | .body => "body"
  | .field => "implicit_body_field"
  | .request => "request_context"
  | .injected => "injected"

def parameter (p : BoundParameter) : Json :=
  .object ([("name", text p.name), ("wire_name", text p.wire), ("source", text (source p.source)),
    ("schema", nullable (p.schema.map schema)), ("required", .bool p.required)]
    ++ optional "default" p.default ++ optional "description" (p.description.map text))

def response (r : Response) : Json :=
  .object (("description", text r.description) :: optional "schema" (r.schema.map schema))

def requirement (r : Requirement) : Json := .object (r.map fun (scheme, scopes) => (scheme, texts scopes))

def operation (o : Operation) : Json :=
  .object ([("controller", text o.controller), ("method", text o.method),
    ("verb", text (Text.lower o.verb.text)), ("path", text o.path), ("prefix", text o.stem),
    ("parameters", .array (o.parameters.map parameter)),
    ("returns", nullable (o.returns.map schema)),
    ("success_status", .integer o.successStatus),
    ("responses", .object (o.responses.map fun (status, r) => (status.text, response r))),
    ("security", .array (o.security.map requirement)), ("tags", texts o.tags),
    ("operation_id", text o.operationId)]
    ++ optional "description" (o.description.map text)
    ++ [("deprecated", .bool o.deprecated), ("hidden", .bool o.hidden)]
    ++ optional "implicit_body" (o.implicitBody.map objectSchema))

def definition (d : Definition) : Json :=
  .object (("schema", schema d.schema)
    :: (optional "description" (d.description.map text) ++ [("origin", text d.origin)]))

end Document

def Contract.toJson (c : Contract) : Json :=
  .object [("definitions", .object (c.definitions.map fun (name, d) => (name, Document.definition d))),
    ("operations", .array (c.operations.map Document.operation))]

def Contract.render (c : Contract) : String := c.toJson.indented 0

end RouteContract

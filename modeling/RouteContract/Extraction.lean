import RouteContract.Contract
import RouteContract.Resolution
import RouteContract.Route.Binding

/-! # Operations of controllers

Each method with a verb becomes an operation. All types it mentions are resolved into one registry,
which ends as the definitions of the contract. The first fault ends the run. -/

set_option autoImplicit false

namespace RouteContract

open Resolve (fail ofExcept)

namespace AnnotationUse

def checkPlacement (uses : List AnnotationUse) (t : Target) : Except Fault Unit :=
  match uses.find? (!·.content.allowedOn t) with
  | some use => .error (.misplaced use.content.name t.text use.location)
  | none => .ok ()

end AnnotationUse

namespace Extraction

structure Context where
  name : String
  stem : String
  tags : List String
  security : Option (List Requirement)
  responses : Entries Status Response
  hidden : Bool
  deprecated : Bool

def payload? : Schema → Option Schema
  | .primitive .void => none
  | s => some s

def payload (g : Graph) (t : TypeExpr) (o : Origin) : Resolve (Option Schema) := do
  return payload? (← g.resolveType t o)

def response (g : Graph) (o : Origin) (status : Status) (description : Option String)
    (type : Option TypeExpr) : Resolve Response := do
  let schema ← match type with
    | some t => payload g t o
    | none => pure none
  let wording := match status with
    | .default => "Unexpected error"
    | .code n => toString n
  return ⟨description.getD wording, schema⟩

def addToContext (g : Graph) (o : Origin) (context : Context) (use : AnnotationUse) :
    Resolve Context :=
  match use.content with
  | .route path => return { context with stem := Route.join path "" }
  | .tags tags => return { context with tags := appendNew context.tags tags }
  | .hidden => return { context with hidden := true }
  | .deprecated => return { context with deprecated := true }
  | .response status description type => do
    let r ← response g o status description type
    return { context with responses := context.responses.insert status r }
  | _ => return context

def contextOf (g : Graph) (combination : Combination) (c : Controller) : Resolve Context := do
  ofExcept (AnnotationUse.checkPlacement c.annotations .controller)
  let start : Context := {
    name := c.id.name
    stem := Route.join "" ""
    tags := []
    security := Security.declared c.annotations combination
    responses := []
    hidden := false
    deprecated := false }
  c.annotations.foldlM (addToContext g ⟨c.id.text, c.location⟩) start

structure Taken where
  body : Bool
  fields : Bool
  placeholders : Entries String String

def Taken.nothing : Taken := ⟨false, false, []⟩

def Taken.add (t : Taken) (p : Parameter) (b : Route.Binding) (operation : String) :
    Except Fault Taken :=
  match b.source with
  | .body =>
    if t.body || t.fields then .error (.duplicateBody operation p.location)
    else .ok { t with body := true }
  | .field =>
    if t.body then .error (.duplicateBody operation p.location) else .ok { t with fields := true }
  | .path =>
    match t.placeholders.find? b.wire with
    | some other => .error
        (.conflictingBinding operation p.name (.placeholderTaken b.wire other) p.location)
    | none => .ok { t with placeholders := t.placeholders.insert b.wire p.name }
  | _ => .ok t

/-- The parameter at a binding. What the caller does not supply is not resolved. -/
def boundParameter (g : Graph) (p : Parameter) (b : Route.Binding) (operation : String) :
    Resolve BoundParameter :=
  if !b.source.isValidated then
    return ⟨p.name, b.wire, b.source, none, false, none, p.description⟩
  else
    match p.type with
    | none => fail (.missingType (.parameter p.name operation) p.location)
    | some type => do
      let s ← g.resolveProperty ⟨p.name, type, p.optional, p.default, p.description, p.format⟩
        ⟨operation, p.location⟩
      return ⟨p.name, b.wire, b.source, some s.schema, s.required, s.default, p.description⟩

def parametersFrom (g : Graph) (template operation : String) (taken : Taken) :
    List Parameter → Resolve (List BoundParameter × Taken)
  | [] => return ([], taken)
  | p :: ps => do
    ofExcept (AnnotationUse.checkPlacement p.annotations .parameter)
    let b ← ofExcept (Route.bind p template operation)
    let taken ← ofExcept (taken.add p b operation)
    let bound ← boundParameter g p b operation
    let (rest, taken) ← parametersFrom g template operation taken ps
    return (bound :: rest, taken)

def parameters (g : Graph) (m : Method) (template operation : String) :
    Resolve (List BoundParameter) := do
  let (bound, taken) ← parametersFrom g template operation .nothing m.parameters
  match (Route.placeholders template).find? (!taken.placeholders.contains ·) with
  | some name => fail (.unboundPlaceholder operation name m.location)
  | none => return bound

structure Remarks where
  success : Option (Nat × Option String)
  responses : Entries Status Response
  tags : List String
  operationId : Option String
  hidden : Bool
  deprecated : Bool

def Remarks.add (g : Graph) (o : Origin) (r : Remarks) (use : AnnotationUse) : Resolve Remarks :=
  match use.content with
  | .successResponse status description => return { r with success := some (status, description) }
  | .response status description type => do
    let response ← response g o status description type
    return { r with responses := r.responses.insert status response }
  | .tags tags => return { r with tags := appendNew r.tags tags }
  | .operationId id => return { r with operationId := some id }
  | .hidden => return { r with hidden := true }
  | .deprecated => return { r with deprecated := true }
  | _ => return r

def verbOf (context : Context) (m : Method) : Except Fault (Option (Verb × String)) :=
  let verbs := m.annotations.filterMap fun use => match use.content with
    | .verb v path => some (v, path, use.location)
    | _ => none
  match verbs, m.annotations with
  | [], [] => .ok none
  | [], stray :: _ => .error
      (.misplaced stray.content.name "method without an HTTP verb" stray.location)
  | [(v, path, _)], _ => .ok (some (v, path))
  | _ :: (v, _, location) :: _, _ => .error
      (.invalidArguments v.name (.secondVerb (context.name ++ "." ++ m.name)) location)

/-- The response of success, then those of the controller, then those of the method; of one status
the last is kept. -/
def allResponses (success : Nat × Response) (inherited own : Entries Status Response) :
    Entries Status Response :=
  (inherited ++ own).foldl (fun table (status, r) => table.insert status r)
    [(.code success.1, success.2)]

def operationOf (g : Graph) (combination : Combination) (context : Context) (m : Method)
    (verb : Verb) (tail : String) : Resolve Operation := do
  ofExcept (AnnotationUse.checkPlacement m.annotations .method)
  let title := context.name ++ "." ++ m.name
  let origin : Origin := ⟨title, m.location⟩
  let template := Route.join context.stem tail
  let parameters ← parameters g m template title
  let returns ← match m.returns with
    | some t => payload g t origin
    | none => fail (.missingType (.returnType title) m.location)
  let remarks ← m.annotations.foldlM (Remarks.add g origin)
    ⟨none, [], context.tags, none, context.hidden, context.deprecated⟩
  let (status, description) := remarks.success.getD (if returns.isSome then 200 else 204, none)
  let wording := if returns.isSome then "Ok" else "No content"
  let body := bodyObject parameters
  return {
    controller := context.name
    method := m.name
    verb
    path := template
    stem := context.stem
    parameters
    returns
    successStatus := status
    responses := allResponses (status, ⟨description.getD wording, returns⟩) context.responses
      remarks.responses
    security := ((Security.declared m.annotations combination).or context.security).getD []
    tags := remarks.tags
    operationId := remarks.operationId.getD m.name
    description := m.description
    deprecated := remarks.deprecated
    hidden := remarks.hidden
    implicitBody := if body.properties.isEmpty then none else some body }

def addOperation (operations : List Operation) (o : Operation) : Except Fault (List Operation) :=
  match operations.find? fun p => p.verb = o.verb && Route.shape p.path = Route.shape o.path with
  | some first => .error (.duplicateOperation o.verb.text o.path first.title o.title)
  | none => .ok (operations ++ [o])

def addMethod (g : Graph) (combination : Combination) (context : Context)
    (operations : List Operation) (m : Method) : Resolve (List Operation) := do
  match ← ofExcept (verbOf context m) with
  | none => return operations
  | some (verb, tail) =>
    let o ← operationOf g combination context m verb tail
    ofExcept (addOperation operations o)

def addController (g : Graph) (combination : Combination) (operations : List Operation)
    (c : Controller) : Resolve (List Operation) := do
  let context ← contextOf g combination c
  c.methods.foldlM (addMethod g combination context) operations

def finish (r : Registry) (operations : List Operation) : Except Fault Contract := do
  operations.forM fun o => o.schemas.forM r.check
  return ⟨← r.freeze, operations⟩

def extract (g : Graph) (combination : Combination) : Resolve Contract := do
  let operations ← g.controllers.foldlM (addController g combination) []
  ofExcept (finish (← Resolve.registry) operations)

end Extraction

def Graph.contract (g : Graph) (combination : Combination) : Except Stop Contract :=
  ((Extraction.extract g combination).run.run (.empty, [])).1

end RouteContract

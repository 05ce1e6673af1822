import RouteContract.Fault
import RouteContract.SourceFile.Names

/-! # Decorators as annotations

A decorator is known by its name. Each known one has limits on its arguments, and an unknown one is
a fault wherever it stands. -/

set_option autoImplicit false

namespace RouteContract

namespace Decorator

def invalid {α : Type} (d : Decorator) (cause : AnnotationFault) : Except Fault α :=
  .error (.invalidArguments d.name cause d.location)

def atMost (d : Decorator) (n : Nat) : Except Fault Unit :=
  if n < d.args.length then d.invalid (.tooManyArguments n d.args.length) else .ok ()

def constant? (d : Decorator) (i : Nat) : Except Fault (Option Json) :=
  match d.args[i]? with
  | none => .ok none
  | some (.constant v) => .ok (some v)
  | some (.text text) => d.invalid (.notLiteral (i + 1) text)

def string? (d : Decorator) (i : Nat) : Except Fault (Option String) := do
  match ← d.constant? i with
  | none => return none
  | some (.string s) => return some s
  | some v => d.invalid (.notString (i + 1) v)

def onlyString? (d : Decorator) : Except Fault (Option String) := do
  d.atMost 1
  d.string? 0

def strings (d : Decorator) : Except Fault (List String) :=
  (List.range d.args.length).mapM fun i => do return (← d.string? i).getD ""

def statusOfText? (text : String) : Option Nat :=
  let ds := match text.toList with
    | '+' :: ds => ds
    | ds => ds
  (Number.natural? 10 Number.digit? ds).bind fun n => if n < Nat.pow 2 16 then some n else none

def statusOfNumber? : Json → Option Nat
  | .integer n => if 0 ≤ n ∧ n < (Nat.pow 2 16 : Int) then some n.toNat else none
  | _ => none

def status (d : Decorator) (i : Nat) : Except Fault Status := do
  match ← d.constant? i with
  | none => d.invalid .missingStatus
  | some (.string s) =>
    if s = "default" then return .default
    match statusOfText? s with
    | some n => return .code n
    | none => d.invalid (.badStatusText s)
  | some v =>
    match statusOfNumber? v with
    | some n => return .code n
    | none => d.invalid (.badStatus v)

def scope (d : Decorator) : Json → Except Fault String
  | .string s => .ok s
  | v => d.invalid (.notScope v)

def scopes (d : Decorator) : Json → Except Fault (List String)
  | .array items => items.mapM d.scope
  | v => d.invalid (.notScopes v)

def schemes (d : Decorator) : Except Fault (List SchemeUse) := do
  d.atMost 2
  match ← d.constant? 0 with
  | none => d.invalid .missingScheme
  | some (.string name) =>
    match ← d.constant? 1 with
    | some v => return [(name, ← d.scopes v)]
    | none => return [(name, [])]
  | some (.object fields) =>
    if d.args.length = 1 && !fields.isEmpty then
      fields.mapM fun (name, v) => do return (name, ← d.scopes v)
    else d.invalid (.notScheme (.object fields))
  | some v => d.invalid (.notScheme v)

def bare (d : Decorator) (a : Annotation) : Except Fault Annotation := do
  d.atMost 0
  return a

def response (ns : Names) (d : Decorator) : Except Fault Annotation := do
  d.atMost 3
  let status ← d.status 0
  let description ← d.string? 1
  return .response status description (d.typeArgs.head?.map (TypeExpr.bindNames ns))

def successResponse (d : Decorator) : Except Fault Annotation := do
  d.atMost 3
  match ← d.status 0 with
  | .code n => return .successResponse n (← d.string? 1)
  | .default => d.invalid .defaultSuccess

def operationId (d : Decorator) : Except Fault Annotation := do
  match ← d.onlyString? with
  | some id => return .operationId id
  | none => d.invalid .missingOperationId

def meaning (ns : Names) (d : Decorator) : Except Fault Annotation :=
  match Verb.ofName? d.name with
  | some verb => do return .verb verb ((← d.onlyString?).getD "")
  | none =>
    match d.name with
    | "Route" => do return .route ((← d.onlyString?).getD "")
    | "Path" => do return .path (← d.onlyString?)
    | "Query" => do return .query (← d.onlyString?)
    | "Header" => do return .header (← d.onlyString?)
    | "BodyProp" => do return .bodyProp (← d.onlyString?)
    | "Body" => d.bare .body
    | "Request" => d.bare .request
    | "Inject" => d.bare .inject
    | "NoSecurity" => d.bare .noSecurity
    | "Hidden" => d.bare .hidden
    | "Deprecated" => d.bare .deprecated
    | "Security" => do return .security (← d.schemes)
    | "Response" => d.response ns
    | "SuccessResponse" => d.successResponse
    | "Tags" => do return .tags (← d.strings)
    | "OperationId" => d.operationId
    | name => .error (.unrecognized name d.location)

def use (ns : Names) (d : Decorator) : Except Fault AnnotationUse := do
  return ⟨← d.meaning ns, d.location⟩

end Decorator

def annotationUses (ns : Names) (ds : List Decorator) : Except Fault (List AnnotationUse) :=
  ds.mapM (Decorator.use ns)

def StrayDecorators.reject (ns : Names) (s : StrayDecorators) : Except Fault Unit := do
  match ← annotationUses ns s.decorators with
  | [] => return ()
  | first :: _ => throw (.misplaced first.content.name s.target.text first.location)

/-! ## Controllers -/

def isDeprecation (u : AnnotationUse) : Bool :=
  match u.content with
  | .deprecated => true
  | _ => false

def withDeprecation (uses : List AnnotationUse) (d : Documentation) (location : Location) :
    List AnnotationUse :=
  if !uses.isEmpty && !uses.any isDeprecation && d.hasTag "deprecated" then
    uses ++ [⟨.deprecated, location⟩]
  else uses

def DecoratedParameter.parameter (ns : Names) (d : Documentation) (p : DecoratedParameter) :
    Except Fault Parameter := do
  let uses ← annotationUses ns p.decorators
  return {
    name := p.name
    type := p.type.map (TypeExpr.bindNames ns)
    optional := p.optional
    default := p.default
    annotations := uses
    description := d.parameterDescription? p.name
    format := d.parameterFormat? p.name
    location := p.location }

def DecoratedMethod.method (ns : Names) (m : DecoratedMethod) : Except Fault Method := do
  let d := m.documentation.getD .empty
  let uses ← annotationUses ns m.decorators
  let parameters ← m.parameters.mapM (DecoratedParameter.parameter ns d)
  return {
    name := m.name
    annotations := withDeprecation uses d m.location
    parameters
    returns := m.returns.map (TypeExpr.bindNames ns)
    description := d.description
    location := m.location }

def DecoratedClass.controller (ns : Names) (module : String) (c : DecoratedClass) :
    Except Fault Controller := do
  let uses ← annotationUses ns c.decorators
  let methods ← c.methods.mapM (DecoratedMethod.method ns)
  return ⟨⟨module, c.name⟩, uses, methods, c.documentation.bind (·.description), c.location⟩

end RouteContract

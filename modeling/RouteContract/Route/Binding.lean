import RouteContract.Fault
import RouteContract.Operation
import RouteContract.Route.Template
import RouteContract.TypeExpr.Substitution

/-! # Binding of parameters

An annotation says where a parameter is read from. Without one, a parameter named like a placeholder
of the route is read from the path, and any other is a field of the body. -/

set_option autoImplicit false

namespace RouteContract.Route

structure Binding where
  source : Source
  wire : String
deriving DecidableEq, Repr

def annotated (a : Annotation) (name : String) : Binding :=
  match a with
  | .path wire => ⟨.path, wire.getD name⟩
  | .query wire => ⟨.query, wire.getD name⟩
  | .header wire => ⟨.header, wire.getD name⟩
  | .bodyProp wire => ⟨.field, wire.getD name⟩
  | .body => ⟨.body, name⟩
  | .request => ⟨.request, name⟩
  | _ => ⟨.injected, name⟩

def Parameter.mayBeUndefined (p : Parameter) : Bool :=
  p.optional || p.type.any (·.stripUndefined.2)

def choose (p : Parameter) (template operation : String) : Except Fault Binding :=
  match (p.annotations.map (·.content)).filter (·.isBinding) with
  | [] =>
    if (placeholders template).contains p.name then .ok ⟨.path, p.name⟩ else .ok ⟨.field, p.name⟩
  | [a] => .ok (annotated a p.name)
  | a :: b :: _ => .error (.conflictingBinding operation p.name (.twoSources a.name b.name) p.location)

def bind (p : Parameter) (template operation : String) : Except Fault Binding := do
  let b ← choose p template operation
  if b.source = .path then
    if !(placeholders template).contains b.wire then
      throw (.missingPlaceholder operation p.name template p.location)
    if Parameter.mayBeUndefined p then throw (.optionalPathParameter operation p.name p.location)
  return b

end RouteContract.Route

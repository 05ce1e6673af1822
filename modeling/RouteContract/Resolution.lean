import RouteContract.Builtin
import RouteContract.Declaration.Graph
import RouteContract.Registry
import RouteContract.Schema.Union
import RouteContract.TypeExpr.Substitution

/-! # Resolution of types

A type becomes a schema; the declarations it names become definitions in the registry. A name is
claimed before its members are resolved, so that a declaration may mention itself. A generic
declaration may mention itself at ever larger arguments: the recursion is on a number of nested
steps, and a run that uses it up is repeated with more of them. Some number is always enough. -/

set_option autoImplicit false

namespace RouteContract

structure Origin where
  declaration : String
  location : Location

inductive Stop where
  | fault (f : Fault)
  | exhausted

abbrev Resolve (α : Type) := Registry.Building (List DeclId) Stop α

namespace Resolve

def fail {α : Type} (f : Fault) : Resolve α := throw (.fault f)

def ofExcept {α : Type} : Except Fault α → Resolve α
  | .ok a => return a
  | .error f => fail f

def registry : Resolve Registry := return (← get).1

def inheritance : Resolve (List DeclId) := return (← get).2

def setInheritance (ids : List DeclId) : Resolve Unit := modify fun (r, _) => (r, ids)

end Resolve

open Resolve (fail)

def TypeRef.builtin? (r : TypeRef TypeExpr) : Option Builtin :=
  if r.module.isNone then Builtin.ofName? r.name else none

namespace Graph

/-- The declaration that a reference means: the one in its module, or else the only one of its
name. -/
def lookup (g : Graph) (r : TypeRef TypeExpr) (o : Origin) : Except Fault Declaration :=
  match r.module with
  | some module =>
    match g.declaration? ⟨module, r.name⟩ with
    | some d => .ok d
    | none => .error (.unresolved r.name o.declaration o.location)
  | none =>
    match g.named r.name with
    | [] => .error (.unresolved r.name o.declaration o.location)
    | [d] => .ok d
    | ds => .error (.ambiguous r.name (ds.map (·.id.text)) o.location)

mutual

/-- Binds each named reference of a type argument to its module. Inline objects are left as they
are. -/
def normalize (g : Graph) (o : Origin) : TypeExpr → Except Fault TypeExpr
  | .ref ⟨name, module, args⟩ => do
    let args ← normalizeAll g o args
    match module with
    | some module => return .ref ⟨name, some module, args⟩
    | none =>
      if (Builtin.ofName? name).isSome then return .ref ⟨name, none, args⟩
      else
        let d ← g.lookup ⟨name, none, []⟩ o
        return .ref ⟨name, some d.id.module, args⟩
  | .array t => do return .array (← normalize g o t)
  | .union ts => do return .union (← normalizeAll g o ts)
  | .intersection ts => do return .intersection (← normalizeAll g o ts)
  | .param name => .error (.unboundParameter name o.declaration)
  | .keyword k => .ok (.keyword k)
  | .literal l => .ok (.literal l)
  | .object shape => .ok (.object shape)
  | .unsupported c => .ok (.unsupported c)

def normalizeAll (g : Graph) (o : Origin) : List TypeExpr → Except Fault (List TypeExpr)
  | [] => .ok []
  | t :: ts => do
    let t ← normalize g o t
    let ts ← normalizeAll g o ts
    return t :: ts

end

end Graph

namespace Declaration

def bindingOf (params : List TypeParam) (args : List TypeExpr) (name : String) :
    Option TypeExpr :=
  (params.findIdx? (·.name = name)).bind (args[·]?)

/-- The arguments of all parameters: those written, then the defaults of the rest. A default may
mention earlier parameters. -/
def completeArgs (g : Graph) (d : Declaration) (written : List TypeExpr) (o : Origin)
    (earlier : List TypeParam) (concrete : List TypeExpr) :
    List TypeParam → Except Fault (List TypeExpr)
  | [] => .ok concrete
  | p :: rest => do
    let arg ← match written[earlier.length]?, p.default with
      | some arg, _ => .ok arg
      | none, some default => .ok (default.substitute (bindingOf earlier concrete))
      | none, none => .error (.arity d.id.text d.params.length written.length)
    let arg ← g.normalize o arg
    completeArgs g d written o (earlier ++ [p]) (concrete ++ [arg]) rest

def instantiate (g : Graph) (d : Declaration) (written : List TypeExpr) (o : Origin) :
    Except Fault Instance := do
  if d.params.length < written.length then
    throw (.arity d.id.text d.params.length written.length)
  let args ← completeArgs g d written o [] [] d.params
  return ⟨d.id, args⟩

def origin (d : Declaration) : Origin := ⟨d.id.text, d.location⟩

end Declaration

def TypeExpr.stringLiterals? : TypeExpr → Option (List String)
  | .literal (.string s) => some [s]
  | .union members => members.foldlM (fun values t => match t with
      | .literal (.string s) => some (if values.contains s then values else values ++ [s])
      | _ => none) []
  | _ => none

def Literal.schema : Literal → Schema
  | .string s => .enum [.string s]
  | .number x => .enum [.number x]
  | .boolean _ => .primitive .boolean

namespace EnumMember

def value? (d : Declaration) (m : EnumMember) : Except Fault EnumValue :=
  match m.value with
  | .string s => .ok (.string s)
  | .number x => .ok (.number x)
  | .boolean _ => .error (.unsupportedConstruct d.id.text (.booleanMember m.name) d.location)

end EnumMember

namespace Resolve

section

-- `type` resolves nested types.
variable (type : TypeExpr → Origin → Resolve Schema)

def property (p : Property TypeExpr) (o : Origin) : Resolve (PropertySchema Schema) := do
  let (t, undefined) := p.type.stripUndefined
  let schema ← type t o
  return {
    schema := match p.format with
      | some f => schema.applyFormat f
      | none => schema
    required := !(p.optional || undefined || p.default.isSome)
    default := p.default.bind (·.value?)
    description := p.description }

def properties (o : Origin) (table : Entries String (PropertySchema Schema)) :
    List (Property TypeExpr) → Resolve (Entries String (PropertySchema Schema))
  | [] => return table
  | p :: ps => do
    let schema ← property type p o
    properties o (table.insert p.name schema) ps

def additional (index : List (IndexSignature TypeExpr)) (o : Origin) :
    Resolve (Additional Schema) :=
  match index with
  | [] => return .implicit
  | [signature] =>
    if !signature.key.same (.keyword .string) then
      fail (.unsupportedConstruct o.declaration (.indexKey signature.key) o.location)
    else match signature.value with
      | .keyword .any => return .any
      | .keyword .unknown => return .any
      | value => do return .schema (← type value o)
  | _ => fail (.unsupportedConstruct o.declaration .severalIndexSignatures o.location)

def all (o : Origin) : List TypeExpr → Resolve (List Schema)
  | [] => return []
  | t :: ts => do
    let s ← type t o
    let ss ← all o ts
    return s :: ss

def unionOf (members : List TypeExpr) (o : Origin) : Resolve Schema := do
  let schemas ← all type o (members.filter (!·.isUndefined))
  return if schemas.isEmpty then .primitive .void else .unionOf schemas

def object? (r : Registry) : Schema → Option (ObjectSchema Schema)
  | .object o => some o
  | .reference name =>
    match r.defined? name with
    | some (.object o) => some o
    | _ => none
  | _ => none

def intersectionOf (members : List TypeExpr) (o : Origin) : Resolve Schema := do
  let schemas ← all type o members
  match schemas.mapM (object? (← registry)) with
  | some objects => return .object (objects.foldl ObjectSchema.merge .empty)
  | none => return .intersection schemas

def expectArgs (r : TypeRef TypeExpr) (n : Nat) : Resolve Unit :=
  if r.args.length = n then return () else fail (.arity r.name n r.args.length)

def builtin (b : Builtin) (r : TypeRef TypeExpr) (o : Origin) : Resolve Schema :=
  match b with
  | .primitive kind => return .primitive kind
  | .array => do
    expectArgs r 1
    return .array (← type (r.args.getD 0 default) o)
  | .promise => do
    expectArgs r 1
    type (r.args.getD 0 default) o
  | .record => do
    expectArgs r 2
    let a ← additional type [⟨"key", r.args.getD 0 default, r.args.getD 1 default⟩] o
    return .object ⟨[], a⟩
  | .unsupported =>
    fail (.unsupportedConstruct o.declaration (.utilityType r.name) o.location)

-- `members` adds the members of a declaration to an object.
variable (members : Declaration → List TypeExpr → ObjectSchema Schema →
  Resolve (ObjectSchema Schema))

def body (d : Declaration) (args : List TypeExpr) : Resolve (Schema × Option String) :=
  match d.kind with
  | .object .. => do return (.object (← members d args .empty), d.description)
  | .typeAlias target =>
    match target.stringLiterals? with
    | some values => return (.enum (values.map .string), d.description)
    | none => fail (.unsupportedAlias d.id.text d.location)
  | .enum ms => do return (.enum (← ofExcept (ms.mapM (·.value? d))), d.description)

def instanceOf (g : Graph) (i : Instance) : Resolve Schema :=
  match g.declaration? i.id with
  | none => fail (.unresolved i.id.name i.id.text .memory)
  | some d =>
    if d.params.length ≠ i.args.length then
      fail (.arity d.id.text d.params.length i.args.length)
    else
      Registry.getOrCreate .fault (TypeExpr.canonicalName d.id.name i.args) i (body members d i.args)

def refOf (g : Graph) (r : TypeRef TypeExpr) (o : Origin) : Resolve Schema :=
  match r.builtin? with
  | some b => builtin type b r o
  | none => do
    let d ← ofExcept (g.lookup r o)
    let i ← ofExcept (d.instantiate g r.args o)
    instanceOf members g i

def baseMembers (g : Graph) (d : Declaration) (args : List TypeExpr)
    (object : ObjectSchema Schema) (base : TypeRef TypeExpr) : Resolve (ObjectSchema Schema) := do
  let args := TypeExpr.substituteAll (Declaration.bindingOf d.params args) base.args
  if base.builtin?.isSome then fail (.invalidBase d.id.text base.name)
  let b ← ofExcept (g.lookup base d.origin)
  if !b.isObject then fail (.invalidBase d.id.text b.id.text)
  let i ← ofExcept (b.instantiate g args d.origin)
  members b i.args object

def ownMembers (g : Graph) (d : Declaration) (bases : List (TypeRef TypeExpr))
    (shape : Shape TypeExpr) (args : List TypeExpr) (object : ObjectSchema Schema) :
    Resolve (ObjectSchema Schema) := do
  let stack ← inheritance
  if stack.contains d.id then
    fail (.inheritanceCycle ((stack ++ [d.id]).map DeclId.text))
  setInheritance (stack ++ [d.id])
  let object ← bases.foldlM (baseMembers members g d args) object
  let bind := Declaration.bindingOf d.params args
  let properties ← properties type d.origin object.properties
    (TypeExpr.substituteProperties bind shape.properties)
  let additional ← if shape.index.isEmpty then pure object.additional
    else additional type (TypeExpr.substituteIndex bind shape.index) d.origin
  setInheritance (← inheritance).dropLast
  return ⟨properties, additional⟩

end

mutual

def typeWithin (g : Graph) : Nat → TypeExpr → Origin → Resolve Schema
  | 0, _, _ => throw .exhausted
  | n + 1, t, o =>
    let type := typeWithin g n
    match t with
    | .keyword k =>
      match k.primitive? with
      | some kind => return .primitive kind
      | none => fail (.unsupportedConstruct o.declaration .symbol o.location)
    | .literal l => return l.schema
    | .array t => do return .array (← type t o)
    | .union members => unionOf type members o
    | .intersection members => intersectionOf type members o
    | .object shape => do
      let ps ← properties type o [] shape.properties
      let a ← additional type shape.index o
      return .object ⟨ps, a⟩
    | .ref r => refOf type (membersWithin g n) g r o
    | .param name => fail (.unboundParameter name o.declaration)
    | .unsupported c => fail (.unsupportedConstruct o.declaration (.kind c) o.location)

def membersWithin (g : Graph) : Nat → Declaration → List TypeExpr → ObjectSchema Schema →
    Resolve (ObjectSchema Schema)
  | 0, _, _, _ => throw .exhausted
  | n + 1, d, args, object =>
    match d.kind with
    | .object bases shape _ => ownMembers (typeWithin g n) (membersWithin g n) g d bases shape args object
    | _ => do
      let extending := ((← inheritance).getLast?.map DeclId.text).getD ""
      fail (.invalidBase extending d.id.text)

end

end Resolve

namespace Resolve

instance {α : Type} : Nonempty (Except Stop α × Registry × List DeclId) :=
  ⟨.error .exhausted, .empty, []⟩

structure Search (α : Type) where
  run : Nat → Resolve α
  start : Registry × List DeclId
  steps : Nat

/-- The outcome within the first number of nested steps that is enough, of those that double. -/
def Search.result {α : Type} (s : Search α) : Except Stop α × Registry × List DeclId :=
  match (s.run s.steps).run.run s.start with
  | (.error .exhausted, _) => { s with steps := 2 * s.steps } |>.result
  | outcome => outcome
partial_fixpoint

/-- A run with as many nested steps as it needs. -/
def unlimited {α : Type} (run : Nat → Resolve α) : Resolve α := fun st =>
  -- The first number is tried outside of the search, so that closed runs can be evaluated.
  match (run 4000).run.run st with
  | (.error .exhausted, _) => Search.result ⟨run, st, 8000⟩
  | outcome => outcome

end Resolve

namespace Graph

def resolveType (g : Graph) (t : TypeExpr) (o : Origin) : Resolve Schema :=
  Resolve.unlimited fun n => Resolve.typeWithin g n t o

def resolveProperty (g : Graph) (p : Property TypeExpr) (o : Origin) :
    Resolve (PropertySchema Schema) :=
  Resolve.property g.resolveType p o

def resolveInstance (g : Graph) (i : Instance) : Resolve Schema :=
  Resolve.unlimited fun n => Resolve.instanceOf (Resolve.membersWithin g n) g i

end Graph

end RouteContract

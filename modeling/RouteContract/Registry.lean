import RouteContract.Schema.Basic
import RouteContract.Fault

/-! # Registry of definitions

A name is claimed once, by one instance of a declaration, and is pending until its schema is given.
A given schema never changes. Names stay in the order of their claims. -/

set_option autoImplicit false

namespace RouteContract

inductive Slot where
  | pending
  | defined (schema : Schema) (description : Option String)

structure RegistryEntry where
  owner : Instance
  slot : Slot

structure Registry where
  entries : Entries String RegistryEntry

structure Definition where
  schema : Schema
  description : Option String
  origin : String

abbrev Definitions := Entries String Definition

inductive Reservation where
  /-- The name was free; the registry now holds it as pending. -/
  | fresh (registry : Registry)
  /-- The same instance holds the name already. -/
  | existing

namespace Registry

def empty : Registry := ⟨[]⟩

def size (r : Registry) : Nat := r.entries.length

def contains (r : Registry) (name : String) : Bool := r.entries.contains name

def reserve (r : Registry) (name : String) (owner : Instance) : Except Fault Reservation :=
  match r.entries.find? name with
  | none => .ok (.fresh ⟨r.entries ++ [(name, ⟨owner, .pending⟩)]⟩)
  | some entry =>
    if entry.owner.same owner then .ok .existing
    else .error (.nameCollision name entry.owner.text owner.text)

def define (r : Registry) (name : String) (schema : Schema) (description : Option String) :
    Registry :=
  match r.entries.find? name with
  | some ⟨owner, .pending⟩ => ⟨r.entries.insert name ⟨owner, .defined schema description⟩⟩
  | _ => r

def defined? (r : Registry) (name : String) : Option Schema :=
  match r.entries.find? name with
  | some ⟨_, .defined schema _⟩ => some schema
  | _ => none

/-- A computation over a registry and a further state, whose effects outlive a failure. -/
abbrev Building (σ ε α : Type) := ExceptT ε (StateM (Registry × σ)) α

/-- A reference to `name`, building its schema first when the name is free. Within `build` the name
is pending. -/
def getOrCreate {σ ε : Type} (fault : Fault → ε) (name : String) (owner : Instance)
    (build : Building σ ε (Schema × Option String)) : Building σ ε Schema := do
  let (registry, rest) ← get
  match registry.reserve name owner with
  | .error f => throw (fault f)
  | .ok .existing => return .reference name
  | .ok (.fresh registry) =>
    set (registry, rest)
    let (schema, description) ← build
    modify fun (registry, rest) => (registry.define name schema description, rest)
    return .reference name

def missing? (r : Registry) (names : List String) : Option String :=
  names.find? (!r.contains ·)

def check (r : Registry) (s : Schema) : Except Fault Unit :=
  match r.missing? s.references with
  | some name => .error (.dangling name)
  | none => .ok ()

def freezeEntries (r : Registry) : Entries String RegistryEntry → Except Fault Definitions
  | [] => .ok []
  | (name, ⟨_, .pending⟩) :: _ => .error (.dangling name)
  | (name, ⟨owner, .defined schema description⟩) :: rest => do
    r.check schema
    let definitions ← freezeEntries r rest
    return (name, ⟨schema, description, owner.text⟩) :: definitions

def freeze (r : Registry) : Except Fault Definitions := r.freezeEntries r.entries

end Registry

end RouteContract

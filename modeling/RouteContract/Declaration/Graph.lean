import RouteContract.Declaration
import RouteContract.Fault

/-! # Declaration graphs

The declarations and controllers of a run, each in order of discovery. A module declares a name at
most once. -/

set_option autoImplicit false

namespace RouteContract

structure Graph where
  declarations : List Declaration
  controllers : List Controller

namespace Graph

def empty : Graph := ⟨[], []⟩

def declaration? (g : Graph) (id : DeclId) : Option Declaration :=
  g.declarations.find? (·.id = id)

def named (g : Graph) (name : String) : List Declaration :=
  g.declarations.filter (·.id.name = name)

def addDeclaration (g : Graph) (d : Declaration) : Except Fault Graph :=
  match g.declaration? d.id with
  | some first => .error (.nameCollision d.id.text first.location.text d.location.text)
  | none => .ok { g with declarations := g.declarations ++ [d] }

def addController (g : Graph) (c : Controller) : Graph :=
  { g with controllers := g.controllers ++ [c] }

def isEmpty (g : Graph) : Bool := g.declarations.isEmpty && g.controllers.isEmpty

end Graph

end RouteContract

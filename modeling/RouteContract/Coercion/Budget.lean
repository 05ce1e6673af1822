import RouteContract.Coercion

/-! # The budget of coercion

A coercion that ends never meets one schema node with one value twice on the way down. The nested
steps are therefore at most the schema nodes times the value nodes, counting the definitions, the
defaults in them, and one merged object for each intersection. -/

set_option autoImplicit false

namespace RouteContract

namespace Json

mutual

def size : Json → Nat
  | array items => sizeItems items + 1
  | object fields => sizeFields fields + 1
  | _ => 1

def sizeItems : List Json → Nat
  | [] => 0
  | v :: vs => size v + sizeItems vs

def sizeFields : List (String × Json) → Nat
  | [] => 0
  | (_, v) :: fs => size v + sizeFields fs

end

end Json

namespace Schema

def sizeOfDefault : Option Json → Nat
  | none => 0
  | some v => v.size

mutual

def size : Schema → Nat
  | primitive _ => 1
  | array s => size s + 1
  | enum _ => 1
  | object ⟨ps, a⟩ => sizeProperties ps + sizeAdditional a + 1
  | union ss => sizeAll ss + 1
  | intersection ss => sizeAll ss + 2
  | reference _ => 1

def sizeAll : List Schema → Nat
  | [] => 0
  | s :: ss => size s + sizeAll ss

def sizeProperties : List (String × PropertySchema Schema) → Nat
  | [] => 0
  | (_, ⟨s, _, _, _⟩) :: ps => size s + sizeProperties ps

def sizeAdditional : Additional Schema → Nat
  | .implicit => 0
  | .any => 0
  | .schema s => size s

end

mutual

def defaults : Schema → Nat
  | primitive _ => 0
  | array s => defaults s
  | enum _ => 0
  | object ⟨ps, a⟩ => defaultsProperties ps + defaultsAdditional a
  | union ss => defaultsAll ss
  | intersection ss => defaultsAll ss
  | reference _ => 0

def defaultsAll : List Schema → Nat
  | [] => 0
  | s :: ss => defaults s + defaultsAll ss

def defaultsProperties : List (String × PropertySchema Schema) → Nat
  | [] => 0
  | (_, ⟨s, _, d, _⟩) :: ps => defaults s + sizeOfDefault d + defaultsProperties ps

def defaultsAdditional : Additional Schema → Nat
  | .implicit => 0
  | .any => 0
  | .schema s => defaults s

end

end Schema

namespace Coercion

def schemaNodes (ds : Definitions) (s : Schema) : Nat :=
  s.size + Schema.sizeAll (ds.values.map (·.schema))

def valueNodes (ds : Definitions) (s : Schema) (v : Json) : Nat :=
  v.size + s.defaults + Schema.defaultsAll (ds.values.map (·.schema))

def budget (ds : Definitions) (s : Schema) (v : Json) : Nat :=
  schemaNodes ds s * valueNodes ds s v + 1

/-- Coerces a JSON value; `none` if that never ends. -/
def json (ds : Definitions) (extras : Extras) (s : Schema) (v : Json) (path : String) :
    Option (Coerced Typed) :=
  jsonWithin ds extras (budget ds s v) s v path

def fields (ds : Definitions) (extras : Extras) (o : ObjectSchema Schema)
    (given : List (String × Json)) (path : String) :
    Option (List (String × Typed) × List Report) := do
  let b := budget ds (.object o) (.object given)
  let ps ← parts (jsonWithin ds extras b) extras o given path
  return (present ps, (Coerced.sequence ps).reports)

end Coercion

end RouteContract

import Mathlib.Logic.Relation
import RouteContract.Proofs.Resolution.Looping

/-!
# Which instances are asked for

A type is resolved through its parts, and a declaration through its bases and its
own members. A named reference asks for an instance, whose body is resolved on
its own. All of this can be read off the declarations, whatever is registered.
-/

set_option autoImplicit false

namespace RouteContract

open Relation (ReflTransGen)

namespace Resolve

inductive Node where
  | type (t : TypeExpr) (o : Origin)
  | members (d : Declaration) (args : List TypeExpr)

namespace Node

/-- One step to what is resolved as a part. The body of an instance is no part of a reference to
it. -/
inductive Part (g : Graph) : Node → Node → Prop
  | element {t : TypeExpr} {o : Origin} : Part g (.type (.array t) o) (.type t o)
  | alternative {ts : List TypeExpr} {t : TypeExpr} {o : Origin}
      (h : t ∈ ts.filter (!·.isUndefined)) : Part g (.type (.union ts) o) (.type t o)
  | constraint {ts : List TypeExpr} {t : TypeExpr} {o : Origin} (h : t ∈ ts) :
      Part g (.type (.intersection ts) o) (.type t o)
  | property {shape : Shape TypeExpr} {p : Property TypeExpr} {o : Origin}
      (h : p ∈ shape.properties) :
      Part g (.type (.object shape) o) (.type p.type.stripUndefined.1 o)
  | index {shape : Shape TypeExpr} {v : TypeExpr} {o : Origin} (h : IndexValue shape.index v) :
      Part g (.type (.object shape) o) (.type v o)
  | argument {r : TypeRef TypeExpr} {b : Builtin} {t : TypeExpr} {o : Origin}
      (hr : r.builtin? = some b) (h : BuiltinArgument r b t) : Part g (.type (.ref r) o) (.type t o)
  | base {d b : Declaration} {bases : List (TypeRef TypeExpr)} {shape : Shape TypeExpr}
      {isClass : Bool} {args : List TypeExpr} {base : TypeRef TypeExpr} {i : Instance}
      (hd : d.kind = .object bases shape isClass) (hb : base ∈ bases)
      (h : Extends g d args base b i) : Part g (.members d args) (.members b i.args)
  | ownProperty {d : Declaration} {bases : List (TypeRef TypeExpr)} {shape : Shape TypeExpr}
      {isClass : Bool} {args : List TypeExpr} {p : Property TypeExpr}
      (hd : d.kind = .object bases shape isClass)
      (h : p ∈ TypeExpr.substituteProperties (Declaration.bindingOf d.params args)
        shape.properties) :
      Part g (.members d args) (.type p.type.stripUndefined.1 d.origin)
  | ownIndex {d : Declaration} {bases : List (TypeRef TypeExpr)} {shape : Shape TypeExpr}
      {isClass : Bool} {args : List TypeExpr} {v : TypeExpr}
      (hd : d.kind = .object bases shape isClass)
      (h : IndexValue (TypeExpr.substituteIndex (Declaration.bindingOf d.params args)
        shape.index) v) :
      Part g (.members d args) (.type v d.origin)

abbrev Reaches (g : Graph) : Node → Node → Prop := ReflTransGen (Part g)

inductive AsksFor (g : Graph) : Node → Instance → Prop
  | reference {r : TypeRef TypeExpr} {o : Origin} {d : Declaration} {i : Instance}
      (hr : r.builtin? = none) (hl : g.lookup r o = .ok d) (hi : d.instantiate g r.args o = .ok i) :
      AsksFor g (.type (.ref r) o) i

end Node

end Resolve

open Resolve (Node)

namespace Instance

def name (i : Instance) : String := TypeExpr.canonicalName i.id.name i.args

def Contains (g : Graph) (i : Instance) (node : Node) : Prop :=
  ∃ d, g.declaration? i.id = some d ∧ Node.Reaches g (.members d i.args) node

def Leads (g : Graph) (i j : Instance) : Prop := ∃ node, i.Contains g node ∧ node.AsksFor g j

inductive Asked (g : Graph) (roots : TypeExpr → Prop) : Instance → Prop
  | root {t : TypeExpr} {o : Origin} {node : Node} {i : Instance} (ht : roots t)
      (hn : Node.Reaches g (.type t o) node) (hi : node.AsksFor g i) : Asked g roots i
  | lead {i j : Instance} (h : Asked g roots i) (hl : i.Leads g j) : Asked g roots j

end Instance

namespace Resolve.Node

open Instance (Asked)

def Stands (g : Graph) (roots : TypeExpr → Prop) : Option Instance → Node → Prop
  | some i, node => Asked g roots i ∧ i.Contains g node
  | none, node => ∃ t o, roots t ∧ Reaches g (.type t o) node

section

variable {g : Graph} {roots : TypeExpr → Prop} {ctx : Option Instance} {node node' : Node}

theorem Stands.part (h : node.Stands g roots ctx) (hp : Part g node node') :
    node'.Stands g roots ctx := by
  cases ctx with
  | none =>
    obtain ⟨t, o, ht, hn⟩ := h
    exact ⟨t, o, ht, hn.tail hp⟩
  | some i =>
    obtain ⟨hi, d, hd, hn⟩ := h
    exact ⟨hi, d, hd, hn.tail hp⟩

theorem Stands.asked (h : node.Stands g roots ctx) {i : Instance} (hi : node.AsksFor g i) :
    Asked g roots i := by
  cases ctx with
  | none =>
    obtain ⟨t, o, ht, hn⟩ := h
    exact .root ht hn hi
  | some j => exact h.1.lead ⟨node, h.2, hi⟩

theorem stands_root {t : TypeExpr} (ht : roots t) (o : Origin) :
    Stands g roots none (.type t o) := ⟨t, o, ht, .refl⟩

/-- The members of an instance stand in its body. -/
theorem stands_body {i : Instance} (hi : Asked g roots i) {d : Declaration}
    (hd : g.declaration? i.id = some d) : Stands g roots (some i) (.members d i.args) :=
  ⟨hi, d, hd, .refl⟩

end

end Resolve.Node

theorem Graph.declaration?_id {g : Graph} {id : DeclId} {d : Declaration}
    (h : g.declaration? id = some d) : d.id = id := by
  simpa using List.find?_some h

end RouteContract

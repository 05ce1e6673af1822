import RouteContract.Coercion.Budget
import RouteContract.Proofs.Entries

/-!
# Descriptions do not matter

An object is coerced alike whether its properties are described or not. The
budget counts the nodes of schemas and defaults, so it is the same too.
-/

set_option autoImplicit false

namespace RouteContract

def PropertySchema.undescribed {σ : Type} (p : PropertySchema σ) : PropertySchema σ :=
  { p with description := none }

namespace ObjectSchema

def undescribed {σ : Type} (o : ObjectSchema σ) : ObjectSchema σ :=
  { o with properties := Entries.mapValues PropertySchema.undescribed o.properties }

end ObjectSchema

namespace Schema

theorem sizeProperties_undescribed (ps : List (String × PropertySchema Schema)) :
    sizeProperties (Entries.mapValues PropertySchema.undescribed ps) = sizeProperties ps := by
  induction ps with
  | nil => rfl
  | cons p ps ih => exact congrArg (p.2.schema.size + ·) ih

theorem defaultsProperties_undescribed (ps : List (String × PropertySchema Schema)) :
    defaultsProperties (Entries.mapValues PropertySchema.undescribed ps) =
      defaultsProperties ps := by
  induction ps with
  | nil => rfl
  | cons p ps ih => exact congrArg (p.2.schema.defaults + sizeOfDefault p.2.default + ·) ih

theorem size_undescribed (o : ObjectSchema Schema) :
    (object o.undescribed).size = (object o).size := by
  obtain ⟨ps, a⟩ := o
  simp only [ObjectSchema.undescribed, size, sizeProperties_undescribed]

theorem defaults_undescribed (o : ObjectSchema Schema) :
    (object o.undescribed).defaults = (object o).defaults := by
  obtain ⟨ps, a⟩ := o
  simp only [ObjectSchema.undescribed, defaults, defaultsProperties_undescribed]

end Schema

namespace Coercion

variable {ds : Definitions} {extras : Extras} {o : ObjectSchema Schema}
  {given : List (String × Json)} {path : String}

theorem budget_undescribed (v : Json) :
    budget ds (.object o.undescribed) v = budget ds (.object o) v := by
  simp only [budget, schemaNodes, valueNodes, Schema.size_undescribed, Schema.defaults_undescribed]

theorem parts_undescribed {json : Schema → Json → String → Option (Coerced Typed)} :
    parts json extras o.undescribed given path = parts json extras o given path := by
  have hcontains (key : String) :
      Entries.contains o.undescribed.properties key = Entries.contains o.properties key := by
    simp only [ObjectSchema.undescribed, Entries.contains, Entries.find?_mapValues,
      Option.isSome_map]
  unfold parts
  simp only [hcontains]
  simp only [ObjectSchema.undescribed, Entries.mapValues, List.mapM_map]
  rfl

/-- What an object makes of some fields does not depend on its descriptions. -/
theorem fields_undescribed :
    fields ds extras o.undescribed given path = fields ds extras o given path := by
  simp only [fields, budget_undescribed, parts_undescribed]

end Coercion

end RouteContract

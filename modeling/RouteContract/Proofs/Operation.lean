import RouteContract.Operation
import RouteContract.Proofs.Schema.References

/-!
# The object of the body fields

Each property of the object describes the values of a body field.
-/

set_option autoImplicit false

namespace RouteContract

def addProperty (table : Entries String (PropertySchema Schema)) (p : BoundParameter) :
    Entries String (PropertySchema Schema) :=
  match p.source, p.schema with
  | .field, some schema => table.insert p.wire ⟨schema, p.required, p.default, p.description⟩
  | _, _ => table

theorem bodyObject_properties (ps : List BoundParameter) :
    (bodyObject ps).properties = ps.foldl addProperty [] := rfl

theorem addProperty_ne {p : BoundParameter} (h : p.source ≠ .field)
    (table : Entries String (PropertySchema Schema)) : addProperty table p = table := by
  unfold addProperty
  split
  · rename_i hfield _
    exact absurd hfield h
  · rfl

/-- Parameters that are no body fields can be left out. -/
theorem bodyObject_filter {keep : BoundParameter → Bool} (h : ∀ p, p.source = .field → keep p)
    (ps : List BoundParameter) : bodyObject (ps.filter keep) = bodyObject ps := by
  have hproperties : (bodyObject (ps.filter keep)).properties = (bodyObject ps).properties := by
    rw [bodyObject_properties, bodyObject_properties, List.foldl_filter]
    congr 1
    funext table p
    split
    · rfl
    · rename_i hkeep
      exact (addProperty_ne (fun hfield => hkeep (h p hfield)) table).symm
  exact congrArg (fun table => (⟨table, .implicit⟩ : ObjectSchema Schema)) hproperties

def BoundParameter.property? (p : BoundParameter) : Option (PropertySchema Schema) :=
  p.schema.map fun schema => ⟨schema, p.required, p.default, p.description⟩

theorem mem_addProperty {table : Entries String (PropertySchema Schema)} {p : BoundParameter}
    {wire : String} {q : PropertySchema Schema} (h : (wire, q) ∈ addProperty table p) :
    (wire, q) ∈ table ∨ p.property? = some q := by
  unfold addProperty at h
  split at h
  · rename_i schema _ hs
    rcases Entries.mem_insert h with h | ⟨-, rfl⟩
    · exact .inl h
    · exact .inr (by rw [BoundParameter.property?, hs, Option.map_some])
  · exact .inl h

theorem mem_bodyObject {ps : List BoundParameter} {wire : String} {q : PropertySchema Schema}
    (h : (wire, q) ∈ (bodyObject ps).properties) : ∃ p ∈ ps, p.property? = some q := by
  rw [bodyObject_properties] at h
  have general : ∀ table : Entries String (PropertySchema Schema),
      (wire, q) ∈ ps.foldl addProperty table →
      (wire, q) ∈ table ∨ ∃ p ∈ ps, p.property? = some q := by
    clear h
    induction ps with
    | nil => exact fun table h => .inl h
    | cons p ps ih =>
      intro table h
      rcases ih _ h with h | ⟨p', hp', hs⟩
      · exact (mem_addProperty h).imp id fun hs => ⟨p, List.mem_cons_self, hs⟩
      · exact .inr ⟨p', List.mem_cons_of_mem p hp', hs⟩
  exact (general [] h).resolve_left (by simp)

theorem bodyObject_references (ps : List BoundParameter) :
    (Schema.object (bodyObject ps)).references ⊆
      Schema.allReferences (ps.filterMap (·.schema)) := by
  intro name hname
  rw [Schema.references_object, List.mem_append] at hname
  rcases hname with hname | hname
  · obtain ⟨wire, q, hq, hname⟩ := Schema.mem_propertyReferences.mp hname
    obtain ⟨p, hp, hproperty⟩ := mem_bodyObject hq
    obtain ⟨schema, hs, rfl⟩ := Option.map_eq_some_iff.mp hproperty
    exact Schema.mem_allReferences.mpr ⟨schema, List.mem_filterMap.mpr ⟨p, hp, hs⟩, hname⟩
  · cases hname

end RouteContract

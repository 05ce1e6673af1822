import RouteContract.Proofs.Extraction.Schemas
import RouteContract.Proofs.Schema.Merging
import RouteContract.Proofs.Schema.Objects
import RouteContract.Proofs.Validation.Causes

/-!
# Required and defaulted

What has a default is not required, in every place but one: of the objects of an
intersection one may require a property that the last of them gives a default.
Validation looks at the default first, so that such a property may be left out
all the same.
-/

set_option autoImplicit false

namespace RouteContract

open Resolve (Builds Intersects Node.Occurs)

structure ObjectSchema.Clashes (os : List (ObjectSchema Schema)) (name : String) : Prop where
  demanded : demands os name
  defaulted : ∃ q, latest? os name = some q ∧ q.default.isSome

namespace ObjectSchema

theorem clashes_iff {os : List (ObjectSchema Schema)} {name : String} {p : PropertySchema Schema}
    (h : (name, p) ∈ (os.foldl merge .empty).properties) :
    Clashes os name ↔ p.required ∧ p.default.isSome := by
  obtain ⟨q, hq, rfl⟩ := mem_merged.mp h
  constructor
  · rintro ⟨hdemanded, q', hq', hdefault⟩
    obtain rfl := Option.some.inj (hq.symm.trans hq')
    exact ⟨hdemanded, hdefault⟩
  · exact fun ⟨hdemanded, hdefault⟩ => ⟨hdemanded, q, hq, hdefault⟩

end ObjectSchema

namespace Resolve

variable {g : Graph} {N : Node → Prop} {R : Registry} {P : ObjectSchema Schema → Prop}

/-- What holds of objects without a required default, and of what intersections are merged to, holds
of every object that stands in a schema. -/
theorem builds_of_objects
    (hplain : ∀ o,
      (∀ name p, (name, p) ∈ o.properties → p.default.isSome → p.required = false) → P o)
    (hmerged : ∀ os, Intersects g N R os → P (os.foldl ObjectSchema.merge .empty)) :
    Builds g N R fun s => ∀ o, s.Has o → P o := by
  have leaf : ∀ {s : Schema} {o : ObjectSchema Schema}, s.children = [] → s ≠ .object o →
      s.Has o → P o := by
    intro s o hs hne h
    obtain h | ⟨t, ht, -⟩ := Schema.has_iff.mp h
    · exact absurd h hne
    · rw [hs] at ht
      cases ht
  have inner : ∀ {s : Schema} {o : ObjectSchema Schema}, s ≠ .object o →
      (∀ t ∈ s.children, t.Has o → P o) → s.Has o → P o := by
    intro s o hne hchildren h
    obtain h | ⟨t, ht, h⟩ := Schema.has_iff.mp h
    · exact absurd h hne
    · exact hchildren t ht h
  constructor
  case primitive => exact fun kind o => leaf rfl nofun
  case literal =>
    intro l o
    cases l with
    | _ => exact leaf rfl nofun
  case aliased => exact fun _ o => leaf rfl nofun
  case enumerated => exact fun _ _ _ o => leaf rfl nofun
  case plain => exact id
  case reference => exact fun name o => leaf rfl nofun
  case array =>
    exact fun hs o => inner nofun fun t ht => List.mem_singleton.mp ht ▸ hs o
  case format => exact fun _ hs o h => hs o (Schema.has_of_applyFormat h)
  case union =>
    intro ss _ hss o h
    obtain ⟨s, hs, h⟩ := Schema.has_of_unionOf h
    exact hss s hs o h
  case intersection => exact fun hss o => inner nofun fun t ht => hss t ht o
  case object =>
    intro o ho o' h
    obtain h | ⟨t, ht, h⟩ := Schema.has_iff.mp h
    · cases h
      exact hplain o fun name p hp => (ho.property hp).2
    · rcases Schema.mem_children_object.mp ht with ⟨name, p, hp, rfl⟩ | ha
      · exact (ho.property hp).1 o' h
      · exact ho.additional ha o' h
  case merged =>
    intro os hos hobjects o h
    rcases Schema.has_of_merged h with rfl | ⟨o', ho', h⟩
    · exact hmerged os hos
    · exact hobjects o' ho' o h

end Resolve

open Validation Coercion in
/-- A field that is not given is reported as missing exactly where it is required and has no
default. With a default only that raises anything. -/
theorem Validation.Checked.not_given {ds : Definitions} {settings : ValidationSettings}
    {r : Request} {parameters : List BoundParameter} {outcome : Outcome} {f : Field}
    (h : run parameters r ds settings = some outcome) (hf : Checked ds settings r parameters f)
    (hgiven : f.given = none) :
    (f.required → f.default = none → f.Raises ds settings.extras (f.key, ⟨.missing f.name, none⟩) ∧
      f.key ∈ outcome.errors.keys) ∧
    ∀ rep, f.Raises ds settings.extras rep →
      rep = (f.key, ⟨.missing f.name, none⟩) ∧ f.required ∧ f.default = none ∨
        ∃ v, f.default = some v ∧ Arises ds settings.extras ⟨f.schema, .json v, f.key⟩ rep := by
  have hinput : f.input? = f.default.map .json := by rw [Field.input?, hgiven, Option.none_or]
  constructor
  · intro hrequired hdefault
    have hraises : f.Raises ds settings.extras (f.key, ⟨.missing f.name, none⟩) :=
      .missing (by rw [hinput, hdefault, Option.map_none]) hrequired
    exact ⟨hraises, (hf.errors h hraises).1⟩
  · intro rep hrep
    cases hrep with
    | missing hi hr =>
      rw [hinput, Option.map_eq_none_iff] at hi
      exact .inl ⟨rfl, hr, hi⟩
    | value hi harises =>
      rw [hinput] at hi
      obtain ⟨v, hv, rfl⟩ := Option.map_eq_some_iff.mp hi
      exact .inr ⟨v, hv, harises⟩

open Validation Coercion in
/-- No parameter is both required and defaulted. A property of an object, at any depth of a
contract, is both exactly where the object is what an intersection was merged to and the members
clash. Validation reports what is not given as missing where it is required and has no default, and
has nothing but the default to object to otherwise. -/
theorem Graph.contract_defaults {g : Graph} {combination : Combination} {c : Contract}
    (h : g.contract combination = .ok c) :
    (∀ o ∈ c.operations, ∀ p ∈ o.parameters, p.default.isSome → p.required = false) ∧
    (∃ R : Registry, R.freeze = .ok c.definitions ∧ ∀ s, c.Mentions s →
      ∀ o, Schema.Reaches c.definitions s (.object o) → ∀ name p, (name, p) ∈ o.properties →
        (p.required ∧ p.default.isSome ↔ ∃ os, Intersects g (Node.Occurs g g.Writes) R os ∧
          o = os.foldl ObjectSchema.merge .empty ∧ ObjectSchema.Clashes os name)) ∧
    ∀ o r settings outcome, c.validate o r settings = some outcome →
      ∀ f, Checked c.definitions settings r o.parameters f → f.given = none →
        (f.required → f.default = none →
          f.Raises c.definitions settings.extras (f.key, ⟨.missing f.name, none⟩) ∧
            f.key ∈ outcome.errors.keys) ∧
        ∀ rep, f.Raises c.definitions settings.extras rep →
          rep = (f.key, ⟨.missing f.name, none⟩) ∧ f.required ∧ f.default = none ∨
            ∃ v, f.default = some v ∧
              Arises c.definitions settings.extras ⟨f.schema, .json v, f.key⟩ rep := by
  obtain ⟨R, hfreeze, hbuilt⟩ := Graph.contract_built h
  -- The merged objects are told apart by the property that is both.
  have hS : Builds g (Node.Occurs g g.Writes) R fun s => ∀ o, s.Has o →
      ∀ name p, (name, p) ∈ o.properties → p.required → p.default.isSome →
        ∃ os, Intersects g (Node.Occurs g g.Writes) R os ∧
          o = os.foldl ObjectSchema.merge .empty ∧ ObjectSchema.Clashes os name := by
    apply Resolve.builds_of_objects
    · intro o ho name p hp hrequired hdefault
      rw [ho name p hp hdefault] at hrequired
      cases hrequired
    · intro os hos name p hp hrequired hdefault
      exact ⟨os, hos, rfl, (ObjectSchema.clashes_iff hp).mpr ⟨hrequired, hdefault⟩⟩
  obtain ⟨hshown, hparameters⟩ := hbuilt _ hS
  refine ⟨fun o ho p hp => (hparameters o ho p hp).default, ⟨R, hfreeze, ?_⟩,
    fun o r settings outcome hrun f hf hgiven => hf.not_given hrun hgiven⟩
  intro s hs o ho name p hp
  have hobject := c.reached hshown (fun s hs t ht o h => hs o (h.of_child ht)) hs ho
  constructor
  · exact fun ⟨hrequired, hdefault⟩ => hobject o (Schema.has_self o) name p hp hrequired hdefault
  · rintro ⟨os, -, rfl, hclash⟩
    exact (ObjectSchema.clashes_iff hp).mp hclash

namespace Sample

def overlapping : Graph where
  declarations := [interface "A" [] [property "p" (.keyword .string)],
    interface "B" [] [defaulted "p" (.keyword .string) (.string "x")]]
  controllers := [posting [parameter "b" (.intersection [.named "A", .named "B"]) .body]]

def bothOf? : Schema → Option (ObjectSchema Schema × String × PropertySchema Schema)
  | .object o =>
    (o.properties.find? fun x => x.2.required && x.2.default.isSome).map fun x => (o, x)
  | _ => none

theorem overlapping_both : ∃ c o p ob name q, overlapping.contract .anyOf = .ok c ∧
    o ∈ c.operations ∧ p ∈ o.parameters ∧ p.schema = some (.object ob) ∧
    (name, q) ∈ ob.properties ∧ q.required ∧ q.default.isSome := by
  have hboth : ∃ c o, overlapping.contract .anyOf = .ok c ∧ o ∈ c.operations ∧
      o.parameters.any fun p => (p.schema.bind bothOf?).isSome :=
    exists_operation (by decide +kernel)
  obtain ⟨c, o, hc, ho, hany⟩ := hboth
  obtain ⟨p, hp, hsome⟩ := List.any_eq_true.mp hany
  obtain ⟨⟨ob, name, q⟩, hx⟩ := Option.isSome_iff_exists.mp hsome
  obtain ⟨s, hs, hx⟩ := Option.bind_eq_some_iff.mp hx
  unfold bothOf? at hx
  split at hx
  · obtain ⟨x, hfind, he⟩ := Option.map_eq_some_iff.mp hx
    cases he
    have hcheck := List.find?_some hfind
    obtain ⟨hrequired, hdefault⟩ := Bool.and_eq_true_iff.mp hcheck
    exact ⟨c, o, p, ob, name, q, hc, ho, hp, hs, List.mem_of_find?_eq_some hfind, hrequired,
      hdefault⟩
  · cases hx

/-- Not every property of the contract with a default is optional. -/
theorem overlapping_clashes : ∃ c, overlapping.contract .anyOf = .ok c ∧
    ¬ ∀ s, c.Mentions s → ∀ o, Schema.Reaches c.definitions s (.object o) →
      ∀ name p, (name, p) ∈ o.properties → p.default.isSome → p.required = false := by
  obtain ⟨c, o, p, ob, name, q, hc, ho, hp, hs, hq, hrequired, hdefault⟩ := overlapping_both
  refine ⟨c, hc, fun hall => ?_⟩
  have hoptional := hall _ (.parameter ho hp hs) ob .refl name q hq hdefault
  rw [hoptional] at hrequired
  cases hrequired

/-- The property that is both is found among the members of an intersection. -/
theorem overlapping_merged : ∃ c, overlapping.contract .anyOf = .ok c ∧
    ∃ R : Registry, R.freeze = .ok c.definitions ∧
      ∃ os name, Intersects overlapping (Node.Occurs overlapping overlapping.Writes) R os ∧
        ObjectSchema.Clashes os name := by
  obtain ⟨c, o, p, ob, name, q, hc, ho, hp, hs, hq, hrequired, hdefault⟩ := overlapping_both
  obtain ⟨-, ⟨R, hfreeze, hobjects⟩, -⟩ := Graph.contract_defaults hc
  have hmention : c.Mentions (.object ob) := .parameter ho hp hs
  obtain ⟨os, hos, -, hclash⟩ := (hobjects _ hmention ob .refl name q hq).mp ⟨hrequired, hdefault⟩
  exact ⟨c, hc, R, hfreeze, os, name, hos, hclash⟩

end Sample

end RouteContract

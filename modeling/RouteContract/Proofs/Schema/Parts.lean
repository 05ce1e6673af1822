import Mathlib.Logic.Relation
import RouteContract.Proofs.Entries
import RouteContract.Registry

/-!
# Parts of schemas

A schema is made of others, and a reference stands for its definition. Merging
objects makes no new parts: every property of a merged object describes its
values as a property of one of the objects does.
-/

set_option autoImplicit false

namespace RouteContract

namespace Schema

inductive Part (ds : Definitions) : Schema → Schema → Prop
  | element (s : Schema) : Part ds (.array s) s
  | property {o : ObjectSchema Schema} {name : String} {p : PropertySchema Schema}
      (h : (name, p) ∈ o.properties) : Part ds (.object o) p.schema
  | additional {o : ObjectSchema Schema} {s : Schema} (h : o.additional = .schema s) :
      Part ds (.object o) s
  | alternative {ss : List Schema} {s : Schema} (h : s ∈ ss) : Part ds (.union ss) s
  | constraint {ss : List Schema} {s : Schema} (h : s ∈ ss) : Part ds (.intersection ss) s
  | definition {name : String} {d : Definition} (h : ds.find? name = some d) :
      Part ds (.reference name) d.schema

def isGround : Schema → Bool
  | .object _ | .enum _ => true
  | _ => false

def isStructured : Schema → Bool
  | .array _ | .object _ | .intersection _ => true
  | _ => false

abbrev Reaches (ds : Definitions) : Schema → Schema → Prop := Relation.ReflTransGen (Part ds)

end Schema

def Definitions.Grounded (ds : Definitions) : Prop :=
  ∀ name d, (name, d) ∈ ds → d.schema.isGround

namespace ObjectSchema

def Alike (p q : PropertySchema Schema) : Prop := p.schema = q.schema ∧ p.default = q.default

theorem merge_property {a b : ObjectSchema Schema} {name : String} {p : PropertySchema Schema}
    (h : (name, p) ∈ (a.merge b).properties) :
    ∃ q, ((name, q) ∈ a.properties ∨ (name, q) ∈ b.properties) ∧ Alike p q := by
  -- The fold over the properties of `b` starts at those of `a`, which vary in the induction.
  have general : ∀ (qs table : List (String × PropertySchema Schema)),
      (name, p) ∈ qs.foldl (fun ps (x : String × PropertySchema Schema) =>
        Entries.insert ps x.1
          { x.2 with required := x.2.required || (Entries.find? ps x.1).any (·.required) }) table →
      ∃ q, ((name, q) ∈ table ∨ (name, q) ∈ qs) ∧ Alike p q := by
    intro qs
    induction qs with
    | nil => exact fun table h => ⟨p, .inl h, rfl, rfl⟩
    | cons x qs ih =>
      intro table h
      obtain ⟨q, hq | hq, hpq⟩ := ih _ h
      · rcases Entries.mem_insert hq with hq | ⟨rfl, rfl⟩
        · exact ⟨q, .inl hq, hpq⟩
        · exact ⟨x.2, .inr (by simp), hpq⟩
      · exact ⟨q, .inr (by simp [hq]), hpq⟩
  exact general b.properties a.properties h

theorem merge_additional {a b : ObjectSchema Schema} {s : Schema}
    (h : (a.merge b).additional = .schema s) :
    a.additional = .schema s ∨ b.additional = .schema s := by
  simp only [merge] at h
  split at h
  · exact .inl h
  · exact .inr h

theorem foldl_merge_property {os : List (ObjectSchema Schema)} {a : ObjectSchema Schema}
    {name : String} {p : PropertySchema Schema}
    (h : (name, p) ∈ (os.foldl merge a).properties) :
    ∃ q, ((name, q) ∈ a.properties ∨ ∃ o ∈ os, (name, q) ∈ o.properties) ∧ Alike p q := by
  induction os generalizing a with
  | nil => exact ⟨p, .inl h, rfl, rfl⟩
  | cons o os ih =>
    obtain ⟨q, hq | ⟨o', ho', hq⟩, hpq⟩ := ih h
    · obtain ⟨r, hr | hr, hqr⟩ := merge_property hq
      · exact ⟨r, .inl hr, hpq.1.trans hqr.1, hpq.2.trans hqr.2⟩
      · exact ⟨r, .inr ⟨o, by simp, hr⟩, hpq.1.trans hqr.1, hpq.2.trans hqr.2⟩
    · exact ⟨q, .inr ⟨o', by simp [ho'], hq⟩, hpq⟩

theorem merged_property {os : List (ObjectSchema Schema)} {name : String}
    {p : PropertySchema Schema} (h : (name, p) ∈ (os.foldl merge .empty).properties) :
    ∃ o ∈ os, ∃ q, (name, q) ∈ o.properties ∧ Alike p q := by
  obtain ⟨q, hq | ⟨o, ho, hq⟩, hpq⟩ := foldl_merge_property h
  · simp [ObjectSchema.empty] at hq
  · exact ⟨o, ho, q, hq, hpq⟩

theorem merged_additional {os : List (ObjectSchema Schema)} {a : ObjectSchema Schema} {s : Schema}
    (h : (os.foldl merge a).additional = .schema s) :
    a.additional = .schema s ∨ ∃ o ∈ os, o.additional = .schema s := by
  induction os generalizing a with
  | nil => exact .inl h
  | cons o os ih =>
    rcases ih h with h | ⟨o', ho', h⟩
    · exact (merge_additional h).imp id fun h => ⟨o, by simp, h⟩
    · exact .inr ⟨o', by simp [ho'], h⟩

end ObjectSchema

end RouteContract

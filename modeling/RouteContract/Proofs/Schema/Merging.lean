import RouteContract.Proofs.Schema.Parts

/-!
# Merged objects

Objects that are merged write their properties into one table. Of all versions
of a property the last one stays, but it is required when any of them is. What
is undeclared is left open only where all objects leave it open.
-/

set_option autoImplicit false

namespace RouteContract.ObjectSchema

section

variable (os : List (ObjectSchema Schema)) (name : String)

def versions : Entries String (PropertySchema Schema) := os.flatMap (·.properties)

def latest? : Option (PropertySchema Schema) := Entries.find? (versions os).reverse name

def demands : Bool := (versions os).any fun x => x.1 = name && x.2.required

end

def overlay (table : Entries String (PropertySchema Schema))
    (x : String × PropertySchema Schema) : Entries String (PropertySchema Schema) :=
  table.insert x.1 { x.2 with required := x.2.required || (table.find? x.1).any (·.required) }

theorem merge_properties (a b : ObjectSchema Schema) :
    (a.merge b).properties = b.properties.foldl overlay a.properties := rfl

theorem foldl_merge_properties (os : List (ObjectSchema Schema)) (a : ObjectSchema Schema) :
    (os.foldl merge a).properties = (versions os).foldl overlay a.properties := by
  induction os generalizing a with
  | nil => rfl
  | cons o os ih => rw [List.foldl_cons, ih, merge_properties, versions, versions,
      List.flatMap_cons, List.foldl_append]

theorem any_eq_false_of_absent {xs : Entries String (PropertySchema Schema)} {name : String}
    (h : Entries.find? xs.reverse name = none) :
    (xs.any fun x => x.1 = name && x.2.required) = false := by
  rw [List.any_eq_false]
  intro x hx
  have hne : x.1 ≠ name := by
    rintro rfl
    exact Entries.find?_eq_none_iff.mp h (Entries.mem_keys.mpr ⟨x.2, List.mem_reverse.mpr hx⟩)
  simp [hne]

theorem find?_foldl_overlay (xs table : Entries String (PropertySchema Schema)) (name : String) :
    Entries.find? (xs.foldl overlay table) name =
      ((Entries.find? xs.reverse name).map fun p =>
        { p with
          required := (table.find? name).any (·.required) ||
            xs.any fun x => x.1 = name && x.2.required }).or (table.find? name) := by
  induction xs generalizing table with
  | nil => rfl
  | cons x xs ih =>
    rw [List.foldl_cons, ih, List.reverse_cons, Entries.find?_append, overlay,
      Entries.find?_insert]
    by_cases hx : x.1 = name
    · subst hx
      cases hfind : Entries.find? xs.reverse x.1 with
      | none => simp [Entries.find?, any_eq_false_of_absent hfind, Bool.or_comm]
      | some p => simp [Bool.or_assoc, Bool.or_left_comm]
    · cases Entries.find? xs.reverse name with
      | none => simp [Entries.find?, hx]
      | some p => simp [hx]

/-- The merged object shows the last version of each property. -/
theorem find?_merged (os : List (ObjectSchema Schema)) (name : String) :
    Entries.find? (os.foldl merge .empty).properties name =
      (latest? os name).map fun p => { p with required := demands os name } := by
  rw [foldl_merge_properties, find?_foldl_overlay]
  simp [ObjectSchema.empty, latest?, demands]

theorem nodup_merged (os : List (ObjectSchema Schema)) :
    (Entries.keys (os.foldl merge .empty).properties).Nodup := by
  rw [foldl_merge_properties]
  have general : ∀ (xs table : Entries String (PropertySchema Schema)), table.keys.Nodup →
      (Entries.keys (xs.foldl overlay table)).Nodup := by
    intro xs
    induction xs with
    | nil => exact fun _ h => h
    | cons x xs ih => exact fun table h => ih _ (Entries.nodup_insert h _ _)
  exact general _ _ List.nodup_nil

theorem mem_merged {os : List (ObjectSchema Schema)} {name : String} {p : PropertySchema Schema} :
    (name, p) ∈ (os.foldl merge .empty).properties ↔
      ∃ q, latest? os name = some q ∧ p = { q with required := demands os name } := by
  constructor
  · intro h
    have hfind := Entries.find?_of_mem (nodup_merged os) h
    rw [find?_merged] at hfind
    obtain ⟨q, hq, hp⟩ := Option.map_eq_some_iff.mp hfind
    exact ⟨q, hq, hp.symm⟩
  · rintro ⟨q, hq, rfl⟩
    apply Entries.mem_of_find?
    rw [find?_merged, hq]
    rfl

theorem latest?_isSome_iff {os : List (ObjectSchema Schema)} {name : String} :
    (latest? os name).isSome ↔ ∃ o ∈ os, name ∈ Entries.keys o.properties := by
  rw [latest?, Entries.find?_isSome_iff, Entries.mem_keys]
  simp only [List.mem_reverse, versions, List.mem_flatMap, Entries.mem_keys]
  constructor
  · rintro ⟨p, o, ho, hp⟩
    exact ⟨o, ho, p, hp⟩
  · rintro ⟨o, ho, p, hp⟩
    exact ⟨p, o, ho, hp⟩

theorem merge_implicit_iff {a b : ObjectSchema Schema} :
    (a.merge b).additional = .implicit ↔ a.additional = .implicit ∧ b.additional = .implicit := by
  simp only [merge]
  cases hb : b.additional <;> simp

theorem merged_implicit_iff {os : List (ObjectSchema Schema)} :
    (os.foldl merge .empty).additional = .implicit ↔ ∀ o ∈ os, o.additional = .implicit := by
  have general : ∀ a : ObjectSchema Schema, (os.foldl merge a).additional = .implicit ↔
      a.additional = .implicit ∧ ∀ o ∈ os, o.additional = .implicit := by
    induction os with
    | nil => simp
    | cons o os ih =>
      intro a
      rw [List.foldl_cons, ih, merge_implicit_iff, List.forall_mem_cons, and_assoc]
  rw [general]
  exact and_iff_right rfl

end RouteContract.ObjectSchema

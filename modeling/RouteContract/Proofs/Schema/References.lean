import Mathlib.Data.List.Induction
import RouteContract.Proofs.Schema.Parts
import RouteContract.Registry
import RouteContract.Schema.Union

/-!
# References in schemas

Unions, formats, tables of properties and merged objects are put together from
schemas. They mention no name that those do not mention.
-/

set_option autoImplicit false

namespace RouteContract

namespace Schema

theorem allReferences_eq (ss : List Schema) : allReferences ss = ss.flatMap references := by
  induction ss with
  | nil => rfl
  | cons s ss ih => simp [allReferences, ih]

theorem propertyReferences_eq (ps : List (String × PropertySchema Schema)) :
    propertyReferences ps = ps.flatMap fun p => references p.2.schema := by
  induction ps with
  | nil => rfl
  | cons p ps ih => simp [propertyReferences, ih]

theorem mem_allReferences {ss : List Schema} {name : String} :
    name ∈ allReferences ss ↔ ∃ s ∈ ss, name ∈ s.references := by
  rw [allReferences_eq, List.mem_flatMap]

theorem mem_propertyReferences {ps : List (String × PropertySchema Schema)} {name : String} :
    name ∈ propertyReferences ps ↔ ∃ key p, (key, p) ∈ ps ∧ name ∈ p.schema.references := by
  rw [propertyReferences_eq, List.mem_flatMap]
  constructor
  · exact fun ⟨p, hp, h⟩ => ⟨p.1, p.2, hp, h⟩
  · exact fun ⟨key, p, hp, h⟩ => ⟨(key, p), hp, h⟩

theorem mem_additionalReferences {a : Additional Schema} {name : String} :
    name ∈ additionalReferences a ↔ ∃ s, a = .schema s ∧ name ∈ s.references := by
  cases a <;> simp [additionalReferences]

theorem references_object (o : ObjectSchema Schema) :
    references (.object o) = propertyReferences o.properties ++ additionalReferences o.additional :=
  rfl

theorem mem_addMember {flat : List Schema} {s t : Schema} (h : t ∈ addMember flat s) :
    t ∈ flat ∨ t = s := by
  unfold addMember at h
  split at h
  · exact .inl h
  · simpa using h

theorem mem_foldl_addMember {ss flat : List Schema} {t : Schema} (h : t ∈ ss.foldl addMember flat) :
    t ∈ flat ∨ t ∈ ss := by
  induction ss generalizing flat with
  | nil => exact .inl h
  | cons s ss ih =>
    rcases ih h with h | h
    · exact (mem_addMember h).imp id fun he => by simp [he]
    · exact .inr (by simp [h])

/-- A flat member is a member, or a member of a union among them. -/
theorem mem_flatten {members : List Schema} {t : Schema} (h : t ∈ flatten members) :
    t ∈ members ∨ ∃ nested, union nested ∈ members ∧ t ∈ nested := by
  induction members using List.reverseRecOn with
  | nil => cases h
  | append_singleton members s ih =>
    simp only [flatten, List.foldl_append, List.foldl_cons, List.foldl_nil] at h
    have hearlier : t ∈ flatten members →
        t ∈ members ++ [s] ∨ ∃ nested, union nested ∈ members ++ [s] ∧ t ∈ nested := by
      intro h
      rcases ih h with h | ⟨nested, hn, h⟩
      · exact .inl (by simp [h])
      · exact .inr ⟨nested, by simp [hn], h⟩
    cases s with
    | union nested =>
      rcases mem_foldl_addMember h with h | h
      · exact hearlier h
      · exact .inr ⟨nested, by simp, h⟩
    | _ =>
      rcases mem_addMember h with h | rfl
      · exact hearlier h
      · exact .inl (by simp)

theorem mem_references_flatten {members : List Schema} {name : String}
    (h : name ∈ allReferences (flatten members)) : name ∈ allReferences members := by
  obtain ⟨t, ht, hname⟩ := mem_allReferences.mp h
  rcases mem_flatten ht with ht | ⟨nested, hn, ht⟩
  · exact mem_allReferences.mpr ⟨t, ht, hname⟩
  · exact mem_allReferences.mpr ⟨union nested, hn, mem_allReferences.mpr ⟨t, ht, hname⟩⟩

theorem mem_references_unionOf {members : List Schema} {name : String}
    (h : name ∈ (unionOf members).references) : name ∈ allReferences members := by
  apply mem_references_flatten
  unfold unionOf at h
  split at h
  · rename_i s hs
    rw [hs]
    exact mem_allReferences.mpr ⟨s, by simp, h⟩
  · split at h
    · cases h
    · exact h

mutual

theorem references_applyFormat (f : Format) : (s : Schema) →
    (s.applyFormat f).references = s.references
  | primitive _ => rfl
  | array s => by simp [applyFormat, references, references_applyFormat f s]
  | union ss => by simp [applyFormat, references, references_applyFormatAll f ss]
  | enum _ => rfl
  | object _ => rfl
  | intersection _ => rfl
  | reference _ => rfl

theorem references_applyFormatAll (f : Format) : (ss : List Schema) →
    allReferences (applyFormatAll f ss) = allReferences ss
  | [] => rfl
  | s :: ss => by
    simp [applyFormatAll, allReferences, references_applyFormat f s, references_applyFormatAll f ss]

end

theorem mem_references_insert {table : Entries String (PropertySchema Schema)} {key name : String}
    {p : PropertySchema Schema} (h : name ∈ propertyReferences (table.insert key p)) :
    name ∈ p.schema.references ∨ name ∈ propertyReferences table := by
  obtain ⟨k, q, hq, hname⟩ := mem_propertyReferences.mp h
  rcases Entries.mem_insert hq with hq | ⟨-, rfl⟩
  · exact .inr (mem_propertyReferences.mpr ⟨k, q, hq, hname⟩)
  · exact .inl hname

theorem mem_references_merged {os : List (ObjectSchema Schema)} {name : String}
    (h : name ∈ (object (os.foldl ObjectSchema.merge .empty)).references) :
    ∃ o ∈ os, name ∈ (object o).references := by
  rw [references_object, List.mem_append] at h
  rcases h with h | h
  · obtain ⟨key, p, hp, hname⟩ := mem_propertyReferences.mp h
    obtain ⟨o, ho, q, hq, hschema, -⟩ := ObjectSchema.merged_property hp
    rw [hschema] at hname
    refine ⟨o, ho, ?_⟩
    rw [references_object]
    exact List.mem_append_left _ (mem_propertyReferences.mpr ⟨key, q, hq, hname⟩)
  · obtain ⟨s, hs, hname⟩ := mem_additionalReferences.mp h
    rcases ObjectSchema.merged_additional hs with he | ⟨o, ho, hs⟩
    · cases he
    · refine ⟨o, ho, ?_⟩
      rw [references_object]
      exact List.mem_append_right _ (mem_additionalReferences.mpr ⟨s, hs, hname⟩)

/-- A part mentions no more, unless it is the definition of a name. -/
theorem Part.references_subset {ds : Definitions} {s t : Schema} (h : Part ds s t) :
    t.references ⊆ s.references ∨ ∃ name d, s = .reference name ∧ ds.find? name = some d ∧
      t = d.schema := by
  cases h with
  | element t => exact .inl (List.Subset.refl _)
  | property hp =>
    refine .inl fun name hname => ?_
    rw [references_object]
    exact List.mem_append_left _ (mem_propertyReferences.mpr ⟨_, _, hp, hname⟩)
  | additional ha =>
    refine .inl fun name hname => ?_
    rw [references_object]
    exact List.mem_append_right _ (mem_additionalReferences.mpr ⟨t, ha, hname⟩)
  | alternative ht => exact .inl fun name hname => mem_allReferences.mpr ⟨t, ht, hname⟩
  | constraint ht => exact .inl fun name hname => mem_allReferences.mpr ⟨t, ht, hname⟩
  | definition hd => exact .inr ⟨_, _, rfl, hd, rfl⟩

end Schema

namespace Definitions

def Closed (ds : Definitions) : Prop :=
  ∀ name d, (name, d) ∈ ds → d.schema.references ⊆ Entries.keys ds

theorem Closed.reaches {ds : Definitions} (hds : ds.Closed) {s t : Schema}
    (hs : s.references ⊆ Entries.keys ds) (h : Schema.Reaches ds s t) :
    t.references ⊆ Entries.keys ds := by
  induction h with
  | refl => exact hs
  | tail _ hpart ih =>
    rcases hpart.references_subset with hsub | ⟨name, d, -, hd, rfl⟩
    · exact fun name hname => ih (hsub hname)
    · exact hds name d (Entries.mem_of_find? hd)

end Definitions

end RouteContract

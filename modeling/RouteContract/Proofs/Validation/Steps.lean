import RouteContract.Proofs.Coercion.Descriptions
import RouteContract.Proofs.Operation
import RouteContract.Validation

/-!
# Steps of validation

A parameter is passed over, takes a field of the body, or is coerced on its own;
the body is coerced as an object of fields at the first field that is taken. This
object is the one of the operation without its descriptions.
-/

set_option autoImplicit false

namespace RouteContract.Validation

def givenFields? (r : Request) : Option (List (String × Json)) :=
  match r.body with
  | none => some []
  | some .null => some []
  | some (.object given) => some given
  | some _ => none

def addChecked (table : Entries String (PropertySchema Schema)) (p : BoundParameter) :
    Entries String (PropertySchema Schema) :=
  if p.source ≠ .field then table
  else match p.schema with
    | none => table
    | some schema => table.insert p.wire ⟨schema, p.required, p.default, none⟩

theorem addChecked_mapValues (table : Entries String (PropertySchema Schema))
    (p : BoundParameter) : addChecked (table.mapValues PropertySchema.undescribed) p =
      (addProperty table p).mapValues PropertySchema.undescribed := by
  by_cases hf : p.source = .field
  · cases hs : p.schema with
    | none => simp [addChecked, addProperty, hf, hs]
    | some schema =>
      simp [addChecked, addProperty, hf, hs, Entries.mapValues_insert, PropertySchema.undescribed]
  · simp [addChecked, addProperty_ne hf, hf]

theorem checkedBody_eq (ps : List BoundParameter) :
    checkedBody ps = (bodyObject ps).undescribed := by
  have hproperties : (checkedBody ps).properties = (bodyObject ps).undescribed.properties := by
    show ps.foldl addChecked (Entries.mapValues PropertySchema.undescribed []) =
      Entries.mapValues PropertySchema.undescribed (ps.foldl addProperty [])
    exact List.foldl_hom _ addChecked_mapValues
  exact congrArg (fun table => (⟨table, .implicit⟩ : ObjectSchema Schema)) hproperties

variable {ds : Definitions} {settings : ValidationSettings} {r : Request}
  {parameters : List BoundParameter}

theorem bodyFields_eq :
    bodyFields ds settings r parameters = match givenFields? r with
      | some given => Coercion.fields ds settings.extras (bodyObject parameters) given ""
      | none => some ([], [(bodyKey, ⟨.invalid "object", r.body⟩)]) := by
  unfold bodyFields givenFields?
  rw [checkedBody_eq]
  split <;> simp_all [Coercion.fields_undescribed]

def remaining (ds : Definitions) (settings : ValidationSettings) (r : Request)
    (parameters : List BoundParameter) (st : Progress) :
    Option (Entries String Typed × List Report) :=
  match st.fields? with
  | some fields => some (fields, [])
  | none => bodyFields ds settings r parameters

inductive Step (ds : Definitions) (settings : ValidationSettings) (r : Request)
    (parameters : List BoundParameter) (st : Progress) (p : BoundParameter) : Progress → Prop
  | pass (h : p.schema = none ∨ p.source.isValidated = false) : Step ds settings r parameters st p st
  | field {schema : Schema} {fields : Entries String Typed} {reports : List Report}
      (hs : p.schema = some schema) (hf : p.source = .field)
      (hr : remaining ds settings r parameters st = some (fields, reports)) :
      Step ds settings r parameters st p
        ⟨addArg st.args p.name (fields.find? p.wire), st.reports ++ reports,
          some (fields.erase p.wire)⟩
  | single {schema : Schema} {c : Coerced Typed} (hs : p.schema = some schema)
      (hv : p.source.isValidated) (hf : p.source ≠ .field)
      (hc : parameter ds settings r p schema = some c) :
      Step ds settings r parameters st p
        ⟨addArg st.args p.name c.value?, st.reports ++ c.reports, st.fields?⟩

theorem step_of_addParameter {st st' : Progress} {p : BoundParameter}
    (h : addParameter ds settings r parameters st p = some st') :
    Step ds settings r parameters st p st' := by
  unfold addParameter at h
  cases hs : p.schema with
  | none =>
    simp only [hs, Option.some.injEq] at h
    exact h ▸ .pass (.inl hs)
  | some schema =>
    simp only [hs] at h
    cases hv : p.source.isValidated with
    | false =>
      simp only [hv, Bool.not_false, if_true, Option.some.injEq] at h
      exact h ▸ .pass (.inr hv)
    | true =>
      simp only [hv, Bool.not_true, Bool.false_eq_true, if_false] at h
      by_cases hf : p.source = .field
      · rw [if_pos hf] at h
        have hadd : (remaining ds settings r parameters st).bind (fun x => some
            ⟨addArg st.args p.name (x.1.find? p.wire), st.reports ++ x.2,
              some (x.1.erase p.wire)⟩) = some st' := by
          unfold addField at h
          unfold remaining
          cases hfields : st.fields? with
          | none => simpa [hfields] using h
          | some fields => simpa [hfields] using h
        obtain ⟨⟨fields, reports⟩, hr, he⟩ := Option.bind_eq_some_iff.mp hadd
        cases he
        exact .field hs hf hr
      · rw [if_neg hf] at h
        simp only [bind, pure, Option.bind_eq_some_iff, Option.some.injEq] at h
        obtain ⟨c, hc, rfl⟩ := h
        exact .single hs hv hf hc

section

variable {st st' : Progress} {p : BoundParameter} {schema : Schema}

theorem Step.eq_self (h : Step ds settings r parameters st p st')
    (hp : p.schema = none ∨ p.source.isValidated = false) : st' = st := by
  cases h with
  | pass _ => rfl
  | field hs hf _ => simp [hs, hf, Source.isValidated] at hp
  | single hs hv _ _ => simp [hs, hv] at hp

theorem Step.of_field (h : Step ds settings r parameters st p st') (hs : p.schema = some schema)
    (hf : p.source = .field) : ∃ fields reports,
      remaining ds settings r parameters st = some (fields, reports) ∧
      st' = ⟨addArg st.args p.name (fields.find? p.wire), st.reports ++ reports,
        some (fields.erase p.wire)⟩ := by
  cases h with
  | pass hp => simp [hs, hf, Source.isValidated] at hp
  | field _ _ hr => exact ⟨_, _, hr, rfl⟩
  | single _ _ hne _ => exact absurd hf hne

theorem Step.of_single (h : Step ds settings r parameters st p st') (hs : p.schema = some schema)
    (hv : p.source.isValidated) (hf : p.source ≠ .field) : ∃ c,
      parameter ds settings r p schema = some c ∧
      st' = ⟨addArg st.args p.name c.value?, st.reports ++ c.reports, st.fields?⟩ := by
  cases h with
  | pass hp => simp [hs, hv] at hp
  | field _ hfield _ => exact absurd hfield hf
  | single hs' _ _ hc =>
    rw [hs] at hs'
    cases hs'
    exact ⟨_, hc, rfl⟩

end

/-- What the caller does not supply is passed over. -/
theorem addParameter_unread {p : BoundParameter} (h : p.source.isValidated = false)
    (st : Progress) : addParameter ds settings r parameters st p = some st := by
  unfold addParameter
  cases p.schema with
  | none => rfl
  | some schema => simp [h]

/-- Parameters that the caller does not supply can be left out of a run. -/
theorem run_filter {keep : BoundParameter → Bool} (h : ∀ p, p.source.isValidated → keep p)
    (ps : List BoundParameter) : run (ps.filter keep) r ds settings = run ps r ds settings := by
  have hbody : bodyObject (ps.filter keep) = bodyObject ps :=
    bodyObject_filter (fun p hfield => h p (by simp [hfield, Source.isValidated])) ps
  have hfields : bodyFields ds settings r (ps.filter keep) = bodyFields ds settings r ps := by
    simp only [bodyFields_eq, hbody]
  have hadd : addParameter ds settings r (ps.filter keep) = addParameter ds settings r ps := by
    funext st p
    simp only [addParameter, addField, hfields]
  unfold run
  rw [hadd, List.foldlM_filter]
  congr 2
  funext st p
  split
  · rfl
  · rename_i hkeep
    have hsource : p.source.isValidated = false := by
      simpa using mt (h p) hkeep
    exact (addParameter_unread hsource st).symm

theorem find?_addArg_self {args : Entries String Typed} {name : String} (t? : Option Typed)
    (h : args.find? name = none) : (addArg args name t?).find? name = t? := by
  cases t? with
  | none => exact h
  | some t => simp [addArg, Entries.find?_insert]

theorem find?_addArg_ne (args : Entries String Typed) {name other : String} (h : name ≠ other)
    (t? : Option Typed) : (addArg args name t?).find? other = args.find? other := by
  cases t? with
  | none => rfl
  | some t => simp [addArg, Entries.find?_insert, h]

theorem rawTexts?_ne_nil {values values' : List String} {delimiter delimiter' : Option Char}
    (h : rawTexts? values delimiter = some (.texts values' delimiter')) : values' ≠ [] := by
  unfold rawTexts? at h
  split at h
  · cases h
  · rename_i hn
    cases h
    simpa using hn

theorem raw?_ne_nil {p : BoundParameter} {values : List String} {delimiter : Option Char}
    (h : raw? p r settings = some (.texts values delimiter)) : values ≠ [] := by
  unfold raw? at h
  split at h
  · exact rawTexts?_ne_nil h
  · exact rawTexts?_ne_nil h
  · exact rawTexts?_ne_nil h
  · obtain ⟨v, -, hv⟩ := Option.map_eq_some_iff.mp h
    cases hv
  · cases h
  · cases h
  · cases h

end RouteContract.Validation

import RouteContract.Proofs.Coercion.Reading
import RouteContract.Proofs.Extraction.Contracts
import RouteContract.Proofs.Samples
import RouteContract.Proofs.Validation.Steps

/-!
# When validation never ends

A request asks for the coercion of its values, of the values read from its
texts, of defaults, and of its body as an object of fields. Validation against a
contract has no outcome exactly when one of these coercions takes a default that
needs itself.
-/

set_option autoImplicit false

namespace RouteContract

namespace Validation

open Coercion (Attempt NeedsItself)

section

variable (ds : Definitions) (settings : ValidationSettings) (r : Request)

inductive Asks (p : BoundParameter) (schema : Schema) : Attempt → Prop
  | value {v : Json} (hr : raw? p r settings = some (.json v)) : Asks p schema ⟨schema, v⟩
  | texts {values : List String} {delimiter : Option Char} {a : Attempt}
      (hr : raw? p r settings = some (.texts values delimiter))
      (ha : Coercion.Takes ds settings.extras delimiter values p.name schema a) : Asks p schema a
  | default {v : Json} (hr : raw? p r settings = none) (hd : p.default = some v) :
      Asks p schema ⟨schema, v⟩

/-- What a request makes validation coerce: for each parameter, and for the body as the object of
its fields. -/
inductive Demands (parameters : List BoundParameter) : Attempt → Prop
  | single {p : BoundParameter} {schema : Schema} {a : Attempt} (hp : p ∈ parameters)
      (hs : p.schema = some schema) (hv : p.source.isValidated) (hf : p.source ≠ .field)
      (ha : Asks ds settings r p schema a) : Demands parameters a
  | fields {p : BoundParameter} {schema : Schema} {given : List (String × Json)}
      (hp : p ∈ parameters) (hs : p.schema = some schema) (hf : p.source = .field)
      (hg : givenFields? r = some given) :
      Demands parameters ⟨.object (bodyObject parameters), .object given⟩

end

section

variable {ds : Definitions} {settings : ValidationSettings} {r : Request}
  {parameters : List BoundParameter}

theorem bodyFields_eq_none_iff (hg : ds.Grounded) :
    bodyFields ds settings r parameters = none ↔ ∃ given, givenFields? r = some given ∧
      NeedsItself ds settings.extras ⟨.object (bodyObject parameters), .object given⟩ := by
  rw [bodyFields_eq]
  cases givenFields? r with
  | none => simp
  | some given => simpa using Coercion.fields_eq_none_iff hg

def Stuck (ds : Definitions) (settings : ValidationSettings) (r : Request)
    (parameters : List BoundParameter) (p : BoundParameter) : Prop :=
  ∃ schema, p.schema = some schema ∧ p.source.isValidated ∧
    if p.source = .field then bodyFields ds settings r parameters = none
    else parameter ds settings r p schema = none

def Progress.Sensible (ds : Definitions) (settings : ValidationSettings) (r : Request)
    (parameters : List BoundParameter) (st : Progress) : Prop :=
  st.fields?.isSome → (bodyFields ds settings r parameters).isSome

theorem addParameter_stuck {st : Progress} {p : BoundParameter}
    (hst : st.Sensible ds settings r parameters) :
    addParameter ds settings r parameters st p = none ↔ Stuck ds settings r parameters p := by
  unfold addParameter Stuck
  cases hs : p.schema with
  | none => simp
  | some schema =>
    cases hv : p.source.isValidated with
    | false => simp
    | true =>
      by_cases hf : p.source = .field
      · cases hfields : st.fields? with
        | some fields =>
          have hb := hst (by simp [hfields])
          simp [hf, addField, hfields, Option.isSome_iff_ne_none.mp hb]
        | none =>
          cases hb : bodyFields ds settings r parameters <;> simp [hf, addField, hfields, hb]
      · cases hp : parameter ds settings r p schema <;> simp [hf, hp]

theorem addParameter_sensible {st st' : Progress} {p : BoundParameter}
    (hst : st.Sensible ds settings r parameters)
    (h : addParameter ds settings r parameters st p = some st') :
    st'.Sensible ds settings r parameters := by
  cases step_of_addParameter h with
  | pass _ => exact hst
  | field _ _ hr =>
    intro _
    unfold remaining at hr
    split at hr
    · rename_i fields hfields
      exact hst (by simp [hfields])
    · simp [hr]
  | single _ _ _ _ => exact hst

theorem foldlM_stuck {ps : List BoundParameter} {st : Progress}
    (hst : st.Sensible ds settings r parameters) :
    ps.foldlM (addParameter ds settings r parameters) st = none ↔
      ∃ p ∈ ps, Stuck ds settings r parameters p := by
  induction ps generalizing st with
  | nil => simp
  | cons p ps ih =>
    rw [List.foldlM_cons]
    cases hp : addParameter ds settings r parameters st p with
    | none =>
      have hstuck := (addParameter_stuck hst).mp hp
      simp [hstuck]
    | some st' =>
      have hfree : ¬ Stuck ds settings r parameters p := by
        rw [← addParameter_stuck hst, hp]
        simp
      simp [ih (addParameter_sensible hst hp), hfree]

theorem asks_iff {p : BoundParameter} {schema : Schema} {a : Attempt} :
    Asks ds settings r p schema a ↔ match raw? p r settings with
      | some (.json v) => a = ⟨schema, v⟩
      | some (.texts values delimiter) =>
        Coercion.Takes ds settings.extras delimiter values p.name schema a
      | none => ∃ v, p.default = some v ∧ a = ⟨schema, v⟩ := by
  constructor
  · intro h
    cases h with
    | value hr => rw [hr]
    | texts hr ha =>
      rw [hr]
      exact ha
    | default hr hd =>
      rw [hr]
      exact ⟨_, hd, rfl⟩
  · intro h
    split at h
    · rename_i v hr
      rw [h]
      exact .value hr
    · rename_i values delimiter hr
      exact .texts hr h
    · rename_i hr
      obtain ⟨v, hd, rfl⟩ := h
      exact .default hr hd

theorem parameter_eq_none_iff (hg : ds.Grounded) {p : BoundParameter} {schema : Schema} :
    parameter ds settings r p schema = none ↔
      ∃ a, Asks ds settings r p schema a ∧ NeedsItself ds settings.extras a := by
  simp only [asks_iff]
  unfold parameter
  cases raw? p r settings with
  | some raw =>
    cases raw with
    | texts values delimiter => exact Coercion.text_eq_none_iff hg
    | json v => simp [Coercion.json_eq_none_iff hg]
  | none =>
    cases p.default with
    | none => simp
    | some v => simp [Coercion.json_eq_none_iff hg]

/-- Validation has no outcome exactly when a default that is asked for needs itself. -/
theorem run_eq_none_iff (hg : ds.Grounded) :
    run parameters r ds settings = none ↔
      ∃ a, Demands ds settings r parameters a ∧ NeedsItself ds settings.extras a := by
  have hrun : run parameters r ds settings = none ↔
      parameters.foldlM (addParameter ds settings r parameters) .start = none := by
    cases h : parameters.foldlM (addParameter ds settings r parameters) .start <;> simp [run, h]
  have hstart : Progress.start.Sensible ds settings r parameters := nofun
  rw [hrun, foldlM_stuck hstart]
  constructor
  · rintro ⟨p, hp, schema, hs, hv, h⟩
    by_cases hf : p.source = .field
    · rw [if_pos hf] at h
      obtain ⟨given, hgiven, hn⟩ := (bodyFields_eq_none_iff hg).mp h
      exact ⟨_, .fields hp hs hf hgiven, hn⟩
    · rw [if_neg hf] at h
      obtain ⟨a, ha, hn⟩ := (parameter_eq_none_iff hg).mp h
      exact ⟨a, .single hp hs hv hf ha, hn⟩
  · rintro ⟨a, ha, hn⟩
    cases ha with
    | @single p schema _ hp hs hv hf ha =>
      refine ⟨p, hp, schema, hs, hv, ?_⟩
      rw [if_neg hf]
      exact (parameter_eq_none_iff hg).mpr ⟨a, ha, hn⟩
    | @fields p schema given hp hs hf hgiven =>
      refine ⟨p, hp, schema, hs, by rw [hf]; rfl, ?_⟩
      rw [if_pos hf]
      exact (bodyFields_eq_none_iff hg).mpr ⟨given, hgiven, hn⟩

end

end Validation

/-- A request has no outcome exactly when it asks for a default that needs itself, and then no
number of nested steps is enough. -/
theorem Contract.validate_eq_none_iff {g : Graph} {combination : Combination} {c : Contract}
    (h : g.contract combination = .ok c) (o : Operation) (r : Request)
    (settings : ValidationSettings) :
    (c.validate o r settings = none ↔
      ∃ a, Validation.Demands c.definitions settings r o.parameters a ∧
        Coercion.NeedsItself c.definitions settings.extras a) ∧
    ∀ a, Coercion.NeedsItself c.definitions settings.extras a ↔ ∀ n path,
      Coercion.jsonWithin c.definitions settings.extras n a.schema a.value path = none :=
  ⟨Validation.run_eq_none_iff (Graph.contract_grounded h),
    Coercion.needsItself_iff (Graph.contract_grounded h)⟩

namespace Sample

def selfDefaulting : Graph where
  declarations := [interface "A" [] [defaulted "a" (.named "A") (.object [])]]
  controllers := [posting [parameter "p" (.named "A") .body]]

theorem selfDefaulting_stuck :
    ∃ c o, selfDefaulting.contract .anyOf = .ok c ∧ o ∈ c.operations ∧
      (c.validate o (withBody (.object [])) .standard).isNone :=
  exists_operation (by decide +kernel)

/-- The empty object is coerced with its own default without end. -/
theorem selfDefaulting_endless :
    ∃ c o, selfDefaulting.contract .anyOf = .ok c ∧ o ∈ c.operations ∧
      c.validate o (withBody (.object [])) .standard = none ∧
      ∃ a, Validation.Demands c.definitions .standard (withBody (.object [])) o.parameters a ∧
        ∀ n path, Coercion.jsonWithin c.definitions .drop n a.schema a.value path = none := by
  obtain ⟨c, o, hc, ho, h⟩ := selfDefaulting_stuck
  have hnone := Option.isNone_iff_eq_none.mp h
  have hg := Graph.contract_grounded hc
  obtain ⟨a, ha, hself⟩ := (Validation.run_eq_none_iff hg).mp hnone
  exact ⟨c, o, hc, ho, hnone, a, ha, (Coercion.needsItself_iff hg a).mp hself⟩

theorem selfDefaulting_needs_itself :
    ∃ c o, selfDefaulting.contract .anyOf = .ok c ∧ o ∈ c.operations ∧
      ∃ a, Validation.Demands c.definitions .standard (withBody (.object [])) o.parameters a ∧
        Coercion.NeedsItself c.definitions .drop a := by
  obtain ⟨c, o, hc, ho, h⟩ := selfDefaulting_stuck
  have hnone := Option.isNone_iff_eq_none.mp h
  exact ⟨c, o, hc, ho, (Contract.validate_eq_none_iff hc o _ .standard).1.mp hnone⟩

end Sample

end RouteContract

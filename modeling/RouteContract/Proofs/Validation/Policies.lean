import RouteContract.Proofs.Coercion.Policies
import RouteContract.Proofs.FieldErrors
import RouteContract.Proofs.Samples
import RouteContract.Proofs.Validation.Steps

/-!
# Requests under several policies

One request is validated under each policy for undeclared properties. The runs
take the same parameters and the same body, so that their errors compare as
those of the coercions do. Nothing is assumed of the contract; each run that is
compared has to end.
-/

set_option autoImplicit false

namespace RouteContract

def ValidationSettings.under (settings : ValidationSettings) (e : Extras) : ValidationSettings :=
  { settings with extras := e }

namespace Validation

open Coercion (Milder Compares)

section

variable {ds : Definitions} {settings : ValidationSettings} {r : Request}
  {parameters : List BoundParameter} {e e' : Extras} (he : e ≠ .reject)

structure Abreast (same : Prop) (st st' : Progress) : Prop where
  reports : Milder same st.reports st'.reports
  fields : st.fields? = none ↔ st'.fields? = none

include he

theorem parameter_compares (p : BoundParameter) (schema : Schema) :
    Compares (e' ≠ .reject) (parameter ds (settings.under e) r p schema)
      (parameter ds (settings.under e') r p schema) := by
  have hraw : raw? p r (settings.under e) = raw? p r (settings.under e') := rfl
  unfold parameter
  rw [hraw]
  split
  · rename_i values delimiter htexts
    exact Coercion.text_compares he (raw?_ne_nil htexts) schema p.name
  · exact Coercion.json_compares he schema _ p.name
  · split
    · exact Coercion.json_compares he schema _ p.name
    · exact .refl _

theorem bodyFields_compare {x y : Entries String Typed × List Report}
    (hx : bodyFields ds (settings.under e) r parameters = some x)
    (hy : bodyFields ds (settings.under e') r parameters = some y) :
    Milder (e' ≠ .reject) x.2 y.2 := by
  rw [bodyFields_eq] at hx hy
  split at hx
  · rename_i given hgiven
    rw [hgiven] at hy
    exact Coercion.fields_compare he hx hy
  · rename_i hnone
    rw [hnone] at hy
    cases hx
    cases hy
    exact .refl _

theorem remaining_compares {st st' : Progress} (hst : Abreast (e' ≠ .reject) st st')
    {x y : Entries String Typed × List Report}
    (hx : remaining ds (settings.under e) r parameters st = some x)
    (hy : remaining ds (settings.under e') r parameters st' = some y) :
    Milder (e' ≠ .reject) x.2 y.2 := by
  unfold remaining at hx hy
  cases hfields : st.fields? with
  | none =>
    rw [hfields] at hx
    rw [hst.fields.mp hfields] at hy
    exact bodyFields_compare he hx hy
  | some fields =>
    obtain ⟨fields', hfields'⟩ : ∃ fields', st'.fields? = some fields' :=
      Option.ne_none_iff_exists'.mp fun hn => by simp [hst.fields.mpr hn] at hfields
    rw [hfields] at hx
    rw [hfields'] at hy
    cases hx
    cases hy
    exact .refl _

theorem Abreast.add {st st' st₁ st₁' : Progress} (hst : Abreast (e' ≠ .reject) st st')
    {p : BoundParameter} (h : addParameter ds (settings.under e) r parameters st p = some st₁)
    (h' : addParameter ds (settings.under e') r parameters st' p = some st₁') :
    Abreast (e' ≠ .reject) st₁ st₁' := by
  have hstep := step_of_addParameter h'
  cases step_of_addParameter h with
  | pass hp =>
    rw [hstep.eq_self hp]
    exact hst
  | field hs hf hr =>
    obtain ⟨fields', reports', hr', rfl⟩ := hstep.of_field hs hf
    exact ⟨hst.reports.append (remaining_compares he hst hr hr'), by simp⟩
  | single hs hv hf hc =>
    obtain ⟨c', hc', rfl⟩ := hstep.of_single hs hv hf
    exact ⟨hst.reports.append (parameter_compares he p _ _ _ hc hc'), hst.fields⟩

theorem Abreast.foldlM {ps : List BoundParameter} {st st' st₁ st₁' : Progress}
    (hst : Abreast (e' ≠ .reject) st st')
    (h : ps.foldlM (addParameter ds (settings.under e) r parameters) st = some st₁)
    (h' : ps.foldlM (addParameter ds (settings.under e') r parameters) st' = some st₁') :
    Abreast (e' ≠ .reject) st₁ st₁' := by
  induction ps generalizing st st' with
  | nil =>
    cases h
    cases h'
    exact hst
  | cons p ps ih =>
    rw [List.foldlM_cons] at h h'
    obtain ⟨st₂, hfirst, hrest⟩ := Option.bind_eq_some_iff.mp h
    obtain ⟨st₂', hfirst', hrest'⟩ := Option.bind_eq_some_iff.mp h'
    exact ih (hst.add he hfirst hfirst') hrest hrest'

/-- A policy that lets undeclared properties pass has no error that another one has not, and another
one that lets them pass has the same errors. -/
theorem run_compares {outcome outcome' : Outcome}
    (h : run parameters r ds (settings.under e) = some outcome)
    (h' : run parameters r ds (settings.under e') = some outcome') :
    outcome.errors.keys ⊆ outcome'.errors.keys ∧
      (e' ≠ .reject → outcome.errors = outcome'.errors) := by
  simp only [run, bind, pure, Option.bind_eq_some_iff, Option.some.injEq] at h h'
  obtain ⟨st, hst, rfl⟩ := h
  obtain ⟨st', hst', rfl⟩ := h'
  have hstart : Abreast (e' ≠ .reject) Progress.start .start := ⟨.refl _, Iff.rfl⟩
  have hmilder := (hstart.foldlM he hst hst').reports
  refine ⟨fun key hkey => ?_, fun hs => by rw [hmilder.eq hs]⟩
  have hreported : ∀ reports : List Report, key ∈ Entries.keys (FieldErrors.addAll [] reports) ↔
      key ∈ reports.map Prod.fst := by
    intro reports
    rw [FieldErrors.mem_keys_addAll]
    simp [Entries.keys]
  exact (hreported _).mpr (hmilder.keys ((hreported _).mp hkey))

end

end Validation

/-- Dropping and keeping undeclared properties have the same errors, and rejecting them has errors
under all of their keys. What is valid where they are rejected is valid where they are not. -/
theorem Contract.policies_compared {c : Contract} {o : Operation} {r : Request}
    {settings : ValidationSettings} {rejected dropped kept : Outcome}
    (hr : c.validate o r (settings.under .reject) = some rejected)
    (hd : c.validate o r (settings.under .drop) = some dropped)
    (hk : c.validate o r (settings.under .keep) = some kept) :
    dropped.errors = kept.errors ∧ dropped.errors.keys ⊆ rejected.errors.keys ∧
      (rejected.isValid → dropped.isValid ∧ kept.isValid) := by
  have hsame : dropped.errors = kept.errors := (Validation.run_compares (by decide) hd hk).2 (by decide)
  have hkeys := (Validation.run_compares (by decide) hd hr).1
  refine ⟨hsame, hkeys, fun hvalid => ?_⟩
  have hnone : rejected.errors = [] := List.isEmpty_iff.mp hvalid
  rw [hnone] at hkeys
  have hdropped : dropped.errors = [] := List.map_eq_nil_iff.mp (List.subset_nil.mp hkeys)
  exact ⟨List.isEmpty_iff.mpr hdropped, List.isEmpty_iff.mpr (hsame ▸ hdropped)⟩

namespace Sample

def labelling : Graph where
  declarations := [interface "Tag" [] [property "n" (.keyword .number)],
    interface "Note" [] [property "tag" (.union [.named "Tag", .keyword .boolean]),
      property "text" (.keyword .string)]]
  controllers := [posting [parameter "note" (.named "Note") .body]]

def overlabelled : Request :=
  withBody (.object [("tag", .object [("n", .integer 1), ("hue", .string "red")]),
    ("text", .integer 5)])

def errorKeys? (c : Contract) (o : Operation) (e : Extras) : Option (List String) :=
  (c.validate o overlabelled (ValidationSettings.standard.under e)).map (·.errors.keys)

theorem exists_outcome {c : Contract} {o : Operation} {e : Extras} {keys : List String}
    (h : errorKeys? c o e = some keys) : ∃ outcome,
      c.validate o overlabelled (ValidationSettings.standard.under e) = some outcome ∧
        outcome.errors.keys = keys :=
  Option.map_eq_some_iff.mp h

/-- No member of the union matches where undeclared properties are rejected. -/
theorem overlabelled_compared : ∃ c o rejected dropped kept,
    labelling.contract .anyOf = .ok c ∧ o ∈ c.operations ∧
    c.validate o overlabelled (ValidationSettings.standard.under .reject) = some rejected ∧
    c.validate o overlabelled (ValidationSettings.standard.under .drop) = some dropped ∧
    c.validate o overlabelled (ValidationSettings.standard.under .keep) = some kept ∧
    dropped.errors = kept.errors ∧ dropped.errors.keys ⊆ rejected.errors.keys ∧
    rejected.errors.keys = ["note.tag", "note.text"] ∧ dropped.errors.keys = ["note.text"] := by
  have hcheck : ∃ c o, labelling.contract .anyOf = .ok c ∧ o ∈ c.operations ∧
      (decide (errorKeys? c o .reject = some ["note.tag", "note.text"]) &&
        decide (errorKeys? c o .drop = some ["note.text"]) &&
        decide (errorKeys? c o .keep = some ["note.text"])) = true :=
    exists_operation (by decide +kernel)
  obtain ⟨c, o, hc, ho, h⟩ := hcheck
  simp only [Bool.and_eq_true, decide_eq_true_eq] at h
  obtain ⟨⟨hreject, hdrop⟩, hkeep⟩ := h
  obtain ⟨rejected, hr, hrejected⟩ := exists_outcome hreject
  obtain ⟨dropped, hd, hdropped⟩ := exists_outcome hdrop
  obtain ⟨kept, hk, -⟩ := exists_outcome hkeep
  obtain ⟨hsame, hkeys, -⟩ := Contract.policies_compared hr hd hk
  exact ⟨c, o, rejected, dropped, kept, hc, ho, hr, hd, hk, hsame, hkeys, hrejected, hdropped⟩

end Sample

end RouteContract

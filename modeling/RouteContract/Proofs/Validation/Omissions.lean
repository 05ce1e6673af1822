import RouteContract.Proofs.Samples
import RouteContract.Proofs.Validation.Causes

/-!
# Fields that are left out

A field that is not required may be left out. Its default is then coerced like a
value of the request: an accepted default is the value of the field, and only a
refused one is reported.
-/

set_option autoImplicit false

namespace RouteContract

namespace Validation

open Coercion (Gives Stands property_eq_some parts_of_gives property_of_parts fields_entry)

namespace Field

structure Omitted (f : Field) : Prop where
  optional : f.required = false
  absent : f.given = none

section

variable (ds : Definitions) (extras : Extras) (f : Field)

def RefusesDefault : Prop :=
  ∃ v c, f.default = some v ∧ Gives ds extras ⟨f.schema, .json v, f.key⟩ c ∧ c.isClean = false

def DefaultsTo (t : Typed) : Prop :=
  ∃ v c, f.default = some v ∧ Gives ds extras ⟨f.schema, .json v, f.key⟩ c ∧ c.value? = some t

end

variable {ds : Definitions} {extras : Extras} {f : Field}

theorem Omitted.input? (h : f.Omitted) : f.input? = f.default.map .json := by
  rw [Field.input?, h.absent, Option.none_or]

theorem Omitted.fails_iff (h : f.Omitted) : f.Fails ds extras ↔ f.RefusesDefault ds extras := by
  constructor
  · intro hfails
    cases hfails with
    | missing _ hr =>
      rw [h.optional] at hr
      cases hr
    | value hi hc hu =>
      rw [h.input?] at hi
      obtain ⟨v, hv, rfl⟩ := Option.map_eq_some_iff.mp hi
      exact ⟨v, _, hv, hc, hu⟩
  · rintro ⟨v, c, hv, hc, hu⟩
    exact .value (by rw [h.input?, hv]; rfl) hc hu

/-- A default that is not refused has a value, where its coercion ends. -/
theorem defaultsTo_of_gives {v : Json} {c : Coerced Typed} (hv : f.default = some v)
    (hc : Gives ds extras ⟨f.schema, .json v, f.key⟩ c) (h : ¬ f.RefusesDefault ds extras) :
    ∃ t, c.value? = some t ∧ f.DefaultsTo ds extras t := by
  have hclean : c.isClean = true := by
    rw [← Bool.not_eq_false]
    exact fun hu => h ⟨v, c, hv, hc, hu⟩
  obtain ⟨⟨t, ht⟩, -⟩ := Coerced.isClean_iff.mp hclean
  exact ⟨t, ht, v, c, hv, hc, ht⟩

end Field

/-- A property of a coerced object that has a value or a default is one of its entries. -/
theorem entry_of_gives {ds : Definitions} {extras : Extras} {s : Schema}
    {object : ObjectSchema Schema} {fields : List (String × Json)} {path : String}
    {c : Coerced Typed} {t : Typed}
    (hd : Coercion.deref ds Coercion.maxHops s = .ok (.object object))
    (hc : Gives ds extras ⟨s, .json (.object fields), path⟩ c) (ht : c.value? = some t)
    {name : String} {p : PropertySchema Schema} (hp : (name, p) ∈ object.properties) {v : Json}
    (hv : (Entries.find? fields name).or p.default = some v) :
    ∃ entries u d, t = .object entries ∧ (name, u) ∈ entries ∧
      Gives ds extras ⟨p.schema, .json v, Coercion.child path name⟩ d ∧ d.value? = some u := by
  obtain ⟨n, ps, hps, rfl⟩ := parts_of_gives hd hc
  obtain ⟨es, hes, rfl⟩ := Option.map_eq_some_iff.mp ht
  obtain ⟨part, hpart, hproperty⟩ := property_of_parts hps hp
  obtain ⟨e, he, hvalue⟩ := mem_of_forall₂_left (Coerced.sequence_value.mp hes) hpart
  rcases property_eq_some hproperty with ⟨w, d, hw, hgives, rfl⟩ | ⟨hn, -⟩
  · obtain rfl := Option.some.inj (hv.symm.trans hw)
    obtain ⟨u, hu, rfl⟩ := Option.map_eq_some_iff.mp hvalue
    exact ⟨_, u, d, rfl, List.mem_filterMap.mpr ⟨_, he, rfl⟩, ⟨n, hgives⟩, hu⟩
  · rw [hv] at hn
    cases hn

section

variable {ds : Definitions} {settings : ValidationSettings} {r : Request}
  {parameters : List BoundParameter}

theorem addParameter_args_ne {st st' : Progress} {q : BoundParameter}
    (h : addParameter ds settings r parameters st q = some st') {name : String}
    (hn : q.name ≠ name) : st'.args.find? name = st.args.find? name := by
  cases step_of_addParameter h with
  | pass => rfl
  | field => exact find?_addArg_ne _ hn _
  | single => exact find?_addArg_ne _ hn _

/-- Later parameters of other names leave an argument as it is. -/
theorem foldlM_args_ne {qs : List BoundParameter} {st st' : Progress} {name : String}
    (h : qs.foldlM (addParameter ds settings r parameters) st = some st')
    (hn : name ∉ qs.map (·.name)) : st'.args.find? name = st.args.find? name := by
  refine foldlM_carries (P := fun _ st1 => st1.args.find? name = st.args.find? name)
    h rfl fun _ st1 st2 q hq hsame hstep => ?_
  have hne : q.name ≠ name := fun he => hn (he ▸ List.mem_map_of_mem hq)
  exact (addParameter_args_ne hstep hne).trans hsame

def Holds (ds : Definitions) (settings : ValidationSettings) (r : Request)
    (parameters : List BoundParameter) (wire : String) (st : Progress) : Prop :=
  ∀ fields, st.fields? = some fields → ∃ entries reports,
    bodyFields ds settings r parameters = some (entries, reports) ∧
      fields.find? wire = entries.find? wire

theorem Holds.start {wire : String} : Holds ds settings r parameters wire .start := by
  intro fields h
  cases h

theorem Holds.remaining {wire : String} {st : Progress}
    (hst : Holds ds settings r parameters wire st) {fields : Entries String Typed}
    {reports : List Report} (h : remaining ds settings r parameters st = some (fields, reports)) :
    ∃ entries reports, bodyFields ds settings r parameters = some (entries, reports) ∧
      fields.find? wire = entries.find? wire := by
  unfold Validation.remaining at h
  cases hfields : st.fields? with
  | none =>
    rw [hfields] at h
    exact ⟨fields, reports, h, rfl⟩
  | some fields' =>
    rw [hfields] at h
    cases h
    exact hst _ hfields

theorem Holds.add {wire : String} {st st' : Progress} {q : BoundParameter}
    (hst : Holds ds settings r parameters wire st)
    (h : addParameter ds settings r parameters st q = some st')
    (hq : q.source = .field → q.wire ≠ wire) : Holds ds settings r parameters wire st' := by
  cases step_of_addParameter h with
  | pass => exact hst
  | single => exact hst
  | field hs hf hrem =>
    obtain ⟨entries, reports, hbody, hfind⟩ := hst.remaining hrem
    rintro fields hfields
    cases hfields
    exact ⟨entries, reports, hbody, (Entries.find?_erase_ne (hq hf)).trans hfind⟩

theorem Holds.foldlM {wire : String} {qs : List BoundParameter} {st st' : Progress}
    (hst : Holds ds settings r parameters wire st)
    (h : qs.foldlM (addParameter ds settings r parameters) st = some st')
    (hqs : wire ∉ fieldWires qs) : Holds ds settings r parameters wire st' := by
  refine foldlM_carries (P := fun _ => Holds ds settings r parameters wire) h hst
    fun _ _ _ q hq hheld hstep => ?_
  exact hheld.add hstep fun hf he => hqs (mem_fieldWires.mpr ⟨q, hq, hf, he⟩)

/-- What is coerced for the last body field of a wire name is the entry of that name. -/
theorem entry_of_body {p : BoundParameter} {schema : Schema} {given : List (String × Json)}
    {entries : Entries String Typed} {reports : List Report} {i : Coercion.Input}
    (hbody : bodyFields ds settings r parameters = some (entries, reports))
    (hg : givenFields? r = some given) (hlast : LastField parameters p.wire p)
    (hs : p.schema = some schema)
    (hi : (Field.ofProperty given "" p.wire
      ⟨schema, p.required, p.default, p.description⟩).input? = some i) :
    ∃ c, Gives ds settings.extras ⟨schema, i, Coercion.child "" p.wire⟩ c ∧
      ∀ t, c.value? = some t → entries.find? p.wire = some t := by
  rw [bodyFields_eq, hg] at hbody
  rw [Field.ofProperty_input?] at hi
  obtain ⟨v, hv, rfl⟩ := Option.map_eq_some_iff.mp hi
  obtain ⟨-, n, part, hproperty, hentry, -⟩ :=
    fields_entry (bodyObject_nodup parameters) hbody (bodyObject_find? hlast hs)
  rcases property_eq_some hproperty with ⟨w, d, hw, hgives, rfl⟩ | ⟨hn, -⟩
  · obtain rfl := Option.some.inj (hv.symm.trans hw)
    exact ⟨d, ⟨n, hgives⟩, fun t ht => (hentry t).mpr (by rw [Coerced.map, ht]; rfl)⟩
  · rw [hv] at hn
    cases hn

/-- The run of a list of parameters passes by each of them. -/
theorem run_split {outcome : Outcome} (h : run parameters r ds settings = some outcome)
    {before after : List BoundParameter} {p : BoundParameter}
    (hparameters : parameters = before ++ p :: after) : ∃ st st' last,
      before.foldlM (addParameter ds settings r parameters) .start = some st ∧
        addParameter ds settings r parameters st p = some st' ∧
        after.foldlM (addParameter ds settings r parameters) st' = some last ∧
        outcome.args = last.args := by
  simp only [run, bind, pure, Option.bind_eq_some_iff, Option.some.injEq] at h
  obtain ⟨last, hrun, rfl⟩ := h
  rw [hparameters, List.foldlM_append, ← hparameters] at hrun
  obtain ⟨st, hbefore, hrest⟩ := Option.bind_eq_some_iff.mp hrun
  rw [List.foldlM_cons] at hrest
  obtain ⟨st', hstep, hafter⟩ := Option.bind_eq_some_iff.mp hrest
  exact ⟨st, st', last, hbefore, hstep, hafter, rfl⟩

/-- What is coerced for a parameter is its argument, unless another body field takes its wire name
or a later parameter has its name. -/
theorem argument_of_run {outcome : Outcome} (h : run parameters r ds settings = some outcome)
    {before after : List BoundParameter} {p : BoundParameter} {f : Field} {i : Coercion.Input}
    (hparameters : parameters = before ++ p :: after) (hf : FieldOf settings r p f)
    (hi : f.input? = some i) (hname : p.name ∉ after.map (·.name))
    (hwire : p.source = .field → p.wire ∉ fieldWires (before ++ after)) :
    ∃ c, Gives ds settings.extras ⟨f.schema, i, f.key⟩ c ∧
      ∀ t, c.value? = some t → outcome.args.find? p.name = some t := by
  obtain ⟨st, st', last, hbefore, hstep, hafter, hargs⟩ := run_split h hparameters
  have taken : ∀ {t? : Option Typed} {t : Typed}, st'.args = addArg st.args p.name t? →
      t? = some t → outcome.args.find? p.name = some t := by
    rintro _ t hadd rfl
    rw [hargs, foldlM_args_ne hafter hname, hadd, addArg, Entries.find?_insert, if_pos rfl]
  cases hf with
  | @single schema hs hv hsource =>
    cases step_of_addParameter hstep with
    | pass hp => simp [hs, hv] at hp
    | field _ hfield => exact absurd hfield hsource
    | single hs' _ _ hc =>
      rw [hs] at hs'
      cases hs'
      exact ⟨_, parameter_gives hc hi, fun t ht => taken rfl ht⟩
  | @body schema given hs hsource hg =>
    have hothers := hwire hsource
    rw [fieldWires_append, List.mem_append, not_or] at hothers
    have hlast : LastField parameters p.wire p :=
      ⟨before, after, hparameters, hsource, rfl, hothers.2⟩
    cases step_of_addParameter hstep with
    | pass hp => simp [hs, hsource, Source.isValidated] at hp
    | single _ _ hne => exact absurd hsource hne
    | field _ _ hrem =>
      obtain ⟨entries, reports, hbody, hfind⟩ :=
        (Holds.start.foldlM hbefore hothers.1).remaining hrem
      obtain ⟨c, hc, hentry⟩ := entry_of_body hbody hg hlast hs hi
      exact ⟨c, hc, fun t ht => taken rfl (hfind.trans (hentry t ht))⟩

end

end Validation

open Validation Coercion

/-- The errors are what the parameters are to blame for. A field that is omitted raises something
exactly when its default is refused, and a default that is not refused is applied: to the argument
of a parameter that shares neither its name nor its body field with another, and to the entry of a
property wherever the object has a value. -/
theorem Contract.omitted_fields {c : Contract} {o : Operation} {r : Request}
    {settings : ValidationSettings} {outcome : Outcome}
    (h : c.validate o r settings = some outcome) :
    (∀ key, key ∈ outcome.errors.keys ↔
      ∃ p ∈ o.parameters, ∃ e, Blames c.definitions settings r o.parameters p (key, e)) ∧
    (∀ f, Checked c.definitions settings r o.parameters f → f.Omitted →
      ((∃ rep, f.Raises c.definitions settings.extras rep) ↔
        f.RefusesDefault c.definitions settings.extras) ∧
      ∀ rep, f.Raises c.definitions settings.extras rep →
        rep.1 ∈ outcome.errors.keys ∧ Stands f.key rep.1) ∧
    (∀ before p after f, o.parameters = before ++ p :: after → FieldOf settings r p f →
      f.Omitted → f.default.isSome → ¬ f.RefusesDefault c.definitions settings.extras →
      p.name ∉ after.map (·.name) →
      (p.source = .field → p.wire ∉ fieldWires (before ++ after)) →
      ∃ t, f.DefaultsTo c.definitions settings.extras t ∧ outcome.args.find? p.name = some t) ∧
    ∀ s object fields path d t, deref c.definitions maxHops s = .ok (.object object) →
      Gives c.definitions settings.extras ⟨s, .json (.object fields), path⟩ d → d.value? = some t →
      ∀ name p, (name, p) ∈ object.properties → (Field.ofProperty fields path name p).Omitted →
      p.default.isSome → ∃ entries u, t = .object entries ∧ (name, u) ∈ entries ∧
        (Field.ofProperty fields path name p).DefaultsTo c.definitions settings.extras u := by
  refine ⟨fun key => mem_errors_iff h, fun f hf hom => ⟨?_, fun rep hrep => hf.errors h hrep⟩,
    ?_, ?_⟩
  · rw [hf.raises_iff_fails h, hom.fails_iff]
  · intro before p after f hparameters hf hom hdefault haccepts hname hwire
    obtain ⟨v, hv⟩ := Option.isSome_iff_exists.mp hdefault
    have hi : f.input? = some (.json v) := by rw [hom.input?, hv]; rfl
    obtain ⟨d, hd, harg⟩ := argument_of_run h hparameters hf hi hname hwire
    obtain ⟨t, ht, hto⟩ := Field.defaultsTo_of_gives hv hd haccepts
    exact ⟨t, hto, harg t ht⟩
  · intro s object fields path d t hderef hd ht name p hp hom hdefault
    obtain ⟨v, hv⟩ := Option.isSome_iff_exists.mp hdefault
    have hgiven : Entries.find? fields name = none := Option.map_eq_none_iff.mp hom.absent
    have hinput : (Entries.find? fields name).or p.default = some v := by
      rw [hgiven, hv]
      rfl
    obtain ⟨entries, u, e, rfl, hmem, he, hu⟩ := entry_of_gives hderef hd ht hp hinput
    exact ⟨entries, u, rfl, hmem, v, e, hv, he, hu⟩

namespace Sample

def defaulting (v : Json) : Graph where
  declarations := [interface "A" [] [defaulted "code" (.keyword .string) v]]
  controllers := [posting [parameter "p" (.named "A") .body]]

def acceptsDefault? (ds : Definitions) (s : Schema) : Option Bool :=
  match deref ds maxHops s with
  | .ok (.object ⟨[(name, q)], _⟩) =>
    if q.required then none
    else q.default.bind fun v => (json ds .drop q.schema v (child "p" name)).map (·.isClean)
  | _ => none

theorem acceptsDefault?_eq_some {ds : Definitions} {s : Schema} {b : Bool}
    (h : acceptsDefault? ds s = some b) : ∃ object name q v c,
      deref ds maxHops s = .ok (.object object) ∧ (name, q) ∈ object.properties ∧
        (Field.ofProperty [] "p" name q).Omitted ∧ q.default = some v ∧
        Gives ds .drop ⟨q.schema, .json v, child "p" name⟩ c ∧ c.isClean = b := by
  unfold acceptsDefault? at h
  split at h
  · rename_i name q additional hd
    split at h
    · cases h
    · rename_i hr
      obtain ⟨v, hv, hjson⟩ := Option.bind_eq_some_iff.mp h
      obtain ⟨c, hc, hb⟩ := Option.map_eq_some_iff.mp hjson
      have homitted : (Field.ofProperty [] "p" name q).Omitted := ⟨Bool.not_eq_true _ ▸ hr, rfl⟩
      exact ⟨_, name, q, v, c, hd, List.mem_singleton_self _, homitted, hv, ⟨_, hc⟩, hb⟩
  · cases h

def posts (c : Contract) (o : Operation) (b : Bool) : Bool :=
  (c.validate o (withBody (.object [])) .standard).isSome &&
    o.parameters.any fun p => p.name = "p" && p.source = .body &&
      p.schema.bind (acceptsDefault? c.definitions) = some b

theorem refused_default : ∃ c o, (defaulting (.integer 5)).contract .anyOf = .ok c ∧
    o ∈ c.operations ∧ posts c o false :=
  exists_operation (by decide +kernel)

theorem accepted_default : ∃ c o, (defaulting (.string "5")).contract .anyOf = .ok c ∧
    o ∈ c.operations ∧ posts c o true :=
  exists_operation (by decide +kernel)

/-- The posted body has one property, which is left out. -/
theorem posts_checks {c : Contract} {o : Operation} {b : Bool} (h : posts c o b) :
    ∃ outcome f v d, c.validate o (withBody (.object [])) .standard = some outcome ∧
      Checked c.definitions .standard (withBody (.object [])) o.parameters f ∧ f.Omitted ∧
      f.default = some v ∧ Gives c.definitions .drop ⟨f.schema, .json v, f.key⟩ d ∧
      d.isClean = b := by
  obtain ⟨hrun, hany⟩ := Bool.and_eq_true_iff.mp h
  obtain ⟨outcome, houtcome⟩ := Option.isSome_iff_exists.mp hrun
  obtain ⟨p, hp, hchecks⟩ := List.any_eq_true.mp hany
  simp only [Bool.and_eq_true, decide_eq_true_eq] at hchecks
  obtain ⟨⟨hname, hsource⟩, hbind⟩ := hchecks
  obtain ⟨s, hs, haccepts⟩ := Option.bind_eq_some_iff.mp hbind
  obtain ⟨object, name, q, v, d, hd, hq, homitted, hv, hgives, hclean⟩ :=
    acceptsDefault?_eq_some haccepts
  have hstarts : Starts .standard (withBody (.object [])) o.parameters
      ⟨s, .json (.object []), "p"⟩ := by
    rw [← hname]
    refine .parameter hp hs (by rw [hsource]; rfl) (by rw [hsource]; decide) ?_
    simp [Field.input?, Field.ofParameter, raw?, hsource, withBody, Json.isNull, Raw.input]
  exact ⟨outcome, _, v, d, houtcome, .property ⟨_, hstarts, .refl⟩ hd hq, homitted, hv, hgives,
    hclean⟩

/-- The property that is left out has an error of its own. -/
theorem refused_default_reported : ∃ c o outcome f,
    (defaulting (.integer 5)).contract .anyOf = .ok c ∧ o ∈ c.operations ∧
      c.validate o (withBody (.object [])) .standard = some outcome ∧
      Checked c.definitions .standard (withBody (.object [])) o.parameters f ∧ f.Omitted ∧
      ∃ rep, f.Raises c.definitions .drop rep ∧ rep.1 ∈ outcome.errors.keys ∧
        Stands f.key rep.1 := by
  obtain ⟨c, o, hc, ho, hposts⟩ := refused_default
  obtain ⟨outcome, f, v, d, h, hf, homitted, hv, hd, hunclean⟩ := posts_checks hposts
  have hrefuses : f.RefusesDefault c.definitions .drop := ⟨v, d, hv, hd, hunclean⟩
  obtain ⟨rep, hrep⟩ := (hf.raises_iff_fails h).mpr (homitted.fails_iff.mpr hrefuses)
  exact ⟨c, o, outcome, f, hc, ho, h, hf, homitted, rep, hrep, hf.errors h hrep⟩

/-- The property that is left out raises nothing. -/
theorem accepted_default_silent : ∃ c o f, (defaulting (.string "5")).contract .anyOf = .ok c ∧
    o ∈ c.operations ∧
    Checked c.definitions .standard (withBody (.object [])) o.parameters f ∧ f.Omitted ∧
      f.default.isSome ∧ ¬ ∃ rep, f.Raises c.definitions .drop rep := by
  obtain ⟨c, o, hc, ho, hposts⟩ := accepted_default
  obtain ⟨outcome, f, v, d, h, hf, homitted, hv, hd, hclean⟩ := posts_checks hposts
  obtain ⟨-, hchecked, -, -⟩ := Contract.omitted_fields h
  refine ⟨c, o, f, hc, ho, hf, homitted, Option.isSome_of_eq_some hv, fun hraises => ?_⟩
  obtain ⟨w, e, hw, he, hunclean⟩ := (hchecked f hf homitted).1.mp hraises
  obtain rfl := Option.some.inj (hv.symm.trans hw)
  rw [hd.unique he, hunclean] at hclean
  cases hclean

end Sample

end RouteContract

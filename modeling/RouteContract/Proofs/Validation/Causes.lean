import RouteContract.Proofs.Coercion.Places
import RouteContract.Proofs.FieldErrors
import RouteContract.Proofs.Validation.Fields
import RouteContract.Proofs.Validation.Steps

/-!
# Who is to blame for an error

Fields are checked: the parameters of an operation, and the properties of every
object that is coerced for them. The errors of an outcome have the keys of what
its parameters are to blame for, and a field that is checked has what it raises
among them. A key is kept once, whoever uses it.
-/

set_option autoImplicit false

namespace RouteContract

namespace Validation

open Coercion (Input Place Hands Gives Complains Arises Stands)

def Raw.input : Raw → Input
  | .texts values delimiter => .texts delimiter values
  | .json v => .json v

structure Field where
  key : String
  name : String
  schema : Schema
  required : Bool
  default : Option Json
  given : Option Input

namespace Field

def input? (f : Field) : Option Input := f.given.or (f.default.map .json)

def ofProperty (fields : List (String × Json)) (path name : String) (p : PropertySchema Schema) :
    Field :=
  ⟨Coercion.child path name, name, p.schema, p.required, p.default,
    (Entries.find? fields name).map .json⟩

theorem ofProperty_input? (fields : List (String × Json)) (path name : String)
    (p : PropertySchema Schema) : (ofProperty fields path name p).input? =
      ((Entries.find? fields name).or p.default).map .json := by
  simp only [input?, ofProperty]
  cases Entries.find? fields name <;> rfl

def ofParameter (settings : ValidationSettings) (r : Request) (p : BoundParameter)
    (schema : Schema) : Field :=
  ⟨p.name, p.name, schema, p.required, p.default, (raw? p r settings).map Raw.input⟩

section

variable (ds : Definitions) (extras : Extras) (f : Field)

inductive Raises : Report → Prop
  | missing (hi : f.input? = none) (hr : f.required) : Raises (f.key, ⟨.missing f.name, none⟩)
  | value {i : Input} {rep : Report} (hi : f.input? = some i)
      (h : Arises ds extras ⟨f.schema, i, f.key⟩ rep) : Raises rep

inductive Fails : Prop
  | missing (hi : f.input? = none) (hr : f.required)
  | value {i : Input} {c : Coerced Typed} (hi : f.input? = some i)
      (hc : Gives ds extras ⟨f.schema, i, f.key⟩ c) (hu : c.isClean = false)

end

section

variable {ds : Definitions} {extras : Extras} {f : Field}

theorem Raises.stands {rep : Report} (h : f.Raises ds extras rep) : Stands f.key rep.1 := by
  cases h with
  | missing => exact .here
  | value _ h => exact h.stands

/-- A field raises something exactly when it fails. -/
theorem raises_iff_fails
    (hgives : ∀ i, f.input? = some i → ∃ c, Gives ds extras ⟨f.schema, i, f.key⟩ c)
    (htexts : ∀ delimiter, f.input? ≠ some (.texts delimiter [])) :
    (∃ rep, f.Raises ds extras rep) ↔ f.Fails ds extras := by
  have honest : ∀ {i c}, f.input? = some i → Gives ds extras ⟨f.schema, i, f.key⟩ c →
      c.Honest := by
    intro i c hi hc
    refine hc.honest fun delimiter he => htexts delimiter ?_
    rw [hi]
    exact congrArg some he
  constructor
  · rintro ⟨rep, hrep⟩
    cases hrep with
    | missing hi hr => exact .missing hi hr
    | value hi h =>
      obtain ⟨c, hc⟩ := hgives _ hi
      have hne : c.reports ≠ [] := List.ne_nil_of_mem (hc.reports_iff.mpr h)
      exact .value hi hc ((honest hi hc).isClean_eq_false_iff.mpr hne)
  · rintro (⟨hi, hr⟩ | ⟨hi, hc, hu⟩)
    · exact ⟨_, .missing hi hr⟩
    · obtain ⟨rep, hrep⟩ :=
        List.exists_mem_of_ne_nil _ ((honest hi hc).isClean_eq_false_iff.mp hu)
      exact ⟨rep, .value hi (hc.reports_iff.mp hrep)⟩

end

end Field

def bodyPlace (parameters : List BoundParameter) (given : List (String × Json)) : Place :=
  ⟨.object (bodyObject parameters), .json (.object given), ""⟩

section

variable (ds : Definitions) (settings : ValidationSettings) (r : Request)
  (parameters : List BoundParameter)

inductive FieldOf (p : BoundParameter) : Field → Prop
  | single {schema : Schema} (hs : p.schema = some schema) (hv : p.source.isValidated)
      (hf : p.source ≠ .field) : FieldOf p (.ofParameter settings r p schema)
  | body {schema : Schema} {given : List (String × Json)} (hs : p.schema = some schema)
      (hf : p.source = .field) (hg : givenFields? r = some given) :
      FieldOf p (.ofProperty given "" p.wire ⟨schema, p.required, p.default, p.description⟩)

inductive Blames (p : BoundParameter) : Report → Prop
  | single {schema : Schema} {rep : Report} (hs : p.schema = some schema)
      (hv : p.source.isValidated) (hf : p.source ≠ .field)
      (h : (Field.ofParameter settings r p schema).Raises ds settings.extras rep) : Blames p rep
  | body {given : List (String × Json)} {rep : Report} (hs : p.schema.isSome)
      (hf : p.source = .field) (hg : givenFields? r = some given)
      (h : Arises ds settings.extras (bodyPlace parameters given) rep) : Blames p rep
  | noObject (hs : p.schema.isSome) (hf : p.source = .field) (hg : givenFields? r = none) :
      Blames p (bodyKey, ⟨.invalid "object", r.body⟩)

inductive Starts : Place → Prop
  | parameter {p : BoundParameter} {schema : Schema} {i : Input} (hp : p ∈ parameters)
      (hs : p.schema = some schema) (hv : p.source.isValidated) (hf : p.source ≠ .field)
      (hi : (Field.ofParameter settings r p schema).input? = some i) : Starts ⟨schema, i, p.name⟩
  | body {p : BoundParameter} {given : List (String × Json)} (hp : p ∈ parameters)
      (hs : p.schema.isSome) (hf : p.source = .field) (hg : givenFields? r = some given) :
      Starts (bodyPlace parameters given)

def Visits (w : Place) : Prop :=
  ∃ u, Starts settings r parameters u ∧ Relation.ReflTransGen (Hands ds) u w

inductive Checked : Field → Prop
  | parameter {p : BoundParameter} {schema : Schema} (hp : p ∈ parameters)
      (hs : p.schema = some schema) (hv : p.source.isValidated) (hf : p.source ≠ .field) :
      Checked (.ofParameter settings r p schema)
  | property {s : Schema} {o : ObjectSchema Schema} {fields : List (String × Json)}
      {path name : String} {p : PropertySchema Schema}
      (hw : Visits ds settings r parameters ⟨s, .json (.object fields), path⟩)
      (hd : Coercion.deref ds Coercion.maxHops s = .ok (.object o))
      (hp : (name, p) ∈ o.properties) : Checked (.ofProperty fields path name p)

structure Accounted (done : List BoundParameter) (st : Progress) : Prop where
  reports : ∀ rep, rep ∈ st.reports ↔ ∃ p ∈ done, Blames ds settings r parameters p rep
  fields : st.fields?.isSome ↔ ∃ p ∈ done, p.source = .field ∧ p.schema.isSome
  single : ∀ p ∈ done, ∀ schema, p.schema = some schema → p.source.isValidated →
    p.source ≠ .field → ∃ c, parameter ds settings r p schema = some c
  body : st.fields?.isSome → ∃ x, bodyFields ds settings r parameters = some x

end

section

variable {ds : Definitions} {settings : ValidationSettings} {r : Request}
  {parameters : List BoundParameter}

theorem Blames.taken {p : BoundParameter} {rep : Report}
    (h : Blames ds settings r parameters p rep) : p.schema.isSome ∧ p.source.isValidated := by
  cases h with
  | single hs hv => exact ⟨Option.isSome_of_eq_some hs, hv⟩
  | body hs hf => exact ⟨hs, by rw [hf]; rfl⟩
  | noObject hs hf => exact ⟨hs, by rw [hf]; rfl⟩

theorem parameter_gives {p : BoundParameter} {schema : Schema} {c : Coerced Typed}
    (h : parameter ds settings r p schema = some c) {i : Input}
    (hi : (Field.ofParameter settings r p schema).input? = some i) :
    Gives ds settings.extras ⟨schema, i, p.name⟩ c := by
  unfold parameter at h
  simp only [Field.input?, Field.ofParameter] at hi
  cases hraw : raw? p r settings with
  | some raw =>
    rw [hraw] at h hi
    cases raw with
    | texts values delimiter =>
      cases hi
      exact ⟨_, _, h⟩
    | json v =>
      cases hi
      exact ⟨_, h⟩
  | none =>
    rw [hraw] at h hi
    cases hd : p.default with
    | some v =>
      rw [hd] at h hi
      cases hi
      exact ⟨_, h⟩
    | none =>
      rw [hd] at hi
      cases hi

theorem parameter_absent {p : BoundParameter} {schema : Schema} {c : Coerced Typed}
    (h : parameter ds settings r p schema = some c)
    (hi : (Field.ofParameter settings r p schema).input? = none) :
    c = ⟨none, if p.required then [(p.name, ⟨.missing p.name, none⟩)] else []⟩ := by
  unfold parameter at h
  simp only [Field.input?, Field.ofParameter, Option.or_eq_none_iff, Option.map_eq_none_iff] at hi
  rw [hi.1, hi.2] at h
  exact (Option.some.inj h).symm

theorem single_reports_iff {p : BoundParameter} {schema : Schema} {c : Coerced Typed}
    (h : parameter ds settings r p schema = some c) {rep : Report} :
    rep ∈ c.reports ↔ (Field.ofParameter settings r p schema).Raises ds settings.extras rep := by
  cases hi : (Field.ofParameter settings r p schema).input? with
  | some i =>
    rw [(parameter_gives h hi).reports_iff]
    constructor
    · exact fun hrep => .value hi hrep
    · intro hrep
      cases hrep with
      | missing hn => rw [hi] at hn; cases hn
      | value hi' hrep =>
        rw [hi] at hi'
        cases hi'
        exact hrep
  | none =>
    rw [parameter_absent h hi]
    constructor
    · intro hrep
      cases hr : p.required with
      | false => simp [hr] at hrep
      | true =>
        obtain rfl : rep = (p.name, ⟨.missing p.name, none⟩) := by simpa [hr] using hrep
        exact .missing hi hr
    · intro hrep
      cases hrep with
      | missing _ hr =>
        have hr' : p.required = true := hr
        rw [if_pos hr']
        exact List.mem_singleton_self _
      | value hi' => rw [hi] at hi'; cases hi'

/-- The fields of an object are coerced as the object is. -/
theorem gives_of_fields {extras : Extras} {o : ObjectSchema Schema} {given : List (String × Json)}
    {path : String} {entries : List (String × Typed)} {reports : List Report}
    (h : Coercion.fields ds extras o given path = some (entries, reports)) :
    ∃ c, Gives ds extras ⟨.object o, .json (.object given), path⟩ c ∧ c.reports = reports := by
  simp only [Coercion.fields, bind, pure, Option.bind_eq_some_iff, Option.some.injEq,
    Prod.mk.injEq] at h
  obtain ⟨ps, hps, -, hreports⟩ := h
  refine ⟨(Coerced.sequence ps).map fun es => .object (es.filterMap id),
    ⟨Coercion.budget ds (.object o) (.object given) + 1, ?_⟩, hreports⟩
  simp only [Coercion.jsonWithin, Coercion.through, Coercion.deref, Coercion.maxHops,
    Coercion.jsonStep, Coercion.object, hps, bind, pure, Option.bind_some]

theorem body_reports_iff {p : BoundParameter} (hs : p.schema.isSome) (hf : p.source = .field)
    {entries : Entries String Typed} {reports : List Report}
    (h : bodyFields ds settings r parameters = some (entries, reports)) {rep : Report} :
    rep ∈ reports ↔ Blames ds settings r parameters p rep := by
  rw [bodyFields_eq] at h
  cases hg : givenFields? r with
  | some given =>
    rw [hg] at h
    obtain ⟨c, hc, rfl⟩ := gives_of_fields h
    rw [hc.reports_iff]
    constructor
    · exact fun hrep => .body hs hf hg hrep
    · intro hrep
      cases hrep with
      | single _ _ hf' => exact absurd hf hf'
      | body _ _ hg' hrep =>
        rw [hg] at hg'
        cases hg'
        exact hrep
      | noObject _ _ hg' => rw [hg] at hg'; cases hg'
  | none =>
    rw [hg] at h
    cases h
    constructor
    · intro hrep
      rw [List.mem_singleton.mp hrep]
      exact .noObject hs hf hg
    · intro hrep
      cases hrep with
      | single _ _ hf' => exact absurd hf hf'
      | body _ _ hg' => rw [hg] at hg'; cases hg'
      | noObject => exact List.mem_singleton_self _

theorem exists_mem_concat {α : Type} {P : α → Prop} {xs : List α} {x : α} :
    (∃ y ∈ xs ++ [x], P y) ↔ (∃ y ∈ xs, P y) ∨ P x := by
  simp [or_and_right, exists_or]

theorem forall_mem_concat {α : Type} {P : α → Prop} {xs : List α} {x : α} :
    (∀ y ∈ xs ++ [x], P y) ↔ (∀ y ∈ xs, P y) ∧ P x := by
  simp [or_imp, forall_and]

theorem Accounted.start : Accounted ds settings r parameters [] .start where
  reports := by simp [Progress.start]
  fields := by simp [Progress.start]
  single := by simp
  body := nofun

/-- A parameter adds what it is to blame for; another body field adds nothing. -/
theorem Accounted.add {done : List BoundParameter} {st st' : Progress} {p : BoundParameter}
    (hst : Accounted ds settings r parameters done st)
    (h : addParameter ds settings r parameters st p = some st') :
    Accounted ds settings r parameters (done ++ [p]) st' := by
  cases step_of_addParameter h with
  | pass hp =>
    have hpassed : ¬ (p.schema.isSome ∧ p.source.isValidated) := by
      rintro ⟨hs, hv⟩
      rcases hp with hp | hp
      · simp [hp] at hs
      · simp [hp] at hv
    refine ⟨fun rep => ?_, ?_, forall_mem_concat.mpr ⟨hst.single, ?_⟩, hst.body⟩
    · rw [exists_mem_concat, hst.reports, or_iff_left fun hrep => hpassed hrep.taken]
    · rw [exists_mem_concat, hst.fields, or_iff_left]
      rintro ⟨hf, hs⟩
      exact hpassed ⟨hs, by rw [hf]; rfl⟩
    · exact fun schema hs hv _ => absurd ⟨Option.isSome_of_eq_some hs, hv⟩ hpassed
  | @field schema fields reports hs hf hrem =>
    have hs' : p.schema.isSome := Option.isSome_of_eq_some hs
    refine ⟨fun rep => ?_, ?_, forall_mem_concat.mpr ⟨hst.single, ?_⟩, fun _ => ?_⟩
    · rw [exists_mem_concat, List.mem_append, hst.reports]
      unfold remaining at hrem
      cases hfields : st.fields? with
      | none =>
        rw [hfields] at hrem
        rw [body_reports_iff hs' hf hrem]
      | some fields' =>
        rw [hfields] at hrem
        cases hrem
        obtain ⟨q, hq, hqf, hqs⟩ := hst.fields.mp (Option.isSome_of_eq_some hfields)
        obtain ⟨⟨entries, reports⟩, hbody⟩ := hst.body (Option.isSome_of_eq_some hfields)
        simp only [List.not_mem_nil, or_false, iff_self_or]
        intro hrep
        have hreported := (body_reports_iff hs' hf hbody).mpr hrep
        exact ⟨q, hq, (body_reports_iff hqs hqf hbody).mp hreported⟩
    · rw [exists_mem_concat]
      exact iff_of_true rfl (.inr ⟨hf, hs'⟩)
    · exact fun _ _ _ hne => absurd hf hne
    · unfold remaining at hrem
      cases hfields : st.fields? with
      | none => exact ⟨_, by simpa only [hfields] using hrem⟩
      | some fields' => exact hst.body (Option.isSome_of_eq_some hfields)
  | @single schema c hs hv hf hc =>
    refine ⟨fun rep => ?_, ?_, forall_mem_concat.mpr ⟨hst.single, ?_⟩, hst.body⟩
    · rw [exists_mem_concat, List.mem_append, hst.reports, single_reports_iff hc]
      refine or_congr Iff.rfl ⟨.single hs hv hf, fun hrep => ?_⟩
      cases hrep with
      | single hs' _ _ hrep =>
        rw [hs] at hs'
        cases hs'
        exact hrep
      | body _ hf' => exact absurd hf' hf
      | noObject _ hf' => exact absurd hf' hf
    · rw [exists_mem_concat, hst.fields, or_iff_left fun hp => hf hp.1]
    · intro schema' hs' _ _
      rw [hs] at hs'
      cases hs'
      exact ⟨c, hc⟩

theorem accounted_of_run {outcome : Outcome} (h : run parameters r ds settings = some outcome) :
    ∃ st, Accounted ds settings r parameters parameters st ∧ st.args = outcome.args ∧
      outcome.errors = FieldErrors.addAll [] st.reports := by
  simp only [run, bind, pure, Option.bind_eq_some_iff, Option.some.injEq] at h
  obtain ⟨st, hst, rfl⟩ := h
  have haccounted := foldlM_carries hst Accounted.start fun _ _ _ _ _ hdone => hdone.add
  exact ⟨st, haccounted, rfl, rfl⟩

/-- The keys of the errors are those of what the parameters are to blame for. -/
theorem mem_errors_iff {outcome : Outcome} (h : run parameters r ds settings = some outcome)
    {key : String} : key ∈ outcome.errors.keys ↔
      ∃ p ∈ parameters, ∃ e, Blames ds settings r parameters p (key, e) := by
  obtain ⟨st, hst, -, herrors⟩ := accounted_of_run h
  rw [herrors, FieldErrors.mem_keys_addAll]
  simp only [Entries.keys, List.map_nil, List.not_mem_nil, false_or, hst.reports]
  constructor
  · rintro ⟨e, p, hp, hblames⟩
    exact ⟨p, hp, e, hblames⟩
  · rintro ⟨p, hp, e, hblames⟩
    exact ⟨e, p, hp, hblames⟩

theorem Starts.gives {outcome : Outcome} (h : run parameters r ds settings = some outcome)
    {w : Place} (hw : Starts settings r parameters w) : ∃ c, Gives ds settings.extras w c := by
  obtain ⟨st, hst, -, -⟩ := accounted_of_run h
  cases hw with
  | parameter hp hs hv hf hi =>
    obtain ⟨c, hc⟩ := hst.single _ hp _ hs hv hf
    exact ⟨c, parameter_gives hc hi⟩
  | body hp hs hf hg =>
    obtain ⟨⟨entries, reports⟩, hbody⟩ := hst.body (hst.fields.mpr ⟨_, hp, hf, hs⟩)
    rw [bodyFields_eq, hg] at hbody
    obtain ⟨c, hc, -⟩ := gives_of_fields hbody
    exact ⟨c, hc⟩

/-- Where a run ends, so does the coercion at every place that it visits. -/
theorem Visits.gives {outcome : Outcome} (h : run parameters r ds settings = some outcome)
    {w : Place} (hw : Visits ds settings r parameters w) : ∃ c, Gives ds settings.extras w c := by
  obtain ⟨u, hu, huw⟩ := hw
  obtain ⟨c, hc⟩ := hu.gives h
  exact hc.reached huw

theorem Visits.hands {w u : Place} (hw : Visits ds settings r parameters w) (h : Hands ds w u) :
    Visits ds settings r parameters u := by
  obtain ⟨x, hx, hxw⟩ := hw
  exact ⟨x, hx, hxw.tail h⟩

/-- What a visited place complains of is blamed on a parameter. -/
theorem Visits.blamed {w : Place} (hw : Visits ds settings r parameters w) {rep : Report}
    (h : Complains ds settings.extras w rep) :
    ∃ p ∈ parameters, Blames ds settings r parameters p rep := by
  obtain ⟨u, hu, huw⟩ := hw
  cases hu with
  | parameter hp hs hv hf hi => exact ⟨_, hp, .single hs hv hf (.value hi ⟨w, huw, h⟩)⟩
  | body hp hs hf hg => exact ⟨_, hp, .body hs hf hg ⟨w, huw, h⟩⟩

theorem Visits.arisen {w : Place} (hw : Visits ds settings r parameters w) {rep : Report}
    (h : Arises ds settings.extras w rep) :
    ∃ p ∈ parameters, Blames ds settings r parameters p rep := by
  obtain ⟨u, hwu, hu⟩ := h
  obtain ⟨x, hx, hxw⟩ := hw
  have hvisits : Visits ds settings r parameters u := ⟨x, hx, hxw.trans hwu⟩
  exact hvisits.blamed hu

/-- The value or default of a property of a visited object is visited. -/
theorem Visits.property {s : Schema} {o : ObjectSchema Schema} {fields : List (String × Json)}
    {path name : String} {p : PropertySchema Schema}
    (hw : Visits ds settings r parameters ⟨s, .json (.object fields), path⟩)
    (hd : Coercion.deref ds Coercion.maxHops s = .ok (.object o)) (hp : (name, p) ∈ o.properties)
    {i : Input} (hi : (Field.ofProperty fields path name p).input? = some i) :
    Visits ds settings r parameters ⟨p.schema, i, Coercion.child path name⟩ := by
  rw [Field.ofProperty_input?] at hi
  obtain ⟨v, hv, rfl⟩ := Option.map_eq_some_iff.mp hi
  exact hw.hands (.property hd hp hv)

theorem Checked.visits {f : Field} (hf : Checked ds settings r parameters f) {i : Input}
    (hi : f.input? = some i) : Visits ds settings r parameters ⟨f.schema, i, f.key⟩ := by
  cases hf with
  | parameter hp hs hv hf => exact ⟨_, .parameter hp hs hv hf hi, .refl⟩
  | property hw hd hp => exact hw.property hd hp hi

/-- A parameter is checked as its field, unless a later body field has its wire name. -/
theorem FieldOf.checked {p : BoundParameter} {f : Field} (h : FieldOf settings r p f)
    (hp : p ∈ parameters) (hlast : p.source = .field → LastField parameters p.wire p) :
    Checked ds settings r parameters f := by
  cases h with
  | single hs hv hf => exact .parameter hp hs hv hf
  | body hs hf hg =>
    have hproperty := Entries.mem_of_find? (bodyObject_find? (hlast hf) hs)
    exact .property ⟨_, .body hp (Option.isSome_of_eq_some hs) hf hg, .refl⟩ rfl hproperty

/-- What a checked field raises is blamed on a parameter. -/
theorem Checked.blamed {f : Field} (hf : Checked ds settings r parameters f) {rep : Report}
    (h : f.Raises ds settings.extras rep) :
    ∃ p ∈ parameters, Blames ds settings r parameters p rep := by
  cases h with
  | value hi harises => exact (hf.visits hi).arisen harises
  | missing hi hr =>
    cases hf with
    | parameter hp hs hv hf => exact ⟨_, hp, .single hs hv hf (.missing hi hr)⟩
    | @property s o fields path name p hw hd hp =>
      rw [Field.ofProperty_input?] at hi
      exact hw.blamed (.missing hd hp (Option.map_eq_none_iff.mp hi) hr)

/-- What a checked field raises is an error, at the key of the field or below. -/
theorem Checked.errors {outcome : Outcome} (h : run parameters r ds settings = some outcome)
    {f : Field} (hf : Checked ds settings r parameters f) {rep : Report}
    (hrep : f.Raises ds settings.extras rep) :
    rep.1 ∈ outcome.errors.keys ∧ Stands f.key rep.1 := by
  obtain ⟨p, hp, hblames⟩ := hf.blamed hrep
  exact ⟨(mem_errors_iff h).mpr ⟨p, hp, rep.2, hblames⟩, hrep.stands⟩

theorem Checked.texts {f : Field} (hf : Checked ds settings r parameters f)
    (delimiter : Option Char) : f.input? ≠ some (.texts delimiter []) := by
  cases hf with
  | @parameter p schema hp hs hv hf =>
    simp only [Field.input?, Field.ofParameter]
    cases hraw : raw? p r settings with
    | none => cases p.default <;> simp
    | some raw =>
      cases raw with
      | texts values d =>
        have hne := raw?_ne_nil hraw
        simp [Raw.input, hne]
      | json v => simp [Raw.input]
  | @property s o fields path name p hw hd hp =>
    rw [Field.ofProperty_input?]
    simp

/-- A checked field that fails is the cause of an error. -/
theorem Checked.raises_iff_fails {outcome : Outcome}
    (h : run parameters r ds settings = some outcome) {f : Field}
    (hf : Checked ds settings r parameters f) :
    (∃ rep, f.Raises ds settings.extras rep) ↔ f.Fails ds settings.extras :=
  Field.raises_iff_fails (fun _ hi => (hf.visits hi).gives h) hf.texts

end

end Validation

end RouteContract

import Mathlib.Data.List.Nodup
import RouteContract.Proofs.Validation.Arguments

/-!
# Bodies

The body fields of an operation are coerced as the object that its contract shows
for them, and its values are handed out in the order of the parameters. A whole
body is coerced against the schema of its parameter, but for null, which stands
for no body. Wire names and names may repeat where nothing else is said.
-/

set_option autoImplicit false

namespace RouteContract

def Operation.fieldParameters (o : Operation) : List BoundParameter :=
  o.parameters.filter (·.source = .field)

theorem Operation.bodyObject_fieldParameters (o : Operation) :
    bodyObject o.fieldParameters = bodyObject o.parameters :=
  bodyObject_filter (fun p hp => by simpa using hp) o.parameters

theorem Operation.fieldParameters_described (o : Operation)
    (h : ∀ p ∈ o.parameters, p.Described) :
    ∀ p ∈ o.fieldParameters, p.source = .field ∧ p.schema.isSome := by
  intro p hp
  obtain ⟨hmem, hsource⟩ := List.mem_filter.mp hp
  have hsource : p.source = .field := by simpa using hsource
  exact ⟨hsource, h p hmem (by simp [hsource, Source.isValidated])⟩

namespace Entries

variable {κ α : Type} [DecidableEq κ]

theorem find?_of_erase {t : Entries κ α} {key k : κ} {a : α} (hcount : t.keys.count k ≤ 1)
    (h : (t.erase key).find? k = some a) : t.find? k = some a := by
  by_cases hk : key = k
  · subst hk
    rw [find?_erase_self hcount] at h
    cases h
  · rwa [find?_erase_ne hk] at h

end Entries

namespace Validation

def handOut : List BoundParameter → Entries String Typed → Entries String Typed →
    Entries String Typed
  | [], _, args => args
  | p :: ps, fields, args =>
    handOut ps (fields.erase p.wire) (addArg args p.name (fields.find? p.wire))

section

variable {p : BoundParameter} {ps : List BoundParameter} {fields args : Entries String Typed}

theorem find?_handOut_ne {name : String} (h : name ∉ ps.map (·.name)) :
    (handOut ps fields args).find? name = args.find? name := by
  induction ps generalizing fields args with
  | nil => rfl
  | cons q ps ih =>
    rw [List.map_cons, List.mem_cons, not_or] at h
    exact (ih h.2).trans (find?_addArg_ne args (Ne.symm h.1) _)

/-- An argument is the value of a parameter of its name, or it was there before. -/
theorem handOut_origin (hcount : ∀ p ∈ ps, fields.keys.count p.wire ≤ 1) {name : String}
    {t : Typed} (h : (handOut ps fields args).find? name = some t) :
    args.find? name = some t ∨ ∃ p ∈ ps, p.name = name ∧ fields.find? p.wire = some t := by
  induction ps generalizing fields args with
  | nil => exact .inl h
  | cons q ps ih =>
    have hrest : ∀ p ∈ ps, (fields.erase q.wire).keys.count p.wire ≤ 1 := fun p hp =>
      (Entries.count_erase_le fields q.wire p.wire).trans (hcount p (List.mem_cons_of_mem q hp))
    rcases ih hrest h with hargs | ⟨p, hp, hname, hvalue⟩
    · -- The argument was there after `q`: either it is the one of `q`, or it was there before.
      by_cases hname : q.name = name
      · subst hname
        cases hq : fields.find? q.wire with
        | none => exact .inl (by rwa [hq] at hargs)
        | some u =>
          rw [hq, addArg, Entries.find?_insert, if_pos rfl] at hargs
          exact .inr ⟨q, List.mem_cons_self, rfl, hq.trans hargs⟩
      · exact .inl (by rwa [find?_addArg_ne args hname] at hargs)
    · have hmem := List.mem_cons_of_mem q hp
      exact .inr ⟨p, hmem, hname, Entries.find?_of_erase (hcount p hmem) hvalue⟩

/-- A parameter with a wire name and a name of its own gets the value of this wire name. -/
theorem handOut_own (hnames : (ps.map (·.name)).Nodup)
    (hargs : ∀ p ∈ ps, args.find? p.name = none) (hp : p ∈ ps)
    (hwire : ∀ q ∈ ps, q.wire = p.wire → q = p) :
    (handOut ps fields args).find? p.name = fields.find? p.wire := by
  -- The parameters that are left have no arguments yet, and nothing has been taken from `p`.
  induction ps generalizing fields args with
  | nil => cases hp
  | cons q ps ih =>
    rw [List.map_cons, List.nodup_cons] at hnames
    rcases List.mem_cons.mp hp with rfl | hp
    · exact (find?_handOut_ne hnames.1).trans (find?_addArg_self _ (hargs p List.mem_cons_self))
    · have hother : ∀ p' ∈ ps, q.name ≠ p'.name := fun p' hp' he =>
        hnames.1 (he ▸ List.mem_map_of_mem hp')
      have hne : q.wire ≠ p.wire := fun he =>
        hother p hp (congrArg _ (hwire q List.mem_cons_self he))
      have hfree : ∀ p' ∈ ps, (addArg args q.name (fields.find? q.wire)).find? p'.name = none := by
        intro p' hp'
        rw [find?_addArg_ne args (hother p' hp')]
        exact hargs p' (List.mem_cons_of_mem q hp')
      exact (ih hnames.2 hfree hp fun p' hp' => hwire p' (List.mem_cons_of_mem q hp')).trans
        (Entries.find?_erase_ne hne)

end

/-- The arguments are values of coerced fields, each under the wire name of a parameter of its name.
Where names do not repeat, a parameter has no other argument than the value of its wire name, and it
has this one unless it shares the wire name. -/
structure HandsOut (ps : List BoundParameter) (fields args : Entries String Typed) : Prop where
  origin : ∀ name t, args.find? name = some t →
    ∃ p ∈ ps, p.name = name ∧ fields.find? p.wire = some t
  value : (ps.map (·.name)).Nodup → ∀ p ∈ ps, ∀ t, args.find? p.name = some t →
    fields.find? p.wire = some t
  own : (ps.map (·.name)).Nodup → ∀ p ∈ ps, (∀ q ∈ ps, q.wire = p.wire → q = p) →
    args.find? p.name = fields.find? p.wire

theorem handsOut {ps : List BoundParameter} {fields : Entries String Typed}
    (hcount : ∀ p ∈ ps, fields.keys.count p.wire ≤ 1) :
    HandsOut ps fields (handOut ps fields []) := by
  have horigin : ∀ name t, (handOut ps fields []).find? name = some t →
      ∃ p ∈ ps, p.name = name ∧ fields.find? p.wire = some t := fun name t h =>
    (handOut_origin hcount h).resolve_left (by simp)
  refine ⟨horigin, fun hnames p hp t ht => ?_, fun hnames p hp hwire => ?_⟩
  · obtain ⟨q, hq, hname, hvalue⟩ := horigin _ _ ht
    obtain rfl : q = p := List.inj_on_of_nodup_map hnames hq hp hname
    exact hvalue
  · exact handOut_own hnames (fun _ _ => rfl) hp hwire

section

variable {ds : Definitions} {settings : ValidationSettings} {r : Request}
  {parameters : List BoundParameter}

/-- A body field that is described takes part of what remains of the body. -/
theorem addParameter_field {p : BoundParameter} (hs : p.schema.isSome) (hf : p.source = .field)
    (st : Progress) : addParameter ds settings r parameters st p =
      (remaining ds settings r parameters st).map fun x =>
        ⟨addArg st.args p.name (x.1.find? p.wire), st.reports ++ x.2, some (x.1.erase p.wire)⟩ := by
  obtain ⟨schema, hs⟩ := Option.isSome_iff_exists.mp hs
  unfold addParameter addField remaining
  simp only [hs, hf]
  cases st.fields? with
  | none => simp [Source.isValidated, Option.map_eq_bind]
  | some fields => simp [Source.isValidated]

theorem foldlM_handOut {ps : List BoundParameter}
    (hps : ∀ p ∈ ps, p.source = .field ∧ p.schema.isSome) {st : Progress}
    {fields : Entries String Typed} (hst : st.fields? = some fields) :
    ∃ left, ps.foldlM (addParameter ds settings r parameters) st =
      some ⟨handOut ps fields st.args, st.reports, some left⟩ := by
  induction ps generalizing st fields with
  | nil => exact ⟨fields, by simp [handOut, ← hst]⟩
  | cons p ps ih =>
    obtain ⟨hf, hs⟩ := hps p List.mem_cons_self
    rw [List.foldlM_cons, addParameter_field hs hf]
    simp only [remaining, hst, Option.map_some, List.append_nil]
    exact ih (fun q hq => hps q (List.mem_cons_of_mem p hq)) rfl

/-- A run on one parameter that is no body field coerces it on its own. -/
theorem run_single {p : BoundParameter} {schema : Schema} (hs : p.schema = some schema)
    (hv : p.source.isValidated) (hf : p.source ≠ .field) :
    run [p] r ds settings = (parameter ds settings r p schema).map fun c =>
      ⟨addArg [] p.name c.value?, FieldErrors.addAll [] c.reports⟩ := by
  unfold run
  rw [List.foldlM_cons]
  simp only [addParameter, hs, hv, hf, Bool.not_true, Bool.false_eq_true, if_false]
  cases parameter ds settings r p schema with
  | none => rfl
  | some c => rfl

/-- The raw value of a whole body, unless it is null. -/
theorem raw?_body {p : BoundParameter} (hp : p.source = .body) {v : Json}
    (hr : r.body = some v) : raw? p r settings = if v.isNull then none else some (.json v) := by
  unfold raw?
  rw [hp, hr]
  cases hv : v.isNull <;> simp [Option.filter, hv]

/-- A wire name of a body field stands at most once among the coerced fields. -/
theorem count_wire_le {ps : List BoundParameter}
    (hps : ∀ p ∈ ps, p.source = .field ∧ p.schema.isSome) {given : List (String × Json)}
    {fields : Entries String Typed} {reports : List Report}
    (h : Coercion.fields ds settings.extras (bodyObject ps) given "" = some (fields, reports)) :
    ∀ p ∈ ps, fields.keys.count p.wire ≤ 1 := by
  intro p hp
  obtain ⟨last, hlast⟩ := exists_lastField (mem_fieldWires.mpr ⟨p, hp, (hps p hp).1, rfl⟩)
  have hmem : last ∈ ps := by
    obtain ⟨before, after, he, -⟩ := hlast
    simp [he]
  obtain ⟨schema, hs⟩ := Option.isSome_iff_exists.mp (hps last hmem).2
  exact (Coercion.fields_entry (bodyObject_nodup ps) h (bodyObject_find? hlast hs)).1

/-- A run on body fields alone coerces the body once and hands the values out. -/
theorem run_fields {ps : List BoundParameter} (hne : ps ≠ [])
    (hps : ∀ p ∈ ps, p.source = .field ∧ p.schema.isSome) :
    run ps r ds settings = (bodyFields ds settings r ps).map fun x =>
      ⟨handOut ps x.1 [], FieldErrors.addAll [] x.2⟩ := by
  obtain ⟨p, rest, rfl⟩ := List.exists_cons_of_ne_nil hne
  obtain ⟨hf, hs⟩ := hps p List.mem_cons_self
  unfold run
  rw [List.foldlM_cons, addParameter_field hs hf]
  cases hbody : bodyFields ds settings r (p :: rest) with
  | none => simp [remaining, Progress.start, hbody]
  | some x =>
    obtain ⟨left, hrest⟩ : ∃ left, rest.foldlM (addParameter ds settings r (p :: rest))
        ⟨addArg [] p.name (x.1.find? p.wire), x.2, some (x.1.erase p.wire)⟩ =
          some ⟨handOut (p :: rest) x.1 [], x.2, some left⟩ :=
      foldlM_handOut (fun q hq => hps q (List.mem_cons_of_mem p hq)) rfl
    simp [remaining, Progress.start, hbody, hrest]

end

end Validation

open Validation

/-- As far as the body fields of an operation go, a body that is an object is checked against the
object that the contract shows for them: with the same end, the same errors, and its values as
arguments. -/
theorem Contract.implicit_body_enforced {g : Graph} {combination : Combination} {c : Contract}
    (h : g.contract combination = .ok c) {o : Operation} (ho : o ∈ c.operations)
    {object : ObjectSchema Schema} (hobject : o.implicitBody = some object) {r : Request}
    {given : List (String × Json)} (hr : r.body = some (.object given))
    (settings : ValidationSettings) :
    (run o.fieldParameters r c.definitions settings = none ↔
      Coercion.fields c.definitions settings.extras object given "" = none) ∧
    ∀ fields reports,
      Coercion.fields c.definitions settings.extras object given "" = some (fields, reports) →
      ∃ args, run o.fieldParameters r c.definitions settings =
          some ⟨args, FieldErrors.addAll [] reports⟩ ∧
        HandsOut o.fieldParameters fields args := by
  obtain ⟨hdescribed, hbody⟩ := Graph.contract_operation h ho
  obtain ⟨rfl, hproperties⟩ := hbody object hobject
  rw [← o.bodyObject_fieldParameters] at hproperties ⊢
  have hps := o.fieldParameters_described hdescribed
  have hne : o.fieldParameters ≠ [] := by
    intro hnil
    rw [hnil] at hproperties
    exact hproperties rfl
  have hrun : run o.fieldParameters r c.definitions settings =
      (Coercion.fields c.definitions settings.extras (bodyObject o.fieldParameters) given "").map
        fun x => ⟨handOut o.fieldParameters x.1 [], FieldErrors.addAll [] x.2⟩ := by
    rw [run_fields hne hps, bodyFields_eq, givenFields?, hr]
  refine ⟨by rw [hrun, Option.map_eq_none_iff], fun fields reports hf => ?_⟩
  exact ⟨handOut o.fieldParameters fields [], by rw [hrun, hf]; rfl,
    handsOut (count_wire_le hps hf)⟩

/-- A required body without a default is accepted as its schema accepts it, unless it is null. A
null body is missing, whatever the schema says of null. -/
theorem Validation.whole_body_accepted {ds : Definitions} {settings : ValidationSettings}
    {r : Request} {p : BoundParameter} {schema : Schema} {v : Json} {c : Coerced Typed}
    (hp : p.source = .body) (hs : p.schema = some schema) (hrequired : p.required)
    (hdefault : p.default = none) (hr : r.body = some v)
    (hc : Coercion.json ds settings.extras schema v p.name = some c) :
    ∃ outcome, run [p] r ds settings = some outcome ∧
      (outcome.errors = [] ↔ v ≠ .null ∧ c.value?.isSome) ∧
      (v ≠ .null → outcome.errors = FieldErrors.addAll [] c.reports ∧
        ∀ t, c.value? = some t → outcome.args = [(p.name, t)]) ∧
      (v = .null → outcome = ⟨[], [(p.name, ⟨.missing p.name, none⟩)]⟩) := by
  have hrun : run [p] r ds settings = (parameter ds settings r p schema).map fun c =>
      ⟨addArg [] p.name c.value?, FieldErrors.addAll [] c.reports⟩ :=
    run_single hs (by simp [hp, Source.isValidated]) (by simp [hp])
  by_cases hv : v = .null
  · subst hv
    have hmissing : parameter ds settings r p schema =
        some ⟨none, [(p.name, ⟨.missing p.name, none⟩)]⟩ := by
      simp [parameter, raw?_body hp hr, Json.isNull, hdefault, hrequired]
    rw [hmissing] at hrun
    refine ⟨_, hrun, ?_, fun h => absurd rfl h, fun _ => rfl⟩
    simp [FieldErrors.addAll_eq_nil_iff]
  · have hraw : v.isNull = false := by
      cases v with
      | null => exact absurd rfl hv
      | _ => rfl
    have hcoerced : parameter ds settings r p schema = some c := by
      simp [parameter, raw?_body hp hr, hraw, hc]
    rw [hcoerced] at hrun
    refine ⟨⟨addArg [] p.name c.value?, FieldErrors.addAll [] c.reports⟩, hrun, ?_,
      fun _ => ⟨rfl, fun t ht => ?_⟩, fun h => absurd h hv⟩
    · have hclean : c.value?.isSome ↔ c.reports = [] := (Coercion.json_honest hc).isSome_iff
      rw [FieldErrors.addAll_eq_nil_iff, ← hclean]
      exact ⟨fun h => ⟨hv, h⟩, fun h => h.2⟩
    · rw [ht]
      rfl

namespace Sample

def greetings : List (String × Json) := [("x", .string "hi"), ("y", .string "you")]

def greeted? (c : Contract) (o : Operation) : Option (Entries String Typed × List Report) :=
  o.implicitBody.bind fun object =>
    Coercion.fields c.definitions ValidationSettings.standard.extras object greetings ""

theorem exists_greeted (check : Entries String Typed → Bool) {c : Contract} {o : Operation}
    (h : (greeted? c o).any fun x => x.2.isEmpty && check x.1) : ∃ object fields,
      o.implicitBody = some object ∧ Coercion.fields c.definitions
        ValidationSettings.standard.extras object greetings "" = some (fields, []) ∧
      check fields := by
  obtain ⟨⟨fields, reports⟩, hgreeted, hclean⟩ := (Option.any_eq_true _ _).mp h
  obtain ⟨hempty, hcheck⟩ := Bool.and_eq_true_iff.mp hclean
  obtain rfl : reports = [] := by simpa using hempty
  obtain ⟨object, hobject, hfields⟩ := Option.bind_eq_some_iff.mp hgreeted
  exact ⟨object, fields, hobject, hfields, hcheck⟩

def apart (o : Operation) : Bool :=
  (o.fieldParameters.map (·.name)).Nodup ∧ (o.fieldParameters.map (·.wire)).Nodup

/-- Each of the two fields of the greeting is the argument of its parameter. -/
theorem greeting_handed_out :
    ∃ c o object fields args, (twoFields "x" "y").contract .anyOf = .ok c ∧ o ∈ c.operations ∧
      o.implicitBody = some object ∧ Coercion.fields c.definitions
        ValidationSettings.standard.extras object greetings "" = some (fields, []) ∧
      run o.fieldParameters greeting c.definitions .standard = some ⟨args, []⟩ ∧
      ∀ p ∈ o.fieldParameters, args.find? p.name = Entries.find? fields p.wire := by
  have hcheck : ∃ c o, (twoFields "x" "y").contract .anyOf = .ok c ∧ o ∈ c.operations ∧
      ((greeted? c o).any fun x => x.2.isEmpty && apart o) = true :=
    exists_operation (by decide +kernel)
  obtain ⟨c, o, hc, ho, h⟩ := hcheck
  obtain ⟨object, fields, hobject, hfields, h⟩ := exists_greeted (fun _ => apart o) h
  obtain ⟨hnames, hwires⟩ := of_decide_eq_true h
  obtain ⟨-, hends⟩ := Contract.implicit_body_enforced (r := greeting) hc ho hobject rfl .standard
  obtain ⟨args, hrun, hout⟩ := hends fields [] hfields
  exact ⟨c, o, object, fields, args, hc, ho, hobject, hfields, hrun, fun p hp =>
    hout.own hnames p hp fun q hq => List.inj_on_of_nodup_map hwires hq hp⟩

def namesakes : Graph where
  declarations := []
  controllers := [posting [parameter "a" (.keyword .string) (.bodyProp (some "x")),
    parameter "a" (.keyword .string) (.bodyProp (some "y"))]]

def misled (c : Contract) (o : Operation) (fields : Entries String Typed) : Bool :=
  (run o.fieldParameters greeting c.definitions .standard).any fun outcome =>
    o.fieldParameters.any fun p => (fields.find? p.wire).bind Typed.string? = some "hi" &&
      (outcome.args.find? p.name).bind Typed.string? = some "you"

/-- Of two parameters of one name the first one is left with the value of the second. -/
theorem namesakes_share_argument :
    ∃ c o object, ∃ fields : Entries String Typed, ∃ outcome,
      namesakes.contract .anyOf = .ok c ∧ o ∈ c.operations ∧
      o.implicitBody = some object ∧ Coercion.fields c.definitions
        ValidationSettings.standard.extras object greetings "" = some (fields, []) ∧
      run o.fieldParameters greeting c.definitions .standard = some outcome ∧
      ∃ p ∈ o.fieldParameters, (fields.find? p.wire).bind Typed.string? = some "hi" ∧
        (outcome.args.find? p.name).bind Typed.string? = some "you" := by
  have hcheck : ∃ c o, namesakes.contract .anyOf = .ok c ∧ o ∈ c.operations ∧
      ((greeted? c o).any fun x => x.2.isEmpty && misled c o x.1) = true :=
    exists_operation (by decide +kernel)
  obtain ⟨c, o, hc, ho, h⟩ := hcheck
  obtain ⟨object, fields, hobject, hfields, h⟩ := exists_greeted (misled c o) h
  obtain ⟨outcome, hrun, h⟩ := (Option.any_eq_true _ _).mp h
  obtain ⟨p, hp, hvalues⟩ := List.any_eq_true.mp h
  rw [Bool.and_eq_true, decide_eq_true_eq, decide_eq_true_eq] at hvalues
  exact ⟨c, o, object, fields, outcome, hc, ho, hobject, hfields, hrun, p, hp, hvalues⟩

def people : Definitions := [("User", ⟨.object .empty, none, "m.User"⟩)]

def userOrNull : BoundParameter :=
  ⟨"user", "user", .body, some (.union [.reference "User", .primitive .null]), true, none, none⟩

def userOrNull? (v : Json) : Option (Coerced Typed) :=
  Coercion.json people ValidationSettings.standard.extras
    (.union [.reference "User", .primitive .null]) v "user"

theorem user_accepted : ∃ outcome,
    run [userOrNull] (withBody (.object [])) people .standard = some outcome ∧
      outcome.errors = [] := by
  have hjson : ((userOrNull? (.object [])).any fun c => c.value?.isSome) = true := by
    decide +kernel
  obtain ⟨c, hc, hvalue⟩ := (Option.any_eq_true _ _).mp hjson
  obtain ⟨outcome, hrun, hvalid, -⟩ := Validation.whole_body_accepted (p := userOrNull)
    (r := withBody (.object [])) rfl rfl rfl rfl rfl hc
  exact ⟨outcome, hrun, hvalid.mpr ⟨Json.noConfusion, hvalue⟩⟩

/-- Null is accepted by the schema of the body, and is no body. -/
theorem null_missing : people.Closed ∧
    ∃ c outcome, userOrNull? .null = some c ∧ c.value?.isSome ∧
      run [userOrNull] (withBody .null) people .standard = some outcome ∧ outcome.errors ≠ [] := by
  have hclosed : people.Closed := by
    rintro name d hd
    obtain ⟨rfl, rfl⟩ := Prod.mk.inj (List.mem_singleton.mp hd)
    exact List.nil_subset _
  have hcheck : ((userOrNull? .null).any fun c => c.value?.isSome &&
      (run [userOrNull] (withBody .null) people .standard).any (!·.errors.isEmpty)) = true := by
    decide +kernel
  obtain ⟨c, hc, h⟩ := (Option.any_eq_true _ _).mp hcheck
  obtain ⟨hvalue, h⟩ := Bool.and_eq_true_iff.mp h
  obtain ⟨outcome, hrun, herrors⟩ := (Option.any_eq_true _ _).mp h
  exact ⟨hclosed, c, outcome, hc, hvalue, hrun, by simpa using herrors⟩

end Sample

end RouteContract

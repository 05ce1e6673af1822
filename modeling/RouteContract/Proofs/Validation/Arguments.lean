import RouteContract.Proofs.Coercion.Adequacy
import RouteContract.Proofs.FieldErrors
import RouteContract.Proofs.Samples
import RouteContract.Proofs.Validation.Fields
import RouteContract.Proofs.Validation.Steps

/-!
# Arguments of a valid request

An outcome without errors has an argument for every required parameter, and each
argument is a value of the parameter's own schema, as long as no two body fields
have one wire name. Of several such fields the first one alone gets a value, and
the last one's schema decides which.
-/

set_option autoImplicit false

namespace RouteContract

namespace Entries

variable {κ α : Type} [DecidableEq κ]

def eraseAll (t : Entries κ α) (keys : List κ) : Entries κ α := keys.foldl erase t

theorem find?_eraseAll_of_not_mem {t : Entries κ α} {keys : List κ} {key : κ} (h : key ∉ keys) :
    (t.eraseAll keys).find? key = t.find? key := by
  induction keys generalizing t with
  | nil => rfl
  | cons k keys ih =>
    have hk : k ≠ key := fun he => h (he ▸ List.mem_cons_self)
    exact (ih fun hmem => h (List.mem_cons_of_mem k hmem)).trans (find?_erase_ne hk)

theorem find?_eraseAll_of_mem {t : Entries κ α} {keys : List κ} {key : κ} (h : key ∈ keys)
    (hcount : t.keys.count key ≤ 1) : (t.eraseAll keys).find? key = none := by
  induction keys generalizing t with
  | nil => cases h
  | cons k keys ih =>
    have hle : (t.erase k).keys.count key ≤ 1 := (count_erase_le t k key).trans hcount
    by_cases hmem : key ∈ keys
    · exact ih hmem hle
    · have hk : key = k := (List.mem_cons.mp h).resolve_right hmem
      subst hk
      exact (find?_eraseAll_of_not_mem hmem).trans (find?_erase_self hcount)

end Entries

namespace Validation

section

variable {ds : Definitions} {settings : ValidationSettings} {r : Request}
  {parameters : List BoundParameter}

structure Known (ds : Definitions) (settings : ValidationSettings) (r : Request)
    (parameters done : List BoundParameter) (st : Progress) : Prop where
  reports : st.reports = []
  absent : ∀ name, name ∉ done.map (·.name) → st.args.find? name = none
  fields : (st.fields? = none ∧ fieldWires done = []) ∨ ∃ entries,
    bodyFields ds settings r parameters = some (entries, []) ∧
      st.fields? = some (entries.eraseAll (fieldWires done))
  single : ∀ p ∈ done, p.source.isValidated → p.source ≠ .field → ∃ schema c,
    p.schema = some schema ∧ parameter ds settings r p schema = some c ∧ c.reports = [] ∧
      st.args.find? p.name = c.value?
  field : ∀ before p after, done = before ++ p :: after → p.source = .field → ∃ entries,
    bodyFields ds settings r parameters = some (entries, []) ∧
      st.args.find? p.name = (entries.eraseAll (fieldWires before)).find? p.wire

theorem Known.start : Known ds settings r parameters [] .start where
  reports := rfl
  absent := fun _ _ => rfl
  fields := .inl ⟨rfl, rfl⟩
  single := by simp
  field := by simp

/-- A parameter of a new name leaves what is known of the others. -/
theorem Known.extend {done : List BoundParameter} {st st' : Progress} {p : BoundParameter}
    (hst : Known ds settings r parameters done st) (hname : p.name ∉ done.map (·.name))
    {t? : Option Typed} (hargs : st'.args = addArg st.args p.name t?) (hreports : st'.reports = [])
    (hfields : (st'.fields? = none ∧ fieldWires (done ++ [p]) = []) ∨ ∃ entries,
      bodyFields ds settings r parameters = some (entries, []) ∧
        st'.fields? = some (entries.eraseAll (fieldWires (done ++ [p]))))
    (hsingle : p.source.isValidated → p.source ≠ .field → ∃ schema c,
      p.schema = some schema ∧ parameter ds settings r p schema = some c ∧ c.reports = [] ∧
        t? = c.value?)
    (hfield : p.source = .field → ∃ entries,
      bodyFields ds settings r parameters = some (entries, []) ∧
        t? = (entries.eraseAll (fieldWires done)).find? p.wire) :
    Known ds settings r parameters (done ++ [p]) st' := by
  have hself : st'.args.find? p.name = t? := by
    rw [hargs]
    exact find?_addArg_self t? (hst.absent p.name hname)
  have hother : ∀ q ∈ done, st'.args.find? q.name = st.args.find? q.name := by
    intro q hq
    have hne : p.name ≠ q.name := by
      intro he
      rw [he] at hname
      exact hname (List.mem_map_of_mem hq)
    rw [hargs]
    exact find?_addArg_ne st.args hne t?
  refine ⟨hreports, ?_, hfields, ?_, ?_⟩
  · intro name hn
    rw [List.map_append, List.mem_append, not_or] at hn
    have hne : p.name ≠ name := fun he => hn.2 (by simp [he])
    rw [hargs, find?_addArg_ne st.args hne]
    exact hst.absent name hn.1
  · intro q hq hv hf
    rcases List.mem_append.mp hq with hq | hq
    · obtain ⟨schema, c, hs, hc, hr, ha⟩ := hst.single q hq hv hf
      exact ⟨schema, c, hs, hc, hr, (hother q hq).trans ha⟩
    · obtain rfl := List.mem_singleton.mp hq
      obtain ⟨schema, c, hs, hc, hr, ha⟩ := hsingle hv hf
      exact ⟨schema, c, hs, hc, hr, hself.trans ha⟩
  · intro before q after he hf
    rcases List.eq_nil_or_concat after with rfl | ⟨after, x, rfl⟩
    · obtain ⟨rfl, hq⟩ := List.append_inj' he rfl
      cases hq
      obtain ⟨entries, hb, ha⟩ := hfield hf
      exact ⟨entries, hb, hself.trans ha⟩
    · have he' : done ++ [p] = (before ++ q :: after) ++ [x] := by simpa using he
      obtain ⟨rfl, -⟩ := List.append_inj' he' rfl
      obtain ⟨entries, hb, ha⟩ := hst.field before q after rfl hf
      exact ⟨entries, hb, (hother q (by simp)).trans ha⟩

theorem Known.remaining {done : List BoundParameter} {st : Progress}
    (hst : Known ds settings r parameters done st) {fields : Entries String Typed}
    (h : remaining ds settings r parameters st = some (fields, [])) : ∃ entries,
      bodyFields ds settings r parameters = some (entries, []) ∧
        fields = entries.eraseAll (fieldWires done) := by
  unfold Validation.remaining at h
  rcases hst.fields with ⟨hn, hw⟩ | ⟨entries, hb, hs⟩
  · rw [hn] at h
    exact ⟨fields, h, by rw [hw]; rfl⟩
  · rw [hs] at h
    cases h
    exact ⟨entries, hb, rfl⟩

theorem Known.add {done : List BoundParameter} {st st' : Progress} {p : BoundParameter}
    (hst : Known ds settings r parameters done st) (hname : p.name ∉ done.map (·.name))
    (hdescribed : p.Described) (h : addParameter ds settings r parameters st p = some st')
    (hr : st'.reports = []) : Known ds settings r parameters (done ++ [p]) st' := by
  have hsame : p.source ≠ .field → fieldWires (done ++ [p]) = fieldWires done := by
    intro hf
    rw [fieldWires_append]
    simp [fieldWires, hf]
  cases step_of_addParameter h with
  | pass hp =>
    have hv : p.source.isValidated = false := by
      rcases hp with hs | hv
      · cases hv : p.source.isValidated with
        | false => rfl
        | true =>
          have hsome := hdescribed hv
          rw [hs] at hsome
          cases hsome
      · exact hv
    have hf : p.source ≠ .field := by
      intro hf
      rw [hf] at hv
      cases hv
    have hargs : st.args = addArg st.args p.name none := rfl
    refine hst.extend hname hargs hr ?_ ?_ fun h => absurd h hf
    · rw [hsame hf]
      exact hst.fields
    · intro hv'
      rw [hv] at hv'
      cases hv'
  | @field schema fields reports hs hf hrem =>
    obtain ⟨-, rfl⟩ := List.append_eq_nil_iff.mp hr
    obtain ⟨entries, hb, rfl⟩ := hst.remaining hrem
    refine hst.extend hname rfl hr (.inr ⟨entries, hb, ?_⟩) (fun _ hn => absurd hf hn)
      fun _ => ⟨entries, hb, rfl⟩
    have hwires : fieldWires (done ++ [p]) = fieldWires done ++ [p.wire] := by
      rw [fieldWires_append]
      simp [fieldWires, hf]
    rw [hwires]
    simp [Entries.eraseAll]
  | @single schema c hs _ hf hc =>
    obtain ⟨-, hcr⟩ := List.append_eq_nil_iff.mp hr
    refine hst.extend hname rfl hr ?_ (fun _ _ => ⟨schema, c, hs, hc, hcr, rfl⟩)
      fun h => absurd h hf
    rw [hsame hf]
    exact hst.fields

/-- No parameter takes a report back. -/
theorem addParameter_reports {st st' : Progress} {p : BoundParameter}
    (h : addParameter ds settings r parameters st p = some st') (hr : st'.reports = []) :
    st.reports = [] := by
  cases step_of_addParameter h with
  | pass _ => exact hr
  | field _ _ _ => exact (List.append_eq_nil_iff.mp hr).1
  | single _ _ _ _ => exact (List.append_eq_nil_iff.mp hr).1

theorem foldlM_reports {ps : List BoundParameter} {st st' : Progress}
    (h : ps.foldlM (addParameter ds settings r parameters) st = some st') (hr : st'.reports = []) :
    st.reports = [] := by
  induction ps generalizing st with
  | nil => cases h; exact hr
  | cons p ps ih =>
    rw [List.foldlM_cons] at h
    obtain ⟨st1, h1, h2⟩ := Option.bind_eq_some_iff.mp h
    exact addParameter_reports h1 (ih h2)

theorem Known.foldlM {done ps : List BoundParameter} {st st' : Progress}
    (hst : Known ds settings r parameters done st)
    (hnames : ((done ++ ps).map (·.name)).Nodup) (hdescribed : ∀ p ∈ ps, p.Described)
    (h : ps.foldlM (addParameter ds settings r parameters) st = some st')
    (hr : st'.reports = []) : Known ds settings r parameters (done ++ ps) st' := by
  induction ps generalizing done st with
  | nil => cases h; simpa using hst
  | cons p ps ih =>
    rw [List.foldlM_cons] at h
    obtain ⟨st1, h1, h2⟩ := Option.bind_eq_some_iff.mp h
    have hname : p.name ∉ done.map (·.name) := by
      rw [List.map_append, List.map_cons] at hnames
      have hdisjoint := (List.nodup_append.mp hnames).2.2
      exact fun hmem => hdisjoint _ hmem p.name (by simp) rfl
    have hone := hst.add hname (hdescribed p (by simp)) h1 (foldlM_reports h2 hr)
    have hrest := ih hone (by simpa using hnames) (fun q hq => hdescribed q (by simp [hq])) h2
    simpa using hrest

def Produces (ds : Definitions) (settings : ValidationSettings) (schema : Schema) (t : Typed) :
    Prop :=
  (∃ v path c, Coercion.json ds settings.extras schema v path = some c ∧ c.value? = some t) ∨
    ∃ delimiter values path c, values ≠ [] ∧
      Coercion.text ds settings.extras delimiter schema values path = some c ∧ c.value? = some t

def Supplies (ds : Definitions) (settings : ValidationSettings) (args : Entries String Typed)
    (p : BoundParameter) : Prop :=
  (p.required → ∃ t, args.find? p.name = some t) ∧
    ∀ t, args.find? p.name = some t → ∃ schema, p.schema = some schema ∧
      Produces ds settings schema t

theorem single_supplies {p : BoundParameter} {schema : Schema} {c : Coerced Typed}
    {args : Entries String Typed} (hs : p.schema = some schema)
    (hc : parameter ds settings r p schema = some c) (hr : c.reports = [])
    (ha : args.find? p.name = c.value?) : Supplies ds settings args p := by
  unfold parameter at hc
  have given (hhonest : c.Honest) (hproduces : ∀ t, c.value? = some t →
      Produces ds settings schema t) : Supplies ds settings args p := by
    obtain ⟨t, ht⟩ := Option.isSome_iff_exists.mp (hhonest.isSome_iff.mpr hr)
    refine ⟨fun _ => ⟨t, ha.trans ht⟩, fun u hu => ⟨schema, hs, hproduces u ?_⟩⟩
    rw [← ha, hu]
  split at hc
  · rename_i values delimiter hraw
    exact given (Coercion.text_honest (raw?_ne_nil hraw) hc)
      fun t ht => .inr ⟨delimiter, values, p.name, c, raw?_ne_nil hraw, hc, ht⟩
  · rename_i v _
    exact given (Coercion.json_honest hc) fun t ht => .inl ⟨v, p.name, c, hc, ht⟩
  · split at hc
    · rename_i v _
      exact given (Coercion.json_honest hc) fun t ht => .inl ⟨v, p.name, c, hc, ht⟩
    · cases hc
      refine ⟨fun hreq => ?_, fun t ht => ?_⟩
      · simp [hreq] at hr
      · rw [ha] at ht
        cases ht

def FieldArgument (ds : Definitions) (settings : ValidationSettings) (r : Request)
    (parameters before : List BoundParameter) (args : Entries String Typed)
    (p : BoundParameter) : Prop :=
  ∃ given last, givenFields? r = some given ∧ LastField parameters p.wire last ∧
    ((args.find? p.name).isSome ↔ p.wire ∉ fieldWires before ∧
      ((Entries.find? given p.wire).or last.default).isSome) ∧
    (last.required → ((Entries.find? given p.wire).or last.default).isSome) ∧
    ∀ t, args.find? p.name = some t → ∃ schema, last.schema = some schema ∧
      Produces ds settings schema t

theorem field_argument {before after : List BoundParameter} {p : BoundParameter}
    (hparameters : parameters = before ++ p :: after) (hf : p.source = .field)
    (hdescribed : ∀ q ∈ parameters, q.Described) {entries args : Entries String Typed}
    (hb : bodyFields ds settings r parameters = some (entries, []))
    (ha : args.find? p.name = (entries.eraseAll (fieldWires before)).find? p.wire) :
    FieldArgument ds settings r parameters before args p := by
  have hwire : p.wire ∈ fieldWires parameters :=
    mem_fieldWires.mpr ⟨p, by simp [hparameters], hf, rfl⟩
  obtain ⟨last, hlast⟩ := exists_lastField hwire
  obtain ⟨schema, hs⟩ : ∃ schema, last.schema = some schema := by
    obtain ⟨pre, post, he, hfield, -, -⟩ := hlast
    refine Option.isSome_iff_exists.mp (hdescribed last (by simp [he]) ?_)
    rw [hfield]
    rfl
  rw [bodyFields_eq] at hb
  cases hgiven : givenFields? r with
  | none => simp [hgiven] at hb
  | some given =>
    rw [hgiven] at hb
    obtain ⟨hentry, hrequired, hvalue, hcount⟩ :=
      Coercion.fields_declared (bodyObject_nodup parameters) hb (bodyObject_find? hlast hs)
    refine ⟨given, last, hgiven, hlast, ?_, hrequired, fun t ht => ⟨schema, hs, ?_⟩⟩
    · rw [ha, ← hentry]
      by_cases hmem : p.wire ∈ fieldWires before
      · rw [Entries.find?_eraseAll_of_mem hmem hcount]
        simp [hmem]
      · rw [Entries.find?_eraseAll_of_not_mem hmem]
        simp [hmem]
    · rw [ha] at ht
      have hmem : p.wire ∉ fieldWires before := by
        intro hmem
        rw [Entries.find?_eraseAll_of_mem hmem hcount] at ht
        cases ht
      rw [Entries.find?_eraseAll_of_not_mem hmem] at ht
      obtain ⟨n, v, c, hc, hct⟩ := hvalue t ht
      exact .inl ⟨v, _, c, Coercion.json_of_within hc, hct⟩

/-- A body field that shares its wire name with no other is treated as its own schema says. -/
theorem FieldArgument.supplies {before after : List BoundParameter} {p : BoundParameter}
    {args : Entries String Typed} (hparameters : parameters = before ++ p :: after)
    (hf : p.source = .field) (hnodup : (fieldWires parameters).Nodup)
    (h : FieldArgument ds settings r parameters before args p) : Supplies ds settings args p := by
  obtain ⟨given, last, -, hlast, hentry, hrequired, hvalue⟩ := h
  have hp : LastField parameters p.wire p := lastField_of_nodup hnodup (by simp [hparameters]) hf
  obtain rfl := hp.unique hlast
  refine ⟨fun hreq => ?_, hvalue⟩
  have hfirst : p.wire ∉ fieldWires before := by
    rw [hparameters, fieldWires_append] at hnodup
    have hdisjoint := (List.nodup_append.mp hnodup).2.2
    exact fun hmem => hdisjoint _ hmem p.wire (by simp [fieldWires, hf]) rfl
  exact Option.isSome_iff_exists.mp (hentry.mpr ⟨hfirst, hrequired hreq⟩)

/-- The end of a run without errors. -/
theorem known_of_run (hnames : (parameters.map (·.name)).Nodup)
    (hdescribed : ∀ p ∈ parameters, p.Described) {outcome : Outcome}
    (h : run parameters r ds settings = some outcome) (hvalid : outcome.errors = []) :
    ∃ st, Known ds settings r parameters parameters st ∧ st.args = outcome.args := by
  simp only [run, bind, pure, Option.bind_eq_some_iff, Option.some.injEq] at h
  obtain ⟨st, hst, rfl⟩ := h
  exact ⟨st, Known.start.foldlM hnames hdescribed hst (FieldErrors.addAll_eq_nil hvalid), rfl⟩

end

end Validation

open Validation (Supplies FieldArgument)

/-- In an outcome without errors every parameter has its argument, unless body fields share a wire
name; and this is the argument of any body field. -/
theorem Contract.valid_arguments {g : Graph} {combination : Combination} {c : Contract}
    (h : g.contract combination = .ok c) {o : Operation} (ho : o ∈ c.operations)
    (hnames : (o.parameters.map (·.name)).Nodup) {r : Request} {settings : ValidationSettings}
    {outcome : Outcome} (hv : c.validate o r settings = some outcome)
    (hvalid : outcome.errors = []) :
    ((fieldWires o.parameters).Nodup → ∀ p ∈ o.parameters, p.source.isValidated →
      Supplies c.definitions settings outcome.args p) ∧
    (∀ p ∈ o.parameters, p.source.isValidated → p.source ≠ .field →
      Supplies c.definitions settings outcome.args p) ∧
    ∀ before p after, o.parameters = before ++ p :: after → p.source = .field →
      FieldArgument c.definitions settings r o.parameters before outcome.args p := by
  have hdescribed : ∀ p ∈ o.parameters, p.Described := fun p hp => Graph.contract_described h ho hp
  obtain ⟨st, hst, hargs⟩ := Validation.known_of_run hnames hdescribed hv hvalid
  have hsingle : ∀ p ∈ o.parameters, p.source.isValidated → p.source ≠ .field →
      Supplies c.definitions settings outcome.args p := by
    intro p hp hval hf
    obtain ⟨schema, d, hs, hd, hr, ha⟩ := hst.single p hp hval hf
    exact Validation.single_supplies hs hd hr (hargs ▸ ha)
  have hfield : ∀ before p after, o.parameters = before ++ p :: after → p.source = .field →
      FieldArgument c.definitions settings r o.parameters before outcome.args p := by
    intro before p after he hf
    obtain ⟨entries, hb, ha⟩ := hst.field before p after he hf
    exact Validation.field_argument he hf hdescribed hb (hargs ▸ ha)
  refine ⟨fun hnodup p hp hval => ?_, hsingle, hfield⟩
  by_cases hf : p.source = .field
  · obtain ⟨before, after, he⟩ := List.append_of_mem hp
    exact (hfield before p after he hf).supplies he hf hnodup
  · exact hsingle p hp hval hf

namespace Sample

def twoFields (first second : String) : Graph where
  declarations := []
  controllers := [posting [parameter "a" (.keyword .string) (.bodyProp (some first)),
    parameter "b" (.keyword .string) (.bodyProp (some second))]]

def greeting : Request := withBody (.object [("x", .string "hi"), ("y", .string "you")])

def accepts (c : Contract) (o : Operation) : Bool :=
  decide (o.parameters.map (·.name)).Nodup &&
    (c.validate o greeting .standard).any (·.errors.isEmpty)

theorem accepts_iff {c : Contract} {o : Operation} :
    accepts c o ↔ (o.parameters.map (·.name)).Nodup ∧
      ∃ outcome, c.validate o greeting .standard = some outcome ∧ outcome.errors = [] := by
  simp [accepts, Option.any_eq_true]

/-- Of two required parameters that share a field, the second one is left without an argument. -/
theorem shared_field_loses_argument :
    ∃ c o outcome, (twoFields "x" "x").contract .anyOf = .ok c ∧ o ∈ c.operations ∧
      (o.parameters.map (·.name)).Nodup ∧ c.validate o greeting .standard = some outcome ∧
      outcome.errors = [] ∧ ∃ p ∈ o.parameters, p.source.isValidated ∧ p.required ∧
        outcome.args.find? p.name = none := by
  have hcheck : ∃ c o, (twoFields "x" "x").contract .anyOf = .ok c ∧ o ∈ c.operations ∧
      (accepts c o && o.parameters.any fun p => p.source.isValidated && p.required &&
        (c.validate o greeting .standard).any fun outcome =>
          (outcome.args.find? p.name).isNone) = true :=
    exists_operation (by decide +kernel)
  obtain ⟨c, o, hc, ho, h⟩ := hcheck
  obtain ⟨haccepts, hlost⟩ := Bool.and_eq_true_iff.mp h
  obtain ⟨hnames, outcome, hv, hvalid⟩ := accepts_iff.mp haccepts
  obtain ⟨p, hp, hlost⟩ := List.any_eq_true.mp hlost
  simp only [hv, Option.any_some, Bool.and_eq_true, Option.isNone_iff_eq_none] at hlost
  obtain ⟨⟨hval, hr⟩, ha⟩ := hlost
  exact ⟨c, o, outcome, hc, ho, hnames, hv, hvalid, p, hp, hval, hr, ha⟩

/-- With fields of their own both have one. -/
theorem own_fields_supply :
    ∃ c o outcome, (twoFields "x" "y").contract .anyOf = .ok c ∧ o ∈ c.operations ∧
      c.validate o greeting .standard = some outcome ∧ (fieldWires o.parameters).Nodup ∧
      ∀ p ∈ o.parameters, p.source.isValidated →
        Supplies c.definitions .standard outcome.args p := by
  have hcheck : ∃ c o, (twoFields "x" "y").contract .anyOf = .ok c ∧ o ∈ c.operations ∧
      (accepts c o && decide (fieldWires o.parameters).Nodup) = true :=
    exists_operation (by decide +kernel)
  obtain ⟨c, o, hc, ho, h⟩ := hcheck
  obtain ⟨haccepts, hwires⟩ := Bool.and_eq_true_iff.mp h
  obtain ⟨hnames, outcome, hv, hvalid⟩ := accepts_iff.mp haccepts
  have hnodup := of_decide_eq_true hwires
  exact ⟨c, o, outcome, hc, ho, hv, hnodup,
    (Contract.valid_arguments hc ho hnames hv hvalid).1 hnodup⟩

end Sample

end RouteContract

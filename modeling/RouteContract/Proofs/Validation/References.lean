import RouteContract.Proofs.Coercion.Complaints
import RouteContract.Proofs.Extraction.Closed
import RouteContract.Proofs.FieldErrors
import RouteContract.Proofs.Validation.Termination

/-!
# References at request time

The definitions of a contract are objects and enums, so a reference to one of
them leads at once to a schema that is none. Whatever validation coerces a value
against is part of the contract or merged from parts of it, and mentions names of
definitions only.
-/

set_option autoImplicit false

namespace RouteContract

namespace Complaint

def valueOpenings : List String :=
  ["not a valid ", "should be one of the following; [", "does not match any of: ", "'"]

def referenceOpenings : List String := ["unknown schema '", "schema reference chain is too deep"]

theorem openings_differ : ∀ a ∈ valueOpenings, ∀ b ∈ referenceOpenings,
    ¬ a.toList <+: b.toList ∧ ¬ b.toList <+: a.toList := by
  decide

theorem message_opening {c : Complaint} (h : c.isAboutValue) :
    ∃ opening ∈ valueOpenings, ∃ rest, c.message = opening ++ rest := by
  cases c with
  | invalid kind => exact ⟨"not a valid ", by decide, kind, rfl⟩
  | invalidDate => exact ⟨"not a valid ", by decide, "date (expected YYYY-MM-DD)", rfl⟩
  | invalidDatetime => exact ⟨"not a valid ", by decide, "datetime (expected RFC 3339)", rfl⟩
  | notListed values =>
    exact ⟨"should be one of the following; [", by decide,
      ",".intercalate (values.map EnumValue.text) ++ "]", String.append_assoc⟩
  | noMember members => exact ⟨"does not match any of: ", by decide, _, rfl⟩
  | missing name => exact ⟨"'", by decide, name ++ "' is required", String.append_assoc⟩
  | excess name =>
    exact ⟨"'", by decide, name ++ "' is an excess property and therefore is not allowed",
      String.append_assoc⟩
  | unknownSchema name => cases h
  | chainTooDeep => cases h
  | worded text => cases h

/-- A complaint about a value is not worded as one about a reference. -/
theorem message_ne_of_isAboutValue {c : Complaint} (h : c.isAboutValue) {opening : String}
    (ho : opening ∈ referenceOpenings) (rest : String) : c.message ≠ opening ++ rest := by
  obtain ⟨a, ha, rest', he⟩ := message_opening h
  obtain ⟨hab, hba⟩ := openings_differ a ha opening ho
  intro heq
  have hopening : opening.toList <+: c.message.toList := by simp [heq]
  have hvalue : a.toList <+: c.message.toList := by simp [he]
  rcases List.prefix_or_prefix_of_prefix hvalue hopening with hp | hp
  · exact hab hp
  · exact hba hp

end Complaint

namespace Coercion

variable {ds : Definitions}

/-- A schema that mentions definitions only is followed to its end in one step. -/
theorem deref_of_closed (hg : ds.Grounded) {s : Schema} (hs : s.references ⊆ Entries.keys ds) :
    ∃ t, deref ds maxHops s = .ok t := by
  cases s with
  | reference name =>
    have hname : name ∈ Entries.keys ds := hs List.mem_cons_self
    obtain ⟨d, hd⟩ := Option.isSome_iff_exists.mp (Entries.find?_isSome_iff.mpr hname)
    have hground := hg name d (Entries.mem_of_find? hd)
    refine ⟨d.schema, ?_⟩
    show deref ds 32 (.reference name) = _
    simp only [deref, hd]
    cases hschema : d.schema with
    | object o => rfl
    | enum values => rfl
    | _ =>
      rw [hschema] at hground
      cases hground
  | _ => exact ⟨_, rfl⟩

/-- Where references can be followed, every complaint is about a value. -/
theorem complains_of_values : Reporting ds (fun s => ∃ t, deref ds maxHops s = .ok t)
    (fun _ r => r.2.complaint.isAboutValue) where
  object o := ⟨.object o, rfl⟩
  value _ _ _ h := h
  broken s _ complaint h he := by
    obtain ⟨t, ht⟩ := h
    rw [ht] at he
    cases he
  child _ _ _ h := h
  item _ _ _ h := h

theorem throughout_of_closed (hg : ds.Grounded) (hc : ds.Closed) {s : Schema}
    (hs : s.references ⊆ Entries.keys ds) :
    Throughout ds (fun s => ∃ t, deref ds maxHops s = .ok t) s :=
  fun _ ht => deref_of_closed hg (hc.reaches hs ht)

end Coercion

namespace Validation

open Coercion (Attempt Leads)

section

variable (ds : Definitions) (parameters : List BoundParameter)

/-- The schemas that the values of a request are coerced against: those of the parameters, the
object of the body fields, whatever these are made of, and what intersections are merged to. -/
inductive Meets : Schema → Prop
  | parameter {p : BoundParameter} {s : Schema} (hp : p ∈ parameters) (hs : p.schema = some s) :
      Meets s
  | body : Meets (.object (bodyObject parameters))
  | part {s t : Schema} (hs : Meets s) (ht : Schema.Part ds s t) : Meets t
  | merged {members : List Schema} {os : List (ObjectSchema Schema)}
      (hs : Meets (.intersection members)) (ho : Coercion.objects ds members = .ok (some os)) :
      Meets (.object (os.foldl ObjectSchema.merge .empty))

end

section

variable {ds : Definitions} {settings : ValidationSettings} {r : Request}
  {parameters : List BoundParameter}

theorem Meets.reached {s t : Schema} (hs : Meets ds parameters s) (h : Schema.Reaches ds s t) :
    Meets ds parameters t := by
  induction h with
  | refl => exact hs
  | tail _ hpart ih => exact .part ih hpart

theorem Meets.followed {s t : Schema} {n : Nat} (hs : Meets ds parameters s)
    (hd : Coercion.deref ds n s = .ok t) : Meets ds parameters t :=
  hs.reached (Coercion.deref_reaches hd)

/-- An attempt asks for others at schemas that are met too. -/
theorem Meets.calls {extras : Extras} {a b : Attempt} (ha : Meets ds parameters a.schema)
    (h : Coercion.Calls ds extras a b) : Meets ds parameters b.schema := by
  rcases h with h | h
  · cases h with
    | item hd _ => exact .part (ha.followed hd) (.element _)
    | declared hd hp _ => exact .part (ha.followed hd) (.property hp)
    | undeclared hd _ _ hadditional => exact .part (ha.followed hd) (.additional hadditional)
    | alternative hd _ => exact .part (ha.followed hd) (.alternative (by simp))
    | merged hd ho => exact .merged (ha.followed hd) ho
    | constraint hd _ hm => exact .part (ha.followed hd) (.constraint hm)
  · cases h with
    | default hd hp _ _ => exact .part (ha.followed hd) (.property hp)

theorem Meets.reads {extras : Extras} {text path : String} {s : Schema} {a : Attempt}
    (h : Coercion.Reads ds extras text path s a) (hs : Meets ds parameters s) :
    Meets ds parameters a.schema := by
  induction h with
  | json hd _ _ => exact hs.followed hd
  | alternative hd _ _ ih => exact ih (.part (hs.followed hd) (.alternative (by simp)))

theorem Meets.takes {extras : Extras} {delimiter : Option Char} {values : List String}
    {path : String} {s : Schema} {a : Attempt}
    (h : Coercion.Takes ds extras delimiter values path s a) (hs : Meets ds parameters s) :
    Meets ds parameters a.schema := by
  induction h with
  | item hd _ h => exact .reads h (.part (hs.followed hd) (.element _))
  | alternative hd _ _ ih => exact ih (.part (hs.followed hd) (.alternative (by simp)))
  | first hd _ _ _ h => exact .reads h (hs.followed hd)

theorem Meets.demanded {a : Attempt} (h : Demands ds settings r parameters a) :
    Meets ds parameters a.schema := by
  cases h with
  | single hp hs _ _ ha =>
    cases ha with
    | value _ => exact .parameter hp hs
    | texts _ ha => exact .takes ha (.parameter hp hs)
    | default _ _ => exact .parameter hp hs
  | fields _ _ _ _ => exact .body

theorem Meets.led {extras : Extras} {a b : Attempt} (ha : Meets ds parameters a.schema)
    (h : Leads ds extras a b) : Meets ds parameters b.schema := by
  induction h with
  | refl => exact ha
  | tail _ hcall ih => exact ih.calls hcall

variable (hg : ds.Grounded) (hc : ds.Closed)
  (hp : ∀ p ∈ parameters, ∀ s, p.schema = some s → s.references ⊆ Entries.keys ds)

include hc hp in
theorem Meets.references_subset {s : Schema} (h : Meets ds parameters s) :
    s.references ⊆ Entries.keys ds := by
  induction h with
  | parameter hm hs => exact hp _ hm _ hs
  | body =>
    intro name hname
    obtain ⟨s, hs, hname⟩ := Schema.mem_allReferences.mp (bodyObject_references _ hname)
    obtain ⟨p, hm, hs⟩ := List.mem_filterMap.mp hs
    exact hp p hm s hs hname
  | part _ ht ih => exact hc.reaches ih (.single ht)
  | merged _ ho ih =>
    intro name hname
    obtain ⟨o, hm, hname⟩ := Schema.mem_references_merged hname
    exact hc.reaches ih (Coercion.objects_reach ho hm) hname

include hg hc hp

theorem parameter_complaints {p : BoundParameter} (hm : p ∈ parameters) {schema : Schema}
    (hs : p.schema = some schema) {c : Coerced Typed}
    (h : parameter ds settings r p schema = some c) :
    ∀ x ∈ c.reports, x.2.complaint.isAboutValue := by
  have hfine := Coercion.throughout_of_closed hg hc (hp p hm schema hs)
  unfold parameter at h
  split at h
  · exact Coercion.complains_of_values.text hfine h
  · exact Coercion.complains_of_values.json hfine h
  · split at h
    · exact Coercion.complains_of_values.json hfine h
    · cases h
      intro x hx
      split at hx
      · obtain rfl := List.mem_singleton.mp hx
        rfl
      · cases hx

theorem bodyFields_complaints {fields : Entries String Typed} {reports : List Report}
    (h : bodyFields ds settings r parameters = some (fields, reports)) :
    ∀ x ∈ reports, x.2.complaint.isAboutValue := by
  have hbody := Meets.references_subset hc hp (.body : Meets ds parameters _)
  rw [bodyFields_eq] at h
  split at h
  · exact Coercion.complains_of_values.fields (Coercion.throughout_of_closed hg hc hbody) h
  · cases h
    intro x hx
    obtain rfl := List.mem_singleton.mp hx
    rfl

theorem addParameter_complaints {st st' : Progress} {p : BoundParameter} (hm : p ∈ parameters)
    (hst : ∀ x ∈ st.reports, x.2.complaint.isAboutValue)
    (h : addParameter ds settings r parameters st p = some st') :
    ∀ x ∈ st'.reports, x.2.complaint.isAboutValue := by
  cases step_of_addParameter h with
  | pass _ => exact hst
  | field _ _ hr =>
    intro x hx
    rcases List.mem_append.mp hx with hx | hx
    · exact hst x hx
    · unfold remaining at hr
      split at hr
      · cases hr
        cases hx
      · exact bodyFields_complaints hg hc hp hr x hx
  | single hs _ _ hparameter =>
    intro x hx
    rcases List.mem_append.mp hx with hx | hx
    · exact hst x hx
    · exact parameter_complaints hg hc hp hm hs hparameter x hx

theorem foldlM_complaints {ps : List BoundParameter} (hps : ps ⊆ parameters) {st st' : Progress}
    (hst : ∀ x ∈ st.reports, x.2.complaint.isAboutValue)
    (h : ps.foldlM (addParameter ds settings r parameters) st = some st') :
    ∀ x ∈ st'.reports, x.2.complaint.isAboutValue :=
  foldlM_carries (P := fun _ st => ∀ x ∈ st.reports, x.2.complaint.isAboutValue) h hst
    fun _ _ _ _ hmem => addParameter_complaints hg hc hp (hps hmem)

/-- Every error of an outcome complains of a value. -/
theorem run_complaints {out : Outcome} (h : run parameters r ds settings = some out) :
    ∀ x ∈ out.errors, x.2.complaint.isAboutValue := by
  simp only [run, bind, pure, Option.bind_eq_some_iff, Option.some.injEq] at h
  obtain ⟨st, hst, rfl⟩ := h
  have hstart : ∀ x ∈ Progress.start.reports, x.2.complaint.isAboutValue := fun _ hx => by cases hx
  intro x hx
  rcases FieldErrors.mem_of_mem_addAll hx with hx | hx
  · cases hx
  · exact foldlM_complaints hg hc hp (List.Subset.refl _) hstart hst x hx

end

end Validation

/-- No error of a request is about a reference. Every schema that is met while an operation of a
contract is validated leads within the limit to one that is no reference, and all coercions that the
request makes are against schemas that are met. -/
theorem Contract.references_followed {g : Graph} {combination : Combination} {c : Contract}
    (h : g.contract combination = .ok c) {o : Operation} (ho : o ∈ c.operations) :
    (∀ s, Validation.Meets c.definitions o.parameters s →
      ∃ t, Coercion.deref c.definitions Coercion.maxHops s = .ok t ∧ ∀ name, t ≠ .reference name) ∧
    ∀ r settings,
      (∀ a b, Validation.Demands c.definitions settings r o.parameters a →
        Coercion.Leads c.definitions settings.extras a b →
          Validation.Meets c.definitions o.parameters b.schema) ∧
      ∀ out, c.validate o r settings = some out → ∀ key e, (key, e) ∈ out.errors →
        (∀ name, e.complaint.message ≠ "unknown schema '" ++ name ++ "'") ∧
          e.complaint.message ≠ "schema reference chain is too deep" := by
  have hg := Graph.contract_grounded h
  have hc := Graph.contract_definitions_closed h
  have hp : ∀ p ∈ o.parameters, ∀ s, p.schema = some s → s.references ⊆ Entries.keys c.definitions :=
    fun p hm s hs => Graph.contract_mentions_closed h (.parameter ho hm hs)
  refine ⟨fun s hs => ?_, fun r settings => ⟨fun a b ha hb => ?_, fun out hout key e he => ?_⟩⟩
  · obtain ⟨t, ht⟩ := Coercion.deref_of_closed hg (hs.references_subset hc hp)
    exact ⟨t, ht, fun name hname => Coercion.deref_ne_reference (hname ▸ ht)⟩
  · exact (Validation.Meets.demanded ha).led hb
  · have hvalue := Validation.run_complaints hg hc hp hout _ he
    constructor
    · intro name
      rw [String.append_assoc]
      exact Complaint.message_ne_of_isAboutValue hvalue (by decide) _
    · have hdeep : "schema reference chain is too deep" ∈ Complaint.referenceOpenings := by decide
      simpa using Complaint.message_ne_of_isAboutValue hvalue hdeep ""

namespace Sample

/-- A list with an item that lacks its property is refused, for its value. -/
theorem linked_refused : ∃ c o, linked.contract .anyOf = .ok c ∧ o ∈ c.operations ∧
    (c.validate o (withBody (.array [.object []])) .standard).any (!·.isValid) :=
  exists_operation (by decide +kernel)

theorem linked_followed : ∃ c o out, linked.contract .anyOf = .ok c ∧ o ∈ c.operations ∧
    c.validate o (withBody (.array [.object []])) .standard = some out ∧ out.isValid = false ∧
    ∀ key e, (key, e) ∈ out.errors →
      (∀ name, e.complaint.message ≠ "unknown schema '" ++ name ++ "'") ∧
        e.complaint.message ≠ "schema reference chain is too deep" := by
  obtain ⟨c, o, hc, ho, h⟩ := linked_refused
  obtain ⟨out, hout, hvalid⟩ := (Option.any_eq_true _ _).mp h
  exact ⟨c, o, out, hc, ho, hout, by simpa using hvalid,
    ((Contract.references_followed hc ho).2 _ _).2 out hout⟩

end Sample

end RouteContract

import RouteContract.Proofs.Extraction.Table

/-!
# The responses of an operation

Success, the annotations of the controller and those of the method may declare
one status. Of the annotations at one place the last one for the status counts.
A response of the method counts before everything else, and one of the
controller counts before the success of the method, even where the method
describes its success by an annotation of its own.
-/

set_option autoImplicit false

namespace RouteContract

namespace Annotation

def responseFor? (s : Status) : Annotation → Option (Option String × Option TypeExpr)
  | .response status description type => if status = s then some (description, type) else none
  | _ => none

def success? : Annotation → Option (Nat × Option String)
  | .successResponse status description => some (status, description)
  | _ => none

end Annotation

namespace AnnotationUse

def lastResponse? (uses : List AnnotationUse) (s : Status) :
    Option (Option String × Option TypeExpr) :=
  (uses.filterMap (·.content.responseFor? s)).getLast?

def lastSuccess? (uses : List AnnotationUse) : Option (Nat × Option String) :=
  (uses.filterMap (·.content.success?)).getLast?

theorem lastResponse?_concat (uses : List AnnotationUse) (use : AnnotationUse) (s : Status) :
    lastResponse? (uses ++ [use]) s = (use.content.responseFor? s).or (lastResponse? uses s) := by
  rw [lastResponse?, List.filterMap_append, List.getLast?_append]
  cases h : use.content.responseFor? s with
  | none => simp [h, lastResponse?]
  | some written => simp [h]

theorem lastSuccess?_concat (uses : List AnnotationUse) (use : AnnotationUse) :
    lastSuccess? (uses ++ [use]) = use.content.success?.or (lastSuccess? uses) := by
  rw [lastSuccess?, List.filterMap_append, List.getLast?_append]
  cases h : use.content.success? with
  | none => simp [h, lastSuccess?]
  | some written => simp [h]

end AnnotationUse

open AnnotationUse (lastResponse? lastSuccess?)
open Resolve (Ensures Obtains)

def Status.wording : Status → String
  | .default => "Unexpected error"
  | .code n => toString n

def Controller.origin (k : Controller) : Origin := ⟨k.id.text, k.location⟩

def Method.origin (m : Method) (k : Controller) : Origin :=
  ⟨k.id.name ++ "." ++ m.name, m.location⟩

structure Response.Renders (g : Graph) (o : Origin) (s : Status)
    (written : Option String × Option TypeExpr) (r : Response) : Prop where
  description : r.description = written.1.getD s.wording
  untyped : written.2 = none → r.schema = none
  typed : ∀ t, written.2 = some t → Obtains Registry.Grounded (Extraction.payload g t o) r.schema

def Operation.success (m : Method) (o : Operation) : Response :=
  ⟨((lastSuccess? m.annotations).bind Prod.snd).getD
    (if o.returns.isSome then "Ok" else "No content"), o.returns⟩

inductive Method.Declares (g : Graph) (k : Controller) (m : Method) (o : Operation) (s : Status) :
    Response → Prop
  | response {written : Option String × Option TypeExpr} {r : Response}
      (hown : lastResponse? m.annotations s = some written)
      (hr : r.Renders g (m.origin k) s written) : Declares g k m o s r
  | success {n : Nat} {description : Option String} (hown : lastResponse? m.annotations s = none)
      (hsuccess : lastSuccess? m.annotations = some (n, description)) (hs : s = .code n) :
      Declares g k m o s (o.success m)

inductive Controller.Declares (g : Graph) (k : Controller) (s : Status) : Response → Prop
  | response {written : Option String × Option TypeExpr} {r : Response}
      (hinherited : lastResponse? k.annotations s = some written)
      (hr : r.Renders g k.origin s written) : Declares g k s r

/-- The controller declares the status that the method declares for its success only. -/
def Method.Overlaid (k : Controller) (m : Method) (s : Status) : Prop :=
  lastResponse? m.annotations s = none ∧ (lastResponse? k.annotations s).isSome ∧
    ∃ n description, lastSuccess? m.annotations = some (n, description) ∧ s = .code n

structure Operation.Overrides (g : Graph) (k : Controller) (m : Method) (o : Operation)
    (s : Status) : Prop where
  own : (lastResponse? m.annotations s).isSome ∨
      (∃ n description, lastSuccess? m.annotations = some (n, description) ∧ s = .code n) →
    ∃ r, o.responses.find? s = some r ∧ m.Declares g k o s r
  inherited : lastResponse? m.annotations s = none →
    (∀ n description, lastSuccess? m.annotations = some (n, description) → s ≠ .code n) →
    (lastResponse? k.annotations s).isSome →
    ∃ r, o.responses.find? s = some r ∧ k.Declares g s r

/-- The entry of a status: the response of the method, or else that of the controller, or else that
of success. -/
inductive Operation.Entry (g : Graph) (k : Controller) (m : Method) (o : Operation) (s : Status) :
    Option Response → Prop
  | own {written : Option String × Option TypeExpr} {r : Response}
      (hown : lastResponse? m.annotations s = some written)
      (hr : r.Renders g (m.origin k) s written) : Entry g k m o s (some r)
  | inherited {written : Option String × Option TypeExpr} {r : Response}
      (hown : lastResponse? m.annotations s = none)
      (hinherited : lastResponse? k.annotations s = some written)
      (hr : r.Renders g k.origin s written) : Entry g k m o s (some r)
  | success (hown : lastResponse? m.annotations s = none)
      (hinherited : lastResponse? k.annotations s = none) (hs : s = .code o.successStatus) :
      Entry g k m o s (some (o.success m))
  | absent (hown : lastResponse? m.annotations s = none)
      (hinherited : lastResponse? k.annotations s = none) (hs : s ≠ .code o.successStatus) :
      Entry g k m o s none

structure Operation.Answers (g : Graph) (k : Controller) (m : Method) (o : Operation) :
    Prop where
  returns : ∃ t, m.returns = some t ∧
    Obtains Registry.Grounded (Extraction.payload g t (m.origin k)) o.returns
  status : o.successStatus =
    ((lastSuccess? m.annotations).map Prod.fst).getD (if o.returns.isSome then 200 else 204)
  entry : ∀ s, o.Entry g k m s (o.responses.find? s)

namespace Operation.Answers

variable {g : Graph} {k : Controller} {m : Method} {o : Operation} (h : o.Answers g k m)

include h

theorem status_of_success {n : Nat} {description : Option String}
    (hsuccess : lastSuccess? m.annotations = some (n, description)) : o.successStatus = n := by
  rw [h.status, hsuccess]
  rfl

theorem success_isSome : (o.responses.find? (.code o.successStatus)).isSome := by
  have hentry := h.entry (.code o.successStatus)
  generalize o.responses.find? (.code o.successStatus) = entry at hentry
  cases hentry with
  | own => rfl
  | inherited => rfl
  | success => rfl
  | absent _ _ hs => exact absurd rfl hs

/-- Only a success annotation is not heeded, where the controller declares its status. -/
theorem overrides {s : Status} (hs : ¬ m.Overlaid k s) : o.Overrides g k m s := by
  have hentry := h.entry s
  generalize hfind : o.responses.find? s = entry at hentry
  cases hentry with
  | @own _ r hown hr =>
    constructor
    · exact fun _ => ⟨r, hfind, .response hown hr⟩
    · intro hnone
      simp [hown] at hnone
  | @inherited _ r hown hinherited hr =>
    have hnosuccess : ∀ n description, lastSuccess? m.annotations = some (n, description) →
        s ≠ .code n := fun n description hsuccess hcode =>
      hs ⟨hown, by simp [hinherited], n, description, hsuccess, hcode⟩
    constructor
    · rintro (hresponse | ⟨n, description, hsuccess, hcode⟩)
      · simp [hown] at hresponse
      · exact absurd hcode (hnosuccess n description hsuccess)
    · exact fun _ _ _ => ⟨r, hfind, .response hinherited hr⟩
  | success hown hinherited hcode =>
    constructor
    · rintro (hresponse | ⟨n, description, hsuccess, hn⟩)
      · simp [hown] at hresponse
      · exact ⟨_, hfind, .success hown hsuccess hn⟩
    · intro _ _ hresponse
      simp [hinherited] at hresponse
  | absent hown hinherited hne =>
    constructor
    · rintro (hresponse | ⟨n, description, hsuccess, rfl⟩)
      · simp [hown] at hresponse
      · exact absurd (h.status_of_success hsuccess ▸ rfl) hne
    · intro _ _ hresponse
      simp [hinherited] at hresponse

/-- There the entry is what the controller declares. -/
theorem overlaid {s : Status} (hs : m.Overlaid k s) :
    ∃ r, o.responses.find? s = some r ∧ k.Declares g s r := by
  obtain ⟨hown, hinherited, -⟩ := hs
  obtain ⟨written, hwritten⟩ := Option.isSome_iff_exists.mp hinherited
  have hentry := h.entry s
  generalize o.responses.find? s = entry at hentry ⊢
  cases hentry with
  | own hsome _ => simp [hown] at hsome
  | inherited _ hinherited hr => exact ⟨_, rfl, .response hinherited hr⟩
  | success _ hnone _ => simp [hwritten] at hnone
  | absent _ hnone _ => simp [hwritten] at hnone

end Operation.Answers

namespace Extraction

structure Tabulates (g : Graph) (o : Origin) (uses : List AnnotationUse)
    (table : Entries Status Response) : Prop where
  nodup : table.keys.Nodup
  declared : ∀ s written, lastResponse? uses s = some written →
    ∃ r, table.find? s = some r ∧ r.Renders g o s written
  undeclared : ∀ s, lastResponse? uses s = none → table.find? s = none

section

variable {g : Graph} {o : Origin} {uses : List AnnotationUse} {table : Entries Status Response}

theorem Tabulates.nil : Tabulates g o [] [] where
  nodup := List.nodup_nil
  declared := nofun
  undeclared _ _ := rfl

theorem Tabulates.skip (h : Tabulates g o uses table) {use : AnnotationUse}
    (huse : ∀ s, use.content.responseFor? s = none) : Tabulates g o (uses ++ [use]) table where
  nodup := h.nodup
  declared s := by
    rw [AnnotationUse.lastResponse?_concat, huse, Option.none_or]
    exact h.declared s
  undeclared s := by
    rw [AnnotationUse.lastResponse?_concat, huse, Option.none_or]
    exact h.undeclared s

theorem Tabulates.insert (h : Tabulates g o uses table) {use : AnnotationUse} {status : Status}
    {description : Option String} {type : Option TypeExpr}
    (huse : use.content = .response status description type) {r : Response}
    (hr : r.Renders g o status (description, type)) :
    Tabulates g o (uses ++ [use]) (table.insert status r) where
  nodup := Entries.nodup_insert h.nodup status r
  declared s written hwritten := by
    rw [AnnotationUse.lastResponse?_concat, huse, Annotation.responseFor?] at hwritten
    rw [Entries.find?_insert]
    split at hwritten
    · rename_i hs
      subst hs
      cases hwritten
      exact ⟨r, if_pos rfl, hr⟩
    · rename_i hs
      rw [if_neg hs]
      exact h.declared s written hwritten
  undeclared s hnone := by
    rw [AnnotationUse.lastResponse?_concat, huse, Annotation.responseFor?] at hnone
    rw [Entries.find?_insert]
    split at hnone
    · cases hnone
    · rename_i hs
      rw [if_neg hs]
      exact h.undeclared s hnone

end

section

variable {g : Graph} (o : Origin)

theorem response_renders (s : Status) (description : Option String) (type : Option TypeExpr) :
    Ensures Registry.Grounded (response g o s description type)
      (Response.Renders g o s (description, type)) := by
  have hwording : ∀ schema, (⟨description.getD (match s with
      | .default => "Unexpected error"
      | .code n => toString n), schema⟩ : Response).description = description.getD s.wording := by
    intro schema
    cases s <;> rfl
  unfold response
  cases type with
  | none => exact .pure ⟨hwording none, fun _ => rfl, nofun⟩
  | some t =>
    refine (payload_keeps Registry.grounded_invariant g t o).obtains.bind fun schema hschema => ?_
    refine .pure ⟨hwording schema, nofun, fun t' ht => ?_⟩
    cases ht
    exact hschema

theorem addToContext_tabulates (uses : List AnnotationUse) {context : Context}
    (h : Tabulates g o uses context.responses) (use : AnnotationUse) :
    Ensures Registry.Grounded (addToContext g o context use) fun context' =>
      context'.name = context.name ∧ Tabulates g o (uses ++ [use]) context'.responses := by
  unfold addToContext
  cases huse : use.content with
  | response status description type =>
    exact (response_renders o status description type).bind fun r hr =>
      .pure ⟨rfl, h.insert huse hr⟩
  | _ => exact .pure ⟨rfl, h.skip fun s => by rw [huse]; rfl⟩

/-- A controller passes on its name and the last response for each status. -/
theorem contextOf_tabulates (combination : Combination) (k : Controller) :
    Ensures Registry.Grounded (contextOf g combination k) fun context =>
      context.name = k.id.name ∧ Tabulates g k.origin k.annotations context.responses := by
  rw [contextOf_eq]
  apply Ensures.unread.seq
  intro _
  refine Ensures.foldlM_carries (P := fun uses (context : Context) =>
    context.name = k.id.name ∧ Tabulates g k.origin uses context.responses) ⟨rfl, .nil⟩ ?_
  intro uses context use hcontext
  refine (addToContext_tabulates k.origin uses hcontext.2 use).weaken fun context' hcontext' => ?_
  exact ⟨hcontext'.1.trans hcontext.1, hcontext'.2⟩

/-- The remarks on a method have its last success annotation and its last response for each
status. -/
theorem remarks_tabulate (start : Remarks) (hsuccess : start.success = none)
    (hresponses : start.responses = []) (uses : List AnnotationUse) :
    Ensures Registry.Grounded (uses.foldlM (Remarks.add g o) start) fun remarks =>
      remarks.success = lastSuccess? uses ∧ Tabulates g o uses remarks.responses := by
  refine Ensures.foldlM_carries (P := fun uses (remarks : Remarks) =>
    remarks.success = lastSuccess? uses ∧ Tabulates g o uses remarks.responses)
    ⟨hsuccess, hresponses ▸ .nil⟩ ?_
  intro uses remarks use hremarks
  unfold Remarks.add
  rw [AnnotationUse.lastSuccess?_concat]
  cases huse : use.content with
  | response status description type =>
    exact (response_renders o status description type).bind fun r hr =>
      .pure ⟨hremarks.1, hremarks.2.insert huse hr⟩
  | successResponse status description =>
    exact .pure ⟨rfl, hremarks.2.skip fun s => by rw [huse]; rfl⟩
  | _ => exact .pure ⟨hremarks.1, hremarks.2.skip fun s => by rw [huse]; rfl⟩

end

theorem find?_allResponses (success : Nat × Response) {inherited own : Entries Status Response}
    (hinherited : inherited.keys.Nodup) (hown : own.keys.Nodup) (s : Status) :
    (allResponses success inherited own).find? s = (own.find? s).or ((inherited.find? s).or
      (if .code success.1 = s then some success.2 else none)) := by
  unfold allResponses
  rw [List.foldl_append, Entries.find?_foldl_insert, Entries.find?_foldl_insert,
    Entries.find?_reverse hown, Entries.find?_reverse hinherited]
  rfl

/-- What a method answers is put together from the two tables and its success. -/
theorem entry_of_tables {g : Graph} {k : Controller} {m : Method} {o : Operation}
    {inherited own : Entries Status Response}
    (hinherited : Tabulates g k.origin k.annotations inherited)
    (hown : Tabulates g (m.origin k) m.annotations own)
    (hresponses : o.responses = allResponses (o.successStatus, o.success m) inherited own)
    (s : Status) : o.Entry g k m s (o.responses.find? s) := by
  rw [hresponses, find?_allResponses _ hinherited.nodup hown.nodup]
  cases hm : lastResponse? m.annotations s with
  | some written =>
    obtain ⟨r, hr, hrenders⟩ := hown.declared s written hm
    rw [hr]
    exact .own hm hrenders
  | none =>
    rw [hown.undeclared s hm, Option.none_or]
    cases hk : lastResponse? k.annotations s with
    | some written =>
      obtain ⟨r, hr, hrenders⟩ := hinherited.declared s written hk
      rw [hr]
      exact .inherited hm hk hrenders
    | none =>
      rw [hinherited.undeclared s hk, Option.none_or]
      split
      · rename_i hs
        exact .success hm hk hs.symm
      · rename_i hs
        exact .absent hm hk (Ne.symm hs)

theorem assemble_successStatus (combination : Combination) (context : Context) (m : Method)
    (verb : Verb) (tail : String) (ps : List BoundParameter) (returns : Option Schema)
    (remarks : Remarks) :
    (assemble combination context m verb tail ps returns remarks).successStatus =
      (remarks.success.map Prod.fst).getD (if returns.isSome then 200 else 204) := by
  unfold assemble
  cases remarks.success with
  | none => rfl
  | some success => rfl

theorem assemble_responses (combination : Combination) (context : Context) (m : Method)
    (verb : Verb) (tail : String) (ps : List BoundParameter) (returns : Option Schema)
    {remarks : Remarks} (hsuccess : remarks.success = lastSuccess? m.annotations) :
    let o := assemble combination context m verb tail ps returns remarks
    o.responses =
      allResponses (o.successStatus, o.success m) context.responses remarks.responses := by
  unfold assemble Operation.success
  rw [← hsuccess]
  cases remarks.success with
  | none => rfl
  | some success => rfl

theorem operationOf_answers {g : Graph} (combination : Combination) {k : Controller}
    {context : Context} (hname : context.name = k.id.name)
    (hcontext : Tabulates g k.origin k.annotations context.responses) (m : Method) (verb : Verb)
    (tail : String) :
    Ensures Registry.Grounded (operationOf g combination context m verb tail)
      (Operation.Answers g k m) := by
  have hparameters := parameters_ensure g
    (boundParameter_described Registry.grounded_invariant g) m (Route.join context.stem tail)
    (context.name ++ "." ++ m.name)
  have hreturned : Ensures Registry.Grounded (returned g m (context.name ++ "." ++ m.name))
      fun returns => ∃ t, m.returns = some t ∧
        Obtains Registry.Grounded (payload g t (m.origin k)) returns := by
    unfold returned
    rw [hname]
    cases hm : m.returns with
    | none => exact .fail
    | some t =>
      exact (payload_keeps Registry.grounded_invariant g t _).obtains.weaken fun _ h => ⟨t, rfl, h⟩
  rw [operationOf_eq]
  refine Ensures.unread.seq fun _ => hparameters.seq fun ps => ?_
  refine hreturned.bind fun returns hreturns => ?_
  rw [hname]
  refine (remarks_tabulate (m.origin k) _ rfl rfl m.annotations).bind fun remarks hremarks => ?_
  have hstatus := assemble_successStatus combination context m verb tail ps returns remarks
  rw [hremarks.1] at hstatus
  exact .pure ⟨hreturns, hstatus, entry_of_tables hcontext hremarks.2
    (assemble_responses combination context m verb tail ps returns hremarks.1)⟩

inductive Answered (g : Graph) : Controller × Method → Option Operation → Prop
  | passed {k : Controller} {m : Method} (hverbs : m.verbs = []) : Answered g (k, m) none
  | listed {k : Controller} {m : Method} {o : Operation} (hverbs : m.verbs ≠ [])
      (hanswers : o.Answers g k m) (hsuccess : (o.responses.find? (.code o.successStatus)).isSome)
      (hoverrides : ∀ s, ¬ m.Overlaid k s → o.Overrides g k m s)
      (hoverlaid : ∀ s, m.Overlaid k s → ∃ r, o.responses.find? s = some r ∧ k.Declares g s r) :
      Answered g (k, m) (some o)

theorem operationOf?_answered (g : Graph) (combination : Combination) (k : Controller)
    (context : Context)
    (hcontext : context.name = k.id.name ∧ Tabulates g k.origin k.annotations context.responses)
    (m : Method) :
    Ensures Registry.Grounded (operationOf? g combination context m) (Answered g (k, m)) := by
  apply (Ensures.ofExcept fun _ h => h).bind
  intro v hv
  cases v with
  | none => exact .pure (.passed (by rw [Method.verbs, verbOf_eq_none hv, List.filterMap_nil]))
  | some v =>
    have hverbs : m.verbs ≠ [] := by simp [verbs_of_verbOf hv]
    exact (operationOf_answers combination hcontext.1 hcontext.2 m v.1 v.2).bind fun o ho =>
      .pure (.listed hverbs ho ho.success_isSome (fun _ => ho.overrides) fun _ => ho.overlaid)

end Extraction

/-- Every method with a verb has an operation whose entry for a status is the last response of the
method for it, or else the last one of the controller, or else that of success. So the method
overrides its controller, unless the controller declares the status that the method declares for its
success only. An operation always has an entry for its success. -/
theorem Graph.contract_responses {g : Graph} {combination : Combination} {c : Contract}
    (h : g.contract combination = .ok c) :
    ∃ os, List.Forall₂ (Extraction.Answered g) g.methods os ∧ c.operations = os.reduceOption :=
  Graph.contract_related_under h (Extraction.contextOf_tabulates combination)
    (Extraction.operationOf?_answered g combination)

namespace Sample

def describing (s : Status) (description : String) : AnnotationUse :=
  ⟨.response s (some description) none, .memory⟩

def answering : Graph where
  declarations := []
  controllers := [{ posting [] with
    annotations := [describing (.code 404) "Lost", describing (.code 404) "Missing",
      describing (.code 200) "Shared"]
    methods := [
      ⟨"a", [⟨.verb .post "a", .memory⟩, describing .default "Trouble"], [],
        some (.keyword .void), none, .memory⟩,
      ⟨"b", [⟨.verb .post "b", .memory⟩, describing (.code 404) "Gone",
        ⟨.successResponse 201 (some "Created"), .memory⟩], [], some (.keyword .string), none,
        .memory⟩,
      ⟨"c", [⟨.verb .post "c", .memory⟩, ⟨.successResponse 200 (some "Fine"), .memory⟩], [],
        some (.keyword .string), none, .memory⟩] }]

theorem answering_responses : ∃ c, answering.contract .anyOf = .ok c ∧
    c.operations.map (fun o => o.responses.map fun x => (x.1, x.2.description)) =
      [[(.code 204, "No content"), (.code 404, "Missing"), (.code 200, "Shared"),
          (.default, "Trouble")],
        [(.code 201, "Created"), (.code 404, "Gone"), (.code 200, "Shared")],
        [(.code 200, "Shared"), (.code 404, "Missing")]] ∧
    ∃ os, List.Forall₂ (Extraction.Answered answering) answering.methods os ∧
      c.operations = os.reduceOption := by
  have hcheck : ∃ c o, answering.contract .anyOf = .ok c ∧ o ∈ c.operations ∧
      decide (c.operations.map (fun o => o.responses.map fun x => (x.1, x.2.description)) =
        [[(.code 204, "No content"), (.code 404, "Missing"), (.code 200, "Shared"),
            (.default, "Trouble")],
          [(.code 201, "Created"), (.code 404, "Gone"), (.code 200, "Shared")],
          [(.code 200, "Shared"), (.code 404, "Missing")]]) = true :=
    exists_operation (by decide +kernel)
  obtain ⟨c, o, hc, -, hresponses⟩ := hcheck
  exact ⟨c, hc, of_decide_eq_true hresponses, Graph.contract_responses hc⟩

def fine : Method :=
  ⟨"f", [⟨.verb .get "", .memory⟩, ⟨.successResponse 200 (some "Fine"), .memory⟩], [],
    some (.keyword .string), none, .memory⟩

def overlaying : Controller :=
  { posting [] with
    annotations := [describing (.code 200) "From the controller"], methods := [fine] }

/-- The description of the method is lost. -/
theorem overlaying_overlaid : ∃ c o, (Graph.mk [] [overlaying]).contract .anyOf = .ok c ∧
    o ∈ c.operations ∧ ¬ o.Overrides ⟨[], [overlaying]⟩ overlaying fine (.code 200) := by
  have hcheck : ∃ c o, (Graph.mk [] [overlaying]).contract .anyOf = .ok c ∧ o ∈ c.operations ∧
      (o.responses.find? (.code 200)).any (·.description = "From the controller") = true :=
    exists_operation (by decide +kernel)
  obtain ⟨c, o, hc, ho, hentry⟩ := hcheck
  refine ⟨c, o, hc, ho, fun hoverrides => ?_⟩
  obtain ⟨r, hr, hdeclares⟩ := hoverrides.own (.inr ⟨200, some "Fine", rfl, rfl⟩)
  rw [hr] at hentry
  cases hdeclares with
  | response hown _ => cases hown
  | success _ _ _ =>
    have hwording : (o.success fine).description = "Fine" := rfl
    simp [hwording] at hentry

end Sample

end RouteContract

import RouteContract.Extraction
import RouteContract.Proofs.Resolution.Termination

/-!
# What contracts are made of

Extraction resolves types and puts operations together. It keeps every
invariant of resolution, so the definitions of a contract are objects and
enums, and every parameter that the caller supplies has a schema.
-/

set_option autoImplicit false

namespace RouteContract

def BoundParameter.Described (p : BoundParameter) : Prop :=
  p.source.isValidated → p.schema.isSome

namespace Extraction

open Resolve (Ensures)

def returned (g : Graph) (m : Method) (title : String) : Resolve (Option Schema) :=
  match m.returns with
  | some t => payload g t ⟨title, m.location⟩
  | none => Resolve.fail (.missingType (.returnType title) m.location)

def assemble (combination : Combination) (context : Context) (m : Method) (verb : Verb)
    (tail : String) (parameters : List BoundParameter) (returns : Option Schema)
    (remarks : Remarks) : Operation :=
  let (status, description) := remarks.success.getD (if returns.isSome then 200 else 204, none)
  let wording := if returns.isSome then "Ok" else "No content"
  let body := bodyObject parameters
  { controller := context.name
    method := m.name
    verb
    path := Route.join context.stem tail
    stem := context.stem
    parameters
    returns
    successStatus := status
    responses := allResponses (status, ⟨description.getD wording, returns⟩) context.responses
      remarks.responses
    security := ((Security.declared m.annotations combination).or context.security).getD []
    tags := remarks.tags
    operationId := remarks.operationId.getD m.name
    description := m.description
    deprecated := remarks.deprecated
    hidden := remarks.hidden
    implicitBody := if body.properties.isEmpty then none else some body }

def Context.start (combination : Combination) (c : Controller) : Context where
  name := c.id.name
  stem := Route.join "" ""
  tags := []
  security := Security.declared c.annotations combination
  responses := []
  hidden := false
  deprecated := false

def Remarks.start (context : Context) : Remarks :=
  ⟨none, [], context.tags, none, context.hidden, context.deprecated⟩

theorem operationOf_eq (g : Graph) (combination : Combination) (context : Context) (m : Method)
    (verb : Verb) (tail : String) :
    operationOf g combination context m verb tail =
      Resolve.ofExcept (AnnotationUse.checkPlacement m.annotations .method) >>= fun _ =>
        parameters g m (Route.join context.stem tail) (context.name ++ "." ++ m.name) >>= fun ps =>
          returned g m (context.name ++ "." ++ m.name) >>= fun returns =>
            m.annotations.foldlM (Remarks.add g ⟨context.name ++ "." ++ m.name, m.location⟩)
              (Remarks.start context) >>= fun remarks =>
              return assemble combination context m verb tail ps returns remarks := by
  unfold operationOf returned
  cases m.returns with
  | none => rfl
  | some t => rfl

theorem contextOf_eq (g : Graph) (combination : Combination) (c : Controller) :
    contextOf g combination c =
      Resolve.ofExcept (AnnotationUse.checkPlacement c.annotations .controller) >>= fun _ =>
        c.annotations.foldlM (addToContext g ⟨c.id.text, c.location⟩)
          (Context.start combination c) := rfl

theorem parametersFrom_cons (g : Graph) (template operation : String) (taken : Taken) (p : Parameter)
    (ps : List Parameter) :
    parametersFrom g template operation taken (p :: ps) =
      Resolve.ofExcept (AnnotationUse.checkPlacement p.annotations .parameter) >>= fun _ =>
        Resolve.ofExcept (Route.bind p template operation) >>= fun b =>
          Resolve.ofExcept (taken.add p b operation) >>= fun taken =>
            boundParameter g p b operation >>= fun bound =>
              parametersFrom g template operation taken ps >>= fun x =>
                return (bound :: x.1, x.2) := rfl

section

variable {I : Registry → Prop} (hI : Registry.Invariant I) (g : Graph)
  {P : BoundParameter → Prop}
  (hP : ∀ p b operation, Ensures I (boundParameter g p b operation) P)

include hI

theorem payload_keeps (t : TypeExpr) (o : Origin) : Ensures I (payload g t o) fun _ => True :=
  (Resolve.resolveType_keeps hI g t o).seq fun _ => .pure trivial

theorem response_keeps (o : Origin) (status : Status) (description : Option String)
    (type : Option TypeExpr) : Ensures I (response g o status description type) fun _ => True := by
  unfold response
  cases type with
  | none => exact .pure trivial
  | some t => exact (payload_keeps hI g t o).seq fun _ => .pure trivial

theorem addToContext_keeps (o : Origin) (context : Context) (use : AnnotationUse) :
    Ensures I (addToContext g o context use) fun _ => True := by
  unfold addToContext
  split
  case h_5 => exact (response_keeps hI g o _ _ _).seq fun _ => .pure trivial
  all_goals exact .pure trivial

theorem contextOf_keeps (combination : Combination) (c : Controller) :
    Ensures I (contextOf g combination c) fun _ => True := by
  unfold contextOf
  apply Ensures.unread.seq
  intro _
  exact .foldlM trivial fun context _ use _ => addToContext_keeps hI g _ context use

theorem add_remark_keeps (o : Origin) (r : Remarks) (use : AnnotationUse) :
    Ensures I (r.add g o use) fun _ => True := by
  unfold Remarks.add
  split
  case h_2 => exact (response_keeps hI g o _ _ _).seq fun _ => .pure trivial
  all_goals exact .pure trivial

theorem remarks_keep (o : Origin) (remarks : Remarks) (uses : List AnnotationUse) :
    Ensures I (uses.foldlM (Remarks.add g o) remarks) fun _ => True :=
  .foldlM trivial fun r _ use _ => add_remark_keeps hI g o r use

theorem returned_keeps (m : Method) (title : String) :
    Ensures I (returned g m title) fun _ => True := by
  unfold returned
  split
  · exact payload_keeps hI g _ _
  · exact .fail

theorem boundParameter_described (p : Parameter) (b : Route.Binding) (operation : String) :
    Ensures I (boundParameter g p b operation) BoundParameter.Described := by
  unfold boundParameter
  split
  · rename_i h
    exact .pure fun hv => by simp [hv] at h
  · split
    · exact .fail
    · exact (Resolve.resolveProperty_keeps hI g _ _).seq fun _ => .pure fun _ => rfl

omit hI

include hP

theorem parametersFrom_ensure (template operation : String) (taken : Taken) (ps : List Parameter) :
    Ensures I (parametersFrom g template operation taken ps) fun x => ∀ p ∈ x.1, P p := by
  induction ps generalizing taken with
  | nil => exact .pure (by simp)
  | cons p ps ih =>
    refine Ensures.unread.seq fun _ => Ensures.unread.seq fun b => Ensures.unread.seq fun taken => ?_
    refine (hP p b operation).bind fun bound hbound => (ih taken).bind fun x hx => .pure ?_
    intro q hq
    rcases List.mem_cons.mp hq with rfl | hq
    · exact hbound
    · exact hx q hq

theorem parameters_ensure (m : Method) (template operation : String) :
    Ensures I (parameters g m template operation) fun ps => ∀ p ∈ ps, P p := by
  apply (parametersFrom_ensure g hP template operation .nothing m.parameters).bind
  intro x hx
  obtain ⟨bound, taken⟩ := x
  dsimp only
  split
  · exact .fail
  · exact .pure hx

include hI

theorem operationOf_ensures (combination : Combination) (context : Context) (m : Method)
    (verb : Verb) (tail : String) :
    Ensures I (operationOf g combination context m verb tail) fun o =>
      (∀ p ∈ o.parameters, P p) ∧
        ∀ b, o.implicitBody = some b → b = bodyObject o.parameters ∧ b.properties ≠ [] := by
  rw [operationOf_eq]
  refine Ensures.unread.seq fun _ => (parameters_ensure g hP m _ _).bind fun ps hps => ?_
  apply (returned_keeps hI g m _).seq
  intro returns
  refine (remarks_keep hI g _ _ _).seq fun remarks => .pure ⟨hps, ?_⟩
  intro b hb
  simp only [assemble] at hb
  split at hb
  · cases hb
  · rename_i hproperties
    cases hb
    exact ⟨rfl, by simpa using hproperties⟩

end

section

variable {I : Registry → Prop} (hI : Registry.Invariant I) (g : Graph) {Q : Operation → Prop}
  (hQ : ∀ combination context m verb tail,
    Ensures I (operationOf g combination context m verb tail) Q)

include hQ

theorem addMethod_ensures (combination : Combination) (context : Context) (m : Method)
    {operations : List Operation} (ho : ∀ o ∈ operations, Q o) :
    Ensures I (addMethod g combination context operations m) fun os => ∀ o ∈ os, Q o := by
  apply Ensures.unread.seq
  intro verb
  cases verb with
  | none => exact .pure ho
  | some v =>
    obtain ⟨verb, tail⟩ := v
    apply (hQ combination context m verb tail).bind
    intro o hnew
    refine .ofExcept fun os h => ?_
    unfold addOperation at h
    split at h
    · cases h
    · cases h
      intro o' ho'
      rcases List.mem_append.mp ho' with ho' | ho'
      · exact ho o' ho'
      · obtain rfl := List.mem_singleton.mp ho'
        exact hnew

include hI

theorem addController_ensures (combination : Combination) (c : Controller)
    {operations : List Operation} (ho : ∀ o ∈ operations, Q o) :
    Ensures I (addController g combination operations c) fun os => ∀ o ∈ os, Q o := by
  apply (contextOf_keeps hI g combination c).seq
  intro context
  exact .foldlM ho fun os hos m _ => addMethod_ensures g hQ combination context m hos

/-- The definitions are those of a registry under the invariant, and every operation is one that was
found. -/
theorem extract_ensures (combination : Combination) :
    Ensures I (extract g combination) fun c =>
      (∃ r, I r ∧ r.freeze = .ok c.definitions) ∧ ∀ o ∈ c.operations, Q o := by
  have hoperations : Ensures I (g.controllers.foldlM (addController g combination) [])
      fun os => ∀ o ∈ os, Q o :=
    .foldlM (by simp) fun os hos c _ => addController_ensures hI g hQ combination c hos
  refine hoperations.bind fun os hos => Ensures.registry.bind fun r hr => .ofExcept fun c hc => ?_
  simp only [finish, bind, Except.bind, pure, Except.pure] at hc
  split at hc
  · cases hc
  · split at hc
    · cases hc
    · rename_i definitions hd
      cases hc
      exact ⟨⟨r, hr, hd⟩, hos⟩

end

end Extraction

section

variable {g : Graph} {combination : Combination} {c : Contract}

theorem Graph.contract_ensures {I : Registry → Prop} (hI : Registry.Invariant I)
    (hempty : I .empty) {Q : Operation → Prop}
    (hQ : ∀ combination context m verb tail,
      Resolve.Ensures I (Extraction.operationOf g combination context m verb tail) Q)
    (h : g.contract combination = .ok c) :
    (∃ r, I r ∧ r.freeze = .ok c.definitions) ∧ ∀ o ∈ c.operations, Q o := by
  obtain ⟨-, hgive⟩ := Extraction.extract_ensures hI g hQ combination (.empty, []) hempty
  exact (hgive c _ (Prod.ext h rfl)).1

theorem Graph.contract_grounded (h : g.contract combination = .ok c) : c.definitions.Grounded := by
  obtain ⟨⟨r, hr, hfreeze⟩, -⟩ := Graph.contract_ensures Registry.grounded_invariant
    Registry.grounded_empty (Extraction.operationOf_ensures Registry.grounded_invariant g
      (Extraction.boundParameter_described Registry.grounded_invariant g)) h
  exact fun name d hd => hr.freeze hfreeze hd

/-- Every operation takes what it says of its parameters from their bindings. -/
theorem Graph.contract_operation (h : g.contract combination = .ok c) {o : Operation}
    (ho : o ∈ c.operations) :
    (∀ p ∈ o.parameters, p.Described) ∧
      ∀ b, o.implicitBody = some b → b = bodyObject o.parameters ∧ b.properties ≠ [] :=
  (Graph.contract_ensures Registry.grounded_invariant Registry.grounded_empty
    (Extraction.operationOf_ensures Registry.grounded_invariant g
      (Extraction.boundParameter_described Registry.grounded_invariant g)) h).2 o ho

theorem Graph.contract_described (h : g.contract combination = .ok c) {o : Operation}
    (ho : o ∈ c.operations) {p : BoundParameter} (hp : p ∈ o.parameters) : p.Described :=
  (Graph.contract_operation h ho).1 p hp

end

end RouteContract

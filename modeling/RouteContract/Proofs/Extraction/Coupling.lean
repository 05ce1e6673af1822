import RouteContract.Proofs.Extraction.Checks
import RouteContract.Proofs.Extraction.Contracts

/-!
# Extraction side by side

Extraction resolves the types that stand in controllers and puts schemas into
parameters, responses and operations. What all parts of resolution keep is kept
by extraction too, and an operation mentions what these schemas mention.
-/

set_option autoImplicit false

namespace RouteContract

inductive Method.Writes (m : Method) : TypeExpr → Prop
  | parameter {p : Parameter} {t : TypeExpr} (hp : p ∈ m.parameters) (ht : p.type = some t) :
      Writes m t.stripUndefined.1
  | returns {t : TypeExpr} (ht : m.returns = some t) : Writes m t
  | response {use : AnnotationUse} {status : Status} {description : Option String} {t : TypeExpr}
      (hu : use ∈ m.annotations) (ht : use.content = .response status description (some t)) :
      Writes m t

inductive Controller.Writes (c : Controller) : TypeExpr → Prop
  | response {use : AnnotationUse} {status : Status} {description : Option String} {t : TypeExpr}
      (hu : use ∈ c.annotations) (ht : use.content = .response status description (some t)) :
      Writes c t
  | method {m : Method} {t : TypeExpr} (hm : m ∈ c.methods) (ht : m.Writes t) : Writes c t

namespace Extraction

open Schema (allReferences)
open Resolve (Coupling Judgement ofExcept)

def responseSchemas (responses : Entries Status Response) : List Schema :=
  responses.values.filterMap (·.schema)

theorem mem_responseSchemas {responses : Entries Status Response} {s : Schema} :
    s ∈ responseSchemas responses ↔ ∃ status r, (status, r) ∈ responses ∧ r.schema = some s := by
  simp only [responseSchemas, Entries.values, List.mem_filterMap, List.mem_map, Prod.exists,
    exists_eq_right]
  exact ⟨fun ⟨r, ⟨status, hr⟩, hs⟩ => ⟨status, r, hr, hs⟩,
    fun ⟨status, r, hr, hs⟩ => ⟨r, ⟨status, hr⟩, hs⟩⟩

theorem mem_responseSchemas_insert {responses : Entries Status Response} {status : Status}
    {r : Response} {s : Schema} (h : s ∈ responseSchemas (responses.insert status r)) :
    r.schema = some s ∨ s ∈ responseSchemas responses := by
  obtain ⟨status', r', hr, hs⟩ := mem_responseSchemas.mp h
  rcases Entries.mem_insert hr with hr | ⟨-, rfl⟩
  · exact .inr (mem_responseSchemas.mpr ⟨status', r', hr, hs⟩)
  · exact .inl hs

theorem mem_responseSchemas_all {success : Nat × Response} {inherited own : Entries Status Response}
    {s : Schema} (h : s ∈ responseSchemas (allResponses success inherited own)) :
    success.2.schema = some s ∨ s ∈ responseSchemas inherited ∨ s ∈ responseSchemas own := by
  have general : ∀ rs table : Entries Status Response,
      s ∈ responseSchemas (rs.foldl (fun table x => table.insert x.1 x.2) table) →
      s ∈ responseSchemas table ∨ s ∈ responseSchemas rs := by
    intro rs
    induction rs with
    | nil => exact fun table h => .inl h
    | cons x rs ih =>
      intro table h
      rcases ih _ h with h | h
      · rcases mem_responseSchemas_insert h with h | h
        · exact .inr (mem_responseSchemas.mpr ⟨x.1, x.2, List.mem_cons_self, h⟩)
        · exact .inl h
      · obtain ⟨status, r, hr, hs⟩ := mem_responseSchemas.mp h
        exact .inr (mem_responseSchemas.mpr ⟨status, r, List.mem_cons_of_mem x hr, hs⟩)
  rcases general (inherited ++ own) _ h with h | h
  · obtain ⟨status, r, hr, hs⟩ := mem_responseSchemas.mp h
    cases List.mem_singleton.mp hr
    exact .inl hs
  · obtain ⟨status, r, hr, hs⟩ := mem_responseSchemas.mp h
    rcases List.mem_append.mp hr with hr | hr
    · exact .inr (.inl (mem_responseSchemas.mpr ⟨status, r, hr, hs⟩))
    · exact .inr (.inr (mem_responseSchemas.mpr ⟨status, r, hr, hs⟩))

def parameterSchemas (ps : List BoundParameter) : List Schema := ps.filterMap (·.schema)

def operationSchemas (operations : List Operation) : List Schema :=
  operations.flatMap Operation.schemas

/-- An operation has the schemas of its parameters, of its responses and of what it returns. -/
theorem mem_assemble_schemas {combination : Combination} {context : Context} {m : Method}
    {verb : Verb} {tail : String} {ps : List BoundParameter} {returns : Option Schema}
    {remarks : Remarks} {s : Schema}
    (h : s ∈ (assemble combination context m verb tail ps returns remarks).schemas) :
    s ∈ parameterSchemas ps ∨ s ∈ responseSchemas context.responses ∨
      s ∈ responseSchemas remarks.responses ∨ s ∈ returns.toList := by
  have hs : s ∈ parameterSchemas ps ∨
      s ∈ responseSchemas
        (assemble combination context m verb tail ps returns remarks).responses ∨
      s ∈ returns.toList := by
    simp only [Operation.schemas, List.mem_append, or_assoc] at h
    exact h
  rcases hs with hs | hs | hs
  · exact .inl hs
  · rcases mem_responseSchemas_all hs with hs | hs | hs
    · exact .inr (.inr (.inr (Option.mem_toList.mpr hs)))
    · exact .inr (.inl hs)
    · exact .inr (.inr (.inl hs))
  · exact .inr (.inr (.inr hs))

def operationOf? (g : Graph) (combination : Combination) (context : Context) (m : Method) :
    Resolve (Option Operation) :=
  ofExcept (verbOf context m) >>= fun v => match v with
    | none => return none
    | some (verb, tail) => operationOf g combination context m verb tail >>= fun o => return some o

def enlist (operations : List Operation) : Option Operation → Except Fault (List Operation)
  | none => .ok operations
  | some o => addOperation operations o

theorem enlist_local (operations : List Operation) (o? : Option Operation) :
    Local (enlist operations o?) := by
  cases o? with
  | none => exact .ok operations
  | some o => exact addOperation_local operations o

theorem addMethod_eq (g : Graph) (combination : Combination) (context : Context)
    (operations : List Operation) (m : Method) :
    addMethod g combination context operations m =
      operationOf? g combination context m >>= fun o? => ofExcept (enlist operations o?) := by
  unfold addMethod operationOf?
  rw [bind_assoc]
  congr 1
  funext v
  cases v with
  | none => rfl
  | some v =>
    rw [bind_assoc]
    rfl

def operationsOf (g : Graph) (combination : Combination) (operations : List Operation)
    (cs : List Controller) : Resolve (List Operation) :=
  cs.foldlM (addController g combination) operations

theorem extract_eq (g : Graph) (combination : Combination) :
    extract g combination = operationsOf g combination [] g.controllers >>= fun operations =>
      Resolve.registry >>= fun r => ofExcept (finish r operations) := rfl

theorem enlist_eq_ok {operations operations' : List Operation} {o? : Option Operation}
    (h : enlist operations o? = .ok operations') : operations' = operations ++ o?.toList := by
  cases o? with
  | none =>
    cases h
    simp
  | some o =>
    simp only [enlist, addOperation] at h
    split at h
    · cases h
    · cases h
      rfl

section

variable {g : Graph} {roots : TypeExpr → Prop} {steps : Nat → Nat → Prop} {P : Judgement}
  (hP : Coupling g roots steps True P) {held : List String}

def Single (P : Judgement) (held : List String) {α : Type} (schemas : α → List Schema)
    (m : Resolve α) : Prop :=
  P none held α (fun a => allReferences (schemas a)) m m

/-- A response that is entered under its status. -/
theorem insert_subset {responses : Entries Status Response} {status : Status} {r : Response}
    (h : allReferences (responseSchemas responses) ⊆ held) :
    allReferences (responseSchemas (responses.insert status r)) ⊆
      allReferences r.schema.toList ++ held := by
  intro name hname
  obtain ⟨s, hs, hname⟩ := Schema.mem_allReferences.mp hname
  rcases mem_responseSchemas_insert hs with hs | hs
  · exact List.mem_append_left held
      (Schema.mem_allReferences.mpr ⟨s, Option.mem_toList.mpr hs, hname⟩)
  · exact List.mem_append_right _ (h (Schema.mem_allReferences.mpr ⟨s, hs, hname⟩))

include hP

theorem payload_single {t : TypeExpr} (ht : roots t) (o : Origin) :
    Single P held Option.toList (payload g t o) := by
  apply hP.map (hP.resolveType ht o held)
  intro s name hname
  obtain ⟨s', hs, hname⟩ := Schema.mem_allReferences.mp hname
  unfold payload? at hs
  split at hs
  · cases hs
  · obtain rfl := Option.some.inj (Option.mem_toList.mp hs)
    exact List.mem_append_left held hname

theorem response_single {o : Origin} {status : Status} {description : Option String}
    {type : Option TypeExpr} (ht : ∀ t, type = some t → roots t) :
    Single P held (·.schema.toList) (response g o status description type) := by
  cases type with
  | none => exact hP.pure (List.nil_subset held)
  | some t =>
    exact hP.map (payload_single hP (ht t rfl) o) fun s => List.subset_append_left _ _

theorem contextOf_single {c : Controller} (hc : ∀ t, c.Writes t → roots t)
    (combination : Combination) :
    Single P held (fun context => responseSchemas context.responses)
      (contextOf g combination c) := by
  rw [contextOf_eq]
  apply hP.check_bind (AnnotationUse.checkPlacement_local _ _)
  intro _ _
  apply hP.foldlM (List.nil_subset held)
  intro held' context use _ hcontext hu
  unfold addToContext
  split
  case h_5 status description type htype =>
    have hr : ∀ t, type = some t → roots t := by
      rintro t rfl
      exact hc t (.response hu htype)
    exact hP.map (response_single hP hr) fun r => insert_subset hcontext
  all_goals exact hP.pure hcontext

theorem add_remark_single {m : Method} (hm : ∀ t, m.Writes t → roots t) {o : Origin} {r : Remarks}
    {use : AnnotationUse} (hu : use ∈ m.annotations)
    (hr : allReferences (responseSchemas r.responses) ⊆ held) :
    Single P held (fun r => responseSchemas r.responses) (r.add g o use) := by
  unfold Remarks.add
  split
  case h_2 status description type htype =>
    have hroots : ∀ t, type = some t → roots t := by
      rintro t rfl
      exact hm t (.response hu htype)
    exact hP.map (response_single hP hroots) fun response => insert_subset hr
  all_goals exact hP.pure hr

theorem boundParameter_single {m : Method} (hm : ∀ t, m.Writes t → roots t) {p : Parameter}
    (hp : p ∈ m.parameters) (b : Route.Binding) (operation : String) :
    Single P held (·.schema.toList) (boundParameter g p b operation) := by
  unfold boundParameter
  split
  · exact hP.pure (List.nil_subset held)
  · split
    · exact hP.fail rfl
    · rename_i t ht
      apply hP.map (hP.property (p := ⟨p.name, t, p.optional, p.default, p.description, p.format⟩)
        (hP.resolveType (hm _ (.parameter hp ht)) ⟨operation, p.location⟩))
      intro s name hname
      obtain ⟨s', hs, hname⟩ := Schema.mem_allReferences.mp hname
      obtain rfl := Option.some.inj (Option.mem_toList.mp hs)
      exact List.mem_append_left held hname

theorem parametersFrom_single {m : Method} (hm : ∀ t, m.Writes t → roots t)
    {template operation : String} {taken : Taken} {ps : List Parameter}
    (hps : ∀ p ∈ ps, p ∈ m.parameters) :
    Single P held (fun x => parameterSchemas x.1)
      (parametersFrom g template operation taken ps) := by
  induction ps generalizing taken held with
  | nil => exact hP.pure (List.nil_subset held)
  | cons p ps ih =>
    rw [parametersFrom_cons]
    apply hP.check_bind (AnnotationUse.checkPlacement_local _ _)
    intro _ _
    apply hP.check_bind (Route.bind_local p template operation)
    intro b _
    apply hP.check_bind (Taken.add_local taken p b operation)
    intro taken' _
    have hbound : Single P held (·.schema.toList) (boundParameter g p b operation) :=
      boundParameter_single hP hm (hps p List.mem_cons_self) b operation
    refine hP.seq hbound fun bound => ?_
    apply hP.map (ih fun q hq => hps q (List.mem_cons_of_mem p hq))
    intro x name hname
    obtain ⟨s, hparameters, hreference⟩ := Schema.mem_allReferences.mp hname
    obtain ⟨q, hq, hs⟩ : ∃ q ∈ bound :: x.1, q.schema = some s :=
      List.mem_filterMap.mp hparameters
    rcases List.mem_cons.mp hq with rfl | hq
    · have hmem : name ∈ allReferences q.schema.toList :=
        Schema.mem_allReferences.mpr ⟨s, Option.mem_toList.mpr hs, hreference⟩
      simp [hmem]
    · have hmem : name ∈ allReferences (parameterSchemas x.1) :=
        Schema.mem_allReferences.mpr ⟨s, List.mem_filterMap.mpr ⟨q, hq, hs⟩, hreference⟩
      simp [hmem]

theorem parameters_single {m : Method} (hm : ∀ t, m.Writes t → roots t)
    (template operation : String) :
    Single P held parameterSchemas (parameters g m template operation) := by
  have hfrom : Single P held (fun x => parameterSchemas x.1)
      (parametersFrom g template operation .nothing m.parameters) :=
    parametersFrom_single hP hm fun p hp => hp
  refine hP.seq hfrom fun x => ?_
  obtain ⟨bound, taken⟩ := x
  dsimp only
  split
  · exact hP.fail rfl
  · exact hP.pure (List.subset_append_left _ _)

theorem returned_single {m : Method} (hm : ∀ t, m.Writes t → roots t) (title : String) :
    Single P held Option.toList (returned g m title) := by
  unfold returned
  split
  · rename_i t ht
    exact payload_single hP (hm t (.returns ht)) _
  · exact hP.fail rfl

theorem operationOf_single {m : Method} (hm : ∀ t, m.Writes t → roots t) {context : Context}
    (hcontext : allReferences (responseSchemas context.responses) ⊆ held)
    (combination : Combination) (verb : Verb) (tail : String) :
    Single P held Operation.schemas (operationOf g combination context m verb tail) := by
  rw [operationOf_eq]
  apply hP.check_bind (AnnotationUse.checkPlacement_local _ _)
  intro _ _
  refine hP.seq (parameters_single hP hm _ _) fun ps => ?_
  refine hP.seq (returned_single hP hm _) fun returns => ?_
  have hremarks : ∀ held, Single P held (fun r => responseSchemas r.responses)
      (m.annotations.foldlM (Remarks.add g ⟨context.name ++ "." ++ m.name, m.location⟩)
        (Remarks.start context)) :=
    fun held => hP.foldlM (List.nil_subset held) fun held' r use _ hr hu =>
      add_remark_single hP hm hu hr
  apply hP.map (hremarks _)
  intro remarks name hname
  obtain ⟨s, hs, hname⟩ := Schema.mem_allReferences.mp hname
  have hmem : ∀ {ss : List Schema}, s ∈ ss → name ∈ allReferences ss := fun h =>
    Schema.mem_allReferences.mpr ⟨s, h, hname⟩
  rcases mem_assemble_schemas hs with hs | hs | hs | hs
  · simp [hmem hs]
  · simp [hcontext (hmem hs)]
  · simp [hmem hs]
  · simp [hmem hs]

theorem operationOf?_single {m : Method} (hm : ∀ t, m.Writes t → roots t) {context : Context}
    (hcontext : allReferences (responseSchemas context.responses) ⊆ held)
    (combination : Combination) :
    Single P held (fun o? => operationSchemas o?.toList)
      (operationOf? g combination context m) := by
  unfold operationOf?
  apply hP.check_bind (verbOf_local context m)
  intro v _
  cases v with
  | none => exact hP.pure (List.nil_subset held)
  | some v =>
    apply hP.map (operationOf_single hP hm hcontext combination v.1 v.2)
    intro o name hname
    simp only [operationSchemas, Option.toList_some, List.flatMap_cons, List.flatMap_nil,
      List.append_nil] at hname
    exact List.mem_append_left held hname

theorem addMethod_single {m : Method} (hm : ∀ t, m.Writes t → roots t) {context : Context}
    (hcontext : allReferences (responseSchemas context.responses) ⊆ held)
    {operations : List Operation}
    (ho : allReferences (operationSchemas operations) ⊆ held)
    (combination : Combination) :
    Single P held operationSchemas
      (addMethod g combination context operations m) := by
  rw [addMethod_eq]
  refine hP.seq (operationOf?_single hP hm hcontext combination) fun o? => ?_
  apply hP.check (enlist_local operations o?)
  intro os hos name hname
  obtain ⟨s, hs, hname⟩ := Schema.mem_allReferences.mp hname
  rw [enlist_eq_ok hos, operationSchemas, List.flatMap_append] at hs
  rcases List.mem_append.mp hs with hs | hs
  · exact List.mem_append_right _ (ho (Schema.mem_allReferences.mpr ⟨s, hs, hname⟩))
  · exact List.mem_append_left held (Schema.mem_allReferences.mpr ⟨s, hs, hname⟩)

theorem addController_single {c : Controller} (hc : ∀ t, c.Writes t → roots t)
    {operations : List Operation}
    (ho : allReferences (operationSchemas operations) ⊆ held)
    (combination : Combination) :
    Single P held operationSchemas
      (addController g combination operations c) := by
  refine hP.seq (contextOf_single hP hc combination) fun context => ?_
  have hstart : allReferences (operationSchemas operations) ⊆
      allReferences (responseSchemas context.responses) ++ held :=
    fun name hname => List.mem_append_right _ (ho hname)
  refine hP.foldlM hstart ?_
  intro held' os m hheld hos hm
  have hcontext : allReferences (responseSchemas context.responses) ⊆ held' :=
    fun name hname => hheld (List.mem_append_left held hname)
  exact addMethod_single hP (fun t ht => hc t (.method hm ht)) hcontext hos combination

theorem operationsOf_single {cs : List Controller} (hcs : ∀ c ∈ cs, ∀ t, c.Writes t → roots t)
    {operations : List Operation} (ho : allReferences (operationSchemas operations) ⊆ held)
    (combination : Combination) :
    Single P held operationSchemas (operationsOf g combination operations cs) :=
  hP.foldlM ho fun _ _ c _ ho hc => addController_single hP (hcs c hc) ho combination

end

end Extraction

end RouteContract

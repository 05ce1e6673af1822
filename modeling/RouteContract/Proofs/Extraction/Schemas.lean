import RouteContract.Proofs.Extraction.Closed
import RouteContract.Proofs.Extraction.Orders
import RouteContract.Proofs.Resolution.Schemas
import RouteContract.Proofs.Schema.Nodes

/-!
# What the schemas of a contract are built from

Extraction puts no schema together but the implicit body. So a property of
schemas that resolution keeps holds of the schemas that a contract shows, and
where it passes on to parts also of all that is reached from them. No parameter
of a contract is both required and defaulted.
-/

set_option autoImplicit false

namespace RouteContract

structure BoundParameter.Declared (P : Schema → Prop) (p : BoundParameter) : Prop where
  schema : ∀ s, p.schema = some s → P s
  default : p.default.isSome → p.required = false

structure Operation.Declared (P : Schema → Prop) (o : Operation) : Prop where
  parameters : ∀ p ∈ o.parameters, p.Declared P
  schemas : ∀ s ∈ o.schemas, P s

theorem bodyObject_declared {S P : Schema → Prop} {ps : List BoundParameter}
    (h : ∀ p ∈ ps, p.Declared P) : (bodyObject ps).Declared S P := by
  refine ⟨fun hmem => ?_, nofun⟩
  obtain ⟨p, hp, hproperty⟩ := mem_bodyObject hmem
  obtain ⟨s, hs, rfl⟩ := Option.map_eq_some_iff.mp hproperty
  exact ⟨(h p hp).schema s hs, (h p hp).default⟩

namespace Extraction

open Resolve (Assembles Delivers)

section

variable {g : Graph} {roots : TypeExpr → Prop} {F : Format → Prop} {R : Registry}
  {S P : Schema → Prop} (hS : Assembles g (Resolve.Node.Occurs g roots) F R S P)
  (hF : Resolve.Node.Formats (Resolve.Node.Occurs g roots) F)

include hS hF

theorem resolveType_delivers {t : TypeExpr} (ht : roots t) (o : Origin) :
    Delivers R S (g.resolveType t o) S := by
  obtain ⟨n, hn⟩ := g.exists_resolveType_eq t o
  rw [hn n (Nat.le_refl n)]
  exact (Resolve.within_delivers hS (Resolve.Node.occurs_closed g roots) hF n).1 t o
    ⟨none, Resolve.Node.stands_root ht o⟩

theorem payload_delivers {t : TypeExpr} (ht : roots t) (o : Origin) :
    Delivers R S (payload g t o) fun s? => ∀ s, s? = some s → S s := by
  refine (resolveType_delivers hS hF ht o).map fun s hs s' hs' => ?_
  unfold payload? at hs'
  split at hs'
  · cases hs'
  · cases hs'
    exact hs

theorem response_delivers {o : Origin} {status : Status} {description : Option String}
    {type : Option TypeExpr} (ht : ∀ t, type = some t → roots t) :
    Delivers R S (response g o status description type) fun r => ∀ s, r.schema = some s → S s := by
  cases type with
  | none => exact .pure nofun
  | some t => exact (payload_delivers hS hF (ht t rfl) o).map fun _ h => h

omit hS hF in
theorem insert_holds {responses : Entries Status Response} {status : Status} {r : Response}
    (hr : ∀ s, r.schema = some s → S s) (h : ∀ s ∈ responseSchemas responses, S s) :
    ∀ s ∈ responseSchemas (responses.insert status r), S s := by
  intro s hs
  rcases mem_responseSchemas_insert hs with hs | hs
  · exact hr s hs
  · exact h s hs

theorem contextOf_delivers {c : Controller} (hc : ∀ t, c.Writes t → roots t)
    (combination : Combination) : Delivers R S (contextOf g combination c) fun context =>
      ∀ s ∈ responseSchemas context.responses, S s := by
  rw [contextOf_eq]
  refine .check fun _ _ => ?_
  refine (Delivers.foldlM
    (Q := fun context => ∀ s ∈ responseSchemas (Context.responses context), S s)
    fun context use hu => ?_).weaken fun context h => h (List.forall_mem_nil _)
  unfold addToContext
  split
  case h_5 status description type htype =>
    have hr : ∀ t, type = some t → roots t := by
      rintro t rfl
      exact hc t (.response hu htype)
    exact (response_delivers hS hF hr).map fun r => insert_holds
  all_goals exact .pure id

theorem remarks_deliver {m : Method} (hm : ∀ t, m.Writes t → roots t) (o : Origin)
    (context : Context) : Delivers R S
      (m.annotations.foldlM (Remarks.add g o) (Remarks.start context)) fun r =>
        ∀ s ∈ responseSchemas r.responses, S s := by
  refine (Delivers.foldlM (Q := fun r => ∀ s ∈ responseSchemas (Remarks.responses r), S s)
    fun r use hu => ?_).weaken fun r h => h (List.forall_mem_nil _)
  unfold Remarks.add
  split
  case h_2 status description type htype =>
    have hroots : ∀ t, type = some t → roots t := by
      rintro t rfl
      exact hm t (.response hu htype)
    exact (response_delivers hS hF hroots).map fun r => insert_holds
  all_goals exact .pure id

theorem boundParameter_delivers {m : Method} (hm : ∀ t, m.Writes t → roots t) {p : Parameter}
    (hp : p ∈ m.parameters) (hf : ∀ f, p.format = some f → F f) (b : Route.Binding)
    (operation : String) :
    Delivers R S (boundParameter g p b operation) (BoundParameter.Declared P) := by
  unfold boundParameter
  split
  · exact .pure ⟨nofun, nofun⟩
  · split
    · exact .fail
    · rename_i t ht
      have hroot : roots t.stripUndefined.1 := hm _ (.parameter hp ht)
      refine (Resolve.property_delivers hS
        (p := ⟨p.name, t, p.optional, p.default, p.description, p.format⟩) hf
        (resolveType_delivers hS hF hroot _)).map ?_
      rintro q ⟨hs, hdefault⟩
      refine ⟨?_, hdefault⟩
      rintro _ ⟨⟩
      exact hs

theorem parametersFrom_deliver {m : Method} (hm : ∀ t, m.Writes t → roots t)
    (hf : ∀ p ∈ m.parameters, ∀ f, p.format = some f → F f) {template operation : String}
    {taken : Taken} {ps : List Parameter}
    (hps : ∀ p ∈ ps, p ∈ m.parameters) :
    Delivers R S (parametersFrom g template operation taken ps) fun x =>
      ∀ p ∈ x.1, p.Declared P := by
  induction ps generalizing taken with
  | nil => exact .pure (List.forall_mem_nil _)
  | cons p ps ih =>
    rw [parametersFrom_cons]
    refine .check fun _ _ => .check fun b _ => .check fun taken' _ => ?_
    have hmem := hps p List.mem_cons_self
    refine (boundParameter_delivers hS hF hm hmem (hf p hmem) b operation).bind fun bound => ?_
    refine (ih fun q hq => hps q (List.mem_cons_of_mem p hq)).map fun x hx hbound => ?_
    exact List.forall_mem_cons.mpr ⟨hbound, hx⟩

theorem parameters_deliver {m : Method} (hm : ∀ t, m.Writes t → roots t)
    (hf : ∀ p ∈ m.parameters, ∀ f, p.format = some f → F f) (template operation : String) :
    Delivers R S (parameters g m template operation) fun ps => ∀ p ∈ ps, p.Declared P := by
  refine (parametersFrom_deliver hS hF hm hf fun p hp => hp).bind fun x => ?_
  obtain ⟨bound, taken⟩ := x
  dsimp only
  split
  · exact .fail
  · exact .pure id

theorem returned_delivers {m : Method} (hm : ∀ t, m.Writes t → roots t) (title : String) :
    Delivers R S (returned g m title) fun s? => ∀ s, s? = some s → S s := by
  unfold returned
  split
  · rename_i t ht
    exact payload_delivers hS hF (hm t (.returns ht)) _
  · exact .fail

theorem operationOf_delivers {m : Method} (hm : ∀ t, m.Writes t → roots t)
    (hf : ∀ p ∈ m.parameters, ∀ f, p.format = some f → F f) (context : Context)
    (combination : Combination) (verb : Verb) (tail : String) :
    Delivers R S (operationOf g combination context m verb tail) fun o =>
      (∀ s ∈ responseSchemas context.responses, S s) → o.Declared P := by
  rw [operationOf_eq]
  refine .check fun _ _ => (parameters_deliver hS hF hm hf _ _).bind fun ps => ?_
  refine (returned_delivers hS hF hm _).bind fun returns => ?_
  refine (remarks_deliver hS hF hm _ context).map fun remarks hremarks hreturns hps hcontext => ?_
  refine ⟨hps, fun s hs => ?_⟩
  rcases mem_assemble_schemas hs with hs | hs | hs | hs
  · obtain ⟨p, hp, hs⟩ := List.mem_filterMap.mp hs
    exact (hps p hp).schema s hs
  · exact hS.plain (hcontext s hs)
  · exact hS.plain (hremarks s hs)
  · exact hS.plain (hreturns s (Option.mem_toList.mp hs))

theorem addMethod_delivers {m : Method} (hm : ∀ t, m.Writes t → roots t)
    (hf : ∀ p ∈ m.parameters, ∀ f, p.format = some f → F f) (context : Context)
    (operations : List Operation) (combination : Combination) :
    Delivers R S (addMethod g combination context operations m) fun os =>
      (∀ o ∈ operations, o.Declared P) → (∀ s ∈ responseSchemas context.responses, S s) →
        ∀ o ∈ os, o.Declared P := by
  have hoperation : Delivers R S (operationOf? g combination context m) fun o? =>
      (∀ s ∈ responseSchemas context.responses, S s) → ∀ o ∈ o?.toList, o.Declared P := by
    refine .check fun v _ => ?_
    cases v with
    | none => exact .pure fun _ => List.forall_mem_nil _
    | some v =>
      have hone := operationOf_delivers hS hF hm hf context combination v.1 v.2
      refine hone.map fun o ho hcontext => ?_
      exact List.forall_mem_singleton.mpr (ho hcontext)
  rw [addMethod_eq]
  refine hoperation.bind fun o? => .ofExcept fun os hos hnew hbefore hcontext o ho => ?_
  rw [enlist_eq_ok hos] at ho
  rcases List.mem_append.mp ho with ho | ho
  · exact hbefore o ho
  · exact hnew hcontext o ho

theorem operationsOf_deliver {cs : List Controller} (hcs : ∀ c ∈ cs, ∀ t, c.Writes t → roots t)
    (hf : ∀ c ∈ cs, ∀ m ∈ c.methods, ∀ p ∈ m.parameters, ∀ f, p.format = some f → F f)
    (combination : Combination) : Delivers R S (operationsOf g combination [] cs) fun os =>
      ∀ o ∈ os, o.Declared P := by
  refine (Delivers.foldlM (Q := fun os => ∀ o ∈ os, Operation.Declared P o)
    fun os c hc => ?_).weaken fun os h => h (List.forall_mem_nil _)
  refine (contextOf_delivers hS hF (hcs c hc) combination).bind fun context => ?_
  refine (Delivers.foldlM (Q := fun os => (∀ s ∈ responseSchemas context.responses, S s) →
    ∀ o ∈ os, Operation.Declared P o) fun os m hm => ?_).weaken fun os' h hcontext hos =>
      h (fun _ => hos) hcontext
  have hadded := addMethod_delivers hS hF (fun t ht => hcs c hc t (.method hm ht)) (hf c hc m hm)
    context os combination
  exact hadded.weaken fun os' h hos hcontext => h (hos hcontext) hcontext

end

end Extraction

open Resolve (Assembles Builds Node.Occurs Node.Formats)

inductive Graph.Formats (g : Graph) : Format → Prop
  | property {shape : Shape TypeExpr} {o : Origin} {p : Property TypeExpr} {f : Format}
      (h : Node.Occurs g g.Writes (.type (.object shape) o)) (hp : p ∈ shape.properties)
      (hf : p.format = some f) : Formats g f
  | ownProperty {d : Declaration} {args : List TypeExpr} {p : Property TypeExpr} {f : Format}
      (h : Node.Occurs g g.Writes (.members d args)) (hp : p ∈ d.members)
      (hf : p.format = some f) : Formats g f
  | parameter {c : Controller} {m : Method} {p : Parameter} {f : Format} (hc : c ∈ g.controllers)
      (hm : m ∈ c.methods) (hp : p ∈ m.parameters) (hf : p.format = some f) : Formats g f

theorem Graph.formats_closed (g : Graph) : Node.Formats (Node.Occurs g g.Writes) g.Formats :=
  ⟨.property, .ownProperty⟩

/-- The definitions of a contract are those of one registry. What all ways of building schemas keep,
as far as intersections look at this registry, holds of every schema that the contract shows. -/
theorem Graph.contract_assembled {g : Graph} {combination : Combination} {c : Contract}
    (h : g.contract combination = .ok c) : ∃ R : Registry, R.freeze = .ok c.definitions ∧
      ∀ S P, Assembles g (Node.Occurs g g.Writes) g.Formats R S P → (∀ s, c.Mentions s → P s) ∧
        ∀ o ∈ c.operations, ∀ p ∈ o.parameters, p.Declared P := by
  have hroots : ∀ k ∈ g.controllers, ∀ t, k.Writes t → g.Writes t := fun k hk t ht => ⟨k, hk, ht⟩
  rcases Extraction.contract_cases hroots with
    ⟨e, -, he⟩ | ⟨operations, st, ds, hrun, hleaves, hfreeze, hc⟩
  · rw [he] at h
    cases h
  · rw [hc] at h
    cases h
    refine ⟨st.1, hfreeze, fun S P hS => ?_⟩
    have hformats : ∀ k ∈ g.controllers, ∀ m ∈ k.methods, ∀ p ∈ m.parameters, ∀ f,
        p.format = some f → g.Formats f := fun k hk m hm p hp f => .parameter hk hm hp
    have hdelivers := (Extraction.operationsOf_deliver hS g.formats_closed hroots hformats
      combination _ _ st hrun).2
    obtain ⟨hdefinitions, hoperations⟩ := hdelivers (Registry.Below.refl st.1) nofun
    refine ⟨fun s hs => ?_, fun o ho => (hoperations o ho).parameters⟩
    have hshown : ∀ {o s}, o ∈ operations → s ∈ Operation.schemas o → P s :=
      fun ho hs => (hoperations _ ho).schemas _ hs
    cases hs with
    | definition hd =>
      obtain ⟨owner, hmem⟩ := Registry.mem_freezeEntries hfreeze hd
      exact hS.plain (hdefinitions (Entries.find?_of_mem hleaves.ready.sound.nodup hmem))
    | parameter ho hp hs => exact ((hoperations _ ho).parameters _ hp).schema _ hs
    | implicitBody ho hb =>
      rw [((Graph.contract_operation hc ho).2 _ hb).1]
      exact hS.plain (hS.object (bodyObject_declared (hoperations _ ho).parameters))
    | returns ho hs => exact hshown ho (by simp [Operation.schemas, hs])
    | response ho hr hs =>
      refine hshown ho ?_
      simp only [Operation.schemas, List.mem_append]
      exact .inl (.inr (Extraction.mem_responseSchemas.mpr ⟨_, _, hr, hs⟩))

/-- The same for a property of schemas that every format keeps. -/
theorem Graph.contract_built {g : Graph} {combination : Combination} {c : Contract}
    (h : g.contract combination = .ok c) : ∃ R : Registry, R.freeze = .ok c.definitions ∧
      ∀ S, Builds g (Node.Occurs g g.Writes) R S → (∀ s, c.Mentions s → S s) ∧
        ∀ o ∈ c.operations, ∀ p ∈ o.parameters, p.Declared S := by
  obtain ⟨R, hfreeze, hassembled⟩ := Graph.contract_assembled h
  exact ⟨R, hfreeze, fun S hS => hassembled S S { hS with format := fun _ => hS.format trivial }⟩

/-- What holds of the schemas that a contract shows, and of the children of such schemas, holds of
all that is reached from them. -/
theorem Contract.reached {c : Contract} {S : Schema → Prop} (hshown : ∀ s, c.Mentions s → S s)
    (hchild : ∀ s, S s → ∀ t ∈ s.children, S t) {s t : Schema} (hs : c.Mentions s)
    (h : Schema.Reaches c.definitions s t) : S t := by
  induction h with
  | refl => exact hshown s hs
  | tail _ hpart ih =>
    rcases hpart.child with ht | ⟨name, d, -, hd, rfl⟩
    · exact hchild _ ih _ ht
    · exact hshown _ (.definition (Entries.mem_of_find? hd))

end RouteContract

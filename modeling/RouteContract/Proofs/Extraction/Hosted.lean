import RouteContract.Proofs.Extraction.Declarations
import RouteContract.Proofs.Extraction.Table
import RouteContract.Proofs.Validation.Steps

/-!
# Parameters that the host supplies

A parameter whose only binding is to the request or to an injected value is bound
by its name alone. Its type is not resolved, so it may name anything, and
validation passes it over. All that is said here holds of runs that end in a
fault as well: both runs end in the same one.
-/

set_option autoImplicit false

namespace RouteContract

def Parameter.bindings (p : Parameter) : List Annotation :=
  (p.annotations.map (·.content)).filter (·.isBinding)

def Parameter.Hosted (p : Parameter) : Prop := p.bindings = [.request] ∨ p.bindings = [.inject]

/-- The same parameter, of any type if the host supplies it. -/
inductive Parameter.Retyped (p : Parameter) : Parameter → Prop
  | same : p.Retyped p
  | hosted (h : p.Hosted) (type : Option TypeExpr) (optional : Bool) (default : Option Initializer)
      (format : Option Format) : p.Retyped { p with type, optional, default, format }

inductive Method.Retyped (m : Method) : Method → Prop
  | parameters {ps : List Parameter} (h : List.Forall₂ Parameter.Retyped m.parameters ps) :
      m.Retyped { m with parameters := ps }

inductive Controller.Retyped (k : Controller) : Controller → Prop
  | methods {ms : List Method} (h : List.Forall₂ Method.Retyped k.methods ms) :
      k.Retyped { k with methods := ms }

inductive Graph.Retyped (g : Graph) : Graph → Prop
  | controllers {ks : List Controller} (h : List.Forall₂ Controller.Retyped g.controllers ks) :
      g.Retyped (g.withControllers ks)

namespace Route

theorem bind_of_bindings {p : Parameter} {a : Annotation} (h : p.bindings = [a])
    (ha : (annotated a p.name).source ≠ .path) (template operation : String) :
    bind p template operation = .ok (annotated a p.name) := by
  have hchoose : choose p template operation = .ok (annotated a p.name) := by
    unfold Parameter.bindings at h
    simp only [choose, h]
  exact bind_eq_ok.mpr ⟨hchoose, fun hpath => absurd hpath ha⟩

/-- What the host supplies is bound by its name alone. -/
theorem bind_retyped {p q : Parameter} (h : p.Retyped q) (template operation : String) :
    bind q template operation = bind p template operation := by
  cases h with
  | same => rfl
  | hosted h type optional default format =>
    have hbind : ∀ a : Annotation, p.bindings = [a] → (annotated a p.name).source ≠ .path →
        bind { p with type, optional, default, format } template operation =
          bind p template operation := by
      intro a ha hpath
      have hretyped : Parameter.bindings { p with type, optional, default, format } = [a] := ha
      rw [bind_of_bindings ha hpath, bind_of_bindings hretyped hpath]
    rcases h with h | h
    · exact hbind _ h (by simp [annotated])
    · exact hbind _ h (by simp [annotated])

/-- Exactly what the host supplies is not taken from the caller. -/
theorem unvalidated_iff_hosted {p : Parameter} {template operation : String} {b : Binding}
    (h : bind p template operation = .ok b) : b.source.isValidated = false ↔ p.Hosted := by
  have hchoose := (bind_eq_ok.mp h).1
  unfold choose at hchoose
  unfold Parameter.Hosted Parameter.bindings
  split at hchoose
  case h_1 hnone =>
    rw [hnone]
    split at hchoose
    all_goals
      cases hchoose
      simp [Source.isValidated]
  case h_2 a hsingle =>
    rw [hsingle]
    cases hchoose
    have hbinding : a.isBinding := by
      have hmem : a ∈ (p.annotations.map (·.content)).filter (·.isBinding) := by simp [hsingle]
      exact (List.mem_filter.mp hmem).2
    cases a <;> simp_all [annotated, Source.isValidated, Annotation.isBinding, Annotation.allowedOn,
      Annotation.targets]
  case h_3 => cases hchoose

end Route

namespace Extraction

theorem boundParameter_unread (g : Graph) (p : Parameter) {b : Route.Binding}
    (h : b.source.isValidated = false) (operation : String) :
    boundParameter g p b operation =
      return ⟨p.name, b.wire, b.source, none, false, none, p.description⟩ := by
  simp [boundParameter, h]

theorem ofExcept_bind_congr {α β : Type} {x : Except Fault α} {f f' : α → Resolve β}
    (h : ∀ a, x = .ok a → f a = f' a) :
    Resolve.ofExcept x >>= f = Resolve.ofExcept x >>= f' := by
  cases x with
  | error e => rfl
  | ok a =>
    show pure a >>= f = pure a >>= f'
    rw [pure_bind, pure_bind, h a rfl]

section

variable (g : Graph) (combination : Combination)

/-- Where the host supplies the first parameter, its type is not looked at. -/
theorem parametersFrom_retyped {ps qs : List Parameter} (h : List.Forall₂ Parameter.Retyped ps qs)
    (template operation : String) (taken : Taken) :
    parametersFrom g template operation taken qs = parametersFrom g template operation taken ps := by
  induction h generalizing taken with
  | nil => rfl
  | @cons p q ps qs hp _ ih =>
    rw [parametersFrom_cons, parametersFrom_cons]
    cases hp with
    | same => simp only [ih]
    | hosted hhosted type optional default format =>
      rw [Route.bind_retyped (.hosted hhosted type optional default format)]
      -- Both runs have one binding, and it is not to the caller.
      congr 1
      funext _
      apply ofExcept_bind_congr
      intro b hb
      have hsource := (Route.unvalidated_iff_hosted hb).mpr hhosted
      have hadd : taken.add { p with type, optional, default, format } b operation =
          taken.add p b operation := rfl
      simp only [boundParameter_unread g _ hsource, hadd, ih]

theorem operationOf_retyped {m m' : Method} (h : m.Retyped m') (context : Context) (verb : Verb)
    (tail : String) : operationOf g combination context m' verb tail =
      operationOf g combination context m verb tail := by
  obtain ⟨hps⟩ := h
  unfold operationOf parameters
  simp only [parametersFrom_retyped g hps]

theorem addMethod_retyped {m m' : Method} (h : m.Retyped m') (context : Context)
    (os : List Operation) :
    addMethod g combination context os m' = addMethod g combination context os m := by
  have hverb : verbOf context m' = verbOf context m := by
    cases h
    rfl
  unfold addMethod
  simp only [hverb, operationOf_retyped g combination h]

theorem addController_retyped {k k' : Controller} (h : k.Retyped k') (os : List Operation) :
    addController g combination os k' = addController g combination os k := by
  obtain ⟨hms⟩ := h
  have hmethods := fun context => foldlM_eq_of_forall₂ hms fun os m m' hm =>
    addMethod_retyped g combination hm context os
  unfold addController
  simp only [hmethods]
  rfl

theorem operationsOf_retyped {ks ks' : List Controller} (h : List.Forall₂ Controller.Retyped ks ks')
    (os : List Operation) :
    operationsOf g combination os ks' = operationsOf g combination os ks :=
  foldlM_eq_of_forall₂ h (fun os _ _ hk => addController_retyped g combination hk os) os

theorem extract_retyped {g g' : Graph} (h : g.Retyped g') :
    extract g' combination = extract g combination := by
  obtain ⟨hks⟩ := h
  rw [extract_eq, extract_eq, operationsOf_withControllers]
  exact congrArg (· >>= _) (operationsOf_retyped g combination hks [])

end

end Extraction

structure Parameter.BoundAs (p : Parameter) (b : BoundParameter) : Prop where
  name : b.name = p.name
  source : b.source.isValidated = false ↔ p.Hosted

/-- An operation has the parameters of its method in order. -/
theorem Graph.contract_bound {g : Graph} {combination : Combination} {c : Contract}
    (h : g.contract combination = .ok c) {o : Operation} (ho : o ∈ c.operations) :
    ∃ x ∈ g.methods, o.Serves x ∧ List.Forall₂ Parameter.BoundAs x.2.parameters o.parameters := by
  obtain ⟨⟨os, hos, hoperations⟩, -⟩ := Graph.contract_found h
  rw [hoperations, List.reduceOption_mem_iff] at ho
  obtain ⟨x, hx, hfound⟩ := mem_of_forall₂_right hos ho
  refine ⟨x, hx, ?_, ?_⟩
  · rcases hfound.serves with ⟨-, hnone⟩ | ⟨o', ho', hserves⟩
    · cases hnone
    · cases ho'
      exact hserves
  · cases hfound with
    | listed hcontext hverb ho =>
      exact ho.parameters.imp fun p b hb => ⟨hb.name, Route.unvalidated_iff_hosted hb.binding⟩

/-- The types of what the host supplies change nothing: neither the contract nor the fault that ends
a run. What the host supplies can be left out of the parameters that a request is checked against. -/
theorem Graph.contract_retyped {g g' : Graph} (h : g.Retyped g') (combination : Combination) :
    g'.contract combination = g.contract combination ∧
    ∀ c, g.contract combination = .ok c → ∀ o ∈ c.operations,
      (∃ x ∈ g.methods, o.Serves x ∧
        List.Forall₂ Parameter.BoundAs x.2.parameters o.parameters) ∧
      ∀ keep : BoundParameter → Bool, (∀ p, p.source.isValidated → keep p) → ∀ r settings,
        Validation.run (o.parameters.filter keep) r c.definitions settings =
          c.validate o r settings := by
  constructor
  · unfold Graph.contract
    rw [Extraction.extract_retyped combination h]
  · intro c hc o ho
    exact ⟨Graph.contract_bound hc ho, fun keep hkeep r settings =>
      Validation.run_filter hkeep o.parameters⟩

namespace Sample

def serving (service : Option TypeExpr) (request : Option TypeExpr) (optional : Bool) : Graph where
  declarations := []
  controllers := [posting [
    { parameter "service" (.keyword .string) .inject with type := service },
    parameter "q" (.keyword .number) (.query none),
    { parameter "request" (.keyword .string) .request with type := request, optional }]]

theorem serving_retyped (service service' request request' : Option TypeExpr)
    (optional optional' : Bool) :
    (serving service request optional).Retyped (serving service' request' optional') := by
  have hparameters : List.Forall₂ Parameter.Retyped
      [{ parameter "service" (.keyword .string) .inject with type := service },
        parameter "q" (.keyword .number) (.query none),
        { parameter "request" (.keyword .string) .request with type := request, optional }]
      [{ parameter "service" (.keyword .string) .inject with type := service' },
        parameter "q" (.keyword .number) (.query none),
        { parameter "request" (.keyword .string) .request with
          type := request', optional := optional' }] :=
    .cons (.hosted (.inr rfl) service' false none none) (.cons .same
      (.cons (.hosted (.inl rfl) request' optional' none none) .nil))
  exact .controllers (.cons (.methods (.cons (.parameters hparameters) .nil)) .nil)

/-- The service may be of an interface that is not declared, and the request of no type at all. -/
theorem serving_contract : ∃ c o,
    (serving (some (.keyword .string)) (some (.keyword .any)) false).contract .anyOf = .ok c ∧
    (serving (some (.named "Nowhere")) none true).contract .anyOf = .ok c ∧ o ∈ c.operations ∧
    o.parameters.map (·.source) = [.injected, .query, .request] ∧
    ∀ r settings, Validation.run (o.parameters.filter (·.source.isValidated)) r c.definitions
      settings = c.validate o r settings := by
  have hcheck : ∃ c o,
      (serving (some (.keyword .string)) (some (.keyword .any)) false).contract .anyOf = .ok c ∧
      o ∈ c.operations ∧
      decide (o.parameters.map (·.source) = [.injected, .query, .request]) = true :=
    exists_operation (by decide +kernel)
  obtain ⟨c, o, hc, ho, hsources⟩ := hcheck
  have h := Graph.contract_retyped (serving_retyped (some (.keyword .string))
    (some (.named "Nowhere")) (some (.keyword .any)) none false true) .anyOf
  exact ⟨c, o, hc, h.1.trans hc, ho, of_decide_eq_true hsources,
    ((h.2 c hc o ho).2 _ fun _ hp => hp)⟩

end Sample

end RouteContract

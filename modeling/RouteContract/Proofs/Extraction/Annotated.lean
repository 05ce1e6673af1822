import RouteContract.Proofs.Extraction.Bindings
import RouteContract.Proofs.Extraction.Operations

/-!
# Methods and their operations

The operations of a contract stand in the order of the methods. Each method with
annotations of its own has one, and its annotations and those of its parameters
stand where they may. A method without any is passed over before its parameters
are looked at.
-/

set_option autoImplicit false

namespace RouteContract

def Method.Annotated (m : Method) : Prop :=
  m.annotations ≠ [] ∨ ∃ p ∈ m.parameters, p.annotations ≠ []

structure Method.Placed (m : Method) : Prop where
  own : ∀ use ∈ m.annotations, use.content.allowedOn .method
  parameters : ∀ p ∈ m.parameters, ∀ use ∈ p.annotations, use.content.allowedOn .parameter

namespace Extraction

open Resolve (Ensures)

inductive Contributes : Controller × Method → Option Operation → Prop
  | passed {k : Controller} {m : Method} (h : m.annotations = []) : Contributes (k, m) none
  | listed {k : Controller} {m : Method} {o : Operation} {use : AnnotationUse} {tail : String}
      (huse : use ∈ m.annotations) (hverb : use.content = .verb o.verb tail)
      (hpath : o.path = Route.join o.stem tail) (hcontroller : o.controller = k.id.name)
      (hmethod : o.method = m.name)
      (hparameters : o.parameters.map (·.name) = m.parameters.map (·.name)) (hplaced : m.Placed) :
      Contributes (k, m) (some o)

theorem Contributes.isSome_iff {x : Controller × Method} {o? : Option Operation}
    (h : Contributes x o?) : o?.isSome ↔ x.2.annotations ≠ [] := by
  cases h with
  | passed h => simp [h]
  | listed huse => simpa using List.ne_nil_of_mem huse

theorem served_iff {xs : List (Controller × Method)} {os : List (Option Operation)}
    (h : List.Forall₂ Contributes xs os) :
    List.Forall₂ (fun x o? => x.2.Annotated → o?.isSome) xs os ↔
      ∀ x ∈ xs, x.2.Annotated → x.2.annotations ≠ [] := by
  induction h with
  | nil => simp
  | cons hx _ ih => rw [List.forall₂_cons, List.forall_mem_cons, ih, hx.isSome_iff]

theorem Found.contributes {x : Controller × Method} {o? : Option Operation} (h : Found x o?) :
    Contributes x o? := by
  cases h with
  | passed hverb => exact .passed (verbOf_eq_none hverb)
  | listed hcontext hverb ho =>
    obtain ⟨use, huse, hcontent⟩ := verbOf_eq_some hverb
    have hplaced : x.2.Placed := ⟨ho.placed, fun p hp => by
      obtain ⟨b, -, hbinds⟩ := mem_of_forall₂_left ho.parameters hp
      exact hbinds.placed⟩
    exact .listed huse (ho.verb ▸ hcontent) ho.path (ho.controller.trans hcontext) ho.method
      (names_of_binds ho.parameters) hplaced

theorem operationsOf_collects {I : Registry → Prop} (hI : Registry.Invariant I) (g : Graph)
    (combination : Combination) :
    Ensures I (operationsOf g combination [] g.controllers)
      (Collects Contributes g.methods []) :=
  (operationsOf_found hI g combination).weaken fun _ h => h.imp fun _ _ => Found.contributes

end Extraction

open Extraction

/-- The operations of a contract are what the methods contribute, in order. Every annotated method
has its operation exactly where no method has annotations on its parameters alone. -/
theorem Graph.contract_methods {g : Graph} {combination : Combination} {c : Contract}
    (h : g.contract combination = .ok c) :
    ∃ os, List.Forall₂ Contributes g.methods os ∧ c.operations = os.reduceOption ∧
      (List.Forall₂ (fun x o? => x.2.Annotated → o?.isSome) g.methods os ↔
        ∀ x ∈ g.methods, x.2.Annotated → x.2.annotations ≠ []) := by
  have hroots : ∀ k ∈ g.controllers, ∀ t, k.Writes t → True := fun _ _ _ _ => trivial
  rcases contract_cases hroots with ⟨e, -, he⟩ | ⟨operations, st, ds, hgives, -, -, hc⟩
  · rw [he] at h
    cases h
  rw [hc] at h
  cases h
  have hcollects := operationsOf_collects Registry.grounded_invariant g combination
  obtain ⟨⟨os, hos, hoperations⟩, -⟩ :=
    (hcollects (.empty, []) Registry.grounded_empty).2 operations st hgives
  exact ⟨os, hos, hoperations, served_iff hos⟩

namespace Sample

def overlooking : Graph where
  declarations := []
  controllers := [{ posting [] with
    methods := (posting []).methods ++ [⟨"helper", [],
      [parameter "q" (.keyword .string) (.query none)], some (.keyword .void), none, .memory⟩] }]

theorem overlooking_contract : ∃ c o, overlooking.contract .anyOf = .ok c ∧ o ∈ c.operations ∧
    c.operations.map (·.method) = ["f"] := by
  have hcheck : ∃ c o, overlooking.contract .anyOf = .ok c ∧ o ∈ c.operations ∧
      decide (c.operations.map (·.method) = ["f"]) = true := exists_operation (by decide +kernel)
  simpa using hcheck

/-- The annotated method has no operation, and nothing is said about it. -/
theorem annotated_helper_overlooked : ∃ c, overlooking.contract .anyOf = .ok c ∧
    ∃ x ∈ overlooking.methods, x.2.Annotated ∧ ∀ o ∈ c.operations, o.method ≠ x.2.name := by
  obtain ⟨c, o, hc, -, hmethods⟩ := overlooking_contract
  refine ⟨c, hc, (_, _), List.mem_cons_of_mem _ List.mem_cons_self, ?_, ?_⟩
  · exact .inr ⟨_, List.mem_cons_self, List.cons_ne_nil _ _⟩
  · intro o ho
    have hname : o.method ∈ c.operations.map (·.method) := List.mem_map_of_mem ho
    rw [hmethods] at hname
    rw [List.mem_singleton.mp hname]
    decide

theorem overlooking_methods : ∃ c os, overlooking.contract .anyOf = .ok c ∧
    List.Forall₂ Contributes overlooking.methods os ∧ c.operations = os.reduceOption := by
  obtain ⟨c, o, hc, -, -⟩ := overlooking_contract
  obtain ⟨os, hos, hoperations, -⟩ := Graph.contract_methods hc
  exact ⟨c, os, hc, hos, hoperations⟩

end Sample

end RouteContract

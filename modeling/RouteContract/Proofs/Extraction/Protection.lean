import RouteContract.Proofs.Extraction.Operations
import RouteContract.Proofs.Security

/-!
# Who may call an operation

An operation asks for what its method declares about security, and where the
method says nothing for what the controller declares. A method that waives
security says something. Annotations of other kinds change nothing, and nothing
is assumed of the schemes, which may repeat with other scopes.
-/

set_option autoImplicit false

namespace RouteContract

namespace Extraction

open Resolve (Ensures)

inductive Protected (combination : Combination) : Controller × Method → Option Operation → Prop
  | passed {k : Controller} {m : Method} (h : m.annotations = []) :
      Protected combination (k, m) none
  | listed {k : Controller} {m : Method} {o : Operation} (hcontroller : o.controller = k.id.name)
      (hmethod : o.method = m.name)
      (hsecurity : o.security = (Security.declared (Security.decisive m.annotations k.annotations)
        combination).getD []) : Protected combination (k, m) (some o)

section

variable {I : Registry → Prop} (hI : Registry.Invariant I) (g : Graph) (combination : Combination)

include hI

theorem operationOf_protected {k : Controller} {context : Context}
    (hcontext : context.Of combination k) (m : Method) (verb : Verb) (tail : String) :
    Ensures I (operationOf g combination context m verb tail) fun o =>
      Protected combination (k, m) (some o) := by
  rw [operationOf_eq]
  have hparameters := parameters_ensure g (boundParameter_described hI g) m
    (Route.join context.stem tail) (context.name ++ "." ++ m.name)
  refine Ensures.unread.seq fun _ => hparameters.seq fun ps => ?_
  refine (returned_keeps hI g m _).seq fun returns => (remarks_keep hI g _ _ _).seq fun remarks => ?_
  refine .pure (.listed hcontext.name rfl ?_)
  show ((Security.declared m.annotations combination).or context.security).getD [] = _
  rw [hcontext.security, Security.declared_decisive]

theorem operationOf?_protected (k : Controller) (context : Context)
    (hcontext : context.Of combination k) (m : Method) :
    Ensures I (operationOf? g combination context m) (Protected combination (k, m)) := by
  apply (Ensures.ofExcept fun _ h => h).bind
  intro v hv
  cases v with
  | none => exact .pure (.passed (verbOf_eq_none hv))
  | some v =>
    exact (operationOf_protected hI g combination hcontext m v.1 v.2).bind fun o ho => .pure ho

end

end Extraction

/-- Of annotations that do not waive security, one has to be satisfied where they are alternatives,
and every one where they are taken together. What protects an operation is declared by the
annotations of its method alone, or by those of its controller where the method has none about
security. -/
theorem Security.declared_protects :
    (∀ {annotations : List AnnotationUse}, (∀ use ∈ annotations, use.content ≠ .noSecurity) →
      listed annotations ≠ [] → ∀ G : Grant,
        (∃ rs, declared annotations .anyOf = some rs ∧
          ((∃ r ∈ rs, G.Satisfies r) ↔ ∃ uses ∈ listed annotations, G.Satisfies uses)) ∧
        ∃ rs, declared annotations .allOf = some rs ∧
          ((∃ r ∈ rs, G.Satisfies r) ↔ ∀ uses ∈ listed annotations, G.Satisfies uses)) ∧
    ∀ {g : Graph} {combination : Combination} {c : Contract}, g.contract combination = .ok c →
      ∃ os, List.Forall₂ (Extraction.Protected combination) g.methods os ∧
        c.operations = os.reduceOption := by
  refine ⟨fun hwaived hlisted G => ⟨?_, ?_⟩, fun {g combination c} h => ?_⟩
  · exact ⟨_, declared_listed hwaived hlisted, anyOf_satisfied_iff⟩
  · exact ⟨_, declared_listed hwaived hlisted, allOf_satisfied_iff⟩
  · exact Graph.contract_related h
      (Extraction.operationOf?_protected Registry.grounded_invariant g combination)

namespace Sample

def securing (schemes : List SchemeUse) : AnnotationUse := ⟨.security schemes, .memory⟩

def keyAndToken : List AnnotationUse :=
  [securing [("key", [])], securing [("jwt", ["admin"]), ("jwt", ["read", "admin"])]]

def guarded : Graph where
  declarations := []
  controllers := [{ posting [] with
    annotations := [securing [("jwt", ["read"])]]
    methods := [
      ⟨"a", [⟨.verb .get "a", .memory⟩], [], some (.keyword .void), none, .memory⟩,
      ⟨"b", ⟨.verb .get "b", .memory⟩ :: keyAndToken, [], some (.keyword .void), none, .memory⟩,
      ⟨"c", [⟨.verb .get "c", .memory⟩, ⟨.noSecurity, .memory⟩], [], some (.keyword .void), none,
        .memory⟩] }]

def tokenHolder : Grant := ⟨(· = "jwt"), fun _ _ => True⟩

theorem guarded_protected :
    (∃ rs, Security.declared keyAndToken .anyOf = some rs ∧ ∃ r ∈ rs, tokenHolder.Satisfies r) ∧
    (∃ rs, Security.declared keyAndToken .allOf = some rs ∧
      ¬ ∃ r ∈ rs, tokenHolder.Satisfies r) ∧
    ∃ c, guarded.contract .allOf = .ok c ∧ c.operations.map (·.security) =
        [[[("jwt", ["read"])]], [[("key", []), ("jwt", ["admin", "read"])]], []] ∧
      ∃ os, List.Forall₂ (Extraction.Protected .allOf) guarded.methods os ∧
        c.operations = os.reduceOption := by
  have hwaived : ∀ use ∈ keyAndToken, use.content ≠ .noSecurity := by
    simp [keyAndToken, securing]
  have hlisted : Security.listed keyAndToken =
      [[("key", [])], [("jwt", ["admin"]), ("jwt", ["read", "admin"])]] := rfl
  obtain ⟨⟨any, hany, hanyOf⟩, ⟨all, hall, hallOf⟩⟩ :=
    Security.declared_protects.1 hwaived (hlisted ▸ List.cons_ne_nil _ _) tokenHolder
  refine ⟨⟨any, hany, hanyOf.mpr ?_⟩, ⟨all, hall, fun h => ?_⟩, ?_⟩
  · exact ⟨_, hlisted ▸ List.mem_cons_of_mem _ List.mem_cons_self, by simp [tokenHolder]⟩
  · have hkey := hallOf.mp h [("key", [])] (hlisted ▸ List.mem_cons_self)
    simp [tokenHolder] at hkey
  · have hcheck : ∃ c o, guarded.contract .allOf = .ok c ∧ o ∈ c.operations ∧
        decide (c.operations.map (·.security) =
          [[[("jwt", ["read"])]], [[("key", []), ("jwt", ["admin", "read"])]], []]) = true :=
      exists_operation (by decide +kernel)
    obtain ⟨c, o, hc, -, hsecurity⟩ := hcheck
    exact ⟨c, hc, of_decide_eq_true hsecurity, Security.declared_protects.2 hc⟩

end Sample

end RouteContract

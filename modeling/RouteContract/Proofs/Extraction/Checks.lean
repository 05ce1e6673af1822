import RouteContract.Extraction
import RouteContract.Proofs.Resolution.Checks

/-!
# Faults of extraction

Annotations, bindings, verbs and operations are checked on their own. The last
check, over all references and definitions, fails with a dangling reference
only.
-/

set_option autoImplicit false

namespace RouteContract

theorem AnnotationUse.checkPlacement_local (uses : List AnnotationUse) (t : Target) :
    Local (AnnotationUse.checkPlacement uses t) := by
  unfold checkPlacement
  split
  · exact .error rfl
  · exact .ok ()

namespace Route

theorem choose_local (p : Parameter) (template operation : String) :
    Local (choose p template operation) := by
  unfold choose
  split
  · split
    · exact .ok _
    · exact .ok _
  · exact .ok _
  · exact .error rfl

theorem bind_local (p : Parameter) (template operation : String) :
    Local (Route.bind p template operation) := by
  unfold Route.bind
  apply (choose_local p template operation).bind
  intro b
  split
  · dsimp only
    split
    · exact Raises.error (f := .missingPlaceholder operation p.name template p.location) rfl
    · split
      · exact Raises.error (f := .optionalPathParameter operation p.name p.location) rfl
      · exact .ok _
  · exact .ok _

end Route

namespace Extraction

theorem Taken.add_local (t : Taken) (p : Parameter) (b : Route.Binding) (operation : String) :
    Local (t.add p b operation) := by
  unfold add
  split
  · split
    · exact .error rfl
    · exact .ok _
  · split
    · exact .error rfl
    · exact .ok _
  · split
    · exact .error rfl
    · exact .ok _
  · exact .ok _

theorem verbOf_local (context : Context) (m : Method) : Local (verbOf context m) := by
  unfold verbOf
  dsimp only
  split
  · exact .ok _
  · exact .error rfl
  · exact .ok _
  · exact .error rfl

theorem addOperation_local (operations : List Operation) (o : Operation) :
    Local (addOperation operations o) := by
  unfold addOperation
  split
  · exact .error rfl
  · exact .ok _

def Dangles (f : Fault) : Prop := ∃ name, f = .dangling name

theorem check_dangles (r : Registry) (s : Schema) : Raises Dangles (r.check s) := by
  unfold Registry.check
  split
  · exact .error ⟨_, rfl⟩
  · exact .ok ()

theorem freezeEntries_dangles (r : Registry) (entries : Entries String RegistryEntry) :
    Raises Dangles (r.freezeEntries entries) := by
  induction entries with
  | nil => exact .ok []
  | cons x rest ih =>
    obtain ⟨name, owner, slot⟩ := x
    cases slot with
    | pending => exact .error ⟨name, rfl⟩
    | defined schema description =>
      exact (check_dangles r schema).bind fun _ => ih.bind fun _ => .ok _

theorem finish_dangles (r : Registry) (operations : List Operation) :
    Raises Dangles (finish r operations) := by
  have hforM : Raises Dangles (operations.forM fun o => o.schemas.forM r.check) :=
    .forM (fun o => .forM (check_dangles r) o.schemas) operations
  have hfreeze : Raises Dangles r.freeze := freezeEntries_dangles r r.entries
  exact hforM.bind fun _ => hfreeze.bind fun _ => .ok _

end Extraction

end RouteContract

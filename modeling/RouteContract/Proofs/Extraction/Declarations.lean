import RouteContract.Proofs.Extraction.Coupling
import RouteContract.Proofs.Resolution.Normalization

/-!
# Controllers beside the declarations

Types are resolved in the declarations of a graph. The operations of a list of
controllers are therefore the same in two graphs that resolve types alike, and so
in two graphs of the same declarations, whatever controllers these have.
-/

set_option autoImplicit false

namespace RouteContract

def Graph.withControllers (g : Graph) (cs : List Controller) : Graph := { g with controllers := cs }

theorem Graph.findsAlike_withControllers (g : Graph) (cs : List Controller) :
    g.FindsAlike (g.withControllers cs) := fun _ _ => rfl

variable (g : Graph) (cs : List Controller)

theorem Declaration.completeArgs_withControllers (d : Declaration) (written : List TypeExpr)
    (o : Origin) (earlier : List TypeParam) (concrete : List TypeExpr) (rest : List TypeParam) :
    d.completeArgs (g.withControllers cs) written o earlier concrete rest =
      d.completeArgs g written o earlier concrete rest := by
  induction rest generalizing earlier concrete with
  | nil => rfl
  | cons p rest ih =>
    unfold completeArgs
    simp only [(g.findsAlike_withControllers cs).normalize, ih]

theorem Declaration.instantiate_withControllers (d : Declaration) (written : List TypeExpr)
    (o : Origin) : d.instantiate (g.withControllers cs) written o = d.instantiate g written o := by
  unfold instantiate
  rw [completeArgs_withControllers]

namespace Resolve

variable {type : TypeExpr → Origin → Resolve Schema}
  {members : Declaration → List TypeExpr → ObjectSchema Schema → Resolve (ObjectSchema Schema)}

theorem refOf_withControllers (r : TypeRef TypeExpr) (o : Origin) :
    refOf type members (g.withControllers cs) r o = refOf type members g r o := by
  unfold refOf
  simp only [Declaration.instantiate_withControllers]
  rfl

theorem baseMembers_withControllers :
    baseMembers members (g.withControllers cs) = baseMembers members g := by
  funext d args object base
  unfold baseMembers
  simp only [Declaration.instantiate_withControllers]
  rfl

theorem ownMembers_withControllers : ownMembers type members (g.withControllers cs) =
    ownMembers type members g := by
  funext d bases shape args object
  unfold ownMembers
  simp only [baseMembers_withControllers]

theorem within_withControllers (n : Nat) :
    typeWithin (g.withControllers cs) n = typeWithin g n ∧
      membersWithin (g.withControllers cs) n = membersWithin g n := by
  induction n with
  | zero => exact ⟨rfl, rfl⟩
  | succ n ih =>
    constructor
    · funext t o
      cases t <;> simp only [typeWithin, ih.1, ih.2, refOf_withControllers]
    · funext d args object
      simp only [membersWithin, ih.1, ih.2, ownMembers_withControllers]

end Resolve

theorem Graph.resolveType_withControllers :
    (g.withControllers cs).resolveType = g.resolveType := by
  have hwithin : ∀ n, Resolve.typeWithin (g.withControllers cs) n = Resolve.typeWithin g n :=
    fun n => (Resolve.within_withControllers g cs n).1
  funext t o
  simp only [Graph.resolveType, hwithin]

namespace Extraction

section

variable {g g' : Graph} (h : g'.resolveType = g.resolveType)

include h

theorem response_congr : response g' = response g := by
  funext o status description type
  unfold response payload
  rw [h]

theorem contextOf_congr (combination : Combination) :
    contextOf g' combination = contextOf g combination := by
  have hadd : addToContext g' = addToContext g := by
    funext o context use
    unfold addToContext
    rw [response_congr h]
  funext c
  unfold contextOf
  rw [hadd]

theorem parametersFrom_congr (template operation : String) (taken : Taken) (ps : List Parameter) :
    parametersFrom g' template operation taken ps =
      parametersFrom g template operation taken ps := by
  induction ps generalizing taken with
  | nil => rfl
  | cons p ps ih =>
    rw [parametersFrom_cons, parametersFrom_cons]
    unfold boundParameter Graph.resolveProperty
    simp only [h, ih]

theorem operationOf_congr (combination : Combination) :
    operationOf g' combination = operationOf g combination := by
  have hadd : Remarks.add g' = Remarks.add g := by
    funext o r use
    unfold Remarks.add
    rw [response_congr h]
  funext context m verb tail
  unfold operationOf parameters payload
  simp only [hadd, parametersFrom_congr h, h]

/-- Of a graph, the operations of controllers take no more than how it resolves types. -/
theorem operationsOf_congr (combination : Combination) :
    operationsOf g' combination = operationsOf g combination := by
  have hmethod : addMethod g' combination = addMethod g combination := by
    funext context operations m
    unfold addMethod
    rw [operationOf_congr h]
  have hcontroller : addController g' combination = addController g combination := by
    funext operations c
    unfold addController
    rw [contextOf_congr h, hmethod]
  funext operations controllers
  unfold operationsOf
  rw [hcontroller]

end

theorem operationsOf_withControllers (combination : Combination) :
    operationsOf (g.withControllers cs) combination = operationsOf g combination :=
  operationsOf_congr (g.resolveType_withControllers cs) combination

end Extraction

end RouteContract

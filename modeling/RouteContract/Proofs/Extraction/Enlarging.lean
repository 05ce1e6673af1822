import RouteContract.Proofs.Extraction.Coupling
import RouteContract.Proofs.Resolution.Enlarging
import RouteContract.Proofs.Samples

/-!
# Contracts beside a further declaration

The controllers are the same in the larger graph. So extraction goes on in it as
in the smaller graph, one annotation, parameter and method after the other, until
some type mentions a name that has become ambiguous. A name of the further
declaration that no type mentions without a module changes nothing.
-/

set_option autoImplicit false

namespace RouteContract

namespace Extraction

open Resolve (Persists)

section

variable (g : Graph) (d : Declaration) (combination : Combination)

theorem payload_persists (t : TypeExpr) (o : Origin) :
    Persists (g.Blurs d) (payload g t o) (payload (g.withDeclaration d) t o) :=
  (g.resolveType_persists d t o).map payload?

theorem response_persists (o : Origin) (status : Status) (description : Option String)
    (type : Option TypeExpr) : Persists (g.Blurs d) (response g o status description type)
      (response (g.withDeclaration d) o status description type) := by
  cases type with
  | none => exact .refl _
  | some t => exact (payload_persists g d t o).map _

theorem addToContext_persists (o : Origin) (context : Context) (use : AnnotationUse) :
    Persists (g.Blurs d) (addToContext g o context use)
      (addToContext (g.withDeclaration d) o context use) := by
  unfold addToContext
  split
  case h_5 => exact (response_persists g d o _ _ _).map _
  all_goals exact .refl _

theorem contextOf_persists (k : Controller) : Persists (g.Blurs d) (contextOf g combination k)
    (contextOf (g.withDeclaration d) combination k) := by
  rw [contextOf_eq, contextOf_eq]
  exact (Persists.refl _).bind fun _ => .foldlM (addToContext_persists g d _) _ _

theorem boundParameter_persists (p : Parameter) (b : Route.Binding) (operation : String) :
    Persists (g.Blurs d) (boundParameter g p b operation)
      (boundParameter (g.withDeclaration d) p b operation) := by
  unfold boundParameter
  split
  · exact .refl _
  · split
    · exact .fail
    · exact (g.resolveProperty_persists d _ _).map _

theorem parametersFrom_persists (template operation : String) (taken : Taken)
    (ps : List Parameter) : Persists (g.Blurs d) (parametersFrom g template operation taken ps)
      (parametersFrom (g.withDeclaration d) template operation taken ps) := by
  induction ps generalizing taken with
  | nil => exact .refl _
  | cons p ps ih =>
    rw [parametersFrom_cons, parametersFrom_cons]
    refine (Persists.refl _).bind fun _ => (Persists.refl _).bind fun b => ?_
    refine (Persists.refl _).bind fun taken' => ?_
    exact (boundParameter_persists g d p b operation).bind fun _ => (ih taken').map _

theorem parameters_persist (m : Method) (template operation : String) :
    Persists (g.Blurs d) (parameters g m template operation)
      (parameters (g.withDeclaration d) m template operation) :=
  (parametersFrom_persists g d template operation .nothing m.parameters).bind fun _ => .refl _

theorem add_remark_persists (o : Origin) (r : Remarks) (use : AnnotationUse) :
    Persists (g.Blurs d) (r.add g o use) (r.add (g.withDeclaration d) o use) := by
  unfold Remarks.add
  split
  case h_2 => exact (response_persists g d o _ _ _).map _
  all_goals exact .refl _

theorem returned_persists (m : Method) (title : String) :
    Persists (g.Blurs d) (returned g m title) (returned (g.withDeclaration d) m title) := by
  unfold returned
  split
  · exact payload_persists g d _ _
  · exact .fail

theorem operationOf_persists (context : Context) (m : Method) (verb : Verb) (tail : String) :
    Persists (g.Blurs d) (operationOf g combination context m verb tail)
      (operationOf (g.withDeclaration d) combination context m verb tail) := by
  rw [operationOf_eq, operationOf_eq]
  refine (Persists.refl _).bind fun _ => (parameters_persist g d m _ _).bind fun ps => ?_
  refine (returned_persists g d m _).bind fun returns => ?_
  exact (Persists.foldlM (add_remark_persists g d _) m.annotations _).map _

theorem addMethod_persists (context : Context) (operations : List Operation) (m : Method) :
    Persists (g.Blurs d) (addMethod g combination context operations m)
      (addMethod (g.withDeclaration d) combination context operations m) := by
  have hoperation : Persists (g.Blurs d) (operationOf? g combination context m)
      (operationOf? (g.withDeclaration d) combination context m) := by
    refine (Persists.refl _).bind fun v => ?_
    cases v with
    | none => exact .refl _
    | some v => exact (operationOf_persists g d combination context m v.1 v.2).map _
  rw [addMethod_eq, addMethod_eq]
  exact hoperation.bind fun _ => .refl _

theorem addController_persists (operations : List Operation) (k : Controller) :
    Persists (g.Blurs d) (addController g combination operations k)
      (addController (g.withDeclaration d) combination operations k) :=
  (contextOf_persists g d combination k).bind fun context =>
    .foldlM (addMethod_persists g d combination context) _ _

theorem extract_persists : Persists (g.Blurs d) (extract g combination)
    (extract (g.withDeclaration d) combination) := by
  rw [extract_eq, extract_eq]
  have hoperations : Persists (g.Blurs d) (operationsOf g combination [] g.controllers)
      (operationsOf (g.withDeclaration d) combination [] g.controllers) :=
    .foldlM (addController_persists g d combination) _ _
  exact hoperations.bind fun _ => .refl _

end

end Extraction

/-- A further declaration leaves a contract as it is, or makes the reference to another one of its
name ambiguous. -/
theorem Graph.contract_enlarged {g g' : Graph} {d : Declaration} {combination : Combination}
    {c : Contract} (hd : g.addDeclaration d = .ok g') (h : g.contract combination = .ok c) :
    g'.contract combination = .ok c ∨
      ∃ e place, g.named d.id.name = [e] ∧ g'.contract combination =
        .error (.fault (.ambiguous d.id.name [e.id.text, d.id.text] place)) := by
  obtain ⟨-, rfl⟩ := addDeclaration_eq_ok.mp hd
  rcases Extraction.extract_persists g d combination (.empty, []) c _ (Prod.ext h rfl) with
    hgives | ⟨f, ⟨hname, place⟩, hfails⟩
  · exact .inl (congrArg Prod.fst hgives)
  · exact .inr ⟨_, place, hname, hfails⟩

namespace Sample

def user : Declaration := interface "User" [] [property "name" (.keyword .string)]

def userPosting : Graph := ⟨[user], [posting [parameter "user" (.ref ⟨"User", none, []⟩) .body]]⟩

def otherUser : Declaration := { user with id := ⟨"n", "User"⟩ }

theorem userPosting_enlarged : ∃ g' c place, userPosting.addDeclaration otherUser = .ok g' ∧
    userPosting.contract .anyOf = .ok c ∧ g'.contract .anyOf =
      .error (.fault (.ambiguous "User" [user.id.text, otherUser.id.text] place)) := by
  have hadd : userPosting.addDeclaration otherUser = .ok (userPosting.withDeclaration otherUser) :=
    Graph.addDeclaration_eq_ok.mpr ⟨by decide, rfl⟩
  have hok : ∃ c o, userPosting.contract .anyOf = .ok c ∧ o ∈ c.operations ∧
      decide (o.method = "f") = true := exists_operation (by decide +kernel)
  have hfails : ((userPosting.withDeclaration otherUser).contract .anyOf).isOk = false := by
    decide +kernel
  obtain ⟨c, -, hc, -⟩ := hok
  rcases Graph.contract_enlarged hadd hc with hsame | ⟨e, place, hnamed, hambiguous⟩
  · rw [hsame] at hfails
    cases hfails
  · obtain rfl : user = e := by
      simpa [userPosting, Graph.named, user, otherUser, interface] using hnamed
    exact ⟨_, c, place, hadd, hc, hambiguous⟩

end Sample

end RouteContract

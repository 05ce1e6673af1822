import RouteContract.Proofs.Extraction.Operations
import RouteContract.Proofs.Route

/-!
# The table of operations

The operations of a contract stand for the methods with a verb, one for one and
in order. Two of one verb have routes that differ in more than the names of
placeholders, so a verb and a path lead back to the one operation that has them.
-/

set_option autoImplicit false

namespace RouteContract

def Annotation.verb? : Annotation → Option Verb
  | .verb v _ => some v
  | _ => none

def Method.verbs (m : Method) : List Verb := m.annotations.filterMap (·.content.verb?)

structure Operation.Serves (o : Operation) (x : Controller × Method) : Prop where
  controller : o.controller = x.1.id.name
  method : o.method = x.2.name
  verb : x.2.verbs = [o.verb]

namespace Extraction

theorem verbs_of_verbOf {context : Context} {m : Method} {verb : Verb} {tail : String}
    (h : verbOf context m = .ok (some (verb, tail))) : m.verbs = [verb] := by
  unfold verbOf at h
  dsimp only at h
  split at h
  case h_3 v path location hverbs =>
    cases h
    have hmap := congrArg (List.map Prod.fst) hverbs
    rw [List.map_filterMap] at hmap
    refine Eq.trans (congrArg (List.filterMap · m.annotations) ?_) hmap
    funext use
    cases use.content <;> rfl
  all_goals cases h

/-- A method without a verb has no operation, and one with a verb has its own. -/
theorem Found.serves {x : Controller × Method} {o? : Option Operation} (h : Found x o?) :
    (x.2.verbs = [] ∧ o? = none) ∨ ∃ o, o? = some o ∧ o.Serves x := by
  cases h with
  | passed hverb => exact .inl ⟨by rw [Method.verbs, verbOf_eq_none hverb, List.filterMap_nil], rfl⟩
  | listed hcontext hverb ho =>
    exact .inr ⟨_, rfl, ho.controller.trans hcontext, ho.method, ho.verb ▸ verbs_of_verbOf hverb⟩

theorem serves_of_found {xs : List (Controller × Method)} {os : List (Option Operation)}
    (h : List.Forall₂ Found xs os) :
    List.Forall₂ (fun x o => o.Serves x) (xs.filter (!·.2.verbs.isEmpty)) os.reduceOption := by
  induction h with
  | nil => exact .nil
  | cons hx _ ih =>
    rcases hx.serves with ⟨hnone, rfl⟩ | ⟨o, rfl, hserves⟩
    · rw [List.filter_cons_of_neg (by simp [hnone]), List.reduceOption_cons_of_none]
      exact ih
    · rw [List.filter_cons_of_pos (by simp [hserves.verb]), List.reduceOption_cons_of_some]
      exact .cons hserves ih

/-- Where no operations clash, each is found under its verb and its path. -/
theorem Apart.operation?_eq {c : Contract} (h : Apart c.operations) {o : Operation}
    (ho : o ∈ c.operations) : c.operation? o.verb o.path = some o := by
  unfold Contract.operation?
  cases hfind : c.operations.find? fun p => p.verb = o.verb && p.path = o.path with
  | none => simpa using List.find?_eq_none.mp hfind o ho
  | some p =>
    have hsame : p.verb = o.verb ∧ p.path = o.path := by simpa using List.find?_some hfind
    have hclash : p.Clashes o := ⟨hsame.1, by rw [hsame.2]⟩
    rw [h.eq_of_clashes (List.mem_of_find?_eq_some hfind) ho hclash]

end Extraction

/-- The operations are those of the methods with a verb, in order. No route of a verb is another one
with its placeholders renamed, and every operation is found under its verb and its path. -/
theorem Graph.contract_table {g : Graph} {combination : Combination} {c : Contract}
    (h : g.contract combination = .ok c) :
    List.Forall₂ (fun x o => o.Serves x) (g.methods.filter (!·.2.verbs.isEmpty)) c.operations ∧
      c.operations.Pairwise (fun p o =>
        p.verb = o.verb → ¬ Route.Renames p.path.toList o.path.toList) ∧
      ∀ o ∈ c.operations, c.operation? o.verb o.path = some o := by
  obtain ⟨⟨os, hos, hoperations⟩, hapart⟩ := Graph.contract_found h
  refine ⟨hoperations ▸ Extraction.serves_of_found hos, ?_, fun o ho => hapart.operation?_eq ho⟩
  exact hapart.imp fun hclash hverb hrenames => hclash ⟨hverb, hrenames.shape_eq⟩

namespace Sample

def routing : Graph where
  declarations := []
  controllers := [
    { posting [] with
      id := ⟨"m", "Users"⟩
      annotations := [⟨.route "users", .memory⟩]
      methods := [
        ⟨"helper", [], [], none, none, .memory⟩,
        ⟨"show", [⟨.hidden, .memory⟩, ⟨.verb .get "/{id}", .memory⟩],
          [unannotated "id" (.keyword .string)], some (.keyword .void), none, .memory⟩,
        ⟨"drop", [⟨.verb .delete "{user}/", .memory⟩],
          [unannotated "user" (.keyword .string)], some (.keyword .void), none, .memory⟩] },
    posting []]

theorem routing_table : ∃ c, routing.contract .anyOf = .ok c ∧
    c.operations.map (fun o => (o.title, o.path)) =
      [("Users.show", "/users/\x7bid\x7d"), ("Users.drop", "/users/\x7buser\x7d"), ("C.f", "/")] ∧
    List.Forall₂ (fun x o => o.Serves x) (routing.methods.filter (!·.2.verbs.isEmpty)) c.operations ∧
    c.operations.Pairwise (fun p o =>
      p.verb = o.verb → ¬ Route.Renames p.path.toList o.path.toList) ∧
    ∀ o ∈ c.operations, c.operation? o.verb o.path = some o := by
  have hcheck : ∃ c o, routing.contract .anyOf = .ok c ∧ o ∈ c.operations ∧
      decide (c.operations.map (fun o => (o.title, o.path)) =
        [("Users.show", "/users/\x7bid\x7d"), ("Users.drop", "/users/\x7buser\x7d"),
          ("C.f", "/")]) = true := exists_operation (by decide +kernel)
  obtain ⟨c, -, hc, -, hroutes⟩ := hcheck
  exact ⟨c, hc, of_decide_eq_true hroutes, Graph.contract_table hc⟩

end Sample

end RouteContract

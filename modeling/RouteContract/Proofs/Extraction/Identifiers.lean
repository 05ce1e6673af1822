import Mathlib.Data.List.Nodup
import RouteContract.Proofs.Extraction.Table

/-!
# Identifiers of operations

An operation is identified by the last identifier that its method is annotated
with, or by the name of the method. Nothing keeps two methods of one name apart,
so an identifier leads to the first operation that has it. It leads to every
operation exactly where no identifier repeats.
-/

set_option autoImplicit false

namespace RouteContract

def Annotation.identifier? : Annotation → Option String
  | .operationId id => some id
  | _ => none

def Method.identifier (m : Method) : String :=
  ((m.annotations.filterMap (·.content.identifier?)).getLast?).getD m.name

def Graph.identifiers (g : Graph) : List String :=
  (g.methods.filter (!·.2.verbs.isEmpty)).map (·.2.identifier)

namespace Extraction

open Resolve (Ensures)

section

variable {I : Registry → Prop} (hI : Registry.Invariant I) (g : Graph) (combination : Combination)

include hI

theorem add_remark_identified (o : Origin) (r : Remarks) (use : AnnotationUse) :
    Ensures I (r.add g o use) fun r' =>
      r'.operationId = use.content.identifier?.or r.operationId := by
  unfold Remarks.add
  cases use.content with
  | response status description type =>
    exact (response_keeps hI g o status description type).seq fun _ => .pure rfl
  | _ => exact .pure rfl

/-- The last identifier among the annotations is the one that counts. -/
theorem remarks_identified (o : Origin) (r : Remarks) (uses : List AnnotationUse) :
    Ensures I (uses.foldlM (Remarks.add g o) r) fun r' => r'.operationId =
      (uses.filterMap (·.content.identifier?)).getLast?.or r.operationId := by
  induction uses generalizing r with
  | nil => exact .pure rfl
  | cons use uses ih =>
    rw [List.foldlM_cons]
    refine (add_remark_identified hI g o r use).bind fun r' hr' => (ih r').weaken fun r'' hr'' => ?_
    rw [hr'', hr', ← Option.or_assoc]
    congr 1
    cases h : use.content.identifier? with
    | none => simp [h]
    | some id => simp [h, List.getLast?_cons]

theorem operationOf_identified (context : Context) (m : Method) (verb : Verb) (tail : String) :
    Ensures I (operationOf g combination context m verb tail) fun o =>
      o.operationId = m.identifier := by
  rw [operationOf_eq]
  have hparameters := parameters_ensure g (boundParameter_described hI g) m
    (Route.join context.stem tail) (context.name ++ "." ++ m.name)
  refine Ensures.unread.seq fun _ => hparameters.seq fun ps => ?_
  apply (returned_keeps hI g m _).seq
  intro returns
  refine (remarks_identified hI g _ _ _).bind fun remarks hremarks => .pure ?_
  simp only [Remarks.start, Option.or_none] at hremarks
  exact congrArg (·.getD m.name) hremarks

inductive Identified : Controller × Method → Option Operation → Prop
  | passed {k : Controller} {m : Method} (hverbs : m.verbs = []) : Identified (k, m) none
  | listed {k : Controller} {m : Method} {o : Operation} (hverbs : m.verbs ≠ [])
      (hid : o.operationId = m.identifier) : Identified (k, m) (some o)

theorem operationOf?_identified (k : Controller) (context : Context)
    (_ : context.Of combination k) (m : Method) :
    Ensures I (operationOf? g combination context m) (Identified (k, m)) := by
  apply (Ensures.ofExcept fun _ h => h).bind
  intro v hv
  cases v with
  | none => exact .pure (.passed (by rw [Method.verbs, verbOf_eq_none hv, List.filterMap_nil]))
  | some v =>
    have hverbs : m.verbs ≠ [] := by simp [verbs_of_verbOf hv]
    exact (operationOf_identified hI g combination context m v.1 v.2).bind fun o ho =>
      .pure (.listed hverbs ho)

end

theorem identifiers_of_identified {xs : List (Controller × Method)} {os : List (Option Operation)}
    (h : List.Forall₂ Identified xs os) : os.reduceOption.map (·.operationId) =
      (xs.filter (!·.2.verbs.isEmpty)).map (·.2.identifier) := by
  induction h with
  | nil => rfl
  | cons hx _ ih =>
    cases hx with
    | passed hverbs =>
      rw [List.filter_cons_of_neg (by simp [hverbs]), List.reduceOption_cons_of_none]
      exact ih
    | listed hverbs hid =>
      rw [List.filter_cons_of_pos (by simp [hverbs]), List.reduceOption_cons_of_some,
        List.map_cons, List.map_cons, hid, ih]

theorem Apart.nodup {os : List Operation} (h : Apart os) : os.Nodup := by
  refine h.imp fun {p o} hclash he => hclash ?_
  subst he
  exact ⟨rfl, rfl⟩

end Extraction

/-- An identifier leads to the first operation that has it. -/
theorem Contract.operationById?_eq_iff {c : Contract} (hnodup : c.operations.Nodup)
    {before after : List Operation} {o : Operation} (h : c.operations = before ++ o :: after) :
    c.operationById? o.operationId = some o ↔ o.operationId ∉ before.map (·.operationId) := by
  have hfresh : o ∉ before := fun hmem =>
    (List.nodup_append.mp (h ▸ hnodup)).2.2 o hmem o List.mem_cons_self rfl
  have hlookup : c.operationById? o.operationId =
      (before.find? (·.operationId = o.operationId)).or (some o) := by
    rw [operationById?, h, List.find?_append, List.find?_cons_of_pos (by simp)]
  rw [hlookup]
  cases hfirst : before.find? (·.operationId = o.operationId) with
  | none => simpa [eq_comm] using List.find?_eq_none.mp hfirst
  | some p =>
    have hp := List.mem_of_find?_eq_some hfirst
    have hid : p.operationId = o.operationId := by simpa using List.find?_some hfirst
    refine iff_of_false (fun he => ?_) fun hfree => hfree (hid ▸ List.mem_map_of_mem hp)
    obtain rfl : p = o := by simpa using he
    exact hfresh hp

theorem Contract.identified_iff {c : Contract} (hnodup : c.operations.Nodup) :
    (∀ o ∈ c.operations, c.operationById? o.operationId = some o) ↔
      (c.operations.map (·.operationId)).Nodup := by
  constructor
  · intro hall
    refine (List.nodup_map_iff_inj_on hnodup).mpr fun o ho p hp he => ?_
    have hsame := hall o ho
    rw [he, hall p hp] at hsame
    exact (Option.some.inj hsame).symm
  · intro hids o ho
    obtain ⟨before, after, hsplit⟩ := List.append_of_mem ho
    rw [Contract.operationById?_eq_iff hnodup hsplit]
    intro hmem
    rw [hsplit, List.map_append, List.map_cons] at hids
    exact (List.nodup_append.mp hids).2.2 _ hmem _ List.mem_cons_self rfl

theorem Graph.contract_identifiers {g : Graph} {combination : Combination} {c : Contract}
    (h : g.contract combination = .ok c) : c.operations.map (·.operationId) = g.identifiers := by
  obtain ⟨os, hos, hoperations⟩ := Graph.contract_related h
    (Extraction.operationOf?_identified Registry.grounded_invariant g combination)
  rw [hoperations]
  exact Extraction.identifiers_of_identified hos

/-- The operations have the identifiers of the methods with a verb. One is found under its
identifier where no operation before it has the same one, so all are found exactly where no two
methods with a verb have one identifier. -/
theorem Graph.contract_identified {g : Graph} {combination : Combination} {c : Contract}
    (h : g.contract combination = .ok c) :
    c.operations.map (·.operationId) = g.identifiers ∧
      (∀ before o after, c.operations = before ++ o :: after →
        (c.operationById? o.operationId = some o ↔
          o.operationId ∉ before.map (·.operationId))) ∧
      ((∀ o ∈ c.operations, c.operationById? o.operationId = some o) ↔ g.identifiers.Nodup) := by
  have hnodup := (Graph.contract_found h).2.nodup
  have hidentifiers := Graph.contract_identifiers h
  exact ⟨hidentifiers, fun _ _ _ hsplit => Contract.operationById?_eq_iff hnodup hsplit,
    hidentifiers ▸ Contract.identified_iff hnodup⟩

namespace Sample

def twins : Graph where
  declarations := []
  controllers := [posting [],
    { posting [] with id := ⟨"m", "D"⟩, annotations := [⟨.route "d", .memory⟩] }]

/-- The name of the method leads away from the second operation. -/
theorem twins_confused : ∃ c o, twins.contract .anyOf = .ok c ∧ o ∈ c.operations ∧
    c.operationById? o.operationId ≠ some o := by
  have hcheck : ∃ c o, twins.contract .anyOf = .ok c ∧ o ∈ c.operations ∧
      (c.operationById? o.operationId).any (·.path != o.path) = true :=
    exists_operation (by decide +kernel)
  obtain ⟨c, o, hc, ho, h⟩ := hcheck
  refine ⟨c, o, hc, ho, fun hsame => ?_⟩
  simp [hsame] at h

theorem routing_identified : ∃ c, routing.contract .anyOf = .ok c ∧
    c.operations.map (·.operationId) = ["show", "drop", "f"] ∧
    ∀ o ∈ c.operations, c.operationById? o.operationId = some o := by
  have hcheck : ∃ c o, routing.contract .anyOf = .ok c ∧ o ∈ c.operations ∧
      decide (o.method = "f") = true := exists_operation (by decide +kernel)
  obtain ⟨c, -, hc, -, -⟩ := hcheck
  obtain ⟨hids, -, hfound⟩ := Graph.contract_identified hc
  have hidentifiers : routing.identifiers = ["show", "drop", "f"] := by decide
  have hnodup : routing.identifiers.Nodup := by
    rw [hidentifiers]
    decide
  exact ⟨c, hc, hids.trans hidentifiers, hfound.mpr hnodup⟩

end Sample

end RouteContract

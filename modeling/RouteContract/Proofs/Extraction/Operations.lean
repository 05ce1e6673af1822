import Mathlib.Data.List.Pairwise
import Mathlib.Data.List.Perm.Basic
import Mathlib.Data.List.ReduceOption
import RouteContract.Proofs.Extraction.Bindings
import RouteContract.Proofs.Extraction.Closed

/-!
# The list of operations

Methods are read one after the other, and each of them adds at most one operation
at the end of the list. An operation is refused where one of its verb and of the
shape of its route is there. So the list is what the methods contribute, in
order, and no two of it clash.
-/

set_option autoImplicit false

namespace RouteContract

def Graph.methods (g : Graph) : List (Controller × Method) :=
  g.controllers.flatMap fun k => k.methods.map fun m => (k, m)

def Operation.Clashes (p o : Operation) : Prop :=
  p.verb = o.verb ∧ Route.shape p.path = Route.shape o.path

theorem Operation.Clashes.symm {p o : Operation} (h : p.Clashes o) : o.Clashes p :=
  ⟨h.1.symm, h.2.symm⟩

namespace Extraction

open Resolve (Ensures)

def Apart (operations : List Operation) : Prop :=
  operations.Pairwise fun p o => ¬ p.Clashes o

theorem Apart.perm {os os' : List Operation} (h : Apart os) (hperm : os.Perm os') : Apart os' :=
  (hperm.pairwise_iff fun hpo hop => hpo hop.symm).mp h

theorem Apart.eq_of_clashes {os : List Operation} (h : Apart os) {p o : Operation} (hp : p ∈ os)
    (ho : o ∈ os) (hclash : p.Clashes o) : p = o := by
  by_contra hne
  have hsymm : Std.Symm fun p o : Operation => ¬ p.Clashes o := ⟨fun _ _ hpo hop => hpo hop.symm⟩
  exact h.forall hp ho hne hclash

theorem addOperation_eq_ok {os os' : List Operation} {o : Operation} :
    addOperation os o = .ok os' ↔ (∀ p ∈ os, ¬ p.Clashes o) ∧ os' = os ++ [o] := by
  unfold addOperation
  split
  · rename_i first hfirst
    refine iff_of_false (by simp) fun h => ?_
    have hclash := List.find?_some hfirst
    exact h.1 first (List.mem_of_find?_eq_some hfirst) (by simpa [Operation.Clashes] using hclash)
  · rename_i hnone
    have hfree : ∀ p ∈ os, ¬ p.Clashes o := by simpa [Operation.Clashes] using hnone
    rw [and_iff_right hfree]
    simp [eq_comm]

/-- An operation is added where it clashes with none that is there. -/
theorem enlist_eq_ok_iff {os os' : List Operation} {o? : Option Operation} (h : Apart os) :
    enlist os o? = .ok os' ↔ Apart (os ++ o?.toList) ∧ os' = os ++ o?.toList := by
  cases o? with
  | none => simp [enlist, h, eq_comm]
  | some o =>
    have hpairwise : Apart (os ++ [o]) ↔ ∀ p ∈ os, ¬ p.Clashes o := by
      unfold Apart
      rw [List.pairwise_append]
      simp [show os.Pairwise fun p o => ¬ p.Clashes o from h]
    simp only [enlist, Option.toList_some, hpairwise, addOperation_eq_ok]

theorem verbOf_eq_none {context : Context} {m : Method} (h : verbOf context m = .ok none) :
    m.annotations = [] := by
  unfold verbOf at h
  dsimp only at h
  split at h
  · assumption
  all_goals cases h

theorem verbOf_eq_some {context : Context} {m : Method} {verb : Verb} {tail : String}
    (h : verbOf context m = .ok (some (verb, tail))) :
    ∃ use ∈ m.annotations, use.content = .verb verb tail := by
  unfold verbOf at h
  dsimp only at h
  split at h
  case h_3 v path location hverbs =>
    cases h
    have hmem := List.mem_singleton_self (verb, tail, location)
    rw [← hverbs] at hmem
    obtain ⟨use, huse, hcontent⟩ := List.mem_filterMap.mp hmem
    refine ⟨use, huse, ?_⟩
    split at hcontent
    · rename_i hverb
      cases hcontent
      exact hverb
    · cases hcontent
  all_goals cases h

structure Context.Of (combination : Combination) (k : Controller) (context : Context) : Prop where
  name : context.name = k.id.name
  security : context.security = Security.declared k.annotations combination

inductive Found (x : Controller × Method) : Option Operation → Prop
  | passed {context : Context} (hverb : verbOf context x.2 = .ok none) : Found x none
  | listed {context : Context} {verb : Verb} {tail : String} {o : Operation}
      (hcontext : context.name = x.1.id.name)
      (hverb : verbOf context x.2 = .ok (some (verb, tail)))
      (ho : Realizes context x.2 verb tail o) : Found x (some o)

def Collects {α β : Type} (R : α → Option β → Prop) (xs : List α) (before after : List β) : Prop :=
  ∃ ys, List.Forall₂ R xs ys ∧ after = before ++ ys.reduceOption

section

variable {α β : Type} {R : α → Option β → Prop} {a b c : List β}

theorem Collects.nil : Collects R [] a a := ⟨[], .nil, (List.append_nil a).symm⟩

theorem Collects.single {x : α} {y : Option β} (h : R x y) : Collects R [x] a (a ++ y.toList) := by
  refine ⟨[y], .cons h .nil, ?_⟩
  cases y with
  | none => rfl
  | some y => rfl

theorem Collects.append {xs xs' : List α} (h : Collects R xs a b) (h' : Collects R xs' b c) :
    Collects R (xs ++ xs') a c := by
  obtain ⟨ys, hys, rfl⟩ := h
  obtain ⟨ys', hys', rfl⟩ := h'
  exact ⟨ys ++ ys', List.rel_append hys hys', by
    rw [List.reduceOption_append, List.append_assoc]⟩

theorem Collects.imp {S : α → Option β → Prop} {xs : List α} (h : Collects R xs a b)
    (hRS : ∀ x y, R x y → S x y) : Collects S xs a b := by
  obtain ⟨ys, hys, rfl⟩ := h
  exact ⟨ys, hys.imp hRS, rfl⟩

/-- A loop collects what its rounds collect. -/
theorem collects_foldlM {γ : Type} {I : Registry → Prop} {f : List β → γ → Resolve (List β)}
    {part : γ → List α} {xs : List γ}
    (h : ∀ a, ∀ x ∈ xs, Ensures I (f a x) (Collects R (part x) a)) (a : List β) :
    Ensures I (xs.foldlM f a) (Collects R (xs.flatMap part) a) := by
  induction xs generalizing a with
  | nil => exact .pure .nil
  | cons x xs ih =>
    rw [List.foldlM_cons]
    apply (h a x List.mem_cons_self).bind
    intro b hb
    apply (ih (fun b y hy => h b y (List.mem_cons_of_mem x hy)) b).weaken
    intro c hc
    exact hb.append hc

end

section

-- What is found for a method is related to it, given what its controller passes on.
variable {I : Registry → Prop} (g : Graph) (combination : Combination)
  {P : Controller → Context → Prop} (hP : ∀ k, Ensures I (contextOf g combination k) (P k))
  {R : Controller × Method → Option Operation → Prop}
  (hR : ∀ k context, P k context → ∀ m,
    Ensures I (operationOf? g combination context m) (R (k, m)))

include hR

theorem addMethod_collects {context : Context} {k : Controller} (hcontext : P k context)
    (os : List Operation) (m : Method) :
    Ensures I (addMethod g combination context os m) (Collects R [(k, m)] os) := by
  rw [addMethod_eq]
  refine (hR k context hcontext m).bind fun o? ho => .ofExcept ?_
  intro os' hos
  rw [enlist_eq_ok hos]
  exact .single ho

include hP

theorem addController_collects (os : List Operation) (k : Controller) :
    Ensures I (addController g combination os k)
      (Collects R (k.methods.map fun m => (k, m)) os) := by
  apply (hP k).bind
  intro context hcontext
  rw [List.map_eq_flatMap]
  exact collects_foldlM (fun os m _ => addMethod_collects g combination hR hcontext os m) os

theorem operationsOf_related :
    Ensures I (operationsOf g combination [] g.controllers) (Collects R g.methods []) :=
  collects_foldlM (fun os k _ => addController_collects g combination hP hR os k) []

end

section

variable {I : Registry → Prop} (hI : Registry.Invariant I) (g : Graph) (combination : Combination)

include hI

theorem addToContext_of {k : Controller} (o : Origin) {context : Context}
    (h : context.Of combination k) (use : AnnotationUse) :
    Ensures I (addToContext g o context use) (Context.Of combination k) := by
  unfold addToContext
  split
  case h_5 => exact (response_keeps hI g o _ _ _).seq fun _ => .pure ⟨h.name, h.security⟩
  all_goals exact .pure ⟨h.name, h.security⟩

theorem contextOf_of (k : Controller) :
    Ensures I (contextOf g combination k) (Context.Of combination k) := by
  rw [contextOf_eq]
  apply Ensures.unread.seq
  intro _
  exact .foldlM ⟨rfl, rfl⟩ fun context hcontext use _ =>
    addToContext_of hI g combination _ hcontext use

theorem operationOf?_found (k : Controller) (context : Context)
    (hcontext : context.Of combination k) (m : Method) :
    Ensures I (operationOf? g combination context m) (Found (k, m)) := by
  apply (Ensures.ofExcept fun _ h => h).bind
  intro v hv
  cases v with
  | none => exact .pure (.passed hv)
  | some v =>
    exact (operationOf_realizes hI g combination context m v.1 v.2).bind fun o ho =>
      .pure (.listed hcontext.name hv ho)

theorem operationsOf_found :
    Ensures I (operationsOf g combination [] g.controllers) (Collects Found g.methods []) :=
  operationsOf_related g combination (contextOf_of hI g combination)
    (operationOf?_found hI g combination)

theorem addMethod_apart {context : Context} {k : Controller} (hcontext : context.Of combination k)
    {os : List Operation} (hos : Apart os) (m : Method) :
    Ensures I (addMethod g combination context os m) Apart := by
  rw [addMethod_eq]
  refine (operationOf?_found hI g combination k context hcontext m).seq fun o? => .ofExcept ?_
  intro os' h
  obtain ⟨hapart, rfl⟩ := (enlist_eq_ok_iff hos).mp h
  exact hapart

theorem operationsOf_apart : Ensures I (operationsOf g combination [] g.controllers) Apart := by
  refine .foldlM List.Pairwise.nil fun os hos k _ => ?_
  apply (contextOf_of hI g combination k).bind
  intro context hcontext
  exact .foldlM hos fun os hos m _ => addMethod_apart hI g combination hcontext hos m

end

end Extraction

theorem Graph.contract_run {g : Graph} {combination : Combination} {c : Contract}
    (h : g.contract combination = .ok c) : ∃ st, Resolve.Gives
      (Extraction.operationsOf g combination [] g.controllers) (.empty, []) c.operations st := by
  have hroots : ∀ k ∈ g.controllers, ∀ t, k.Writes t → True := fun _ _ _ _ => trivial
  rcases Extraction.contract_cases hroots with ⟨e, -, he⟩ | ⟨operations, st, ds, hgives, -, -, hc⟩
  · rw [he] at h
    cases h
  · rw [hc] at h
    cases h
    exact ⟨st, hgives⟩

/-- The operations of a contract are related to its methods, in order, by whatever relates what is
found for one method to it, given what is ensured of what its controller passes on. -/
theorem Graph.contract_related_under {g : Graph} {combination : Combination} {c : Contract}
    {P : Controller → Extraction.Context → Prop} {R : Controller × Method → Option Operation → Prop}
    (h : g.contract combination = .ok c)
    (hP : ∀ k, Resolve.Ensures Registry.Grounded (Extraction.contextOf g combination k) (P k))
    (hR : ∀ k context, P k context → ∀ m, Resolve.Ensures Registry.Grounded
      (Extraction.operationOf? g combination context m) (R (k, m))) :
    ∃ os, List.Forall₂ R g.methods os ∧ c.operations = os.reduceOption := by
  obtain ⟨st, hgives⟩ := Graph.contract_run h
  have hrelated := Extraction.operationsOf_related g combination hP hR
  exact ((hrelated _ Registry.grounded_empty).2 c.operations st hgives).1

theorem Graph.contract_related {g : Graph} {combination : Combination} {c : Contract}
    {R : Controller × Method → Option Operation → Prop} (h : g.contract combination = .ok c)
    (hR : ∀ k context, context.Of combination k → ∀ m, Resolve.Ensures Registry.Grounded
      (Extraction.operationOf? g combination context m) (R (k, m))) :
    ∃ os, List.Forall₂ R g.methods os ∧ c.operations = os.reduceOption :=
  Graph.contract_related_under h
    (Extraction.contextOf_of Registry.grounded_invariant g combination) hR

/-- The operations of a contract are what is found for its methods, in order, and no two of them
clash. -/
theorem Graph.contract_found {g : Graph} {combination : Combination} {c : Contract}
    (h : g.contract combination = .ok c) :
    (∃ os, List.Forall₂ Extraction.Found g.methods os ∧ c.operations = os.reduceOption) ∧
      Extraction.Apart c.operations := by
  obtain ⟨st, hgives⟩ := Graph.contract_run h
  have hapart := Extraction.operationsOf_apart Registry.grounded_invariant g combination
  exact ⟨Graph.contract_related h
      (Extraction.operationOf?_found Registry.grounded_invariant g combination),
    ((hapart _ Registry.grounded_empty).2 c.operations st hgives).1⟩

end RouteContract

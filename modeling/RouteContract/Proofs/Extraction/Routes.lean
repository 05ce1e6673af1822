import RouteContract.Proofs.Extraction.Table
import RouteContract.Proofs.Route.Paths

/-!
# Paths of operations

A controller brings the last of its routes into normal form, and each of its
methods joins its own path to that. So the path of an operation is what the two
texts give as they are written. Nothing is assumed of either text.
-/

set_option autoImplicit false

namespace RouteContract

def Annotation.route? : Annotation → Option String
  | .route stem => some stem
  | _ => none

def AnnotationUse.route (uses : List AnnotationUse) : String :=
  ((uses.filterMap (·.content.route?)).getLast?).getD ""

theorem AnnotationUse.route_concat_some {use : AnnotationUse} {path : String}
    (h : use.content.route? = some path) (uses : List AnnotationUse) :
    route (uses ++ [use]) = path := by
  simp [route, h]

theorem AnnotationUse.route_concat_none {use : AnnotationUse} (h : use.content.route? = none)
    (uses : List AnnotationUse) : route (uses ++ [use]) = route uses := by
  simp [route, h]

namespace Extraction

open Resolve (Ensures)

structure Context.Routed (k : Controller) (uses : List AnnotationUse) (context : Context) :
    Prop where
  name : context.name = k.id.name
  stem : context.stem = Route.join (AnnotationUse.route uses) ""

inductive Routed : Controller × Method → Option Operation → Prop
  | passed {k : Controller} {m : Method} (hverbs : m.verbs = []) : Routed (k, m) none
  | listed {k : Controller} {m : Method} {o : Operation} {use : AnnotationUse} {tail : String}
      (hserves : o.Serves (k, m)) (huse : use ∈ m.annotations)
      (hcontent : use.content = .verb o.verb tail)
      (hstem : o.stem = Route.join (AnnotationUse.route k.annotations) "")
      (hpath : o.path = Route.join (AnnotationUse.route k.annotations) tail) :
      Routed (k, m) (some o)

section

variable {I : Registry → Prop} (hI : Registry.Invariant I) (g : Graph) (combination : Combination)

include hI

theorem addToContext_routed {k : Controller} (o : Origin) {uses : List AnnotationUse}
    {context : Context} (h : context.Routed k uses) (use : AnnotationUse) :
    Ensures I (addToContext g o context use) (Context.Routed k (uses ++ [use])) := by
  unfold addToContext
  cases hcontent : use.content with
  | route path =>
    have hroute : AnnotationUse.route (uses ++ [use]) = path :=
      AnnotationUse.route_concat_some (by rw [hcontent]; rfl) uses
    exact .pure ⟨h.name, by rw [hroute]⟩
  | response status description type =>
    have hroute := AnnotationUse.route_concat_none (by rw [hcontent]; rfl) uses
    exact (response_keeps hI g o _ _ _).seq fun _ => .pure ⟨h.name, by rw [hroute, h.stem]⟩
  | _ =>
    have hroute := AnnotationUse.route_concat_none (by rw [hcontent]; rfl) uses
    exact .pure ⟨h.name, by rw [hroute, h.stem]⟩

theorem contextOf_routed (k : Controller) :
    Ensures I (contextOf g combination k) (Context.Routed k k.annotations) := by
  rw [contextOf_eq]
  apply Ensures.unread.seq
  intro _
  exact Ensures.foldlM_carries (P := Context.Routed k) ⟨rfl, rfl⟩ fun uses context use h =>
    addToContext_routed hI g _ h use

theorem operationOf?_routed (k : Controller) (context : Context)
    (hcontext : context.Routed k k.annotations) (m : Method) :
    Ensures I (operationOf? g combination context m) (Routed (k, m)) := by
  apply (Ensures.ofExcept fun _ h => h).bind
  intro v hv
  cases v with
  | none => exact .pure (.passed (by rw [Method.verbs, verbOf_eq_none hv, List.filterMap_nil]))
  | some v =>
    refine (operationOf_realizes hI g combination context m v.1 v.2).bind fun o ho => .pure ?_
    obtain ⟨use, huse, hcontent⟩ := verbOf_eq_some hv
    have hstem := ho.stem.trans hcontext.stem
    have hserves : o.Serves (k, m) :=
      ⟨ho.controller.trans hcontext.name, ho.method, ho.verb ▸ verbs_of_verbOf hv⟩
    refine .listed hserves huse (ho.verb ▸ hcontent) hstem ?_
    rw [ho.path, hstem, Route.join_empty_join]

end

end Extraction

/-- What joining gives are the normal paths. Joining is associative, and the empty text adds nothing
to a normal path on either side. So a path can be brought into normal form before another one is
joined to it, and the path of every operation is what the route of the controller and the path of
the method give as they are written. -/
theorem Route.join_normalizes :
    (∀ path, Normal path ↔ ∃ p q, join p q = path) ∧
    (∀ p q r, join (join p q) r = join p (join q r)) ∧
    (∀ path, Normal path → join path "" = path ∧ join "" path = path) ∧
    (∀ p q, join (join p "") q = join p q) ∧
    ∀ {g : Graph} {combination : Combination} {c : Contract}, g.contract combination = .ok c →
      ∃ os, List.Forall₂ Extraction.Routed g.methods os ∧ c.operations = os.reduceOption := by
  refine ⟨fun _ => normal_iff, join_join, fun path h => ?_, join_empty_join,
    fun {g combination c} h => ?_⟩
  · exact ⟨(join_empty path).trans h.ofSegments_segments,
      (empty_join path).trans h.ofSegments_segments⟩
  · exact Graph.contract_related_under h
      (Extraction.contextOf_routed Registry.grounded_invariant g combination)
      (Extraction.operationOf?_routed Registry.grounded_invariant g combination)

namespace Sample

def slashing : Graph where
  declarations := []
  controllers := [
    { posting [] with
      id := ⟨"m", "Users"⟩
      annotations := [⟨.route "old", .memory⟩, ⟨.route "v1//users/", .memory⟩]
      methods := [
        ⟨"list", [⟨.verb .get "/", .memory⟩], [], some (.keyword .void), none, .memory⟩,
        ⟨"posts", [⟨.verb .get "\x7bid\x7d//posts/", .memory⟩],
          [unannotated "id" (.keyword .string)], some (.keyword .void), none, .memory⟩] },
    posting []]

theorem slashing_joined : Route.Normal "/v1/users" ∧ Route.join "/v1/users" "" = "/v1/users" ∧
    ∃ c, slashing.contract .anyOf = .ok c ∧
      c.operations.map (·.path) = ["/v1/users", "/v1/users/\x7bid\x7d/posts", "/"] ∧
      ∃ os, List.Forall₂ Extraction.Routed slashing.methods os ∧
        c.operations = os.reduceOption := by
  have hjoined : Route.join "v1//users/" "/" = "/v1/users" := by decide +kernel
  have hnormal := (Route.join_normalizes.1 "/v1/users").mpr ⟨_, _, hjoined⟩
  have hcheck : ∃ c o, slashing.contract .anyOf = .ok c ∧ o ∈ c.operations ∧
      decide (c.operations.map (·.path) =
        ["/v1/users", "/v1/users/\x7bid\x7d/posts", "/"]) = true :=
    exists_operation (by decide +kernel)
  obtain ⟨c, o, hc, -, hpaths⟩ := hcheck
  exact ⟨hnormal, (Route.join_normalizes.2.2.1 _ hnormal).1, c, hc, of_decide_eq_true hpaths,
    Route.join_normalizes.2.2.2.2 hc⟩

end Sample

end RouteContract

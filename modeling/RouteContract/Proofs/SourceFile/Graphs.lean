import Mathlib.Data.List.Forall2
import RouteContract.Program
import RouteContract.Proofs.Samples
import RouteContract.Proofs.SourceFile.Names

/-!
# Names in declaration graphs

A graph holds the declarations and the controllers of its files, in order. Every
type that is written in a file stands in the graph with its names bound: in
declarations, in signatures of methods and in responses that are declared by
decorators. Files may import one another in any way.
-/

set_option autoImplicit false

namespace RouteContract

def Secures {α : Type} (x : Except Fault α) (P : α → Prop) : Prop := ∀ a, x = .ok a → P a

namespace Secures

variable {α β : Type} {P : α → Prop} {Q : β → Prop}

theorem ok {a : α} (h : P a) : Secures (.ok a) P := by
  rintro _ ⟨⟩
  exact h

theorem error {f : Fault} : Secures (.error f) P := nofun

theorem bind {x : Except Fault α} {f : α → Except Fault β} (h : Secures x P)
    (hf : ∀ a, P a → Secures (f a) Q) : Secures (x >>= f) Q := by
  cases x with
  | error f => exact error
  | ok a => exact hf a (h a rfl)

/-- A sequence whose first part is not looked at. -/
theorem seq {x : Except Fault α} {f : α → Except Fault β} (hf : ∀ a, Secures (f a) Q) :
    Secures (x >>= f) Q :=
  bind (P := fun _ => True) (fun _ _ => trivial) fun a _ => hf a

theorem mapM {f : α → Except Fault β} {R : α → β → Prop} {xs : List α}
    (h : ∀ x ∈ xs, Secures (f x) (R x)) : Secures (xs.mapM f) (List.Forall₂ R xs) := by
  induction xs with
  | nil => exact ok .nil
  | cons x xs ih =>
    rw [List.mapM_cons]
    refine (h x List.mem_cons_self).bind fun y hy => ?_
    refine (ih fun z hz => h z (List.mem_cons_of_mem x hz)).bind fun ys hys => ?_
    exact ok (.cons hy hys)

theorem mapM_all {f : α → Except Fault β} {xs : List α} (h : ∀ x ∈ xs, Secures (f x) fun _ => P x) :
    Secures (xs.mapM f) fun _ => ∀ x ∈ xs, P x := by
  intro ys hys
  have hall := mapM (R := fun x _ => P x ∧ True) (fun x hx y hy => ⟨h x hx y hy, trivial⟩) ys hys
  exact ((List.forall₂_and_left xs ys).mp hall).1

theorem forM {f : α → Except Fault Unit} {xs : List α} (h : ∀ x ∈ xs, Secures (f x) fun _ => P x) :
    Secures (xs.forM f) fun _ => ∀ x ∈ xs, P x := by
  induction xs with
  | nil => exact ok nofun
  | cons x xs ih =>
    refine (h x List.mem_cons_self).bind fun _ hx => ?_
    have hrest := ih fun y hy => h y (List.mem_cons_of_mem x hy)
    exact fun u hu => List.forall_mem_cons.mpr ⟨hx, hrest u hu⟩

/-- What a round carries on, from the elements that are done to one more, holds after the loop. -/
theorem foldlM {f : β → α → Except Fault β} {P : List α → β → Prop} {xs : List α} {b : β}
    (hb : P [] b) (h : ∀ done c x, P done c → Secures (f c x) (P (done ++ [x]))) :
    Secures (xs.foldlM f b) (P xs) := by
  have general : ∀ done c, P done c → Secures (xs.foldlM f c) (P (done ++ xs)) := by
    clear hb
    induction xs with
    | nil =>
      intro done c hc
      exact ok (by simpa using hc)
    | cons x xs ih =>
      intro done c hc
      rw [List.foldlM_cons]
      refine (h done c x hc).bind fun d hd e he => ?_
      simpa using ih (done ++ [x]) d hd e he
  exact general [] b hb

end Secures

section

variable (R : TypeExpr → TypeExpr → Prop)

inductive DeclKind.Related : DeclKind → DeclKind → Prop
  | object {bases bases' : List (TypeRef TypeExpr)} {shape shape' : Shape TypeExpr} {isClass : Bool}
      (hbases : List.Forall₂ (fun b b' => R (.ref b) (.ref b')) bases bases')
      (hshape : R (.object shape) (.object shape')) :
      Related (.object bases shape isClass) (.object bases' shape' isClass)
  | typeAlias {t t' : TypeExpr} (h : R t t') : Related (.typeAlias t) (.typeAlias t')
  | enum {members : List EnumMember} : Related (.enum members) (.enum members)

structure TypeParam.Related (p p' : TypeParam) : Prop where
  name : p'.name = p.name
  default : Option.Rel R p.default p'.default

structure Declaration.Related (d d' : Declaration) : Prop where
  id : d'.id = d.id
  kind : d.kind.Related R d'.kind
  params : List.Forall₂ (TypeParam.Related R) d.params d'.params
  description : d'.description = d.description
  location : d'.location = d.location

structure Decorator.Related (d : Decorator) (use : AnnotationUse) : Prop where
  location : use.location = d.location
  response : d.name = "Response" → ∃ status description type,
    use.content = .response status description type ∧ Option.Rel R d.typeArgs.head? type
  other : d.name ≠ "Response" → ∀ status description type,
    use.content ≠ .response status description type

structure DecoratedParameter.Related (p : DecoratedParameter) (p' : Parameter) : Prop where
  name : p'.name = p.name
  type : Option.Rel R p.type p'.type
  optional : p'.optional = p.optional
  default : p'.default = p.default
  annotations : List.Forall₂ (Decorator.Related R) p.decorators p'.annotations
  location : p'.location = p.location

structure DecoratedMethod.Related (m : DecoratedMethod) (m' : Method) : Prop where
  name : m'.name = m.name
  annotations : ∃ uses more, m'.annotations = uses ++ more ∧
    List.Forall₂ (Decorator.Related R) m.decorators uses ∧ ∀ use ∈ more, use.content = .deprecated
  parameters : List.Forall₂ (DecoratedParameter.Related R) m.parameters m'.parameters
  returns : Option.Rel R m.returns m'.returns
  location : m'.location = m.location

structure DecoratedClass.Related (module : String) (c : DecoratedClass) (k : Controller) :
    Prop where
  id : k.id = ⟨module, c.name⟩
  annotations : List.Forall₂ (Decorator.Related R) c.decorators k.annotations
  methods : List.Forall₂ (DecoratedMethod.Related R) c.methods k.methods
  location : k.location = c.location

end

def SourceFile.declared (f : SourceFile) : List (SourceFile × Declaration) :=
  f.declarations.map fun d => (f, d)

def SourceFile.decorated (f : SourceFile) : List (SourceFile × DecoratedClass) :=
  f.controllers.map fun c => (f, c)

structure Graph.Holds (modules : List String) (ds : List (SourceFile × Declaration))
    (cs : List (SourceFile × DecoratedClass)) (g : Graph) : Prop where
  declarations : List.Forall₂ (fun x d => x.2.Related (x.1.Binds modules) d) ds g.declarations
  controllers : List.Forall₂ (fun x k => x.2.Related (x.1.Binds modules) x.1.module k) cs
    g.controllers

section

variable {f : SourceFile} {modules : List String}

theorem binds_option (t : Option TypeExpr) : Option.Rel (f.Binds modules) t
    (t.map (TypeExpr.bindNames (f.names modules))) := by
  cases t with
  | none => exact .none
  | some t => exact .some (SourceFile.binds_iff.mpr rfl)

theorem Declaration.related_bindNames (d : Declaration) :
    d.Related (f.Binds modules) (d.bindNames (f.names modules)) where
  id := rfl
  kind := by
    show d.kind.Related _ (d.kind.bindNames _)
    cases d.kind with
    | object bases shape isClass =>
      refine .object ?_ (SourceFile.binds_iff.mpr rfl)
      rw [List.forall₂_map_right_iff]
      exact List.forall₂_same.mpr fun b _ => SourceFile.binds_iff.mpr rfl
    | typeAlias t => exact .typeAlias (SourceFile.binds_iff.mpr rfl)
    | enum members => exact .enum
  params := by
    show List.Forall₂ _ d.params (d.params.map _)
    rw [List.forall₂_map_right_iff]
    exact List.forall₂_same.mpr fun p _ => ⟨rfl, binds_option p.default⟩
  description := rfl
  location := rfl

/-! ## Decorators -/

namespace Decorator

theorem response_related {d : Decorator} :
    Secures (d.response (f.names modules)) fun a => ∃ status description type,
      a = .response status description type ∧
        Option.Rel (f.Binds modules) d.typeArgs.head? type := by
  unfold response
  refine .seq fun _ => .seq fun status => .seq fun description => .ok ?_
  exact ⟨status, description, _, rfl, binds_option _⟩

/-- Only the decorator of that name is read as a response. -/
theorem meaning_other {d : Decorator} {ns : Names} (h : d.name ≠ "Response") :
    Secures (d.meaning ns) fun a => ∀ status description type,
      a ≠ .response status description type := by
  have hbare : ∀ a, (∀ status description type, a ≠ Annotation.response status description type) →
      Secures (d.bare a) fun a => ∀ status description type,
        a ≠ .response status description type := fun a ha => .seq fun _ => .ok ha
  unfold meaning
  cases Verb.ofName? d.name with
  | some verb => exact .seq fun _ => .ok nofun
  | none =>
    dsimp only
    split
    case h_13 hname => exact absurd hname h
    case h_14 =>
      unfold successResponse
      refine .seq fun _ => .seq fun status => ?_
      cases status with
      | code n => exact .seq fun _ => .ok nofun
      | default => exact .error
    case h_16 =>
      unfold operationId
      refine .seq fun id => ?_
      cases id with
      | none => exact .error
      | some id => exact .ok nofun
    case h_17 => exact .error
    all_goals first
      | exact hbare _ nofun
      | exact .seq fun _ => .ok nofun

theorem meaning_response {d : Decorator} {ns : Names} (h : d.name = "Response") :
    d.meaning ns = d.response ns := by
  have hverb : Verb.ofName? "Response" = none := by decide
  simp only [meaning, h, hverb]

theorem use_related (d : Decorator) :
    Secures (d.use (f.names modules)) (d.Related (f.Binds modules)) := by
  unfold use
  by_cases h : d.name = "Response"
  · rw [meaning_response h]
    exact response_related.bind fun a ha => .ok ⟨rfl, fun _ => ha, fun hne => absurd h hne⟩
  · exact (meaning_other h).bind fun a ha => .ok ⟨rfl, fun he => absurd he h, fun _ => ha⟩

end Decorator

theorem annotationUses_related (ds : List Decorator) :
    Secures (annotationUses (f.names modules) ds)
      (List.Forall₂ (Decorator.Related (f.Binds modules)) ds) :=
  .mapM fun d _ => d.use_related

/-! ## Controllers -/

theorem DecoratedParameter.parameter_related (documentation : Documentation)
    (p : DecoratedParameter) :
    Secures (p.parameter (f.names modules) documentation) (p.Related (f.Binds modules)) := by
  unfold parameter
  exact (annotationUses_related p.decorators).bind fun uses huses =>
    .ok ⟨rfl, binds_option p.type, rfl, rfl, huses, rfl⟩

theorem withDeprecation_eq (uses : List AnnotationUse) (d : Documentation) (location : Location) :
    ∃ more, withDeprecation uses d location = uses ++ more ∧
      ∀ use ∈ more, use.content = .deprecated := by
  unfold withDeprecation
  split
  · exact ⟨_, rfl, by simp⟩
  · exact ⟨[], by simp, by simp⟩

theorem DecoratedMethod.method_related (m : DecoratedMethod) :
    Secures (m.method (f.names modules)) (m.Related (f.Binds modules)) := by
  unfold method
  refine (annotationUses_related m.decorators).bind fun uses huses => ?_
  refine (Secures.mapM fun p _ => p.parameter_related _).bind fun parameters hparameters => .ok ?_
  obtain ⟨more, hmore, hdeprecated⟩ :=
    withDeprecation_eq uses (m.documentation.getD .empty) m.location
  exact ⟨rfl, ⟨uses, more, hmore, huses, hdeprecated⟩, hparameters, binds_option m.returns, rfl⟩

theorem DecoratedClass.controller_related (module : String) (c : DecoratedClass) :
    Secures (c.controller (f.names modules) module) (c.Related (f.Binds modules) module) := by
  unfold controller
  refine (annotationUses_related c.decorators).bind fun uses huses => ?_
  refine (Secures.mapM fun m _ => m.method_related).bind fun methods hmethods => ?_
  exact .ok ⟨rfl, huses, hmethods, rfl⟩

end

/-! ## Files -/

namespace Graph

variable {f : SourceFile} {modules : List String} {ds : List (SourceFile × Declaration)}
  {cs : List (SourceFile × DecoratedClass)} {g : Graph}

theorem empty_holds : empty.Holds modules [] [] := ⟨.nil, .nil⟩

theorem addDeclaration_holds (h : g.Holds modules ds cs) (d : Declaration) :
    Secures (g.addDeclaration (d.bindNames (f.names modules)))
      (Holds modules (ds ++ [(f, d)]) cs) := by
  unfold addDeclaration
  split
  · exact .error
  · refine .ok ⟨?_, h.controllers⟩
    exact List.rel_append h.declarations (.cons d.related_bindNames .nil)

theorem addController_holds (h : g.Holds modules ds cs) {c : DecoratedClass} {k : Controller}
    (hk : c.Related (f.Binds modules) f.module k) :
    (g.addController k).Holds modules ds (cs ++ [(f, c)]) where
  declarations := h.declarations
  controllers := List.rel_append h.controllers (.cons hk .nil)

theorem addFile_holds (h : g.Holds modules ds cs) (f : SourceFile) :
    Secures (addFile modules g f) (Holds modules (ds ++ f.declared) (cs ++ f.decorated)) := by
  have hdeclarations : Secures
      (f.declarations.foldlM (fun g d => g.addDeclaration (d.bindNames (f.names modules))) g)
      (Holds modules (ds ++ f.declared) cs) := by
    refine Secures.foldlM (P := fun done => Holds modules (ds ++ done.map fun d => (f, d)) cs)
      (by simpa using h) fun done g d hg => ?_
    rw [List.map_append, ← List.append_assoc]
    exact addDeclaration_holds hg d
  refine .seq fun _ => hdeclarations.bind fun g hg => ?_
  refine Secures.foldlM
    (P := fun done => Holds modules (ds ++ f.declared) (cs ++ done.map fun c => (f, c)))
    (by simpa using hg) fun done g c hg => ?_
  rw [List.map_append, ← List.append_assoc]
  exact (DecoratedClass.controller_related f.module c).bind fun k hk =>
    .ok (addController_holds hg hk)

/-- The graph of some files has all their declarations and controllers, in order. In each
declaration, signature and declared response every reference is bound in its file, at whatever
depth, and nothing else of a type differs from what is written. -/
theorem ofFiles_holds {files : List SourceFile} (h : ofFiles files = .ok g) :
    g.Holds (files.map (·.module)) (files.flatMap (·.declared)) (files.flatMap (·.decorated)) := by
  have hloop : Secures (ofFiles files) (Holds (files.map (·.module)) (files.flatMap (·.declared))
      (files.flatMap (·.decorated))) := by
    refine Secures.foldlM (P := fun (done : List SourceFile) => Holds (files.map (·.module))
      (done.flatMap (·.declared)) (done.flatMap (·.decorated))) empty_holds fun done g f hg => ?_
    simpa only [List.flatMap_append, List.flatMap_singleton] using addFile_holds hg f
  exact hloop g h

end Graph

namespace Sample

def declaring (module name : String) (ps : List (Property TypeExpr)) : Declaration where
  id := ⟨module, name⟩
  kind := .object [] ⟨ps, []⟩ false
  params := []
  description := none
  location := .memory

def importing (name localName source : String) : Import :=
  ⟨[⟨name, some localName⟩], source, .memory⟩

def orders : SourceFile where
  path := "models/order.ts"
  module := "models/order"
  imports := [importing "User" "Buyer" "./user", importing "Client" "Buyer" "../models/client",
    importing "User" "Place" "./user", importing "Lost" "Lost" "./nowhere"]
  declarations := [declaring "models/order" "Place" [],
    declaring "models/order" "Order" [property "buyers" (.array (.named "Buyer")),
      property "place" (.named "Place"), property "lost" (.named "Lost")]]
  controllers := [⟨"Orders", [], [⟨"last", [⟨"Get", [], [], .memory⟩,
      ⟨"Response", [.named "Buyer"], [.constant (.integer 404)], .memory⟩], [],
    some (.named "Order"), none, .memory⟩], none, .memory⟩]
  strays := []

def models : List SourceFile :=
  [{ SourceFile.empty "models/user.ts" "models/user" with
      declarations := [declaring "models/user" "User" []] },
    { SourceFile.empty "models/client.ts" "models/client" with
      declarations := [declaring "models/client" "Client" []] }, orders]

def memberTypes (g : Graph) : List TypeExpr :=
  g.declarations.flatMap fun d => d.members.map (·.type)

theorem models_hold : ∃ g, Graph.ofFiles models = .ok g ∧
    TypeExpr.sameAll (memberTypes g) [.array (.ref ⟨"Client", some "models/client", []⟩),
      .ref ⟨"Place", some "models/order", []⟩, .named "Lost"] ∧
    g.Holds (models.map (·.module)) (models.flatMap (·.declared)) (models.flatMap (·.decorated)) := by
  have hcheck : (Graph.ofFiles models).toOption.any fun g => TypeExpr.sameAll (memberTypes g)
      [.array (.ref ⟨"Client", some "models/client", []⟩),
        .ref ⟨"Place", some "models/order", []⟩, .named "Lost"] := by decide +kernel
  cases hg : Graph.ofFiles models with
  | error f => simp [hg, Except.toOption] at hcheck
  | ok g =>
    rw [hg] at hcheck
    exact ⟨g, rfl, hcheck, Graph.ofFiles_holds hg⟩

end Sample

end RouteContract

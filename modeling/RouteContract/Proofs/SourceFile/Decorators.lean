import Mathlib.Data.List.Perm.Basic
import RouteContract.Proofs.Lists
import RouteContract.Proofs.SourceFile.Graphs

/-!
# Decorators of classes

A decorator of a class stands on the class itself, on a member or on a parameter of
a member. A file keeps it on a controller or aside, or it is overlooked, which
depends on where it stands. Nothing is assumed of the names of decorators, nor of the
positions in the text. A decorator that is kept has to be known when a graph is
built; one that is overlooked does not.
-/

set_option autoImplicit false

namespace RouteContract

open Syntax

/-! ## Where decorators stand -/

namespace Syntax

namespace ClassMemberSyntax

def decorators : ClassMemberSyntax → List DecoratorSyntax
  | method m => m.decorators
  | field f => f.decorators
  | signature _ => []

def parameters : ClassMemberSyntax → List ParameterSyntax
  | method m => m.parameters
  | field _ => []
  | signature ps => ps

@[simp] theorem decorators_method (m : MethodSyntax) : (method m).decorators = m.decorators := rfl

@[simp] theorem parameters_method (m : MethodSyntax) : (method m).parameters = m.parameters := rfl

def isOperation : ClassMemberSyntax → Bool
  | method m => m.key.text ≠ "constructor" && !m.isHidden
  | field _ => false
  | signature _ => false

def hears (m : ClassMemberSyntax) (p : ParameterSyntax) : Bool :=
  m.isOperation && p.pattern ≠ receiver

def written (m : ClassMemberSyntax) : List DecoratorSyntax :=
  m.decorators ++ m.parameters.flatMap (·.decorators)

def operating (m : ClassMemberSyntax) : List DecoratorSyntax :=
  if m.isOperation then m.decorators ++ (m.parameters.filter m.hears).flatMap (·.decorators) else []

theorem operating_method {m : MethodSyntax} (hm : (method m).isOperation) :
    (method m).operating =
      m.decorators ++ (m.parameters.filter (·.pattern ≠ receiver)).flatMap (·.decorators) := by
  have hhears : (method m).hears = fun p : ParameterSyntax => decide (p.pattern ≠ receiver) := by
    funext p
    simp [hears, hm]
  simp [operating, hm, hhears]

def aside (m : ClassMemberSyntax) : List DecoratorSyntax :=
  if m.isOperation then [] else m.decorators

def unheard (m : ClassMemberSyntax) : List DecoratorSyntax :=
  (m.parameters.filter (!m.hears ·)).flatMap (·.decorators)

end ClassMemberSyntax

namespace ClassSyntax

variable (exported : List DecoratorSyntax) (c : ClassSyntax)

def written : List DecoratorSyntax :=
  exported ++ c.decorators ++ c.members.flatMap (·.written)

def isController : Bool :=
  !exported.isEmpty || !c.decorators.isEmpty ||
    c.members.any fun m => m.isOperation && !m.decorators.isEmpty

def operating : List DecoratorSyntax :=
  if c.isController exported then exported ++ c.decorators ++ c.members.flatMap (·.operating)
  else []

def aside : List DecoratorSyntax := c.members.flatMap (·.aside)

def overlooked : List DecoratorSyntax :=
  c.members.flatMap fun m =>
    if c.isController exported then m.unheard else m.parameters.flatMap (·.decorators)

end ClassSyntax

namespace Statement

def ofClass (f : List DecoratorSyntax → ClassSyntax → List DecoratorSyntax) :
    Statement → List DecoratorSyntax
  | declaration exported (.class c) _ => f exported c
  | _ => []

def written : Statement → List DecoratorSyntax := ofClass fun exported c => c.written exported

def operating : Statement → List DecoratorSyntax := ofClass fun exported c => c.operating exported

def aside : Statement → List DecoratorSyntax := ofClass fun _ c => c.aside

def overlooked : Statement → List DecoratorSyntax := ofClass fun exported c => c.overlooked exported

section

variable (exported : List DecoratorSyntax) (c : ClassSyntax) (comment : Option String)

@[simp] theorem operating_class :
    (declaration exported (.class c) comment).operating = c.operating exported := rfl

@[simp] theorem aside_class : (declaration exported (.class c) comment).aside = c.aside := rfl

end

end Statement

end Syntax

/-! ## What files keep -/

def DecoratedMethod.allDecorators (m : DecoratedMethod) : List Decorator :=
  m.decorators ++ m.parameters.flatMap (·.decorators)

def DecoratedClass.allDecorators (c : DecoratedClass) : List Decorator :=
  c.decorators ++ c.methods.flatMap (·.allDecorators)

namespace SourceFile

def onControllers (f : SourceFile) : List Decorator := f.controllers.flatMap (·.allDecorators)

def misplaced (f : SourceFile) : List Decorator := f.strays.flatMap (·.decorators)

def decorators (f : SourceFile) : List Decorator := f.onControllers ++ f.misplaced

end SourceFile

/-- A decorator as a file of this path and module records it: name, arguments and place as written,
and its type arguments as some declaration of the file reads them. -/
def Syntax.Recorded (path module : String) (d : DecoratorSyntax) (d' : Decorator) : Prop :=
  ∃ x : Scope, x.path = path ∧ x.module = module ∧ decoratorOf x d = .ok d'

namespace Syntax

/-! ## Each decorator stands in one place -/

/-- Three parts of every element, taken together over a list. -/
theorem flatMap_perm_parts {α β : Type} {whole f g h : α → List β} (xs : List α)
    (hparts : ∀ x ∈ xs, (whole x).Perm (f x ++ g x ++ h x)) :
    (xs.flatMap whole).Perm (xs.flatMap f ++ xs.flatMap g ++ xs.flatMap h) := by
  have hfirst := (List.flatMap_append_perm xs f g).symm.append_right (xs.flatMap h)
  have hlast := List.flatMap_append_perm xs (fun x => f x ++ g x) h
  exact ((List.Perm.flatMap_left xs hparts).trans hlast.symm).trans hfirst

theorem ClassMemberSyntax.written_perm (m : ClassMemberSyntax) :
    m.written.Perm (m.operating ++ m.aside ++ m.unheard) := by
  have hsplit : (m.parameters.flatMap (·.decorators)).Perm
      ((m.parameters.filter m.hears).flatMap (·.decorators) ++ m.unheard) := by
    rw [unheard, ← List.flatMap_append]
    exact ((List.filter_append_perm m.hears m.parameters).flatMap_right _).symm
  cases hop : m.isOperation with
  | true =>
    simp only [written, operating, aside, hop, if_true, List.append_nil, List.append_assoc]
    exact hsplit.append_left _
  | false =>
    have hunheard : m.unheard = m.parameters.flatMap (·.decorators) := by
      simp [unheard, hears, hop]
    simp [written, operating, aside, hop, hunheard]

theorem ClassSyntax.written_perm (exported : List DecoratorSyntax) (c : ClassSyntax) :
    (c.written exported).Perm
      (c.operating exported ++ c.aside ++ c.overlooked exported) := by
  cases hc : c.isController exported with
  | true =>
    have hmembers := flatMap_perm_parts c.members fun m _ => m.written_perm
    simp only [written, operating, aside, overlooked, hc, if_true, List.append_assoc] at hmembers ⊢
    exact (hmembers.append_left _).append_left _
  | false =>
    simp only [isController, Bool.or_eq_false_iff, Bool.not_eq_false', List.isEmpty_iff] at hc
    obtain ⟨⟨rfl, hown⟩, hmembers⟩ := hc
    -- Without decorators of their own, the operations have only those on their parameters.
    have hmember : ∀ m ∈ c.members, m.written.Perm
        ([] ++ m.aside ++ m.parameters.flatMap (·.decorators)) := by
      intro m hm
      have hplain := List.any_eq_false.mp hmembers m hm
      cases hop : m.isOperation with
      | true =>
        have hnone : m.decorators = [] := by simpa [hop] using hplain
        simp [ClassMemberSyntax.written, ClassMemberSyntax.aside, hop, hnone]
      | false => simp [ClassMemberSyntax.written, ClassMemberSyntax.aside, hop]
    have hparts := flatMap_perm_parts c.members hmember
    rw [List.flatMap_eq_nil_iff.mpr fun _ _ => rfl] at hparts
    simpa [written, operating, aside, overlooked, isController, hown, hmembers] using hparts

theorem Statement.written_perm (s : Statement) :
    s.written.Perm (s.operating ++ s.aside ++ s.overlooked) := by
  cases s with
  | importing _ => exact .nil
  | other => exact .nil
  | declaration exported d _ =>
    cases d with
    | interface _ => exact .nil
    | typeAlias _ => exact .nil
    | enum _ => exact .nil
    | «class» c => exact c.written_perm exported

/-! ## Members -/

theorem isEmpty_eq_of_forall₂ {α β : Type} {R : α → β → Prop} {xs : List α} {ys : List β}
    (h : List.Forall₂ R xs ys) : ys.isEmpty = xs.isEmpty := by
  cases h <;> rfl

section

variable {path module : String} {x : Scope}

theorem decoratorsOf_recorded (hpath : x.path = path) (hmodule : x.module = module)
    (ds : List DecoratorSyntax) :
    Secures (decoratorsOf x ds) (List.Forall₂ (Recorded path module) ds) :=
  .mapM fun _ _ _ hd => ⟨x, hpath, hmodule, hd⟩

def ParameterSyntax.Kept (path module : String) (p : ParameterSyntax) :
    Option DecoratedParameter → Prop
  | none => p.pattern = receiver
  | some p' => p.pattern ≠ receiver ∧
      List.Forall₂ (Recorded path module) p.decorators p'.decorators

theorem parameterOf_kept (hpath : x.path = path) (hmodule : x.module = module)
    (p : ParameterSyntax) : Secures (parameterOf x p) (p.Kept path module) := by
  unfold parameterOf
  split
  · rename_i hreceiver
    exact .ok hreceiver
  · rename_i hpattern
    refine (decoratorsOf_recorded hpath hmodule p.decorators).bind fun ds hds => ?_
    exact .seq fun _ => .ok ⟨hpattern, hds⟩

theorem parametersOf_recorded (hpath : x.path = path) (hmodule : x.module = module)
    (ps : List ParameterSyntax) :
    Secures (parametersOf x ps) fun ps' => List.Forall₂ (Recorded path module)
      ((ps.filter (·.pattern ≠ receiver)).flatMap (·.decorators))
      (ps'.flatMap (·.decorators)) := by
  unfold parametersOf
  refine (Secures.mapM fun p _ => parameterOf_kept hpath hmodule p).bind fun kept hkept => .ok ?_
  induction hkept with
  | nil => exact .nil
  | @cons p p' ps kept hp _ ih =>
    cases p' with
    | none =>
      have hreceiver : p.pattern = receiver := hp
      simpa [hreceiver] using ih
    | some p' =>
      obtain ⟨hpattern, hdecorators⟩ := hp
      simpa [hpattern] using List.rel_append hdecorators ih

end

structure ClassMembers.Keeps (path module : String) (ms : List ClassMemberSyntax)
    (kept : ClassMembers) : Prop where
  operating : List.Forall₂ (Recorded path module) (ms.flatMap (·.operating))
    (kept.methods.flatMap (·.allDecorators))
  aside : List.Forall₂ (Recorded path module) (ms.flatMap (·.aside))
    (kept.strays.flatMap (·.decorators))
  plain : kept.methods.all (·.decorators.isEmpty) =
    !ms.any fun m => m.isOperation && !m.decorators.isEmpty

namespace ClassMembers

variable {path module : String} {x : Scope}

theorem Keeps.nil : Keeps path module [] .empty := ⟨.nil, .nil, rfl⟩

@[simp] theorem methods_append (a b : ClassMembers) :
    (a.append b).methods = a.methods ++ b.methods := rfl

@[simp] theorem strays_append (a b : ClassMembers) :
    (a.append b).strays = a.strays ++ b.strays := rfl

theorem Keeps.append {ms ns : List ClassMemberSyntax} {a b : ClassMembers}
    (ha : Keeps path module ms a) (hb : Keeps path module ns b) :
    Keeps path module (ms ++ ns) (a.append b) where
  operating := by simpa using List.rel_append ha.operating hb.operating
  aside := by simpa using List.rel_append ha.aside hb.aside
  plain := by
    simp only [methods_append, List.all_append, List.any_append, Bool.not_or, ha.plain, hb.plain]

theorem strays_stray (target : StrayTarget) (ds : List Decorator) :
    (stray target ds).strays.flatMap (·.decorators) = ds := by
  unfold stray
  split <;> simp_all [empty]

theorem methods_stray (target : StrayTarget) (ds : List Decorator) :
    (stray target ds).methods = [] := by
  unfold stray
  split <;> rfl

/-- A member that is no operation leaves its own decorators aside. -/
theorem Keeps.stray {m : ClassMemberSyntax} {target : StrayTarget} {ds : List Decorator}
    (hm : m.isOperation = false) (hds : List.Forall₂ (Recorded path module) m.decorators ds)
    (fields : List (Property TypeExpr)) :
    Keeps path module [m] { stray target ds with fields } where
  operating := by simp [ClassMemberSyntax.operating, hm, methods_stray]
  aside := by simpa [ClassMemberSyntax.aside, hm, strays_stray] using hds
  plain := by simp [methods_stray, hm]

theorem ofField_keeps (hpath : x.path = path) (hmodule : x.module = module) (f : FieldSyntax) :
    Secures (ofField x f) (Keeps path module [.field f]) := by
  unfold ofField
  refine (decoratorsOf_recorded hpath hmodule f.decorators).bind fun ds hds => ?_
  dsimp only
  split
  · exact .ok (.stray rfl hds _)
  · exact .seq fun _ => .ok (.stray rfl hds _)

theorem ofMethod_keeps (hpath : x.path = path) (hmodule : x.module = module) (m : MethodSyntax) :
    Secures (ofMethod x m) (Keeps path module [.method m]) := by
  unfold ofMethod
  refine (decoratorsOf_recorded hpath hmodule m.decorators).bind fun ds hds => ?_
  by_cases hconstructor : m.key.text = "constructor"
  · have hm : (ClassMemberSyntax.method m).isOperation = false := by
      simp [ClassMemberSyntax.isOperation, hconstructor]
    rw [if_pos hconstructor]
    exact .seq fun fields => .ok (.stray hm hds fields)
  · rw [if_neg hconstructor]
    cases hhidden : m.isHidden with
    | true =>
      have hm : (ClassMemberSyntax.method m).isOperation = false := by
        simp [ClassMemberSyntax.isOperation, hhidden]
      exact .ok (.stray hm hds _)
    | false =>
      have hm : (ClassMemberSyntax.method m).isOperation = true := by
        simp [ClassMemberSyntax.isOperation, hconstructor, hhidden]
      refine (parametersOf_recorded hpath hmodule m.parameters).bind fun ps hps => ?_
      refine .seq fun _ => .ok ?_
      refine ⟨?_, ?_, ?_⟩
      · simpa [ClassMemberSyntax.operating_method hm, DecoratedMethod.allDecorators]
          using List.rel_append hds hps
      · simp [ClassMemberSyntax.aside, hm, empty]
      · simp [hm, isEmpty_eq_of_forall₂ hds]

theorem ofMember_keeps (hpath : x.path = path) (hmodule : x.module = module)
    (m : ClassMemberSyntax) : Secures (ofMember x m) (Keeps path module [m]) := by
  cases m with
  | field f => exact ofField_keeps hpath hmodule f
  | method m => exact ofMethod_keeps hpath hmodule m
  | signature ps => exact .ok ⟨.nil, .nil, rfl⟩

theorem ofMembers_keeps (hpath : x.path = path) (hmodule : x.module = module)
    (ms : List ClassMemberSyntax) : Secures (ofMembers x ms) (Keeps path module ms) := by
  induction ms with
  | nil => exact .ok .nil
  | cons m ms ih =>
    refine (ofMember_keeps hpath hmodule m).bind fun first hfirst => ?_
    exact ih.bind fun rest hrest => .ok (hfirst.append hrest)

end ClassMembers

end Syntax

/-! ## Statements -/

namespace SourceFile

structure Progress.Keeps (path module : String) (done : List Statement) (s : Progress) : Prop where
  operating : List.Forall₂ (Recorded path module) (done.flatMap (·.operating)) s.file.onControllers
  aside : List.Forall₂ (Recorded path module) (done.flatMap (·.aside)) s.file.misplaced
  path : s.file.path = path
  module : s.file.module = module

variable {path module : String} {done : List Statement} {s : Progress}

/-- A statement without decorators of its own changes neither controllers nor strays. -/
theorem Progress.Keeps.pass {s' : Progress} {statement : Statement}
    (h : s.Keeps path module done) (hpath : s'.file.path = s.file.path)
    (hmodule : s'.file.module = s.file.module)
    (hcontrollers : s'.file.controllers = s.file.controllers)
    (hstrays : s'.file.strays = s.file.strays) (hoperating : statement.operating = [])
    (haside : statement.aside = []) : s'.Keeps path module (done ++ [statement]) where
  path := hpath.trans h.path
  module := hmodule.trans h.module
  operating := by simpa [hoperating, onControllers, hcontrollers] using h.operating
  aside := by simpa [haside, misplaced, hstrays] using h.aside

theorem addClass_keeps (h : s.Keeps path module done) {exported : List DecoratorSyntax}
    {before : List Decorator} (hbefore : List.Forall₂ (Recorded path module) exported before)
    (c : ClassSyntax) (comment : Option String) :
    Secures (addClass s before c comment)
      (Progress.Keeps path module (done ++ [.declaration exported (.class c) comment])) := by
  unfold addClass
  refine (decoratorsOf_recorded (x := s.scope c.name []) h.path h.module c.decorators).bind
    fun own hown => .seq fun params => ?_
  refine (ClassMembers.ofMembers_keeps (x := s.scope c.name (paramNames c.params)) h.path h.module
    c.members).bind fun members hmembers => ?_
  have hdecorators : List.Forall₂ (Recorded path module) (exported ++ c.decorators)
      (before ++ own) := List.rel_append hbefore hown
  have hdata : ((before ++ own).isEmpty && members.methods.all (·.decorators.isEmpty)) =
      !c.isController exported := by
    rw [hmembers.plain, isEmpty_eq_of_forall₂ hdecorators]
    cases exported <;> simp [ClassSyntax.isController]
  -- What is aside is kept of data as well.
  have haside := List.rel_append h.aside hmembers.aside
  dsimp only
  rw [hdata]
  cases hc : c.isController exported with
  | true =>
    refine .ok ⟨?_, ?_, h.path, h.module⟩
    · have hoperating := List.rel_append h.operating
        (List.rel_append hdecorators hmembers.operating)
      simpa [onControllers, ClassSyntax.operating, hc, DecoratedClass.allDecorators]
        using hoperating
    · simpa [misplaced, ClassSyntax.aside] using haside
  | false =>
    refine .seq fun bases => .ok ⟨?_, ?_, h.path, h.module⟩
    · simpa [onControllers, ClassSyntax.operating, hc, Progress.addDeclaration] using h.operating
    · simpa [misplaced, ClassSyntax.aside, Progress.addDeclaration] using haside

theorem addStatement_keeps (h : s.Keeps path module done) (statement : Statement) :
    Secures (addStatement s statement) (Progress.Keeps path module (done ++ [statement])) := by
  cases statement with
  | other => exact .ok (h.pass rfl rfl rfl rfl rfl rfl)
  | importing i => exact .ok (h.pass rfl rfl rfl rfl rfl rfl)
  | declaration exported d comment =>
    refine (decoratorsOf_recorded (x := s.scope s.last []) h.path h.module exported).bind
      fun before hbefore => ?_
    cases d with
    | interface i => exact .seq fun _ => .ok (h.pass rfl rfl rfl rfl rfl rfl)
    | typeAlias a => exact .seq fun _ => .ok (h.pass rfl rfl rfl rfl rfl rfl)
    | enum e => exact .seq fun _ => .ok (h.pass rfl rfl rfl rfl rfl rfl)
    | «class» c => exact addClass_keeps h hbefore c comment

theorem ofStatements_keeps (path module : String) (ss : List Statement) :
    Secures (ofStatements path module ss) fun f =>
      List.Forall₂ (Recorded path module) (ss.flatMap (·.operating)) f.onControllers ∧
        List.Forall₂ (Recorded path module) (ss.flatMap (·.aside)) f.misplaced := by
  unfold ofStatements
  have hloop : Secures (ss.foldlM addStatement ⟨.empty path module, ""⟩)
      (Progress.Keeps path module ss) :=
    Secures.foldlM (P := Progress.Keeps path module) ⟨.nil, .nil, rfl, rfl⟩
      fun done s statement h => addStatement_keeps h statement
  exact hloop.bind fun s h => .ok ⟨h.operating, h.aside⟩

end SourceFile

/-! ## Graphs -/

namespace Annotation

def IsName (n : String) : Prop := ∃ a : Annotation, a.name = n

def kinds : List Annotation :=
  Verb.all.map (verb · "") ++ [route "", path none, query none, header none, body, bodyProp none,
    request, inject, security [], noSecurity, response .default none none, successResponse 0 none,
    tags [], operationId "", hidden, deprecated]

theorem isName_iff {n : String} : IsName n ↔ n ∈ kinds.map name := by
  constructor
  · rintro ⟨a, rfl⟩
    cases a with
    | verb v => cases v <;> simp [kinds, Verb.all, name]
    | _ => simp [kinds, name]
  · intro h
    obtain ⟨a, -, ha⟩ := List.mem_map.mp h
    exact ⟨a, ha⟩

instance (n : String) : Decidable (IsName n) := decidable_of_iff _ isName_iff.symm

end Annotation

def Decorator.Known (ds : List Decorator) : Prop := ∀ d ∈ ds, Annotation.IsName d.name

namespace Decorator

theorem verb_name {name : String} {verb : Verb} (h : Verb.ofName? name = some verb) :
    verb.name = name := by
  simpa using List.find?_some h

theorem meaning_name (ns : Names) (d : Decorator) :
    Secures (d.meaning ns) fun a => a.name = d.name := by
  have hbare : ∀ a : Annotation, a.name = d.name →
      Secures (d.bare a) fun a => a.name = d.name := fun a ha => .seq fun _ => .ok ha
  unfold meaning
  cases hverb : Verb.ofName? d.name with
  | some verb => exact .seq fun _ => .ok (verb_name hverb)
  | none =>
    dsimp only
    split
    case h_13 hname =>
      unfold response
      exact .seq fun _ => .seq fun _ => .seq fun _ => .ok hname.symm
    case h_14 hname =>
      unfold successResponse
      refine .seq fun _ => .seq fun status => ?_
      cases status with
      | code n => exact .seq fun _ => .ok hname.symm
      | default => exact .error
    case h_16 hname =>
      unfold operationId
      refine .seq fun id => ?_
      cases id with
      | none => exact .error
      | some id => exact .ok hname.symm
    case h_17 => exact .error
    all_goals
      rename_i hname
      first
        | exact hbare _ hname.symm
        | exact .seq fun _ => .ok hname.symm

end Decorator

theorem annotationUses_known (ns : Names) (ds : List Decorator) :
    Secures (annotationUses ns ds) fun _ => Decorator.Known ds :=
  .mapM_all fun d _ => (d.meaning_name ns).bind fun a ha => .ok ⟨a, ha⟩

theorem StrayDecorators.reject_empty (ns : Names) (s : StrayDecorators) :
    Secures (s.reject ns) fun _ => s.decorators = [] := by
  unfold reject annotationUses
  refine (Secures.mapM (R := fun _ _ => True) fun d _ _ _ => trivial).bind fun uses huses => ?_
  cases uses with
  | nil => exact .ok (List.forall₂_nil_right_iff.mp huses)
  | cons first uses => exact .error

theorem DecoratedParameter.parameter_known (ns : Names) (documentation : Documentation)
    (p : DecoratedParameter) :
    Secures (p.parameter ns documentation) fun _ => Decorator.Known p.decorators :=
  (annotationUses_known ns p.decorators).bind fun _ huses => .ok huses

theorem DecoratedMethod.method_known (ns : Names) (m : DecoratedMethod) :
    Secures (m.method ns) fun _ => Decorator.Known m.allDecorators := by
  refine (annotationUses_known ns m.decorators).bind fun _ hown => ?_
  refine (Secures.mapM_all fun p _ => p.parameter_known ns _).bind fun _ hparameters => .ok ?_
  exact List.forall_mem_append.mpr ⟨hown, List.forall_mem_flatMap.mpr hparameters⟩

theorem DecoratedClass.controller_known (ns : Names) (module : String) (c : DecoratedClass) :
    Secures (c.controller ns module) fun _ => Decorator.Known c.allDecorators := by
  refine (annotationUses_known ns c.decorators).bind fun _ hown => ?_
  refine (Secures.mapM_all fun m _ => m.method_known ns).bind fun _ hmethods => .ok ?_
  exact List.forall_mem_append.mpr ⟨hown, List.forall_mem_flatMap.mpr hmethods⟩

namespace Graph

structure Admits (f : SourceFile) : Prop where
  known : Decorator.Known f.onControllers
  noStray : f.misplaced = []

theorem addFile_admits (modules : List String) (g : Graph) (f : SourceFile) :
    Secures (addFile modules g f) fun _ => Admits f := by
  unfold addFile
  refine (Secures.forM fun s _ => s.reject_empty (f.names modules)).bind fun _ hstrays => ?_
  refine .seq fun g => fun g' hg' => ⟨?_, List.flatMap_eq_nil_iff.mpr hstrays⟩
  refine Secures.foldlM (P := fun done _ => Decorator.Known (done.flatMap (·.allDecorators)))
    nofun (fun done g c hdone => ?_) g' hg'
  refine (c.controller_known (f.names modules) f.module).bind fun k hc => .ok ?_
  rw [List.flatMap_append, List.flatMap_singleton]
  exact List.forall_mem_append.mpr ⟨hdone, hc⟩

theorem ofFiles_admits (files : List SourceFile) :
    Secures (ofFiles files) fun _ => ∀ f ∈ files, Admits f := by
  refine Secures.foldlM (P := fun done _ => ∀ f ∈ done, Admits f) nofun
    fun done g f hdone g' hg' => ?_
  have hf : Admits f := addFile_admits _ g f g' hg'
  exact List.forall_mem_append.mpr ⟨hdone, List.forall_mem_singleton.mpr hf⟩

end Graph

/-! ## Texts -/

namespace Syntax

theorem Recorded.name {path module : String} {d : DecoratorSyntax} {d' : Decorator}
    (h : Recorded path module d d') : d'.name = d.name := by
  obtain ⟨x, -, -, hd⟩ := h
  have hname : Secures (decoratorOf x d) fun d' => d'.name = d.name := by
    unfold decoratorOf
    exact .seq fun _ => .ok rfl
  exact hname d' hd

end Syntax

namespace SourceFile

structure Accounts (path module : String) (ss : List Statement) (f : SourceFile) : Prop where
  operating : List.Forall₂ (Recorded path module) (ss.flatMap (·.operating)) f.onControllers
  aside : List.Forall₂ (Recorded path module) (ss.flatMap (·.aside)) f.misplaced
  parts : (ss.flatMap (·.written)).Perm
    (ss.flatMap (·.operating) ++ ss.flatMap (·.aside) ++ ss.flatMap (·.overlooked))
  complete : f.decorators.length = (ss.flatMap (·.written)).length ↔
    ss.flatMap (·.overlooked) = []
  noStray : ∀ files g, f ∈ files → Graph.ofFiles files = .ok g → ss.flatMap (·.aside) = []
  known : ∀ files g, f ∈ files → Graph.ofFiles files = .ok g →
    ∀ d ∈ ss.flatMap (·.operating), Annotation.IsName d.name

/-- Every decorator of a class stands on an operation of a controller, or aside, or is overlooked. A
file that is read records the former two, in order, each as written. So it drops none exactly when
none is overlooked. A graph is only built when there are no decorators aside and those on operations
are known. -/
theorem ofText_decorators {path module text : String} {f : SourceFile}
    (h : ofText path module text = .ok f) :
    ∃ ss, statements text = .ok ss ∧ f.Accounts path module ss := by
  unfold ofText at h
  split at h
  case h_2 => cases h
  case h_1 ss hss =>
    obtain ⟨hoperating, haside⟩ := ofStatements_keeps path module ss f h
    have hparts : (ss.flatMap (·.written)).Perm
        (ss.flatMap (·.operating) ++ ss.flatMap (·.aside) ++ ss.flatMap (·.overlooked)) :=
      flatMap_perm_parts ss fun s _ => s.written_perm
    refine ⟨ss, hss, hoperating, haside, hparts, ?_, ?_, ?_⟩
    · have hcount := hparts.length_eq
      simp only [List.length_append] at hcount
      rw [decorators, List.length_append, ← hoperating.length_eq, ← haside.length_eq, hcount,
        ← List.length_eq_zero_iff]
      omega
    · intro files g hf hg
      have hnone := (Graph.ofFiles_admits files g hg f hf).noStray
      rw [hnone] at haside
      exact List.forall₂_nil_right_iff.mp haside
    · intro files g hf hg d hd
      obtain ⟨d', hd', hrecorded⟩ := mem_of_forall₂_left hoperating hd
      have hknown := (Graph.ofFiles_admits files g hg f hf).known d' hd'
      rwa [hrecorded.name] at hknown

end SourceFile

/-- A check of what an evaluation gives. -/
theorem exists_ok_of_any {ε α : Type} {x : Except ε α} {p : α → Bool} (h : x.toOption.any p) :
    ∃ a, x = .ok a ∧ p a := by
  cases x with
  | error e => cases h
  | ok a => exact ⟨a, rfl, h⟩

namespace Sample

def decoratorNames (ds : List Decorator) : List String := ds.map (·.name)

def listing : String :=
  "@Route() class C \x7b @Get() f(@Query() q) \x7b\x7d @Inject() s; " ++
    "constructor(@Lost() x) \x7b\x7d \x7d"

theorem listing_accounted : ∃ f ss, SourceFile.ofText "m.ts" "m" listing = .ok f ∧
    statements listing = .ok ss ∧ f.Accounts "m.ts" "m" ss ∧
    decoratorNames f.onControllers = ["Route", "Get", "Query"] ∧
    decoratorNames f.misplaced = ["Inject"] ∧
    (ss.flatMap (·.overlooked)).map (·.name) = ["Lost"] := by
  have hread : (SourceFile.ofText "m.ts" "m" listing).toOption.any fun f =>
      decoratorNames f.onControllers = ["Route", "Get", "Query"] &&
        decoratorNames f.misplaced = ["Inject"] := by decide +kernel
  have hlost : (statements listing).toOption.any fun ss =>
      (ss.flatMap (·.overlooked)).map (·.name) = ["Lost"] := by decide +kernel
  obtain ⟨f, hf, hkept⟩ := exists_ok_of_any hread
  obtain ⟨ss, hss, haccounts⟩ := SourceFile.ofText_decorators hf
  obtain ⟨ss', hss', hoverlooked⟩ := exists_ok_of_any hlost
  obtain rfl : ss = ss' := Except.ok.inj (hss.symm.trans hss')
  simp only [Bool.and_eq_true, decide_eq_true_eq] at hkept hoverlooked
  exact ⟨f, ss, hf, hss, haccounts, hkept.1, hkept.2, hoverlooked⟩

def lost : String := "class C \x7b constructor(@Lost() x) \x7b\x7d \x7d"

/-- The file has no decorator, and a graph is built from it. -/
theorem lost_overlooked : ¬ Annotation.IsName "Lost" ∧
    ∃ ss f g, statements lost = .ok ss ∧ (ss.flatMap (·.written)).map (·.name) = ["Lost"] ∧
      SourceFile.ofText "m.ts" "m" lost = .ok f ∧ f.decorators = [] ∧
      Program.load [("m", lost)] = .ok g := by
  have hunknown : ¬ Annotation.IsName "Lost" := by decide
  have hwritten : (statements lost).toOption.any fun ss =>
      (ss.flatMap (·.written)).map (·.name) = ["Lost"] := by decide +kernel
  have hread : (SourceFile.ofText "m.ts" "m" lost).toOption.any (·.decorators.isEmpty) := by
    decide +kernel
  have hload : (Program.load [("m", lost)]).toOption.any fun _ => true := by decide +kernel
  obtain ⟨ss, hss, hnames⟩ := exists_ok_of_any hwritten
  obtain ⟨f, hf, hnone⟩ := exists_ok_of_any hread
  obtain ⟨g, hg, -⟩ := exists_ok_of_any hload
  exact ⟨hunknown, ss, f, g, hss, of_decide_eq_true hnames, hf, List.isEmpty_iff.mp hnone, hg⟩

end Sample

end RouteContract

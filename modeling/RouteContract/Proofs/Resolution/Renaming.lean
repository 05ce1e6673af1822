import Mathlib.Data.List.Nodup
import RouteContract.Proofs.Lists
import RouteContract.Proofs.Resolution.Normalization
import RouteContract.Proofs.Resolution.Runs
import RouteContract.Proofs.TypeExpr

/-!
# Type parameters under other names

The members of a declaration at given arguments are those of the declaration with
the arguments in the place of its parameters. So declarations may be replaced by
others that agree with them at all arguments. Names of parameters are such a
matter: a declaration agrees with the same one under other names, as all its
parameters are replaced at once and no name is left that another declaration
could bind.
-/

set_option autoImplicit false

namespace RouteContract

def TypeExpr.rename (ρ : String → String) (t : TypeExpr) : TypeExpr :=
  t.substitute fun name => some (.param (ρ name))

namespace DeclKind

def substitute (f : String → Option TypeExpr) : DeclKind → DeclKind
  | object bases shape isClass => object
      (bases.map fun base => { base with args := TypeExpr.substituteAll f base.args })
      ⟨TypeExpr.substituteProperties f shape.properties, TypeExpr.substituteIndex f shape.index⟩
      isClass
  | typeAlias target => typeAlias target
  | enum members => enum members

inductive Mentions (name : String) : DeclKind → Prop
  | base {bases : List (TypeRef TypeExpr)} {shape : Shape TypeExpr} {isClass : Bool}
      {base : TypeRef TypeExpr} (hb : base ∈ bases) (h : (TypeExpr.ref base).Mentions name) :
      Mentions name (.object bases shape isClass)
  | member {bases : List (TypeRef TypeExpr)} {shape : Shape TypeExpr} {isClass : Bool}
      (h : (TypeExpr.object shape).Mentions name) : Mentions name (.object bases shape isClass)

theorem mentions_object {name : String} {bases : List (TypeRef TypeExpr)} {shape : Shape TypeExpr}
    {isClass : Bool} : (object bases shape isClass).Mentions name ↔
      (∃ base ∈ bases, (TypeExpr.ref base).Mentions name) ∨
        (TypeExpr.object shape).Mentions name where
  mp
    | .base hb h => .inl ⟨_, hb, h⟩
    | .member h => .inr h
  mpr
    | .inl ⟨_, hb, h⟩ => .base hb h
    | .inr h => .member h

/-- Two substitutions are one that does the same to every parameter of the object. -/
theorem substitute_substitute {f f' f'' : String → Option TypeExpr} (k : DeclKind)
    (h : ∀ name, k.Mentions name →
      ((f name).getD (.param name)).substitute f' = (f'' name).getD (.param name)) :
    (k.substitute f).substitute f' = k.substitute f'' := by
  cases k with
  | object bases shape isClass =>
    have hshape := TypeExpr.substitute_substitute (.object shape) fun name hname =>
      h name (.member hname)
    simp only [TypeExpr.substitute, TypeExpr.object.injEq, Shape.mk.injEq] at hshape
    have hbases : ∀ base ∈ bases, TypeExpr.substituteAll f' (TypeExpr.substituteAll f base.args) =
        TypeExpr.substituteAll f'' base.args := by
      intro base hb
      have hbase := TypeExpr.substitute_substitute (.ref base) fun name hname =>
        h name (.base hb hname)
      simpa only [TypeExpr.substitute, TypeExpr.ref.injEq, TypeRef.mk.injEq, true_and] using hbase
    simp only [substitute, List.map_map, hshape]
    congr 1
    refine List.map_congr_left fun base hb => ?_
    simp only [Function.comp_apply, hbases base hb]
  | typeAlias target => rfl
  | enum members => rfl

end DeclKind

namespace Declaration

def «at» (d : Declaration) (args : List TypeExpr) : Declaration :=
  { d with kind := d.kind.substitute (bindingOf d.params args), params := [] }

def rename (ρ : String → String) (d : Declaration) : Declaration :=
  { d with
    kind := d.kind.substitute fun name => some (.param (ρ name))
    params := d.params.map fun p => ⟨ρ p.name, p.default.map (·.rename ρ)⟩ }

/-- The bases and the members of a declaration mention its own parameters only, and a default
mentions only parameters before its own. -/
structure Scoped (d : Declaration) : Prop where
  kind : ∀ name, d.kind.Mentions name → name ∈ d.params.map (·.name)
  default : ∀ {before : List TypeParam} {p : TypeParam} {after : List TypeParam} {t : TypeExpr},
    d.params = before ++ p :: after → p.default = some t →
      ∀ name, t.Mentions name → name ∈ before.map (·.name)

structure Agree (d d' : Declaration) : Prop where
  length : d'.params.length = d.params.length
  «at» : ∀ args, args.length = d.params.length → d'.at args = d.at args
  default : ∀ {before before' : List TypeParam} {p p' : TypeParam} {after after' : List TypeParam}
    (concrete : List TypeExpr), d.params = before ++ p :: after →
    d'.params = before' ++ p' :: after' → before.length = concrete.length →
    before'.length = concrete.length →
      p'.default.map (·.substitute (bindingOf before' concrete)) =
        p.default.map (·.substitute (bindingOf before concrete))

theorem Agree.refl (d : Declaration) : Agree d d where
  length := rfl
  «at» _ _ := rfl
  default := by
    intro before before' p p' after after' concrete hd hd' hl hl'
    obtain ⟨rfl, h⟩ := List.append_inj (hd.symm.trans hd') (hl.trans hl'.symm)
    cases h
    rfl

theorem Agree.isObject {d d' : Declaration} (h : d.Agree d') : d'.isObject = d.isObject := by
  have hat : ∀ (d : Declaration) args, (d.at args).isObject = d.isObject := by
    intro d args
    rcases d with ⟨id, _ | _ | _, params, description, location⟩
    · rfl
    · rfl
    · rfl
  have hsame := h.at (List.replicate d.params.length (.keyword .any)) List.length_replicate
  rw [← hat d', hsame, hat d]

section

variable {ρ : String → String} {params : List TypeParam} {args : List TypeExpr}

/-- Every parameter is bound where there are as many arguments. -/
theorem bindingOf_mem (hl : args.length = params.length) {name : String}
    (h : name ∈ params.map (·.name)) : ∃ t, bindingOf params args name = some t := by
  obtain ⟨p, hp, rfl⟩ := List.mem_map.mp h
  have hsome : (params.findIdx? (·.name = p.name)).isSome := by
    rw [List.findIdx?_isSome]
    exact List.any_eq_true.mpr ⟨p, hp, by simp⟩
  obtain ⟨k, hk⟩ := Option.isSome_iff_exists.mp hsome
  have hlt : k < args.length := by
    rw [hl]
    exact (List.findIdx?_eq_some_iff_getElem.mp hk).1
  exact ⟨args[k], by simp [bindingOf, hk, hlt]⟩

/-- A parameter is bound under its new name as it was under the old one, as no other parameter has
the new name. -/
theorem bindingOf_rename {f : TypeParam → TypeParam} (hf : ∀ p, (f p).name = ρ p.name)
    (hnodup : (params.map (ρ ·.name)).Nodup) {name : String} (h : name ∈ params.map (·.name)) :
    bindingOf (params.map f) args (ρ name) = bindingOf params args name := by
  obtain ⟨q, hq, rfl⟩ := List.mem_map.mp h
  have hplace : params.findIdx? (fun p => ρ p.name = ρ q.name) =
      params.findIdx? (·.name = q.name) := by
    refine findIdx?_congr fun p hp => ?_
    simp only [decide_eq_decide]
    constructor
    · intro hname
      rw [List.inj_on_of_nodup_map hnodup hp hq hname]
    · exact congrArg ρ
  unfold bindingOf
  rw [List.findIdx?_map]
  simp only [Function.comp_def, hf, hplace]

/-- New names that are replaced are no more to be seen. -/
theorem rename_bound {f : TypeParam → TypeParam} (hf : ∀ p, (f p).name = ρ p.name)
    (hnodup : (params.map (ρ ·.name)).Nodup) (hl : args.length = params.length) {name : String}
    (h : name ∈ params.map (·.name)) :
    ((some (TypeExpr.param (ρ name))).getD (.param name)).substitute
        (bindingOf (params.map f) args) =
      (bindingOf params args name).getD (.param name) := by
  obtain ⟨t, ht⟩ := bindingOf_mem hl h
  rw [Option.getD_some, TypeExpr.substitute, bindingOf_rename hf hnodup h, ht]
  rfl

end

/-- A declaration agrees with the same one under other names that tell its parameters apart. -/
theorem Scoped.agree {d : Declaration} (h : d.Scoped) {ρ : String → String}
    (hnodup : (d.params.map (ρ ·.name)).Nodup) : d.Agree (d.rename ρ) where
  length := List.length_map _
  «at» args hl := by
    have hkind := DeclKind.substitute_substitute d.kind fun name hname =>
      rename_bound (f := fun p => ⟨ρ p.name, p.default.map (·.rename ρ)⟩) (fun _ => rfl) hnodup hl
        (h.kind name hname)
    simp only [Declaration.at, rename, hkind]
  default := by
    intro before before' p p' after after' concrete hd hd' hl hl'
    have hmap : d.params.map (fun p => (⟨ρ p.name, p.default.map (·.rename ρ)⟩ : TypeParam)) =
      before' ++ p' :: after' := hd'
    rw [hd, List.map_append, List.map_cons] at hmap
    obtain ⟨rfl, hp⟩ := List.append_inj hmap (by simp [hl, hl'])
    obtain ⟨rfl, -⟩ := List.cons.inj hp
    cases hdefault : p.default with
    | none => rfl
    | some t =>
      rw [hd, List.map_append] at hnodup
      have hbefore := (List.nodup_append.mp hnodup).1
      simp only [Option.map_some, Option.some.injEq]
      exact TypeExpr.substitute_substitute t fun name hname =>
        rename_bound (fun _ => rfl) hbefore hl.symm (h.default hd hdefault name hname)

end Declaration

namespace Graph

def replace (g : Graph) (F : Declaration → Declaration) : Graph :=
  { g with declarations := g.declarations.map F }

structure Replaces (g : Graph) (F : Declaration → Declaration) : Prop where
  id : ∀ d, (F d).id = d.id
  agree : ∀ d ∈ g.declarations, d.Agree (F d)

variable {g : Graph} {F : Declaration → Declaration}

namespace Replaces

variable (hF : g.Replaces F)

include hF

theorem declaration? (id : DeclId) :
    (g.replace F).declaration? id = (g.declaration? id).map F := by
  simp only [Graph.declaration?, replace, List.find?_map, Function.comp_def, hF.id]

theorem named (name : String) : (g.replace F).named name = (g.named name).map F := by
  simp only [Graph.named, replace, List.filter_map, Function.comp_def, hF.id]

theorem lookup (r : TypeRef TypeExpr) (o : Origin) :
    (g.replace F).lookup r o = (g.lookup r o).map F := by
  unfold Graph.lookup
  cases r.module with
  | some module =>
    simp only [hF.declaration?]
    cases g.declaration? ⟨module, r.name⟩ with
    | none => rfl
    | some d => rfl
  | none =>
    simp only [hF.named]
    rcases g.named r.name with _ | ⟨d, _ | ⟨e, ds⟩⟩
    · rfl
    · rfl
    · simp [hF.id, Except.map, Function.comp_def]

theorem findsAlike : g.FindsAlike (g.replace F) := by
  intro r o
  rw [hF.lookup]
  cases g.lookup r o with
  | error f => rfl
  | ok d => simp only [Except.map, hF.id]

end Replaces

end Graph

namespace Declaration

variable {g : Graph} {F : Declaration → Declaration} {d : Declaration}

/-- Arguments are completed to one for each parameter. -/
theorem instantiate_length {written : List TypeExpr} {o : Origin} {i : Instance}
    (h : d.instantiate g written o = .ok i) : i.args.length = d.params.length := by
  have hall : ∀ (rest earlier : List TypeParam) (concrete cs : List TypeExpr),
      d.completeArgs g written o earlier concrete rest = .ok cs →
        cs.length = concrete.length + rest.length := by
    intro rest
    induction rest with
    | nil =>
      intro earlier concrete cs h
      cases h
      rfl
    | cons p rest ih =>
      intro earlier concrete cs h
      obtain ⟨t, c, -, -, hrest⟩ := completeArgs_cons.mp h
      have hlength := ih _ _ _ hrest
      simp only [List.length_append, List.length_cons, List.length_nil] at hlength ⊢
      omega
  obtain ⟨-, -, hargs⟩ := instantiate_iff.mp h
  simpa using hall _ _ _ _ hargs

theorem completeArgs_replaced (hF : g.Replaces F) (hd : d.Agree (F d)) (written : List TypeExpr)
    (o : Origin) (concrete : List TypeExpr) {before before' rest rest' : List TypeParam}
    (hparams : d.params = before ++ rest) (hparams' : (F d).params = before' ++ rest')
    (hl : before.length = concrete.length) (hl' : before'.length = concrete.length) :
    (F d).completeArgs (g.replace F) written o before' concrete rest' =
      d.completeArgs g written o before concrete rest := by
  have hrest : rest'.length = rest.length := by
    have hlength := hd.length
    rw [hparams, hparams', List.length_append, List.length_append] at hlength
    omega
  induction rest generalizing before before' rest' concrete with
  | nil =>
    cases rest' with
    | nil => rfl
    | cons p' rest' => cases hrest
  | cons p rest ih =>
    cases rest' with
    | nil => cases hrest
    | cons p' rest' =>
      have hdefault := hd.default concrete hparams hparams' hl hl'
      have hnext : ∀ c, (F d).completeArgs (g.replace F) written o (before' ++ [p'])
          (concrete ++ [c]) rest' =
            d.completeArgs g written o (before ++ [p]) (concrete ++ [c]) rest := by
        intro c
        refine ih (concrete ++ [c]) ?_ ?_ ?_ ?_ (Nat.succ.inj hrest)
        · rw [hparams, List.append_assoc, List.singleton_append]
        · rw [hparams', List.append_assoc, List.singleton_append]
        · simp [hl]
        · simp [hl']
      unfold completeArgs
      simp only [hF.findsAlike.normalize, hnext, hF.id, hd.length, hl, hl']
      cases written[concrete.length]? with
      | some arg => rfl
      | none =>
        rcases hp : p.default with _ | t <;> rcases hp' : p'.default with _ | t' <;>
          simp only [hp, hp', Option.map_none, Option.map_some, reduceCtorEq,
            Option.some.injEq] at hdefault ⊢
        rw [hdefault]

theorem instantiate_replaced (hF : g.Replaces F) (hd : d.Agree (F d)) (written : List TypeExpr)
    (o : Origin) : (F d).instantiate (g.replace F) written o = d.instantiate g written o := by
  have hargs := completeArgs_replaced hF hd written o [] (List.nil_append _).symm
    (List.nil_append _).symm rfl rfl
  unfold instantiate
  rw [hd.length, hF.id, hargs]

end Declaration

namespace TypeExpr

theorem substituteAll_unbound (ts : List TypeExpr) :
    substituteAll (Declaration.bindingOf [] []) ts = ts := by
  rw [substituteAll_eq]
  exact List.map_id'' substitute_none ts

theorem substituteProperties_unbound (ps : List (Property TypeExpr)) :
    substituteProperties (Declaration.bindingOf [] []) ps = ps := by
  have h := substitute_none (.object ⟨ps, []⟩)
  simp only [substitute, object.injEq, Shape.mk.injEq] at h
  exact h.1

theorem substituteIndex_unbound (is : List (IndexSignature TypeExpr)) :
    substituteIndex (Declaration.bindingOf [] []) is = is := by
  have h := substitute_none (.object ⟨[], is⟩)
  simp only [substitute, object.injEq, Shape.mk.injEq] at h
  exact h.2

theorem substituteIndex_isEmpty (f : String → Option TypeExpr)
    (is : List (IndexSignature TypeExpr)) : (substituteIndex f is).isEmpty = is.isEmpty := by
  rw [substituteIndex_eq]
  exact List.isEmpty_map

end TypeExpr

namespace Resolve

section

variable {type : TypeExpr → Origin → Resolve Schema}
  {members : Declaration → List TypeExpr → ObjectSchema Schema → Resolve (ObjectSchema Schema)}

theorem baseMembers_at (g : Graph) (d : Declaration) (args : List TypeExpr)
    (object : ObjectSchema Schema) (base : TypeRef TypeExpr) :
    baseMembers members g (d.at args) [] object { base with
        args := TypeExpr.substituteAll (Declaration.bindingOf d.params args) base.args } =
      baseMembers members g d args object base := by
  rw [baseMembers_eq, baseMembers_eq]
  simp only [Declaration.at, TypeExpr.substituteAll_unbound]
  rfl

theorem ownMembers_at (g : Graph) (d : Declaration) (bases : List (TypeRef TypeExpr))
    (shape : Shape TypeExpr) (args : List TypeExpr) (object : ObjectSchema Schema) :
    ownMembers type members g (d.at args)
        (bases.map fun base => { base with
          args := TypeExpr.substituteAll (Declaration.bindingOf d.params args) base.args })
        ⟨TypeExpr.substituteProperties (Declaration.bindingOf d.params args) shape.properties,
          TypeExpr.substituteIndex (Declaration.bindingOf d.params args) shape.index⟩ [] object =
      ownMembers type members g d bases shape args object := by
  simp only [ownMembers_eq, collect, ownAdditional, List.foldlM_map, baseMembers_at]
  simp only [Declaration.at, TypeExpr.substituteProperties_unbound,
    TypeExpr.substituteIndex_unbound, TypeExpr.substituteIndex_isEmpty]
  rfl

theorem body_at (d : Declaration) (args : List TypeExpr) :
    body (fun _ _ => members d args) (d.at args) [] = body members d args := by
  have hkind : (d.at args).kind = d.kind.substitute (Declaration.bindingOf d.params args) := rfl
  unfold body
  rw [hkind]
  cases d.kind with
  | object bases shape isClass => rfl
  | typeAlias target => rfl
  | enum values => rfl

/-- The members of a declaration at given arguments are those of the declaration with the arguments
in the place of its parameters. -/
theorem membersWithin_at (g : Graph) (n : Nat) (d : Declaration) (args : List TypeExpr) :
    membersWithin g n (d.at args) [] = membersWithin g n d args := by
  cases n with
  | zero => rfl
  | succ n =>
    funext object
    have hkind : (d.at args).kind = d.kind.substitute (Declaration.bindingOf d.params args) := rfl
    rw [membersWithin, membersWithin, hkind]
    cases d.kind with
    | object bases shape isClass => exact ownMembers_at g d bases shape args object
    | typeAlias target => rfl
    | enum values => rfl

end

section

variable {g : Graph} {F : Declaration → Declaration} (hF : g.Replaces F)
  {members₁ members₂ : Declaration → List TypeExpr → ObjectSchema Schema →
    Resolve (ObjectSchema Schema)}
  (hmembers : ∀ d ∈ g.declarations, ∀ args object, args.length = d.params.length →
    members₂ (F d) args object = members₁ d args object)

include hF hmembers

theorem baseMembers_replaced (d : Declaration) (args : List TypeExpr) :
    baseMembers members₂ (g.replace F) d args = baseMembers members₁ g d args := by
  funext object base
  rw [baseMembers_eq, baseMembers_eq, hF.lookup]
  cases hb : g.lookup base d.origin with
  | error f => rfl
  | ok b =>
    have hmem := Graph.lookup_mem hb
    have hagree := hF.agree b hmem
    simp only [Except.map, ofExcept, pure_bind, hagree.isObject, hF.id,
      Declaration.instantiate_replaced hF hagree]
    cases hi : b.instantiate g
        (TypeExpr.substituteAll (Declaration.bindingOf d.params args) base.args) d.origin with
    | error f => rfl
    | ok i =>
      simp only [pure_bind, hmembers b hmem i.args object (Declaration.instantiate_length hi)]

theorem ownMembers_replaced {type : TypeExpr → Origin → Resolve Schema} (d : Declaration)
    (bases : List (TypeRef TypeExpr)) (shape : Shape TypeExpr) (args : List TypeExpr) :
    ownMembers type members₂ (g.replace F) d bases shape args =
      ownMembers type members₁ g d bases shape args := by
  funext object
  simp only [ownMembers_eq, collect, baseMembers_replaced hF hmembers]

theorem body_replaced {d : Declaration} (hd : d ∈ g.declarations) {args : List TypeExpr}
    (hl : args.length = d.params.length) : body members₂ (F d) args = body members₁ d args := by
  have hmembers' : members₂ (F d) args = members₁ d args := funext fun object =>
    hmembers d hd args object hl
  rw [← body_at, hmembers', (hF.agree d hd).at args hl, body_at]

theorem instanceOf_replaced (i : Instance) :
    instanceOf members₂ (g.replace F) i = instanceOf members₁ g i := by
  unfold instanceOf
  rw [hF.declaration?]
  cases hd : g.declaration? i.id with
  | none => rfl
  | some d =>
    have hmem := List.mem_of_find?_eq_some hd
    simp only [Option.map_some, hF.id, (hF.agree d hmem).length]
    by_cases hl : d.params.length = i.args.length
    · rw [body_replaced hF hmembers hmem hl.symm]
    · simp only [hl, ne_eq, not_false_eq_true, if_true]

theorem refOf_replaced {type : TypeExpr → Origin → Resolve Schema} (r : TypeRef TypeExpr)
    (o : Origin) : refOf type members₂ (g.replace F) r o = refOf type members₁ g r o := by
  unfold refOf
  rw [hF.lookup]
  cases r.builtin? with
  | some b => rfl
  | none =>
    cases hb : g.lookup r o with
    | error f => rfl
    | ok b =>
      simp only [Except.map, ofExcept, pure_bind, instanceOf_replaced hF hmembers,
        Declaration.instantiate_replaced hF (hF.agree b (Graph.lookup_mem hb))]

end

/-- Within so many steps, resolution is the same where declarations are replaced by others that
agree with them. -/
theorem within_replaced {g : Graph} {F : Declaration → Declaration} (hF : g.Replaces F) (n : Nat) :
    typeWithin (g.replace F) n = typeWithin g n ∧
      ∀ d ∈ g.declarations, ∀ args object, args.length = d.params.length →
        membersWithin (g.replace F) n (F d) args object = membersWithin g n d args object := by
  induction n with
  | zero => exact ⟨rfl, fun _ _ _ _ _ => rfl⟩
  | succ n ih =>
    obtain ⟨htype, hmembers⟩ := ih
    constructor
    · funext t o
      cases t <;> simp only [typeWithin, htype, refOf_replaced hF hmembers]
    · intro d hd args object hl
      have hsame : ∀ d', membersWithin (g.replace F) (n + 1) d' = membersWithin g (n + 1) d' := by
        intro d'
        funext args object
        simp only [membersWithin, htype, ownMembers_replaced hF hmembers]
      calc membersWithin (g.replace F) (n + 1) (F d) args object
        _ = membersWithin (g.replace F) (n + 1) ((F d).at args) [] object := by
          rw [membersWithin_at]
        _ = membersWithin (g.replace F) (n + 1) (d.at args) [] object := by
          rw [(hF.agree d hd).at args hl]
        _ = membersWithin g (n + 1) (d.at args) [] object := by rw [hsame]
        _ = membersWithin g (n + 1) d args object := by rw [membersWithin_at]

end Resolve

theorem Graph.Replaces.resolveType {g : Graph} {F : Declaration → Declaration}
    (hF : g.Replaces F) : (g.replace F).resolveType = g.resolveType := by
  have hwithin : ∀ n, Resolve.typeWithin (g.replace F) n = Resolve.typeWithin g n :=
    fun n => (Resolve.within_replaced hF n).1
  funext t o
  simp only [Graph.resolveType, hwithin]

namespace Graph

def rename (g : Graph) (ρ : Declaration → String → String) : Graph :=
  g.replace fun d => if d.isObject then d.rename (ρ d) else d

/-- A declaration agrees with itself under other names, and with itself. -/
theorem replaces_rename {g : Graph} {ρ : Declaration → String → String}
    (h : ∀ d ∈ g.declarations, d.isObject → d.Scoped ∧ (d.params.map (ρ d ·.name)).Nodup) :
    g.Replaces fun d => if d.isObject then d.rename (ρ d) else d where
  id d := by
    split
    · rfl
    · rfl
  agree d hd := by
    by_cases hobject : d.isObject
    · obtain ⟨hscoped, hnodup⟩ := h d hd hobject
      simp only [hobject, if_true]
      exact hscoped.agree hnodup
    · simp only [hobject]
      exact .refl d

end Graph

end RouteContract

import RouteContract.Proofs.Resolution.Instances
import RouteContract.Proofs.Schema.References

/-!
# Two runs side by side

Resolution is put together from checks, sequences, merged intersections, the
registration of instances, and brackets around the members of a declaration. A
relation between two runs that all of these keep holds of two resolutions of the
same type, whatever steps each of them is granted. It may speak of the names that
the registry holds before, and of the names that a result mentions. No result
decides how a run goes on, so that the two results need not be the same.
-/

set_option autoImplicit false

namespace RouteContract.Resolve

open Node (Stands)
open Schema (references allReferences propertyReferences additionalReferences)

/-- A relation between two runs for the body of an instance or for none, with the names that are held
before the runs and those that a result mentions. -/
abbrev Judgement :=
  Option Instance → List String → (α : Type) → (α → List String) → Resolve α → Resolve α → Prop

def Types (P : Judgement) (ctx : Option Instance)
    (type₁ type₂ : TypeExpr → Origin → Resolve Schema) (o : Origin) (t : TypeExpr) : Prop :=
  ∀ held, P ctx held _ references (type₁ t o) (type₂ t o)

def Members (P : Judgement) (same : Prop) (ctx : Option Instance) (members₁ members₂ : Declaration →
    List TypeExpr → ObjectSchema Schema → Resolve (ObjectSchema Schema)) (d : Declaration)
    (args : List TypeExpr) : Prop :=
  ∀ held object object', (same → object = object') → references (.object object) ⊆ held →
    P ctx held _ (fun o => references (.object o)) (members₁ d args object) (members₂ d args object')

def Alike (P : Judgement) (same : Prop) (g : Graph) (roots : TypeExpr → Prop) (n₁ n₂ : Nat) :
    Prop :=
  ∀ ctx,
    (∀ t o, Stands g roots ctx (.type t o) → Types P ctx (typeWithin g n₁) (typeWithin g n₂) o t) ∧
    ∀ d args, d.isObject → Stands g roots ctx (.members d args) →
      Members P same ctx (membersWithin g n₁) (membersWithin g n₂) d args

/-- The judgement is kept by all that resolution is put together from. The numbers of steps that the
two runs are granted are compared by `steps`, and `same` says that they have the same results. -/
structure Coupling (g : Graph) (roots : TypeExpr → Prop) (steps : Nat → Nat → Prop) (same : Prop)
    (P : Judgement) : Prop where
  refl : ∀ n, steps n n
  pred : ∀ {n₁ n₂ : Nat}, steps (n₁ + 1) (n₂ + 1) → steps n₁ n₂
  stopped : ∀ {n₁ n₂ : Nat}, steps n₁ n₂ → n₁ = 0 ∨ n₂ = 0 →
    Alike P same g roots n₁ n₂
  check : ∀ {ctx : Option Instance} {held : List String} {α : Type} {names : α → List String}
    {x : Except Fault α}, Local x → (∀ a, x = .ok a → names a ⊆ held) →
    P ctx held α names (ofExcept x) (ofExcept x)
  give : ∀ {ctx : Option Instance} {held : List String} {α : Type} {names : α → List String}
    {a a' : α}, (same → a = a') → names a ⊆ held → P ctx held α names (pure a) (pure a')
  bind : ∀ {ctx : Option Instance} {held : List String} {α β : Type} {names : α → List String}
    {names' : β → List String} {m₁ m₂ : Resolve α} {f₁ f₂ : α → Resolve β},
    P ctx held α names m₁ m₂ →
    (∀ a a', (same → a = a') → P ctx (names a ++ held) β names' (f₁ a) (f₂ a')) →
    P ctx held β names' (m₁ >>= f₁) (m₂ >>= f₂)
  merge : ∀ {ctx : Option Instance} {held : List String} {n₁ n₂ : Nat} {ts : List TypeExpr}
    {o : Origin}, Stands g roots ctx (.type (.intersection ts) o) →
    P ctx held _ allReferences (all (typeWithin g n₁) o ts) (all (typeWithin g n₂) o ts) →
    P ctx held _ references (intersectionOf (typeWithin g n₁) ts o)
      (intersectionOf (typeWithin g n₂) ts o)
  register : ∀ {ctx : Option Instance} {held : List String} {n₁ n₂ : Nat} {node : Node}
    {i : Instance} {d : Declaration}, Stands g roots ctx node → node.AsksFor g i →
    g.declaration? i.id = some d → d.params.length = i.args.length → steps n₁ n₂ →
    (∀ n, steps n n₂ → P (some i) [] _ (fun x => x.1.references)
      (body (membersWithin g n) d i.args) (body (membersWithin g n₂) d i.args)) →
    P ctx held _ references
      (Registry.getOrCreate .fault i.name i (body (membersWithin g n₁) d i.args))
      (Registry.getOrCreate .fault i.name i (body (membersWithin g n₂) d i.args))
  bracket : ∀ {ctx : Option Instance} {held : List String} {id : DeclId} {α : Type}
    {names : α → List String} {m₁ m₂ : Resolve α},
    P ctx held α names m₁ m₂ → P ctx held α names (bracket id m₁) (bracket id m₂)

namespace Coupling

section

variable {g : Graph} {roots : TypeExpr → Prop} {steps : Nat → Nat → Prop}
  {same : Prop} {P : Judgement} (hP : Coupling g roots steps same P)
  {ctx : Option Instance} {held : List String} {α β : Type} {names : α → List String}
  {names' : β → List String}

include hP

theorem pure {a : α} (h : names a ⊆ held) :
    P ctx held α names (Pure.pure a) (Pure.pure a) := hP.give (fun _ => rfl) h

theorem fail {f : Fault} (hf : f.isLocal) :
    P ctx held α names (Resolve.fail f) (Resolve.fail f) :=
  hP.check (x := .error f) (.error hf) nofun

theorem check_bind {x : Except Fault α} (hx : Local x) {f₁ f₂ : α → Resolve β}
    (h : ∀ a, x = .ok a → P ctx held β names' (f₁ a) (f₂ a)) :
    P ctx held β names' (ofExcept x >>= f₁) (ofExcept x >>= f₂) := by
  cases x with
  | error f => exact hP.fail (hx f rfl)
  | ok a => exact h a rfl

/-- A part whose result is only passed on. -/
theorem map {m₁ m₂ : Resolve α} {f : α → β} (h : P ctx held α names m₁ m₂)
    (hf : ∀ a, names' (f a) ⊆ names a ++ held) :
    P ctx held β names' (m₁ >>= fun a => return f a) (m₂ >>= fun a => return f a) :=
  hP.bind h fun a _ he => hP.give (fun hs => congrArg f (he hs)) (hf a)

theorem loop {f₁ f₂ : β → α → Resolve β} {xs : List α} {b b' : β} (he : same → b = b')
    (hb : names' b ⊆ held)
    (h : ∀ held' b b' x, (same → b = b') → held ⊆ held' → names' b ⊆ held' → x ∈ xs →
      P ctx held' β names' (f₁ b x) (f₂ b' x)) :
    P ctx held β names' (xs.foldlM f₁ b) (xs.foldlM f₂ b') := by
  induction xs generalizing b b' held with
  | nil => exact hP.give he hb
  | cons x xs ih =>
    rw [List.foldlM_cons, List.foldlM_cons]
    refine hP.bind (h held b b' x he (List.Subset.refl held) hb (by simp)) fun c c' hc =>
      ih hc (by simp) ?_
    intro held' b b' y he hheld hb hy
    exact h held' b b' y he (fun name hname => hheld (by simp [hname])) hb (by simp [hy])

end

section

variable {g : Graph} {roots : TypeExpr → Prop} {steps : Nat → Nat → Prop} {P : Judgement}
  (hP : Coupling g roots steps True P) {ctx : Option Instance} {held : List String} {α β : Type}
  {names : α → List String} {names' : β → List String}

include hP

/-- A sequence whose first parts have the same results. -/
theorem seq {m₁ m₂ : Resolve α} {f₁ f₂ : α → Resolve β} (h : P ctx held α names m₁ m₂)
    (hf : ∀ a, P ctx (names a ++ held) β names' (f₁ a) (f₂ a)) :
    P ctx held β names' (m₁ >>= f₁) (m₂ >>= f₂) := by
  refine hP.bind h fun a a' he => ?_
  obtain rfl := he trivial
  exact hf a

/-- A loop whose steps have the same results. -/
theorem foldlM {f₁ f₂ : β → α → Resolve β} {xs : List α} {b : β} (hb : names' b ⊆ held)
    (h : ∀ held' b x, held ⊆ held' → names' b ⊆ held' → x ∈ xs →
      P ctx held' β names' (f₁ b x) (f₂ b x)) :
    P ctx held β names' (xs.foldlM f₁ b) (xs.foldlM f₂ b) := by
  refine hP.loop (fun _ => rfl) hb fun held' b b' x he => ?_
  obtain rfl := he trivial
  exact h held' b x

end

section

variable {g : Graph} {roots : TypeExpr → Prop} {steps : Nat → Nat → Prop}
  {same : Prop} {P : Judgement} (hP : Coupling g roots steps same P)
  {ctx : Option Instance} {held : List String}
  {type₁ type₂ : TypeExpr → Origin → Resolve Schema} {o : Origin}

include hP

theorem property {p : Property TypeExpr} (h : Types P ctx type₁ type₂ o p.type.stripUndefined.1) :
    P ctx held _ (fun p => references p.schema) (property type₁ p o) (property type₂ p o) := by
  apply hP.map (h held)
  intro s name hname
  refine List.mem_append_left held ?_
  split at hname
  · rwa [Schema.references_applyFormat] at hname
  · exact hname

theorem properties {table table' : Entries String (PropertySchema Schema)}
    {ps : List (Property TypeExpr)} (he : same → table = table')
    (htable : propertyReferences table ⊆ held)
    (h : ∀ p ∈ ps, Types P ctx type₁ type₂ o p.type.stripUndefined.1) :
    P ctx held _ propertyReferences (properties type₁ o table ps) (properties type₂ o table' ps) := by
  rw [properties_eq_foldlM, properties_eq_foldlM]
  apply hP.loop he htable
  intro held table table' p he _ htable hp
  refine hP.bind (hP.property (h p hp)) fun schema schema' hs =>
    hP.give (fun hsame => by rw [he hsame, hs hsame]) ?_
  intro name hname
  rcases Schema.mem_references_insert hname with hname | hname
  · exact List.mem_append_left held hname
  · exact List.mem_append_right _ (htable hname)

theorem additional {index : List (IndexSignature TypeExpr)}
    (h : ∀ v, IndexValue index v → Types P ctx type₁ type₂ o v) :
    P ctx held _ additionalReferences (additional type₁ index o) (additional type₂ index o) := by
  unfold Resolve.additional
  split
  · exact hP.pure (List.nil_subset held)
  · rename_i signature
    split
    · exact hP.fail rfl
    · rename_i hkey
      split
      · exact hP.pure (List.nil_subset held)
      · exact hP.pure (List.nil_subset held)
      · rename_i hany hunknown
        have hv : IndexValue [signature] signature.value := .value (by simpa using hkey) hany hunknown
        exact hP.map (h _ hv held) fun s => List.subset_append_left _ _
  · exact hP.fail rfl

theorem all {ts : List TypeExpr} (h : ∀ t ∈ ts, Types P ctx type₁ type₂ o t) :
    P ctx held _ allReferences (all type₁ o ts) (all type₂ o ts) := by
  induction ts generalizing held with
  | nil => exact hP.pure (List.nil_subset held)
  | cons t ts ih =>
    refine hP.bind (h t (by simp) held) fun s s' hs =>
      hP.bind (ih fun t ht => h t (by simp [ht])) fun ss ss' hss =>
        hP.give (fun hsame => by rw [hs hsame, hss hsame]) ?_
    intro name hname
    rcases List.mem_append.mp hname with hname | hname
    · simp [hname]
    · simp [hname]

theorem unionOf {ts : List TypeExpr}
    (h : ∀ t ∈ ts.filter (!·.isUndefined), Types P ctx type₁ type₂ o t) :
    P ctx held _ references (unionOf type₁ ts o) (unionOf type₂ ts o) := by
  apply hP.map (hP.all h)
  intro ss name hname
  split at hname
  · cases hname
  · exact List.mem_append_left held (Schema.mem_references_unionOf hname)

theorem object {shape : Shape TypeExpr}
    (hp : ∀ p ∈ shape.properties, Types P ctx type₁ type₂ o p.type.stripUndefined.1)
    (hv : ∀ v, IndexValue shape.index v → Types P ctx type₁ type₂ o v) :
    P ctx held _ references
      (Resolve.properties type₁ o [] shape.properties >>= fun ps =>
        Resolve.additional type₁ shape.index o >>= fun a => return .object ⟨ps, a⟩)
      (Resolve.properties type₂ o [] shape.properties >>= fun ps =>
        Resolve.additional type₂ shape.index o >>= fun a => return .object ⟨ps, a⟩) := by
  refine hP.bind (hP.properties (fun _ => rfl) (List.nil_subset held) hp) fun ps ps' hps =>
    hP.bind (hP.additional hv) fun a a' ha =>
      hP.give (fun hsame => by rw [hps hsame, ha hsame]) ?_
  intro name hname
  rcases List.mem_append.mp hname with hname | hname
  · simp [hname]
  · simp [hname]

theorem builtin {b : Builtin} {r : TypeRef TypeExpr}
    (h : ∀ t, BuiltinArgument r b t → Types P ctx type₁ type₂ o t) :
    P ctx held _ references (builtin type₁ b r o) (builtin type₂ b r o) := by
  have expect : ∀ {n : Nat} {f₁ f₂ : Unit → Resolve Schema},
      (r.args.length = n → P ctx held _ references (f₁ ()) (f₂ ())) →
      P ctx held _ references (expectArgs r n >>= f₁) (expectArgs r n >>= f₂) := by
    intro n f₁ f₂ hf
    unfold expectArgs
    by_cases hn : r.args.length = n
    · simp only [hn, if_true]
      exact hf hn
    · simp only [hn, if_false]
      exact hP.fail rfl
  cases b with
  | primitive kind => exact hP.pure (List.nil_subset held)
  | array =>
    apply expect
    intro hn
    exact hP.map (h _ (.array hn) held) fun s => List.subset_append_left _ _
  | promise => exact expect fun hn => h _ (.promise hn) held
  | record =>
    apply expect
    intro hn
    exact hP.map (hP.additional fun v hv => h v (.record hn hv)) fun a =>
      List.subset_append_left _ _
  | unsupported => exact hP.fail rfl

end

section

variable {g : Graph} {roots : TypeExpr → Prop} {steps : Nat → Nat → Prop}
  {same : Prop} {P : Judgement} (hP : Coupling g roots steps same P)
  {ctx : Option Instance} {held : List String}
  {type₁ type₂ : TypeExpr → Origin → Resolve Schema}
  {members₁ members₂ : Declaration → List TypeExpr → ObjectSchema Schema →
    Resolve (ObjectSchema Schema)}

include hP

theorem body {d : Declaration} {args : List TypeExpr}
    (h : d.isObject → Members P same ctx members₁ members₂ d args) :
    P ctx held _ (fun x => x.1.references) (body members₁ d args) (body members₂ d args) := by
  unfold Resolve.body
  split
  · rename_i bases shape isClass hd
    have ho : d.isObject := by simp [Declaration.isObject, hd]
    exact hP.map (h ho held .empty .empty (fun _ => rfl) (List.nil_subset held)) fun o =>
      List.subset_append_left _ _
  · split
    · exact hP.pure (List.nil_subset held)
    · exact hP.fail rfl
  · rename_i ms hd
    apply hP.check_bind (.mapM (EnumMember.value?_local d) ms)
    exact fun values _ => hP.pure (List.nil_subset held)

theorem baseMembers {d : Declaration} {args : List TypeExpr} {base : TypeRef TypeExpr}
    {object object' : ObjectSchema Schema} (he : same → object = object')
    (hobject : references (.object object) ⊆ held)
    (h : ∀ b i, Extends g d args base b i → Members P same ctx members₁ members₂ b i.args) :
    P ctx held _ (fun o => references (.object o)) (baseMembers members₁ g d args object base)
      (baseMembers members₂ g d args object' base) := by
  rw [baseMembers_eq, baseMembers_eq]
  split
  · exact hP.fail rfl
  · rename_i hbuiltin
    apply hP.check_bind (g.lookup_local base d.origin)
    intro b hb
    by_cases ho : b.isObject
    · simp only [ho, Bool.not_true, Bool.false_eq_true, if_false]
      apply hP.check_bind (b.instantiate_local g _ d.origin)
      exact fun i hi =>
        h b i ⟨by simpa using hbuiltin, hb, ho, hi⟩ held object object' he hobject
    · simp only [ho, Bool.not_false, if_true]
      exact hP.fail rfl

theorem ownMembers {d : Declaration} {bases : List (TypeRef TypeExpr)} {shape : Shape TypeExpr}
    {args : List TypeExpr}
    (hbases : ∀ base ∈ bases, ∀ b i, Extends g d args base b i →
      Members P same ctx members₁ members₂ b i.args)
    (hp : ∀ p ∈ TypeExpr.substituteProperties (Declaration.bindingOf d.params args)
      shape.properties, Types P ctx type₁ type₂ d.origin p.type.stripUndefined.1)
    (hv : ∀ v, IndexValue (TypeExpr.substituteIndex (Declaration.bindingOf d.params args)
      shape.index) v → Types P ctx type₁ type₂ d.origin v)
    {object object' : ObjectSchema Schema} (he : same → object = object')
    (hobject : references (.object object) ⊆ held) :
    P ctx held _ (fun o => references (.object o))
      (ownMembers type₁ members₁ g d bases shape args object)
      (ownMembers type₂ members₂ g d bases shape args object') := by
  rw [ownMembers_eq, ownMembers_eq]
  apply hP.bracket
  unfold collect
  have hfold : P ctx held _ (fun o => references (.object o))
      (bases.foldlM (Resolve.baseMembers members₁ g d args) object)
      (bases.foldlM (Resolve.baseMembers members₂ g d args) object') :=
    hP.loop he hobject fun held object object' base he _ ho hb =>
      hP.baseMembers he ho (hbases base hb)
  have hadditional : ∀ {held : List String} {a a' : Additional Schema}, (same → a = a') →
      additionalReferences a ⊆ held → P ctx held _ additionalReferences
        (ownAdditional type₁ d shape args a) (ownAdditional type₂ d shape args a') := by
    intro held a a' he ha
    unfold ownAdditional
    split
    · exact hP.give he ha
    · exact hP.additional hv
  refine hP.bind hfold fun object object' he => ?_
  refine hP.bind (hP.properties (fun hsame => by rw [he hsame]) ?_ hp) fun ps ps' hps => ?_
  · exact fun name hname => by simp [Schema.references_object, hname]
  refine hP.bind (hadditional (fun hsame => by rw [he hsame]) ?_) fun a a' ha =>
    hP.give (fun hsame => by rw [hps hsame, ha hsame]) ?_
  · exact fun name hname => by simp [Schema.references_object, hname]
  · intro name hname
    rcases List.mem_append.mp hname with hname | hname
    · simp [hname]
    · simp [hname]

end

section

variable {g : Graph} {roots : TypeExpr → Prop} {steps : Nat → Nat → Prop}
  {same : Prop} {P : Judgement} (hP : Coupling g roots steps same P)
  {ctx : Option Instance}

include hP

theorem refOf {n₁ n₂ : Nat} (hsteps : steps n₁ n₂) {r : TypeRef TypeExpr} {o : Origin}
    (hr : Stands g roots ctx (.type (.ref r) o))
    (htypes : ∀ t, Stands g roots ctx (.type t o) →
      Types P ctx (typeWithin g n₁) (typeWithin g n₂) o t)
    (hbody : ∀ i d, Instance.Asked g roots i → g.declaration? i.id = some d → ∀ n, steps n n₂ →
      P (some i) [] _ (fun x => x.1.references) (Resolve.body (membersWithin g n) d i.args)
        (Resolve.body (membersWithin g n₂) d i.args)) (held : List String) :
    P ctx held _ references (refOf (typeWithin g n₁) (membersWithin g n₁) g r o)
      (refOf (typeWithin g n₂) (membersWithin g n₂) g r o) := by
  unfold Resolve.refOf
  split
  · rename_i b hb
    exact hP.builtin fun t ht => htypes t (hr.part (.argument hb ht))
  · rename_i hb
    apply hP.check_bind (g.lookup_local r o)
    intro d hd
    apply hP.check_bind (d.instantiate_local g r.args o)
    intro i hi
    have hasks : Node.AsksFor g (.type (.ref r) o) i := .reference hb hd hi
    unfold instanceOf
    split
    · exact hP.fail rfl
    · rename_i d' hd'
      split
      · exact hP.fail rfl
      · rename_i harity
        have hname : TypeExpr.canonicalName d'.id.name i.args = i.name := by
          rw [Graph.declaration?_id hd']
          rfl
        rw [hname]
        exact hP.register hr hasks hd' (not_not.mp harity) hsteps
          (hbody i d' (hr.asked hasks) hd')

/-- Two resolutions are related when the steps granted to them are. -/
theorem within : ∀ {n₁ n₂ : Nat}, steps n₁ n₂ → Alike P same g roots n₁ n₂ := by
  intro n₁ n₂
  induction n₂ generalizing n₁ with
  | zero => exact fun h => hP.stopped h (.inr rfl)
  | succ n₂ ih =>
    intro h
    cases n₁ with
    | zero => exact hP.stopped h (.inl rfl)
    | succ n₁ =>
      intro ctx
      have hpred := hP.pred h
      obtain ⟨htypes, hmembers⟩ := ih hpred ctx
      refine ⟨fun t o ht held => ?_, fun d args ho hd held object object' he hobject => ?_⟩
      · cases t with
        | keyword k =>
          simp only [typeWithin]
          split
          · exact hP.pure (List.nil_subset held)
          · exact hP.fail rfl
        | literal l =>
          apply hP.pure
          cases l <;> exact List.nil_subset held
        | array t =>
          exact hP.map (htypes t o (ht.part .element) held) fun s => List.subset_append_left _ _
        | union ts => exact hP.unionOf fun t h => htypes t o (ht.part (.alternative h))
        | intersection ts =>
          exact hP.merge ht (hP.all fun t h => htypes t o (ht.part (.constraint h)))
        | object shape =>
          exact hP.object (fun p h => htypes _ o (ht.part (.property h)))
            fun v h => htypes v o (ht.part (.index h))
        | ref r =>
          refine hP.refOf hpred ht (fun t h => htypes t o h) (fun i d hi hd n hn => ?_) held
          exact hP.body fun ho => (ih hn (some i)).2 d i.args ho (Node.stands_body hi hd)
        | param name => exact hP.fail rfl
        | unsupported c => exact hP.fail rfl
      · simp only [membersWithin]
        split
        · rename_i bases shape isClass hk
          exact hP.ownMembers
            (fun base hb b i h => hmembers b i.args h.isObject (hd.part (.base hk hb h)))
            (fun p h => htypes _ d.origin (hd.part (.ownProperty hk h)))
            (fun v h => htypes v d.origin (hd.part (.ownIndex hk h))) he hobject
        · rename_i hk
          cases hkind : d.kind with
          | object bases shape isClass => exact absurd hkind (hk bases shape isClass)
          | typeAlias target => simp [Declaration.isObject, hkind] at ho
          | enum ms => simp [Declaration.isObject, hkind] at ho

end

end Coupling

end RouteContract.Resolve

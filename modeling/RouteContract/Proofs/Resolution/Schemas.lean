import RouteContract.Proofs.Resolution.Instances
import RouteContract.Proofs.Schema.Parts
import RouteContract.Proofs.TypeExpr

/-!
# What resolution builds schemas from

A schema is a primitive, an enum or a reference, or it is put together from
schemas that a run has given before. A property of schemas that all these ways
keep holds of whatever a run gives and of whatever it defines. What describes a
property of an object may have been refined by a format, so that less may be known
of it. The objects of a merged intersection may come from definitions; nothing is
assumed of those that are pending.
-/

set_option autoImplicit false

namespace RouteContract

structure ObjectSchema.Declared (S P : Schema → Prop) (o : ObjectSchema Schema) : Prop where
  property : ∀ {name : String} {p : PropertySchema Schema}, (name, p) ∈ o.properties →
    P p.schema ∧ (p.default.isSome → p.required = false)
  additional : ∀ {s : Schema}, o.additional = .schema s → S s

theorem ObjectSchema.declared_empty (S P : Schema → Prop) :
    ObjectSchema.Declared S P .empty := ⟨nofun, nofun⟩

def Registry.Holds (S : Schema → Prop) (r : Registry) : Prop :=
  ∀ {name : String} {owner : Instance} {schema : Schema} {description : Option String},
    r.entries.find? name = some ⟨owner, .defined schema description⟩ → S schema

namespace Registry

variable {S : Schema → Prop} {r : Registry} {name : String} {owner : Instance}

theorem Holds.claim (h : r.Holds S) (hfree : r.entries.find? name = none) :
    (r.claim name owner).Holds S := by
  intro key owner' schema description he
  rw [claim_find? hfree] at he
  split at he
  · cases he
  · exact h he

theorem Holds.define (h : r.Holds S) (hpending : r.entries.find? name = some ⟨owner, .pending⟩)
    {schema : Schema} (hs : S schema) (description : Option String) :
    (r.define name schema description).Holds S := by
  intro key owner' schema' description' he
  rw [define_find? hpending] at he
  split at he
  · cases he
    exact hs
  · exact h he

end Registry

namespace Resolve

namespace Node

structure Closed (g : Graph) (N : Node → Prop) : Prop where
  part : ∀ {node node' : Node}, N node → Part g node node' → N node'
  body : ∀ {node : Node} {i : Instance} {d : Declaration}, N node → node.AsksFor g i →
    g.declaration? i.id = some d → N (.members d i.args)

def Occurs (g : Graph) (roots : TypeExpr → Prop) (node : Node) : Prop :=
  ∃ ctx, node.Stands g roots ctx

theorem occurs_closed (g : Graph) (roots : TypeExpr → Prop) : Closed g (Occurs g roots) where
  part := fun ⟨ctx, h⟩ hpart => ⟨ctx, h.part hpart⟩
  body := fun ⟨_, h⟩ hasks hd => ⟨_, stands_body (h.asked hasks) hd⟩

end Node

def Intersects (g : Graph) (N : Node → Prop) (R : Registry) (os : List (ObjectSchema Schema)) :
    Prop :=
  ∃ ts o n st ss st', N (.type (.intersection ts) o) ∧
    Gives (all (typeWithin g n) o ts) st ss st' ∧ st'.1.Below R ∧
    ss.mapM (object? st'.1) = some os

structure Node.Formats (N : Node → Prop) (F : Format → Prop) : Prop where
  property : ∀ {shape : Shape TypeExpr} {o : Origin} {p : Property TypeExpr} {f : Format},
    N (.type (.object shape) o) → p ∈ shape.properties → p.format = some f → F f
  ownProperty : ∀ {d : Declaration} {args : List TypeExpr} {p : Property TypeExpr} {f : Format},
    N (.members d args) → p ∈ d.members → p.format = some f → F f

/-- Properties of schemas that are kept by all the ways in which runs for these nodes build them: one
of the schemas of types, the other of those that describe properties. -/
structure Assembles (g : Graph) (N : Node → Prop) (F : Format → Prop) (R : Registry)
    (S P : Schema → Prop) : Prop where
  primitive : ∀ kind, S (.primitive kind)
  literal : ∀ l : Literal, S l.schema
  aliased : ∀ {t : TypeExpr} {values : List String}, t.stringLiterals? = some values →
    S (.enum (values.map .string))
  enumerated : ∀ {d : Declaration} {ms : List EnumMember} {values : List EnumValue},
    d ∈ g.declarations → d.kind = .enum ms → ms.mapM (·.value? d) = .ok values → S (.enum values)
  reference : ∀ name, S (.reference name)
  array : ∀ {s : Schema}, S s → S (.array s)
  plain : ∀ {s : Schema}, S s → P s
  format : ∀ {s : Schema} {f : Format}, F f → S s → P (s.applyFormat f)
  union : ∀ {ss : List Schema}, ss ≠ [] → (∀ s ∈ ss, S s) → S (.unionOf ss)
  intersection : ∀ {ss : List Schema}, (∀ s ∈ ss, S s) → S (.intersection ss)
  object : ∀ {o : ObjectSchema Schema}, o.Declared S P → S (.object o)
  merged : ∀ {os : List (ObjectSchema Schema)}, Intersects g N R os →
    (∀ o ∈ os, S (.object o)) → S (.object (os.foldl ObjectSchema.merge .empty))

abbrev Builds (g : Graph) (N : Node → Prop) (R : Registry) (S : Schema → Prop) : Prop :=
  Assembles g N (fun _ => True) R S S

/-- A run that gives a result adds to the registry. Where that is no more than another one holds and
all definitions were such schemas, they still are, and the result is as it is said. -/
def Delivers {α : Type} (R : Registry) (S : Schema → Prop) (m : Resolve α) (Q : α → Prop) : Prop :=
  ∀ st a st', Gives m st a st' →
    st.1.Grows st'.1 ∧ (st'.1.Below R → st.1.Holds S → st'.1.Holds S ∧ Q a)

namespace Delivers

variable {α β : Type} {R : Registry} {S : Schema → Prop}

theorem weaken {m : Resolve α} {P Q : α → Prop} (h : Delivers R S m P) (hpq : ∀ a, P a → Q a) :
    Delivers R S m Q := by
  intro st a st' ha
  obtain ⟨hgrows, hresult⟩ := h st a st' ha
  exact ⟨hgrows, fun hbelow hst => (hresult hbelow hst).imp id (hpq a)⟩

theorem ofExcept {x : Except Fault α} {Q : α → Prop} (h : ∀ a, x = .ok a → Q a) :
    Delivers R S (Resolve.ofExcept x) Q := by
  intro st a st' ha
  obtain ⟨hx, rfl⟩ := gives_ofExcept.mp ha
  exact ⟨.refl st.1, fun _ hst => ⟨hst, h a hx⟩⟩

theorem pure {a : α} {Q : α → Prop} (h : Q a) : Delivers R S (Pure.pure a) Q := by
  apply ofExcept (x := .ok a)
  rintro _ ⟨⟩
  exact h

theorem throw {e : Stop} {Q : α → Prop} : Delivers R S (throw e) Q :=
  fun _ _ _ h => absurd h gives_throw

theorem fail {f : Fault} {Q : α → Prop} : Delivers R S (Resolve.fail f) Q := throw

/-- The second part grows the registry whatever it is given, so that what is known of the first
result is a premise of its result only. -/
theorem bind {m : Resolve α} {f : α → Resolve β} {P : α → Prop} {Q : β → Prop}
    (h : Delivers R S m P) (hf : ∀ a, Delivers R S (f a) fun b => P a → Q b) :
    Delivers R S (m >>= f) Q := by
  intro st b st'' hb
  obtain ⟨a, st', ha, hb⟩ := gives_bind.mp hb
  obtain ⟨hgrows, hfirst⟩ := h st a st' ha
  obtain ⟨hgrows', hsecond⟩ := hf a st' b st'' hb
  refine ⟨hgrows.trans hgrows', fun hbelow hst => ?_⟩
  obtain ⟨hst', hp⟩ := hfirst (Registry.Below.trans hgrows'.below hbelow) hst
  exact (hsecond hbelow hst').imp id fun hq => hq hp

theorem map {m : Resolve α} {f : α → β} {P : α → Prop} {Q : β → Prop} (h : Delivers R S m P)
    (hf : ∀ a, P a → Q (f a)) : Delivers R S (m >>= fun a => return f a) Q :=
  h.bind fun a => .pure (hf a)

/-- A check whose result is not looked at. -/
theorem check {x : Except Fault α} {f : α → Resolve β} {Q : β → Prop}
    (h : ∀ a, x = .ok a → Delivers R S (f a) Q) : Delivers R S (Resolve.ofExcept x >>= f) Q := by
  cases x with
  | error f => exact fail
  | ok a => exact h a rfl

theorem foldlM {f : β → α → Resolve β} {xs : List α} {Q : β → Prop} {b : β}
    (h : ∀ b, ∀ x ∈ xs, Delivers R S (f b x) fun c => Q b → Q c) :
    Delivers R S (xs.foldlM f b) fun c => Q b → Q c := by
  induction xs generalizing b with
  | nil => exact pure id
  | cons x xs ih =>
    rw [List.foldlM_cons]
    refine (h b x List.mem_cons_self).bind fun c => ?_
    exact (ih fun c y hy => h c y (List.mem_cons_of_mem x hy)).weaken
      fun d hd hc hb => hd (hc hb)

theorem bracket {id : DeclId} {m : Resolve α} {Q : α → Prop} (h : Delivers R S m Q) :
    Delivers R S (Resolve.bracket id m) Q := by
  intro st a st' ha
  obtain ⟨-, st₁, hrun, rfl⟩ := gives_bracket.mp ha
  exact h (st.1, st.2 ++ [id]) a st₁ hrun

/-- What is claimed is defined by what the run for the body gives. -/
theorem getOrCreate {name : String} {owner : Instance} {build : Resolve (Schema × Option String)}
    {Q : Schema → Prop} (h : Delivers R S build fun x => S x.1) (hq : Q (.reference name)) :
    Delivers R S (Registry.getOrCreate .fault name owner build) Q := by
  intro st s st' hs
  obtain ⟨rfl, ⟨-, rfl⟩ | ⟨r, schema, description, st₁, hr, hb, rfl⟩⟩ := gives_getOrCreate.mp hs
  · exact ⟨.refl st'.1, fun _ hst => ⟨hst, hq⟩⟩
  · obtain ⟨hfree, rfl⟩ := Registry.reserve_eq_fresh.mp hr
    obtain ⟨hgrows, hbody⟩ := h _ _ st₁ hb
    have hpending : st₁.1.entries.find? name = some ⟨owner, .pending⟩ :=
      hgrows.keep (by rw [Registry.claim_find? hfree, if_pos rfl])
    refine ⟨Registry.grows_define hfree hgrows, fun hbelow hst => ?_⟩
    have hbelow₁ : st₁.1.Below R :=
      Registry.Below.trans (Registry.define_below hpending) hbelow
    obtain ⟨hst₁, hschema⟩ := hbody hbelow₁ (hst.claim hfree)
    exact ⟨hst₁.define hpending hschema description, hq⟩

end Delivers

section

variable {R : Registry} {S : Schema → Prop} {type : TypeExpr → Origin → Resolve Schema}
  {members : Declaration → List TypeExpr → ObjectSchema Schema → Resolve (ObjectSchema Schema)}

def Extending (R : Registry) (S P : Schema → Prop) (m : ObjectSchema Schema →
    Resolve (ObjectSchema Schema)) : Prop :=
  ∀ object, Delivers R S (m object) fun o => object.Declared S P → o.Declared S P

/-- An object that holds a schema only of definitions and of itself is such a schema. -/
theorem object?_holds {r : Registry} (hr : r.Holds S) {s : Schema} (hs : S s)
    {o : ObjectSchema Schema} (ho : object? r s = some o) : S (.object o) := by
  unfold object? at ho
  split at ho
  · cases ho
    exact hs
  · split at ho
    · rename_i hd
      cases ho
      unfold Registry.defined? at hd
      split at hd
      · rename_i he
        cases hd
        exact hr he
      · cases hd
    · cases ho
  · cases ho

theorem all_delivers {o : Origin} {ts : List TypeExpr}
    (h : ∀ t ∈ ts, Delivers R S (type t o) S) :
    Delivers R S (all type o ts) fun ss => ∀ s ∈ ss, S s := by
  induction ts with
  | nil => exact .pure nofun
  | cons t ts ih =>
    refine (h t List.mem_cons_self).bind fun s => ?_
    refine (ih fun t ht => h t (List.mem_cons_of_mem _ ht)).map fun ss hss hs => ?_
    exact List.forall_mem_cons.mpr ⟨hs, hss⟩

end

section

variable {g : Graph} {N : Node → Prop} {F : Format → Prop} {R : Registry} {S P : Schema → Prop}
  (hS : Assembles g N F R S P) {type : TypeExpr → Origin → Resolve Schema}
  {members : Declaration → List TypeExpr → ObjectSchema Schema → Resolve (ObjectSchema Schema)}
  {o : Origin}

include hS

theorem property_delivers {p : Property TypeExpr} (hf : ∀ f, p.format = some f → F f)
    (h : Delivers R S (type p.type.stripUndefined.1 o) S) :
    Delivers R S (property type p o) fun q =>
      P q.schema ∧ (q.default.isSome → q.required = false) := by
  refine h.map fun s hs => ⟨?_, fun hdefault => ?_⟩
  · split
    · rename_i f hformat
      exact hS.format (hf f hformat) hs
    · exact hS.plain hs
  · obtain ⟨v, hv⟩ := Option.isSome_iff_exists.mp hdefault
    obtain ⟨d, hd, -⟩ := Option.bind_eq_some_iff.mp hv
    simp [hd]

theorem properties_deliver {table : Entries String (PropertySchema Schema)}
    {ps : List (Property TypeExpr)} (hf : ∀ p ∈ ps, ∀ f, p.format = some f → F f)
    (h : ∀ p ∈ ps, Delivers R S (type p.type.stripUndefined.1 o) S) (a : Additional Schema) :
    Delivers R S (properties type o table ps) fun table' =>
      ObjectSchema.Declared S P ⟨table, a⟩ → ObjectSchema.Declared S P ⟨table', a⟩ := by
  rw [properties_eq_foldlM]
  refine Delivers.foldlM (Q := fun table => ObjectSchema.Declared S P ⟨table, a⟩)
    fun table p hp => ?_
  refine (property_delivers hS (hf p hp) (h p hp)).map fun q hq htable => ?_
  refine ⟨fun hmem => ?_, htable.additional⟩
  rcases Entries.mem_insert hmem with hmem | ⟨-, rfl⟩
  · exact htable.property hmem
  · exact hq

omit hS in
theorem additional_delivers {index : List (IndexSignature TypeExpr)}
    (h : ∀ v, IndexValue index v → Delivers R S (type v o) S) :
    Delivers R S (additional type index o) fun a => ∀ s, a = .schema s → S s := by
  unfold additional
  split
  · exact .pure nofun
  · rename_i signature
    split
    · exact .fail
    · rename_i hkey
      split
      · exact .pure nofun
      · exact .pure nofun
      · rename_i hany hunknown
        refine (h _ (.value (by simpa using hkey) hany hunknown)).map fun s hs => ?_
        rintro _ ⟨⟩
        exact hs
  · exact .fail

theorem unionOf_delivers {ts : List TypeExpr}
    (h : ∀ t ∈ ts.filter (!·.isUndefined), Delivers R S (type t o) S) :
    Delivers R S (unionOf type ts o) S := by
  refine (all_delivers h).map fun ss hss => ?_
  split
  · exact hS.primitive .void
  · rename_i hne
    exact hS.union (by simpa using hne) hss

theorem object_delivers {shape : Shape TypeExpr}
    (hf : ∀ p ∈ shape.properties, ∀ f, p.format = some f → F f)
    (hp : ∀ p ∈ shape.properties, Delivers R S (type p.type.stripUndefined.1 o) S)
    (hv : ∀ v, IndexValue shape.index v → Delivers R S (type v o) S) :
    Delivers R S (properties type o [] shape.properties >>= fun ps =>
      additional type shape.index o >>= fun a => return .object ⟨ps, a⟩) S := by
  refine (properties_deliver hS hf hp .implicit).bind fun ps => ?_
  refine (additional_delivers hv).map fun a ha hps => hS.object ⟨?_, ha _⟩
  exact (hps (ObjectSchema.declared_empty S P)).property

theorem builtin_delivers {b : Builtin} {r : TypeRef TypeExpr}
    (h : ∀ t, BuiltinArgument r b t → Delivers R S (type t o) S) :
    Delivers R S (builtin type b r o) S := by
  have expect : ∀ {n : Nat} {f : Unit → Resolve Schema},
      (r.args.length = n → Delivers R S (f ()) S) → Delivers R S (expectArgs r n >>= f) S := by
    intro n f hf
    unfold expectArgs
    by_cases hn : r.args.length = n
    · simp only [hn, if_true]
      exact hf hn
    · simp only [hn, if_false]
      exact .fail
  cases b with
  | primitive kind => exact .pure (hS.primitive kind)
  | array => exact expect fun hn => (h _ (.array hn)).map fun s => hS.array
  | promise => exact expect fun hn => h _ (.promise hn)
  | record =>
    refine expect fun hn => (additional_delivers fun v hv => h v (.record hn hv)).map ?_
    exact fun a ha => hS.object ⟨nofun, ha _⟩
  | unsupported => exact .fail

theorem body_delivers {d : Declaration} {args : List TypeExpr} (hd : d ∈ g.declarations)
    (h : Extending R S P (members d args)) :
    Delivers R S (body members d args) fun x => S x.1 := by
  unfold body
  split
  · exact (h .empty).map fun o ho => hS.object (ho (ObjectSchema.declared_empty S P))
  · split
    · rename_i hvalues
      exact .pure (hS.aliased hvalues)
    · exact .fail
  · rename_i hk
    exact .check fun values hvalues => .pure (hS.enumerated hd hk hvalues)

omit hS in
theorem baseMembers_extending {d : Declaration} {args : List TypeExpr} {base : TypeRef TypeExpr}
    (h : ∀ b i, Extends g d args base b i → Extending R S P (members b i.args)) :
    Extending R S P fun object => baseMembers members g d args object base := by
  intro object
  simp only [baseMembers_eq]
  split
  · exact .fail
  · rename_i hbuiltin
    refine .check fun b hb => ?_
    by_cases ho : b.isObject
    · simp only [ho, Bool.not_true, Bool.false_eq_true, if_false]
      exact .check fun i hi => h b i ⟨by simpa using hbuiltin, hb, ho, hi⟩ object
    · simp only [ho, Bool.not_false, if_true]
      exact .fail

theorem ownMembers_extending {d : Declaration} {bases : List (TypeRef TypeExpr)}
    {shape : Shape TypeExpr} {args : List TypeExpr}
    (hbases : ∀ base ∈ bases, ∀ b i, Extends g d args base b i →
      Extending R S P (members b i.args))
    (hf : ∀ p ∈ shape.properties, ∀ f, p.format = some f → F f)
    (hp : ∀ p ∈ TypeExpr.substituteProperties (Declaration.bindingOf d.params args)
      shape.properties, Delivers R S (type p.type.stripUndefined.1 d.origin) S)
    (hv : ∀ v, IndexValue (TypeExpr.substituteIndex (Declaration.bindingOf d.params args)
      shape.index) v → Delivers R S (type v d.origin) S) :
    Extending R S P (ownMembers type members g d bases shape args) := by
  intro object
  rw [ownMembers_eq]
  apply Delivers.bracket
  unfold collect
  have hfold : Delivers R S (bases.foldlM (baseMembers members g d args) object)
      fun o => object.Declared S P → o.Declared S P :=
    .foldlM fun object base hb => baseMembers_extending (hbases base hb) object
  have hadditional : ∀ inherited : Additional Schema,
      Delivers R S (ownAdditional type d shape args inherited) fun a =>
        (∀ s, inherited = .schema s → S s) → ∀ s, a = .schema s → S s := by
    intro inherited
    unfold ownAdditional
    split
    · exact .pure id
    · exact (additional_delivers hv).weaken fun a ha _ => ha
  have hformats : ∀ p ∈ TypeExpr.substituteProperties (Declaration.bindingOf d.params args)
      shape.properties, ∀ f, p.format = some f → F f := by
    intro p hp
    rw [TypeExpr.substituteProperties_eq] at hp
    obtain ⟨q, hq, rfl⟩ := List.mem_map.mp hp
    exact hf q hq
  refine hfold.bind fun object' => ?_
  refine (properties_deliver hS hformats hp object'.additional).bind fun ps => ?_
  refine (hadditional object'.additional).map fun a ha hps ho hobject => ?_
  have hobject' := ho hobject
  exact ⟨(hps hobject').property, ha (fun s => hobject'.additional) _⟩

theorem intersectionOf_delivers {n : Nat} {ts : List TypeExpr}
    (hts : N (.type (.intersection ts) o))
    (h : ∀ t ∈ ts, Delivers R S (typeWithin g n t o) S) :
    Delivers R S (intersectionOf (typeWithin g n) ts o) S := by
  intro st s st'' hs
  obtain ⟨ss, st', hall, hs⟩ := gives_bind.mp hs
  obtain ⟨r, _, hr, hs⟩ := gives_bind.mp hs
  obtain ⟨rfl, rfl⟩ := gives_registry.mp hr
  obtain ⟨hgrows, hresult⟩ := all_delivers h st ss st' hall
  -- The objects are looked up in the registry that the members left, which stays as it is.
  split at hs
  · rename_i os hos
    obtain ⟨rfl, rfl⟩ := gives_pure.mp hs
    refine ⟨hgrows, fun hbelow hst => ?_⟩
    obtain ⟨hst', hss⟩ := hresult hbelow hst
    refine ⟨hst', hS.merged ⟨ts, o, n, st, ss, st', hts, hall, hbelow, hos⟩ fun o ho => ?_⟩
    obtain ⟨s, hs, hobject⟩ := mem_of_forall₂_right (mapM_eq_some_iff.mp hos) ho
    exact object?_holds hst' (hss s hs) hobject
  · obtain ⟨rfl, rfl⟩ := gives_pure.mp hs
    refine ⟨hgrows, fun hbelow hst => ?_⟩
    obtain ⟨hst', hss⟩ := hresult hbelow hst
    exact ⟨hst', hS.intersection hss⟩

variable (hN : Node.Closed g N)

include hN

theorem refOf_delivers {n : Nat} {r : TypeRef TypeExpr} (hr : N (.type (.ref r) o))
    (htypes : ∀ t, N (.type t o) → Delivers R S (typeWithin g n t o) S)
    (hmembers : ∀ d args, N (.members d args) → Extending R S P (membersWithin g n d args)) :
    Delivers R S (refOf (typeWithin g n) (membersWithin g n) g r o) S := by
  unfold refOf
  split
  · rename_i b hb
    exact builtin_delivers hS fun t ht => htypes t (hN.part hr (.argument hb ht))
  · rename_i hb
    refine .check fun d hd => .check fun i hi => ?_
    unfold instanceOf
    split
    · exact .fail
    · rename_i d' hd'
      split
      · exact .fail
      · have hbody : N (.members d' i.args) := hN.body hr (.reference hb hd hi) hd'
        have hmem : d' ∈ g.declarations := List.mem_of_find?_eq_some hd'
        exact .getOrCreate (body_delivers hS hmem (hmembers d' i.args hbody)) (hS.reference _)

/-- Whatever a run gives and defines has a property that all ways of building schemas keep. -/
theorem within_delivers (hF : Node.Formats N F) (n : Nat) :
    (∀ t o, N (.type t o) → Delivers R S (typeWithin g n t o) S) ∧
    ∀ d args, N (.members d args) → Extending R S P (membersWithin g n d args) := by
  induction n with
  | zero => exact ⟨fun _ _ _ => .throw, fun _ _ _ _ => .throw⟩
  | succ n ih =>
    obtain ⟨htypes, hmembers⟩ := ih
    refine ⟨fun t o ht => ?_, fun d args hd object => ?_⟩
    · cases t with
      | keyword k =>
        simp only [typeWithin]
        split
        · exact .pure (hS.primitive _)
        · exact .fail
      | literal l => exact .pure (hS.literal l)
      | array t => exact (htypes t o (hN.part ht .element)).map fun s => hS.array
      | union ts => exact unionOf_delivers hS fun t h => htypes t o (hN.part ht (.alternative h))
      | intersection ts =>
        exact intersectionOf_delivers hS ht fun t h => htypes t o (hN.part ht (.constraint h))
      | object shape =>
        exact object_delivers hS (fun p h f hf => hF.property ht h hf)
          (fun p h => htypes _ o (hN.part ht (.property h)))
          fun v h => htypes v o (hN.part ht (.index h))
      | ref r => exact refOf_delivers hS hN ht (fun t h => htypes t o h) hmembers
      | param name => exact .fail
      | unsupported c => exact .fail
    · simp only [membersWithin]
      split
      · rename_i bases shape isClass hk
        exact ownMembers_extending hS
          (fun base hb b i h => hmembers b i.args (hN.part hd (.base hk hb h)))
          (fun p h f hf => hF.ownProperty hd (by rw [Declaration.members, hk]; exact h) hf)
          (fun p h => htypes _ d.origin (hN.part hd (.ownProperty hk h)))
          (fun v h => htypes v d.origin (hN.part hd (.ownIndex hk h))) object
      · intro st o st' h
        obtain ⟨_, _, -, hfail⟩ := gives_bind.mp h
        exact absurd hfail gives_fail

end

section

variable {g : Graph} {n : Nat}

theorem builds_all (g : Graph) (R : Registry) : Builds g (fun _ => True) R fun _ => True := by
  constructor <;> intros <;> trivial

theorem type_delivers (R : Registry) (t : TypeExpr) (o : Origin) :
    Delivers R (fun _ => True) (typeWithin g n t o) fun _ => True :=
  (within_delivers (builds_all g R) ⟨fun _ _ => trivial, fun _ _ _ => trivial⟩
    ⟨fun _ _ _ => trivial, fun _ _ _ => trivial⟩ n).1 t o trivial

theorem members_extend (R : Registry) (d : Declaration) (args : List TypeExpr) :
    Extending R (fun _ => True) (fun _ => True) (membersWithin g n d args) :=
  (within_delivers (builds_all g R) ⟨fun _ _ => trivial, fun _ _ _ => trivial⟩
    ⟨fun _ _ _ => trivial, fun _ _ _ => trivial⟩ n).2 d args trivial

end

end Resolve

end RouteContract

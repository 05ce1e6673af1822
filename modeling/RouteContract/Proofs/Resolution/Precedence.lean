import RouteContract.Proofs.Lists
import RouteContract.Proofs.Resolution.Schemas
import RouteContract.Proofs.Resolution.Termination
import RouteContract.Proofs.Samples
import RouteContract.Proofs.TypeExpr

/-!
# Which version of a property is inherited

The members of a declaration are those of its bases in order, then its own, and
each overwrites what was there under its name. So of all bases that provide a
property the last one prevails, however many steps it takes to the declaration
behind it. Only where no two bases provide the property is that the nearest one.
-/

set_option autoImplicit false

namespace RouteContract

def Declaration.version? (d : Declaration) (name : String) : Option (Property TypeExpr) :=
  d.members.reverse.find? (·.name = name)

def Declaration.typeAt (d : Declaration) (args : List TypeExpr) (p : Property TypeExpr) :
    TypeExpr × Bool :=
  (p.type.substitute (bindingOf d.params args)).stripUndefined

namespace Resolve

section

variable (g : Graph)

inductive Ascends : Nat → Declaration → List TypeExpr → Declaration → List TypeExpr → Prop
  | here {d : Declaration} {args : List TypeExpr} : Ascends 0 d args d args
  | base {n : Nat} {d b e : Declaration} {args args' : List TypeExpr} {base : TypeRef TypeExpr}
      {i : Instance} (hb : base ∈ d.bases) (hext : Extends g d args base b i)
      (h : Ascends n b i.args e args') : Ascends (n + 1) d args e args'

def Provides (name : String) (d : Declaration) (args : List TypeExpr) : Prop :=
  ∃ n e args', Ascends g n d args e args' ∧ (e.version? name).isSome

def NoneProvides (name : String) (d : Declaration) (args : List TypeExpr)
    (bases : List (TypeRef TypeExpr)) : Prop :=
  ∀ base ∈ bases, ∀ b i, Extends g d args base b i → ¬ Provides g name b i.args

/-- The ancestor, so many steps away, whose version of the property is kept. It is the declaration
itself, or else the one that prevails for the last base that provides the property. -/
inductive Prevails (name : String) :
    Nat → Declaration → List TypeExpr → Declaration → List TypeExpr → Prop
  | own {d : Declaration} {args : List TypeExpr} (h : (d.version? name).isSome) :
      Prevails name 0 d args d args
  | base {n : Nat} {d b e : Declaration} {args args' : List TypeExpr}
      {before after : List (TypeRef TypeExpr)} {base : TypeRef TypeExpr} {i : Instance}
      (hown : d.version? name = none) (hbases : d.bases = before ++ base :: after)
      (hext : Extends g d args base b i) (hlast : NoneProvides g name d args after)
      (h : Prevails name n b i.args e args') : Prevails name (n + 1) d args e args'

structure Nearest (name : String) (n : Nat) (d : Declaration) (args : List TypeExpr)
    (e : Declaration) : Prop where
  ascends : ∃ args', Ascends g n d args e args'
  declares : (e.version? name).isSome
  least : ∀ m e' args', Ascends g m d args e' args' → (e'.version? name).isSome →
    n < m ∨ e' = e ∧ n ≤ m

def Undivided (name : String) (d : Declaration) (args : List TypeExpr) : Prop :=
  ∀ n e args', Ascends g n d args e args' → ∀ before base after b i,
    e.bases = before ++ base :: after → Extends g e args' base b i → Provides g name b i.args →
      NoneProvides g name e args' after

structure Depicts (R : Registry) (e : Declaration) (args : List TypeExpr) (p : Property TypeExpr)
    (q : PropertySchema Schema) : Prop where
  schema : ∃ n s st st', Gives (typeWithin g n (e.typeAt args p).1 e.origin) st s st' ∧
    st'.1.Below R ∧ q.schema = p.format.elim s s.applyFormat
  required : q.required = !(p.optional || (e.typeAt args p).2 || p.default.isSome)
  default : q.default = p.default.bind (·.value?)
  description : q.description = p.description

def Kept (R : Registry) (name : String) (d : Declaration) (args : List TypeExpr)
    (table : Entries String (PropertySchema Schema)) : Prop :=
  ∃ n e args' p q, Prevails g name n d args e args' ∧ e.version? name = some p ∧
    table.find? name = some q ∧ Depicts g R e args' p q

end

section

variable {g : Graph} {name : String} {n m : Nat} {d e e' : Declaration}
  {args args' args'' : List TypeExpr}

theorem Extends.unique {base : TypeRef TypeExpr} {b b' : Declaration} {i i' : Instance}
    (h : Extends g d args base b i) (h' : Extends g d args base b' i') : b = b' ∧ i = i' := by
  obtain rfl : b = b' := Except.ok.inj (h.found.symm.trans h'.found)
  exact ⟨rfl, Except.ok.inj (h.instantiated.symm.trans h'.instantiated)⟩

theorem Prevails.ascends (h : Prevails g name n d args e args') : Ascends g n d args e args' := by
  induction h with
  | own => exact .here
  | base _ hbases hext _ _ ih => exact .base (hbases ▸ by simp) hext ih

theorem Prevails.declares (h : Prevails g name n d args e args') : (e.version? name).isSome := by
  induction h with
  | own h => exact h
  | base _ _ _ _ _ ih => exact ih

theorem Prevails.provides (h : Prevails g name n d args e args') : Provides g name d args :=
  ⟨n, e, args', h.ascends, h.declares⟩

/-- A property is provided by the declaration itself or by one of its bases. -/
theorem provides_iff : Provides g name d args ↔
    (d.version? name).isSome ∨ ¬ NoneProvides g name d args d.bases := by
  constructor
  · rintro ⟨n, e, args', h, hown⟩
    cases h with
    | here => exact .inl hown
    | base hb hext h => exact .inr fun hnone => hnone _ hb _ _ hext ⟨_, e, args', h, hown⟩
  · rintro (hown | hbase)
    · exact ⟨0, d, args, .here, hown⟩
    · by_contra hnot
      refine hbase fun base hb b i hext hprovides => hnot ?_
      obtain ⟨n, e, args', h, hown⟩ := hprovides
      exact ⟨n + 1, e, args', .base hb hext h, hown⟩

theorem noneProvides_nil : NoneProvides g name d args [] :=
  fun _ hb => absurd hb List.not_mem_nil

/-- One version prevails at most. -/
theorem Prevails.unique (h : Prevails g name n d args e args')
    (h' : Prevails g name m d args e' args'') : n = m ∧ e = e' ∧ args' = args'' := by
  induction h generalizing m with
  | own hown =>
    cases h' with
    | own => exact ⟨rfl, rfl, rfl⟩
    | base hnone =>
      rw [hnone] at hown
      cases hown
  | base hnone hbases hext hlast hrest ih =>
    cases h' with
    | own hown =>
      rw [hnone] at hown
      cases hown
    | base _ hbases' hext' hlast' hrest' =>
      rcases eq_or_mem_of_split (hbases.symm.trans hbases') with ⟨rfl, rfl⟩ | hmem | hmem
      · obtain ⟨rfl, rfl⟩ := hext.unique hext'
        obtain ⟨rfl, rfl, rfl⟩ := ih hrest'
        exact ⟨rfl, rfl, rfl⟩
      · exact absurd hrest'.provides (hlast _ hmem _ _ hext')
      · exact absurd hrest.provides (hlast' _ hmem _ _ hext)

/-- Where no two bases provide the property, the version that prevails is a nearest one. -/
theorem Prevails.least (h : Prevails g name n d args e args') (hone : Undivided g name d args)
    (hascends : Ascends g m d args e' args'') (hown : (e'.version? name).isSome) : n ≤ m := by
  induction h generalizing m with
  | own => exact Nat.zero_le m
  | @base n d b e args args' before after base i hnone hbases hext hlast hrest ih =>
    cases hascends with
    | here =>
      rw [hnone] at hown
      cases hown
    | @base m _ b' _ _ _ base' i' hb hext' hrest' =>
      have hprovides : Provides g name b' i'.args := ⟨m, e', args'', hrest', hown⟩
      obtain ⟨before', after', hsplit⟩ := List.append_of_mem hb
      have hlast' := hone 0 d args .here _ _ _ _ _ hsplit hext' hprovides
      rcases eq_or_mem_of_split (hbases.symm.trans hsplit) with ⟨rfl, rfl⟩ | hmem | hmem
      · obtain ⟨rfl, rfl⟩ := hext.unique hext'
        have hone' : Undivided g name b i.args := fun k a args₁ ha =>
          hone (k + 1) a args₁ (.base hb hext ha)
        exact Nat.succ_le_succ (ih hone' hrest')
      · exact absurd hprovides (hlast _ hmem _ _ hext')
      · exact absurd hrest.provides (hlast' _ hmem _ _ hext)

/-- The nearest version prevails, or one that more steps lead to. -/
theorem Nearest.prevails_or (h : Nearest g name n d args e)
    (hkept : Prevails g name m d args e' args') :
    (∃ args', Prevails g name n d args e args') ∨ n < m := by
  rcases h.least m e' args' hkept.ascends hkept.declares with hlt | ⟨rfl, hle⟩
  · exact .inr hlt
  · rcases Nat.eq_or_lt_of_le hle with rfl | hlt
    · exact .inl ⟨args', hkept⟩
    · exact .inr hlt

end

section

variable {g : Graph} {R : Registry} {name : String}

theorem gives_property {type : TypeExpr → Origin → Resolve Schema} {p : Property TypeExpr}
    {o : Origin} {st st' : Situation} {q : PropertySchema Schema}
    (h : Gives (property type p o) st q st') : ∃ s,
      Gives (type p.type.stripUndefined.1 o) st s st' ∧ q = {
        schema := p.format.elim s s.applyFormat
        required := !(p.optional || p.type.stripUndefined.2 || p.default.isSome)
        default := p.default.bind (·.value?)
        description := p.description } := by
  obtain ⟨s, st₁, hs, h⟩ := gives_bind.mp h
  obtain ⟨rfl, rfl⟩ := gives_pure.mp h
  refine ⟨s, hs, ?_⟩
  cases p.format with
  | none => rfl
  | some f => rfl

theorem gives_baseMembers {members : Declaration → List TypeExpr → ObjectSchema Schema →
      Resolve (ObjectSchema Schema)} {d : Declaration} {args : List TypeExpr}
    {object object' : ObjectSchema Schema} {base : TypeRef TypeExpr} {st st' : Situation}
    (h : Gives (baseMembers members g d args object base) st object' st') :
    ∃ b i, Extends g d args base b i ∧ Gives (members b i.args object) st object' st' := by
  rw [baseMembers_eq] at h
  split at h
  · exact absurd h gives_fail
  rename_i hbuiltin
  obtain ⟨b, hb, h⟩ := gives_ofExcept_bind.mp h
  split at h
  · exact absurd h gives_fail
  rename_i ho
  obtain ⟨i, hi, h⟩ := gives_ofExcept_bind.mp h
  exact ⟨b, i, ⟨by simpa using hbuiltin, hb, by simpa using ho, hi⟩, h⟩

theorem gives_keyword {k : Keyword} {kind : Primitive} {n : Nat} {o : Origin} {s : Schema}
    {st st' : Situation} (hk : k.primitive? = some kind)
    (h : Gives (typeWithin g n (.keyword k) o) st s st') : s = .primitive kind := by
  cases n with
  | zero => exact absurd h gives_throw
  | succ n =>
    simp only [typeWithin, hk] at h
    exact (gives_pure.mp h).1.symm

theorem properties_below {n : Nat} {o : Origin} {ps : List (Property TypeExpr)}
    {table table' : Entries String (PropertySchema Schema)} {st st' : Situation}
    (h : Gives (properties (typeWithin g n) o table ps) st table' st') : st.1.Below st'.1 :=
  (properties_deliver (builds_all g st'.1) (fun _ _ _ _ => trivial)
    (fun _ _ => type_delivers st'.1 _ o) .implicit _ _ _ h).1.below

/-- The last of some properties of a name is kept, or what the table showed before. -/
theorem properties_keep_last (name : String) {n : Nat} {o : Origin} {ps : List (Property TypeExpr)}
    {table table' : Entries String (PropertySchema Schema)} {st st' : Situation}
    (h : Gives (properties (typeWithin g n) o table ps) st table' st') (hbelow : st'.1.Below R) :
    (ps.reverse.find? (·.name = name) = none ∧ table'.find? name = table.find? name) ∨
    ∃ p q st₁ st₂, ps.reverse.find? (·.name = name) = some p ∧ table'.find? name = some q ∧
      Gives (property (typeWithin g n) p o) st₁ q st₂ ∧ st₂.1.Below R := by
  induction ps generalizing table st with
  | nil =>
    obtain ⟨rfl, -⟩ := gives_pure.mp h
    exact .inl ⟨rfl, rfl⟩
  | cons p ps ih =>
    obtain ⟨q, st₁, hq, h⟩ := gives_bind.mp h
    rw [List.reverse_cons, List.find?_append]
    rcases ih h with ⟨hnone, hsame⟩ | ⟨p', q', st₂, st₃, hp, hrest⟩
    · rw [hnone, Option.none_or, hsame, Entries.find?_insert]
      by_cases hname : p.name = name
      · refine .inr ⟨p, q, st, st₁, by simp [hname], if_pos hname, hq, ?_⟩
        exact Registry.Below.trans (properties_below h) hbelow
      · exact .inl ⟨by simp [hname], if_neg hname⟩
    · exact .inr ⟨p', q', st₂, st₃, by rw [hp, Option.some_or], hrest⟩

def Overwrites (g : Graph) (R : Registry) (name : String) (d : Declaration) (args : List TypeExpr)
    (object object' : ObjectSchema Schema) : Prop :=
  (¬ Provides g name d args ∧
    Entries.find? object'.properties name = Entries.find? object.properties name) ∨
  Kept g R name d args object'.properties

/-- The last base that provides the property is kept, or what the table showed before. -/
theorem bases_keep_last {n : Nat} {d : Declaration} {args : List TypeExpr}
    (hmembers : ∀ {b args object st object' st'},
      Gives (membersWithin g n b args object) st object' st' → st'.1.Below R →
        Overwrites g R name b args object object')
    {bases : List (TypeRef TypeExpr)} {object object' : ObjectSchema Schema} {st st' : Situation}
    (h : Gives (bases.foldlM (baseMembers (membersWithin g n) g d args) object) st object' st')
    (hbelow : st'.1.Below R) :
    (NoneProvides g name d args bases ∧
      Entries.find? object'.properties name = Entries.find? object.properties name) ∨
    ∃ before base after b i, bases = before ++ base :: after ∧ Extends g d args base b i ∧
      NoneProvides g name d args after ∧ Kept g R name b i.args object'.properties := by
  induction bases generalizing object st with
  | nil =>
    obtain ⟨rfl, -⟩ := gives_pure.mp h
    exact .inl ⟨noneProvides_nil, rfl⟩
  | cons base bases ih =>
    rw [List.foldlM_cons] at h
    obtain ⟨object₁, st₁, hfirst, h⟩ := gives_bind.mp h
    have hrest : Delivers R (fun _ => True)
        (bases.foldlM (baseMembers (membersWithin g n) g d args) object₁) _ :=
      .foldlM fun object base _ =>
        baseMembers_extending (fun b i _ => members_extend R b i.args) object
    have hbelow₁ : st₁.1.Below R := Registry.Below.trans (hrest _ _ _ h).1.below hbelow
    obtain ⟨b, i, hext, hfirst⟩ := gives_baseMembers hfirst
    -- The later bases come first: this base counts only if none of them provides the property.
    rcases ih h with ⟨hnone, hsame⟩ | ⟨before, base', after, b', i', rfl, hlater⟩
    · rcases hmembers hfirst hbelow₁ with ⟨hnot, hsame₁⟩ | hkept
      · refine .inl ⟨fun base' hb b' i' hext' => ?_, hsame.trans hsame₁⟩
        rcases List.mem_cons.mp hb with rfl | hb
        · obtain ⟨rfl, rfl⟩ := hext.unique hext'
          exact hnot
        · exact hnone base' hb b' i' hext'
      · obtain ⟨m, e, args', p, q, hprevails, hp, hq, hdepicts⟩ := hkept
        refine .inr ⟨[], base, bases, b, i, rfl, hext, hnone, ?_⟩
        exact ⟨m, e, args', p, q, hprevails, hp, hsame.trans hq, hdepicts⟩
    · exact .inr ⟨base :: before, base', after, b', i', rfl, hlater⟩

theorem find?_substituteProperties (f : String → Option TypeExpr) (ps : List (Property TypeExpr)) :
    (TypeExpr.substituteProperties f ps).reverse.find? (·.name = name) =
      (ps.reverse.find? (·.name = name)).map fun p => { p with type := p.type.substitute f } := by
  rw [TypeExpr.substituteProperties_eq, ← List.map_reverse, List.find?_map]
  rfl

/-- A run over the members goes through the bases, then adds the own properties. -/
theorem gives_members {n : Nat} {d : Declaration} {args : List TypeExpr}
    {object object' : ObjectSchema Schema} {st st' : Situation}
    (h : Gives (membersWithin g (n + 1) d args object) st object' st') :
    ∃ object₁ st₀ st₁ st₂,
      Gives (d.bases.foldlM (baseMembers (membersWithin g n) g d args) object) st₀ object₁ st₁ ∧
      Gives (properties (typeWithin g n) d.origin object₁.properties
        (TypeExpr.substituteProperties (Declaration.bindingOf d.params args) d.members)) st₁
        object'.properties st₂ ∧
      st₁.1.Below st₂.1 ∧ st₂.1.Below st'.1 := by
  unfold membersWithin at h
  split at h
  · rename_i bases shape isClass hk
    rw [Declaration.bases, Declaration.members, hk]
    rw [ownMembers_eq] at h
    obtain ⟨-, st₃, hcollect, rfl⟩ := gives_bracket.mp h
    obtain ⟨object₁, st₁, hfold, hrest⟩ := gives_bind.mp hcollect
    obtain ⟨ps, st₂, hps, hrest⟩ := gives_bind.mp hrest
    obtain ⟨a, st₄, ha, hrest⟩ := gives_bind.mp hrest
    obtain ⟨rfl, rfl⟩ := gives_pure.mp hrest
    have hgrows : st₂.1.Grows st₄.1 := by
      unfold ownAdditional at ha
      split at ha
      · obtain ⟨-, rfl⟩ := gives_pure.mp ha
        exact .refl st₂.1
      · exact (additional_delivers (fun v _ => type_delivers st₂.1 v d.origin) _ _ _ ha).1
    exact ⟨object₁, _, st₁, st₂, hfold, hps, properties_below hps, hgrows.below⟩
  · obtain ⟨ids, st₁, -, h⟩ := gives_bind.mp h
    exact absurd h gives_fail

/-- A run over the members of a declaration leaves the version that prevails, or what was there if
no ancestor has the property. -/
theorem members_overwrite (name : String) (n : Nat) {d : Declaration} {args : List TypeExpr}
    {object object' : ObjectSchema Schema} {st st' : Situation}
    (h : Gives (membersWithin g n d args object) st object' st') (hbelow : st'.1.Below R) :
    Overwrites g R name d args object object' := by
  induction n generalizing d args object object' st st' with
  | zero => exact absurd h gives_throw
  | succ n ih =>
    obtain ⟨object₁, st₀, st₁, st₂, hfold, hps, hbelow₁, hbelow₂⟩ := gives_members h
    replace hbelow₂ : st₂.1.Below R := hbelow₂.trans hbelow
    rcases properties_keep_last name hps hbelow₂ with
      ⟨hnone, hsame⟩ | ⟨p', q, st₅, st₆, hp, hq, hproperty, hbelow₆⟩
    · rw [find?_substituteProperties, Option.map_eq_none_iff] at hnone
      replace hnone : d.version? name = none := hnone
      rcases bases_keep_last ih hfold (hbelow₁.trans hbelow₂) with
        ⟨hbase, hsame₁⟩ | ⟨before, base, after, b, i, hbases, hext, hlast, hkept⟩
      · refine .inl ⟨?_, hsame.trans hsame₁⟩
        rw [provides_iff, hnone]
        simpa using hbase
      · obtain ⟨m, e, args', p, q, hprevails, hp, hq, hdepicts⟩ := hkept
        refine .inr ⟨m + 1, e, args', p, q, .base hnone hbases hext hlast hprevails, hp, ?_,
          hdepicts⟩
        exact hsame.trans hq
    · rw [find?_substituteProperties] at hp
      obtain ⟨p, hown, rfl⟩ := Option.map_eq_some_iff.mp hp
      obtain ⟨s, hs, rfl⟩ := gives_property hproperty
      refine .inr ⟨0, d, args, p, _, .own (Option.isSome_of_eq_some hown), hown, hq, ?_⟩
      exact ⟨⟨n, s, st₅, st₆, hs, hbelow₆, rfl⟩, rfl, rfl, rfl⟩

theorem gives_body_object {members : Declaration → List TypeExpr → ObjectSchema Schema →
      Resolve (ObjectSchema Schema)} {d : Declaration} {args : List TypeExpr} {st st' : Situation}
    {x : Schema × Option String} (hobject : d.isObject) (h : Gives (body members d args) st x st') :
    ∃ object, Gives (members d args .empty) st object st' ∧
      x = (.object object, d.description) := by
  unfold body at h
  split at h
  · obtain ⟨object, st₁, hmembers, h⟩ := gives_bind.mp h
    obtain ⟨rfl, rfl⟩ := gives_pure.mp h
    exact ⟨object, hmembers, rfl⟩
  · rename_i hk
    simp [Declaration.isObject, hk] at hobject
  · rename_i hk
    simp [Declaration.isObject, hk] at hobject

/-- An instance of a free name is registered with the object of its members. -/
theorem registered_object {i : Instance} {d : Declaration} {st st' : Situation} {s : Schema}
    (hd : g.declaration? i.id = some d) (hobject : d.isObject)
    (hfree : st.1.entries.find? i.name = none) {n : Nat}
    (h : Gives (instanceOf (membersWithin g n) g i) st s st') :
    ∃ object st₁ st₂, Gives (membersWithin g n d i.args .empty) st₁ object st₂ ∧
      st₂.1.Below st'.1 ∧
      st'.1.entries.find? i.name = some ⟨i, .defined (.object object) d.description⟩ := by
  have hname : TypeExpr.canonicalName d.id.name i.args = i.name := by
    rw [Graph.declaration?_id hd]
    rfl
  simp only [instanceOf, hd, hname] at h
  split at h
  · exact absurd h gives_fail
  obtain ⟨-, ⟨hr, -⟩ | ⟨r, schema, description, st₁, hr, hbody, rfl⟩⟩ := gives_getOrCreate.mp h
  · obtain ⟨e, he, -⟩ := Registry.reserve_eq_existing.mp hr
    rw [hfree] at he
    cases he
  · obtain ⟨-, rfl⟩ := Registry.reserve_eq_fresh.mp hr
    obtain ⟨object, hmembers, he⟩ := gives_body_object hobject hbody
    cases he
    have hgrows := (members_extend st₁.1 d i.args _ _ _ _ hmembers).1
    have hpending : st₁.1.entries.find? i.name = some ⟨i, .pending⟩ :=
      hgrows.keep (by rw [Registry.claim_find? hfree, if_pos rfl])
    exact ⟨object, _, st₁, hmembers, Registry.define_below hpending,
      by rw [Registry.define_find? hpending, if_pos rfl]⟩

end

end Resolve

open Resolve in
/-- What an object declaration is resolved to, in any situation that leaves its name free, has the
properties of the declaration and its ancestors and no others, and of each the version that
prevails. That is a nearest one, or more steps lead to it; where no ancestor has two bases that
provide the property it is a nearest one. -/
theorem Graph.inherited_properties {g : Graph} {k : Nat} {i : Instance} {d : Declaration}
    {st st' : Situation} {s : Schema} (hd : g.declaration? i.id = some d) (hobject : d.isObject)
    (hfree : st.1.entries.find? i.name = none)
    (h : Gives (instanceOf (membersWithin g k) g i) st s st') :
    ∃ object, st'.1.entries.find? i.name = some ⟨i, .defined (.object object) d.description⟩ ∧
      ∀ name, (name ∈ Entries.keys object.properties ↔ Provides g name d i.args) ∧
        (Provides g name d i.args → ∃ n e args, Prevails g name n d i.args e args) ∧
        (∀ n e args, Prevails g name n d i.args e args →
          ∃ p q, e.version? name = some p ∧ Entries.find? object.properties name = some q ∧
            Depicts g st'.1 e args p q) ∧
        ∀ n e, Nearest g name n d i.args e →
          ((∃ args, Prevails g name n d i.args e args) ∨
            ∃ m e' args, n < m ∧ Prevails g name m d i.args e' args) ∧
          (Undivided g name d i.args → ∃ args, Prevails g name n d i.args e args) := by
  obtain ⟨object, st₁, st₂, hmembers, hbelow, hentry⟩ := registered_object hd hobject hfree h
  refine ⟨object, hentry, fun name => ?_⟩
  have hoverwrites : Overwrites g st'.1 name d i.args .empty object :=
    members_overwrite name k hmembers hbelow
  have hkept : Provides g name d i.args → Kept g st'.1 name d i.args object.properties :=
    fun hprovides => hoverwrites.resolve_left fun hnot => hnot.1 hprovides
  refine ⟨?_, fun hprovides => ?_, fun n e args hprevails => ?_, fun n e hnearest => ?_⟩
  · rw [← Entries.find?_isSome_iff]
    rcases hoverwrites with ⟨hnot, hnone⟩ | ⟨n, e, args, p, q, hprevails, -, hq, -⟩
    · simp [hnot, hnone, ObjectSchema.empty]
    · simp [hprevails.provides, hq]
  · obtain ⟨n, e, args, p, q, hprevails, -⟩ := hkept hprovides
    exact ⟨n, e, args, hprevails⟩
  · obtain ⟨m, e', args', p, q, hprevails', hp, hq, hdepicts⟩ := hkept hprevails.provides
    obtain ⟨-, rfl, rfl⟩ := hprevails.unique hprevails'
    exact ⟨p, q, hp, hq, hdepicts⟩
  · obtain ⟨args', hascends⟩ := hnearest.ascends
    obtain ⟨m, e', args₁, p, q, hprevails, -⟩ := hkept ⟨n, e, args', hascends, hnearest.declares⟩
    have hnear := hnearest.prevails_or hprevails
    refine ⟨hnear.imp id fun hlt => ⟨m, e', args₁, hlt, hprevails⟩, fun hone => ?_⟩
    have hle : m ≤ n := hprevails.least hone hascends hnearest.declares
    exact hnear.resolve_right (Nat.not_lt.mpr hle)

namespace Sample

open Resolve

def numbered : Declaration := interface "A" [] [property "p" (.keyword .number)]

def texted : Declaration := interface "B" [] [property "p" (.keyword .string)]

def passing : Declaration := interface "C" ["A"] []

def sided : Declaration := interface "D" ["B", "C"] []

def lopsided : Graph := ⟨[numbered, texted, passing, sided], []⟩

theorem sided_extends_texted : Extends lopsided sided [] ⟨"B", none, []⟩ texted ⟨texted.id, []⟩ :=
  ⟨rfl, rfl, rfl, rfl⟩

theorem sided_extends_passing :
    Extends lopsided sided [] ⟨"C", none, []⟩ passing ⟨passing.id, []⟩ :=
  ⟨rfl, rfl, rfl, rfl⟩

theorem passing_extends : Extends lopsided passing [] ⟨"A", none, []⟩ numbered ⟨numbered.id, []⟩ :=
  ⟨rfl, rfl, rfl, rfl⟩

theorem sided_nearest : Nearest lopsided "p" 1 sided [] texted where
  ascends := ⟨[], .base List.mem_cons_self sided_extends_texted .here⟩
  declares := rfl
  least := by
    intro m e args h hown
    cases h with
    | here => cases hown
    | @base m _ b _ _ _ base i hb hext hrest =>
      have hbases : base = ⟨"B", none, []⟩ ∨ base = ⟨"C", none, []⟩ := by
        simpa [sided, interface, Declaration.bases] using hb
      rcases hbases with rfl | rfl
      · obtain ⟨rfl, rfl⟩ := hext.unique sided_extends_texted
        cases hrest with
        | here => exact .inr ⟨rfl, Nat.le_refl 1⟩
        | base hb => cases hb
      · obtain ⟨rfl, rfl⟩ := hext.unique sided_extends_passing
        cases hrest with
        | here => cases hown
        | base => exact .inl (by omega)

theorem sided_prevails : Prevails lopsided "p" 2 sided [] numbered [] := by
  have hbases : sided.bases = [⟨"B", none, []⟩] ++ ⟨"C", none, []⟩ :: [] := rfl
  have hpassing : passing.bases = [] ++ ⟨"A", none, []⟩ :: [] := rfl
  refine .base rfl hbases sided_extends_passing noneProvides_nil ?_
  exact .base rfl hpassing passing_extends noneProvides_nil (.own rfl)

theorem lopsided_resolves :
    ∃ s st, Gives (lopsided.resolveInstance ⟨sided.id, []⟩) (.empty, []) s st :=
  exists_gives (by decide +kernel)

theorem depicts_keyword {g : Graph} {R : Registry} {e : Declaration} {args : List TypeExpr}
    {name : String} {k : Keyword} {kind : Primitive} {q : PropertySchema Schema}
    (hk : k.primitive? = some kind)
    (h : Depicts g R e args (property name (.keyword k)) q) : q.schema = .primitive kind := by
  obtain ⟨n, s, st, st', hs, -, hq⟩ := h.schema
  rw [hq]
  exact gives_keyword hk hs

/-- The nearest version of the property is a string, and a number is kept. -/
theorem lopsided_farther : ∃ s st object q,
    Gives (lopsided.resolveInstance ⟨sided.id, []⟩) (.empty, []) s st ∧
    st.1.entries.find? "D" = some ⟨⟨sided.id, []⟩, .defined (.object object) none⟩ ∧
    Nearest lopsided "p" 1 sided [] texted ∧
    Entries.find? object.properties "p" = some q ∧ q.schema = .primitive .number ∧
    ∀ args p, texted.version? "p" = some p → ¬ Depicts lopsided st.1 texted args p q := by
  obtain ⟨s, st, h⟩ := lopsided_resolves
  obtain ⟨k, hk⟩ := Graph.exists_gives_instanceOf h
  obtain ⟨object, st₁, st₂, hmembers, hbelow, hentry⟩ :=
    registered_object (g := lopsided) (i := ⟨sided.id, []⟩) rfl rfl rfl hk
  rcases members_overwrite "p" k hmembers hbelow with
    ⟨hnot, -⟩ | ⟨n, e, args, p, q, hprevails, hp, hq, hdepicts⟩
  · exact absurd sided_prevails.provides hnot
  · obtain ⟨-, rfl, -⟩ := hprevails.unique sided_prevails
    cases hp
    have hnumber : q.schema = .primitive .number := depicts_keyword rfl hdepicts
    refine ⟨s, st, object, q, h, hentry, sided_nearest, hq, hnumber, fun args p hp hstring => ?_⟩
    cases hp
    rw [depicts_keyword rfl hstring] at hnumber
    cases hnumber

/-- The version that prevails is two steps away. -/
theorem sided_inherits : ∃ s st object q,
    Gives (lopsided.resolveInstance ⟨sided.id, []⟩) (.empty, []) s st ∧
    st.1.entries.find? "D" = some ⟨⟨sided.id, []⟩, .defined (.object object) none⟩ ∧
    "p" ∈ Entries.keys object.properties ∧ Entries.find? object.properties "p" = some q ∧
    Depicts lopsided st.1 numbered [] (property "p" (.keyword .number)) q := by
  obtain ⟨s, st, h⟩ := lopsided_resolves
  obtain ⟨k, hk⟩ := Graph.exists_gives_instanceOf h
  obtain ⟨object, hentry, hall⟩ :=
    Graph.inherited_properties (g := lopsided) (i := ⟨sided.id, []⟩) rfl rfl rfl hk
  obtain ⟨hkeys, -, hkept, -⟩ := hall "p"
  obtain ⟨p, q, hp, hq, hdepicts⟩ := hkept 2 numbered [] sided_prevails
  cases hp
  exact ⟨s, st, object, q, h, hentry, hkeys.mpr sided_prevails.provides, hq, hdepicts⟩

end Sample

end RouteContract

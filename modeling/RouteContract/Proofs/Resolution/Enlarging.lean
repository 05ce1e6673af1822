import RouteContract.Proofs.Resolution.Termination

/-!
# Resolution beside a further declaration

A graph with one more declaration finds under every identity what it found
before. Only a name without a module may now be that of two declarations. So a
run that gives a result gives the same result in the larger graph, and leaves the
same registry, or it stops at a name that has become ambiguous. The larger graph
also grants more nested steps; these do not matter.
-/

set_option autoImplicit false

namespace RouteContract

namespace Graph

def withDeclaration (g : Graph) (d : Declaration) : Graph :=
  { g with declarations := g.declarations ++ [d] }

theorem addDeclaration_eq_ok {g g' : Graph} {d : Declaration} :
    g.addDeclaration d = .ok g' ↔ g.declaration? d.id = none ∧ g' = g.withDeclaration d := by
  unfold addDeclaration
  cases g.declaration? d.id with
  | none => simp [withDeclaration, eq_comm]
  | some first => simp

inductive Blurs (g : Graph) (d : Declaration) : Fault → Prop
  | ambiguous {e : Declaration} (h : g.named d.id.name = [e]) (place : Location) :
      Blurs g d (.ambiguous d.id.name [e.id.text, d.id.text] place)

variable {g : Graph} {d e : Declaration}

theorem declaration?_withDeclaration {id : DeclId} (h : g.declaration? id = some e) :
    (g.withDeclaration d).declaration? id = some e := by
  unfold declaration? at h
  simp [declaration?, withDeclaration, List.find?_append, h]

theorem named_withDeclaration (name : String) : (g.withDeclaration d).named name =
    g.named name ++ if d.id.name = name then [d] else [] := by
  by_cases h : d.id.name = name <;> simp [named, withDeclaration, h]

end Graph

def Survives (P : Fault → Prop) {α : Type} (x y : Except Fault α) : Prop :=
  ∀ a, x = .ok a → y = .ok a ∨ ∃ f, P f ∧ y = .error f

namespace Survives

variable {P : Fault → Prop} {α β : Type}

theorem refl (x : Except Fault α) : Survives P x x := fun _ h => .inl h

theorem error {f : Fault} {y : Except Fault α} : Survives P (.error f) y := fun _ h => by cases h

theorem bind {x y : Except Fault α} {f f' : α → Except Fault β} (h : Survives P x y)
    (hf : ∀ a, Survives P (f a) (f' a)) : Survives P (x >>= f) (y >>= f') := by
  intro b hb
  cases x with
  | error e => cases hb
  | ok a =>
    rcases h a rfl with rfl | ⟨e, he, rfl⟩
    · exact hf a b hb
    · exact .inr ⟨e, he, rfl⟩

end Survives

section

variable (g : Graph) (d : Declaration)

theorem Graph.lookup_survives (r : TypeRef TypeExpr) (o : Origin) :
    Survives (g.Blurs d) (g.lookup r o) ((g.withDeclaration d).lookup r o) := by
  intro e h
  unfold lookup at h ⊢
  cases hm : r.module with
  | some module =>
    simp only [hm] at h ⊢
    cases he : g.declaration? ⟨module, r.name⟩ with
    | none =>
      rw [he] at h
      cases h
    | some e' =>
      rw [he] at h
      cases h
      rw [declaration?_withDeclaration he]
      exact .inl rfl
  | none =>
    simp only [hm] at h ⊢
    rw [named_withDeclaration]
    -- Only a name of one declaration gives a result in the smaller graph.
    split at h
    · cases h
    · rename_i e' he
      cases h
      by_cases hname : d.id.name = r.name
      · rw [he, if_pos hname, ← hname]
        exact .inr ⟨_, .ambiguous (hname ▸ he) o.location, rfl⟩
      · rw [he, if_neg hname]
        exact .inl rfl
    · cases h

mutual

theorem Graph.normalize_survives (o : Origin) : (t : TypeExpr) →
    Survives (g.Blurs d) (g.normalize o t) ((g.withDeclaration d).normalize o t)
  | .ref ⟨name, module, args⟩ => by
    unfold normalize
    refine (normalizeAll_survives o args).bind fun args => ?_
    split
    · exact .refl _
    · split
      · exact .refl _
      · exact (g.lookup_survives d _ o).bind fun _ => .refl _
  | .array t => by
    unfold normalize
    exact (normalize_survives o t).bind fun _ => .refl _
  | .union ts => by
    unfold normalize
    exact (normalizeAll_survives o ts).bind fun _ => .refl _
  | .intersection ts => by
    unfold normalize
    exact (normalizeAll_survives o ts).bind fun _ => .refl _
  | .param _ => by
    unfold normalize
    exact .error
  | .keyword _ => by
    unfold normalize
    exact .refl _
  | .literal _ => by
    unfold normalize
    exact .refl _
  | .object _ => by
    unfold normalize
    exact .refl _
  | .unsupported _ => by
    unfold normalize
    exact .refl _

theorem Graph.normalizeAll_survives (o : Origin) : (ts : List TypeExpr) →
    Survives (g.Blurs d) (g.normalizeAll o ts) ((g.withDeclaration d).normalizeAll o ts)
  | [] => by
    unfold normalizeAll
    exact .refl _
  | t :: ts => by
    unfold normalizeAll
    exact (normalize_survives o t).bind fun _ => (normalizeAll_survives o ts).bind fun _ => .refl _

end

theorem Declaration.completeArgs_survives (b : Declaration) (written : List TypeExpr) (o : Origin)
    (earlier : List TypeParam) (concrete : List TypeExpr) (rest : List TypeParam) :
    Survives (g.Blurs d) (b.completeArgs g written o earlier concrete rest)
      (b.completeArgs (g.withDeclaration d) written o earlier concrete rest) := by
  induction rest generalizing earlier concrete with
  | nil => exact .refl _
  | cons p rest ih =>
    have hrest (arg : TypeExpr) : Survives (g.Blurs d)
        (g.normalize o arg >>= fun arg =>
          b.completeArgs g written o (earlier ++ [p]) (concrete ++ [arg]) rest)
        ((g.withDeclaration d).normalize o arg >>= fun arg =>
          b.completeArgs (g.withDeclaration d) written o (earlier ++ [p]) (concrete ++ [arg])
            rest) :=
      (g.normalize_survives d o arg).bind fun _ => ih _ _
    unfold completeArgs
    dsimp only
    split
    · exact hrest _
    · exact hrest _
    · exact .error

theorem Declaration.instantiate_survives (b : Declaration) (written : List TypeExpr) (o : Origin) :
    Survives (g.Blurs d) (b.instantiate g written o)
      (b.instantiate (g.withDeclaration d) written o) := by
  unfold instantiate
  split
  · exact .error
  · exact (completeArgs_survives g d b written o [] [] b.params).bind fun _ => .refl _

end

namespace Resolve

def Persists (P : Fault → Prop) {α : Type} (m₁ m₂ : Resolve α) : Prop :=
  ∀ st a st', Gives m₁ st a st' → Gives m₂ st a st' ∨ ∃ f, P f ∧ Fails m₂ st (.fault f)

namespace Persists

variable {P : Fault → Prop} {α β : Type}

theorem refl (m : Resolve α) : Persists P m m := fun _ _ _ h => .inl h

theorem fail {f : Fault} {m : Resolve α} : Persists P (Resolve.fail f) m :=
  fun _ _ _ h => absurd h gives_fail

theorem cut {m : Resolve α} : Persists P (throw .exhausted) m :=
  fun _ _ _ h => absurd h gives_throw

theorem ofExcept {x y : Except Fault α} (h : Survives P x y) :
    Persists P (Resolve.ofExcept x) (Resolve.ofExcept y) := by
  intro st a st' hx
  obtain ⟨hok, rfl⟩ := gives_ofExcept.mp hx
  rcases h a hok with hy | ⟨f, hf, hy⟩
  · exact .inl (gives_ofExcept.mpr ⟨hy, rfl⟩)
  · exact .inr ⟨f, hf, fails_ofExcept.mpr ⟨f, hy, rfl⟩⟩

theorem bind {m₁ m₂ : Resolve α} {f₁ f₂ : α → Resolve β} (hm : Persists P m₁ m₂)
    (hf : ∀ a, Persists P (f₁ a) (f₂ a)) : Persists P (m₁ >>= f₁) (m₂ >>= f₂) := by
  intro st b st' h
  obtain ⟨a, st₁, ha, hb⟩ := gives_bind.mp h
  rcases hm st a st₁ ha with ha | ⟨f, hP, hfail⟩
  · rcases hf a st₁ b st' hb with hb | ⟨f, hP, hfail⟩
    · exact .inl (gives_bind.mpr ⟨a, st₁, ha, hb⟩)
    · exact .inr ⟨f, hP, fails_bind.mpr (.inr ⟨a, st₁, ha, hfail⟩)⟩
  · exact .inr ⟨f, hP, fails_bind.mpr (.inl hfail)⟩

/-- A part whose result is only passed on. -/
theorem map {m₁ m₂ : Resolve α} (hm : Persists P m₁ m₂) (f : α → β) :
    Persists P (m₁ >>= fun a => return f a) (m₂ >>= fun a => return f a) :=
  hm.bind fun _ => .refl _

theorem foldlM {f₁ f₂ : β → α → Resolve β} (h : ∀ b x, Persists P (f₁ b x) (f₂ b x)) (xs : List α)
    (b : β) : Persists P (xs.foldlM f₁ b) (xs.foldlM f₂ b) := by
  induction xs generalizing b with
  | nil => exact .refl _
  | cons x xs ih => exact (h b x).bind ih

theorem bracket {id : DeclId} {m₁ m₂ : Resolve α} (hm : Persists P m₁ m₂) :
    Persists P (Resolve.bracket id m₁) (Resolve.bracket id m₂) := by
  intro st a st' h
  obtain ⟨hid, st₁, hgives, rfl⟩ := gives_bracket.mp h
  rcases hm _ a st₁ hgives with hgives | ⟨f, hP, hfail⟩
  · exact .inl (gives_bracket.mpr ⟨hid, st₁, hgives, rfl⟩)
  · exact .inr ⟨f, hP, fails_bracket.mpr (.inr ⟨hid, hfail⟩)⟩

/-- The name is claimed alike, as both runs start from one registry. -/
theorem register {name : String} {i : Instance} {m₁ m₂ : Resolve (Schema × Option String)}
    (hm : Persists P m₁ m₂) : Persists P (Registry.getOrCreate .fault name i m₁)
      (Registry.getOrCreate .fault name i m₂) := by
  intro st s st' h
  obtain ⟨rfl, hexisting | ⟨r, schema, description, st₁, hr, hgives, rfl⟩⟩ :=
    gives_getOrCreate.mp h
  · exact .inl (gives_getOrCreate.mpr ⟨rfl, .inl hexisting⟩)
  · rcases hm _ _ st₁ hgives with hgives | ⟨f, hP, hfail⟩
    · exact .inl (gives_getOrCreate.mpr
        ⟨rfl, .inr ⟨r, schema, description, st₁, hr, hgives, rfl⟩⟩)
    · exact .inr ⟨f, hP, fails_getOrCreate.mpr (.inr ⟨r, hr, hfail⟩)⟩

end Persists

section

variable {P : Fault → Prop} {type₁ type₂ : TypeExpr → Origin → Resolve Schema}
  (htype : ∀ t o, Persists P (type₁ t o) (type₂ t o))

include htype

theorem property_persists (p : Property TypeExpr) (o : Origin) :
    Persists P (property type₁ p o) (property type₂ p o) := (htype _ o).map _

theorem properties_persist (o : Origin) (table : Entries String (PropertySchema Schema))
    (ps : List (Property TypeExpr)) :
    Persists P (properties type₁ o table ps) (properties type₂ o table ps) := by
  rw [properties_eq_foldlM, properties_eq_foldlM]
  exact .foldlM (fun table p => (property_persists htype p o).map _) ps table

theorem additional_persists (index : List (IndexSignature TypeExpr)) (o : Origin) :
    Persists P (additional type₁ index o) (additional type₂ index o) := by
  unfold additional
  split
  · exact .refl _
  · split
    · exact .fail
    · split
      · exact .refl _
      · exact .refl _
      · exact (htype _ o).map _
  · exact .fail

theorem all_persists (o : Origin) (ts : List TypeExpr) :
    Persists P (all type₁ o ts) (all type₂ o ts) := by
  induction ts with
  | nil => exact .refl _
  | cons t ts ih => exact (htype t o).bind fun _ => ih.map _

theorem builtin_persists (b : Builtin) (r : TypeRef TypeExpr) (o : Origin) :
    Persists P (builtin type₁ b r o) (builtin type₂ b r o) := by
  cases b with
  | primitive kind => exact .refl _
  | array => exact (Persists.refl _).bind fun _ => (htype _ o).map _
  | promise => exact (Persists.refl _).bind fun _ => htype _ o
  | record => exact (Persists.refl _).bind fun _ => (additional_persists htype _ o).map _
  | unsupported => exact .fail

end

section

variable (g : Graph) (d : Declaration) {type₁ type₂ : TypeExpr → Origin → Resolve Schema}
  (htype : ∀ t o, Persists (g.Blurs d) (type₁ t o) (type₂ t o))
  {members₁ members₂ : Declaration → List TypeExpr → ObjectSchema Schema →
    Resolve (ObjectSchema Schema)}
  (hmembers : ∀ b args object,
    Persists (g.Blurs d) (members₁ b args object) (members₂ b args object))

include hmembers

theorem body_persists (b : Declaration) (args : List TypeExpr) :
    Persists (g.Blurs d) (body members₁ b args) (body members₂ b args) := by
  unfold body
  split
  · exact (hmembers b args .empty).map _
  · exact .refl _
  · exact .refl _

theorem instanceOf_persists (i : Instance) : Persists (g.Blurs d) (instanceOf members₁ g i)
    (instanceOf members₂ (g.withDeclaration d) i) := by
  unfold instanceOf
  cases hb : g.declaration? i.id with
  | none => exact .fail
  | some b =>
    rw [Graph.declaration?_withDeclaration hb]
    dsimp only
    split
    · exact .fail
    · exact .register (body_persists g d hmembers b i.args)

theorem baseMembers_persists (b : Declaration) (args : List TypeExpr)
    (object : ObjectSchema Schema) (base : TypeRef TypeExpr) :
    Persists (g.Blurs d) (baseMembers members₁ g b args object base)
      (baseMembers members₂ (g.withDeclaration d) b args object base) := by
  rw [baseMembers_eq, baseMembers_eq]
  split
  · exact .fail
  · refine (Persists.ofExcept (g.lookup_survives d base b.origin)).bind fun b' => ?_
    split
    · exact .fail
    · exact (Persists.ofExcept (Declaration.instantiate_survives g d b' _ b.origin)).bind fun i =>
        hmembers b' i.args object

include htype

theorem refOf_persists (r : TypeRef TypeExpr) (o : Origin) :
    Persists (g.Blurs d) (refOf type₁ members₁ g r o)
      (refOf type₂ members₂ (g.withDeclaration d) r o) := by
  unfold refOf
  split
  · exact builtin_persists htype _ r o
  · exact (Persists.ofExcept (g.lookup_survives d r o)).bind fun b =>
      (Persists.ofExcept (Declaration.instantiate_survives g d b r.args o)).bind fun i =>
        instanceOf_persists g d hmembers i

theorem ownMembers_persist (b : Declaration) (bases : List (TypeRef TypeExpr))
    (shape : Shape TypeExpr) (args : List TypeExpr) (object : ObjectSchema Schema) :
    Persists (g.Blurs d) (ownMembers type₁ members₁ g b bases shape args object)
      (ownMembers type₂ members₂ (g.withDeclaration d) b bases shape args object) := by
  have hadditional : ∀ a : Additional Schema, Persists (g.Blurs d)
      (ownAdditional type₁ b shape args a) (ownAdditional type₂ b shape args a) := by
    intro a
    unfold ownAdditional
    split
    · exact .refl _
    · exact additional_persists htype _ b.origin
  rw [ownMembers_eq, ownMembers_eq]
  apply Persists.bracket
  unfold collect
  refine (Persists.foldlM (baseMembers_persists g d hmembers b args) bases object).bind ?_
  exact fun object => (properties_persist htype b.origin _ _).bind fun ps =>
    (hadditional object.additional).map _

end

/-- Within so many steps, resolution goes on in the larger graph as it went in the smaller one. -/
theorem within_persists (g : Graph) (d : Declaration) (n : Nat) :
    (∀ t o, Persists (g.Blurs d) (typeWithin g n t o) (typeWithin (g.withDeclaration d) n t o)) ∧
      ∀ b args object, Persists (g.Blurs d) (membersWithin g n b args object)
        (membersWithin (g.withDeclaration d) n b args object) := by
  induction n with
  | zero => exact ⟨fun _ _ => .cut, fun _ _ _ => .cut⟩
  | succ n ih =>
    obtain ⟨htype, hmembers⟩ := ih
    refine ⟨fun t o => ?_, fun b args object => ?_⟩
    · cases t with
      | keyword k => exact .refl _
      | literal l => exact .refl _
      | array t => exact (htype t o).map _
      | union ts => exact (all_persists htype o _).map _
      | intersection ts => exact (all_persists htype o ts).bind fun _ => .refl _
      | object shape =>
        exact (properties_persist htype o [] shape.properties).bind fun _ =>
          (additional_persists htype shape.index o).map _
      | ref r => exact refOf_persists g d htype hmembers r o
      | param name => exact .fail
      | unsupported c => exact .fail
    · simp only [membersWithin]
      split
      · exact ownMembers_persist g d htype hmembers b _ _ args object
      · exact .refl _

end Resolve

open Resolve (Persists)

theorem Graph.resolveType_persists (g : Graph) (d : Declaration) (t : TypeExpr) (o : Origin) :
    Persists (g.Blurs d) (g.resolveType t o) ((g.withDeclaration d).resolveType t o) := by
  obtain ⟨n, hn⟩ := g.exists_resolveType_eq t o
  obtain ⟨m, hm⟩ := (g.withDeclaration d).exists_resolveType_eq t o
  rw [hn (max n m) (Nat.le_max_left n m), hm (max n m) (Nat.le_max_right n m)]
  exact (Resolve.within_persists g d (max n m)).1 t o

theorem Graph.resolveProperty_persists (g : Graph) (d : Declaration) (p : Property TypeExpr)
    (o : Origin) : Persists (g.Blurs d) (g.resolveProperty p o)
      ((g.withDeclaration d).resolveProperty p o) :=
  Resolve.property_persists (g.resolveType_persists d) p o

end RouteContract

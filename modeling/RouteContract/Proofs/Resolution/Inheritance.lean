import RouteContract.Proofs.Resolution.Looping

/-!
# When inheritance seems to be a cycle

Resolution asks for nested types and for the members of other declarations, one
after the other. It reports an inheritance cycle exactly when the members of a
declaration are asked for while they are still being collected, whether a base
asks for them or the type of a property does.
-/

set_option autoImplicit false

namespace RouteContract.Resolve

inductive Task where
  | type (t : TypeExpr) (o : Origin)
  | members (d : Declaration) (args : List TypeExpr) (object : ObjectSchema Schema)

namespace Task

def Fails (g : Graph) (n : Nat) (st : Situation) (e : Stop) : Task → Prop
  | type t o => Resolve.Fails (typeWithin g n t o) st e
  | members d args object => Resolve.Fails (membersWithin g n d args object) st e

def collected : Task → List DeclId
  | type .. => []
  | members d .. => [d.id]

end Task

inductive Calls (g : Graph) (n : Nat) : Task → Situation → Task → Situation → Prop
  | element {t : TypeExpr} {o : Origin} {st : Situation} :
      Calls g n (.type (.array t) o) st (.type t o) st
  | alternative {ts before after : List TypeExpr} {t : TypeExpr} {o : Origin} {ss : List Schema}
      {st st' : Situation} (ht : ts.filter (!·.isUndefined) = before ++ t :: after)
      (hb : Gives (all (typeWithin g n) o before) st ss st') :
      Calls g n (.type (.union ts) o) st (.type t o) st'
  | constraint {before after : List TypeExpr} {t : TypeExpr} {o : Origin} {ss : List Schema}
      {st st' : Situation} (hb : Gives (all (typeWithin g n) o before) st ss st') :
      Calls g n (.type (.intersection (before ++ t :: after)) o) st (.type t o) st'
  | property {shape : Shape TypeExpr} {before after : List (Property TypeExpr)}
      {p : Property TypeExpr} {o : Origin} {table : Entries String (PropertySchema Schema)}
      {st st' : Situation} (hp : shape.properties = before ++ p :: after)
      (hb : Gives (properties (typeWithin g n) o [] before) st table st') :
      Calls g n (.type (.object shape) o) st (.type p.type.stripUndefined.1 o) st'
  | index {shape : Shape TypeExpr} {v : TypeExpr} {o : Origin}
      {table : Entries String (PropertySchema Schema)} {st st' : Situation}
      (hb : Gives (properties (typeWithin g n) o [] shape.properties) st table st')
      (hv : IndexValue shape.index v) : Calls g n (.type (.object shape) o) st (.type v o) st'
  | argument {r : TypeRef TypeExpr} {b : Builtin} {t : TypeExpr} {o : Origin} {st : Situation}
      (hr : r.builtin? = some b) (ht : BuiltinArgument r b t) :
      Calls g n (.type (.ref r) o) st (.type t o) st
  | registration {r : TypeRef TypeExpr} {o : Origin} {st : Situation} {named d : Declaration}
      {i : Instance} {r' : Registry} (hr : r.builtin? = none) (hl : g.lookup r o = .ok named)
      (hi : named.instantiate g r.args o = .ok i) (hd : Registers g i st.1 d r') :
      Calls g n (.type (.ref r) o) st (.members d i.args .empty) (r', st.2)
  | base {d b : Declaration} {bases before after : List (TypeRef TypeExpr)}
      {base : TypeRef TypeExpr} {shape : Shape TypeExpr} {isClass : Bool} {args : List TypeExpr}
      {object object' : ObjectSchema Schema} {st st' : Situation} {i : Instance}
      (hd : d.kind = .object bases shape isClass) (hnew : d.id ∉ st.2)
      (hbases : bases = before ++ base :: after)
      (hb : Gives (before.foldlM (baseMembers (membersWithin g n) g d args) object)
        (st.1, st.2 ++ [d.id]) object' st') (hbase : Extends g d args base b i) :
      Calls g n (.members d args object) st (.members b i.args object') st'
  | ownProperty {d : Declaration} {bases : List (TypeRef TypeExpr)} {shape : Shape TypeExpr}
      {isClass : Bool} {args : List TypeExpr} {object object' : ObjectSchema Schema}
      {before after : List (Property TypeExpr)} {p : Property TypeExpr}
      {table : Entries String (PropertySchema Schema)} {st st' st'' : Situation}
      (hd : d.kind = .object bases shape isClass) (hnew : d.id ∉ st.2)
      (hb : Gives (bases.foldlM (baseMembers (membersWithin g n) g d args) object)
        (st.1, st.2 ++ [d.id]) object' st')
      (hp : TypeExpr.substituteProperties (Declaration.bindingOf d.params args) shape.properties =
        before ++ p :: after)
      (hps : Gives (properties (typeWithin g n) d.origin object'.properties before) st' table st'') :
      Calls g n (.members d args object) st (.type p.type.stripUndefined.1 d.origin) st''
  | ownIndex {d : Declaration} {bases : List (TypeRef TypeExpr)} {shape : Shape TypeExpr}
      {isClass : Bool} {args : List TypeExpr} {object object' : ObjectSchema Schema}
      {v : TypeExpr} {table : Entries String (PropertySchema Schema)} {st st' st'' : Situation}
      (hd : d.kind = .object bases shape isClass) (hnew : d.id ∉ st.2)
      (hb : Gives (bases.foldlM (baseMembers (membersWithin g n) g d args) object)
        (st.1, st.2 ++ [d.id]) object' st')
      (hps : Gives (properties (typeWithin g n) d.origin object'.properties
        (TypeExpr.substituteProperties (Declaration.bindingOf d.params args) shape.properties))
        st' table st'')
      (hv : IndexValue (TypeExpr.substituteIndex (Declaration.bindingOf d.params args)
        shape.index) v) :
      Calls g n (.members d args object) st (.type v d.origin) st''

def Repeats (st : Situation) (e : Stop) : Task → Prop
  | .type .. => False
  | .members d _ _ =>
    d.isObject ∧ d.id ∈ st.2 ∧ .looping ((st.2 ++ [d.id]).map DeclId.text) = e

section

variable {g : Graph} {n : Nat} {st : Situation} {e : Stop}

theorem ref_fails (he : e.Foreign) (r : TypeRef TypeExpr) (o : Origin) :
    Fails (typeWithin g (n + 1) (.ref r) o) st e ↔ ∃ task st',
      Calls g n (.type (.ref r) o) st task st' ∧ task.Fails g n st' e := by
  show Fails (refOf (typeWithin g n) (membersWithin g n) g r o) st _ ↔ _
  unfold refOf
  cases hr : r.builtin? with
  | some b =>
    dsimp only
    rw [fails_builtin he]
    constructor
    · exact fun ⟨t, ht, h⟩ => ⟨.type t o, st, .argument hr ht, h⟩
    · rintro ⟨task, st', hcall, h⟩
      cases hcall with
      | argument hr' ht =>
        rw [hr] at hr'
        cases hr'
        exact ⟨_, ht, h⟩
      | registration hr' =>
        rw [hr] at hr'
        cases hr'
  | none =>
    dsimp only
    constructor
    · intro h
      obtain ⟨named, hl, h⟩ := (fails_ofExcept_bind ((g.lookup_local r o).spares he)).mp h
      have hinstantiate := (named.instantiate_local g r.args o).spares he
      obtain ⟨i, hi, h⟩ := (fails_ofExcept_bind hinstantiate).mp h
      obtain ⟨d, r', hd, h⟩ := (fails_instanceOf he).mp h
      exact ⟨.members d i.args .empty, _, .registration hr hl hi hd, h⟩
    · rintro ⟨task, st', hcall, h⟩
      cases hcall with
      | argument hr' ht =>
        rw [hr] at hr'
        cases hr'
      | registration _ hl hi hd =>
        refine (fails_ofExcept_bind ((g.lookup_local r o).spares he)).mpr ⟨_, hl, ?_⟩
        refine (fails_ofExcept_bind
          ((Declaration.instantiate_local g _ r.args o).spares he)).mpr ⟨_, hi, ?_⟩
        exact (fails_instanceOf he).mpr ⟨_, _, hd, h⟩

theorem type_fails (he : e.Foreign) (t : TypeExpr) (o : Origin) :
    Fails (typeWithin g (n + 1) t o) st e ↔ ∃ task st',
      Calls g n (.type t o) st task st' ∧ task.Fails g n st' e := by
  have silent (hfails : ¬ Fails (typeWithin g (n + 1) t o) st e)
      (hcalls : ∀ task st', ¬ Calls g n (.type t o) st task st') :
      Fails (typeWithin g (n + 1) t o) st e ↔ ∃ task st',
        Calls g n (.type t o) st task st' ∧ task.Fails g n st' e :=
    iff_of_false hfails fun ⟨task, st', hc, _⟩ => hcalls task st' hc
  cases t with
  | keyword k =>
    refine silent ?_ fun _ _ h => by cases h
    simp only [typeWithin]
    split
    · simp
    · exact not_fails_local he rfl st
  | literal l => exact silent (by simp [typeWithin]) fun _ _ h => by cases h
  | param name => exact silent (not_fails_local he rfl st) fun _ _ h => by cases h
  | unsupported c => exact silent (not_fails_local he rfl st) fun _ _ h => by cases h
  | ref r => exact ref_fails he r o
  | array t =>
    simp only [typeWithin, fails_bind_pure]
    constructor
    · exact fun h => ⟨.type t o, st, .element, h⟩
    · rintro ⟨task, st', hcall, h⟩
      cases hcall with
      | element => exact h
  | union ts =>
    simp only [typeWithin, unionOf, fails_bind_pure, fails_all]
    constructor
    · rintro ⟨before, t, after, ss, st', ht, hb, h⟩
      exact ⟨.type t o, st', .alternative ht hb, h⟩
    · rintro ⟨task, st', hcall, h⟩
      cases hcall with
      | alternative ht hb => exact ⟨_, _, _, _, _, ht, hb, h⟩
  | intersection ts =>
    have hall : Fails (typeWithin g (n + 1) (.intersection ts) o) st e ↔
        Fails (all (typeWithin g n) o ts) st e := by
      simp only [typeWithin, intersectionOf]
      rw [fails_bind, or_iff_left]
      rintro ⟨ss, st', -, h⟩
      rw [fails_bind] at h
      rcases h with h | ⟨r, st'', -, h⟩
      · exact fails_registry h
      · split at h <;> exact fails_pure h
    rw [hall, fails_all]
    constructor
    · rintro ⟨before, t, after, ss, st', rfl, hb, h⟩
      exact ⟨.type t o, st', .constraint hb, h⟩
    · rintro ⟨task, st', hcall, h⟩
      cases hcall with
      | constraint hb => exact ⟨_, _, _, _, _, rfl, hb, h⟩
  | object shape =>
    simp only [typeWithin]
    rw [fails_bind]
    simp only [fails_bind_pure, fails_properties, fails_additional he]
    constructor
    · rintro (⟨before, p, after, table, st', hp, hb, h⟩ | ⟨table, st', hb, v, hv, h⟩)
      · exact ⟨.type p.type.stripUndefined.1 o, st', .property hp hb, h⟩
      · exact ⟨.type v o, st', .index hb hv, h⟩
    · rintro ⟨task, st', hcall, h⟩
      cases hcall with
      | property hp hb => exact .inl ⟨_, _, _, _, _, hp, hb, h⟩
      | index hb hv => exact .inr ⟨_, _, hb, _, hv, h⟩

/-- What is no object asks for no members. -/
theorem no_members {d : Declaration} {args : List TypeExpr} {object : ObjectSchema Schema}
    (h : d.isObject = false) : ¬ (Repeats st e (.members d args object) ∨ ∃ task st',
      Calls g n (.members d args object) st task st' ∧ task.Fails g n st' e) := by
  have hkind : ∀ bases shape isClass, d.kind ≠ .object bases shape isClass := by
    intro bases shape isClass hk
    simp [Declaration.isObject, hk] at h
  rintro (⟨ho, -⟩ | ⟨task, st', hcall, -⟩)
  · rw [h] at ho
    cases ho
  · cases hcall with
    | base hd => exact hkind _ _ _ hd
    | ownProperty hd => exact hkind _ _ _ hd
    | ownIndex hd => exact hkind _ _ _ hd

theorem members_fail (he : e.Foreign) (d : Declaration) (args : List TypeExpr)
    (object : ObjectSchema Schema) :
    Fails (membersWithin g (n + 1) d args object) st e ↔
      Repeats st e (.members d args object) ∨ ∃ task st',
        Calls g n (.members d args object) st task st' ∧ task.Fails g n st' e := by
  cases hk : d.kind with
  | object bases shape isClass =>
    simp only [membersWithin, hk]
    rw [fails_ownMembers]
    have ho : d.isObject := by simp [Declaration.isObject, hk]
    apply or_congr (by simp [Repeats, ho])
    simp only [fails_collect, fails_foldlM, fails_baseMembers he, fails_properties,
      fails_ownAdditional he]
    constructor
    · rintro ⟨hnew, h⟩
      rcases h with ⟨before, base, after, object', st', hbs, hb, b, i, hext, h⟩ | ⟨object', st', hb, h⟩
      · exact ⟨.members b i.args object', st', .base hk hnew hbs hb hext, h⟩
      · rcases h with ⟨before, p, after, table, st'', hp, hps, h⟩ | ⟨ps, st'', hps, v, hv, h⟩
        · exact ⟨.type p.type.stripUndefined.1 d.origin, st'', .ownProperty hk hnew hb hp hps, h⟩
        · exact ⟨.type v d.origin, st'', .ownIndex hk hnew hb hps hv, h⟩
    · rintro ⟨task, st', hcall, h⟩
      cases hcall with
      | base hd hnew hbs hb hext =>
        rw [hk] at hd
        cases hd
        exact ⟨hnew, .inl ⟨_, _, _, _, _, hbs, hb, _, _, hext, h⟩⟩
      | ownProperty hd hnew hb hp hps =>
        rw [hk] at hd
        cases hd
        exact ⟨hnew, .inr ⟨_, _, hb, .inl ⟨_, _, _, _, _, hp, hps, h⟩⟩⟩
      | ownIndex hd hnew hb hps hv =>
        rw [hk] at hd
        cases hd
        exact ⟨hnew, .inr ⟨_, _, hb, .inr ⟨_, _, hps, _, hv, h⟩⟩⟩
  | typeAlias target =>
    refine iff_of_false ?_ (no_members (by simp [Declaration.isObject, hk]))
    simp only [membersWithin, hk, Fails, outcome_inheritance_bind]
    exact not_fails_local he rfl st
  | enum ms =>
    refine iff_of_false ?_ (no_members (by simp [Declaration.isObject, hk]))
    simp only [membersWithin, hk, Fails, outcome_inheritance_bind]
    exact not_fails_local he rfl st

theorem Task.fails_succ (he : e.Foreign) (task : Task) :
    task.Fails g (n + 1) st e ↔ Repeats st e task ∨ ∃ task' st',
      Calls g n task st task' st' ∧ task'.Fails g n st' e := by
  cases task with
  | type t o => exact (type_fails he t o).trans (or_iff_right id).symm
  | members d args object => exact members_fail he d args object

theorem Task.fails_zero (task : Task) : task.Fails g 0 st e ↔ .exhausted = e := by
  cases task with
  | type t o => exact fails_throw
  | members d args object => exact fails_throw

end

/-- A run reached from another one through calls, and the declarations whose members are collected
on the way, from the outermost. -/
inductive Nested (g : Graph) :
    Nat → Task → Situation → List DeclId → Nat → Task → Situation → Prop
  | here {n : Nat} {task : Task} {st : Situation} : Nested g n task st [] n task st
  | call {n k : Nat} {task next last : Task} {st st' st'' : Situation} {ids : List DeclId}
      (hcall : Calls g n task st next st') (hrest : Nested g n next st' ids k last st'') :
      Nested g (n + 1) task st (task.collected ++ ids) k last st''

section

variable {g : Graph} {n : Nat} {st st' : Situation} {cycle : List String}

theorem trivial_invariant : Registry.Invariant fun _ => True := ⟨fun _ _ _ _ _ _ => trivial,
  fun _ _ _ _ _ _ => trivial⟩

/-- A run that gives a result leaves what is being collected as it was. -/
theorem Ensures.restores {α : Type} {m : Resolve α} {Q : α → Prop}
    (h : Ensures (fun _ => True) m Q) {a : α} (hm : Gives m st a st') : st'.2 = st.2 :=
  ((h st trivial).2 a st' hm).2

theorem foldlM_restores {α β : Type} {f : β → α → Resolve β} {xs : List α} {b c : β}
    (hf : ∀ b x, Ensures (fun _ => True) (f b x) fun _ => True)
    (h : Gives (xs.foldlM f b) st c st') : st'.2 = st.2 :=
  (Ensures.foldlM trivial fun b _ x _ => hf b x).restores h

theorem all_restores {o : Origin} {ts : List TypeExpr} {ss : List Schema}
    (h : Gives (all (typeWithin g n) o ts) st ss st') : st'.2 = st.2 :=
  (all_keeps (within_keeps trivial_invariant g n).1 o ts).restores h

theorem properties_restore {o : Origin} {ps : List (Property TypeExpr)}
    {table table' : Entries String (PropertySchema Schema)}
    (h : Gives (properties (typeWithin g n) o table ps) st table' st') : st'.2 = st.2 :=
  (properties_keep (within_keeps trivial_invariant g n).1 o table ps).restores h

theorem bases_restore {d : Declaration} {args : List TypeExpr} {bases : List (TypeRef TypeExpr)}
    {object object' : ObjectSchema Schema}
    (h : Gives (bases.foldlM (baseMembers (membersWithin g n) g d args) object) st object' st') :
    st'.2 = st.2 :=
  foldlM_restores (baseMembers_keep (within_keeps trivial_invariant g n).2 g d args) h

/-- A call finds what was being collected, and the declaration that its caller collects. -/
theorem Calls.stack {task next : Task} (h : Calls g n task st next st') :
    st'.2 = st.2 ++ task.collected := by
  cases h with
  | element => exact (List.append_nil _).symm
  | alternative _ hb => exact (all_restores hb).trans (List.append_nil _).symm
  | constraint hb => exact (all_restores hb).trans (List.append_nil _).symm
  | property _ hb => exact (properties_restore hb).trans (List.append_nil _).symm
  | index hb _ => exact (properties_restore hb).trans (List.append_nil _).symm
  | argument _ _ => exact (List.append_nil _).symm
  | registration _ _ _ _ => exact (List.append_nil _).symm
  | base _ _ _ hb _ => exact bases_restore hb
  | ownProperty _ _ hb _ hps => exact (properties_restore hps).trans (bases_restore hb)
  | ownIndex _ _ hb hps _ => exact (properties_restore hps).trans (bases_restore hb)

theorem Nested.stack {k : Nat} {task last : Task} {ids : List DeclId}
    (h : Nested g n task st ids k last st') : st'.2 = st.2 ++ ids := by
  induction h with
  | here => exact (List.append_nil _).symm
  | call hcall _ ih => rw [ih, hcall.stack, List.append_assoc]

theorem Nested.trans {m k : Nat} {first mid last : Task} {st'' : Situation} {ids ids' : List DeclId}
    (h : Nested g n first st ids m mid st') (h' : Nested g m mid st' ids' k last st'') :
    Nested g n first st (ids ++ ids') k last st'' := by
  induction h with
  | here => exact h'
  | call hcall _ ih =>
    rw [List.append_assoc]
    exact .call hcall (ih h')

def Asks (g : Graph) (n : Nat) (task : Task) (st : Situation) (ids : List DeclId)
    (d : Declaration) : Prop :=
  ∃ k args object st', Nested g n task st ids (k + 1) (.members d args object) st' ∧ d.isObject

def Reenters (g : Graph) (n : Nat) (task : Task) (st : Situation) (cycle : List String) : Prop :=
  ∃ ids d, Asks g n task st ids d ∧ d.id ∈ st.2 ++ ids ∧
    (st.2 ++ ids ++ [d.id]).map DeclId.text = cycle

theorem Asks.call {task next : Task} {ids : List DeclId} {d : Declaration}
    (hcall : Calls g n task st next st') (h : Asks g n next st' ids d) :
    Asks g (n + 1) task st (task.collected ++ ids) d := by
  obtain ⟨k, args, object, st'', hn, ho⟩ := h
  exact ⟨k, args, object, st'', .call hcall hn, ho⟩

theorem Task.fails_iff {task : Task} :
    task.Fails g n st (.looping cycle) ↔ Reenters g n task st cycle := by
  induction n generalizing task st with
  | zero =>
    apply iff_of_false fun h => by cases task.fails_zero.mp h
    rintro ⟨ids, d, ⟨k, args, object, st', hn, -⟩, -⟩
    cases hn
  | succ n ih =>
    rw [task.fails_succ (Stop.looping_foreign cycle)]
    constructor
    · rintro (h | ⟨next, st', hcall, h⟩)
      · cases task with
        | type t o => exact absurd h id
        | members d args object =>
          obtain ⟨ho, hmem, hc⟩ := h
          cases hc
          exact ⟨[], d, ⟨n, args, object, st, .here, ho⟩, by simpa using hmem, by simp⟩
      · obtain ⟨ids, d, hasks, hmem, hc⟩ := ih.mp h
        have hstack : st'.2 ++ ids = st.2 ++ (task.collected ++ ids) := by
          rw [hcall.stack, List.append_assoc]
        rw [hstack] at hmem hc
        exact ⟨_, d, hasks.call hcall, hmem, hc⟩
    · rintro ⟨ids, d, ⟨k, args, object, st'', hn, ho⟩, hmem, hc⟩
      cases hn with
      | here => exact .inl ⟨ho, by simpa using hmem, by rw [← hc]; simp⟩
      | @call _ _ _ next _ _ st' _ ids hcall hrest =>
        have hstack : st'.2 ++ ids = st.2 ++ (task.collected ++ ids) := by
          rw [hcall.stack, List.append_assoc]
        rw [← hstack] at hmem hc
        exact .inr ⟨next, st', hcall, ih.mpr ⟨ids, d, ⟨k, args, object, st'', hrest, ho⟩, hmem, hc⟩⟩

end

end RouteContract.Resolve

import RouteContract.Proofs.Registry
import RouteContract.Resolution

/-!
# Runs of resolution

A run starts at a registry and the declarations whose members are being
collected, and it gives a result or fails, in either case with a further such
state. A sequence fails where its first part does, or where its second part
does after the first.
-/

set_option autoImplicit false

namespace RouteContract.Resolve

abbrev Situation := Registry × List DeclId

section

variable {α β : Type}

def outcome (m : Resolve α) (st : Situation) : Except Stop α × Situation := m.run.run st

theorem outcome_eq (m : Resolve α) (st : Situation) :
    outcome m st = Registry.Building.outcome m st := rfl

def Gives (m : Resolve α) (st : Situation) (a : α) (st' : Situation) : Prop :=
  outcome m st = (.ok a, st')

def Fails (m : Resolve α) (st : Situation) (e : Stop) : Prop := (outcome m st).1 = .error e

/-- A sequence runs its second part where the first one gave a result. -/
theorem outcome_bind (m : Resolve α) (f : α → Resolve β) (st : Situation) :
    outcome (m >>= f) st = match outcome m st with
      | (.ok a, st') => outcome (f a) st'
      | (.error e, st') => (.error e, st') := by
  simp only [outcome_eq, Registry.Building.outcome_bind]
  rcases Registry.Building.outcome m st with ⟨_ | a, st'⟩
  · rfl
  · rfl

theorem exists_gives {m : Resolve α} {st : Situation} (h : (outcome m st).1.isOk) :
    ∃ a st', Gives m st a st' := by
  unfold Gives
  rcases hm : outcome m st with ⟨e | a, st'⟩
  · rw [hm] at h
    cases h
  · exact ⟨a, st', rfl⟩

theorem Gives.unique {m : Resolve α} {st st₁ st₂ : Situation} {a b : α} (h : Gives m st a st₁)
    (h' : Gives m st b st₂) : a = b ∧ st₁ = st₂ := by
  unfold Gives at h h'
  rw [h] at h'
  cases h'
  exact ⟨rfl, rfl⟩

theorem Gives.not_fails {m : Resolve α} {st st' : Situation} {a : α} {e : Stop}
    (h : Gives m st a st') : ¬ Fails m st e := by
  unfold Gives at h
  rw [Fails, h]
  exact nofun

theorem gives_bind {m : Resolve α} {f : α → Resolve β} {st st'' : Situation} {b : β} :
    Gives (m >>= f) st b st'' ↔ ∃ a st', Gives m st a st' ∧ Gives (f a) st' b st'' := by
  unfold Gives
  rw [outcome_bind]
  rcases hm : outcome m st with ⟨_ | a, st'⟩
  · simp
  · constructor
    · exact fun h => ⟨a, st', rfl, h⟩
    · rintro ⟨_, _, h, hf⟩
      cases h
      exact hf

theorem fails_bind {m : Resolve α} {f : α → Resolve β} {st : Situation} {e : Stop} :
    Fails (m >>= f) st e ↔ Fails m st e ∨ ∃ a st', Gives m st a st' ∧ Fails (f a) st' e := by
  unfold Gives Fails
  rw [outcome_bind]
  rcases hm : outcome m st with ⟨_ | a, st'⟩
  · simp
  · constructor
    · exact fun h => .inr ⟨a, st', rfl, h⟩
    · rintro (h | ⟨_, _, h, hf⟩)
      · cases h
      · cases h
        exact hf

@[simp] theorem gives_pure {a b : α} {st st' : Situation} :
    Gives (pure a) st b st' ↔ a = b ∧ st = st' := by
  show (Except.ok a, st) = (Except.ok b, st') ↔ _
  simp

@[simp] theorem fails_pure {a : α} {st : Situation} {e : Stop} : ¬ Fails (pure a) st e := nofun

@[simp] theorem gives_throw {e : Stop} {a : α} {st st' : Situation} :
    ¬ Gives (throw e) st a st' := nofun

@[simp] theorem fails_throw {e e' : Stop} {st : Situation} :
    Fails (throw e : Resolve α) st e' ↔ e = e' := by
  show (Except.error e : Except Stop α) = .error e' ↔ _
  simp

@[simp] theorem gives_fail {f : Fault} {a : α} {st st' : Situation} :
    ¬ Gives (fail f) st a st' := gives_throw

@[simp] theorem fails_fail {f : Fault} {e : Stop} {st : Situation} :
    Fails (fail f : Resolve α) st e ↔ .fault f = e := fails_throw

@[simp] theorem gives_ofExcept {x : Except Fault α} {a : α} {st st' : Situation} :
    Gives (ofExcept x) st a st' ↔ x = .ok a ∧ st = st' := by
  cases x with
  | error f => simp [ofExcept]
  | ok b => simp [ofExcept]

theorem gives_ofExcept_bind {x : Except Fault α} {f : α → Resolve β} {b : β}
    {st st' : Situation} :
    Gives (ofExcept x >>= f) st b st' ↔ ∃ a, x = .ok a ∧ Gives (f a) st b st' := by
  rw [gives_bind]
  constructor
  · rintro ⟨a, st1, hgives, hf⟩
    obtain ⟨ha, rfl⟩ := gives_ofExcept.mp hgives
    exact ⟨a, ha, hf⟩
  · rintro ⟨a, ha, hf⟩
    exact ⟨a, st, gives_ofExcept.mpr ⟨ha, rfl⟩, hf⟩

@[simp] theorem fails_ofExcept {x : Except Fault α} {e : Stop} {st : Situation} :
    Fails (ofExcept x) st e ↔ ∃ f, x = .error f ∧ .fault f = e := by
  cases x with
  | error f => simp [ofExcept]
  | ok b => simp [ofExcept]

@[simp] theorem gives_registry {r : Registry} {st st' : Situation} :
    Gives registry st r st' ↔ st.1 = r ∧ st = st' := by
  show (Except.ok st.1, st) = (Except.ok r, st') ↔ _
  simp

@[simp] theorem fails_registry {st : Situation} {e : Stop} : ¬ Fails registry st e := nofun

@[simp] theorem gives_inheritance {ids : List DeclId} {st st' : Situation} :
    Gives inheritance st ids st' ↔ st.2 = ids ∧ st = st' := by
  show (Except.ok st.2, st) = (Except.ok ids, st') ↔ _
  simp

@[simp] theorem fails_inheritance {st : Situation} {e : Stop} : ¬ Fails inheritance st e := nofun

@[simp] theorem gives_setInheritance {ids : List DeclId} {u : Unit} {st st' : Situation} :
    Gives (setInheritance ids) st u st' ↔ (st.1, ids) = st' := by
  show (Except.ok (), (st.1, ids)) = (Except.ok u, st') ↔ _
  simp

@[simp] theorem fails_setInheritance {ids : List DeclId} {st : Situation} {e : Stop} :
    ¬ Fails (setInheritance ids) st e := nofun

theorem outcome_inheritance_bind (f : List DeclId → Resolve α) (st : Situation) :
    outcome (inheritance >>= f) st = outcome (f st.2) st := by
  rw [outcome_bind]
  rfl

theorem outcome_setInheritance_bind (ids : List DeclId) (f : Unit → Resolve α) (st : Situation) :
    outcome (setInheritance ids >>= f) st = outcome (f ()) (st.1, ids) := by
  rw [outcome_bind]
  rfl

theorem fails_foldlM {f : β → α → Resolve β} {xs : List α} {b : β} {st : Situation} {e : Stop} :
    Fails (xs.foldlM f b) st e ↔ ∃ before x after c st', xs = before ++ x :: after ∧
      Gives (before.foldlM f b) st c st' ∧ Fails (f c x) st' e := by
  induction xs generalizing b st with
  | nil => simp
  | cons x xs ih =>
    rw [List.foldlM_cons, fails_bind]
    constructor
    · rintro (h | ⟨c, st', hc, h⟩)
      · exact ⟨[], x, xs, b, st, rfl, by simp, h⟩
      · obtain ⟨before, y, after, d, st'', rfl, hd, hy⟩ := ih.mp h
        exact ⟨x :: before, y, after, d, st'', rfl,
          by rw [List.foldlM_cons, gives_bind]; exact ⟨c, st', hc, hd⟩, hy⟩
    · rintro ⟨before, y, after, d, st'', he, hd, hy⟩
      cases before with
      | nil =>
        cases he
        simp only [List.foldlM_nil, gives_pure] at hd
        obtain ⟨rfl, rfl⟩ := hd
        exact .inl hy
      | cons z before =>
        cases he
        rw [List.foldlM_cons, gives_bind] at hd
        obtain ⟨c, st', hc, hd⟩ := hd
        exact .inr ⟨c, st', hc, ih.mpr ⟨before, y, after, d, st'', rfl, hd, hy⟩⟩

theorem fails_mapM {f : α → Resolve β} {xs : List α} {st : Situation} {e : Stop} :
    Fails (xs.mapM f) st e ↔ ∃ before x after bs st', xs = before ++ x :: after ∧
      Gives (before.mapM f) st bs st' ∧ Fails (f x) st' e := by
  induction xs generalizing st with
  | nil => simp
  | cons x xs ih =>
    rw [List.mapM_cons, fails_bind]
    constructor
    · rintro (h | ⟨c, st', hc, h⟩)
      · exact ⟨[], x, xs, [], st, rfl, by simp, h⟩
      · rw [fails_bind] at h
        rcases h with h | ⟨cs, st'', -, h⟩
        · obtain ⟨before, y, after, bs, st'', rfl, hd, hy⟩ := ih.mp h
          refine ⟨x :: before, y, after, c :: bs, st'', rfl, ?_, hy⟩
          rw [List.mapM_cons, gives_bind]
          exact ⟨c, st', hc, gives_bind.mpr ⟨bs, st'', hd, by simp⟩⟩
        · exact absurd h fails_pure
    · rintro ⟨before, y, after, bs, st'', he, hd, hy⟩
      cases before with
      | nil =>
        cases he
        simp only [List.mapM_nil, gives_pure] at hd
        obtain ⟨rfl, rfl⟩ := hd
        exact .inl hy
      | cons z before =>
        cases he
        rw [List.mapM_cons, gives_bind] at hd
        obtain ⟨c, st', hc, hrest⟩ := hd
        obtain ⟨bs', st3, hd, hp⟩ := gives_bind.mp hrest
        simp only [gives_pure] at hp
        obtain ⟨-, rfl⟩ := hp
        have hfail := ih.mpr ⟨before, y, after, bs', st3, rfl, hd, hy⟩
        exact .inr ⟨c, st', hc, fails_bind.mpr (.inl hfail)⟩

def bracket (id : DeclId) (m : Resolve α) : Resolve α :=
  inheritance >>= fun stack =>
    if stack.contains id then fail (.inheritanceCycle ((stack ++ [id]).map DeclId.text))
    else setInheritance (stack ++ [id]) >>= fun _ => m >>= fun a =>
      inheritance >>= fun stack => setInheritance stack.dropLast >>= fun _ => return a

theorem outcome_bracket (id : DeclId) (m : Resolve α) (st : Situation) :
    outcome (bracket id m) st =
      if st.2.contains id then
        (.error (.fault (.inheritanceCycle ((st.2 ++ [id]).map DeclId.text))), st)
      else match outcome m (st.1, st.2 ++ [id]) with
        | (.error e, st') => (.error e, st')
        | (.ok a, st') => (.ok a, (st'.1, st'.2.dropLast)) := by
  unfold bracket
  rw [outcome_inheritance_bind]
  split
  · rfl
  rw [outcome_setInheritance_bind, outcome_bind]
  rcases outcome m (st.1, st.2 ++ [id]) with ⟨_ | a, st'⟩
  · rfl
  · simp only [outcome_inheritance_bind, outcome_setInheritance_bind]
    rfl

theorem gives_bracket {id : DeclId} {m : Resolve α} {st st' : Situation} {a : α} :
    Gives (bracket id m) st a st' ↔
      id ∉ st.2 ∧ ∃ st₁, Gives m (st.1, st.2 ++ [id]) a st₁ ∧ st' = (st₁.1, st₁.2.dropLast) := by
  unfold Gives
  rw [outcome_bracket]
  by_cases hid : id ∈ st.2
  · simp [hid]
  · rw [if_neg (by simpa using hid)]
    rcases outcome m (st.1, st.2 ++ [id]) with ⟨_ | b, st₁⟩
    · simp
    · constructor
      · intro h
        cases h
        exact ⟨hid, st₁, rfl, rfl⟩
      · rintro ⟨-, st₂, h, rfl⟩
        cases h
        rfl

theorem fails_bracket {id : DeclId} {m : Resolve α} {st : Situation} {e : Stop} :
    Fails (bracket id m) st e ↔
      (id ∈ st.2 ∧ .fault (.inheritanceCycle ((st.2 ++ [id]).map DeclId.text)) = e) ∨
      (id ∉ st.2 ∧ Fails m (st.1, st.2 ++ [id]) e) := by
  unfold Fails
  rw [outcome_bracket]
  by_cases hid : id ∈ st.2
  · simp [hid]
  · rw [if_neg (by simpa using hid)]
    rcases outcome m (st.1, st.2 ++ [id]) with ⟨_ | b, st₁⟩
    · simp [hid]
    · simp [hid]

/-- A free name is claimed before its schema is built, and defined afterwards. -/
theorem outcome_getOrCreate (name : String) (owner : Instance)
    (build : Resolve (Schema × Option String)) (st : Situation) :
    outcome (Registry.getOrCreate .fault name owner build) st =
      match st.1.reserve name owner with
      | .error f => (.error (.fault f), st)
      | .ok .existing => (.ok (.reference name), st)
      | .ok (.fresh r) => match outcome build (r, st.2) with
        | (.error e, st') => (.error e, st')
        | (.ok (schema, description), st') =>
          (.ok (.reference name), (st'.1.define name schema description, st'.2)) := by
  simp only [outcome_eq, Registry.Building.outcome_getOrCreate]
  rcases st.1.reserve name owner with f | (r | _)
  · rfl
  · rcases h : Registry.Building.outcome build (r, st.2) with ⟨_ | x, st'⟩
    · simp only [h]
    · simp only [h]
  · rfl

theorem gives_getOrCreate {name : String} {owner : Instance}
    {build : Resolve (Schema × Option String)} {st st' : Situation} {s : Schema} :
    Gives (Registry.getOrCreate .fault name owner build) st s st' ↔ s = .reference name ∧
      ((st.1.reserve name owner = .ok .existing ∧ st' = st) ∨
      ∃ r schema description st₁, st.1.reserve name owner = .ok (.fresh r) ∧
        Gives build (r, st.2) (schema, description) st₁ ∧
          st' = (st₁.1.define name schema description, st₁.2)) := by
  unfold Gives
  rw [outcome_getOrCreate]
  cases hr : st.1.reserve name owner with
  | error f => simp
  | ok reservation =>
    cases reservation with
    | existing => simp [eq_comm]
    | fresh r =>
      rcases hb : outcome build (r, st.2) with ⟨_ | ⟨schema, description⟩, st₁⟩
      · simp [hb]
      · simp only [hb]
        constructor
        · intro h
          cases h
          exact ⟨rfl, .inr ⟨r, schema, description, st₁, rfl, hb, rfl⟩⟩
        · rintro ⟨rfl, ⟨h, -⟩ | ⟨r', _, _, _, h, hrun, rfl⟩⟩
          · cases h
          · cases h
            rw [hb] at hrun
            cases hrun
            rfl

theorem fails_getOrCreate {name : String} {owner : Instance}
    {build : Resolve (Schema × Option String)} {st : Situation} {e : Stop} :
    Fails (Registry.getOrCreate .fault name owner build) st e ↔
      (∃ f, st.1.reserve name owner = .error f ∧ .fault f = e) ∨
      ∃ r, st.1.reserve name owner = .ok (.fresh r) ∧ Fails build (r, st.2) e := by
  unfold Fails
  rw [outcome_getOrCreate]
  cases hr : st.1.reserve name owner with
  | error f => simp
  | ok reservation =>
    cases reservation with
    | existing => simp
    | fresh r => rcases hb : outcome build (r, st.2) with ⟨_ | x, st₁⟩ <;> simp [hb]

end

section

variable {type : TypeExpr → Origin → Resolve Schema}
  {members : Declaration → List TypeExpr → ObjectSchema Schema → Resolve (ObjectSchema Schema)}

theorem all_eq_mapM (o : Origin) (ts : List TypeExpr) : all type o ts = ts.mapM (type · o) := by
  induction ts with
  | nil => rfl
  | cons t ts ih =>
    rw [List.mapM_cons, ← ih]
    rfl

def enter (type : TypeExpr → Origin → Resolve Schema) (o : Origin)
    (table : Entries String (PropertySchema Schema)) (p : Property TypeExpr) :
    Resolve (Entries String (PropertySchema Schema)) := do
  let schema ← property type p o
  return table.insert p.name schema

theorem properties_eq_foldlM (o : Origin) (table : Entries String (PropertySchema Schema))
    (ps : List (Property TypeExpr)) :
    properties type o table ps = ps.foldlM (enter type o) table := by
  induction ps generalizing table with
  | nil => rfl
  | cons p ps ih =>
    rw [List.foldlM_cons, enter, bind_assoc]
    simp only [pure_bind, ← ih]
    rfl

theorem baseMembers_eq (g : Graph) (d : Declaration) (args : List TypeExpr)
    (object : ObjectSchema Schema) (base : TypeRef TypeExpr) :
    baseMembers members g d args object base =
      if base.builtin?.isSome then fail (.invalidBase d.id.text base.name)
      else ofExcept (g.lookup base d.origin) >>= fun b =>
        if !b.isObject then fail (.invalidBase d.id.text b.id.text)
        else ofExcept (b.instantiate g
            (TypeExpr.substituteAll (Declaration.bindingOf d.params args) base.args) d.origin) >>=
          fun i => members b i.args object := by
  unfold baseMembers
  split
  · rfl
  · rfl

def ownAdditional (type : TypeExpr → Origin → Resolve Schema) (d : Declaration)
    (shape : Shape TypeExpr) (args : List TypeExpr) (inherited : Additional Schema) :
    Resolve (Additional Schema) :=
  if shape.index.isEmpty then return inherited
  else additional type
    (TypeExpr.substituteIndex (Declaration.bindingOf d.params args) shape.index) d.origin

def collect (type : TypeExpr → Origin → Resolve Schema)
    (members : Declaration → List TypeExpr → ObjectSchema Schema → Resolve (ObjectSchema Schema))
    (g : Graph) (d : Declaration) (bases : List (TypeRef TypeExpr)) (shape : Shape TypeExpr)
    (args : List TypeExpr) (object : ObjectSchema Schema) : Resolve (ObjectSchema Schema) :=
  bases.foldlM (baseMembers members g d args) object >>= fun object =>
    properties type d.origin object.properties (TypeExpr.substituteProperties
      (Declaration.bindingOf d.params args) shape.properties) >>= fun ps =>
      ownAdditional type d shape args object.additional >>= fun a => return ⟨ps, a⟩

theorem ownMembers_eq (g : Graph) (d : Declaration) (bases : List (TypeRef TypeExpr))
    (shape : Shape TypeExpr) (args : List TypeExpr) (object : ObjectSchema Schema) :
    ownMembers type members g d bases shape args object =
      bracket d.id (collect type members g d bases shape args object) := by
  unfold ownMembers bracket collect ownAdditional
  congr 1
  funext stack
  by_cases hs : stack.contains d.id
  · simp only [if_pos hs]
    rfl
  · simp only [if_neg hs, bind_assoc]
    cases shape.index.isEmpty with
    | true => rfl
    | false => rfl

end

end RouteContract.Resolve

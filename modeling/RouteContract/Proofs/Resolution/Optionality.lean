import RouteContract.Proofs.Resolution.Precedence

/-!
# Optionality under instantiation

Whether a property is required is decided by the members of its type as they stand
after substitution. Nothing is opened for it: undefined that an argument brings in
stands in a union of its own, and the property stays required, although resolution
then leaves it out at every depth.
-/

set_option autoImplicit false

namespace RouteContract

namespace TypeExpr

def members : TypeExpr → List TypeExpr
  | union ts => ts
  | t => [t]

mutual

def leaves : TypeExpr → List TypeExpr
  | union ts => leavesAll ts
  | t => [t]

def leavesAll : List TypeExpr → List TypeExpr
  | [] => []
  | t :: ts => leaves t ++ leavesAll ts

end

def AdmitsUndefined (ts : List TypeExpr) : Prop :=
  (∃ t ∈ ts, t.isUndefined) ∧ ∃ t ∈ ts, ¬ t.isUndefined

/-- Undefined stands beside another member, but in nested unions only. -/
def Hides (t : TypeExpr) : Prop := (∀ m ∈ t.members, ¬ m.isUndefined) ∧ AdmitsUndefined t.leaves

/-- Undefined stands beside unions that are nothing but undefined themselves. -/
def Feigns (t : TypeExpr) : Prop := AdmitsUndefined t.members ∧ ∀ l ∈ t.leaves, l.isUndefined

section

variable {t m l : TypeExpr}

theorem leavesAll_eq (ts : List TypeExpr) : leavesAll ts = ts.flatMap leaves := by
  induction ts with
  | nil => rfl
  | cons t ts ih => rw [leavesAll, ih, List.flatMap_cons]

theorem leaves_eq (t : TypeExpr) : t.leaves = t.members.flatMap leaves := by
  cases t with
  | union ts => exact leavesAll_eq ts
  | _ => rfl

theorem leaves_of_isUndefined (h : t.isUndefined) : t.leaves = [t] := by
  cases t with
  | union ts => cases h
  | _ => rfl

theorem leaves_of_flat (h : ∀ m ∈ t.members, ∀ ts, m ≠ union ts) : t.leaves = t.members := by
  have hself : ∀ m ∈ t.members, m.leaves = [m] := by
    intro m hm
    cases m with
    | union ts => exact absurd rfl (h _ hm ts)
    | _ => rfl
  rw [leaves_eq, List.flatMap_congr hself, List.flatMap_singleton']

theorem not_admitsUndefined_singleton (t : TypeExpr) : ¬ AdmitsUndefined [t] := by
  rintro ⟨⟨m, hm, hundefined⟩, l, hl, hother⟩
  obtain rfl := List.mem_singleton.mp hm
  obtain rfl := List.mem_singleton.mp hl
  exact hother hundefined

theorem stripUndefined_iff : t.stripUndefined.2 ↔ AdmitsUndefined t.members := by
  cases t with
  | union ts =>
    unfold stripUndefined
    dsimp only [members]
    split
    · rename_i hnone
      refine iff_of_false (by simp) ?_
      rintro ⟨-, m, hm, hother⟩
      exact hother (by simpa using List.filter_eq_nil_iff.mp hnone m hm)
    · rename_i m rest hkept
      have hmem : m ∈ ts.filter (!·.isUndefined) := hkept ▸ List.mem_cons_self
      have hm : m ∈ ts ∧ ¬ m.isUndefined := by simpa using hmem
      split
      · rename_i hlength
        rw [← hkept, List.length_filter_eq_length_iff] at hlength
        refine iff_of_false (by simp) ?_
        rintro ⟨⟨l, hl, hundefined⟩, -⟩
        exact absurd hundefined (by simpa using hlength l hl)
      · rename_i hlength
        rw [← hkept, List.length_filter_eq_length_iff] at hlength
        refine iff_of_true (by split <;> rfl) ⟨?_, m, hm⟩
        simpa using hlength
  | _ => exact iff_of_false nofun (not_admitsUndefined_singleton _)

/-- What the members show is what the leaves show, unless undefined is hidden or feigned. -/
theorem admitsUndefined_iff :
    (AdmitsUndefined t.members ↔ AdmitsUndefined t.leaves) ↔ ¬ (t.Hides ∨ t.Feigns) := by
  have hmem : ∀ m ∈ t.members, ∀ l ∈ m.leaves, l ∈ t.leaves := by
    intro m hm l hl
    rw [leaves_eq]
    exact List.mem_flatMap.mpr ⟨m, hm, hl⟩
  constructor
  · rintro hiff (⟨hnone, hleaves⟩ | ⟨hmembers, hall⟩)
    · obtain ⟨⟨m, hm, hundefined⟩, -⟩ := hiff.mpr hleaves
      exact hnone m hm hundefined
    · obtain ⟨-, l, hl, hother⟩ := hiff.mp hmembers
      exact hother (hall l hl)
  · intro hneither
    constructor
    · rintro ⟨⟨m, hm, hundefined⟩, hother⟩
      refine ⟨⟨m, hmem m hm m (by simp [leaves_of_isUndefined hundefined]), hundefined⟩, ?_⟩
      by_contra hnone
      exact hneither (.inr ⟨⟨⟨m, hm, hundefined⟩, hother⟩,
        fun l hl => by_contra fun hl' => hnone ⟨l, hl, hl'⟩⟩)
    · rintro ⟨hundefined, l, hl, hother⟩
      refine ⟨?_, ?_⟩
      · by_contra hnone
        exact hneither (.inl ⟨fun m hm hm' => hnone ⟨m, hm, hm'⟩, hundefined, l, hl, hother⟩)
      · -- An undefined member has no leaf but itself.
        rw [leaves_eq] at hl
        obtain ⟨m, hm, hl⟩ := List.mem_flatMap.mp hl
        refine ⟨m, hm, fun hundefined => ?_⟩
        rw [leaves_of_isUndefined hundefined] at hl
        exact hother (List.mem_singleton.mp hl ▸ hundefined)

end

end TypeExpr

def Declaration.instantiated (d : Declaration) (args : List TypeExpr) (p : Property TypeExpr) :
    TypeExpr :=
  p.type.substitute (bindingOf d.params args)

def Property.Omissible (p : Property TypeExpr) (ts : List TypeExpr) : Prop :=
  p.optional ∨ p.default.isSome ∨ TypeExpr.AdmitsUndefined ts

namespace Resolve

section

variable {g : Graph}

theorem Depicts.required_iff {R : Registry} {e : Declaration} {args : List TypeExpr}
    {p : Property TypeExpr} {q : PropertySchema Schema} (h : Depicts g R e args p q) :
    q.required = false ↔ p.Omissible (e.instantiated args p).members := by
  rw [h.required, Property.Omissible, ← TypeExpr.stripUndefined_iff, Bool.not_eq_false',
    Bool.or_eq_true, Bool.or_eq_true, or_assoc, or_comm (b := p.default.isSome = true)]
  rfl

theorem properties_nodup {type : TypeExpr → Origin → Resolve Schema} {o : Origin}
    {ps : List (Property TypeExpr)} {table table' : Entries String (PropertySchema Schema)}
    {st st' : Situation} (h : Gives (properties type o table ps) st table' st')
    (htable : table.keys.Nodup) : table'.keys.Nodup := by
  induction ps generalizing table st with
  | nil =>
    obtain ⟨rfl, -⟩ := gives_pure.mp h
    exact htable
  | cons p ps ih =>
    obtain ⟨q, st₁, -, h⟩ := gives_bind.mp h
    exact ih h (Entries.nodup_insert htable p.name q)

theorem baseMembers_nodup {n : Nat} {d : Declaration} {args : List TypeExpr}
    (hmembers : ∀ {b args object st object' st'},
      Gives (membersWithin g n b args object) st object' st' →
        (Entries.keys object.properties).Nodup → (Entries.keys object'.properties).Nodup)
    {bases : List (TypeRef TypeExpr)} {object object' : ObjectSchema Schema} {st st' : Situation}
    (h : Gives (bases.foldlM (baseMembers (membersWithin g n) g d args) object) st object' st')
    (hobject : (Entries.keys object.properties).Nodup) :
    (Entries.keys object'.properties).Nodup := by
  induction bases generalizing object st with
  | nil =>
    obtain ⟨rfl, -⟩ := gives_pure.mp h
    exact hobject
  | cons base bases ih =>
    rw [List.foldlM_cons] at h
    obtain ⟨object₁, st₁, hfirst, h⟩ := gives_bind.mp h
    obtain ⟨b, i, -, hfirst⟩ := gives_baseMembers hfirst
    exact ih h (hmembers hfirst hobject)

/-- No name is entered twice. -/
theorem members_nodup (n : Nat) {d : Declaration} {args : List TypeExpr}
    {object object' : ObjectSchema Schema} {st st' : Situation}
    (h : Gives (membersWithin g n d args object) st object' st')
    (hobject : (Entries.keys object.properties).Nodup) :
    (Entries.keys object'.properties).Nodup := by
  induction n generalizing d args object object' st st' with
  | zero => exact absurd h gives_throw
  | succ n ih =>
    obtain ⟨object₁, st₀, st₁, st₂, hfold, hps, -⟩ := gives_members h
    exact properties_nodup hps (baseMembers_nodup ih hfold hobject)

end

end Resolve

open Resolve in
/-- In what an object declaration is resolved to, a property is required unless it is declared
optional, has a default, or undefined is among the members of its type after substitution. With all
nested unions opened that comes to the same exactly where one of the first two holds or undefined is
neither hidden nor feigned, so in particular where no member of the type is a union. -/
theorem Graph.required_properties {g : Graph} {k : Nat} {i : Instance} {d : Declaration}
    {st st' : Situation} {s : Schema} (hd : g.declaration? i.id = some d) (hobject : d.isObject)
    (hfree : st.1.entries.find? i.name = none)
    (h : Gives (instanceOf (membersWithin g k) g i) st s st') :
    ∃ object, st'.1.entries.find? i.name = some ⟨i, .defined (.object object) d.description⟩ ∧
      ∀ name q, (name, q) ∈ object.properties → ∃ n e args p,
        Prevails g name n d i.args e args ∧ e.version? name = some p ∧
        (q.required = false ↔ p.Omissible (e.instantiated args p).members) ∧
        ((q.required = false ↔ p.Omissible (e.instantiated args p).leaves) ↔
          p.optional ∨ p.default.isSome ∨
            ¬ ((e.instantiated args p).Hides ∨ (e.instantiated args p).Feigns)) ∧
        ((∀ m ∈ (e.instantiated args p).members, ∀ ts, m ≠ .union ts) →
          (q.required = false ↔ p.Omissible (e.instantiated args p).leaves)) := by
  obtain ⟨object, st₁, st₂, hmembers, hbelow, hentry⟩ := registered_object hd hobject hfree h
  refine ⟨object, hentry, fun name q hq => ?_⟩
  have hnodup : (Entries.keys object.properties).Nodup := members_nodup k hmembers List.nodup_nil
  have hfind : Entries.find? object.properties name = some q := Entries.find?_of_mem hnodup hq
  rcases members_overwrite name k hmembers hbelow with
    ⟨-, hnone⟩ | ⟨n, e, args, p, q', hprevails, hp, hq', hdepicts⟩
  · rw [hfind] at hnone
    cases hnone
  · obtain rfl : q = q' := Option.some.inj (hfind.symm.trans hq')
    have hrequired := hdepicts.required_iff
    refine ⟨n, e, args, p, hprevails, hp, hrequired, ?_, fun hflat => ?_⟩
    · rw [hrequired, ← TypeExpr.admitsUndefined_iff]
      unfold Property.Omissible
      tauto
    · rw [hrequired, TypeExpr.leaves_of_flat hflat]

namespace Sample

open Resolve

def wrapperValue : Property TypeExpr := property "value" (.union [.param "T", .keyword .null])

def wrapper : Declaration := { interface "Box" [] [wrapperValue] with params := [⟨"T", none⟩] }

def spelledValue : Property TypeExpr :=
  property "value" (.union [.keyword .string, .keyword .undefined, .keyword .null])

def spelled : Declaration := interface "Spelled" [] [spelledValue]

def wrappers : Graph := ⟨[wrapper, spelled], []⟩

def wrapperText : Instance := ⟨wrapper.id, [.union [.keyword .string, .keyword .undefined]]⟩

def requiredOf? (r : Registry) (i : Instance) (name : String) : Option Bool :=
  match r.defined? i.name with
  | some (.object o) => (Entries.find? o.properties name).map (·.required)
  | _ => none

def flagOf? (i : Instance) (name : String) : Option Bool :=
  match outcome (wrappers.resolveInstance i) (.empty, []) with
  | (.ok _, st) => requiredOf? st.1 i name
  | _ => none

theorem exists_flag {i : Instance} {name : String} {b : Bool} (h : flagOf? i name = some b) :
    ∃ s st object q, Gives (wrappers.resolveInstance i) (.empty, []) s st ∧
      st.1.defined? i.name = some (.object object) ∧ (name, q) ∈ object.properties ∧
      q.required = b := by
  unfold flagOf? at h
  split at h
  · rename_i s st hrun
    unfold requiredOf? at h
    split at h
    · rename_i object hdefined
      obtain ⟨q, hq, rfl⟩ := Option.map_eq_some_iff.mp h
      exact ⟨s, st, object, q, hrun, hdefined, Entries.mem_of_find? hq, rfl⟩
    · cases h
  · cases h

theorem wrapper_flag : ∃ s st object q,
    Gives (wrappers.resolveInstance wrapperText) (.empty, []) s st ∧
    st.1.defined? wrapperText.name = some (.object object) ∧ ("value", q) ∈ object.properties ∧
    q.required = true :=
  exists_flag (by decide +kernel)

/-- The instance requires what it may leave out as it is written out. -/
theorem wrapper_differs_from_spelled :
    (∃ s st object q, Gives (wrappers.resolveInstance wrapperText) (.empty, []) s st ∧
      st.1.defined? wrapperText.name = some (.object object) ∧ ("value", q) ∈ object.properties ∧
      ¬ (q.required = false ↔
        wrapperValue.Omissible (wrapper.instantiated wrapperText.args wrapperValue).leaves)) ∧
    (∃ s st object q, Gives (wrappers.resolveInstance ⟨spelled.id, []⟩) (.empty, []) s st ∧
      st.1.defined? "Spelled" = some (.object object) ∧ ("value", q) ∈ object.properties ∧
      q.required = false) ∧
    (wrapper.instantiated wrapperText.args wrapperValue).leaves =
      (spelled.instantiated [] spelledValue).members := by
  obtain ⟨s, st, object, q, hs, hobject, hq, hrequired⟩ := wrapper_flag
  refine ⟨⟨s, st, object, q, hs, hobject, hq, fun hiff => ?_⟩, ?_, rfl⟩
  · have homissible : wrapperValue.Omissible
        (wrapper.instantiated wrapperText.args wrapperValue).leaves := by
      refine .inr (.inr ⟨⟨.keyword .undefined, ?_, rfl⟩, .keyword .string, ?_, nofun⟩)
      · exact List.mem_cons_of_mem _ List.mem_cons_self
      · exact List.mem_cons_self
    rw [hiff.mpr homissible] at hrequired
    cases hrequired
  · exact exists_flag (i := ⟨spelled.id, []⟩) (by decide +kernel)

/-- Undefined is hidden in the argument, so that the property is required. -/
theorem wrapper_required : ∃ s st object q,
    Gives (wrappers.resolveInstance wrapperText) (.empty, []) s st ∧
    st.1.entries.find? wrapperText.name = some ⟨wrapperText, .defined (.object object) none⟩ ∧
    ("value", q) ∈ object.properties ∧ q.required = true := by
  obtain ⟨s, st, object, q, hs, hobject, hq, -⟩ := wrapper_flag
  obtain ⟨k, hk⟩ := Graph.exists_gives_instanceOf hs
  obtain ⟨object', hentry, hall⟩ :=
    Graph.required_properties (g := wrappers) (i := wrapperText) rfl rfl rfl hk
  obtain rfl : object' = object := by
    simpa [Registry.defined?, hentry] using hobject
  obtain ⟨n, e, args, p, hprevails, hp, hrequired, -⟩ := hall "value" q hq
  obtain ⟨-, rfl, rfl⟩ := hprevails.unique (.own rfl)
  cases hp
  refine ⟨s, st, object', q, hs, hentry, hq, ?_⟩
  rw [← Bool.not_eq_false, hrequired]
  rintro (hoptional | hdefault | ⟨⟨m, hm, hundefined⟩, -⟩)
  · cases hoptional
  · cases hdefault
  · rcases List.mem_pair.mp hm with rfl | rfl
    · cases hundefined
    · cases hundefined

end Sample

end RouteContract

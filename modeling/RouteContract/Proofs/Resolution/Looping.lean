import RouteContract.Proofs.Resolution.Checks
import RouteContract.Proofs.Resolution.Invariants

/-!
# Which part of a run stops it

Lookup, instantiation and the registry fail with faults of their own. An
inheritance cycle and the end of the granted steps are none of these: they come
from the check that precedes the members of a declaration, or from a nested run.
-/

set_option autoImplicit false

namespace RouteContract

def Stop.looping (cycle : List String) : Stop := .fault (.inheritanceCycle cycle)

/-- A stop that says something of the runs around it, so that no check raises it. -/
def Stop.Foreign (e : Stop) : Prop := ∀ f, e = .fault f → f.isLocal = false

theorem Stop.looping_foreign (cycle : List String) : (Stop.looping cycle).Foreign := by
  rintro _ ⟨⟩
  rfl

theorem Stop.exhausted_foreign : Stop.exhausted.Foreign := nofun

theorem Stop.Foreign.ne_fault {e : Stop} (he : e.Foreign) {f : Fault} (hf : f.isLocal = true) :
    .fault f ≠ e := by
  rintro rfl
  rw [he f rfl] at hf
  cases hf

/-- A stop that depends on when a run takes place: for want of nested steps, or at a declaration that
is being collected. -/
inductive Stop.Untimely : Stop → Prop
  | exhausted : Untimely .exhausted
  | looping (cycle : List String) : Untimely (.looping cycle)

theorem Stop.Untimely.foreign {e : Stop} (h : e.Untimely) : e.Foreign := by
  cases h with
  | exhausted => exact Stop.exhausted_foreign
  | looping cycle => exact Stop.looping_foreign cycle

def Spares {α : Type} (e : Stop) (x : Except Fault α) : Prop := ∀ f, x = .error f → .fault f ≠ e

theorem Raises.spares {α : Type} {x : Except Fault α} (h : Local x) {e : Stop} (he : e.Foreign) :
    Spares e x := by
  rintro f hf rfl
  have hlocal : f.isLocal = true := h f hf
  rw [he f rfl] at hlocal
  cases hlocal

namespace Resolve

theorem not_fails_ofExcept {α : Type} {x : Except Fault α} {e : Stop} (hx : Spares e x)
    (st : Situation) : ¬ Fails (ofExcept x) st e := by
  rw [fails_ofExcept]
  rintro ⟨f, hf, he⟩
  exact hx f hf he

theorem not_fails_local {α : Type} {f : Fault} {e : Stop} (he : e.Foreign) (hf : f.isLocal)
    (st : Situation) : ¬ Fails (fail f : Resolve α) st e :=
  not_fails_ofExcept (x := .error f) (Raises.spares (.error hf) he) st

theorem fails_ofExcept_bind {α β : Type} {x : Except Fault α} {e : Stop} (hx : Spares e x)
    {f : α → Resolve β} {st : Situation} :
    Fails (ofExcept x >>= f) st e ↔ ∃ a, x = .ok a ∧ Fails (f a) st e := by
  rw [fails_bind, or_iff_right (not_fails_ofExcept hx st)]
  constructor
  · rintro ⟨a, st', hgives, hf⟩
    obtain ⟨ha, rfl⟩ := gives_ofExcept.mp hgives
    exact ⟨a, ha, hf⟩
  · rintro ⟨a, ha, hf⟩
    exact ⟨a, st, gives_ofExcept.mpr ⟨ha, rfl⟩, hf⟩

/-- A part whose result is only passed on. -/
theorem fails_bind_pure {α β : Type} {m : Resolve α} {f : α → β} {st : Situation} {e : Stop} :
    Fails (m >>= fun a => pure (f a)) st e ↔ Fails m st e := by
  rw [fails_bind]
  simp

section

variable {type : TypeExpr → Origin → Resolve Schema}
  {members : Declaration → List TypeExpr → ObjectSchema Schema → Resolve (ObjectSchema Schema)}
  {g : Graph} {o : Origin} {st : Situation} {e : Stop}

theorem fails_enter {table : Entries String (PropertySchema Schema)} {p : Property TypeExpr} :
    Fails (enter type o table p) st e ↔ Fails (type p.type.stripUndefined.1 o) st e := by
  unfold enter
  rw [fails_bind_pure]
  exact fails_bind_pure

theorem fails_properties {table : Entries String (PropertySchema Schema)}
    {ps : List (Property TypeExpr)} :
    Fails (properties type o table ps) st e ↔ ∃ before p after table' st',
      ps = before ++ p :: after ∧ Gives (properties type o table before) st table' st' ∧
        Fails (type p.type.stripUndefined.1 o) st' e := by
  simp only [properties_eq_foldlM, fails_foldlM, fails_enter]

theorem fails_all {ts : List TypeExpr} :
    Fails (all type o ts) st e ↔ ∃ before t after ss st', ts = before ++ t :: after ∧
      Gives (all type o before) st ss st' ∧ Fails (type t o) st' e := by
  simp only [all_eq_mapM, fails_mapM]

inductive IndexValue : List (IndexSignature TypeExpr) → TypeExpr → Prop
  | value {signature : IndexSignature TypeExpr} (hkey : signature.key.same (.keyword .string))
      (hany : signature.value ≠ .keyword .any) (hunknown : signature.value ≠ .keyword .unknown) :
      IndexValue [signature] signature.value

theorem fails_additional (he : e.Foreign) {index : List (IndexSignature TypeExpr)} :
    Fails (additional type index o) st e ↔
      ∃ v, IndexValue index v ∧ Fails (type v o) st e := by
  unfold additional
  constructor
  · intro h
    split at h
    · simp at h
    · rename_i signature
      split at h
      · exact absurd h (not_fails_local he rfl st)
      · rename_i hkey
        split at h
        · simp at h
        · simp at h
        · rename_i hany hunknown
          exact ⟨_, .value (by simpa using hkey) hany hunknown, fails_bind_pure.mp h⟩
    · exact absurd h (not_fails_local he rfl st)
  · rintro ⟨v, hv, h⟩
    cases hv with
    | @value signature hkey hany hunknown =>
      simp only [hkey, Bool.not_true, Bool.false_eq_true, if_false]
      exact fails_bind_pure.mpr h

inductive BuiltinArgument (r : TypeRef TypeExpr) : Builtin → TypeExpr → Prop
  | array (h : r.args.length = 1) : BuiltinArgument r .array (r.args.getD 0 default)
  | promise (h : r.args.length = 1) : BuiltinArgument r .promise (r.args.getD 0 default)
  | record {v : TypeExpr} (h : r.args.length = 2)
      (hv : IndexValue [⟨"key", r.args.getD 0 default, r.args.getD 1 default⟩] v) :
      BuiltinArgument r .record v

theorem fails_expectArgs_bind (he : e.Foreign) {β : Type} {r : TypeRef TypeExpr} {n : Nat}
    {f : Unit → Resolve β} :
    Fails (expectArgs r n >>= f) st e ↔
      r.args.length = n ∧ Fails (f ()) st e := by
  unfold expectArgs
  rw [fails_bind]
  split
  · rename_i hn
    constructor
    · rintro (h | ⟨u, st', hu, hf⟩)
      · exact absurd h fails_pure
      · obtain ⟨-, rfl⟩ := gives_pure.mp hu
        exact ⟨hn, hf⟩
    · exact fun h => .inr ⟨(), st, gives_pure.mpr ⟨rfl, rfl⟩, h.2⟩
  · rename_i hn
    simp [hn, not_fails_local he (f := .arity r.name n r.args.length) rfl st]

theorem fails_builtin (he : e.Foreign) {b : Builtin} {r : TypeRef TypeExpr} :
    Fails (builtin type b r o) st e ↔
      ∃ t, BuiltinArgument r b t ∧ Fails (type t o) st e := by
  cases b with
  | primitive kind =>
    apply iff_of_false fails_pure
    rintro ⟨t, ht, -⟩
    cases ht
  | array =>
    simp only [builtin, fails_expectArgs_bind he, fails_bind_pure]
    constructor
    · exact fun ⟨hn, h⟩ => ⟨_, .array hn, h⟩
    · rintro ⟨t, ht, h⟩
      cases ht with
      | array hn => exact ⟨hn, h⟩
  | promise =>
    simp only [builtin, fails_expectArgs_bind he]
    constructor
    · exact fun ⟨hn, h⟩ => ⟨_, .promise hn, h⟩
    · rintro ⟨t, ht, h⟩
      cases ht with
      | promise hn => exact ⟨hn, h⟩
  | record =>
    simp only [builtin, fails_expectArgs_bind he, fails_bind_pure, fails_additional he]
    constructor
    · exact fun ⟨hn, v, hv, h⟩ => ⟨v, .record hn hv, h⟩
    · rintro ⟨t, ht, h⟩
      cases ht with
      | record hn hv => exact ⟨hn, t, hv, h⟩
  | unsupported =>
    apply iff_of_false (not_fails_local he rfl st)
    rintro ⟨t, ht, -⟩
    cases ht

theorem fails_body (he : e.Foreign) {d : Declaration} {args : List TypeExpr} :
    Fails (body members d args) st e ↔
      d.isObject ∧ Fails (members d args .empty) st e := by
  unfold body Declaration.isObject
  cases d.kind with
  | object bases shape isClass => simpa using fails_bind_pure
  | typeAlias target =>
    dsimp only
    split
    · simp
    · simp [not_fails_local he (f := .unsupportedAlias d.id.text d.location) rfl st]
  | enum ms =>
    have hms : Local (ms.mapM (·.value? d)) := .mapM (EnumMember.value?_local d) ms
    dsimp only
    rw [fails_ofExcept_bind (hms.spares he)]
    simp

theorem stops_getOrCreate (he : e.Foreign) {name : String} {owner : Instance}
    {build : Resolve (Schema × Option String)} :
    Fails (Registry.getOrCreate .fault name owner build) st e ↔ ∃ r',
      st.1.reserve name owner = .ok (.fresh r') ∧ Fails build (r', st.2) e := by
  rw [fails_getOrCreate, or_iff_right]
  rintro ⟨f, hf, hfault⟩
  exact (Registry.reserve_local st.1 name owner).spares he f hf hfault

structure Registers (g : Graph) (i : Instance) (r : Registry) (d : Declaration) (r' : Registry) :
    Prop where
  declared : g.declaration? i.id = some d
  arity : d.params.length = i.args.length
  reserved : r.reserve (TypeExpr.canonicalName d.id.name i.args) i = .ok (.fresh r')
  isObject : d.isObject

theorem fails_instanceOf (he : e.Foreign) {i : Instance} :
    Fails (instanceOf members g i) st e ↔ ∃ d r', Registers g i st.1 d r' ∧
      Fails (members d i.args .empty) (r', st.2) e := by
  unfold instanceOf
  cases hd : g.declaration? i.id with
  | none =>
    apply iff_of_false (not_fails_local he rfl st)
    rintro ⟨d, r', hr, -⟩
    have hsome := hr.declared
    rw [hd] at hsome
    cases hsome
  | some d =>
    have hunique : ∀ {d' r'}, Registers g i st.1 d' r' → d' = d := by
      intro d' r' hr
      have hsome := hr.declared
      rw [hd] at hsome
      exact (Option.some.inj hsome).symm
    by_cases harity : d.params.length = i.args.length
    · simp only [harity, ne_eq, not_true_eq_false, if_false, stops_getOrCreate he, fails_body he]
      constructor
      · exact fun ⟨r', hr, ho, h⟩ => ⟨d, r', ⟨hd, harity, hr, ho⟩, h⟩
      · rintro ⟨d', r', hr, h⟩
        obtain rfl := hunique hr
        exact ⟨r', hr.reserved, hr.isObject, h⟩
    · simp only [harity, ne_eq, not_false_eq_true, if_true]
      apply iff_of_false (not_fails_local he rfl st)
      rintro ⟨d', r', hr, -⟩
      obtain rfl := hunique hr
      exact harity hr.arity

structure Extends (g : Graph) (d : Declaration) (args : List TypeExpr) (base : TypeRef TypeExpr)
    (b : Declaration) (i : Instance) : Prop where
  declared : base.builtin? = none
  found : g.lookup base d.origin = .ok b
  isObject : b.isObject
  instantiated : b.instantiate g
    (TypeExpr.substituteAll (Declaration.bindingOf d.params args) base.args) d.origin = .ok i

theorem fails_baseMembers (he : e.Foreign) {d : Declaration} {args : List TypeExpr}
    {object : ObjectSchema Schema} {base : TypeRef TypeExpr} :
    Fails (baseMembers members g d args object base) st e ↔ ∃ b i,
      Extends g d args base b i ∧ Fails (members b i.args object) st e := by
  rw [baseMembers_eq]
  constructor
  · intro h
    split at h
    · exact absurd h (not_fails_local he rfl st)
    rename_i hb
    have hlookup := (g.lookup_local base d.origin).spares he
    obtain ⟨b, hl, h⟩ := (fails_ofExcept_bind hlookup).mp h
    split at h
    · exact absurd h (not_fails_local he rfl st)
    rename_i ho
    have hinstantiate := (b.instantiate_local g (TypeExpr.substituteAll
      (Declaration.bindingOf d.params args) base.args) d.origin).spares he
    obtain ⟨i, hi, h⟩ := (fails_ofExcept_bind hinstantiate).mp h
    exact ⟨b, i, ⟨by simpa using hb, hl, by simpa using ho, hi⟩, h⟩
  · rintro ⟨b, i, hext, h⟩
    rw [hext.declared, if_neg (by simp)]
    have hlookup := (g.lookup_local base d.origin).spares he
    refine (fails_ofExcept_bind hlookup).mpr ⟨b, hext.found, ?_⟩
    rw [if_neg (by simp [hext.isObject])]
    have hinstantiate := (b.instantiate_local g (TypeExpr.substituteAll
      (Declaration.bindingOf d.params args) base.args) d.origin).spares he
    exact (fails_ofExcept_bind hinstantiate).mpr ⟨i, hext.instantiated, h⟩

theorem fails_ownAdditional (he : e.Foreign) {d : Declaration} {shape : Shape TypeExpr}
    {args : List TypeExpr} {inherited : Additional Schema} :
    Fails (ownAdditional type d shape args inherited) st e ↔ ∃ v,
      IndexValue (TypeExpr.substituteIndex (Declaration.bindingOf d.params args) shape.index) v ∧
        Fails (type v d.origin) st e := by
  unfold ownAdditional
  split
  · rename_i hn
    rw [List.isEmpty_iff.mp hn]
    apply iff_of_false fails_pure
    rintro ⟨v, hv, -⟩
    cases hv
  · exact fails_additional he

/-- The check of inheritance fails, or what is asked for after it does: a base, an own property or
the own index. -/
theorem fails_ownMembers {d : Declaration} {bases : List (TypeRef TypeExpr)}
    {shape : Shape TypeExpr} {args : List TypeExpr} {object : ObjectSchema Schema} :
    Fails (ownMembers type members g d bases shape args object) st e ↔
      (d.id ∈ st.2 ∧ .looping ((st.2 ++ [d.id]).map DeclId.text) = e) ∨
      (d.id ∉ st.2 ∧ Fails (collect type members g d bases shape args object)
        (st.1, st.2 ++ [d.id]) e) := by
  rw [ownMembers_eq, fails_bracket]
  rfl

theorem fails_collect {d : Declaration} {bases : List (TypeRef TypeExpr)}
    {shape : Shape TypeExpr} {args : List TypeExpr} {object : ObjectSchema Schema} :
    Fails (collect type members g d bases shape args object) st e ↔
      Fails (bases.foldlM (baseMembers members g d args) object) st e ∨
      ∃ object' st', Gives (bases.foldlM (baseMembers members g d args) object) st object' st' ∧
        (Fails (properties type d.origin object'.properties (TypeExpr.substituteProperties
          (Declaration.bindingOf d.params args) shape.properties)) st' e ∨
        ∃ ps st'', Gives (properties type d.origin object'.properties
            (TypeExpr.substituteProperties (Declaration.bindingOf d.params args)
              shape.properties)) st' ps st'' ∧
          Fails (ownAdditional type d shape args object'.additional) st'' e) := by
  unfold collect
  rw [fails_bind]
  simp only [fails_bind (m := properties _ _ _ _), fails_bind_pure]

end

end Resolve

end RouteContract

import RouteContract.Proofs.Registry
import RouteContract.Proofs.Resolution.Instances
import RouteContract.Proofs.Schema.References

/-!
# Types that denote an instance

Some types are resolved to a reference: a named type, the promise of such a type,
and a union in which one is left. The instance behind the reference can be read
off the type, and what the registry holds under its name belongs to it.
-/

set_option autoImplicit false

namespace RouteContract

namespace Schema

inductive Shows (name : String) : Schema → Prop
  | reference : Shows name (.reference name)
  | member {ss : List Schema} {s : Schema} (hs : s ∈ ss) (h : Shows name s) : Shows name (.union ss)

theorem shows_flatten {ss : List Schema} {s : Schema} {name : String} (hs : s ∈ flatten ss)
    (h : Shows name s) : ∃ t ∈ ss, Shows name t := by
  rcases mem_flatten hs with hs | ⟨nested, hn, hs⟩
  · exact ⟨s, hs, h⟩
  · exact ⟨.union nested, hn, .member hs h⟩

theorem shows_unionOf {ss : List Schema} {name : String} (h : Shows name (unionOf ss)) :
    ∃ t ∈ ss, Shows name t := by
  unfold unionOf at h
  split at h
  · rename_i s hs
    exact shows_flatten (hs ▸ List.mem_singleton_self s) h
  · split at h
    · cases h
    · cases h with
      | member hs h => exact shows_flatten hs h

end Schema

namespace Resolve

open Schema (Shows)

def HoldsFor (name : String) (owner : Instance) (r : Registry) : Prop :=
  ∃ slot, r.entries.find? name = some ⟨owner, slot⟩

theorem holdsFor_claim {r : Registry} {name key : String} {i j : Instance}
    (hfree : r.entries.find? name = none) :
    HoldsFor key j (r.claim name i) ↔ HoldsFor key j r ∨ key = name ∧ j = i := by
  unfold HoldsFor
  rw [Registry.claim_find? hfree]
  by_cases hk : name = key
  · subst hk
    simp [hfree, eq_comm]
  · simp [hk, Ne.symm hk]

theorem holdsFor_define {r : Registry} {name key : String} {j : Instance} {schema : Schema}
    {description : Option String} :
    HoldsFor key j (r.define name schema description) ↔ HoldsFor key j r := by
  unfold HoldsFor Registry.define
  split
  · rename_i owner hpending
    rw [Entries.find?_insert]
    by_cases hk : name = key
    · subst hk
      simp [hpending]
    · simp [hk]
  · exact Iff.rfl

/-- A name stays with its owner. -/
theorem holdsFor_invariant (name : String) (owner : Instance) :
    Registry.Invariant (HoldsFor name owner) where
  reserve := by
    intro r r' key owner' hr hreserve
    obtain ⟨hfree, rfl⟩ := Registry.reserve_eq_fresh.mp hreserve
    exact (holdsFor_claim hfree).mpr (.inl hr)
  define _ _ _ _ hr _ := holdsFor_define.mpr hr

theorem mem_of_gives_all {I : Registry → Prop} {type : TypeExpr → Origin → Resolve Schema}
    (ht : Keeps I type) {o : Origin} {ts : List TypeExpr} {st st' : Situation} {ss : List Schema}
    (hst : I st.1) (h : Gives (all type o ts) st ss st') {s : Schema} (hs : s ∈ ss) :
    ∃ t ∈ ts, ∃ st₁ st₁', I st₁.1 ∧ Gives (type t o) st₁ s st₁' := by
  induction ts generalizing st ss with
  | nil =>
    obtain ⟨rfl, -⟩ := gives_pure.mp h
    cases hs
  | cons t ts ih =>
    obtain ⟨s₁, st₁, hs₁, h⟩ := gives_bind.mp h
    obtain ⟨ss₁, st₂, hss₁, h⟩ := gives_bind.mp h
    obtain ⟨rfl, rfl⟩ := gives_pure.mp h
    rcases List.mem_cons.mp hs with rfl | hs
    · exact ⟨t, by simp, st, st₁, hst, hs₁⟩
    · obtain ⟨u, hu, hgives⟩ := ih ((ht t o).after hst hs₁) hss₁ hs
      exact ⟨u, by simp [hu], hgives⟩

namespace Node

inductive Denotes (g : Graph) : Node → Instance → Prop
  | reference {node : Node} {i : Instance} (h : node.AsksFor g i) : Denotes g node i
  | promise {r : TypeRef TypeExpr} {t : TypeExpr} {o : Origin} {i : Instance}
      (hr : r.builtin? = some .promise) (ht : BuiltinArgument r .promise t)
      (h : Denotes g (.type t o) i) : Denotes g (.type (.ref r) o) i
  | alternative {ts : List TypeExpr} {t : TypeExpr} {o : Origin} {i : Instance}
      (ht : t ∈ ts.filter (!·.isUndefined)) (h : Denotes g (.type t o) i) :
      Denotes g (.type (.union ts) o) i

theorem Stands.denoted {g : Graph} {roots : TypeExpr → Prop} {ctx : Option Instance}
    {node : Node} {i : Instance} (h : Denotes g node i) (hnode : node.Stands g roots ctx) :
    Instance.Asked g roots i := by
  induction h with
  | reference h => exact hnode.asked h
  | promise hr ht _ ih => exact ih (hnode.part (.argument hr ht))
  | alternative ht _ ih => exact ih (hnode.part (.alternative ht))

end Node

open Node (Denotes)

theorem gives_builtin_shows {type : TypeExpr → Origin → Resolve Schema} {b : Builtin}
    {r : TypeRef TypeExpr} {o : Origin} {st st' : Situation} {s : Schema} {name : String}
    (h : Gives (builtin type b r o) st s st') (hs : Shows name s) :
    b = .promise ∧ ∃ t, BuiltinArgument r .promise t ∧ Gives (type t o) st s st' := by
  have expected : ∀ {n : Nat} {f : Unit → Resolve Schema},
      Gives (expectArgs r n >>= f) st s st' → r.args.length = n ∧ Gives (f ()) st s st' := by
    intro n f hf
    obtain ⟨u, st₁, hu, hf⟩ := gives_bind.mp hf
    unfold expectArgs at hu
    split at hu
    · rename_i hn
      obtain ⟨-, rfl⟩ := gives_pure.mp hu
      exact ⟨hn, hf⟩
    · exact absurd hu gives_fail
  cases b with
  | primitive kind =>
    obtain ⟨rfl, -⟩ := gives_pure.mp h
    cases hs
  | array =>
    obtain ⟨a, st₁, -, h⟩ := gives_bind.mp (expected h).2
    obtain ⟨rfl, -⟩ := gives_pure.mp h
    cases hs
  | promise =>
    obtain ⟨hn, h⟩ := expected h
    exact ⟨rfl, _, .promise hn, h⟩
  | record =>
    obtain ⟨a, st₁, -, h⟩ := gives_bind.mp (expected h).2
    obtain ⟨rfl, -⟩ := gives_pure.mp h
    cases hs
  | unsupported => exact absurd h gives_fail

section

variable {g : Graph} {roots : TypeExpr → Prop}

theorem gives_instanceOf {members : Declaration → List TypeExpr → ObjectSchema Schema →
      Resolve (ObjectSchema Schema)} {i : Instance} {st st' : Situation} {s : Schema}
    (h : Gives (instanceOf members g i) st s st') : s = .reference i.name ∧
      ∀ owner, HoldsFor i.name owner st.1 → owner.same i := by
  unfold instanceOf at h
  split at h
  · exact absurd h gives_fail
  rename_i d hd
  split at h
  · exact absurd h gives_fail
  have hname : TypeExpr.canonicalName d.id.name i.args = i.name := by
    rw [Graph.declaration?_id hd]
    rfl
  rw [hname] at h
  obtain ⟨rfl, ⟨hr, -⟩ | ⟨r, schema, description, st₁, hr, -, -⟩⟩ := gives_getOrCreate.mp h
  · refine ⟨rfl, fun owner ⟨slot, howner⟩ => ?_⟩
    obtain ⟨e, he, hsame⟩ := Registry.reserve_eq_existing.mp hr
    rw [howner] at he
    cases he
    exact hsame
  · refine ⟨rfl, fun owner ⟨slot, howner⟩ => ?_⟩
    rw [(Registry.reserve_eq_fresh.mp hr).1] at howner
    cases howner

/-- What a type shows it denotes, and whoever holds the name already is taken for it. -/
theorem denotes_of_gives {n : Nat} {t : TypeExpr} {o : Origin} {st st' : Situation} {s : Schema}
    {name : String} (h : Gives (typeWithin g n t o) st s st') (hs : Shows name s)
    {owner : Instance} (howner : HoldsFor name owner st.1) :
    ∃ i, Denotes g (.type t o) i ∧ i.name = name ∧ owner.same i := by
  induction n generalizing t st s st' with
  | zero => exact absurd h gives_throw
  | succ n ih =>
    cases t with
    | keyword k =>
      simp only [typeWithin] at h
      split at h
      · obtain ⟨rfl, -⟩ := gives_pure.mp h
        cases hs
      · exact absurd h gives_fail
    | literal l =>
      obtain ⟨rfl, -⟩ := gives_pure.mp h
      cases l <;> cases hs
    | array t =>
      obtain ⟨a, st₁, -, h⟩ := gives_bind.mp h
      obtain ⟨rfl, -⟩ := gives_pure.mp h
      cases hs
    | union ts =>
      obtain ⟨ss, st₁, hss, h⟩ := gives_bind.mp h
      obtain ⟨rfl, -⟩ := gives_pure.mp h
      split at hs
      · cases hs
      obtain ⟨s, hmem, hs⟩ := Schema.shows_unionOf hs
      have hkeeps := (within_keeps (holdsFor_invariant name owner) g n).1
      obtain ⟨t, ht, st₁, st₁', hst₁, hgives⟩ := mem_of_gives_all hkeeps howner hss hmem
      obtain ⟨i, hi, hname, hsame⟩ := ih hgives hs hst₁
      exact ⟨i, .alternative ht hi, hname, hsame⟩
    | intersection ts =>
      obtain ⟨ss, st₁, -, h⟩ := gives_bind.mp h
      obtain ⟨r, st₂, -, h⟩ := gives_bind.mp h
      split at h
      · obtain ⟨rfl, -⟩ := gives_pure.mp h
        cases hs
      · obtain ⟨rfl, -⟩ := gives_pure.mp h
        cases hs
    | object shape =>
      obtain ⟨ps, st₁, -, h⟩ := gives_bind.mp h
      obtain ⟨a, st₂, -, h⟩ := gives_bind.mp h
      obtain ⟨rfl, -⟩ := gives_pure.mp h
      cases hs
    | ref r =>
      simp only [typeWithin, refOf] at h
      split at h
      · rename_i b hb
        obtain ⟨rfl, t, ht, h⟩ := gives_builtin_shows h hs
        obtain ⟨i, hi, hname, hsame⟩ := ih h hs howner
        exact ⟨i, .promise hb ht hi, hname, hsame⟩
      · rename_i hb
        obtain ⟨d, hd, h⟩ := gives_ofExcept_bind.mp h
        obtain ⟨i, hi, h⟩ := gives_ofExcept_bind.mp h
        obtain ⟨rfl, hsame⟩ := gives_instanceOf h
        cases hs
        exact ⟨i, .reference (.reference hb hd hi), rfl, hsame owner howner⟩
    | param name => exact absurd h gives_fail
    | unsupported c => exact absurd h gives_fail

end

end Resolve

end RouteContract

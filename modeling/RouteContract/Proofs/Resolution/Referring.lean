import RouteContract.Proofs.Resolution.Denoting
import RouteContract.Proofs.Resolution.Termination

/-!
# References and their instances

A reference to a declared name is resolved by asking for one instance. Afterwards
the name of the instance is held for it, or for one that is the same, and to ask
again builds nothing.
-/

set_option autoImplicit false

namespace RouteContract

namespace Resolve

section

variable {g : Graph} {members : Declaration → List TypeExpr → ObjectSchema Schema →
  Resolve (ObjectSchema Schema)} {i : Instance} {d : Declaration} {st st' : Situation} {s : Schema}

theorem instanceOf_eq (hd : g.declaration? i.id = some d)
    (harity : d.params.length = i.args.length) :
    instanceOf members g i = Registry.getOrCreate .fault i.name i (body members d i.args) := by
  have hname : TypeExpr.canonicalName d.id.name i.args = i.name := by
    rw [Graph.declaration?_id hd]
    rfl
  unfold instanceOf
  simp only [hd, harity, ne_eq, not_true_eq_false, if_false, hname]

theorem declared_of_gives (h : Gives (instanceOf members g i) st s st') :
    ∃ d, g.declaration? i.id = some d ∧ d.params.length = i.args.length := by
  unfold instanceOf at h
  cases hd : g.declaration? i.id with
  | none =>
    rw [hd] at h
    exact absurd h gives_fail
  | some d =>
    refine ⟨d, rfl, ?_⟩
    by_contra harity
    simp only [hd, ne_eq, harity, not_false_eq_true, if_true] at h
    exact absurd h gives_fail

theorem holdsFor_of_build {build : Resolve (Schema × Option String)}
    (hbuild : Ensures (HoldsFor i.name i) build fun x => x.1.isGround) {r : Registry}
    (hfree : r.entries.find? i.name = none) {ids : List DeclId} {x : Schema × Option String}
    (h : Gives build (r.claim i.name i, ids) x st') : HoldsFor i.name i st'.1 := by
  have hclaimed : HoldsFor i.name i (r.claim i.name i) :=
    (holdsFor_claim hfree).mpr (.inr ⟨rfl, rfl⟩)
  exact hbuild.after hclaimed h

/-- After a registration the name is held for the instance, or for one that is the same. -/
theorem owner_of_getOrCreate {build : Resolve (Schema × Option String)}
    (hbuild : Ensures (HoldsFor i.name i) build fun x => x.1.isGround)
    (h : Gives (Registry.getOrCreate .fault i.name i build) st s st') :
    ∃ owner, HoldsFor i.name owner st'.1 ∧ (owner = i ∨ owner.same i) := by
  obtain ⟨-, ⟨hr, rfl⟩ | ⟨r, schema, description, mid, hr, hb, rfl⟩⟩ := gives_getOrCreate.mp h
  · obtain ⟨⟨owner, slot⟩, he, hsame⟩ := Registry.reserve_eq_existing.mp hr
    exact ⟨owner, ⟨slot, he⟩, .inr hsame⟩
  · obtain ⟨hfree, rfl⟩ := Registry.reserve_eq_fresh.mp hr
    exact ⟨i, holdsFor_define.mpr (holdsFor_of_build hbuild hfree hb), .inl rfl⟩

/-- Where the name is free, it is held for the instance afterwards. -/
theorem holdsFor_of_gives (hm : ∀ name owner, MembersKeep (HoldsFor name owner) members)
    (hfree : st.1.entries.find? i.name = none) (h : Gives (instanceOf members g i) st s st') :
    HoldsFor i.name i st'.1 := by
  obtain ⟨d, hd, harity⟩ := declared_of_gives h
  rw [instanceOf_eq hd harity] at h
  obtain ⟨-, ⟨hr, -⟩ | ⟨r, schema, description, mid, hr, hb, rfl⟩⟩ := gives_getOrCreate.mp h
  · obtain ⟨e, he, -⟩ := Registry.reserve_eq_existing.mp hr
    rw [hfree] at he
    cases he
  · obtain ⟨-, rfl⟩ := Registry.reserve_eq_fresh.mp hr
    exact holdsFor_define.mpr (holdsFor_of_build (body_ground (hm i.name i) d i.args) hfree hb)

/-- A reference that is resolved is held for its instance, or for one that is the same. -/
theorem held_of_gives (hm : ∀ name owner, MembersKeep (HoldsFor name owner) members)
    (h : Gives (instanceOf members g i) st s st') :
    ∃ d e, g.declaration? i.id = some d ∧ d.params.length = i.args.length ∧
      st'.1.entries.find? i.name = some e ∧ (e.owner = i ∨ e.owner.same i) := by
  obtain ⟨d, hd, harity⟩ := declared_of_gives h
  rw [instanceOf_eq hd harity] at h
  obtain ⟨owner, ⟨slot, he⟩, howner⟩ := owner_of_getOrCreate (body_ground (hm i.name i) d i.args) h
  exact ⟨d, _, hd, harity, he, howner⟩

/-- Where the name is held, nothing is built. -/
theorem outcome_instanceOf_held {e : RegistryEntry} (hd : g.declaration? i.id = some d)
    (harity : d.params.length = i.args.length) (he : st.1.entries.find? i.name = some e) :
    outcome (instanceOf members g i) st =
      if e.owner.same i then (.ok (.reference i.name), st)
      else (.error (.fault (.nameCollision i.name e.owner.text i.text)), st) := by
  rw [instanceOf_eq hd harity, outcome_getOrCreate]
  unfold Registry.reserve
  rw [he]
  dsimp only
  by_cases hs : e.owner.same i <;> simp [hs]

end

section

variable {g : Graph} {r : TypeRef TypeExpr} {o : Origin} {d : Declaration} {i : Instance}

theorem typeWithin_named (hr : r.builtin? = none) (n : Nat) :
    typeWithin g (n + 1) (.ref r) o = ofExcept (g.lookup r o) >>= fun d =>
      ofExcept (d.instantiate g r.args o) >>= instanceOf (membersWithin g n) g := by
  simp only [typeWithin, refOf, hr]

/-- A reference to a declared name is resolved as the instance that it means. -/
theorem typeWithin_ref (hr : r.builtin? = none) (hl : g.lookup r o = .ok d)
    (hi : d.instantiate g r.args o = .ok i) (n : Nat) :
    typeWithin g (n + 1) (.ref r) o = instanceOf (membersWithin g n) g i := by
  rw [typeWithin_named hr, hl]
  show ofExcept (d.instantiate g r.args o) >>= _ = _
  rw [hi]
  rfl

theorem exists_resolveType_ref (hr : r.builtin? = none) (hl : g.lookup r o = .ok d)
    (hi : d.instantiate g r.args o = .ok i) :
    ∃ n, g.resolveType (.ref r) o = instanceOf (membersWithin g n) g i := by
  obtain ⟨n, hn⟩ := g.exists_resolveType_eq (.ref r) o
  exact ⟨n, (hn (n + 1) (Nat.le_succ n)).trans (typeWithin_ref hr hl hi n)⟩

/-- References to one instance are resolved alike, wherever they were written. -/
theorem resolveType_eq_of_instance {r' : TypeRef TypeExpr} {o' : Origin} {d' : Declaration}
    (hr : r.builtin? = none) (hl : g.lookup r o = .ok d) (hi : d.instantiate g r.args o = .ok i)
    (hr' : r'.builtin? = none) (hl' : g.lookup r' o' = .ok d')
    (hi' : d'.instantiate g r'.args o' = .ok i) :
    g.resolveType (.ref r) o = g.resolveType (.ref r') o' := by
  obtain ⟨n, hn⟩ := g.exists_resolveType_eq (.ref r) o
  obtain ⟨m, hm⟩ := g.exists_resolveType_eq (.ref r') o'
  rw [hn (max n m + 1) (by omega), hm (max n m + 1) (by omega), typeWithin_ref hr hl hi,
    typeWithin_ref hr' hl' hi']

theorem gives_reference (hr : r.builtin? = none) (hl : g.lookup r o = .ok d)
    (hi : d.instantiate g r.args o = .ok i) {st st' : Situation} {s : Schema}
    (h : Gives (g.resolveType (.ref r) o) st s st') : s = .reference i.name := by
  obtain ⟨n, hn⟩ := exists_resolveType_ref hr hl hi
  rw [hn] at h
  exact (gives_instanceOf h).1

theorem instantiated_of_gives (hr : r.builtin? = none) (hl : g.lookup r o = .ok d)
    {st st' : Situation} {s : Schema} (h : Gives (g.resolveType (.ref r) o) st s st') :
    ∃ i, d.instantiate g r.args o = .ok i := by
  obtain ⟨n, hn⟩ := g.exists_resolveType_eq (.ref r) o
  rw [hn (n + 1) (Nat.le_succ n), typeWithin_named hr] at h
  obtain ⟨d', hl', h⟩ := gives_ofExcept_bind.mp h
  obtain ⟨i, hi, -⟩ := gives_ofExcept_bind.mp h
  rw [hl] at hl'
  cases hl'
  exact ⟨i, hi⟩

/-- On its own a reference to a declared name leaves the name to its instance. -/
theorem named_of_gives (hr : r.builtin? = none) (hl : g.lookup r o = .ok d) {st' : Situation}
    {s : Schema} (h : Gives (g.resolveType (.ref r) o) (.empty, []) s st') :
    ∃ i, d.instantiate g r.args o = .ok i ∧ s = .reference i.name ∧ HoldsFor i.name i st'.1 := by
  obtain ⟨i, hi⟩ := instantiated_of_gives hr hl h
  obtain ⟨n, hn⟩ := exists_resolveType_ref hr hl hi
  rw [hn] at h
  have hkeeps := fun name owner => (within_keeps (holdsFor_invariant name owner) g n).2
  exact ⟨i, hi, (gives_instanceOf h).1, holdsFor_of_gives hkeeps rfl h⟩

end

end Resolve

end RouteContract

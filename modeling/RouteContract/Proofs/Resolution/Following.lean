import RouteContract.Proofs.Resolution.Bases
import RouteContract.Proofs.Resolution.Denoting
import RouteContract.Proofs.Resolution.Growth

/-!
# Runs in another order

A run is repeated over a registry that has come about in another order, where
other names are held and others are pending. It gives what it gave, or it stops
for want of nested steps or at a declaration that is being collected. This needs
that a merged intersection never looks at a pending definition, and that the
registry tells instances of one name apart.
-/

set_option autoImplicit false

namespace RouteContract

open Relation (ReflTransGen TransGen)

section

variable (g : Graph) (roots : TypeExpr → Prop)

/-- No member of an intersection in the body of an instance denotes an instance that leads back to
it. -/
def Graph.Untangled : Prop :=
  ∀ ⦃i j : Instance⦄ ⦃ts : List TypeExpr⦄ ⦃t : TypeExpr⦄ ⦃o : Origin⦄, i.Asked g roots →
    i.Contains g (.type (.intersection ts) o) → t ∈ ts →
    Resolve.Node.Denotes g (.type t o) j → ¬ ReflTransGen (Instance.Leads g) j i

def Graph.Discerning : Prop :=
  ∀ ⦃i j : Instance⦄, i.Asked g roots → j.Asked g roots → i.name = j.name → (i.same j ↔ i = j)

end

theorem Instance.Contains.leads {g : Graph} {i j : Instance} {node : Resolve.Node}
    (h : i.Contains g node) (hj : Resolve.Node.Denotes g node j) : i.Leads g j := by
  induction hj with
  | reference hasks => exact ⟨_, h, hasks⟩
  | promise hr ht _ ih =>
    obtain ⟨d, hd, hreach⟩ := h
    exact ih ⟨d, hd, hreach.tail (.argument hr ht)⟩
  | alternative ht _ ih =>
    obtain ⟨d, hd, hreach⟩ := h
    exact ih ⟨d, hd, hreach.tail (.alternative ht)⟩

/-- Where no instance leads back to itself there is nothing to untangle. -/
theorem Graph.untangled_of_acyclic {g : Graph} {roots : TypeExpr → Prop}
    (h : ∀ i, i.Asked g roots → ¬ TransGen (Instance.Leads g) i i) : g.Untangled roots := by
  intro i j ts t o hi hnode ht hj hback
  obtain ⟨d, hd, hreach⟩ := hnode
  have hmember : i.Contains g (.type t o) := ⟨d, hd, hreach.tail (.constraint ht)⟩
  exact h i hi (TransGen.head' (hmember.leads hj) hback)

/-- Instances of declarations without type parameters are told apart. -/
theorem Graph.discerning_of_plain {g : Graph} {roots : TypeExpr → Prop}
    (h : ∀ d ∈ g.declarations, d.params = []) : g.Discerning roots := by
  have hasked : ∀ {node : Resolve.Node} {i : Instance}, node.AsksFor g i → i.args = [] := by
    intro node i hi
    cases hi with
    | reference hr hl hi =>
      have hparams := h _ (Graph.lookup_mem hl)
      unfold Declaration.instantiate at hi
      split at hi
      · cases hi
      · rw [hparams] at hi
        cases hi
        rfl
  have hplain : ∀ {i : Instance}, i.Asked g roots → i.args = [] := by
    intro i hi
    cases hi with
    | root _ _ hi => exact hasked hi
    | lead _ hl =>
      obtain ⟨node, -, hi⟩ := hl
      exact hasked hi
  intro i j hi hj _
  obtain ⟨id, args⟩ := i
  obtain ⟨id', args'⟩ := j
  obtain rfl : args = [] := hplain hi
  obtain rfl : args' = [] := hplain hj
  simp [Instance.same, TypeExpr.sameAll]

namespace Resolve

open Instance (Asked)
open Node (Stands Denotes)
open Schema (references allReferences)

def meet (r : Registry) (ss : List Schema) : Schema :=
  match ss.mapM (object? r) with
  | some objects => .object (objects.foldl ObjectSchema.merge .empty)
  | none => .intersection ss

theorem intersectionOf_eq (type : TypeExpr → Origin → Resolve Schema) (ts : List TypeExpr)
    (o : Origin) : intersectionOf type ts o =
      all type o ts >>= fun ss => registry >>= fun r => return meet r ss := by
  unfold intersectionOf meet
  congr 1
  funext ss
  congr 1
  funext r
  cases ss.mapM (object? r) <;> rfl

theorem meet_congr {r r' : Registry} {ss : List Schema}
    (h : ∀ s ∈ ss, object? r s = object? r' s) : meet r ss = meet r' ss := by
  have hmap : ss.mapM (object? r) = ss.mapM (object? r') := by
    induction ss with
    | nil => rfl
    | cons s ss ih =>
      rw [List.mapM_cons, List.mapM_cons, h s (by simp), ih fun t ht => h t (by simp [ht])]
  unfold meet
  rw [hmap]

theorem gives_intersectionOf {type : TypeExpr → Origin → Resolve Schema} {ts : List TypeExpr}
    {o : Origin} {st st' : Situation} {s : Schema} :
    Gives (intersectionOf type ts o) st s st' ↔
      ∃ ss, Gives (all type o ts) st ss st' ∧ s = meet st'.1 ss := by
  rw [intersectionOf_eq, gives_bind]
  constructor
  · rintro ⟨ss, st₁, hss, h⟩
    obtain ⟨r, st₂, hr, h⟩ := gives_bind.mp h
    obtain ⟨rfl, rfl⟩ := gives_registry.mp hr
    obtain ⟨rfl, rfl⟩ := gives_pure.mp h
    exact ⟨ss, hss, rfl⟩
  · rintro ⟨ss, hss, rfl⟩
    have hread : Gives registry st' st'.1 st' := gives_registry.mpr ⟨rfl, rfl⟩
    exact ⟨ss, st', hss, gives_bind.mpr ⟨_, _, hread, gives_pure.mpr ⟨rfl, rfl⟩⟩⟩

theorem fails_intersectionOf {type : TypeExpr → Origin → Resolve Schema} {ts : List TypeExpr}
    {o : Origin} {st : Situation} {e : Stop} (h : Fails (all type o ts) st e) :
    Fails (intersectionOf type ts o) st e := by
  rw [intersectionOf_eq, fails_bind]
  exact .inl h

section

variable (g : Graph) (roots : TypeExpr → Prop)

structure Final (R : Registry) : Prop where
  tracks : Tracks g roots none R
  built : Built g roots R

def Yields (R : Registry) (ctx : Option Instance) (held : List String) {α : Type} (m : Resolve α)
    (a : α) : Prop :=
  ∀ st, Ready g roots ctx held st.1 → st.1.Below R →
    (∃ st', Gives m st a st' ∧ st'.1.Below R) ∨ ∃ e, Fails m st e ∧ e.Untimely

/-- What the first run gives the second one yields, and both of them are proper. -/
structure Follows (ctx : Option Instance) (held : List String) (α : Type) (names : α → List String)
    (m₁ m₂ : Resolve α) : Prop where
  left : Proper g roots ctx held α names m₁
  right : Proper g roots ctx held α names m₂
  yields : ∀ {R st a st'}, Final g roots R → Ready g roots ctx held st.1 → Gives m₁ st a st' →
    st'.1.Below R → Yields g roots R ctx held m₂ a

end

section

variable {g : Graph} {roots : TypeExpr → Prop} {R : Registry} {ctx : Option Instance}
  {held : List String} {α β : Type} {names : α → List String} {names' : β → List String}

theorem Ready.mono {held held' : List String} {r : Registry} (h : Ready g roots ctx held' r)
    (hsub : held ⊆ held') : Ready g roots ctx held r :=
  ⟨h.sound, h.tracks, fun name hname => h.held name (hsub hname)⟩

theorem Yields.ofExcept {x : Except Fault α} {a : α} (h : x = .ok a) :
    Yields g roots R ctx held (ofExcept x) a :=
  fun st _ hbelow => .inl ⟨st, gives_ofExcept.mpr ⟨h, rfl⟩, hbelow⟩

theorem Yields.bind {m : Resolve α} {f : α → Resolve β} {a : α} {b : β}
    (hm : Proper g roots ctx held α names m) (h : Yields g roots R ctx held m a)
    (hf : Yields g roots R ctx (names a ++ held) (f a) b) :
    Yields g roots R ctx held (m >>= f) b := by
  intro st hst hbelow
  rcases h st hst hbelow with ⟨st₁, ha, hbelow₁⟩ | ⟨e, hfail, he⟩
  · have hready := ((hm st hst).2 a st₁ ha).ready
    rcases hf st₁ hready hbelow₁ with ⟨st₂, hb, hbelow₂⟩ | ⟨e, hfail, he⟩
    · exact .inl ⟨st₂, gives_bind.mpr ⟨a, st₁, ha, hb⟩, hbelow₂⟩
    · exact .inr ⟨e, fails_bind.mpr (.inr ⟨a, st₁, ha, hfail⟩), he⟩
  · exact .inr ⟨e, fails_bind.mpr (.inl hfail), he⟩

theorem Yields.bracket {id : DeclId} {m : Resolve α} {a : α}
    (h : Yields g roots R ctx held m a) : Yields g roots R ctx held (bracket id m) a := by
  intro st hst hbelow
  by_cases hid : id ∈ st.2
  · exact .inr ⟨_, fails_bracket.mpr (.inl ⟨hid, rfl⟩), .looping _⟩
  · rcases h (st.1, st.2 ++ [id]) hst hbelow with ⟨st₁, ha, hbelow₁⟩ | ⟨e, hfail, he⟩
    · exact .inl ⟨_, gives_bracket.mpr ⟨hid, st₁, ha, rfl⟩, hbelow₁⟩
    · exact .inr ⟨e, fails_bracket.mpr (.inr ⟨hid, hfail⟩), he⟩

namespace Follows

theorem check {x : Except Fault α} (hx : Local x) (hn : ∀ a, x = .ok a → names a ⊆ held) :
    Follows g roots ctx held α names (ofExcept x) (ofExcept x) where
  left := .check hx hn
  right := .check hx hn
  yields _ _ ha _ := .ofExcept (gives_ofExcept.mp ha).1

theorem bind {m₁ m₂ : Resolve α} {f₁ f₂ : α → Resolve β}
    (h : Follows g roots ctx held α names m₁ m₂)
    (hf : ∀ a, Follows g roots ctx (names a ++ held) β names' (f₁ a) (f₂ a)) :
    Follows g roots ctx held β names' (m₁ >>= f₁) (m₂ >>= f₂) where
  left := h.left.bind fun a => (hf a).left
  right := h.right.bind fun a => (hf a).right
  yields := by
    intro R st b st₂ hR hst hb hbelow
    obtain ⟨a, st₁, ha, hb⟩ := gives_bind.mp hb
    have hready := ((h.left st hst).2 a st₁ ha).ready
    have hgrows := (((hf a).left st₁ hready).2 b st₂ hb).grows
    have hfirst := h.yields hR hst ha (Registry.Below.trans hgrows.below hbelow)
    exact hfirst.bind h.right ((hf a).yields hR hready hb hbelow)

theorem bracket {id : DeclId} {m₁ m₂ : Resolve α} (h : Follows g roots ctx held α names m₁ m₂) :
    Follows g roots ctx held α names (Resolve.bracket id m₁) (Resolve.bracket id m₂) where
  left := h.left.bracket
  right := h.right.bracket
  yields := by
    intro R st a st' hR hst ha hbelow
    obtain ⟨-, st₁, hrun, rfl⟩ := gives_bracket.mp ha
    have hinner : Ready g roots ctx held (st.1, st.2 ++ [id]).1 := hst
    exact (h.yields hR hinner hrun hbelow).bracket

theorem stopped {m₂ : Resolve α} (h : Proper g roots ctx held α names m₂) :
    Follows g roots ctx held α names (throw .exhausted) m₂ where
  left := .stopped
  right := h
  yields _ _ ha _ := absurd ha gives_throw

theorem stopping {m₁ : Resolve α} (h : Proper g roots ctx held α names m₁) :
    Follows g roots ctx held α names m₁ (throw .exhausted) where
  left := h
  right := .stopped
  yields _ _ _ _ := fun _ _ _ => .inr ⟨_, fails_throw.mpr rfl, .exhausted⟩

end Follows

/-- A schema that a member of an intersection gives is the same object in the final registry. -/
theorem object?_of_final (hU : g.Untangled roots) (hD : g.Discerning roots) {ts : List TypeExpr}
    {o : Origin} (hnode : Stands g roots ctx (.type (.intersection ts) o)) {n : Nat}
    (hall : Proper g roots ctx held _ allReferences (all (typeWithin g n) o ts))
    {st st' : Situation} {ss : List Schema} (hst : Ready g roots ctx held st.1)
    (hss : Gives (all (typeWithin g n) o ts) st ss st') (hR : st'.1.Below R) {s : Schema}
    (hs : s ∈ ss) : object? st'.1 s = object? R s := by
  cases s with
  | reference name =>
    have hleaves := (hall st hst).2 ss st' hss
    have hname : name ∈ allReferences ss :=
      Schema.mem_allReferences.mpr ⟨_, hs, List.mem_singleton_self name⟩
    obtain ⟨⟨owner, slot⟩, he⟩ :=
      Registry.contains_iff.mp (hleaves.ready.held name (List.mem_append_left held hname))
    obtain ⟨slot', hR', hslot⟩ := hR he
    rcases hslot with rfl | rfl
    · -- A pending owner leads to the instance of the present body, and the member denotes it.
      obtain ⟨hasked, rfl⟩ := hleaves.ready.tracks.asked he
      have hbefore : HoldsFor owner.name owner st.1 :=
        ⟨.pending, (hleaves.grows.new he).resolve_right (not_not.mpr rfl)⟩
      obtain ⟨i, rfl, hback⟩ := hleaves.ready.tracks.pending he
      have hkeeps := (within_keeps (holdsFor_invariant owner.name owner) g n).1
      obtain ⟨t, ht, st₁, st₁', hst₁, hgives⟩ := mem_of_gives_all hkeeps hbefore hss hs
      obtain ⟨j, hj, hjname, hsame⟩ := denotes_of_gives hgives .reference hst₁
      have hjasked := (hnode.part (.constraint ht)).denoted hj
      obtain rfl := (hD hasked hjasked hjname.symm).mp hsame
      exact absurd hback (hU hnode.1 hnode.2 ht hj)
    · simp [object?, Registry.defined?, he, hR']
  | _ => rfl

theorem meet_final (hU : g.Untangled roots) (hD : g.Discerning roots) {ts : List TypeExpr}
    {o : Origin} (hnode : Stands g roots ctx (.type (.intersection ts) o)) {n : Nat}
    (hall : Proper g roots ctx held _ allReferences (all (typeWithin g n) o ts))
    {st st' : Situation} {ss : List Schema} (hst : Ready g roots ctx held st.1)
    (hss : Gives (all (typeWithin g n) o ts) st ss st') (hR : st'.1.Below R) :
    meet st'.1 ss = meet R ss :=
  meet_congr fun _ hs => object?_of_final hU hD hnode hall hst hss hR hs

theorem Follows.merge (hU : g.Untangled roots) (hD : g.Discerning roots) {ts : List TypeExpr}
    {o : Origin} {n₁ n₂ : Nat} (hnode : Stands g roots ctx (.type (.intersection ts) o))
    (h : Follows g roots ctx held _ allReferences (all (typeWithin g n₁) o ts)
      (all (typeWithin g n₂) o ts)) :
    Follows g roots ctx held _ references (intersectionOf (typeWithin g n₁) ts o)
      (intersectionOf (typeWithin g n₂) ts o) where
  left := h.left.merge
  right := h.right.merge
  yields := by
    intro R st s st' hR hst hs hbelow st₂ hst₂ hbelow₂
    obtain ⟨ss, hss, rfl⟩ := gives_intersectionOf.mp hs
    rcases h.yields hR hst hss hbelow st₂ hst₂ hbelow₂ with ⟨st₂', hss₂, hbelow₂'⟩ | ⟨e, hfail, he⟩
    · refine .inl ⟨st₂', gives_intersectionOf.mpr ⟨ss, hss₂, ?_⟩, hbelow₂'⟩
      rw [meet_final hU hD hnode h.left hst hss hbelow,
        meet_final hU hD hnode h.right hst₂ hss₂ hbelow₂']
    · exact .inr ⟨e, fails_intersectionOf hfail, he⟩

/-- A name that a registry below the final one holds for an instance belongs to it there too. -/
theorem Final.owner (hR : Final g roots R) {name : String} {owner : Instance}
    (h : HoldsFor name owner R) : ∃ schema description,
      R.entries.find? name = some ⟨owner, .defined schema description⟩ := by
  obtain ⟨slot, h⟩ := h
  cases slot with
  | pending =>
    obtain ⟨i, hi, -⟩ := hR.tracks.pending h
    cases hi
  | defined schema description => exact ⟨schema, description, h⟩

theorem HoldsFor.below {r : Registry} {name : String} {owner : Instance}
    (h : HoldsFor name owner r) (hR : r.Below R) : HoldsFor name owner R := by
  obtain ⟨slot, h⟩ := h
  obtain ⟨slot', h', -⟩ := hR h
  exact ⟨slot', h'⟩

/-- After a registration the name is held for the instance. -/
theorem holdsFor_of_getOrCreate (hD : g.Discerning roots) {node : Node} {i : Instance}
    (hnode : Stands g roots ctx node) (hasks : node.AsksFor g i) {d : Declaration}
    (hd : g.declaration? i.id = some d) {n : Nat}
    (hbody : Proper g roots (some i) [] _ (fun x => x.1.references)
      (body (membersWithin g n) d i.args)) {st st' : Situation} {s : Schema}
    (hst : Ready g roots ctx held st.1)
    (h : Gives (Registry.getOrCreate .fault i.name i (body (membersWithin g n) d i.args)) st s st') :
    s = .reference i.name ∧ HoldsFor i.name i st'.1 := by
  obtain ⟨rfl, ⟨hr, rfl⟩ | ⟨r, schema, description, st₁, hr, hb, rfl⟩⟩ := gives_getOrCreate.mp h
  · obtain ⟨⟨owner, slot⟩, he, hsame⟩ := Registry.reserve_eq_existing.mp hr
    obtain ⟨hasked, hname⟩ := hst.tracks.asked he
    obtain rfl := (hD hasked (hnode.asked hasks) hname).mp hsame
    exact ⟨rfl, slot, he⟩
  · obtain ⟨hfree, rfl⟩ := Registry.reserve_eq_fresh.mp hr
    have hleaves := (hbody _ (hst.claim hnode hasks hfree)).2 _ st₁ hb
    have hpending := hleaves.grows.keep (by rw [Registry.claim_find? hfree, if_pos rfl])
    exact ⟨rfl, _, by rw [Registry.define_find? hpending, if_pos rfl]⟩

theorem Follows.register (hD : g.Discerning roots) {n₁ n₂ : Nat} {node : Node} {i : Instance}
    {d : Declaration} (hnode : Stands g roots ctx node) (hasks : node.AsksFor g i)
    (hd : g.declaration? i.id = some d)
    (h : ∀ n, Follows g roots (some i) [] _ (fun x => x.1.references)
      (body (membersWithin g n) d i.args) (body (membersWithin g n₂) d i.args)) :
    Follows g roots ctx held _ references
      (Registry.getOrCreate .fault i.name i (body (membersWithin g n₁) d i.args))
      (Registry.getOrCreate .fault i.name i (body (membersWithin g n₂) d i.args)) where
  left := .register hnode hasks hd (h n₁).left
  right := .register hnode hasks hd (h n₂).right
  yields := by
    intro R st s st' hR hst hs hbelow st₂ hst₂ hbelow₂
    obtain ⟨rfl, howner⟩ := holdsFor_of_getOrCreate hD hnode hasks hd (h n₁).left hst hs
    obtain ⟨schema, description, hfinal⟩ := hR.owner (howner.below hbelow)
    cases hr : st₂.1.reserve i.name i with
    | error f =>
      -- Whoever holds the name holds it in the final registry, so it is the instance itself.
      obtain ⟨⟨owner, slot⟩, he, hsame⟩ := Registry.reserve_eq_error hr
      obtain ⟨slot', he', -⟩ := hbelow₂ he
      rw [hfinal] at he'
      cases he'
      have hasked := hnode.asked hasks
      rw [(hD hasked hasked rfl).mpr rfl] at hsame
      cases hsame
    | ok reservation =>
      cases reservation with
      | existing => exact .inl ⟨st₂, gives_getOrCreate.mpr ⟨rfl, .inl ⟨hr, rfl⟩⟩, hbelow₂⟩
      | fresh r =>
        obtain ⟨hfree, rfl⟩ := Registry.reserve_eq_fresh.mp hr
        -- The run that built the final definition is repeated over the registry at hand.
        obtain ⟨d', n, st₀, st₀', hd', hready₀, hrun, hbelow₀⟩ := hR.built hfinal
        obtain rfl : d' = d := Option.some.inj (hd'.symm.trans hd)
        have hclaim := hst₂.claim hnode hasks hfree
        rcases (h n).yields hR hready₀ hrun hbelow₀ (st₂.1.claim i.name i, st₂.2) hclaim
          (hbelow₂.claim hfree hfinal) with ⟨st₃, hb, hbelow₃⟩ | ⟨e, hfail, he⟩
        · have hleaves := ((h n).right _ hclaim).2 _ st₃ hb
          have hpending := hleaves.grows.keep (by rw [Registry.claim_find? hfree, if_pos rfl])
          exact .inl ⟨_, gives_getOrCreate.mpr ⟨rfl, .inr ⟨_, _, _, _, hr, hb, rfl⟩⟩,
            hbelow₃.define hpending hfinal⟩
        · exact .inr ⟨e, fails_getOrCreate.mpr (.inr ⟨_, hr, hfail⟩), he⟩

end

theorem follows_coupling {g : Graph} {roots : TypeExpr → Prop} (hU : g.Untangled roots)
    (hD : g.Discerning roots) : Coupling g roots (fun _ _ => True) True (Follows g roots) where
  refl _ := trivial
  pred _ := trivial
  stopped := by
    intro n₁ n₂ _ hzero ctx
    have hproper := fun n => (proper_coupling g roots).within (rfl : n = n) ctx
    rcases hzero with rfl | rfl
    · exact ⟨fun t o ht held => .stopped ((hproper n₂).1 t o ht held),
        fun d args ho hd held object object' he hobject =>
          .stopped ((hproper n₂).2 d args ho hd held object' object' (fun _ => rfl)
            (he trivial ▸ hobject))⟩
    · exact ⟨fun t o ht held => .stopping ((hproper n₁).1 t o ht held),
        fun d args ho hd held object object' he hobject =>
          .stopping ((hproper n₁).2 d args ho hd held object object' he hobject)⟩
  check := .check
  give he hn := by
    obtain rfl := he trivial
    exact .check (x := .ok _) (.ok _) (by rintro _ ⟨⟩; exact hn)
  bind h hf := h.bind fun a => hf a a fun _ => rfl
  merge hnode h := .merge hU hD hnode h
  register hnode hasks hd _ _ h := .register hD hnode hasks hd fun n => h n trivial
  bracket := .bracket

end Resolve

end RouteContract

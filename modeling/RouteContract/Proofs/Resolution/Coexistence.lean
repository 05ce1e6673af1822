import RouteContract.Proofs.Resolution.Following
import RouteContract.Proofs.Resolution.Notation
import RouteContract.Proofs.Resolution.Referring
import RouteContract.Proofs.TypeExpr.Names

/-!
# One type after another

A type is resolved where another one has been resolved before. Its run goes like
the run on its own, except that an instance which is held by then is not built
again, and neither is anything that its body asks for. So the two types can only
get in each other's way over a name that both of them need, and they do exactly
where it is the name of different instances.
-/

set_option autoImplicit false

namespace RouteContract

namespace Resolve

open Instance (Asked)
open Node (Stands)
open Schema (references allReferences)

section

variable {A r r' r'' : Registry} {name : String} {i j : Instance}

theorem HoldsFor.unique (hi : HoldsFor name i r) (hj : HoldsFor name j r) : i = j := by
  obtain ⟨slot, hi⟩ := hi
  obtain ⟨slot', hj⟩ := hj
  rw [hi] at hj
  cases hj
  rfl

theorem not_holdsFor_empty : ¬ HoldsFor name i .empty := by
  rintro ⟨slot, h⟩
  cases h

def Inside (r r' : Registry) : Prop :=
  ∀ ⦃name : String⦄ ⦃j : Instance⦄, HoldsFor name j r → HoldsFor name j r'

theorem inside_of_below (h : r.Below r') : Inside r r' := fun _ _ hj => hj.below h

def Within (A r r' : Registry) : Prop :=
  ∀ ⦃name : String⦄ ⦃j : Instance⦄, HoldsFor name j r' → HoldsFor name j r ∨ HoldsFor name j A

theorem Within.refl (A r : Registry) : Within A r r := fun _ _ => .inl

theorem Within.trans (h : Within A r r') (h' : Within A r' r'') : Within A r r'' :=
  fun _ _ hj => (h' hj).elim (h ·) .inr

/-- What the body of a held instance adds is all that its registration adds. -/
theorem Within.register (hfree : r.entries.find? name = none) (hheld : HoldsFor name i A)
    (h : Within A (r.claim name i) r') {schema : Schema} {description : Option String} :
    Within A r (r'.define name schema description) := by
  intro key j hj
  rcases h (holdsFor_define.mp hj) with hj | hj
  · rcases (holdsFor_claim hfree).mp hj with hj | ⟨rfl, rfl⟩
    · exact .inl hj
    · exact .inr hheld
  · exact .inr hj

def Joined (A r r' : Registry) : Prop :=
  ∀ ⦃name : String⦄ ⦃j : Instance⦄, HoldsFor name j r' ↔ HoldsFor name j r ∨ HoldsFor name j A

theorem joined_empty (A : Registry) : Joined A .empty A :=
  fun _ _ => (or_iff_right not_holdsFor_empty).symm

theorem Joined.claim (h : Joined A r r') (hr : r.entries.find? name = none)
    (hr' : r'.entries.find? name = none) : Joined A (r.claim name i) (r'.claim name i) := by
  intro key j
  rw [holdsFor_claim hr, holdsFor_claim hr', h, or_right_comm]

theorem Joined.define (h : Joined A r r') {s s' : Schema}
    {description description' : Option String} :
    Joined A (r.define name s description) (r'.define name s' description') := by
  intro key j
  rw [holdsFor_define, holdsFor_define, h]

/-- What is added to the first registry is there in the second one already. -/
theorem Joined.absorb (h : Joined A r r'') (hinside : Inside r r') (hwithin : Within A r r') :
    Joined A r' r'' := by
  intro key j
  rw [h]
  exact ⟨fun hj => hj.imp_left (hinside ·), fun hj => hj.elim (hwithin ·) .inr⟩

def Distinguish (A B : Registry) : Prop :=
  ∀ ⦃name : String⦄ ⦃i j : Instance⦄, HoldsFor name i A → HoldsFor name j B → i.same j → i = j

/-- Of one name only equal instances are taken for the same. -/
def Discerns (A B : Registry) : Prop :=
  ∀ ⦃x y : Instance⦄, HoldsFor x.name x A → HoldsFor y.name y B → x.name = y.name →
    (x.same y ↔ x = y)

def Separate (A B : Registry) : Prop :=
  ∀ ⦃x y : Instance⦄, HoldsFor x.name x A → HoldsFor y.name y B → x.name = y.name → x = y

/-- Instances of one declaration share a name exactly if the sketches of their arguments agree. -/
theorem arguments_iff (hid : i.id = j.id) (hi : Sketch.Plain true i.sketch)
    (hj : Sketch.Plain true j.sketch) :
    i.name = j.name ↔ TypeExpr.sketchAll i.args = TypeExpr.sketchAll j.args := by
  rw [Instance.sketch, ← hid] at hj
  rw [Instance.name, Instance.name, ← hid]
  exact TypeExpr.canonicalName_eq_iff hi hj

theorem separate_iff {B : Registry}
    (hplain : ∀ x, HoldsFor x.name x A ∨ HoldsFor x.name x B → Sketch.Plain true x.sketch) :
    Separate A B ↔ ∀ x y, HoldsFor x.name x A → HoldsFor y.name y B → x.sketch = y.sketch →
      x = y := by
  constructor
  · exact fun h x y hx hy hxy => h hx hy (TypeExpr.encode_eq_of_sketch hxy)
  · exact fun h x y hx hy hxy => h x y hx hy
      ((TypeExpr.encode_eq_iff (hplain x (.inl hx)) (hplain y (.inr hy))).mp hxy)

end

section

variable (g : Graph) (roots : TypeExpr → Prop)

structure Covers (A B : Registry) (ctx : Option Instance) (held : List String) (α : Type)
    (names : α → List String) (m₁ m₂ : Resolve α) : Prop where
  proper : Proper g roots ctx held α names m₁
  keeps : ∀ name owner, Ensures (HoldsFor name owner) m₂ fun _ => True
  covers : ∀ {st₁ a₁ st₁' st₂ a₂ st₂'}, Ready g roots ctx held st₁.1 → Gives m₁ st₁ a₁ st₁' →
    st₁'.1.Below A → Gives m₂ st₂ a₂ st₂' → Inside st₂'.1 B → Within A st₂.1 st₂'.1

def Clashes (A B : Registry) {α : Type} (m : Resolve α) (st : Situation) : Prop :=
  ∃ name i j, HoldsFor name i A ∧ HoldsFor name j B ∧ i.same j = false ∧
    Fails m st (.fault (.nameCollision name i.text j.text))

/-- The second run finds what the first one does and all that `A` holds. If the first one gives a
result and ends below `B`, then the second one does the same beside `A`, or it clashes. -/
structure Joins (A B : Registry) (ctx : Option Instance) (held : List String) (α : Type)
    (names : α → List String) (m₁ m₂ : Resolve α) : Prop where
  proper : Proper g roots ctx held α names m₁
  joins : ∀ {st₁ a₁ st₁' st₂}, Ready g roots ctx held st₁.1 → Gives m₁ st₁ a₁ st₁' →
    st₁'.1.Below B → st₂.2 = st₁.2 → Joined A st₁.1 st₂.1 →
    (∃ a₂ st₂', Gives m₂ st₂ a₂ st₂' ∧ st₂'.2 = st₁'.2 ∧ Joined A st₁'.1 st₂'.1) ∨
      Clashes A B m₂ st₂

end

section

variable {g : Graph} {roots : TypeExpr → Prop} {A B : Registry} {ctx : Option Instance}
  {held : List String} {α β : Type} {names : α → List String} {names' : β → List String}

/-- The second part of a sequence ends above the first one. -/
theorem Proper.below_of_bind {m : Resolve α} {f : α → Resolve β}
    (h : Proper g roots ctx held α names m)
    (hf : ∀ a, Proper g roots ctx (names a ++ held) β names' (f a)) {st st' st'' : Situation}
    {a : α} {b : β} (hst : Ready g roots ctx held st.1) (ha : Gives m st a st')
    (hb : Gives (f a) st' b st'') :
    Ready g roots ctx (names a ++ held) st'.1 ∧ st'.1.Below st''.1 := by
  have hready := ((h st hst).2 a st' ha).ready
  exact ⟨hready, ((hf a st' hready).2 b st'' hb).grows.below⟩

/-- What a final registry holds for an instance has come from a run for its body. -/
theorem Final.run_of_held (hA : Final g roots A) {i : Instance} {d : Declaration}
    (hd : g.declaration? i.id = some d) (hheld : HoldsFor i.name i A) : ∃ n st x st',
      Ready g roots (some i) [] st.1 ∧ Gives (body (membersWithin g n) d i.args) st x st' ∧
        st'.1.Below A := by
  obtain ⟨schema, description, hfinal⟩ := hA.owner hheld
  obtain ⟨d', n, st, st', hd', hready, hrun, hbelow⟩ := hA.built hfinal
  obtain rfl : d' = d := Option.some.inj (hd'.symm.trans hd)
  exact ⟨n, st, _, st', hready, hrun, hbelow⟩

theorem body_keeps (n : Nat) (d : Declaration) (args : List TypeExpr) (name : String)
    (owner : Instance) :
    Ensures (HoldsFor name owner) (body (membersWithin g n) d args) fun x => x.1.isGround :=
  body_ground (within_keeps (holdsFor_invariant name owner) g n).2 d args

namespace Covers

theorem check {x : Except Fault α} (hx : Local x) (hn : ∀ a, x = .ok a → names a ⊆ held) :
    Covers g roots A B ctx held α names (ofExcept x) (ofExcept x) where
  proper := .check hx hn
  keeps _ _ := .unread
  covers := by
    intro _ _ _ st₂ _ _ _ _ _ h₂ _
    obtain ⟨-, rfl⟩ := gives_ofExcept.mp h₂
    exact .refl A st₂.1

theorem give {a a' : α} (hn : names a ⊆ held) :
    Covers g roots A B ctx held α names (pure a) (pure a') where
  proper := .pure hn
  keeps _ _ := .pure trivial
  covers := by
    intro _ _ _ st₂ _ _ _ _ _ h₂ _
    obtain ⟨-, rfl⟩ := gives_pure.mp h₂
    exact .refl A st₂.1

theorem stopped {m₂ : Resolve α}
    (h : ∀ name owner, Ensures (HoldsFor name owner) m₂ fun _ => True) :
    Covers g roots A B ctx held α names (throw .exhausted) m₂ where
  proper := .stopped
  keeps := h
  covers _ h₁ _ _ _ := absurd h₁ gives_throw

theorem stopping {m₁ : Resolve α} (h : Proper g roots ctx held α names m₁) :
    Covers g roots A B ctx held α names m₁ (throw .exhausted) where
  proper := h
  keeps _ _ := .throw
  covers _ _ _ h₂ _ := absurd h₂ gives_throw

theorem bind {m₁ m₂ : Resolve α} {f₁ f₂ : α → Resolve β}
    (h : Covers g roots A B ctx held α names m₁ m₂)
    (hf : ∀ a a', Covers g roots A B ctx (names a ++ held) β names' (f₁ a) (f₂ a')) :
    Covers g roots A B ctx held β names' (m₁ >>= f₁) (m₂ >>= f₂) where
  proper := h.proper.bind fun a => (hf a a).proper
  keeps name owner := (h.keeps name owner).seq fun a => (hf a a).keeps name owner
  covers := by
    intro st₁ b₁ st₁' st₂ b₂ st₂' hst h₁ hbelow h₂ hinside
    obtain ⟨a₁, mid₁, ha₁, hb₁⟩ := gives_bind.mp h₁
    obtain ⟨a₂, mid₂, ha₂, hb₂⟩ := gives_bind.mp h₂
    obtain ⟨hready, hmid⟩ := h.proper.below_of_bind (fun a => (hf a a).proper) hst ha₁ hb₁
    have hmid₂ : Inside mid₂.1 B :=
      fun name j hj => hinside (((hf a₁ a₂).keeps name j).after hj hb₂)
    have hfirst := h.covers hst ha₁ (Registry.Below.trans hmid hbelow) ha₂ hmid₂
    exact hfirst.trans ((hf a₁ a₂).covers hready hb₁ hbelow hb₂ hinside)

theorem merge {type₁ type₂ : TypeExpr → Origin → Resolve Schema} {ts : List TypeExpr} {o : Origin}
    (h : Covers g roots A B ctx held _ allReferences (all type₁ o ts) (all type₂ o ts)) :
    Covers g roots A B ctx held _ references (intersectionOf type₁ ts o)
      (intersectionOf type₂ ts o) where
  proper := h.proper.merge
  keeps name owner := by
    rw [intersectionOf_eq]
    exact (h.keeps name owner).seq fun ss => Ensures.registry.seq fun r => .pure trivial
  covers := by
    intro st₁ s₁ st₁' st₂ s₂ st₂' hst h₁ hbelow h₂ hinside
    obtain ⟨ss₁, hss₁, -⟩ := gives_intersectionOf.mp h₁
    obtain ⟨ss₂, hss₂, -⟩ := gives_intersectionOf.mp h₂
    exact h.covers hst hss₁ hbelow hss₂ hinside

theorem bracket {id : DeclId} {m₁ m₂ : Resolve α}
    (h : Covers g roots A B ctx held α names m₁ m₂) :
    Covers g roots A B ctx held α names (Resolve.bracket id m₁) (Resolve.bracket id m₂) where
  proper := h.proper.bracket
  keeps name owner := (h.keeps name owner).bracket
  covers := by
    intro st₁ a₁ st₁' st₂ a₂ st₂' hst h₁ hbelow h₂ hinside
    obtain ⟨-, mid₁, hrun₁, rfl⟩ := gives_bracket.mp h₁
    obtain ⟨-, mid₂, hrun₂, rfl⟩ := gives_bracket.mp h₂
    have hinner : Ready g roots ctx held (st₁.1, st₁.2 ++ [id]).1 := hst
    have hwithin : Within A (st₂.1, st₂.2 ++ [id]).1 mid₂.1 :=
      h.covers hinner hrun₁ hbelow hrun₂ hinside
    exact hwithin

theorem register (hdistinguish : Distinguish A B) (hA : Final g roots A) {n₁ n₂ : Nat}
    {node : Node} {i : Instance} {d : Declaration} (hnode : Stands g roots ctx node)
    (hasks : node.AsksFor g i) (hd : g.declaration? i.id = some d)
    (h : ∀ n, Covers g roots A B (some i) [] _ (fun x => x.1.references)
      (body (membersWithin g n) d i.args) (body (membersWithin g n₂) d i.args)) :
    Covers g roots A B ctx held _ references
      (Registry.getOrCreate .fault i.name i (body (membersWithin g n₁) d i.args))
      (Registry.getOrCreate .fault i.name i (body (membersWithin g n₂) d i.args)) where
  proper := .register hnode hasks hd (h n₁).proper
  keeps name owner :=
    .getOrCreate (holdsFor_invariant name owner) (body_keeps n₂ d i.args name owner)
  covers := by
    intro st₁ s₁ st₁' st₂ s₂ st₂' hst h₁ hbelow h₂ hinside
    obtain ⟨owner, howner, hsame⟩ := owner_of_getOrCreate (body_keeps n₁ d i.args i.name i) h₁
    obtain ⟨-, ⟨-, rfl⟩ | ⟨r, schema, description, mid, hr, hb, rfl⟩⟩ := gives_getOrCreate.mp h₂
    · exact .refl A st₂'.1
    obtain ⟨hfree, rfl⟩ := Registry.reserve_eq_fresh.mp hr
    have hmid : Inside mid.1 B := fun name j hj => hinside (holdsFor_define.mpr hj)
    have hclaimed := hmid (holdsFor_of_build (body_keeps n₂ d i.args i.name i) hfree hb)
    obtain rfl : owner = i := hsame.elim id (hdistinguish (howner.below hbelow) hclaimed)
    -- The run that has built the instance covers the body.
    have hheld : HoldsFor owner.name owner A := howner.below hbelow
    obtain ⟨n, st₀, x₀, st₀', hready, hrun, hbelow₀⟩ := hA.run_of_held hd hheld
    exact Within.register hfree hheld ((h n).covers hready hrun hbelow₀ hb hmid)

end Covers

theorem covers_coupling (hdistinguish : Distinguish A B) (hA : Final g roots A) :
    Coupling g roots (fun _ _ => True) False (Covers g roots A B) where
  refl _ := trivial
  pred _ := trivial
  stopped := by
    intro n₁ n₂ _ hzero ctx
    have hproper := (proper_coupling g roots).within (rfl : n₁ = n₁) ctx
    have hkeeps := fun name owner => within_keeps (holdsFor_invariant name owner) g n₂
    rcases hzero with rfl | rfl
    · exact ⟨fun t o _ _ => .stopped fun name owner => (hkeeps name owner).1 t o,
        fun d args _ _ _ _ object' _ _ =>
          .stopped fun name owner => (hkeeps name owner).2 d args object'⟩
    · exact ⟨fun t o ht held => .stopping (hproper.1 t o ht held),
        fun d args ho hd held object _ _ hobject =>
          .stopping (hproper.2 d args ho hd held object object (fun _ => rfl) hobject)⟩
  check := .check
  give _ hn := .give hn
  bind h hf := h.bind fun a a' => hf a a' False.elim
  merge _ h := h.merge
  register hnode hasks hd _ _ h :=
    .register hdistinguish hA hnode hasks hd fun n => h n trivial
  bracket := .bracket

/-- A final registry that has the instance has all that its body asks for. -/
theorem Final.within_body (hA : Final g roots A) (hdistinguish : Distinguish A B) {i : Instance}
    (hi : Asked g roots i) {d : Declaration} (hd : g.declaration? i.id = some d)
    (hheld : HoldsFor i.name i A) {n : Nat} {st st' : Situation} {x : Schema × Option String}
    (h : Gives (body (membersWithin g n) d i.args) st x st') (hinside : Inside st'.1 B) :
    Within A st.1 st'.1 := by
  have hcoupling := covers_coupling hdistinguish hA
  obtain ⟨n', st₀, x₀, st₀', hready, hrun, hbelow⟩ := hA.run_of_held hd hheld
  have hbody : Covers g roots A B (some i) [] _ (fun x => x.1.references)
      (body (membersWithin g n') d i.args) (body (membersWithin g n) d i.args) :=
    hcoupling.body fun ho =>
      (hcoupling.within trivial (some i)).2 d i.args ho (Node.stands_body hi hd)
  exact hbody.covers hready hrun hbelow h hinside

theorem Clashes.imp {m : Resolve α} {m' : Resolve β} {st st' : Situation} (h : Clashes A B m st)
    (hf : ∀ f, Fails m st (.fault f) → Fails m' st' (.fault f)) : Clashes A B m' st' := by
  obtain ⟨name, i, j, hi, hj, hij, hfail⟩ := h
  exact ⟨name, i, j, hi, hj, hij, hf _ hfail⟩

namespace Joins

theorem check {x : Except Fault α} (hx : Local x) (hn : ∀ a, x = .ok a → names a ⊆ held) :
    Joins g roots A B ctx held α names (ofExcept x) (ofExcept x) where
  proper := .check hx hn
  joins := by
    intro st₁ a₁ st₁' st₂ _ h₁ _ hids hjoined
    obtain ⟨ha, rfl⟩ := gives_ofExcept.mp h₁
    exact .inl ⟨a₁, st₂, gives_ofExcept.mpr ⟨ha, rfl⟩, hids, hjoined⟩

theorem give {a a' : α} (hn : names a ⊆ held) :
    Joins g roots A B ctx held α names (pure a) (pure a') where
  proper := .pure hn
  joins := by
    intro st₁ a₁ st₁' st₂ _ h₁ _ hids hjoined
    obtain ⟨-, rfl⟩ := gives_pure.mp h₁
    exact .inl ⟨a', st₂, gives_pure.mpr ⟨rfl, rfl⟩, hids, hjoined⟩

theorem stopped : Joins g roots A B ctx held α names (throw .exhausted) (throw .exhausted) where
  proper := .stopped
  joins _ h₁ _ _ _ := absurd h₁ gives_throw

theorem bind {m₁ m₂ : Resolve α} {f₁ f₂ : α → Resolve β}
    (h : Joins g roots A B ctx held α names m₁ m₂)
    (hf : ∀ a a', Joins g roots A B ctx (names a ++ held) β names' (f₁ a) (f₂ a')) :
    Joins g roots A B ctx held β names' (m₁ >>= f₁) (m₂ >>= f₂) where
  proper := h.proper.bind fun a => (hf a a).proper
  joins := by
    intro st₁ b₁ st₁' st₂ hst h₁ hbelow hids hjoined
    obtain ⟨a₁, mid₁, ha₁, hb₁⟩ := gives_bind.mp h₁
    obtain ⟨hready, hmid⟩ := h.proper.below_of_bind (fun a => (hf a a).proper) hst ha₁ hb₁
    rcases h.joins hst ha₁ (Registry.Below.trans hmid hbelow) hids hjoined with
      ⟨a₂, mid₂, ha₂, hids', hjoined'⟩ | hclash
    · rcases (hf a₁ a₂).joins hready hb₁ hbelow hids' hjoined' with ⟨b₂, st₂', hb₂, hend⟩ | hclash
      · exact .inl ⟨b₂, st₂', gives_bind.mpr ⟨a₂, mid₂, ha₂, hb₂⟩, hend⟩
      · exact .inr (hclash.imp fun f hfail => fails_bind.mpr (.inr ⟨a₂, mid₂, ha₂, hfail⟩))
    · exact .inr (hclash.imp fun f hfail => fails_bind.mpr (.inl hfail))

theorem merge {type₁ type₂ : TypeExpr → Origin → Resolve Schema} {ts : List TypeExpr} {o : Origin}
    (h : Joins g roots A B ctx held _ allReferences (all type₁ o ts) (all type₂ o ts)) :
    Joins g roots A B ctx held _ references (intersectionOf type₁ ts o)
      (intersectionOf type₂ ts o) where
  proper := h.proper.merge
  joins := by
    intro st₁ s₁ st₁' st₂ hst h₁ hbelow hids hjoined
    obtain ⟨ss₁, hss₁, -⟩ := gives_intersectionOf.mp h₁
    rcases h.joins hst hss₁ hbelow hids hjoined with ⟨ss₂, st₂', hss₂, hend⟩ | hclash
    · exact .inl ⟨_, st₂', gives_intersectionOf.mpr ⟨ss₂, hss₂, rfl⟩, hend⟩
    · exact .inr (hclash.imp fun f hfail => fails_intersectionOf hfail)

theorem bracket {id : DeclId} {m₁ m₂ : Resolve α} (h : Joins g roots A B ctx held α names m₁ m₂) :
    Joins g roots A B ctx held α names (Resolve.bracket id m₁) (Resolve.bracket id m₂) where
  proper := h.proper.bracket
  joins := by
    intro st₁ a₁ st₁' st₂ hst h₁ hbelow hids hjoined
    obtain ⟨hid, mid₁, hrun₁, rfl⟩ := gives_bracket.mp h₁
    have hid₂ : id ∉ st₂.2 := hids ▸ hid
    have hinner : Ready g roots ctx held (st₁.1, st₁.2 ++ [id]).1 := hst
    have hstack : (st₂.1, st₂.2 ++ [id]).2 = (st₁.1, st₁.2 ++ [id]).2 := by simp [hids]
    rcases h.joins hinner hrun₁ hbelow hstack hjoined with
      ⟨a₂, mid₂, hrun₂, hids', hjoined'⟩ | hclash
    · exact .inl ⟨a₂, _, gives_bracket.mpr ⟨hid₂, mid₂, hrun₂, rfl⟩, by simp [hids'], hjoined'⟩
    · exact .inr (hclash.imp fun f hfail => fails_bracket.mpr (.inr ⟨hid₂, hfail⟩))

theorem register (hdistinguish : Distinguish A B) (hA : Final g roots A) {n : Nat} {node : Node}
    {i : Instance} {d : Declaration} (hnode : Stands g roots ctx node) (hasks : node.AsksFor g i)
    (hd : g.declaration? i.id = some d)
    (h : Joins g roots A B (some i) [] _ (fun x => x.1.references)
      (body (membersWithin g n) d i.args) (body (membersWithin g n) d i.args)) :
    Joins g roots A B ctx held _ references
      (Registry.getOrCreate .fault i.name i (body (membersWithin g n) d i.args))
      (Registry.getOrCreate .fault i.name i (body (membersWithin g n) d i.args)) where
  proper := .register hnode hasks hd h.proper
  joins := by
    intro st₁ s₁ st₁' st₂ hst h₁ hbelow hids hjoined
    obtain ⟨-, ⟨hr, rfl⟩ | ⟨r, schema, description, mid, hr, hb, rfl⟩⟩ := gives_getOrCreate.mp h₁
    · obtain ⟨⟨owner, slot⟩, he, hsame⟩ := Registry.reserve_eq_existing.mp hr
      obtain ⟨slot', he'⟩ := hjoined.mpr (.inl ⟨slot, he⟩)
      have hreserve := Registry.reserve_eq_existing.mpr ⟨_, he', hsame⟩
      exact .inl ⟨_, st₂, gives_getOrCreate.mpr ⟨rfl, .inl ⟨hreserve, rfl⟩⟩, hids, hjoined⟩
    obtain ⟨hfree, rfl⟩ := Registry.reserve_eq_fresh.mp hr
    have hclaim := hst.claim hnode hasks hfree
    have hgrows := ((h.proper _ hclaim).2 _ mid hb).grows
    have hpending : mid.1.entries.find? i.name = some ⟨i, .pending⟩ :=
      hgrows.keep (by rw [Registry.claim_find? hfree, if_pos rfl])
    have hmid : mid.1.Below B := Registry.Below.trans (Registry.define_below hpending) hbelow
    cases hfind : st₂.1.entries.find? i.name with
    | none =>
      have hreserve : st₂.1.reserve i.name i = .ok (.fresh (st₂.1.claim i.name i)) :=
        Registry.reserve_eq_fresh.mpr ⟨hfind, rfl⟩
      have hstack : (st₂.1.claim i.name i, st₂.2).2 = (st₁.1.claim i.name i, st₁.2).2 := hids
      rcases h.joins hclaim hb hmid hstack (hjoined.claim hfree hfind) with
        ⟨x, mid₂, hb₂, hids', hjoined'⟩ | hclash
      · exact .inl ⟨_, _, gives_getOrCreate.mpr ⟨rfl, .inr ⟨_, _, _, _, hreserve, hb₂, rfl⟩⟩,
          hids', hjoined'.define⟩
      · exact .inr (hclash.imp fun f hfail =>
          fails_getOrCreate.mpr (.inr ⟨_, hreserve, hfail⟩))
    | some e =>
      -- The name has come from `A`, for this instance or for a different one.
      obtain ⟨owner, slot⟩ := e
      have hheld : HoldsFor i.name owner A := by
        rcases hjoined.mp ⟨slot, hfind⟩ with ⟨slot', he⟩ | hheld
        · rw [hfree] at he
          cases he
        · exact hheld
      have hclaimed : HoldsFor i.name i B := HoldsFor.below ⟨_, hpending⟩ hmid
      cases hsame : owner.same i with
      | true =>
        obtain rfl : owner = i := hdistinguish hheld hclaimed hsame
        have hreserve := Registry.reserve_eq_existing.mpr ⟨_, hfind, hsame⟩
        have hids' : mid.2 = (st₁.1.claim owner.name owner, st₁.2).2 :=
          (body_ground (within_keeps trivial_invariant g n).2 d owner.args).restores hb
        have hwithin : Within A (st₁.1.claim owner.name owner) mid.1 :=
          hA.within_body hdistinguish (hnode.asked hasks) hd hheld hb (inside_of_below hmid)
        exact .inl ⟨_, st₂, gives_getOrCreate.mpr ⟨rfl, .inl ⟨hreserve, rfl⟩⟩, by rw [hids, hids'],
          hjoined.absorb (inside_of_below (Registry.grows_define hfree hgrows).below)
            (hwithin.register hfree hheld)⟩
      | false =>
        have hreserve : st₂.1.reserve i.name i =
            .error (.nameCollision i.name owner.text i.text) := by
          unfold Registry.reserve
          rw [hfind]
          simp [hsame]
        exact .inr ⟨i.name, owner, i, hheld, hclaimed, hsame,
          fails_getOrCreate.mpr (.inl ⟨_, hreserve, rfl⟩)⟩

end Joins

theorem joins_coupling (hdistinguish : Distinguish A B) (hA : Final g roots A) :
    Coupling g roots Eq False (Joins g roots A B) where
  refl _ := rfl
  pred := Nat.succ.inj
  stopped := by
    rintro n _ rfl hzero ctx
    obtain rfl : n = 0 := hzero.elim id id
    exact ⟨fun _ _ _ _ => .stopped, fun _ _ _ _ _ _ _ _ _ => .stopped⟩
  check := .check
  give _ hn := .give hn
  bind h hf := h.bind fun a a' => hf a a' False.elim
  merge _ h := h.merge
  register hnode hasks hd _ hn h := by
    subst hn
    exact .register hdistinguish hA hnode hasks hd (h _ rfl)
  bracket := .bracket

section

variable {t : TypeExpr} {o : Origin} {st st' : Situation} {s : Schema}

theorem leaves_of_gives (ht : roots t) (hst : Ready g roots none [] st.1)
    (h : Gives (g.resolveType t o) st s st') : Leaves g roots none [] st.1 st'.1 := by
  have hproper := (proper_coupling g roots).resolveType ht o []
  have hleaves := (hproper st hst).2 s st' h
  exact ⟨hleaves.ready.mono (List.nil_subset _), hleaves.grows, hleaves.built⟩

/-- What a type needs on its own is held under its own name. -/
theorem name_of_held (h : Gives (g.resolveType t o) (.empty, []) s st) {name : String}
    {x : Instance} (hx : HoldsFor name x st.1) : x.name = name := by
  have hleaves : Leaves g (Eq t) none [] .empty st.1 := leaves_of_gives rfl ready_empty h
  obtain ⟨slot, hslot⟩ := hx
  exact (hleaves.ready.tracks.asked hslot).2

/-- A type that has been resolved on its own is resolved beside what another one has left, or it
clashes with that. -/
theorem joins_of_gives {t' : TypeExpr} {o' : Origin} {s' : Schema} {beside : Situation}
    (hbeside : Gives (g.resolveType t' o') (.empty, []) s' beside)
    (h : Gives (g.resolveType t o) (.empty, []) s st)
    (hdistinguish : Distinguish beside.1 st.1) :
    (∃ s₂ st', Gives (g.resolveType t o) beside s₂ st' ∧ beside.1.Grows st'.1 ∧ st'.1.Settled ∧
        Joined beside.1 st.1 st'.1) ∨
      Clashes beside.1 st.1 (g.resolveType t o) beside := by
  let roots : TypeExpr → Prop := fun u => u = t' ∨ u = t
  have hempty : Ready g roots none [] .empty := ready_empty
  have hleaves : Leaves g roots none [] .empty beside.1 :=
    leaves_of_gives (.inl rfl) hempty hbeside
  have hfinal : Final g roots beside.1 := ⟨hleaves.ready.tracks, hleaves.built built_empty⟩
  have hstack : beside.2 = [] := (resolveType_keeps trivial_invariant g t' o').restores hbeside
  have hjoins : Joins g roots beside.1 st.1 none [] _ references (g.resolveType t o)
      (g.resolveType t o) :=
    (joins_coupling hdistinguish hfinal).resolveType (.inr rfl) o []
  rcases hjoins.joins hempty h (Registry.Below.refl st.1) hstack (joined_empty beside.1) with
    ⟨s₂, st', hrun, -, hjoined⟩ | hclash
  · have hafter : Leaves g roots none [] beside.1 st'.1 :=
      leaves_of_gives (.inr rfl) hleaves.ready hrun
    exact .inl ⟨s₂, st', hrun, hafter.grows, hafter.ready.settled, hjoined⟩
  · exact .inr hclash

end

end

end Resolve

open Resolve

namespace Graph

section

variable {g : Graph} {ra rb : TypeRef TypeExpr} {oa ob : Origin} {d : Declaration}
  {na nb : String} {sta stb : Situation}

/-- After the first instance the reference gives the second one, and both have their definitions
under different names. -/
def Coexist (g : Graph) (r : TypeRef TypeExpr) (o : Origin) (st : Situation) (i j : Instance) :
    Prop :=
  i.name ≠ j.name ∧ ∃ st', Gives (g.resolveType (.ref r) o) st (.reference j.name) st' ∧
    st.1.Grows st'.1 ∧ st'.1.Settled ∧ HoldsFor i.name i st'.1 ∧ HoldsFor j.name j st'.1

/-- Two references to one declaration, each resolved with an empty registry, come to different
definitions. One after the other, they coexist exactly if no two different instances that they need
share a name; otherwise the second one fails over such a name. If no word in the names has a mark in
it, different instances share a name exactly if they share a sketch. -/
theorem instances_coexist_iff (g : Graph) (ha : ra.builtin? = none) (hb : rb.builtin? = none)
    (hla : g.lookup ra oa = .ok d) (hlb : g.lookup rb ob = .ok d)
    (hruna : Gives (g.resolveType (.ref ra) oa) (.empty, []) (.reference na) sta)
    (hrunb : Gives (g.resolveType (.ref rb) ob) (.empty, []) (.reference nb) stb)
    (hne : sta.1.defined? na ≠ stb.1.defined? nb) (hdiscerns : Discerns sta.1 stb.1) :
    ∃ i j, d.instantiate g ra.args oa = .ok i ∧ d.instantiate g rb.args ob = .ok j ∧
      na = i.name ∧ nb = j.name ∧ (g.Coexist rb ob sta i j ↔ Separate sta.1 stb.1) ∧
      (¬ Separate sta.1 stb.1 → Clashes sta.1 stb.1 (g.resolveType (.ref rb) ob) sta) ∧
      ((∀ x, HoldsFor x.name x sta.1 ∨ HoldsFor x.name x stb.1 → Sketch.Plain true x.sketch) →
        (na = nb ↔ TypeExpr.sketchAll i.args = TypeExpr.sketchAll j.args) ∧
        (Separate sta.1 stb.1 ↔ ∀ x y, HoldsFor x.name x sta.1 → HoldsFor y.name y stb.1 →
          x.sketch = y.sketch → x = y)) := by
  obtain ⟨i, hi, hna, hheldi⟩ := named_of_gives ha hla hruna
  obtain ⟨j, hj, hnb, hheldj⟩ := named_of_gives hb hlb hrunb
  obtain rfl : na = i.name := by simpa using hna
  obtain rfl : nb = j.name := by simpa using hnb
  have hdistinguish : Distinguish sta.1 stb.1 := by
    intro name x y hx hy hsame
    obtain rfl := name_of_held hruna hx
    have hname := name_of_held hrunb hy
    exact (hdiscerns hx (hname ▸ hy) hname.symm).mp hsame
  have hid : i.id = j.id :=
    (Declaration.instantiate_iff.mp hi).2.1.trans (Declaration.instantiate_iff.mp hj).2.1.symm
  have hsketch := fun hplain => And.intro
    (arguments_iff hid (hplain i (.inl hheldi)) (hplain j (.inr hheldj))) (separate_iff hplain)
  refine ⟨i, j, hi, hj, rfl, rfl, ?_⟩
  rcases joins_of_gives hruna hrunb hdistinguish with
    ⟨s, st', hrun, hgrows, hsettled, hjoined⟩ | hclash
  · have hseparate : Separate sta.1 stb.1 := by
      intro x y hx hy hxy
      have hx' : HoldsFor x.name x st'.1 := hjoined.mpr (.inr hx)
      have hy' : HoldsFor y.name y st'.1 := hjoined.mpr (.inl hy)
      exact hx'.unique (hxy ▸ hy')
    have hnames : i.name ≠ j.name := by
      intro heq
      obtain rfl := hseparate hheldi hheldj heq
      rw [resolveType_eq_of_instance hb hlb hj ha hla hi] at hrunb
      exact hne (congrArg (·.1.defined? i.name) (hruna.unique hrunb).2)
    have hs : s = .reference j.name := gives_reference hb hlb hj hrun
    refine ⟨iff_of_true ⟨hnames, st', hs ▸ hrun, hgrows, hsettled, ?_, ?_⟩ hseparate,
      fun h => absurd hseparate h, hsketch⟩
    · exact hjoined.mpr (.inr hheldi)
    · exact hjoined.mpr (.inl hheldj)
  · have hnot : ¬ Separate sta.1 stb.1 := by
      obtain ⟨name, x, y, hx, hy, hxy, -⟩ := hclash
      obtain rfl := name_of_held hruna hx
      have hname := name_of_held hrunb hy
      intro hseparate
      obtain rfl := hseparate hx (hname ▸ hy) hname.symm
      rw [(hdiscerns hx hy rfl).mpr rfl] at hxy
      cases hxy
    refine ⟨iff_of_false ?_ hnot, fun _ => hclash, hsketch⟩
    rintro ⟨-, st', hrun, -⟩
    obtain ⟨name, x, y, -, -, -, hfails⟩ := hclash
    exact hrun.not_fails hfails

end

end Graph

namespace Sample

def userLists : Situation :=
  boxed "Box_Array_User__" (.array boundUser) (.array (.reference "User"))
    [("User", ⟨⟨⟨"m", "User"⟩, []⟩, .defined (.object .empty) none⟩)]

/-- What is held after a box whose argument needs the user. -/
theorem held_beside_user {key name : String} {t : TypeExpr} {s : Schema} {x : Instance}
    (h : HoldsFor name x (boxed key t s
      [("User", ⟨⟨⟨"m", "User"⟩, []⟩, .defined (.object .empty) none⟩)]).1) :
    x = ⟨⟨"m", "Box"⟩, [t]⟩ ∨ x = ⟨⟨"m", "User"⟩, []⟩ := by
  obtain ⟨slot, h⟩ := h
  simp only [boxed, Entries.find?] at h
  split at h
  · cases h
    exact .inl rfl
  · split at h
    · cases h
      exact .inr rfl
    · cases h

/-- `Box<User>` and `Box<User[]>` have names of their own, and share their `User`. -/
theorem user_boxes_separate : Separate users.1 userLists.1 := by
  intro x y hx hy hxy
  rcases held_beside_user hx with rfl | rfl
  · rcases held_beside_user hy with rfl | rfl
    · exact absurd hxy (by decide)
    · exact absurd hxy (by decide)
  · rcases held_beside_user hy with rfl | rfl
    · exact absurd hxy (by decide)
    · rfl

theorem user_boxes_discerned : Discerns users.1 userLists.1 := by
  intro x y hx hy hxy
  obtain rfl := user_boxes_separate hx hy hxy
  refine iff_of_true ?_ rfl
  rcases held_beside_user hx with rfl | rfl
  · simp [boundUser, Instance.same, TypeExpr.sameAll, TypeExpr.same]
  · simp [Instance.same, TypeExpr.sameAll]

theorem user_boxes_coexist :
    Gives (boxes.resolveType (.ref (box boundUser)) ⟨"m", .memory⟩) (.empty, [])
      (.reference "Box_User_") users ∧
    Gives (boxes.resolveType (.ref (box (.array boundUser))) ⟨"m", .memory⟩) (.empty, [])
      (.reference "Box_Array_User__") userLists ∧
    boxes.Coexist (box (.array boundUser)) ⟨"m", .memory⟩ users ⟨⟨"m", "Box"⟩, [boundUser]⟩
      ⟨⟨"m", "Box"⟩, [.array boundUser]⟩ := by
  have hruna : Gives (boxes.resolveType (.ref (box boundUser)) ⟨"m", .memory⟩) (.empty, [])
      (.reference "Box_User_") users := rfl
  have hrunb : Gives (boxes.resolveType (.ref (box (.array boundUser))) ⟨"m", .memory⟩)
      (.empty, []) (.reference "Box_Array_User__") userLists := rfl
  have hlookup : ∀ t, boxes.lookup (box t) ⟨"m", .memory⟩ = .ok boxDeclaration := fun _ => rfl
  have hne : users.1.defined? "Box_User_" ≠ userLists.1.defined? "Box_Array_User__" := by
    simp [users, userLists, boxed, Registry.defined?, Entries.find?]
  obtain ⟨i, j, hi, hj, -, -, hcoexist, -, -⟩ := boxes.instances_coexist_iff rfl rfl (hlookup _)
    (hlookup _) hruna hrunb hne user_boxes_discerned
  cases hi
  cases hj
  exact ⟨hruna, hrunb, hcoexist.mpr user_boxes_separate⟩

def anyString : TypeExpr := .keyword .string

def anyStrings : Situation := boxed "Box_string_" anyString (.primitive .string) []

def oneString : TypeExpr := .literal (.string "string")

def oneStrings : Situation := boxed "Box_string_" oneString (.enum [.string "string"]) []

theorem oneString_name : Instance.name ⟨⟨"m", "Box"⟩, [oneString]⟩ = "Box_string_" := by
  decide +kernel

theorem exists_resolve_oneString : ∃ n, boxes.resolveType (.ref (box oneString)) ⟨"m", .memory⟩ =
    Registry.getOrCreate .fault "Box_string_" ⟨⟨"m", "Box"⟩, [oneString]⟩
      (body (membersWithin boxes (n + 2)) boxDeclaration [oneString]) := by
  obtain ⟨n, hn⟩ := boxes.exists_resolveType_eq (.ref (box oneString)) ⟨"m", .memory⟩
  refine ⟨n, (hn (n + 3) (by omega)).trans ?_⟩
  rw [typeWithin_ref (d := boxDeclaration) (i := ⟨⟨"m", "Box"⟩, [oneString]⟩) rfl rfl rfl,
    instanceOf_eq (d := boxDeclaration) rfl rfl, oneString_name]

/-- `Box<string>` and `Box<"string">` have different definitions and one name, and the second one is
refused. -/
theorem string_boxes_collide :
    Gives (boxes.resolveType (.ref (box anyString)) ⟨"m", .memory⟩) (.empty, [])
      (.reference "Box_string_") anyStrings ∧
    Gives (boxes.resolveType (.ref (box oneString)) ⟨"m", .memory⟩) (.empty, [])
      (.reference "Box_string_") oneStrings ∧
    anyStrings.1.defined? "Box_string_" ≠ oneStrings.1.defined? "Box_string_" ∧
    Fails (boxes.resolveType (.ref (box oneString)) ⟨"m", .memory⟩) anyStrings
      (.fault (.nameCollision "Box_string_" "m::Box<string>" "m::Box<\"string\">")) := by
  obtain ⟨n, hn⟩ := exists_resolve_oneString
  have hsame : Instance.same ⟨⟨"m", "Box"⟩, [anyString]⟩ ⟨⟨"m", "Box"⟩, [oneString]⟩ = false := by
    simp [anyString, oneString, Instance.same, TypeExpr.sameAll, TypeExpr.same]
  have hrefused : anyStrings.1.reserve "Box_string_" ⟨⟨"m", "Box"⟩, [oneString]⟩ =
      .error (.nameCollision "Box_string_" "m::Box<string>" "m::Box<\"string\">") := by
    simp only [Registry.reserve, anyStrings, boxed, Entries.find?, if_true, hsame]
    rfl
  refine ⟨rfl, ?_, ?_, ?_⟩
  · rw [hn]
    exact gives_getOrCreate.mpr ⟨rfl, .inr ⟨_, _, _, _, rfl, rfl, rfl⟩⟩
  · simp [anyStrings, oneStrings, boxed, Registry.defined?, Entries.find?]
  · rw [hn]
    exact fails_getOrCreate.mpr (.inl ⟨_, hrefused, rfl⟩)

end Sample

end RouteContract

import RouteContract.Proofs.Lists
import RouteContract.Proofs.Registry
import RouteContract.Proofs.Resolution.Coupling

/-!
# What a run of resolution leaves behind

A run that ends well adds entries to the registry, each with a definition in the
end, and whatever its result or a definition mentions is held. What was pending
before is pending after it, and leads to the instance whose body is being built.
No run fails with a dangling reference.
-/

set_option autoImplicit false

namespace RouteContract

open Relation (ReflTransGen)

namespace Resolve

open Instance (Asked Leads)
open Node (Stands)
open Schema (references allReferences)

section

variable (g : Graph) (roots : TypeExpr → Prop)

/-- Entries stand under the names of instances that are asked for, and what is pending leads to the
instance whose body is being built. -/
structure Tracks (ctx : Option Instance) (r : Registry) : Prop where
  asked : ∀ {name : String} {e : RegistryEntry}, r.entries.find? name = some e →
    Asked g roots e.owner ∧ e.owner.name = name
  pending : ∀ {name : String} {owner : Instance}, r.entries.find? name = some ⟨owner, .pending⟩ →
    ∃ i, ctx = some i ∧ ReflTransGen (Leads g) owner i

structure Ready (ctx : Option Instance) (held : List String) (r : Registry) : Prop where
  sound : r.Sound
  tracks : Tracks g roots ctx r
  held : ∀ name ∈ held, r.contains name

def Built (r : Registry) : Prop :=
  ∀ {name : String} {owner : Instance} {schema : Schema} {description : Option String},
    r.entries.find? name = some ⟨owner, .defined schema description⟩ →
    ∃ d n st st', g.declaration? owner.id = some d ∧ Ready g roots (some owner) [] st.1 ∧
      Gives (body (membersWithin g n) d owner.args) st (schema, description) st' ∧ st'.1.Below r

structure Leaves (ctx : Option Instance) (held : List String) (r r' : Registry) : Prop where
  ready : Ready g roots ctx held r'
  grows : r.Grows r'
  built : Built g roots r → Built g roots r'

def Proper (ctx : Option Instance) (held : List String) (α : Type) (names : α → List String)
    (m : Resolve α) : Prop :=
  ∀ st, Ready g roots ctx held st.1 → (∀ name, ¬ Fails m st (.fault (.dangling name))) ∧
    ∀ a st', Gives m st a st' → Leaves g roots ctx (names a ++ held) st.1 st'.1

end

section

variable {g : Graph} {roots : TypeExpr → Prop} {ctx : Option Instance} {held : List String}
  {r r' r'' : Registry}

theorem Ready.hold (h : Ready g roots ctx held r) {names : List String}
    (hn : ∀ name ∈ names, r.contains name) : Ready g roots ctx (names ++ held) r := by
  refine ⟨h.sound, h.tracks, fun name hname => ?_⟩
  rcases List.mem_append.mp hname with hname | hname
  · exact hn name hname
  · exact h.held name hname

theorem Ready.settled {held : List String} {r : Registry} (h : Ready g roots none held r) :
    r.Settled := by
  intro name e he hpending
  obtain ⟨owner, slot⟩ := e
  obtain rfl : slot = .pending := hpending
  obtain ⟨i, hi, -⟩ := h.tracks.pending he
  cases hi

theorem ready_empty : Ready g roots none [] .empty := ⟨Registry.sound_empty, ⟨nofun, nofun⟩, nofun⟩

theorem built_empty : Built g roots .empty := nofun

theorem Leaves.refl (h : Ready g roots ctx held r) : Leaves g roots ctx held r r :=
  ⟨h, .refl r, id⟩

theorem Leaves.trans {held' : List String} (h : Leaves g roots ctx held' r r')
    (h' : Leaves g roots ctx held r' r'') : Leaves g roots ctx held r r'' :=
  ⟨h'.ready, h.grows.trans h'.grows, h'.built ∘ h.built⟩

/-- A free name is claimed for an instance that the present body asks for. -/
theorem Ready.claim (h : Ready g roots ctx held r) {node : Node} {i : Instance}
    (hnode : Stands g roots ctx node) (hasks : node.AsksFor g i)
    (hfree : r.entries.find? i.name = none) : Ready g roots (some i) [] (r.claim i.name i) := by
  refine ⟨h.sound.claim hfree, ⟨?_, ?_⟩, nofun⟩
  · intro name e he
    rw [Registry.claim_find? hfree] at he
    split at he
    · rename_i hname
      cases he
      exact ⟨hnode.asked hasks, hname⟩
    · exact h.tracks.asked he
  · intro name owner hpending
    refine ⟨i, rfl, ?_⟩
    rw [Registry.claim_find? hfree] at hpending
    split at hpending
    · cases hpending
      exact .refl
    · obtain ⟨j, rfl, hleads⟩ := h.tracks.pending hpending
      exact hleads.tail ⟨node, hnode.2, hasks⟩

/-- What is claimed is defined after the run for its body. -/
theorem Leaves.define (h : Ready g roots ctx held r) {node : Node} {i : Instance}
    (hnode : Stands g roots ctx node) (hasks : node.AsksFor g i)
    (hfree : r.entries.find? i.name = none) {d : Declaration}
    (hd : g.declaration? i.id = some d) {n : Nat} {ids : List DeclId} {schema : Schema}
    {description : Option String} {st' : Situation}
    (hbody : Gives (body (membersWithin g n) d i.args) (r.claim i.name i, ids)
      (schema, description) st')
    (hleaves : Leaves g roots (some i) (schema.references ++ []) (r.claim i.name i) st'.1) :
    Leaves g roots ctx ([i.name] ++ held) r (st'.1.define i.name schema description) := by
  have hclaimed := h.claim hnode hasks hfree
  have hpending : st'.1.entries.find? i.name = some ⟨i, .pending⟩ :=
    hleaves.grows.keep (by rw [Registry.claim_find? hfree, if_pos rfl])
  have hgrows : r.Grows (st'.1.define i.name schema description) :=
    Registry.grows_define hfree hleaves.grows
  have htracks := hleaves.ready.tracks
  refine ⟨⟨?_, ⟨?_, ?_⟩, ?_⟩, hgrows, ?_⟩
  · exact hleaves.ready.sound.define hpending fun name hname =>
      hleaves.ready.held name (List.mem_append_left [] hname)
  · intro name e he
    rw [Registry.define_find? hpending] at he
    split at he
    · rename_i hname
      cases he
      exact ⟨hnode.asked hasks, hname⟩
    · exact htracks.asked he
  · intro name owner hp
    rcases hgrows.new hp with hp | hp
    · exact h.tracks.pending hp
    · exact absurd rfl hp
  · intro name hname
    rcases List.mem_append.mp hname with hname | hname
    · obtain rfl := List.mem_singleton.mp hname
      rw [Registry.define_contains hpending]
      exact Registry.contains_iff.mpr ⟨_, hpending⟩
    · exact hgrows.contains (h.held name hname)
  · intro hbuilt name owner schema' description' he
    have hbelow : st'.1.Below (st'.1.define i.name schema description) :=
      Registry.define_below hpending
    rw [Registry.define_find? hpending] at he
    split at he
    · cases he
      exact ⟨d, n, _, st', hd, hclaimed, hbody, hbelow⟩
    · have hbuilt' : Built g roots st'.1 := by
        apply hleaves.built
        intro name owner schema description he
        rw [Registry.claim_find? hfree] at he
        split at he
        · cases he
        · obtain ⟨d, n, st, st', hd, hr, hrun, hst⟩ := hbuilt he
          exact ⟨d, n, st, st', hd, hr, hrun, hst.trans (Registry.claim_below hfree)⟩
      obtain ⟨d, n, st, st', hd, hr, hrun, hst⟩ := hbuilt' he
      exact ⟨d, n, st, st', hd, hr, hrun, hst.trans hbelow⟩

end

namespace Proper

variable {g : Graph} {roots : TypeExpr → Prop} {ctx : Option Instance} {held : List String}
  {α β : Type} {names : α → List String} {names' : β → List String}

theorem check {x : Except Fault α} (hx : Local x) (hn : ∀ a, x = .ok a → names a ⊆ held) :
    Proper g roots ctx held α names (ofExcept x) := by
  intro st hst
  refine ⟨fun name h => ?_, fun a st' h => ?_⟩
  · obtain ⟨f, hf, he⟩ := fails_ofExcept.mp h
    cases he
    exact absurd (hx _ hf) (by simp [Fault.isLocal])
  · obtain ⟨ha, rfl⟩ := gives_ofExcept.mp h
    exact .refl (hst.hold fun name hname => hst.held name (hn a ha hname))

theorem pure {a : α} (hn : names a ⊆ held) : Proper g roots ctx held α names (Pure.pure a) := by
  apply check (x := .ok a) (.ok a)
  rintro _ ⟨⟩
  exact hn

theorem stopped : Proper g roots ctx held α names (throw .exhausted) := by
  intro st _
  refine ⟨fun name h => ?_, fun a st' h => absurd h gives_throw⟩
  cases fails_throw.mp h

theorem bind {m : Resolve α} {f : α → Resolve β} (h : Proper g roots ctx held α names m)
    (hf : ∀ a, Proper g roots ctx (names a ++ held) β names' (f a)) :
    Proper g roots ctx held β names' (m >>= f) := by
  intro st hst
  obtain ⟨hfails, hgives⟩ := h st hst
  refine ⟨fun name hfail => ?_, fun b st'' hb => ?_⟩
  · rcases fails_bind.mp hfail with hfail | ⟨a, st', ha, hfail⟩
    · exact hfails name hfail
    · exact (hf a st' (hgives a st' ha).ready).1 name hfail
  · obtain ⟨a, st', ha, hb⟩ := gives_bind.mp hb
    have hfirst := hgives a st' ha
    have hsecond := (hf a st' hfirst.ready).2 b st'' hb
    have hready := hsecond.ready
    refine hfirst.trans ⟨⟨hready.sound, hready.tracks, fun name hname => ?_⟩, hsecond.grows,
      hsecond.built⟩
    apply hready.held
    rcases List.mem_append.mp hname with hname | hname
    · simp [hname]
    · simp [hname]

/-- A loop whose result is not looked at. -/
theorem foldlM {f : β → α → Resolve β} {xs : List α} {b : β}
    (h : ∀ b, ∀ x ∈ xs, Proper g roots ctx held β (fun _ => []) (f b x)) :
    Proper g roots ctx held β (fun _ => []) (xs.foldlM f b) := by
  induction xs generalizing b with
  | nil => exact pure (List.nil_subset held)
  | cons x xs ih =>
    rw [List.foldlM_cons]
    exact (h b x (by simp)).bind fun c => ih fun b y hy => h b y (by simp [hy])

theorem bracket {id : DeclId} {m : Resolve α} (h : Proper g roots ctx held α names m) :
    Proper g roots ctx held α names (bracket id m) := by
  intro st hst
  obtain ⟨hfails, hgives⟩ := h (st.1, st.2 ++ [id]) hst
  refine ⟨fun name hfail => ?_, fun a st' ha => ?_⟩
  · rcases fails_bracket.mp hfail with ⟨-, he⟩ | ⟨-, hfail⟩
    · cases he
    · exact hfails name hfail
  · obtain ⟨-, st₁, hrun, rfl⟩ := gives_bracket.mp ha
    exact hgives a st₁ hrun

/-- What a merged object mentions is mentioned by an object among the schemas, or by a definition
that one of them names. -/
theorem merged_held {r : Registry} (hr : Ready g roots ctx held r) {ss : List Schema}
    (hss : ∀ name ∈ allReferences ss, r.contains name) {os : List (ObjectSchema Schema)}
    (hos : ss.mapM (object? r) = some os) {name : String}
    (hname : name ∈ references (.object (os.foldl ObjectSchema.merge .empty))) :
    r.contains name := by
  obtain ⟨o, ho, hname⟩ := Schema.mem_references_merged hname
  obtain ⟨s, hs, hso⟩ := mem_of_forall₂_right (mapM_eq_some_iff.mp hos) ho
  unfold object? at hso
  split at hso
  · cases hso
    exact hss name (Schema.mem_allReferences.mpr ⟨_, hs, hname⟩)
  · split at hso
    · rename_i hd
      cases hso
      unfold Registry.defined? at hd
      split at hd
      · rename_i he
        cases hd
        exact hr.sound.closed he name hname
      · cases hd
    · cases hso
  · cases hso

theorem merge {type : TypeExpr → Origin → Resolve Schema} {ts : List TypeExpr} {o : Origin}
    (h : Proper g roots ctx held _ allReferences (all type o ts)) :
    Proper g roots ctx held _ references (intersectionOf type ts o) := by
  refine h.bind fun ss st hst => ?_
  have hss : ∀ name ∈ allReferences ss, st.1.contains name := fun name hname =>
    hst.held name (List.mem_append_left held hname)
  have houtcome : ∀ f : Registry → Resolve Schema,
      outcome (registry >>= f) st = outcome (f st.1) st := fun f => by
    rw [outcome_bind]
    rfl
  unfold Fails Gives
  rw [houtcome]
  split
  · rename_i os hos
    refine ⟨nofun, fun s st' hs => ?_⟩
    cases hs
    exact .refl (hst.hold fun name hname => merged_held hst hss hos hname)
  · refine ⟨nofun, fun s st' hs => ?_⟩
    cases hs
    exact .refl (hst.hold hss)

theorem register {node : Node} {i : Instance} (hnode : Stands g roots ctx node)
    (hasks : node.AsksFor g i) {d : Declaration} (hd : g.declaration? i.id = some d) {n : Nat}
    (h : Proper g roots (some i) [] _ (fun x => x.1.references)
      (body (membersWithin g n) d i.args)) :
    Proper g roots ctx held _ references
      (Registry.getOrCreate .fault i.name i (body (membersWithin g n) d i.args)) := by
  intro st hst
  refine ⟨fun name hfail => ?_, fun s st' hs => ?_⟩
  · rcases fails_getOrCreate.mp hfail with ⟨f, hf, he⟩ | ⟨r, hr, hfail⟩
    · cases he
      exact absurd (Registry.reserve_local _ _ _ _ hf) (by simp [Fault.isLocal])
    · obtain ⟨hfree, rfl⟩ := Registry.reserve_eq_fresh.mp hr
      exact (h _ (hst.claim hnode hasks hfree)).1 name hfail
  · obtain ⟨rfl, ⟨hr, rfl⟩ | ⟨r, schema, description, st₁, hr, hb, rfl⟩⟩ := gives_getOrCreate.mp hs
    · obtain ⟨e, he, -⟩ := Registry.reserve_eq_existing.mp hr
      refine .refl (hst.hold fun name hname => ?_)
      rw [List.mem_singleton.mp hname]
      exact Registry.contains_iff.mpr ⟨e, he⟩
    · obtain ⟨hfree, rfl⟩ := Registry.reserve_eq_fresh.mp hr
      have hgives := (h _ (hst.claim hnode hasks hfree)).2 _ st₁ hb
      exact Leaves.define hst hnode hasks hfree hd hb hgives

end Proper

theorem proper_coupling (g : Graph) (roots : TypeExpr → Prop) :
    Coupling g roots Eq True fun ctx held α names m _ => Proper g roots ctx held α names m where
  refl _ := rfl
  pred := Nat.succ.inj
  stopped := by
    rintro n _ rfl h ctx
    obtain rfl : n = 0 := h.elim id id
    exact ⟨fun _ _ _ _ => Proper.stopped, fun _ _ _ _ _ _ _ _ _ => Proper.stopped⟩
  check := Proper.check
  give _ hn := Proper.pure hn
  bind h hf := h.bind fun a => hf a a fun _ => rfl
  merge _ h := h.merge
  register hnode hasks hd _ hn h := Proper.register hnode hasks hd (hn ▸ h _ rfl)
  bracket := Proper.bracket

end Resolve

end RouteContract

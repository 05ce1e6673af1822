import RouteContract.Proofs.Resolution.Constants
import RouteContract.Proofs.Resolution.Following
import RouteContract.Proofs.Resolution.Notation

/-!
# Resolution repeated

A type that has been resolved is resolved to the same schema again, and the
registry stays as it is. Only the parts of the type itself are run through again:
every instance that it asks for has its name by now, so no body is built a second
time. A merged intersection looks at definitions that were finished already and
finds them unchanged.
-/

set_option autoImplicit false

namespace RouteContract

/-- The entries of a settled registry stay where they are, and others are added behind them. -/
theorem Registry.prefix_invariant {r : Registry} (hr : r.Settled) :
    Invariant fun r' => r.entries <+: r'.entries where
  reserve := by
    intro r' r'' name owner hprefix h
    obtain ⟨-, rfl⟩ := reserve_eq_fresh.mp h
    exact hprefix.trans (List.prefix_append _ _)
  define := by
    intro r' name schema description hprefix _
    obtain ⟨added, hadded⟩ := hprefix
    unfold define
    split
    · rename_i owner hpending
      have hnew : name ∉ r.entries.keys := by
        intro hmem
        obtain ⟨e, he⟩ := Option.isSome_iff_exists.mp (Entries.find?_isSome_iff.mpr hmem)
        rw [← hadded, Entries.find?_append, he] at hpending
        cases hpending
        exact hr he rfl
      rw [← hadded, Entries.insert_append hnew]
      exact List.prefix_append _ _
    · exact ⟨added, hadded⟩

namespace Resolve

open Instance (Asked)
open Node (Stands)
open Schema (references allReferences)

/-- A proper run, which ends with the same members being collected as before. Outside of any body it
gives again what it gave, over every registry that has grown since, and leaves that as it is. -/
structure Reproduces (g : Graph) (roots : TypeExpr → Prop) (ctx : Option Instance)
    (held : List String) (α : Type) (names : α → List String) (m : Resolve α) : Prop where
  proper : Proper g roots ctx held α names m
  stack : ∀ {st a st'}, Gives m st a st' → st'.2 = st.2
  again : ctx = none → ∀ {st a st' after}, Ready g roots ctx held st.1 → Gives m st a st' →
    st'.1.Grows after.1 → after.2 = st.2 → Gives m after a after

namespace Reproduces

variable {g : Graph} {roots : TypeExpr → Prop} {ctx : Option Instance} {held : List String}
  {α β : Type} {names : α → List String} {names' : β → List String}

theorem check {x : Except Fault α} (hx : Local x) (hn : ∀ a, x = .ok a → names a ⊆ held) :
    Reproduces g roots ctx held α names (ofExcept x) where
  proper := .check hx hn
  stack h := by
    obtain ⟨-, rfl⟩ := gives_ofExcept.mp h
    rfl
  again _ _ _ _ _ _ h _ _ := gives_ofExcept.mpr ⟨(gives_ofExcept.mp h).1, rfl⟩

theorem stopped : Reproduces g roots ctx held α names (throw .exhausted) where
  proper := .stopped
  stack h := absurd h gives_throw
  again _ _ _ _ _ _ h := absurd h gives_throw

theorem bind {m : Resolve α} {f : α → Resolve β} (h : Reproduces g roots ctx held α names m)
    (hf : ∀ a, Reproduces g roots ctx (names a ++ held) β names' (f a)) :
    Reproduces g roots ctx held β names' (m >>= f) where
  proper := h.proper.bind fun a => (hf a).proper
  stack hrun := by
    obtain ⟨a, st₁, ha, hb⟩ := gives_bind.mp hrun
    exact ((hf a).stack hb).trans (h.stack ha)
  again := by
    intro hctx st b st' after hst hrun hgrows hafter
    obtain ⟨a, st₁, ha, hb⟩ := gives_bind.mp hrun
    have hready := ((h.proper st hst).2 a st₁ ha).ready
    have hrest := (((hf a).proper st₁ hready).2 b st' hb).grows
    have hfirst : Gives m after a after := h.again hctx hst ha (hrest.trans hgrows) hafter
    have hsecond : Gives (f a) after b after :=
      (hf a).again hctx hready hb hgrows (hafter.trans (h.stack ha).symm)
    exact gives_bind.mpr ⟨a, after, hfirst, hsecond⟩

theorem bracket {id : DeclId} {m : Resolve α} (h : Reproduces g roots ctx held α names m) :
    Reproduces g roots ctx held α names (Resolve.bracket id m) where
  proper := h.proper.bracket
  stack hrun := by
    obtain ⟨-, st₁, hm, rfl⟩ := gives_bracket.mp hrun
    rw [h.stack hm]
    exact List.dropLast_concat
  again := by
    intro hctx st a st' after hst hrun hgrows hafter
    obtain ⟨hid, st₁, hm, rfl⟩ := gives_bracket.mp hrun
    have hready : Ready g roots ctx held (st.1, st.2 ++ [id]).1 := hst
    have hinner : Gives m (after.1, after.2 ++ [id]) a (after.1, after.2 ++ [id]) :=
      h.again hctx hready hm hgrows (by rw [hafter])
    refine gives_bracket.mpr ⟨hafter ▸ hid, _, hinner, ?_⟩
    rw [List.dropLast_concat]

/-- The definitions that the merged schemas name are all finished. -/
theorem merge {type : TypeExpr → Origin → Resolve Schema} {ts : List TypeExpr} {o : Origin}
    (h : Reproduces g roots ctx held _ allReferences (all type o ts)) :
    Reproduces g roots ctx held _ references (intersectionOf type ts o) where
  proper := h.proper.merge
  stack hrun := by
    obtain ⟨ss, hss, -⟩ := gives_intersectionOf.mp hrun
    exact h.stack hss
  again := by
    rintro rfl st s st' after hst hrun hgrows hafter
    obtain ⟨ss, hss, rfl⟩ := gives_intersectionOf.mp hrun
    have hready := ((h.proper st hst).2 ss st' hss).ready
    refine gives_intersectionOf.mpr ⟨ss, h.again rfl hst hss hgrows hafter, ?_⟩
    refine meet_congr fun s hs => ?_
    cases s with
    | reference name =>
      have hname : name ∈ allReferences ss :=
        Schema.mem_allReferences.mpr ⟨_, hs, List.mem_singleton_self name⟩
      obtain ⟨⟨owner, slot⟩, he⟩ :=
        Registry.contains_iff.mp (hready.held name (List.mem_append_left held hname))
      cases slot with
      | pending => exact absurd rfl (hready.settled he)
      | defined schema description =>
        simp only [object?, Registry.defined?, he, hgrows.keep he]
    | _ => rfl

theorem register {node : Node} {i : Instance} {d : Declaration} {n : Nat} (hself : i.same i)
    (hnode : Stands g roots ctx node) (hasks : node.AsksFor g i)
    (hd : g.declaration? i.id = some d)
    (h : Reproduces g roots (some i) [] _ (fun x => x.1.references)
      (body (membersWithin g n) d i.args)) :
    Reproduces g roots ctx held _ references
      (Registry.getOrCreate .fault i.name i (body (membersWithin g n) d i.args)) where
  proper := .register hnode hasks hd h.proper
  stack hrun := by
    obtain ⟨-, ⟨-, rfl⟩ | ⟨r, schema, description, st₁, -, hb, rfl⟩⟩ := gives_getOrCreate.mp hrun
    · rfl
    · have hstack := h.stack hb
      exact hstack
  again := by
    intro hctx st s st' after hst hrun hgrows _
    -- After the first run the name is held, by the instance itself or by one taken for it.
    have hheld : ∃ e, st'.1.entries.find? i.name = some e ∧ e.owner.same i := by
      obtain ⟨-, ⟨hr, rfl⟩ | ⟨r, schema, description, st₁, hr, hb, rfl⟩⟩ :=
        gives_getOrCreate.mp hrun
      · exact Registry.reserve_eq_existing.mp hr
      · obtain ⟨hfree, rfl⟩ := Registry.reserve_eq_fresh.mp hr
        have hleaves := (h.proper _ (hst.claim hnode hasks hfree)).2 _ st₁ hb
        have hpending := hleaves.grows.keep (by rw [Registry.claim_find? hfree, if_pos rfl])
        exact ⟨_, by rw [Registry.define_find? hpending, if_pos rfl], hself⟩
    obtain ⟨e, he, hsame⟩ := hheld
    have hexisting := Registry.reserve_eq_existing.mpr ⟨e, hgrows.keep he, hsame⟩
    exact gives_getOrCreate.mpr ⟨(gives_getOrCreate.mp hrun).1, .inl ⟨hexisting, rfl⟩⟩

end Reproduces

theorem reproduces_coupling {g : Graph} {roots : TypeExpr → Prop}
    (hself : ∀ i, Asked g roots i → i.same i) :
    Coupling g roots Eq True fun ctx held α names m _ => Reproduces g roots ctx held α names m where
  refl _ := rfl
  pred := Nat.succ.inj
  stopped := by
    rintro n _ rfl h ctx
    obtain rfl : n = 0 := h.elim id id
    exact ⟨fun _ _ _ _ => .stopped, fun _ _ _ _ _ _ _ _ _ => .stopped⟩
  check := .check
  give _ hn := .check (x := .ok _) (.ok _) (by rintro _ ⟨⟩; exact hn)
  bind h hf := h.bind fun a => hf a a fun _ => rfl
  merge _ h := h.merge
  register hnode hasks hd _ hn h :=
    .register (hself _ (hnode.asked hasks)) hnode hasks hd (hn ▸ h _ rfl)
  bracket := .bracket

inductive Reached (g : Graph) : Situation → Prop
  | fresh : Reached g (.empty, [])
  | resolved {t : TypeExpr} {o : Origin} {st st' : Situation} {s : Schema} (h : Reached g st)
      (ht : t.Keyed) (hrun : Gives (g.resolveType t o) st s st') : Reached g st'

section

variable {g : Graph} (hg : g.Keyed) {t : TypeExpr} {o : Origin} {st st' : Situation} {s : Schema}

include hg

theorem resolveType_reproduces (ht : t.Keyed) :
    Reproduces g TypeExpr.Keyed none [] _ references (g.resolveType t o) :=
  (reproduces_coupling fun _ hi => hi.same_self hg fun _ ht => ht).resolveType ht o []

theorem Reached.ready (h : Reached g st) : Ready g TypeExpr.Keyed none [] st.1 := by
  induction h with
  | fresh => exact ready_empty
  | resolved _ ht hrun ih =>
    have hleaves := ((resolveType_reproduces hg ht).proper _ ih).2 _ _ hrun
    exact hleaves.ready.mono (List.nil_subset _)

end

end Resolve

open Resolve

/-- A resolution adds entries behind those there are and leaves none pending. The same one again
gives the same schema and changes nothing. -/
theorem Graph.resolveType_again {g : Graph} (hg : g.Keyed) {st st' : Situation}
    (hst : Reached g st) {t : TypeExpr} (ht : t.Keyed) {o : Origin} {s : Schema}
    (h : Gives (g.resolveType t o) st s st') :
    st.1.entries <+: st'.1.entries ∧ st'.1.Settled ∧ Gives (g.resolveType t o) st' s st' := by
  have hready := hst.ready hg
  have hreproduces := resolveType_reproduces (o := o) hg ht
  have hkeeps := resolveType_keeps (Registry.prefix_invariant hready.settled) g t o
  refine ⟨hkeeps.after (List.prefix_refl _) h, ((hst.resolved ht h).ready hg).settled, ?_⟩
  exact hreproduces.again rfl hready h (.refl _) (hreproduces.stack h)

namespace Sample

def tag : Property TypeExpr :=
  defaulted "tag" (.keyword .object) (.object [("a", .null), ("b", .null)])

def taggedBox : TypeExpr := .ref (box (.object ⟨[tag], []⟩))

def taggedUser : TypeExpr := .intersection [.named "User", taggedBox]

theorem taggedBox_keyed : taggedBox.Keyed := by
  have hdefault : (Json.object [("a", .null), ("b", .null)]).Keyed := by
    intro fields h
    obtain rfl : fields = [("a", .null), ("b", .null)] := by
      simpa [Tree.nodes_eq, Json.tree, Json.children] using h
    decide
  refine .ref (List.forall_mem_singleton.mpr (.object ?_ ?_ (by simp) (by simp)))
  · exact List.forall_mem_singleton.mpr (.keyword .object)
  · refine List.forall_mem_singleton.mpr fun d v hd hv => ?_
    cases hd
    cases hv
    exact hdefault

theorem taggedUser_keyed : taggedUser.Keyed :=
  .intersection (by simp [taggedBox_keyed, TypeExpr.named, TypeExpr.Keyed.ref])

theorem boxes_keyed : boxes.Keyed := by
  have hbox : boxDeclaration.Keyed := by
    refine ⟨fun hd => ?_, by simp [boxDeclaration]⟩
    cases hd
    exact ⟨by simp, .object (by simp [property, TypeExpr.Keyed.param]) (by simp [property])
      (by simp) (by simp)⟩
  have huser : (interface "User" [] []).Keyed := by
    refine ⟨fun hd => ?_, by simp [interface]⟩
    cases hd
    exact ⟨by simp, .object (by simp) (by simp) (by simp) (by simp)⟩
  simpa [Graph.Keyed, boxes] using ⟨hbox, huser⟩

/-- An intersection with an instance that is registered already is merged, and merged again. -/
theorem taggedUser_again : ∃ st s st', Reached boxes st ∧
    Gives (boxes.resolveType taggedUser ⟨"m", .memory⟩) st s st' ∧
      st.1.entries <+: st'.1.entries ∧ st'.1.Settled ∧
        Gives (boxes.resolveType taggedUser ⟨"m", .memory⟩) st' s st' := by
  obtain ⟨s, st', hboth⟩ : ∃ s st', Gives (boxes.resolveType taggedBox ⟨"m", .memory⟩ >>= fun _ =>
      boxes.resolveType taggedUser ⟨"m", .memory⟩) (.empty, []) s st' :=
    exists_gives (by decide +kernel)
  obtain ⟨s₀, st, hfirst, hsecond⟩ := gives_bind.mp hboth
  have hreached : Reached boxes st := .resolved .fresh taggedBox_keyed hfirst
  exact ⟨st, s, st', hreached, hsecond,
    Graph.resolveType_again boxes_keyed hreached taggedUser_keyed hsecond⟩

end Sample

end RouteContract

import RouteContract.Proofs.Extraction.Declarations
import RouteContract.Proofs.Extraction.Inheritance
import RouteContract.Proofs.Extraction.Operations
import RouteContract.Proofs.Resolution.Following

/-!
# The order of controllers

Controllers are extracted one after the other into one registry. Each of them has
the same operations in whatever order it is reached, and the registry ends with
the same definitions, as far as no run stops untimely. A merged intersection may
look at a definition that is pending in one order only; what is said here leaves
such declarations out.
-/

set_option autoImplicit false

namespace RouteContract

namespace Extraction

open Resolve

section

variable (g : Graph) (roots : TypeExpr → Prop) (R : Registry) (held : List String)

def Adds (m : List Operation → Resolve (List Operation)) (new : List Operation) : Prop :=
  ∀ os, Apart (os ++ new) → Yields g roots R none held (m os) (os ++ new)

structure Additive (m : List Operation → Resolve (List Operation)) : Prop where
  proper : ∀ os, Proper g roots none held _ (fun _ => []) (m os)
  adds : ∀ {os os' st st'}, Ready g roots none held st.1 → Gives (m os) st os' st' →
    st'.1.Below R → Apart os → ∃ new, os' = os ++ new ∧ Apart os' ∧ Adds g roots R held m new

end

section

variable {g : Graph} {roots : TypeExpr → Prop} {R : Registry} {held : List String} {α : Type}
  {f : List Operation → α → Resolve (List Operation)}

/-- Every element of a loop adds a block of operations. -/
theorem exists_blocks {xs : List α} (h : ∀ x ∈ xs, Additive g roots R held (f · x))
    {os os' : List Operation} {st st' : Situation} (hst : Ready g roots none held st.1)
    (hrun : Gives (xs.foldlM f os) st os' st') (hbelow : st'.1.Below R) (hapart : Apart os) :
    ∃ blocks : List (α × List Operation), blocks.map (·.1) = xs ∧
      os' = os ++ blocks.flatMap (·.2) ∧ Apart os' ∧
      ∀ b ∈ blocks, Adds g roots R held (f · b.1) b.2 := by
  induction xs generalizing os st with
  | nil =>
    obtain ⟨rfl, -⟩ := gives_pure.mp hrun
    exact ⟨[], rfl, by simp, hapart, by simp⟩
  | cons x xs ih =>
    have hrest : ∀ y ∈ xs, Additive g roots R held (f · y) :=
      fun y hy => h y (List.mem_cons_of_mem x hy)
    rw [List.foldlM_cons] at hrun
    obtain ⟨os₁, st₁, hfirst, hrun⟩ := gives_bind.mp hrun
    have hst₁ := (((h x List.mem_cons_self).proper os st hst).2 os₁ st₁ hfirst).ready
    have hfold : Proper g roots none held _ (fun _ => []) (xs.foldlM f os₁) :=
      .foldlM fun os y hy => (hrest y hy).proper os
    have hgrows := ((hfold st₁ hst₁).2 os' st' hrun).grows
    obtain ⟨new, rfl, hapart₁, hadds⟩ := (h x List.mem_cons_self).adds hst hfirst
      (Registry.Below.trans hgrows.below hbelow) hapart
    obtain ⟨blocks, rfl, rfl, hapart', hblocks⟩ := ih hrest hst₁ hrun hapart₁
    refine ⟨(x, new) :: blocks, rfl, by simp, hapart', fun b hb => ?_⟩
    rcases List.mem_cons.mp hb with rfl | hb
    · exact hadds
    · exact hblocks b hb

/-- Blocks can be added in turn. -/
theorem Adds.blocks {blocks : List (α × List Operation)}
    (hproper : ∀ b ∈ blocks, ∀ os, Proper g roots none held _ (fun _ => []) (f os b.1))
    (h : ∀ b ∈ blocks, Adds g roots R held (f · b.1) b.2) :
    Adds g roots R held (fun os => (blocks.map (·.1)).foldlM f os) (blocks.flatMap (·.2)) := by
  induction blocks with
  | nil =>
    intro os _
    rw [List.flatMap_nil, List.append_nil]
    exact .ofExcept rfl
  | cons b blocks ih =>
    intro os hapart
    rw [List.flatMap_cons, ← List.append_assoc] at hapart ⊢
    have hfirst : Apart (os ++ b.2) := hapart.sublist (List.sublist_append_left _ _)
    have hrest := ih (fun b' hb => hproper b' (List.mem_cons_of_mem b hb))
      fun b' hb => h b' (List.mem_cons_of_mem b hb)
    have hb := h b List.mem_cons_self os hfirst
    rw [List.map_cons]
    show Yields g roots R none held ((b.1 :: blocks.map (·.1)).foldlM f os) _
    rw [List.foldlM_cons]
    exact hb.bind (hproper b List.mem_cons_self os) (hrest _ hapart)

theorem Additive.foldlM {xs : List α} (h : ∀ x ∈ xs, Additive g roots R held (f · x)) :
    Additive g roots R held (fun os => xs.foldlM f os) where
  proper os := .foldlM fun os x hx => (h x hx).proper os
  adds := by
    intro os os' st st' hst hrun hbelow hapart
    obtain ⟨blocks, rfl, rfl, hapart', hblocks⟩ := exists_blocks h hst hrun hbelow hapart
    refine ⟨_, rfl, hapart', .blocks (fun b hb => ?_) hblocks⟩
    exact (h b.1 (List.mem_map_of_mem hb)).proper

end

section

variable {g : Graph} {roots : TypeExpr → Prop} {R : Registry} {combination : Combination}
  (hU : g.Untangled roots) (hD : g.Discerning roots) (hR : Final g roots R)

include hU hD hR

theorem addMethod_additive {context : Context} {m : Method} (hm : ∀ t, m.Writes t → roots t)
    {held : List String}
    (hcontext : Schema.allReferences (responseSchemas context.responses) ⊆ held) :
    Additive g roots R held (addMethod g combination context · m) := by
  have hfollows : Follows g roots none held _ _ (operationOf? g combination context m)
      (operationOf? g combination context m) :=
    operationOf?_single (follows_coupling hU hD) hm hcontext combination
  constructor
  · intro os
    rw [addMethod_eq]
    exact hfollows.left.bind fun o? => .check (enlist_local os o?) fun _ _ => List.nil_subset _
  · intro os os' st st' hst hrun hbelow hapart
    rw [addMethod_eq] at hrun
    obtain ⟨o?, st₁, ho, hlast⟩ := gives_bind.mp hrun
    obtain ⟨henlist, rfl⟩ := gives_ofExcept.mp hlast
    obtain ⟨hapart', rfl⟩ := (enlist_eq_ok_iff hapart).mp henlist
    refine ⟨o?.toList, rfl, hapart', fun os₂ hapart₂ => ?_⟩
    have hbefore : Apart os₂ := hapart₂.sublist (List.sublist_append_left _ _)
    have henlist₂ := (enlist_eq_ok_iff hbefore).mpr ⟨hapart₂, rfl⟩
    show Yields g roots R none held (addMethod g combination context os₂ m) _
    rw [addMethod_eq]
    exact (hfollows.yields hR hst ho hbelow).bind hfollows.left (.ofExcept henlist₂)

theorem addController_additive {c : Controller} (hc : ∀ t, c.Writes t → roots t) :
    Additive g roots R [] (addController g combination · c) := by
  have hfollows : Follows g roots none [] _ _ (contextOf g combination c)
      (contextOf g combination c) := contextOf_single (follows_coupling hU hD) hc combination
  have hmethods : ∀ context, Additive g roots R
      (Schema.allReferences (responseSchemas (Context.responses context)) ++ [])
      (fun os => c.methods.foldlM (addMethod g combination context) os) :=
    fun context => .foldlM fun m hm => addMethod_additive hU hD hR
      (fun t ht => hc t (.method hm ht)) (List.subset_append_left _ [])
  constructor
  · exact fun os => hfollows.left.bind fun context => (hmethods context).proper os
  · intro os os' st st' hst hrun hbelow hapart
    obtain ⟨context, st₁, hcontext, hrun⟩ := gives_bind.mp hrun
    have hst₁ := ((hfollows.left st hst).2 context st₁ hcontext).ready
    have hgrows := (((hmethods context).proper os st₁ hst₁).2 os' st' hrun).grows
    obtain ⟨new, rfl, hapart', hadds⟩ := (hmethods context).adds hst₁ hrun hbelow hapart
    refine ⟨new, rfl, hapart', fun os₂ hapart₂ => ?_⟩
    have hyields := hfollows.yields hR hst hcontext (Registry.Below.trans hgrows.below hbelow)
    exact hyields.bind hfollows.left (hadds os₂ hapart₂)

omit hR in
/-- The controllers of a run that ends can be reached in any order. -/
theorem operationsOf_perm {cs cs' : List Controller} (hperm : cs.Perm cs')
    (hcs : ∀ c ∈ cs, ∀ t, c.Writes t → roots t) {os : List Operation} {st : Situation}
    (hrun : Gives (operationsOf g combination [] cs) (.empty, []) os st) :
    ∃ blocks blocks' : List (Controller × List Operation), blocks.Perm blocks' ∧
      blocks.map (·.1) = cs ∧ blocks'.map (·.1) = cs' ∧ os = blocks.flatMap (·.2) ∧
      ((∃ st', Gives (operationsOf g combination [] cs') (.empty, []) (blocks'.flatMap (·.2)) st' ∧
          st'.1.Below st.1) ∨
        ∃ e, Fails (operationsOf g combination [] cs') (.empty, []) e ∧ e.Untimely) := by
  have hproper : Proper g roots none [] _ (fun os => Schema.allReferences (operationSchemas os))
      (operationsOf g combination [] cs) :=
    operationsOf_single (proper_coupling g roots) hcs (List.nil_subset []) combination
  have hleaves := (hproper (.empty, []) ready_empty).2 os st hrun
  have hfinal : Final g roots st.1 := ⟨hleaves.ready.tracks, hleaves.built built_empty⟩
  have hadditive : ∀ c ∈ cs, Additive g roots st.1 [] (addController g combination · c) :=
    fun c hc => addController_additive hU hD hfinal (hcs c hc)
  obtain ⟨blocks, rfl, rfl, hapart, hblocks⟩ :=
    exists_blocks hadditive ready_empty hrun (Registry.Below.refl st.1) List.Pairwise.nil
  rw [List.nil_append] at hapart ⊢
  have hlift : Relation.Comp (fun ys zs => ys = zs.map (·.1)) List.Perm cs' blocks := by
    rw [List.eq_map_comp_perm]
    exact hperm.symm
  obtain ⟨blocks', rfl, hblocks'⟩ := hlift
  have hadds : Adds g roots st.1 [] (fun os => operationsOf g combination os (blocks'.map (·.1)))
      (blocks'.flatMap (·.2)) := by
    refine .blocks (fun b hb => ?_) fun b hb => hblocks b (hblocks'.mem_iff.mp hb)
    exact (hadditive b.1 (List.mem_map_of_mem (hblocks'.mem_iff.mp hb))).proper
  have hapart' : Apart ([] ++ blocks'.flatMap (·.2)) := hapart.perm (hblocks'.symm.flatMap_right _)
  have hempty : Registry.Below .empty st.1 := nofun
  exact ⟨blocks, blocks', hblocks'.symm, rfl, rfl, rfl, hadds [] hapart' (.empty, []) ready_empty hempty⟩

end

end Extraction

def Graph.Writes (g : Graph) (t : TypeExpr) : Prop := ∃ c ∈ g.controllers, c.Writes t

/-- The operations of two contracts are the blocks of the controllers, each in the order of its
controllers, and the definitions are the same. -/
structure Contract.Reorders (c c' : Contract) (cs cs' : List Controller) : Prop where
  operations : ∃ blocks blocks' : List (Controller × List Operation), blocks.Perm blocks' ∧
    blocks.map (·.1) = cs ∧ blocks'.map (·.1) = cs' ∧
    c.operations = blocks.flatMap (·.2) ∧ c'.operations = blocks'.flatMap (·.2)
  definitions : ∀ name, c.definitions.find? name = c'.definitions.find? name

section

open Extraction Resolve

variable {g : Graph} {combination : Combination} {c : Contract} {cs : List Controller}

theorem Registry.find?_of_below {r r' : Registry} (hr : r.Settled) (h : r.Below r')
    (h' : r'.Below r) (name : String) : r.entries.find? name = r'.entries.find? name := by
  cases he : r.entries.find? name with
  | some e =>
    obtain ⟨slot, he', hslot⟩ := h he
    rcases hslot with hpending | rfl
    · exact absurd hpending (hr he)
    · exact he'.symm
  | none =>
    cases he' : r'.entries.find? name with
    | none => rfl
    | some e =>
      obtain ⟨slot, hslot, -⟩ := h' he'
      rw [he] at hslot
      cases hslot

/-- The contract of the same declarations with other controllers, by the run over these. -/
theorem contract_withControllers_cases (g : Graph) (combination : Combination)
    (cs : List Controller) :
    (∃ e, Fails (operationsOf g combination [] cs) (.empty, []) e ∧
      (g.withControllers cs).contract combination = .error e) ∨
    ∃ os st ds, Gives (operationsOf g combination [] cs) (.empty, []) os st ∧ st.1.Sound ∧
      st.1.Settled ∧ st.1.freeze = .ok ds ∧
        (g.withControllers cs).contract combination = .ok ⟨ds, os⟩ := by
  have hroots : ∀ c ∈ (g.withControllers cs).controllers, ∀ t, c.Writes t → True :=
    fun _ _ _ _ => trivial
  rcases contract_cases hroots with ⟨e, hfails, he⟩ | ⟨os, st, ds, hrun, hleaves, hfreeze, hc⟩
  · rw [operationsOf_withControllers] at hfails
    exact .inl ⟨e, hfails, he⟩
  · rw [operationsOf_withControllers] at hrun
    exact .inr ⟨os, st, ds, hrun, hleaves.ready.sound, hleaves.ready.settled, hfreeze, hc⟩

/-- Where no merged intersection looks at a pending definition, a graph that has a contract has the
same one with its controllers in another order, or the run reports an inheritance cycle. -/
theorem Graph.contract_reordered (hU : g.Untangled g.Writes) (hD : g.Discerning g.Writes)
    (hperm : g.controllers.Perm cs) (h : g.contract combination = .ok c) :
    (∃ c', (g.withControllers cs).contract combination = .ok c' ∧
        c.Reorders c' g.controllers cs) ∨
      ∃ cycle, (g.withControllers cs).contract combination = .error (.looping cycle) := by
  have hroots : ∀ c ∈ g.controllers, ∀ t, c.Writes t → g.Writes t := fun c hc t ht => ⟨c, hc, ht⟩
  have hroots' : ∀ c ∈ cs, ∀ t, c.Writes t → g.Writes t :=
    fun c hc => hroots c (hperm.mem_iff.mpr hc)
  have hsame : (g.withControllers g.controllers).contract combination = .ok c := h
  rcases contract_withControllers_cases g combination g.controllers with
    ⟨e, -, he⟩ | ⟨os, st, ds, hrun, hsound, hsettled, hfreeze, hc⟩
  · rw [hsame] at he
    cases he
  rw [hsame] at hc
  cases hc
  obtain ⟨blocks, blocks', hblocks, hmap, hmap', rfl, hagain⟩ :=
    operationsOf_perm hU hD hperm hroots hrun
  rcases contract_withControllers_cases g combination cs with
    ⟨e, hfails, he⟩ | ⟨os', st', ds', hrun', hsound', hsettled', hfreeze', hc'⟩
  · rcases hagain with ⟨st', hgives, -⟩ | ⟨e', hfails', hcut⟩
    · exact absurd hfails hgives.not_fails
    · obtain rfl : e = e' := Except.error.inj (hfails.symm.trans hfails')
      cases hcut with
      | exhausted => exact absurd he (Graph.contract_not_exhausted _ combination)
      | looping cycle => exact .inr ⟨cycle, he⟩
  · rcases hagain with ⟨st'', hgives, hbelow⟩ | ⟨e', hfails', -⟩
    · obtain ⟨rfl, rfl⟩ := hgives.unique hrun'
      -- The first run repeats the second one too, so that neither registry holds more.
      have hback : st.1.Below st''.1 := by
        obtain ⟨_, _, -, -, -, -, hfirst⟩ := operationsOf_perm hU hD hperm.symm hroots' hrun'
        rcases hfirst with ⟨st₁, hgives₁, hbelow₁⟩ | ⟨e, hfails, -⟩
        · obtain ⟨-, rfl⟩ := hgives₁.unique hrun
          exact hbelow₁
        · exact absurd hfails hrun.not_fails
      refine .inl ⟨_, hc', ⟨blocks, blocks', hblocks, hmap, hmap', rfl, rfl⟩, fun name => ?_⟩
      rw [Registry.find?_frozen hsound hsettled hfreeze,
        Registry.find?_frozen hsound' hsettled' hfreeze',
        Registry.find?_of_below hsettled hback hbelow]
    · exact absurd hfails' hrun'.not_fails

end

namespace Sample

def receiving (path type : String) : Controller where
  id := ⟨"m", "C"⟩
  annotations := []
  methods := [⟨"f", [⟨.verb .post path, .memory⟩], [parameter "p" (.named type) .body],
    some (.keyword .void), none, .memory⟩]
  description := none
  location := .memory

def crossing (own : List (Property TypeExpr)) : Graph where
  declarations := [interface "A" [] own,
    interface "B" [] [property "y" (.intersection [.named "A", .named "C"])], interface "C" [] []]
  controllers := [receiving "/a" "A", receiving "/b" "B"]

def reversed (g : Graph) : Graph := g.withControllers g.controllers.reverse

def tangled : Graph := crossing [property "b" (.named "B")]

def hasMerged (c : Contract) (name key : String) : Bool :=
  (c.definitions.find? name).any fun d => match d.schema with
    | .object o => (Entries.find? o.properties key).any (·.schema.isGround)
    | _ => false

theorem tangled_differs : ∃ c c', tangled.contract .anyOf = .ok c ∧
    (reversed tangled).contract .anyOf = .ok c' ∧
    c.definitions.find? "B" ≠ c'.definitions.find? "B" := by
  have hfirst : (tangled.contract .anyOf).toOption.any (fun c => !hasMerged c "B" "y") := by
    decide +kernel
  have hsecond : ((reversed tangled).contract .anyOf).toOption.any (hasMerged · "B" "y") := by
    decide +kernel
  cases hc : tangled.contract .anyOf with
  | error e => simp [hc, Except.toOption] at hfirst
  | ok c =>
    cases hc' : (reversed tangled).contract .anyOf with
    | error e => simp [hc', Except.toOption] at hsecond
    | ok c' =>
      refine ⟨c, c', rfl, rfl, fun he => ?_⟩
      have hsame : hasMerged c "B" "y" = hasMerged c' "B" "y" := by rw [hasMerged, hasMerged, he]
      simp [hc, hc', Except.toOption, hsame] at hfirst hsecond
      simp [hfirst] at hsecond

def untangled : Graph := crossing [property "x" (.keyword .number)]

/-- Of the declarations only `B` names others. -/
theorem untangled_nodes {d : Declaration} (hd : d ∈ untangled.declarations) {args : List TypeExpr}
    {node : Resolve.Node} (h : Resolve.Node.Reaches untangled (.members d args) node) :
    node = .members d args ∨ (∃ o, node = .type (.keyword .number) o) ∨
      d.id.name = "B" ∧ ∃ o, node = .type (.intersection [.named "A", .named "C"]) o ∨
        node = .type (.named "A") o ∨ node = .type (.named "C") o := by
  induction h with
  | refl => exact .inl rfl
  | tail _ hpart ih =>
    rcases ih with rfl | ⟨o, rfl⟩ | ⟨hname, o, rfl | rfl | rfl⟩
    · simp only [untangled, crossing, List.mem_cons, List.not_mem_nil, or_false] at hd
      cases hpart with
      | base hk hb _ => rcases hd with rfl | rfl | rfl <;> cases hk <;> cases hb
      | ownProperty hk hp =>
        rcases hd with rfl | rfl | rfl
        · cases hk
          obtain rfl := List.mem_singleton.mp hp
          exact .inr (.inl ⟨_, rfl⟩)
        · cases hk
          obtain rfl := List.mem_singleton.mp hp
          exact .inr (.inr ⟨rfl, _, .inl rfl⟩)
        · cases hk
          cases hp
      | ownIndex hk hv => rcases hd with rfl | rfl | rfl <;> cases hk <;> cases hv
    · cases hpart
    · cases hpart with
      | constraint ht =>
        simp only [List.mem_cons, List.not_mem_nil, or_false] at ht
        rcases ht with rfl | rfl
        · exact .inr (.inr ⟨hname, o, .inr (.inl rfl)⟩)
        · exact .inr (.inr ⟨hname, o, .inr (.inr rfl)⟩)
    · cases hpart with
      | argument hr _ => cases hr
    · cases hpart with
      | argument hr _ => cases hr

theorem untangled_leads {i j : Instance} (h : i.Leads untangled j) :
    i.id.name = "B" ∧ j.id.name ≠ "B" := by
  obtain ⟨node, ⟨d, hd, hreach⟩, hasks⟩ := h
  have hid := Graph.declaration?_id hd
  rcases untangled_nodes (List.mem_of_find?_eq_some hd) hreach with
    rfl | ⟨o, rfl⟩ | ⟨hname, o, rfl | rfl | rfl⟩
  · cases hasks
  · cases hasks
  · cases hasks
  · cases hasks with
    | reference _ hl hi =>
      refine ⟨hid ▸ hname, ?_⟩
      cases hl
      cases hi
      decide
  · cases hasks with
    | reference _ hl hi =>
      refine ⟨hid ▸ hname, ?_⟩
      cases hl
      cases hi
      decide

theorem untangled_untangled : untangled.Untangled untangled.Writes := by
  apply Graph.untangled_of_acyclic
  intro i _ hcycle
  obtain ⟨j, hfirst, -⟩ := Relation.TransGen.head'_iff.mp hcycle
  obtain ⟨k, -, hlast⟩ := Relation.TransGen.tail'_iff.mp hcycle
  exact (untangled_leads hlast).2 (untangled_leads hfirst).1

theorem untangled_discerning : untangled.Discerning untangled.Writes := by
  apply Graph.discerning_of_plain
  intro d hd
  simp only [untangled, crossing, List.mem_cons, List.not_mem_nil, or_false] at hd
  rcases hd with rfl | rfl | rfl <;> rfl

theorem untangled_reordered : ∃ c c', untangled.contract .anyOf = .ok c ∧
    (reversed untangled).contract .anyOf = .ok c' ∧
    c.Reorders c' untangled.controllers untangled.controllers.reverse := by
  have hfirst : (untangled.contract .anyOf).toOption.isSome := by decide +kernel
  have hsecond : ((reversed untangled).contract .anyOf).toOption.isSome := by decide +kernel
  cases hc : untangled.contract .anyOf with
  | error e => simp [hc, Except.toOption] at hfirst
  | ok c =>
    rcases Graph.contract_reordered untangled_untangled untangled_discerning
      (List.reverse_perm untangled.controllers).symm hc with ⟨c', hc', h⟩ | ⟨cycle, he⟩
    · exact ⟨c, c', rfl, hc', h⟩
    · rw [reversed, he] at hsecond
      cases hsecond

def descending : Graph where
  declarations := [interface "A" [] [property "b" (.named "B")], interface "B" ["A"] []]
  controllers := [receiving "/b" "B", receiving "/a" "A"]

-- One order gives a contract where the other one stops at a declaration that is being collected.
example : ((descending.contract .anyOf).toOption.isSome &&
    ((reversed descending).contract .anyOf).toOption.isNone) = true := by
  decide +kernel

end Sample

end RouteContract

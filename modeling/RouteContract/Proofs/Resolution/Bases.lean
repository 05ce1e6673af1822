import RouteContract.Proofs.Resolution.Inheritance
import RouteContract.Proofs.Resolution.Normalization

/-!
# Inheritance without cycles

Where no declaration inherits from itself, a chain of bases never comes back to a
declaration. So an inheritance cycle is found only on a way that passes through
the type of a property, or in what an earlier run left unfinished.
-/

set_option autoImplicit false

namespace RouteContract

open Relation (TransGen)

def Graph.Inherits (g : Graph) (a b : DeclId) : Prop :=
  ∃ d ∈ g.declarations, d.id = a ∧ ∃ base ∈ d.bases, ∃ found, g.lookup base d.origin = .ok found ∧
    found.id = b

namespace Resolve

def Task.Declared (g : Graph) : Task → Prop
  | type .. => True
  | members d .. => d ∈ g.declarations

section

variable {g : Graph} {n k : Nat} {task next last : Task} {st st' : Situation} {ids : List DeclId}
  {cycle : List String}

theorem Calls.declared (h : Calls g n task st next st') : next.Declared g := by
  cases h with
  | registration _ _ _ hd => exact List.mem_of_find?_eq_some hd.declared
  | base _ _ _ _ hbase => exact Graph.lookup_mem hbase.found
  | _ => trivial

theorem Calls.inherits {d b : Declaration} {args args' : List TypeExpr}
    {object object' : ObjectSchema Schema} (hd : d ∈ g.declarations)
    (h : Calls g n (.members d args object) st (.members b args' object') st') :
    g.Inherits d.id b.id := by
  cases h with
  | @base _ _ bases before after base shape isClass _ _ _ _ _ i hk _ hbases _ hbase =>
    refine ⟨d, hd, rfl, base, ?_, b, hbase.found, rfl⟩
    simp [Declaration.bases, hk, hbases]

theorem Nested.eq_or_mem {b d : Declaration} {args args' : List TypeExpr}
    {object object' : ObjectSchema Schema}
    (h : Nested g n (.members b args object) st ids k (.members d args' object') st') :
    b.id = d.id ∨ b.id ∈ ids := by
  cases h with
  | here => exact .inl rfl
  | call => exact .inr (by simp [Task.collected])

/-- On the way to a declaration, the type of a property of a declaration is asked for, and all that
is collected after it inherits from the first one. -/
def ThroughProperty (g : Graph) (n : Nat) (task : Task) (st : Situation) (ids : List DeclId)
    (k : Nat) (d : DeclId) (last : Task) (st' : Situation) : Prop :=
  ∃ before after m e args object st1 t o st2,
    Nested g n task st before (m + 1) (.members e args object) st1 ∧
    Calls g m (.members e args object) st1 (.type t o) st2 ∧
    Nested g m (.type t o) st2 after k last st' ∧ ids = before ++ e.id :: after ∧
    ∀ a ∈ after, TransGen g.Inherits a d

/-- Either all that is collected on a way inherits from the declaration at its end, or the way goes
through a property. -/
theorem Nested.inherits_or_property (h : Nested g n task st ids k last st')
    (htask : task.Declared g) {d : Declaration} {args : List TypeExpr}
    {object : ObjectSchema Schema} (hlast : last = .members d args object) :
    (∀ a ∈ ids, TransGen g.Inherits a d.id) ∨ ThroughProperty g n task st ids k d.id last st' := by
  induction h with
  | here => exact .inl (by simp)
  | @call n k task next last st st' st'' ids hcall hrest ih =>
    rcases ih hcall.declared hlast with h | h
    · cases task with
      | type t o => exact .inl h
      | members e args' object' =>
        cases next with
        | members b _ _ =>
          -- a base: what its declaration inherits from is inherited from here as well
          refine .inl fun a ha => ?_
          have hfirst : TransGen g.Inherits e.id b.id := .single (hcall.inherits htask)
          rcases List.mem_cons.mp ha with rfl | ha
          · subst hlast
            rcases hrest.eq_or_mem with hb | hb
            · exact hb ▸ hfirst
            · exact hfirst.trans (h _ hb)
          · exact h a ha
        | type t o =>
          exact .inr ⟨[], ids, n, e, args', object', st, t, o, st', .here, hcall, hrest, rfl, h⟩
    · obtain ⟨before, after, m, e, args', object', st1, t, o, st2, hn, hp, ha, hids, h⟩ := h
      exact .inr ⟨task.collected ++ before, after, m, e, args', object', st1, t, o, st2,
        .call hcall hn, hp, ha, by rw [hids, List.append_assoc], h⟩

def Resumes (g : Graph) (n : Nat) (task : Task) (st : Situation) (cycle : List String) : Prop :=
  ∃ ids d, Asks g n task st ids d ∧ d.id ∈ st.2 ∧ (st.2 ++ ids ++ [d.id]).map DeclId.text = cycle

/-- While the members of a declaration are being collected, the type of one of its own properties
is asked for, and the run of that type asks for the members of this declaration or of another one
that is being collected. -/
def LeadsBack (g : Graph) (n : Nat) (task : Task) (st : Situation) (cycle : List String) : Prop :=
  ∃ ids m e args object st1 t o st2, Nested g n task st ids (m + 1) (.members e args object) st1 ∧
    Calls g m (.members e args object) st1 (.type t o) st2 ∧ Resumes g m (.type t o) st2 cycle

theorem Resumes.reenters (h : Resumes g n task st cycle) : Reenters g n task st cycle := by
  obtain ⟨ids, d, hasks, hmem, hc⟩ := h
  exact ⟨ids, d, hasks, List.mem_append_left ids hmem, hc⟩

theorem LeadsBack.reenters (h : LeadsBack g n task st cycle) : Reenters g n task st cycle := by
  obtain ⟨ids, m, e, args, object, st1, t, o, st2, hn, hcall, hresumes⟩ := h
  obtain ⟨ids', d, ⟨k, args', object', st3, hn', ho⟩, hmem, hc⟩ := hresumes
  have hstack : st2.2 = st.2 ++ (ids ++ [e.id]) := by
    rw [hcall.stack, hn.stack, List.append_assoc]
    rfl
  have hall : st.2 ++ (ids ++ e.id :: ids') = st2.2 ++ ids' := by simp [hstack]
  refine ⟨ids ++ e.id :: ids', d, ⟨k, args', object', st3, hn.trans (.call hcall hn'), ho⟩, ?_, ?_⟩
  · rw [hall]
    exact List.mem_append_left ids' hmem
  · rw [hall]
    exact hc

/-- Bases alone never lead back to a declaration that does not inherit from itself. -/
theorem reenters_iff (hacyclic : ∀ a, ¬ TransGen g.Inherits a a) (htask : task.Declared g) :
    Reenters g n task st cycle ↔ Resumes g n task st cycle ∨ LeadsBack g n task st cycle := by
  constructor
  · rintro ⟨ids, d, ⟨k, args, object, st', hn, ho⟩, hmem, hc⟩
    rcases List.mem_append.mp hmem with hmem | hmem
    · exact .inl ⟨ids, d, ⟨k, args, object, st', hn, ho⟩, hmem, hc⟩
    rcases hn.inherits_or_property htask rfl with h | h
    · exact absurd (h d.id hmem) (hacyclic d.id)
    obtain ⟨before, after, m, e, args', object', st1, t, o, st2, hbefore, hcall, hafter, rfl, h⟩ := h
    have hstack : st2.2 = st.2 ++ (before ++ [e.id]) := by
      rw [hcall.stack, hbefore.stack, List.append_assoc]
      rfl
    refine .inr ⟨before, m, e, args', object', st1, t, o, st2, hbefore, hcall, after, d,
      ⟨k, args, object, st', hafter, ho⟩, ?_, ?_⟩
    · have hafter : d.id ∉ after := fun hd => hacyclic d.id (h d.id hd)
      simp only [List.mem_append, List.mem_cons, hafter, or_false] at hmem
      simp [hstack, hmem]
    · rw [← hc, hstack]
      simp
  · rintro (h | h)
    · exact h.reenters
    · exact h.reenters

end

end Resolve

end RouteContract

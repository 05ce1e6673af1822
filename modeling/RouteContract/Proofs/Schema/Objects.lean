import RouteContract.Proofs.Schema.Nodes
import RouteContract.Proofs.Schema.References

/-!
# Objects in schemas

An object stands in a schema at some depth. Formats and unions bring in no
objects, and a merged object brings in itself only.
-/

set_option autoImplicit false

namespace RouteContract.Schema

def Has (s : Schema) (o : ObjectSchema Schema) : Prop := .object o ∈ tree.nodes s

section

variable {s t : Schema} {ss : List Schema} {o : ObjectSchema Schema}

theorem has_iff : s.Has o ↔ s = .object o ∨ ∃ t ∈ s.children, t.Has o := by
  unfold Has
  rw [Tree.nodes_eq, List.mem_cons, List.mem_flatMap, eq_comm]
  rfl

theorem has_self (o : ObjectSchema Schema) : (object o).Has o := has_iff.mpr (.inl rfl)

theorem Has.of_child (h : t.Has o) (ht : t ∈ s.children) : s.Has o := has_iff.mpr (.inr ⟨t, ht, h⟩)

theorem mem_children_object : t ∈ (object o).children ↔
    (∃ name p, (name, p) ∈ o.properties ∧ p.schema = t) ∨ o.additional = .schema t := by
  have hadditional : t ∈ ofAdditional o.additional ↔ o.additional = .schema t := by
    cases o.additional <;> simp [ofAdditional, eq_comm]
  simp [children, hadditional]

theorem applyFormatAll_eq (f : Format) (ss : List Schema) :
    applyFormatAll f ss = ss.map (applyFormat f) := by
  induction ss with
  | nil => rfl
  | cons s ss ih => rw [applyFormatAll, ih, List.map_cons]

theorem has_of_applyFormat {f : Format} (h : (s.applyFormat f).Has o) : s.Has o := by
  induction s using tree.induction with
  | _ s ih =>
    cases s with
    | array s =>
      rw [applyFormat, has_iff] at h
      obtain h | ⟨t, ht, h⟩ := h
      · cases h
      · obtain rfl := List.mem_singleton.mp ht
        exact (ih s (List.mem_singleton_self s) h).of_child (List.mem_singleton_self s)
    | union ss =>
      rw [applyFormat, applyFormatAll_eq, has_iff] at h
      obtain h | ⟨t, ht, h⟩ := h
      · cases h
      · obtain ⟨s, hs, rfl⟩ := List.mem_map.mp ht
        exact (ih s hs h).of_child hs
    | primitive kind =>
      obtain h | ⟨t, ht, -⟩ := has_iff.mp h
      · cases h
      · cases ht
    | _ => exact h

theorem has_of_unionOf (h : (unionOf ss).Has o) : ∃ s ∈ ss, s.Has o := by
  have hflat : ∀ t ∈ flatten ss, t.Has o → ∃ s ∈ ss, s.Has o := by
    intro t ht h
    rcases mem_flatten ht with ht | ⟨nested, hn, ht⟩
    · exact ⟨t, ht, h⟩
    · exact ⟨_, hn, h.of_child ht⟩
  unfold unionOf at h
  split at h
  · rename_i s hs
    exact hflat s (by rw [hs]; exact List.mem_singleton_self s) h
  · obtain h' | ⟨t, ht, h'⟩ := has_iff.mp h
    · split at h' <;> cases h'
    · split at ht
      · cases ht
      · exact hflat t ht h'

theorem has_of_merged {os : List (ObjectSchema Schema)}
    (h : (object (os.foldl ObjectSchema.merge .empty)).Has o) :
    o = os.foldl ObjectSchema.merge .empty ∨ ∃ o' ∈ os, (object o').Has o := by
  obtain h | ⟨t, ht, h⟩ := has_iff.mp h
  · cases h
    exact .inl rfl
  have hchild : ∃ o' ∈ os, t ∈ (object o').children := by
    simp only [mem_children_object] at ht ⊢
    rcases ht with ⟨name, p, hp, rfl⟩ | ha
    · obtain ⟨o', ho', q, hq, hschema, -⟩ := ObjectSchema.merged_property hp
      exact ⟨o', ho', .inl ⟨name, q, hq, hschema.symm⟩⟩
    · rcases ObjectSchema.merged_additional ha with he | ⟨o', ho', ha⟩
      · cases he
      · exact ⟨o', ho', .inr ha⟩
  obtain ⟨o', ho', hmem⟩ := hchild
  exact .inr ⟨o', ho', h.of_child hmem⟩

end

end RouteContract.Schema

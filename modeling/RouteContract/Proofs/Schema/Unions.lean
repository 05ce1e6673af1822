import RouteContract.Proofs.Schema.Sameness

/-!
# Members and values of unions

A union keeps of its members, once those that are unions are opened, each that is
not the same as an earlier one. Enums are taken together value by value, as long
as all values are of one kind. So the members that are left have a canonical form.
-/

set_option autoImplicit false

namespace RouteContract

def Distinct {α : Type} (same : α → α → Bool) (xs : List α) : Prop :=
  xs.Pairwise fun x y => same x y = false

theorem Distinct.concat {α : Type} {same : α → α → Bool} {xs : List α} {y : α}
    (h : Distinct same xs) (hy : ¬ xs.any (same · y)) : Distinct same (xs ++ [y]) := by
  refine List.pairwise_append.mpr ⟨h, List.pairwise_singleton _ y, fun x hx z hz => ?_⟩
  obtain rfl := List.mem_singleton.mp hz
  exact Bool.eq_false_iff.mpr fun hsame => hy (List.any_eq_true.mpr ⟨x, hx, hsame⟩)

namespace Schema

def opened : Schema → List Schema
  | union nested => nested
  | other => [other]

theorem flatten_eq (members : List Schema) :
    flatten members = (members.flatMap opened).foldl addMember [] := by
  have general : ∀ flat, members.foldl (fun flat s => match s with
      | union nested => nested.foldl addMember flat
      | other => addMember flat other) flat = (members.flatMap opened).foldl addMember flat := by
    induction members with
    | nil => exact fun _ => rfl
    | cons s members ih =>
      intro flat
      rw [List.foldl_cons, ih, List.flatMap_cons, List.foldl_append]
      cases s <;> rfl
  exact general []

end Schema

namespace EnumValue

def Respected {β : Type} (f : EnumValue → β) : Prop := ∀ a b, a.same b → f a = f b

variable {β : Type} {f : EnumValue → Option β} {values vs out : List EnumValue} {v : EnumValue}

theorem findSome?_addTo? (hf : Respected f) (h : addTo? values v = some out) :
    out.findSome? f = (values ++ [v]).findSome? f := by
  cases values with
  | nil =>
    cases h
    rfl
  | cons first values =>
    simp only [addTo?] at h
    split at h
    · cases h
    · split at h
      · rename_i hany
        cases h
        -- The value is the same as one that comes first.
        obtain ⟨a, ha, hav⟩ := List.any_eq_true.mp hany
        rw [List.findSome?_append]
        cases hfind : (first :: values).findSome? f with
        | some t => rfl
        | none =>
          have hnone := List.findSome?_eq_none_iff.mp hfind a ha
          simp [← hf a v hav, hnone]
      · cases h
        rfl

theorem findSome?_addAllTo? (hf : Respected f) (h : addAllTo? values vs = some out) :
    out.findSome? f = (values ++ vs).findSome? f := by
  induction vs generalizing values with
  | nil =>
    cases h
    rw [List.append_nil]
  | cons v vs ih =>
    obtain ⟨next, hnext, hrest⟩ := Option.bind_eq_some_iff.mp h
    rw [ih hrest, List.findSome?_append, findSome?_addTo? hf hnext, ← List.findSome?_append,
      List.append_assoc]
    rfl

theorem addTo?_distinct (hvalues : Distinct same values) (h : addTo? values v = some out) :
    Distinct same out := by
  cases values with
  | nil =>
    cases h
    exact List.pairwise_singleton _ v
  | cons first values =>
    simp only [addTo?] at h
    split at h
    · cases h
    · split at h
      · cases h
        exact hvalues
      · rename_i hany
        cases h
        exact hvalues.concat hany

theorem addAllTo?_distinct (hvalues : Distinct same values) (h : addAllTo? values vs = some out) :
    Distinct same out := by
  induction vs generalizing values with
  | nil =>
    cases h
    exact hvalues
  | cons v vs ih =>
    obtain ⟨next, hnext, hrest⟩ := Option.bind_eq_some_iff.mp h
    exact ih (addTo?_distinct hvalues hnext) hrest

def OneKind (values : List EnumValue) : Prop := ∀ a ∈ values, ∀ b ∈ values, a.sameKind b

theorem addTo?_of_oneKind (h : OneKind (values ++ [v])) :
    ∃ out, addTo? values v = some out ∧ out ⊆ values ++ [v] := by
  cases values with
  | nil => exact ⟨[v], rfl, fun a ha => ha⟩
  | cons first values =>
    have hkind : first.sameKind v := h first (by simp) v (by simp)
    simp only [addTo?, hkind, Bool.not_true, Bool.false_eq_true, if_false]
    split
    · exact ⟨_, rfl, List.subset_append_left _ _⟩
    · exact ⟨_, rfl, fun a ha => ha⟩

theorem addAllTo?_of_oneKind (h : OneKind (values ++ vs)) :
    ∃ out, addAllTo? values vs = some out ∧ out ⊆ values ++ vs := by
  induction vs generalizing values with
  | nil => exact ⟨values, rfl, by simp⟩
  | cons v vs ih =>
    have hfirst : values ++ [v] ⊆ values ++ v :: vs := by simp
    have hkind : OneKind (values ++ [v]) := fun a ha b hb => h a (hfirst ha) b (hfirst hb)
    obtain ⟨next, hnext, hsub⟩ := addTo?_of_oneKind hkind
    have hrest : next ++ vs ⊆ values ++ v :: vs :=
      List.append_subset.mpr ⟨List.Subset.trans hsub hfirst, by simp⟩
    obtain ⟨out, hout, hsub'⟩ := ih fun a ha b hb => h a (hrest ha) b (hrest hb)
    exact ⟨out, by rw [addAllTo?, hnext, Option.bind_some, hout], List.Subset.trans hsub' hrest⟩

end EnumValue

namespace Schema

/-- What is collapsed are enums, and a search meets their values as if none had been left out. -/
theorem collapse?_eq_some {values out : List EnumValue} {ms : List Schema}
    (h : collapse? values ms = some out) :
    ∃ vss : List (List EnumValue), ms = vss.map enum ∧
      ∀ {β : Type} {f : EnumValue → Option β}, EnumValue.Respected f →
        out.findSome? f = (values ++ vss.flatten).findSome? f := by
  induction ms generalizing values with
  | nil =>
    cases h
    exact ⟨[], rfl, by simp⟩
  | cons m ms ih =>
    cases m with
    | enum vs =>
      obtain ⟨next, hnext, hrest⟩ := Option.bind_eq_some_iff.mp h
      obtain ⟨vss, rfl, hfind⟩ := ih hrest
      refine ⟨vs :: vss, rfl, fun hf => ?_⟩
      rw [hfind hf, List.findSome?_append, EnumValue.findSome?_addAllTo? hf hnext,
        ← List.findSome?_append, List.append_assoc]
      rfl
    | _ => cases h

theorem collapse?_distinct {values out : List EnumValue} {ms : List Schema}
    (hvalues : Distinct EnumValue.same values) (h : collapse? values ms = some out) :
    Distinct EnumValue.same out := by
  induction ms generalizing values with
  | nil =>
    cases h
    exact hvalues
  | cons m ms ih =>
    cases m with
    | enum vs =>
      obtain ⟨next, hnext, hrest⟩ := Option.bind_eq_some_iff.mp h
      exact ih (EnumValue.addAllTo?_distinct hvalues hnext) hrest
    | _ => cases h

def OneKind (ms : List Schema) : Prop :=
  ∃ vss : List (List EnumValue), ms = vss.map enum ∧ EnumValue.OneKind vss.flatten

theorem collapse?_isSome {values : List EnumValue} {vss : List (List EnumValue)}
    (h : EnumValue.OneKind (values ++ vss.flatten)) :
    (collapse? values (vss.map enum)).isSome := by
  induction vss generalizing values with
  | nil => rfl
  | cons vs vss ih =>
    have hfirst : values ++ vs ⊆ values ++ (vs :: vss).flatten := by simp
    have hkind : EnumValue.OneKind (values ++ vs) :=
      fun a ha b hb => h a (hfirst ha) b (hfirst hb)
    obtain ⟨next, hnext, hsub⟩ := EnumValue.addAllTo?_of_oneKind hkind
    have hrest : next ++ vss.flatten ⊆ values ++ (vs :: vss).flatten :=
      List.append_subset.mpr ⟨List.Subset.trans hsub hfirst, by simp⟩
    rw [List.map_cons, collapse?, hnext, Option.bind_some]
    exact ih fun a ha b hb => h a (hrest ha) b (hrest hb)

theorem addMember_distinct {flat : List Schema} (h : Distinct same flat) (s : Schema) :
    Distinct same (addMember flat s) := by
  unfold addMember
  split
  · exact h
  · rename_i hany
    exact h.concat hany

theorem addMember_ne_nil (flat : List Schema) (s : Schema) : addMember flat s ≠ [] := by
  unfold addMember
  split
  · rename_i hany
    obtain ⟨m, hm, -⟩ := List.any_eq_true.mp hany
    exact List.ne_nil_of_mem hm
  · simp

theorem foldl_addMember_distinct {ms flat : List Schema} (h : Distinct same flat) :
    Distinct same (ms.foldl addMember flat) := by
  induction ms generalizing flat with
  | nil => exact h
  | cons m ms ih => exact ih (addMember_distinct h m)

theorem foldl_addMember_ne_nil {ms flat : List Schema} (h : flat ≠ [] ∨ ms ≠ []) :
    ms.foldl addMember flat ≠ [] := by
  induction ms generalizing flat with
  | nil => exact h.resolve_right (absurd rfl)
  | cons m ms ih => exact ih (.inl (addMember_ne_nil flat m))

/-- The form of the members that a union keeps, apart from repetitions. -/
structure Canonical (ms : List Schema) : Prop where
  several : 2 ≤ ms.length
  flat : ∀ nested, union nested ∉ ms
  mixed : ¬ OneKind ms

/-- A union whose nested unions are canonical is one of its members, an enum without repetition or
canonical itself. -/
theorem unionOf_cases {ms : List Schema} (hne : ms ≠ [])
    (hnested : ∀ nested, union nested ∈ ms → Canonical nested) :
    unionOf ms ∈ ms.flatMap opened ∨
    (∃ values, unionOf ms = enum values ∧ Distinct EnumValue.same values) ∨
    ∃ flat, unionOf ms = union flat ∧ Canonical flat ∧ Distinct same flat ∧
      flat ⊆ ms.flatMap opened := by
  have hflat : flatten ms ⊆ ms.flatMap opened := by
    intro m hm
    rw [flatten_eq] at hm
    exact (mem_foldl_addMember hm).resolve_left List.not_mem_nil
  have hopened : ms.flatMap opened ≠ [] := by
    obtain ⟨m, hm⟩ := List.exists_mem_of_ne_nil ms hne
    have hm' : m.opened ≠ [] := by
      cases m with
      | union nested =>
        exact List.ne_nil_of_length_pos (Nat.zero_lt_two.trans_le (hnested nested hm).several)
      | _ => exact List.cons_ne_nil _ _
    simp only [ne_eq, List.flatMap_eq_nil_iff]
    exact fun h => hm' (h m hm)
  have hplain : ∀ nested, union nested ∉ ms.flatMap opened := by
    intro nested h
    obtain ⟨m, hm, hmem⟩ := List.mem_flatMap.mp h
    cases m with
    | union nested' => exact (hnested _ hm).flat nested hmem
    | _ => cases List.mem_singleton.mp hmem
  have hdistinct : Distinct same (flatten ms) := flatten_eq ms ▸ foldl_addMember_distinct .nil
  have hkept : flatten ms ≠ [] := flatten_eq ms ▸ foldl_addMember_ne_nil (.inr hopened)
  unfold unionOf
  split
  · rename_i s hs
    exact .inl (hflat (by rw [hs]; exact List.mem_singleton_self s))
  · rename_i hsingle
    split
    · rename_i values hvalues
      exact .inr (.inl ⟨values, rfl, collapse?_distinct .nil hvalues⟩)
    · rename_i hvalues
      refine .inr (.inr ⟨flatten ms, rfl, ⟨?_, fun nested h => hplain nested (hflat h), ?_⟩,
        hdistinct, hflat⟩)
      · match hms : flatten ms with
        | [] => exact absurd hms hkept
        | [s] => exact absurd hms (hsingle s)
        | _ :: _ :: _ => simp
      · rintro ⟨vss, hvss, hkind⟩
        have hsome : (collapse? [] (vss.map enum)).isSome := collapse?_isSome hkind
        rw [← hvss, hvalues] at hsome
        cases hsome

theorem applyFormat_eq_enum {f : Format} {s : Schema} {values : List EnumValue} :
    s.applyFormat f = enum values ↔ s = enum values := by
  cases s <;> simp [applyFormat]

/-- A format may make members the same, and keeps the form otherwise. -/
theorem Canonical.applyFormat {ms : List Schema} (h : Canonical ms) (f : Format) :
    Canonical (ms.map (applyFormat f)) where
  several := by simpa using h.several
  flat nested hmem := by
    obtain ⟨m, hm, he⟩ := List.mem_map.mp hmem
    cases m with
    | union nested' => exact h.flat nested' hm
    | _ => cases he
  mixed := by
    rintro ⟨vss, hvss, hkind⟩
    refine h.mixed ⟨vss, ?_, hkind⟩
    clear h hkind
    induction ms generalizing vss with
    | nil => simpa using hvss
    | cons m ms ih =>
      cases vss with
      | nil => cases hvss
      | cons vs vss =>
        obtain ⟨hm, hms⟩ := List.cons.inj hvss
        rw [List.map_cons, applyFormat_eq_enum.mp hm, ih vss hms]

end Schema

end RouteContract

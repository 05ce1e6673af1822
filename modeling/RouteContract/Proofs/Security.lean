import RouteContract.Proofs.Entries
import RouteContract.Security

/-!
# Granted requirements

A caller is granted schemes, and scopes of them. Requirements are put together
scheme by scheme, and the same scheme may come up several times with other
scopes. Nothing is lost and nothing added: the whole is satisfied exactly if all
its parts are. Annotations that do not speak of security have no part in it.
-/

set_option autoImplicit false

namespace RouteContract

structure Grant where
  scheme : String → Prop
  scope : String → String → Prop

def Grant.Satisfies (G : Grant) (uses : List SchemeUse) : Prop :=
  ∀ use ∈ uses, G.scheme use.1 ∧ ∀ scope ∈ use.2, G.scope use.1 scope

theorem mem_appendNew {α : Type} [DecidableEq α] {values more : List α} {a : α} :
    a ∈ appendNew values more ↔ a ∈ values ∨ a ∈ more := by
  unfold appendNew
  induction more generalizing values with
  | nil => simp
  | cons b more ih =>
    rw [List.foldl_cons, ih, List.mem_cons]
    split
    · rename_i hb
      constructor
      · rintro (h | h)
        · exact .inl h
        · exact .inr (.inr h)
      · rintro (h | rfl | h)
        · exact .inl h
        · exact .inl hb
        · exact .inr h
    · rw [List.mem_append, List.mem_singleton, or_assoc]

namespace Grant

variable {G : Grant}

@[simp] theorem satisfies_nil : G.Satisfies [] := nofun

@[simp] theorem satisfies_cons {use : SchemeUse} {uses : List SchemeUse} :
    G.Satisfies (use :: uses) ↔
      (G.scheme use.1 ∧ ∀ scope ∈ use.2, G.scope use.1 scope) ∧ G.Satisfies uses :=
  List.forall_mem_cons

theorem satisfies_singleton {use : SchemeUse} :
    G.Satisfies [use] ↔ G.scheme use.1 ∧ ∀ scope ∈ use.2, G.scope use.1 scope := by
  rw [satisfies_cons, and_iff_left satisfies_nil]

/-- A scheme that is there already asks for the new scopes beside its own. -/
theorem satisfies_addScheme {r : Requirement} {use : SchemeUse} :
    G.Satisfies (r.addScheme use) ↔ G.Satisfies r ∧ G.Satisfies [use] := by
  obtain ⟨scheme, scopes⟩ := use
  unfold Requirement.addScheme
  rw [satisfies_singleton]
  dsimp only
  induction r with
  | nil => simp [Entries.insert, mem_appendNew]
  | cons x rest ih =>
    obtain ⟨key, present⟩ := x
    by_cases hkey : key = scheme
    · subst hkey
      simp only [Entries.insert, Entries.find?, if_true, Option.getD_some, satisfies_cons,
        mem_appendNew, or_imp, forall_and]
      tauto
    · simp only [Entries.insert, Entries.find?, hkey, if_false, satisfies_cons, ih, and_assoc]

theorem satisfies_merge {r more : Requirement} :
    G.Satisfies (r.merge more) ↔ G.Satisfies r ∧ G.Satisfies more := by
  unfold Requirement.merge
  induction more generalizing r with
  | nil => simp
  | cons use more ih =>
    rw [List.foldl_cons, ih, satisfies_addScheme, satisfies_singleton, satisfies_cons, and_assoc]

/-- The requirement of an annotation asks for what the annotation lists. -/
theorem satisfies_ofSchemes {uses : List SchemeUse} :
    G.Satisfies (Requirement.ofSchemes uses) ↔ G.Satisfies uses := by
  have general : ∀ r : Requirement,
      G.Satisfies
          (uses.foldl (fun r use => Requirement.merge r (Entries.insert [] use.1 use.2)) r) ↔
        G.Satisfies r ∧ G.Satisfies uses := by
    induction uses with
    | nil => simp
    | cons use uses ih =>
      intro r
      rw [List.foldl_cons, ih, satisfies_merge, satisfies_cons, and_assoc]
      exact and_congr_right fun _ => and_congr_left fun _ => satisfies_singleton
  exact (general []).trans (and_iff_right satisfies_nil)

theorem satisfies_merged {rs : List Requirement} {r : Requirement} :
    G.Satisfies (rs.foldl Requirement.merge r) ↔ G.Satisfies r ∧ ∀ r' ∈ rs, G.Satisfies r' := by
  induction rs generalizing r with
  | nil => simp
  | cons r' rs ih => rw [List.foldl_cons, ih, satisfies_merge, List.forall_mem_cons, and_assoc]

end Grant

def Annotation.secures : Annotation → Bool
  | .security _ | .noSecurity => true
  | _ => false

def Annotation.schemes? : Annotation → Option (List SchemeUse)
  | .security schemes => some schemes
  | _ => none

namespace Security

variable {annotations : List AnnotationUse} {combination : Combination}

def listed (annotations : List AnnotationUse) : List (List SchemeUse) :=
  annotations.filterMap (·.content.schemes?)

theorem requirements?_listed (h : ∀ use ∈ annotations, use.content ≠ .noSecurity) :
    requirements? annotations = some ((listed annotations).map Requirement.ofSchemes) := by
  induction annotations with
  | nil => rfl
  | cons use rest ih =>
    obtain ⟨hwaived, hrest⟩ := List.forall_mem_cons.mp h
    obtain ⟨content, location⟩ := use
    cases content with
    | security schemes => simp [requirements?, ih hrest, listed, Annotation.schemes?]
    | noSecurity => exact absurd rfl hwaived
    | _ => exact ih hrest

theorem requirements?_filter (annotations : List AnnotationUse) :
    requirements? (annotations.filter (·.content.secures)) = requirements? annotations := by
  induction annotations with
  | nil => rfl
  | cons use rest ih =>
    obtain ⟨content, location⟩ := use
    cases content with
    | security schemes =>
      rw [List.filter_cons_of_pos rfl, requirements?, requirements?, ih]
    | noSecurity => rw [List.filter_cons_of_pos rfl, requirements?, requirements?]
    | _ => exact ih

/-- Other annotations have no part in what is declared. -/
theorem declared_filter (annotations : List AnnotationUse) (combination : Combination) :
    declared (annotations.filter (·.content.secures)) combination =
      declared annotations combination := by
  unfold declared
  rw [requirements?_filter]

theorem declared_listed (h : ∀ use ∈ annotations, use.content ≠ .noSecurity)
    (hlisted : listed annotations ≠ []) : declared annotations combination =
      some (match combination with
        | .anyOf => (listed annotations).map Requirement.ofSchemes
        | .allOf => [((listed annotations).map Requirement.ofSchemes).foldl .merge []]) := by
  unfold declared
  rw [requirements?_listed h]
  cases hl : listed annotations with
  | nil => exact absurd hl hlisted
  | cons uses rest => cases combination <;> rfl

/-- Alternatives are satisfied as soon as one annotation is. -/
theorem anyOf_satisfied_iff {G : Grant} {uses : List (List SchemeUse)} :
    (∃ r ∈ uses.map Requirement.ofSchemes, G.Satisfies r) ↔ ∃ schemes ∈ uses, G.Satisfies schemes := by
  simp [Grant.satisfies_ofSchemes]

/-- Requirements taken together are satisfied when every annotation is. -/
theorem allOf_satisfied_iff {G : Grant} {uses : List (List SchemeUse)} :
    (∃ r ∈ [(uses.map Requirement.ofSchemes).foldl Requirement.merge []], G.Satisfies r) ↔
      ∀ schemes ∈ uses, G.Satisfies schemes := by
  simp [Grant.satisfies_merged, Grant.satisfies_ofSchemes]

/-- The annotations of a method and of the controller around it that count: its own if it has some
about security, and otherwise those of the controller. -/
def decisive (own inherited : List AnnotationUse) : List AnnotationUse :=
  let own := own.filter (·.content.secures)
  if own.isEmpty then inherited.filter (·.content.secures) else own

theorem declared_eq_none_iff : declared annotations combination = none ↔
    annotations.filter (·.content.secures) = [] := by
  rw [← declared_filter]
  constructor
  · intro h
    cases hf : annotations.filter (·.content.secures) with
    | nil => rfl
    | cons use rest =>
      have huse : use.content.secures = true :=
        (List.mem_filter.mp (hf ▸ List.mem_cons_self : use ∈ _)).2
      obtain ⟨content, location⟩ := use
      rw [hf] at h
      cases content with
      | noSecurity => cases h
      | security schemes =>
        unfold declared at h
        rw [requirements?] at h
        cases hr : requirements? rest with
        | none => simp [hr] at h
        | some rs => cases combination <;> simp [hr] at h
      | _ => cases huse
  · intro h
    rw [h]
    rfl

theorem declared_decisive (own inherited : List AnnotationUse) (combination : Combination) :
    (declared own combination).or (declared inherited combination) =
      declared (decisive own inherited) combination := by
  unfold decisive
  cases hown : declared own combination with
  | none =>
    rw [declared_eq_none_iff.mp hown, Option.none_or]
    exact (declared_filter inherited combination).symm
  | some rs =>
    have hne : own.filter (·.content.secures) ≠ [] := fun h => by
      rw [declared_eq_none_iff.mpr h] at hown
      cases hown
    simp only [List.isEmpty_iff, hne, if_false]
    rw [declared_filter, hown]
    rfl

end Security

end RouteContract

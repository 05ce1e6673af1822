import RouteContract.Coercion.Budget
import RouteContract.Proofs.Coercion.Loops

/-!
# Values and reports

Coercion gives a value exactly when it has nothing to report.
-/

set_option autoImplicit false

namespace RouteContract

namespace Coerced

variable {α β : Type}

def Honest (c : Coerced α) : Prop := c.value? = none ↔ c.reports ≠ []

theorem honest_ok (a : α) : Honest (ok a) := by simp [Honest, ok]

theorem honest_report (report : Report) : Honest (⟨none, [report]⟩ : Coerced α) := by
  simp [Honest]

theorem honest_orRefuse (a : Option α) (path : String) (complaint : Complaint) (raw : Json) :
    Honest (orRefuse a path complaint raw) := by
  cases a with
  | none => exact honest_report _
  | some a => exact honest_ok a

theorem Honest.map {c : Coerced α} (h : Honest c) (f : α → β) : Honest (c.map f) := by
  simpa [Honest, Coerced.map] using h

theorem honest_sequence {cs : List (Coerced α)} (h : ∀ c ∈ cs, Honest c) :
    Honest (sequence cs) := by
  induction cs with
  | nil => exact honest_ok []
  | cons c cs ih =>
    have hc := h c (by simp)
    have hcs := ih fun d hd => h d (by simp [hd])
    unfold Honest at hc hcs ⊢
    cases hv : c.value? with
    | none => simpa [sequence, hv] using fun hr => absurd hr (hc.mp hv)
    | some a =>
      have hr : c.reports = [] := by simpa [hv] using hc
      simpa [sequence, hv, hr] using hcs

theorem Honest.isSome_iff {c : Coerced α} (h : Honest c) : c.value?.isSome ↔ c.reports = [] := by
  have hiff : c.value? = none ↔ c.reports ≠ [] := h
  rw [Option.isSome_iff_ne_none, ne_eq, hiff, ne_eq, not_not]

theorem Honest.isClean_eq_false_iff {c : Coerced α} (h : Honest c) :
    c.isClean = false ↔ c.reports ≠ [] := by
  have hclean : c.isClean ↔ c.reports = [] := by
    rw [isClean, Bool.and_eq_true, h.isSome_iff, List.isEmpty_iff, and_self]
  rw [← Bool.not_eq_true, hclean]

end Coerced

namespace Coercion

open Coerced (Honest honest_ok honest_report honest_orRefuse honest_sequence)

theorem jsonPrimitive_honest (kind : Primitive) (v : Json) (path : String) :
    Honest (jsonPrimitive kind v path) := by
  unfold jsonPrimitive
  split <;> first
    | exact honest_ok _
    | exact honest_orRefuse _ _ _ _
    | exact honest_report _

theorem textPrimitive_honest (kind : Primitive) (text path : String) :
    Honest (textPrimitive kind text path) := by
  cases kind <;> try exact honest_orRefuse _ _ _ _
  all_goals try exact honest_ok _
  · simp only [textPrimitive]
    split
    · exact honest_ok _
    · exact honest_report _
  · simp only [textPrimitive]
    split
    · exact honest_ok _
    · exact honest_report _

theorem firstMatch_honest {attempt : Schema → Option (Coerced Typed)} {all : List Schema}
    {path : String} {raw : Json} {members : List Schema} {c : Coerced Typed}
    (h : firstMatch attempt all path raw members = some c) : Honest c := by
  rcases firstMatch_eq_some h with ⟨_, _, _, d, -, -, -, hd, rfl⟩ | ⟨-, rfl⟩
  · obtain ⟨⟨t, ht⟩, -⟩ := Coerced.isClean_iff.mp hd
    simp [Honest, ht]
  · exact honest_report _

section

variable {ds : Definitions} {extras : Extras}
  {J : Schema → Json → String → Option (Coerced Typed)}
  (hJ : ∀ s v path c, J s v path = some c → Honest c)

include hJ

theorem property_honest {name : String} {p : PropertySchema Schema} {given : Option Json}
    {path : String} {c : Coerced (Option (String × Typed))}
    (h : property J name p given path = some c) : Honest c := by
  unfold property at h
  split at h
  · simp only [bind, pure, Option.bind_eq_some_iff, Option.some.injEq] at h
    obtain ⟨d, hd, rfl⟩ := h
    exact (hJ _ _ _ d hd).map _
  · cases h
    split
    · exact honest_report _
    · exact honest_ok _

theorem extra_honest {a : Additional Schema} {key : String} {raw : Json} {path : String}
    {c : Coerced (Option (String × Typed))} (h : extra J extras a key raw path = some c) :
    Honest c := by
  cases a with
  | any => cases h; exact honest_ok _
  | schema s =>
    simp only [extra, bind, pure, Option.bind_eq_some_iff, Option.some.injEq] at h
    obtain ⟨d, hd, rfl⟩ := h
    exact (hJ _ _ _ d hd).map _
  | implicit =>
    cases h
    cases extras with
    | reject => exact honest_report _
    | drop => exact honest_ok _
    | keep => exact honest_ok _

theorem parts_honest {o : ObjectSchema Schema} {fields : List (String × Json)} {path : String}
    {ps : List (Coerced (Option (String × Typed)))} (h : parts J extras o fields path = some ps) :
    ∀ c ∈ ps, Honest c := by
  obtain ⟨declared, undeclared, rfl, hd, hu⟩ := parts_eq_some h
  intro c hc
  rcases List.mem_append.mp hc with hc | hc
  · obtain ⟨x, -, hx⟩ := mem_of_forall₂_right hd hc
    exact property_honest hJ hx
  · obtain ⟨x, -, hx⟩ := mem_of_forall₂_right hu hc
    exact extra_honest hJ hx

theorem intersection_honest {members : List Schema} {v : Json} {path : String} {c : Coerced Typed}
    (h : intersection J ds members v path = some c) : Honest c := by
  unfold intersection at h
  split at h
  · cases h
    exact honest_report _
  · exact hJ _ _ _ c h
  · rename_i ho
    simp only [bind, pure, Option.bind_eq_some_iff, Option.some.injEq] at h
    obtain ⟨cs, hcs, rfl⟩ := h
    have hs : Honest (Coerced.sequence cs) := honest_sequence fun d hd => by
      obtain ⟨s, -, hsd⟩ := mem_of_forall₂_right (mapM_eq_some_iff.mp hcs) hd
      exact hJ _ _ _ d hsd
    -- An intersection without members is one of objects, so here there is a last value.
    cases hv : (Coerced.sequence cs).value? with
    | none => simpa [Honest, hv] using hs
    | some ts =>
      have hne : ts ≠ [] := by
        rintro rfl
        have hlen := (Coerced.sequence_value.mp hv).length_eq
        have hlen' := (mapM_eq_some_iff.mp hcs).length_eq
        have hm : members = [] := List.length_eq_zero_iff.mp (hlen'.trans hlen)
        rw [hm] at ho
        cases ho
      have hr : (Coerced.sequence cs).reports = [] := by simpa [Honest, hv] using hs
      simp [Honest, hr, hne]

theorem step_honest {s : Schema} {v : Json} {path : String} {c : Coerced Typed}
    (h : jsonStep J ds extras s v path = some c) : Honest c := by
  cases s with
  | primitive kind => cases h; exact jsonPrimitive_honest kind v path
  | enum values => cases h; exact honest_orRefuse _ _ _ _
  | array element =>
    cases v with
    | array vs =>
      simp only [jsonStep, bind, pure, Option.bind_eq_some_iff, Option.some.injEq] at h
      obtain ⟨cs, hcs, rfl⟩ := h
      rw [items_eq_mapM] at hcs
      refine (honest_sequence fun d hd => ?_).map _
      obtain ⟨x, -, hx⟩ := mem_of_forall₂_right (mapM_eq_some_iff.mp hcs) hd
      exact hJ _ _ _ d hx
    | _ => cases h; exact honest_report _
  | object o =>
    cases v with
    | object fields =>
      simp only [jsonStep, object, bind, pure, Option.bind_eq_some_iff, Option.some.injEq] at h
      obtain ⟨ps, hps, rfl⟩ := h
      exact (honest_sequence (parts_honest hJ hps)).map _
    | _ => cases h; exact honest_report _
  | union members => exact firstMatch_honest h
  | intersection members => exact intersection_honest hJ h
  | reference name => cases h; exact honest_report _

end

theorem through_honest {α : Type} {ds : Definitions} {s : Schema} {path : String}
    {step : Schema → Option (Coerced α)} {c : Coerced α} (h : through ds s path step = some c)
    (hstep : ∀ s', step s' = some c → Honest c) : Honest c := by
  unfold through at h
  split at h
  · exact hstep _ h
  · cases h
    exact honest_report _

section

variable {ds : Definitions} {extras : Extras} {s : Schema} {path : String} {c : Coerced Typed}

theorem jsonWithin_honest (n : Nat) : ∀ s v path c, jsonWithin ds extras n s v path = some c →
    Honest c := by
  induction n with
  | zero => intro s v path c h; cases h
  | succ n ih => intro s v path c h; exact through_honest h fun _ hs => step_honest ih hs

theorem json_honest {v : Json} (h : json ds extras s v path = some c) : Honest c :=
  jsonWithin_honest _ s v path c h

theorem read_honest {text : String} (h : (match Json.parse? text with
      | some v => json ds extras s v path
      | none => some (Coerced.refuse path (.invalid (describe s)) (.string text))) = some c) :
    Honest c := by
  split at h
  · exact json_honest h
  · cases h
    exact honest_report _

theorem oneTextWithin_honest {n : Nat} {text : String}
    (h : oneTextWithin ds extras n s text path = some c) : Honest c := by
  cases n with
  | zero => cases h
  | succ n =>
    apply through_honest h
    intro s' hs
    cases s' with
    | primitive kind => cases hs; exact textPrimitive_honest kind text path
    | enum values => cases hs; exact honest_orRefuse _ _ _ _
    | union members => exact firstMatch_honest hs
    | _ => exact read_honest hs

theorem textWithin_honest {delimiter : Option Char} {steps n : Nat} {values : List String}
    (hvalues : values ≠ []) (h : textWithin ds extras delimiter steps n s values path = some c) :
    Honest c := by
  cases n with
  | zero => cases h
  | succ n =>
    apply through_honest h
    intro s' hs
    split at hs
    · simp only [bind, pure, Option.bind_eq_some_iff, Option.some.injEq, texts_eq_mapM] at hs
      obtain ⟨cs, hcs, rfl⟩ := hs
      refine (honest_sequence fun d hd => ?_).map _
      obtain ⟨x, -, hx⟩ := mem_of_forall₂_right (mapM_eq_some_iff.mp hcs) hd
      exact oneTextWithin_honest hx
    · exact firstMatch_honest hs
    · cases values with
      | nil => exact absurd rfl hvalues
      | cons first rest => exact oneTextWithin_honest hs

theorem text_honest {delimiter : Option Char} {values : List String} (hvalues : values ≠ [])
    (h : text ds extras delimiter s values path = some c) : Honest c :=
  textWithin_honest hvalues h

end

end Coercion

end RouteContract

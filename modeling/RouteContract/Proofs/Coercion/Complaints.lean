import RouteContract.Coercion.Text
import RouteContract.Proofs.Coercion.Loops

/-!
# What coercion complains of, and where

A report names the path at which it was made, which is the path of the coercion
or one below it. It is about the value there, or about a reference that could
not be followed. What holds of all such reports at a path holds of every report
that coercion makes.
-/

set_option autoImplicit false

namespace RouteContract

def Complaint.isAboutValue : Complaint → Bool
  | .unknownSchema _ | .chainTooDeep | .worded _ => false
  | _ => true

namespace Coercion

/-- What holds of reports at a path: of a complaint about a value, of a reference among the `fine`
schemas that cannot be followed, and of what is reported below the path. -/
structure Reporting (ds : Definitions) (fine : Schema → Prop) (Q : String → Report → Prop) :
    Prop where
  object : ∀ o, fine (.object o)
  value : ∀ path complaint value?, complaint.isAboutValue → Q path (path, ⟨complaint, value?⟩)
  broken : ∀ s path complaint, fine s → deref ds maxHops s = .error complaint →
    Q path (path, ⟨complaint, none⟩)
  child : ∀ path name r, Q (Coercion.child path name) r → Q path r
  item : ∀ path i r, Q (Coercion.index path i) r → Q path r

/-- A complaint about an intersection is about a member that cannot be followed. -/
theorem objects_eq_error {ds : Definitions} {members : List Schema} {complaint : Complaint}
    (h : objects ds members = .error complaint) :
    ∃ s ∈ members, deref ds maxHops s = .error complaint := by
  induction members with
  | nil => cases h
  | cons s rest ih =>
    simp only [objects, bind, Except.bind] at h
    cases hd : deref ds maxHops s with
    | error e =>
      rw [hd] at h
      cases h
      exact ⟨s, by simp, hd⟩
    | ok t =>
      rw [hd] at h
      cases hr : objects ds rest with
      | error e =>
        rw [hr] at h
        cases h
        obtain ⟨s', hm, hd'⟩ := ih hr
        exact ⟨s', by simp [hm], hd'⟩
      | ok os =>
        rw [hr] at h
        cases t <;> cases h

def Makes {α : Type} (Q : String → Report → Prop) (path : String) (c : Coerced α) : Prop :=
  ∀ r ∈ c.reports, Q path r

def Throughout (ds : Definitions) (fine : Schema → Prop) (s : Schema) : Prop :=
  ∀ t, Schema.Reaches ds s t → fine t

section

variable {α β : Type} {Q : String → Report → Prop} {path : String}

theorem makes_ok (a : α) : Makes Q path (.ok a) := fun _ h => by cases h

theorem Makes.map {c : Coerced α} (h : Makes Q path c) (f : α → β) : Makes Q path (c.map f) := h

theorem makes_sequence {cs : List (Coerced α)} (h : ∀ c ∈ cs, Makes Q path c) :
    Makes Q path (Coerced.sequence cs) := by
  intro r hr
  rw [Coerced.sequence_reports] at hr
  obtain ⟨c, hc, hr⟩ := List.mem_flatMap.mp hr
  exact h c hc r hr

end

section

variable {ds : Definitions} {extras : Extras} {fine : Schema → Prop}
  {Q : String → Report → Prop} {path : String}

theorem Throughout.reached {s t : Schema} (h : Throughout ds fine s)
    (ht : Schema.Reaches ds s t) : Throughout ds fine t := fun u hu => h u (ht.trans hu)

theorem Throughout.part {s t : Schema} (h : Throughout ds fine s) (ht : Schema.Part ds s t) :
    Throughout ds fine t := h.reached (.single ht)

/-- Merged objects are made of what the members of the intersection are made of. -/
theorem Throughout.merged (hobject : ∀ o, fine (.object o)) {members : List Schema}
    {os : List (ObjectSchema Schema)} (h : Throughout ds fine (.intersection members))
    (ho : objects ds members = .ok (some os)) :
    Throughout ds fine (.object (os.foldl ObjectSchema.merge .empty)) := by
  intro t ht
  rcases Relation.ReflTransGen.cases_head ht with rfl | ⟨u, hu, ht⟩
  · exact hobject _
  · exact h t ((merged_part ho hu).trans ht)

variable (hQ : Reporting ds fine Q)

include hQ

theorem Reporting.refuse {α : Type} {complaint : Complaint} (h : complaint.isAboutValue)
    (raw : Json) : Makes Q path (.refuse path complaint raw : Coerced α) := by
  intro r hr
  obtain rfl := List.mem_singleton.mp hr
  exact hQ.value path complaint (some raw) h

theorem Reporting.orRefuse {α : Type} (a : Option α) {complaint : Complaint}
    (h : complaint.isAboutValue) (raw : Json) :
    Makes Q path (Coerced.orRefuse a path complaint raw) := by
  cases a with
  | none => exact hQ.refuse h raw
  | some a => exact makes_ok a

theorem Reporting.jsonPrimitive (kind : Primitive) (v : Json) :
    Makes Q path (jsonPrimitive kind v path) := by
  unfold Coercion.jsonPrimitive
  split <;> first
    | exact makes_ok _
    | exact hQ.orRefuse _ rfl _
    | exact hQ.refuse rfl _

theorem Reporting.textPrimitive (kind : Primitive) (text : String) :
    Makes Q path (textPrimitive kind text path) := by
  cases kind <;> try exact hQ.orRefuse _ rfl _
  all_goals try exact makes_ok _
  · simp only [Coercion.textPrimitive]
    split
    · exact makes_ok _
    · exact hQ.refuse rfl _
  · simp only [Coercion.textPrimitive]
    split
    · exact makes_ok _
    · exact hQ.refuse rfl _

/-- Attempts that are not clean leave no reports behind. -/
theorem Reporting.firstMatch {attempt : Schema → Option (Coerced Typed)} {all : List Schema}
    {raw : Json} {members : List Schema} {c : Coerced Typed}
    (h : firstMatch attempt all path raw members = some c) : Makes Q path c := by
  rcases firstMatch_eq_some h with ⟨_, _, _, d, -, -, -, -, rfl⟩ | ⟨-, rfl⟩
  · exact fun r hr => by cases hr
  · exact hQ.refuse rfl raw

theorem Reporting.through {α : Type} {s : Schema} (hs : Throughout ds fine s)
    {step : Schema → Option (Coerced α)} {c : Coerced α} (h : through ds s path step = some c)
    (hstep : ∀ t, deref ds maxHops s = .ok t → Throughout ds fine t → step t = some c →
      Makes Q path c) : Makes Q path c := by
  unfold Coercion.through at h
  cases hd : deref ds maxHops s with
  | ok t =>
    rw [hd] at h
    exact hstep t hd (hs.reached (deref_reaches hd)) h
  | error complaint =>
    rw [hd] at h
    cases h
    intro r hr
    obtain rfl := List.mem_singleton.mp hr
    exact hQ.broken s path complaint (hs s .refl) hd

section

variable {J : Schema → Json → String → Option (Coerced Typed)}
  (hJ : ∀ s v path c, Throughout ds fine s → J s v path = some c → Makes Q path c)

include hJ

theorem Reporting.property {o : ObjectSchema Schema} (ho : Throughout ds fine (.object o))
    {name : String} {p : PropertySchema Schema} (hp : (name, p) ∈ o.properties)
    {given : Option Json} {c : Coerced (Option (String × Typed))}
    (h : property J name p given path = some c) : Makes Q path c := by
  unfold Coercion.property at h
  split at h
  · simp only [bind, pure, Option.bind_eq_some_iff, Option.some.injEq] at h
    obtain ⟨d, hd, rfl⟩ := h
    exact fun r hr => hQ.child path name r (hJ _ _ _ d (ho.part (.property hp)) hd r hr)
  · cases h
    split
    · intro r hr
      obtain rfl := List.mem_singleton.mp hr
      exact hQ.child path name _ (hQ.value _ _ none rfl)
    · exact makes_ok _

theorem Reporting.extra {o : ObjectSchema Schema} (ho : Throughout ds fine (.object o))
    {key : String} {raw : Json} {c : Coerced (Option (String × Typed))}
    (h : extra J extras o.additional key raw path = some c) : Makes Q path c := by
  cases ha : o.additional with
  | any =>
    rw [ha] at h
    cases h
    exact makes_ok _
  | schema s =>
    rw [ha] at h
    simp only [Coercion.extra, bind, pure, Option.bind_eq_some_iff, Option.some.injEq] at h
    obtain ⟨d, hd, rfl⟩ := h
    exact fun r hr => hQ.child path key r (hJ _ _ _ d (ho.part (.additional ha)) hd r hr)
  | implicit =>
    rw [ha] at h
    cases h
    cases extras with
    | reject =>
      intro r hr
      obtain rfl := List.mem_singleton.mp hr
      exact hQ.child path key _ (hQ.value _ _ (some raw) rfl)
    | drop => exact makes_ok _
    | keep => exact makes_ok _

theorem Reporting.parts {o : ObjectSchema Schema} (ho : Throughout ds fine (.object o))
    {fields : List (String × Json)} {ps : List (Coerced (Option (String × Typed)))}
    (h : parts J extras o fields path = some ps) : ∀ c ∈ ps, Makes Q path c := by
  obtain ⟨declared, undeclared, rfl, hd, hu⟩ := parts_eq_some h
  intro c hc
  rcases List.mem_append.mp hc with hc | hc
  · obtain ⟨x, hx, hc⟩ := mem_of_forall₂_right hd hc
    exact hQ.property hJ ho hx hc
  · obtain ⟨x, -, hc⟩ := mem_of_forall₂_right hu hc
    exact hQ.extra hJ ho hc

theorem Reporting.intersection {members : List Schema}
    (hs : Throughout ds fine (.intersection members)) {v : Json} {c : Coerced Typed}
    (h : intersection J ds members v path = some c) : Makes Q path c := by
  have hmember : ∀ s ∈ members, Throughout ds fine s := fun s hm => hs.part (.constraint hm)
  unfold Coercion.intersection at h
  cases ho : objects ds members with
  | error complaint =>
    rw [ho] at h
    cases h
    obtain ⟨s, hm, hd⟩ := objects_eq_error ho
    intro r hr
    obtain rfl := List.mem_singleton.mp hr
    exact hQ.broken s path complaint (hmember s hm s .refl) hd
  | ok os =>
    rw [ho] at h
    cases os with
    | some os => exact hJ _ v path c (hs.merged hQ.object ho) h
    | none =>
      simp only [bind, pure, Option.bind_eq_some_iff, Option.some.injEq] at h
      obtain ⟨cs, hcs, rfl⟩ := h
      refine makes_sequence fun d hd => ?_
      obtain ⟨s, hm, hsd⟩ := mem_of_forall₂_right (mapM_eq_some_iff.mp hcs) hd
      exact hJ s v path d (hmember s hm) hsd

theorem Reporting.step {s : Schema} (hs : Throughout ds fine s) (hn : ∀ name, s ≠ .reference name)
    {v : Json} {c : Coerced Typed} (h : jsonStep J ds extras s v path = some c) :
    Makes Q path c := by
  cases s with
  | primitive kind => cases h; exact hQ.jsonPrimitive kind v
  | enum values => cases h; exact hQ.orRefuse _ rfl v
  | array element =>
    cases v with
    | array vs =>
      simp only [jsonStep, bind, pure, Option.bind_eq_some_iff, Option.some.injEq] at h
      obtain ⟨cs, hcs, rfl⟩ := h
      rw [items_eq_mapM] at hcs
      refine (makes_sequence fun d hd => ?_).map _
      obtain ⟨x, -, hx⟩ := mem_of_forall₂_right (mapM_eq_some_iff.mp hcs) hd
      exact fun r hr => hQ.item path x.2 r (hJ _ _ _ d (hs.part (.element _)) hx r hr)
    | _ => cases h; exact hQ.refuse rfl _
  | object o =>
    cases v with
    | object fields =>
      simp only [jsonStep, Coercion.object, bind, pure, Option.bind_eq_some_iff,
        Option.some.injEq] at h
      obtain ⟨ps, hps, rfl⟩ := h
      exact (makes_sequence (hQ.parts hJ hs hps)).map _
    | _ => cases h; exact hQ.refuse rfl _
  | union members => exact hQ.firstMatch h
  | intersection members => exact hQ.intersection hJ hs h
  | reference name => exact absurd rfl (hn name)

end

theorem Reporting.jsonWithin (n : Nat) : ∀ s v path c, Throughout ds fine s →
    jsonWithin ds extras n s v path = some c → Makes Q path c := by
  induction n with
  | zero => intro s v path c _ h; cases h
  | succ n ih =>
    intro s v path c hs h
    refine hQ.through hs h fun t hd ht hstep => hQ.step ih ht (fun name he => ?_) hstep
    exact deref_ne_reference (he ▸ hd)

theorem Reporting.json {s : Schema} (hs : Throughout ds fine s) {v : Json} {c : Coerced Typed}
    (h : json ds extras s v path = some c) : Makes Q path c := hQ.jsonWithin _ s v path c hs h

/-- The reports about the fields of an object. -/
theorem Reporting.fields {o : ObjectSchema Schema} (ho : Throughout ds fine (.object o))
    {given : List (String × Json)} {entries : List (String × Typed)} {reports : List Report}
    (h : fields ds extras o given path = some (entries, reports)) :
    ∀ r ∈ reports, Q path r := by
  simp only [Coercion.fields, bind, pure, Option.bind_eq_some_iff, Option.some.injEq] at h
  obtain ⟨ps, hps, he⟩ := h
  cases he
  exact makes_sequence (hQ.parts (hQ.jsonWithin _) ho hps)

theorem Reporting.oneTextWithin {n : Nat} {s : Schema} (hs : Throughout ds fine s) {text : String}
    {c : Coerced Typed} (h : oneTextWithin ds extras n s text path = some c) : Makes Q path c := by
  have read : ∀ {t : Schema}, Throughout ds fine t →
      (∀ v, Json.parse? text = some v → Coercion.json ds extras t v path = some c) →
      (Json.parse? text = none →
        c = Coerced.refuse path (.invalid (describe t)) (.string text)) → Makes Q path c := by
    intro t ht hread hrefuse
    cases hv : Json.parse? text with
    | some v => exact hQ.json ht (hread v hv)
    | none =>
      rw [hrefuse hv]
      exact hQ.refuse rfl _
  cases n with
  | zero => cases h
  | succ n =>
    refine hQ.through hs h fun t _ ht hstep => ?_
    cases t with
    | primitive kind => cases hstep; exact hQ.textPrimitive kind text
    | enum values => cases hstep; exact hQ.orRefuse _ rfl _
    | union members => exact hQ.firstMatch hstep
    | _ =>
      exact read ht (fun v hv => by simpa [hv] using hstep)
        fun hv => by simpa [hv, eq_comm] using hstep

theorem Reporting.textWithin {delimiter : Option Char} {steps n : Nat} {s : Schema}
    (hs : Throughout ds fine s) {values : List String} {c : Coerced Typed}
    (h : textWithin ds extras delimiter steps n s values path = some c) : Makes Q path c := by
  cases n with
  | zero => cases h
  | succ n =>
    refine hQ.through hs h fun t _ ht hstep => ?_
    split at hstep
    · simp only [bind, pure, Option.bind_eq_some_iff, Option.some.injEq, texts_eq_mapM] at hstep
      obtain ⟨cs, hcs, rfl⟩ := hstep
      refine (makes_sequence fun d hd => ?_).map _
      obtain ⟨x, -, hx⟩ := mem_of_forall₂_right (mapM_eq_some_iff.mp hcs) hd
      exact fun r hr => hQ.item path x.2 r (hQ.oneTextWithin (ht.part (.element _)) hx r hr)
    · exact hQ.firstMatch hstep
    · split at hstep
      · cases hstep
        exact fun r hr => by cases hr
      · exact hQ.oneTextWithin ht hstep

theorem Reporting.text {delimiter : Option Char} {s : Schema} (hs : Throughout ds fine s)
    {values : List String} {c : Coerced Typed}
    (h : text ds extras delimiter s values path = some c) : Makes Q path c := hQ.textWithin hs h

end

end Coercion

end RouteContract

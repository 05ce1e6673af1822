import RouteContract.Coercion.Text
import RouteContract.Proofs.Lists
import RouteContract.Proofs.Schema.Parts

/-!
# Loops of coercion

Items, parts and members are coerced one after the other, and each loop is a
traversal that stops where coercion never ends. What a loop gives is stated by
what each of its nested coercions gives. Chains of references end in a schema
that the first one reaches.
-/

set_option autoImplicit false

namespace RouteContract

namespace Coerced

theorem sequence_value {α : Type} {cs : List (Coerced α)} {as : List α} :
    (sequence cs).value? = some as ↔
      List.Forall₂ (fun c a => c.value? = some a) cs as := by
  induction cs generalizing as with
  | nil => cases as <;> simp [sequence, ok]
  | cons c cs ih =>
    cases hc : c.value? with
    | none => cases as <;> simp [sequence, hc]
    | some a =>
      cases as with
      | nil => simp [sequence, hc]
      | cons b bs =>
        rw [List.forall₂_cons, ← ih]
        simp [sequence, hc, and_comm]

theorem sequence_ok {α : Type} (as : List α) : sequence (as.map ok) = ok as := by
  induction as with
  | nil => rfl
  | cons a as ih => simp [sequence, ih, ok]

theorem sequence_reports {α : Type} (cs : List (Coerced α)) :
    (sequence cs).reports = cs.flatMap (·.reports) := by
  induction cs with
  | nil => rfl
  | cons c cs ih => simp [sequence, ih]

theorem isClean_iff {α : Type} {c : Coerced α} :
    c.isClean ↔ (∃ a, c.value? = some a) ∧ c.reports = [] := by
  simp [isClean, Option.isSome_iff_exists]

end Coerced

namespace Coercion

/-- Items are coerced under their positions. -/
theorem items_eq_mapM (J : Schema → Json → String → Option (Coerced Typed)) (element : Schema)
    (path : String) (i : Nat) (vs : List Json) :
    items J element path i vs =
      (vs.zipIdx i).mapM fun x => J element x.1 (index path x.2) := by
  induction vs generalizing i with
  | nil => rfl
  | cons v vs ih => simp [items, ih]

theorem texts_eq_mapM (ds : Definitions) (extras : Extras) (element : Schema) (path : String)
    (steps i : Nat) (ss : List String) :
    texts ds extras element path steps i ss =
      (ss.zipIdx i).mapM fun x =>
        oneTextWithin ds extras steps element x.1 (index path x.2) := by
  induction ss generalizing i with
  | nil => rfl
  | cons s ss ih => simp [texts, ih]

/-- The first clean attempt gives the value, and none of those before it was clean. Without one the
raw value is refused. -/
theorem firstMatch_eq_some {attempt : Schema → Option (Coerced Typed)} {all : List Schema}
    {path : String} {raw : Json} {members : List Schema} {c : Coerced Typed}
    (h : firstMatch attempt all path raw members = some c) :
    (∃ before s after d, members = before ++ s :: after ∧
        (∀ m ∈ before, ∃ d, attempt m = some d ∧ d.isClean = false) ∧
        attempt s = some d ∧ d.isClean = true ∧ c = ⟨d.value?, []⟩) ∨
      ((∀ m ∈ members, ∃ d, attempt m = some d ∧ d.isClean = false) ∧
        c = Coerced.refuse path (.noMember all) raw) := by
  induction members with
  | nil =>
    right
    exact ⟨by simp, (Option.some.inj h).symm⟩
  | cons m rest ih =>
    cases hm : attempt m with
    | none => simp [firstMatch, hm] at h
    | some d =>
      cases hd : d.isClean with
      | true =>
        left
        have hc : some ⟨d.value?, []⟩ = some c := by simpa [firstMatch, hm, hd] using h
        exact ⟨[], m, rest, d, rfl, by simp, hm, hd, (Option.some.inj hc).symm⟩
      | false =>
        have hr : firstMatch attempt all path raw rest = some c := by
          simpa [firstMatch, hm, hd] using h
        rcases ih hr with ⟨before, s, after, e, rfl, hb, hs, he, hc⟩ | ⟨ha, hc⟩
        · left
          refine ⟨m :: before, s, after, e, rfl, ?_, hs, he, hc⟩
          intro x hx
          rcases List.mem_cons.mp hx with rfl | hx
          · exact ⟨d, hm, hd⟩
          · exact hb x hx
        · right
          refine ⟨?_, hc⟩
          intro x hx
          rcases List.mem_cons.mp hx with rfl | hx
          · exact ⟨d, hm, hd⟩
          · exact ha x hx

/-- A search ends when every attempt ends that the earlier ones leave open. -/
theorem firstMatch_isSome_iff {attempt : Schema → Option (Coerced Typed)} {all : List Schema}
    {path : String} {raw : Json} {members : List Schema} :
    (firstMatch attempt all path raw members).isSome ↔
      ∀ before s after, members = before ++ s :: after →
        (∀ m ∈ before, ∃ d, attempt m = some d ∧ d.isClean = false) → (attempt s).isSome := by
  induction members with
  | nil => simp [firstMatch]
  | cons m rest ih =>
    cases hm : attempt m with
    | none =>
      simp only [firstMatch, hm, Option.bind_eq_bind, Option.bind_none, Option.isSome_none,
        Bool.false_eq_true, false_iff]
      intro h
      simpa [hm] using h [] m rest rfl (by simp)
    | some d =>
      cases hd : d.isClean with
      | true =>
        simp only [firstMatch, hm, hd, Option.bind_eq_bind, Option.bind_some, if_true, pure,
          Option.isSome_some, true_iff]
        intro before s after he hb
        cases before with
        | nil => cases he; simp [hm]
        | cons b before =>
          cases he
          obtain ⟨e, he, hu⟩ := hb m (by simp)
          rw [hm] at he
          cases he
          rw [hd] at hu
          cases hu
      | false =>
        simp only [firstMatch, hm, hd, Option.bind_eq_bind, Option.bind_some, Bool.false_eq_true,
          if_false, ih]
        constructor
        · intro h before s after he hb
          cases before with
          | nil => cases he; simp [hm]
          | cons b before =>
            cases he
            exact h before s after rfl fun x hx => hb x (by simp [hx])
        · intro h before s after he hb
          apply h (m :: before) s after (by simp [he])
          intro x hx
          rcases List.mem_cons.mp hx with rfl | hx
          · exact ⟨d, hm, hd⟩
          · exact hb x hx

/-- Where an attempt that ends fails exactly as a predicate tells, so does the search. -/
theorem firstMatch_isSome_iff_of_fails {attempt : Schema → Option (Coerced Typed)}
    {fails : Schema → Prop} {all : List Schema} {path : String} {raw : Json}
    {members : List Schema}
    (hfails : ∀ m c, attempt m = some c → (fails m ↔ c.isClean = false)) :
    (firstMatch attempt all path raw members).isSome ↔
      ∀ before m after, members = before ++ m :: after → (∀ x ∈ before, fails x) →
        (attempt m).isSome := by
  rw [firstMatch_isSome_iff]
  constructor
  · intro h before
    -- The members before the one in question end by induction on their number.
    induction hk : before.length using Nat.strongRecOn generalizing before with
    | _ k ih =>
      intro m after he hb
      apply h before m after he
      intro x hx
      obtain ⟨pre, post, rfl⟩ := List.append_of_mem hx
      have hsome : (attempt x).isSome := by
        refine ih pre.length ?_ pre rfl x (post ++ m :: after) (by simp [he]) fun y hy => ?_
        · simp at hk
          omega
        · exact hb y (by simp [hy])
      obtain ⟨c, hc⟩ := Option.isSome_iff_exists.mp hsome
      exact ⟨c, hc, (hfails x c hc).mp (hb x hx)⟩
  · intro h before m after he hb
    apply h before m after he
    intro x hx
    obtain ⟨c, hc, hu⟩ := hb x hx
    exact (hfails x c hc).mpr hu

theorem items_isSome_iff {J : Schema → Json → String → Option (Coerced Typed)} {element : Schema}
    {path : String} {i : Nat} {vs : List Json} :
    (items J element path i vs).isSome ↔
      ∀ x ∈ vs.zipIdx i, (J element x.1 (index path x.2)).isSome := by
  rw [items_eq_mapM, mapM_isSome_iff]

theorem property_isSome_iff {J : Schema → Json → String → Option (Coerced Typed)} {name : String}
    {p : PropertySchema Schema} {given : Option Json} {path : String} :
    (property J name p given path).isSome ↔
      ∀ v, given.or p.default = some v → (J p.schema v (child path name)).isSome := by
  unfold property
  cases given.or p.default with
  | none => simp
  | some v => cases hv : J p.schema v (child path name) <;> simp [hv]

theorem extra_isSome_iff {J : Schema → Json → String → Option (Coerced Typed)} {extras : Extras}
    {a : Additional Schema} {key : String} {raw : Json} {path : String} :
    (extra J extras a key raw path).isSome ↔
      ∀ s, a = .schema s → (J s raw (child path key)).isSome := by
  cases a with
  | implicit => simp [extra]
  | any => simp [extra]
  | schema s => cases hv : J s raw (child path key) <;> simp [extra, hv]

theorem parts_isSome_iff {J : Schema → Json → String → Option (Coerced Typed)} {extras : Extras}
    {o : ObjectSchema Schema} {fields : List (String × Json)} {path : String} :
    (parts J extras o fields path).isSome ↔
      (∀ x ∈ o.properties, (property J x.1 x.2 (Entries.find? fields x.1) path).isSome) ∧
        ∀ x ∈ fields.filter fun x => !Entries.contains o.properties x.1,
          (extra J extras o.additional x.1 x.2 path).isSome := by
  rw [← mapM_isSome_iff, ← mapM_isSome_iff]
  unfold parts
  cases hd : o.properties.mapM fun x => property J x.1 x.2 (Entries.find? fields x.1) path with
  | none => simp
  | some declared =>
    cases hu : (fields.filter fun x => !Entries.contains o.properties x.1).mapM fun x =>
        extra J extras o.additional x.1 x.2 path with
    | none => simp
    | some undeclared => simp

theorem parts_eq_some {J : Schema → Json → String → Option (Coerced Typed)} {extras : Extras}
    {o : ObjectSchema Schema} {fields : List (String × Json)} {path : String}
    {ps : List (Coerced (Option (String × Typed)))}
    (h : parts J extras o fields path = some ps) :
    ∃ declared undeclared, ps = declared ++ undeclared ∧
      List.Forall₂ (fun x c => property J x.1 x.2 (Entries.find? fields x.1) path = some c)
        o.properties declared ∧
      List.Forall₂ (fun x c => extra J extras o.additional x.1 x.2 path = some c)
        (fields.filter fun x => !Entries.contains o.properties x.1) undeclared := by
  simp only [parts, bind, pure, Option.bind_eq_some_iff, Option.some.injEq] at h
  obtain ⟨declared, hd, undeclared, hu, rfl⟩ := h
  exact ⟨declared, undeclared, rfl, mapM_eq_some_iff.mp hd, mapM_eq_some_iff.mp hu⟩

section

variable {extras : Extras} {J : Schema → Json → String → Option (Coerced Typed)} {path : String}

theorem property_eq_some {name : String} {p : PropertySchema Schema} {v? : Option Json}
    {c : Coerced (Option (String × Typed))} (h : property J name p v? path = some c) :
    (∃ v d, v?.or p.default = some v ∧ J p.schema v (child path name) = some d ∧
        c = d.map fun t => some (name, t)) ∨
      (v?.or p.default = none ∧ c.value?.join = none ∧ (p.required → c.reports ≠ [])) := by
  unfold property at h
  split at h
  · rename_i v hv
    simp only [bind, pure, Option.bind_eq_some_iff, Option.some.injEq] at h
    obtain ⟨d, hd, rfl⟩ := h
    exact .inl ⟨v, d, hv, hd, rfl⟩
  · rename_i hv
    cases h
    refine .inr ⟨hv, ?_, ?_⟩
    · split <;> rfl
    · intro hr
      simp [hr]

theorem property_key {name : String} {p : PropertySchema Schema} {v? : Option Json}
    {c : Coerced (Option (String × Typed))} (h : property J name p v? path = some c) {k : String}
    {t : Typed} (hv : c.value? = some (some (k, t))) : k = name := by
  rcases property_eq_some h with ⟨v, d, -, -, rfl⟩ | ⟨-, hn, -⟩
  · obtain ⟨u, -, hu⟩ := Option.map_eq_some_iff.mp hv
    cases hu
    rfl
  · rw [hv] at hn
    cases hn

theorem extra_key {a : Additional Schema} {key : String} {raw : Json}
    {c : Coerced (Option (String × Typed))} (h : extra J extras a key raw path = some c)
    {k : String} {t : Typed} (hv : c.value? = some (some (k, t))) : k = key := by
  cases a with
  | any => cases h; cases hv; rfl
  | schema s =>
    simp only [extra, bind, pure, Option.bind_eq_some_iff, Option.some.injEq] at h
    obtain ⟨d, -, rfl⟩ := h
    obtain ⟨u, -, hu⟩ := Option.map_eq_some_iff.mp hv
    cases hu
    rfl
  | implicit =>
    cases h
    cases extras with
    | reject => cases hv
    | drop => cases hv
    | keep => cases hv; rfl

end

/-- References lead to their end through definitions only. -/
theorem deref_reaches {ds : Definitions} {n : Nat} {s t : Schema} (h : deref ds n s = .ok t) :
    Schema.Reaches ds s t := by
  induction n generalizing s with
  | zero => simp [deref] at h
  | succ n ih =>
    cases s with
    | reference name =>
      simp only [deref] at h
      cases hd : ds.find? name with
      | none => simp [hd] at h
      | some d => exact .head (.definition hd) (ih (by simpa [hd] using h))
    | _ => cases h; exact .refl

theorem deref_ne_reference {ds : Definitions} {n : Nat} {s : Schema} {name : String} :
    deref ds n s ≠ .ok (.reference name) := by
  induction n generalizing s with
  | zero => simp [deref]
  | succ n ih =>
    cases s with
    | reference name' =>
      simp only [deref]
      cases ds.find? name' with
      | none => simp
      | some d => exact ih
    | _ => simp [deref]

theorem objects_eq_some {ds : Definitions} {ss : List Schema} {os : List (ObjectSchema Schema)}
    (h : objects ds ss = .ok (some os)) :
    List.Forall₂ (fun s o => deref ds maxHops s = .ok (.object o)) ss os := by
  induction ss generalizing os with
  | nil => cases h; exact .nil
  | cons s ss ih =>
    simp only [objects, bind, Except.bind] at h
    cases hs : deref ds maxHops s with
    | error e => simp [hs] at h
    | ok t =>
      cases hr : objects ds ss with
      | error e => simp [hs, hr] at h
      | ok rest =>
        cases t with
        | object o =>
          cases rest with
          | none => simp [hs, hr, pure, Except.pure] at h
          | some os' =>
            simp only [hs, hr, Option.map_some, pure, Except.pure, Except.ok.injEq,
              Option.some.injEq] at h
            subst h
            exact .cons hs (ih hr)
        | _ => simp [hs, hr, pure, Except.pure] at h

theorem objects_ne_none {ds : Definitions} {ss : List Schema}
    (h : ∀ m ∈ ss, ∀ t, deref ds maxHops m = .ok t → ∃ o, t = .object o) :
    objects ds ss ≠ .ok none := by
  induction ss with
  | nil => simp [objects]
  | cons s ss ih =>
    have hrest := ih fun m hm => h m (List.mem_cons_of_mem s hm)
    simp only [objects, bind, Except.bind]
    cases hs : deref ds maxHops s with
    | error e => simp
    | ok t =>
      obtain ⟨o, rfl⟩ := h s List.mem_cons_self t hs
      cases hr : objects ds ss with
      | error e => simp
      | ok rest =>
        cases rest with
        | none => exact absurd hr hrest
        | some os => simp [pure, Except.pure]

theorem objects_reach {ds : Definitions} {ss : List Schema} {os : List (ObjectSchema Schema)}
    (h : objects ds ss = .ok (some os)) {o : ObjectSchema Schema} (ho : o ∈ os) :
    Schema.Reaches ds (.intersection ss) (.object o) := by
  obtain ⟨s, hs, hd⟩ := mem_of_forall₂_right (objects_eq_some h) ho
  exact .head (.constraint hs) (deref_reaches hd)

/-- Whatever a merged object is made of is reached from the members of the intersection. -/
theorem merged_part {ds : Definitions} {ss : List Schema} {os : List (ObjectSchema Schema)}
    (h : objects ds ss = .ok (some os)) {t : Schema}
    (ht : Schema.Part ds (.object (os.foldl ObjectSchema.merge .empty)) t) :
    Schema.Reaches ds (.intersection ss) t := by
  cases ht with
  | property hp =>
    obtain ⟨o, ho, q, hq, hpq⟩ := ObjectSchema.merged_property hp
    exact hpq.1 ▸ (objects_reach h ho).tail (.property hq)
  | additional ha =>
    rcases ObjectSchema.merged_additional ha with ha | ⟨o, ho, ha⟩
    · simp [ObjectSchema.empty] at ha
    · exact (objects_reach h ho).tail (.additional ha)

/-- What a merged object leads to, the intersection does. -/
theorem merged_reaches {ds : Definitions} {ss : List Schema} {os : List (ObjectSchema Schema)}
    (ho : objects ds ss = .ok (some os)) {t : Schema}
    (h : Schema.Reaches ds (.object (os.foldl ObjectSchema.merge .empty)) t) :
    t = .object (os.foldl ObjectSchema.merge .empty) ∨ Schema.Reaches ds (.intersection ss) t := by
  rcases Relation.ReflTransGen.cases_head h with he | ⟨u, hp, hu⟩
  · exact .inl he.symm
  · exact .inr ((merged_part ho hp).trans hu)

end Coercion

end RouteContract

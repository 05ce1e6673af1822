import RouteContract.Proofs.Coercion.Loops

/-!
# Coercion with more steps

What a coercion gives depends neither on the steps it was granted, once they
suffice, nor on the path it reports under: another path changes only where the
reports stand.
-/

set_option autoImplicit false

namespace RouteContract.Coercion

structure Alike {α : Type} (same : Prop) (c d : Coerced α) : Prop where
  value : c.value? = d.value?
  reports : c.reports = [] ↔ d.reports = []
  eq : same → c = d

namespace Alike

variable {α β : Type} {same : Prop}

theorem refl (c : Coerced α) : Alike same c c := ⟨rfl, Iff.rfl, fun _ => rfl⟩

theorem weaken {same' : Prop} {c d : Coerced α} (h : Alike same c d) (hs : same' → same) :
    Alike same' c d := ⟨h.value, h.reports, fun h' => h.eq (hs h')⟩

theorem isClean {c d : Coerced α} (h : Alike same c d) : c.isClean = d.isClean := by
  have hr : c.reports.isEmpty = d.reports.isEmpty := by
    rw [Bool.eq_iff_iff, List.isEmpty_iff, List.isEmpty_iff]
    exact h.reports
  rw [Coerced.isClean, Coerced.isClean, h.value, hr]

theorem map (f : α → β) {c d : Coerced α} (h : Alike same c d) :
    Alike same (c.map f) (d.map f) :=
  ⟨by simp [Coerced.map, h.value], h.reports, fun hs => by rw [h.eq hs]⟩

theorem report (path path' : String) (e : FieldError) :
    Alike (path = path') (⟨none, [(path, e)]⟩ : Coerced α) ⟨none, [(path', e)]⟩ :=
  ⟨rfl, by simp, fun h => by rw [h]⟩

theorem orRefuse (a : Option α) (path path' : String) (complaint : Complaint) (raw : Json) :
    Alike (path = path') (Coerced.orRefuse a path complaint raw)
      (Coerced.orRefuse a path' complaint raw) := by
  cases a with
  | none => exact report path path' _
  | some a => exact refl _

theorem sequence {cs ds : List (Coerced α)} (h : List.Forall₂ (Alike same) cs ds) :
    Alike same (Coerced.sequence cs) (Coerced.sequence ds) := by
  induction h with
  | nil => exact refl _
  | cons hc _ ih =>
    refine ⟨?_, ?_, ?_⟩
    · simp [Coerced.sequence, hc.value, ih.value]
    · simp [Coerced.sequence, hc.reports, ih.reports]
    · intro hs
      simp [Coerced.sequence, hc.eq hs, ih.eq hs]

end Alike

theorem jsonPrimitive_alike (kind : Primitive) (v : Json) (path path' : String) :
    Alike (path = path') (jsonPrimitive kind v path) (jsonPrimitive kind v path') := by
  unfold jsonPrimitive
  split <;> first
    | exact .refl _
    | exact .orRefuse _ _ _ _ _
    | exact .report _ _ _

def Follows {α : Type} (same : Prop) (x y : Option (Coerced α)) : Prop :=
  ∀ c, x = some c → ∃ d, y = some d ∧ Alike same c d

namespace Follows

variable {α β : Type} {same : Prop}

theorem of_alike {c d : Coerced α} (h : Alike same c d) : Follows same (some c) (some d) := by
  intro c' hc
  cases hc
  exact ⟨d, rfl, h⟩

theorem weaken {same' : Prop} {x y : Option (Coerced α)} (h : Follows same x y)
    (hs : same' → same) : Follows same' x y := by
  intro c hc
  obtain ⟨d, hd, hcd⟩ := h c hc
  exact ⟨d, hd, hcd.weaken hs⟩

theorem map (f : α → β) {x y : Option (Coerced α)} (h : Follows same x y) :
    Follows same (x.map (·.map f)) (y.map (·.map f)) := by
  intro c hc
  obtain ⟨c', hc', rfl⟩ := Option.map_eq_some_iff.mp hc
  obtain ⟨d, rfl, hd⟩ := h c' hc'
  exact ⟨d.map f, rfl, hd.map f⟩

theorem mapM {ι : Type} {f g : ι → Option (Coerced α)} {xs : List ι}
    (h : ∀ x ∈ xs, Follows same (f x) (g x)) {cs : List (Coerced α)}
    (hc : xs.mapM f = some cs) :
    ∃ ds, xs.mapM g = some ds ∧ List.Forall₂ (Alike same) cs ds := by
  rw [mapM_eq_some_iff] at hc
  induction hc with
  | nil => exact ⟨[], rfl, .nil⟩
  | @cons x c xs cs hx _ ih =>
    obtain ⟨d, hd, hcd⟩ := h x (by simp) c hx
    obtain ⟨ds, hds, hcds⟩ := ih fun y hy => h y (by simp [hy])
    exact ⟨d :: ds, by simp [hd, hds], .cons hcd hcds⟩

theorem firstMatch {f g : Schema → Option (Coerced Typed)} {same : Prop} (all : List Schema)
    (path path' : String) (raw : Json) {members : List Schema}
    (h : ∀ m ∈ members, Follows same (f m) (g m)) :
    Follows (path = path') (Coercion.firstMatch f all path raw members)
      (Coercion.firstMatch g all path' raw members) := by
  induction members with
  | nil => exact .of_alike (.report path path' _)
  | cons m rest ih =>
    intro c hc
    cases hm : f m with
    | none => simp [Coercion.firstMatch, hm] at hc
    | some a =>
      obtain ⟨b, hb, hab⟩ := h m (by simp) a hm
      cases ha : a.isClean with
      | true =>
        have hc' : c = ⟨b.value?, []⟩ := by
          simpa [Coercion.firstMatch, hm, ha, hab.value] using hc.symm
        refine ⟨c, ?_, .refl c⟩
        simp [Coercion.firstMatch, hb, ← hab.isClean, ha, hc']
      | false =>
        have hr : Coercion.firstMatch f all path raw rest = some c := by
          simpa [Coercion.firstMatch, hm, ha] using hc
        obtain ⟨d, hd, hcd⟩ := ih (fun x hx => h x (by simp [hx])) c hr
        refine ⟨d, ?_, hcd⟩
        simpa [Coercion.firstMatch, hb, ← hab.isClean, ha] using hd

end Follows

section

variable {ds : Definitions} {extras : Extras}
  {J K : Schema → Json → String → Option (Coerced Typed)}

def Extends (J K : Schema → Json → String → Option (Coerced Typed)) : Prop :=
  ∀ s v path path', Follows (path = path') (J s v path) (K s v path')

theorem Extends.items_follow (h : Extends J K) {element : Schema} {path : String} (path' : String)
    {vs : List Json} {cs : List (Coerced Typed)} (hc : items J element path 0 vs = some cs) :
    ∃ ds, items K element path' 0 vs = some ds ∧ List.Forall₂ (Alike (path = path')) cs ds := by
  rw [items_eq_mapM] at hc ⊢
  refine Follows.mapM (fun x _ => ?_) hc
  exact (h element x.1 _ _).weaken fun hp => by rw [hp]

theorem Extends.property_follows (h : Extends J K) (name : String) (p : PropertySchema Schema)
    (given : Option Json) (path path' : String) :
    Follows (path = path') (property J name p given path) (property K name p given path') := by
  unfold property
  cases given.or p.default with
  | none =>
    refine .of_alike ?_
    split
    · exact (Alike.report _ _ _).weaken fun hp => by rw [hp]
    · exact .refl _
  | some v =>
    have hv := (h p.schema v (child path name) (child path' name)).map fun t => some (name, t)
    have hw := hv.weaken fun (hp : path = path') => by rw [hp]
    simpa [Option.map_eq_bind, Function.comp_def] using hw

theorem Extends.extra_follows (h : Extends J K) (a : Additional Schema) (key : String)
    (raw : Json) (path path' : String) :
    Follows (path = path') (extra J extras a key raw path) (extra K extras a key raw path') := by
  cases a with
  | any => exact .of_alike (.refl _)
  | schema s =>
    have hv := (h s raw (child path key) (child path' key)).map fun t => some (key, t)
    have hw := hv.weaken fun (hp : path = path') => by rw [hp]
    simpa [extra, Option.map_eq_bind, Function.comp_def] using hw
  | implicit =>
    refine .of_alike ?_
    cases extras with
    | reject => exact (Alike.report _ _ _).weaken fun hp => by rw [hp]
    | drop => exact .refl _
    | keep => exact .refl _

theorem Extends.parts_follow (h : Extends J K) {o : ObjectSchema Schema}
    {fields : List (String × Json)} {path : String} (path' : String)
    {ps : List (Coerced (Option (String × Typed)))} (hc : parts J extras o fields path = some ps) :
    ∃ qs, parts K extras o fields path' = some qs ∧
      List.Forall₂ (Alike (path = path')) ps qs := by
  unfold parts at hc ⊢
  simp only [bind, pure, Option.bind_eq_some_iff, Option.some.injEq] at hc ⊢
  obtain ⟨declared, hd, undeclared, hu, rfl⟩ := hc
  obtain ⟨declared', hd', hdd⟩ := Follows.mapM
    (fun x _ => h.property_follows x.1 x.2 (Entries.find? fields x.1) path path') hd
  obtain ⟨undeclared', hu', huu⟩ := Follows.mapM
    (fun x _ => h.extra_follows o.additional x.1 x.2 path path') hu
  exact ⟨_, ⟨declared', hd', undeclared', hu', rfl⟩, List.rel_append hdd huu⟩

theorem Extends.intersection_follows (h : Extends J K) (members : List Schema) (v : Json)
    (path path' : String) :
    Follows (path = path') (intersection J ds members v path)
      (intersection K ds members v path') := by
  unfold intersection
  split
  · exact .of_alike (.report path path' _)
  · exact h _ v path path'
  · intro c hc
    simp only [bind, pure, Option.bind_eq_some_iff, Option.some.injEq] at hc
    obtain ⟨cs, hcs, rfl⟩ := hc
    obtain ⟨ds, hds, hcd⟩ := Follows.mapM (fun s _ => h s v path path') hcs
    have hq := Alike.sequence hcd
    refine ⟨⟨(Coerced.sequence ds).value?.bind (·.getLast?), (Coerced.sequence ds).reports⟩,
      by simp [hds], ?_⟩
    exact ⟨by simp [hq.value], hq.reports, fun hp => by rw [hq.eq hp]⟩

/-- One step ends wherever it ends over nested coercions that end less often. -/
theorem Extends.step_follows (h : Extends J K) (s : Schema) (v : Json) (path path' : String) :
    Follows (path = path') (jsonStep J ds extras s v path) (jsonStep K ds extras s v path') := by
  cases s with
  | primitive kind => exact .of_alike (jsonPrimitive_alike kind v path path')
  | enum values => exact .of_alike (.orRefuse _ path path' _ v)
  | array element =>
    cases v with
    | array vs =>
      intro c hc
      simp only [jsonStep, bind, pure, Option.bind_eq_some_iff, Option.some.injEq] at hc
      obtain ⟨cs, hcs, rfl⟩ := hc
      obtain ⟨ds, hds, hcd⟩ := h.items_follow path' hcs
      exact ⟨_, by simp [jsonStep, hds], (Alike.sequence hcd).map _⟩
    | _ => exact .of_alike (.report path path' _)
  | object o =>
    cases v with
    | object fields =>
      intro c hc
      simp only [jsonStep, object, bind, pure, Option.bind_eq_some_iff, Option.some.injEq] at hc
      obtain ⟨ps, hps, rfl⟩ := hc
      obtain ⟨qs, hqs, hpq⟩ := h.parts_follow path' hps
      exact ⟨_, by simp [jsonStep, object, hqs], (Alike.sequence hpq).map _⟩
    | _ => exact .of_alike (.report path path' _)
  | union members => exact .firstMatch members path path' v fun m _ => h m v path path'
  | intersection members => exact h.intersection_follows members v path path'
  | reference name => exact .of_alike (.report path path' _)

theorem jsonWithin_extends {n m : Nat} (hnm : n ≤ m) :
    Extends (jsonWithin ds extras n) (jsonWithin ds extras m) := by
  induction n generalizing m with
  | zero => intro s v path path' c hc; cases hc
  | succ n ih =>
    obtain ⟨m, rfl⟩ : ∃ k, m = k + 1 := ⟨m - 1, by omega⟩
    intro s v path path'
    simp only [jsonWithin, through]
    cases deref ds maxHops s with
    | error complaint => exact .of_alike (.report path path' _)
    | ok s' => exact (ih (by omega)).step_follows s' v path path'

/-- More steps change no result. -/
theorem jsonWithin_mono {n m : Nat} (hnm : n ≤ m) {s : Schema} {v : Json} {path : String}
    {c : Coerced Typed} (h : jsonWithin ds extras n s v path = some c) :
    jsonWithin ds extras m s v path = some c := by
  obtain ⟨d, hd, hcd⟩ := jsonWithin_extends hnm s v path path c h
  rw [hd, hcd.eq rfl]

theorem jsonWithin_isSome_mono {n m : Nat} (hnm : n ≤ m) {s : Schema} {v : Json}
    {path path' : String} (h : (jsonWithin ds extras n s v path).isSome) :
    (jsonWithin ds extras m s v path').isSome := by
  obtain ⟨c, hc⟩ := Option.isSome_iff_exists.mp h
  obtain ⟨d, hd, -⟩ := jsonWithin_extends hnm s v path path' c hc
  rw [hd, Option.isSome_some]

/-- Two coercions of one value end alike. -/
theorem jsonWithin_alike {n m : Nat} {s : Schema} {v : Json} {path path' : String}
    {c d : Coerced Typed} (hc : jsonWithin ds extras n s v path = some c)
    (hd : jsonWithin ds extras m s v path' = some d) : Alike (path = path') c d := by
  have hc' := jsonWithin_mono (Nat.le_max_left n m) hc
  have hd' := jsonWithin_mono (Nat.le_max_right n m) hd
  obtain ⟨e, he, hce⟩ := jsonWithin_extends (Nat.le_refl _) s v path path' c hc'
  rw [hd'] at he
  cases he
  exact hce

end

end RouteContract.Coercion

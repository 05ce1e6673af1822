import RouteContract.Proofs.Coercion.Reports

/-!
# Policies for undeclared properties

Two coercions of one value differ in the policy for undeclared properties only.
Where the first policy lets them pass, the first coercion reports under no key
that the second one does not report under, and where the second one lets them
pass too, the reports are the same. Both must end: a stricter policy may lead a
union to a further member, which may need more.
-/

set_option autoImplicit false

namespace RouteContract.Coercion

open Coerced (Honest)

structure Milder (same : Prop) (rs rs' : List Report) : Prop where
  keys : rs.map Prod.fst ⊆ rs'.map Prod.fst
  eq : same → rs = rs'

namespace Milder

variable {same : Prop} {rs rs' ss ss' : List Report}

theorem refl (rs : List Report) : Milder same rs rs := ⟨List.Subset.refl _, fun _ => rfl⟩

theorem nil (h : same → rs = []) : Milder same [] rs := ⟨List.nil_subset _, fun hs => (h hs).symm⟩

theorem eq_nil (h : Milder same rs []) : rs = [] :=
  List.map_eq_nil_iff.mp (List.subset_nil.mp h.keys)

theorem append (h : Milder same rs rs') (h' : Milder same ss ss') :
    Milder same (rs ++ ss) (rs' ++ ss') := by
  refine ⟨?_, fun hs => by rw [h.eq hs, h'.eq hs]⟩
  rw [List.map_append, List.map_append]
  exact List.append_subset.mpr ⟨List.subset_append_of_subset_left _ h.keys,
    List.subset_append_of_subset_right _ h'.keys⟩

end Milder

def Compares {α : Type} (same : Prop) (x y : Option (Coerced α)) : Prop :=
  ∀ c d, x = some c → y = some d → Milder same c.reports d.reports

namespace Compares

variable {α β : Type} {same : Prop}

theorem of_milder {c d : Coerced α} (h : Milder same c.reports d.reports) :
    Compares same (some c) (some d) := by
  intro c' d' hc hd
  cases hc
  cases hd
  exact h

theorem refl (c : Coerced α) : Compares same (some c) (some c) := of_milder (.refl _)

theorem map (f : α → β) {x y : Option (Coerced α)} (h : Compares same x y) :
    Compares same (x.map (·.map f)) (y.map (·.map f)) := by
  intro c d hc hd
  obtain ⟨c, hx, rfl⟩ := Option.map_eq_some_iff.mp hc
  obtain ⟨d, hy, rfl⟩ := Option.map_eq_some_iff.mp hd
  exact h c d hx hy

theorem mapM {ι : Type} {f g : ι → Option (Coerced α)} {xs : List ι}
    (h : ∀ x ∈ xs, Compares same (f x) (g x)) {cs ds : List (Coerced α)}
    (hc : xs.mapM f = some cs) (hd : xs.mapM g = some ds) :
    Milder same (cs.flatMap (·.reports)) (ds.flatMap (·.reports)) := by
  rw [mapM_eq_some_iff] at hc hd
  induction hc generalizing ds with
  | nil =>
    cases hd
    exact .refl _
  | @cons x c xs cs hx _ ih =>
    obtain ⟨d, ds, hy, hrest, rfl⟩ := List.forall₂_cons_left_iff.mp hd
    have hhead := h x List.mem_cons_self c d hx hy
    exact hhead.append (ih (fun y hy => h y (List.mem_cons_of_mem x hy)) hrest)

theorem sequence {ι : Type} {f g : ι → Option (Coerced α)} {xs : List ι}
    (h : ∀ x ∈ xs, Compares same (f x) (g x)) {cs ds : List (Coerced α)}
    (hc : xs.mapM f = some cs) (hd : xs.mapM g = some ds) :
    Milder same (Coerced.sequence cs).reports (Coerced.sequence ds).reports := by
  rw [Coerced.sequence_reports, Coerced.sequence_reports]
  exact mapM h hc hd

/-- A member that matches in the second search matches in the first one, so that the first search
fails only where the second one does. -/
theorem firstMatch {f g : Schema → Option (Coerced Typed)} {all members : List Schema}
    {path : String} {raw : Json} (h : ∀ m ∈ members, Compares same (f m) (g m))
    (hf : ∀ m c, f m = some c → Honest c) (hg : ∀ m c, g m = some c → Honest c) :
    Compares same (Coercion.firstMatch f all path raw members)
      (Coercion.firstMatch g all path raw members) := by
  intro c d hc hd
  rcases firstMatch_eq_some hc with ⟨before, m, after, c', he, -, hfm, hclean, rfl⟩ | ⟨hfails, rfl⟩
  · refine .nil fun hs => ?_
    rcases firstMatch_eq_some hd with ⟨_, _, _, _, -, -, -, -, rfl⟩ | ⟨hfails', -⟩
    · rfl
    have hm : m ∈ members := by simp [he]
    obtain ⟨d', hgm, hunclean⟩ := hfails' m hm
    have hreports : c'.reports = [] := (Coerced.isClean_iff.mp hclean).2
    rw [(h m hm c' d' hfm hgm).eq hs] at hreports
    exact absurd hreports ((hg m d' hgm).isClean_eq_false_iff.mp hunclean)
  · rcases firstMatch_eq_some hd with ⟨before, m, after, d', he, -, hgm, hclean, rfl⟩ | ⟨-, rfl⟩
    · have hm : m ∈ members := by simp [he]
      obtain ⟨c', hfm, hunclean⟩ := hfails m hm
      have hmilder := h m hm c' d' hfm hgm
      rw [(Coerced.isClean_iff.mp hclean).2] at hmilder
      exact absurd hmilder.eq_nil ((hf m c' hfm).isClean_eq_false_iff.mp hunclean)
    · exact .refl _

theorem through {ds : Definitions} {s : Schema} {path : String}
    {step step' : Schema → Option (Coerced α)} (h : ∀ s, Compares same (step s) (step' s)) :
    Compares same (Coercion.through ds s path step) (Coercion.through ds s path step') := by
  unfold Coercion.through
  split
  · exact h _
  · exact refl _

end Compares

section

variable {ds : Definitions} {e e' : Extras} (he : e ≠ .reject)
  {J K : Schema → Json → String → Option (Coerced Typed)} {same : Prop}
  (h : ∀ s v path, Compares same (J s v path) (K s v path))

section

include h

theorem property_compares (name : String) (p : PropertySchema Schema) (given : Option Json)
    (path : String) : Compares same (property J name p given path) (property K name p given path) := by
  unfold property
  split
  · rename_i v _
    have hv := (h p.schema v (child path name)).map fun t => some (name, t)
    simpa [Option.map_eq_bind, Function.comp_def] using hv
  · exact .refl _

theorem intersection_compares (members : List Schema) (v : Json) (path : String) :
    Compares same (intersection J ds members v path) (intersection K ds members v path) := by
  unfold intersection
  split
  · exact .refl _
  · exact h _ v path
  · intro c d hc hd
    simp only [bind, pure, Option.bind_eq_some_iff, Option.some.injEq] at hc hd
    obtain ⟨cs, hcs, rfl⟩ := hc
    obtain ⟨ds, hds, rfl⟩ := hd
    exact Compares.sequence (fun s _ => h s v path) hcs hds

end

/-- A policy that lets an undeclared property pass reports nothing about it. -/
theorem undeclared_passes {e : Extras} (he : e ≠ .reject) {key : String} {raw : Json} {path : String}
    {c : Coerced (Option (String × Typed))} (hc : extra J e .implicit key raw path = some c) :
    c.reports = [] := by
  cases e with
  | reject => exact absurd rfl he
  | drop => cases hc; rfl
  | keep => cases hc; rfl

variable (hsame : same → e' ≠ .reject)

include he h hsame

theorem extra_compares (a : Additional Schema) (key : String) (raw : Json) (path : String) :
    Compares same (extra J e a key raw path) (extra K e' a key raw path) := by
  cases a with
  | any => exact .refl _
  | schema s =>
    have hv := (h s raw (child path key)).map fun t => some (key, t)
    simpa [extra, Option.map_eq_bind, Function.comp_def] using hv
  | implicit =>
    intro c d hc hd
    rw [undeclared_passes he hc]
    exact .nil fun hs => undeclared_passes (hsame hs) hd

theorem parts_compare {o : ObjectSchema Schema} {fields : List (String × Json)} {path : String}
    {ps qs : List (Coerced (Option (String × Typed)))} (hp : parts J e o fields path = some ps)
    (hq : parts K e' o fields path = some qs) :
    Milder same (Coerced.sequence ps).reports (Coerced.sequence qs).reports := by
  obtain ⟨declared, undeclared, rfl, hd, hu⟩ := parts_eq_some hp
  obtain ⟨declared', undeclared', rfl, hd', hu'⟩ := parts_eq_some hq
  rw [Coerced.sequence_reports, Coerced.sequence_reports, List.flatMap_append, List.flatMap_append]
  refine .append ?_ ?_
  · exact Compares.mapM (fun x _ => property_compares h x.1 x.2 _ path) (mapM_eq_some_iff.mpr hd)
      (mapM_eq_some_iff.mpr hd')
  · exact Compares.mapM (fun x _ => extra_compares he h hsame o.additional x.1 x.2 path)
      (mapM_eq_some_iff.mpr hu) (mapM_eq_some_iff.mpr hu')

theorem step_compares (hJ : ∀ s v path c, J s v path = some c → Honest c)
    (hK : ∀ s v path c, K s v path = some c → Honest c) (s : Schema) (v : Json) (path : String) :
    Compares same (jsonStep J ds e s v path) (jsonStep K ds e' s v path) := by
  cases s with
  | primitive kind => exact .refl _
  | enum values => exact .refl _
  | array element =>
    cases v with
    | array vs =>
      intro c d hc hd
      simp only [jsonStep, bind, pure, Option.bind_eq_some_iff, Option.some.injEq,
        items_eq_mapM] at hc hd
      obtain ⟨cs, hcs, rfl⟩ := hc
      obtain ⟨ds, hds, rfl⟩ := hd
      exact Compares.sequence (fun x _ => h element x.1 _) hcs hds
    | _ => exact .refl _
  | object o =>
    cases v with
    | object fields =>
      intro c d hc hd
      simp only [jsonStep, object, bind, pure, Option.bind_eq_some_iff, Option.some.injEq] at hc hd
      obtain ⟨ps, hps, rfl⟩ := hc
      obtain ⟨qs, hqs, rfl⟩ := hd
      exact parts_compare he h hsame hps hqs
    | _ => exact .refl _
  | union members =>
    exact .firstMatch (fun m _ => h m v path) (fun m c => hJ m v path c) fun m c => hK m v path c
  | intersection members => exact intersection_compares h members v path
  | reference name => exact .refl _

end

section

variable {ds : Definitions} {e e' : Extras} (he : e ≠ .reject)

include he

/-- A policy that lets undeclared properties pass is milder than any other. -/
theorem jsonWithin_compares (n : Nat) (s : Schema) (v : Json) (path : String) :
    Compares (e' ≠ .reject) (jsonWithin ds e n s v path) (jsonWithin ds e' n s v path) := by
  induction n generalizing s v path with
  | zero => intro c d hc; cases hc
  | succ n ih =>
    exact .through fun s => step_compares he ih id (jsonWithin_honest n) (jsonWithin_honest n) s v path

theorem json_compares (s : Schema) (v : Json) (path : String) :
    Compares (e' ≠ .reject) (json ds e s v path) (json ds e' s v path) :=
  jsonWithin_compares he _ s v path

theorem fields_compare {o : ObjectSchema Schema} {given : List (String × Json)} {path : String}
    {x y : List (String × Typed) × List Report} (hx : fields ds e o given path = some x)
    (hy : fields ds e' o given path = some y) : Milder (e' ≠ .reject) x.2 y.2 := by
  simp only [fields, bind, pure, Option.bind_eq_some_iff, Option.some.injEq] at hx hy
  obtain ⟨ps, hps, rfl⟩ := hx
  obtain ⟨qs, hqs, rfl⟩ := hy
  exact parts_compare he (jsonWithin_compares he _) id hps hqs

theorem read_compares (s : Schema) (text path : String) :
    Compares (e' ≠ .reject)
      (match Json.parse? text with
        | some v => json ds e s v path
        | none => some (Coerced.refuse path (.invalid (describe s)) (.string text)))
      (match Json.parse? text with
        | some v => json ds e' s v path
        | none => some (Coerced.refuse path (.invalid (describe s)) (.string text))) := by
  split
  · exact json_compares he s _ path
  · exact .refl _

theorem oneTextWithin_compares (n : Nat) (s : Schema) (text path : String) :
    Compares (e' ≠ .reject) (oneTextWithin ds e n s text path)
      (oneTextWithin ds e' n s text path) := by
  induction n generalizing s with
  | zero => intro c d hc; cases hc
  | succ n ih =>
    refine .through fun t => ?_
    cases t with
    | primitive kind => exact .refl _
    | enum values => exact .refl _
    | union members =>
      exact .firstMatch (fun m _ => ih m) (fun _ _ => oneTextWithin_honest)
        fun _ _ => oneTextWithin_honest
    | array element => exact read_compares he _ text path
    | object o => exact read_compares he _ text path
    | intersection members => exact read_compares he _ text path
    | reference name => exact read_compares he _ text path

theorem textWithin_compares {delimiter : Option Char} {steps : Nat} {values : List String}
    (hvalues : values ≠ []) (n : Nat) (s : Schema) (path : String) :
    Compares (e' ≠ .reject) (textWithin ds e delimiter steps n s values path)
      (textWithin ds e' delimiter steps n s values path) := by
  induction n generalizing s with
  | zero => intro c d hc; cases hc
  | succ n ih =>
    refine .through fun t => ?_
    split
    · intro c d hc hd
      simp only [bind, pure, Option.bind_eq_some_iff, Option.some.injEq, texts_eq_mapM] at hc hd
      obtain ⟨cs, hcs, rfl⟩ := hc
      obtain ⟨ds, hds, rfl⟩ := hd
      exact Compares.sequence (fun x _ => oneTextWithin_compares he _ _ x.1 _) hcs hds
    · exact .firstMatch (fun m _ => ih m) (fun _ _ => textWithin_honest hvalues)
        fun _ _ => textWithin_honest hvalues
    · cases values with
      | nil => exact absurd rfl hvalues
      | cons first rest => exact oneTextWithin_compares he _ _ first path

theorem text_compares {delimiter : Option Char} {values : List String} (hvalues : values ≠ [])
    (s : Schema) (path : String) :
    Compares (e' ≠ .reject) (text ds e delimiter s values path)
      (text ds e' delimiter s values path) :=
  textWithin_compares he hvalues _ s path

end

end RouteContract.Coercion

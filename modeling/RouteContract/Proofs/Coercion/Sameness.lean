import RouteContract.Proofs.Coercion.Places
import RouteContract.Proofs.Schema.Sameness

/-!
# Coercion against schemas that are the same

Schemas that agree refuse the same inputs. What they accept need not be coerced to
the same value: a default may be another zero, and the entries of an object may
stand in another order.
-/

set_option autoImplicit false

namespace RouteContract

open Schema (PropertiesAgree)

namespace Coerced

theorem sequence_isClean {α : Type} (cs : List (Coerced α)) :
    (sequence cs).isClean = cs.all (·.isClean) := by
  induction cs with
  | nil => rfl
  | cons c cs ih =>
    rw [List.all_cons, ← ih]
    cases hc : c.value? <;> cases hr : c.reports <;> cases hv : (sequence cs).value? <;>
      simp [sequence, isClean, hc, hr, hv]

/-- The last of some values, where all of them are there. -/
theorem last_isClean {α : Type} (cs : List (Coerced α)) :
    (⟨(sequence cs).value?.bind (·.getLast?), (sequence cs).reports⟩ : Coerced α).isClean =
      (!cs.isEmpty && cs.all (·.isClean)) := by
  rw [← sequence_isClean]
  cases hv : (sequence cs).value? with
  | none => simp [isClean, hv]
  | some as =>
    have hlength := (sequence_value.mp hv).length_eq
    cases cs <;> cases as <;> simp_all [isClean, List.getLast?_cons]

theorem map_isClean {α β : Type} (f : α → β) (c : Coerced α) : (c.map f).isClean = c.isClean := by
  simp [Coerced.map, isClean]

/-- What lists of results are put together to is clean when each of them is. -/
theorem map_sequence_isClean {α β γ δ : Type} (f : List α → γ) (g : List β → δ)
    {cs : List (Coerced α)} {cs' : List (Coerced β)}
    (h : cs.all (·.isClean) = cs'.all (·.isClean)) :
    ((sequence cs).map f).isClean = ((sequence cs').map g).isClean := by
  rw [map_isClean, map_isClean, sequence_isClean, sequence_isClean, h]

theorem orRefuse_isClean {α : Type} (a : Option α) (path : String) (complaint : Complaint)
    (raw : Json) : (orRefuse a path complaint raw).isClean = a.isSome := by
  cases a <;> rfl

end Coerced

namespace Coercion

def Tracks {α β : Type} (x : Option (Coerced α)) (y : Option (Coerced β)) : Prop :=
  ∀ c, x = some c → ∃ d, y = some d ∧ c.isClean = d.isClean

namespace Tracks

theorem of_isClean {α β : Type} {c : Coerced α} {d : Coerced β} (h : c.isClean = d.isClean) :
    Tracks (some c) (some d) := by
  intro c' hc
  cases hc
  exact ⟨d, rfl, h⟩

theorem bind {α β γ δ : Type} {x : Option (Coerced α)} {y : Option (Coerced β)}
    (f : α → γ) (g : β → δ) (h : Tracks x y) :
    Tracks (x.bind fun c => some (c.map f)) (y.bind fun c => some (c.map g)) := by
  intro c hc
  obtain ⟨c', hc', hmap⟩ := Option.bind_eq_some_iff.mp hc
  cases hmap
  obtain ⟨d, rfl, hd⟩ := h c' hc'
  exact ⟨d.map g, rfl, by rw [Coerced.map_isClean, Coerced.map_isClean, hd]⟩

/-- Computations for elements that are paired, in any order, are clean together. -/
theorem mapM {α β ι κ : Type} {f : ι → Option (Coerced α)} {g : κ → Option (Coerced β)}
    {xs : List ι} {ys : List κ} (hxs : ∀ x ∈ xs, ∃ y ∈ ys, Tracks (f x) (g y))
    (hys : ∀ y ∈ ys, ∃ x ∈ xs, Tracks (f x) (g y)) {cs : List (Coerced α)}
    (hc : xs.mapM f = some cs) :
    ∃ ds, ys.mapM g = some ds ∧ cs.all (·.isClean) = ds.all (·.isClean) := by
  have hcs := mapM_eq_some_iff.mp hc
  have hsome : (ys.mapM g).isSome := by
    rw [mapM_isSome_iff]
    intro y hy
    obtain ⟨x, hx, hxy⟩ := hys y hy
    obtain ⟨c, -, hfx⟩ := mem_of_forall₂_left hcs hx
    obtain ⟨d, hd, -⟩ := hxy c hfx
    rw [hd]
    rfl
  obtain ⟨ds, hds⟩ := Option.isSome_iff_exists.mp hsome
  refine ⟨ds, hds, ?_⟩
  rw [mapM_eq_some_iff] at hds
  rw [Bool.eq_iff_iff, List.all_eq_true, List.all_eq_true]
  constructor
  · intro h d hd
    obtain ⟨y, hy, hgy⟩ := mem_of_forall₂_right hds hd
    obtain ⟨x, hx, hxy⟩ := hys y hy
    obtain ⟨c, hc, hfx⟩ := mem_of_forall₂_left hcs hx
    obtain ⟨d', hd', hclean⟩ := hxy c hfx
    obtain rfl := Option.some.inj (hd'.symm.trans hgy)
    exact hclean ▸ h c hc
  · intro h c hc
    obtain ⟨x, hx, hfx⟩ := mem_of_forall₂_right hcs hc
    obtain ⟨y, hy, hxy⟩ := hxs x hx
    obtain ⟨d, hgy, hclean⟩ := hxy c hfx
    obtain ⟨d', hd', hgy'⟩ := mem_of_forall₂_left hds hy
    obtain rfl := Option.some.inj (hgy.symm.trans hgy')
    exact hclean ▸ h d hd'

theorem mapM_of_forall₂ {α β ι κ : Type} {f : ι → Option (Coerced α)} {g : κ → Option (Coerced β)}
    {xs : List ι} {ys : List κ} (h : List.Forall₂ (fun x y => Tracks (f x) (g y)) xs ys)
    {cs : List (Coerced α)} (hc : xs.mapM f = some cs) :
    ∃ ds, ys.mapM g = some ds ∧ cs.all (·.isClean) = ds.all (·.isClean) :=
  mapM (fun _ hx => mem_of_forall₂_left h hx) (fun _ hy => mem_of_forall₂_right h hy) hc

theorem mapM_of_paired {α β γ κ : Type} {R : γ → γ → Prop} {f : κ × γ → Option (Coerced α)}
    {g : κ × γ → Option (Coerced β)} {t u : Entries κ γ} (h : Entries.Paired R t u)
    (hfg : ∀ x y : κ × γ, x.1 = y.1 → R x.2 y.2 → Tracks (f x) (g y)) {cs : List (Coerced α)}
    (hc : t.mapM f = some cs) :
    ∃ ds, u.mapM g = some ds ∧ cs.all (·.isClean) = ds.all (·.isClean) := by
  refine mapM (fun x hx => ?_) (fun y hy => ?_) hc
  · obtain ⟨y, hy, hkey, hxy⟩ := h.left x hx
    exact ⟨y, hy, hfg x y hkey hxy⟩
  · obtain ⟨x, hx, hkey, hxy⟩ := h.right y hy
    exact ⟨x, hx, hfg x y hkey hxy⟩

theorem firstMatch {f g : Schema → Option (Coerced Typed)} {all all' : List Schema}
    {path path' : String} {raw raw' : Json} {ms ms' : List Schema}
    (h : List.Forall₂ (fun m m' => Tracks (f m) (g m')) ms ms') :
    Tracks (Coercion.firstMatch f all path raw ms) (Coercion.firstMatch g all' path' raw' ms') := by
  induction h with
  | nil => exact of_isClean rfl
  | @cons m m' ms ms' hm _ ih =>
    intro c hc
    cases hf : f m with
    | none => simp [Coercion.firstMatch, hf] at hc
    | some a =>
      obtain ⟨b, hb, hab⟩ := hm a hf
      cases ha : a.isClean with
      | true =>
        obtain rfl : (⟨a.value?, []⟩ : Coerced Typed) = c := by
          simpa [Coercion.firstMatch, hf, ha] using hc
        refine ⟨⟨b.value?, []⟩, by simp [Coercion.firstMatch, hb, ← hab, ha], ?_⟩
        obtain ⟨⟨t, ht⟩, -⟩ := Coerced.isClean_iff.mp ha
        obtain ⟨⟨u, hu⟩, -⟩ := Coerced.isClean_iff.mp (hab ▸ ha)
        simp [Coerced.isClean, ht, hu]
      | false =>
        obtain ⟨d, hd, hcd⟩ := ih c (by simpa [Coercion.firstMatch, hf, ha] using hc)
        exact ⟨d, by simpa [Coercion.firstMatch, hb, ← hab, ha] using hd, hcd⟩

end Tracks

section

variable {v w : Json} {path path' : String}

theorem toFloat?_agrees (h : v.Agrees w) :
    Option.Rel (fun x y => x.same y = true) v.toFloat? w.toFloat? := by
  cases h with
  | refl => exact option_rel_refl (fun x => x.same_self) _
  | float h => exact .some h
  | array => exact .none
  | object => exact .none

theorem integral?_of_same {x y : Number.Binary64} (h : x.same y) : integral? x = integral? y := by
  rw [integral?, integral?, Number.Binary64.toInt?_of_same h]

theorem byte?_agrees (h : v.Agrees w) : byte? v = byte? w := by
  cases h <;> rfl

theorem bytes_agree {vs ws : List Json} (h : List.Forall₂ Json.Agrees vs ws) :
    vs.mapM byte? = ws.mapM byte? := by
  induction h with
  | nil => rfl
  | cons h _ ih => rw [List.mapM_cons, List.mapM_cons, byte?_agrees h, ih]

theorem jsonPrimitive_agrees (kind : Primitive) (h : v.Agrees w) :
    (jsonPrimitive kind v path).isClean = (jsonPrimitive kind w path').isClean := by
  cases h with
  | refl => exact (jsonPrimitive_alike kind v path path').isClean
  | @float x y h =>
    cases kind <;> simp [jsonPrimitive, Coerced.orRefuse_isClean, integerOfJson?, Json.toFloat?,
      integral?_of_same h] <;> rfl
  | array h =>
    cases kind <;> simp [jsonPrimitive, Coerced.orRefuse_isClean, integerOfJson?, bytes_agree h,
      Json.toFloat?] <;> rfl
  | object =>
    cases kind <;> simp [jsonPrimitive, Coerced.orRefuse_isClean, integerOfJson?,
      Json.toFloat?] <;> rfl

/-- Lists of values that agree hold a value of a text or of a number in the same cases. -/
theorem findSome?_isSome_agrees {f g : EnumValue → Option Typed} {as bs : List EnumValue}
    (h : List.Forall₂ (fun a b => a.same b = true) as bs)
    (hfg : ∀ a b, a.same b → (f a).isSome = (g b).isSome) :
    (as.findSome? f).isSome = (bs.findSome? g).isSome := by
  induction h with
  | nil => rfl
  | @cons a b as bs hab _ ih =>
    have hhead := hfg a b hab
    cases hf : f a with
    | none => cases hg : g b <;> simp_all
    | some t => cases hg : g b <;> simp_all

theorem listedJson?_agrees {as bs : List EnumValue}
    (h : List.Forall₂ (fun a b => a.same b = true) as bs) (hvw : v.Agrees w) :
    (listedJson? as v).isSome = (listedJson? bs w).isSome := by
  refine findSome?_isSome_agrees h fun a b hab => ?_
  cases a with
  | string s =>
    cases b with
    | string t =>
      obtain rfl : s = t := by simpa [EnumValue.same] using hab
      cases hvw with
      | refl => rfl
      | _ => rfl
    | number y => cases hab
  | number x =>
    cases b with
    | string t => cases hab
    | number y =>
      have hfloat := toFloat?_agrees hvw
      simp only
      generalize v.toFloat? = a at hfloat
      generalize w.toFloat? = b at hfloat
      cases hfloat with
      | none => rfl
      | @some z z' hz =>
        have hsame : z.same x = z'.same y := by
          rw [Number.Binary64.same_congr hab, Number.Binary64.same_symm z,
            Number.Binary64.same_symm z', Number.Binary64.same_congr hz]
        simp [hsame, apply_ite Option.isSome]

theorem listedText?_agrees {as bs : List EnumValue}
    (h : List.Forall₂ (fun a b => a.same b = true) as bs) (text : String) :
    (listedText? as text).isSome = (listedText? bs text).isSome := by
  refine findSome?_isSome_agrees h fun a b hab => ?_
  cases a with
  | string s =>
    cases b with
    | string t =>
      obtain rfl : s = t := by simpa [EnumValue.same] using hab
      rfl
    | number y => cases hab
  | number x =>
    cases b with
    | string t => cases hab
    | number y =>
      have hsame : ∀ z : Number.Binary64, z.same x = z.same y :=
        Number.Binary64.same_congr hab
      simp [hsame, apply_ite Option.isSome]

end

section

variable (ds : Definitions) {ss ts : List Schema} {s t : Schema}

theorem deref_agrees (n : Nat) (h : s.Agrees t) :
    (∃ e, deref ds n s = .error e ∧ deref ds n t = .error e) ∨
      ∃ s' t', deref ds n s = .ok s' ∧ deref ds n t = .ok t' ∧ s'.Agrees t' := by
  cases n with
  | zero => exact .inl ⟨_, rfl, rfl⟩
  | succ n =>
    cases h with
    | refl =>
      cases hd : deref ds (n + 1) s with
      | error e => exact .inl ⟨e, rfl, rfl⟩
      | ok t => exact .inr ⟨t, t, rfl, rfl, .refl t⟩
    | array h => exact .inr ⟨_, _, rfl, rfl, .array h⟩
    | enum h => exact .inr ⟨_, _, rfl, rfl, .enum h⟩
    | object hk hs hp ha => exact .inr ⟨_, _, rfl, rfl, .object hk hs hp ha⟩
    | union h => exact .inr ⟨_, _, rfl, rfl, .union h⟩
    | intersection h => exact .inr ⟨_, _, rfl, rfl, .intersection h⟩

/-- Members that agree name objects that agree, or the same one of them is no object or leads
nowhere. -/
theorem objects_agree (h : List.Forall₂ Schema.Agrees ss ts) :
    (∃ e, objects ds ss = .error e ∧ objects ds ts = .error e) ∨
      (objects ds ss = .ok none ∧ objects ds ts = .ok none) ∨
      ∃ os os', objects ds ss = .ok (some os) ∧ objects ds ts = .ok (some os') ∧
        List.Forall₂ (fun o o' => Schema.Agrees (.object o) (.object o')) os os' := by
  induction h with
  | nil => exact .inr (.inr ⟨[], [], rfl, rfl, .nil⟩)
  | @cons s t ss ts hst _ ih =>
    simp only [objects]
    rcases deref_agrees ds maxHops hst with ⟨e, hs, ht⟩ | ⟨s', t', hs, ht, hst'⟩
    · exact .inl ⟨e, by rw [hs]; rfl, by rw [ht]; rfl⟩
    rw [hs, ht]
    rcases ih with ⟨e, hss, hts⟩ | ⟨hss, hts⟩ | ⟨os, os', hss, hts, hos⟩
    · exact .inl ⟨e, by rw [hss]; rfl, by rw [hts]; rfl⟩
    · rw [hss, hts]
      refine .inr (.inl ?_)
      cases hst' with
      | refl => cases s' <;> exact ⟨rfl, rfl⟩
      | _ => exact ⟨rfl, rfl⟩
    · rw [hss, hts]
      cases hst' with
      | refl =>
        cases s' with
        | object o => exact .inr (.inr ⟨o :: os, o :: os', rfl, rfl, .cons (.refl _) hos⟩)
        | _ => exact .inr (.inl ⟨rfl, rfl⟩)
      | object hk hschemas hp ha =>
        exact .inr (.inr ⟨_, _, rfl, rfl, .cons (.object hk hschemas hp ha) hos⟩)
      | _ => exact .inr (.inl ⟨rfl, rfl⟩)

end

def Tracking (J K : Schema → Json → String → Option (Coerced Typed)) : Prop :=
  ∀ {s t v w} path path', Schema.Agrees s t → Json.Agrees v w → Tracks (J s v path) (K t w path')

namespace Tracking

variable {J K : Schema → Json → String → Option (Coerced Typed)} {extras : Extras}
  {path path' : String}

theorem items (h : Tracking J K) {e e' : Schema} {vs ws : List Json} (he : e.Agrees e')
    (hvs : List.Forall₂ Json.Agrees vs ws) {cs : List (Coerced Typed)}
    (hc : items J e path 0 vs = some cs) :
    ∃ ds, Coercion.items K e' path' 0 ws = some ds ∧ cs.all (·.isClean) = ds.all (·.isClean) := by
  rw [items_eq_mapM] at hc ⊢
  refine Tracks.mapM ?_ ?_ hc
  · rintro ⟨v, i⟩ hv
    have hi := List.mk_mem_zipIdx_iff_getElem?.mp hv
    rcases getElem?_of_forall₂ hvs i with ⟨hnone, -⟩ | ⟨v', w, hv', hw, hvw⟩
    · simp [hnone] at hi
    · obtain rfl := Option.some.inj (hv'.symm.trans hi)
      exact ⟨(w, i), List.mk_mem_zipIdx_iff_getElem?.mpr hw, h _ _ he hvw⟩
  · rintro ⟨w, i⟩ hw
    have hi := List.mk_mem_zipIdx_iff_getElem?.mp hw
    rcases getElem?_of_forall₂ hvs i with ⟨-, hnone⟩ | ⟨v, w', hv, hw', hvw⟩
    · simp [hnone] at hi
    · obtain rfl := Option.some.inj (hw'.symm.trans hi)
      exact ⟨(v, i), List.mk_mem_zipIdx_iff_getElem?.mpr hv, h _ _ he hvw⟩

theorem property (h : Tracking J K) (name : String) {p q : PropertySchema Schema}
    (hp : PropertiesAgree p q) {given given' : Option Json}
    (hg : Option.Rel Json.Agrees given given') :
    Tracks (property J name p given path) (Coercion.property K name q given' path') := by
  have hor := option_rel_or hg hp.default
  unfold Coercion.property
  generalize given.or p.default = v? at hor
  generalize given'.or q.default = w? at hor
  cases hor with
  | none =>
    refine .of_isClean ?_
    rw [hp.required]
    cases q.required <;> rfl
  | some hvw => exact .bind _ _ (h _ _ hp.schema hvw)

theorem extra (h : Tracking J K) {a b : Additional Schema}
    (ha : Additional.Agrees Schema.Agrees a b) (key : String) {v w : Json} (hv : v.Agrees w) :
    Tracks (extra J extras a key v path) (Coercion.extra K extras b key w path') := by
  cases ha with
  | implicit =>
    refine .of_isClean ?_
    cases extras <;> rfl
  | any => exact .of_isClean rfl
  | schema hst => exact .bind _ _ (h _ _ hst hv)

theorem parts (h : Tracking J K) {o o' : ObjectSchema Schema}
    (ho : Schema.Agrees (.object o) (.object o')) {fields fields' : List (String × Json)}
    (hf : Json.Agrees (.object fields) (.object fields'))
    {cs : List (Coerced (Option (String × Typed)))}
    (hc : parts J extras o fields path = some cs) :
    ∃ ds, Coercion.parts K extras o' fields' path' = some ds ∧
      cs.all (·.isClean) = ds.all (·.isClean) := by
  obtain ⟨hproperties, hadditional⟩ := ho.paired
  have hdeclared : ∀ x y : String × PropertySchema Schema, x.1 = y.1 → PropertiesAgree x.2 y.2 →
      Tracks (Coercion.property J x.1 x.2 (Entries.find? fields x.1) path)
        (Coercion.property K y.1 y.2 (Entries.find? fields' y.1) path') := by
    rintro ⟨name, p⟩ ⟨_, q⟩ rfl hpq
    exact h.property name hpq (hf.find? name)
  have hextra : ∀ x y : String × Json, x.1 = y.1 → x.2.Agrees y.2 →
      Tracks (Coercion.extra J extras o.additional x.1 x.2 path)
        (Coercion.extra K extras o'.additional y.1 y.2 path') := by
    rintro ⟨key, v⟩ ⟨_, w⟩ rfl hvw
    exact h.extra hadditional key hvw
  have hcontains : ∀ key,
      (!Entries.contains o.properties key) = !Entries.contains o'.properties key :=
    fun key => by rw [hproperties.contains]
  have hundeclared := hf.paired.filter hcontains
  unfold Coercion.parts at hc ⊢
  simp only [bind, pure, Option.bind_eq_some_iff, Option.some.injEq] at hc ⊢
  obtain ⟨declared, hd, undeclared, hu, rfl⟩ := hc
  obtain ⟨declared', hd', hdd⟩ := Tracks.mapM_of_paired hproperties hdeclared hd
  obtain ⟨undeclared', hu', huu⟩ := Tracks.mapM_of_paired hundeclared hextra hu
  exact ⟨_, ⟨declared', hd', undeclared', hu', rfl⟩,
    by rw [List.all_append, List.all_append, hdd, huu]⟩

theorem intersection (h : Tracking J K) {ds : Definitions} {ss ts : List Schema}
    (hs : List.Forall₂ Schema.Agrees ss ts) {v w : Json} (hv : v.Agrees w) :
    Tracks (intersection J ds ss v path) (Coercion.intersection K ds ts w path') := by
  unfold Coercion.intersection
  rcases objects_agree ds hs with ⟨e, hss, hts⟩ | ⟨hss, hts⟩ | ⟨os, os', hss, hts, hos⟩
  · rw [hss, hts]
    exact .of_isClean rfl
  · rw [hss, hts]
    intro c hc
    simp only [bind, pure, Option.bind_eq_some_iff, Option.some.injEq] at hc ⊢
    obtain ⟨cs, hcs, rfl⟩ := hc
    obtain ⟨cs', hcs', hclean⟩ :=
      Tracks.mapM_of_forall₂ (hs.imp fun s t hst => h path path' hst hv) hcs
    have hlength : cs.length = cs'.length :=
      (mapM_eq_some_iff.mp hcs).length_eq.symm.trans
        (hs.length_eq.trans (mapM_eq_some_iff.mp hcs').length_eq)
    refine ⟨_, ⟨cs', hcs', rfl⟩, ?_⟩
    rw [Coerced.last_isClean, Coerced.last_isClean, hclean]
    cases cs <;> cases cs' <;> simp_all
  · rw [hss, hts]
    exact h _ _ (ObjectSchema.merged_agrees hos) hv

theorem step_array (h : Tracking J K) (ds : Definitions) {e e' : Schema} (he : e.Agrees e')
    {v w : Json} (hv : v.Agrees w) :
    Tracks (jsonStep J ds extras (.array e) v path) (jsonStep K ds extras (.array e') w path') := by
  have items : ∀ {vs ws : List Json}, List.Forall₂ Json.Agrees vs ws →
      Tracks (jsonStep J ds extras (.array e) (.array vs) path)
        (jsonStep K ds extras (.array e') (.array ws) path') := by
    intro vs ws hvs c hc
    simp only [jsonStep, bind, pure, Option.bind_eq_some_iff, Option.some.injEq] at hc ⊢
    obtain ⟨cs, hcs, rfl⟩ := hc
    obtain ⟨cs', hcs', hclean⟩ := h.items he hvs hcs
    exact ⟨_, ⟨cs', hcs', rfl⟩, Coerced.map_sequence_isClean _ _ hclean⟩
  cases hv with
  | array hvs => exact items hvs
  | refl =>
    cases v with
    | array vs => exact items (List.forall₂_same.mpr fun v _ => .refl v)
    | _ => exact .of_isClean rfl
  | _ => exact .of_isClean rfl

theorem step_object (h : Tracking J K) (ds : Definitions) {o o' : ObjectSchema Schema}
    (ho : Schema.Agrees (.object o) (.object o')) {v w : Json} (hv : v.Agrees w) :
    Tracks (jsonStep J ds extras (.object o) v path) (jsonStep K ds extras (.object o') w path') := by
  have fields : ∀ {fields fields' : List (String × Json)},
      Json.Agrees (.object fields) (.object fields') →
      Tracks (jsonStep J ds extras (.object o) (.object fields) path)
        (jsonStep K ds extras (.object o') (.object fields') path') := by
    intro fields fields' hf c hc
    simp only [jsonStep, Coercion.object, bind, pure, Option.bind_eq_some_iff,
      Option.some.injEq] at hc ⊢
    obtain ⟨cs, hcs, rfl⟩ := hc
    obtain ⟨cs', hcs', hclean⟩ := h.parts ho hf hcs
    exact ⟨_, ⟨cs', hcs', rfl⟩, Coerced.map_sequence_isClean _ _ hclean⟩
  cases hv with
  | object hk hw => exact fields (.object hk hw)
  | refl =>
    cases v with
    | object f => exact fields (.refl _)
    | _ => exact .of_isClean rfl
  | _ => exact .of_isClean rfl

/-- One step from computations that do not tell schemas apart that agree. -/
theorem step (h : Tracking J K) (ds : Definitions) {s t : Schema} (hs : s.Agrees t) {v w : Json}
    (hv : v.Agrees w) :
    Tracks (jsonStep J ds extras s v path) (jsonStep K ds extras t w path') := by
  have members : ∀ {ms ms' : List Schema}, List.Forall₂ Schema.Agrees ms ms' →
      Tracks (jsonStep J ds extras (.union ms) v path) (jsonStep K ds extras (.union ms') w path') :=
    fun hms => .firstMatch (hms.imp fun m m' hm => h path path' hm hv)
  have values : ∀ {as bs : List EnumValue}, List.Forall₂ (fun a b => a.same b = true) as bs →
      Tracks (jsonStep J ds extras (.enum as) v path) (jsonStep K ds extras (.enum bs) w path') :=
    fun hab => .of_isClean (by
      rw [Coerced.orRefuse_isClean, Coerced.orRefuse_isClean, listedJson?_agrees hab hv])
  cases hs with
  | array he => exact h.step_array ds he hv
  | enum hab => exact values hab
  | object hk hschemas hp ha => exact h.step_object ds (.object hk hschemas hp ha) hv
  | union hms => exact members hms
  | intersection hms => exact h.intersection hms hv
  | refl =>
    cases s with
    | primitive kind => exact .of_isClean (jsonPrimitive_agrees kind hv)
    | array e => exact h.step_array ds (.refl e) hv
    | enum values' => exact values (List.forall₂_same.mpr fun a _ => a.same_self)
    | object o => exact h.step_object ds (.refl _) hv
    | union ms => exact members (List.forall₂_same.mpr fun m _ => .refl m)
    | intersection ms => exact h.intersection (List.forall₂_same.mpr fun m _ => .refl m) hv
    | reference name => exact .of_isClean rfl

end Tracking

section

variable {ds : Definitions} {extras : Extras} {s t : Schema}

theorem jsonWithin_tracking (n : Nat) :
    Tracking (jsonWithin ds extras n) (jsonWithin ds extras n) := by
  induction n with
  | zero => intro s t v w path path' _ _ c hc; cases hc
  | succ n ih =>
    intro s t v w path path' hs hv
    simp only [jsonWithin, through]
    rcases deref_agrees ds maxHops hs with ⟨e, hds, hdt⟩ | ⟨s', t', hds, hdt, hst⟩
    · rw [hds, hdt]
      exact .of_isClean rfl
    · rw [hds, hdt]
      exact ih.step ds hst hv

theorem json_tracks (h : s.Agrees t) (v : Json) (path : String) :
    Tracks (json ds extras s v path) (json ds extras t v path) := by
  intro c hc
  obtain ⟨d, hd, hclean⟩ := jsonWithin_tracking _ path path h (.refl v) c hc
  exact ⟨d, json_of_within hd, hclean⟩

theorem read_tracks (h : s.Agrees t) (text path : String) :
    Tracks
      (match Json.parse? text with
        | some v => json ds extras s v path
        | none => some (Coerced.refuse path (.invalid (describe s)) (.string text)))
      (match Json.parse? text with
        | some v => json ds extras t v path
        | none => some (Coerced.refuse path (.invalid (describe t)) (.string text))) := by
  cases Json.parse? text with
  | none => exact .of_isClean rfl
  | some v => exact json_tracks h v path

theorem oneTextWithin_tracks (n : Nat) (h : s.Agrees t) (text path : String) :
    Tracks (oneTextWithin ds extras n s text path) (oneTextWithin ds extras n t text path) := by
  induction n generalizing s t with
  | zero => intro c hc; cases hc
  | succ n ih =>
    simp only [oneTextWithin, through]
    rcases deref_agrees ds maxHops h with ⟨e, hs, ht⟩ | ⟨s', t', hs, ht, hst⟩
    · rw [hs, ht]
      exact .of_isClean rfl
    rw [hs, ht]
    cases hst with
    | refl => exact fun c hc => ⟨c, hc, rfl⟩
    | enum hab => exact .of_isClean (by
        rw [Coerced.orRefuse_isClean, Coerced.orRefuse_isClean, listedText?_agrees hab])
    | union hms => exact .firstMatch (hms.imp fun m m' hm => ih hm)
    | array he => exact read_tracks (.array he) text path
    | object hk hschemas hp ha => exact read_tracks (.object hk hschemas hp ha) text path
    | intersection hms => exact read_tracks (.intersection hms) text path

theorem firstText_tracks (n : Nat) (h : s.Agrees t) (values : List String) (path : String) :
    Tracks
      (match values with
        | [] => some ⟨none, []⟩
        | first :: _ => oneTextWithin ds extras n s first path)
      (match values with
        | [] => some ⟨none, []⟩
        | first :: _ => oneTextWithin ds extras n t first path) := by
  cases values with
  | nil => exact .of_isClean rfl
  | cons first rest => exact oneTextWithin_tracks n h first path

theorem textWithin_tracks {delimiter : Option Char} {steps : Nat} (n : Nat) (h : s.Agrees t)
    (values : List String) (path : String) :
    Tracks (textWithin ds extras delimiter steps n s values path)
      (textWithin ds extras delimiter steps n t values path) := by
  induction n generalizing s t with
  | zero => intro c hc; cases hc
  | succ n ih =>
    simp only [textWithin, through]
    rcases deref_agrees ds maxHops h with ⟨e, hs, ht⟩ | ⟨s', t', hs, ht, hst⟩
    · rw [hs, ht]
      exact .of_isClean rfl
    rw [hs, ht]
    cases hst with
    | refl => exact fun c hc => ⟨c, hc, rfl⟩
    | enum hab => exact firstText_tracks steps (.enum hab) values path
    | union hms => exact .firstMatch (hms.imp fun m m' hm => ih hm)
    | object hk hschemas hp ha => exact firstText_tracks steps (.object hk hschemas hp ha) values path
    | intersection hms => exact firstText_tracks steps (.intersection hms) values path
    | array he =>
      intro c hc
      simp only [bind, pure, Option.bind_eq_some_iff, Option.some.injEq, texts_eq_mapM] at hc ⊢
      obtain ⟨cs, hcs, rfl⟩ := hc
      obtain ⟨cs', hcs', hclean⟩ := Tracks.mapM_of_forall₂
        (List.forall₂_same.mpr fun x _ => oneTextWithin_tracks steps he x.1 (index path x.2)) hcs
      exact ⟨_, ⟨cs', hcs', rfl⟩, Coerced.map_sequence_isClean _ _ hclean⟩

/-- Where coercion against a schema ends, it ends against any that agrees, and accepts or refuses
with it. -/
theorem Gives.agrees {i : Input} {path : String} {c : Coerced Typed}
    (hc : Gives ds extras ⟨s, i, path⟩ c) (h : s.Agrees t) :
    ∃ d, Gives ds extras ⟨t, i, path⟩ d ∧ c.isClean = d.isClean := by
  cases i with
  | json v =>
    obtain ⟨n, hn⟩ := hc
    obtain ⟨d, hd, hclean⟩ := jsonWithin_tracking n path path h (.refl v) c hn
    exact ⟨d, ⟨n, hd⟩, hclean⟩
  | text text =>
    obtain ⟨n, hn⟩ := hc
    obtain ⟨d, hd, hclean⟩ := oneTextWithin_tracks n h text path c hn
    exact ⟨d, ⟨n, hd⟩, hclean⟩
  | texts delimiter values =>
    obtain ⟨steps, n, hn⟩ := hc
    obtain ⟨d, hd, hclean⟩ := textWithin_tracks n h values path c hn
    exact ⟨d, ⟨steps, n, hd⟩, hclean⟩

end

end Coercion

end RouteContract

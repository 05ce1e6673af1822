import RouteContract.Coercion.Text
import RouteContract.Proofs.Coercion.Loops

/-!
# Coerced values conform to their schemas

Conformance describes a schema's values without the process that finds them:
neither texts, budgets nor error reports occur in it. A coerced value conforms
to the schema it was coerced against, whatever else the request holds.
-/

set_option autoImplicit false

namespace RouteContract

inductive Form where
  | json
  | text
deriving DecidableEq, Repr

def Primitive.Admits (form : Form) : Primitive → Typed → Prop
  | .string, .string _ => True
  | .number, .number _ => True
  | .integer, .integer n => Coercion.integer64? n = some n
  | .boolean, .boolean _ => True
  | .any, .any _ => form = .json
  | .any, .string _ => form = .text
  | .void, .null => True
  | .date, .date _ => True
  | .datetime, .datetime _ => True
  | .buffer, .bytes _ => True
  | .object, .any (.object _) => True
  | .null, .null => True
  | _, _ => False

def EnumValue.typed : EnumValue → Typed
  | .string s => .string s
  | .number x => Coercion.listedNumber x

def ObjectSchema.Declares (o : ObjectSchema Schema) (name : String) : Prop :=
  ∃ p, (name, p) ∈ o.properties

section

variable (ds : Definitions) (extras : Extras)

mutual

inductive Conforms : Form → Schema → Typed → Prop
  | primitive {form : Form} {kind : Primitive} {t : Typed} (h : kind.Admits form t) :
      Conforms form (.primitive kind) t
  | enum {form : Form} {values : List EnumValue} {v : EnumValue} (h : v ∈ values) :
      Conforms form (.enum values) v.typed
  | array {form : Form} {element : Schema} {ts : List Typed}
      (h : ∀ t ∈ ts, Conforms form element t) : Conforms form (.array element) (.array ts)
  /-- Nothing is missing that is required or has a default, and every field may be there. -/
  | object {o : ObjectSchema Schema} {fields : List (String × Typed)}
      (complete : ∀ name p, (name, p) ∈ o.properties → p.required ∨ p.default.isSome →
        name ∈ fields.map Prod.fst)
      (fit : ∀ name t, (name, t) ∈ fields → Fits o name t) :
      Conforms .json (.object o) (.object fields)
  | union {form : Form} {members : List Schema} {s : Schema} {t : Typed} (hs : s ∈ members)
      (h : Conforms form s t) : Conforms form (.union members) t
  /-- An intersection of objects has the values of the merged object. -/
  | intersection {members : List Schema} {os : List (ObjectSchema Schema)} {t : Typed}
      (ho : Coercion.objects ds members = .ok (some os))
      (h : Conforms .json (.object (os.foldl ObjectSchema.merge .empty)) t) :
      Conforms .json (.intersection members) t
  | reference {form : Form} {name : String} {d : Definition} {t : Typed}
      (hd : ds.find? name = some d) (h : Conforms form d.schema t) :
      Conforms form (.reference name) t
  /-- A text in place of a structure is read as JSON. -/
  | read {s : Schema} {t : Typed} (hs : s.isStructured) (h : Conforms .json s t) :
      Conforms .text s t

inductive Fits : ObjectSchema Schema → String → Typed → Prop
  | declared {o : ObjectSchema Schema} {name : String} {p : PropertySchema Schema} {t : Typed}
      (hp : (name, p) ∈ o.properties) (h : Conforms .json p.schema t) : Fits o name t
  | any {o : ObjectSchema Schema} {name : String} {v : Json} (hn : ¬ o.Declares name)
      (ha : o.additional = .any) : Fits o name (.any v)
  | schema {o : ObjectSchema Schema} {name : String} {s : Schema} {t : Typed}
      (hn : ¬ o.Declares name) (ha : o.additional = .schema s) (h : Conforms .json s t) :
      Fits o name t
  | kept {o : ObjectSchema Schema} {name : String} {v : Json} (hn : ¬ o.Declares name)
      (ha : o.additional = .implicit) (he : extras = .keep) : Fits o name (.any v)

end

end

/-- Every intersection in the schema and behind its references has only members that end in
objects. -/
def Schema.ObjectIntersections (ds : Definitions) (s : Schema) : Prop :=
  ∀ members, Reaches ds s (.intersection members) →
    ∃ os, Coercion.objects ds members = .ok (some os)

theorem Schema.ObjectIntersections.of_reaches {ds : Definitions} {s t : Schema}
    (h : s.ObjectIntersections ds) (hst : Reaches ds s t) : t.ObjectIntersections ds :=
  fun members hm => h members (hst.trans hm)

theorem Schema.ObjectIntersections.merged {ds : Definitions} {members : List Schema}
    {os : List (ObjectSchema Schema)} (h : (Schema.intersection members).ObjectIntersections ds)
    (ho : Coercion.objects ds members = .ok (some os)) :
    (Schema.object (os.foldl ObjectSchema.merge .empty)).ObjectIntersections ds := by
  intro inner hi
  rcases Coercion.merged_reaches ho hi with he | hi
  · cases he
  · exact h inner hi

namespace Coercion

theorem orRefuse_value {α : Type} {a : Option α} {b : α} {path : String} {complaint : Complaint}
    {raw : Json} (h : (Coerced.orRefuse a path complaint raw).value? = some b) : a = some b := by
  cases a with
  | none => simp [Coerced.orRefuse, Coerced.refuse] at h
  | some a => simpa [Coerced.orRefuse, Coerced.ok] using h

theorem integer64_idem {n m : Int} (h : integer64? n = some m) : integer64? m = some m := by
  unfold integer64? at h ⊢
  split at h
  · rename_i hn
    cases h
    exact if_pos hn
  · cases h

theorem integral_fits {x : Number.Binary64} {n : Int} (h : integral? x = some n) :
    integer64? n = some n := by
  obtain ⟨m, -, hm⟩ := Option.bind_eq_some_iff.mp h
  exact integer64_idem hm

theorem integerOfText_fits {cs : List Char} {n : Int} (h : integerOfText? cs = some n) :
    integer64? n = some n := by
  rcases Option.or_eq_some_iff.mp h with h | ⟨-, h⟩
  · obtain ⟨m, -, hm⟩ := Option.bind_eq_some_iff.mp h
    exact integer64_idem hm
  · obtain ⟨x, -, hx⟩ := Option.bind_eq_some_iff.mp h
    exact integral_fits hx

theorem integerOfJson_fits {v : Json} {n : Int} (h : integerOfJson? v = some n) :
    integer64? n = some n := by
  cases v with
  | integer m => exact integer64_idem h
  | float x => exact integral_fits h
  | _ => cases h

theorem textPrimitive_admits {kind : Primitive} {text path : String} {t : Typed}
    (h : (textPrimitive kind text path).value? = some t) : kind.Admits .text t := by
  cases kind <;> simp only [textPrimitive, date, datetime] at h
  case string | any | buffer | void => cases h; simp [Primitive.Admits]
  case number | boolean | date | datetime =>
    obtain ⟨x, -, rfl⟩ := Option.map_eq_some_iff.mp (orRefuse_value h)
    trivial
  case integer =>
    obtain ⟨n, hn, rfl⟩ := Option.map_eq_some_iff.mp (orRefuse_value h)
    exact integerOfText_fits hn
  case null =>
    split at h
    · cases h; trivial
    · cases h
  case object =>
    split at h
    · cases h; trivial
    · cases h

theorem jsonPrimitive_admits {kind : Primitive} {v : Json} {path : String} {t : Typed}
    (h : (jsonPrimitive kind v path).value? = some t) : kind.Admits .json t := by
  unfold jsonPrimitive at h
  split at h
  case h_1 | h_4 | h_7 | h_9 | h_10 | h_11 | h_12 => cases h; simp [Primitive.Admits]
  case h_2 | h_5 | h_6 | h_8 =>
    obtain ⟨x, -, rfl⟩ := Option.map_eq_some_iff.mp (orRefuse_value h)
    trivial
  case h_3 =>
    obtain ⟨n, hn, rfl⟩ := Option.map_eq_some_iff.mp (orRefuse_value h)
    exact integerOfJson_fits hn
  case h_13 => cases h

theorem listedText_typed {values : List EnumValue} {text : String} {t : Typed}
    (h : listedText? values text = some t) : ∃ v ∈ values, t = v.typed := by
  obtain ⟨v, hv, h⟩ := List.exists_of_findSome?_eq_some h
  refine ⟨v, hv, ?_⟩
  cases v with
  | string s =>
    by_cases hs : s = text <;> simp [hs] at h
    simp [EnumValue.typed, ← h, hs]
  | number x =>
    simp only [Option.ite_none_right_eq_some] at h
    exact (Option.some.inj h.2).symm

theorem listedJson_typed {values : List EnumValue} {raw : Json} {t : Typed}
    (h : listedJson? values raw = some t) : ∃ v ∈ values, t = v.typed := by
  obtain ⟨v, hv, h⟩ := List.exists_of_findSome?_eq_some h
  refine ⟨v, hv, ?_⟩
  cases v with
  | string s =>
    cases raw with
    | string r =>
      by_cases hs : s = r <;> simp [hs] at h
      simp [EnumValue.typed, ← h, hs]
    | _ => cases h
  | number x =>
    simp only [Option.ite_none_right_eq_some] at h
    exact (Option.some.inj h.2).symm

section

variable {ds : Definitions} {extras : Extras} {J : Schema → Json → String → Option (Coerced Typed)}

def Sound (ds : Definitions) (extras : Extras)
    (J : Schema → Json → String → Option (Coerced Typed)) : Prop :=
  ∀ ⦃s v path c t⦄, s.ObjectIntersections ds → J s v path = some c → c.value? = some t →
    Conforms ds extras .json s t

theorem Sound.property_fits (hJ : Sound ds extras J) {o : ObjectSchema Schema}
    (hs : (Schema.object o).ObjectIntersections ds) {name : String} {p : PropertySchema Schema}
    (hp : (name, p) ∈ o.properties) {given : Option Json} {path : String}
    {c : Coerced (Option (String × Typed))} (h : property J name p given path = some c)
    {k : String} {t : Typed} (hv : c.value? = some (some (k, t))) :
    k = name ∧ Fits ds extras o name t := by
  unfold property at h
  split at h
  · simp only [bind, pure, Option.bind_eq_some_iff, Option.some.injEq] at h
    obtain ⟨d, hd, rfl⟩ := h
    obtain ⟨u, hu, hku⟩ := Option.map_eq_some_iff.mp hv
    cases hku
    exact ⟨rfl, .declared hp (hJ (hs.of_reaches (.single (.property hp))) hd hu)⟩
  · cases h
    split at hv <;> cases hv

/-- A property without an entry is neither required nor has it a default. -/
theorem property_absent {name : String} {p : PropertySchema Schema} {given : Option Json}
    {path : String} {c : Coerced (Option (String × Typed))}
    (h : property J name p given path = some c) (hv : c.value? = some none) :
    given = none ∧ p.required = false ∧ p.default = none := by
  unfold property at h
  split at h
  · simp only [bind, pure, Option.bind_eq_some_iff, Option.some.injEq] at h
    obtain ⟨d, -, rfl⟩ := h
    obtain ⟨u, -, hu⟩ := Option.map_eq_some_iff.mp hv
    cases hu
  · rename_i hn
    cases h
    obtain ⟨hg, hd⟩ := Option.or_eq_none_iff.mp hn
    refine ⟨hg, ?_, hd⟩
    cases hr : p.required with
    | false => rfl
    | true =>
      rw [if_pos hr] at hv
      cases hv

theorem Sound.extra_fits (hJ : Sound ds extras J) {o : ObjectSchema Schema}
    (hs : (Schema.object o).ObjectIntersections ds) {key : String} {raw : Json} {path : String}
    (hn : ¬ o.Declares key) {c : Coerced (Option (String × Typed))}
    (h : extra J extras o.additional key raw path = some c)
    {k : String} {t : Typed} (hv : c.value? = some (some (k, t))) :
    k = key ∧ Fits ds extras o key t := by
  cases ha : o.additional with
  | any =>
    rw [ha] at h
    cases h
    cases hv
    exact ⟨rfl, .any hn ha⟩
  | schema s =>
    simp only [extra, ha, bind, pure, Option.bind_eq_some_iff, Option.some.injEq] at h
    obtain ⟨d, hd, rfl⟩ := h
    obtain ⟨u, hu, hku⟩ := Option.map_eq_some_iff.mp hv
    cases hku
    exact ⟨rfl, .schema hn ha (hJ (hs.of_reaches (.single (.additional ha))) hd hu)⟩
  | implicit =>
    rw [ha] at h
    cases h
    cases extras with
    | reject => cases hv
    | drop => cases hv
    | keep =>
      cases hv
      exact ⟨rfl, .kept hn ha rfl⟩

theorem declares_of_contains {o : ObjectSchema Schema} {name : String} :
    Entries.contains o.properties name = true ↔ o.Declares name :=
  Entries.find?_isSome_iff.trans Entries.mem_keys

theorem Sound.object_conforms (hJ : Sound ds extras J) {o : ObjectSchema Schema}
    (hs : (Schema.object o).ObjectIntersections ds) {fields : List (String × Json)} {path : String}
    {c : Coerced Typed} (h : object J extras o fields path = some c) {t : Typed}
    (hv : c.value? = some t) : Conforms ds extras .json (.object o) t := by
  simp only [object, bind, pure, Option.bind_eq_some_iff, Option.some.injEq] at h
  obtain ⟨ps, hps, rfl⟩ := h
  obtain ⟨es, hes, rfl⟩ := Option.map_eq_some_iff.mp hv
  obtain ⟨declared, undeclared, rfl, hd, hu⟩ := parts_eq_some hps
  have values := Coerced.sequence_value.mp hes
  refine .object ?_ ?_
  · intro name p hp hneeded
    obtain ⟨part, hpart, hprop⟩ := mem_of_forall₂_left hd hp
    obtain ⟨e, he, hvalue⟩ := mem_of_forall₂_left values (List.mem_append_left _ hpart)
    cases e with
    | none =>
      obtain ⟨-, hr, hdef⟩ : _ ∧ p.required = false ∧ p.default = none :=
        property_absent hprop hvalue
      simp [hr, hdef] at hneeded
    | some entry =>
      obtain ⟨k, u⟩ := entry
      obtain ⟨hk, -⟩ := hJ.property_fits hs hp hprop hvalue
      refine List.mem_map.mpr ⟨(k, u), ?_, hk⟩
      exact List.mem_filterMap.mpr ⟨_, he, rfl⟩
  · intro name u hmem
    obtain ⟨e, he, rfl⟩ := List.mem_filterMap.mp hmem
    obtain ⟨part, hpart, hvalue⟩ := mem_of_forall₂_right values he
    rcases List.mem_append.mp hpart with hpart | hpart
    · obtain ⟨x, hx, hprop⟩ := mem_of_forall₂_right hd hpart
      obtain ⟨hk, hfit⟩ := hJ.property_fits hs hx hprop hvalue
      exact hk ▸ hfit
    · obtain ⟨x, hx, hextra⟩ := mem_of_forall₂_right hu hpart
      have hn : ¬ o.Declares x.1 := by
        have hc := (List.mem_filter.mp hx).2
        rw [← declares_of_contains]
        simpa using hc
      obtain ⟨hk, hfit⟩ := hJ.extra_fits hs hn hextra hvalue
      exact hk ▸ hfit

theorem Sound.items_conform (hJ : Sound ds extras J) {element : Schema}
    (hs : (Schema.array element).ObjectIntersections ds) {path : String} {vs : List Json}
    {cs : List (Coerced Typed)} (h : items J element path 0 vs = some cs) {ts : List Typed}
    (hv : (Coerced.sequence cs).value? = some ts) :
    Conforms ds extras .json (.array element) (.array ts) := by
  rw [items_eq_mapM] at h
  refine .array fun t ht => ?_
  obtain ⟨c, hc, hvalue⟩ := mem_of_forall₂_right (Coerced.sequence_value.mp hv) ht
  obtain ⟨x, -, hx⟩ := mem_of_forall₂_right (mapM_eq_some_iff.mp h) hc
  exact hJ (hs.of_reaches (.single (.element element))) hx hvalue

/-- One step gives a conforming value when all nested coercions do. -/
theorem Sound.step_conforms (hJ : Sound ds extras J) {s : Schema} (hs : s.ObjectIntersections ds)
    {v : Json} {path : String} {c : Coerced Typed}
    (h : jsonStep J ds extras s v path = some c) {t : Typed} (hv : c.value? = some t) :
    Conforms ds extras .json s t := by
  cases s with
  | primitive kind =>
    cases h
    exact .primitive (jsonPrimitive_admits hv)
  | enum values =>
    cases h
    obtain ⟨v, hmem, rfl⟩ := listedJson_typed (orRefuse_value hv)
    exact .enum hmem
  | array element =>
    cases v with
    | array vs =>
      simp only [jsonStep, bind, pure, Option.bind_eq_some_iff, Option.some.injEq] at h
      obtain ⟨cs, hcs, rfl⟩ := h
      obtain ⟨ts, hts, rfl⟩ := Option.map_eq_some_iff.mp hv
      exact hJ.items_conform hs hcs hts
    | _ => cases h; cases hv
  | object o =>
    cases v with
    | object fields => exact hJ.object_conforms hs h hv
    | _ => cases h; cases hv
  | union members =>
    rcases firstMatch_eq_some h with ⟨before, s, after, d, rfl, -, hd, -, rfl⟩ | ⟨-, rfl⟩
    · have hmem : s ∈ before ++ s :: after := by simp
      exact .union hmem (hJ (hs.of_reaches (.single (.alternative hmem))) hd hv)
    · cases hv
  | intersection members =>
    obtain ⟨os, ho⟩ := hs members .refl
    simp only [jsonStep, intersection, ho] at h
    exact .intersection ho (hJ (hs.merged ho) h hv)
  | reference name => cases h; cases hv

theorem conforms_of_deref {form : Form} {n : Nat} {s s' : Schema} (h : deref ds n s = .ok s')
    {t : Typed} (ht : Conforms ds extras form s' t) : Conforms ds extras form s t := by
  induction n generalizing s with
  | zero => simp [deref] at h
  | succ n ih =>
    cases s with
    | reference name =>
      simp only [deref] at h
      cases hd : ds.find? name with
      | none => simp [hd] at h
      | some d => exact .reference hd (ih (by simpa [hd] using h))
    | _ => cases h; exact ht

/-- A value that comes through a chain of references conforms if the step at its end gives
conforming values. -/
theorem through_conforms {form : Form} {s : Schema} {path : String}
    {step : Schema → Option (Coerced Typed)} {c : Coerced Typed}
    (h : through ds s path step = some c) {t : Typed} (hv : c.value? = some t)
    (hstep : ∀ s', deref ds maxHops s = .ok s' → step s' = some c →
      Conforms ds extras form s' t) : Conforms ds extras form s t := by
  unfold through at h
  cases hd : deref ds maxHops s with
  | error e =>
    simp only [hd] at h
    cases h
    cases hv
  | ok s' =>
    simp only [hd] at h
    exact conforms_of_deref hd (hstep s' hd h)

theorem jsonWithin_sound (n : Nat) : Sound ds extras (jsonWithin ds extras n) := by
  induction n with
  | zero => intro s v path c t hs h; cases h
  | succ n ih =>
    intro s v path c t hs h hv
    exact through_conforms h hv fun s' hd hstep =>
      ih.step_conforms (hs.of_reaches (deref_reaches hd)) hstep hv

theorem json_sound : Sound ds extras (json ds extras) :=
  fun _ _ _ _ _ hs h hv => jsonWithin_sound _ hs h hv

/-- A text that is read as JSON. -/
theorem read_conforms {s : Schema} (hs : s.ObjectIntersections ds) (hstructured : s.isStructured)
    {text path : String} {c : Coerced Typed}
    (h : (match Json.parse? text with
      | some v => json ds extras s v path
      | none => some (Coerced.refuse path (.invalid (describe s)) (.string text))) = some c)
    {t : Typed} (hv : c.value? = some t) : Conforms ds extras .text s t := by
  split at h
  · exact .read hstructured (json_sound hs h hv)
  · cases h
    cases hv

theorem oneTextWithin_conforms {n : Nat} {s : Schema} (hs : s.ObjectIntersections ds)
    {text path : String} {c : Coerced Typed}
    (h : oneTextWithin ds extras n s text path = some c) {t : Typed} (hv : c.value? = some t) :
    Conforms ds extras .text s t := by
  induction n generalizing s text path c t with
  | zero => cases h
  | succ n ih =>
    apply through_conforms h hv
    intro s' hd hstep
    have hs' := hs.of_reaches (deref_reaches hd)
    cases s' with
    | primitive kind =>
      cases hstep
      exact .primitive (textPrimitive_admits hv)
    | enum values =>
      cases hstep
      obtain ⟨v, hmem, rfl⟩ := listedText_typed (orRefuse_value hv)
      exact .enum hmem
    | union members =>
      rcases firstMatch_eq_some hstep with ⟨before, s, after, d, rfl, -, hd, -, rfl⟩ | ⟨-, rfl⟩
      · have hmem : s ∈ before ++ s :: after := by simp
        exact .union hmem (ih (hs'.of_reaches (.single (.alternative hmem))) hd hv)
      · cases hv
    | array element => exact read_conforms hs' rfl hstep hv
    | object o => exact read_conforms hs' rfl hstep hv
    | intersection members => exact read_conforms hs' rfl hstep hv
    | reference name => exact absurd hd deref_ne_reference

theorem textWithin_conforms {delimiter : Option Char} {steps n : Nat} {s : Schema}
    (hs : s.ObjectIntersections ds) {values : List String} {path : String} {c : Coerced Typed}
    (h : textWithin ds extras delimiter steps n s values path = some c) {t : Typed}
    (hv : c.value? = some t) : Conforms ds extras .text s t := by
  induction n generalizing s path c t with
  | zero => cases h
  | succ n ih =>
    apply through_conforms h hv
    intro s' hd hstep
    have hs' := hs.of_reaches (deref_reaches hd)
    split at hstep
    · rename_i element
      simp only [bind, pure, Option.bind_eq_some_iff, Option.some.injEq] at hstep
      obtain ⟨cs, hcs, rfl⟩ := hstep
      obtain ⟨ts, hts, rfl⟩ := Option.map_eq_some_iff.mp hv
      rw [texts_eq_mapM] at hcs
      refine .array fun t ht => ?_
      obtain ⟨c, hc, hvalue⟩ := mem_of_forall₂_right (Coerced.sequence_value.mp hts) ht
      obtain ⟨x, -, hx⟩ := mem_of_forall₂_right (mapM_eq_some_iff.mp hcs) hc
      exact oneTextWithin_conforms (hs'.of_reaches (.single (.element element))) hx hvalue
    · rename_i members
      rcases firstMatch_eq_some hstep with ⟨before, s, after, d, rfl, -, hd, -, rfl⟩ | ⟨-, rfl⟩
      · have hmem : s ∈ before ++ s :: after := by simp
        exact .union hmem (ih (hs'.of_reaches (.single (.alternative hmem))) hd hv)
      · cases hv
    · cases values with
      | nil =>
        cases hstep
        cases hv
      | cons first rest => exact oneTextWithin_conforms hs' hstep hv

end

/-- Whatever coercion gives, from a JSON value or from texts, conforms to the schema. -/
theorem coerced_conforms {ds : Definitions} {s : Schema} (hs : s.ObjectIntersections ds)
    (extras : Extras) :
    (∀ (v : Json) (path : String) (c : Coerced Typed) (t : Typed),
        json ds extras s v path = some c → c.value? = some t → Conforms ds extras .json s t) ∧
      ∀ (delimiter : Option Char) (values : List String) (path : String) (c : Coerced Typed)
        (t : Typed), text ds extras delimiter s values path = some c → c.value? = some t →
        Conforms ds extras .text s t :=
  ⟨fun _ _ _ _ h hv => json_sound hs h hv, fun _ _ _ _ _ h hv => textWithin_conforms hs h hv⟩

def oneProperty (name : String) (p : PropertySchema Schema) (a : Additional Schema) : Schema :=
  .object ⟨[(name, p)], a⟩

def named : Schema := oneProperty "name" ⟨.primitive .string, true, none, none⟩ .implicit

def sized : Schema := oneProperty "size" ⟨.primitive .integer, false, some (.integer 1), none⟩ .any

def labels : Definitions := [("Named", ⟨named, none, ""⟩), ("Sized", ⟨sized, none, ""⟩)]

def label : Schema := .intersection [.reference "Named", .reference "Sized"]

theorem label_object_intersections : label.ObjectIntersections labels := by
  intro members h
  -- No step leaves these schemas, and the label is the only intersection among them.
  have closed : ∀ s, Schema.Reaches labels label s → s ∈ [label, .reference "Named",
      .reference "Sized", named, sized, .primitive .string, .primitive .integer] := by
    intro s hs
    induction hs with
    | refl => simp
    | tail _ hp ih =>
      simp only [List.mem_cons, List.not_mem_nil, or_false] at ih
      rcases ih with rfl | rfl | rfl | rfl | rfl | rfl | rfl
      · cases hp with
        | constraint h =>
          simp only [List.mem_cons, List.not_mem_nil, or_false] at h
          rcases h with rfl | rfl <;> simp
      · cases hp with
        | definition h => cases h; simp
      · cases hp with
        | definition h => cases h; simp
      · cases hp with
        | property h => cases h with
          | head => simp
          | tail _ h => cases h
        | additional h => cases h
      · cases hp with
        | property h => cases h with
          | head => simp
          | tail _ h => cases h
        | additional h => cases h
      · cases hp
      · cases hp
  have hm := closed _ h
  simp [label, named, sized, oneProperty] at hm
  subst hm
  exact ⟨_, rfl⟩

/-- A value that is coerced against two objects at once. -/
theorem label_conforms :
    label.ObjectIntersections labels ∧
      Conforms labels .drop .json label
        (.object [("name", .string "a"), ("size", .integer 1), ("color", .any (.bool true))]) :=
  ⟨label_object_intersections, (coerced_conforms label_object_intersections .drop).1
    (.object [("name", .string "a"), ("color", .bool true)]) "" ⟨some (.object [("name", .string "a"),
      ("size", .integer 1), ("color", .any (.bool true))]), []⟩ _ rfl rfl⟩

end Coercion

end RouteContract

import RouteContract.Proofs.Calendar
import RouteContract.Proofs.Coercion.Budgets
import RouteContract.Proofs.Coercion.Conformance

/-!
# Coerced values are coerced to themselves

The JSON form of a coerced value shows no kind: bytes become an array, listed
numbers integers, defaults fields, and dates texts. Where coercion tries no
alternatives, the schema alone tells how the form was made, and coercing it again
gives the same value. Nothing is assumed of dates: what is written of them is read
back.
-/

set_option autoImplicit false

namespace RouteContract

open Number (Binary64)

/-- Nothing behind the schema is tried: it leads to no union, and to no intersection with a member
that ends in anything but an object. Properties are told apart by their names. -/
structure Schema.Direct (ds : Definitions) (s : Schema) : Prop where
  no_union : ∀ members, ¬ Reaches ds s (.union members)
  only_objects : ∀ members, Reaches ds s (.intersection members) → ∀ m ∈ members, ∀ t,
    Coercion.deref ds Coercion.maxHops m = .ok t → ∃ o, t = .object o
  nodup : ∀ o, Reaches ds s (.object o) → (Entries.keys o.properties).Nodup

namespace Schema.Direct

variable {ds : Definitions} {s t : Schema}

theorem of_reaches (h : s.Direct ds) (hst : Reaches ds s t) : t.Direct ds where
  no_union members hm := h.no_union members (hst.trans hm)
  only_objects members hm := h.only_objects members (hst.trans hm)
  nodup o ho := h.nodup o (hst.trans ho)

theorem merged {members : List Schema} {os : List (ObjectSchema Schema)}
    (h : (Schema.intersection members).Direct ds)
    (ho : Coercion.objects ds members = .ok (some os)) :
    (Schema.object (os.foldl ObjectSchema.merge .empty)).Direct ds where
  no_union ss hss := by
    rcases Coercion.merged_reaches ho hss with he | hss
    · cases he
    · exact h.no_union ss hss
  only_objects ss hss := by
    rcases Coercion.merged_reaches ho hss with he | hss
    · cases he
    · exact h.only_objects ss hss
  nodup o hr := by
    rcases Coercion.merged_reaches ho hr with he | hr
    · cases he
      exact ObjectSchema.nodup_merged os
    · exact h.nodup o hr

end Schema.Direct

def Schema.isDirect (ds : Definitions) : Schema → Bool
  | .union _ => false
  | .intersection members => members.all fun m =>
    match Coercion.deref ds Coercion.maxHops m with
    | .ok (.object _) | .error _ => true
    | .ok _ => false
  | .object o => (Entries.keys o.properties).Nodup
  | _ => true

/-- It is enough to look at the nodes of the schema and of all definitions. -/
theorem Schema.direct_of_nodes {ds : Definitions} {s : Schema}
    (h : (Coercion.plainNodes ds s).all (isDirect ds)) : s.Direct ds := by
  have hnode : ∀ t, Reaches ds s t → t.isDirect ds = true := by
    intro t ht
    refine List.all_eq_true.mp h t (Coercion.plainNodes_reaches ?_ ht)
    exact List.mem_append_left _ (Schema.tree.mem_nodes_self s)
  constructor
  case no_union =>
    intro members hm
    cases hnode _ hm
  case only_objects =>
    intro members hm m hmem t ht
    have hmember := List.all_eq_true.mp (hnode _ hm) m hmem
    rw [ht] at hmember
    cases t with
    | object o => exact ⟨o, rfl⟩
    | _ => cases hmember
  case nodup =>
    intro o ho
    exact of_decide_eq_true (hnode _ ho)

namespace Typed

theorem fieldsToJson_eq (fields : List (String × Typed)) :
    fieldsToJson fields = Entries.mapValues toJson fields := by
  induction fields with
  | nil => rfl
  | cons x fields ih => rw [fieldsToJson, ih]; rfl

end Typed

namespace Coercion

theorem integral_toInt {x : Binary64} {n : Int} (h : integral? x = some n) : x.toInt? = some n := by
  obtain ⟨m, hm, hfits⟩ := Option.bind_eq_some_iff.mp h
  obtain ⟨-, heq⟩ := Option.ite_none_right_eq_some.mp hfits
  rw [hm, Option.some.inj heq]

/-- A listed number that became an integer still has the value of the number. -/
theorem listedNumber_toFloat (x : Binary64) :
    ∃ y, (listedNumber x).toJson.toFloat? = some y ∧ y.same x := by
  unfold listedNumber
  cases hx : integral? x with
  | none => exact ⟨x, rfl, x.same_self⟩
  | some n => exact Binary64.ofInt?_of_toInt? (integral_toInt hx)

/-- A number is compared with the listed numbers only. -/
theorem listedJson_of_number {values : List EnumValue} {v : Json} {x : Binary64}
    (h : v.toFloat? = some x) :
    listedJson? values v = values.findSome? fun
      | .string _ => none
      | .number y => if x.same y then some (listedNumber y) else none := by
  unfold listedJson?
  refine congrArg (List.findSome? · values) (funext fun listed => ?_)
  cases listed with
  | string s =>
    cases v with
    | string r => cases h
    | _ => rfl
  | number y => simp [h]

theorem listedJson_again {values : List EnumValue} {v : Json} {t : Typed}
    (h : listedJson? values v = some t) : listedJson? values t.toJson = some t := by
  obtain ⟨listed, -, hlisted⟩ := List.exists_of_findSome?_eq_some h
  cases listed with
  | string s =>
    cases v with
    | string r =>
      obtain ⟨rfl, ht⟩ := Option.ite_none_right_eq_some.mp hlisted
      cases ht
      exact h
    | _ => cases hlisted
  | number z =>
    simp only [Option.ite_none_right_eq_some, Option.any_eq_true] at hlisted
    obtain ⟨⟨x, hx, hxz⟩, ht⟩ := hlisted
    cases ht
    obtain ⟨y, hy, hyz⟩ := listedNumber_toFloat z
    have hsame : ∀ w, y.same w = x.same w := by
      intro w
      rw [y.same_symm, x.same_symm, Binary64.same_congr hyz, Binary64.same_congr hxz]
    rw [listedJson_of_number hy, ← h, listedJson_of_number hx]
    simp only [hsame]

theorem byte_back (b : UInt8) : byte? (.integer b.toNat) = some b := by
  have hlt : (b.toNat : Int) < 256 := by exact_mod_cast b.toNat_lt
  simp [byte?, hlt]

theorem bytes_back (bs : List UInt8) :
    (bs.map fun b => Json.integer b.toNat).mapM byte? = some bs := by
  rw [mapM_eq_some_iff, List.forall₂_map_left_iff, List.forall₂_same]
  exact fun b _ => byte_back b

theorem buffer_again (bs : List UInt8) (path : String) :
    jsonPrimitive .buffer (Typed.bytes bs).toJson path = .ok (.bytes bs) := by
  simp only [jsonPrimitive, Typed.toJson, bytes_back, Option.map_some, Coerced.orRefuse]

/-- A primitive takes the JSON form of its values. -/
theorem jsonPrimitive_again {kind : Primitive} {v : Json} {path : String} {t : Typed}
    (h : (jsonPrimitive kind v path).value? = some t) (path' : String) :
    jsonPrimitive kind t.toJson path' = .ok t := by
  unfold jsonPrimitive at h
  split at h
  case h_1 | h_4 | h_9 | h_10 | h_11 | h_12 => cases h; rfl
  case h_2 =>
    obtain ⟨x, -, rfl⟩ := Option.map_eq_some_iff.mp (orRefuse_value h)
    rfl
  case h_3 =>
    obtain ⟨n, hn, rfl⟩ := Option.map_eq_some_iff.mp (orRefuse_value h)
    simp [jsonPrimitive, Typed.toJson, integerOfJson?, integerOfJson_fits hn, Coerced.orRefuse]
  case h_5 =>
    obtain ⟨d, hd, rfl⟩ := Option.map_eq_some_iff.mp (orRefuse_value h)
    simp [jsonPrimitive, Typed.toJson, date, Calendar.Date.reread hd, Coerced.orRefuse]
  case h_6 =>
    obtain ⟨d, hd, rfl⟩ := Option.map_eq_some_iff.mp (orRefuse_value h)
    simp [jsonPrimitive, Typed.toJson, datetime, Calendar.Timestamp.reread hd, Coerced.orRefuse]
  case h_7 =>
    cases h
    exact buffer_again _ path'
  case h_8 =>
    obtain ⟨bs, -, rfl⟩ := Option.map_eq_some_iff.mp (orRefuse_value h)
    exact buffer_again bs path'
  case h_13 => cases h

section

variable {ds : Definitions} {extras : Extras} {J : Schema → Json → String → Option (Coerced Typed)}

def Rereads (ds : Definitions) (J : Schema → Json → String → Option (Coerced Typed)) : Prop :=
  ∀ ⦃s v path c t⦄, s.Direct ds → J s v path = some c → c.value? = some t →
    ∀ path', J s t.toJson path' = some (.ok t)

theorem items_again {element : Schema} {ts : List Typed} {path : String}
    (h : ∀ t ∈ ts, ∀ path, J element t.toJson path = some (.ok t)) (i : Nat) :
    items J element path i (Typed.itemsToJson ts) = some (ts.map Coerced.ok) := by
  induction ts generalizing i with
  | nil => rfl
  | cons t ts ih =>
    simp only [Typed.itemsToJson, items, h t List.mem_cons_self,
      ih fun u hu => h u (List.mem_cons_of_mem t hu), Option.bind_eq_bind, Option.bind_some,
      List.map_cons, pure]

theorem Rereads.array_again (hJ : Rereads ds J) {element : Schema}
    (hs : (Schema.array element).Direct ds) {vs : List Json} {path : String}
    {cs : List (Coerced Typed)} (h : items J element path 0 vs = some cs) {ts : List Typed}
    (hv : (Coerced.sequence cs).value? = some ts) (path' : String) :
    items J element path' 0 (Typed.itemsToJson ts) = some (ts.map Coerced.ok) := by
  rw [items_eq_mapM] at h
  refine items_again (fun t ht => ?_) 0
  obtain ⟨c, hc, hvalue⟩ := mem_of_forall₂_right (Coerced.sequence_value.mp hv) ht
  obtain ⟨x, -, hx⟩ := mem_of_forall₂_right (mapM_eq_some_iff.mp h) hc
  exact hJ (hs.of_reaches (.single (.element element))) hx hvalue

/-- A property takes its own entry again, and stays absent without one. -/
theorem Rereads.property_again (hJ : Rereads ds J) {name : String} {p : PropertySchema Schema}
    (hs : p.schema.Direct ds) {given : Option Json} {path : String}
    {c : Coerced (Option (String × Typed))} (h : property J name p given path = some c)
    {e : Option (String × Typed)} (hv : c.value? = some e) (path' : String) :
    property J name p ((e.map Prod.snd).map Typed.toJson) path' = some (.ok e) := by
  cases e with
  | none =>
    obtain ⟨-, hrequired, hdefault⟩ := property_absent h hv
    simp [property, hrequired, hdefault]
  | some entry =>
    obtain ⟨k, t⟩ := entry
    obtain rfl : k = name := property_key h hv
    rcases property_eq_some h with ⟨v, d, -, hd, rfl⟩ | ⟨-, hn, -⟩
    · obtain ⟨u, hu, he⟩ := Option.map_eq_some_iff.mp hv
      cases he
      simp [property, hJ hs hd hu, Coerced.map, Coerced.ok]
    · rw [hv] at hn
      cases hn

theorem Rereads.extra_again (hJ : Rereads ds J) {a : Additional Schema}
    (hs : ∀ s, a = .schema s → s.Direct ds) {key : String} {raw : Json} {path : String}
    {c : Coerced (Option (String × Typed))} (h : extra J extras a key raw path = some c)
    {x : String × Typed} (hv : c.value? = some (some x)) (path' : String) :
    extra J extras a x.1 x.2.toJson path' = some (.ok (some x)) := by
  obtain ⟨k, t⟩ := x
  obtain rfl : k = key := extra_key h hv
  cases a with
  | any =>
    cases h
    cases hv
    rfl
  | schema s =>
    simp only [extra, bind, pure, Option.bind_eq_some_iff, Option.some.injEq] at h
    obtain ⟨d, hd, rfl⟩ := h
    obtain ⟨u, hu, he⟩ := Option.map_eq_some_iff.mp hv
    cases he
    simp [extra, hJ (hs s rfl) hd hu, Coerced.map, Coerced.ok]
  | implicit =>
    cases h
    cases extras with
    | reject => cases hv
    | drop => cases hv
    | keep =>
      cases hv
      rfl

section

variable {o : ObjectSchema Schema} {fields : List (String × Json)} {path : String}
  {es : List (Option (String × Typed))}

/-- Whatever else stands behind them, the properties of an object take their entries again. -/
theorem Rereads.properties_again (hJ : Rereads ds J) (hs : (Schema.object o).Direct ds)
    {declared : List (Coerced (Option (String × Typed)))}
    (hd : List.Forall₂ (fun x c => property J x.1 x.2 (Entries.find? fields x.1) path = some c)
      o.properties declared)
    (hv : List.Forall₂ (fun c e => c.value? = some e) declared es) {us : Entries String Typed}
    (hus : ∀ y ∈ us, Entries.contains o.properties y.1 = false) (path' : String) :
    (o.properties.mapM fun x => property J x.1 x.2
      (Entries.find? (Typed.fieldsToJson (es.filterMap id ++ us)) x.1) path') =
        some (es.map Coerced.ok) := by
  have hnamed : List.Forall₂ (fun x e => ∀ y ∈ e, y.1 = x.1) o.properties es :=
    forall₂_comp hd hv fun x c e hx hc y hy => property_key hx (hc.trans (congrArg some hy))
  have hfound : List.Forall₂ (fun x e =>
      Entries.find? (Typed.fieldsToJson (es.filterMap id ++ us)) x.1 =
        (e.map Prod.snd).map Typed.toJson) o.properties es := by
    refine forall₂_imp_left (Entries.find?_of_named (hs.nodup o .refl) hnamed) fun x hx e he => ?_
    rw [Typed.fieldsToJson_eq, Entries.find?_mapValues,
      Entries.find?_append_of_outside hus _ hx, he]
  have htaken : List.Forall₂ (fun x e => property J x.1 x.2 ((e.map Prod.snd).map Typed.toJson)
      path' = some (.ok e)) o.properties es := by
    have hmem := (List.forall₂_and_left _ _).mpr ⟨fun x hx => hx, hd⟩
    refine forall₂_comp hmem hv fun x c e ⟨hx, hxc⟩ hce => ?_
    exact hJ.property_again (hs.of_reaches (.single (.property hx))) hxc hce path'
  rw [mapM_eq_some_iff, List.forall₂_map_right_iff]
  exact hfound.mp (fun x e he hx => he ▸ hx) htaken

/-- An entry that no property has is undeclared, and taken again. -/
theorem Rereads.extras_again (hJ : Rereads ds J) (hs : (Schema.object o).Direct ds)
    {undeclared : List (Coerced (Option (String × Typed)))}
    (hu : List.Forall₂ (fun x c => extra J extras o.additional x.1 x.2 path = some c)
      (fields.filter fun x => !Entries.contains o.properties x.1) undeclared)
    (hv : List.Forall₂ (fun c e => c.value? = some e) undeclared es) {y : String × Typed}
    (hy : y ∈ es.filterMap id) (path' : String) :
    Entries.contains o.properties y.1 = false ∧
      extra J extras o.additional y.1 y.2.toJson path' = some (.ok (some y)) := by
  obtain ⟨e, he, rfl⟩ := List.mem_filterMap.mp hy
  obtain ⟨c, hc, hvalue⟩ := mem_of_forall₂_right hv he
  obtain ⟨x, hx, hxc⟩ := mem_of_forall₂_right hu hc
  have hkey : y.1 = x.1 := extra_key hxc hvalue
  refine ⟨by simpa [hkey] using (List.mem_filter.mp hx).2, ?_⟩
  exact hJ.extra_again (fun s ha => hs.of_reaches (.single (.additional ha))) hxc hvalue path'

/-- The fields of a coerced object are its parts again. -/
theorem Rereads.parts_again (hJ : Rereads ds J) (hs : (Schema.object o).Direct ds)
    {ps : List (Coerced (Option (String × Typed)))} (h : parts J extras o fields path = some ps)
    (hv : List.Forall₂ (fun c e => c.value? = some e) ps es) (path' : String) :
    ∃ es' : List (Option (String × Typed)), es'.filterMap id = es.filterMap id ∧
      parts J extras o (Typed.fieldsToJson (es.filterMap id)) path' =
        some (es'.map Coerced.ok) := by
  obtain ⟨declared, undeclared, rfl, hd, hu⟩ := parts_eq_some h
  obtain ⟨eds, eus, rfl, hed, heu⟩ := forall₂_append_left.mp hv
  have hus : ∀ y ∈ eus.filterMap id, Entries.contains o.properties y.1 = false :=
    fun y hy => (hJ.extras_again hs hu heu hy path').1
  have hds : ∀ y ∈ eds.filterMap id, Entries.contains o.properties y.1 = true := by
    intro y hy
    obtain ⟨e, he, rfl⟩ := List.mem_filterMap.mp hy
    obtain ⟨c, hc, hvalue⟩ := mem_of_forall₂_right hed he
    obtain ⟨x, hx, hxc⟩ := mem_of_forall₂_right hd hc
    exact property_key hxc hvalue ▸ Entries.contains_of_mem hx
  have hproperties := hJ.properties_again hs hd hed hus path'
  have hothers := Entries.filter_outside hus hds Typed.toJson
  have hextras : (Entries.mapValues Typed.toJson (eus.filterMap id)).mapM
      (fun x => extra J extras o.additional x.1 x.2 path') =
        some (((eus.filterMap id).map some).map Coerced.ok) := by
    rw [mapM_eq_some_iff, Entries.mapValues, List.map_map, List.forall₂_map_left_iff,
      List.forall₂_map_right_iff, List.forall₂_same]
    exact fun y hy => (hJ.extras_again hs hu heu hy path').2
  refine ⟨eds ++ (eus.filterMap id).map some, by simp [List.filterMap_append], ?_⟩
  rw [← Typed.fieldsToJson_eq] at hothers
  simp only [parts, List.filterMap_append, hproperties, hothers, hextras, Option.bind_eq_bind,
    Option.bind_some, List.map_append, pure]

end

theorem Rereads.object_again (hJ : Rereads ds J) {o : ObjectSchema Schema}
    (hs : (Schema.object o).Direct ds) {fields : List (String × Json)} {path : String}
    {c : Coerced Typed} (h : object J extras o fields path = some c) {t : Typed}
    (hv : c.value? = some t) (path' : String) :
    jsonStep J ds extras (.object o) t.toJson path' = some (.ok t) := by
  simp only [object, bind, pure, Option.bind_eq_some_iff, Option.some.injEq] at h
  obtain ⟨ps, hps, rfl⟩ := h
  obtain ⟨es, hes, rfl⟩ := Option.map_eq_some_iff.mp hv
  obtain ⟨es', hsame, hagain⟩ := hJ.parts_again hs hps (Coerced.sequence_value.mp hes) path'
  simp only [Typed.toJson, jsonStep, object, hagain, Coerced.sequence_ok, Option.bind_eq_bind,
    Option.bind_some, pure]
  rw [Coerced.map, Coerced.ok, Option.map_some, hsame]
  rfl

/-- One step takes the form of its value again when all nested coercions do. -/
theorem Rereads.step_again (hJ : Rereads ds J) {s : Schema} (hs : s.Direct ds) {v : Json}
    {path : String} {c : Coerced Typed} (h : jsonStep J ds extras s v path = some c) {t : Typed}
    (hv : c.value? = some t) (path' : String) :
    jsonStep J ds extras s t.toJson path' = some (.ok t) := by
  cases s with
  | primitive kind =>
    cases h
    exact congrArg some (jsonPrimitive_again hv path')
  | enum values =>
    cases h
    simp only [jsonStep, listedJson_again (orRefuse_value hv), Coerced.orRefuse]
  | array element =>
    cases v with
    | array vs =>
      simp only [jsonStep, bind, pure, Option.bind_eq_some_iff, Option.some.injEq] at h
      obtain ⟨cs, hcs, rfl⟩ := h
      obtain ⟨ts, hts, rfl⟩ := Option.map_eq_some_iff.mp hv
      simp only [Typed.toJson, jsonStep, hJ.array_again hs hcs hts path', Coerced.sequence_ok,
        Option.bind_eq_bind, Option.bind_some, pure]
      rfl
    | _ => cases h; cases hv
  | object o =>
    cases v with
    | object fields => exact hJ.object_again hs h hv path'
    | _ => cases h; cases hv
  | union members => exact absurd .refl (hs.no_union members)
  | intersection members =>
    simp only [jsonStep, intersection] at h ⊢
    cases ho : objects ds members with
    | error complaint =>
      rw [ho] at h
      cases h
      cases hv
    | ok os? =>
      rw [ho] at h
      cases os? with
      | none => exact absurd ho (objects_ne_none (hs.only_objects members .refl))
      | some os => exact hJ (hs.merged ho) h hv path'
  | reference name =>
    cases h
    cases hv

/-- Nested coercions that are granted the same number of steps take each value again. -/
theorem jsonWithin_again (n : Nat) : Rereads ds (jsonWithin ds extras n) := by
  induction n with
  | zero =>
    intro s v path c t hs h
    cases h
  | succ n ih =>
    intro s v path c t hs h hv path'
    simp only [jsonWithin, through] at h ⊢
    cases hd : deref ds maxHops s with
    | error complaint =>
      rw [hd] at h
      cases h
      cases hv
    | ok s' =>
      rw [hd] at h
      exact ih.step_again (hs.of_reaches (deref_reaches hd)) h hv path'

/-- The JSON form of a coerced value is coerced to the value, without a report. -/
theorem revalidated {s : Schema} (hs : s.Direct ds) (extras : Extras) {v : Json} {path : String}
    {c : Coerced Typed} (h : json ds extras s v path = some c) {t : Typed}
    (hv : c.value? = some t) (path' : String) :
    json ds extras s t.toJson path' = some (.ok t) :=
  gives_json_iff.mp ⟨_, jsonWithin_again _ hs h hv path'⟩

end

def two : Binary64 := ⟨false, 2 ^ 52, -51, by decide⟩

def stamps : Definitions :=
  [("Stamp", ⟨.object ⟨[("at", ⟨.primitive .datetime, true, none, none⟩),
    ("level", ⟨.enum [.string "low", .number two], false, some (.float two), none⟩)], .implicit⟩,
    none, "m::Stamp"⟩)]

def stamped : Schema := .intersection [.reference "Stamp",
  .object ⟨[("day", ⟨.primitive .date, false, none, none⟩),
    ("body", ⟨.primitive .buffer, true, none, none⟩)], .schema (.primitive .integer)⟩]

theorem stamped_direct : stamped.Direct stamps := Schema.direct_of_nodes (by decide +kernel)

def stampedForm : Json := .object [("body", .string "é"), ("n", .float two),
  ("at", .string " 2024-02-29t10:00:00.50+00:00")]

def stampedValue : Typed := .object [("at", .datetime ⟨⟨2024, 2, 29⟩, 10, 0, 0, 500000000, 0⟩),
  ("level", .integer 2), ("body", .bytes [195, 169]), ("n", .integer 2)]

theorem stamped_json : json stamps .drop stamped stampedForm "" = some (.ok stampedValue) := rfl

/-- A time in another spelling, a listed number by default, and a text that became bytes. -/
theorem stamped_revalidated :
    stamped.Direct stamps ∧ json stamps .drop stamped stampedForm "" = some (.ok stampedValue) ∧
      stampedValue.toJson = .object [("at", .string "2024-02-29T10:00:00.500Z"),
        ("level", .integer 2), ("body", .array [.integer 195, .integer 169]), ("n", .integer 2)] ∧
      json stamps .drop stamped stampedValue.toJson "" = some (.ok stampedValue) :=
  ⟨stamped_direct, stamped_json, rfl, revalidated stamped_direct .drop stamped_json rfl ""⟩

end Coercion

end RouteContract

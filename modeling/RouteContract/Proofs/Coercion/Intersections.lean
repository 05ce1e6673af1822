import RouteContract.Proofs.Coercion.Conformance
import RouteContract.Proofs.Coercion.Reading
import RouteContract.Proofs.Schema.Merging

/-!
# Intersections of objects

An intersection of objects is coerced as the merged object, in a value and in a
text. An entry of the result is a key of the value or a property that falls back
on its default, and the default is that of the last member with the property:
where this one has none, the default of an earlier member is not applied.
-/

set_option autoImplicit false

namespace RouteContract

open Entries (keys)

def Definitions.object? (ds : Definitions) : Schema → Option (ObjectSchema Schema)
  | .object o => some o
  | .reference name =>
    match ds.find? name with
    | some ⟨.object o, _, _⟩ => some o
    | _ => none
  | _ => none

namespace Coercion

section

variable {ds : Definitions} {extras : Extras} {ss : List Schema} {os : List (ObjectSchema Schema)}

theorem deref_of_object? {s : Schema} {o : ObjectSchema Schema} (h : ds.object? s = some o) :
    deref ds maxHops s = .ok (.object o) := by
  cases s with
  | object o' => cases h; rfl
  | reference name =>
    simp only [Definitions.object?] at h
    split at h
    · rename_i hfind
      cases h
      simp [deref, maxHops, hfind]
    · cases h
  | _ => cases h

theorem objects_of_object? (h : List.Forall₂ (fun s o => ds.object? s = some o) ss os) :
    objects ds ss = .ok (some os) := by
  induction h with
  | nil => rfl
  | cons hs _ ih =>
    simp only [objects, deref_of_object? hs, ih, bind, Except.bind, pure, Except.pure,
      Option.map_some]

theorem jsonWithin_intersection (h : objects ds ss = .ok (some os)) (n : Nat) (v : Json)
    (path : String) : jsonWithin ds extras (n + 1) (.intersection ss) v path =
      jsonWithin ds extras n (.object (os.foldl ObjectSchema.merge .empty)) v path := by
  show intersection (jsonWithin ds extras n) ds ss v path = _
  simp only [intersection, h]

/-- Also the budgets of both are adequate, so one of them ends where the other does. -/
theorem json_intersection (h : objects ds ss = .ok (some os)) (v : Json) (path : String) :
    json ds extras (.intersection ss) v path =
      json ds extras (.object (os.foldl ObjectSchema.merge .empty)) v path := by
  cases hm : json ds extras (.object (os.foldl ObjectSchema.merge .empty)) v path with
  | some c => exact json_of_within ((jsonWithin_intersection h _ v path).trans hm)
  | none =>
    cases hi : json ds extras (.intersection ss) v path with
    | none => rfl
    | some c =>
      rw [json, budget, jsonWithin_intersection h] at hi
      rw [json_of_within hi] at hm
      cases hm

theorem text_intersection (h : objects ds ss = .ok (some os)) (delimiter : Option Char)
    (values : List String) (path : String) :
    text ds extras delimiter (.intersection ss) values path =
      text ds extras delimiter (.object (os.foldl ObjectSchema.merge .empty)) values path := by
  cases values with
  | nil => rfl
  | cons first rest =>
    simp only [text, textWithin, oneTextWithin, through, deref, maxHops, describe,
      json_intersection h]

end

section

variable (ds : Definitions) (extras : Extras)

def Accepts (s : Schema) (v : Json) (t : Typed) : Prop :=
  ∃ n path c, jsonWithin ds extras n s v path = some c ∧ c.value? = some t

inductive Enters (o : ObjectSchema Schema) (given : List (String × Json)) (key : String) : Prop
  | declared {p : PropertySchema Schema} (hp : (key, p) ∈ o.properties)
      (hv : key ∈ keys given ∨ p.default.isSome) : Enters o given key
  | undeclared (hn : key ∉ keys o.properties) (hv : key ∈ keys given)
      (ha : o.additional ≠ .implicit ∨ extras = .keep) : Enters o given key

end

section

variable {ds : Definitions} {extras : Extras} {J : Schema → Json → String → Option (Coerced Typed)}
  {o : ObjectSchema Schema} {given : List (String × Json)} {path key : String}

theorem given_isSome_iff {d : Option Json} :
    (∃ v, (Entries.find? given key).or d = some v) ↔ key ∈ keys given ∨ d.isSome := by
  rw [← Option.isSome_iff_exists, Option.isSome_or, Bool.or_eq_true, Entries.find?_isSome_iff]

theorem property_entry {p : PropertySchema Schema} {c : Coerced (Option (String × Typed))}
    {e : Option (String × Typed)}
    (h : property J key p (Entries.find? given key) path = some c) (hc : c.value? = some e) :
    (∃ t, e = some (key, t)) ↔ key ∈ keys given ∨ p.default.isSome := by
  rw [← given_isSome_iff]
  rcases property_eq_some h with ⟨v, d, hv, -, rfl⟩ | ⟨hv, hn, -⟩
  · obtain ⟨t, -, rfl⟩ := Option.map_eq_some_iff.mp hc
    exact iff_of_true ⟨t, rfl⟩ ⟨v, hv⟩
  · rw [hc] at hn
    obtain rfl : e = none := hn
    simp [hv]

theorem extra_entry {a : Additional Schema} {raw : Json} {c : Coerced (Option (String × Typed))}
    {e : Option (String × Typed)} (h : extra J extras a key raw path = some c)
    (hc : c.value? = some e) :
    (∃ t, e = some (key, t)) ↔ a ≠ .implicit ∨ extras = .keep := by
  cases a with
  | any => cases h; cases hc; simp
  | schema s =>
    simp only [extra, bind, pure, Option.bind_eq_some_iff, Option.some.injEq] at h
    obtain ⟨d, -, rfl⟩ := h
    obtain ⟨t, -, rfl⟩ := Option.map_eq_some_iff.mp hc
    simp
  | implicit =>
    cases h
    cases extras with
    | reject => cases hc
    | drop => cases hc; simp
    | keep => cases hc; simp

/-- The keys of a coerced object. -/
theorem object_keys {c : Coerced Typed} {t : Typed} (h : object J extras o given path = some c)
    (hc : c.value? = some t) :
    ∃ es, t = .object es ∧ ∀ key, key ∈ keys es ↔ Enters extras o given key := by
  simp only [object, bind, pure, Option.bind_eq_some_iff, Option.some.injEq] at h
  obtain ⟨ps, hps, rfl⟩ := h
  obtain ⟨es, hes, rfl⟩ := Option.map_eq_some_iff.mp hc
  obtain ⟨declared, undeclared, rfl, hd, hu⟩ := parts_eq_some hps
  have values := Coerced.sequence_value.mp hes
  have hentry : ∀ key, key ∈ keys (es.filterMap id) ↔ ∃ e ∈ es, ∃ t, e = some (key, t) := by
    intro key
    simp [Entries.mem_keys]
  refine ⟨_, rfl, fun key => (hentry key).trans ⟨?_, ?_⟩⟩
  · rintro ⟨e, he, t, rfl⟩
    obtain ⟨part, hpart, hv⟩ := mem_of_forall₂_right values he
    rcases List.mem_append.mp hpart with hpart | hpart
    · obtain ⟨⟨name, p⟩, hp, hproperty⟩ := mem_of_forall₂_right hd hpart
      obtain rfl : key = name := property_key hproperty hv
      exact .declared hp ((property_entry hproperty hv).mp ⟨t, rfl⟩)
    · obtain ⟨⟨name, raw⟩, hx, hextra⟩ := mem_of_forall₂_right hu hpart
      obtain rfl : key = name := extra_key hextra hv
      obtain ⟨hx, hn⟩ := List.mem_filter.mp hx
      refine .undeclared ?_ (Entries.mem_keys.mpr ⟨raw, hx⟩)
        ((extra_entry hextra hv).mp ⟨t, rfl⟩)
      rw [← Entries.find?_isSome_iff]
      simpa [Entries.contains] using hn
  · rintro (⟨hp, hv⟩ | ⟨hn, hv, ha⟩)
    · obtain ⟨part, hpart, hproperty⟩ := mem_of_forall₂_left hd hp
      obtain ⟨e, he, hvalue⟩ := mem_of_forall₂_left values (List.mem_append_left _ hpart)
      exact ⟨e, he, (property_entry hproperty hvalue).mpr hv⟩
    · obtain ⟨raw, hx⟩ := Entries.mem_keys.mp hv
      have hcontains : Entries.contains o.properties key = false := by
        rw [Entries.contains, Entries.find?_eq_none_iff.mpr hn]
        rfl
      have hx' : (key, raw) ∈ given.filter fun x => !Entries.contains o.properties x.1 :=
        List.mem_filter.mpr ⟨hx, by simp [hcontains]⟩
      obtain ⟨part, hpart, hextra⟩ := mem_of_forall₂_left hu hx'
      obtain ⟨e, he, hvalue⟩ := mem_of_forall₂_left values (List.mem_append_right _ hpart)
      exact ⟨e, he, (extra_entry hextra hvalue).mpr ha⟩

theorem Accepts.unique {s : Schema} {v : Json} {t u : Typed} (ht : Accepts ds extras s v t)
    (hu : Accepts ds extras s v u) : t = u := by
  obtain ⟨n, path, c, hc, hct⟩ := ht
  obtain ⟨m, path', d, hd, hdu⟩ := hu
  have hvalue := (jsonWithin_alike hc hd).value
  rw [hct, hdu] at hvalue
  exact Option.some.inj hvalue

theorem Accepts.keys {s : Schema} {t : Typed} (h : Accepts ds extras s (.object given) t)
    (hs : deref ds maxHops s = .ok (.object o)) :
    ∃ es, t = .object es ∧ ∀ key, key ∈ Entries.keys es ↔ Enters extras o given key := by
  obtain ⟨n, path, c, hc, ht⟩ := h
  cases n with
  | zero => cases hc
  | succ n =>
    simp only [jsonWithin, through, hs, jsonStep] at hc
    exact object_keys hc ht

end

section

variable {extras : Extras} {os : List (ObjectSchema Schema)} {given : List (String × Json)}
  {key : String}

/-- What enters beside one member enters beside all of them if it is given, and otherwise if the
last version of the property has a default. -/
theorem enters_merged_iff {o : ObjectSchema Schema} (ho : o ∈ os) (h : Enters extras o given key) :
    Enters extras (os.foldl ObjectSchema.merge .empty) given key ↔
      key ∈ keys given ∨ ∃ p, ObjectSchema.latest? os key = some p ∧ p.default.isSome := by
  constructor
  · rintro (⟨hp, hv | hv⟩ | ⟨-, hv, -⟩)
    · exact .inl hv
    · obtain ⟨q, hq, rfl⟩ := ObjectSchema.mem_merged.mp hp
      exact .inr ⟨q, hq, hv⟩
    · exact .inl hv
  · rintro (hv | ⟨p, hp, hv⟩)
    · by_cases hn : key ∈ keys (os.foldl ObjectSchema.merge .empty).properties
      · obtain ⟨p, hp⟩ := Entries.mem_keys.mp hn
        exact .declared hp (.inl hv)
      · refine .undeclared hn hv ?_
        cases h with
        | declared hp _ =>
          have hlatest := ObjectSchema.latest?_isSome_iff.mpr ⟨o, ho, Entries.mem_keys.mpr ⟨_, hp⟩⟩
          obtain ⟨q, hq⟩ := Option.isSome_iff_exists.mp hlatest
          exact absurd (Entries.mem_keys.mpr ⟨_, ObjectSchema.mem_merged.mpr ⟨q, hq, rfl⟩⟩) hn
        | undeclared _ _ ha =>
          exact ha.imp (fun ha hm => ha (ObjectSchema.merged_implicit_iff.mp hm o ho)) id
    · exact .declared (ObjectSchema.mem_merged.mpr ⟨p, hp, rfl⟩) (.inr hv)

end

section

variable {ds : Definitions} {extras : Extras} {ss : List Schema} {given : List (String × Json)}
  {t : Typed}

theorem Accepts.merged {os : List (ObjectSchema Schema)}
    (h : Accepts ds extras (.intersection ss) (.object given) t)
    (ho : objects ds ss = .ok (some os)) :
    Accepts ds extras (.object (os.foldl ObjectSchema.merge .empty)) (.object given) t := by
  obtain ⟨n, path, c, hc, ht⟩ := h
  cases n with
  | zero => cases hc
  | succ n => exact ⟨n, path, c, (jsonWithin_intersection ho n _ path).symm.trans hc, ht⟩

/-- Where not all members are objects each of them accepts the value, and the last gives the
result. -/
theorem Accepts.last {v : Json} (h : Accepts ds extras (.intersection ss) v t)
    (ho : objects ds ss = .ok none) {m : Schema} (hm : ss.getLast? = some m) :
    Accepts ds extras m v t := by
  obtain ⟨n, path, c, hc, ht⟩ := h
  cases n with
  | zero => cases hc
  | succ n =>
    have hstep : intersection (jsonWithin ds extras n) ds ss v path = some c := hc
    simp only [intersection, ho, bind, pure, Option.bind_eq_some_iff, Option.some.injEq] at hstep
    obtain ⟨cs, hcs, rfl⟩ := hstep
    obtain ⟨ts, hts, ht⟩ := Option.bind_eq_some_iff.mp ht
    have hlast : ∃ d, cs.getLast? = some d := by
      rw [← Option.isSome_iff_exists, List.getLast?_isSome]
      rintro rfl
      cases hts
      cases ht
    obtain ⟨d, hd⟩ := hlast
    exact ⟨n, path, d, getLast?_of_forall₂ (mapM_eq_some_iff.mp hcs) hm hd,
      getLast?_of_forall₂ (Coerced.sequence_value.mp hts) hd ht⟩

/-- Where all members are objects, so is what an intersection accepts, and an entry that a member
gives is kept if the value has its key or the last version of the property has a default. An
earlier default gives way to a last version without one. Of other intersections the last member
loses no entry. -/
theorem intersection_fields (h : Accepts ds extras (.intersection ss) (.object given) t)
    {m : Schema} (hm : m ∈ ss) {fs : List (String × Typed)}
    (hfs : Accepts ds extras m (.object given) (.object fs)) :
    (∀ os, objects ds ss = .ok (some os) → ∃ es, t = .object es ∧ ∀ key ∈ keys fs,
      (key ∈ keys es ↔
        key ∈ keys given ∨ ∃ p, ObjectSchema.latest? os key = some p ∧ p.default.isSome)) ∧
    (objects ds ss = .ok none → ss.getLast? = some m →
      ∃ es, t = .object es ∧ keys fs ⊆ keys es) := by
  constructor
  · intro os ho
    obtain ⟨es, rfl, hes⟩ := (h.merged ho).keys rfl
    refine ⟨es, rfl, fun key hkey => ?_⟩
    obtain ⟨o, hmem, hderef⟩ := mem_of_forall₂_left (objects_eq_some ho) hm
    obtain ⟨fs', hfields, hentries⟩ := hfs.keys hderef
    cases hfields
    exact (hes key).trans (enters_merged_iff hmem ((hentries key).mp hkey))
  · intro ho hlast
    exact ⟨fs, (h.last ho hlast).unique hfs, List.Subset.refl _⟩

end

namespace Sample

def sizedByDefault : Schema :=
  oneProperty "size" ⟨.primitive .integer, false, some (.integer 1), none⟩ .implicit

def sizedByValue : Schema := oneProperty "size" ⟨.primitive .integer, false, none, none⟩ .implicit

/-- The earlier member alone gives an entry that the intersection does not give. -/
theorem overridden_default_lost :
    sizedByDefault ∈ [sizedByDefault, sizedByValue] ∧
      json [] .drop (.intersection [sizedByDefault, sizedByValue]) (.object []) "" =
        some (.ok (.object [])) ∧
      json [] .drop sizedByDefault (.object []) "" =
        some (.ok (.object [("size", .integer 1)])) ∧
      "size" ∈ keys [("size", Typed.integer 1)] ∧ "size" ∉ keys ([] : List (String × Typed)) :=
  ⟨by simp, rfl, rfl, by decide, by decide⟩

/-- In the other order the default is that of the last version. -/
theorem last_default_kept :
    Accepts [] .drop (.intersection [sizedByValue, sizedByDefault]) (.object [])
        (.object [("size", .integer 1)]) ∧
      Accepts [] .drop sizedByDefault (.object []) (.object [("size", .integer 1)]) ∧
      ∃ es, Typed.object [("size", .integer 1)] = .object es ∧ ∀ key ∈ ["size"],
        (key ∈ keys es ↔ key ∈ keys ([] : List (String × Json)) ∨
          ∃ p, ObjectSchema.latest?
            [⟨[("size", ⟨.primitive .integer, false, none, none⟩)], .implicit⟩,
              ⟨[("size", ⟨.primitive .integer, false, some (.integer 1), none⟩)], .implicit⟩] key =
                some p ∧ p.default.isSome) := by
  have hboth : Accepts [] .drop (.intersection [sizedByValue, sizedByDefault]) (.object [])
      (.object [("size", .integer 1)]) := ⟨5, "", .ok _, rfl, rfl⟩
  have hmember : Accepts [] .drop sizedByDefault (.object []) (.object [("size", .integer 1)]) :=
    ⟨5, "", .ok _, rfl, rfl⟩
  exact ⟨hboth, hmember, (intersection_fields hboth (by simp) hmember).1 _ rfl⟩

end Sample

end Coercion

end RouteContract

import Mathlib.Data.List.Nodup
import RouteContract.Proofs.Coercion.Intersections
import RouteContract.Proofs.Coercion.Places

/-!
# Intersections as conjunctions

Objects without a common property that leave open what is undeclared split a
value among them. An object with such a table of properties depends on the fields
it declares only: where undeclared fields are dropped each member may be given the
whole value, and where they are refused its own fields. It is not assumed that
the coercions end; that is part of what is accepted.
-/

set_option autoImplicit false

namespace RouteContract

open Entries (keys)

def ObjectSchema.ownFields (o : ObjectSchema Schema) (fields : List (String × Json)) :
    List (String × Json) :=
  fields.filter fun x => Entries.contains o.properties x.1

namespace ObjectSchema

variable {o : ObjectSchema Schema} {os : List (ObjectSchema Schema)}
  {fields : List (String × Json)} {key : String}

theorem contains_iff : Entries.contains o.properties key ↔ key ∈ keys o.properties :=
  Entries.find?_isSome_iff

theorem mem_keys_versions : key ∈ keys (versions os) ↔ ∃ o ∈ os, key ∈ keys o.properties := by
  simp only [Entries.mem_keys, versions, List.mem_flatMap]
  constructor
  · rintro ⟨p, o, ho, hp⟩
    exact ⟨o, ho, p, hp⟩
  · rintro ⟨o, ho, p, hp⟩
    exact ⟨p, o, ho, hp⟩

theorem find?_ownFields (h : key ∈ keys o.properties) :
    Entries.find? (o.ownFields fields) key = Entries.find? fields key := by
  induction fields with
  | nil => rfl
  | cons x fields ih =>
    obtain ⟨k, v⟩ := x
    by_cases hk : k = key
    · subst hk
      simp [ownFields, contains_iff.mpr h, Entries.find?]
    · unfold ownFields at ih ⊢
      by_cases hc : Entries.contains o.properties k <;> simp [hc, Entries.find?, hk, ih]

theorem keys_ownFields (h : key ∈ keys (o.ownFields fields)) : key ∈ keys o.properties := by
  obtain ⟨v, hv⟩ := Entries.mem_keys.mp h
  exact contains_iff.mp (List.mem_filter.mp hv).2

/-- Properties of new names are appended as they are. -/
theorem foldl_overlay_of_nodup {xs table : Entries String (PropertySchema Schema)}
    (h : (keys (table ++ xs)).Nodup) : xs.foldl overlay table = table ++ xs := by
  induction xs generalizing table with
  | nil => simp
  | cons x xs ih =>
    have hnew : x.1 ∉ keys table := by
      intro hmem
      have hnodup : (keys table ++ keys (x :: xs)).Nodup := by simpa [keys] using h
      exact List.disjoint_of_nodup_append hnodup hmem (by simp [keys])
    have hoverlay : overlay table x = table ++ [x] := by
      rw [overlay, Entries.find?_eq_none_iff.mpr hnew, Entries.insert_of_not_mem hnew]
      simp
    rw [List.foldl_cons, hoverlay, ih (by simpa using h), List.append_assoc]
    rfl

theorem merged_of_nodup (h : (keys (versions os)).Nodup) :
    (os.foldl merge .empty).properties = versions os := by
  rw [foldl_merge_properties, foldl_overlay_of_nodup (by simpa [ObjectSchema.empty] using h)]
  rfl

end ObjectSchema

namespace Coercion

inductive Fills (ds : Definitions) (extras : Extras) (fields : List (String × Json)) :
    String × PropertySchema Schema → Option (String × Typed) → Prop
  | entry {name : String} {p : PropertySchema Schema} {v : Json} {t : Typed}
      (hv : (Entries.find? fields name).or p.default = some v)
      (ht : Accepts ds extras p.schema v t) : Fills ds extras fields (name, p) (some (name, t))
  | absent {name : String} {p : PropertySchema Schema}
      (hv : (Entries.find? fields name).or p.default = none) (hr : p.required = false) :
      Fills ds extras fields (name, p) none

def Gathers (ds : Definitions) (extras : Extras) (fields : List (String × Json))
    (ps : List (String × PropertySchema Schema)) (entries : List (String × Typed)) : Prop :=
  ∃ es, List.Forall₂ (Fills ds extras fields) ps es ∧ entries = es.filterMap id

section

variable {ds : Definitions} {extras : Extras} {fields : List (String × Json)}
  {x : String × PropertySchema Schema} {e : Option (String × Typed)} {o : ObjectSchema Schema}
  {path : String} {n : Nat}

theorem fills_of_property {c : Coerced (Option (String × Typed))}
    (h : property (jsonWithin ds extras n) x.1 x.2 (Entries.find? fields x.1) path = some c)
    (hc : c.value? = some e) : Fills ds extras fields x e := by
  obtain ⟨name, p⟩ := x
  rcases property_eq_some h with ⟨v, d, hv, hd, rfl⟩ | ⟨hv, hjoin, hreports⟩
  · obtain ⟨t, ht, rfl⟩ := Option.map_eq_some_iff.mp hc
    exact .entry hv ⟨n, _, d, hd, ht⟩
  · rw [hc] at hjoin
    obtain rfl : e = none := hjoin
    refine .absent hv ?_
    cases hr : p.required with
    | false => rfl
    | true =>
      have hmissing : some ⟨none, [(child path name, ⟨.missing name, none⟩)]⟩ = some c := by
        simpa [property, hv, hr] using h
      cases hmissing
      cases hc

theorem property_of_fills (h : Fills ds extras fields x e) (path : String) :
    ∃ N, ∀ n, N ≤ n → ∃ c,
      property (jsonWithin ds extras n) x.1 x.2 (Entries.find? fields x.1) path = some c ∧
        c.value? = some e := by
  cases h with
  | @entry name p v t hv ht =>
    obtain ⟨N, path', c, hc, hct⟩ := ht
    refine ⟨N, fun n hn => ?_⟩
    obtain ⟨d, hd, hcd⟩ := jsonWithin_extends hn p.schema v path' (child path name) c hc
    have hdt : d.value? = some t := hcd.value.symm.trans hct
    exact ⟨d.map fun t => some (name, t), by simp [property, hv, hd], by simp [Coerced.map, hdt]⟩
  | absent hv hr => exact ⟨0, fun n _ => ⟨.ok none, by simp [property, hv, hr], rfl⟩⟩

theorem properties_of_fill {ps : List (String × PropertySchema Schema)}
    {es : List (Option (String × Typed))} (h : List.Forall₂ (Fills ds extras fields) ps es)
    (path : String) : ∃ N, ∀ n, N ≤ n → ∃ cs,
      (ps.mapM fun x =>
        property (jsonWithin ds extras n) x.1 x.2 (Entries.find? fields x.1) path) = some cs ∧
      List.Forall₂ (fun c e => c.value? = some e) cs es := by
  induction h with
  | nil => exact ⟨0, fun _ _ => ⟨[], rfl, .nil⟩⟩
  | cons hx _ ih =>
    obtain ⟨N, hN⟩ := property_of_fills hx path
    obtain ⟨M, hM⟩ := ih
    refine ⟨max N M, fun n hn => ?_⟩
    obtain ⟨c, hc, hvalue⟩ := hN n (by omega)
    obtain ⟨cs, hcs, hvalues⟩ := hM n (by omega)
    exact ⟨c :: cs, by simp [hc, hcs], .cons hvalue hvalues⟩

/-- Where what is undeclared is left to a policy that keeps nothing, it has no entry. -/
theorem extra_none (hkeep : extras ≠ .keep) {key : String} {v : Json}
    {J : Schema → Json → String → Option (Coerced Typed)} {c : Coerced (Option (String × Typed))}
    (h : extra J extras .implicit key v path = some c) (hc : c.value? = some e) :
    e = none ∧ extras ≠ .reject := by
  cases h
  cases extras with
  | reject => cases hc
  | drop =>
    cases hc
    exact ⟨rfl, nofun⟩
  | keep => exact absurd rfl hkeep

/-- Without reject an undeclared field is dropped, and with it there must be none. -/
theorem extras_pass (hopen : o.additional = .implicit) (hkeep : extras ≠ .keep)
    (hclosed : extras = .reject → ∀ key ∈ keys fields, key ∈ keys o.properties)
    (J : Schema → Json → String → Option (Coerced Typed)) (path : String) :
    ∃ us, ((fields.filter fun x => !Entries.contains o.properties x.1).mapM fun x =>
        extra J extras o.additional x.1 x.2 path) = some us ∧
      ∃ rest, List.Forall₂ (fun c e => c.value? = some e) us rest ∧ ∀ e ∈ rest, e = none := by
  have hextra : ∀ x ∈ fields.filter fun x => !Entries.contains o.properties x.1,
      extra J extras o.additional x.1 x.2 path = some (.ok none) := by
    intro x hx
    obtain ⟨hmem, hnot⟩ := List.mem_filter.mp hx
    rw [hopen]
    cases extras with
    | reject =>
      have hkey := hclosed rfl x.1 (Entries.mem_keys.mpr ⟨x.2, hmem⟩)
      rw [ObjectSchema.contains_iff.mpr hkey] at hnot
      cases hnot
    | drop => rfl
    | keep => exact absurd rfl hkeep
  revert hextra
  generalize (fields.filter fun x => !Entries.contains o.properties x.1) = xs
  intro hextra
  refine ⟨xs.map fun _ => .ok none, mapM_eq_some_iff.mpr ?_, xs.map fun _ => none, ?_, by simp⟩
  · exact List.forall₂_map_right_iff.mpr (List.forall₂_same.mpr hextra)
  · exact List.forall₂_map_left_iff.mpr (List.forall₂_map_right_iff.mpr
      (List.forall₂_same.mpr fun _ _ => rfl))

/-- An object that leaves open what is undeclared is coerced property by property. Other fields are
passed over, or there must be none. -/
theorem accepts_object_iff (hopen : o.additional = .implicit) (hkeep : extras ≠ .keep) {t : Typed} :
    Accepts ds extras (.object o) (.object fields) t ↔
      (extras = .reject → ∀ key ∈ keys fields, key ∈ keys o.properties) ∧
      ∃ entries, Gathers ds extras fields o.properties entries ∧ t = .object entries := by
  constructor
  · rintro ⟨n, path, c, hc, ht⟩
    obtain ⟨n, ps, hps, rfl⟩ := parts_of_gives (s := .object o) rfl ⟨n, hc⟩
    obtain ⟨entries, hentries, rfl⟩ := Option.map_eq_some_iff.mp ht
    obtain ⟨declared, undeclared, rfl, hdeclared, hundeclared⟩ := parts_eq_some hps
    obtain ⟨es, rest, rfl, hes, hrest⟩ := forall₂_append_left.mp (Coerced.sequence_value.mp hentries)
    have hextra : ∀ e ∈ rest, e = none ∧ extras ≠ .reject := by
      intro e he
      obtain ⟨c, hc, hvalue⟩ := mem_of_forall₂_right hrest he
      obtain ⟨y, -, hy⟩ := mem_of_forall₂_right hundeclared hc
      rw [hopen] at hy
      exact extra_none hkeep hy hvalue
    refine ⟨fun hreject key hkey => ?_, _, ⟨es, ?_, rfl⟩, ?_⟩
    · by_contra hnot
      obtain ⟨v, hv⟩ := Entries.mem_keys.mp hkey
      have hfalse : Entries.contains o.properties key = false := by
        simpa using mt ObjectSchema.contains_iff.mp hnot
      obtain ⟨c, hc, -⟩ := mem_of_forall₂_left hundeclared
        (List.mem_filter.mpr ⟨hv, by simp [hfalse]⟩)
      obtain ⟨e, he, -⟩ := mem_of_forall₂_left hrest hc
      exact (hextra e he).2 hreject
    · exact forall₂_comp hdeclared hes fun x c e hx he => fills_of_property hx he
    · have hnone : rest.filterMap id = [] := by
        rw [List.filterMap_eq_nil_iff]
        exact fun e he => (hextra e he).1
      rw [List.filterMap_append, hnone, List.append_nil]
  · rintro ⟨hclosed, _, ⟨es, hes, rfl⟩, rfl⟩
    obtain ⟨N, hN⟩ := properties_of_fill hes ""
    obtain ⟨cs, hcs, hvalues⟩ := hN N (Nat.le_refl N)
    obtain ⟨us, hus, rest, hrest, hnone⟩ :=
      extras_pass hopen hkeep hclosed (jsonWithin ds extras N) ""
    have hobject : object (jsonWithin ds extras N) extras o fields "" =
        some ((Coerced.sequence (cs ++ us)).map fun es => .object (es.filterMap id)) := by
      simp only [object, parts, hcs, hus, bind, pure, Option.bind_some]
    have hvalue := Coerced.sequence_value.mpr (List.rel_append hvalues hrest)
    refine ⟨N + 1, "", _, hobject, ?_⟩
    simpa [Coerced.map, hvalue] using hnone

theorem gathers_versions {os : List (ObjectSchema Schema)} {entries : List (String × Typed)} :
    Gathers ds extras fields (ObjectSchema.versions os) entries ↔
      ∃ parts, List.Forall₂ (fun o part => Gathers ds extras fields o.properties part) os parts ∧
        entries = parts.flatten := by
  induction os generalizing entries with
  | nil => simp [Gathers, ObjectSchema.versions]
  | cons o os ih =>
    unfold ObjectSchema.versions at ih ⊢
    rw [List.flatMap_cons]
    constructor
    · rintro ⟨es, hes, rfl⟩
      obtain ⟨first, rest, rfl, hfirst, hrest⟩ := forall₂_append_left.mp hes
      obtain ⟨parts, hparts, hflat⟩ := ih.mp ⟨rest, hrest, rfl⟩
      refine ⟨first.filterMap id :: parts, .cons ⟨first, hfirst, rfl⟩ hparts, ?_⟩
      rw [List.filterMap_append, List.flatten_cons, hflat]
    · rintro ⟨parts, hparts, rfl⟩
      obtain ⟨_, parts, ⟨first, hfirst, rfl⟩, hrest, rfl⟩ := List.forall₂_cons_left_iff.mp hparts
      obtain ⟨rest, hrest, hflat⟩ := ih.mpr ⟨parts, hrest, rfl⟩
      refine ⟨first ++ rest, List.rel_append hfirst hrest, ?_⟩
      rw [List.filterMap_append, List.flatten_cons, hflat]

/-- The own fields of an object are all that its properties look at. -/
theorem gathers_ownFields {entries : List (String × Typed)} :
    Gathers ds extras (o.ownFields fields) o.properties entries ↔
      Gathers ds extras fields o.properties entries := by
  have hfills : ∀ x ∈ o.properties, ∀ e, Fills ds extras (o.ownFields fields) x e ↔
      Fills ds extras fields x e := by
    rintro ⟨name, p⟩ hx e
    have hfind : Entries.find? (o.ownFields fields) name = Entries.find? fields name :=
      ObjectSchema.find?_ownFields (Entries.mem_keys.mpr ⟨p, hx⟩)
    constructor
    · rintro (⟨hv, ht⟩ | ⟨hv, hr⟩)
      · exact .entry (hfind ▸ hv) ht
      · exact .absent (hfind ▸ hv) hr
    · rintro (⟨hv, ht⟩ | ⟨hv, hr⟩)
      · exact .entry (hfind.symm ▸ hv) ht
      · exact .absent (hfind.symm ▸ hv) hr
  simp only [Gathers, forall₂_congr_left hfills]

theorem Accepts.of_deref {s u : Schema} {v : Json} {t : Typed} (hs : deref ds maxHops s = .ok u) :
    Accepts ds extras s v t ↔ Accepts ds extras u v t := by
  have hu : deref ds maxHops u = .ok u := by
    cases u with
    | reference name => exact absurd hs deref_ne_reference
    | _ => rfl
  have hwithin : ∀ n path, jsonWithin ds extras n s v path = jsonWithin ds extras n u v path := by
    intro n path
    cases n with
    | zero => rfl
    | succ n => simp only [jsonWithin, through, hs, hu]
  simp only [Accepts, hwithin]

end

/-- Schemas that lead to these objects. What is undeclared is left open by all of them, and no name
is declared twice, by one or by two of them. -/
structure Separate (ds : Definitions) (ss : List Schema) (os : List (ObjectSchema Schema)) :
    Prop where
  leads : List.Forall₂ (fun s o => deref ds maxHops s = .ok (.object o)) ss os
  distinct : (keys (ObjectSchema.versions os)).Nodup
  opened : ∀ o ∈ os, o.additional = .implicit

section

variable {ds : Definitions} {ss : List Schema} {os : List (ObjectSchema Schema)}
  {extras : Extras} {fields : List (String × Json)} {t : Typed}

theorem objects_of_deref (h : List.Forall₂ (fun s o => deref ds maxHops s = .ok (.object o)) ss os) :
    objects ds ss = .ok (some os) := by
  induction h with
  | nil => rfl
  | cons hs _ ih =>
    simp only [objects, hs, ih, bind, Except.bind, pure, Except.pure, Option.map_some]

theorem Separate.accepts_merged_iff (h : Separate ds ss os) {v : Json} :
    Accepts ds extras (.intersection ss) v t ↔
      Accepts ds extras (.object (os.foldl ObjectSchema.merge .empty)) v t := by
  have hobjects := objects_of_deref h.leads
  constructor
  · rintro ⟨n, path, c, hc, ht⟩
    cases n with
    | zero => cases hc
    | succ n => exact ⟨n, path, c, (jsonWithin_intersection hobjects n v path).symm.trans hc, ht⟩
  · rintro ⟨n, path, c, hc, ht⟩
    exact ⟨n + 1, path, c, (jsonWithin_intersection hobjects n v path).trans hc, ht⟩

/-- The entries of an object are those of all members, one member after the other. -/
theorem Separate.accepts_iff (h : Separate ds ss os) (hkeep : extras ≠ .keep) :
    Accepts ds extras (.intersection ss) (.object fields) t ↔
      (extras = .reject → ∀ key ∈ keys fields, ∃ o ∈ os, key ∈ keys o.properties) ∧
      ∃ parts, List.Forall₂ (fun o part => Gathers ds extras fields o.properties part) os parts ∧
        t = .object parts.flatten := by
  rw [h.accepts_merged_iff, accepts_object_iff (ObjectSchema.merged_implicit_iff.mpr h.opened) hkeep,
    ObjectSchema.merged_of_nodup h.distinct]
  simp only [gathers_versions, ObjectSchema.mem_keys_versions]
  refine and_congr_right fun _ => ⟨?_, ?_⟩
  · rintro ⟨_, ⟨parts, hparts, rfl⟩, rfl⟩
    exact ⟨parts, hparts, rfl⟩
  · rintro ⟨parts, hparts, rfl⟩
    exact ⟨_, ⟨parts, hparts, rfl⟩, rfl⟩

/-- What is no object is refused. -/
theorem Accepts.given {o : ObjectSchema Schema} {v : Json} (h : Accepts ds extras (.object o) v t) :
    ∃ fields, v = .object fields := by
  obtain ⟨n, path, c, hc, ht⟩ := h
  cases n with
  | zero => cases hc
  | succ n =>
    cases v with
    | object fields => exact ⟨fields, rfl⟩
    | _ =>
      cases hc
      cases ht

theorem Separate.members (h : Separate ds ss os) : List.Forall₂
    (fun s o => deref ds maxHops s = .ok (.object o) ∧ o.additional = .implicit ∧ o ∈ os) ss os := by
  have hopened : ∀ o ∈ os, o.additional = .implicit ∧ o ∈ os := fun o ho => ⟨h.opened o ho, ho⟩
  exact ((List.forall₂_and_left _ _).mpr ⟨hopened, h.leads.flip⟩).flip.imp fun _ _ => And.symm

/-- Where undeclared fields are dropped a member gives the entries of its properties. -/
theorem accepts_member_iff {s : Schema} {o : ObjectSchema Schema}
    (hs : deref ds maxHops s = .ok (.object o)) (hopen : o.additional = .implicit) :
    Accepts ds .drop s (.object fields) t ↔
      ∃ part, Gathers ds .drop fields o.properties part ∧ t = .object part := by
  rw [Accepts.of_deref hs, accepts_object_iff hopen (by decide)]
  exact and_iff_right nofun

/-- Where undeclared fields are refused a member is given its own ones. -/
theorem accepts_ownFields_iff {s : Schema} {o : ObjectSchema Schema}
    (hs : deref ds maxHops s = .ok (.object o)) (hopen : o.additional = .implicit) :
    (∃ t, Accepts ds .reject s (.object (o.ownFields fields)) t) ↔
      ∃ part, Gathers ds .reject fields o.properties part := by
  simp only [Accepts.of_deref hs, accepts_object_iff hopen (show Extras.reject ≠ .keep by decide),
    gathers_ownFields]
  constructor
  · rintro ⟨_, -, part, hpart, -⟩
    exact ⟨part, hpart⟩
  · rintro ⟨part, hpart⟩
    exact ⟨_, fun _ key => ObjectSchema.keys_ownFields, part, hpart, rfl⟩

/-- Where undeclared fields are dropped, the object of an intersection is the union of those that the
members give for the same value. -/
theorem Separate.dropping (h : Separate ds ss os) (hne : ss ≠ []) {v : Json} :
    Accepts ds .drop (.intersection ss) v t ↔
      ∃ parts, List.Forall₂ (fun s part => Accepts ds .drop s v (.object part)) ss parts ∧
        t = .object parts.flatten := by
  constructor
  · intro haccepts
    obtain ⟨fields, rfl⟩ := (h.accepts_merged_iff.mp haccepts).given
    obtain ⟨-, parts, hparts, rfl⟩ := (h.accepts_iff (by decide)).mp haccepts
    refine ⟨parts, forall₂_comp h.members hparts ?_, rfl⟩
    exact fun s o part hs hpart => (accepts_member_iff hs.1 hs.2.1).mpr ⟨part, hpart, rfl⟩
  · rintro ⟨parts, hparts, rfl⟩
    obtain ⟨s, hs⟩ := List.exists_mem_of_ne_nil ss hne
    obtain ⟨o, -, hderef⟩ := mem_of_forall₂_left h.leads hs
    obtain ⟨part, -, hfirst⟩ := mem_of_forall₂_left hparts hs
    obtain ⟨fields, rfl⟩ := ((Accepts.of_deref hderef).mp hfirst).given
    refine (h.accepts_iff (by decide)).mpr ⟨nofun, parts, forall₂_comp h.members.flip hparts ?_, rfl⟩
    intro o s part hs hpart
    obtain ⟨_, hgathers, he⟩ := (accepts_member_iff hs.1 hs.2.1).mp hpart
    cases he
    exact hgathers

/-- Where undeclared fields are refused, each member judges the fields that it declares. -/
theorem Separate.rejecting (h : Separate ds ss os) :
    (∃ t, Accepts ds .reject (.intersection ss) (.object fields) t) ↔
      (∀ key ∈ keys fields, ∃ o ∈ os, key ∈ keys o.properties) ∧
        List.Forall₂ (fun s o => ∃ t, Accepts ds .reject s (.object (o.ownFields fields)) t)
          ss os := by
  simp only [h.accepts_iff (show Extras.reject ≠ .keep by decide)]
  constructor
  · rintro ⟨_, hkeys, parts, hparts, -⟩
    refine ⟨hkeys trivial, h.members.imp fun s o hs => (accepts_ownFields_iff hs.1 hs.2.1).mpr ?_⟩
    obtain ⟨part, -, hpart⟩ := mem_of_forall₂_left hparts hs.2.2
    exact ⟨part, hpart⟩
  · rintro ⟨hkeys, hmembers⟩
    have hparts : ∀ o ∈ os, ∃ part, Gathers ds .reject fields o.properties part := by
      intro o ho
      obtain ⟨s, -, haccepts, hs⟩ :=
        mem_of_forall₂_right (List.Forall₂.mp (fun _ _ => And.intro) hmembers h.members) ho
      exact (accepts_ownFields_iff hs.1 hs.2.1).mp haccepts
    obtain ⟨parts, hparts⟩ := exists_forall₂ hparts
    exact ⟨_, fun _ => hkeys, parts, hparts, rfl⟩

/-- An intersection of objects without a common property is their conjunction. Where undeclared
fields are dropped, it accepts what all its members accept, and its object has their entries, one
member after the other. Where they are refused, it accepts the objects whose keys are all declared,
if each member accepts its own fields. -/
theorem intersection_conjunction (h : Separate ds ss os) (hne : ss ≠ []) (v : Json) :
    ((∃ t, Accepts ds .drop (.intersection ss) v t) ↔ ∀ s ∈ ss, ∃ t, Accepts ds .drop s v t) ∧
    (∀ t, Accepts ds .drop (.intersection ss) v t ↔
      ∃ parts, List.Forall₂ (fun s part => Accepts ds .drop s v (.object part)) ss parts ∧
        t = .object parts.flatten) ∧
    ((∃ t, Accepts ds .reject (.intersection ss) v t) ↔
      ∃ fields, v = .object fields ∧
        (∀ key ∈ keys fields, ∃ o ∈ os, key ∈ keys o.properties) ∧
        List.Forall₂ (fun s o => ∃ t, Accepts ds .reject s (.object (o.ownFields fields)) t)
          ss os) := by
  refine ⟨⟨?_, fun hmembers => ?_⟩, fun t => h.dropping hne, ⟨?_, ?_⟩⟩
  · rintro ⟨t, haccepts⟩ s hs
    obtain ⟨parts, hparts, -⟩ := (h.dropping hne).mp haccepts
    obtain ⟨part, -, hpart⟩ := mem_of_forall₂_left hparts hs
    exact ⟨_, hpart⟩
  · have hparts : ∀ s ∈ ss, ∃ part, Accepts ds .drop s v (.object part) := by
      intro s hs
      obtain ⟨t, ht⟩ := hmembers s hs
      obtain ⟨o, -, hderef, hopen, -⟩ := mem_of_forall₂_left h.members hs
      obtain ⟨fields, rfl⟩ := ((Accepts.of_deref hderef).mp ht).given
      obtain ⟨part, -, rfl⟩ := (accepts_member_iff hderef hopen).mp ht
      exact ⟨part, ht⟩
    obtain ⟨parts, hparts⟩ := exists_forall₂ hparts
    exact ⟨_, (h.dropping hne).mpr ⟨parts, hparts, rfl⟩⟩
  · rintro ⟨t, haccepts⟩
    obtain ⟨fields, rfl⟩ := (h.accepts_merged_iff.mp haccepts).given
    exact ⟨fields, rfl, h.rejecting.mp ⟨t, haccepts⟩⟩
  · rintro ⟨fields, rfl, hfields⟩
    exact h.rejecting.mpr hfields

end

namespace Sample

def nameTable : Definitions := [("Named", ⟨named, none, "m::Named"⟩)]

def namedAndSized : List Schema := [.reference "Named", sizedByDefault]

theorem namedAndSized_separate : Separate nameTable namedAndSized
    [⟨[("name", ⟨.primitive .string, true, none, none⟩)], .implicit⟩,
      ⟨[("size", ⟨.primitive .integer, false, some (.integer 1), none⟩)], .implicit⟩] where
  leads := .cons rfl (.cons rfl .nil)
  distinct := by decide
  opened := by
    intro o ho
    rcases List.mem_cons.mp ho with rfl | ho
    · rfl
    · obtain rfl := List.mem_singleton.mp ho
      rfl

/-- A name is all that is given: the size falls back on its default, and both members contribute. -/
theorem namedAndSized_conjunction :
    Separate nameTable namedAndSized
      [⟨[("name", ⟨.primitive .string, true, none, none⟩)], .implicit⟩,
        ⟨[("size", ⟨.primitive .integer, false, some (.integer 1), none⟩)], .implicit⟩] ∧
    namedAndSized ≠ [] ∧
    Accepts nameTable .drop (.intersection namedAndSized) (.object [("name", .string "a")])
      (.object [("name", .string "a"), ("size", .integer 1)]) := by
  refine ⟨namedAndSized_separate, nofun, ?_⟩
  have hconjunction :=
    intersection_conjunction namedAndSized_separate nofun (.object [("name", .string "a")])
  refine (hconjunction.2.1 _).mpr ⟨[[("name", .string "a")], [("size", .integer 1)]], ?_, rfl⟩
  exact .cons ⟨5, "", .ok _, rfl, rfl⟩ (.cons ⟨5, "", .ok _, rfl, rfl⟩ .nil)

end Sample

end Coercion

end RouteContract

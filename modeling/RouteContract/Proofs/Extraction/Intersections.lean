import RouteContract.Proofs.Coercion.Intersections
import RouteContract.Proofs.Coercion.Recording
import RouteContract.Proofs.Extraction.Closed
import RouteContract.Proofs.Extraction.Contracts
import RouteContract.Proofs.Resolution.Following

/-!
# Early and late merging

An intersection is merged when it is resolved, or when a value is coerced
because a member was still pending then. By that time the definitions are
complete, so both ways lead to one object. It is not assumed which of the
members were pending, nor that the run has come to its end.
-/

set_option autoImplicit false

namespace RouteContract

namespace Registry

variable {r : Registry} {ds : Definitions}

/-- What the definitions are, name by name, wherever the registry can be frozen. -/
theorem find?_freezes {entries : Entries String RegistryEntry}
    (h : List.Forall₂ r.Freezes entries ds) (name : String) :
    (entries.find? name = none ∧ ds.find? name = none) ∨
      ∃ owner d, entries.find? name = some ⟨owner, .defined d.schema d.description⟩ ∧
        ds.find? name = some d := by
  induction h with
  | nil => exact .inl ⟨rfl, rfl⟩
  | @cons x d entries ds hd _ ih =>
    obtain ⟨key, owner, slot⟩ := x
    obtain ⟨key', d⟩ := d
    obtain ⟨hname, hslot, -, -⟩ := hd
    obtain rfl : key' = key := hname
    obtain rfl : slot = .defined d.schema d.description := hslot
    by_cases hk : key' = name
    · exact .inr ⟨owner, d, by simp [Entries.find?, hk], by simp [Entries.find?, hk]⟩
    · simpa [Entries.find?, hk] using ih

theorem object?_freeze (h : r.freeze = .ok ds) (s : Schema) :
    Resolve.object? r s = ds.object? s := by
  cases s with
  | reference name =>
    unfold Resolve.object? Registry.defined? Definitions.object?
    rcases find?_freezes (freezeEntries_eq_ok_iff.mp h) name with ⟨hr, hd⟩ | ⟨owner, d, hr, hd⟩
    · simp only [hr, hd]
    · obtain ⟨s, description, origin⟩ := d
      simp only [hr, hd]
      cases s <;> rfl
  | _ => rfl

theorem Below.object? {r' : Registry} (h : r.Below r') {s : Schema} {o : ObjectSchema Schema}
    (ho : Resolve.object? r s = some o) : Resolve.object? r' s = some o := by
  cases s with
  | object o' => exact ho
  | reference name =>
    unfold Resolve.object? Registry.defined? at ho ⊢
    rcases he : r.entries.find? name with - | ⟨owner, slot⟩
    · simp [he] at ho
    · cases slot with
      | pending => simp [he] at ho
      | defined schema description =>
        obtain ⟨slot', hr', hslot | rfl⟩ := h he
        · cases hslot
        · simpa only [he, hr'] using ho
  | _ => cases ho

end Registry

namespace Resolve

variable {r : Registry} {ds : Definitions} {ss : List Schema} {os : List (ObjectSchema Schema)}

/-- When the definitions are complete an intersection of objects is one object. -/
theorem meet_complete (h : r.freeze = .ok ds)
    (ho : List.Forall₂ (fun s o => ds.object? s = some o) ss os) :
    meet r ss = .object (os.foldl ObjectSchema.merge .empty) := by
  have hmap : ss.mapM (object? r) = some os :=
    mapM_eq_some_iff.mpr (ho.imp fun s o hs => (Registry.object?_freeze h s).trans hs)
  simp only [meet, hmap]

/-- Before that it may be left as it is, but it is never another object. -/
theorem meet_below {r' : Registry} (hbelow : r'.Below r) (h : r.freeze = .ok ds)
    (ho : List.Forall₂ (fun s o => ds.object? s = some o) ss os) :
    meet r' ss = .intersection ss ∨
      meet r' ss = .object (os.foldl ObjectSchema.merge .empty) := by
  cases hmap : ss.mapM (object? r') with
  | none => exact .inl (by simp only [meet, hmap])
  | some os' =>
    have hlater : List.Forall₂ (fun s o => object? r s = some o) ss os' :=
      (mapM_eq_some_iff.mp hmap).imp fun _ _ => hbelow.object?
    have hcomplete : ss.mapM (object? r) = some os :=
      mapM_eq_some_iff.mpr (ho.imp fun s o hs => (Registry.object?_freeze h s).trans hs)
    rw [mapM_eq_some_iff.mpr hlater] at hcomplete
    cases hcomplete
    exact .inr (by simp only [meet, hmap])

end Resolve

/-- Two schemas that a request cannot tell apart: from values and from texts they give the same
result and leave the same table of errors, whatever it held before. -/
structure Definitions.Interchangeable (ds : Definitions) (s t : Schema) : Prop where
  json : ∀ extras v path (errors : FieldErrors),
    Recording.json ds extras s v path errors = Recording.json ds extras t v path errors
  text : ∀ extras delimiter values path (errors : FieldErrors),
    Recording.text ds extras delimiter s values path errors =
      Recording.text ds extras delimiter t values path errors

theorem Definitions.Interchangeable.refl (ds : Definitions) (s : Schema) :
    ds.Interchangeable s s := ⟨fun _ _ _ _ => rfl, fun _ _ _ _ _ => rfl⟩

theorem Definitions.interchangeable_merged {ds : Definitions} {ss : List Schema}
    {os : List (ObjectSchema Schema)} (h : Coercion.objects ds ss = .ok (some os)) :
    ds.Interchangeable (.intersection ss) (.object (os.foldl ObjectSchema.merge .empty)) where
  json extras v path errors := by
    rw [Recording.records_json, Recording.records_json, Coercion.json_intersection h]
  text extras delimiter values path errors := by
    rw [Recording.records_text, Recording.records_text, Coercion.text_intersection h]

open Resolve (Gives all intersectionOf gives_intersectionOf) in
/-- Schemas that are or name objects of a contract have one merged object. It is what their
intersection is resolved to once the definitions are complete, and it cannot be told apart from
the intersection, nor from whatever the intersection was resolved to at an earlier time. -/
theorem Graph.intersection_interchangeable {g : Graph} {combination : Combination} {c : Contract}
    (hc : g.contract combination = .ok c) {nodes : List Schema}
    (hnodes : ∀ s ∈ nodes, ∃ o, c.definitions.object? s = some o) :
    ∃ os, List.Forall₂ (fun s o => c.definitions.object? s = some o) nodes os ∧
      c.definitions.Interchangeable (.intersection nodes)
        (.object (os.foldl ObjectSchema.merge .empty)) ∧
      (∃ r : Registry, r.freeze = .ok c.definitions) ∧
      ∀ r : Registry, r.freeze = .ok c.definitions →
        ∀ type ts o st st', Gives (all type o ts) st nodes st' →
        (st'.1 = r →
          Gives (intersectionOf type ts o) st (.object (os.foldl ObjectSchema.merge .empty)) st') ∧
        (st'.1.Below r → ∃ s, Gives (intersectionOf type ts o) st s st' ∧
          c.definitions.Interchangeable s (.object (os.foldl ObjectSchema.merge .empty))) := by
  obtain ⟨os, hos⟩ := Option.isSome_iff_exists.mp ((mapM_isSome_iff nodes).mpr fun s hs =>
    Option.isSome_iff_exists.mpr (hnodes s hs))
  have hos := mapM_eq_some_iff.mp hos
  have hsame := Definitions.interchangeable_merged (Coercion.objects_of_object? hos)
  obtain ⟨r, -, hfreeze⟩ := Graph.contract_ready hc
  refine ⟨os, hos, hsame, ⟨r, hfreeze⟩, fun r hr type ts o st st' hall => ⟨?_, fun hbelow => ?_⟩⟩
  · rintro rfl
    exact gives_intersectionOf.mpr ⟨nodes, hall, (Resolve.meet_complete hr hos).symm⟩
  · refine ⟨_, gives_intersectionOf.mpr ⟨nodes, hall, rfl⟩, ?_⟩
    rcases Resolve.meet_below hbelow hr hos with h | h
    · exact h ▸ hsame
    · exact h ▸ .refl _ _

namespace Sample

def selfMeeting : Graph where
  declarations := [interface "A" [] [{ property "next" (.intersection [.named "A", .named "B"]) with
    optional := true }], interface "B" [] [defaulted "size" (.keyword .number) (.integer 1)]]
  controllers := [posting [parameter "p" (.named "A") .body]]

def membersLeft? (ds : Definitions) (s : Schema) (name : String) : Option (List Schema) :=
  (ds.object? s).bind fun o => match Entries.find? o.properties name with
    | some ⟨.intersection ss, _, _, _⟩ => some ss
    | _ => none

theorem selfMeeting_leftOpen : ∃ c o, selfMeeting.contract .anyOf = .ok c ∧ o ∈ c.operations ∧
    (membersLeft? c.definitions (.reference "A") "next").any fun ss =>
      ss.all fun s => (c.definitions.object? s).isSome :=
  exists_operation (by decide +kernel)

theorem selfMeeting_interchangeable : ∃ c ss, selfMeeting.contract .anyOf = .ok c ∧
    membersLeft? c.definitions (.reference "A") "next" = some ss ∧
    (∀ s ∈ ss, ∃ o, c.definitions.object? s = some o) ∧
    ∃ os : List (ObjectSchema Schema), c.definitions.Interchangeable (.intersection ss)
      (.object (os.foldl ObjectSchema.merge .empty)) := by
  obtain ⟨c, o, hc, -, hopen⟩ := selfMeeting_leftOpen
  obtain ⟨ss, hss, hall⟩ := (Option.any_eq_true _ _).mp hopen
  have hnodes : ∀ s ∈ ss, ∃ o, c.definitions.object? s = some o := fun s hs =>
    Option.isSome_iff_exists.mp (List.all_eq_true.mp hall s hs)
  obtain ⟨os, -, hsame, -⟩ := Graph.intersection_interchangeable hc hnodes
  exact ⟨c, ss, hc, hss, hnodes, os, hsame⟩

end Sample

end RouteContract

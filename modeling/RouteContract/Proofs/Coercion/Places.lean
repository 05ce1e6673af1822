import RouteContract.Proofs.Coercion.Complaints
import RouteContract.Proofs.Coercion.Reading
import RouteContract.Proofs.Coercion.Reports

/-!
# Where reports come from

Coercion goes from place to place: from a value to its parts, to defaults, from a
text to what is read from it. A place complains of what it finds itself, and the
reports of coercion are the complaints of all places on its way. The members of a
union are tried and not visited.
-/

set_option autoImplicit false

namespace RouteContract.Coercion

inductive Input where
  | json (v : Json)
  | text (s : String)
  | texts (delimiter : Option Char) (values : List String)

def Input.raw : Input → Json
  | json v => v
  | text s => .string s
  | texts _ values => rawTexts values

structure Place where
  schema : Schema
  input : Input
  path : String

section

variable (ds : Definitions) (extras : Extras)

def Gives : Place → Coerced Typed → Prop
  | ⟨s, .json v, path⟩, c => ∃ n, jsonWithin ds extras n s v path = some c
  | ⟨s, .text t, path⟩, c => ∃ n, oneTextWithin ds extras n s t path = some c
  | ⟨s, .texts delimiter values, path⟩, c =>
    ∃ steps n, textWithin ds extras delimiter steps n s values path = some c

inductive Hands : Place → Place → Prop
  | item {s e : Schema} {vs : List Json} {v : Json} {i : Nat} {path : String}
      (hd : deref ds maxHops s = .ok (.array e)) (hv : (v, i) ∈ vs.zipIdx) :
      Hands ⟨s, .json (.array vs), path⟩ ⟨e, .json v, index path i⟩
  | property {s : Schema} {o : ObjectSchema Schema} {fields : List (String × Json)}
      {name : String} {p : PropertySchema Schema} {v : Json} {path : String}
      (hd : deref ds maxHops s = .ok (.object o)) (hp : (name, p) ∈ o.properties)
      (hv : (Entries.find? fields name).or p.default = some v) :
      Hands ⟨s, .json (.object fields), path⟩ ⟨p.schema, .json v, child path name⟩
  | extra {s e : Schema} {o : ObjectSchema Schema} {fields : List (String × Json)}
      {key : String} {v : Json} {path : String} (hd : deref ds maxHops s = .ok (.object o))
      (hv : (key, v) ∈ fields) (hn : Entries.contains o.properties key = false)
      (ha : o.additional = .schema e) :
      Hands ⟨s, .json (.object fields), path⟩ ⟨e, .json v, child path key⟩
  | merged {s : Schema} {members : List Schema} {os : List (ObjectSchema Schema)} {v : Json}
      {path : String} (hd : deref ds maxHops s = .ok (.intersection members))
      (ho : objects ds members = .ok (some os)) :
      Hands ⟨s, .json v, path⟩ ⟨.object (os.foldl ObjectSchema.merge .empty), .json v, path⟩
  | constraint {s m : Schema} {members : List Schema} {v : Json} {path : String}
      (hd : deref ds maxHops s = .ok (.intersection members))
      (ho : objects ds members = .ok none) (hm : m ∈ members) :
      Hands ⟨s, .json v, path⟩ ⟨m, .json v, path⟩
  | read {s t : Schema} {text path : String} {v : Json} (hd : deref ds maxHops s = .ok t)
      (ht : t.isStructured) (hv : Json.parse? text = some v) :
      Hands ⟨s, .text text, path⟩ ⟨t, .json v, path⟩
  | piece {s e : Schema} {delimiter : Option Char} {values : List String} {text path : String}
      {i : Nat} (hd : deref ds maxHops s = .ok (.array e))
      (hx : (text, i) ∈ (values.flatMap (split delimiter)).zipIdx) :
      Hands ⟨s, .texts delimiter values, path⟩ ⟨e, .text text, index path i⟩
  | first {s t : Schema} {delimiter : Option Char} {text path : String} {rest : List String}
      (hd : deref ds maxHops s = .ok t) (harray : ∀ e, t ≠ .array e)
      (hunion : ∀ members, t ≠ .union members) :
      Hands ⟨s, .texts delimiter (text :: rest), path⟩ ⟨t, .text text, path⟩

inductive Complains : Place → Report → Prop
  | broken {s : Schema} {i : Input} {path : String} {complaint : Complaint}
      (hd : deref ds maxHops s = .error complaint) :
      Complains ⟨s, i, path⟩ (path, ⟨complaint, none⟩)
  | primitive {s : Schema} {kind : Primitive} {v : Json} {path : String} {r : Report}
      (hd : deref ds maxHops s = .ok (.primitive kind))
      (hr : r ∈ (jsonPrimitive kind v path).reports) : Complains ⟨s, .json v, path⟩ r
  | unlisted {s : Schema} {values : List EnumValue} {v : Json} {path : String}
      (hd : deref ds maxHops s = .ok (.enum values)) (hv : listedJson? values v = none) :
      Complains ⟨s, .json v, path⟩ (path, ⟨.notListed values, some v⟩)
  | noArray {s e : Schema} {v : Json} {path : String} (hd : deref ds maxHops s = .ok (.array e))
      (hv : ∀ vs, v ≠ .array vs) : Complains ⟨s, .json v, path⟩ (path, ⟨.invalid "array", some v⟩)
  | noObject {s : Schema} {o : ObjectSchema Schema} {v : Json} {path : String}
      (hd : deref ds maxHops s = .ok (.object o)) (hv : ∀ fields, v ≠ .object fields) :
      Complains ⟨s, .json v, path⟩ (path, ⟨.invalid "object", some v⟩)
  | missing {s : Schema} {o : ObjectSchema Schema} {fields : List (String × Json)}
      {name : String} {p : PropertySchema Schema} {path : String}
      (hd : deref ds maxHops s = .ok (.object o)) (hp : (name, p) ∈ o.properties)
      (hv : (Entries.find? fields name).or p.default = none) (hr : p.required) :
      Complains ⟨s, .json (.object fields), path⟩ (child path name, ⟨.missing name, none⟩)
  | excess {s : Schema} {o : ObjectSchema Schema} {fields : List (String × Json)} {key : String}
      {v : Json} {path : String} (hd : deref ds maxHops s = .ok (.object o))
      (hv : (key, v) ∈ fields) (hn : Entries.contains o.properties key = false)
      (ha : o.additional = .implicit) (he : extras = .reject) :
      Complains ⟨s, .json (.object fields), path⟩ (child path key, ⟨.excess key, some v⟩)
  | unmatched {s : Schema} {members : List Schema} {i : Input} {path : String}
      (hd : deref ds maxHops s = .ok (.union members))
      (hm : ∀ m ∈ members, ∃ c, Gives ds extras ⟨m, i, path⟩ c ∧ c.isClean = false) :
      Complains ⟨s, i, path⟩ (path, ⟨.noMember members, some i.raw⟩)
  | unmerged {s : Schema} {members : List Schema} {v : Json} {path : String}
      {complaint : Complaint} (hd : deref ds maxHops s = .ok (.intersection members))
      (ho : objects ds members = .error complaint) :
      Complains ⟨s, .json v, path⟩ (path, ⟨complaint, none⟩)
  | textPrimitive {s : Schema} {kind : Primitive} {text path : String} {r : Report}
      (hd : deref ds maxHops s = .ok (.primitive kind))
      (hr : r ∈ (textPrimitive kind text path).reports) : Complains ⟨s, .text text, path⟩ r
  | textUnlisted {s : Schema} {values : List EnumValue} {text path : String}
      (hd : deref ds maxHops s = .ok (.enum values)) (hv : listedText? values text = none) :
      Complains ⟨s, .text text, path⟩ (path, ⟨.notListed values, some (.string text)⟩)
  | unread {s t : Schema} {text path : String} (hd : deref ds maxHops s = .ok t)
      (ht : t.isStructured) (hv : Json.parse? text = none) :
      Complains ⟨s, .text text, path⟩ (path, ⟨.invalid (describe t), some (.string text)⟩)

def Arises (w : Place) (r : Report) : Prop :=
  ∃ u, Relation.ReflTransGen (Hands ds) w u ∧ Complains ds extras u r

end

section

variable {J : Schema → Json → String → Option (Coerced Typed)} {extras : Extras} {r : Report}
  {path : String}

theorem mem_reports_sequence {α : Type} {cs : List (Coerced α)} :
    r ∈ (Coerced.sequence cs).reports ↔ ∃ c ∈ cs, r ∈ c.reports := by
  rw [Coerced.sequence_reports, List.mem_flatMap]

theorem mem_reports_orRefuse {α : Type} {a : Option α} {complaint : Complaint} {raw : Json} :
    r ∈ (Coerced.orRefuse a path complaint raw).reports ↔
      a = none ∧ r = (path, ⟨complaint, some raw⟩) := by
  cases a with
  | none => simp [Coerced.orRefuse, Coerced.refuse]
  | some a => simp [Coerced.orRefuse, Coerced.ok]

theorem property_reports_iff {name : String} {p : PropertySchema Schema} {given : Option Json}
    {c : Coerced (Option (String × Typed))} (h : property J name p given path = some c) :
    r ∈ c.reports ↔
      (∃ v d, given.or p.default = some v ∧ J p.schema v (child path name) = some d ∧
        r ∈ d.reports) ∨
      (given.or p.default = none ∧ p.required ∧
        r = (child path name, ⟨.missing name, none⟩)) := by
  unfold property at h
  cases hv : given.or p.default with
  | some v =>
    rw [hv] at h
    simp only [bind, pure, Option.bind_eq_some_iff, Option.some.injEq] at h
    obtain ⟨d, hd, rfl⟩ := h
    simp [hd, Coerced.map]
  | none =>
    rw [hv] at h
    cases h
    cases hr : p.required <;> simp [Coerced.ok]

theorem extra_reports_iff {a : Additional Schema} {key : String} {raw : Json}
    {c : Coerced (Option (String × Typed))} (h : extra J extras a key raw path = some c) :
    r ∈ c.reports ↔
      (∃ s d, a = .schema s ∧ J s raw (child path key) = some d ∧ r ∈ d.reports) ∨
      (a = .implicit ∧ extras = .reject ∧ r = (child path key, ⟨.excess key, some raw⟩)) := by
  cases a with
  | any =>
    cases h
    simp [Coerced.ok]
  | schema s =>
    simp only [extra, bind, pure, Option.bind_eq_some_iff, Option.some.injEq] at h
    obtain ⟨d, hd, rfl⟩ := h
    simp [hd, Coerced.map]
  | implicit =>
    cases h
    cases extras <;> simp [Coerced.ok, Coerced.refuse]

/-- The reports about an object are those about its properties and those about other keys. -/
theorem parts_reports_iff {o : ObjectSchema Schema} {fields : List (String × Json)}
    {ps : List (Coerced (Option (String × Typed)))} (h : parts J extras o fields path = some ps) :
    (∃ c ∈ ps, r ∈ c.reports) ↔
      (∃ name p c, (name, p) ∈ o.properties ∧
        property J name p (Entries.find? fields name) path = some c ∧ r ∈ c.reports) ∨
      ∃ key v c, (key, v) ∈ fields ∧ Entries.contains o.properties key = false ∧
        extra J extras o.additional key v path = some c ∧ r ∈ c.reports := by
  obtain ⟨declared, undeclared, rfl, hd, hu⟩ := parts_eq_some h
  constructor
  · rintro ⟨c, hc, hr⟩
    rcases List.mem_append.mp hc with hc | hc
    · obtain ⟨x, hx, hxc⟩ := mem_of_forall₂_right hd hc
      exact .inl ⟨x.1, x.2, c, hx, hxc, hr⟩
    · obtain ⟨x, hx, hxc⟩ := mem_of_forall₂_right hu hc
      obtain ⟨hx, hn⟩ := List.mem_filter.mp hx
      exact .inr ⟨x.1, x.2, c, hx, by simpa using hn, hxc, hr⟩
  · rintro (⟨name, p, c, hp, hc, hr⟩ | ⟨key, v, c, hv, hn, hc, hr⟩)
    · obtain ⟨d, hmem, hd⟩ := mem_of_forall₂_left hd hp
      obtain rfl := Option.some.inj (hc.symm.trans hd)
      exact ⟨c, List.mem_append_left _ hmem, hr⟩
    · have hx : (key, v) ∈ fields.filter fun x => !Entries.contains o.properties x.1 :=
        List.mem_filter.mpr ⟨hv, by simp [hn]⟩
      obtain ⟨d, hmem, hd⟩ := mem_of_forall₂_left hu hx
      obtain rfl := Option.some.inj (hc.symm.trans hd)
      exact ⟨c, List.mem_append_right _ hmem, hr⟩

end

section

variable {ds : Definitions} {extras : Extras}

theorem Gives.unique {w : Place} {c d : Coerced Typed} (hc : Gives ds extras w c)
    (hd : Gives ds extras w d) : c = d := by
  obtain ⟨s, i, path⟩ := w
  cases i with
  | json v =>
    obtain ⟨n, hn⟩ := hc
    obtain ⟨m, hm⟩ := hd
    exact (jsonWithin_alike hn hm).eq rfl
  | text t =>
    obtain ⟨n, hn⟩ := hc
    obtain ⟨m, hm⟩ := hd
    exact oneTextWithin_alike hn hm
  | texts delimiter values =>
    obtain ⟨steps, n, hn⟩ := hc
    obtain ⟨steps', m, hm⟩ := hd
    obtain ⟨e, he, hce⟩ :=
      textWithin_follows (Nat.le_max_left steps steps') (Nat.le_max_left n m) c hn
    obtain ⟨f, hf, hdf⟩ :=
      textWithin_follows (Nat.le_max_right steps steps') (Nat.le_max_right n m) d hm
    rw [he] at hf
    cases hf
    exact (hce.eq trivial).trans (hdf.eq trivial).symm

theorem Gives.honest {w : Place} {c : Coerced Typed} (h : Gives ds extras w c)
    (htexts : ∀ delimiter, w.input ≠ .texts delimiter []) : c.Honest := by
  obtain ⟨s, i, path⟩ := w
  cases i with
  | json v =>
    obtain ⟨n, hn⟩ := h
    exact jsonWithin_honest n s v path c hn
  | text t =>
    obtain ⟨n, hn⟩ := h
    exact oneTextWithin_honest hn
  | texts delimiter values =>
    obtain ⟨steps, n, hn⟩ := h
    refine textWithin_honest ?_ hn
    rintro rfl
    exact htexts delimiter rfl

theorem jsonStep_of_within {n : Nat} {s t : Schema} {v : Json} {path : String} {c : Coerced Typed}
    (hd : deref ds maxHops s = .ok t) (h : jsonWithin ds extras n s v path = some c) :
    ∃ m, jsonStep (jsonWithin ds extras m) ds extras t v path = some c := by
  cases n with
  | zero => cases h
  | succ m =>
    simp only [jsonWithin, through, hd] at h
    exact ⟨m, h⟩

theorem deref_idem {s t : Schema} (hd : deref ds maxHops s = .ok t) :
    deref ds maxHops t = .ok t := by
  cases t with
  | reference name => exact absurd hd deref_ne_reference
  | _ => rfl

theorem oneTextWithin_of_deref {n : Nat} {s t : Schema} {text path : String} {c : Coerced Typed}
    (hd : deref ds maxHops s = .ok t) (h : oneTextWithin ds extras n s text path = some c) :
    ∃ m, oneTextWithin ds extras (m + 1) t text path = some c := by
  cases n with
  | zero => cases h
  | succ m =>
    refine ⟨m, ?_⟩
    simp only [oneTextWithin, through, hd] at h
    simp only [oneTextWithin, through, deref_idem hd]
    exact h

theorem textWithin_of_deref {delimiter : Option Char} {steps n : Nat} {s t : Schema}
    {values : List String} {path : String} {c : Coerced Typed} (hd : deref ds maxHops s = .ok t)
    (h : textWithin ds extras delimiter steps n s values path = some c) :
    ∃ m, textWithin ds extras delimiter steps (m + 1) t values path = some c := by
  cases n with
  | zero => cases h
  | succ m =>
    refine ⟨m, ?_⟩
    simp only [textWithin, through, hd] at h
    simp only [textWithin, through, deref_idem hd]
    exact h

/-- Where a schema has structure, a text is coerced as the JSON in it. -/
theorem read_of_within {n : Nat} {s t : Schema} {text path : String} {c : Coerced Typed}
    (hd : deref ds maxHops s = .ok t) (ht : t.isStructured)
    (h : oneTextWithin ds extras n s text path = some c) :
    (match Json.parse? text with
      | some v => json ds extras t v path
      | none => some (Coerced.refuse path (.invalid (describe t)) (.string text))) = some c := by
  obtain ⟨m, hm⟩ := oneTextWithin_of_deref hd h
  cases t with
  | array e => exact hm
  | object o => exact hm
  | intersection members => exact hm
  | _ => cases ht

/-- An object is coerced part by part. -/
theorem parts_of_gives {s : Schema} {o : ObjectSchema Schema} {fields : List (String × Json)}
    {path : String} {c : Coerced Typed} (hd : deref ds maxHops s = .ok (.object o))
    (h : Gives ds extras ⟨s, .json (.object fields), path⟩ c) :
    ∃ n ps, parts (jsonWithin ds extras n) extras o fields path = some ps ∧
      c = (Coerced.sequence ps).map fun es => .object (es.filterMap id) := by
  obtain ⟨n, hn⟩ := h
  obtain ⟨m, hm⟩ := jsonStep_of_within hd hn
  simp only [jsonStep, object, bind, pure, Option.bind_eq_some_iff, Option.some.injEq] at hm
  obtain ⟨ps, hps, rfl⟩ := hm
  exact ⟨m, ps, hps, rfl⟩

/-- A property of a coerced object is coerced. -/
theorem property_of_parts {n : Nat} {o : ObjectSchema Schema} {fields : List (String × Json)}
    {path name : String} {p : PropertySchema Schema}
    {ps : List (Coerced (Option (String × Typed)))}
    (h : parts (jsonWithin ds extras n) extras o fields path = some ps)
    (hp : (name, p) ∈ o.properties) : ∃ c ∈ ps,
      property (jsonWithin ds extras n) name p (Entries.find? fields name) path = some c := by
  obtain ⟨declared, undeclared, rfl, hdeclared, -⟩ := parts_eq_some h
  obtain ⟨c, hc, hpc⟩ := mem_of_forall₂_left hdeclared hp
  exact ⟨c, List.mem_append_left _ hc, hpc⟩

/-- A union without a match refuses its input. -/
theorem firstMatch_refuses {attempt : Schema → Option (Coerced Typed)} {all : List Schema}
    {path : String} {raw : Json} {members : List Schema} {c : Coerced Typed}
    (h : firstMatch attempt all path raw members = some c)
    (hm : ∀ m ∈ members, ∀ d, attempt m = some d → d.isClean = false) :
    c = Coerced.refuse path (.noMember all) raw := by
  rcases firstMatch_eq_some h with ⟨before, s, after, d, rfl, -, hs, hclean, -⟩ | ⟨-, hc⟩
  · rw [hm s (by simp) d hs] at hclean
    cases hclean
  · exact hc

theorem Gives.unmatched {s : Schema} {members : List Schema} {i : Input} {path : String}
    {c : Coerced Typed} (hd : deref ds maxHops s = .ok (.union members))
    (h : Gives ds extras ⟨s, i, path⟩ c)
    (hm : ∀ m ∈ members, ∃ c, Gives ds extras ⟨m, i, path⟩ c ∧ c.isClean = false) :
    c = Coerced.refuse path (.noMember members) i.raw := by
  have fails : ∀ m ∈ members, ∀ d, Gives ds extras ⟨m, i, path⟩ d → d.isClean = false := by
    intro m hmem d hgives
    obtain ⟨e, he, hfails⟩ := hm m hmem
    exact hgives.unique he ▸ hfails
  cases i with
  | json v =>
    obtain ⟨n, hn⟩ := h
    obtain ⟨k, hk⟩ := jsonStep_of_within hd hn
    exact firstMatch_refuses hk fun m hmem d hmd => fails m hmem d ⟨k, hmd⟩
  | text t =>
    obtain ⟨n, hn⟩ := h
    obtain ⟨k, hk⟩ := oneTextWithin_of_deref hd hn
    exact firstMatch_refuses hk fun m hmem d hmd => fails m hmem d ⟨k, hmd⟩
  | texts delimiter values =>
    obtain ⟨steps, n, hn⟩ := h
    obtain ⟨k, hk⟩ := textWithin_of_deref hd hn
    exact firstMatch_refuses hk fun m hmem d hmd => fails m hmem d ⟨steps, k, hmd⟩

/-- A schema that cannot be followed is all that is reported. -/
theorem Gives.broken {s : Schema} {i : Input} {path : String} {complaint : Complaint}
    {c : Coerced Typed} (hd : deref ds maxHops s = .error complaint)
    (h : Gives ds extras ⟨s, i, path⟩ c) : c = ⟨none, [(path, ⟨complaint, none⟩)]⟩ := by
  cases i with
  | json v =>
    obtain ⟨n, hn⟩ := h
    cases n with
    | zero => cases hn
    | succ n => simpa [jsonWithin, through, hd, eq_comm] using hn
  | text t =>
    obtain ⟨n, hn⟩ := h
    cases n with
    | zero => cases hn
    | succ n => simpa [oneTextWithin, through, hd, eq_comm] using hn
  | texts delimiter values =>
    obtain ⟨steps, n, hn⟩ := h
    cases n with
    | zero => cases hn
    | succ n => simpa [textWithin, through, hd, eq_comm] using hn

/-- What a place complains of is reported. -/
theorem Complains.reported {w : Place} {r : Report} {c : Coerced Typed}
    (h : Complains ds extras w r) (hc : Gives ds extras w c) : r ∈ c.reports := by
  cases h with
  | broken hd =>
    rw [hc.broken hd]
    exact List.mem_singleton_self _
  | primitive hd hr =>
    obtain ⟨n, hn⟩ := hc
    obtain ⟨m, hm⟩ := jsonStep_of_within hd hn
    cases hm
    exact hr
  | unlisted hd hv =>
    obtain ⟨n, hn⟩ := hc
    obtain ⟨m, hm⟩ := jsonStep_of_within hd hn
    cases hm
    exact mem_reports_orRefuse.mpr ⟨hv, rfl⟩
  | @noArray s e v path hd hv =>
    obtain ⟨n, hn⟩ := hc
    obtain ⟨m, hm⟩ := jsonStep_of_within hd hn
    cases v with
    | array vs => exact absurd rfl (hv vs)
    | _ => cases hm; exact List.mem_singleton_self _
  | @noObject s o v path hd hv =>
    obtain ⟨n, hn⟩ := hc
    obtain ⟨m, hm⟩ := jsonStep_of_within hd hn
    cases v with
    | object fields => exact absurd rfl (hv fields)
    | _ => cases hm; exact List.mem_singleton_self _
  | missing hd hp hv hr =>
    obtain ⟨n, ps, hps, rfl⟩ := parts_of_gives hd hc
    obtain ⟨e, he, hpe⟩ := property_of_parts hps hp
    have hre := (property_reports_iff hpe).mpr (.inr ⟨hv, hr, rfl⟩)
    exact mem_reports_sequence.mpr ⟨e, he, hre⟩
  | excess hd hv hn ha he =>
    obtain ⟨n, ps, hps, rfl⟩ := parts_of_gives hd hc
    refine mem_reports_sequence.mpr ((parts_reports_iff hps).mpr (.inr ?_))
    refine ⟨_, _, Coerced.refuse _ (.excess _) _, hv, hn, ?_, List.mem_singleton_self _⟩
    rw [ha, he]
    rfl
  | unmatched hd hm =>
    rw [hc.unmatched hd hm]
    exact List.mem_singleton_self _
  | unmerged hd ho =>
    obtain ⟨n, hn⟩ := hc
    obtain ⟨m, hm⟩ := jsonStep_of_within hd hn
    simp only [jsonStep, intersection, ho] at hm
    cases hm
    exact List.mem_singleton_self _
  | textPrimitive hd hr =>
    obtain ⟨n, hn⟩ := hc
    obtain ⟨m, hm⟩ := oneTextWithin_of_deref hd hn
    cases hm
    exact hr
  | textUnlisted hd hv =>
    obtain ⟨n, hn⟩ := hc
    obtain ⟨m, hm⟩ := oneTextWithin_of_deref hd hn
    cases hm
    exact mem_reports_orRefuse.mpr ⟨hv, rfl⟩
  | unread hd ht hv =>
    obtain ⟨n, hn⟩ := hc
    have hread := read_of_within hd ht hn
    rw [hv] at hread
    cases hread
    exact List.mem_singleton_self _

theorem gives_json {s : Schema} {v : Json} {path : String} {c : Coerced Typed}
    (h : json ds extras s v path = some c) : Gives ds extras ⟨s, .json v, path⟩ c := ⟨_, h⟩

/-- What a place hands on is coerced, and its reports are among those of the place. -/
theorem Hands.reported {w u : Place} {c : Coerced Typed} (h : Hands ds w u)
    (hc : Gives ds extras w c) :
    ∃ d, Gives ds extras u d ∧ ∀ r ∈ d.reports, r ∈ c.reports := by
  cases h with
  | @item s e vs v i path hd hv =>
    obtain ⟨n, hn⟩ := hc
    obtain ⟨m, hm⟩ := jsonStep_of_within hd hn
    simp only [jsonStep, bind, pure, Option.bind_eq_some_iff, Option.some.injEq,
      items_eq_mapM] at hm
    obtain ⟨cs, hcs, rfl⟩ := hm
    obtain ⟨d, hmem, hgives⟩ := mem_of_forall₂_left (mapM_eq_some_iff.mp hcs) hv
    exact ⟨d, ⟨m, hgives⟩, fun r hr => mem_reports_sequence.mpr ⟨d, hmem, hr⟩⟩
  | @property s o fields name p v path hd hp hv =>
    obtain ⟨n, ps, hps, rfl⟩ := parts_of_gives hd hc
    obtain ⟨e, he, hpe⟩ := property_of_parts hps hp
    have hsome := property_isSome_iff.mp (Option.isSome_of_eq_some hpe) v hv
    obtain ⟨d, hgives⟩ := Option.isSome_iff_exists.mp hsome
    refine ⟨d, ⟨n, hgives⟩, fun r hr => mem_reports_sequence.mpr ⟨e, he, ?_⟩⟩
    exact (property_reports_iff hpe).mpr (.inl ⟨v, d, hv, hgives, hr⟩)
  | @extra s e o fields key v path hd hv hn ha =>
    obtain ⟨n, ps, hps, rfl⟩ := parts_of_gives hd hc
    have hx : (key, v) ∈ fields.filter fun x => !Entries.contains o.properties x.1 :=
      List.mem_filter.mpr ⟨hv, by simp [hn]⟩
    have hsome := (parts_isSome_iff.mp (Option.isSome_of_eq_some hps)).2 _ hx
    obtain ⟨d, hgives⟩ := Option.isSome_iff_exists.mp (extra_isSome_iff.mp hsome e ha)
    obtain ⟨f, hf⟩ := Option.isSome_iff_exists.mp hsome
    refine ⟨d, ⟨n, hgives⟩, fun r hr => mem_reports_sequence.mpr ?_⟩
    have hrf := (extra_reports_iff hf).mpr (.inl ⟨e, d, ha, hgives, hr⟩)
    exact (parts_reports_iff hps).mpr (.inr ⟨key, v, f, hv, hn, hf, hrf⟩)
  | merged hd ho =>
    obtain ⟨n, hn⟩ := hc
    obtain ⟨m, hm⟩ := jsonStep_of_within hd hn
    simp only [jsonStep, intersection, ho] at hm
    exact ⟨c, ⟨m, hm⟩, fun _ hr => hr⟩
  | constraint hd ho hmem =>
    obtain ⟨n, hn⟩ := hc
    obtain ⟨m, hm⟩ := jsonStep_of_within hd hn
    simp only [jsonStep, intersection, ho, bind, pure, Option.bind_eq_some_iff,
      Option.some.injEq] at hm
    obtain ⟨cs, hcs, rfl⟩ := hm
    obtain ⟨d, hd', hgives⟩ := mem_of_forall₂_left (mapM_eq_some_iff.mp hcs) hmem
    exact ⟨d, ⟨m, hgives⟩, fun r hr => mem_reports_sequence.mpr ⟨d, hd', hr⟩⟩
  | read hd ht hv =>
    obtain ⟨n, hn⟩ := hc
    have hread := read_of_within hd ht hn
    rw [hv] at hread
    exact ⟨c, gives_json hread, fun _ hr => hr⟩
  | piece hd hx =>
    obtain ⟨steps, n, hn⟩ := hc
    obtain ⟨m, hm⟩ := textWithin_of_deref hd hn
    simp only [textWithin, through, deref_idem hd, bind, pure, Option.bind_eq_some_iff,
      Option.some.injEq, texts_eq_mapM] at hm
    obtain ⟨cs, hcs, rfl⟩ := hm
    obtain ⟨d, hmem, hgives⟩ := mem_of_forall₂_left (mapM_eq_some_iff.mp hcs) hx
    exact ⟨d, ⟨steps, hgives⟩, fun r hr => mem_reports_sequence.mpr ⟨d, hmem, hr⟩⟩
  | @first s t delimiter text path rest hd harray hunion =>
    obtain ⟨steps, n, hn⟩ := hc
    obtain ⟨m, hm⟩ := textWithin_of_deref hd hn
    simp only [textWithin, through, deref_idem hd] at hm
    cases t with
    | array e => exact absurd rfl (harray e)
    | union members => exact absurd rfl (hunion members)
    | _ => exact ⟨c, ⟨steps, hm⟩, fun _ hr => hr⟩

/-- A report is a complaint of the place itself, or a report about what it hands on. -/
theorem jsonStep_reports {n : Nat} {s t : Schema} {v : Json} {path : String} {c : Coerced Typed}
    {r : Report} (hd : deref ds maxHops s = .ok t)
    (h : jsonStep (jsonWithin ds extras n) ds extras t v path = some c) (hr : r ∈ c.reports) :
    Complains ds extras ⟨s, .json v, path⟩ r ∨
      ∃ s' v' path' d, Hands ds ⟨s, .json v, path⟩ ⟨s', .json v', path'⟩ ∧
        jsonWithin ds extras n s' v' path' = some d ∧ r ∈ d.reports := by
  cases t with
  | primitive kind =>
    cases h
    exact .inl (.primitive hd hr)
  | enum values =>
    cases h
    obtain ⟨hv, rfl⟩ := mem_reports_orRefuse.mp hr
    exact .inl (.unlisted hd hv)
  | array e =>
    cases v with
    | array vs =>
      simp only [jsonStep, bind, pure, Option.bind_eq_some_iff, Option.some.injEq,
        items_eq_mapM] at h
      obtain ⟨cs, hcs, rfl⟩ := h
      obtain ⟨d, hmem, hrd⟩ := mem_reports_sequence.mp hr
      obtain ⟨x, hx, hxd⟩ := mem_of_forall₂_right (mapM_eq_some_iff.mp hcs) hmem
      exact .inr ⟨_, _, _, d, .item hd hx, hxd, hrd⟩
    | _ =>
      cases h
      obtain rfl := List.mem_singleton.mp hr
      exact .inl (.noArray hd (by simp))
  | object o =>
    cases v with
    | object fields =>
      simp only [jsonStep, object, bind, pure, Option.bind_eq_some_iff, Option.some.injEq] at h
      obtain ⟨ps, hps, rfl⟩ := h
      rcases (parts_reports_iff hps).mp (mem_reports_sequence.mp hr) with
        ⟨name, p, e, hp, he, hre⟩ | ⟨key, w, e, hw, hn, he, hre⟩
      · rcases (property_reports_iff he).mp hre with ⟨w, d, hw, hgives, hrd⟩ | ⟨hnone, hreq, rfl⟩
        · exact .inr ⟨_, _, _, d, .property hd hp hw, hgives, hrd⟩
        · exact .inl (.missing hd hp hnone hreq)
      · rcases (extra_reports_iff he).mp hre with ⟨s', d, ha, hgives, hrd⟩ | ⟨ha, hreject, rfl⟩
        · exact .inr ⟨_, _, _, d, .extra hd hw hn ha, hgives, hrd⟩
        · exact .inl (.excess hd hw hn ha hreject)
    | _ =>
      cases h
      obtain rfl := List.mem_singleton.mp hr
      exact .inl (.noObject hd (by simp))
  | union members =>
    rcases firstMatch_eq_some h with ⟨_, _, _, _, -, -, -, -, rfl⟩ | ⟨hfail, rfl⟩
    · cases hr
    · obtain rfl := List.mem_singleton.mp hr
      refine .inl (.unmatched hd fun m hm => ?_)
      obtain ⟨d, hgives, hfails⟩ := hfail m hm
      exact ⟨d, ⟨n, hgives⟩, hfails⟩
  | intersection members =>
    simp only [jsonStep, intersection] at h
    cases ho : objects ds members with
    | error complaint =>
      rw [ho] at h
      cases h
      obtain rfl := List.mem_singleton.mp hr
      exact .inl (.unmerged hd ho)
    | ok os =>
      rw [ho] at h
      cases os with
      | some os => exact .inr ⟨_, _, _, c, .merged hd ho, h, hr⟩
      | none =>
        simp only [bind, pure, Option.bind_eq_some_iff, Option.some.injEq] at h
        obtain ⟨cs, hcs, rfl⟩ := h
        obtain ⟨d, hmem, hrd⟩ := mem_reports_sequence.mp hr
        obtain ⟨m, hm, hmd⟩ := mem_of_forall₂_right (mapM_eq_some_iff.mp hcs) hmem
        exact .inr ⟨_, _, _, d, .constraint hd ho hm, hmd, hrd⟩
  | reference name => exact absurd hd deref_ne_reference

theorem Arises.of_complains {w : Place} {r : Report} (h : Complains ds extras w r) :
    Arises ds extras w r := ⟨w, .refl, h⟩

theorem Arises.of_hands {w u : Place} {r : Report} (h : Hands ds w u)
    (hu : Arises ds extras u r) : Arises ds extras w r := by
  obtain ⟨x, hx, hr⟩ := hu
  exact ⟨x, .head h hx, hr⟩

theorem jsonWithin_arises {n : Nat} {s : Schema} {v : Json} {path : String} {c : Coerced Typed}
    {r : Report} (h : jsonWithin ds extras n s v path = some c) (hr : r ∈ c.reports) :
    Arises ds extras ⟨s, .json v, path⟩ r := by
  induction n generalizing s v path c with
  | zero => cases h
  | succ n ih =>
    simp only [jsonWithin, through] at h
    cases hd : deref ds maxHops s with
    | error complaint =>
      rw [hd] at h
      cases h
      obtain rfl := List.mem_singleton.mp hr
      exact .of_complains (.broken hd)
    | ok t =>
      rw [hd] at h
      rcases jsonStep_reports hd h hr with hown | ⟨s', v', path', d, hhands, hgives, hrd⟩
      · exact .of_complains hown
      · exact .of_hands hhands (ih hgives hrd)

theorem read_arises {s t : Schema} {text path : String} {c : Coerced Typed} {r : Report}
    (hd : deref ds maxHops s = .ok t) (ht : t.isStructured)
    (h : (match Json.parse? text with
      | some v => json ds extras t v path
      | none => some (Coerced.refuse path (.invalid (describe t)) (.string text))) = some c)
    (hr : r ∈ c.reports) : Arises ds extras ⟨s, .text text, path⟩ r := by
  cases hv : Json.parse? text with
  | some v =>
    rw [hv] at h
    exact .of_hands (.read hd ht hv) (jsonWithin_arises h hr)
  | none =>
    rw [hv] at h
    cases h
    obtain rfl := List.mem_singleton.mp hr
    exact .of_complains (.unread hd ht hv)

theorem oneTextWithin_arises {n : Nat} {s : Schema} {text path : String} {c : Coerced Typed}
    {r : Report} (h : oneTextWithin ds extras n s text path = some c) (hr : r ∈ c.reports) :
    Arises ds extras ⟨s, .text text, path⟩ r := by
  cases n with
  | zero => cases h
  | succ n =>
    simp only [oneTextWithin, through] at h
    cases hd : deref ds maxHops s with
    | error complaint =>
      rw [hd] at h
      cases h
      obtain rfl := List.mem_singleton.mp hr
      exact .of_complains (.broken hd)
    | ok t =>
      rw [hd] at h
      cases t with
      | primitive kind =>
        cases h
        exact .of_complains (.textPrimitive hd hr)
      | enum values =>
        cases h
        obtain ⟨hv, rfl⟩ := mem_reports_orRefuse.mp hr
        exact .of_complains (.textUnlisted hd hv)
      | union members =>
        rcases firstMatch_eq_some h with ⟨_, _, _, _, -, -, -, -, rfl⟩ | ⟨hfail, rfl⟩
        · cases hr
        · obtain rfl := List.mem_singleton.mp hr
          refine .of_complains (.unmatched hd fun m hm => ?_)
          obtain ⟨d, hgives, hfails⟩ := hfail m hm
          exact ⟨d, ⟨n, hgives⟩, hfails⟩
      | array e => exact read_arises hd rfl h hr
      | object o => exact read_arises hd rfl h hr
      | intersection members => exact read_arises hd rfl h hr
      | reference name => exact absurd hd deref_ne_reference

theorem first_arises {delimiter : Option Char} {steps : Nat} {s t : Schema}
    {values : List String} {path : String} {c : Coerced Typed} {r : Report}
    (hd : deref ds maxHops s = .ok t) (harray : ∀ e, t ≠ .array e)
    (hunion : ∀ members, t ≠ .union members)
    (h : (match values with
      | [] => some ⟨none, []⟩
      | text :: _ => oneTextWithin ds extras steps t text path) = some c)
    (hr : r ∈ c.reports) : Arises ds extras ⟨s, .texts delimiter values, path⟩ r := by
  cases values with
  | nil =>
    cases h
    cases hr
  | cons text rest => exact .of_hands (.first hd harray hunion) (oneTextWithin_arises h hr)

theorem textWithin_arises {delimiter : Option Char} {steps n : Nat} {s : Schema}
    {values : List String} {path : String} {c : Coerced Typed} {r : Report}
    (h : textWithin ds extras delimiter steps n s values path = some c) (hr : r ∈ c.reports) :
    Arises ds extras ⟨s, .texts delimiter values, path⟩ r := by
  cases n with
  | zero => cases h
  | succ n =>
    simp only [textWithin, through] at h
    cases hd : deref ds maxHops s with
    | error complaint =>
      rw [hd] at h
      cases h
      obtain rfl := List.mem_singleton.mp hr
      exact .of_complains (.broken hd)
    | ok t =>
      rw [hd] at h
      cases t with
      | array e =>
        simp only [bind, pure, Option.bind_eq_some_iff, Option.some.injEq, texts_eq_mapM] at h
        obtain ⟨cs, hcs, rfl⟩ := h
        obtain ⟨d, hmem, hrd⟩ := mem_reports_sequence.mp hr
        obtain ⟨x, hx, hxd⟩ := mem_of_forall₂_right (mapM_eq_some_iff.mp hcs) hmem
        exact .of_hands (.piece hd hx) (oneTextWithin_arises hxd hrd)
      | union members =>
        rcases firstMatch_eq_some h with ⟨_, _, _, _, -, -, -, -, rfl⟩ | ⟨hfail, rfl⟩
        · cases hr
        · obtain rfl := List.mem_singleton.mp hr
          refine .of_complains (.unmatched hd fun m hm => ?_)
          obtain ⟨d, hgives, hfails⟩ := hfail m hm
          exact ⟨d, ⟨steps, n, hgives⟩, hfails⟩
      | primitive kind => exact first_arises hd (by simp) (by simp) h hr
      | enum vs => exact first_arises hd (by simp) (by simp) h hr
      | object o => exact first_arises hd (by simp) (by simp) h hr
      | intersection members => exact first_arises hd (by simp) (by simp) h hr
      | reference name => exact absurd hd deref_ne_reference

/-- What a place reports, where its coercion ends, is what the places on its way complain of. -/
theorem Gives.reports_iff {w : Place} {c : Coerced Typed} (h : Gives ds extras w c) {r : Report} :
    r ∈ c.reports ↔ Arises ds extras w r := by
  constructor
  · intro hr
    obtain ⟨s, i, path⟩ := w
    cases i with
    | json v =>
      obtain ⟨n, hn⟩ := h
      exact jsonWithin_arises hn hr
    | text t =>
      obtain ⟨n, hn⟩ := h
      exact oneTextWithin_arises hn hr
    | texts delimiter values =>
      obtain ⟨steps, n, hn⟩ := h
      exact textWithin_arises hn hr
  · rintro ⟨u, hwu, hu⟩
    -- The reports are followed upwards, from the place that complains to the one that is asked.
    induction hwu using Relation.ReflTransGen.head_induction_on generalizing c with
    | refl => exact hu.reported h
    | head hhands _ ih =>
      obtain ⟨d, hd, hsub⟩ := hhands.reported h
      exact hsub r (ih hd)

/-- Every place on the way of one that ends does so too. -/
theorem Gives.reached {w u : Place} {c : Coerced Typed} (h : Gives ds extras w c)
    (hwu : Relation.ReflTransGen (Hands ds) w u) : ∃ d, Gives ds extras u d := by
  induction hwu with
  | refl => exact ⟨c, h⟩
  | tail _ hhands ih =>
    obtain ⟨d, hd⟩ := ih
    obtain ⟨e, he, -⟩ := hhands.reported hd
    exact ⟨e, he⟩

end

inductive Stands : String → String → Prop
  | here {path : String} : Stands path path
  | child {path name key : String} (h : Stands (child path name) key) : Stands path key
  | item {path key : String} {i : Nat} (h : Stands (index path i) key) : Stands path key

section

variable {ds : Definitions} {extras : Extras}

theorem reporting_stands (ds : Definitions) :
    Reporting ds (fun _ => True) fun path r => Stands path r.1 where
  object _ := trivial
  value _ _ _ _ := .here
  broken _ _ _ _ _ := .here
  child _ _ _ hr := .child hr
  item _ _ _ hr := .item hr

theorem Hands.stands {w u : Place} (h : Hands ds w u) {key : String} (hu : Stands u.path key) :
    Stands w.path key := by
  cases h with
  | item => exact .item hu
  | property => exact .child hu
  | extra => exact .child hu
  | merged => exact hu
  | constraint => exact hu
  | read => exact hu
  | piece => exact .item hu
  | first => exact hu

theorem Complains.stands {w : Place} {r : Report} (h : Complains ds extras w r) :
    Stands w.path r.1 := by
  cases h with
  | primitive hd hr => exact (reporting_stands ds).jsonPrimitive _ _ _ hr
  | textPrimitive hd hr => exact (reporting_stands ds).textPrimitive _ _ _ hr
  | missing => exact .child .here
  | excess => exact .child .here
  | _ => exact .here

/-- What arises at a place is keyed by its path or by one below it. -/
theorem Arises.stands {w : Place} {r : Report} (h : Arises ds extras w r) : Stands w.path r.1 := by
  obtain ⟨u, hwu, hu⟩ := h
  induction hwu using Relation.ReflTransGen.head_induction_on with
  | refl => exact hu.stands
  | head hhands _ ih => exact hhands.stands ih

end

end RouteContract.Coercion

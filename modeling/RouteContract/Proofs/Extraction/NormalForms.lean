import Mathlib.Data.List.Nodup
import RouteContract.Proofs.Extraction.Schemas
import RouteContract.Proofs.Samples
import RouteContract.Proofs.Schema.Objects
import RouteContract.Proofs.Schema.Unions

/-!
# Normal forms

The unions of a contract are canonical at every depth. Their members are distinct,
and so are the values of enums, in all places but two: a format is applied to the
members of a union one by one and may make some of them the same, and a declared
enum keeps the values of its members as they are.
-/

set_option autoImplicit false

namespace RouteContract

namespace Schema

section

variable (F : Format → Prop) (E : List EnumValue → Prop)

mutual

/-- Unions and enums are in normal form at every depth, but for some enums, and for formats on what
describes properties. -/
inductive Normal : Schema → Prop
  | primitive (kind : Primitive) : Normal (.primitive kind)
  | reference (name : String) : Normal (.reference name)
  | enum {values : List EnumValue} (h : Distinct EnumValue.same values ∨ E values) :
      Normal (.enum values)
  | array {s : Schema} (h : Normal s) : Normal (.array s)
  | union {ms : List Schema} (hms : Canonical ms) (hdistinct : Distinct Schema.same ms)
      (h : ∀ m ∈ ms, Normal m) : Normal (.union ms)
  | intersection {ms : List Schema} (h : ∀ m ∈ ms, Normal m) : Normal (.intersection ms)
  | object {o : ObjectSchema Schema}
      (hproperty : ∀ name p, (name, p) ∈ o.properties → Described p.schema)
      (hadditional : ∀ s, o.additional = .schema s → Normal s) : Normal (.object o)

inductive Described : Schema → Prop
  | plain {s : Schema} (h : Normal s) : Described s
  | formatted {s : Schema} {f : Format} (hf : F f) (h : Normal s) : Described (s.applyFormat f)

end

end

section

variable {F : Format → Prop} {E : List EnumValue → Prop} {s t : Schema} {ms : List Schema}

theorem Normal.child (h : Normal F E s) (ht : t ∈ s.children) : Described F E t := by
  cases h with
  | primitive | reference | enum => cases ht
  | array h => exact List.mem_singleton.mp ht ▸ .plain h
  | union _ _ h => exact .plain (h t ht)
  | intersection h => exact .plain (h t ht)
  | object hproperty hadditional =>
    rcases mem_children_object.mp ht with ⟨name, p, hp, rfl⟩ | ha
    · exact hproperty name p hp
    · exact .plain (hadditional t ha)

theorem Described.child (h : Described F E s) (ht : t ∈ s.children) : Described F E t := by
  cases h with
  | plain h => exact h.child ht
  | @formatted s f hf h =>
    -- A format goes into arrays and unions only.
    cases h with
    | primitive | reference | enum => cases ht
    | array h => exact List.mem_singleton.mp ht ▸ .formatted hf h
    | union _ _ h =>
      rw [applyFormat, applyFormatAll_eq] at ht
      obtain ⟨m, hm, rfl⟩ := List.mem_map.mp ht
      exact .formatted hf (h m hm)
    | intersection h => exact .plain (h t ht)
    | object hproperty hadditional => exact (Normal.object hproperty hadditional).child ht

theorem Described.union (h : Described F E (.union ms)) : Canonical ms ∧
    (Distinct Schema.same ms ∨ ∃ f ms₀, F f ∧ Canonical ms₀ ∧ Distinct Schema.same ms₀ ∧
      ms = ms₀.map (applyFormat f)) := by
  generalize hu : Schema.union ms = u at h
  cases h with
  | plain h =>
    cases h <;> cases hu
    rename_i hms hdistinct _
    exact ⟨hms, .inl hdistinct⟩
  | @formatted s f hf h =>
    cases h with
    | @union ms₀ hms hdistinct _ =>
      rw [applyFormat, applyFormatAll_eq] at hu
      cases hu
      exact ⟨hms.applyFormat f, .inr ⟨f, ms₀, hf, hms, hdistinct, rfl⟩⟩
    | _ => cases hu

theorem Described.enum {values : List EnumValue} (h : Described F E (.enum values)) :
    Distinct EnumValue.same values ∨ E values := by
  generalize he : Schema.enum values = e at h
  cases h with
  | plain h =>
    cases h <;> cases he
    assumption
  | @formatted s f hf h =>
    cases h with
    | enum h =>
      cases he
      exact h
    | _ => cases he

theorem Normal.unionOf (hne : ms ≠ []) (h : ∀ m ∈ ms, Normal F E m) :
    Normal F E (unionOf ms) := by
  have hnested : ∀ nested, Schema.union nested ∈ ms → Canonical nested := by
    intro nested hn
    cases h _ hn
    assumption
  have hopened : ∀ m ∈ ms.flatMap opened, Normal F E m := by
    intro t ht
    obtain ⟨m, hm, ht⟩ := List.mem_flatMap.mp ht
    cases m with
    | union nested =>
      cases h _ hm with
      | union _ _ hmembers => exact hmembers t ht
    | _ => exact List.mem_singleton.mp ht ▸ h _ hm
  rcases unionOf_cases hne hnested with hmem | ⟨values, he, hdistinct⟩ | ⟨flat, he, hcanonical,
    hdistinct, hsub⟩
  · exact hopened _ hmem
  · exact he ▸ .enum (.inl hdistinct)
  · exact he ▸ .union hcanonical hdistinct fun m hm => hopened m (hsub hm)

end

end Schema

theorem TypeExpr.nodup_stringLiterals {t : TypeExpr} {values : List String}
    (h : t.stringLiterals? = some values) : values.Nodup := by
  unfold stringLiterals? at h
  split at h
  · cases h
    exact List.nodup_singleton _
  · refine foldlM_carries (P := fun _ vs => vs.Nodup) h .nil fun _ vs vs' t _ hvs hstep => ?_
    split at hstep
    · cases hstep
      split
      · exact hvs
      · rename_i hnew
        exact hvs.append (List.nodup_singleton _) (by simpa using hnew)
    · cases hstep
  · cases h

def Graph.Enumerates (g : Graph) (values : List EnumValue) : Prop :=
  ∃ d ∈ g.declarations, ∃ ms, d.kind = .enum ms ∧ ms.mapM (·.value? d) = .ok values

open Resolve (Assembles) in
open Schema (Normal Described) in
/-- Resolution keeps normal forms. -/
theorem Resolve.assembles_normal {g : Graph} {N : Resolve.Node → Prop} {F : Format → Prop}
    {R : Registry} : Assembles g N F R (Normal F g.Enumerates) (Described F g.Enumerates) := by
  constructor
  case primitive => exact .primitive
  case literal =>
    intro l
    cases l with
    | string s => exact .enum (.inl (List.pairwise_singleton _ _))
    | number x => exact .enum (.inl (List.pairwise_singleton _ _))
    | boolean b => exact .primitive .boolean
  case aliased =>
    intro t values h
    refine .enum (.inl (List.pairwise_map.mpr ?_))
    refine (TypeExpr.nodup_stringLiterals h).imp fun hne => ?_
    simpa [EnumValue.same] using hne
  case enumerated => exact fun hd hk hvalues => .enum (.inr ⟨_, hd, _, hk, hvalues⟩)
  case reference => exact .reference
  case array => exact .array
  case plain => exact .plain
  case format => exact .formatted
  case union => exact Normal.unionOf
  case intersection => exact .intersection
  case object => exact fun ho => .object (fun _ _ hp => (ho.property hp).1) fun _ => ho.additional
  case merged =>
    intro os _ hos
    have hchild : ∀ o ∈ os, ∀ t ∈ (Schema.object o).children, Described F g.Enumerates t :=
      fun o ho t ht => (hos o ho).child ht
    refine .object (fun name p hp => ?_) fun s ha => ?_
    · obtain ⟨o, ho, q, hq, hschema, -⟩ := ObjectSchema.merged_property hp
      exact hschema ▸ hchild o ho _ (Schema.mem_children_object.mpr (.inl ⟨name, q, hq, rfl⟩))
    · rcases ObjectSchema.merged_additional ha with he | ⟨o, ho, ha⟩
      · cases he
      · cases hos o ho with
        | object _ hadditional => exact hadditional s ha

open Schema (Canonical) in
/-- At every depth of a contract a union has several members, none of them a union, that are not
all enums of one kind. They are distinct unless a format was applied to distinct ones, and so are
the values of an enum unless they are those of a declared one. -/
theorem Graph.contract_normal {g : Graph} {combination : Combination} {c : Contract}
    (h : g.contract combination = .ok c) {s t : Schema} (hs : c.Mentions s)
    (ht : Schema.Reaches c.definitions s t) :
    (∀ ms, t = .union ms → Canonical ms ∧
      (Distinct Schema.same ms ∨ ∃ f ms₀, g.Formats f ∧ Canonical ms₀ ∧
        Distinct Schema.same ms₀ ∧ ms = ms₀.map (Schema.applyFormat f))) ∧
    ∀ values, t = .enum values → Distinct EnumValue.same values ∨ g.Enumerates values := by
  obtain ⟨R, -, hassembled⟩ := Graph.contract_assembled h
  obtain ⟨hshown, -⟩ := hassembled _ _ Resolve.assembles_normal
  have hdescribed := c.reached hshown (fun s hs t ht => hs.child ht) hs ht
  constructor
  · rintro ms rfl
    exact hdescribed.union
  · rintro values rfl
    exact hdescribed.enum

namespace Sample

def moment : Graph where
  declarations := []
  controllers := [posting [{ parameter "at" (.union [.keyword .string, .named "Date"])
    (.query none) with format := some .datetime }]]

def doubled : Graph where
  declarations := [{ interface "E" [] [] with
    kind := .enum [⟨"A", .string "x"⟩, ⟨"B", .string "x"⟩] }]
  controllers := [posting [parameter "e" (.named "E") (.query none)]]

def repeatsMember : Schema → Bool
  | .union [s, t] => s.same t
  | _ => false

def repeatsValue : Schema → Bool
  | .enum [a, b] => a.same b
  | _ => false

theorem moment_repeats : ∃ c ms, moment.contract .anyOf = .ok c ∧ c.Mentions (.union ms) ∧
    ¬ Distinct Schema.same ms := by
  have hrepeats : ∃ c o, moment.contract .anyOf = .ok c ∧ o ∈ c.operations ∧
      o.parameters.any fun p => p.schema.any repeatsMember :=
    exists_operation (by decide +kernel)
  obtain ⟨c, o, hc, ho, hany⟩ := hrepeats
  obtain ⟨p, hp, hany⟩ := List.any_eq_true.mp hany
  obtain ⟨s, hs, hrepeats⟩ := (Option.any_eq_true _ _).mp hany
  unfold repeatsMember at hrepeats
  split at hrepeats
  · refine ⟨c, _, hc, .parameter ho hp hs, fun hdistinct => ?_⟩
    rw [List.pairwise_pair.mp hdistinct] at hrepeats
    cases hrepeats
  · cases hrepeats

theorem doubled_repeats : ∃ c values, doubled.contract .anyOf = .ok c ∧
    c.Mentions (.enum values) ∧ ¬ Distinct EnumValue.same values := by
  have hrepeats : ∃ c o, doubled.contract .anyOf = .ok c ∧ o ∈ c.operations ∧
      c.definitions.any fun d => repeatsValue d.2.schema :=
    exists_operation (by decide +kernel)
  obtain ⟨c, -, hc, -, hany⟩ := hrepeats
  obtain ⟨⟨name, ⟨schema, description, origin⟩⟩, hd, hrepeats⟩ := List.any_eq_true.mp hany
  unfold repeatsValue at hrepeats
  split at hrepeats
  · rename_i he
    obtain rfl : schema = _ := he
    refine ⟨c, _, hc, .definition hd, fun hdistinct => ?_⟩
    rw [List.pairwise_pair.mp hdistinct] at hrepeats
    cases hrepeats
  · cases hrepeats

/-- Neither the members of all unions nor the values of all enums are distinct. -/
theorem moment_not_distinct :
    (∃ c, moment.contract .anyOf = .ok c ∧
      ¬ ∀ s t, c.Mentions s → Schema.Reaches c.definitions s t →
        ∀ ms, t = .union ms → Distinct Schema.same ms) ∧
    ∃ c, doubled.contract .anyOf = .ok c ∧
      ¬ ∀ s t, c.Mentions s → Schema.Reaches c.definitions s t →
        ∀ values, t = .enum values → Distinct EnumValue.same values := by
  obtain ⟨c, ms, hc, hms, hrepeats⟩ := moment_repeats
  obtain ⟨c', values, hc', hvalues, hrepeats'⟩ := doubled_repeats
  exact ⟨⟨c, hc, fun hall => hrepeats (hall _ _ hms .refl ms rfl)⟩,
    ⟨c', hc', fun hall => hrepeats' (hall _ _ hvalues .refl values rfl)⟩⟩

/-- The repeated members are what a format made of distinct ones. -/
theorem moment_formatted : ∃ c ms, moment.contract .anyOf = .ok c ∧ c.Mentions (.union ms) ∧
    ∃ f ms₀, moment.Formats f ∧ Schema.Canonical ms₀ ∧ Distinct Schema.same ms₀ ∧
      ms = ms₀.map (Schema.applyFormat f) := by
  obtain ⟨c, ms, hc, hms, hrepeats⟩ := moment_repeats
  obtain ⟨-, hcases⟩ := (Graph.contract_normal hc hms .refl).1 ms rfl
  exact ⟨c, ms, hc, hms, hcases.resolve_left hrepeats⟩

end Sample

end RouteContract

import RouteContract.Proofs.Coercion.Reports
import RouteContract.Proofs.Extraction.Contracts
import RouteContract.Proofs.Operation
import RouteContract.Validation

/-!
# Fields of the body

The body fields of an operation are the properties of one object: a wire name
stands once in it, for the last parameter of that name. Where the object is
coerced without a report, a field has a value exactly when the body gives one or
that parameter has a default.
-/

set_option autoImplicit false

namespace RouteContract

def fieldWires (ps : List BoundParameter) : List String :=
  (ps.filter (·.source = .field)).map (·.wire)

def LastField (ps : List BoundParameter) (wire : String) (q : BoundParameter) : Prop :=
  ∃ before after, ps = before ++ q :: after ∧ q.source = .field ∧ q.wire = wire ∧
    wire ∉ fieldWires after

theorem mem_fieldWires {ps : List BoundParameter} {wire : String} :
    wire ∈ fieldWires ps ↔ ∃ p ∈ ps, p.source = .field ∧ p.wire = wire := by
  simp [fieldWires, and_assoc]

theorem fieldWires_append (ps qs : List BoundParameter) :
    fieldWires (ps ++ qs) = fieldWires ps ++ fieldWires qs := by
  simp [fieldWires]

theorem exists_lastField {ps : List BoundParameter} {wire : String} (h : wire ∈ fieldWires ps) :
    ∃ q, LastField ps wire q := by
  induction ps with
  | nil => simp [fieldWires] at h
  | cons p ps ih =>
    by_cases hw : wire ∈ fieldWires ps
    · obtain ⟨q, before, after, rfl, hq⟩ := ih hw
      exact ⟨q, p :: before, after, rfl, hq⟩
    · obtain ⟨q, hq, hsource, hwire⟩ := mem_fieldWires.mp h
      rcases List.mem_cons.mp hq with rfl | hq
      · exact ⟨q, [], ps, rfl, hsource, hwire, hw⟩
      · exact absurd (mem_fieldWires.mpr ⟨q, hq, hsource, hwire⟩) hw

theorem LastField.unique {ps : List BoundParameter} {wire : String} {p q : BoundParameter}
    (hp : LastField ps wire p) (hq : LastField ps wire q) : p = q := by
  obtain ⟨before, after, hps, hpf, hpw, hafter⟩ := hp
  obtain ⟨before', after', hqs, hqf, hqw, hafter'⟩ := hq
  -- The one of the two that stands later shows that the other is not the last.
  rw [hps] at hqs
  rcases List.append_eq_append_iff.mp hqs with ⟨mid, -, he⟩ | ⟨mid, -, he⟩
  · cases mid with
    | nil => cases he; rfl
    | cons x mid =>
      cases he
      exact absurd (mem_fieldWires.mpr ⟨q, by simp, hqf, hqw⟩) hafter
  · cases mid with
    | nil => cases he; rfl
    | cons x mid =>
      cases he
      exact absurd (mem_fieldWires.mpr ⟨p, by simp, hpf, hpw⟩) hafter'

/-- Where wire names do not repeat, every body field is the last of its name. -/
theorem lastField_of_nodup {ps : List BoundParameter} (h : (fieldWires ps).Nodup)
    {p : BoundParameter} (hp : p ∈ ps) (hf : p.source = .field) : LastField ps p.wire p := by
  obtain ⟨before, after, rfl⟩ := List.append_of_mem hp
  refine ⟨before, after, rfl, hf, rfl, ?_⟩
  rw [fieldWires_append] at h
  have hafter : fieldWires (p :: after) = p.wire :: fieldWires after := by simp [fieldWires, hf]
  rw [hafter] at h
  exact (List.nodup_cons.mp (List.nodup_append.mp h).2.1).1

theorem addProperty_nodup {table : Entries String (PropertySchema Schema)}
    (h : table.keys.Nodup) (p : BoundParameter) : (addProperty table p).keys.Nodup := by
  unfold addProperty
  split
  · exact Entries.nodup_insert h _ _
  · exact h

theorem bodyObject_nodup (ps : List BoundParameter) :
    (Entries.keys (bodyObject ps).properties).Nodup := by
  rw [bodyObject_properties]
  have general : ∀ table : Entries String (PropertySchema Schema), table.keys.Nodup →
      (Entries.keys (ps.foldl addProperty table)).Nodup := by
    induction ps with
    | nil => exact fun table h => h
    | cons p ps ih => exact fun table h => ih _ (addProperty_nodup h p)
  exact general [] List.nodup_nil

theorem find?_foldl_addProperty {ps : List BoundParameter} {wire : String}
    (h : wire ∉ fieldWires ps) (table : Entries String (PropertySchema Schema)) :
    Entries.find? (ps.foldl addProperty table) wire = table.find? wire := by
  induction ps generalizing table with
  | nil => rfl
  | cons p ps ih =>
    have hps : wire ∉ fieldWires ps := by
      intro hw
      obtain ⟨q, hq, hqs⟩ := mem_fieldWires.mp hw
      exact h (mem_fieldWires.mpr ⟨q, List.mem_cons_of_mem p hq, hqs⟩)
    rw [List.foldl_cons, ih hps]
    unfold addProperty
    split
    · rename_i hf _
      have hne : p.wire ≠ wire :=
        fun he => h (mem_fieldWires.mpr ⟨p, List.mem_cons_self, hf, he⟩)
      rw [Entries.find?_insert, if_neg hne]
    · rfl

/-- The object has the schema of the last body field of each wire name. -/
theorem bodyObject_find? {ps : List BoundParameter} {wire : String} {q : BoundParameter}
    (hq : LastField ps wire q) {schema : Schema} (hs : q.schema = some schema) :
    Entries.find? (bodyObject ps).properties wire =
      some ⟨schema, q.required, q.default, q.description⟩ := by
  obtain ⟨before, after, rfl, hf, rfl, hafter⟩ := hq
  rw [bodyObject_properties, List.foldl_append, List.foldl_cons, find?_foldl_addProperty hafter]
  simp [addProperty, hf, hs, Entries.find?_insert]

namespace Coercion

section

variable {extras : Extras} {J : Schema → Json → String → Option (Coerced Typed)}
  {o : ObjectSchema Schema} {given : List (String × Json)} {path : String}
  {ps : List (Coerced (Option (String × Typed)))}

theorem mem_present {k : String} {t : Typed} :
    (k, t) ∈ present ps ↔ ∃ c ∈ ps, c.value? = some (some (k, t)) := by
  simp [present, Option.join_eq_some_iff]

/-- The entry of a declared property comes from its own part. -/
theorem declared_part (hnodup : (Entries.keys o.properties).Nodup)
    (h : parts J extras o given path = some ps) {name : String} {p : PropertySchema Schema}
    (hp : Entries.find? o.properties name = some p) :
    ∃ c ∈ ps, property J name p (Entries.find? given name) path = some c ∧
      ∀ t, (name, t) ∈ present ps ↔ c.value? = some (some (name, t)) := by
  obtain ⟨declared, undeclared, rfl, hd, hu⟩ := parts_eq_some h
  have hmem := Entries.mem_of_find? hp
  obtain ⟨c, hc, hprop⟩ := mem_of_forall₂_left hd hmem
  refine ⟨c, List.mem_append_left _ hc, hprop, fun t => ⟨fun ht => ?_, fun ht => ?_⟩⟩
  · obtain ⟨c', hc', hv⟩ := mem_present.mp ht
    rcases List.mem_append.mp hc' with hc' | hc'
    · obtain ⟨⟨k, q⟩, hx, hprop'⟩ := mem_of_forall₂_right hd hc'
      have hk : name = k := property_key hprop' hv
      subst hk
      have hq : q = p := Entries.eq_of_nodup hnodup hx hmem
      subst hq
      rw [hprop] at hprop'
      cases hprop'
      exact hv
    · obtain ⟨x, hx, hextra⟩ := mem_of_forall₂_right hu hc'
      have hk : name = x.1 := extra_key hextra hv
      have hn := (List.mem_filter.mp hx).2
      rw [← hk] at hn
      simp [Entries.contains, hp] at hn
  · exact mem_present.mpr ⟨c, List.mem_append_left _ hc, ht⟩

theorem present_append (ps qs : List (Coerced (Option (String × Typed)))) :
    present (ps ++ qs) = present ps ++ present qs := by
  simp [present]

theorem present_keys_sublist {props : List (String × PropertySchema Schema)}
    {f : String × PropertySchema Schema → Option (Coerced (Option (String × Typed)))}
    (h : List.Forall₂ (fun x c => f x = some c) props ps)
    (hkey : ∀ x c k t, f x = some c → c.value? = some (some (k, t)) → k = x.1) :
    (Entries.keys (present ps)).Sublist (Entries.keys props) := by
  induction h with
  | nil => exact .slnil
  | @cons x c xs cs hx _ ih =>
    cases hv : c.value?.join with
    | none =>
      have hp : present (c :: cs) = present cs := by simp [present, hv]
      rw [hp]
      exact ih.cons _
    | some e =>
      have hp : present (c :: cs) = e :: present cs := by simp [present, hv]
      have hk : e.1 = x.1 := hkey x c e.1 e.2 hx (Option.join_eq_some_iff.mp hv)
      rw [hp]
      simp only [Entries.keys, List.map_cons, hk]
      exact ih.cons_cons _

/-- A declared property has at most one entry. -/
theorem count_declared_le (hnodup : (Entries.keys o.properties).Nodup)
    (h : parts J extras o given path = some ps) (name : String)
    (hname : Entries.contains o.properties name) :
    (Entries.keys (present ps)).count name ≤ 1 := by
  obtain ⟨declared, undeclared, rfl, hd, hu⟩ := parts_eq_some h
  have hsub := present_keys_sublist hd fun x c k t hx hv => property_key hx hv
  have hdeclared : (Entries.keys (present declared)).count name ≤ 1 :=
    List.nodup_iff_count.mp (hnodup.sublist hsub) name
  have hundeclared : (Entries.keys (present undeclared)).count name = 0 := by
    rw [List.count_eq_zero, Entries.mem_keys]
    rintro ⟨t, ht⟩
    obtain ⟨c, hc, hv⟩ := mem_present.mp ht
    obtain ⟨x, hx, hextra⟩ := mem_of_forall₂_right hu hc
    have hn := (List.mem_filter.mp hx).2
    rw [← extra_key hextra hv, hname] at hn
    cases hn
  have happend : Entries.keys (present (declared ++ undeclared)) =
      Entries.keys (present declared) ++ Entries.keys (present undeclared) := by
    simp [present_append, Entries.keys]
  rw [happend, List.count_append]
  omega

end

section

variable {ds : Definitions} {extras : Extras} {o : ObjectSchema Schema}
  {given : List (String × Json)} {path : String} {entries : Entries String Typed}

/-- The entry of a declared property is the one that its own part gives, and what that part reports
is reported. -/
theorem fields_entry (hnodup : (Entries.keys o.properties).Nodup) {reports : List Report}
    (h : fields ds extras o given path = some (entries, reports)) {name : String}
    {p : PropertySchema Schema} (hp : Entries.find? o.properties name = some p) :
    entries.keys.count name ≤ 1 ∧ ∃ n c,
      property (jsonWithin ds extras n) name p (Entries.find? given name) path = some c ∧
        (∀ t, entries.find? name = some t ↔ c.value? = some (some (name, t))) ∧
        ∀ rep ∈ c.reports, rep ∈ reports := by
  simp only [fields, bind, pure, Option.bind_eq_some_iff, Option.some.injEq, Prod.mk.injEq] at h
  obtain ⟨ps, hps, rfl, rfl⟩ := h
  obtain ⟨c, hc, hprop, hentry⟩ := declared_part hnodup hps hp
  refine ⟨count_declared_le hnodup hps name (by simp [Entries.contains, hp]), _, c, hprop, ?_, ?_⟩
  · intro t
    constructor
    · exact fun ht => (hentry t).mp (Entries.mem_of_find? ht)
    · intro ht
      have hkey : name ∈ Entries.keys (present ps) := Entries.mem_keys.mpr ⟨t, (hentry t).mpr ht⟩
      obtain ⟨t', ht'⟩ := Option.isSome_iff_exists.mp (Entries.find?_isSome_iff.mpr hkey)
      have hsame := (hentry t').mp (Entries.mem_of_find? ht')
      rw [ht] at hsame
      cases hsame
      exact ht'
  · intro rep hrep
    rw [Coerced.sequence_reports]
    exact List.mem_flatMap.mpr ⟨c, hc, hrep⟩

/-- Where an object is coerced without a report, a declared property has an entry exactly when a
value or a default is there, and it has one when it is required. -/
theorem fields_declared (hnodup : (Entries.keys o.properties).Nodup)
    (h : fields ds extras o given path = some (entries, [])) {name : String}
    {p : PropertySchema Schema} (hp : Entries.find? o.properties name = some p) :
    ((entries.find? name).isSome ↔ ((Entries.find? given name).or p.default).isSome) ∧
      (p.required → ((Entries.find? given name).or p.default).isSome) ∧
      (∀ t, entries.find? name = some t → ∃ n v c,
        jsonWithin ds extras n p.schema v (child path name) = some c ∧ c.value? = some t) ∧
      entries.keys.count name ≤ 1 := by
  obtain ⟨hcount, n, c, hprop, hentry, hsub⟩ := fields_entry hnodup h hp
  have hreports : c.reports = [] := List.eq_nil_iff_forall_not_mem.mpr fun r hr => by
    cases hsub r hr
  have hfind : (entries.find? name).isSome ↔ ∃ t, c.value? = some (some (name, t)) := by
    rw [Option.isSome_iff_exists]
    exact exists_congr hentry
  rcases property_eq_some hprop with ⟨v, d, hv, hd, rfl⟩ | ⟨hv, hn, hr⟩
  · have hd' : d.value?.isSome := (jsonWithin_honest _ _ _ _ _ hd).isSome_iff.mpr hreports
    obtain ⟨u, hu⟩ := Option.isSome_iff_exists.mp hd'
    refine ⟨?_, fun _ => by simp [hv], fun t ht => ?_, hcount⟩
    · rw [hfind, hv]
      simp [Coerced.map, hu]
    · obtain ⟨u', hu', he⟩ := Option.map_eq_some_iff.mp ((hentry t).mp ht)
      cases he
      exact ⟨n, v, d, hd, hu'⟩
  · refine ⟨?_, fun hreq => absurd hreports (hr hreq), fun t ht => ?_, hcount⟩
    · rw [hfind, hv]
      simp only [Option.isSome_none, Bool.false_eq_true, iff_false]
      rintro ⟨t, ht⟩
      rw [ht] at hn
      cases hn
    · rw [(hentry t).mp ht] at hn
      cases hn

end

end Coercion

end RouteContract

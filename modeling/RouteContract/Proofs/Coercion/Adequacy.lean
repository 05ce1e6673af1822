import Mathlib.Data.List.ProdSigma
import RouteContract.Proofs.Coercion.Calls
import RouteContract.Proofs.Schema.Nodes

/-!
# The budget of coercion is adequate

All that the coercion of a value asks for is a node of its schema, of a
definition or a merged object, against a node of the value or of a default. A
chain of calls longer than the budget therefore asks for itself. A value shrinks
or keeps to ever smaller unions and intersections until a default is taken, so
what never ends is a default that needs itself.
-/

set_option autoImplicit false

namespace RouteContract

namespace Coercion

section

variable (ds : Definitions) (s : Schema) (v : Json)

def plainNodes : List Schema :=
  Schema.tree.nodes s ++ ds.values.flatMap fun d => Schema.tree.nodes d.schema

def mergedOf : Schema → List Schema
  | .intersection members =>
    match objects ds members with
    | .ok (some os) => [.object (os.foldl ObjectSchema.merge .empty)]
    | _ => []
  | _ => []

def schemasMet : List Schema := (plainNodes ds s).flatMap fun t => t :: mergedOf ds t

def valuesMet : List Json :=
  Json.tree.nodes v ++ (plainNodes ds s).flatMap fun t => t.ownDefaults.flatMap Json.tree.nodes

def attemptsMet : List Attempt :=
  (schemasMet ds s ×ˢ valuesMet ds s v).map fun x => ⟨x.1, x.2⟩

end

section

variable {ds : Definitions} {extras : Extras} {s : Schema} {v : Json}

theorem length_flatMap_le {α β : Type} {f : α → List β} {w : α → Nat}
    (h : ∀ x, (f x).length ≤ w x) (xs : List α) : (xs.flatMap f).length ≤ (xs.map w).sum := by
  rw [List.length_flatMap]
  exact List.sum_le_sum fun x _ => h x

theorem sum_plainNodes_le {count total : Schema → Nat}
    (h : ∀ t, count t + (t.children.map total).sum = total t) :
    ((plainNodes ds s).map count).sum ≤
      total s + ((ds.values.map (·.schema)).map total).sum := by
  have hle := Schema.tree.sum_nodes_le fun t => (h t).le
  rw [plainNodes, List.map_append, List.sum_append]
  apply Nat.add_le_add (hle s)
  rw [List.flatMap, List.map_flatten, List.sum_flatten, List.map_map, List.map_map, List.map_map]
  exact List.sum_le_sum fun d _ => hle d.schema

theorem schemasMet_length : (schemasMet ds s).length ≤ schemaNodes ds s := by
  have hone : ∀ t, (t :: mergedOf ds t).length ≤ t.weight := by
    intro t
    cases t with
    | intersection members =>
      simp only [mergedOf, Schema.weight]
      split <;> simp
    | _ => simp [mergedOf, Schema.weight]
  rw [schemaNodes, Schema.sizeAll_eq]
  exact (length_flatMap_le hone _).trans (sum_plainNodes_le Schema.size_eq)

theorem valuesMet_length : (valuesMet ds s v).length ≤ valueNodes ds s v := by
  have hone : ∀ t : Schema,
      (t.ownDefaults.flatMap Json.tree.nodes).length ≤ (t.ownDefaults.map Json.size).sum :=
    fun t => length_flatMap_le Json.nodes_length _
  have hd : ((plainNodes ds s).flatMap fun t => t.ownDefaults.flatMap Json.tree.nodes).length ≤ _ :=
    (length_flatMap_le hone _).trans (sum_plainNodes_le Schema.defaults_eq)
  have hv := Json.nodes_length v
  rw [valueNodes, Schema.defaultsAll_eq, valuesMet, List.length_append]
  omega

theorem attemptsMet_length :
    (attemptsMet ds s v).length ≤ schemaNodes ds s * valueNodes ds s v := by
  rw [attemptsMet, List.length_map, List.length_product]
  exact Nat.mul_le_mul schemasMet_length valuesMet_length

theorem mem_attemptsMet {t : Schema} {w : Json} :
    ⟨t, w⟩ ∈ attemptsMet ds s v ↔ t ∈ schemasMet ds s ∧ w ∈ valuesMet ds s v := by
  simp [attemptsMet]

theorem plainNodes_closed {t u : Schema} (ht : t ∈ plainNodes ds s) (h : Schema.Part ds t u) :
    u ∈ plainNodes ds s := by
  rcases h.child with hc | ⟨name, d, -, hd, rfl⟩
  · rcases List.mem_append.mp ht with ht | ht
    · exact List.mem_append_left _ (Schema.tree.nodes_closed ht hc)
    · obtain ⟨d, hd, ht⟩ := List.mem_flatMap.mp ht
      exact List.mem_append_right _ (List.mem_flatMap.mpr ⟨d, hd, Schema.tree.nodes_closed ht hc⟩)
  · have hv : d ∈ ds.values := List.mem_map_of_mem (Entries.mem_of_find? hd)
    exact List.mem_append_right _ (List.mem_flatMap.mpr ⟨d, hv, Schema.tree.mem_nodes_self _⟩)

theorem plainNodes_reaches {t u : Schema} (ht : t ∈ plainNodes ds s) (h : Schema.Reaches ds t u) :
    u ∈ plainNodes ds s := by
  induction h with
  | refl => exact ht
  | tail _ hp ih => exact plainNodes_closed ih hp

theorem mem_schemasMet {t : Schema} :
    t ∈ schemasMet ds s ↔ t ∈ plainNodes ds s ∨
      ∃ members os, .intersection members ∈ plainNodes ds s ∧
        objects ds members = .ok (some os) ∧ t = .object (os.foldl ObjectSchema.merge .empty) := by
  simp only [schemasMet, List.mem_flatMap, List.mem_cons]
  constructor
  · rintro ⟨u, hu, rfl | ht⟩
    · exact .inl hu
    · unfold mergedOf at ht
      split at ht
      · rename_i members
        split at ht
        · rename_i os ho
          exact .inr ⟨members, os, hu, ho, List.mem_singleton.mp ht⟩
        · cases ht
      · cases ht
  · rintro (ht | ⟨members, os, hm, ho, rfl⟩)
    · exact ⟨t, ht, .inl rfl⟩
    · exact ⟨_, hm, .inr (by simp [mergedOf, ho])⟩

theorem schemasMet_part {t u : Schema} (ht : t ∈ schemasMet ds s) (h : Schema.Part ds t u) :
    u ∈ plainNodes ds s := by
  rcases mem_schemasMet.mp ht with ht | ⟨members, os, hm, ho, rfl⟩
  · exact plainNodes_closed ht h
  · exact plainNodes_reaches hm (merged_part ho h)

theorem schemasMet_reaches {t u : Schema} (ht : t ∈ schemasMet ds s) (h : Schema.Reaches ds t u) :
    u ∈ schemasMet ds s := by
  rcases Relation.ReflTransGen.cases_head h with rfl | ⟨x, hp, hx⟩
  · exact ht
  · exact mem_schemasMet.mpr (.inl (plainNodes_reaches (schemasMet_part ht hp) hx))

theorem valuesMet_closed {w u : Json} (hw : w ∈ valuesMet ds s v) (hu : u ∈ w.children) :
    u ∈ valuesMet ds s v := by
  rcases List.mem_append.mp hw with hw | hw
  · exact List.mem_append_left _ (Json.tree.nodes_closed hw hu)
  · obtain ⟨t, ht, hw⟩ := List.mem_flatMap.mp hw
    obtain ⟨d, hd, hw⟩ := List.mem_flatMap.mp hw
    refine List.mem_append_right _ (List.mem_flatMap.mpr ⟨t, ht, List.mem_flatMap.mpr ⟨d, hd, ?_⟩⟩)
    exact Json.tree.nodes_closed hw hu

theorem default_met {o : ObjectSchema Schema} (ho : .object o ∈ schemasMet ds s) {name : String}
    {p : PropertySchema Schema} (hp : (name, p) ∈ o.properties) {d : Json}
    (hd : p.default = some d) : d ∈ valuesMet ds s v := by
  have plain : ∀ o' : ObjectSchema Schema, .object o' ∈ plainNodes ds s →
      ∀ q, (name, q) ∈ o'.properties → q.default = some d → d ∈ valuesMet ds s v := by
    intro o' ho' q hq hqd
    have hown : d ∈ (Schema.object o').ownDefaults := List.mem_filterMap.mpr ⟨(name, q), hq, hqd⟩
    exact List.mem_append_right _ (List.mem_flatMap.mpr
      ⟨_, ho', List.mem_flatMap.mpr ⟨d, hown, Json.tree.mem_nodes_self d⟩⟩)
  rcases mem_schemasMet.mp ho with ho | ⟨members, os, hm, hos, heq⟩
  · exact plain o ho p hp hd
  · cases heq
    -- The default of a merged property is the default of a member's property.
    obtain ⟨o', ho', q, hq, hpq⟩ := ObjectSchema.merged_property hp
    obtain ⟨m, hmem, hderef⟩ := mem_of_forall₂_right (objects_eq_some hos) ho'
    have hreach := plainNodes_reaches hm (.head (.constraint hmem) (deref_reaches hderef))
    exact plain o' hreach q hq (hpq.2 ▸ hd)

theorem attemptsMet_closed {a b : Attempt} (ha : a ∈ attemptsMet ds s v)
    (h : Calls ds extras a b) : b ∈ attemptsMet ds s v := by
  obtain ⟨t, w⟩ := a
  obtain ⟨ht, hw⟩ := mem_attemptsMet.mp ha
  have met : ∀ {u x}, deref ds maxHops t = .ok u → Schema.Part ds u x → x ∈ schemasMet ds s :=
    fun hd hp => mem_schemasMet.mpr
      (.inl (schemasMet_part (schemasMet_reaches ht (deref_reaches hd)) hp))
  rcases h with h | h
  · cases h with
    | item hd hv => exact mem_attemptsMet.mpr ⟨met hd (.element _), valuesMet_closed hw hv⟩
    | declared hd hp hv =>
      exact mem_attemptsMet.mpr ⟨met hd (.property hp),
        valuesMet_closed hw (List.mem_map_of_mem (Entries.mem_of_find? hv))⟩
    | undeclared hd hv _ hs =>
      exact mem_attemptsMet.mpr ⟨met hd (.additional hs),
        valuesMet_closed hw (List.mem_map_of_mem hv)⟩
    | alternative hd _ => exact mem_attemptsMet.mpr ⟨met hd (.alternative (by simp)), hw⟩
    | merged hd ho =>
      rcases mem_schemasMet.mp (schemasMet_reaches ht (deref_reaches hd)) with hm | ⟨_, _, _, _, he⟩
      · exact mem_attemptsMet.mpr ⟨mem_schemasMet.mpr (.inr ⟨_, _, hm, ho, rfl⟩), hw⟩
      · cases he
    | constraint hd _ hm => exact mem_attemptsMet.mpr ⟨met hd (.constraint hm), hw⟩
  · cases h with
    | default hd hp _ hv =>
      exact mem_attemptsMet.mpr ⟨met hd (.property hp),
        default_met (schemasMet_reaches ht (deref_reaches hd)) hp hv⟩

theorem start_met : ⟨s, v⟩ ∈ attemptsMet ds s v := by
  refine mem_attemptsMet.mpr ⟨mem_schemasMet.mpr (.inl ?_), ?_⟩
  · exact List.mem_append_left _ (Schema.tree.mem_nodes_self s)
  · exact List.mem_append_left _ (Json.tree.mem_nodes_self v)

/-- What does not end within the budget comes back to one of its attempts. -/
theorem exists_repeated {n : Nat} (hn : schemaNodes ds s * valueNodes ds s v ≤ n)
    (h : ¬ EndsWithin ds extras n ⟨s, v⟩) :
    ∃ y, Leads ds extras ⟨s, v⟩ y ∧ Relation.TransGen (Calls ds extras) y y := by
  obtain ⟨l, hl, hlen⟩ := exists_chain h
  exact exists_cycle hl start_met (fun _ _ => attemptsMet_closed)
    (attemptsMet_length.trans (hlen ▸ hn))

theorem deref_of_grounded (hg : ds.Grounded) {n : Nat} {t : Schema} (h : deref ds n s = .ok t) :
    t = s ∨ t.isGround := by
  induction n generalizing s with
  | zero => simp [deref] at h
  | succ n ih =>
    cases s with
    | reference name =>
      simp only [deref] at h
      cases hd : ds.find? name with
      | none => simp [hd] at h
      | some d =>
        rw [hd] at h
        rcases ih h with rfl | hground
        · exact .inr (hg name d (Entries.mem_of_find? hd))
        · exact .inr hground
    | _ => cases h; exact .inl rfl

def nesting : Schema → Nat
  | .union members => (Schema.union members).size
  | .intersection members => (Schema.intersection members).size
  | _ => 0

def Lighter (b a : Attempt) : Prop :=
  b.value.size < a.value.size ∨ b.value = a.value ∧ nesting b.schema < nesting a.schema

theorem nesting_le (t : Schema) : nesting t ≤ t.size := by
  cases t <;> simp [nesting]

theorem nesting_lt {t u : Schema} (h : u ∈ t.children) (ht : nesting t = t.size) :
    nesting u < nesting t := by
  have hle := nesting_le u
  have hlt := Schema.size_lt_of_child h
  omega

theorem Passes.lighter (hg : ds.Grounded) {a b : Attempt} (h : Passes ds extras a b) :
    Lighter b a := by
  cases h with
  | item _ hv => exact .inl (Json.tree.size_lt (a := .array _) hv)
  | declared _ _ hv =>
    exact .inl (Json.tree.size_lt (a := .object _) (List.mem_map_of_mem (Entries.mem_of_find? hv)))
  | undeclared _ hv => exact .inl (Json.tree.size_lt (a := .object _) (List.mem_map_of_mem hv))
  | alternative hd _ =>
    rcases deref_of_grounded hg hd with rfl | hground
    · exact .inr ⟨rfl, nesting_lt (by simp [Schema.children]) rfl⟩
    · cases hground
  | merged hd _ =>
    rcases deref_of_grounded hg hd with rfl | hground
    · exact .inr ⟨rfl, by simp [nesting, Schema.size]⟩
    · cases hground
  | constraint hd _ hm =>
    rcases deref_of_grounded hg hd with rfl | hground
    · exact .inr ⟨rfl, nesting_lt hm rfl⟩
    · cases hground

theorem lighter_of_transGen (hg : ds.Grounded) {a b : Attempt}
    (h : Relation.TransGen (Passes ds extras) a b) : Lighter b a := by
  induction h with
  | single h => exact h.lighter hg
  | tail _ h ih =>
    rcases h.lighter hg, ih with ⟨hv | ⟨hv, hn⟩, hv' | ⟨hv', hn'⟩⟩
    · exact .inl (by omega)
    · exact .inl (hv' ▸ hv)
    · exact .inl (hv ▸ hv')
    · exact .inr ⟨hv.trans hv', by omega⟩

/-- Calls that take no default are passes. -/
theorem passes_or_default {a b : Attempt} (h : Relation.TransGen (Calls ds extras) a b) :
    Relation.TransGen (Passes ds extras) a b ∨
      ∃ c d, Leads ds extras a c ∧ TakesDefault ds c d ∧ Leads ds extras d b := by
  induction h with
  | @single b h =>
    rcases h with h | h
    · exact .inl (.single h)
    · exact .inr ⟨a, b, .refl, h, .refl⟩
  | @tail b c hab h ih =>
    rcases ih with ih | ⟨x, y, hx, hxy, hy⟩
    · rcases h with h | h
      · exact .inl (.tail ih h)
      · exact .inr ⟨b, c, hab.to_reflTransGen, h, .refl⟩
    · exact .inr ⟨x, y, hx, hxy, .tail hy h⟩

/-- The attempts that do not end are those on whose way a default needs itself. -/
theorem not_endsWithin_iff (hg : ds.Grounded) {n : Nat}
    (hn : schemaNodes ds s * valueNodes ds s v ≤ n) :
    ¬ EndsWithin ds extras n ⟨s, v⟩ ↔ NeedsItself ds extras ⟨s, v⟩ := by
  constructor
  · intro h
    obtain ⟨y, hxy, hyy⟩ := exists_repeated hn h
    rcases passes_or_default hyy with hp | ⟨a, b, hya, hab, hby⟩
    · rcases lighter_of_transGen hg hp with h | ⟨-, h⟩
      · exact absurd h (Nat.lt_irrefl _)
      · exact absurd h (Nat.lt_irrefl _)
    · exact ⟨a, b, hxy.trans hya, hab, hby.trans hya⟩
  · exact fun h => h.endless n

/-- No number of steps suffices exactly when a default needs itself. -/
theorem needsItself_iff (hg : ds.Grounded) (a : Attempt) :
    NeedsItself ds extras a ↔
      ∀ n path, jsonWithin ds extras n a.schema a.value path = none := by
  constructor
  · intro h n path
    rw [← Option.not_isSome_iff_eq_none, ← endsWithin_iff path]
    exact h.endless n
  · intro h
    apply (not_endsWithin_iff hg (Nat.le_refl _)).mp
    rw [endsWithin_iff "", h]
    simp

theorem json_eq_none_iff (hg : ds.Grounded) {path : String} :
    json ds extras s v path = none ↔ NeedsItself ds extras ⟨s, v⟩ := by
  rw [← not_endsWithin_iff hg (Nat.le_succ _), endsWithin_iff path, Option.not_isSome_iff_eq_none]
  exact Iff.rfl

/-- What ends within any number of steps ends within the budget. -/
theorem json_of_within {n : Nat} {path : String} {c : Coerced Typed}
    (h : jsonWithin ds extras n s v path = some c) : json ds extras s v path = some c := by
  cases hj : json ds extras s v path with
  | none =>
    have hbudget : ¬ EndsWithin ds extras (budget ds s v) ⟨s, v⟩ := by
      rw [endsWithin_iff path, Option.not_isSome_iff_eq_none]
      exact hj
    obtain ⟨y, hxy, hyy⟩ := exists_repeated (Nat.le_succ _) hbudget
    have hn : EndsWithin ds extras n ⟨s, v⟩ := (endsWithin_iff path).mpr (by rw [h]; rfl)
    exact absurd hn (Endless.of_leads hxy (endless_of_transGen hyy) n)
  | some d => rw [(jsonWithin_alike hj h).eq rfl]

theorem fields_eq_none_iff (hg : ds.Grounded) {o : ObjectSchema Schema}
    {given : List (String × Json)} {path : String} :
    fields ds extras o given path = none ↔ NeedsItself ds extras ⟨.object o, .object given⟩ := by
  have hn : schemaNodes ds (.object o) * valueNodes ds (.object o) (.object given) ≤
      budget ds (.object o) (.object given) + 1 := Nat.le_add_right _ 2
  have hparts : EndsWithin ds extras (budget ds (.object o) (.object given) + 1)
      ⟨.object o, .object given⟩ ↔ (parts (jsonWithin ds extras
        (budget ds (.object o) (.object given))) extras o given path).isSome :=
    (endsWithin_iff path).trans object_ends
  rw [← not_endsWithin_iff hg hn, hparts, Option.not_isSome_iff_eq_none]
  cases hp : parts (jsonWithin ds extras (budget ds (.object o) (.object given))) extras o given
    path <;> simp [fields, hp]

end

end Coercion

end RouteContract

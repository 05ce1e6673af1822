import RouteContract.TypeExpr.Notation
import RouteContract.TypeExpr.Substitution

/-!
# Parts of types

Substitution and names go through the members of a list one by one, the parts of a
type are smaller than the type, and equal types have equal parts.
-/

set_option autoImplicit false

namespace RouteContract

theorem Property.sizeOf_type_lt {p : Property TypeExpr} {ps : List (Property TypeExpr)}
    (hp : p ∈ ps) : sizeOf p.type < sizeOf ps := by
  have hlt := List.sizeOf_lt_of_mem hp
  cases p
  simp only [Property.mk.sizeOf_spec] at hlt
  dsimp only
  omega

theorem IndexSignature.sizeOf_lt {i : IndexSignature TypeExpr} {is : List (IndexSignature TypeExpr)}
    (hi : i ∈ is) : sizeOf i.key < sizeOf is ∧ sizeOf i.value < sizeOf is := by
  have hlt := List.sizeOf_lt_of_mem hi
  cases i
  simp only [IndexSignature.mk.sizeOf_spec] at hlt
  dsimp only
  omega

namespace TypeExpr

theorem substituteAll_eq (f : String → Option TypeExpr) (ts : List TypeExpr) :
    substituteAll f ts = ts.map (substitute f) := by
  induction ts with
  | nil => rfl
  | cons t ts ih => simp [substituteAll, ih]

theorem substituteProperties_eq (f : String → Option TypeExpr) (ps : List (Property TypeExpr)) :
    substituteProperties f ps = ps.map fun p => { p with type := substitute f p.type } := by
  induction ps with
  | nil => rfl
  | cons p ps ih => simp [substituteProperties, ih]

theorem substituteIndex_eq (f : String → Option TypeExpr) (is : List (IndexSignature TypeExpr)) :
    substituteIndex f is =
      is.map fun i => { i with key := substitute f i.key, value := substitute f i.value } := by
  induction is with
  | nil => rfl
  | cons i is ih => simp [substituteIndex, ih]

inductive Mentions (name : String) : TypeExpr → Prop
  | param : Mentions name (.param name)
  | array {t : TypeExpr} (h : Mentions name t) : Mentions name (.array t)
  | union {ts : List TypeExpr} {t : TypeExpr} (ht : t ∈ ts) (h : Mentions name t) :
      Mentions name (.union ts)
  | intersection {ts : List TypeExpr} {t : TypeExpr} (ht : t ∈ ts) (h : Mentions name t) :
      Mentions name (.intersection ts)
  | argument {r : TypeRef TypeExpr} {t : TypeExpr} (ht : t ∈ r.args) (h : Mentions name t) :
      Mentions name (.ref r)
  | property {shape : Shape TypeExpr} {p : Property TypeExpr} (hp : p ∈ shape.properties)
      (h : Mentions name p.type) : Mentions name (.object shape)
  | key {shape : Shape TypeExpr} {i : IndexSignature TypeExpr} (hi : i ∈ shape.index)
      (h : Mentions name i.key) : Mentions name (.object shape)
  | value {shape : Shape TypeExpr} {i : IndexSignature TypeExpr} (hi : i ∈ shape.index)
      (h : Mentions name i.value) : Mentions name (.object shape)

section

variable {name : String}

@[simp] theorem mentions_param {name' : String} : (param name').Mentions name ↔ name' = name where
  mp | .param => rfl
  mpr h := h ▸ .param

@[simp] theorem mentions_array {t : TypeExpr} : (array t).Mentions name ↔ t.Mentions name where
  mp | .array h => h
  mpr := .array

@[simp] theorem mentions_ref {r : TypeRef TypeExpr} :
    (ref r).Mentions name ↔ ∃ t ∈ r.args, t.Mentions name where
  mp | .argument ht h => ⟨_, ht, h⟩
  mpr | ⟨_, ht, h⟩ => .argument ht h

@[simp] theorem mentions_object {shape : Shape TypeExpr} : (object shape).Mentions name ↔
    (∃ p ∈ shape.properties, p.type.Mentions name) ∨
      ∃ i ∈ shape.index, i.key.Mentions name ∨ i.value.Mentions name where
  mp
    | .property hp h => .inl ⟨_, hp, h⟩
    | .key hi h => .inr ⟨_, hi, .inl h⟩
    | .value hi h => .inr ⟨_, hi, .inr h⟩
  mpr
    | .inl ⟨_, hp, h⟩ => .property hp h
    | .inr ⟨_, hi, .inl h⟩ => .key hi h
    | .inr ⟨_, hi, .inr h⟩ => .value hi h

end

/-- Two substitutions are one that does the same to every parameter of the type. -/
theorem substitute_substitute {f f' f'' : String → Option TypeExpr} : (t : TypeExpr) →
    (∀ name, t.Mentions name →
      ((f name).getD (.param name)).substitute f' = (f'' name).getD (.param name)) →
    (t.substitute f).substitute f' = t.substitute f''
  | .param name, h => by
    rw [substitute, substitute]
    exact h name .param
  | .array t, h => by
    simp only [substitute]
    rw [substitute_substitute t fun name hname => h name (.array hname)]
  | .union ts, h => by
    simp only [substitute, substituteAll_eq, List.map_map, union.injEq]
    exact List.map_congr_left fun t ht =>
      substitute_substitute t fun name hname => h name (.union ht hname)
  | .intersection ts, h => by
    simp only [substitute, substituteAll_eq, List.map_map, intersection.injEq]
    exact List.map_congr_left fun t ht =>
      substitute_substitute t fun name hname => h name (.intersection ht hname)
  | .ref ⟨r, module, args⟩, h => by
    simp only [substitute, substituteAll_eq, List.map_map, ref.injEq, TypeRef.mk.injEq, true_and]
    exact List.map_congr_left fun t ht =>
      substitute_substitute t fun name hname => h name (.argument ht hname)
  | .object ⟨ps, is⟩, h => by
    simp only [substitute, substituteProperties_eq, substituteIndex_eq, List.map_map, object.injEq,
      Shape.mk.injEq]
    constructor
    · refine List.map_congr_left fun p hp => ?_
      have hlt := Property.sizeOf_type_lt hp
      simp only [Function.comp_apply]
      rw [substitute_substitute p.type fun name hname => h name (.property hp hname)]
    · refine List.map_congr_left fun i hi => ?_
      have hlt := IndexSignature.sizeOf_lt hi
      simp only [Function.comp_apply]
      rw [substitute_substitute i.key fun name hname => h name (.key hi hname),
        substitute_substitute i.value fun name hname => h name (.value hi hname)]
  | .keyword _, _ => rfl
  | .literal _, _ => rfl
  | .unsupported _, _ => rfl

/-- A substitution that knows no parameter changes nothing. -/
theorem substitute_none : (t : TypeExpr) → t.substitute (fun _ => none) = t
  | .param name => rfl
  | .array t => by rw [substitute, substitute_none t]
  | .union ts => by
    rw [substitute, substituteAll_eq, List.map_congr_left fun t _ => substitute_none t, List.map_id']
  | .intersection ts => by
    rw [substitute, substituteAll_eq, List.map_congr_left fun t _ => substitute_none t, List.map_id']
  | .ref ⟨name, module, args⟩ => by
    rw [substitute, substituteAll_eq, List.map_congr_left fun t _ => substitute_none t, List.map_id']
  | .object ⟨ps, is⟩ => by
    rw [substitute, substituteProperties_eq, substituteIndex_eq]
    congr 2
    · refine (List.map_congr_left fun p hp => ?_).trans (List.map_id ps)
      have hlt := Property.sizeOf_type_lt hp
      rw [substitute_none p.type]
      rfl
    · refine (List.map_congr_left fun i hi => ?_).trans (List.map_id is)
      have hlt := IndexSignature.sizeOf_lt hi
      rw [substitute_none i.key, substitute_none i.value]
      rfl
  | .keyword _ => rfl
  | .literal _ => rfl
  | .unsupported _ => rfl

theorem encodeAll_eq (ts : List TypeExpr) : encodeAll ts = ts.map encode := by
  induction ts with
  | nil => rfl
  | cons t ts ih => simp [encodeAll, ih]

theorem encodeProperties_eq (ps : List (Property TypeExpr)) :
    encodeProperties ps = ps.map fun p => sanitize p.name ++ "-" ++ encode p.type := by
  induction ps with
  | nil => rfl
  | cons p ps ih => simp [encodeProperties, ih]

theorem same_array {x t : TypeExpr} : x.same (.array t) ↔ ∃ y, x = .array y ∧ y.same t := by
  cases x <;> simp [same]

theorem same_union {x : TypeExpr} {ts : List TypeExpr} :
    x.same (.union ts) ↔ ∃ xs, x = .union xs ∧ sameAll xs ts := by
  cases x <;> simp [same]

theorem same_intersection {x : TypeExpr} {ts : List TypeExpr} :
    x.same (.intersection ts) ↔ ∃ xs, x = .intersection xs ∧ sameAll xs ts := by
  cases x <;> simp [same]

theorem same_ref {x : TypeExpr} {name : String} {module : Option String} {ts : List TypeExpr} :
    x.same (.ref ⟨name, module, ts⟩) ↔ ∃ xs, x = .ref ⟨name, module, xs⟩ ∧ sameAll xs ts := by
  cases x with
  | ref r =>
    obtain ⟨n, m, xs⟩ := r
    simp only [same, Bool.and_eq_true, decide_eq_true_eq, ref.injEq, TypeRef.mk.injEq]
    constructor
    · rintro ⟨⟨rfl, rfl⟩, h⟩
      exact ⟨xs, ⟨rfl, rfl, rfl⟩, h⟩
    · rintro ⟨_, ⟨rfl, rfl, rfl⟩, h⟩
      exact ⟨⟨rfl, rfl⟩, h⟩
  | _ => simp [same]

theorem same_of_sameProperties {p q : Property TypeExpr} {ps qs : List (Property TypeExpr)}
    (h : sameProperties (p :: ps) (q :: qs)) : p.type.same q.type ∧ sameProperties ps qs := by
  obtain ⟨_, _, _, _, _, _⟩ := p
  unfold sameProperties at h
  simp only [Bool.and_eq_true] at h
  exact ⟨h.1.1.1.1.1.2, h.2⟩

theorem same_of_sameIndex {i j : IndexSignature TypeExpr} {is js : List (IndexSignature TypeExpr)}
    (h : sameIndex (i :: is) (j :: js)) :
    i.key.same j.key ∧ i.value.same j.value ∧ sameIndex is js := by
  cases i
  simp only [sameIndex, Bool.and_eq_true] at h
  exact ⟨h.1.1.2, h.1.2, h.2⟩

theorem same_object {x : TypeExpr} {ps : List (Property TypeExpr)}
    {is : List (IndexSignature TypeExpr)} : x.same (.object ⟨ps, is⟩) ↔
      ∃ xps xis, x = .object ⟨xps, xis⟩ ∧ sameProperties xps ps ∧ sameIndex xis is := by
  cases x with
  | object shape =>
    obtain ⟨xps, xis⟩ := shape
    simp only [same, Bool.and_eq_true, object.injEq, Shape.mk.injEq]
    constructor
    · exact fun h => ⟨xps, xis, ⟨rfl, rfl⟩, h⟩
    · rintro ⟨_, _, ⟨rfl, rfl⟩, h⟩
      exact h
  | _ => simp [same]

theorem sizeOf_stripUndefined_le (t : TypeExpr) :
    sizeOf t.stripUndefined.1 ≤ sizeOf t := by
  cases t with
  | union members =>
    have hfilter : sizeOf (members.filter (!·.isUndefined)) ≤ sizeOf members := by
      generalize members = ts
      induction ts with
      | nil => exact Nat.le_refl _
      | cons t ts ih =>
        rw [List.filter_cons]
        split
        · simp only [List.cons.sizeOf_spec]
          omega
        · simp only [List.cons.sizeOf_spec]
          omega
    unfold stripUndefined
    dsimp only
    split
    · exact Nat.le_refl _
    · rename_i t rest hkept
      rw [hkept] at hfilter
      simp only [List.cons.sizeOf_spec] at hfilter
      split
      · exact Nat.le_refl _
      · split
        · simp only [TypeExpr.union.sizeOf_spec]
          omega
        · simp only [TypeExpr.union.sizeOf_spec, List.cons.sizeOf_spec]
          omega
  | _ => exact Nat.le_refl _

end TypeExpr

end RouteContract

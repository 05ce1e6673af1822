import RouteContract.Proofs.TypeExpr

/-!
# Places in types

A place in a type is a way down from its root. What stands there has an outline,
which leaves out the parts below, and a head if it is a reference. Outlines and
heads leave nothing out: types that agree in them at every place are equal.
-/

set_option autoImplicit false

namespace RouteContract

/-- Lists whose members are related one by one, by what makes them equal. -/
theorem eq_of_getElem?_rel {α : Type} {R : α → α → Prop} {xs ys : List α}
    (hrel : ∀ i : Nat, Option.Rel R xs[i]? ys[i]?) (heq : ∀ x ∈ xs, ∀ y, R x y → x = y) :
    xs = ys := by
  refine List.ext_getElem? fun i => ?_
  have hi := hrel i
  generalize hx : xs[i]? = x at hi
  generalize ys[i]? = y at hi
  cases hi with
  | none => rfl
  | some hxy => rw [heq _ (List.mem_of_getElem? hx) _ hxy]

theorem option_rel_of_map {α β : Type} {R : β → β → Prop} {f : α → β} {a b : Option α}
    (h : Option.Rel R (a.map f) (b.map f)) : Option.Rel (fun x y => R (f x) (f y)) a b := by
  cases a with
  | none =>
    cases b with
    | none => exact .none
    | some y => cases h
  | some x =>
    cases b with
    | none => cases h
    | some y =>
      cases h with
      | some h => exact .some h

theorem option_rel_and {α : Type} {R S : α → α → Prop} {a b : Option α} (h : Option.Rel R a b)
    (h' : Option.Rel S a b) : Option.Rel (fun x y => R x y ∧ S x y) a b := by
  cases h with
  | none => exact .none
  | some h =>
    cases h' with
    | some h' => exact .some ⟨h, h'⟩

/-- Lists of the same outlines have members of the same outlines. -/
theorem rel_outline {α : Type} {f : α → α} {xs ys : List α} (h : xs.map f = ys.map f) (i : Nat) :
    Option.Rel (fun x y => f x = f y) xs[i]? ys[i]? := by
  apply option_rel_of_map
  rw [← List.getElem?_map, ← List.getElem?_map, h]
  cases (ys.map f)[i]? with
  | none => exact .none
  | some y => exact .some rfl

inductive TypeStep where
  | element
  | member (i : Nat)
  | argument (i : Nat)
  | property (i : Nat)
  /-- The key type of an index signature. -/
  | key (i : Nat)
  | value (i : Nat)

namespace TypeExpr

def child? : TypeStep → TypeExpr → Option TypeExpr
  | .element, array t => some t
  | .member i, union ts => ts[i]?
  | .member i, intersection ts => ts[i]?
  | .argument i, ref r => r.args[i]?
  | .property i, object shape => shape.properties[i]?.map (·.type)
  | .key i, object shape => shape.index[i]?.map (·.key)
  | .value i, object shape => shape.index[i]?.map (·.value)
  | _, _ => none

def at? : List TypeStep → TypeExpr → Option TypeExpr
  | [], t => some t
  | step :: place, t => (t.child? step).bind (at? place)

def head? : TypeExpr → Option (String × Option String)
  | ref r => some (r.name, r.module)
  | _ => none

end TypeExpr

def TypeExpr.hole : TypeExpr := .keyword .any

def Property.outline (p : Property TypeExpr) : Property TypeExpr := { p with type := .hole }

def IndexSignature.outline (i : IndexSignature TypeExpr) : IndexSignature TypeExpr :=
  { i with key := .hole, value := .hole }

theorem Property.eq_of_outline {p q : Property TypeExpr} (h : p.outline = q.outline)
    (htype : p.type = q.type) : p = q := by
  cases p
  cases q
  simp only [outline, mk.injEq] at h
  simp_all

theorem IndexSignature.eq_of_outline {i j : IndexSignature TypeExpr} (h : i.outline = j.outline)
    (hkey : i.key = j.key) (hvalue : i.value = j.value) : i = j := by
  cases i
  cases j
  simp only [outline, mk.injEq] at h
  simp_all

namespace TypeExpr

def outline : TypeExpr → TypeExpr
  | keyword k => keyword k
  | literal l => literal l
  | array _ => array hole
  | union ts => union (ts.map fun _ => hole)
  | intersection ts => intersection (ts.map fun _ => hole)
  | object shape => object ⟨shape.properties.map (·.outline), shape.index.map (·.outline)⟩
  | ref r => ref ⟨"", none, r.args.map fun _ => hole⟩
  | param name => param name
  | unsupported c => unsupported c

def Everywhere (R : TypeExpr → TypeExpr → Prop) (t u : TypeExpr) : Prop :=
  ∀ place, Option.Rel R (t.at? place) (u.at? place)

structure Agrees (t u : TypeExpr) : Prop where
  outline : t.outline = u.outline
  head : t.head? = u.head?

section

variable {R : TypeExpr → TypeExpr → Prop} {t u : TypeExpr}

theorem Everywhere.root (h : Everywhere R t u) : R t u := by
  cases h [] with
  | some hroot => exact hroot

theorem Everywhere.child (h : Everywhere R t u) (step : TypeStep) :
    Option.Rel (Everywhere R) (t.child? step) (u.child? step) := by
  have hplaces : ∀ place, Option.Rel R ((t.child? step).bind (at? place))
      ((u.child? step).bind (at? place)) := fun place => h (step :: place)
  cases ht : t.child? step with
  | none =>
    cases hu : u.child? step with
    | none => exact .none
    | some u' =>
      have hroot := hplaces []
      rw [ht, hu] at hroot
      cases hroot
  | some t' =>
    cases hu : u.child? step with
    | none =>
      have hroot := hplaces []
      rw [ht, hu] at hroot
      cases hroot
    | some u' =>
      refine .some fun place => ?_
      have hplace := hplaces place
      rw [ht, hu] at hplace
      exact hplace

end

/-- Types that agree everywhere are equal. -/
theorem eq_of_agrees : (t u : TypeExpr) → Everywhere Agrees t u → t = u
  | .keyword k, u, h => by
    have hroot := h.root.outline
    cases u <;> cases hroot
    rfl
  | .literal l, u, h => by
    have hroot := h.root.outline
    cases u <;> cases hroot
    rfl
  | .param name, u, h => by
    have hroot := h.root.outline
    cases u <;> cases hroot
    rfl
  | .unsupported c, u, h => by
    have hroot := h.root.outline
    cases u <;> cases hroot
    rfl
  | .array t, u, h => by
    have hroot := h.root.outline
    have helement := h.child .element
    cases u with
    | array u =>
      cases helement with
      | some helement => rw [eq_of_agrees t u helement]
    | _ => cases hroot
  | .union ts, u, h => by
    have hroot := h.root.outline
    cases u with
    | union us =>
      rw [eq_of_getElem?_rel (fun i => h.child (.member i)) fun t ht u => eq_of_agrees t u]
    | _ => cases hroot
  | .intersection ts, u, h => by
    have hroot := h.root.outline
    cases u with
    | intersection us =>
      rw [eq_of_getElem?_rel (fun i => h.child (.member i)) fun t ht u => eq_of_agrees t u]
    | _ => cases hroot
  | .ref ⟨name, module, ts⟩, u, h => by
    have hroot := h.root
    cases u with
    | ref r =>
      obtain ⟨name', module', us⟩ := r
      have hargs : ts = us :=
        eq_of_getElem?_rel (fun i => h.child (.argument i)) fun t ht u => eq_of_agrees t u
      cases hroot.head
      rw [hargs]
    | _ => cases hroot.outline
  | .object ⟨ps, is⟩, u, h => by
    have hroot := h.root.outline
    cases u with
    | object shape =>
      obtain ⟨qs, js⟩ := shape
      obtain ⟨hps, his⟩ : ps.map (·.outline) = qs.map (·.outline) ∧
          is.map (·.outline) = js.map (·.outline) := by simpa [outline] using hroot
      have hproperties : ps = qs := by
        refine eq_of_getElem?_rel (fun i => option_rel_and (rel_outline hps i)
          (option_rel_of_map (h.child (.property i)))) ?_
        intro p hp q hpq
        have hlt := Property.sizeOf_type_lt hp
        exact Property.eq_of_outline hpq.1 (eq_of_agrees p.type q.type hpq.2)
      have hindex : is = js := by
        have htypes := fun i => option_rel_and (option_rel_of_map (h.child (.key i)))
          (option_rel_of_map (h.child (.value i)))
        refine eq_of_getElem?_rel (fun i => option_rel_and (rel_outline his i) (htypes i)) ?_
        intro i hi j hij
        have hlt := IndexSignature.sizeOf_lt hi
        exact IndexSignature.eq_of_outline hij.1 (eq_of_agrees i.key j.key hij.2.1)
          (eq_of_agrees i.value j.value hij.2.2)
      rw [hproperties, hindex]
    | _ => cases hroot

end TypeExpr

end RouteContract

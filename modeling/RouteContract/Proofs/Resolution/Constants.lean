import RouteContract.Proofs.Resolution.Instances
import RouteContract.Proofs.Resolution.Normalization
import RouteContract.Proofs.Resolution.Termination
import RouteContract.Proofs.Schema.Sameness
import RouteContract.Proofs.TypeExpr

/-!
# Constants in types

The properties of an inline object may have constants as their defaults. A
constant whose objects repeat no key is the same as itself, and so is a type with
such constants. Substitution and normalization bring in no others. Every instance
that is asked for is therefore the same as itself, and whoever holds its name for
it is not taken for somebody else.
-/

set_option autoImplicit false

namespace RouteContract

inductive TypeExpr.Keyed : TypeExpr → Prop
  | keyword (k : Keyword) : Keyed (.keyword k)
  | literal (l : Literal) : Keyed (.literal l)
  | param (name : String) : Keyed (.param name)
  | unsupported (construct : String) : Keyed (.unsupported construct)
  | array {t : TypeExpr} (h : Keyed t) : Keyed (.array t)
  | union {ts : List TypeExpr} (h : ∀ t ∈ ts, Keyed t) : Keyed (.union ts)
  | intersection {ts : List TypeExpr} (h : ∀ t ∈ ts, Keyed t) : Keyed (.intersection ts)
  | ref {name : String} {module : Option String} {args : List TypeExpr}
      (h : ∀ t ∈ args, Keyed t) : Keyed (.ref ⟨name, module, args⟩)
  | object {ps : List (Property TypeExpr)} {is : List (IndexSignature TypeExpr)}
      (hp : ∀ p ∈ ps, Keyed p.type)
      (hd : ∀ p ∈ ps, ∀ d v, p.default = some d → d.value? = some v → v.Keyed)
      (hk : ∀ i ∈ is, Keyed i.key) (hv : ∀ i ∈ is, Keyed i.value) : Keyed (.object ⟨ps, is⟩)

structure Declaration.Keyed (d : Declaration) : Prop where
  object : ∀ {bases : List (TypeRef TypeExpr)} {shape : Shape TypeExpr} {isClass : Bool},
    d.kind = .object bases shape isClass →
      (∀ base ∈ bases, ∀ t ∈ base.args, t.Keyed) ∧ (TypeExpr.object shape).Keyed
  default : ∀ p ∈ d.params, ∀ t, p.default = some t → t.Keyed

def Graph.Keyed (g : Graph) : Prop := ∀ d ∈ g.declarations, d.Keyed

theorem Initializer.same_self {d : Initializer} (h : ∀ v, d.value? = some v → v.Keyed) :
    d.same d := by
  unfold same
  cases hv : d.value? with
  | none => simp
  | some v => simp [Json.same_self (h v hv)]

namespace TypeExpr

theorem sameAll_self {ts : List TypeExpr} (h : ∀ t ∈ ts, t.same t) : sameAll ts ts := by
  induction ts with
  | nil => simp [sameAll]
  | cons t ts ih =>
    simp only [sameAll, Bool.and_eq_true]
    exact ⟨h t List.mem_cons_self, ih fun u hu => h u (List.mem_cons_of_mem t hu)⟩

theorem sameProperties_self {ps : List (Property TypeExpr)} (h : ∀ p ∈ ps, p.type.same p.type)
    (hd : ∀ p ∈ ps, ∀ d, p.default = some d → d.same d) : sameProperties ps ps := by
  induction ps with
  | nil => simp [sameProperties]
  | cons p ps ih =>
    have hrest := ih (fun q hq => h q (List.mem_cons_of_mem p hq))
      fun q hq => hd q (List.mem_cons_of_mem p hq)
    have htype := h p List.mem_cons_self
    have hdefault := hd p List.mem_cons_self
    obtain ⟨name, type, optional, default, description, format⟩ := p
    unfold sameProperties
    cases default with
    | none => simp [hrest, htype]
    | some d => simp [hrest, htype, hdefault d rfl]

theorem sameIndex_self {is : List (IndexSignature TypeExpr)} (hk : ∀ i ∈ is, i.key.same i.key)
    (hv : ∀ i ∈ is, i.value.same i.value) : sameIndex is is := by
  induction is with
  | nil => simp [sameIndex]
  | cons i is ih =>
    have hrest := ih (fun j hj => hk j (List.mem_cons_of_mem i hj))
      fun j hj => hv j (List.mem_cons_of_mem i hj)
    have hkey := hk i List.mem_cons_self
    have hvalue := hv i List.mem_cons_self
    obtain ⟨name, key, value⟩ := i
    unfold sameIndex
    simp [hrest, hkey, hvalue]

namespace Keyed

variable {t : TypeExpr}

theorem same_self (h : t.Keyed) : t.same t := by
  induction h with
  | keyword k => simp [same]
  | literal l => cases l <;> simp [same, Literal.same, Number.Binary64.same_self]
  | param name => simp [same]
  | unsupported construct => simp [same]
  | array _ ih => simpa [same] using ih
  | union _ ih => simpa [same] using sameAll_self ih
  | intersection _ ih => simpa [same] using sameAll_self ih
  | ref _ ih => simpa [same] using sameAll_self ih
  | object _ hd _ _ ihp ihk ihv =>
    simp only [same, Bool.and_eq_true]
    exact ⟨sameProperties_self ihp fun p hp d hdefault =>
      Initializer.same_self fun v hv => hd p hp d v hdefault hv, sameIndex_self ihk ihv⟩

theorem substitute (h : t.Keyed) {f : String → Option TypeExpr}
    (hf : ∀ name u, f name = some u → u.Keyed) : (t.substitute f).Keyed := by
  induction h with
  | keyword k => exact .keyword k
  | literal l => exact .literal l
  | unsupported construct => exact .unsupported construct
  | param name =>
    rw [TypeExpr.substitute]
    cases hname : f name with
    | none => exact .param name
    | some u => exact hf name u hname
  | array _ ih => exact .array ih
  | union _ ih =>
    rw [TypeExpr.substitute, substituteAll_eq]
    exact .union (List.forall_mem_map.mpr ih)
  | intersection _ ih =>
    rw [TypeExpr.substitute, substituteAll_eq]
    exact .intersection (List.forall_mem_map.mpr ih)
  | ref _ ih =>
    rw [TypeExpr.substitute, substituteAll_eq]
    exact .ref (List.forall_mem_map.mpr ih)
  | object _ hd _ _ ihp ihk ihv =>
    rw [TypeExpr.substitute, substituteProperties_eq, substituteIndex_eq]
    exact .object (List.forall_mem_map.mpr ihp) (List.forall_mem_map.mpr hd)
      (List.forall_mem_map.mpr ihk) (List.forall_mem_map.mpr ihv)

theorem stripUndefined (h : t.Keyed) : t.stripUndefined.1.Keyed := by
  cases h with
  | @union ts hts =>
    have hkept : ∀ u ∈ ts.filter (!·.isUndefined), u.Keyed :=
      fun u hu => hts u (List.mem_of_mem_filter hu)
    unfold TypeExpr.stripUndefined
    dsimp only
    split
    · exact .union hts
    · rename_i u rest hmembers
      rw [hmembers] at hkept
      split
      · exact .union hts
      · split
        · exact hkept u List.mem_cons_self
        · exact .union hkept
  | keyword k => exact .keyword k
  | literal l => exact .literal l
  | param name => exact .param name
  | unsupported construct => exact .unsupported construct
  | array h => exact .array h
  | intersection h => exact .intersection h
  | ref h => exact .ref h
  | object hp hd hk hv => exact .object hp hd hk hv

end Keyed

end TypeExpr

section

variable {g : Graph} {o : Origin}

theorem Graph.mem_of_normalizeAll {ts cs : List TypeExpr} (h : g.normalizeAll o ts = .ok cs)
    {c : TypeExpr} (hc : c ∈ cs) : ∃ t ∈ ts, g.normalize o t = .ok c := by
  induction ts generalizing cs with
  | nil =>
    rw [normalizeAll] at h
    cases h
    cases hc
  | cons t ts ih =>
    obtain ⟨c', cs', hc', hcs', rfl⟩ := normalizeAll_cons.mp h
    rcases List.mem_cons.mp hc with rfl | hc
    · exact ⟨t, List.mem_cons_self, hc'⟩
    · obtain ⟨u, hu, hn⟩ := ih hcs' hc
      exact ⟨u, List.mem_cons_of_mem t hu, hn⟩

theorem TypeExpr.Keyed.normalize {t c : TypeExpr} (h : t.Keyed) (hc : g.normalize o t = .ok c) :
    c.Keyed := by
  have members : ∀ {ts cs : List TypeExpr},
      (∀ t ∈ ts, ∀ {c}, g.normalize o t = .ok c → c.Keyed) → g.normalizeAll o ts = .ok cs →
      ∀ c ∈ cs, c.Keyed := by
    intro ts cs hts hcs c hc
    obtain ⟨t, ht, hn⟩ := Graph.mem_of_normalizeAll hcs hc
    exact hts t ht hn
  induction h generalizing c with
  | keyword k =>
    rw [Graph.normalize] at hc
    cases hc
    exact .keyword k
  | literal l =>
    rw [Graph.normalize] at hc
    cases hc
    exact .literal l
  | param name =>
    rw [Graph.normalize] at hc
    cases hc
  | unsupported construct =>
    rw [Graph.normalize] at hc
    cases hc
    exact .unsupported construct
  | array _ ih =>
    obtain ⟨t', ht, rfl⟩ := Graph.normalize_array.mp hc
    exact .array (ih ht)
  | union _ ih =>
    obtain ⟨ts', hts, rfl⟩ := Graph.normalize_union.mp hc
    exact .union (members ih hts)
  | intersection _ ih =>
    obtain ⟨ts', hts, rfl⟩ := Graph.normalize_intersection.mp hc
    exact .intersection (members ih hts)
  | ref _ ih =>
    obtain ⟨ts', module', hts, -, rfl⟩ := Graph.normalize_ref.mp hc
    exact .ref (members ih hts)
  | object hp hd hk hv _ _ _ =>
    rw [Graph.normalize] at hc
    cases hc
    exact .object hp hd hk hv

theorem Declaration.bindingOf_keyed {args : List TypeExpr} (h : ∀ t ∈ args, t.Keyed)
    (params : List TypeParam) (name : String) (t : TypeExpr)
    (ht : bindingOf params args name = some t) : t.Keyed := by
  obtain ⟨k, -, hk⟩ := Option.bind_eq_some_iff.mp ht
  exact h t (List.mem_of_getElem? hk)

theorem Declaration.Keyed.instantiate {d : Declaration} (h : d.Keyed) {written : List TypeExpr}
    (hw : ∀ t ∈ written, t.Keyed) {i : Instance} (hi : d.instantiate g written o = .ok i) :
    ∀ t ∈ i.args, t.Keyed := by
  have hall : ∀ (rest earlier : List TypeParam) (concrete cs : List TypeExpr),
      (∀ p ∈ rest, p ∈ d.params) → (∀ t ∈ concrete, t.Keyed) →
      d.completeArgs g written o earlier concrete rest = .ok cs → ∀ t ∈ cs, t.Keyed := by
    intro rest
    induction rest with
    | nil =>
      intro earlier concrete cs _ hconcrete hcs
      cases hcs
      exact hconcrete
    | cons p rest ih =>
      intro earlier concrete cs hrest hconcrete hcs
      obtain ⟨t, c, ht, hc, hcs⟩ := completeArgs_cons.mp hcs
      have hgiven : t.Keyed := by
        rcases Option.or_eq_some_iff.mp ht with ht | ⟨-, ht⟩
        · exact hw t (List.mem_of_getElem? ht)
        · obtain ⟨default, hdefault, rfl⟩ := Option.map_eq_some_iff.mp ht
          exact (h.default p (hrest p List.mem_cons_self) default hdefault).substitute
            (bindingOf_keyed hconcrete earlier)
      refine ih _ _ _ (fun q hq => hrest q (List.mem_cons_of_mem p hq)) (fun u hu => ?_) hcs
      rcases List.mem_append.mp hu with hu | hu
      · exact hconcrete u hu
      · rw [List.mem_singleton.mp hu]
        exact hgiven.normalize hc
  obtain ⟨-, -, hargs⟩ := instantiate_iff.mp hi
  exact hall _ _ _ _ (fun p hp => hp) (by simp) hargs

end

namespace Resolve.Node

def Keyed : Node → Prop
  | type t _ => t.Keyed
  | members d args => d.Keyed ∧ ∀ t ∈ args, t.Keyed

variable {g : Graph} {node node' : Node}

theorem Keyed.property {shape : Shape TypeExpr} (h : (TypeExpr.object shape).Keyed)
    {p : Property TypeExpr} (hp : p ∈ shape.properties) : p.type.stripUndefined.1.Keyed := by
  obtain ⟨ps, is⟩ := shape
  cases h with
  | object hps => exact (hps p hp).stripUndefined

theorem Keyed.index {shape : Shape TypeExpr} (h : (TypeExpr.object shape).Keyed) {v : TypeExpr}
    (hv : IndexValue shape.index v) : v.Keyed := by
  obtain ⟨ps, is⟩ := shape
  cases h with
  | object _ _ _ hvalues =>
    cases hv with
    | value => exact hvalues _ List.mem_cons_self

/-- The members of a declaration at given arguments. -/
theorem Keyed.bound {d : Declaration} {args : List TypeExpr} (h : (Node.members d args).Keyed)
    {bases : List (TypeRef TypeExpr)} {shape : Shape TypeExpr} {isClass : Bool}
    (hd : d.kind = .object bases shape isClass) : (TypeExpr.object
      ⟨TypeExpr.substituteProperties (Declaration.bindingOf d.params args) shape.properties,
        TypeExpr.substituteIndex (Declaration.bindingOf d.params args) shape.index⟩).Keyed := by
  have hshape := (h.1.object hd).2.substitute (Declaration.bindingOf_keyed h.2 d.params)
  rwa [TypeExpr.substitute] at hshape

theorem Keyed.part (h : node.Keyed) (hg : g.Keyed) (hp : Part g node node') : node'.Keyed := by
  cases hp with
  | element =>
    cases h with
    | array h => exact h
  | alternative ht =>
    cases h with
    | union h => exact h _ (List.mem_of_mem_filter ht)
  | constraint ht =>
    cases h with
    | intersection h => exact h _ ht
  | property hp => exact Keyed.property h hp
  | index hv => exact Keyed.index h hv
  | argument _ ht =>
    cases h with
    | ref h => exact h _ ht.mem
  | base hd hb hext =>
    obtain ⟨hkeyed, hargs⟩ := h
    refine ⟨hg _ (Graph.lookup_mem hext.found), ?_⟩
    refine (hg _ (Graph.lookup_mem hext.found)).instantiate (fun t ht => ?_) hext.instantiated
    rw [TypeExpr.substituteAll_eq] at ht
    obtain ⟨u, hu, rfl⟩ := List.mem_map.mp ht
    exact ((hkeyed.object hd).1 _ hb u hu).substitute (Declaration.bindingOf_keyed hargs _)
  | ownProperty hd hp => exact Keyed.property (h.bound hd) hp
  | ownIndex hd hv => exact Keyed.index (h.bound hd) hv

theorem Keyed.reaches (h : node.Keyed) (hg : g.Keyed) (hr : Reaches g node node') :
    node'.Keyed := by
  induction hr with
  | refl => exact h
  | tail _ hp ih => exact ih.part hg hp

theorem Keyed.asksFor (h : node.Keyed) (hg : g.Keyed) {i : Instance} (hi : node.AsksFor g i) :
    ∀ t ∈ i.args, t.Keyed := by
  cases hi with
  | @reference r _ _ _ _ hl hinst =>
    obtain ⟨name, module, args⟩ := r
    cases h with
    | ref h => exact (hg _ (Graph.lookup_mem hl)).instantiate h hinst

end Resolve.Node

namespace Instance.Asked

open Resolve (Node)

variable {g : Graph} {roots : TypeExpr → Prop} {i : Instance}

theorem keyed (h : Asked g roots i) (hg : g.Keyed) (hroots : ∀ t, roots t → t.Keyed) :
    ∀ t ∈ i.args, t.Keyed := by
  induction h with
  | @root t o _ _ ht hn hi =>
    have hroot : (Node.type t o).Keyed := hroots t ht
    exact (hroot.reaches hg hn).asksFor hg hi
  | lead _ hl ih =>
    obtain ⟨node, ⟨d, hd, hn⟩, hi⟩ := hl
    have hmembers : (Node.members d _).Keyed := ⟨hg d (List.mem_of_find?_eq_some hd), ih⟩
    exact (hmembers.reaches hg hn).asksFor hg hi

/-- An instance that is asked for is taken for itself. -/
theorem same_self (h : Asked g roots i) (hg : g.Keyed) (hroots : ∀ t, roots t → t.Keyed) :
    i.same i := by
  have hargs := TypeExpr.sameAll_self fun t ht => (h.keyed hg hroots t ht).same_self
  simpa [Instance.same] using hargs

end Instance.Asked

end RouteContract

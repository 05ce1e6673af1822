import RouteContract.Proofs.Entries
import RouteContract.Proofs.TypeExpr.Places
import RouteContract.SourceFile.Names

/-!
# What the names of a file mean

A plain name means what the file declares under it, or else what its last import
of the name introduces, or else nothing. Binding gives every reference of a type
the meaning of its name, at whatever place it stands, and changes nothing else.
The meaning of a name does not depend on what the other module declares.
-/

set_option autoImplicit false

namespace RouteContract.SourceFile

variable (f : SourceFile) (modules : List String)

def introduced : Entries String (String × String) := f.imports.flatMap (f.importedNames modules)

def Imports (name module exported : String) : Prop :=
  ∃ before after, f.introduced modules = before ++ (name, module, exported) :: after ∧
    name ∉ Entries.keys after

inductive Refers : String × Option String → String × Option String → Prop
  | qualified {name module : String} : Refers (name, some module) (name, some module)
  | declared {name : String} (hdeclared : ∃ d ∈ f.declarations, d.id.name = name) :
      Refers (name, none) (name, some f.module)
  | imported {name module exported : String} (hundeclared : ∀ d ∈ f.declarations, d.id.name ≠ name)
      (himport : f.Imports modules name module exported) :
      Refers (name, none) (exported, some module)
  | unbound {name : String} (hundeclared : ∀ d ∈ f.declarations, d.id.name ≠ name)
      (hnone : ∀ module exported, ¬ f.Imports modules name module exported) :
      Refers (name, none) (name, none)

structure Bound (t u : TypeExpr) : Prop where
  outline : u.outline = t.outline
  head : Option.Rel (f.Refers modules) t.head? u.head?

def Binds : TypeExpr → TypeExpr → Prop := TypeExpr.Everywhere (f.Bound modules)

variable {f modules}

theorem find?_imported {name module exported : String} :
    (f.imported modules).find? name = some (module, exported) ↔
      f.Imports modules name module exported := by
  rw [imported, Entries.find?_ofList, Entries.find?_eq_some_iff_append]
  constructor
  · rintro ⟨before, after, hsplit, hkey⟩
    refine ⟨after.reverse, before.reverse, ?_, by simpa [Entries.keys] using hkey⟩
    have hreverse := congrArg List.reverse hsplit
    simpa [introduced] using hreverse
  · rintro ⟨before, after, hsplit, hkey⟩
    refine ⟨after.reverse, before.reverse, ?_, by simpa [Entries.keys] using hkey⟩
    have hreverse := congrArg List.reverse hsplit
    simpa [introduced] using hreverse

theorem declares_iff {name : String} :
    f.declares name ↔ ∃ d ∈ f.declarations, d.id.name = name := by
  simp [declares]

/-- A name refers to exactly one thing. -/
theorem refers_iff {x y : String × Option String} :
    f.Refers modules x y ↔ y = (f.names modules).target x.1 x.2 := by
  constructor
  · intro h
    cases h with
    | qualified => rfl
    | declared hdeclared => simp [Names.target, names, declares_iff.mpr hdeclared]
    | @imported name module exported hundeclared himport =>
      have hdeclares : f.declares name = false := by simpa [declares] using hundeclared
      simp [Names.target, names, hdeclares, find?_imported.mpr himport]
    | @unbound name hundeclared hnone =>
      have hdeclares : f.declares name = false := by simpa [declares] using hundeclared
      have hfind : (f.imported modules).find? name = none := by
        refine Option.eq_none_iff_forall_ne_some.mpr fun x hx => ?_
        exact hnone x.1 x.2 (find?_imported.mp hx)
      simp [Names.target, names, hdeclares, hfind]
  · rintro rfl
    obtain ⟨name, module⟩ := x
    cases module with
    | some module => exact .qualified
    | none =>
      cases hdeclares : f.declares name with
      | true =>
        simp only [Names.target, names, hdeclares, if_true]
        exact .declared (declares_iff.mp hdeclares)
      | false =>
        have hundeclared : ∀ d ∈ f.declarations, d.id.name ≠ name := by
          simpa [declares] using hdeclares
        cases hfind : (f.imported modules).find? name with
        | some x =>
          simp only [Names.target, names, hdeclares, hfind]
          exact .imported hundeclared (find?_imported.mp hfind)
        | none =>
          simp only [Names.target, names, hdeclares, hfind]
          refine .unbound hundeclared fun module exported himport => ?_
          rw [find?_imported.mpr himport] at hfind
          cases hfind

end SourceFile

namespace TypeExpr

section

variable (ns : Names)

theorem bindAll_eq (ts : List TypeExpr) : bindAll ns ts = ts.map (bindNames ns) := by
  induction ts with
  | nil => rfl
  | cons t ts ih => simp [bindAll, ih]

theorem bindProperties_eq (ps : List (Property TypeExpr)) :
    bindProperties ns ps = ps.map fun p => { p with type := bindNames ns p.type } := by
  induction ps with
  | nil => rfl
  | cons p ps ih => simp [bindProperties, ih]

theorem bindIndex_eq (is : List (IndexSignature TypeExpr)) :
    bindIndex ns is =
      is.map fun i => { i with key := bindNames ns i.key, value := bindNames ns i.value } := by
  induction is with
  | nil => rfl
  | cons i is ih => simp [bindIndex, ih]

theorem child?_bindNames (step : TypeStep) (t : TypeExpr) :
    (bindNames ns t).child? step = (t.child? step).map (bindNames ns) := by
  cases t with
  | keyword k => cases step <;> rfl
  | literal l => cases step <;> rfl
  | param name => cases step <;> rfl
  | unsupported c => cases step <;> rfl
  | array t => cases step <;> rfl
  | union ts => cases step <;> simp [bindNames, child?, bindAll_eq]
  | intersection ts => cases step <;> simp [bindNames, child?, bindAll_eq]
  | ref r => cases step <;> simp [bindNames, child?, bindAll_eq]
  | object shape =>
    cases step <;> simp [bindNames, child?, bindProperties_eq, bindIndex_eq, Function.comp_def]

/-- What stands at a place is bound there. -/
theorem at?_bindNames (place : List TypeStep) (t : TypeExpr) :
    (bindNames ns t).at? place = (t.at? place).map (bindNames ns) := by
  induction place generalizing t with
  | nil => rfl
  | cons step place ih =>
    rw [at?, at?, child?_bindNames]
    cases t.child? step with
    | none => rfl
    | some u => exact ih u

theorem outline_bindNames (t : TypeExpr) : (bindNames ns t).outline = t.outline := by
  cases t with
  | union ts => simp [bindNames, outline, bindAll_eq, Function.comp_def]
  | intersection ts => simp [bindNames, outline, bindAll_eq, Function.comp_def]
  | ref r => simp [bindNames, outline, bindAll_eq, Function.comp_def]
  | object shape =>
    simp [bindNames, outline, bindProperties_eq, bindIndex_eq, Function.comp_def, Property.outline,
      IndexSignature.outline]
  | _ => rfl

theorem head?_bindNames (t : TypeExpr) :
    (bindNames ns t).head? = t.head?.map fun x => ns.target x.1 x.2 := by
  cases t <;> rfl

end

end TypeExpr

open TypeExpr

namespace SourceFile

variable {f : SourceFile} {modules : List String}

theorem bound_bindNames (t : TypeExpr) : f.Bound modules t (t.bindNames (f.names modules)) where
  outline := outline_bindNames _ t
  head := by
    rw [head?_bindNames]
    cases t.head? with
    | none => exact .none
    | some x => exact .some (refers_iff.mpr rfl)

theorem Bound.agrees {t u : TypeExpr} (h : f.Bound modules t u) :
    Agrees (t.bindNames (f.names modules)) u where
  outline := (outline_bindNames _ t).trans h.outline.symm
  head := by
    have hhead := h.head
    rw [head?_bindNames]
    generalize t.head? = x at hhead
    generalize u.head? = y at hhead
    cases hhead with
    | none => rfl
    | some hrefers => rw [Option.map_some, refers_iff.mp hrefers]

/-- Binding is the only way to bind all names of a type and to change nothing else. -/
theorem binds_iff {t u : TypeExpr} :
    f.Binds modules t u ↔ u = t.bindNames (f.names modules) := by
  constructor
  · intro h
    refine (eq_of_agrees _ _ fun place => ?_).symm
    have hplace := h place
    rw [at?_bindNames]
    generalize t.at? place = x at hplace
    generalize u.at? place = y at hplace
    cases hplace with
    | none => exact .none
    | some hbound => exact .some hbound.agrees
  · rintro rfl place
    rw [at?_bindNames]
    cases t.at? place with
    | none => exact .none
    | some u => exact .some (bound_bindNames u)

end RouteContract.SourceFile

import RouteContract.ModulePath
import RouteContract.Proofs.Text

/-!
# Relative imports as paths

A path is a list of segments below the source directory, and the source directory
itself has none. A relative import is followed segment by segment and means the
module at the path that it leads to, or the index of the directory there. Nothing
is assumed of the names of the modules.
-/

set_option autoImplicit false

namespace RouteContract.ModulePath

inductive Leads : List String → List String → List String → Prop
  | here {d : List String} : Leads d [] d
  | stay {d p segments : List String} {s : String} (hs : s = "" ∨ s = ".")
      (h : Leads d segments p) : Leads d (s :: segments) p
  | up {d p segments : List String} {name : String} (h : Leads d segments p) :
      Leads (d ++ [name]) (".." :: segments) p
  | down {d p segments : List String} {name : String}
      (hname : name ≠ "" ∧ name ≠ "." ∧ name ≠ "..") (h : Leads (d ++ [name]) segments p) :
      Leads d (name :: segments) p

def IsExtension (e : String) : Prop := e = ".ts" ∨ e = ".js"

inductive Bare : List String → List String → Prop
  | stripped {d : List String} {name e : String} (he : IsExtension e) :
      Bare (d ++ [name ++ e]) (d ++ [name])
  | kept {p : List String} (h : ∀ d name e, IsExtension e → p ≠ d ++ [name ++ e]) : Bare p p

def written (p : List String) : String := "/".intercalate p

def indexName : String := "index"

def meant? (modules : List String) (p : List String) : Option String :=
  if written p ∈ modules then some (written p)
  else if written (p ++ [indexName]) ∈ modules then some (written (p ++ [indexName]))
  else none

/-! ## Following segments -/

theorem foldl_step {d p segments : List String} (h : Leads d segments p) :
    segments.foldl step d = p := by
  induction h with
  | here => rfl
  | stay hs _ ih => rcases hs with rfl | rfl <;> exact ih
  | @up d p segments name _ ih =>
    rw [List.foldl_cons, show step (d ++ [name]) ".." = d by simp [step]]
    exact ih
  | @down d p segments name hname _ ih =>
    rw [List.foldl_cons, show step d name = d ++ [name] by simp [step, hname]]
    exact ih

theorem follow_eq {importer source : String} {p : List String}
    (h : Leads (segments importer).dropLast (segments source) p) :
    follow importer source = written p := by
  rw [follow, foldl_step h, written]

/-! ## Extensions -/

theorem stripSuffix?_eq_some {e path rest : String} :
    stripSuffix? e path = some rest ↔ path = rest ++ e := by
  simp only [stripSuffix?, Option.map_eq_some_iff, Text.stripPrefix?_eq_some]
  constructor
  · rintro ⟨cs, hcs, rfl⟩
    apply String.toList_injective
    simpa using congrArg List.reverse hcs
  · rintro rfl
    exact ⟨rest.toList.reverse, by simp, by simp⟩

theorem IsExtension.length {e : String} (he : IsExtension e) : e.toList.length = 3 := by
  rcases he with rfl | rfl <;> decide

theorem IsExtension.inj {e e' rest rest' : String} (he : IsExtension e) (he' : IsExtension e')
    (h : rest ++ e = rest' ++ e') : rest = rest' ∧ e = e' := by
  have hlength : e.toList.length = e'.toList.length := he.length.trans he'.length.symm
  have hchars : rest.toList ++ e.toList = rest'.toList ++ e'.toList := by
    simpa using congrArg String.toList h
  obtain ⟨hrest, hsuffix⟩ := List.append_inj' hchars hlength
  exact ⟨String.toList_injective hrest, String.toList_injective hsuffix⟩

theorem withoutExtension_append {rest e : String} (he : IsExtension e) :
    withoutExtension (rest ++ e) = rest := by
  have hown : stripSuffix? e (rest ++ e) = some rest := stripSuffix?_eq_some.mpr rfl
  rcases he with rfl | rfl
  · simp [withoutExtension, hown]
  · have hother : stripSuffix? ".ts" (rest ++ ".js") = none := by
      refine Option.eq_none_iff_forall_ne_some.mpr fun other hsome => ?_
      have hends := IsExtension.inj (.inr rfl) (.inl rfl) (stripSuffix?_eq_some.mp hsome)
      exact absurd hends.2 (by decide)
    simp [withoutExtension, hown, hother]

theorem withoutExtension_self {path : String}
    (h : ∀ rest e, IsExtension e → path ≠ rest ++ e) : withoutExtension path = path := by
  have hnone : ∀ e, IsExtension e → stripSuffix? e path = none := by
    intro e he
    refine Option.eq_none_iff_forall_ne_some.mpr fun rest hrest => ?_
    exact h rest e he (stripSuffix?_eq_some.mp hrest)
  simp [withoutExtension, hnone _ (.inl rfl), hnone _ (.inr rfl)]

theorem written_concat {d : List String} (hd : d ≠ []) (name : String) :
    written (d ++ [name]) = written d ++ "/" ++ name := by
  rw [written, String.intercalate_append_of_ne_nil hd (by simp), String.intercalate_singleton]
  rfl

theorem written_concat_append (d : List String) (name e : String) :
    written (d ++ [name ++ e]) = written (d ++ [name]) ++ e := by
  by_cases hd : d = []
  · subst hd
    simp [written]
  · simp [written_concat hd, String.append_assoc]

/-- An extension at the end of a path stands at the end of its last segment, for it has no slash. -/
theorem written_eq_append {p : List String} {rest e : String} (he : IsExtension e)
    (h : written p = rest ++ e) : ∃ d name, p = d ++ [name ++ e] := by
  have hslash : '/' ∉ e.toList := by rcases he with rfl | rfl <;> decide
  have hne : e.toList ≠ [] := by rcases he with rfl | rfl <;> decide
  rcases List.eq_nil_or_concat p with rfl | ⟨d, last, rfl⟩
  · have hchars := congrArg String.toList h
    simp [written, hne] at hchars
  by_cases hd : d = []
  · subst hd
    exact ⟨[], rest, by simpa [written] using h⟩
  rw [List.concat_eq_append, written_concat hd] at h
  have hchars : (written d).toList ++ '/' :: last.toList = rest.toList ++ e.toList := by
    simpa [String.append_assoc] using congrArg String.toList h
  rcases List.append_eq_append_iff.mp hchars with ⟨more, -, hlast⟩ | ⟨more, -, hlast⟩
  · cases more with
    | nil =>
      rw [List.nil_append] at hlast
      exact absurd (hlast ▸ List.mem_cons_self) hslash
    | cons c more =>
      obtain ⟨-, hname⟩ := List.cons.inj hlast
      refine ⟨d, String.ofList more, ?_⟩
      rw [List.concat_eq_append]
      congr 2
      apply String.toList_injective
      simpa using hname
  · exact absurd (hlast ▸ List.mem_append_right _ List.mem_cons_self) hslash

namespace Bare

variable {p q : List String}

theorem withoutExtension_written (h : Bare p q) : withoutExtension (written p) = written q := by
  cases h with
  | stripped he => rw [written_concat_append, withoutExtension_append he]
  | kept hkept =>
    refine withoutExtension_self fun rest e he hpath => ?_
    obtain ⟨d, name, hp⟩ := written_eq_append he hpath
    exact hkept d name e he hp

theorem unique {r : List String} (h : Bare p q) (h' : Bare p r) : r = q := by
  cases h with
  | @stripped d name e he =>
    generalize hp : d ++ [name ++ e] = p at h'
    cases h' with
    | @stripped d' name' e' he' =>
      obtain ⟨hd, hname⟩ := List.append_inj' hp rfl
      obtain ⟨hname, -⟩ := he.inj he' (List.singleton_inj.mp hname)
      rw [hd, hname]
    | kept hkept => exact absurd hp.symm (hkept d name e he)
  | kept hkept =>
    cases h' with
    | stripped he => exact absurd rfl (hkept _ _ _ he)
    | kept => rfl

theorem total (p : List String) : ∃ q, Bare p q := by
  by_cases h : ∃ d name e, IsExtension e ∧ p = d ++ [name ++ e]
  · obtain ⟨d, name, e, he, rfl⟩ := h
    exact ⟨_, .stripped he⟩
  · exact ⟨p, .kept fun d name e he hp => h ⟨d, name, e, he, hp⟩⟩

end Bare

/-! ## Modules -/

theorem resolve?_relative (importer : String) {source : String} (h : source.startsWith ".")
    (modules : List String) :
    resolve? importer source modules =
      if withoutExtension (follow importer source) ∈ modules then
        some (withoutExtension (follow importer source))
      else if withoutExtension (follow importer source) ++ "/index" ∈ modules then
        some (withoutExtension (follow importer source) ++ "/index")
      else none := by
  simp [resolve?, h]

theorem written_index {q : List String} (hq : q ≠ []) :
    written q ++ "/index" = written (q ++ [indexName]) := by
  have hname : "/" ++ indexName = "/index" := by decide
  rw [written_concat hq, String.append_assoc, hname]

/-- An import that does not leave the source directory leads to one path, from which one source
extension is taken. It means the module at this path or else the index of the directory there. The
index of the source directory itself is looked up under a name with a slash in front, and so it is
not found. -/
theorem resolve?_path {importer source : String} (hrelative : source.startsWith ".")
    {p : List String} (hleads : Leads (segments importer).dropLast (segments source) p)
    (modules : List String) :
    ∃ q, (∀ r, Bare p r ↔ r = q) ∧
      (q ≠ [] → resolve? importer source modules = meant? modules q) ∧
      (q = [] → resolve? importer source modules =
        if "" ∈ modules then some "" else if "/index" ∈ modules then some "/index" else none) ∧
      (resolve? importer source modules = meant? modules q ↔
        ¬ (q = [] ∧ "" ∉ modules ∧ ("index" ∈ modules ∨ "/index" ∈ modules))) := by
  obtain ⟨q, hbare⟩ := Bare.total p
  have hresolve := resolve?_relative importer hrelative modules
  rw [follow_eq hleads, hbare.withoutExtension_written] at hresolve
  have hbelow : q ≠ [] → resolve? importer source modules = meant? modules q := by
    intro hq
    rw [hresolve, written_index hq, meant?]
  have hroot : q = [] → resolve? importer source modules =
      if "" ∈ modules then some "" else if "/index" ∈ modules then some "/index" else none := by
    rintro rfl
    simpa [written] using hresolve
  refine ⟨q, fun r => ⟨fun hr => hbare.unique hr, fun hr => hr ▸ hbare⟩, hbelow, hroot, ?_⟩
  by_cases hq : q = []
  · have hmeant : meant? modules q =
        if "" ∈ modules then some "" else if "index" ∈ modules then some "index" else none := by
      simp [hq, meant?, written, indexName]
    rw [hroot hq, hmeant]
    by_cases hself : "" ∈ modules <;> by_cases hslash : "/index" ∈ modules <;>
      by_cases hindex : "index" ∈ modules <;> simp [hq, hself, hslash, hindex]
  · simp [hq, hbelow hq]

namespace Sample

/-- An import that goes up, stays and comes down, with an extension at its end. -/
theorem sibling_resolved :
    Leads (segments "controllers/users").dropLast (segments "..//./models/user.js")
      ["models", "user.js"] ∧
    resolve? "controllers/users" "..//./models/user.js" ["models/index", "models/user"] =
      some "models/user" := by
  have hfrom : (segments "controllers/users").dropLast = [] ++ ["controllers"] := by decide +kernel
  have hsource : segments "..//./models/user.js" = ["..", "", ".", "models", "user.js"] := by
    decide +kernel
  have hleads : Leads (segments "controllers/users").dropLast (segments "..//./models/user.js")
      ["models", "user.js"] := by
    rw [hfrom, hsource]
    exact .up (.stay (.inl rfl) (.stay (.inr rfl) (.down (by decide) (.down (by decide) .here))))
  refine ⟨hleads, ?_⟩
  obtain ⟨q, hbare, hbelow, -, -⟩ := resolve?_path (by decide +kernel) hleads
    ["models/index", "models/user"]
  have hstripped : Bare (["models"] ++ ["user" ++ ".js"]) (["models"] ++ ["user"]) :=
    .stripped (.inr rfl)
  obtain rfl := (hbare _).mp hstripped
  rw [hbelow (by decide)]
  decide +kernel

/-- The index of the source directory is known, and an import of this directory does not find it. -/
theorem root_index_missed : Leads (segments "main").dropLast (segments ".") [] ∧
    (∀ r, Bare [] r ↔ r = []) ∧ meant? ["index", "main"] [] = some "index" ∧
    resolve? "main" "." ["index", "main"] = none := by
  refine ⟨?_, ?_, by decide +kernel, by decide +kernel⟩
  · have hfrom : (segments "main").dropLast = [] := by decide +kernel
    have hsource : segments "." = ["."] := by decide +kernel
    rw [hfrom, hsource]
    exact .stay (.inr rfl) .here
  · have hself : Bare [] [] := .kept fun d name e _ hd => by simp at hd
    exact fun r => ⟨fun hr => hself.unique hr, fun hr => hr ▸ hself⟩

end Sample

end RouteContract.ModulePath

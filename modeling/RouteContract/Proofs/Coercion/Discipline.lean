import RouteContract.Proofs.Coercion.Complaints
import RouteContract.Proofs.Coercion.Recording
import RouteContract.Proofs.Coercion.Reports

/-!
# The discipline of errors

One table of errors goes through all of a coercion. What was recorded before
changes neither the value nor the errors that are found; a value is missing
exactly when there is an error; and every error stands at the path or below it.
-/

set_option autoImplicit false

namespace RouteContract

namespace Coercion

def Under (path : String) (r : Report) : Prop := ∃ rest, r.1 = path ++ rest

theorem child_extends (path name : String) : ∃ rest, child path name = path ++ rest := by
  unfold child
  by_cases h : path.isEmpty
  · have hempty : path = "" := String.isEmpty_iff.mp h
    exact ⟨name, by simp [hempty]⟩
  · exact ⟨"." ++ name, by simp [h, String.append_assoc]⟩

theorem index_extends (path : String) (i : Nat) : ∃ rest, index path i = path ++ rest :=
  ⟨"[" ++ toString i ++ "]", by simp [index, String.append_assoc]⟩

theorem Under.of_extends {path below : String} (h : ∃ rest, below = path ++ rest) {r : Report}
    (hr : Under below r) : Under path r := by
  obtain ⟨rest, rfl⟩ := h
  obtain ⟨rest', hr⟩ := hr
  exact ⟨rest ++ rest', by rw [hr, String.append_assoc]⟩

theorem under_self (path : String) (e : FieldError) : Under path (path, e) := ⟨"", by simp⟩

theorem reporting_under (ds : Definitions) : Reporting ds (fun _ => True) Under where
  object _ := trivial
  value path _ _ _ := under_self path _
  broken _ path _ _ _ := under_self path _
  child path name _ hr := hr.of_extends (child_extends path name)
  item path i _ hr := hr.of_extends (index_extends path i)

end Coercion

namespace Recording

/-- A step at a path that leaves what was recorded before alone, and hangs on none of it. -/
structure Disciplined (path : String) (m : Recording (Option Typed)) : Prop where
  /-- The value, and whether there is an end, are those of a run on a blank table. -/
  value : ∀ errors, (m errors).map (·.1) = (m []).map (·.1)
  /-- The errors found on a blank table follow the errors before them, less those whose key is
  taken. -/
  errors : ∀ t found, m [] = some (t, found) → ∀ errors,
    m errors = some (t, errors ++ found.filter fun x => !Entries.contains errors x.1)
  /-- There is no value exactly when there is an error. -/
  refused : ∀ t found, m [] = some (t, found) → (t = none ↔ found ≠ [])
  /-- Every error stands at the path or below it. -/
  under : ∀ t found, m [] = some (t, found) → ∀ key e, (key, e) ∈ found →
    ∃ rest, key = path ++ rest

/-- A step that adds the reports of a coercion to the table is disciplined, if the coercion gives a
value or reports and reports at its path only. -/
theorem Records.disciplined {path : String} {m : Recording (Option Typed)}
    {c? : Option (Coerced Typed)} (h : Records m c?)
    (hc : ∀ c, c? = some c → c.Honest ∧ Coercion.Makes Coercion.Under path c) :
    Disciplined path m := by
  have found_of : ∀ {t found}, m [] = some (t, found) →
      ∃ c, c? = some c ∧ t = c.value? ∧ found = FieldErrors.addAll [] c.reports := by
    intro t found hm
    rw [h []] at hm
    obtain ⟨c, hc, he⟩ := Option.map_eq_some_iff.mp hm
    cases he
    exact ⟨c, hc, rfl, rfl⟩
  refine ⟨fun errors => ?_, ?_, ?_, ?_⟩
  · rw [h errors, h []]
    simp [Function.comp_def]
  · intro t found hm errors
    obtain ⟨c, hc, rfl, rfl⟩ := found_of hm
    rw [h errors, hc, Option.map_some, FieldErrors.addAll_eq errors]
  · intro t found hm
    obtain ⟨c, hsome, rfl, rfl⟩ := found_of hm
    have honest : c.value? = none ↔ c.reports ≠ [] := (hc c hsome).1
    rw [honest, ne_eq, ne_eq, FieldErrors.addAll_eq_nil_iff]
  · intro t found hm key e he
    obtain ⟨c, hsome, rfl, rfl⟩ := found_of hm
    have hreport := (FieldErrors.mem_of_mem_addAll he).resolve_left (by simp)
    exact (hc c hsome).2 (key, e) hreport

/-- Coercing a JSON value, or the texts of a key that has some, keeps the discipline of errors; and
what is recorded is what coercion reports. -/
theorem coercion_disciplined (ds : Definitions) (extras : Extras) (delimiter : Option Char)
    (s : Schema) (path : String) :
    (∀ v, Disciplined path (json ds extras s v path) ∧
      Records (json ds extras s v path) (Coercion.json ds extras s v path)) ∧
    ∀ first rest, Disciplined path (text ds extras delimiter s (first :: rest) path) ∧
      Records (text ds extras delimiter s (first :: rest) path)
        (Coercion.text ds extras delimiter s (first :: rest) path) := by
  have throughout : Coercion.Throughout ds (fun _ => True) s := fun _ _ => trivial
  have reporting := Coercion.reporting_under ds
  refine ⟨fun v => ?_, fun first rest => ?_⟩
  · have h := records_json ds extras s v path
    refine ⟨h.disciplined fun c hc => ?_, h⟩
    exact ⟨Coercion.json_honest hc, reporting.json throughout hc⟩
  · have h := records_text ds extras delimiter s (first :: rest) path
    refine ⟨h.disciplined fun c hc => ?_, h⟩
    exact ⟨Coercion.text_honest (by simp) hc, reporting.text throughout hc⟩

end Recording

end RouteContract

import Mathlib.Data.List.Induction
import RouteContract.FieldErrors
import RouteContract.Proofs.Entries

/-!
# Tables of errors

A table to which reports are added stands unchanged in front. Of the reports,
those are new in it whose key it does not have, each key once, so that its keys
are its own and those of all reports.
-/

set_option autoImplicit false

namespace RouteContract.FieldErrors

theorem add_ne_nil {errors : FieldErrors} (h : errors ≠ []) (key : String)
    (e : FieldError) : errors.add key e ≠ [] := by
  unfold add Entries.insertNew
  split
  · exact h
  · simp

theorem addAll_eq_nil {reports : List (String × FieldError)} (h : addAll [] reports = []) :
    reports = [] := by
  cases reports with
  | nil => rfl
  | cons x reports =>
    -- Once there is an error there always is one.
    have general : ∀ (xs : List (String × FieldError)) (errors : FieldErrors), errors ≠ [] →
        addAll errors xs ≠ [] := by
      intro xs
      induction xs with
      | nil => exact fun errors he => he
      | cons y ys ih => exact fun errors he => ih _ (add_ne_nil he y.1 y.2)
    exact absurd h (general reports _ (by simp [add, Entries.insertNew, Entries.contains]))

theorem addAll_eq_nil_iff {reports : List (String × FieldError)} :
    addAll [] reports = [] ↔ reports = [] :=
  ⟨addAll_eq_nil, fun h => by rw [h]; rfl⟩

theorem addAll_append (errors : FieldErrors) (xs ys : List (String × FieldError)) :
    errors.addAll (xs ++ ys) = (errors.addAll xs).addAll ys := List.foldl_append

theorem contains_iff {errors : FieldErrors} {key : String} :
    Entries.contains errors key ↔ key ∈ Entries.keys errors := Entries.find?_isSome_iff

/-- What an error adds is decided by the keys of the table and of what it was extended by. -/
theorem add_append (errors new : FieldErrors) (key : String) (e : FieldError) :
    add (errors ++ new.filter fun x => !Entries.contains errors x.1) key e =
      errors ++ (add new key e).filter fun x => !Entries.contains errors x.1 := by
  have hkeys : key ∈ Entries.keys (errors ++ new.filter fun x => !Entries.contains errors x.1) ↔
      Entries.contains errors key ∨ Entries.contains new key := by
    simp only [contains_iff, Entries.mem_keys, List.mem_append, List.mem_filter]
    constructor
    · rintro ⟨a, h | ⟨h, -⟩⟩
      · exact .inl ⟨a, h⟩
      · exact .inr ⟨a, h⟩
    · rintro (⟨a, h⟩ | ⟨a, h⟩)
      · exact ⟨a, .inl h⟩
      · by_cases hc : Entries.contains errors key
        · obtain ⟨b, hb⟩ := Entries.mem_keys.mp (contains_iff.mp hc)
          exact ⟨b, .inl hb⟩
        · exact ⟨a, .inr ⟨h, by simp [hc]⟩⟩
  rw [← contains_iff] at hkeys
  unfold add Entries.insertNew
  by_cases hnew : Entries.contains new key
  · rw [if_pos (hkeys.mpr (.inr hnew)), if_pos hnew]
  · by_cases hold : Entries.contains errors key
    · rw [if_pos (hkeys.mpr (.inl hold)), if_neg hnew]
      simp [hold]
    · rw [if_neg (fun h => (hkeys.mp h).elim hold hnew), if_neg hnew]
      simp [hold]

/-- Reports are added to a table behind it, as they are to a blank one, less those whose key the
table has. -/
theorem addAll_eq (errors : FieldErrors) (reports : List (String × FieldError)) :
    errors.addAll reports =
      errors ++ (addAll [] reports).filter fun x => !Entries.contains errors x.1 := by
  induction reports using List.reverseRecOn with
  | nil => simp [addAll]
  | append_singleton xs x ih =>
    rw [addAll_append, addAll_append, ih]
    exact add_append errors _ x.1 x.2

theorem mem_of_mem_add {errors : FieldErrors} {key : String} {e : FieldError}
    {x : String × FieldError} (h : x ∈ errors.add key e) : x ∈ errors ∨ x = (key, e) := by
  unfold add Entries.insertNew at h
  split at h
  · exact .inl h
  · simpa using h

/-- Every error of a table was there or was reported. -/
theorem mem_of_mem_addAll {errors : FieldErrors} {reports : List (String × FieldError)}
    {x : String × FieldError} (h : x ∈ errors.addAll reports) : x ∈ errors ∨ x ∈ reports := by
  induction reports generalizing errors with
  | nil => exact .inl h
  | cons y ys ih =>
    rcases ih h with h | h
    · exact (mem_of_mem_add h).imp id fun he => by simp [he]
    · exact .inr (by simp [h])

theorem keys_add (errors : FieldErrors) (key : String) (e : FieldError) {key' : String} :
    key' ∈ Entries.keys (errors.add key e) ↔ key' ∈ Entries.keys errors ∨ key' = key := by
  unfold add Entries.insertNew
  split
  · rename_i h
    refine ⟨.inl, ?_⟩
    rintro (h' | rfl)
    · exact h'
    · exact contains_iff.mp h
  · simp [Entries.keys]

/-- The keys of a table are those of all that is reported. -/
theorem mem_keys_addAll {errors : FieldErrors} {reports : List (String × FieldError)}
    {key : String} : key ∈ Entries.keys (errors.addAll reports) ↔
      key ∈ Entries.keys errors ∨ ∃ e, (key, e) ∈ reports := by
  induction reports generalizing errors with
  | nil => simp [addAll]
  | cons x reports ih =>
    show key ∈ Entries.keys ((errors.add x.1 x.2).addAll reports) ↔ _
    rw [ih, keys_add, or_assoc]
    refine or_congr Iff.rfl ?_
    simp only [List.mem_cons, exists_or]
    refine or_congr ⟨?_, ?_⟩ Iff.rfl
    · rintro rfl
      exact ⟨x.2, rfl⟩
    · rintro ⟨e, he⟩
      rw [← he]

end RouteContract.FieldErrors

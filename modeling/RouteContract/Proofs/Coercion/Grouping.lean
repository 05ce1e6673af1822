import RouteContract.Proofs.Coercion.Budgets
import RouteContract.Proofs.Text

/-!
# Delimited lists

The items of an array may be spread over the repeated values of a key, and each
value may join several of them with a delimiter. Nothing is assumed of the
delimiter, which may be blank itself, nor of the element schema. The array is
coerced as its items are one by one, under their positions in the whole list.
-/

set_option autoImplicit false

namespace RouteContract.Coercion

open Coerced (ok)

structure Listable (d : Char) (item : String) : Prop where
  nonempty : item ≠ ""
  trimmed : Text.trim item.toList = item.toList
  free : d ∉ item.toList

instance (d : Char) (item : String) : Decidable (Listable d item) :=
  decidable_of_iff (item ≠ "" ∧ Text.trim item.toList = item.toList ∧ d ∉ item.toList)
    ⟨fun h => ⟨h.1, h.2.1, h.2.2⟩, fun h => ⟨h.nonempty, h.trimmed, h.free⟩⟩

def delimited (d : Char) (items : List String) : String := Text.joined (String.singleton d) items

/-- A value gives back the items that it was made of, and one made of none gives none. -/
theorem split_delimited {d : Char} {items : List String} (h : ∀ item ∈ items, Listable d item) :
    split (some d) (delimited d items) = items := by
  cases items with
  | nil => rfl
  | cons first rest =>
    have hpieces : Text.pieces d (delimited d (first :: rest)).toList =
        (first :: rest).map String.toList := by
      rw [delimited, Text.joined, String.toList_intercalate, String.toList_singleton]
      refine Text.pieces_intercalate (fun p hp => ?_) (by simp)
      obtain ⟨item, hitem, rfl⟩ := List.mem_map.mp hp
      exact (h item hitem).free
    have htrim : ((first :: rest).map String.toList).map Text.trim =
        (first :: rest).map String.toList := by
      rw [List.map_map]
      exact List.map_congr_left fun item hitem => (h item hitem).trimmed
    have hfilter : ((first :: rest).map String.toList).filter (!·.isEmpty) =
        (first :: rest).map String.toList := by
      refine List.filter_eq_self.mpr fun p hp => ?_
      obtain ⟨item, hitem, rfl⟩ := List.mem_map.mp hp
      simpa using (h item hitem).nonempty
    simp only [split, hpieces, htrim, hfilter, List.map_map]
    exact (List.map_congr_left fun _ _ => String.ofList_toList).trans (List.map_id _)

/-- However items are grouped into values, all of them are found in order. -/
theorem split_groups {d : Char} {groups : List (List String)}
    (h : ∀ group ∈ groups, ∀ item ∈ group, Listable d item) :
    (groups.map (delimited d)).flatMap (split (some d)) = groups.flatten := by
  rw [List.flatMap_map, ← List.flatMap_id]
  exact List.flatMap_congr fun group hgroup => split_delimited (h group hgroup)

section

variable (ds : Definitions) (extras : Extras)

def oneText (s : Schema) (text path : String) : Option (Coerced Typed) :=
  oneTextWithin ds extras (schemaNodes ds s + 1) s text path

def eachText (s : Schema) (items : List String) (path : String) :
    Option (List (Coerced Typed)) :=
  items.zipIdx.mapM fun (item, i) => oneText ds extras s item (index path i)

variable {ds extras}

/-- An item of an array is coerced as on its own. -/
theorem oneTextWithin_element {t s : Schema} (ht : deref ds maxHops t = .ok (.array s))
    (text path : String) :
    oneTextWithin ds extras (schemaNodes ds t + 1) s text path = oneText ds extras s text path := by
  have hs : s ∈ plainNodes ds s := List.mem_append_left _ (Schema.tree.mem_nodes_self s)
  have hroot : t ∈ plainNodes ds t := List.mem_append_left _ (Schema.tree.mem_nodes_self t)
  have helement : s ∈ plainNodes ds t := plainNodes_closed (plainNodes_deref hroot ht) (.element s)
  -- Neither of the two budgets bounds the other, so both are compared with their maximum.
  rw [oneTextWithin_eq (Nat.le_succ _) (Nat.le_max_left _ (schemaNodes ds s)) helement]
  exact oneTextWithin_eq (Nat.le_max_right _ _) (Nat.le_succ _) hs

theorem text_array {t s : Schema} (ht : deref ds maxHops t = .ok (.array s))
    (delimiter : Option Char) (values : List String) (path : String) :
    text ds extras delimiter t values path =
      (eachText ds extras s (values.flatMap (split delimiter)) path).map fun cs =>
        (Coerced.sequence cs).map .array := by
  have heach : texts ds extras s path (schemaNodes ds t + 1) 0 (values.flatMap (split delimiter)) =
      eachText ds extras s (values.flatMap (split delimiter)) path := by
    rw [texts_eq_mapM]
    exact congrArg (List.mapM · _) (funext fun x => oneTextWithin_element ht x.1 (index path x.2))
  simp only [text, textWithin, through, ht, heach]
  cases eachText ds extras s (values.flatMap (split delimiter)) path <;> rfl

theorem eachText_string (items : List String) (path : String) :
    eachText ds extras (.primitive .string) items path =
      some (items.map fun item => ok (.string item)) := by
  calc eachText ds extras (.primitive .string) items path
      = items.zipIdx.mapM fun x => pure (ok (.string x.1)) := rfl
    _ = some (items.zipIdx.map fun x => ok (.string x.1)) := List.mapM_pure
    _ = some ((items.zipIdx.map Prod.fst).map fun item => ok (.string item)) := by
      rw [List.map_map]
      rfl
    _ = some (items.map fun item => ok (.string item)) := by rw [List.zipIdx_map_fst]

/-- However items are grouped into values, the array is coerced as the items are one by one: it has
the values of all, or none where one has none, and the reports of all under their positions in the
whole list. An array of strings is the list of the items. -/
theorem text_grouped {d : Char} {groups : List (List String)}
    (hitems : ∀ group ∈ groups, ∀ item ∈ group, Listable d item) {t s : Schema}
    (ht : deref ds maxHops t = .ok (.array s)) (path : String) :
    (text ds extras (some d) t (groups.map (delimited d)) path =
      (eachText ds extras s groups.flatten path).map fun cs =>
        (Coerced.sequence cs).map .array) ∧
    (s = .primitive .string → text ds extras (some d) t (groups.map (delimited d)) path =
      some (ok (.array (groups.flatten.map .string)))) := by
  have htext : text ds extras (some d) t (groups.map (delimited d)) path =
      (eachText ds extras s groups.flatten path).map fun cs =>
        (Coerced.sequence cs).map .array := by
    rw [text_array ht, split_groups hitems]
  refine ⟨htext, ?_⟩
  rintro rfl
  have hall : Coerced.sequence (groups.flatten.map fun item => ok (Typed.string item)) =
      ok (groups.flatten.map Typed.string) := by
    rw [← Coerced.sequence_ok, List.map_map]
    rfl
  rw [htext, eachText_string, Option.map_some, hall]
  rfl

end

namespace Sample

def blankGroups : List (List String) := [["1", "x"], [], ["3"]]

theorem blankGroups_coerced :
    blankGroups.map (delimited ' ') = ["1 x", "", "3"] ∧
    text [] .drop (some ' ') (.array (.primitive .integer)) ["1 x", "", "3"] "p" =
      some ⟨none, [("p[1]", ⟨.invalid "integer", some (.string "x")⟩)]⟩ ∧
    text [] .drop (some ' ') (.array (.primitive .string)) ["1 x", "", "3"] "p" =
      some (ok (.array [.string "1", .string "x", .string "3"])) := by
  have hlistable : ∀ group ∈ blankGroups, ∀ item ∈ group, Listable ' ' item := by decide
  have hvalues : blankGroups.map (delimited ' ') = ["1 x", "", "3"] := by decide +kernel
  refine ⟨hvalues, ?_, ?_⟩
  · rw [← hvalues, (text_grouped hlistable rfl "p").1]
    rfl
  · rw [← hvalues, (text_grouped hlistable rfl "p").2 rfl]
    rfl

end Sample

end RouteContract.Coercion

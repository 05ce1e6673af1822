import RouteContract.Proofs.Validation.Causes

/-!
# Counting errors

A failing parameter has an error at its own key or below it, and two parameters
share an error only where some key stands below both of theirs. Names of
parameters and wire names of body fields are keys of one table, so a name and a
wire name that are equal are such a case.
-/

set_option autoImplicit false

namespace RouteContract

namespace Coercion

/-- No key stands at or below both. -/
def Apart (a b : String) : Prop := ∀ key, ¬ (Stands a key ∧ Stands b key)

def isPlain (c : Char) : Bool := c ≠ '.' && c ≠ '['

def Plain (name : String) : Prop := name ≠ "" ∧ ∀ c ∈ name.toList, isPlain c

/-- What stands below a path goes on with a dot or a bracket. -/
theorem Stands.rest {path key : String} (h : Stands path key) (hpath : path ≠ "") :
    ∃ rest, key.toList = path.toList ++ rest ∧ rest.takeWhile isPlain = [] := by
  induction h with
  | here => exact ⟨[], by simp, rfl⟩
  | @child path name key h ih =>
    have hchild : Coercion.child path name = path ++ "." ++ name := by
      rw [Coercion.child, if_neg (by simpa using hpath)]
    rw [hchild] at ih
    obtain ⟨rest, hrest, -⟩ := ih (by simp)
    exact ⟨'.' :: (name.toList ++ rest), by simp [hrest], rfl⟩
  | @item path key i h ih =>
    obtain ⟨rest, hrest, -⟩ := ih (by simp [index])
    exact ⟨'[' :: ((toString i).toList ++ ']' :: rest), by simp [hrest, index], rfl⟩

/-- A plain path is read off from every key below it. -/
theorem Stands.plain {path key : String} (h : Stands path key) (hpath : Plain path) :
    key.toList.takeWhile isPlain = path.toList := by
  obtain ⟨rest, hkey, hrest⟩ := h.rest hpath.1
  rw [hkey, List.takeWhile_append_of_pos hpath.2, hrest, List.append_nil]

theorem apart_of_plain {a b : String} (ha : Plain a) (hb : Plain b) (h : a ≠ b) : Apart a b := by
  rintro key ⟨hka, hkb⟩
  exact h (String.ext ((hka.plain ha).symm.trans (hkb.plain hb)))

end Coercion

namespace Validation

open Coercion (Stands Apart Plain apart_of_plain)

/-- The key of what is wrong with a parameter: body fields go by their wire names. -/
def errorKey (p : BoundParameter) : String := if p.source = .field then p.wire else p.name

section

variable (ds : Definitions) (settings : ValidationSettings) (r : Request)

def Failing (p : BoundParameter) : Prop :=
  ∃ f, FieldOf settings r p f ∧ f.Fails ds settings.extras

end

section

variable {ds : Definitions} {settings : ValidationSettings} {r : Request}
  {parameters : List BoundParameter}

theorem FieldOf.key {p : BoundParameter} {f : Field} (h : FieldOf settings r p f) :
    f.key = errorKey p := by
  cases h with
  | single _ _ hf => exact (if_neg hf).symm
  | body _ hf _ => exact (if_pos hf).symm

/-- A failing parameter has an error at its key or below, which others may share. -/
theorem Failing.reported {outcome : Outcome} (h : run parameters r ds settings = some outcome)
    (hwires : (fieldWires parameters).Nodup) {p : BoundParameter} (hp : p ∈ parameters)
    (hfails : Failing ds settings r p) :
    ∃ key ∈ outcome.errors.keys, Stands (errorKey p) key := by
  obtain ⟨f, hf, hfails⟩ := hfails
  have hchecked : Checked ds settings r parameters f :=
    hf.checked hp fun hsource => lastField_of_nodup hwires hp hsource
  obtain ⟨rep, hrep⟩ := (hchecked.raises_iff_fails h).mpr hfails
  obtain ⟨hkey, hstands⟩ := hchecked.errors h hrep
  exact ⟨rep.1, hkey, hf.key ▸ hstands⟩

/-- Errors at or below keys that are apart are different errors. -/
theorem length_le_of_apart {errors : FieldErrors} {ps : List BoundParameter}
    (hkeys : ∀ p ∈ ps, ∃ key ∈ errors.keys, Stands (errorKey p) key)
    (hapart : ps.Pairwise fun p q => Apart (errorKey p) (errorKey q)) :
    ps.length ≤ errors.length := by
  choose! key hkey hstands using hkeys
  have hnodup : (ps.map key).Nodup := by
    refine List.pairwise_map.mpr (hapart.imp_of_mem fun {p q} hp hq h he => ?_)
    exact h (key p) ⟨hstands p hp, he ▸ hstands q hq⟩
  have hsubset : ps.map key ⊆ errors.keys := by
    rintro k hk
    obtain ⟨p, hp, rfl⟩ := List.mem_map.mp hk
    exact hkey p hp
  simpa [Entries.keys] using (List.subperm_of_subset hnodup hsubset).length_le

/-- A failing parameter has an error. Failing parameters are counted one by one where their keys are
apart, as plain keys are that differ. -/
theorem failing_counted {outcome : Outcome} (h : run parameters r ds settings = some outcome)
    (hwires : (fieldWires parameters).Nodup) :
    (∀ p ∈ parameters, Failing ds settings r p →
      ∃ key ∈ outcome.errors.keys, Stands (errorKey p) key) ∧
    (∀ ps : List BoundParameter, ps.Sublist parameters → (∀ p ∈ ps, Failing ds settings r p) →
      (ps.Pairwise fun p q => Apart (errorKey p) (errorKey q)) →
      ps.length ≤ outcome.errors.length) ∧
    ∀ ps : List BoundParameter, ps.Sublist parameters → (∀ p ∈ ps, Failing ds settings r p) →
      (∀ p ∈ ps, Plain (errorKey p)) → (ps.map errorKey).Nodup →
      ps.length ≤ outcome.errors.length := by
  have hreported : ∀ p ∈ parameters, Failing ds settings r p →
      ∃ key ∈ outcome.errors.keys, Stands (errorKey p) key :=
    fun p hp hfails => hfails.reported h hwires hp
  have hcounted : ∀ ps : List BoundParameter, ps.Sublist parameters →
      (∀ p ∈ ps, Failing ds settings r p) →
      (ps.Pairwise fun p q => Apart (errorKey p) (errorKey q)) →
      ps.length ≤ outcome.errors.length :=
    fun ps hps hfails => length_le_of_apart fun p hp => hreported p (hps.subset hp) (hfails p hp)
  refine ⟨hreported, hcounted, fun ps hps hfails hplain hnodup => hcounted ps hps hfails ?_⟩
  refine (List.pairwise_map.mp hnodup).imp_of_mem fun {p q} hp hq hne => ?_
  exact apart_of_plain (hplain p hp) (hplain q hq) hne

end

end Validation

namespace Sample

open Validation
open Coercion (Plain isPlain)

def demanded (source : Source) (name wire : String) : BoundParameter :=
  ⟨name, wire, source, some (.primitive .string), true, none, none⟩

theorem demanded_failing {source : Source} {name wire : String}
    (h : source = .query ∨ source = .field) :
    Failing [] .standard .empty (demanded source name wire) := by
  rcases h with rfl | rfl
  · exact ⟨_, .single rfl rfl (by simp [demanded]), .missing rfl rfl⟩
  · exact ⟨_, .body rfl rfl rfl, .missing rfl rfl⟩

def crossed : List BoundParameter := [demanded .query "x" "x", demanded .field "y" "x"]

/-- Two parameters are missing, and one error tells it. -/
theorem crossed_merged :
    (crossed.Pairwise fun p q => p.name ≠ q.name ∧ (p.source = q.source → p.wire ≠ q.wire)) ∧
      (∀ p ∈ crossed, Failing [] .standard .empty p) ∧
      ∃ outcome, run crossed .empty [] .standard = some outcome ∧
        outcome.errors.length < crossed.length := by
  refine ⟨by decide, ?_, _, rfl, by decide⟩
  simp [crossed, demanded_failing]

def uncrossed : List BoundParameter := [demanded .query "x" "x", demanded .field "y" "y"]

theorem uncrossed_counted : ∃ outcome, run uncrossed .empty [] .standard = some outcome ∧
    2 ≤ outcome.errors.length := by
  have hrun : (run uncrossed .empty [] .standard).isSome := by decide
  obtain ⟨outcome, h⟩ := Option.isSome_iff_exists.mp hrun
  obtain ⟨-, -, hcounted⟩ := failing_counted h (by decide)
  have hfailing : ∀ p ∈ uncrossed, Failing [] .standard .empty p := by
    simp [uncrossed, demanded_failing]
  have hplain : ∀ p ∈ uncrossed, Plain (errorKey p) := by
    simp [uncrossed, demanded, errorKey, Plain, isPlain]
  exact ⟨outcome, h, hcounted uncrossed (.refl _) hfailing hplain (by decide)⟩

end Sample

end RouteContract

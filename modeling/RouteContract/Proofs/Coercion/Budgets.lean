import Mathlib.Data.List.FinRange
import Mathlib.Order.Fin.Basic
import RouteContract.Proofs.Coercion.Places

/-!
# What ends, ends within its budget

Coercion is granted a number of nested steps that depends on the schema and the
value. Nothing is assumed of the definitions: unions that lead back to themselves
never end, and any other text is done with after as many steps as there are schema
nodes.
-/

set_option autoImplicit false

namespace RouteContract

section

variable {α β : Type} {F : Nat → α → Option β} {places : List α}

/-- More results with each step can only be had as long as there are places without one. -/
theorem exists_stationary (places : List α)
    (hmono : ∀ n a b, F n a = some b → F (n + 1) a = some b) :
    ∃ k ≤ places.length, ∀ a ∈ places, F (k + 1) a = F k a := by
  have mono : ∀ {n m a b}, n ≤ m → F n a = some b → F m a = some b := by
    intro n m a b hnm h
    induction hnm with
    | refl => exact h
    | step _ ih => exact hmono _ a b ih
  by_contra hno
  push Not at hno
  have hnew : ∀ k : Fin (places.length + 1),
      ∃ a ∈ places, F k a = none ∧ (F (k + 1) a).isSome := by
    intro k
    obtain ⟨a, ha, hne⟩ := hno k (Nat.le_of_lt_succ k.isLt)
    cases hk : F k a with
    | some b => exact absurd ((hmono k a b hk).trans hk.symm) hne
    | none => exact ⟨a, ha, hk, Option.isSome_iff_ne_none.mpr (hk ▸ hne)⟩
  choose f hf hnone hsome using hnew
  have hlt : ∀ {j k}, j < k → f j ≠ f k := by
    intro j k hjk heq
    obtain ⟨b, hb⟩ := Option.isSome_iff_exists.mp (hsome j)
    have hk := mono hjk hb
    rw [heq, hnone k] at hk
    cases hk
  have hinjective : Function.Injective f := by
    intro j k hjk
    rcases lt_trichotomy j k with h | h | h
    · exact absurd hjk (hlt h)
    · exact h
    · exact absurd hjk.symm (hlt h)
  have hsub : List.ofFn f ⊆ places := by
    intro a ha
    obtain ⟨k, rfl⟩ := List.mem_ofFn.mp ha
    exact hf k
  have hle := (List.subperm_of_subset (List.nodup_ofFn.mpr hinjective) hsub).length_le
  rw [List.length_ofFn] at hle
  omega

/-- Where each step asks for places of a list only, one step for each place is enough. -/
theorem eq_of_length_le (hmono : ∀ n a b, F n a = some b → F (n + 1) a = some b)
    (hlocal : ∀ n m, (∀ a ∈ places, F n a = F m a) → ∀ a ∈ places, F (n + 1) a = F (m + 1) a)
    {n m : Nat} (hn : places.length ≤ n) (hm : places.length ≤ m) {a : α} (ha : a ∈ places) :
    F n a = F m a := by
  obtain ⟨k, hk, hstays⟩ := exists_stationary places hmono
  have stationary : ∀ m, k ≤ m → ∀ a ∈ places, F m a = F k a := by
    intro m hm
    induction hm with
    | refl => exact fun _ _ => rfl
    | step _ ih => exact fun a ha => (hlocal _ k ih a ha).trans (hstays a ha)
  rw [stationary n (hk.trans hn) a ha, stationary m (hk.trans hm) a ha]

end

namespace Coercion

section

variable {ds : Definitions} {extras : Extras} {s t : Schema}

theorem plainNodes_length (ds : Definitions) (s : Schema) :
    (plainNodes ds s).length ≤ schemaNodes ds s := by
  have hweight : (plainNodes ds s).length ≤ ((plainNodes ds s).map Schema.weight).sum := by
    simpa using List.sum_le_sum (l := plainNodes ds s) (f := fun _ => 1) fun t _ => t.one_le_weight
  rw [schemaNodes, Schema.sizeAll_eq]
  exact hweight.trans (sum_plainNodes_le Schema.size_eq)

theorem firstMatch_congr {f g : Schema → Option (Coerced Typed)} {all : List Schema}
    {path : String} {raw : Json} {ms : List Schema} (h : ∀ m ∈ ms, f m = g m) :
    firstMatch f all path raw ms = firstMatch g all path raw ms := by
  induction ms with
  | nil => rfl
  | cons m ms ih =>
    rw [firstMatch, firstMatch, h m List.mem_cons_self,
      ih fun x hx => h x (List.mem_cons_of_mem m hx)]

theorem plainNodes_deref {u : Schema} {n : Nat} (ht : t ∈ plainNodes ds s)
    (hd : deref ds n t = .ok u) : u ∈ plainNodes ds s :=
  plainNodes_reaches ht (deref_reaches hd)

theorem plainNodes_members {ms : List Schema} {n : Nat} (ht : t ∈ plainNodes ds s)
    (hd : deref ds n t = .ok (.union ms)) {m : Schema} (hm : m ∈ ms) : m ∈ plainNodes ds s :=
  plainNodes_closed (plainNodes_deref ht hd) (.alternative hm)

theorem oneTextWithin_local {text path : String} (n m : Nat)
    (h : ∀ t ∈ plainNodes ds s,
      oneTextWithin ds extras n t text path = oneTextWithin ds extras m t text path)
    (ht : t ∈ plainNodes ds s) :
    oneTextWithin ds extras (n + 1) t text path = oneTextWithin ds extras (m + 1) t text path := by
  simp only [oneTextWithin, through]
  cases hd : deref ds maxHops t with
  | error complaint => rfl
  | ok u =>
    cases u with
    | union ms => exact firstMatch_congr fun m hm => h m (plainNodes_members ht hd hm)
    | _ => rfl

/-- Steps beyond the nodes of the schema change nothing for a text. -/
theorem oneTextWithin_eq {text path : String} {n m : Nat} (hn : schemaNodes ds s ≤ n)
    (hm : schemaNodes ds s ≤ m) (ht : t ∈ plainNodes ds s) :
    oneTextWithin ds extras n t text path = oneTextWithin ds extras m t text path := by
  refine eq_of_length_le (fun n t c hc => ?_) (fun n m h t => oneTextWithin_local n m h)
    ((plainNodes_length ds s).trans hn) ((plainNodes_length ds s).trans hm) ht
  obtain ⟨d, hd, hcd⟩ := oneTextWithin_follows (Nat.le_succ n) c hc
  rw [hd, hcd.eq trivial]

section

variable {delimiter : Option Char} {values : List String} {path : String}

theorem textWithin_local {steps : Nat} (n m : Nat)
    (h : ∀ t ∈ plainNodes ds s, textWithin ds extras delimiter steps n t values path =
      textWithin ds extras delimiter steps m t values path) (ht : t ∈ plainNodes ds s) :
    textWithin ds extras delimiter steps (n + 1) t values path =
      textWithin ds extras delimiter steps (m + 1) t values path := by
  simp only [textWithin, through]
  cases hd : deref ds maxHops t with
  | error complaint => rfl
  | ok u =>
    cases u with
    | union ms => exact firstMatch_congr fun m hm => h m (plainNodes_members ht hd hm)
    | _ => rfl

theorem texts_eq {e : Schema} {steps steps' : Nat} (hsteps : schemaNodes ds s ≤ steps)
    (hsteps' : schemaNodes ds s ≤ steps') (he : e ∈ plainNodes ds s) (i : Nat) (ss : List String) :
    texts ds extras e path steps i ss = texts ds extras e path steps' i ss := by
  rw [texts_eq_mapM, texts_eq_mapM]
  refine congrArg (List.mapM · _) (funext fun x => oneTextWithin_eq hsteps hsteps' he)

theorem textWithin_steps {steps steps' : Nat} (hsteps : schemaNodes ds s ≤ steps)
    (hsteps' : schemaNodes ds s ≤ steps') (n : Nat) (ht : t ∈ plainNodes ds s) :
    textWithin ds extras delimiter steps n t values path =
      textWithin ds extras delimiter steps' n t values path := by
  induction n generalizing t with
  | zero => rfl
  | succ n ih =>
    simp only [textWithin, through]
    cases hd : deref ds maxHops t with
    | error complaint => rfl
    | ok u =>
      have hu := plainNodes_deref ht hd
      cases u with
      | union ms => exact firstMatch_congr fun m hm => ih (plainNodes_members ht hd hm)
      | array e => simp only [texts_eq hsteps hsteps' (plainNodes_closed hu (.element e))]
      | _ =>
        cases values with
        | nil => rfl
        | cons first rest => exact oneTextWithin_eq hsteps hsteps' hu

theorem textWithin_eq {steps n m : Nat} (hn : schemaNodes ds s ≤ n) (hm : schemaNodes ds s ≤ m)
    (ht : t ∈ plainNodes ds s) :
    textWithin ds extras delimiter steps n t values path =
      textWithin ds extras delimiter steps m t values path := by
  have hmono : ∀ n t c, textWithin ds extras delimiter steps n t values path = some c →
      textWithin ds extras delimiter steps (n + 1) t values path = some c := by
    intro n t c hc
    obtain ⟨d, hd, hcd⟩ := textWithin_follows (Nat.le_refl steps) (Nat.le_succ n) c hc
    rw [hd, hcd.eq trivial]
  exact eq_of_length_le (F := fun n t => textWithin ds extras delimiter steps n t values path)
    hmono (fun n m h t => textWithin_local n m h) ((plainNodes_length ds s).trans hn)
    ((plainNodes_length ds s).trans hm) ht

/-- What ends within any number of steps ends within the budget. -/
theorem text_of_within {steps n : Nat} {c : Coerced Typed}
    (h : textWithin ds extras delimiter steps n s values path = some c) :
    text ds extras delimiter s values path = some c := by
  have hs : s ∈ plainNodes ds s := List.mem_append_left _ (Schema.tree.mem_nodes_self s)
  have hbudget : schemaNodes ds s ≤ schemaNodes ds s + 1 := Nat.le_succ _
  obtain ⟨d, hd, hcd⟩ := textWithin_follows (Nat.le_max_left steps (schemaNodes ds s))
    (Nat.le_max_left n (schemaNodes ds s)) c h
  rw [textWithin_steps (Nat.le_max_right _ _) hbudget _ hs,
    textWithin_eq (Nat.le_max_right _ _) hbudget hs, ← hcd.eq trivial] at hd
  exact hd

theorem gives_json_iff {v : Json} {c : Coerced Typed} :
    Gives ds extras ⟨s, .json v, path⟩ c ↔ json ds extras s v path = some c :=
  ⟨fun ⟨_, h⟩ => json_of_within h, fun h => ⟨_, h⟩⟩

theorem gives_texts_iff {c : Coerced Typed} :
    Gives ds extras ⟨s, .texts delimiter values, path⟩ c ↔
      text ds extras delimiter s values path = some c :=
  ⟨fun ⟨_, _, h⟩ => text_of_within h, fun h => ⟨_, _, h⟩⟩

end

end
end Coercion
end RouteContract

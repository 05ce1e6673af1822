import Mathlib.Data.List.Count
import RouteContract.Entries
import RouteContract.Proofs.Lists

/-!
# Keys of tables

What a table holds under a key is there as a pair, and a table whose keys do not
repeat holds one value for each. Another table can be laid out along its keys.
-/

set_option autoImplicit false

namespace RouteContract.Entries

variable {κ α : Type} [DecidableEq κ]

theorem mem_insert {t : Entries κ α} {key k : κ} {a b : α}
    (h : (k, b) ∈ t.insert key a) : (k, b) ∈ t ∨ (k = key ∧ b = a) := by
  induction t with
  | nil => simpa [insert] using h
  | cons x rest ih =>
    obtain ⟨k', a'⟩ := x
    by_cases hk : k' = key
    · simp only [insert, hk, if_true, List.mem_cons, Prod.mk.injEq] at h
      rcases h with h | h
      · exact .inr h
      · exact .inl (by simp [h])
    · simp only [insert, hk, if_false, List.mem_cons] at h
      rcases h with h | h
      · exact .inl (by simp [h])
      · exact (ih h).imp (fun h => by simp [h]) id

theorem mem_of_find? {t : Entries κ α} {key : κ} {a : α}
    (h : t.find? key = some a) : (key, a) ∈ t := by
  induction t with
  | nil => simp at h
  | cons x rest ih =>
    obtain ⟨k, b⟩ := x
    by_cases hk : k = key
    · simp only [find?, hk, if_true, Option.some.injEq] at h
      simp [hk, h]
    · simp only [find?, hk, if_false] at h
      simp [ih h]

theorem find?_append (t u : Entries κ α) (key : κ) :
    find? (t ++ u) key = (t.find? key).or (find? u key) := by
  induction t with
  | nil => rfl
  | cons x rest ih =>
    obtain ⟨k, a⟩ := x
    by_cases hk : k = key
    · simp [find?, hk]
    · simp [find?, hk, ih]

theorem find?_eq_none_iff {t : Entries κ α} {key : κ} : t.find? key = none ↔ key ∉ t.keys := by
  induction t with
  | nil => simp [keys]
  | cons x rest ih =>
    obtain ⟨k, a⟩ := x
    by_cases hk : k = key
    · simp [find?, keys, hk]
    · simpa [find?, keys, hk, Ne.symm hk] using ih

theorem find?_isSome_iff {t : Entries κ α} {key : κ} : (t.find? key).isSome ↔ key ∈ t.keys := by
  rw [Option.isSome_iff_ne_none, ne_eq, find?_eq_none_iff, not_not]

omit [DecidableEq κ] in
theorem mem_keys {t : Entries κ α} {key : κ} : key ∈ t.keys ↔ ∃ a, (key, a) ∈ t := by
  simp [keys]

omit [DecidableEq κ] in
theorem eq_of_nodup {t : Entries κ α} (h : t.keys.Nodup) {key : κ} {a b : α} (ha : (key, a) ∈ t)
    (hb : (key, b) ∈ t) : a = b := by
  induction t with
  | nil => cases ha
  | cons x rest ih =>
    obtain ⟨k, c⟩ := x
    have hkeys : k ∉ Entries.keys rest ∧ (Entries.keys rest).Nodup := List.nodup_cons.mp h
    rcases List.mem_cons.mp ha with ha' | ha'
    · cases ha'
      rcases List.mem_cons.mp hb with hb' | hb'
      · cases hb'; rfl
      · exact absurd (mem_keys.mpr ⟨b, hb'⟩) hkeys.1
    · rcases List.mem_cons.mp hb with hb' | hb'
      · cases hb'
        exact absurd (mem_keys.mpr ⟨a, ha'⟩) hkeys.1
      · exact ih hkeys.2 ha' hb'

theorem find?_of_mem {t : Entries κ α} (h : t.keys.Nodup) {key : κ} {a : α} (ha : (key, a) ∈ t) :
    t.find? key = some a := by
  obtain ⟨b, hb⟩ := Option.isSome_iff_exists.mp (find?_isSome_iff.mpr (mem_keys.mpr ⟨a, ha⟩))
  rw [hb, eq_of_nodup h (mem_of_find? hb) ha]

theorem insert_append {t : Entries κ α} {key : κ} (h : key ∉ t.keys) (u : Entries κ α) (a : α) :
    insert (t ++ u) key a = t ++ insert u key a := by
  induction t with
  | nil => rfl
  | cons x rest ih =>
    obtain ⟨k, b⟩ := x
    have hkeys : ¬ (key = k ∨ key ∈ Entries.keys rest) := by simpa [keys] using h
    obtain ⟨hk, hrest⟩ := not_or.mp hkeys
    simp [insert, Ne.symm hk, ih hrest]

theorem insert_of_not_mem {t : Entries κ α} {key : κ} (h : key ∉ t.keys) (a : α) :
    t.insert key a = t ++ [(key, a)] := by
  simpa [insert] using insert_append h [] a

theorem nodup_insert {t : Entries κ α} (h : t.keys.Nodup) (key : κ) (a : α) :
    (t.insert key a).keys.Nodup := by
  rw [keys_insert]
  split
  · exact h
  · rename_i hn
    refine List.nodup_append.mpr ⟨h, by simp, ?_⟩
    intro k hk k' hk'
    rw [List.mem_singleton.mp hk']
    rintro rfl
    exact hn hk

/-- What is written last under a key counts, and before it what was there. -/
theorem find?_foldl_insert (us t : Entries κ α) (key : κ) :
    (us.foldl (fun table x => table.insert x.1 x.2) t).find? key =
      (find? us.reverse key).or (t.find? key) := by
  induction us generalizing t with
  | nil => rfl
  | cons x us ih =>
    obtain ⟨k, a⟩ := x
    rw [List.foldl_cons, ih, List.reverse_cons, find?_append, find?_insert, Option.or_assoc]
    congr 1
    by_cases hk : k = key
    · simp [find?, hk]
    · simp [find?, hk]

theorem find?_ofList (pairs : List (κ × α)) (key : κ) :
    (ofList pairs).find? key = find? pairs.reverse key := by
  rw [ofList, find?_foldl_insert, find?_nil, Option.or_none]

theorem find?_reverse {t : Entries κ α} (h : t.keys.Nodup) (key : κ) :
    find? t.reverse key = t.find? key := by
  induction t with
  | nil => rfl
  | cons x rest ih =>
    obtain ⟨k, a⟩ := x
    obtain ⟨hk, hrest⟩ : k ∉ Entries.keys rest ∧ (Entries.keys rest).Nodup := List.nodup_cons.mp h
    rw [List.reverse_cons, find?_append, ih hrest]
    by_cases hkey : k = key
    · subst hkey
      simp [find?, find?_eq_none_iff.mpr hk]
    · simp [find?, hkey]

theorem find?_eq_some_iff_append {t : Entries κ α} {key : κ} {a : α} :
    t.find? key = some a ↔ ∃ before after, t = before ++ (key, a) :: after ∧ key ∉ keys before := by
  constructor
  · intro h
    induction t with
    | nil => simp at h
    | cons x rest ih =>
      obtain ⟨k, b⟩ := x
      by_cases hk : k = key
      · subst hk
        cases h.symm.trans (if_pos rfl)
        exact ⟨[], rest, rfl, List.not_mem_nil⟩
      · have hrest : find? rest key = some a := by simpa [find?, hk] using h
        obtain ⟨before, after, rfl, hkey⟩ := ih hrest
        refine ⟨(k, b) :: before, after, rfl, ?_⟩
        simpa [keys, Ne.symm hk] using hkey
  · rintro ⟨before, after, rfl, hkey⟩
    simp [find?_append, find?_eq_none_iff.mpr hkey, find?]

theorem find?_erase_ne {t : Entries κ α} {key key' : κ} (h : key ≠ key') :
    (t.erase key).find? key' = t.find? key' := by
  induction t with
  | nil => rfl
  | cons x rest ih =>
    obtain ⟨k, a⟩ := x
    by_cases hk : k = key
    · have hk' : k ≠ key' := hk ▸ h
      simp [erase, find?, hk, h]
    · by_cases hk' : k = key'
      · subst hk'
        simp [erase, find?, hk]
      · simp [erase, find?, hk, hk', ih]

theorem count_erase_le (t : Entries κ α) (key key' : κ) :
    (t.erase key).keys.count key' ≤ t.keys.count key' := by
  induction t with
  | nil => exact Nat.le_refl _
  | cons x rest ih =>
    obtain ⟨k, a⟩ := x
    by_cases hk : k = key
    · simp only [erase, hk, if_true]
      exact List.Sublist.count_le key' (List.sublist_cons_self _ _)
    · simp only [erase, hk, if_false, keys, List.map_cons, List.count_cons]
      exact Nat.add_le_add_right ih _

theorem find?_erase_self {t : Entries κ α} {key : κ} (h : t.keys.count key ≤ 1) :
    (t.erase key).find? key = none := by
  induction t with
  | nil => rfl
  | cons x rest ih =>
    obtain ⟨k, a⟩ := x
    by_cases hk : k = key
    · have hcount : (Entries.keys rest).count key = 0 := by
        simp [keys, hk] at h
        simpa [keys] using h
      simp only [erase, hk, if_true]
      exact find?_eq_none_iff.mpr (List.count_eq_zero.mp hcount)
    · have hcount : (Entries.keys rest).count key ≤ 1 := by
        simpa [keys, List.count_cons, hk] using h
      simpa [erase, find?, hk] using ih hcount

section

variable {β : Type} (f : α → β)

omit [DecidableEq κ] in
def mapValues (t : Entries κ α) : Entries κ β := t.map fun x => (x.1, f x.2)

theorem find?_mapValues (t : Entries κ α) (key : κ) :
    (t.mapValues f).find? key = (t.find? key).map f := by
  induction t with
  | nil => rfl
  | cons x rest ih =>
    obtain ⟨k, a⟩ := x
    by_cases hk : k = key
    · simp [mapValues, find?, hk]
    · simpa [mapValues, find?, hk] using ih

theorem mapValues_insert (t : Entries κ α) (key : κ) (a : α) :
    (t.insert key a).mapValues f = (t.mapValues f).insert key (f a) := by
  induction t with
  | nil => rfl
  | cons x rest ih =>
    obtain ⟨k, b⟩ := x
    by_cases hk : k = key
    · simp [mapValues, insert, hk]
    · simpa [mapValues, insert, hk] using ih

end

section

variable {β : Type} {t : Entries κ α}

/-- Where each key has at most one entry of its own, looking it up finds that entry. -/
theorem find?_of_named (hnodup : t.keys.Nodup) {es : List (Option (κ × β))}
    (h : List.Forall₂ (fun x e => ∀ y ∈ e, y.1 = x.1) t es) :
    List.Forall₂ (fun x e => find? (es.filterMap id) x.1 = e.map Prod.snd) t es := by
  induction h with
  | nil => exact .nil
  | @cons x e t es hxe hrest ih =>
    obtain ⟨hx, ht⟩ : x.1 ∉ Entries.keys t ∧ (Entries.keys t).Nodup := List.nodup_cons.mp hnodup
    cases e with
    | none =>
      have hnone : find? (es.filterMap id) x.1 = none := by
        refine find?_eq_none_iff.mpr fun hmem => hx ?_
        obtain ⟨b, hb⟩ := mem_keys.mp hmem
        obtain ⟨e, he, rfl⟩ := List.mem_filterMap.mp hb
        obtain ⟨y, hy, hname⟩ := mem_of_forall₂_right hrest he
        exact List.mem_map.mpr ⟨y, hy, (hname _ rfl).symm⟩
      exact .cons hnone (ih ht)
    | some y =>
      have hy : y.1 = x.1 := hxe y rfl
      refine .cons (by simp [find?, hy]) (forall₂_imp_left (ih ht) fun z hz e he => ?_)
      have hne : x.1 ≠ z.1 := fun heq => hx (heq ▸ List.mem_map_of_mem hz)
      simpa [find?, hy, hne] using he

theorem contains_of_mem {x : κ × α} (h : x ∈ t) : t.contains x.1 = true :=
  find?_isSome_iff.mpr (List.mem_map_of_mem h)

/-- Looking up a key of a table passes over entries with other keys. -/
theorem find?_append_of_outside {us : Entries κ β}
    (hus : ∀ y ∈ us, t.contains y.1 = false) (us' : Entries κ β) {x : κ × α} (hx : x ∈ t) :
    find? (us' ++ us) x.1 = find? us' x.1 := by
  have hnone : find? us x.1 = none := by
    refine find?_eq_none_iff.mpr fun hmem => ?_
    obtain ⟨b, hb⟩ := mem_keys.mp hmem
    exact Bool.false_ne_true ((hus _ hb).symm.trans (contains_of_mem hx))
  rw [find?_append, hnone, Option.or_none]

theorem filter_outside {γ : Type} {us us' : Entries κ β}
    (hus : ∀ y ∈ us, t.contains y.1 = false) (hus' : ∀ y ∈ us', t.contains y.1 = true)
    (f : β → γ) :
    (mapValues f (us' ++ us)).filter (fun x => !t.contains x.1) = mapValues f us := by
  have hin : us'.filter ((fun x => !t.contains x.1) ∘ fun y => (y.1, f y.2)) = [] :=
    List.filter_eq_nil_iff.mpr fun y hy => by simp [hus' y hy]
  have hout : us.filter ((fun x => !t.contains x.1) ∘ fun y => (y.1, f y.2)) = us :=
    List.filter_eq_self.mpr fun y hy => by simp [hus y hy]
  rw [mapValues, List.filter_map, List.filter_append, hin, hout, List.nil_append, mapValues]

end

end RouteContract.Entries

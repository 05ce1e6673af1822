import RouteContract.Proofs.Entries
import RouteContract.Proofs.Lists
import RouteContract.Registry

/-!
# Growth of the registry

A registry changes by claiming a free name and by defining a claimed one. Over a
whole run entries are only added, and each added one has its definition in the
end. Freezing takes the entries one by one and adds nothing to them.
-/

set_option autoImplicit false

namespace RouteContract.Registry

def claim (r : Registry) (name : String) (owner : Instance) : Registry :=
  ⟨r.entries ++ [(name, ⟨owner, .pending⟩)]⟩

theorem reserve_eq_fresh {r r' : Registry} {name : String} {owner : Instance} :
    r.reserve name owner = .ok (.fresh r') ↔
      r.entries.find? name = none ∧ r' = r.claim name owner := by
  unfold reserve claim
  cases r.entries.find? name with
  | none => simp [eq_comm]
  | some e => by_cases h : e.owner.same owner <;> simp [h]

theorem reserve_eq_existing {r : Registry} {name : String} {owner : Instance} :
    r.reserve name owner = .ok .existing ↔
      ∃ e, r.entries.find? name = some e ∧ e.owner.same owner := by
  unfold reserve
  cases r.entries.find? name with
  | none => simp
  | some e => by_cases h : e.owner.same owner <;> simp [h]

theorem reserve_eq_error {r : Registry} {name : String} {owner : Instance} {f : Fault}
    (h : r.reserve name owner = .error f) :
    ∃ e, r.entries.find? name = some e ∧ e.owner.same owner = false := by
  unfold reserve at h
  cases he : r.entries.find? name with
  | none => simp [he] at h
  | some e => by_cases hs : e.owner.same owner <;> simp_all

theorem claim_find? {r : Registry} {name : String} (h : r.entries.find? name = none)
    (owner : Instance) (key : String) : (r.claim name owner).entries.find? key =
      if name = key then some ⟨owner, .pending⟩ else r.entries.find? key := by
  unfold claim
  rw [Entries.find?_append]
  by_cases hk : name = key
  · subst hk
    simp [h, Entries.find?]
  · simp [Entries.find?, hk]

theorem define_find? {r : Registry} {name : String} {owner : Instance}
    (h : r.entries.find? name = some ⟨owner, .pending⟩) (schema : Schema)
    (description : Option String) (key : String) :
    (r.define name schema description).entries.find? key =
      if name = key then some ⟨owner, .defined schema description⟩ else r.entries.find? key := by
  unfold define
  rw [h]
  exact Entries.find?_insert _ _ _ _

theorem contains_iff {r : Registry} {name : String} :
    r.contains name ↔ ∃ e, r.entries.find? name = some e := Option.isSome_iff_exists

structure Grows (r r' : Registry) : Prop where
  keep : ∀ {name : String} {e : RegistryEntry}, r.entries.find? name = some e →
    r'.entries.find? name = some e
  new : ∀ {name : String} {e : RegistryEntry}, r'.entries.find? name = some e →
    r.entries.find? name = some e ∨ e.slot ≠ .pending

/-- Every entry is one of the other registry, where it may be further. -/
def Below (r r' : Registry) : Prop := ∀ {name : String} {owner : Instance} {slot : Slot},
  r.entries.find? name = some ⟨owner, slot⟩ →
    ∃ slot', r'.entries.find? name = some ⟨owner, slot'⟩ ∧ (slot = .pending ∨ slot' = slot)

section

variable {r r' r'' : Registry} {name : String} {owner : Instance} {schema : Schema}
  {description : Option String}

theorem Grows.refl (r : Registry) : r.Grows r := ⟨id, .inl⟩

theorem Grows.trans (h : r.Grows r') (h' : r'.Grows r'') : r.Grows r'' where
  keep hr := h'.keep (h.keep hr)
  new hr := (h'.new hr).elim h.new .inr

theorem Grows.contains (h : r.Grows r') (hr : r.contains name) : r'.contains name := by
  obtain ⟨e, he⟩ := contains_iff.mp hr
  exact contains_iff.mpr ⟨e, h.keep he⟩

theorem Grows.below (h : r.Grows r') : r.Below r' := fun hr => ⟨_, h.keep hr, .inr rfl⟩

theorem Below.refl (r : Registry) : r.Below r := (Grows.refl r).below

theorem Below.trans (h : r.Below r') (h' : r'.Below r'') : r.Below r'' := by
  intro name owner slot hr
  obtain ⟨slot', hr', hs⟩ := h hr
  obtain ⟨slot'', hr'', hs'⟩ := h' hr'
  refine ⟨slot'', hr'', ?_⟩
  rcases hs with hs | rfl
  · exact .inl hs
  · exact hs'

theorem claim_below (hfree : r.entries.find? name = none) : r.Below (r.claim name owner) := by
  intro key owner' slot hr
  refine ⟨slot, ?_, .inr rfl⟩
  rw [claim_find? hfree, if_neg, hr]
  rintro rfl
  rw [hfree] at hr
  cases hr

theorem define_below (h : r.entries.find? name = some ⟨owner, .pending⟩) :
    r.Below (r.define name schema description) := by
  intro key owner' slot hr
  rw [define_find? h]
  by_cases hk : name = key
  · subst hk
    rw [h] at hr
    cases hr
    exact ⟨_, if_pos rfl, .inl rfl⟩
  · exact ⟨slot, by rw [if_neg hk, hr], .inr rfl⟩

/-- What is claimed is in the other registry, which has the name for the same owner. -/
theorem Below.claim (h : r.Below r') (hfree : r.entries.find? name = none) {slot : Slot}
    (hr' : r'.entries.find? name = some ⟨owner, slot⟩) : (r.claim name owner).Below r' := by
  intro key owner' slot' hr
  rw [claim_find? hfree] at hr
  split at hr
  · rename_i hname
    subst hname
    cases hr
    exact ⟨slot, hr', .inl rfl⟩
  · exact h hr

theorem Below.define (h : r.Below r') (hpending : r.entries.find? name = some ⟨owner, .pending⟩)
    (hr' : r'.entries.find? name = some ⟨owner, .defined schema description⟩) :
    (r.define name schema description).Below r' := by
  intro key owner' slot hr
  rw [define_find? hpending] at hr
  split at hr
  · rename_i hname
    subst hname
    cases hr
    exact ⟨_, hr', .inr rfl⟩
  · exact h hr

theorem define_contains (h : r.entries.find? name = some ⟨owner, .pending⟩) {key : String} :
    (r.define name schema description).contains key ↔ r.contains key := by
  unfold Registry.contains Entries.contains
  rw [define_find? h]
  by_cases hk : name = key
  · subst hk
    simp [h]
  · simp [hk]

/-- What is claimed, built upon and then defined makes the registry grow. -/
theorem grows_define (hfree : r.entries.find? name = none)
    (h : (r.claim name owner).Grows r') : r.Grows (r'.define name schema description) := by
  have hpending : r'.entries.find? name = some ⟨owner, .pending⟩ :=
    h.keep (by rw [claim_find? hfree, if_pos rfl])
  constructor
  · intro key e hr
    have hne : name ≠ key := by
      rintro rfl
      rw [hfree] at hr
      cases hr
    rw [define_find? hpending, if_neg hne]
    exact h.keep (by rw [claim_find? hfree, if_neg hne, hr])
  · intro key e hr
    rw [define_find? hpending] at hr
    split at hr
    · cases hr
      exact .inr nofun
    · rename_i hne
      rcases h.new hr with hr | hr
      · rw [claim_find? hfree, if_neg hne] at hr
        exact .inl hr
      · exact .inr hr

end

def Settled (r : Registry) : Prop :=
  ∀ {name : String} {e : RegistryEntry}, r.entries.find? name = some e → e.slot ≠ .pending

structure Sound (r : Registry) : Prop where
  nodup : r.entries.keys.Nodup
  closed : ∀ {name : String} {owner : Instance} {schema : Schema} {description : Option String},
    r.entries.find? name = some ⟨owner, .defined schema description⟩ →
    ∀ key ∈ schema.references, r.contains key

theorem sound_empty : Sound .empty := ⟨List.nodup_nil, nofun⟩

section

variable {r : Registry} {name : String} {owner : Instance} {schema : Schema}
  {description : Option String}

theorem Sound.claim (h : r.Sound) (hfree : r.entries.find? name = none) :
    (r.claim name owner).Sound := by
  constructor
  · show (Entries.keys (r.entries ++ [(name, ⟨owner, .pending⟩)])).Nodup
    unfold Entries.keys
    rw [List.map_append, List.nodup_append]
    refine ⟨h.nodup, by simp, ?_⟩
    intro key hkey _ hname
    rw [List.mem_singleton.mp hname]
    rintro rfl
    exact Entries.find?_eq_none_iff.mp hfree hkey
  · intro key owner' schema description hr name' hname'
    rw [claim_find? hfree] at hr
    split at hr
    · cases hr
    · obtain ⟨e, he⟩ := contains_iff.mp (h.closed hr name' hname')
      have hbelow : r.Below (r.claim name owner) := claim_below hfree
      obtain ⟨slot, hslot, -⟩ := hbelow he
      exact contains_iff.mpr ⟨_, hslot⟩

theorem Sound.define (h : r.Sound) (hpending : r.entries.find? name = some ⟨owner, .pending⟩)
    (hschema : ∀ key ∈ schema.references, r.contains key) :
    (r.define name schema description).Sound := by
  constructor
  · unfold Registry.define
    rw [hpending]
    exact Entries.nodup_insert h.nodup _ _
  · intro key owner' schema' description' hr name' hname'
    rw [define_contains hpending]
    rw [define_find? hpending] at hr
    split at hr
    · cases hr
      exact hschema name' hname'
    · exact h.closed hr name' hname'

end

theorem check_eq_ok_iff {r : Registry} {s : Schema} :
    r.check s = .ok () ↔ ∀ name ∈ s.references, r.contains name := by
  have hmissing : r.missing? s.references = none ↔ ∀ name ∈ s.references, r.contains name := by
    rw [missing?, List.find?_eq_none]
    simp
  unfold check
  cases h : r.missing? s.references with
  | none => simpa using hmissing.mp h
  | some name => simpa [h] using hmissing

structure Freezes (r : Registry) (x : String × RegistryEntry) (d : String × Definition) : Prop where
  name : d.1 = x.1
  slot : x.2.slot = .defined d.2.schema d.2.description
  origin : d.2.origin = x.2.owner.text
  closed : ∀ name ∈ d.2.schema.references, r.contains name

theorem freezeEntries_eq_ok_iff {r : Registry} {entries : Entries String RegistryEntry}
    {ds : Definitions} :
    r.freezeEntries entries = .ok ds ↔ List.Forall₂ r.Freezes entries ds := by
  induction entries generalizing ds with
  | nil =>
    rw [freezeEntries, List.forall₂_nil_left_iff]
    simp [eq_comm]
  | cons x rest ih =>
    rw [List.forall₂_cons_left_iff]
    obtain ⟨name, owner, slot⟩ := x
    cases slot with
    | pending =>
      constructor
      · exact nofun
      · rintro ⟨d, ds', hd, -, -⟩
        cases hd.slot
    | defined schema description =>
      constructor
      · intro h
        simp only [freezeEntries, bind, Except.bind, pure, Except.pure] at h
        split at h
        · cases h
        · rename_i hcheck
          split at h
          · cases h
          · rename_i ds' hrest
            cases h
            exact ⟨_, ds', ⟨rfl, rfl, rfl, check_eq_ok_iff.mp hcheck⟩, ih.mp hrest, rfl⟩
      · rintro ⟨⟨key, d⟩, ds', ⟨hname, hslot, horigin, hclosed⟩, hrest, rfl⟩
        obtain ⟨schema', description', origin⟩ := d
        cases hname
        cases hslot
        obtain rfl : origin = owner.text := horigin
        simp only [freezeEntries, check_eq_ok_iff.mpr hclosed, ih.mpr hrest, bind, Except.bind,
          pure, Except.pure]

def Ready (r : Registry) (e : RegistryEntry) : Prop := ∃ schema description,
  e.slot = .defined schema description ∧ ∀ name ∈ schema.references, r.contains name

theorem exists_freezeEntries_iff {r : Registry} {entries : Entries String RegistryEntry} :
    (∃ ds, r.freezeEntries entries = .ok ds) ↔ ∀ x ∈ entries, r.Ready x.2 := by
  simp only [freezeEntries_eq_ok_iff]
  constructor
  · rintro ⟨ds, hds⟩ x hx
    obtain ⟨d, -, hd⟩ := mem_of_forall₂_left hds hx
    exact ⟨_, _, hd.slot, hd.closed⟩
  · intro h
    induction entries with
    | nil => exact ⟨[], .nil⟩
    | cons x rest ih =>
      obtain ⟨schema, description, hslot, hclosed⟩ := h x List.mem_cons_self
      obtain ⟨ds, hds⟩ := ih fun y hy => h y (List.mem_cons_of_mem _ hy)
      exact ⟨(x.1, ⟨schema, description, x.2.owner.text⟩) :: ds,
        .cons ⟨rfl, hslot, rfl, hclosed⟩ hds⟩

namespace Building

variable {σ ε α β : Type}

def outcome (m : Building σ ε α) (st : Registry × σ) : Except ε α × Registry × σ := m.run.run st

/-- A sequence runs its second part where the first one gave a result. -/
theorem outcome_bind (m : Building σ ε α) (f : α → Building σ ε β) (st : Registry × σ) :
    outcome (m >>= f) st = match outcome m st with
      | (.ok a, st') => outcome (f a) st'
      | (.error e, st') => (.error e, st') := by
  show ExceptT.bindCont f (outcome m st).1 (outcome m st).2 = _
  rcases outcome m st with ⟨_ | a, st'⟩
  · rfl
  · rfl

/-- A free name is claimed before its schema is built, and defined afterwards. -/
theorem outcome_getOrCreate (fault : Fault → ε) (name : String) (owner : Instance)
    (build : Building σ ε (Schema × Option String)) (st : Registry × σ) :
    outcome (getOrCreate fault name owner build) st = match st.1.reserve name owner with
      | .error f => (.error (fault f), st)
      | .ok .existing => (.ok (.reference name), st)
      | .ok (.fresh r) => match outcome build (r, st.2) with
        | (.error e, st') => (.error e, st')
        | (.ok (schema, description), st') =>
          (.ok (.reference name), (st'.1.define name schema description, st'.2)) := by
  have hget : outcome (get : Building σ ε (Registry × σ)) st = (.ok st, st) := rfl
  unfold getOrCreate
  rw [outcome_bind, hget]
  cases hr : st.1.reserve name owner with
  | error f => simp only [hr]; rfl
  | ok reservation =>
    cases reservation with
    | existing => simp only [hr]; rfl
    | fresh r =>
      have hset : outcome (set (r, st.2) : Building σ ε PUnit) st = (.ok ⟨⟩, (r, st.2)) := rfl
      simp only [hr]
      rw [outcome_bind, hset]
      simp only [outcome_bind build]
      rcases outcome build (r, st.2) with ⟨_ | ⟨schema, description⟩, st'⟩
      · rfl
      · rfl

end Building

end RouteContract.Registry

import RouteContract.Proofs.Coercion.Adequacy

/-!
# Texts that are read as JSON

Coercion of texts nests only through unions and one level of arrays, and reads a
text as JSON where the schema has structure. Texts are coerced without end
exactly when one of the values read from them is.
-/

set_option autoImplicit false

namespace RouteContract.Coercion

section

variable (ds : Definitions) (extras : Extras)

def TextFails (text path : String) (s : Schema) : Prop :=
  ∃ n c, oneTextWithin ds extras n s text path = some c ∧ c.isClean = false

def TextsFail (delimiter : Option Char) (values : List String) (path : String) (s : Schema) :
    Prop :=
  ∃ steps n c, textWithin ds extras delimiter steps n s values path = some c ∧ c.isClean = false

inductive Reads (text path : String) : Schema → Attempt → Prop
  | json {s t : Schema} {v : Json} (hd : deref ds maxHops s = .ok t) (ht : t.isStructured)
      (hv : Json.parse? text = some v) : Reads text path s ⟨t, v⟩
  | alternative {s m : Schema} {before after : List Schema} {a : Attempt}
      (hd : deref ds maxHops s = .ok (.union (before ++ m :: after)))
      (hb : ∀ x ∈ before, TextFails ds extras text path x) (h : Reads text path m a) :
      Reads text path s a

inductive Takes (delimiter : Option Char) (values : List String) (path : String) :
    Schema → Attempt → Prop
  | item {s e : Schema} {text : String} {i : Nat} {a : Attempt}
      (hd : deref ds maxHops s = .ok (.array e))
      (hx : (text, i) ∈ (values.flatMap (split delimiter)).zipIdx)
      (h : Reads ds extras text (index path i) e a) : Takes delimiter values path s a
  | alternative {s m : Schema} {before after : List Schema} {a : Attempt}
      (hd : deref ds maxHops s = .ok (.union (before ++ m :: after)))
      (hb : ∀ x ∈ before, TextsFail ds extras delimiter values path x)
      (h : Takes delimiter values path m a) : Takes delimiter values path s a
  | first {s t : Schema} {text : String} {rest : List String} {a : Attempt}
      (hd : deref ds maxHops s = .ok t) (harray : ∀ e, t ≠ .array e)
      (hunion : ∀ members, t ≠ .union members) (hvalues : values = text :: rest)
      (h : Reads ds extras text path t a) : Takes delimiter values path s a

end

section

variable {ds : Definitions} {extras : Extras} {delimiter : Option Char} {text path : String}
  {values : List String} {s : Schema}

theorem oneTextWithin_follows {n m : Nat} (hnm : n ≤ m) :
    Follows True (oneTextWithin ds extras n s text path) (oneTextWithin ds extras m s text path) := by
  induction n generalizing m s with
  | zero => intro c hc; cases hc
  | succ n ih =>
    obtain ⟨m, rfl⟩ : ∃ k, m = k + 1 := ⟨m - 1, by omega⟩
    simp only [oneTextWithin, through]
    cases deref ds maxHops s with
    | error complaint => exact .of_alike (.refl _)
    | ok t =>
      cases t with
      | union members =>
        exact (Follows.firstMatch members path path _ fun x _ => ih (by omega)).weaken fun _ => rfl
      | _ => exact fun c hc => ⟨c, hc, .refl c⟩

theorem oneTextWithin_alike {n m : Nat} {c d : Coerced Typed}
    (hc : oneTextWithin ds extras n s text path = some c)
    (hd : oneTextWithin ds extras m s text path = some d) : c = d := by
  obtain ⟨e, he, hce⟩ := oneTextWithin_follows (Nat.le_max_left n m) c hc
  obtain ⟨f, hf, hdf⟩ := oneTextWithin_follows (Nat.le_max_right n m) d hd
  rw [he] at hf
  cases hf
  exact (hce.eq trivial).trans (hdf.eq trivial).symm

theorem textFails_iff {n : Nat} {c : Coerced Typed}
    (hc : oneTextWithin ds extras n s text path = some c) :
    TextFails ds extras text path s ↔ c.isClean = false := by
  constructor
  · rintro ⟨m, d, hd, hu⟩
    exact oneTextWithin_alike hc hd ▸ hu
  · exact fun hu => ⟨n, c, hc, hu⟩

theorem read_eq_none (hg : ds.Grounded) {t : Schema} (path : String) :
    (match Json.parse? text with
      | some v => json ds extras t v path
      | none => some (Coerced.refuse path (.invalid (describe t)) (.string text))) = none ↔
      ∃ v, Json.parse? text = some v ∧ NeedsItself ds extras ⟨t, v⟩ := by
  cases Json.parse? text with
  | none => simp
  | some v => simpa using json_eq_none_iff hg

/-- What is read from a text without end is read within every number of steps. -/
theorem Reads.endless (hg : ds.Grounded) {a : Attempt} (h : Reads ds extras text path s a)
    (ha : NeedsItself ds extras a) (n : Nat) : oneTextWithin ds extras n s text path = none := by
  induction h generalizing n with
  | @json s t v hd ht hv =>
    cases n with
    | zero => rfl
    | succ n =>
      have hnone := (read_eq_none hg path).mpr ⟨v, hv, ha⟩
      simp only [oneTextWithin, through, hd]
      cases t with
      | array e => exact hnone
      | object o => exact hnone
      | intersection members => exact hnone
      | _ => cases ht
  | @alternative s m before after a hd hb _ ih =>
    cases n with
    | zero => rfl
    | succ n =>
      simp only [oneTextWithin, through, hd]
      rw [← Option.not_isSome_iff_eq_none, firstMatch_isSome_iff_of_fails fun x c => textFails_iff]
      intro hall
      have hm := hall before m after rfl hb
      rw [ih ha n] at hm
      cases hm

theorem oneTextWithin_eq_none_iff (hg : ds.Grounded) {n : Nat} (hn : nesting s < n) :
    oneTextWithin ds extras n s text path = none ↔
      ∃ a, Reads ds extras text path s a ∧ NeedsItself ds extras a := by
  constructor
  · intro h
    induction n generalizing s with
    | zero => cases hn
    | succ n ih =>
      simp only [oneTextWithin, through] at h
      cases hd : deref ds maxHops s with
      | error complaint => simp [hd] at h
      | ok t =>
        simp only [hd] at h
        have structured : t.isStructured →
            (∃ v, Json.parse? text = some v ∧ NeedsItself ds extras ⟨t, v⟩) →
              ∃ a, Reads ds extras text path s a ∧ NeedsItself ds extras a := by
          rintro ht ⟨v, hv, ha⟩
          exact ⟨⟨t, v⟩, .json hd ht hv, ha⟩
        cases t with
        | primitive kind => cases h
        | enum vs => cases h
        | array e => exact structured rfl ((read_eq_none hg path).mp h)
        | object o => exact structured rfl ((read_eq_none hg path).mp h)
        | intersection members => exact structured rfl ((read_eq_none hg path).mp h)
        | reference name => exact absurd hd deref_ne_reference
        | union members =>
          rw [← Option.not_isSome_iff_eq_none,
            firstMatch_isSome_iff_of_fails fun x c => textFails_iff] at h
          push Not at h
          obtain ⟨before, m, after, rfl, hb, hm⟩ := h
          have hlt : nesting m < nesting s := by
            rcases deref_of_grounded hg hd with rfl | hground
            · exact nesting_lt (by simp [Schema.children]) rfl
            · cases hground
          obtain ⟨a, hr, ha⟩ := ih (by omega) (Option.not_isSome_iff_eq_none.mp hm)
          exact ⟨a, .alternative hd hb hr, ha⟩
  · rintro ⟨a, hr, ha⟩
    exact hr.endless hg ha n

theorem firstText_follows {steps steps' : Nat} (hsteps : steps ≤ steps') (t : Schema) :
    Follows True
      (match values with
        | [] => some ⟨none, []⟩
        | text :: _ => oneTextWithin ds extras steps t text path)
      (match values with
        | [] => some ⟨none, []⟩
        | text :: _ => oneTextWithin ds extras steps' t text path) := by
  cases values with
  | nil => exact .of_alike (.refl _)
  | cons text rest => exact oneTextWithin_follows hsteps

theorem textWithin_follows {steps steps' n m : Nat} (hsteps : steps ≤ steps') (hnm : n ≤ m) :
    Follows True (textWithin ds extras delimiter steps n s values path)
      (textWithin ds extras delimiter steps' m s values path) := by
  induction n generalizing m s with
  | zero => intro c hc; cases hc
  | succ n ih =>
    obtain ⟨m, rfl⟩ : ∃ k, m = k + 1 := ⟨m - 1, by omega⟩
    simp only [textWithin, through]
    cases deref ds maxHops s with
    | error complaint => exact .of_alike (.refl _)
    | ok t =>
      cases t with
      | array e =>
        intro c hc
        simp only [bind, pure, Option.bind_eq_some_iff, Option.some.injEq, texts_eq_mapM] at hc ⊢
        obtain ⟨cs, hcs, rfl⟩ := hc
        obtain ⟨es, hes, hce⟩ := Follows.mapM (fun x _ => oneTextWithin_follows hsteps) hcs
        exact ⟨_, ⟨es, hes, rfl⟩, (Alike.sequence hce).map _⟩
      | union members =>
        exact (Follows.firstMatch members path path _ fun x _ => ih (by omega)).weaken fun _ => rfl
      | primitive kind => exact firstText_follows hsteps _
      | enum vs => exact firstText_follows hsteps _
      | object o => exact firstText_follows hsteps _
      | intersection members => exact firstText_follows hsteps _
      | reference name => exact firstText_follows hsteps _

theorem textsFail_iff {steps n : Nat} {c : Coerced Typed}
    (hc : textWithin ds extras delimiter steps n s values path = some c) :
    TextsFail ds extras delimiter values path s ↔ c.isClean = false := by
  constructor
  · rintro ⟨steps', m, d, hd, hu⟩
    obtain ⟨e, he, hce⟩ :=
      textWithin_follows (Nat.le_max_left steps steps') (Nat.le_max_left n m) c hc
    obtain ⟨f, hf, hdf⟩ :=
      textWithin_follows (Nat.le_max_right steps steps') (Nat.le_max_right n m) d hd
    rw [he] at hf
    cases hf
    rw [hce.isClean, ← hdf.isClean, hu]
  · exact fun hu => ⟨steps, n, c, hc, hu⟩

theorem items_eq_none_iff {e : Schema} {steps : Nat} :
    (do
      let cs ← texts ds extras e path steps 0 (values.flatMap (split delimiter))
      return (Coerced.sequence cs).map Typed.array) = none ↔
      ∃ text i, (text, i) ∈ (values.flatMap (split delimiter)).zipIdx ∧
        oneTextWithin ds extras steps e text (index path i) = none := by
  have hm := mapM_isSome_iff (f := fun x => oneTextWithin ds extras steps e x.1 (index path x.2))
    (values.flatMap (split delimiter)).zipIdx
  have hbind : (do
      let cs ← texts ds extras e path steps 0 (values.flatMap (split delimiter))
      return (Coerced.sequence cs).map Typed.array) = none ↔
      texts ds extras e path steps 0 (values.flatMap (split delimiter)) = none := by
    cases texts ds extras e path steps 0 (values.flatMap (split delimiter)) <;> simp
  rw [hbind, texts_eq_mapM, ← Option.not_isSome_iff_eq_none, hm]
  simp

theorem Takes.endless (hg : ds.Grounded) {a : Attempt}
    (h : Takes ds extras delimiter values path s a) (ha : NeedsItself ds extras a)
    (steps n : Nat) : textWithin ds extras delimiter steps n s values path = none := by
  induction h generalizing n with
  | @item s e text i a hd hx h =>
    cases n with
    | zero => rfl
    | succ n =>
      simp only [textWithin, through, hd]
      exact items_eq_none_iff.mpr ⟨text, i, hx, h.endless hg ha steps⟩
  | @alternative s m before after a hd hb _ ih =>
    cases n with
    | zero => rfl
    | succ n =>
      simp only [textWithin, through, hd]
      rw [← Option.not_isSome_iff_eq_none, firstMatch_isSome_iff_of_fails fun x c => textsFail_iff]
      intro hall
      have hm := hall before m after rfl hb
      rw [ih ha n] at hm
      cases hm
  | @first s t text rest a hd harray hunion hvalues h =>
    cases n with
    | zero => rfl
    | succ n =>
      subst hvalues
      simp only [textWithin, through, hd]
      cases t with
      | array e => exact absurd rfl (harray e)
      | union members => exact absurd rfl (hunion members)
      | _ => exact h.endless hg ha steps

theorem textWithin_eq_none_iff (hg : ds.Grounded) {steps n : Nat} (hsteps : s.size < steps)
    (hn : nesting s < n) :
    textWithin ds extras delimiter steps n s values path = none ↔
      ∃ a, Takes ds extras delimiter values path s a ∧ NeedsItself ds extras a := by
  constructor
  · intro h
    induction n generalizing s with
    | zero => cases hn
    | succ n ih =>
      simp only [textWithin, through] at h
      cases hd : deref ds maxHops s with
      | error complaint => simp [hd] at h
      | ok t =>
        simp only [hd] at h
        have first : (∀ e, t ≠ .array e) → (∀ members, t ≠ .union members) →
            (match values with
              | [] => some ⟨none, []⟩
              | text :: _ => oneTextWithin ds extras steps t text path) = none →
              ∃ a, Takes ds extras delimiter values path s a ∧ NeedsItself ds extras a := by
          intro harray hunion hnone
          cases hvalues : values with
          | nil => simp [hvalues] at hnone
          | cons text rest =>
            rw [hvalues] at hnone
            have ht : nesting t < steps := by
              rcases deref_of_grounded hg hd with rfl | hground
              · exact (nesting_le t).trans_lt hsteps
              · cases t with
                | union members => cases hground
                | intersection members => cases hground
                | _ => exact Nat.zero_lt_of_lt hsteps
            obtain ⟨a, hr, ha⟩ := (oneTextWithin_eq_none_iff hg ht).mp hnone
            exact ⟨a, .first hd harray hunion rfl hr, ha⟩
        cases t with
        | array e =>
          obtain ⟨text, i, hx, hnone⟩ := items_eq_none_iff.mp h
          have he : nesting e < steps := by
            rcases deref_of_grounded hg hd with rfl | hground
            · have hlt := Schema.size_lt_of_child (s := .array e) List.mem_cons_self
              have hle := nesting_le e
              omega
            · cases hground
          obtain ⟨a, hr, ha⟩ := (oneTextWithin_eq_none_iff hg he).mp hnone
          exact ⟨a, .item hd hx hr, ha⟩
        | union members =>
          rw [← Option.not_isSome_iff_eq_none,
            firstMatch_isSome_iff_of_fails fun x c => textsFail_iff] at h
          push Not at h
          obtain ⟨before, m, after, rfl, hb, hm⟩ := h
          rcases deref_of_grounded hg hd with rfl | hground
          · have hmem : m ∈ (Schema.union (before ++ m :: after)).children := by
              simp [Schema.children]
            have hlt := Schema.size_lt_of_child hmem
            have hnest := nesting_lt hmem rfl
            obtain ⟨a, hr, ha⟩ := ih (by omega) (by omega) (Option.not_isSome_iff_eq_none.mp hm)
            exact ⟨a, .alternative hd hb hr, ha⟩
          · cases hground
        | primitive kind => exact first (by simp) (by simp) h
        | enum vs => exact first (by simp) (by simp) h
        | object o => exact first (by simp) (by simp) h
        | intersection members => exact first (by simp) (by simp) h
        | reference name => exact first (by simp) (by simp) h
  · rintro ⟨a, hr, ha⟩
    exact hr.endless hg ha steps n

/-- Texts are coerced without end exactly when a value read from them is. -/
theorem text_eq_none_iff (hg : ds.Grounded) :
    Coercion.text ds extras delimiter s values path = none ↔
      ∃ a, Takes ds extras delimiter values path s a ∧ NeedsItself ds extras a := by
  have hsize : s.size < schemaNodes ds s + 1 := Nat.lt_succ_of_le (Nat.le_add_right _ _)
  exact textWithin_eq_none_iff hg hsize ((nesting_le s).trans_lt hsize)

end

end RouteContract.Coercion

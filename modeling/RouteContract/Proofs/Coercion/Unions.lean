import RouteContract.Proofs.Coercion.Budgets
import RouteContract.Proofs.Coercion.Sameness
import RouteContract.Proofs.Schema.Unions

/-!
# Unions in normal form

A union tries its members in turn. Opening the unions among them, leaving out
repeated ones and taking enums together changes neither whether one of them
accepts nor the value that the first one gives, in a value and in texts. Only the
coercion of the union is assumed to end: a member behind the first that accepts
may never end.
-/

set_option autoImplicit false

namespace RouteContract

def Coerced.outcome {α : Type} (c : Coerced α) : Option α := if c.isClean then c.value? else none

namespace Coerced

variable {α : Type} {c : Coerced α}

theorem outcome_eq_none_iff : c.outcome = none ↔ c.isClean = false := by
  cases hv : c.value? <;> cases hr : c.reports <;> simp [outcome, isClean, hv, hr]

theorem outcome_eq_some_iff {a : α} : c.outcome = some a ↔ c = ok a := by
  obtain ⟨value?, reports⟩ := c
  cases value? <;> cases reports <;> simp [outcome, isClean, ok]

theorem outcome_orRefuse (a : Option α) (path : String) (complaint : Complaint) (raw : Json) :
    (orRefuse a path complaint raw).outcome = a := by
  cases a <;> rfl

end Coerced

namespace Coercion

section

variable (ds : Definitions) (extras : Extras)

def attempt (steps n : Nat) (i : Input) (s : Schema) (path : String) : Option (Coerced Typed) :=
  match i with
  | .json v => jsonWithin ds extras n s v path
  | .text text => oneTextWithin ds extras n s text path
  | .texts delimiter values => textWithin ds extras delimiter steps n s values path

variable (i : Input) (path : String)

def Yields (s : Schema) (r : Option Typed) : Prop :=
  ∃ c, Gives ds extras ⟨s, i, path⟩ c ∧ c.outcome = r

inductive Tries : List Schema → Option Typed → Prop
  | exhausted : Tries [] none
  | taken {m : Schema} {ms : List Schema} {t : Typed} (h : Yields ds extras i path m (some t)) :
      Tries (m :: ms) (some t)
  | passed {m : Schema} {ms : List Schema} {r : Option Typed}
      (h : Yields ds extras i path m none) (hrest : Tries ms r) : Tries (m :: ms) r

end

section

variable {ds : Definitions} {extras : Extras} {i : Input} {path : String}

theorem gives_iff {s : Schema} {c : Coerced Typed} :
    Gives ds extras ⟨s, i, path⟩ c ↔ ∃ steps n, attempt ds extras steps n i s path = some c := by
  cases i with
  | json v => exact ⟨fun h => ⟨0, h⟩, fun ⟨_, h⟩ => h⟩
  | text text => exact ⟨fun h => ⟨0, h⟩, fun ⟨_, h⟩ => h⟩
  | texts delimiter values => exact Iff.rfl

theorem attempt_mono {steps steps' n m : Nat} (hsteps : steps ≤ steps') (hnm : n ≤ m) {s : Schema}
    {c : Coerced Typed} (h : attempt ds extras steps n i s path = some c) :
    attempt ds extras steps' m i s path = some c := by
  cases i with
  | json v => exact jsonWithin_mono hnm h
  | text text =>
    obtain ⟨d, hd, hcd⟩ := oneTextWithin_follows hnm c h
    exact hcd.eq trivial ▸ hd
  | texts delimiter values =>
    obtain ⟨d, hd, hcd⟩ := textWithin_follows hsteps hnm c h
    exact hcd.eq trivial ▸ hd

theorem attempt_zero (steps : Nat) (s : Schema) : attempt ds extras steps 0 i s path = none := by
  cases i <;> rfl

theorem attempt_union (steps n : Nat) (ms : List Schema) :
    attempt ds extras steps (n + 1) i (.union ms) path =
      firstMatch (attempt ds extras steps n i · path) ms path i.raw ms := by
  cases i <;> rfl

theorem tries_of_firstMatch {steps n : Nat} {all ms : List Schema} {raw : Json}
    {c : Coerced Typed}
    (h : firstMatch (attempt ds extras steps n i · path) all path raw ms = some c) :
    Tries ds extras i path ms c.outcome := by
  induction ms with
  | nil =>
    cases h
    exact .exhausted
  | cons m ms ih =>
    cases hm : attempt ds extras steps n i m path with
    | none => simp [firstMatch, hm] at h
    | some d =>
      have hgives : Gives ds extras ⟨m, i, path⟩ d := gives_iff.mpr ⟨steps, n, hm⟩
      cases hd : d.isClean with
      | true =>
        obtain ⟨⟨t, ht⟩, hreports⟩ := Coerced.isClean_iff.mp hd
        obtain rfl : Coerced.ok t = c := by
          simpa [firstMatch, hm, hd, ht, Coerced.ok] using h
        exact .taken ⟨d, hgives, by simp [Coerced.outcome, hd, ht]⟩
      | false =>
        have hrest := ih (by simpa [firstMatch, hm, hd] using h)
        exact .passed ⟨d, hgives, Coerced.outcome_eq_none_iff.mpr hd⟩ hrest

theorem firstMatch_of_tries {ms : List Schema} {r : Option Typed}
    (h : Tries ds extras i path ms r) (all : List Schema) (raw : Json) :
    ∃ N, ∀ n, N ≤ n → ∃ c, firstMatch (attempt ds extras n n i · path) all path raw ms = some c ∧
      c.outcome = r := by
  induction h with
  | exhausted => exact ⟨0, fun n _ => ⟨_, rfl, rfl⟩⟩
  | @taken m ms t h =>
    obtain ⟨c, hc, hr⟩ := h
    obtain rfl := Coerced.outcome_eq_some_iff.mp hr
    obtain ⟨steps, k, hk⟩ := gives_iff.mp hc
    refine ⟨max steps k, fun n hn => ⟨.ok t, ?_, hr⟩⟩
    have hm := attempt_mono (le_of_max_le_left hn) (le_of_max_le_right hn) hk
    simp [firstMatch, hm, Coerced.isClean, Coerced.ok]
  | @passed m ms r h _ ih =>
    obtain ⟨c, hc, hr⟩ := h
    obtain ⟨steps, k, hk⟩ := gives_iff.mp hc
    obtain ⟨N, hN⟩ := ih
    refine ⟨max N (max steps k), fun n hn => ?_⟩
    obtain ⟨d, hd, hdr⟩ := hN n (le_of_max_le_left hn)
    have hsteps := le_of_max_le_right hn
    have hm := attempt_mono (le_of_max_le_left hsteps) (le_of_max_le_right hsteps) hk
    exact ⟨d, by simp [firstMatch, hm, Coerced.outcome_eq_none_iff.mp hr, hd], hdr⟩

/-- A union yields what trying its members does. -/
theorem yields_union_iff {ms : List Schema} {r : Option Typed} :
    Yields ds extras i path (.union ms) r ↔ Tries ds extras i path ms r := by
  constructor
  · rintro ⟨c, hc, rfl⟩
    obtain ⟨steps, n, hn⟩ := gives_iff.mp hc
    cases n with
    | zero => rw [attempt_zero] at hn; cases hn
    | succ n => exact tries_of_firstMatch (attempt_union steps n ms ▸ hn)
  · intro h
    obtain ⟨n, hn⟩ := firstMatch_of_tries h ms i.raw
    obtain ⟨c, hc, hr⟩ := hn n (Nat.le_refl n)
    exact ⟨c, gives_iff.mpr ⟨n, n + 1, (attempt_union n n ms).trans hc⟩, hr⟩

theorem Yields.agrees {s t : Schema} (h : Yields ds extras i path s none) (hst : s.Agrees t) :
    Yields ds extras i path t none := by
  obtain ⟨c, hc, hr⟩ := h
  obtain ⟨d, hd, hclean⟩ := hc.agrees hst
  exact ⟨d, hd, Coerced.outcome_eq_none_iff.mpr (hclean ▸ Coerced.outcome_eq_none_iff.mp hr)⟩

theorem tries_append {xs ys : List Schema} {r : Option Typed} :
    Tries ds extras i path (xs ++ ys) r ↔
      (∃ t, r = some t ∧ Tries ds extras i path xs r) ∨
        (Tries ds extras i path xs none ∧ Tries ds extras i path ys r) := by
  induction xs with
  | nil =>
    refine ⟨fun h => .inr ⟨.exhausted, h⟩, ?_⟩
    rintro (⟨t, rfl, h⟩ | ⟨-, h⟩)
    · cases h
    · exact h
  | cons x xs ih =>
    constructor
    · intro h
      cases h with
      | taken h => exact .inl ⟨_, rfl, .taken h⟩
      | passed h hrest =>
        rcases ih.mp hrest with ⟨t, rfl, hxs⟩ | ⟨hxs, hys⟩
        · exact .inl ⟨t, rfl, .passed h hxs⟩
        · exact .inr ⟨.passed h hxs, hys⟩
    · rintro (⟨t, rfl, h⟩ | ⟨h, hys⟩)
      · cases h with
        | taken h => exact .taken h
        | passed h hrest => exact .passed h (ih.mpr (.inl ⟨t, rfl, hrest⟩))
      · cases h with
        | passed h hrest => exact .passed h (ih.mpr (.inr ⟨hrest, hys⟩))

theorem tries_singleton {s : Schema} {r : Option Typed} :
    Tries ds extras i path [s] r ↔ Yields ds extras i path s r := by
  constructor
  · intro h
    cases h with
    | taken h => exact h
    | passed h hrest =>
      cases hrest
      exact h
  · intro h
    cases r with
    | none => exact .passed h .exhausted
    | some t => exact .taken h

/-- Members that are unions may be opened. -/
theorem tries_opened {ms : List Schema} {r : Option Typed}
    (h : Tries ds extras i path (ms.flatMap Schema.opened) r) : Tries ds extras i path ms r := by
  induction ms with
  | nil => exact h
  | cons m ms ih =>
    have hopened : ∀ r, Tries ds extras i path m.opened r → Tries ds extras i path [m] r := by
      intro r h
      cases m with
      | union nested => exact tries_singleton.mpr (yields_union_iff.mpr h)
      | _ => exact h
    rw [← List.singleton_append, tries_append]
    rw [List.flatMap_cons, tries_append] at h
    rcases h with ⟨t, rfl, hm⟩ | ⟨hm, hrest⟩
    · exact .inl ⟨t, rfl, hopened _ hm⟩
    · exact .inr ⟨hopened _ hm, ih hrest⟩

theorem exists_passed {ms : List Schema} (h : Tries ds extras i path ms none) {m : Schema}
    (hm : m ∈ ms) : Yields ds extras i path m none := by
  induction ms with
  | nil => cases hm
  | cons x ms ih =>
    cases h with
    | passed hx hrest =>
      rcases List.mem_cons.mp hm with rfl | hm
      · exact hx
      · exact ih hrest hm

/-- A member that is refused with an earlier one may be repeated. -/
theorem tries_repeated {kept rest : List Schema} {x : Schema} {r : Option Typed}
    (hx : Tries ds extras i path kept none → Yields ds extras i path x none)
    (h : Tries ds extras i path (kept ++ rest) r) : Tries ds extras i path (kept ++ x :: rest) r := by
  rw [tries_append] at h ⊢
  exact h.imp_right fun ⟨hkept, hrest⟩ => ⟨hkept, .passed (hx hkept) hrest⟩

/-- Members that are the same as earlier ones may be left out. -/
theorem tries_distinct {kept xs : List Schema} {r : Option Typed} (hkept : ∀ k ∈ kept, k.Keyed)
    (hxs : ∀ x ∈ xs, x.Keyed) (h : Tries ds extras i path (xs.foldl Schema.addMember kept) r) :
    Tries ds extras i path (kept ++ xs) r := by
  induction xs generalizing kept with
  | nil => simpa using h
  | cons x xs ih =>
    have hrest : ∀ y ∈ xs, y.Keyed := fun y hy => hxs y (List.mem_cons_of_mem x hy)
    rw [List.foldl_cons, Schema.addMember] at h
    split at h
    · rename_i hany
      obtain ⟨k, hk, hsame⟩ := List.any_eq_true.mp hany
      refine tries_repeated (fun hnone => ?_) (ih hkept hrest h)
      exact (exists_passed hnone hk).agrees (Schema.agrees_of_same (hkept k hk) hsame)
    · have happend : ∀ k ∈ kept ++ [x], k.Keyed := by
        intro k hk
        rcases List.mem_append.mp hk with hk | hk
        · exact hkept k hk
        · exact hxs k (by simp [List.mem_singleton.mp hk])
      simpa using ih happend hrest h

end

def listed : Input → EnumValue → Option Typed
  | .json v, e => listedJson? [e] v
  | .text text, e => listedText? [e] text
  | .texts _ [], _ => none
  | .texts _ (text :: _), e => listedText? [e] text

section

variable {ds : Definitions} {extras : Extras} {i : Input} {path : String} {values : List EnumValue}

theorem listedNumber_of_same {x y : Number.Binary64} (h : x.same y) :
    listedNumber x = listedNumber y := by
  rcases Number.Binary64.same_iff.mp h with rfl | ⟨hx, hy⟩
  · rfl
  · simp [listedNumber, integral?, Number.Binary64.toInt?_of_isZero hx,
      Number.Binary64.toInt?_of_isZero hy, integer64?]

theorem listedText?_respected (text : String) :
    EnumValue.Respected fun e => listedText? [e] text := by
  intro a b hab
  cases a with
  | string s =>
    cases b with
    | string t =>
      obtain rfl : s = t := by simpa [EnumValue.same] using hab
      rfl
    | number y => cases hab
  | number x =>
    cases b with
    | string t => cases hab
    | number y =>
      have hsame : ∀ z : Number.Binary64, z.same x = z.same y := Number.Binary64.same_congr hab
      simp [listedText?, hsame, listedNumber_of_same hab]

theorem listedJson?_respected (v : Json) : EnumValue.Respected fun e => listedJson? [e] v := by
  intro a b hab
  cases a with
  | string s =>
    cases b with
    | string t =>
      obtain rfl : s = t := by simpa [EnumValue.same] using hab
      rfl
    | number y => cases hab
  | number x =>
    cases b with
    | string t => cases hab
    | number y =>
      have hsame : ∀ z : Number.Binary64, z.same x = z.same y := Number.Binary64.same_congr hab
      simp [listedJson?, hsame, listedNumber_of_same hab]

theorem listed_respected (i : Input) : EnumValue.Respected (listed i) := by
  match i with
  | .json v => exact listedJson?_respected v
  | .text text => exact listedText?_respected text
  | .texts _ [] => exact fun _ _ _ => rfl
  | .texts _ (text :: _) => exact listedText?_respected text

theorem listedJson?_eq (v : Json) :
    listedJson? values v = values.findSome? fun e => listedJson? [e] v := by
  simp [listedJson?]

theorem listedText?_eq (text : String) :
    listedText? values text = values.findSome? fun e => listedText? [e] text := by
  simp [listedText?]

/-- An enum yields the first of its values that the input is. -/
theorem yields_enum_iff {r : Option Typed} :
    Yields ds extras i path (.enum values) r ↔ values.findSome? (listed i) = r := by
  have hgives : ∃ c, Gives ds extras ⟨.enum values, i, path⟩ c ∧
      c.outcome = values.findSome? (listed i) := by
    match i with
    | .json v =>
      refine ⟨_, ⟨1, rfl⟩, ?_⟩
      rw [Coerced.outcome_orRefuse, listedJson?_eq]
      rfl
    | .text text =>
      refine ⟨_, ⟨1, rfl⟩, ?_⟩
      rw [Coerced.outcome_orRefuse, listedText?_eq]
      rfl
    | .texts _ [] => exact ⟨_, ⟨0, 1, rfl⟩, (List.findSome?_eq_none_iff.mpr fun _ _ => rfl).symm⟩
    | .texts _ (text :: _) =>
      refine ⟨_, ⟨1, 1, rfl⟩, ?_⟩
      rw [Coerced.outcome_orRefuse, listedText?_eq]
      rfl
  obtain ⟨c, hc, hr⟩ := hgives
  constructor
  · rintro ⟨d, hd, rfl⟩
    rw [hd.unique hc, hr]
  · exact fun h => ⟨c, hc, hr.trans h⟩

theorem tries_enums {vss : List (List EnumValue)} {r : Option Typed}
    (h : vss.flatten.findSome? (listed i) = r) :
    Tries ds extras i path (vss.map Schema.enum) r := by
  induction vss generalizing r with
  | nil =>
    cases h
    exact .exhausted
  | cons vs vss ih =>
    rw [List.flatten_cons, List.findSome?_append] at h
    cases hvs : vs.findSome? (listed i) with
    | none => exact .passed (yields_enum_iff.mpr hvs) (ih (by simpa [hvs] using h))
    | some t =>
      obtain rfl : some t = r := by simpa [hvs] using h
      exact .taken (yields_enum_iff.mpr hvs)

/-- A union in normal form yields what trying the members yields. -/
theorem tries_of_unionOf {ms : List Schema} {r : Option Typed} (hms : ∀ m ∈ ms, m.Keyed)
    (h : Yields ds extras i path (Schema.unionOf ms) r) : Tries ds extras i path ms r := by
  have hopened : ∀ x ∈ ms.flatMap Schema.opened, x.Keyed := by
    intro x hx
    obtain ⟨m, hm, hx⟩ := List.mem_flatMap.mp hx
    cases m with
    | union nested => exact (hms _ hm).of_child hx
    | _ => exact List.mem_singleton.mp hx ▸ hms _ hm
  have hflat : Tries ds extras i path (Schema.flatten ms) r → Tries ds extras i path ms r := by
    intro h
    rw [Schema.flatten_eq] at h
    exact tries_opened (tries_distinct (by simp) hopened h)
  refine hflat ?_
  unfold Schema.unionOf at h
  split at h
  · rename_i s hs
    rw [hs]
    exact tries_singleton.mpr h
  · split at h
    · rename_i values hvalues
      obtain ⟨vss, hvss, hfind⟩ := Schema.collapse?_eq_some hvalues
      rw [hvss]
      have hr := yields_enum_iff.mp h
      rw [hfind (listed_respected i), List.nil_append] at hr
      exact tries_enums hr
    · exact yields_union_iff.mp h

theorem exists_taken {ms : List Schema} {t : Typed} (h : Tries ds extras i path ms (some t)) :
    ∃ before m after, ms = before ++ m :: after ∧ (∀ x ∈ before, Yields ds extras i path x none) ∧
      Yields ds extras i path m (some t) := by
  induction ms with
  | nil => cases h
  | cons m ms ih =>
    cases h with
    | taken h => exact ⟨[], m, ms, rfl, by simp, h⟩
    | passed h hrest =>
      obtain ⟨before, m', after, rfl, hbefore, hm'⟩ := ih hrest
      exact ⟨m :: before, m', after, rfl, List.forall_mem_cons.mpr ⟨h, hbefore⟩, hm'⟩

end

structure FirstOf (run : Schema → Option (Coerced Typed)) (ms : List Schema) (c : Coerced Typed) :
    Prop where
  accepts : c.isClean ↔ ∃ m ∈ ms, ∃ d, run m = some d ∧ d.isClean
  first : c.isClean → ∃ before m after, ms = before ++ m :: after ∧
    (∀ x ∈ before, ∃ d, run x = some d ∧ d.isClean = false) ∧ run m = some c

section

variable {ds : Definitions} {extras : Extras} {i : Input} {path : String}

theorem firstOf_of_tries {run : Schema → Option (Coerced Typed)}
    (hrun : ∀ s c, Gives ds extras ⟨s, i, path⟩ c ↔ run s = some c) {ms : List Schema}
    {c : Coerced Typed} (h : Tries ds extras i path ms c.outcome) : FirstOf run ms c := by
  have taken : c.isClean → ∃ before m after, ms = before ++ m :: after ∧
      (∀ x ∈ before, ∃ d, run x = some d ∧ d.isClean = false) ∧ run m = some c := by
    intro hclean
    obtain ⟨⟨t, ht⟩, -⟩ := Coerced.isClean_iff.mp hclean
    have hc : c.outcome = some t := by simp [Coerced.outcome, hclean, ht]
    obtain ⟨before, m, after, rfl, hbefore, d, hd, hr⟩ := exists_taken (hc ▸ h)
    rw [Coerced.outcome_eq_some_iff, ← Coerced.outcome_eq_some_iff.mp hc] at hr
    refine ⟨before, m, after, rfl, fun x hx => ?_, (hrun m c).mp (hr ▸ hd)⟩
    obtain ⟨e, he, hr⟩ := hbefore x hx
    exact ⟨e, (hrun x e).mp he, Coerced.outcome_eq_none_iff.mp hr⟩
  refine ⟨⟨fun hclean => ?_, ?_⟩, taken⟩
  · obtain ⟨before, m, after, rfl, -, hm⟩ := taken hclean
    exact ⟨m, by simp, c, hm, hclean⟩
  · rintro ⟨m, hm, d, hd, hclean⟩
    by_contra hunclean
    have hnone : c.outcome = none :=
      Coerced.outcome_eq_none_iff.mpr (Bool.not_eq_true _ ▸ hunclean)
    obtain ⟨e, he, hr⟩ := exists_passed (hnone ▸ h) hm
    rw [he.unique ((hrun m d).mpr hd), Coerced.outcome_eq_none_iff, hclean] at hr
    cases hr

/-- A union in normal form accepts a value, or the texts of a key, exactly if one of the schemas
does that it is made of, and gives what the first of these gives. -/
theorem unionOf_first {ms : List Schema} (hms : ∀ m ∈ ms, m.Keyed) (path : String) :
    (∀ v c, json ds extras (Schema.unionOf ms) v path = some c →
      FirstOf (fun s => json ds extras s v path) ms c) ∧
    ∀ delimiter values c, text ds extras delimiter (Schema.unionOf ms) values path = some c →
      FirstOf (fun s => text ds extras delimiter s values path) ms c := by
  refine ⟨fun v c hc => ?_, fun delimiter values c hc => ?_⟩
  · exact firstOf_of_tries (fun _ _ => gives_json_iff)
      (tries_of_unionOf hms ⟨c, gives_json_iff.mpr hc, rfl⟩)
  · exact firstOf_of_tries (fun _ _ => gives_texts_iff)
      (tries_of_unionOf hms ⟨c, gives_texts_iff.mpr hc, rfl⟩)

end

namespace Sample

def text : String × PropertySchema Schema := ("a", ⟨.primitive .string, true, none, none⟩)

def zero (negative : Bool) : String × PropertySchema Schema :=
  ("b", ⟨.primitive .number, false, some (.float (.zero negative)), none⟩)

def respelled : List Schema :=
  [.object ⟨[text, zero true], .implicit⟩,
    .union [.object ⟨[zero false, text], .implicit⟩, .primitive .string]]

theorem respelled_unionOf : Schema.unionOf respelled =
    .union [.object ⟨[text, zero true], .implicit⟩, .primitive .string] := by
  cbv

theorem respelled_keyed : ∀ m ∈ respelled, m.Keyed := by
  have hprimitive : ∀ kind, (Schema.primitive kind).Keyed :=
    fun kind => Schema.keyed_of_children (by simp) (by simp [Schema.children])
  have hfloat : ∀ x, (Json.float x).Keyed := by
    intro x fields h
    simp [Tree.nodes_eq, Json.tree, Json.children] at h
  have hobject : ∀ ps, (Entries.keys ps).Nodup →
      (∀ x ∈ ps, x = text ∨ ∃ negative, x = zero negative) →
        (Schema.object ⟨ps, .implicit⟩).Keyed := by
    intro ps hnodup hps
    refine Schema.keyed_of_children ?_ fun t ht => ?_
    · rintro o ho
      cases ho
      refine ⟨hnodup, fun name p v hp hv => ?_⟩
      rcases hps _ hp with h | ⟨negative, h⟩
      · cases h
        cases hv
      · cases h
        cases hv
        exact hfloat _
    · rcases Schema.mem_children_object.mp ht with ⟨name, p, hp, rfl⟩ | h
      · rcases hps _ hp with h | ⟨negative, h⟩ <;> cases h <;> exact hprimitive _
      · cases h
  have hnested : (Schema.union [.object ⟨[zero false, text], .implicit⟩, .primitive .string]).Keyed :=
    Schema.keyed_of_children (by simp) (by
      simp only [Schema.children, List.forall_mem_cons]
      exact ⟨hobject _ (by decide) (by simp), hprimitive _, by simp⟩)
  simp only [respelled, List.forall_mem_cons]
  exact ⟨hobject _ (by decide) (by simp), hnested, by simp⟩

/-- The repeated object is tried once, and the text is still that of the second schema. -/
theorem respelled_first : (∀ m ∈ respelled, m.Keyed) ∧
    json [] .drop (Schema.unionOf respelled) (.string "x") "" = some (.ok (.string "x")) ∧
    FirstOf (fun s => json [] .drop s (.string "x") "") respelled (.ok (.string "x")) := by
  have hunion : json [] .drop (Schema.unionOf respelled) (.string "x") "" =
      some (.ok (.string "x")) := by
    rw [respelled_unionOf]
    rfl
  exact ⟨respelled_keyed, hunion, (unionOf_first respelled_keyed "").1 _ _ hunion⟩

end Sample

end Coercion

end RouteContract
